import Mathlib.Data.List.Induction
import Mathlib.Data.List.Perm.Subperm
import Mathlib.Logic.Relation
import Renamer.Override.Walk
import Renamer.Proofs.Declared
import Renamer.Proofs.Tables

/-!
# The walk over the hierarchy

`Program.Reaches` is the relation between a type and the types above it, itself among them. The
override walk keeps a list of visited types and a bound on its depth; this file shows that it
visits exactly the types reached, on every hierarchy, circles included.

What carries the induction is `Walked`: the list of visited types only grows, and whatever is new
on it has all its parents on it too. So a walk that has come back is closed under parents.
-/

namespace Renamer
namespace Program

variable {p q : Program}

/-! ## Reaching types -/

/-- `a` has a reference, to its super type or an interface, that resolves to `b`. -/
def Refers (p : Program) (a b : TypeId) : Prop :=
  ∃ t, p.types.get? a = some t ∧ ∃ name ∈ t.references, p.lookup name = some b

/-- `b` is `a` or is above it, through any number of references that resolve. -/
def Reaches (p : Program) : TypeId → TypeId → Prop := Relation.ReflTransGen p.Refers

/-- The hierarchy is a matter of declarations. -/
theorem Refers.of_declared (h : p.declared = q.declared) {a b : TypeId} (hab : p.Refers a b) :
    q.Refers a b := by
  obtain ⟨t, ht, name, hname, hlookup⟩ := hab
  obtain ⟨t', ht', he⟩ := type_of_declared h ht
  refine ⟨t', ht', name, ?_, ?_⟩
  · rwa [TypeSymbol.agree he TypeSymbol.references fun _ => rfl]
  · rwa [← lookup_of_declared h]

theorem reaches_of_declared (h : p.declared = q.declared) {a b : TypeId} :
    p.Reaches a b ↔ q.Reaches a b :=
  ⟨fun hab => Relation.ReflTransGen.mono (fun _ _ => Refers.of_declared h) a b hab,
    fun hab => Relation.ReflTransGen.mono (fun _ _ => Refers.of_declared h.symm) a b hab⟩

theorem get?_of_typeNamed {name : String} {e : TypeId × TypeSymbol}
    (h : p.typeNamed name = some e) : p.types.get? e.1 = some e.2 :=
  Arena.mem_entries_iff.mp (List.mem_reverse.mp (List.mem_of_find?_eq_some h))

/-- The parents of a type are those it refers to. -/
theorem refers_iff_mem_parents {ty : TypeId} {t : TypeSymbol} (ht : p.types.get? ty = some t)
    {b : TypeId} : p.Refers ty b ↔ ∃ u, (b, u) ∈ p.parents t := by
  constructor
  · intro h
    rcases h with ⟨t', ht', name, hname, hlookup⟩
    rw [ht] at ht'
    cases ht'
    obtain ⟨⟨i, u⟩, he, rfl⟩ := Option.map_eq_some_iff.mp hlookup
    exact ⟨u, List.mem_filterMap.mpr ⟨name, hname, he⟩⟩
  · intro h
    rcases h with ⟨u, hu⟩
    obtain ⟨name, hname, he⟩ := List.mem_filterMap.mp hu
    exact ⟨t, ht, name, hname, by rw [lookup, he]; rfl⟩

theorem get?_of_mem_parents {t : TypeSymbol} {e : TypeId × TypeSymbol} (h : e ∈ p.parents t) :
    p.types.get? e.1 = some e.2 := by
  obtain ⟨name, -, he⟩ := List.mem_filterMap.mp h
  exact get?_of_typeNamed he

theorem mem_virtualMethods {ty : TypeId} {key : String} {id : MethodId} :
    id ∈ p.virtualMethods ty key ↔ ∃ m, p.methods.get? id = some m ∧ m.owner = ty ∧
      m.isVirtual = true ∧ m.key = key := by
  rw [virtualMethods, List.mem_map]
  constructor
  · intro h
    rcases h with ⟨⟨i, m⟩, he, rfl⟩
    obtain ⟨hmem, hm⟩ := List.mem_filter.mp he
    obtain ⟨hget, howner⟩ := mem_methodsOf.mp hmem
    simp only [Bool.and_eq_true, beq_iff_eq] at hm
    exact ⟨m, hget, howner, hm⟩
  · intro h
    rcases h with ⟨m, hget, howner, hm⟩
    exact ⟨(id, m), List.mem_filter.mpr ⟨mem_methodsOf.mpr ⟨hget, howner⟩, by simpa using hm⟩, rfl⟩

end Program

namespace OverrideWalk

/-! ## What a stretch of the walk does -/

theorem join_origins (here : TypeId) (origin inherited : Option TypeId) (w : OverrideWalk) :
    (join here origin inherited w).2.origins = w.origins := by
  unfold join
  split
  · rfl
  · rfl
  · split
    · rfl
    · split <;> rfl

theorem join_found (here : TypeId) (origin inherited : Option TypeId) (w : OverrideWalk) :
    (join here origin inherited w).2.found = w.found := by
  unfold join
  split
  · rfl
  · rfl
  · split
    · rfl
    · split <;> rfl

/-- Between `w` and `w'` the types `new` were visited, each with all that is above it, and their
methods found in this order. -/
structure Walked (p : Program) (key : String) (w w' : OverrideWalk) (new : List TypeId) : Prop where
  keys : w'.origins.keys = w.origins.keys ++ new
  found : w'.found = w.found ++ new.flatMap fun ty => p.virtualMethods ty key
  valid : ∀ ty ∈ new, ∃ t, p.types.get? ty = some t
  closed : ∀ ty ∈ new, ∀ parent, p.Refers ty parent → parent ∈ w'.origins.keys

variable {p : Program} {key : String}

theorem Walked.refl (w : OverrideWalk) : Walked p key w w [] := by
  constructor <;> simp

theorem Walked.trans {w w' w'' : OverrideWalk} {new new' : List TypeId}
    (h : Walked p key w w' new) (h' : Walked p key w' w'' new') :
    Walked p key w w'' (new ++ new') where
  keys := by rw [h'.keys, h.keys, List.append_assoc]
  found := by rw [h'.found, h.found, List.flatMap_append, List.append_assoc]
  valid := by
    intro ty hty
    rcases List.mem_append.mp hty with hty | hty
    · exact h.valid ty hty
    · exact h'.valid ty hty
  closed := by
    intro ty hty parent hparent
    rcases List.mem_append.mp hty with hty | hty
    · rw [h'.keys]
      exact List.mem_append_left _ (h.closed ty hty parent hparent)
    · exact h'.closed ty hty parent hparent

theorem Walked.join {w w' : OverrideWalk} {new : List TypeId} (h : Walked p key w w' new)
    (here : TypeId) (origin inherited : Option TypeId) :
    Walked p key w (join here origin inherited w').2 new where
  keys := by rw [join_origins, h.keys]
  found := by rw [join_found, h.found]
  valid := h.valid
  closed := by
    rw [join_origins]
    exact h.closed

/-- Of the types visited, each is a type of the program. -/
def Valid (p : Program) (w : OverrideWalk) : Prop :=
  ∀ ty ∈ w.origins.keys, ∃ t, p.types.get? ty = some t

theorem Walked.valid_of_valid {w w' : OverrideWalk} {new : List TypeId}
    (h : Walked p key w w' new) (hw : w.Valid p) : w'.Valid p := by
  intro ty hty
  rw [h.keys] at hty
  rcases List.mem_append.mp hty with hty | hty
  · exact hw ty hty
  · exact h.valid ty hty

/-- No more types are visited than there are. -/
theorem Valid.length_le {w : OverrideWalk} (hw : w.Valid p) :
    w.origins.keys.length ≤ p.types.size := by
  have hnodup : (w.origins.keys.map Slot.index).Nodup :=
    List.Nodup.map (fun a b h => by cases a; cases b; cases h; rfl) w.origins.nodup_keys
  have hsub : w.origins.keys.map Slot.index ⊆ List.range p.types.size := by
    intro n hn
    obtain ⟨ty, hty, rfl⟩ := List.mem_map.mp hn
    obtain ⟨t, ht⟩ := hw ty hty
    exact List.mem_range.mpr (Arena.index_lt_of_get? ht)
  have hle := (hnodup.subperm hsub).length_le
  rwa [List.length_map, List.length_range] at hle

/-! ## The steps of a visit -/

/-- Enough depth is left for the types that have not been visited. -/
def Deep (p : Program) (depth : Nat) (w : OverrideWalk) : Prop :=
  p.types.size < depth + w.origins.keys.length

theorem Deep.ne_zero {depth : Nat} {w : OverrideWalk} (h : Deep p depth w) (hw : w.Valid p) :
    depth ≠ 0 := by
  rintro rfl
  have hle := hw.length_le
  unfold Deep at h
  omega

/-- A walk that has grown has more depth left than it needs. -/
theorem Walked.deep {w w' : OverrideWalk} {new : List TypeId} (h : Walked p key w w' new)
    {depth : Nat} (hdeep : Deep p depth w) : Deep p depth w' := by
  unfold Deep at hdeep ⊢
  rw [h.keys, List.length_append]
  omega

/-- What a visit of `ty` starts with: `ty` is noted before its parents are visited, which ends the
walk in a circle, and its own methods are found. -/
def enter (p : Program) (key : String) (ty : TypeId) (w : OverrideWalk) : OverrideWalk :=
  { w with origins := w.origins.insert ty none, found := w.found ++ p.virtualMethods ty key }

theorem keys_enter {ty : TypeId} {w : OverrideWalk} (hty : ty ∉ w.origins.keys) :
    (enter p key ty w).origins.keys = w.origins.keys ++ [ty] := by
  rw [enter, Table.keys_insert, if_neg hty]

theorem Valid.enter {ty : TypeId} {t : TypeSymbol} {w : OverrideWalk} (hw : w.Valid p)
    (ht : p.types.get? ty = some t) (hty : ty ∉ w.origins.keys) :
    (OverrideWalk.enter p key ty w).Valid p := by
  intro x hx
  rw [keys_enter hty, List.mem_append, List.mem_singleton] at hx
  rcases hx with hx | rfl
  · exact hw x hx
  · exact ⟨t, ht⟩

theorem Deep.enter {depth : Nat} {ty : TypeId} {w : OverrideWalk} (h : Deep p (depth + 1) w)
    (hty : ty ∉ w.origins.keys) : Deep p depth (OverrideWalk.enter p key ty w) := by
  unfold Deep at h ⊢
  rw [keys_enter hty, List.length_append, List.length_singleton]
  omega

/-- A type that is new is visited together with what its parents add. Noting its origin in the end
is no visit. -/
theorem Walked.noted {w w' : OverrideWalk} {ty : TypeId} {t : TypeSymbol} {new : List TypeId}
    (h : Walked p key (enter p key ty w) w' new) (ht : p.types.get? ty = some t)
    (hty : ty ∉ w.origins.keys)
    (hparents : ∀ parent, p.Refers ty parent → parent ∈ w'.origins.keys) (origin : Option TypeId) :
    Walked p key w { w' with origins := w'.origins.insert ty origin } (ty :: new) := by
  have hkeys : w'.origins.keys = w.origins.keys ++ ty :: new := by
    rw [h.keys, keys_enter hty, List.append_assoc, List.singleton_append]
  have hnoted : (w'.origins.insert ty origin).keys = w'.origins.keys := by
    rw [Table.keys_insert, if_pos (by simp [hkeys])]
  constructor
  · exact hnoted.trans hkeys
  · rw [h.found, List.flatMap_cons, ← List.append_assoc]
    rfl
  · exact List.forall_mem_cons.mpr ⟨⟨t, ht⟩, h.valid⟩
  · dsimp only
    rw [hnoted]
    exact List.forall_mem_cons.mpr ⟨hparents, h.closed⟩

/-- What is known of `ty` before its parents are visited. -/
def start (p : Program) (key : String) (ty : TypeId) (w : OverrideWalk) :
    Option TypeId × OverrideWalk :=
  (if (p.virtualMethods ty key).isEmpty then none else some ty, enter p key ty w)

/-- Visits one parent of `ty` after others. -/
def visitParent (p : Program) (key : String) (depth : Nat) (ty : TypeId)
    (s : Option TypeId × OverrideWalk) (parent : TypeId × TypeSymbol) :
    Option TypeId × OverrideWalk :=
  join ty s.1 (visit p key depth parent s.2).1 (visit p key depth parent s.2).2

/-- A visit of a type that is new visits its parents one after the other. -/
theorem visit_of_new {depth : Nat} {ty : TypeId} {t : TypeSymbol} {w : OverrideWalk}
    (hty : w.origins.get? ty = none) :
    visit p key (depth + 1) (ty, t) w =
      let s := (p.parents t).foldl (visitParent p key depth ty) (start p key ty w)
      (s.1, { s.2 with origins := s.2.origins.insert ty s.1 }) := by
  rw [visit]
  simp only [hty]
  rfl

theorem visit_of_known {depth : Nat} {e : TypeId × TypeSymbol} {w : OverrideWalk}
    {known : Option TypeId} (h : w.origins.get? e.1 = some known) :
    visit p key (depth + 1) e w = (known, w) := by
  obtain ⟨ty, t⟩ := e
  rw [visit]
  simp only [h]

/-- What holds before the parents of a type are visited and is kept by each visit holds after all
of them, where visits only add to what has been visited. The motive knows which parents have been
visited, and every visit starts from a walk with enough depth left. -/
theorem foldl_visitParent_induct {depth : Nat} (ty : TypeId)
    (hgrows : ∀ {e w}, p.types.get? e.1 = some e.2 → w.Valid p → Deep p depth w →
      ∃ new, Walked p key w (visit p key depth e w).2 new)
    {parents : List (TypeId × TypeSymbol)} (hparents : ∀ e ∈ parents, p.types.get? e.1 = some e.2)
    {s : Option TypeId × OverrideWalk} (hvalid : s.2.Valid p) (hdeep : Deep p depth s.2)
    {motive : List (TypeId × TypeSymbol) → Option TypeId × OverrideWalk → Prop}
    (start : motive [] s)
    (step : ∀ done parent s, parent ∈ parents → s.2.Valid p → Deep p depth s.2 → motive done s →
      motive (done ++ [parent]) (visitParent p key depth ty s parent)) :
    motive parents (parents.foldl (visitParent p key depth ty) s) := by
  have hall : ∀ done rest, parents = done ++ rest →
      motive done (done.foldl (visitParent p key depth ty) s) ∧
        (done.foldl (visitParent p key depth ty) s).2.Valid p ∧
        Deep p depth (done.foldl (visitParent p key depth ty) s).2 := by
    intro done
    induction done using List.reverseRecOn with
    | nil => exact fun _ _ => ⟨start, hvalid, hdeep⟩
    | append_singleton done parent ih =>
      intro rest heq
      rw [List.append_assoc, List.singleton_append] at heq
      obtain ⟨hmotive, hvalid, hdeep⟩ := ih (parent :: rest) heq
      have hmem : parent ∈ parents := by simp [heq]
      obtain ⟨new, hwalk⟩ := hgrows (hparents parent hmem) hvalid hdeep
      have hstep := hwalk.join ty (done.foldl (visitParent p key depth ty) s).1
        (visit p key depth parent (done.foldl (visitParent p key depth ty) s).2).1
      rw [List.foldl_append, List.foldl_cons, List.foldl_nil]
      exact ⟨step _ _ _ hmem hvalid hdeep hmotive, hstep.valid_of_valid hvalid, hstep.deep hdeep⟩
  exact (hall parents [] (by simp)).1

/-! ## The walk visits what is reached -/

/-- What a visit of `ty` does: it ends with `ty` visited, and whatever is new is reached. -/
def Visited (p : Program) (key : String) (ty : TypeId) (w w' : OverrideWalk) : Prop :=
  ∃ new, Walked p key w w' new ∧ ty ∈ w'.origins.keys ∧ ∀ x ∈ new, p.Reaches ty x

/-- A visit ends with the type visited and everything new reached from it. -/
theorem visited_visit {depth : Nat} {e : TypeId × TypeSymbol} {w : OverrideWalk}
    (he : p.types.get? e.1 = some e.2) (hvalid : w.Valid p) (hdeep : Deep p depth w) :
    Visited p key e.1 w (visit p key depth e w).2 := by
  induction depth generalizing e w with
  | zero => exact absurd rfl (hdeep.ne_zero hvalid)
  | succ depth ih =>
    obtain ⟨ty, t⟩ := e
    cases hty : w.origins.get? ty with
    | some known =>
      rw [visit_of_known hty]
      exact ⟨[], Walked.refl w, Table.mem_keys_iff.mpr ⟨known, hty⟩, by simp⟩
    | none =>
      have hnew : ty ∉ w.origins.keys := (Table.get?_eq_none_iff _ _).mp hty
      obtain ⟨new, hwalk, hdone, hreach⟩ := foldl_visitParent_induct ty
        (fun he hvalid hdeep => by
          obtain ⟨new, hwalk, -⟩ := ih he hvalid hdeep
          exact ⟨new, hwalk⟩)
        (fun e he => Program.get?_of_mem_parents he)
        (s := start p key ty w) (hvalid.enter he hnew) (hdeep.enter hnew)
        (motive := fun done s => ∃ new, Walked p key (enter p key ty w) s.2 new ∧
          (∀ e ∈ done, e.1 ∈ s.2.origins.keys) ∧ ∀ x ∈ new, p.Reaches ty x)
        ⟨[], Walked.refl _, by simp, by simp⟩
        fun done parent s hparent hvalid hdeep ⟨new, hwalk, hdone, hreach⟩ => by
          obtain ⟨new', hwalk', hmem, hreach'⟩ :=
            ih (Program.get?_of_mem_parents hparent) hvalid hdeep
          have hstep := hwalk'.join ty s.1 (visit p key depth parent s.2).1
          refine ⟨new ++ new', hwalk.trans hstep, fun e he => ?_, fun x hx => ?_⟩
          · rcases List.mem_append.mp he with he | he
            · rw [visitParent, hstep.keys]
              exact List.mem_append_left _ (hdone e he)
            · rw [List.mem_singleton.mp he, visitParent, join_origins]
              exact hmem
          · rcases List.mem_append.mp hx with hx | hx
            · exact hreach x hx
            · exact .head ((Program.refers_iff_mem_parents he).mpr ⟨_, hparent⟩) (hreach' x hx)
      rw [visit_of_new hty]
      have hall := hwalk.noted he hnew (fun parent hparent => by
        obtain ⟨u, hu⟩ := (Program.refers_iff_mem_parents he).mp hparent
        exact hdone _ hu) ((p.parents t).foldl (visitParent p key depth ty) (start p key ty w)).1
      refine ⟨ty :: new, hall, ?_, List.forall_mem_cons.mpr ⟨Relation.ReflTransGen.refl, hreach⟩⟩
      rw [hall.keys]
      exact List.mem_append_right _ List.mem_cons_self

/-- A visit only adds to what has been visited. -/
theorem walked_visit (key : String) {depth : Nat} {e : TypeId × TypeSymbol} {w : OverrideWalk}
    (he : p.types.get? e.1 = some e.2) (hvalid : w.Valid p) (hdeep : Deep p depth w) :
    ∃ new, Walked p key w (visit p key depth e w).2 new := by
  obtain ⟨new, hwalk, -⟩ := visited_visit he hvalid hdeep
  exact ⟨new, hwalk⟩

theorem valid_empty : Valid p {} := fun x hx => by cases hx

/-- The bound of the whole walk is deep enough. -/
theorem deep_empty : Deep p (p.types.size + 1) {} := Nat.lt_succ_self _

/-! ## What the walk tells of origins -/

/-- The origins found are types of the program, and so are those of diamonds. -/
structure Sound (p : Program) (w : OverrideWalk) : Prop where
  origins : ∀ {ty o}, w.origins.get? ty = some (some o) → ∃ t, p.types.get? o = some t
  diamonds : ∀ d ∈ w.diamonds, (∃ t, p.types.get? d.1 = some t) ∧ ∃ t, p.types.get? d.2 = some t

theorem Sound.insert {w : OverrideWalk} (h : w.Sound p) (ty : TypeId) {origin : Option TypeId}
    (horigin : ∀ o ∈ origin, ∃ t, p.types.get? o = some t) :
    Sound p { w with origins := w.origins.insert ty origin } where
  origins := by
    intro ty' o ho
    rw [Table.get?_insert] at ho
    split at ho
    · exact horigin o (Option.some.inj ho)
    · exact h.origins ho
  diamonds := h.diamonds

/-- The walk is sound, and the origin answered is a type of the program. -/
def SoundAnswer (p : Program) (s : Option TypeId × OverrideWalk) : Prop :=
  (∀ o ∈ s.1, ∃ t, p.types.get? o = some t) ∧ s.2.Sound p

theorem SoundAnswer.join {w : OverrideWalk} {origin inherited : Option TypeId}
    (h : SoundAnswer p (inherited, w)) (here : TypeId)
    (horigin : ∀ o ∈ origin, ∃ t, p.types.get? o = some t) :
    SoundAnswer p (OverrideWalk.join here origin inherited w) := by
  obtain ⟨hinherited, hw⟩ := h
  unfold OverrideWalk.join
  split
  · exact ⟨horigin, hw⟩
  · exact ⟨hinherited, hw⟩
  · rename_i second first
    split
    · exact ⟨hinherited, hw⟩
    · split
      · exact ⟨horigin, hw⟩
      · refine ⟨horigin, hw.origins, fun d hd => ?_⟩
        obtain hold | hnew := List.mem_append.mp hd
        · exact hw.diamonds d hold
        · rw [List.mem_singleton.mp hnew]
          exact ⟨horigin first rfl, hinherited second rfl⟩

theorem Sound.visit {depth : Nat} {e : TypeId × TypeSymbol} {w : OverrideWalk} (h : w.Sound p)
    (he : p.types.get? e.1 = some e.2) : SoundAnswer p (OverrideWalk.visit p key depth e w) := by
  induction depth generalizing e w with
  | zero => exact ⟨fun _ ho => (nomatch ho), h⟩
  | succ depth ih =>
    obtain ⟨ty, t⟩ := e
    cases hty : w.origins.get? ty with
    | some known =>
      rw [visit_of_known hty]
      exact ⟨fun o ho => h.origins (hty.trans (congrArg some ho)), h⟩
    | none =>
      have horigins : Sound p { w with origins := w.origins.insert ty none } :=
        h.insert ty fun _ ho => nomatch ho
      have hstart : (enter p key ty w).Sound p := ⟨horigins.origins, h.diamonds⟩
      have hown : ∀ o ∈ if (p.virtualMethods ty key).isEmpty then none else some ty,
          ∃ t, p.types.get? o = some t := by
        intro o ho
        split at ho
        · cases ho
        · cases ho
          exact ⟨t, he⟩
      have hall : SoundAnswer p
          ((p.parents t).foldl (visitParent p key depth ty) (start p key ty w)) :=
        List.foldlRecOn _ _ ⟨hown, hstart⟩ fun s hs parent hparent =>
          (ih hs.2 (Program.get?_of_mem_parents hparent)).join ty hs.1
      rw [visit_of_new hty]
      exact ⟨hall.1, hall.2.insert ty hall.1⟩

end OverrideWalk

/-! ## What the walk finds -/

namespace Program

variable {p : Program}

theorem visited_overrideWalk {ty : TypeId} {t : TypeSymbol} (ht : p.types.get? ty = some t)
    (key : String) : OverrideWalk.Visited p key ty {} (p.overrideWalk ty t key) :=
  OverrideWalk.visited_visit ht OverrideWalk.valid_empty OverrideWalk.deep_empty

/-- The types visited from `ty` are those it reaches, each once. -/
theorem mem_keys_overrideWalk {ty : TypeId} {t : TypeSymbol} (ht : p.types.get? ty = some t)
    (key : String) {x : TypeId} :
    x ∈ (p.overrideWalk ty t key).origins.keys ↔ p.Reaches ty x := by
  obtain ⟨new, hwalk, hty, hreach⟩ := visited_overrideWalk ht key
  have hnew : (p.overrideWalk ty t key).origins.keys = new := hwalk.keys
  rw [hnew]
  constructor
  · exact hreach x
  · -- what was visited is closed under references
    intro hx
    induction hx with
    | refl => exact hnew ▸ hty
    | tail _ hstep ih => exact hnew ▸ hwalk.closed _ ih _ hstep

/-- Of the type that it starts from, the walk looks at the references alone. -/
theorem overrideWalk_congr {s t : TypeSymbol} (h : s.references = t.references) (ty : TypeId)
    (key : String) : p.overrideWalk ty s key = p.overrideWalk ty t key := by
  have hparents : p.parents s = p.parents t := by rw [parents, parents, h]
  rw [overrideWalk, overrideWalk, OverrideWalk.visit, OverrideWalk.visit, hparents]

/-- The walk finds the virtual methods of the types reached that have the key. -/
theorem mem_overriddenFrom {ty : TypeId} {s t : TypeSymbol} (hs : p.types.get? ty = some s)
    (hst : s.declared = t.declared) {key : String} {id : MethodId} :
    id ∈ (p.overriddenFrom ty t key).1 ↔ ∃ m, p.methods.get? id = some m ∧ m.isVirtual = true ∧
      m.key = key ∧ p.Reaches ty m.owner := by
  obtain ⟨new, hwalk, -, -⟩ := visited_overrideWalk hs key
  have hnew : (p.overrideWalk ty s key).origins.keys = new := hwalk.keys
  have hfound : (p.overriddenFrom ty t key).1 = new.flatMap fun ty => p.virtualMethods ty key := by
    rw [overriddenFrom,
      ← overrideWalk_congr (TypeSymbol.agree hst TypeSymbol.references fun _ => rfl)]
    exact hwalk.found
  rw [hfound, List.mem_flatMap]
  constructor
  · intro h
    rcases h with ⟨x, hx, hid⟩
    obtain ⟨m, hget, howner, hvirtual, hkey⟩ := mem_virtualMethods.mp hid
    rw [← hnew, mem_keys_overrideWalk hs] at hx
    exact ⟨m, hget, hvirtual, hkey, howner ▸ hx⟩
  · intro h
    rcases h with ⟨m, hget, hvirtual, hkey, hreach⟩
    refine ⟨m.owner, ?_, mem_virtualMethods.mpr ⟨m, hget, rfl, hvirtual, hkey⟩⟩
    rwa [← hnew, mem_keys_overrideWalk hs]

end Program
end Renamer
