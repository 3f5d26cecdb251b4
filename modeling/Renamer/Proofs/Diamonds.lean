import Renamer.Proofs.Preorder

/-!
# Diamonds

A method that a type inherits may have several origins: types above it that declare the method and
above which none does. `Program.RootDeclarer` says so with no regard to the walk, and where the
hierarchy has no circle the walk reports a diamond exactly where there are two of them.

The walk compares what two branches answer, and each branch answers for all that it has seen
before. `OverrideWalk.Finished` is what such an answer is worth: it is a root declarer where there
is one, and the only one as long as no diamond was met, by this branch or by any before it.
-/

namespace Renamer
namespace Program

/-! ## Root declarers -/

/-- `a` declares a virtual method with this override key. -/
def DeclaresVirtual (p : Program) (key : String) (a : TypeId) : Prop :=
  ∃ id m, p.methods.get? id = some m ∧ m.owner = a ∧ m.isVirtual = true ∧ m.key = key

/-- `a` is reached from `ty` and declares the method, which no type strictly above `a` does. -/
structure RootDeclarer (p : Program) (key : String) (ty a : TypeId) : Prop where
  reaches : p.Reaches ty a
  declares : p.DeclaresVirtual key a
  highest : ∀ b, Relation.TransGen p.Refers a b → ¬ p.DeclaresVirtual key b

/-- Among the types reached from `ty` no references lead in a circle. -/
def NoCircle (p : Program) (ty : TypeId) : Prop :=
  ∀ x, p.Reaches ty x → ¬ Relation.TransGen p.Refers x x

variable {p : Program} {key : String}

theorem refers_iff_mem_filterMap {x y : TypeId} {t : TypeSymbol} (ht : p.types.get? x = some t) :
    p.Refers x y ↔ y ∈ t.references.filterMap p.lookup := by
  rw [refers_iff_mem_parents ht, ← map_fst_parents, List.mem_map]
  constructor
  · intro h
    rcases h with ⟨u, hu⟩
    exact ⟨(y, u), hu, rfl⟩
  · intro h
    rcases h with ⟨⟨_, u⟩, hu, rfl⟩
    exact ⟨u, hu⟩

theorem declaresVirtual_iff {a : TypeId} :
    p.DeclaresVirtual key a ↔ (p.virtualMethods a key).isEmpty = false := by
  rw [← Bool.not_eq_true, List.isEmpty_iff, List.eq_nil_iff_forall_not_mem, not_forall_not]
  exact exists_congr fun id => mem_virtualMethods.symm

theorem NoCircle.of_refers {ty x : TypeId} (h : p.NoCircle ty) (hx : p.Refers ty x) :
    p.NoCircle x :=
  fun y hy => h y (.head hx hy)

/-- Where types refer to older ones alone there is no circle. -/
theorem noCircle_of_older (h : ∀ e ∈ p.types.entries,
    ∀ y ∈ e.2.references.filterMap p.lookup, y < e.1) (ty : TypeId) : p.NoCircle ty := by
  have holder : ∀ x y, Relation.TransGen p.Refers x y → y < x := by
    have hone : ∀ x y, p.Refers x y → y < x := by
      intro x y hxy
      have ⟨t, ht, _⟩ := hxy
      exact h (x, t) (Arena.mem_entries_iff.mpr ht) y ((refers_iff_mem_filterMap ht).mp hxy)
    intro x y hxy
    induction hxy with
    | single hxy => exact hone _ _ hxy
    | tail _ hyz ih => exact Nat.lt_trans (hone _ _ hyz) ih
  exact fun x _ hx => Nat.lt_irrefl _ (holder x x hx)

theorem RootDeclarer.of_refers {ty x a : TypeId} (h : p.RootDeclarer key x a)
    (hx : p.Refers ty x) : p.RootDeclarer key ty a :=
  ⟨.head hx h.reaches, h.declares, h.highest⟩

/-- A root declarer is the type itself or is found above a type that it refers to. -/
theorem RootDeclarer.cases {ty a : TypeId} (h : p.RootDeclarer key ty a) :
    a = ty ∨ ∃ x, p.Refers ty x ∧ p.RootDeclarer key x a := by
  rcases h.reaches.cases_head with rfl | ⟨x, hx, hreach⟩
  · exact Or.inl rfl
  · exact Or.inr ⟨x, hx, hreach, h.declares, h.highest⟩

/-- Two root declarers strictly above `ty`. -/
structure Meet (p : Program) (key : String) (ty : TypeId) (d : TypeId × TypeId) : Prop where
  ne : d.1 ≠ d.2
  first : p.RootDeclarer key ty d.1
  second : p.RootDeclarer key ty d.2
  above_first : Relation.TransGen p.Refers ty d.1
  above_second : Relation.TransGen p.Refers ty d.2

theorem Meet.of_refers {ty x : TypeId} {d : TypeId × TypeId} (h : p.Meet key x d)
    (hx : p.Refers ty x) : p.Meet key ty d :=
  ⟨h.ne, h.first.of_refers hx, h.second.of_refers hx, .head hx h.above_first,
    .head hx h.above_second⟩

/-- A type that is referred to is the one with its name. -/
theorem lookup_typeName {x a : TypeId} (h : p.Refers x a) : p.lookup (p.typeName a) = some a := by
  obtain ⟨-, -, name, -, hname⟩ := h
  obtain ⟨⟨i, u⟩, hfind, rfl⟩ := Option.map_eq_some_iff.mp hname
  have hu : u.fullName = name := by simpa using List.find?_some hfind
  have htype : p.typeName i = name := by
    rw [typeName, get?_of_typeNamed hfind]
    exact hu
  rw [htype]
  exact hname

/-- Types that meet have different names. -/
theorem Meet.typeName_ne {ty : TypeId} {d : TypeId × TypeId} (h : p.Meet key ty d) :
    p.typeName d.1 ≠ p.typeName d.2 := by
  intro heq
  obtain ⟨_, -, hfirst⟩ := Relation.TransGen.tail'_iff.mp h.above_first
  obtain ⟨_, -, hsecond⟩ := Relation.TransGen.tail'_iff.mp h.above_second
  have hsame := lookup_typeName hfirst
  rw [heq, lookup_typeName hsecond] at hsame
  exact h.ne (Option.some.inj hsame).symm

end Program

namespace OverrideWalk

variable {p : Program} {key : String}

/-! ## Joining branches -/

/-- What is inherited goes before what the type itself declares. -/
theorem join_own {here b : TypeId} {origin : Option TypeId} (h : ∀ a ∈ origin, a = here)
    (w : OverrideWalk) : join here origin (some b) w = (some b, w) := by
  cases origin with
  | none => rfl
  | some a =>
    obtain rfl := h a rfl
    simp [join]

theorem join_same {here a : TypeId} (ha : a ≠ here) (w : OverrideWalk) :
    join here (some a) (some a) w = (some a, w) := by
  simp [join, ha]

theorem join_meet {here a b : TypeId} (ha : a ≠ here) (hab : a ≠ b) (w : OverrideWalk) :
    join here (some a) (some b) w = (some a, { w with diamonds := w.diamonds ++ [(a, b)] }) := by
  simp [join, ha, hab.symm]

/-! ## Answers -/

/-- What the origin answered for a type is worth once the walk has come to `w`. -/
structure Finished (p : Program) (key : String) (w : OverrideWalk) (ty : TypeId)
    (origin : Option TypeId) : Prop where
  root : ∀ a, origin = some a → p.RootDeclarer key ty a
  nothing : origin = none → ∀ a, p.Reaches ty a → ¬ p.DeclaresVirtual key a
  only : w.diamonds = [] → ∀ a, p.RootDeclarer key ty a → origin = some a

/-- The diamonds met between `w` and `w'` are of root declarers above `ty`. -/
def Meets (p : Program) (key : String) (ty : TypeId) (w w' : OverrideWalk) : Prop :=
  ∃ new, w'.diamonds = w.diamonds ++ new ∧ ∀ d ∈ new, p.Meet key ty d

theorem Meets.refl (ty : TypeId) (w : OverrideWalk) : Meets p key ty w w :=
  ⟨[], by simp, by simp⟩

theorem Meets.trans {ty : TypeId} {w w' w'' : OverrideWalk} (h : Meets p key ty w w')
    (h' : Meets p key ty w' w'') : Meets p key ty w w'' := by
  obtain ⟨new, hnew, hmeet⟩ := h
  obtain ⟨new', hnew', hmeet'⟩ := h'
  refine ⟨new ++ new', ?_, fun d hd => ?_⟩
  · rw [hnew', hnew, List.append_assoc]
  · rcases List.mem_append.mp hd with hd | hd
    · exact hmeet d hd
    · exact hmeet' d hd

theorem Meets.of_refers {ty x : TypeId} {w w' : OverrideWalk} (h : Meets p key x w w')
    (hx : p.Refers ty x) : Meets p key ty w w' := by
  obtain ⟨new, hnew, hmeet⟩ := h
  exact ⟨new, hnew, fun d hd => (hmeet d hd).of_refers hx⟩

theorem Meets.diamonds_eq_nil {ty : TypeId} {w w' : OverrideWalk} (h : Meets p key ty w w')
    (hnil : w'.diamonds = []) : w.diamonds = [] := by
  obtain ⟨new, hnew, -⟩ := h
  rw [hnew] at hnil
  exact (List.append_eq_nil_iff.mp hnil).1

/-- An answer is worth no less later on. -/
theorem Finished.mono {w w' : OverrideWalk} {ty : TypeId} {origin : Option TypeId}
    (h : Finished p key w ty origin) (hw : w'.diamonds = [] → w.diamonds = []) :
    Finished p key w' ty origin :=
  ⟨h.root, h.nothing, fun hnil => h.only (hw hnil)⟩

/-- What the walk remembers of a type is an answer, except for the types that are being visited. -/
def Settled (p : Program) (key : String) (visiting : TypeId → Prop) (w : OverrideWalk) : Prop :=
  ∀ x origin, w.origins.get? x = some origin → Finished p key w x origin ∨ visiting x

theorem Settled.mono {visiting : TypeId → Prop} {w w' : OverrideWalk}
    (h : Settled p key visiting w) (horigins : w'.origins = w.origins)
    (hdiamonds : w'.diamonds = [] → w.diamonds = []) : Settled p key visiting w' := by
  intro x origin hx
  rw [horigins] at hx
  exact (h x origin hx).imp_left fun hdone => hdone.mono hdiamonds

/-- Once a type has been entered, it is one of those that are being visited. -/
theorem Settled.enter {visiting : TypeId → Prop} {w : OverrideWalk} {ty : TypeId}
    (h : Settled p key visiting w) :
    Settled p key (fun x => visiting x ∨ x = ty) (OverrideWalk.enter p key ty w) := by
  intro x origin hx
  rw [OverrideWalk.enter, Table.get?_insert] at hx
  split at hx
  · rename_i heq
    exact Or.inr (Or.inr heq.symm)
  · exact (h x origin hx).imp (fun hdone => hdone.mono id) Or.inl

/-- With its answer noted a type is no longer one of those that are being visited. -/
theorem Settled.insert {visiting : TypeId → Prop} {w : OverrideWalk} {ty : TypeId}
    {origin : Option TypeId} (h : Settled p key (fun x => visiting x ∨ x = ty) w)
    (hty : Finished p key w ty origin) :
    Settled p key visiting { w with origins := w.origins.insert ty origin } := by
  intro x o hx
  rw [Table.get?_insert] at hx
  split at hx
  · rename_i heq
    obtain rfl := heq
    cases hx
    exact Or.inl (hty.mono id)
  · rename_i hne
    rcases h x o hx with hdone | hvisiting | rfl
    · exact Or.inl (hdone.mono id)
    · exact Or.inr hvisiting
    · exact absurd rfl hne

/-! ## The parents of a type -/

/-- What is known of `ty` after the parents `done`: nothing, where none of them has the method
above it, and else an origin that is a root declarer above one of them, and above all of them the
only one as long as no diamond was met. -/
inductive Known (p : Program) (key : String) (ty : TypeId) (done : List (TypeId × TypeSymbol))
    (s : Option TypeId × OverrideWalk) : Prop
  | own : (s.1 = if (p.virtualMethods ty key).isEmpty then none else some ty) →
      (∀ e ∈ done, ∀ a, p.Reaches e.1 a → ¬ p.DeclaresVirtual key a) → Known p key ty done s
  | inherited {a : TypeId} : s.1 = some a → (∃ e ∈ done, p.RootDeclarer key e.1 a) →
      (s.2.diamonds = [] → ∀ e ∈ done, ∀ b, p.RootDeclarer key e.1 b → b = a) →
      Known p key ty done s

section Join

variable {ty : TypeId} {done : List (TypeId × TypeSymbol)} {parent : TypeId × TypeSymbol}
variable {origin : Option TypeId} {a b : TypeId} {w w' : OverrideWalk}

theorem forall_mem_snoc {q : TypeId × TypeSymbol → Prop} (hdone : ∀ e ∈ done, q e)
    (hparent : q parent) : ∀ e ∈ done ++ [parent], q e :=
  List.forall_mem_append.mpr ⟨hdone, List.forall_mem_singleton.mpr hparent⟩

/-- Above the parent there is no method. -/
theorem Known.join_nothing (h : Known p key ty done (origin, w))
    (hw : w'.diamonds = [] → w.diamonds = []) (hparent : Finished p key w' parent.1 none) :
    Known p key ty (done ++ [parent]) (origin, w') := by
  have hnone := hparent.nothing rfl
  cases h with
  | own horigin hdone => exact .own horigin (forall_mem_snoc hdone hnone)
  | inherited horigin hroot hdone =>
    obtain ⟨e, he, hroot⟩ := hroot
    exact .inherited horigin ⟨e, List.mem_append_left _ he, hroot⟩ fun hnil =>
      forall_mem_snoc (hdone (hw hnil)) fun b hb => absurd hb.declares (hnone b hb.reaches)

/-- The parent is the first one that has the method above it. -/
theorem Known.join_first (hdone : ∀ e ∈ done, ∀ a, p.Reaches e.1 a → ¬ p.DeclaresVirtual key a)
    (hparent : Finished p key w' parent.1 (some b)) :
    Known p key ty (done ++ [parent]) (some b, w') :=
  .inherited rfl ⟨parent, by simp, hparent.root b rfl⟩ fun hnil => forall_mem_snoc
    (fun e he c hc => absurd hc.declares (hdone e he c hc.reaches))
    fun c hc => (Option.some.inj (hparent.only hnil c hc)).symm

/-- The parent answers what parents before it have answered. -/
theorem Known.join_again (hroot : ∃ e ∈ done, p.RootDeclarer key e.1 a)
    (hdone : w.diamonds = [] → ∀ e ∈ done, ∀ b, p.RootDeclarer key e.1 b → b = a)
    (hw : w'.diamonds = [] → w.diamonds = []) (hparent : Finished p key w' parent.1 (some a)) :
    Known p key ty (done ++ [parent]) (some a, w') := by
  obtain ⟨e, he, hroot⟩ := hroot
  exact .inherited rfl ⟨e, List.mem_append_left _ he, hroot⟩ fun hnil => forall_mem_snoc
    (hdone (hw hnil)) fun c hc => (Option.some.inj (hparent.only hnil c hc)).symm

/-- A parent's answer is joined to what is known after the parents before it. Where it is another
one than theirs, two root declarers meet. -/
theorem Known.join {inherited : Option TypeId} (h : Known p key ty done (origin, w))
    (hw : w'.diamonds = [] → w.diamonds = []) (hparent : Finished p key w' parent.1 inherited)
    (hcircle : p.NoCircle ty) (hrefers : ∀ e ∈ done ++ [parent], p.Refers ty e.1) :
    Known p key ty (done ++ [parent]) (OverrideWalk.join ty origin inherited w') ∧
      Meets p key ty w' (OverrideWalk.join ty origin inherited w').2 := by
  cases inherited with
  | none => exact ⟨h.join_nothing hw hparent, Meets.refl ty w'⟩
  | some b =>
    cases h with
    | own horigin hdone =>
      have hown : ∀ a ∈ origin, a = ty := by
        intro a ha
        dsimp only at horigin
        rw [horigin] at ha
        split at ha
        · cases ha
        · exact (Option.some.inj ha).symm
      rw [join_own hown]
      exact ⟨Known.join_first hdone hparent, Meets.refl ty w'⟩
    | @inherited a horigin hroot hdone =>
      dsimp only at horigin hdone
      rw [horigin]
      have ⟨e, he, hroota⟩ := hroot
      have he' : e ∈ done ++ [parent] := List.mem_append_left _ he
      have habove : Relation.TransGen p.Refers ty a := .head' (hrefers e he') hroota.reaches
      have hne : a ≠ ty := by
        rintro rfl
        exact hcircle a .refl habove
      by_cases hab : a = b
      · subst hab
        rw [join_same hne]
        exact ⟨Known.join_again hroot hdone hw hparent, Meets.refl ty w'⟩
      · have hrootb := hparent.root b rfl
        have hparent' : p.Refers ty parent.1 := hrefers parent (by simp)
        have hmeet : p.Meet key ty (a, b) :=
          ⟨hab, hroota.of_refers (hrefers e he'), hrootb.of_refers hparent', habove,
            .head' hparent' hrootb.reaches⟩
        rw [join_meet hne hab]
        exact ⟨.inherited rfl ⟨e, he', hroota⟩ fun hnil => absurd hnil (by simp),
          [(a, b)], rfl, List.forall_mem_singleton.mpr hmeet⟩

end Join

/-- What is known after all parents is an answer for the type. -/
theorem Known.finished {ty : TypeId} {t : TypeSymbol} {s : Option TypeId × OverrideWalk}
    (ht : p.types.get? ty = some t) (h : Known p key ty (p.parents t) s) :
    Finished p key s.2 ty s.1 := by
  have hrefers : ∀ {x}, p.Refers ty x → ∃ e ∈ p.parents t, e.1 = x := by
    intro x hx
    obtain ⟨u, hu⟩ := (Program.refers_iff_mem_parents ht).mp hx
    exact ⟨(x, u), hu, rfl⟩
  have hparent : ∀ e ∈ p.parents t, p.Refers ty e.1 := fun e he =>
    (Program.refers_iff_mem_parents ht).mpr ⟨e.2, he⟩
  cases h with
  | own horigin hnone =>
    have habove : ∀ b, Relation.TransGen p.Refers ty b → ¬ p.DeclaresVirtual key b := by
      intro b hb
      obtain ⟨x, hx, hreach⟩ := Relation.TransGen.head'_iff.mp hb
      obtain ⟨e, he, rfl⟩ := hrefers hx
      exact hnone e he b hreach
    rw [horigin]
    cases hempty : (p.virtualMethods ty key).isEmpty with
    | true =>
      have hty : ¬ p.DeclaresVirtual key ty := by
        rw [Program.declaresVirtual_iff, hempty]
        exact Bool.noConfusion
      have hall : ∀ a, p.Reaches ty a → ¬ p.DeclaresVirtual key a := by
        intro a ha
        rcases Relation.reflTransGen_iff_eq_or_transGen.mp ha with rfl | ha
        · exact hty
        · exact habove a ha
      exact ⟨fun a ha => (nomatch ha), fun _ => hall,
        fun _ a ha => absurd ha.declares (hall a ha.reaches)⟩
    | false =>
      have hty : p.DeclaresVirtual key ty := Program.declaresVirtual_iff.mpr hempty
      refine ⟨fun a ha => ?_, fun hno => (nomatch hno), fun _ a ha => ?_⟩
      · cases ha
        exact ⟨.refl, hty, habove⟩
      · rcases Relation.reflTransGen_iff_eq_or_transGen.mp ha.reaches with rfl | hreach
        · rfl
        · exact absurd ha.declares (habove a hreach)
  | @inherited a horigin hroot honly =>
    obtain ⟨e, he, hroot⟩ := hroot
    rw [horigin]
    refine ⟨fun b hb => ?_, fun hno => (nomatch hno), fun hnil b hb => ?_⟩
    · cases hb
      exact hroot.of_refers (hparent e he)
    · rcases hb.cases with rfl | ⟨x, hx, hb⟩
      · -- the type itself is no root declarer, for it has `a` above it
        exact absurd hroot.declares (hb.highest a (.head' (hparent e he) hroot.reaches))
      · obtain ⟨e', he', rfl⟩ := hrefers hx
        rw [honly hnil e' he' b hb]

/-! ## A visit -/

/-- A visit answers for its type, settles what it visits, and meets root declarers above the type.
The types that are being visited are below it. -/
theorem finished_visit (key : String) {depth : Nat} {e : TypeId × TypeSymbol} {w : OverrideWalk}
    {visiting : TypeId → Prop} (he : p.types.get? e.1 = some e.2) (hvalid : w.Valid p)
    (hdeep : Deep p depth w) (hcircle : p.NoCircle e.1) (hw : Settled p key visiting w)
    (hbelow : ∀ x, visiting x → Relation.TransGen p.Refers x e.1) :
    Finished p key (visit p key depth e w).2 e.1 (visit p key depth e w).1 ∧
      Settled p key visiting (visit p key depth e w).2 ∧
      Meets p key e.1 w (visit p key depth e w).2 := by
  induction depth generalizing e w visiting with
  | zero => exact absurd rfl (hdeep.ne_zero hvalid)
  | succ depth ih =>
    obtain ⟨ty, t⟩ := e
    cases hty : w.origins.get? ty with
    | some origin =>
      -- were the type being visited, it would be below itself
      rw [visit_of_known hty]
      rcases hw ty origin hty with hdone | hvisiting
      · exact ⟨hdone, hw, Meets.refl ty w⟩
      · exact absurd (hbelow ty hvisiting) (hcircle ty .refl)
    | none =>
      have hnew : ty ∉ w.origins.keys := (Table.get?_eq_none_iff _ _).mp hty
      have hrefers : ∀ e ∈ p.parents t, p.Refers ty e.1 := fun e he' =>
        (Program.refers_iff_mem_parents he).mpr ⟨e.2, he'⟩
      have hparents := foldl_visitParent_induct ty (walked_visit key)
        (fun e he => Program.get?_of_mem_parents (t := t) he)
        (s := start p key ty w) (hvalid.enter he hnew) (hdeep.enter hnew)
        (motive := fun done s => (∀ e ∈ done, p.Refers ty e.1) ∧ Known p key ty done s ∧
          Settled p key (fun x => visiting x ∨ x = ty) s.2 ∧ Meets p key ty w s.2)
        ⟨by simp, .own rfl (by simp), hw.enter, Meets.refl ty w⟩ ?_
      · obtain ⟨-, hknown, hsettled, hmeets⟩ := hparents
        have hfinished := hknown.finished he
        rw [visit_of_new hty]
        exact ⟨hfinished.mono id, hsettled.insert hfinished, hmeets⟩
      · rintro done parent s hparent hvalid hdeep ⟨hdone, hknown, hsettled, hmeets⟩
        obtain ⟨hfinished, hsettled', hmeets'⟩ := ih (Program.get?_of_mem_parents hparent) hvalid
          hdeep (hcircle.of_refers (hrefers parent hparent)) hsettled fun x hx => by
            rcases hx with hx | rfl
            · exact (hbelow x hx).tail (hrefers parent hparent)
            · exact .single (hrefers parent hparent)
        have hmeets' := hmeets'.of_refers (hrefers parent hparent)
        have hall : ∀ e ∈ done ++ [parent], p.Refers ty e.1 :=
          forall_mem_snoc hdone (hrefers parent hparent)
        obtain ⟨hjoined, hjoin⟩ := hknown.join hmeets'.diamonds_eq_nil hfinished hcircle hall
        exact ⟨hall, hjoined, hsettled'.mono (join_origins ..) hjoin.diamonds_eq_nil,
          (hmeets.trans hmeets').trans hjoin⟩

end OverrideWalk

/-! ## What is reported -/

namespace Program

variable {p : Program}

/-- Where no references lead in a circle, a diamond is reported exactly where the method has two
root declarers, and each one reported names two of them, which have different names. -/
theorem diamonds_iff_rootDeclarers (p : Program) (ty : TypeId) {t : TypeSymbol}
    (ht : p.types.get? ty = some t) (method : MethodId) {m : MethodSymbol}
    (hm : p.methods.get? method = some m) (hcircle : p.NoCircle ty) :
    ∃ found findings, p.resolveOverriding ty method = .ok (found, findings) ∧
      (findings ≠ [] ↔ ∃ a b, a ≠ b ∧ p.RootDeclarer m.key ty a ∧ p.RootDeclarer m.key ty b) ∧
      ∀ d ∈ findings, ∃ a b, a ≠ b ∧ p.RootDeclarer m.key ty a ∧ p.RootDeclarer m.key ty b ∧
        p.typeName a ≠ p.typeName b ∧
        d = .diamondOverride m.key (p.typeName a) (p.typeName b) t.fullName := by
  have hstart : OverrideWalk.Settled p m.key (fun _ => False) {} := fun x origin hx => by cases hx
  obtain ⟨hfinished, -, new, hnew, hmeet⟩ := OverrideWalk.finished_visit m.key (e := (ty, t)) ht
    OverrideWalk.valid_empty OverrideWalk.deep_empty hcircle hstart fun x hx => hx.elim
  refine ⟨(p.overriddenFrom ty t m.key).1, (p.overriddenFrom ty t m.key).2, ?_, ?_, ?_⟩
  · rw [resolveOverriding, Arena.get_eq_ok_iff.mpr hm, Arena.get_eq_ok_iff.mpr ht]
    rfl
  · have hdiamonds : (p.overrideWalk ty t m.key).diamonds = new := hnew
    rw [overriddenFrom, ne_eq, List.map_eq_nil_iff]
    constructor
    · intro h
      rw [hdiamonds] at h
      obtain ⟨d, hd⟩ := List.exists_mem_of_ne_nil new h
      exact ⟨d.1, d.2, (hmeet d hd).ne, (hmeet d hd).first, (hmeet d hd).second⟩
    · intro h hnil
      rcases h with ⟨a, b, hab, ha, hb⟩
      -- without a diamond the answer of the walk is the only root declarer
      have hsame := hfinished.only hnil a ha
      rw [hfinished.only hnil b hb] at hsame
      exact hab (Option.some.inj hsame).symm
  · intro f hf
    obtain ⟨d, hd, rfl⟩ := List.mem_map.mp hf
    have hd : d ∈ new := by
      have hdiamonds : (p.overrideWalk ty t m.key).diamonds = new := hnew
      rwa [← hdiamonds]
    exact ⟨d.1, d.2, (hmeet d hd).ne, (hmeet d hd).first, (hmeet d hd).second,
      (hmeet d hd).typeName_ne, rfl⟩

/-- `Left` and `Right` declare a virtual method `m`, and so does `Both`, which implements the two
of them. `Top`, which is above both, declares none. `Sub` extends `Both` and implements `Right`
once more. -/
def twoRoots : Program where
  types := ⟨#[
    { package := "", shortName := "Top", fullName := "Top" },
    { package := "", shortName := "Left", fullName := "Left", interfaces := ["Top"] },
    { package := "", shortName := "Right", fullName := "Right", interfaces := ["Top"] },
    { package := "", shortName := "Both", fullName := "Both", interfaces := ["Left", "Right"] },
    { package := "", shortName := "Sub", fullName := "Sub", superType := some "Both",
      interfaces := ["Right"] }]⟩
  methods := ⟨#[
    { owner := ⟨1⟩, name := "m", params := [], returnType := "V", isVirtual := true },
    { owner := ⟨2⟩, name := "m", params := [], returnType := "V", isVirtual := true },
    { owner := ⟨3⟩, name := "m", params := [], returnType := "V", isVirtual := true }]⟩

/-- A type that `Both` refers to and that refers to `Top` alone is a root declarer where it declares
the method. -/
theorem rootDeclarer_twoRoots {x : TypeId} {t : TypeSymbol} (hx : twoRoots.Refers ⟨3⟩ x)
    (hdeclares : (twoRoots.virtualMethods x "m()").isEmpty = false)
    (ht : twoRoots.types.get? x = some t)
    (habove : t.references.filterMap twoRoots.lookup = [⟨0⟩]) :
    twoRoots.RootDeclarer "m()" ⟨4⟩ x where
  reaches := .head ⟨_, rfl, "Both", by decide +kernel, by decide +kernel⟩ (.single hx)
  declares := declaresVirtual_iff.mpr hdeclares
  highest := by
    intro b hb
    obtain ⟨y, hy, hb⟩ := Relation.TransGen.head'_iff.mp hb
    rw [refers_iff_mem_filterMap ht, habove, List.mem_singleton] at hy
    subst hy
    rcases hb.cases_head with rfl | ⟨z, hz, -⟩
    · rw [declaresVirtual_iff, Bool.not_eq_false]
      decide +kernel
    · rw [refers_iff_mem_filterMap (t := _) rfl] at hz
      cases hz

/-- Of the diamond of `Left` and `Right` there is a finding. -/
theorem diamonds_twoRoots : ∃ t m, twoRoots.types.get? ⟨4⟩ = some t ∧
    twoRoots.methods.get? ⟨2⟩ = some m ∧ twoRoots.NoCircle ⟨4⟩ ∧
    ∃ found findings, twoRoots.resolveOverriding ⟨4⟩ ⟨2⟩ = .ok (found, findings) ∧
      findings ≠ [] ∧ ∀ d ∈ findings, ∃ a b, a ≠ b ∧ twoRoots.RootDeclarer m.key ⟨4⟩ a ∧
        twoRoots.RootDeclarer m.key ⟨4⟩ b ∧ twoRoots.typeName a ≠ twoRoots.typeName b ∧
        d = .diamondOverride m.key (twoRoots.typeName a) (twoRoots.typeName b) t.fullName := by
  have hcircle : twoRoots.NoCircle ⟨4⟩ := noCircle_of_older (by decide +kernel) ⟨4⟩
  have hleft : twoRoots.RootDeclarer "m()" ⟨4⟩ ⟨1⟩ :=
    rootDeclarer_twoRoots ⟨_, rfl, "Left", by decide +kernel, by decide +kernel⟩
      (by decide +kernel) rfl (by decide +kernel)
  have hright : twoRoots.RootDeclarer "m()" ⟨4⟩ ⟨2⟩ :=
    rootDeclarer_twoRoots ⟨_, rfl, "Right", by decide +kernel, by decide +kernel⟩
      (by decide +kernel) rfl (by decide +kernel)
  obtain ⟨found, findings, hok, hiff, hall⟩ :=
    diamonds_iff_rootDeclarers twoRoots ⟨4⟩ rfl ⟨2⟩ rfl hcircle
  exact ⟨_, _, rfl, rfl, hcircle, found, findings, hok,
    hiff.mpr ⟨⟨1⟩, ⟨2⟩, by decide, hleft, hright⟩, hall⟩

end Program
end Renamer
