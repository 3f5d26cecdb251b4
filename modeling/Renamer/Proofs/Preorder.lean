import Renamer.Proofs.Hierarchy

/-!
# The order of the walk

`Program.FirstVisits` tells the order in which types are first visited when a hierarchy is gone
through depth first, each type before the types above it, its super type before its interfaces. It
knows nothing of a bound on the depth or of what the walk remembers.

The override walk lists the methods of types in this order, on every hierarchy, circles included,
and its bound on the depth is never felt: no larger one would change anything.
-/

namespace Renamer
namespace Program

/-! ## First visits -/

/-- Of the types `pending`, and of what is above them, `visits` are visited for the first time, in
this order, where `seen` were visited before. A type comes before all that its references resolve
to, and these, from the first to the last, come before what is pending behind the type. -/
inductive FirstVisits (p : Program) : List TypeId → List TypeId → List TypeId → Prop
  | done {seen : List TypeId} : FirstVisits p seen [] []
  | again {seen pending visits : List TypeId} {ty : TypeId} : ty ∈ seen →
      FirstVisits p seen pending visits → FirstVisits p seen (ty :: pending) visits
  | first {seen pending visits : List TypeId} {ty : TypeId} {t : TypeSymbol} : ty ∉ seen →
      p.types.get? ty = some t →
      FirstVisits p (seen ++ [ty]) (t.references.filterMap p.lookup ++ pending) visits →
      FirstVisits p seen (ty :: pending) (ty :: visits)

variable {p : Program}

/-- There is one order of first visits. -/
theorem FirstVisits.unique {seen pending l l' : List TypeId} (h : p.FirstVisits seen pending l)
    (h' : p.FirstVisits seen pending l') : l = l' := by
  induction h generalizing l' with
  | done =>
    cases h'
    rfl
  | again hseen _ ih =>
    cases h' with
    | again _ hrest => exact ih hrest
    | first hnew => exact absurd hseen hnew
  | first hnew hget _ ih =>
    cases h' with
    | again hseen => exact absurd hseen hnew
    | first _ hget' hrest =>
      rw [hget] at hget'
      cases hget'
      rw [ih hrest]

theorem map_fst_parents (t : TypeSymbol) :
    (p.parents t).map Prod.fst = t.references.filterMap p.lookup :=
  List.map_filterMap

/-- The methods of a type are listed in declaration order. -/
theorem pairwise_virtualMethods (p : Program) (ty : TypeId) (key : String) :
    (p.virtualMethods ty key).Pairwise (· < ·) :=
  List.pairwise_map.mpr ((p.methods.pairwise_entries.filter _).filter _)

end Program

namespace OverrideWalk

variable {p : Program} {key : String}

/-! ## The bound on the depth -/

/-- A deeper bound changes nothing where the bound is deep enough. -/
theorem visit_eq_of_deep {depth depth' : Nat} {e : TypeId × TypeSymbol} {w : OverrideWalk}
    (he : p.types.get? e.1 = some e.2) (hvalid : w.Valid p) (hdeep : Deep p depth w)
    (hdeep' : Deep p depth' w) : visit p key depth e w = visit p key depth' e w := by
  induction depth generalizing depth' e w with
  | zero => exact absurd rfl (hdeep.ne_zero hvalid)
  | succ depth ih =>
    obtain ⟨depth', rfl⟩ := Nat.exists_eq_succ_of_ne_zero (hdeep'.ne_zero hvalid)
    obtain ⟨ty, t⟩ := e
    cases hty : w.origins.get? ty with
    | some known => rw [visit_of_known hty, visit_of_known hty]
    | none =>
      have hnew : ty ∉ w.origins.keys := (Table.get?_eq_none_iff _ _).mp hty
      -- the parents are visited alike, one after the other, since both bounds stay deep enough
      have hparents := foldl_visitParent_induct ty (walked_visit key)
        (fun e he => Program.get?_of_mem_parents (t := t) he)
        (s := start p key ty w) (hvalid.enter he hnew) (hdeep.enter hnew)
        (motive := fun done s => Deep p depth' s.2 ∧
          s = done.foldl (visitParent p key depth' ty) (start p key ty w))
        ⟨hdeep'.enter hnew, rfl⟩ ?_
      · rw [visit_of_new hty, visit_of_new hty, hparents.2]
      · rintro done parent s hparent hvalid hdeep ⟨hdeep', hs⟩
        have hget := Program.get?_of_mem_parents hparent
        obtain ⟨new, hwalk⟩ := walked_visit key hget hvalid hdeep
        refine ⟨(hwalk.join ty s.1 _).deep hdeep', ?_⟩
        rw [List.foldl_append, ← hs, List.foldl_cons, List.foldl_nil, visitParent, visitParent,
          ih hget hvalid hdeep hdeep']

/-! ## The visits of the walk -/

/-- From `w` to `w'` the walk goes through the types `pending`: what it visits is what they make
visited for the first time, in the order of first visits. -/
def GoesThrough (p : Program) (pending : List TypeId) (w w' : OverrideWalk) : Prop :=
  ∀ rest l : List TypeId, p.FirstVisits w'.origins.keys rest l →
    ∃ new, w'.origins.keys = w.origins.keys ++ new ∧
      p.FirstVisits w.origins.keys (pending ++ rest) (new ++ l)

theorem GoesThrough.trans {pending pending' : List TypeId} {w w' w'' : OverrideWalk}
    (h : GoesThrough p pending w w') (h' : GoesThrough p pending' w' w'') :
    GoesThrough p (pending ++ pending') w w'' := by
  intro rest l hl
  obtain ⟨new', hkeys', hvisits'⟩ := h' rest l hl
  obtain ⟨new, hkeys, hvisits⟩ := h _ _ hvisits'
  refine ⟨new ++ new', ?_, ?_⟩
  · rw [hkeys', hkeys, List.append_assoc]
  · rwa [List.append_assoc, List.append_assoc]

/-- A visit goes through its type. -/
theorem goesThrough_visit (key : String) {depth : Nat} {e : TypeId × TypeSymbol} {w : OverrideWalk}
    (he : p.types.get? e.1 = some e.2) (hvalid : w.Valid p) (hdeep : Deep p depth w) :
    GoesThrough p [e.1] w (visit p key depth e w).2 := by
  induction depth generalizing e w with
  | zero => exact absurd rfl (hdeep.ne_zero hvalid)
  | succ depth ih =>
    obtain ⟨ty, t⟩ := e
    intro rest l hl
    cases hty : w.origins.get? ty with
    | some known =>
      rw [visit_of_known hty] at hl ⊢
      have hseen : ty ∈ w.origins.keys := Table.mem_keys_iff.mpr ⟨known, hty⟩
      exact ⟨[], by simp, .again hseen hl⟩
    | none =>
      have hnew : ty ∉ w.origins.keys := (Table.get?_eq_none_iff _ _).mp hty
      have hparents : GoesThrough p ((p.parents t).map Prod.fst) (enter p key ty w)
          ((p.parents t).foldl (visitParent p key depth ty) (start p key ty w)).2 := by
        refine foldl_visitParent_induct ty (walked_visit key)
          (fun e he => Program.get?_of_mem_parents he) (hvalid.enter he hnew) (hdeep.enter hnew)
          (motive := fun done s => GoesThrough p (done.map Prod.fst) (enter p key ty w) s.2)
          (fun rest l hl => ⟨[], (List.append_nil _).symm, hl⟩)
          fun done parent s hparent hvalid hdeep hdone => ?_
        have hvisit := ih (Program.get?_of_mem_parents hparent) hvalid hdeep
        have hstep : GoesThrough p [parent.1] s.2 (visitParent p key depth ty s parent).2 := by
          unfold GoesThrough at hvisit ⊢
          rwa [visitParent, join_origins]
        rw [List.map_append]
        exact hdone.trans hstep
      rw [visit_of_new hty] at hl ⊢
      dsimp only at hl ⊢
      generalize (p.parents t).foldl (visitParent p key depth ty) _ = s at hparents hl ⊢
      -- noting the origin in the end is no visit
      have hkeys : (s.2.origins.insert ty s.1).keys = s.2.origins.keys := by
        obtain ⟨new, hs, -⟩ := hparents [] [] .done
        rw [Table.keys_insert, if_pos]
        simp [hs, keys_enter hnew]
      rw [hkeys] at hl ⊢
      obtain ⟨new, hs, hvisits⟩ := hparents rest l hl
      rw [keys_enter hnew] at hs hvisits
      rw [Program.map_fst_parents] at hvisits
      refine ⟨ty :: new, ?_, .first hnew he hvisits⟩
      rw [hs, List.append_assoc]
      rfl

end OverrideWalk

/-! ## What the walk finds, in order -/

namespace Program

variable {p : Program}

/-- The walk visits types in the order of first visits, and finds their methods in this order. -/
theorem firstVisits_overrideWalk {ty : TypeId} {t : TypeSymbol} (ht : p.types.get? ty = some t)
    (key : String) : p.FirstVisits [] [ty] (p.overrideWalk ty t key).origins.keys ∧
      (p.overrideWalk ty t key).found =
        (p.overrideWalk ty t key).origins.keys.flatMap fun x => p.virtualMethods x key := by
  obtain ⟨new, hkeys, hvisits⟩ := OverrideWalk.goesThrough_visit key (e := (ty, t)) ht
    OverrideWalk.valid_empty OverrideWalk.deep_empty [] [] .done
  obtain ⟨new', hwalk, -⟩ := visited_overrideWalk ht key
  have hnew : (p.overrideWalk ty t key).origins.keys = new := hkeys
  have hnew' : (p.overrideWalk ty t key).origins.keys = new' := hwalk.keys
  constructor
  · rw [hnew, ← List.append_nil new]
    exact hvisits
  · rw [hnew']
    exact hwalk.found

/-- Methods of different types are different, and a type lists its own once. -/
theorem nodup_flatMap_virtualMethods {visits : List TypeId} (h : visits.Nodup) (key : String) :
    (visits.flatMap fun x => p.virtualMethods x key).Nodup := by
  rw [List.nodup_flatMap]
  constructor
  · intro x _
    refine (p.pairwise_virtualMethods x key).imp fun {a b} hab => ?_
    rintro rfl
    exact Nat.lt_irrefl _ hab
  · refine h.imp fun {x y} hxy id hx hy => hxy ?_
    obtain ⟨m, hm, hmx, -⟩ := mem_virtualMethods.mp hx
    obtain ⟨n, hn, hny, -⟩ := mem_virtualMethods.mp hy
    rw [hm] at hn
    cases hn
    rw [← hmx, ← hny]

/-- On any hierarchy, circles included, the walk ends, for no larger bound on its depth would change
it. It finds the virtual methods that have the override key and whose owners are reached from the
type, each once, in the order of first visits. -/
theorem resolveOverriding_eq_firstVisits (p : Program) (ty : TypeId) {t : TypeSymbol}
    (ht : p.types.get? ty = some t) (method : MethodId) {m : MethodSymbol}
    (hm : p.methods.get? method = some m) :
    (∀ depth, p.types.size < depth →
      (OverrideWalk.visit p m.key depth (ty, t) {}).2 = p.overrideWalk ty t m.key) ∧
    ∃ found findings visits, p.resolveOverriding ty method = .ok (found, findings) ∧
      (∀ id, id ∈ found ↔ ∃ n, p.methods.get? id = some n ∧ n.isVirtual = true ∧
        n.key = m.key ∧ p.Reaches ty n.owner) ∧
      found.Nodup ∧
      (∀ l, p.FirstVisits [] [ty] l ↔ l = visits) ∧
      (found = visits.flatMap fun x => p.virtualMethods x m.key) ∧
      ∀ x, (p.virtualMethods x m.key).Pairwise (· < ·) := by
  obtain ⟨hvisits, hfound⟩ := firstVisits_overrideWalk ht m.key
  refine ⟨fun depth hdepth => ?_, _, (p.overriddenFrom ty t m.key).2, _, ?_,
    fun id => mem_overriddenFrom ht rfl, ?_,
    fun l => ⟨fun hl => hl.unique hvisits, fun hl => hl ▸ hvisits⟩, hfound,
    fun x => p.pairwise_virtualMethods x m.key⟩
  · rw [OverrideWalk.visit_eq_of_deep (e := (ty, t)) ht OverrideWalk.valid_empty hdepth
      OverrideWalk.deep_empty, overrideWalk]
  · rw [resolveOverriding, Arena.get_eq_ok_iff.mpr hm, Arena.get_eq_ok_iff.mpr ht]
    rfl
  · rw [show (p.overriddenFrom ty t m.key).1 = (p.overrideWalk ty t m.key).found from rfl, hfound]
    exact nodup_flatMap_virtualMethods (p.overrideWalk ty t m.key).origins.nodup_keys _

/-- `A` extends `B`, and once more implements it, and refers to a type that is not there; `B`
extends `A`. Both declare a virtual method `m`. -/
def circularTypes : Program where
  types := ⟨#[
    { package := "", shortName := "A", fullName := "A", superType := some "B",
      interfaces := ["Gone", "B"] },
    { package := "", shortName := "B", fullName := "B", superType := some "A" }]⟩
  methods := ⟨#[
    { owner := ⟨0⟩, name := "m", params := [], returnType := "V", isVirtual := true },
    { owner := ⟨1⟩, name := "m", params := [], returnType := "V", isVirtual := true }]⟩

/-- In a circle of two types both methods are found, each once. -/
theorem resolveOverriding_circularTypes :
    ∃ t m, circularTypes.types.get? ⟨0⟩ = some t ∧ circularTypes.methods.get? ⟨0⟩ = some m ∧
      ∃ found findings, circularTypes.resolveOverriding ⟨0⟩ ⟨0⟩ = .ok (found, findings) ∧
        found.Nodup ∧ (⟨1⟩ ∈ found ↔ circularTypes.Reaches ⟨0⟩ ⟨1⟩) ∧
        found = [⟨0⟩, ⟨1⟩] := by
  refine ⟨_, _, rfl, rfl, ?_⟩
  obtain ⟨-, found, findings, visits, hok, hmem, hnodup, hvisits, hfound, -⟩ :=
    resolveOverriding_eq_firstVisits circularTypes ⟨0⟩ rfl ⟨0⟩ rfl
  refine ⟨found, findings, hok, hnodup, ?_, ?_⟩
  · rw [hmem]
    constructor
    · intro h
      obtain ⟨n, hn, -, -, hreach⟩ := h
      cases hn
      exact hreach
    · exact fun hreach => ⟨_, rfl, rfl, by decide +kernel, hreach⟩
  · -- from `A` to `B`, back to `A`, and once more to `B`
    have hA : ["B", "Gone", "B"].filterMap circularTypes.lookup = [⟨1⟩, ⟨1⟩] := by decide +kernel
    have hB : ["A"].filterMap circularTypes.lookup = [⟨0⟩] := by decide +kernel
    have horder : circularTypes.FirstVisits [] [⟨0⟩] [⟨0⟩, ⟨1⟩] := by
      refine .first (by simp) rfl ?_
      show circularTypes.FirstVisits [⟨0⟩] (["B", "Gone", "B"].filterMap circularTypes.lookup ++ [])
        [⟨1⟩]
      rw [hA]
      refine .first (by decide) rfl ?_
      show circularTypes.FirstVisits [⟨0⟩, ⟨1⟩] (["A"].filterMap circularTypes.lookup ++ [⟨1⟩]) []
      rw [hB]
      exact .again (by decide) (.again (by decide) .done)
    rw [hfound, ← (hvisits _).mp horder]
    decide +kernel

end Program
end Renamer
