import Renamer.Proofs.PointedCalls

/-!
# Calls on package trees

Packages are created, given aliases and decided by calls in any order, from the tree that has the
unnamed package only.

A package is decided after those above it, but for those that were passed over: they had an alias
then, without having been decided (`TreeCall.decidedAt_above_iff`). Assigning gives such aliases,
and nothing else does.
-/

namespace Renamer

/-- A call that changes a package tree. A call that decides has its own predicate, and a source of
names, which may be what an earlier call left. -/
inductive TreeCall where
  | create (text : String)
  | assign (id : PackageId) (newName : String)
  | decide (id : PackageId) (wants : String → Bool) (source : NameSource)

namespace TreeCall

/-- The tree after a call. -/
def run (t : PackageTree) : TreeCall → Except OutOfRange PackageTree
  | create text => return (t.getOrCreate text).2
  | assign id newName => t.assignAt id newName
  | decide id wants source => return (← t.decideAt id wants source).1

/-- The tree after calls, the unnamed package at first. -/
def runAll (calls : List TreeCall) : Except OutOfRange PackageTree := calls.foldlM run {}

/-- The packages with pointers after a call. -/
def runPointed (q : PointedPackages) : TreeCall → Except OutOfRange PointedPackages
  | create text => return (← q.getOrCreate text).2
  | assign id newName => q.assign id newName
  | decide id wants source => return (← q.decide id wants source).1

/-- The packages with pointers after calls, the unnamed one at first. -/
def runAllPointed (calls : List TreeCall) : Except OutOfRange PointedPackages :=
  calls.foldlM runPointed {}

end TreeCall

/-- The last call is made where the calls before it have led. -/
theorem foldlM_append_singleton_eq_ok {ε σ α : Type} {f : σ → α → Except ε σ} {l : List α} {a : α}
    {s s' : σ} : (l ++ [a]).foldlM f s = .ok s' ↔ ∃ u, l.foldlM f s = .ok u ∧ f u a = .ok s' := by
  rw [List.foldlM_append, bind_eq_ok]
  refine exists_congr fun u => and_congr_right fun _ => ?_
  rw [List.foldlM_cons]
  show f u a >>= pure = _ ↔ _
  rw [bind_pure]

/-- What is said of each call after those before it is said of the last one, too. -/
theorem forall_split_append_singleton {α : Type} {l : List α} {a : α} {P : List α → α → Prop} :
    (∀ before b after, l ++ [a] = before ++ b :: after → P before b) ↔
      (∀ before b after, l = before ++ b :: after → P before b) ∧ P l a := by
  constructor
  · intro h
    refine ⟨fun before b after heq => h before b (after ++ [a]) ?_, h l a [] rfl⟩
    rw [heq, List.append_assoc, List.cons_append]
  · rintro ⟨hfront, hlast⟩ before b after heq
    cases after using List.reverseRecOn with
    | nil =>
      obtain ⟨hl, hb⟩ := List.append_inj' heq rfl
      cases hb
      exact hl ▸ hlast
    | append_singleton after c =>
      rw [← List.cons_append, ← List.append_assoc] at heq
      exact hfront before b after (List.append_inj' heq rfl).1

namespace PackageTree

variable {t : PackageTree} {path : PackagePath} {id : PackageId}

/-- A slot leads to the path at which it is found. -/
theorem Linked.pathAt_eq_ok_iff (h : t.Linked) :
    t.pathAt id = .ok path ↔ t.find? path = some id := by
  have hpathAt : ∀ {n}, t.nodes.get? id = some n → t.pathAt id = .ok n.path := by
    intro n hn
    rw [pathAt, Arena.get_eq_ok_iff.mpr hn]
    rfl
  constructor
  · intro hpath
    cases hn : t.nodes.get? id with
    | none =>
      rw [pathAt, Arena.get, hn] at hpath
      cases hpath
    | some n =>
      cases (hpathAt hn).symm.trans hpath
      exact h.find?_eq hn
  · intro hfind
    obtain ⟨n, hn, rfl⟩ := get?_of_find? hfind
    exact hpathAt hn

theorem pathAt_of_lt (h : id.index < t.size) : ∃ path, t.pathAt id = .ok path := by
  obtain ⟨n, hn⟩ := Arena.exists_get?_of_lt h
  exact ⟨n.path, by rw [pathAt, Arena.get_eq_ok_iff.mpr hn]; rfl⟩

end PackageTree

/-! ## What calls do -/

namespace TreeCall

variable {t t' : PackageTree} {q : PointedPackages} {path : PackagePath} {id : PackageId}
  {calls : List TreeCall} {call : TreeCall}

/-- What a call that succeeds does to a tree. -/
inductive Runs (t : PackageTree) : TreeCall → PackageTree → Prop
  | create (text : String) : Runs t (create text) (t.create (PackagePath.ofText text))
  | assign {id : PackageId} {path : PackagePath} (newName : String) : t.find? path = some id →
      Runs t (assign id newName) (t.assign path newName)
  | decide {id : PackageId} {path : PackagePath} (wants : String → Bool) (source : NameSource) :
      t.find? path = some id → Runs t (decide id wants source) (t.decide path wants source).1

theorem runs_of_run (ht : t.Linked) (h : run t call = .ok t') : Runs t call t' := by
  cases call with
  | create text =>
    cases h
    exact Runs.create text
  | assign id newName =>
    cases hpath : t.pathAt id with
    | error e =>
      rw [run, PackageTree.assignAt, hpath] at h
      cases h
    | ok path =>
      rw [run, PackageTree.assignAt, hpath] at h
      cases h
      exact Runs.assign newName (ht.pathAt_eq_ok_iff.mp hpath)
  | decide id wants source =>
    cases hpath : t.pathAt id with
    | error e =>
      rw [run, PackageTree.decideAt, hpath] at h
      cases h
    | ok path =>
      rw [run, PackageTree.decideAt, hpath] at h
      cases h
      exact Runs.decide wants source (ht.pathAt_eq_ok_iff.mp hpath)

theorem Runs.grown (h : Runs t call t') (ht : t.Grown) : t'.Grown := by
  cases h with
  | create text => exact ht.create fun s hs => PackagePath.isSegment_of_mem_ofText hs
  | assign newName _ => exact ht.assign _ newName
  | decide wants source hfind => exact ht.decide (PackageTree.has_of_find? hfind) wants source

/-- The notes show the tree after a call, too. -/
theorem Runs.shows (h : Runs t call t') (ht : t.Grown) (hq : q.Shows t []) :
    ∃ q', runPointed q call = .ok q' ∧ q'.Shows t' [] := by
  cases h with
  | create text =>
    obtain ⟨q', hrun, hshows⟩ := hq.getOrCreate ht text
    refine ⟨q', ?_, hshows⟩
    rw [runPointed, hrun]
    rfl
  | assign newName hfind => exact hq.assign ht.linked hfind newName
  | decide wants source hfind =>
    obtain ⟨q', hrun, hshows⟩ := hq.decide ht hfind wants source
    refine ⟨q', ?_, hshows⟩
    rw [runPointed, hrun]
    rfl

/-- A slot leads to the same path after a call. -/
theorem Runs.find?_eq (h : Runs t call t') (hfind : t.find? path = some id) :
    t'.find? path = some id := by
  cases h with
  | create text =>
    apply List.foldlRecOn (motive := fun t' : PackageTree => t'.find? path = some id)
    · exact hfind
    · intro u hu a _
      rw [PackageTree.find?_ensure]
      split
      · rename_i heq
        rw [← heq, hu]
        rfl
      · exact hu
  | assign newName _ => rw [PackageTree.find?_assign, hfind]
  | decide wants source _ => rw [PackageTree.find?_decide, hfind]

theorem runAll_append_singleton :
    runAll (calls ++ [call]) = runAll calls >>= fun t => run t call := by
  rw [runAll, List.foldlM_append]
  refine bind_congr fun t => ?_
  rw [List.foldlM_cons]
  exact bind_pure _

theorem runAll_append_singleton_eq_ok (h : runAll (calls ++ [call]) = .ok t') :
    ∃ t, runAll calls = .ok t ∧ run t call = .ok t' :=
  foldlM_append_singleton_eq_ok.mp h

/-- Calls move no package. -/
theorem find?_foldlM_run (ht : t.Grown) (h : calls.foldlM run t = .ok t') :
    t'.Grown ∧ ∀ {path id}, t.find? path = some id → t'.find? path = some id := by
  induction calls using List.reverseRecOn generalizing t' with
  | nil =>
    cases h
    exact ⟨ht, id⟩
  | append_singleton calls call ih =>
    obtain ⟨u, hu, hrun⟩ := foldlM_append_singleton_eq_ok.mp h
    obtain ⟨hgrown, hfinds⟩ := ih hu
    have hruns := runs_of_run hgrown.linked hrun
    exact ⟨hruns.grown hgrown, fun hfind => hruns.find?_eq (hfinds hfind)⟩

theorem grown_runAll (h : runAll calls = .ok t) : t.Grown :=
  (find?_foldlM_run PackageTree.grown_empty h).1

/-- Wherever calls lead on trees, they lead there with pointers. -/
theorem shows_runAll (h : runAll calls = .ok t) :
    ∃ q, runAllPointed calls = .ok q ∧ q.Shows t [] := by
  induction calls using List.reverseRecOn generalizing t with
  | nil =>
    cases h
    exact ⟨{}, rfl, PointedPackages.shows_empty⟩
  | append_singleton calls call ih =>
    obtain ⟨u, hu, hrun⟩ := runAll_append_singleton_eq_ok h
    obtain ⟨q, hq, hshows⟩ := ih hu
    have hgrown := grown_runAll hu
    obtain ⟨q', hq', hshows'⟩ := (runs_of_run hgrown.linked hrun).shows hgrown hshows
    exact ⟨q', foldlM_append_singleton_eq_ok.mpr ⟨q, hq, hq'⟩, hshows'⟩

end TreeCall

/-! ## The order of decisions -/

namespace PackageTree

variable {t : PackageTree} {path a b : PackagePath}

/-- A place among those decided is one in the list of them. -/
theorem decidedAt_eq_some_iff (h : t.order.Nodup) {k : Nat} :
    t.decidedAt path = some k ↔ t.order[k]? = some path := by
  rw [decidedAt, List.idxOf?_eq_some_iff, List.getElem?_eq_some_iff]
  refine exists_congr fun hk => and_iff_left_iff_imp.mpr fun hpath j hj heq => ?_
  have hsame := h.getElem_inj_iff.mp (heq.trans hpath.symm)
  omega

/-- Who was decided before a package stands in the list in front of it. -/
theorem exists_decidedAt_lt_iff {front back : List PackagePath} (h : t.order.Nodup)
    (horder : t.order = front ++ b :: back) :
    (∃ i, t.decidedAt a = some i ∧ i < front.length) ↔ a ∈ front := by
  rw [List.mem_iff_getElem?]
  refine exists_congr fun i => ?_
  rw [decidedAt_eq_some_iff h, horder]
  constructor
  · rintro ⟨hi, hlt⟩
    rwa [List.getElem?_append_left hlt] at hi
  · intro hi
    have hlt : i < front.length := (List.getElem?_eq_some_iff.mp hi).1
    rw [List.getElem?_append_left hlt]
    exact ⟨hi, hlt⟩

theorem order_decideOne (wants : String → Bool) (s : PackageTree × NameSource)
    (path : PackagePath) : (decideOne wants s path).1.order =
      if path ∈ s.1.order then s.1.order else s.1.order ++ [path] := by
  by_cases hmem : path ∈ s.1.order
  · rw [decideOne_of_mem hmem, if_pos hmem]
  · have hd := decides_decideOne wants s path
    generalize decideOne wants s path = s' at hd
    rw [if_neg hmem]
    cases hd with
    | again h => exact absurd h hmem
    | keep _ => rfl
    | draw _ _ _ => rfl

theorem order_foldl_decideOne (wants : String → Bool) {l : List PackagePath} (hl : l.Nodup)
    (s : PackageTree × NameSource) : (l.foldl (decideOne wants) s).1.order =
      s.1.order ++ l.filter fun a => a ∉ s.1.order := by
  induction l generalizing s with
  | nil => simp
  | cons path l ih =>
    obtain ⟨hpath, hl⟩ := List.nodup_cons.mp hl
    rw [List.foldl_cons, ih hl, order_decideOne]
    by_cases hmem : path ∈ s.1.order
    · rw [if_pos hmem, List.filter_cons_of_neg (by simpa using hmem)]
    · rw [if_neg hmem, List.filter_cons_of_pos (by simpa using hmem), List.append_assoc,
        List.singleton_append]
      -- the package decided first is not among the others
      congr 2
      refine List.filter_congr fun a ha => ?_
      have hne : a ≠ path := fun heq => hpath (heq ▸ ha)
      simp [hne]

theorem pairwise_length_lineage (path : PackagePath) :
    path.lineage.Pairwise fun a b => a.length < b.length := by
  refine List.pairwise_map.mpr (List.pairwise_lt_range.imp_of_mem fun {i j} hi hj hlt => ?_)
  rw [List.mem_range] at hi hj
  simp only [List.length_take]
  omega

/-- What a call decides: the package and those above it without alias, but for those decided
before. -/
def decisions (t : PackageTree) (path : PackagePath) : List PackagePath :=
  if path ∈ t.order then []
  else path.lineage.filter fun a => a ∉ t.order && (a == path || (t.aliasOf a).isNone)

theorem mem_decisions_iff : a ∈ t.decisions path ↔
    path ∉ t.order ∧ a ∈ path.lineage ∧ a ∉ t.order ∧ (a = path ∨ t.aliasOf a = none) := by
  unfold decisions
  by_cases hmem : path ∈ t.order <;> simp [hmem]

theorem pairwise_decisions (t : PackageTree) (path : PackagePath) :
    (t.decisions path).Pairwise fun a b => a.length < b.length := by
  unfold decisions
  split
  · exact List.Pairwise.nil
  · exact (pairwise_length_lineage path).filter _

theorem order_decide (t : PackageTree) (path : PackagePath) (wants : String → Bool)
    (source : NameSource) :
    (t.decide path wants source).1.order = t.order ++ t.decisions path := by
  unfold PackageTree.decide decisions
  by_cases hmem : path ∈ t.order
  · rw [if_pos (List.contains_iff_mem.mpr hmem), if_pos hmem, List.append_nil]
  · have hnodup : path.lineage.Nodup := (pairwise_length_lineage path).imp fun {a b} hlt heq => by
      rw [heq] at hlt
      exact Nat.lt_irrefl _ hlt
    rw [if_neg fun h => hmem (List.contains_iff_mem.mp h), if_neg hmem,
      order_foldl_decideOne wants (hnodup.filter _), List.filter_filter]

end PackageTree

namespace TreeCall

variable {t t' s s' : PackageTree} {a b path : PackagePath} {id : PackageId}
  {calls : List TreeCall} {call : TreeCall}

/-- The package `b` is decided from `s` to `s'`, while `a` has an alias without having been
decided. -/
structure Passes (a b : PackagePath) (s s' : PackageTree) : Prop where
  pending : b ∉ s.order
  decided : b ∈ s'.order
  named : (s.aliasOf a).isSome = true
  undecided : a ∉ s.order

/-- In one of the calls `b` is decided while `a` has an alias without having been decided. -/
def PassedOver (calls : List TreeCall) (a b : PackagePath) : Prop :=
  ∃ before call rest s s', calls = before ++ call :: rest ∧ runAll before = .ok s ∧
    run s call = .ok s' ∧ Passes a b s s'

theorem passedOver_append_singleton (hs : runAll calls = .ok s) (hrun : run s call = .ok s') :
    PassedOver (calls ++ [call]) a b ↔ PassedOver calls a b ∨ Passes a b s s' := by
  constructor
  · rintro ⟨before, c, rest, u, u', hcalls, hu, hu', hpasses⟩
    cases rest using List.reverseRecOn with
    | nil =>
      obtain ⟨hbefore, hlast⟩ := List.append_inj' hcalls rfl
      cases hlast
      rw [← hbefore, hs] at hu
      cases hu
      cases hrun.symm.trans hu'
      exact Or.inr hpasses
    | append_singleton rest c' =>
      rw [← List.cons_append, ← List.append_assoc] at hcalls
      obtain ⟨hbefore, -⟩ := List.append_inj' hcalls rfl
      exact Or.inl ⟨before, c, rest, u, u', hbefore, hu, hu', hpasses⟩
  · rintro (⟨before, c, rest, u, u', rfl, hu, hu', hpasses⟩ | hpasses)
    · exact ⟨before, c, rest ++ [call], u, u', by simp, hu, hu', hpasses⟩
    · exact ⟨calls, call, [], s, s', rfl, hs, hrun, hpasses⟩

/-- What has been decided keeps its place. -/
theorem Runs.order_isPrefix (h : Runs s call s') : s.order <+: s'.order := by
  cases h with
  | create text =>
    rw [PackageTree.order_create]
  | assign newName _ => exact List.prefix_refl _
  | decide wants source _ =>
    rw [PackageTree.order_decide]
    exact List.prefix_append _ _

/-- Nothing that was decided later was passed over. -/
theorem mem_order_of_passedOver (ht : runAll calls = .ok t) (h : PassedOver calls a b) :
    b ∈ t.order := by
  induction calls using List.reverseRecOn generalizing t with
  | nil =>
    obtain ⟨before, c, rest, -, -, hcalls, -⟩ := h
    simp at hcalls
  | append_singleton calls call ih =>
    obtain ⟨s, hs, hrun⟩ := runAll_append_singleton_eq_ok ht
    rcases (passedOver_append_singleton hs hrun).mp h with hold | hpasses
    · exact (runs_of_run (grown_runAll hs).linked hrun).order_isPrefix.subset (ih hs hold)
    · exact hpasses.decided

/-- A call decides a package after those above it, but for those that have aliases. -/
theorem mem_front_decisions_iff {t : PackageTree} (ha : a ≠ []) (hab : a <+: b) (hne : a ≠ b)
    {front back : List PackagePath} (h : t.decisions path = front ++ b :: back) :
    a ∈ front ↔ a ∉ t.order ∧ t.aliasOf a = none := by
  have hb : b ∈ t.decisions path := by
    rw [h]
    simp
  obtain ⟨hpath, hbpath, -⟩ := PackageTree.mem_decisions_iff.mp hb
  have hbpath := (PackagePath.mem_lineage.mp hbpath).2
  have hshort : a.length < b.length :=
    Nat.lt_of_le_of_ne hab.length_le fun heq => hne (hab.eq_of_length heq)
  constructor
  · intro hfront
    have hda : a ∈ t.decisions path := by
      rw [h]
      exact List.mem_append_left _ hfront
    obtain ⟨-, -, hold, hwhy⟩ := PackageTree.mem_decisions_iff.mp hda
    refine ⟨hold, hwhy.resolve_left fun heq => ?_⟩
    have hle := hbpath.length_le
    rw [← heq] at hle
    omega
  · intro ⟨hold, hnone⟩
    have hda : a ∈ t.decisions path := PackageTree.mem_decisions_iff.mpr
      ⟨hpath, PackagePath.mem_lineage.mpr ⟨ha, hab.trans hbpath⟩, hold, Or.inr hnone⟩
    have hsorted := t.pairwise_decisions path
    rw [h] at hda hsorted
    -- packages decided later by the call have longer paths
    refine (List.mem_append.mp hda).resolve_right fun hback => ?_
    rcases List.mem_cons.mp hback with heq | hlater
    · exact hne heq
    · have hlong := (List.pairwise_cons.mp (List.pairwise_append.mp hsorted).2.1).1 a hlater
      omega

/-- Two lists one behind the other, cut at an element that is not in the first one. -/
theorem exists_eq_append_of_notMem {α : Type} {l m front back : List α} {b : α} (hb : b ∉ l)
    (h : l ++ m = front ++ b :: back) : ∃ mid, front = l ++ mid ∧ m = mid ++ b :: back := by
  rcases List.append_eq_append_iff.mp h with ⟨mid, hfront, hmid⟩ | ⟨mid, hold, hmid⟩
  · exact ⟨mid, hfront, hmid⟩
  · cases mid with
    | nil => exact ⟨[], by simpa using hold.symm, hmid.symm⟩
    | cons c mid =>
      rw [hold, (List.cons.inj hmid).1] at hb
      exact absurd (by simp) hb

/-- In front of a package that a call has decided are those above it, but for those that have
aliases and had not been decided before. -/
theorem Runs.mem_front_iff (h : Runs s call s') (ha : a ≠ []) (hab : a <+: b) (hne : a ≠ b)
    {front back : List PackagePath} (hnew : b ∉ s.order) (horder : s'.order = front ++ b :: back) :
    a ∈ front ↔ ¬ ((s.aliasOf a).isSome = true ∧ a ∉ s.order) := by
  have hlast : b ∈ s'.order := by
    rw [horder]
    simp
  cases h with
  | create text =>
    rw [PackageTree.order_create] at hlast
    exact absurd hlast hnew
  | assign newName _ => exact absurd hlast hnew
  | @decide id path wants source hfind =>
    rw [PackageTree.order_decide] at horder
    obtain ⟨mid, rfl, hmid⟩ := exists_eq_append_of_notMem hnew horder
    rw [List.mem_append, mem_front_decisions_iff ha hab hne hmid, not_and, not_not,
      ← Option.not_isSome_iff_eq_none]
    tauto

/-- What was decided in front of a package are those above it that were not passed over. -/
theorem mem_front_iff_not_passedOver (ht : runAll calls = .ok t) (ha : a ≠ []) (hab : a <+: b)
    (hne : a ≠ b) {front back : List PackagePath} (horder : t.order = front ++ b :: back) :
    a ∈ front ↔ ¬ PassedOver calls a b := by
  induction calls using List.reverseRecOn generalizing t front back with
  | nil =>
    cases ht
    simp at horder
  | append_singleton calls call ih =>
    obtain ⟨s, hs, hrun⟩ := runAll_append_singleton_eq_ok ht
    have hruns := runs_of_run (grown_runAll hs).linked hrun
    rw [passedOver_append_singleton hs hrun, not_or]
    by_cases hold : b ∈ s.order
    · -- it was decided before, and what is in front of it stays
      obtain ⟨front', back', hsplit⟩ := List.append_of_mem hold
      have hfront : front' = front := by
        obtain ⟨more, hmore⟩ := hruns.order_isPrefix
        have hnodup := (grown_runAll ht).nodup
        rw [← hmore, hsplit, List.append_assoc, List.cons_append] at horder hnodup
        have honce := (List.nodup_cons.mp (List.nodup_middle.mp hnodup)).1
        rw [List.mem_append, not_or] at honce
        exact ((List.append_cons_inj_of_notMem honce.1 honce.2).mp horder).1
      rw [← hfront, ih hs hsplit]
      exact (and_iff_left fun hpasses => hpasses.pending hold).symm
    · rw [hruns.mem_front_iff ha hab hne hold horder]
      have hnot : ¬ PassedOver calls a b := fun h => hold (mem_order_of_passedOver hs h)
      rw [and_iff_right hnot]
      refine not_congr ⟨fun h => ⟨hold, ?_, h.1, h.2⟩, fun h => ⟨h.named, h.undecided⟩⟩
      rw [horder]
      simp

/-- An alias was there, or it has come with a decision or with the call that assigns it. -/
theorem Runs.named (h : Runs s call s') (hs : s.Grown) (hname : (s'.aliasOf a).isSome = true) :
    (s.aliasOf a).isSome = true ∨ a ∈ s'.order ∨
      ∃ id newName, call = TreeCall.assign id newName ∧ s'.find? a = some id := by
  cases h with
  | create text =>
    rw [PackageTree.aliasOf_create] at hname
    exact Or.inl hname
  | @assign id path newName hfind =>
    rw [PackageTree.aliasOf_assign (PackageTree.has_of_find? hfind)] at hname
    split at hname
    · rename_i heq
      rw [heq, PackageTree.find?_assign]
      exact Or.inr (Or.inr ⟨id, newName, rfl, hfind⟩)
    · exact Or.inl hname
  | @decide id path wants source hfind =>
    have hhas : ∀ b ∈ path.lineage, s.Has b := fun b hb =>
      hs.linked.has_of_mem_lineage (PackageTree.has_of_find? hfind) hb
    have hall : (∀ b ∈ path.lineage, (s.decide path wants source).1.Has b) ∧
        (((s.decide path wants source).1.aliasOf a).isSome = true →
          (s.aliasOf a).isSome = true ∨ a ∈ (s.decide path wants source).1.order) :=
      PackageTree.decide_induct (motive := fun u => (∀ b ∈ path.lineage, u.1.Has b) ∧
        ((u.1.aliasOf a).isSome = true → (s.aliasOf a).isSome = true ∨ a ∈ u.1.order))
        ⟨hhas, Or.inl⟩ fun u u' b hb hd hu => by
          refine ⟨fun c hc => hd.has.mpr (hu.1 c hc), fun hnamed => ?_⟩
          by_cases hab : a = b
          · exact Or.inr (hd.mem_order_iff.mpr (Or.inr hab))
          · rw [hd.aliasOf_of_ne (hu.1 b hb) hab] at hnamed
            exact (hu.2 hnamed).imp_right fun hmem => hd.mem_order_iff.mpr (Or.inl hmem)
    exact (hall.2 hname).imp_right Or.inl

/-- What has an alias was decided, or the alias was assigned. -/
theorem assigned_of_named (ht : runAll calls = .ok t) (hname : (t.aliasOf a).isSome = true)
    (hnew : a ∉ t.order) : ∃ id newName, assign id newName ∈ calls ∧ t.find? a = some id := by
  induction calls using List.reverseRecOn generalizing t with
  | nil =>
    cases ht
    rw [PackageTree.aliasOf_empty] at hname
    cases hname
  | append_singleton calls call ih =>
    obtain ⟨s, hs, hrun⟩ := runAll_append_singleton_eq_ok ht
    have hruns := runs_of_run (grown_runAll hs).linked hrun
    rcases hruns.named (grown_runAll hs) hname with hold | hdecided | ⟨id, newName, rfl, hfind⟩
    · obtain ⟨id, newName, hmem, hfind⟩ :=
        ih hs hold fun hmem => hnew (hruns.order_isPrefix.subset hmem)
      exact ⟨id, newName, List.mem_append_left _ hmem, hruns.find?_eq hfind⟩
    · exact absurd hdecided hnew
    · exact ⟨id, newName, by simp, hfind⟩

/-- Who was passed over was assigned its alias. -/
theorem assigned_of_passedOver (ht : runAll calls = .ok t) (h : PassedOver calls a b) :
    ∃ id newName, assign id newName ∈ calls ∧ t.find? a = some id := by
  induction calls using List.reverseRecOn generalizing t with
  | nil =>
    obtain ⟨before, c, rest, -, -, hcalls, -⟩ := h
    simp at hcalls
  | append_singleton calls call ih =>
    obtain ⟨s, hs, hrun⟩ := runAll_append_singleton_eq_ok ht
    have hruns := runs_of_run (grown_runAll hs).linked hrun
    obtain ⟨id, newName, hmem, hfind⟩ : ∃ id newName, assign id newName ∈ calls ∧
        s.find? a = some id := by
      rcases (passedOver_append_singleton hs hrun).mp h with hold | hpasses
      · exact ih hs hold
      · exact assigned_of_named hs hpasses.named hpasses.undecided
    exact ⟨id, newName, List.mem_append_left _ hmem, hruns.find?_eq hfind⟩

/-- After any calls the places of decided packages are those in the list of them. A package above a
decided one has a smaller place, unless it was passed over: when the other one was decided it had an
alias that some call had assigned, and had not been decided itself. -/
theorem decidedAt_above_iff (calls : List TreeCall) (t : PackageTree)
    (ht : runAll calls = .ok t) :
    (∃ q, runAllPointed calls = .ok q ∧ q.Shows t []) ∧
      ∀ a b k, t.decidedAt b = some k → a ≠ [] → a <+: b → a ≠ b →
        ((∃ i, t.decidedAt a = some i ∧ i < k) ↔ ¬ PassedOver calls a b) ∧
        (PassedOver calls a b → ∃ id newName, assign id newName ∈ calls ∧ t.pathAt id = .ok a) := by
  have hgrown := grown_runAll ht
  refine ⟨shows_runAll ht, fun a b k hb ha hab hne => ⟨?_, fun hpassed => ?_⟩⟩
  · have hplace := (PackageTree.decidedAt_eq_some_iff hgrown.nodup).mp hb
    obtain ⟨hk, hget⟩ := List.getElem?_eq_some_iff.mp hplace
    have horder : t.order = t.order.take k ++ b :: t.order.drop (k + 1) := by
      rw [← hget, List.getElem_cons_drop, List.take_append_drop]
    have hlength : (t.order.take k).length = k := List.length_take_of_le hk.le
    rw [← mem_front_iff_not_passedOver ht ha hab hne horder,
      ← PackageTree.exists_decidedAt_lt_iff hgrown.nodup horder, hlength]
  · obtain ⟨id, newName, hmem, hfind⟩ := assigned_of_passedOver ht hpassed
    exact ⟨id, newName, hmem, hgrown.linked.pathAt_eq_ok_iff.mpr hfind⟩

/-- A package is decided while the one right above it has an assigned alias. -/
def assigning : List TreeCall :=
  [create "x.y.z", assign ⟨2⟩ "foo", decide ⟨3⟩ (fun _ => true) {}]

theorem decidedAt_above_assigning :
    ∃ t, runAll assigning = .ok t ∧ t.decidedAt ["x", "y", "z"] = some 1 ∧
      ¬ PassedOver assigning ["x"] ["x", "y", "z"] ∧
      PassedOver assigning ["x", "y"] ["x", "y", "z"] := by
  let t : PackageTree :=
    { nodes := ⟨#[{ path := [] }, { path := ["x"], newName := some "a" },
        { path := ["x", "y"], newName := some "foo" },
        { path := ["x", "y", "z"], newName := some "b" }]⟩
      order := [["x"], ["x", "y", "z"]] }
  have ht : runAll assigning = .ok t := by decide +kernel
  have hlast : t.decidedAt ["x", "y", "z"] = some 1 := by decide
  obtain ⟨-, hplaces⟩ := decidedAt_above_iff assigning t ht
  obtain ⟨hfirst, -⟩ := hplaces ["x"] _ 1 hlast (by decide) (by decide) (by decide)
  obtain ⟨hnever, -⟩ := hplaces ["x", "y"] _ 1 hlast (by decide) (by decide) (by decide)
  refine ⟨t, ht, hlast, hfirst.mp ⟨0, by decide, by decide⟩, Classical.not_not.mp fun hnot => ?_⟩
  obtain ⟨i, hplace, -⟩ := hnever.mpr hnot
  have hnone : t.decidedAt ["x", "y"] = none := by decide
  rw [hnone] at hplace
  cases hplace

/-- A package is decided before the one above it, whose alias was assigned. -/
def overtaking : List TreeCall :=
  [create "x.y", assign ⟨1⟩ "foo", decide ⟨2⟩ (fun _ => false) {},
    decide ⟨1⟩ (fun _ => false) {}]

theorem decidedAt_above_overtaking :
    ∃ t, runAll overtaking = .ok t ∧ t.decidedAt ["x", "y"] = some 0 ∧
      t.decidedAt ["x"] = some 1 :=
  ⟨{ nodes := ⟨#[{ path := [] }, { path := ["x"], newName := some "foo" }, { path := ["x", "y"] }]⟩
     order := [["x", "y"], ["x"]] }, by decide +kernel, by decide, by decide⟩

end TreeCall
end Renamer
