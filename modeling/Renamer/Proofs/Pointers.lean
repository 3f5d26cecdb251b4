import Renamer.Proofs.Partition
import Renamer.Proofs.Tables

/-!
# Groups with pointers

The group of a method can be found without a search where every method has a pointer to its group.
Members and pointers are then two records of one thing, and a merge changes both, method by method:
it picks the first group that the set touches, or a new one, empties the other groups that the set
touches into it one after the other, and lets in the methods of the set that are in no group.

`PointedGroups.Shows` is the invariant: the members are those of the groups without pointers, and
the pointers lead to the groups that list the methods. So after any merges a pointer answers what
the search answers, and no pointer leads to a group that was emptied.
-/

namespace Renamer

/-- Groups of methods, with a pointer from every member to its group. -/
structure PointedGroups where
  /-- The members of each group; a group that was emptied into another one has none. -/
  slots : Arena .group (List MethodId) := {}
  /-- The group of each method that is in one. -/
  pointers : Table MethodId GroupId := {}

namespace PointedGroups

/-- The members of a group, empty where there is no such group. -/
def members (q : PointedGroups) (id : GroupId) : List MethodId := (q.slots.get? id).getD []

/-- Makes a method a member of a group, the last one where it is new there, and points it there. -/
def enter (target : GroupId) (q : PointedGroups) (m : MethodId) : PointedGroups where
  slots := q.slots.modify target fun l => if l.contains m then l else l ++ [m]
  pointers := q.pointers.insert m target

/-- Empties the group `other` into `target`, member by member. -/
def empty (target : GroupId) (q : PointedGroups) (other : GroupId) : PointedGroups :=
  (q.members other).foldl (enter target) { q with slots := q.slots.modify other fun _ => [] }

/-- Makes a method that is in no group a member of `target`. -/
def seat (target : GroupId) (q : PointedGroups) (m : MethodId) : PointedGroups :=
  if q.pointers.contains m then q else q.enter target m

/-- The group that takes in a set: the first one that it touches, or else a new one. -/
def host (q : PointedGroups) : List GroupId → GroupId × PointedGroups
  | [] => (q.slots.nextSlot, { q with slots := q.slots.push [] })
  | target :: _ => (target, q)

/-- Puts the methods of a set, given in order, into one group, and answers that group. A set of
fewer than two methods links nothing. -/
def merge (q : PointedGroups) (found : List MethodId) : Option GroupId × PointedGroups :=
  let found := found.eraseDups
  if found.length < 2 then (none, q)
  else
    let touched := (found.filterMap q.pointers.get?).eraseDups
    let (target, q) := q.host touched
    let q := touched.tail.foldl (empty target) q
    (some target, found.foldl (seat target) q)

/-- The groups that come of merging sets one after the other. -/
def mergeAll (sets : List (List MethodId)) : PointedGroups :=
  sets.foldl (fun q found => (q.merge found).2) {}

variable {q : PointedGroups} {target : GroupId}

/-- A set of fewer than two methods links nothing. -/
theorem merge_of_lt {found : List MethodId} (h : found.eraseDups.length < 2) :
    q.merge found = (none, q) := by
  rw [merge, if_pos h]

/-! ## Entering -/

/-- Methods that are new to a group become its last members, in their order. -/
theorem get?_foldl_enter {l : List MethodId} (hnodup : l.Nodup)
    (hnew : ∀ m ∈ l, m ∉ q.members target) (id : GroupId) :
    (l.foldl (enter target) q).slots.get? id =
      (q.slots.get? id).map fun old => if id = target then old ++ l else old := by
  induction l using List.reverseRecOn with
  | nil => simp
  | append_singleton l m ih =>
    obtain ⟨hl, -, hm⟩ := List.nodup_append.mp hnodup
    have hrest := ih hl fun x hx => hnew x (List.mem_append_left _ hx)
    rw [List.foldl_append, List.foldl_cons, List.foldl_nil, enter, Arena.get?_modify, hrest]
    by_cases hid : target = id
    · subst hid
      have hmem : m ∉ q.members target := hnew m (by simp)
      have hml : m ∉ l := fun h => hm m h m (by simp) rfl
      cases hget : q.slots.get? target with
      | none => simp
      | some old =>
        have hold : m ∉ old := by simpa [members, hget] using hmem
        simp [hold, hml]
    · have hne : id ≠ target := fun h => hid h.symm
      simp [hid, hne]

/-- Methods that enter a group point to it. -/
theorem get?_pointers_foldl_enter (l : List MethodId) (m : MethodId) :
    (l.foldl (enter target) q).pointers.get? m =
      if m ∈ l then some target else q.pointers.get? m := by
  induction l using List.reverseRecOn with
  | nil => simp
  | append_singleton l x ih =>
    rw [List.foldl_append, List.foldl_cons, List.foldl_nil, enter, Table.get?_insert, ih]
    by_cases hx : x = m
    · simp [hx]
    · have hne : ¬ m = x := fun h => hx h.symm
      simp [hx, hne]

/-- Of a set those enter that are in no group. -/
theorem foldl_seat {l : List MethodId} (hnodup : l.Nodup) :
    l.foldl (seat target) q =
      (l.filter fun m => (q.pointers.get? m).isNone).foldl (enter target) q := by
  induction l using List.reverseRecOn with
  | nil => rfl
  | append_singleton l m ih =>
    obtain ⟨hl, -, hm⟩ := List.nodup_append.mp hnodup
    have hml : m ∉ l := fun h => hm m h m (by simp) rfl
    -- the methods before `m` have not been given its pointer
    have hpointer : (l.foldl (seat target) q).pointers.get? m = q.pointers.get? m := by
      rw [ih hl, get?_pointers_foldl_enter, if_neg (fun h => hml (List.mem_filter.mp h).1)]
    rw [List.foldl_append, List.foldl_cons, List.foldl_nil, seat, Table.contains, hpointer, ih hl,
      List.filter_append, List.foldl_append]
    cases hget : q.pointers.get? m <;> simp [hget]

/-! ## Emptying groups into another one -/

/-- What is left of groups that are emptied into `target`: their members are behind its own. -/
theorem get?_foldl_empty {others : List GroupId} (hnodup : (target :: others).Nodup)
    (hmembers : ∀ id, (q.members id).Nodup)
    (hapart : ∀ {i j m}, m ∈ q.members i → m ∈ q.members j → i = j) (id : GroupId) :
    (others.foldl (empty target) q).slots.get? id = (q.slots.get? id).map fun old =>
      if id = target then old ++ others.flatMap q.members
      else if id ∈ others then [] else old := by
  induction others using List.reverseRecOn generalizing id with
  | nil => simp
  | append_singleton others o ih =>
    obtain ⟨htarget, hothers⟩ := List.nodup_cons.mp hnodup
    obtain ⟨hl, -, ho⟩ := List.nodup_append.mp hothers
    have hot : o ≠ target := fun h => htarget (by simp [h])
    have hol : o ∉ others := fun h => ho o h o (by simp) rfl
    have hrest := ih (List.nodup_cons.mpr ⟨fun h => htarget (by simp [h]), hl⟩)
    rw [List.foldl_append, List.foldl_cons, List.foldl_nil, empty]
    generalize others.foldl (empty target) q = r at hrest ⊢
    -- the group emptied last has been left alone so far
    have hro : r.members o = q.members o := by
      rw [members, hrest, members]
      cases q.slots.get? o <;> simp [hot, hol]
    have hrt : ∀ m ∈ q.members o, m ∉ r.members target := by
      intro m hm hmt
      rw [members, hrest] at hmt
      cases hget : q.slots.get? target with
      | none => simp [hget] at hmt
      | some old =>
        simp only [hget, Option.map_some, if_true, Option.getD_some, List.mem_append,
          List.mem_flatMap] at hmt
        rcases hmt with hmt | ⟨i, hi, hmi⟩
        · exact hot (hapart hm (by rw [members, hget]; exact hmt))
        · exact hol (hapart hm hmi ▸ hi)
    have hnew : ∀ m ∈ q.members o,
        m ∉ members { r with slots := r.slots.modify o fun _ => [] } target := by
      intro m hm hmt
      exact hrt m hm (by simpa [members, Arena.get?_modify, hot] using hmt)
    rw [hro, get?_foldl_enter (hmembers o) hnew, Arena.get?_modify, hrest]
    by_cases hid : id = target
    · subst hid
      cases q.slots.get? id <;> simp [hot]
    · by_cases hio : o = id
      · subst hio
        cases q.slots.get? o <;> simp [hot]
      · have hne : id ≠ o := fun h => hio h.symm
        cases q.slots.get? id <;> simp [hid, hio, hne]

/-- The members of emptied groups point to the group that took them in. -/
theorem get?_pointers_foldl_empty {others : List GroupId} (hnodup : (target :: others).Nodup)
    (hmembers : ∀ id, (q.members id).Nodup)
    (hapart : ∀ {i j m}, m ∈ q.members i → m ∈ q.members j → i = j) (m : MethodId) :
    (others.foldl (empty target) q).pointers.get? m =
      if m ∈ others.flatMap q.members then some target else q.pointers.get? m := by
  induction others using List.reverseRecOn with
  | nil => simp
  | append_singleton others o ih =>
    obtain ⟨htarget, hothers⟩ := List.nodup_cons.mp hnodup
    obtain ⟨hl, -, ho⟩ := List.nodup_append.mp hothers
    have hot : o ≠ target := fun h => htarget (by simp [h])
    have hol : o ∉ others := fun h => ho o h o (by simp) rfl
    have hfirst : (target :: others).Nodup :=
      List.nodup_cons.mpr ⟨fun h => htarget (by simp [h]), hl⟩
    have hro : (others.foldl (empty target) q).members o = q.members o := by
      rw [members, get?_foldl_empty hfirst hmembers hapart, members]
      cases q.slots.get? o <;> simp [hot, hol]
    rw [List.foldl_append, List.foldl_cons, List.foldl_nil, empty, get?_pointers_foldl_enter, hro]
    show (if m ∈ q.members o then some target
      else (others.foldl (empty target) q).pointers.get? m) = _
    rw [ih hfirst]
    by_cases hmo : m ∈ q.members o <;> simp [hmo]

/-- Emptying groups into another one makes no method a member that was none. -/
theorem exists_mem_of_mem_foldl_empty {others : List GroupId} (hnodup : (target :: others).Nodup)
    (hmembers : ∀ id, (q.members id).Nodup)
    (hapart : ∀ {i j m}, m ∈ q.members i → m ∈ q.members j → i = j) {m : MethodId} {id : GroupId}
    (h : m ∈ (others.foldl (empty target) q).members id) : ∃ i, m ∈ q.members i := by
  rw [members, get?_foldl_empty hnodup hmembers hapart] at h
  cases hget : q.slots.get? id with
  | none =>
    rw [hget] at h
    cases h
  | some old =>
    have hold : q.members id = old := by
      rw [members, hget]
      rfl
    rw [hget, Option.map_some, Option.getD_some, ← hold] at h
    split at h
    · rcases List.mem_append.mp h with hm | hm
      · exact ⟨id, hm⟩
      · obtain ⟨i, -, hmi⟩ := List.mem_flatMap.mp hm
        exact ⟨i, hmi⟩
    · split at h
      · cases h
      · exact ⟨id, h⟩

/-! ## Members and pointers show the same groups -/

/-- The members are those of `g`, and a pointer leads to the group that lists the method. -/
structure Shows (q : PointedGroups) (g : OverrideGroups) : Prop where
  slots : q.slots = g.slots
  pointers : ∀ m id, q.pointers.get? m = some id ↔ m ∈ g.members id

variable {g : OverrideGroups}

theorem Shows.members (h : q.Shows g) (id : GroupId) : q.members id = g.members id := by
  rw [PointedGroups.members, h.slots, OverrideGroups.members]

theorem Shows.nodup (h : q.Shows g) (hg : g.Disjoint) (id : GroupId) : (q.members id).Nodup := by
  rw [h.members]
  exact hg.nodup id

theorem Shows.apart (h : q.Shows g) (hg : g.Disjoint) {i j : GroupId} {m : MethodId}
    (hi : m ∈ q.members i) (hj : m ∈ q.members j) : i = j := by
  rw [h.members] at hi hj
  exact hg.apart hi hj

/-- A pointer answers what the search answers. -/
theorem Shows.get?_eq (h : q.Shows g) (hg : g.Disjoint) (m : MethodId) :
    q.pointers.get? m = g.groupOf m :=
  Option.ext fun id => (h.pointers m id).trans (OverrideGroups.groupOf_eq_some_iff hg).symm

/-- A set that touches no group is let into a new one. -/
theorem Shows.push (h : q.Shows g) (hg : g.Disjoint) {fresh : List MethodId}
    (hnodup : fresh.Nodup) (hfresh : ∀ m ∈ fresh, g.groupOf m = none) :
    (fresh.foldl (enter g.slots.nextSlot) { q with slots := g.slots.push [] }).Shows
      ⟨g.slots.push fresh⟩ where
  slots := by
    refine Arena.ext_get? fun id => ?_
    have hnew : ∀ m ∈ fresh, m ∉ PointedGroups.members { q with slots := g.slots.push [] }
        g.slots.nextSlot := by
      simp [PointedGroups.members, Arena.get?_push]
    rw [get?_foldl_enter hnodup hnew, Arena.get?_push, Arena.get?_push]
    by_cases hid : id = g.slots.nextSlot <;> simp [hid]
  pointers := by
    intro m id
    rw [get?_pointers_foldl_enter, OverrideGroups.members_push]
    by_cases hm : m ∈ fresh
    · have hnone := (OverrideGroups.groupOf_eq_none_iff hg).mp (hfresh m hm) id
      by_cases hid : id = g.slots.nextSlot
      · simp [hm, hid]
      · have hne : g.slots.nextSlot ≠ id := fun h => hid h.symm
        simp [hm, hid, hne, hnone]
    · have hold := h.pointers m id
      by_cases hid : id = g.slots.nextSlot
      · rw [hid, OverrideGroups.members_nextSlot] at hold
        simp [hm, hid, hold]
      · simp [hm, hid, hold]

/-- A set that touches groups is let into the first one, once the others are emptied into it. -/
theorem Shows.absorb (h : q.Shows g) (hg : g.Disjoint) {target : GroupId} {others : List GroupId}
    (htouched : (target :: others).Nodup) {f : MethodId} (hf : f ∈ g.members target)
    {fresh : List MethodId} (hnodup : fresh.Nodup) (hfresh : ∀ m ∈ fresh, g.groupOf m = none) :
    (fresh.foldl (enter target) (others.foldl (empty target) q)).Shows
      (g.absorb target others fresh) := by
  have hall : others.flatMap q.members = others.flatMap g.members := by
    rw [funext h.members]
  have hnone : ∀ m ∈ fresh, ∀ id, m ∉ g.members id := fun m hm =>
    (OverrideGroups.groupOf_eq_none_iff hg).mp (hfresh m hm)
  constructor
  · refine Arena.ext_get? fun id => ?_
    have hnew : ∀ m ∈ fresh, m ∉ (others.foldl (empty target) q).members target := by
      intro m hm hmt
      obtain ⟨i, hmi⟩ := exists_mem_of_mem_foldl_empty htouched (h.nodup hg) (h.apart hg) hmt
      exact hnone m hm i (h.members i ▸ hmi)
    rw [get?_foldl_enter hnodup hnew, get?_foldl_empty htouched (h.nodup hg) (h.apart hg), hall,
      h.slots, OverrideGroups.get?_absorb, Option.map_map]
    by_cases hid : id = target
    · subst hid
      cases hget : g.slots.get? id with
      | none => rfl
      | some old => simp [OverrideGroups.members, hget]
    · simp [Function.comp_def, hid]
  · intro m id
    rw [get?_pointers_foldl_enter, get?_pointers_foldl_empty htouched (h.nodup hg) (h.apart hg),
      hall, hg.mem_members_absorb others hf hnone, ← ite_or]
    split
    · exact Option.some_inj.trans eq_comm
    · exact h.pointers m id

/-- Members and pointers are in step after a merge if they were before. -/
theorem Shows.merge (h : q.Shows g) (hg : g.Disjoint) (found : List MethodId) :
    (q.merge found).1 = (g.merge found).1 ∧ (q.merge found).2.Shows (g.merge found).2 := by
  have hget : q.pointers.get? = g.groupOf := funext (h.get?_eq hg)
  unfold PointedGroups.merge OverrideGroups.merge
  rw [hget]
  dsimp only
  have hnodup := nodup_eraseDups found
  generalize found.eraseDups = found at hnodup
  by_cases hlt : found.length < 2
  · rw [if_pos hlt, if_pos hlt]
    exact ⟨rfl, h⟩
  rw [if_neg hlt, if_neg hlt]
  have hfresh : ∀ m ∈ found.filter fun m => (g.groupOf m).isNone, g.groupOf m = none := by
    intro m hm
    exact Option.isNone_iff_eq_none.mp (List.mem_filter.mp hm).2
  cases htouched : (found.filterMap g.groupOf).eraseDups with
  | nil =>
    dsimp only [host, List.tail_nil, List.foldl_nil]
    rw [foldl_seat hnodup, h.slots]
    dsimp only
    rw [hget]
    exact ⟨rfl, h.push hg (hnodup.filter _) hfresh⟩
  | cons target others =>
    have hdistinct := nodup_eraseDups (found.filterMap g.groupOf)
    rw [htouched] at hdistinct
    -- the group that takes in the others is that of a method of the set
    have htarget : target ∈ found.filterMap g.groupOf :=
      List.mem_eraseDups.mp (by rw [htouched]; exact List.mem_cons_self)
    obtain ⟨f, -, hf⟩ := List.mem_filterMap.mp htarget
    have hmem := (OverrideGroups.groupOf_eq_some_iff hg).mp hf
    dsimp only [host, List.tail_cons]
    rw [foldl_seat hnodup]
    -- emptying groups gives no pointer to a method that had none
    have hsame : (found.filter fun m =>
          ((others.foldl (empty target) q).pointers.get? m).isNone) =
        found.filter fun m => (g.groupOf m).isNone := by
      refine List.filter_congr fun m _ => ?_
      rw [get?_pointers_foldl_empty hdistinct (h.nodup hg) (h.apart hg), h.get?_eq hg]
      split
      · rename_i hmo
        obtain ⟨i, -, hmi⟩ := List.mem_flatMap.mp hmo
        rw [h.members] at hmi
        rw [(OverrideGroups.groupOf_eq_some_iff hg).mpr hmi]
        rfl
      · rfl
    rw [hsame]
    exact ⟨rfl, h.absorb hg hdistinct hmem (hnodup.filter _) hfresh⟩

theorem shows_empty : ({} : PointedGroups).Shows {} where
  slots := rfl
  pointers := by
    intro m id
    rw [OverrideGroups.members_empty]
    constructor
    · intro h
      cases h
    · intro h
      cases h

/-- After any merges members and pointers show the groups that the merges make. -/
theorem shows_mergeAll (sets : List (List MethodId)) :
    (mergeAll sets).Shows (OverrideGroups.mergeAll sets) := by
  induction sets using List.reverseRecOn with
  | nil => exact shows_empty
  | append_singleton sets found ih =>
    rw [OverrideGroups.mergeAll_append, mergeAll, List.foldl_append]
    exact (ih.merge (OverrideGroups.disjoint_mergeAll sets) found).2

end PointedGroups
end Renamer
