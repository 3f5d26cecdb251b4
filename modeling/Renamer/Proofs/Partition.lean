import Mathlib.Data.List.Induction
import Mathlib.Data.List.Nodup
import Mathlib.Data.List.Perm.Subperm
import Mathlib.Logic.Relation
import Renamer.Override.Groups
import Renamer.Proofs.Declared

/-!
# Groups as a partition

Override groups come from sets of methods, merged one after the other. `OverrideGroups.Disjoint`
is what every merge keeps: no method stands in two groups, or twice in one, and no group has a
single member.

`same_mergeAll_iff` says what the groups are in the end: two methods are together exactly where a
chain of overlapping sets connects them.
-/

namespace Renamer

/-! ## Lists without repetition -/

theorem nodup_eraseDups {α : Type} [BEq α] [LawfulBEq α] (l : List α) : l.eraseDups.Nodup := by
  generalize hn : l.length = n
  induction n using Nat.strongRecOn generalizing l with
  | _ n ih =>
    cases l with
    | nil => simp
    | cons a l =>
      rw [List.eraseDups_cons, List.nodup_cons]
      have hle := List.length_filter_le (fun b => !b == a) l
      rw [List.length_cons] at hn
      refine ⟨?_, ih _ (by omega) _ rfl⟩
      rw [List.mem_eraseDups, List.mem_filter]
      simp

/-- Two different members make a list of at least two. -/
theorem two_le_length {α : Type} {l : List α} {a b : α} (hab : a ≠ b) (ha : a ∈ l) (hb : b ∈ l) :
    2 ≤ l.length := by
  have hnodup : [a, b].Nodup := by simpa using hab
  have hsub : [a, b] ⊆ l := by
    intro x hx
    rcases List.mem_cons.mp hx with rfl | hx
    · exact ha
    · rwa [List.mem_singleton.mp hx]
  exact (hnodup.subperm hsub).length_le

theorem eq_of_length_lt_two {α : Type} {l : List α} (h : l.length < 2) {a b : α} (ha : a ∈ l)
    (hb : b ∈ l) : a = b := by
  by_contra hab
  have hle := two_le_length hab ha hb
  omega

namespace OverrideGroups

variable {g : OverrideGroups}

/-! ## Members -/

/-- `a` and `b` are in one group. -/
def Together (g : OverrideGroups) (a b : MethodId) : Prop :=
  ∃ id, a ∈ g.members id ∧ b ∈ g.members id

/-- No method stands in two groups or twice in one, and no group has a single member. -/
structure Disjoint (g : OverrideGroups) : Prop where
  nodup : ∀ id, (g.members id).Nodup
  apart : ∀ {i j m}, m ∈ g.members i → m ∈ g.members j → i = j
  two_le : ∀ {id}, g.members id ≠ [] → 2 ≤ (g.members id).length

theorem Together.symm {a b : MethodId} (h : g.Together a b) : g.Together b a := by
  obtain ⟨id, ha, hb⟩ := h
  exact ⟨id, hb, ha⟩

/-- `a` and `b` are one method, or in one group. -/
def Same (g : OverrideGroups) (a b : MethodId) : Prop := a = b ∨ g.Together a b

theorem Same.symm {a b : MethodId} (h : g.Same a b) : g.Same b a :=
  h.imp Eq.symm Together.symm

theorem Disjoint.same_trans (hg : g.Disjoint) {a b c : MethodId} (hab : g.Same a b)
    (hbc : g.Same b c) : g.Same a c := by
  rcases hab with rfl | ⟨i, ha, hb⟩
  · exact hbc
  · rcases hbc with rfl | ⟨j, hb', hc⟩
    · exact Or.inr ⟨i, ha, hb⟩
    · obtain rfl := hg.apart hb hb'
      exact Or.inr ⟨i, ha, hc⟩

/-- No method is in a group alone. -/
theorem Disjoint.exists_other (hg : g.Disjoint) {id : GroupId} {a : MethodId}
    (ha : a ∈ g.members id) : ∃ b ∈ g.members id, a ≠ b := by
  by_contra hnone
  have hsub : g.members id ⊆ [a] := by
    intro b hb
    by_contra hba
    exact hnone ⟨b, hb, fun h => hba (by simp [h])⟩
  have hle := ((hg.nodup id).subperm hsub).length_le
  have htwo := hg.two_le (List.ne_nil_of_mem ha)
  rw [List.length_singleton] at hle
  omega

theorem mem_members_of_entries {id : GroupId} {l : List MethodId}
    (h : (id, l) ∈ g.slots.entries) : g.members id = l := by
  rw [members, Arena.mem_entries_iff.mp h]
  rfl

theorem mem_entries_of_mem {id : GroupId} {m : MethodId} (h : m ∈ g.members id) :
    (id, g.members id) ∈ g.slots.entries := by
  rw [Arena.mem_entries_iff, members]
  rw [members] at h
  cases hget : g.slots.get? id with
  | none =>
    rw [hget] at h
    cases h
  | some l => rfl

/-- A method is in the group that lists it. -/
theorem groupOf_eq_some_iff (hg : g.Disjoint) {m : MethodId} {id : GroupId} :
    g.groupOf m = some id ↔ m ∈ g.members id := by
  rw [groupOf, Option.map_eq_some_iff]
  constructor
  · intro h
    rcases h with ⟨⟨i, l⟩, hfind, rfl⟩
    have hmem := List.find?_some hfind
    rw [mem_members_of_entries (List.mem_of_find?_eq_some hfind)]
    simpa using hmem
  · intro hm
    have hsome : (g.slots.entries.find? fun e => e.2.contains m).isSome := by
      rw [List.find?_isSome]
      exact ⟨_, mem_entries_of_mem hm, by simpa using hm⟩
    obtain ⟨⟨i, l⟩, hfind⟩ := Option.isSome_iff_exists.mp hsome
    refine ⟨(i, l), hfind, ?_⟩
    have hmem := List.find?_some hfind
    rw [← mem_members_of_entries (List.mem_of_find?_eq_some hfind)] at hmem
    exact hg.apart (by simpa using hmem) hm

theorem groupOf_eq_none_iff (hg : g.Disjoint) {m : MethodId} :
    g.groupOf m = none ↔ ∀ id, m ∉ g.members id := by
  constructor
  · intro h id hm
    rw [(groupOf_eq_some_iff hg).mpr hm] at h
    cases h
  · intro h
    cases hm : g.groupOf m with
    | none => rfl
    | some id => exact absurd ((groupOf_eq_some_iff hg).mp hm) (h id)

/-- The live groups are those with members. -/
theorem mem_live_iff {id : GroupId} {l : List MethodId} :
    (id, l) ∈ g.live ↔ l = g.members id ∧ g.members id ≠ [] := by
  rw [live, List.mem_filter]
  constructor
  · intro h
    rcases h with ⟨hmem, hne⟩
    rw [mem_members_of_entries hmem]
    exact ⟨rfl, by simpa using hne⟩
  · intro h
    rcases h with ⟨rfl, hne⟩
    obtain ⟨m, hm⟩ := List.exists_mem_of_ne_nil _ hne
    exact ⟨mem_entries_of_mem hm, by simpa using hne⟩

theorem live_of_mem {id : GroupId} {m : MethodId} (h : m ∈ g.members id) :
    ∃ before after, g.live = before ++ (id, g.members id) :: after :=
  List.append_of_mem (mem_live_iff.mpr ⟨rfl, List.ne_nil_of_mem h⟩)

/-- Live groups have no method in common. -/
theorem Disjoint.pairwise_live (hg : g.Disjoint) :
    g.live.Pairwise fun e e' => List.Disjoint e.2 e'.2 := by
  have hids : g.live.Pairwise fun e e' => e.1 ≠ e'.1 :=
    (List.pairwise_map.mp g.slots.nodup_entries).sublist List.filter_sublist
  refine hids.imp_of_mem fun {e e'} he he' hne m hm hm' => hne ?_
  obtain ⟨hl, -⟩ := mem_live_iff.mp he
  obtain ⟨hl', -⟩ := mem_live_iff.mp he'
  rw [hl] at hm
  rw [hl'] at hm'
  exact hg.apart hm hm'

/-- A method of one group stands in none of the groups before or after it. -/
theorem notMem_of_live (hg : g.Disjoint) {before after : List (GroupId × List MethodId)}
    {e : GroupId × List MethodId} (hlive : g.live = before ++ e :: after) {m : MethodId}
    (hm : m ∈ e.2) {e' : GroupId × List MethodId} (he' : e' ∈ before ++ after) : m ∉ e'.2 := by
  have hpairwise := hg.pairwise_live
  rw [hlive, List.pairwise_middle List.disjoint_symm, List.pairwise_cons] at hpairwise
  exact hpairwise.1 e' he' hm

/-! ## One merge -/

theorem members_push (x : List MethodId) (id : GroupId) :
    (OverrideGroups.mk (g.slots.push x)).members id =
      if id = g.slots.nextSlot then x else g.members id := by
  rw [members, Arena.get?_push]
  split <;> rfl

theorem members_nextSlot : g.members g.slots.nextSlot = [] := by
  have hnone : g.slots.get? g.slots.nextSlot = none := by
    simp [Arena.get?, Arena.nextSlot, Arena.size]
  rw [members, hnone]
  rfl

theorem getElem?_entries (g : OverrideGroups) (id : GroupId) :
    g.slots.entries[id.index]? = (g.slots.get? id).map fun l => (id, l) := by
  rw [Arena.entries, List.getElem?_map, List.getElem?_zipIdx, Arena.get?, Array.getElem?_toList]
  cases g.slots.items[id.index]? with
  | none => rfl
  | some l => simp

theorem get?_absorb (target : GroupId) (others : List GroupId) (fresh : List MethodId)
    (id : GroupId) : (g.absorb target others fresh).slots.get? id = (g.slots.get? id).map fun l =>
      if id = target then g.members target ++ others.flatMap g.members ++ fresh
      else if id ∈ others then [] else l := by
  generalize hjoined : g.members target ++ others.flatMap g.members ++ fresh = joined
  rw [absorb, hjoined, Arena.get?, List.getElem?_toArray, List.getElem?_map, getElem?_entries,
    Option.map_map]
  simp [Function.comp_def]

theorem members_absorb {target : GroupId} (others : List GroupId) (fresh : List MethodId)
    {m : MethodId} (htarget : m ∈ g.members target) (id : GroupId) :
    (g.absorb target others fresh).members id =
      if id = target then g.members target ++ others.flatMap g.members ++ fresh
      else if id ∈ others then [] else g.members id := by
  have hget := get?_absorb (g := g) target others fresh id
  generalize g.members target ++ others.flatMap g.members ++ fresh = joined at hget
  rw [members, hget]
  cases hid : g.slots.get? id with
  | none =>
    have hempty : g.members id = [] := by
      rw [members, hid]
      rfl
    have hne : id ≠ target := by
      rintro rfl
      rw [hempty] at htarget
      cases htarget
    rw [if_neg hne, hempty, ite_self]
    rfl
  | some l =>
    rw [members, hid]
    rfl

/-- Where methods stand once `target` has taken in other groups and new methods: those taken in
stand in `target`, and the others where they stood. -/
theorem Disjoint.mem_members_absorb (hg : g.Disjoint) {target : GroupId} (others : List GroupId)
    {f : MethodId} (hf : f ∈ g.members target) {fresh : List MethodId}
    (hfresh : ∀ m ∈ fresh, ∀ id, m ∉ g.members id) (m : MethodId) (id : GroupId) :
    m ∈ (g.absorb target others fresh).members id ↔
      if m ∈ fresh ∨ m ∈ others.flatMap g.members then id = target else m ∈ g.members id := by
  rw [members_absorb others fresh hf]
  by_cases htaken : m ∈ fresh ∨ m ∈ others.flatMap g.members
  · rw [if_pos htaken]
    constructor
    · intro hm
      by_contra hid
      rw [if_neg hid] at hm
      split at hm
      · cases hm
      · rename_i hio
        rcases htaken with hnew | hother
        · exact hfresh m hnew id hm
        · obtain ⟨i, hi, hmi⟩ := List.mem_flatMap.mp hother
          exact hio (hg.apart hmi hm ▸ hi)
    · rintro rfl
      rw [if_pos rfl, List.mem_append, List.mem_append]
      exact htaken.elim Or.inr fun hother => Or.inl (Or.inr hother)
  · rw [if_neg htaken]
    obtain ⟨hold, hother⟩ := not_or.mp htaken
    by_cases hid : id = target
    · rw [if_pos hid, hid, List.mem_append, or_iff_left hold, List.mem_append, or_iff_left hother]
    · rw [if_neg hid]
      split
      · rename_i hio
        exact iff_of_false List.not_mem_nil fun hm =>
          hother (List.mem_flatMap.mpr ⟨id, hio, hm⟩)
      · exact Iff.rfl

/-- What a merge of `found` puts together: the methods of the set and all that are in a group with
one of them. -/
def Joins (g : OverrideGroups) (found : List MethodId) (m : MethodId) : Prop :=
  ∃ f ∈ found, g.Same f m

/-- The groups that a set touches. -/
def Touches (g : OverrideGroups) (found : List MethodId) (id : GroupId) : Prop :=
  ∃ f ∈ found, f ∈ g.members id

/-- Joined is who is in a touched group, and who is in the set and in no group. -/
theorem joins_iff {found : List MethodId} {m : MethodId} : g.Joins found m ↔
    (∃ id, g.Touches found id ∧ m ∈ g.members id) ∨ m ∈ found ∧ ∀ id, m ∉ g.members id := by
  constructor
  · intro hjoins
    rcases hjoins with ⟨f, hf, rfl | ⟨id, hfid, hm⟩⟩
    · by_cases hin : ∃ id, f ∈ g.members id
      · obtain ⟨id, hid⟩ := hin
        exact Or.inl ⟨id, ⟨f, hf, hid⟩, hid⟩
      · exact Or.inr ⟨hf, not_exists.mp hin⟩
    · exact Or.inl ⟨id, ⟨f, hf, hfid⟩, hm⟩
  · intro hm
    rcases hm with ⟨id, ⟨f, hf, hfid⟩, hm⟩ | ⟨hm, -⟩
    · exact ⟨f, hf, Or.inr ⟨id, hfid, hm⟩⟩
    · exact ⟨m, hm, Or.inl rfl⟩

/-- The methods of a set that the search finds in no group. -/
theorem mem_ungrouped_iff (hg : g.Disjoint) {found : List MethodId} {m : MethodId} :
    m ∈ found.eraseDups.filter (fun m => (g.groupOf m).isNone) ↔
      m ∈ found ∧ ∀ id, m ∉ g.members id := by
  rw [List.mem_filter, List.mem_eraseDups, Option.isNone_iff_eq_none, groupOf_eq_none_iff hg]

/-- Different groups one behind the other list no method twice. -/
theorem Disjoint.nodup_flatMap (hg : g.Disjoint) {ids : List GroupId} (hids : ids.Nodup) :
    (ids.flatMap g.members).Nodup :=
  List.nodup_flatMap.mpr ⟨fun id _ => hg.nodup id,
    hids.imp fun hij _ hi hj => hij (hg.apart hi hj)⟩

/-- A set of fewer than two methods links nothing. -/
theorem merge_of_lt {found : List MethodId} (h : found.eraseDups.length < 2) :
    g.merge found = (none, g) := by
  rw [merge, if_pos h]

/-- `g'` is `g` with all that `found` joins in the group `target`. -/
structure MergedInto (g : OverrideGroups) (found : List MethodId) (target : GroupId)
    (g' : OverrideGroups) : Prop where
  nodup : (g'.members target).Nodup
  mem_iff : ∀ m, m ∈ g'.members target ↔ g.Joins found m
  old : ∀ m ∈ g.members target, g.Joins found m
  emptied : ∀ id, id ≠ target → g.Touches found id → g'.members id = []
  kept : ∀ id, id ≠ target → ¬ g.Touches found id → g'.members id = g.members id

/-- A set that touches no group becomes a new one. -/
theorem mergedInto_push (hg : g.Disjoint) {found : List MethodId}
    (huntouched : ∀ id, ¬ g.Touches found id) :
    g.MergedInto found g.slots.nextSlot
      ⟨g.slots.push (found.eraseDups.filter fun m => (g.groupOf m).isNone)⟩ where
  nodup := by
    rw [members_push, if_pos rfl]
    exact (nodup_eraseDups found).filter _
  mem_iff := by
    intro m
    rw [members_push, if_pos rfl, mem_ungrouped_iff hg, joins_iff]
    refine (or_iff_right fun hin => ?_).symm
    obtain ⟨id, hid, -⟩ := hin
    exact huntouched id hid
  old := by
    intro m hm
    rw [members_nextSlot] at hm
    cases hm
  emptied := fun id _ h => absurd h (huntouched id)
  kept := by
    intro id hne _
    rw [members_push, if_neg hne]

/-- A set that touches groups is taken in by the first one, with all the others. -/
theorem mergedInto_absorb (hg : g.Disjoint) {found : List MethodId} {target : GroupId}
    {others : List GroupId} (hnodup : (target :: others).Nodup)
    (htouched : ∀ id, id ∈ target :: others ↔ g.Touches found id) :
    g.MergedInto found target
      (g.absorb target others (found.eraseDups.filter fun m => (g.groupOf m).isNone)) := by
  obtain ⟨f₀, hf₀, hmem₀⟩ := (htouched target).mp List.mem_cons_self
  have hmembers := members_absorb others
    (found.eraseDups.filter fun m => (g.groupOf m).isNone) hmem₀
  -- the joined group is that of all touched groups, and of the methods in none
  rw [← List.flatMap_cons] at hmembers
  constructor
  · rw [hmembers, if_pos rfl, List.nodup_append]
    refine ⟨hg.nodup_flatMap hnodup, (nodup_eraseDups found).filter _, ?_⟩
    rintro m hm m' hm' rfl
    obtain ⟨id, -, hm⟩ := List.mem_flatMap.mp hm
    exact ((mem_ungrouped_iff hg).mp hm').2 id hm
  · intro m
    rw [hmembers, if_pos rfl, List.mem_append, List.mem_flatMap, mem_ungrouped_iff hg, joins_iff]
    simp only [htouched]
  · intro m hm
    exact ⟨f₀, hf₀, Or.inr ⟨target, hmem₀, hm⟩⟩
  · intro id hne hid
    have hmem : id ∈ others := (List.mem_cons.mp ((htouched id).mpr hid)).resolve_left hne
    rw [hmembers, if_neg hne, if_pos hmem]
  · intro id hne hid
    have hmem : id ∉ others := fun h => hid ((htouched id).mp (List.mem_cons_of_mem _ h))
    rw [hmembers, if_neg hne, if_neg hmem]

/-- A set of two or more methods makes one group of itself and all groups that it touches. -/
theorem mergedInto_merge (hg : g.Disjoint) {found : List MethodId}
    (h : 2 ≤ found.eraseDups.length) :
    ∃ target, (g.merge found).1 = some target ∧ g.MergedInto found target (g.merge found).2 := by
  have htouched : ∀ id, id ∈ (found.eraseDups.filterMap g.groupOf).eraseDups ↔
      g.Touches found id := by
    intro id
    rw [List.mem_eraseDups, List.mem_filterMap]
    constructor
    · intro htouch
      rcases htouch with ⟨f, hf, hid⟩
      exact ⟨f, List.mem_eraseDups.mp hf, (groupOf_eq_some_iff hg).mp hid⟩
    · intro htouch
      rcases htouch with ⟨f, hf, hid⟩
      exact ⟨f, List.mem_eraseDups.mpr hf, (groupOf_eq_some_iff hg).mpr hid⟩
  have hnodup := nodup_eraseDups (found.eraseDups.filterMap g.groupOf)
  rw [merge, if_neg (by omega)]
  generalize (found.eraseDups.filterMap g.groupOf).eraseDups = touched at htouched hnodup
  cases touched with
  | nil => exact ⟨_, rfl, mergedInto_push hg fun id hid => by cases (htouched id).mpr hid⟩
  | cons target others => exact ⟨target, rfl, mergedInto_absorb hg hnodup htouched⟩

/-- A group other than the target was emptied, or else not touched and kept. -/
theorem MergedInto.other {g' : OverrideGroups} {found : List MethodId} {target id : GroupId}
    (h : g.MergedInto found target g') (hid : id ≠ target) :
    g'.members id = [] ∨ ¬ g.Touches found id ∧ g'.members id = g.members id := by
  by_cases htouched : g.Touches found id
  · exact Or.inl (h.emptied id hid htouched)
  · exact Or.inr ⟨htouched, h.kept id hid htouched⟩

theorem MergedInto.together_iff {g' : OverrideGroups} {found : List MethodId} {target : GroupId}
    (h : g.MergedInto found target g') {a b : MethodId} :
    g'.Together a b ↔ g.Together a b ∨ g.Joins found a ∧ g.Joins found b := by
  constructor
  · intro htogether
    rcases htogether with ⟨id, ha, hb⟩
    by_cases hid : id = target
    · subst hid
      exact Or.inr ⟨(h.mem_iff a).mp ha, (h.mem_iff b).mp hb⟩
    · rcases h.other hid with hempty | ⟨-, hkept⟩
      · rw [hempty] at ha
        cases ha
      · rw [hkept] at ha hb
        exact Or.inl ⟨id, ha, hb⟩
  · have hjoined : g.Joins found a ∧ g.Joins found b → g'.Together a b := fun hab =>
      ⟨target, (h.mem_iff a).mpr hab.1, (h.mem_iff b).mpr hab.2⟩
    intro htogether
    rcases htogether with ⟨id, ha, hb⟩ | hab
    · by_cases hid : id = target
      · subst hid
        exact hjoined ⟨h.old a ha, h.old b hb⟩
      · by_cases htouched : g.Touches found id
        · exact hjoined ⟨joins_iff.mpr (Or.inl ⟨id, htouched, ha⟩),
            joins_iff.mpr (Or.inl ⟨id, htouched, hb⟩)⟩
        · rw [← h.kept id hid htouched] at ha hb
          exact ⟨id, ha, hb⟩
    · exact hjoined hab

/-- A method of another group than the target was in that group before, and is not joined. -/
theorem MergedInto.mem_other {g' : OverrideGroups} {found : List MethodId} {target id : GroupId}
    (h : g.MergedInto found target g') (hg : g.Disjoint) (hid : id ≠ target) {m : MethodId}
    (hm : m ∈ g'.members id) : m ∈ g.members id ∧ ¬ g.Joins found m := by
  rcases h.other hid with hempty | ⟨htouched, hkept⟩
  · rw [hempty] at hm
    cases hm
  · rw [hkept] at hm
    refine ⟨hm, ?_⟩
    rw [joins_iff]
    intro hjoins
    rcases hjoins with ⟨j, hj, hmj⟩ | ⟨-, hnone⟩
    · exact htouched (hg.apart hmj hm ▸ hj)
    · exact hnone id hm

theorem MergedInto.disjoint {g' : OverrideGroups} {found : List MethodId} {target : GroupId}
    (h : g.MergedInto found target g') (hg : g.Disjoint) (htwo : 2 ≤ found.eraseDups.length) :
    g'.Disjoint := by
  constructor
  · intro id
    by_cases hid : id = target
    · rw [hid]
      exact h.nodup
    · rcases h.other hid with hempty | ⟨-, hkept⟩
      · rw [hempty]
        exact List.nodup_nil
      · rw [hkept]
        exact hg.nodup id
  · intro i j m hi hj
    by_cases hit : i = target
    · subst hit
      by_contra hne
      exact (h.mem_other hg (Ne.symm hne) hj).2 ((h.mem_iff m).mp hi)
    · by_cases hjt : j = target
      · subst hjt
        exact absurd ((h.mem_iff m).mp hj) (h.mem_other hg hit hi).2
      · exact hg.apart (h.mem_other hg hit hi).1 (h.mem_other hg hjt hj).1
  · intro id hne
    by_cases hid : id = target
    · have hsub : found.eraseDups ⊆ g'.members id := by
        intro f hf
        rw [hid, h.mem_iff]
        exact ⟨f, List.mem_eraseDups.mp hf, Or.inl rfl⟩
      have hle := ((nodup_eraseDups found).subperm hsub).length_le
      omega
    · rcases h.other hid with hempty | ⟨-, hkept⟩
      · exact absurd hempty hne
      · rw [hkept] at hne ⊢
        exact hg.two_le hne

theorem Disjoint.merge (hg : g.Disjoint) (found : List MethodId) : (g.merge found).2.Disjoint := by
  by_cases h : found.eraseDups.length < 2
  · rw [merge_of_lt h]
    exact hg
  · obtain ⟨target, -, hmerged⟩ := mergedInto_merge hg (Nat.le_of_not_lt h)
    exact hmerged.disjoint hg (Nat.le_of_not_lt h)

/-- What is the same after a merge: what was before, and all that the set joins. -/
theorem same_merge_iff (hg : g.Disjoint) (found : List MethodId) {a b : MethodId} :
    (g.merge found).2.Same a b ↔ g.Same a b ∨ g.Joins found a ∧ g.Joins found b := by
  by_cases h : found.eraseDups.length < 2
  · rw [merge_of_lt h]
    constructor
    · exact Or.inl
    · intro h
      rcases h with hab | ⟨⟨f, hf, ha⟩, ⟨f', hf', hb⟩⟩
      · exact hab
      · obtain rfl := eq_of_length_lt_two h (List.mem_eraseDups.mpr hf) (List.mem_eraseDups.mpr hf')
        exact hg.same_trans ha.symm hb
  · obtain ⟨target, -, hmerged⟩ := mergedInto_merge hg (Nat.le_of_not_lt h)
    rw [Same, hmerged.together_iff, ← or_assoc]
    rfl

/-! ## Merging set after set -/

/-- The groups that come of merging sets one after the other. -/
def mergeAll (sets : List (List MethodId)) : OverrideGroups :=
  sets.foldl (fun g found => (g.merge found).2) {}

theorem mergeAll_append (sets : List (List MethodId)) (found : List MethodId) :
    mergeAll (sets ++ [found]) = ((mergeAll sets).merge found).2 := by
  rw [mergeAll, List.foldl_append]
  rfl

theorem members_empty (id : GroupId) : ({} : OverrideGroups).members id = [] := by
  simp [members, Arena.get?]

theorem disjoint_empty : ({} : OverrideGroups).Disjoint := by
  constructor
  · intro id
    rw [members_empty]
    exact List.nodup_nil
  · intro i j m hi
    rw [members_empty] at hi
    cases hi
  · intro id hne
    exact absurd (members_empty id) hne

theorem disjoint_mergeAll (sets : List (List MethodId)) : (mergeAll sets).Disjoint := by
  induction sets using List.reverseRecOn with
  | nil => exact disjoint_empty
  | append_singleton sets found ih =>
    rw [mergeAll_append]
    exact ih.merge found

/-- `a` and `b` are members of one of the sets. -/
def Meet (sets : List (List MethodId)) (a b : MethodId) : Prop :=
  ∃ found ∈ sets, a ∈ found ∧ b ∈ found

/-- After the merges two methods are the same exactly where a chain of sets connects them. -/
theorem same_mergeAll_iff (sets : List (List MethodId)) (a b : MethodId) :
    (mergeAll sets).Same a b ↔ Relation.ReflTransGen (Meet sets) a b := by
  induction sets using List.reverseRecOn generalizing a b with
  | nil =>
    constructor
    · intro hsame
      rcases hsame with rfl | ⟨id, ha, -⟩
      · exact Relation.ReflTransGen.refl
      · rw [mergeAll, List.foldl_nil, members_empty] at ha
        cases ha
    · intro h
      rcases Relation.ReflTransGen.cases_tail h with rfl | ⟨c, -, found, hfound, -⟩
      · exact Or.inl rfl
      · cases hfound
  | append_singleton sets found ih =>
    have hdisjoint := disjoint_mergeAll sets
    rw [mergeAll_append, same_merge_iff hdisjoint]
    constructor
    · -- the chains there were remain, and all that the last set joins is one link apart
      have hmono : ∀ {a b}, (mergeAll sets).Same a b →
          Relation.ReflTransGen (Meet (sets ++ [found])) a b := by
        intro a b h
        refine Relation.ReflTransGen.mono ?_ a b ((ih a b).mp h)
        rintro x y ⟨l, hl, hx, hy⟩
        exact ⟨l, List.mem_append_left _ hl, hx, hy⟩
      intro hsame
      rcases hsame with h | ⟨⟨f, hf, ha⟩, ⟨f', hf', hb⟩⟩
      · exact hmono h
      · exact ((hmono ha.symm).tail ⟨found, by simp, hf, hf'⟩).trans (hmono hb)
    · -- every link of a chain is an older one or lies in the last set
      intro h
      rw [← same_merge_iff hdisjoint]
      induction h with
      | refl => exact Or.inl rfl
      | @tail b c _ hbc ihab =>
        refine (hdisjoint.merge found).same_trans ihab ((same_merge_iff hdisjoint found).mpr ?_)
        obtain ⟨l, hl, hb, hc⟩ := hbc
        rcases List.mem_append.mp hl with hl | hl
        · exact Or.inl ((ih b c).mpr (Relation.ReflTransGen.single ⟨l, hl, hb, hc⟩))
        · rw [List.mem_singleton.mp hl] at hb hc
          exact Or.inr ⟨⟨b, hb, Or.inl rfl⟩, ⟨c, hc, Or.inl rfl⟩⟩

end OverrideGroups
end Renamer
