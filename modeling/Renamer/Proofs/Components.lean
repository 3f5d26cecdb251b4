import Mathlib.Data.Set.Card
import Renamer.Proofs.Pointers

/-!
# Groups as components

Merged sets of methods make a graph: sets that link methods, two or more, are its points, and two of
them are joined where they overlap. `Chained` says that a chain of such sets leads from one method
to another, and `components` are the classes of methods that chains connect.

The main statement is that the groups are these components, one group for each, in whatever order
the sets come.
-/

namespace Renamer
namespace OverrideGroups

/-! ## Chains of sets -/

/-- A set of two or more methods. -/
def Links (found : List MethodId) : Prop := ∃ a ∈ found, ∃ b ∈ found, a ≠ b

/-- Two sets have a method in common. -/
def Overlap (s t : List MethodId) : Prop := ∃ m ∈ s, m ∈ t

/-- A chain of sets, each of two or more methods and overlapping the next one, leads from `a` to
`b`. -/
def Chained (sets : List (List MethodId)) (a b : MethodId) : Prop :=
  ∃ chain : List (List MethodId), (∀ s ∈ chain, s ∈ sets ∧ Links s) ∧ chain.IsChain Overlap ∧
    (∃ s ∈ chain.head?, a ∈ s) ∧ ∃ s ∈ chain.getLast?, b ∈ s

/-- The classes of methods that chains connect. -/
def components (sets : List (List MethodId)) : Set (Set MethodId) :=
  {c | ∃ s ∈ sets, Links s ∧ ∃ a ∈ s, c = {b | Chained sets a b}}

variable {g : OverrideGroups} {sets : List (List MethodId)}

theorem not_links_iff {found : List MethodId} : ¬ Links found ↔ found.eraseDups.length < 2 := by
  constructor
  · intro h
    by_contra hlt
    -- the first two of a set without repetition are different
    have hnodup := nodup_eraseDups found
    have hmem : ∀ m ∈ found.eraseDups, m ∈ found := fun m => List.mem_eraseDups.mp
    generalize found.eraseDups = l at hlt hnodup hmem
    rcases l with _ | ⟨a, _ | ⟨b, l⟩⟩
    · simp at hlt
    · simp at hlt
    · refine h ⟨a, hmem a (by simp), b, hmem b (by simp), ?_⟩
      rintro rfl
      simp at hnodup
  · intro hlt h
    obtain ⟨a, ha, b, hb, hab⟩ := h
    exact hab (eq_of_length_lt_two hlt (List.mem_eraseDups.mpr ha) (List.mem_eraseDups.mpr hb))

theorem Chained.one {s : List MethodId} {a b : MethodId} (hs : s ∈ sets) (hlinks : Links s)
    (ha : a ∈ s) (hb : b ∈ s) : Chained sets a b :=
  ⟨[s], by simpa using ⟨hs, hlinks⟩, List.isChain_singleton s, ⟨s, rfl, ha⟩, s, rfl, hb⟩

/-- A chain goes on with a set that overlaps its last one. -/
theorem Chained.tail {s : List MethodId} {a b c : MethodId} (h : Chained sets a b) (hs : s ∈ sets)
    (hlinks : Links s) (hb : b ∈ s) (hc : c ∈ s) : Chained sets a c := by
  obtain ⟨chain, hall, hchain, ⟨first, hfirst, ha⟩, last, hlast, hbl⟩ := h
  refine ⟨chain ++ [s], ?_, ?_, ⟨first, ?_, ha⟩, s, by simp, hc⟩
  · intro t ht
    rcases List.mem_append.mp ht with ht | ht
    · exact hall t ht
    · rw [List.mem_singleton.mp ht]
      exact ⟨hs, hlinks⟩
  · refine hchain.append (List.isChain_singleton s) fun x hx y hy => ?_
    rw [Option.mem_unique hx hlast, Option.mem_unique hy rfl]
    exact ⟨b, hbl, hb⟩
  · rw [Option.mem_def] at hfirst ⊢
    rw [List.head?_append, hfirst]
    rfl

/-- Two different methods are joined by a chain of sets exactly where sets lead from one to the
other; sets of one method lead nowhere. -/
theorem chained_iff {a b : MethodId} (hab : a ≠ b) :
    Chained sets a b ↔ Relation.ReflTransGen (Meet sets) a b := by
  constructor
  · intro h
    obtain ⟨chain, hall, hchain, ⟨first, hfirst, ha⟩, last, hlast, hb⟩ := h
    clear hab
    -- along the chain, from overlap to overlap
    induction chain generalizing first a with
    | nil => cases hfirst
    | cons s chain ih =>
      obtain rfl : s = first := Option.some.inj hfirst
      have hs := (hall s List.mem_cons_self).1
      cases chain with
      | nil =>
        obtain rfl : s = last := Option.some.inj hlast
        exact Relation.ReflTransGen.single ⟨s, hs, ha, hb⟩
      | cons t chain =>
        obtain ⟨⟨m, hms, hmt⟩, hrest⟩ := List.isChain_cons_cons.mp hchain
        refine Relation.ReflTransGen.head ⟨s, hs, ha, hms⟩ ?_
        exact ih (fun x hx => hall x (List.mem_cons_of_mem _ hx)) hrest t rfl hmt hlast
  · intro h
    have hall : b = a ∨ Chained sets a b := by
      clear hab
      induction h with
      | refl => exact Or.inl rfl
      | @tail c d _ hcd ih =>
        obtain ⟨s, hs, hc, hd⟩ := hcd
        by_cases hne : c = d
        · exact hne ▸ ih
        · have hlinks : Links s := ⟨c, hc, d, hd, hne⟩
          rcases ih with rfl | ih
          · exact Or.inr (Chained.one hs hlinks hc hd)
          · exact Or.inr (ih.tail hs hlinks hc hd)
    exact hall.resolve_left fun h => hab h.symm

/-- Whoever is chained to a method has a set of two or more methods. -/
theorem Chained.exists_other {a b : MethodId} (h : Chained sets a b) :
    ∃ c, a ≠ c ∧ Chained sets a c := by
  obtain ⟨chain, hall, -, ⟨s, hs, ha⟩, -⟩ := h
  obtain ⟨hmem, hlinks⟩ := hall s (List.mem_of_mem_head? hs)
  obtain ⟨x, hx, y, hy, hxy⟩ := hlinks
  by_cases hax : a = x
  · exact ⟨y, hax ▸ hxy, Chained.one hmem ⟨x, hx, y, hy, hxy⟩ ha hy⟩
  · exact ⟨x, hax, Chained.one hmem ⟨x, hx, y, hy, hxy⟩ ha hx⟩

theorem Chained.self {a b : MethodId} (h : Chained sets a b) : Chained sets a a := by
  obtain ⟨chain, hall, -, ⟨s, hs, ha⟩, -⟩ := h
  obtain ⟨hmem, hlinks⟩ := hall s (List.mem_of_mem_head? hs)
  exact Chained.one hmem hlinks ha ha

/-- Methods end in one group exactly where a chain of sets connects them. -/
theorem together_mergeAll_iff {a b : MethodId} :
    (mergeAll sets).Together a b ↔ Chained sets a b := by
  have hdisjoint := disjoint_mergeAll sets
  have hne : ∀ {a b}, a ≠ b → ((mergeAll sets).Together a b ↔ Chained sets a b) := fun hab => by
    rw [chained_iff hab, ← same_mergeAll_iff, Same, or_iff_right hab]
  by_cases hab : a = b
  · -- who is in a group is there with another method
    subst hab
    constructor
    · intro h
      obtain ⟨id, ha, -⟩ := h
      obtain ⟨c, hc, hac⟩ := hdisjoint.exists_other ha
      exact ((hne hac).mp ⟨id, ha, hc⟩).self
    · intro h
      obtain ⟨c, hac, hc⟩ := h.exists_other
      obtain ⟨id, ha, -⟩ := (hne hac).mpr hc
      exact ⟨id, ha, ha⟩
  · exact hne hab

/-- The group of a method holds those chained to it. -/
theorem mem_members_iff_chained {id : GroupId} {a b : MethodId}
    (ha : a ∈ (mergeAll sets).members id) :
    b ∈ (mergeAll sets).members id ↔ Chained sets a b := by
  rw [← together_mergeAll_iff]
  constructor
  · exact fun hb => ⟨id, ha, hb⟩
  · intro h
    obtain ⟨j, hj, hb⟩ := h
    rwa [(disjoint_mergeAll sets).apart ha hj]

/-! ## The number of groups -/

/-- The members of live groups are the components. -/
theorem mem_components_iff {c : Set MethodId} :
    c ∈ components sets ↔ c ∈ (mergeAll sets).live.map fun e => {m | m ∈ e.2} := by
  rw [List.mem_map]
  constructor
  · intro h
    obtain ⟨s, hs, hlinks, a, ha, rfl⟩ := h
    obtain ⟨id, hid, -⟩ := together_mergeAll_iff.mpr (Chained.one hs hlinks ha ha)
    refine ⟨(id, (mergeAll sets).members id), mem_live_iff.mpr ⟨rfl, List.ne_nil_of_mem hid⟩, ?_⟩
    exact Set.ext fun m => mem_members_iff_chained hid
  · intro h
    obtain ⟨⟨id, l⟩, he, rfl⟩ := h
    obtain ⟨rfl, hne⟩ := mem_live_iff.mp he
    obtain ⟨a, ha⟩ := List.exists_mem_of_ne_nil _ hne
    obtain ⟨chain, hall, -, ⟨s, hs, has⟩, -⟩ := (mem_members_iff_chained ha).mp ha
    obtain ⟨hmem, hlinks⟩ := hall s (List.mem_of_mem_head? hs)
    exact ⟨s, hmem, hlinks, a, has, Set.ext fun m => mem_members_iff_chained ha⟩

/-- There are as many groups as components. -/
theorem size_mergeAll (sets : List (List MethodId)) :
    (mergeAll sets).size = (components sets).ncard := by
  classical
  have hdisjoint := disjoint_mergeAll sets
  have hlive : (mergeAll sets).live.Nodup :=
    (List.Nodup.of_map Prod.fst (mergeAll sets).slots.nodup_entries).filter _
  have hnodup : ((mergeAll sets).live.map fun e => ({m | m ∈ e.2} : Set MethodId)).Nodup := by
    -- groups with the same members are one group, since no group is empty
    refine List.Nodup.map_on ?_ hlive
    rintro ⟨i, l⟩ hi ⟨j, k⟩ hj heq
    obtain ⟨rfl, hne⟩ := mem_live_iff.mp hi
    obtain ⟨rfl, -⟩ := mem_live_iff.mp hj
    obtain ⟨a, ha⟩ := List.exists_mem_of_ne_nil _ hne
    have haj : a ∈ (mergeAll sets).members j := (Set.ext_iff.mp heq a).mp ha
    rw [hdisjoint.apart ha haj]
  have hset : components sets = ↑((mergeAll sets).live.map fun e =>
      ({m | m ∈ e.2} : Set MethodId)).toFinset := by
    ext c
    rw [mem_components_iff, Finset.mem_coe, List.mem_toFinset]
  rw [hset, Set.ncard_coe_finset, List.toFinset_card_of_nodup hnodup, List.length_map, size]

/-! ## The groups of any merges -/

/-- A set that links methods ends in one live group, which is answered. -/
theorem Disjoint.merge_eq_some (hg : g.Disjoint) {found : List MethodId} (h : Links found) :
    ∃ id, (g.merge found).1 = some id ∧
      (id, (g.merge found).2.members id) ∈ (g.merge found).2.live ∧
      ∀ m ∈ found, m ∈ (g.merge found).2.members id := by
  have htwo : 2 ≤ found.eraseDups.length := by
    by_contra hlt
    exact not_links_iff.mpr (Nat.lt_of_not_le hlt) h
  obtain ⟨id, hid, hmerged⟩ := mergedInto_merge hg htwo
  have hall : ∀ m ∈ found, m ∈ (g.merge found).2.members id := fun m hm =>
    (hmerged.mem_iff m).mpr ⟨m, hm, Or.inl rfl⟩
  obtain ⟨a, ha, -⟩ := h
  exact ⟨id, hid, mem_live_iff.mpr ⟨rfl, List.ne_nil_of_mem (hall a ha)⟩, hall⟩

/-- After any merges the groups are the components of the sets merged. Member lists and pointers
tell of the same groups; live groups have two or more members and none in common; two methods are
in one group exactly where a chain of overlapping sets connects them, in whatever order the sets
were merged; there are as many groups as components; and a further merge answers the live group
that then holds the set, or nothing and changes nothing where the set links no methods. -/
theorem groups_mergeAll_iff_chained (sets : List (List MethodId)) :
    let g := mergeAll sets
    let q := PointedGroups.mergeAll sets
    (q.slots = g.slots ∧ ∀ m, q.pointers.get? m = g.groupOf m) ∧
      (∀ m id, g.groupOf m = some id ↔ m ∈ g.members id) ∧
      (∀ e ∈ g.live, e.2.Nodup ∧ 2 ≤ e.2.length) ∧
      (g.live.Pairwise fun e e' => List.Disjoint e.2 e'.2) ∧
      (∀ a b, (∃ id, g.groupOf a = some id ∧ g.groupOf b = some id) ↔ Chained sets a b) ∧
      (∀ sets' : List (List MethodId), sets'.Perm sets → ∀ a b,
        ((∃ id, (mergeAll sets').groupOf a = some id ∧ (mergeAll sets').groupOf b = some id) ↔
          ∃ id, g.groupOf a = some id ∧ g.groupOf b = some id)) ∧
      g.size = (components sets).ncard ∧
      ∀ found, (q.merge found).1 = (g.merge found).1 ∧
        (Links found → ∃ id, (g.merge found).1 = some id ∧
          (id, (g.merge found).2.members id) ∈ (g.merge found).2.live ∧
          ∀ m ∈ found, (g.merge found).2.groupOf m = some id) ∧
        (¬ Links found → g.merge found = (none, g) ∧ q.merge found = (none, q)) := by
  intro g q
  have hg : g.Disjoint := disjoint_mergeAll sets
  have hshows : q.Shows g := PointedGroups.shows_mergeAll sets
  have hgroupOf : ∀ {g : OverrideGroups}, g.Disjoint → ∀ {a b},
      ((∃ id, g.groupOf a = some id ∧ g.groupOf b = some id) ↔ g.Together a b) := by
    intro g hg a b
    simp only [groupOf_eq_some_iff hg]
    rfl
  refine ⟨⟨hshows.slots, hshows.get?_eq hg⟩, fun m id => groupOf_eq_some_iff hg, ?_,
    hg.pairwise_live, fun a b => ?_, fun sets' hperm a b => ?_, size_mergeAll sets,
    fun found => ⟨(hshows.merge hg found).1, fun hlinks => ?_, fun hlinks => ?_⟩⟩
  · intro e he
    obtain ⟨hl, hne⟩ := mem_live_iff.mp he
    rw [hl]
    exact ⟨hg.nodup e.1, hg.two_le hne⟩
  · rw [hgroupOf hg]
    exact together_mergeAll_iff
  · rw [hgroupOf hg, hgroupOf (disjoint_mergeAll sets'), together_mergeAll_iff,
      together_mergeAll_iff]
    simp only [Chained, hperm.mem_iff]
  · obtain ⟨id, hid, hlive, hall⟩ := hg.merge_eq_some hlinks
    exact ⟨id, hid, hlive, fun m hm => (groupOf_eq_some_iff (hg.merge found)).mpr (hall m hm)⟩
  · have hlt := not_links_iff.mp hlinks
    exact ⟨merge_of_lt hlt, PointedGroups.merge_of_lt hlt⟩

/-- Of four methods merged in twos, a set that overlaps both groups joins them, and a set of one
method joins nothing. -/
theorem groups_mergeAll_bridged :
    let sets : List (List MethodId) := [[⟨0⟩, ⟨1⟩], [⟨2⟩, ⟨3⟩]]
    Chained sets ⟨0⟩ ⟨1⟩ ∧ ¬ Chained sets ⟨1⟩ ⟨2⟩ ∧ (components sets).ncard = 2 ∧
      Chained (sets ++ [[⟨4⟩, ⟨3⟩, ⟨0⟩]]) ⟨1⟩ ⟨2⟩ ∧
      (Links [⟨4⟩, ⟨3⟩, ⟨0⟩] ∧ ∃ id, ((mergeAll sets).merge [⟨4⟩, ⟨3⟩, ⟨0⟩]).1 = some id ∧
        ((mergeAll sets).merge [⟨4⟩, ⟨3⟩, ⟨0⟩]).2.groupOf ⟨4⟩ = some id) ∧
      (¬ Links [⟨4⟩] ∧ (mergeAll sets).merge [⟨4⟩] = (none, mergeAll sets)) := by
  intro sets
  obtain ⟨-, -, -, -, hchained, -, hsize, hmerge⟩ := groups_mergeAll_iff_chained sets
  obtain ⟨-, -, -, -, hbridged, -⟩ := groups_mergeAll_iff_chained (sets ++ [[⟨4⟩, ⟨3⟩, ⟨0⟩]])
  have hlinks : Links [⟨4⟩, ⟨3⟩, ⟨0⟩] := ⟨⟨4⟩, by simp, ⟨3⟩, by simp, by decide⟩
  have hsingle : ¬ Links [⟨4⟩] := not_links_iff.mpr (by decide)
  refine ⟨(hchained _ _).mp ⟨⟨0⟩, by decide, by decide⟩, fun h => ?_, ?_,
    (hbridged _ _).mp ⟨⟨1⟩, by decide, by decide⟩, ⟨hlinks, ?_⟩, hsingle,
    ((hmerge _).2.2 hsingle).1⟩
  · obtain ⟨id, hid, hid'⟩ := (hchained ⟨1⟩ ⟨2⟩).mpr h
    have hfirst : (mergeAll sets).groupOf ⟨1⟩ = some ⟨0⟩ := by decide
    have hsecond : (mergeAll sets).groupOf ⟨2⟩ = some ⟨1⟩ := by decide
    exact absurd (hfirst.symm.trans (hid.trans (hid'.symm.trans hsecond))) (by decide)
  · rw [← hsize]
    decide
  · obtain ⟨id, hid, -, hall⟩ := (hmerge [⟨4⟩, ⟨3⟩, ⟨0⟩]).2.1 hlinks
    exact ⟨id, hid, hall ⟨4⟩ (by simp)⟩

end OverrideGroups
end Renamer
