import Renamer.Proofs.Exports
import Renamer.Proofs.Separators

/-!
# Linked trees

In a tree that is `PackageTree.Linked` the unnamed package comes first, every package is found at
its path, and the packages above it are there. All operations keep a tree so, and none moves a
package to another slot.
-/

namespace Renamer

namespace PackageTree

variable {t : PackageTree} {path : PackagePath} {id : PackageId} {n : PackageNode}

/-- The unnamed package comes first, every package is found at its path, and those above it are
there. -/
structure Linked (t : PackageTree) : Prop where
  unnamed : ∃ n, t.nodes.get? root = some n ∧ n.path = []
  found : ∀ {id n}, t.nodes.get? id = some n → t.entryAt? n.path = some (id, n)
  above : ∀ {path}, t.Has path → t.Has path.dropLast

theorem linked_empty : Linked {} where
  unnamed := ⟨{ path := [] }, rfl, rfl⟩
  found := by
    intro id n hn
    have hentry : (id, n) ∈ [((⟨0⟩ : PackageId), ({ path := [] } : PackageNode))] :=
      Arena.mem_entries_iff.mpr hn
    cases List.mem_singleton.mp hentry
    rfl
  above := fun hhas => by
    rw [has_empty_iff.mp hhas]
    exact has_empty_iff.mpr rfl

theorem find?_of_entryAt? (h : t.entryAt? path = some (id, n)) : t.find? path = some id := by
  rw [find?, h]
  rfl

theorem Linked.has_nil (h : t.Linked) : t.Has [] := by
  obtain ⟨n, hn, hpath⟩ := h.unnamed
  exact ⟨PackageTree.root, n, hn, hpath⟩

/-- Every package on the way to one that is there is there. -/
theorem Linked.has_of_prefix (h : t.Linked) (hhas : t.Has path) {a : PackagePath}
    (ha : a <+: path) : t.Has a := by
  induction path using List.reverseRecOn with
  | nil => exact List.prefix_nil.mp ha ▸ hhas
  | append_singleton path s ih =>
    obtain heq | hpre := List.prefix_concat_iff.mp ha
    · exact heq ▸ hhas
    · refine ih ?_ hpre
      have hparent := h.above hhas
      rwa [List.dropLast_concat] at hparent

/-- The slot of the unnamed package is that of no other. -/
theorem Linked.eq_root_iff (h : t.Linked) (hn : t.nodes.get? id = some n) :
    id = root ↔ n.path = [] := by
  obtain ⟨r, hr, hrpath⟩ := h.unnamed
  constructor
  · intro heq
    rw [heq, hr] at hn
    cases hn
    exact hrpath
  · intro hpath
    have hentry := h.found hn
    rw [hpath, ← hrpath, h.found hr] at hentry
    exact (congrArg Prod.fst (Option.some.inj hentry)).symm

/-! ## What keeps trees linked -/

theorem entryAt?_push (hnew : t.find? path = none) (a : PackagePath) :
    ({ t with nodes := t.nodes.push { path } } : PackageTree).entryAt? a =
      if a = path then some (t.nodes.nextSlot, { path }) else t.entryAt? a := by
  have hnone : t.entryAt? path = none := Option.map_eq_none_iff.mp hnew
  unfold entryAt? at hnone ⊢
  rw [Arena.entries_push, List.find?_append, List.find?_singleton]
  by_cases ha : a = path
  · rw [if_pos ha, ha, hnone, Option.none_or, if_pos (by simp)]
  · have hne : ¬ path = a := fun heq => ha heq.symm
    rw [if_neg ha, if_neg (by simpa using hne), Option.or_none]

theorem Linked.ensure (h : t.Linked) (hhas : t.Has path.dropLast) : (t.ensure path).Linked := by
  have hkeeps : ∀ {a}, t.Has a → (t.ensure path).Has a := fun ha => ha.ensure path
  have hself := has_ensure t path
  unfold PackageTree.ensure at hkeeps hself ⊢
  split
  · exact h
  · rename_i hmissing
    rw [if_neg hmissing] at hkeeps hself
    have hnew : t.find? path = none := by simpa using hmissing
    obtain ⟨r, hr, hrpath⟩ := h.unnamed
    have hne : path ≠ [] := by
      rintro rfl
      exact hmissing (find?_isSome_iff.mpr h.has_nil)
    refine ⟨⟨r, ?_, hrpath⟩, fun {id n} hn => ?_, fun {a} ha => ?_⟩
    · exact Arena.get?_push_of_some hr
    · have hpush := (Arena.get?_push t.nodes { path } id).symm.trans hn
      rw [entryAt?_push hnew]
      split at hpush
      · rename_i hid
        cases hpush
        rw [if_pos rfl, hid]
      · have hentry := h.found hpush
        have hother : n.path ≠ path := fun heq => by
          have hfound : t.find? path = some id := by
            rw [find?, ← heq, hentry]
            rfl
          cases hnew.symm.trans hfound
        rw [if_neg hother, hentry]
    · obtain ⟨id, n, hn, rfl⟩ := ha
      have hpush := (Arena.get?_push t.nodes { path } id).symm.trans hn
      split at hpush
      · cases hpush
        exact hkeeps hhas
      · exact hkeeps (h.above ⟨id, n, hpush, rfl⟩)

/-- The order of decisions counts for nothing here. -/
theorem Linked.ordered (h : t.Linked) (order : List PackagePath) :
    ({ t with order } : PackageTree).Linked := ⟨h.unnamed, h.found, h.above⟩

theorem Linked.assign (h : t.Linked) (path : PackagePath) (newName : String) :
    (t.assign path newName).Linked := by
  have hget : ∀ id, (t.assign path newName).nodes.get? id = (t.nodes.get? id).map fun n =>
      if n.path = path then { n with newName := some newName } else n := Arena.get?_map _ _
  refine ⟨?_, fun {id n} hn => ?_, fun {a} ha => ?_⟩
  · obtain ⟨r, hr, hrpath⟩ := h.unnamed
    refine ⟨_, (hget PackageTree.root).trans (congrArg _ hr), ?_⟩
    rw [path_ite_newName, hrpath]
  · rw [hget] at hn
    obtain ⟨n', hn', rfl⟩ := Option.map_eq_some_iff.mp hn
    rw [path_ite_newName, entryAt?_assign, h.found hn']
    rfl
  · rw [has_assign] at ha ⊢
    exact h.above ha

theorem find?_decideOne (wants : String → Bool) (s : PackageTree × NameSource)
    (path a : PackagePath) : (PackageTree.decideOne wants s path).1.find? a = s.1.find? a := by
  have hd := decides_decideOne wants s path
  generalize PackageTree.decideOne wants s path = s' at hd
  cases hd with
  | again _ => rfl
  | keep _ => rfl
  | draw _ _ _ =>
    rw [find?, entryAt?_assign, Option.map_map]
    rfl

end PackageTree

end Renamer
