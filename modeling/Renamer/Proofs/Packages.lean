import Renamer.Package.Tree
import Renamer.Proofs.Declared
import Renamer.Proofs.Fresh

/-!
# The growing package tree

Packages are created and decided, and none is ever removed. `PackageTree.Has` says that a path has
its node; whatever a run does to the tree keeps it.
-/

namespace Renamer
namespace PackageTree

/-! ## Words used up -/

theorem issued_le_freshSegment (t : PackageTree) (path : PackagePath) (s : NameSource) :
    s.issued ≤ (t.freshSegment path s).2.issued := by
  unfold freshSegment
  split
  · exact s.issued_le_nextWhere _ _
  · exact s.issued_le_nextWhere _ _

theorem issued_le_decideOne (wants : String → Bool) (s : PackageTree × NameSource)
    (path : PackagePath) : s.2.issued ≤ (decideOne wants s path).2.issued := by
  rcases s with ⟨t, source⟩
  unfold decideOne
  dsimp only
  split
  · exact Nat.le_refl _
  · split
    · exact issued_le_freshSegment _ path source
    · exact Nat.le_refl _

theorem issued_le_decide (t : PackageTree) (path : PackagePath) (wants : String → Bool)
    (s : NameSource) : s.issued ≤ (t.decide path wants s).2.issued := by
  unfold PackageTree.decide
  split
  · exact Nat.le_refl _
  · apply List.foldlRecOn (motive := fun s' : PackageTree × NameSource => s.issued ≤ s'.2.issued)
    · exact Nat.le_refl _
    · exact fun s' hs' path _ => Nat.le_trans hs' (issued_le_decideOne wants s' path)

/-! ## Packages there -/

/-- The tree has a package at `path`. -/
def Has (t : PackageTree) (path : PackagePath) : Prop :=
  ∃ id n, t.nodes.get? id = some n ∧ n.path = path

variable {t : PackageTree} {path : PackagePath}

theorem has_empty_iff : ({} : PackageTree).Has path ↔ path = [] := by
  constructor
  · rintro ⟨id, n, hn, rfl⟩
    have hentry : (id, n) ∈ [((⟨0⟩ : PackageId), ({ path := [] } : PackageNode))] :=
      Arena.mem_entries_iff.mpr hn
    cases List.mem_singleton.mp hentry
    rfl
  · rintro rfl
    exact ⟨⟨0⟩, { path := [] }, rfl, rfl⟩

theorem find?_isSome_iff : (t.find? path).isSome ↔ t.Has path := by
  unfold find? entryAt?
  rw [Option.isSome_map, List.find?_isSome]
  constructor
  · intro h
    rcases h with ⟨⟨id, n⟩, hmem, hpath⟩
    exact ⟨id, n, Arena.mem_entries_iff.mp hmem, by simpa using hpath⟩
  · intro h
    rcases h with ⟨id, n, hn, hpath⟩
    exact ⟨(id, n), Arena.mem_entries_iff.mpr hn, by simpa using hpath⟩

/-- Where a package is made sure of, it is there, and no other one is new. -/
theorem has_ensure_iff {path' : PackagePath} :
    (t.ensure path').Has path ↔ t.Has path ∨ path = path' := by
  unfold PackageTree.ensure
  split
  · rename_i hthere
    exact ⟨Or.inl, fun h => h.elim id fun heq => heq ▸ find?_isSome_iff.mp hthere⟩
  · constructor
    · rintro ⟨id, n, hn, hpath⟩
      have hpush := (Arena.get?_push t.nodes { path := path' } id).symm.trans hn
      split at hpush
      · cases hpush
        exact Or.inr hpath.symm
      · exact Or.inl ⟨id, n, hpush, hpath⟩
    · rintro (⟨id, n, hn, hpath⟩ | rfl)
      · exact ⟨id, n, Arena.get?_push_of_some hn, hpath⟩
      · exact ⟨t.nodes.nextSlot, { path }, (Arena.get?_push t.nodes _ _).trans (if_pos rfl), rfl⟩

theorem Has.ensure (h : t.Has path) (path' : PackagePath) : (t.ensure path').Has path :=
  has_ensure_iff.mpr (Or.inl h)

theorem has_ensure (t : PackageTree) (path : PackagePath) : (t.ensure path).Has path :=
  has_ensure_iff.mpr (Or.inr rfl)

/-- Creating a path makes the packages along it, and no others. -/
theorem has_create_iff {path' : PackagePath} :
    (t.create path').Has path ↔ t.Has path ∨ path ∈ path'.lineage := by
  have hall : ∀ l : List PackagePath, (l.foldl ensure t).Has path ↔ t.Has path ∨ path ∈ l := by
    intro l
    induction l generalizing t with
    | nil => simp
    | cons b l ih => rw [List.foldl_cons, ih, has_ensure_iff, List.mem_cons, or_assoc]
  exact hall path'.lineage

theorem Has.create (h : t.Has path) (path' : PackagePath) : (t.create path').Has path :=
  has_create_iff.mpr (Or.inl h)

theorem has_create_of_mem {path' : PackagePath} (h : path ∈ path'.lineage) :
    (t.create path').Has path :=
  has_create_iff.mpr (Or.inr h)

/-- A path is the last one of its lineage. -/
theorem mem_lineage_self (hpath : path ≠ []) : path ∈ path.lineage := by
  unfold PackagePath.lineage
  have hlen : 0 < path.length := List.length_pos_iff.mpr hpath
  refine List.mem_map.mpr ⟨path.length - 1, List.mem_range.mpr (by omega), ?_⟩
  rw [show path.length - 1 + 1 = path.length by omega, List.take_length]

/-- Creating one path after the other makes the packages along them, and no others. -/
theorem has_foldl_create_iff {l : List TypeSymbol} :
    (l.foldl (fun t s => t.create (PackagePath.ofText s.package)) t).Has path ↔
      t.Has path ∨ ∃ text ∈ l.map (·.package), path ∈ (PackagePath.ofText text).lineage := by
  induction l generalizing t with
  | nil => simp
  | cons s l ih =>
    rw [List.foldl_cons, ih, has_create_iff, or_assoc, List.map_cons]
    simp only [List.mem_cons, or_and_right, exists_or, exists_eq_left]

theorem has_foldl_create_of_mem {l : List TypeSymbol} {s : TypeSymbol} (hs : s ∈ l)
    (h : path ∈ (PackagePath.ofText s.package).lineage) :
    (l.foldl (fun t s => t.create (PackagePath.ofText s.package)) t).Has path :=
  has_foldl_create_iff.mpr (Or.inr ⟨s.package, List.mem_map_of_mem hs, h⟩)

/-- Creating one path after the other makes all their packages, where the unnamed one is there. -/
theorem has_foldl_create (hroot : t.Has []) {l : List TypeSymbol} {s : TypeSymbol} (hs : s ∈ l) :
    (l.foldl (fun t s => t.create (PackagePath.ofText s.package)) t).Has
      (PackagePath.ofText s.package) := by
  by_cases hpath : PackagePath.ofText s.package = []
  · rw [hpath]
    exact has_foldl_create_iff.mpr (Or.inl hroot)
  · exact has_foldl_create_of_mem hs (mem_lineage_self hpath)

/-- An alias leaves a package at its path. -/
theorem path_ite_newName (n : PackageNode) (path : PackagePath) (newName : String) :
    (if n.path = path then { n with newName := some newName } else n : PackageNode).path =
      n.path := by
  split <;> rfl

theorem Has.assign (h : t.Has path) (path' : PackagePath) (newName : String) :
    (t.assign path' newName).Has path := by
  rcases h with ⟨id, n, hn, hpath⟩
  unfold PackageTree.assign
  -- the node may be the one that gets the alias
  refine ⟨id, _, ?_, (path_ite_newName n path' newName).trans hpath⟩
  show (t.nodes.map _).get? id = _
  rw [Arena.get?_map, hn]
  rfl

theorem Has.decideOne (wants : String → Bool) {s : PackageTree × NameSource} (h : s.1.Has path)
    (path' : PackagePath) : (decideOne wants s path').1.Has path := by
  rcases s with ⟨t, source⟩
  have ht : ({ t with order := t.order ++ [path'] } : PackageTree).Has path := h
  unfold PackageTree.decideOne
  dsimp only
  split
  · exact h
  · split
    · exact ht.assign path' _
    · exact ht

/-- Deciding removes no package. -/
theorem Has.decide (h : t.Has path) (path' : PackagePath) (wants : String → Bool)
    (source : NameSource) : (t.decide path' wants source).1.Has path := by
  unfold PackageTree.decide
  split
  · exact h
  · apply List.foldlRecOn (motive := fun s : PackageTree × NameSource => s.1.Has path)
    · exact h
    · exact fun s hs path' _ => hs.decideOne wants path'

end PackageTree
end Renamer
