import Renamer.Proofs.PointedCalls

/-!
# Paths through packages with pointers

A package is listed among the children of another one exactly if it points to that one as its parent
(`PointedPackages.Shows.mem_children_iff`). Going down along the children answers what a search of
the tree does (`PointedPackages.Shows.lookup_eq`), and a package that is found on the way is not
created again; going down leaves what it comes through as it was (`PointedPackages.Keeps`).
-/

namespace Renamer
namespace PointedPackages

/-! ## Going down -/

/-- The package at a path below the one in slot `id`. -/
def lookupFrom (q : PointedPackages) :
    PackagePath → PackageId → Except OutOfRange (Option PackageId)
  | [], id => return some id
  | segment :: rest, id => do
    match (← q.nodes.get id).children.get? segment with
    | some child => lookupFrom q rest child
    | none => return none

/-- The package at a dotted path. -/
def lookup (q : PointedPackages) (text : String) : Except OutOfRange (Option PackageId) :=
  q.lookupFrom (PackagePath.ofText text) PackageTree.root

variable {q q' : PointedPackages} {t : PackageTree} {pending : List PackagePath}
  {path : PackagePath} {id : PackageId}

theorem Shows.lookupFrom_eq (h : q.Shows t pending) (ht : t.Linked) (hfind : t.find? path = some id)
    (rest : PackagePath) : q.lookupFrom rest id = .ok (t.find? (path ++ rest)) := by
  induction rest generalizing path id with
  | nil =>
    rw [List.append_nil, hfind]
    rfl
  | cons segment rest ih =>
    obtain ⟨k, n, hget, -, -, hpath, hreads⟩ := h.get_eq hfind
    have hchild : k.children.get? segment = t.find? (path ++ [segment]) :=
      hpath ▸ hreads.get?_children ht segment
    rw [lookupFrom, hget]
    show (match k.children.get? segment with
      | some child => q.lookupFrom rest child
      | none => .ok none) = _
    rw [hchild, List.append_cons path segment rest]
    cases hthere : t.find? (path ++ [segment]) with
    | some child => exact ih hthere
    | none =>
      -- nothing is below a package that is not there
      have hmissing : ¬ t.Has (path ++ [segment] ++ rest) := fun hhas => by
        have habove := ht.has_of_prefix hhas (List.prefix_append _ rest)
        rw [← PackageTree.find?_isSome_iff, hthere] at habove
        cases habove
      rw [PackageTree.find?_eq_none hmissing]

theorem Shows.lookup_eq (h : q.Shows t pending) (ht : t.Linked) (text : String) :
    q.lookup text = .ok (t.lookup text) :=
  h.lookupFrom_eq ht ht.find?_nil _

/-- On the way to a package that is there nothing is created. -/
theorem Shows.foldlM_enter_eq_self (h : q.Shows t pending) (ht : t.Linked)
    (hfind : t.find? path = some id) {rest : PackagePath} {last : PackageId}
    (hlast : t.find? (path ++ rest) = some last) :
    rest.foldlM PointedPackages.enter (id, q) = .ok (last, q) := by
  induction rest generalizing path id with
  | nil =>
    rw [List.append_nil, hfind] at hlast
    cases hlast
    rfl
  | cons segment rest ih =>
    rw [List.append_cons path segment rest] at hlast
    obtain ⟨child, hchild⟩ := Option.isSome_iff_exists.mp (PackageTree.find?_isSome_iff.mpr
      (ht.has_of_prefix (PackageTree.has_of_find? hlast) (List.prefix_append _ rest)))
    rw [List.foldlM_cons, h.enter_eq ht hfind, hchild]
    exact ih hchild hlast

theorem Shows.getOrCreate_eq_self (h : q.Shows t pending) (ht : t.Linked) {text : String}
    (hthere : t.lookup text = some id) : q.getOrCreate text = .ok (id, q) :=
  h.foldlM_enter_eq_self ht ht.find?_nil hthere

/-! ## Parents and children -/

/-- The notes of a package are those of a package of the tree. -/
theorem Shows.exists_reads (h : q.Shows t pending) {k : PointedPackage}
    (hk : q.nodes.get? id = some k) : ∃ n, t.nodes.get? id = some n ∧ k.Reads t n := by
  have hlt : id.index < t.nodes.size := h.size ▸ Arena.index_lt_of_get? hk
  obtain ⟨n, hn⟩ := Arena.exists_get?_of_lt hlt
  obtain ⟨k', hk', hreads⟩ := h.reads hn
  cases hk.symm.trans hk'
  exact ⟨n, hn, hreads⟩

/-- The children of a package are those that have it as their parent, each under its segment. -/
theorem Shows.mem_children_iff (h : q.Shows t pending) (ht : t.Linked) {above child : PackageId}
    {segment : String} :
    (∃ k, q.nodes.get? above = some k ∧ (segment, child) ∈ k.children.toList) ↔
      ∃ k, q.nodes.get? child = some k ∧ k.parent = some above ∧ k.segment = segment := by
  constructor
  · rintro ⟨k, hk, hlisted⟩
    obtain ⟨n, hn, hreads⟩ := h.exists_reads hk
    rw [hreads.children] at hlisted
    obtain ⟨⟨id, m⟩, hmem, heq⟩ := List.mem_map.mp hlisted
    cases heq
    obtain ⟨hm, hpath⟩ := PackageTree.mem_children_iff.mp hmem
    obtain ⟨k', hk', hreads'⟩ := h.reads hm
    refine ⟨k', hk', ?_, hreads'.segment⟩
    rw [hreads'.parent, PackageTree.parent?, hpath, if_neg (by simp), List.dropLast_concat,
      ht.find?_eq hn]
  · rintro ⟨k, hk, hparent, rfl⟩
    obtain ⟨m, hm, hreads⟩ := h.exists_reads hk
    rw [hreads.parent, PackageTree.parent?] at hparent
    split at hparent
    · cases hparent
    · rename_i hempty
      obtain ⟨k', n, -, hk', hn, hpath, hreads'⟩ := h.get_eq hparent
      have hne : m.path ≠ [] := fun hnil => hempty (List.isEmpty_iff.mpr hnil)
      refine ⟨k', hk', ?_⟩
      rw [hreads'.children, hreads.segment]
      refine List.mem_map.mpr ⟨(child, m), PackageTree.mem_children_iff.mpr ⟨hm, ?_⟩, rfl⟩
      rw [hpath, PackageNode.segment, PackagePath.segment, List.getLast?_eq_getLast_of_ne_nil hne]
      exact (List.dropLast_append_getLast hne).symm

/-! ## What is there stays -/

/-- From `q` to `q'` packages may have been added. Those that were there are as they were, but for
children that were added to theirs. -/
structure Keeps (q q' : PointedPackages) : Prop where
  package : ∀ {id k}, q.nodes.get? id = some k → ∃ k', q'.nodes.get? id = some k' ∧
    k'.segment = k.segment ∧ k'.parent = k.parent ∧ k'.newName = k.newName ∧
    k'.decidedAt = k.decidedAt ∧ k.children.toList <+: k'.children.toList
  order : q'.order = q.order
  begun : q'.begun = q.begun

theorem Keeps.refl (q : PointedPackages) : q.Keeps q where
  package := fun {_ k} hk => ⟨k, hk, rfl, rfl, rfl, rfl, List.prefix_rfl⟩
  order := rfl
  begun := rfl

theorem Keeps.trans {r : PointedPackages} (h : q.Keeps q') (h' : q'.Keeps r) : q.Keeps r where
  package := by
    intro id k hk
    obtain ⟨k', hk', hsegment, hparent, hname, hplace, hchildren⟩ := h.package hk
    obtain ⟨l, hl, hsegment', hparent', hname', hplace', hchildren'⟩ := h'.package hk'
    exact ⟨l, hl, hsegment'.trans hsegment, hparent'.trans hparent, hname'.trans hname,
      hplace'.trans hplace, hchildren.trans hchildren'⟩
  order := h'.order.trans h.order
  begun := h'.begun.trans h.begun

theorem keeps_enter {segment : String} {child : PackageId}
    (h : enter (id, q) segment = .ok (child, q')) : q.Keeps q' := by
  unfold enter at h
  dsimp only at h
  cases hget : q.nodes.get id with
  | error fault =>
    rw [hget] at h
    cases h
  | ok n =>
    rw [hget, ok_bind] at h
    split at h
    · cases h
      exact Keeps.refl q
    · rename_i hnone
      cases h
      refine ⟨fun {i k} hk => ?_, rfl, rfl⟩
      rw [Arena.get?_modify, Arena.get?_push_of_some hk]
      by_cases hi : id = i
      · -- the package right above
        cases hk.symm.trans (hi ▸ Arena.get_eq_ok_iff.mp hget)
        rw [if_pos hi]
        refine ⟨_, rfl, rfl, rfl, rfl, rfl, ?_⟩
        rw [Table.toList_insert_of_get?_eq_none hnone]
        exact List.prefix_append _ _
      · rw [if_neg hi]
        exact ⟨k, rfl, rfl, rfl, rfl, rfl, List.prefix_rfl⟩

/-- Creating a path leaves the packages that were there as they were. -/
theorem keeps_getOrCreate {text : String} (h : q.getOrCreate text = .ok (id, q')) : q.Keeps q' := by
  have hall : ∀ (path : PackagePath) (s s' : PackageId × PointedPackages),
      path.foldlM enter s = .ok s' → s.2.Keeps s'.2 := by
    intro path
    induction path with
    | nil =>
      rintro s s' hrun
      cases hrun
      exact Keeps.refl _
    | cons segment path ih =>
      rintro ⟨i, q⟩ s' hrun
      rw [List.foldlM_cons] at hrun
      obtain ⟨⟨child, r⟩, henter, hrest⟩ := bind_eq_ok.mp hrun
      exact (keeps_enter henter).trans (ih _ _ hrest)
  exact hall _ _ _ h

end PointedPackages
end Renamer
