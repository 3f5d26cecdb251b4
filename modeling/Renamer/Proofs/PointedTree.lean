import Renamer.Proofs.GrownTrees

/-!
# Packages with pointers

A package can be reached without a search where it has the slots of its parent and of its children,
and its place in the order of decisions can be told without one where it is noted with the package.
The operations here go by these notes, and change them along with the tree. A package is decided by
a call for itself, which makes calls for those above it that have no alias, outermost first; what
has been begun is told by its dotted path.

`PointedPackages.Shows` is the invariant: the notes are what a search of the tree answers.
-/

namespace Renamer

/-- A package with the slots of the packages next to it. -/
structure PointedPackage where
  /-- The innermost segment, empty for the unnamed package. -/
  segment : String
  /-- The package right above, which the unnamed one does not have. -/
  parent : Option PackageId
  /-- The packages right below by their segments, in the order of their creation. -/
  children : Table String PackageId := {}
  /-- What the segment is emitted as. -/
  newName : Option String := none
  /-- The place of the package among those decided. -/
  decidedAt : Option Nat := none

/-- Packages, with the slots of those next to each of them. -/
structure PointedPackages where
  /-- All packages in the order of their creation, the unnamed one first. -/
  nodes : Arena .package PointedPackage := ⟨#[{ segment := "", parent := none }]⟩
  /-- The dotted paths of the packages that were begun to be decided. -/
  begun : List String := []
  /-- The packages that were decided, in that order. -/
  order : List PackageId := []

namespace PointedPackages

/-! ## The operations -/

/-- The package `segment` right under the one in slot `id`, which is created where it is missing. -/
def enter (s : PackageId × PointedPackages) (segment : String) :
    Except OutOfRange (PackageId × PointedPackages) := do
  let (id, q) := s
  let n ← q.nodes.get id
  match n.children.get? segment with
  | some child => return (child, q)
  | none =>
    let child := q.nodes.nextSlot
    let nodes := (q.nodes.push { segment, parent := some id }).modify id fun n =>
      { n with children := n.children.insert segment child }
    return (child, { q with nodes })

/-- The package at a dotted path, which is created where it is missing. -/
def getOrCreate (q : PointedPackages) (text : String) :
    Except OutOfRange (PackageId × PointedPackages) :=
  (PackagePath.ofText text).foldlM enter (PackageTree.root, q)

/-- Gives the segment of a package an alias. -/
def assign (q : PointedPackages) (id : PackageId) (newName : String) :
    Except OutOfRange PointedPackages := do
  return { q with nodes := ← q.nodes.update id fun n => { n with newName := some newName } }

/-- The package in slot `id` and at most `depth - 1` above it, innermost first; the unnamed one is
left out. -/
def upwards (q : PointedPackages) : Nat → PackageId → Except OutOfRange (List PackageId)
  | 0, _ => return []
  | depth + 1, id =>
    if id = PackageTree.root then return []
    else do
      match (← q.nodes.get id).parent with
      | none => return [id]
      | some above => return id :: (← upwards q depth above)

/-- The packages from the outermost one down to the one in slot `id`. A way up goes through no
package twice, so there are not more than the tree has. -/
def chain (q : PointedPackages) (id : PackageId) : Except OutOfRange (List PackageId) := do
  return (← upwards q q.nodes.size id).reverse

/-- The innermost segment of a package. -/
def segmentAt (q : PointedPackages) (id : PackageId) : Except OutOfRange String := do
  return (← q.nodes.get id).segment

/-- What the innermost segment of a package is emitted as. -/
def shownAt (q : PointedPackages) (id : PackageId) : Except OutOfRange String := do
  let n ← q.nodes.get id
  return n.newName.getD n.segment

/-- The dotted path of a package. -/
def fullPath (q : PointedPackages) (id : PackageId) : Except OutOfRange String := do
  return PackagePath.text (← (← q.chain id).mapM q.segmentAt)

/-- The path that a package is emitted under. -/
def fullAlias (q : PointedPackages) (id : PackageId) : Except OutOfRange String := do
  return PackagePath.text (← (← q.chain id).mapM q.shownAt)

/-- The segment that a child is listed under, and its alias. -/
def childAt (q : PointedPackages) (e : String × PackageId) :
    Except OutOfRange (String × Option String) := do
  return (e.1, (← q.nodes.get e.2).newName)

/-- A fresh name for the segment of the package in slot `id`. -/
def freshSegment (q : PointedPackages) (id : PackageId) (source : NameSource) :
    Except OutOfRange (String × NameSource) := do
  match (← q.nodes.get id).parent with
  | none => return source.next
  | some above =>
    let siblings ← (← q.nodes.get above).children.toList.mapM q.childAt
    return source.nextWhere (fun name => siblings.all fun s => s.1 != name && s.2 != some name)
      (2 * siblings.length)

/-- Puts a package at the end of those decided. -/
def stamp (q : PointedPackages) (id : PackageId) : Except OutOfRange PointedPackages := do
  let nodes ← q.nodes.update id fun n => { n with decidedAt := some q.order.length }
  return { q with nodes, order := q.order ++ [id] }

/-- Decides one package that comes next in the order, without a look at those above it. -/
def settle (wants : String → Bool) (s : PointedPackages × NameSource) (id : PackageId) :
    Except OutOfRange (PointedPackages × NameSource) := do
  let q ← s.1.stamp id
  let n ← q.nodes.get id
  if n.newName.isNone && wants n.segment then
    let (newName, source) ← q.freshSegment id s.2
    return (← q.assign id newName, source)
  else return (q, s.2)

/-- Makes a call for a package unless it has an alias. -/
def callBare (call : PointedPackages × NameSource → PackageId →
    Except OutOfRange (PointedPackages × NameSource)) (s : PointedPackages × NameSource)
    (id : PackageId) : Except OutOfRange (PointedPackages × NameSource) := do
  if (← s.1.nodes.get id).newName.isSome then return s else call s id

/-- Decides the package in slot `id` and before it those above it that have no alias, with calls for
these nested at most `depth - 1` deep. -/
def decideWithin (wants : String → Bool) :
    Nat → PointedPackages × NameSource → PackageId →
      Except OutOfRange (PointedPackages × NameSource)
  | 0, s, _ => return s
  | depth + 1, (q, source), id =>
    if id = PackageTree.root then return (q, source)
    else do
      let text ← q.fullPath id
      if q.begun.contains text then return (q, source)
      else
        let above := (← q.chain id).dropLast
        let s ← above.foldlM (callBare (decideWithin wants depth))
          ({ q with begun := q.begun ++ [text] }, source)
        settle wants s id

/-- Decides the package in slot `id` and before it, outermost first, the packages above it that have
no alias. Calls for packages above one another are nested no deeper than there are packages. -/
def decide (q : PointedPackages) (id : PackageId) (wants : String → Bool) (source : NameSource) :
    Except OutOfRange (PointedPackages × NameSource) :=
  decideWithin wants q.nodes.size (q, source) id

end PointedPackages

/-! ## Notes that show a tree -/

namespace Arena

variable {k : Kind} {α : Type}

theorem update_eq_ok {a : Arena k α} {i : Slot k} {x : α} (h : a.get? i = some x) (f : α → α) :
    a.update i f = .ok (a.modify i f) := by
  rw [update, get_eq_ok_iff.mpr h]
  rfl

theorem size_push (a : Arena k α) (x : α) : (a.push x).size = a.size + 1 :=
  Array.size_push x

theorem size_modify (a : Arena k α) (i : Slot k) (f : α → α) : (a.modify i f).size = a.size :=
  Array.size_modify

theorem size_map (a : Arena k α) (f : α → α) : (a.map f).size = a.size := Array.size_map

end Arena

namespace PackageTree

variable {t : PackageTree} {path : PackagePath} {id : PackageId}

/-- The packages under a path are those that extend it by one segment. -/
theorem mem_children_iff {n : PackageNode} :
    (id, n) ∈ t.children path ↔
      t.nodes.get? id = some n ∧ n.path = path ++ [n.segment] := by
  rw [children, List.mem_filter, Arena.mem_entries_iff, Bool.and_eq_true, Bool.not_eq_true',
    List.isEmpty_eq_false_iff, beq_iff_eq]
  refine and_congr_right fun _ => ⟨fun hn => ?_, fun hn => ?_⟩
  · rw [← hn.2, PackageNode.segment, PackagePath.segment, List.getLast?_eq_getLast_of_ne_nil hn.1]
    exact (List.dropLast_append_getLast hn.1).symm
  · rw [hn]
    simp

/-- Nothing is under a path that is not there. -/
theorem Linked.children_eq_nil (h : t.Linked) (hmissing : ¬ t.Has path) : t.children path = [] := by
  refine List.eq_nil_iff_forall_not_mem.mpr fun e he => hmissing ?_
  obtain ⟨hn, hpath⟩ := mem_children_iff.mp he
  have habove := h.above ⟨e.1, e.2, hn, hpath⟩
  rwa [List.dropLast_concat] at habove

theorem children_push (path a : PackagePath) (hne : path ≠ []) :
    ({ t with nodes := t.nodes.push { path } } : PackageTree).children a =
      t.children a ++
        if path.dropLast = a then [(t.nodes.nextSlot, ({ path } : PackageNode))] else [] := by
  rw [children, Arena.entries_push, List.filter_append, children]
  congr 1
  by_cases ha : path.dropLast = a <;> simp [ha, hne]

theorem map_children_assign (path : PackagePath) (newName : String) (a : PackagePath) :
    ((t.assign path newName).children a).map (fun e => (e.2.segment, e.1)) =
      (t.children a).map fun e => (e.2.segment, e.1) := by
  rw [children, assign, Arena.entries_map, List.filter_map, List.map_map, children]
  have hfilter : ∀ e : PackageId × PackageNode, ((fun e : PackageId × PackageNode =>
      !e.2.path.isEmpty && e.2.path.dropLast == a) ∘ fun e =>
      (e.1, if e.2.path = path then { e.2 with newName := some newName } else e.2)) e =
      (!e.2.path.isEmpty && e.2.path.dropLast == a) := by
    intro e
    rw [Function.comp_apply, path_ite_newName]
  rw [List.filter_congr fun e _ => hfilter e]
  refine List.map_congr_left fun e _ => ?_
  rw [Function.comp_apply, PackageNode.segment, path_ite_newName]
  rfl

end PackageTree

/-- The notes of `k` are what a search of `t` answers for its package `n`. -/
structure PointedPackage.Reads (k : PointedPackage) (t : PackageTree) (n : PackageNode) :
    Prop where
  segment : k.segment = n.segment
  parent : k.parent = t.parent? n.path
  children : k.children.toList = (t.children n.path).map fun e => (e.2.segment, e.1)
  newName : k.newName = n.newName
  decidedAt : k.decidedAt = t.decidedAt n.path

/-- A child is listed under its segment where the tree finds it. -/
theorem PointedPackage.Reads.get?_children {k : PointedPackage} {t : PackageTree} {n : PackageNode}
    (hreads : k.Reads t n) (ht : t.Linked) (segment : String) :
    k.children.get? segment = t.find? (n.path ++ [segment]) := by
  ext child
  rw [Table.get?_eq_some_iff, hreads.children, List.mem_map]
  constructor
  · rintro ⟨⟨id, m⟩, hmem, heq⟩
    cases heq
    obtain ⟨hm, hpath⟩ := PackageTree.mem_children_iff.mp hmem
    rw [← hpath]
    exact ht.find?_eq hm
  · intro hfind
    obtain ⟨m, hm, hpath⟩ := PackageTree.get?_of_find? hfind
    have hsegment : m.segment = segment := by
      rw [PackageNode.segment, hpath, PackagePath.segment_append_singleton]
    exact ⟨(child, m), PackageTree.mem_children_iff.mpr ⟨hm, by rw [hsegment, hpath]⟩,
      by rw [hsegment]⟩

/-! ### A package more -/

namespace PackageTree

variable {t : PackageTree} {path a : PackagePath}

/-- Packages that were there are found where they were. -/
theorem find?_push (hnew : t.find? path = none) (ha : t.Has a) :
    ({ t with nodes := t.nodes.push { path } } : PackageTree).find? a = t.find? a := by
  have hne : a ≠ path := by
    rintro rfl
    rw [← find?_isSome_iff, hnew] at ha
    cases ha
  rw [find?, entryAt?_push hnew, if_neg hne]
  rfl

end PackageTree

namespace PointedPackage

variable {t : PackageTree} {path : PackagePath} {segment : String} {id : PackageId}
  {k : PointedPackage} {n : PackageNode}

/-- What is noted of a package that has just been created. -/
theorem reads_pushed (ht : t.Grown) (hfind : t.find? path = some id)
    (hnew : t.find? (path ++ [segment]) = none) :
    ({ segment, parent := some id } : PointedPackage).Reads
      { t with nodes := t.nodes.push { path := path ++ [segment] } }
      { path := path ++ [segment] } := by
  have hmissing : ¬ t.Has (path ++ [segment]) := by
    rw [← PackageTree.find?_isSome_iff, hnew]
    exact Bool.false_ne_true
  refine ⟨?_, ?_, ?_, rfl, ?_⟩
  · rw [PackageNode.segment, PackagePath.segment_append_singleton]
  · rw [PackageTree.parent?, if_neg (by simp), List.dropLast_concat,
      PackageTree.find?_push hnew (PackageTree.has_of_find? hfind), hfind]
  · rw [PackageTree.children_push _ _ (by simp), ht.linked.children_eq_nil hmissing,
      if_neg (by simp)]
    rfl
  · rw [PackageTree.decidedAt, eq_comm, List.idxOf?_eq_none_iff]
    exact fun hmem => hmissing (ht.ordered _ hmem).1

/-- The parent of a package is where it was. -/
theorem Reads.parent_push (h : k.Reads t n) (ht : t.Linked) (hn : t.nodes.get? id = some n)
    (hnew : t.find? path = none) :
    k.parent = ({ t with nodes := t.nodes.push { path } } : PackageTree).parent? n.path := by
  rw [h.parent, PackageTree.parent?, PackageTree.parent?]
  split
  · rfl
  · exact (PackageTree.find?_push hnew (ht.above ⟨id, n, hn, rfl⟩)).symm

/-- A package has the new one among its children. -/
theorem Reads.push_above (h : k.Reads t n) (ht : t.Linked) (hn : t.nodes.get? id = some n)
    (hnew : t.find? (n.path ++ [segment]) = none) :
    ({ k with children := k.children.insert segment t.nodes.nextSlot } : PointedPackage).Reads
      { t with nodes := t.nodes.push { path := n.path ++ [segment] } } n := by
  refine ⟨h.segment, h.parent_push ht hn hnew, ?_, h.newName, h.decidedAt⟩
  have hnone : k.children.get? segment = none := by
    rw [h.get?_children ht, hnew]
  rw [PackageTree.children_push _ _ (by simp), List.dropLast_concat, if_pos rfl, List.map_append,
    ← h.children, Table.toList_insert_of_get?_eq_none hnone, List.map_singleton,
    PackageNode.segment, PackagePath.segment_append_singleton]

/-- Other packages have the children they had. -/
theorem Reads.push_other (h : k.Reads t n) (ht : t.Linked) (hn : t.nodes.get? id = some n)
    (hnew : t.find? (path ++ [segment]) = none) (hne : n.path ≠ path) :
    k.Reads { t with nodes := t.nodes.push { path := path ++ [segment] } } n := by
  refine ⟨h.segment, h.parent_push ht hn hnew, ?_, h.newName, h.decidedAt⟩
  rw [PackageTree.children_push _ _ (by simp), List.dropLast_concat, if_neg hne.symm,
    List.append_nil, h.children]

end PointedPackage

namespace PointedPackages

/-- The notes are what a search of `t` answers; the packages `pending` have been begun, but not
decided. -/
structure Shows (q : PointedPackages) (t : PackageTree) (pending : List PackagePath) : Prop where
  size : q.nodes.size = t.nodes.size
  reads : ∀ {id n}, t.nodes.get? id = some n → ∃ k, q.nodes.get? id = some k ∧ k.Reads t n
  order : q.order = t.decisionOrder
  begun : ∀ text, text ∈ q.begun ↔ ∃ a, (a ∈ t.order ∨ a ∈ pending) ∧ a.text = text
  there : ∀ a ∈ pending, t.Has a

theorem shows_empty : ({} : PointedPackages).Shows {} [] where
  size := rfl
  reads := by
    intro id n hn
    have hentry : (id, n) ∈ [((⟨0⟩ : PackageId), ({ path := [] } : PackageNode))] :=
      Arena.mem_entries_iff.mpr hn
    cases List.mem_singleton.mp hentry
    exact ⟨{ segment := "", parent := none }, rfl, rfl, rfl, rfl, rfl, rfl⟩
  order := rfl
  begun := by simp
  there := by simp

variable {q : PointedPackages} {t : PackageTree} {pending : List PackagePath}
  {path : PackagePath} {id : PackageId}

/-- What is looked up in a slot that the tree has. -/
theorem Shows.get_eq (h : q.Shows t pending) (hfind : t.find? path = some id) :
    ∃ k n, q.nodes.get id = .ok k ∧ q.nodes.get? id = some k ∧ t.nodes.get? id = some n ∧
      n.path = path ∧ k.Reads t n := by
  obtain ⟨n, hn, hpath⟩ := PackageTree.get?_of_find? hfind
  obtain ⟨k, hk, hreads⟩ := h.reads hn
  exact ⟨k, n, Arena.get_eq_ok_iff.mpr hk, hk, hn, hpath, hreads⟩

/-! ### Growing -/

theorem Shows.push (h : q.Shows t pending) (ht : t.Grown) {segment : String}
    (hfind : t.find? path = some id) (hnew : t.find? (path ++ [segment]) = none) :
    ({ q with nodes := (q.nodes.push { segment, parent := some id }).modify id fun n =>
      { n with children := n.children.insert segment q.nodes.nextSlot } } : PointedPackages).Shows
      { t with nodes := t.nodes.push { path := path ++ [segment] } } pending := by
  have hnext : q.nodes.nextSlot = t.nodes.nextSlot := congrArg Slot.mk h.size
  obtain ⟨n, hn, -⟩ := PackageTree.get?_of_find? hfind
  have hget : ∀ i, ((q.nodes.push { segment, parent := some id }).modify id fun n =>
      { n with children := n.children.insert segment q.nodes.nextSlot }).get? i =
      if id = i then (q.nodes.get? i).map fun n =>
        { n with children := n.children.insert segment q.nodes.nextSlot }
      else if i = t.nodes.nextSlot then some { segment, parent := some id }
      else q.nodes.get? i := by
    intro i
    rw [Arena.get?_modify, Arena.get?_push, hnext]
    by_cases hi : id = i
    · rw [if_pos hi, if_pos hi, if_neg (hi ▸ Arena.ne_nextSlot_of_get? hn)]
    · rw [if_neg hi, if_neg hi]
  refine ⟨?_, fun {i m} hm => ?_, ?_, h.begun, fun a ha => ?_⟩
  · show (Arena.modify _ _ _).size = (Arena.push _ _).size
    rw [Arena.size_modify, Arena.size_push, Arena.size_push, h.size]
  · show ∃ k, (Arena.modify _ _ _).get? i = some k ∧ _
    rw [hget]
    have hthere := (Arena.get?_push t.nodes _ i).symm.trans hm
    by_cases hlast : i = t.nodes.nextSlot
    · rw [if_pos hlast] at hthere
      cases hthere
      rw [if_neg fun heq => Arena.ne_nextSlot_of_get? hn (heq.trans hlast), if_pos hlast]
      exact ⟨_, rfl, PointedPackage.reads_pushed ht hfind hnew⟩
    · rw [if_neg hlast] at hthere
      obtain ⟨k, hk, hreads⟩ := h.reads hthere
      by_cases hi : id = i
      · -- the package right above
        have hmpath := (ht.linked.path_eq_iff hfind hthere).mpr hi
        subst hmpath
        rw [if_pos hi, hk, hnext]
        exact ⟨_, rfl, hreads.push_above ht.linked hthere hnew⟩
      · have hother : m.path ≠ path := fun heq => hi ((ht.linked.path_eq_iff hfind hthere).mp heq)
        rw [if_neg hi, if_neg hlast]
        exact ⟨k, hk, hreads.push_other ht.linked hthere hnew hother⟩
  · show q.order = _
    rw [h.order]
    exact (List.filterMap_congr fun a ha => PackageTree.find?_push hnew (ht.ordered a ha).1).symm
  · obtain ⟨i, m, hm, hmpath⟩ := h.there a ha
    exact ⟨i, m, Arena.get?_push_of_some hm, hmpath⟩

theorem Shows.enter_eq (h : q.Shows t pending) (ht : t.Linked) (hfind : t.find? path = some id)
    (segment : String) : PointedPackages.enter (id, q) segment =
      match t.find? (path ++ [segment]) with
      | some child => .ok (child, q)
      | none => .ok (q.nodes.nextSlot, { q with
          nodes := (q.nodes.push { segment, parent := some id }).modify id fun n =>
            { n with children := n.children.insert segment q.nodes.nextSlot } }) := by
  obtain ⟨k, n, hget, -, -, hpath, hreads⟩ := h.get_eq hfind
  rw [← hpath, ← hreads.get?_children ht, PointedPackages.enter]
  dsimp only
  rw [hget]
  rfl

theorem Shows.enter (h : q.Shows t pending) (ht : t.Grown) (hfind : t.find? path = some id)
    (segment : String) : ∃ child q', PointedPackages.enter (id, q) segment = .ok (child, q') ∧
      (t.ensure (path ++ [segment])).find? (path ++ [segment]) = some child ∧
      q'.Shows (t.ensure (path ++ [segment])) pending := by
  rw [h.enter_eq ht.linked hfind, PackageTree.find?_ensure, if_pos rfl, PackageTree.ensure]
  cases hthere : t.find? (path ++ [segment]) with
  | some child => exact ⟨child, q, rfl, rfl, h⟩
  | none =>
    have hnext : q.nodes.nextSlot = t.nodes.nextSlot := congrArg Slot.mk h.size
    exact ⟨q.nodes.nextSlot, _, rfl, congrArg some hnext.symm, h.push ht hfind hthere⟩

/-- Going down from the unnamed package makes what creating the path makes. -/
theorem Shows.getOrCreate (h : q.Shows t pending) (ht : t.Grown) (text : String) :
    ∃ q', q.getOrCreate text = .ok ((t.getOrCreate text).1, q') ∧
      q'.Shows (t.getOrCreate text).2 pending := by
  have hall : ∀ path : PackagePath, (∀ s ∈ path, PackagePath.IsSegment s) → ∃ id q',
      path.foldlM PointedPackages.enter (PackageTree.root, q) = .ok (id, q') ∧
        (t.create path).find? path = some id ∧ q'.Shows (t.create path) pending := by
    intro path hpath
    induction path using List.reverseRecOn with
    | nil => exact ⟨_, q, rfl, ht.linked.find?_nil, h⟩
    | append_singleton path segment ih =>
      have hfront : ∀ s ∈ path, PackagePath.IsSegment s := fun s hs =>
        hpath s (List.mem_append_left _ hs)
      obtain ⟨id, q', hrun, hfind, hshows⟩ := ih hfront
      obtain ⟨child, q'', hstep, hchild, hshows'⟩ :=
        hshows.enter (ht.create hfront) hfind segment
      rw [PackageTree.create_append_singleton]
      refine ⟨child, q'', ?_, hchild, hshows'⟩
      rw [List.foldlM_append, hrun]
      show (PointedPackages.enter (id, q') segment >>= pure) = _
      rw [bind_pure, hstep]
  obtain ⟨id, q', hrun, hfind, hshows⟩ :=
    hall (PackagePath.ofText text) fun s hs => PackagePath.isSegment_of_mem_ofText hs
  refine ⟨q', ?_, hshows⟩
  rw [PackageTree.getOrCreate, hfind]
  exact hrun

/-! ### Assigning -/

theorem Shows.assign (h : q.Shows t pending) (ht : t.Linked) (hfind : t.find? path = some id)
    (newName : String) : ∃ q', q.assign id newName = .ok q' ∧
      q'.Shows (t.assign path newName) pending := by
  obtain ⟨k, n, -, hk, hn, hpath, -⟩ := h.get_eq hfind
  refine ⟨{ q with nodes := q.nodes.modify id fun n => { n with newName := some newName } }, ?_,
    ?_⟩
  · rw [PointedPackages.assign, Arena.update_eq_ok hk]
    rfl
  refine ⟨?_, fun {i m} hm => ?_, ?_, h.begun, fun a ha => (h.there a ha).assign path newName⟩
  · show (Arena.modify _ _ _).size = (Arena.map _ _).size
    rw [Arena.size_modify, Arena.size_map, h.size]
  · have hmap := (Arena.get?_map t.nodes _ i).symm.trans hm
    obtain ⟨m', hm', rfl⟩ := Option.map_eq_some_iff.mp hmap
    obtain ⟨k', hk', hreads⟩ := h.reads hm'
    have hsame := ht.path_eq_iff hfind hm'
    have hparent : ∀ a, t.parent? a = (t.assign path newName).parent? a := by
      intro a
      rw [PackageTree.parent?, PackageTree.parent?, PackageTree.find?_assign]
    show ∃ k, (Arena.modify _ _ _).get? i = some k ∧ _
    rw [Arena.get?_modify]
    by_cases hi : id = i
    · rw [if_pos hi, if_pos (hsame.mpr hi), hk']
      exact ⟨_, rfl, hreads.segment, hreads.parent.trans (hparent _),
        hreads.children.trans (PackageTree.map_children_assign path newName _).symm, rfl,
        hreads.decidedAt⟩
    · rw [if_neg hi, if_neg fun heq => hi (hsame.mp heq)]
      exact ⟨k', hk', hreads.segment, hreads.parent.trans (hparent _),
        hreads.children.trans (PackageTree.map_children_assign path newName _).symm,
        hreads.newName, hreads.decidedAt⟩
  · show q.order = _
    rw [h.order]
    exact (List.filterMap_congr fun a _ => PackageTree.find?_assign path newName a).symm

/-! ### Going up -/

theorem Shows.upwards (h : q.Shows t pending) (ht : t.Grown) {depth : Nat}
    (hfind : t.find? path = some id) (hdepth : id.index < depth) :
    q.upwards depth id = .ok (path.lineage.filterMap t.find?).reverse := by
  induction depth generalizing path id with
  | zero => exact absurd hdepth (Nat.not_lt_zero _)
  | succ depth ih =>
    obtain ⟨k, n, hget, -, hn, hpath, hreads⟩ := h.get_eq hfind
    rw [PointedPackages.upwards]
    by_cases hroot : id = PackageTree.root
    · rw [if_pos hroot, ← hpath, (ht.linked.eq_root_iff hn).mp hroot]
      rfl
    · have hne : path ≠ [] := fun hnil =>
        hroot ((ht.linked.eq_root_iff hn).mpr (hpath.trans hnil))
      obtain ⟨front, s, rfl⟩ : ∃ (front : PackagePath) (s : String), path = front ++ [s] :=
        ⟨_, _, (List.dropLast_append_getLast hne).symm⟩
      -- the package right above is found, and it is older
      have habove := ht.linked.above (PackageTree.has_of_find? hfind)
      obtain ⟨above, habove⟩ :=
        Option.isSome_iff_exists.mp (PackageTree.find?_isSome_iff.mpr habove)
      have holder : above.index < id.index := ht.older hne hfind habove
      have hparent : k.parent = some above := by
        rw [hreads.parent, hpath, PackageTree.parent?, if_neg (by simp), habove]
      rw [List.dropLast_concat] at habove
      rw [if_neg hroot, hget]
      show (match k.parent with
        | none => _
        | some above => _) = _
      rw [hparent]
      show (q.upwards depth above >>= fun rest => pure (id :: rest)) = _
      rw [ih habove (by omega), PackagePath.lineage_append_singleton, List.filterMap_append,
        List.filterMap_cons_some hfind, List.reverse_append]
      rfl

theorem Shows.chain (h : q.Shows t pending) (ht : t.Grown) (hfind : t.find? path = some id) :
    q.chain id = .ok (path.lineage.filterMap t.find?) := by
  obtain ⟨n, hn, -⟩ := PackageTree.get?_of_find? hfind
  unfold PointedPackages.chain
  rw [h.upwards ht hfind (h.size ▸ Arena.index_lt_of_get? hn)]
  show Except.ok (path.lineage.filterMap t.find?).reverse.reverse = _
  rw [List.reverse_reverse]

/-- What is looked up on the way to a package. -/
theorem mapM_find? {β : Type} {f : PackageId → Except OutOfRange β} {g : PackagePath → β}
    (hfg : ∀ {a id}, t.find? a = some id → f id = .ok (g a)) {l : List PackagePath}
    (hl : ∀ a ∈ l, t.Has a) : (l.filterMap t.find?).mapM f = .ok (l.map g) := by
  induction l with
  | nil => rfl
  | cons a l ih =>
    obtain ⟨id, hid⟩ :=
      Option.isSome_iff_exists.mp (PackageTree.find?_isSome_iff.mpr (hl a List.mem_cons_self))
    rw [List.filterMap_cons_some hid, List.mapM_cons, hfg hid,
      ih fun b hb => hl b (List.mem_cons_of_mem a hb)]
    rfl

theorem Shows.fullPath (h : q.Shows t pending) (ht : t.Grown) (hfind : t.find? path = some id) :
    q.fullPath id = .ok path.text := by
  have hall := mapM_find? (t := t) (f := q.segmentAt) (g := PackagePath.segment)
    (fun {a id} ha => by
      obtain ⟨k, n, hget, -, -, hpath, hreads⟩ := h.get_eq ha
      rw [segmentAt, hget, ← hpath]
      exact congrArg Except.ok hreads.segment)
    fun a ha => ht.linked.has_of_mem_lineage (PackageTree.has_of_find? hfind) ha
  unfold PointedPackages.fullPath
  rw [h.chain ht hfind]
  show ((path.lineage.filterMap t.find?).mapM q.segmentAt >>= fun segments =>
    pure (PackagePath.text segments)) = _
  rw [hall, PackagePath.map_segment_lineage]
  rfl

theorem Shows.fullAlias (h : q.Shows t pending) (ht : t.Grown) (hfind : t.find? path = some id) :
    q.fullAlias id = .ok (t.fullAlias path) := by
  have hall := mapM_find? (t := t) (f := q.shownAt) (g := t.shown)
    (fun {a id} ha => by
      obtain ⟨k, n, hget, -, hn, hpath, hreads⟩ := h.get_eq ha
      rw [shownAt, hget, PackageTree.shown, ← hpath, ht.linked.aliasOf_eq hn]
      show Except.ok (k.newName.getD k.segment) = _
      rw [hreads.newName, hreads.segment]
      rfl)
    fun a ha => ht.linked.has_of_mem_lineage (PackageTree.has_of_find? hfind) ha
  unfold PointedPackages.fullAlias
  rw [h.chain ht hfind]
  show ((path.lineage.filterMap t.find?).mapM q.shownAt >>= fun segments =>
    pure (PackagePath.text segments)) = _
  rw [hall]
  rfl

end PointedPackages
end Renamer
