import Renamer.Arena
import Renamer.NameSource
import Renamer.Package.Path

/-!
# The package tree

The packages of a program form a tree under the unnamed package. The tree is kept as the list of
its paths, in the order of their creation: a node's parent is the node of the path without its
last segment, and its children are the nodes that extend its path by one segment.

* `create` adds a path together with all packages above it.
* `assign` gives a segment an alias, and `decide` does so where a predicate asks for it. A package
  is decided once, and after all packages above it that have no alias.
* `fullAlias` is the path that a package is emitted under.

The operations take paths. Those that end in `At` take the slot of a node instead, and fail where
there is no such node.
-/

namespace Renamer

/-- A package. -/
structure PackageNode where
  /-- Where it is in the tree. -/
  path : PackagePath
  /-- What its innermost segment is emitted as. -/
  newName : Option String := none
  deriving DecidableEq, Repr, Inhabited

/-- Packages, with the aliases of their segments. -/
structure PackageTree where
  /-- All packages in the order of their creation, the unnamed one first. -/
  nodes : Arena .package PackageNode := ⟨#[{ path := [] }]⟩
  /-- The packages that were decided, in that order. -/
  order : List PackagePath := []
  deriving DecidableEq, Repr, Inhabited

namespace PackageNode

/-- The innermost segment, empty for the unnamed package. -/
def segment (n : PackageNode) : String := n.path.segment

/-- What the innermost segment is emitted as. -/
def finalSegment (n : PackageNode) : String := n.newName.getD n.segment

end PackageNode

namespace PackageTree

/-! ## Looking at the tree -/

/-- The slot of the unnamed package. -/
def root : PackageId := ⟨0⟩

/-- The number of packages, the unnamed one among them. -/
def size (t : PackageTree) : Nat := t.nodes.size

/-- There is no package besides the unnamed one. -/
def isEmpty (t : PackageTree) : Bool := t.size == 1

/-- The package at a path. -/
def entryAt? (t : PackageTree) (path : PackagePath) : Option (PackageId × PackageNode) :=
  t.nodes.entries.find? fun e => e.2.path == path

/-- The slot of the package at a path. -/
def find? (t : PackageTree) (path : PackagePath) : Option PackageId :=
  (t.entryAt? path).map Prod.fst

/-- The alias of the segment at the end of a path. -/
def aliasOf (t : PackageTree) (path : PackagePath) : Option String :=
  (t.entryAt? path).bind fun e => e.2.newName

/-- The packages directly under a path, in the order of their creation. -/
def children (t : PackageTree) (path : PackagePath) : List (PackageId × PackageNode) :=
  t.nodes.entries.filter fun e => !e.2.path.isEmpty && e.2.path.dropLast == path

/-- The slot of the package that a path is directly under. -/
def parent? (t : PackageTree) (path : PackagePath) : Option PackageId :=
  if path.isEmpty then none else t.find? path.dropLast

/-- The package at a dotted path. -/
def lookup (t : PackageTree) (text : String) : Option PackageId :=
  t.find? (PackagePath.ofText text)

/-- The path that a package is emitted under: of every segment the alias, or else the segment. -/
def fullAlias (t : PackageTree) (path : PackagePath) : String :=
  PackagePath.text (path.lineage.map fun p => (t.aliasOf p).getD p.segment)

/-- The dotted path and the alias of every package that has one, in the order of creation. -/
def aliased (t : PackageTree) : List (String × String) :=
  t.nodes.toList.filterMap fun n => n.newName.map fun newName => (n.path.text, newName)

/-- The place of a package among those decided. -/
def decidedAt (t : PackageTree) (path : PackagePath) : Option Nat := t.order.idxOf? path

/-- The slots of the packages that were decided, in that order. -/
def decisionOrder (t : PackageTree) : List PackageId := t.order.filterMap t.find?

/-! ## Growing it -/

/-- The tree with a node at `path`. -/
def ensure (t : PackageTree) (path : PackagePath) : PackageTree :=
  if (t.find? path).isSome then t else { t with nodes := t.nodes.push { path } }

/-- The tree with nodes at `path` and at all packages above it. -/
def create (t : PackageTree) (path : PackagePath) : PackageTree :=
  path.lineage.foldl ensure t

/-- The package at a dotted path, which is created where it is missing. -/
def getOrCreate (t : PackageTree) (text : String) : PackageId × PackageTree :=
  let path := PackagePath.ofText text
  let t := t.create path
  ((t.find? path).getD root, t)

/-- The unnamed package alone, without an alias. -/
def clear (_ : PackageTree) : PackageTree := {}

/-! ## Aliases -/

/-- Gives the segment at the end of `path` an alias. -/
def assign (t : PackageTree) (path : PackagePath) (newName : String) : PackageTree :=
  { t with nodes := t.nodes.map fun n => if n.path = path then { n with newName } else n }

/-- `name` is neither the segment nor the alias of any package directly under `path`. -/
def isFreeUnder (t : PackageTree) (path : PackagePath) (name : String) : Bool :=
  (t.children path).all fun e => e.2.segment != name && e.2.newName != some name

/-- A fresh name for the segment at the end of `path`: unlike the segments and aliases of the
packages beside it and its own. The unnamed package has none beside it. -/
def freshSegment (t : PackageTree) (path : PackagePath) (source : NameSource) :
    String × NameSource :=
  if path.isEmpty then source.next
  else source.nextWhere (t.isFreeUnder path.dropLast) (2 * (t.children path.dropLast).length)

/-- Decides one package, without a look at those above it: it comes last in the order, and gets
a fresh alias where it has none and `wants` asks for one. -/
def decideOne (wants : String → Bool) (s : PackageTree × NameSource) (path : PackagePath) :
    PackageTree × NameSource :=
  let (t, source) := s
  if t.order.contains path then (t, source)
  else
    let t := { t with order := t.order ++ [path] }
    if (t.aliasOf path).isNone && wants path.segment then
      let (newName, source) := t.freshSegment path source
      (t.assign path newName, source)
    else (t, source)

/-- Decides a package and before it, outermost first, the packages above it that have no alias.
Nothing happens where the package has been decided before, or is the unnamed one. -/
def decide (t : PackageTree) (path : PackagePath) (wants : String → Bool) (source : NameSource) :
    PackageTree × NameSource :=
  if t.order.contains path then (t, source)
  else
    (path.lineage.filter fun p => p == path || (t.aliasOf p).isNone).foldl (decideOne wants)
      (t, source)

/-! ## By slot -/

/-- The path of the package at a slot. -/
def pathAt (t : PackageTree) (id : PackageId) : Except OutOfRange PackagePath := do
  return (← t.nodes.get id).path

/-- `assign` by slot. -/
def assignAt (t : PackageTree) (id : PackageId) (newName : String) :
    Except OutOfRange PackageTree := do
  return t.assign (← t.pathAt id) newName

/-- `freshSegment` by slot. -/
def freshSegmentAt (t : PackageTree) (id : PackageId) (source : NameSource) :
    Except OutOfRange (String × NameSource) := do
  return t.freshSegment (← t.pathAt id) source

/-- `decide` by slot. -/
def decideAt (t : PackageTree) (id : PackageId) (wants : String → Bool) (source : NameSource) :
    Except OutOfRange (PackageTree × NameSource) := do
  return t.decide (← t.pathAt id) wants source

/-- `fullAlias` by slot. -/
def fullAliasAt (t : PackageTree) (id : PackageId) : Except OutOfRange String := do
  return t.fullAlias (← t.pathAt id)

end PackageTree
end Renamer
