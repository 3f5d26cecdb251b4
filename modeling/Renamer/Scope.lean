import Renamer.NameSource
import Renamer.Program.Basic

/-!
# Names in use

A fresh name must not repeat a name that its scope already holds. Top-level types share their
package, nested types the type around them, fields and methods the type that declares them.
Methods are kept by override key, so that overloads stay apart.

* `TakenNames` is a set of pairs of a scope and a name. It only grows: a name once taken stays
  taken, also when its symbol has been given another one.
* `draw` takes the first fresh name that is free in a scope.
* `fitGroup` finds one name for several methods at once.
-/

namespace Renamer

/-! ## Scopes -/

/-- Where a name must be unlike all others. -/
inductive Scope where
  /-- The top-level types of a package, given by its dotted path as declared. -/
  | package (path : String)
  /-- The types nested in a type. -/
  | nested (outer : TypeId)
  /-- The fields of a type. -/
  | fields (owner : TypeId)
  /-- The methods of a type. -/
  | methods (owner : TypeId)
  deriving DecidableEq, Repr

namespace TypeSymbol

/-- The scope of the type's own short name. -/
def scope (t : TypeSymbol) : Scope :=
  match t.enclosing with
  | some outer => .nested outer
  | none => .package t.package

end TypeSymbol

namespace FieldSymbol

/-- The scope of the field's name. -/
def scope (f : FieldSymbol) : Scope := .fields f.owner

end FieldSymbol

namespace MethodSymbol

/-- The scope of the method's override key. -/
def scope (m : MethodSymbol) : Scope := .methods m.owner

end MethodSymbol

/-! ## Taken names -/

theorem nodup_no_pairs : ([] : List (Scope × String)).Nodup := List.nodup_nil

/-- The names in use, each with its scope. -/
structure TakenNames where
  /-- The pairs in the order in which they were taken. -/
  pairs : List (Scope × String) := []
  /-- No pair occurs twice. -/
  nodup_pairs : pairs.Nodup := by exact nodup_no_pairs
  deriving DecidableEq

instance : Inhabited TakenNames := ⟨{}⟩

namespace TakenNames

/-- `name` is not in use in `scope`. -/
def isFree (t : TakenNames) (scope : Scope) (name : String) : Bool :=
  !t.pairs.contains (scope, name)

/-- The names in use in `scope`. -/
def taken (t : TakenNames) (scope : Scope) : List String :=
  t.pairs.filterMap fun e => if e.1 = scope then some e.2 else none

/-- Takes `name` in `scope`. -/
def claim (t : TakenNames) (scope : Scope) (name : String) : TakenNames :=
  if h : (scope, name) ∈ t.pairs then t
  else ⟨t.pairs ++ [(scope, name)], by
    rw [List.nodup_append]
    refine ⟨t.nodup_pairs, by simp, fun a ha b hb e => h ?_⟩
    rwa [← List.mem_singleton.mp hb, ← e]⟩

/-- Releases all names. -/
def clear (_ : TakenNames) : TakenNames where
  pairs := []

theorem isFree_eq_true_iff {t : TakenNames} {scope : Scope} {name : String} :
    t.isFree scope name = true ↔ (scope, name) ∉ t.pairs := by
  simp [isFree]

theorem mem_taken_iff {t : TakenNames} {scope : Scope} {name : String} :
    name ∈ t.taken scope ↔ (scope, name) ∈ t.pairs := by
  rw [taken, List.mem_filterMap]
  constructor
  · rintro ⟨⟨s, n⟩, he, h⟩
    by_cases hs : s = scope
    · simp_all
    · simp [hs] at h
  · exact fun h => ⟨(scope, name), h, by simp⟩

/-- Claiming takes the one name and releases none. -/
theorem mem_claim {t : TakenNames} {scope : Scope} {name : String} {e : Scope × String} :
    e ∈ (t.claim scope name).pairs ↔ e ∈ t.pairs ∨ e = (scope, name) := by
  unfold claim
  split
  · rename_i h
    constructor
    · exact Or.inl
    · rintro (he | rfl)
      · exact he
      · exact h
  · simp

/-- Takes every declared name of a program. -/
def seed (t : TakenNames) (p : Program) : TakenNames :=
  let t := p.types.toList.foldl (fun t s => t.claim s.scope s.shortName) t
  let t := p.fields.toList.foldl (fun t f => t.claim f.scope f.name) t
  p.methods.toList.foldl (fun t m => t.claim m.scope m.key) t

/-! ## Drawing -/

/-- Takes in `scope` the first fresh name that is free there in the form `form` gives it. Every
taken name stands in the way of no more than one word. -/
def drawAs (t : TakenNames) (scope : Scope) (form : String → String) (source : NameSource) :
    String × TakenNames × NameSource :=
  let (name, source) :=
    source.nextWhere (fun name => t.isFree scope (form name)) (t.taken scope).length
  (name, t.claim scope (form name), source)

/-- Takes in `scope` the first fresh name that is free there. -/
def draw (t : TakenNames) (scope : Scope) (source : NameSource) :
    String × TakenNames × NameSource :=
  t.drawAs scope id source

/-- Takes for a method the first fresh name under which its override key is free. -/
def drawMethod (t : TakenNames) (m : MethodSymbol) (source : NameSource) :
    String × TakenNames × NameSource :=
  t.drawAs m.scope m.keyAs source

/-! ## Groups of methods -/

/-- Takes the override key that a method has under `name`. -/
def claimMethod (t : TakenNames) (m : MethodSymbol) (name : String) : TakenNames :=
  t.claim m.scope (m.keyAs name)

/-- `m` can be called `name`: its owner does not have the override key yet, or has it through a
member of the group, which carries that name or had that key from the start. -/
def memberFits (t : TakenNames) (group : List MethodSymbol) (m : MethodSymbol) (name : String) :
    Bool :=
  t.isFree m.scope (m.keyAs name) ||
    group.any fun o => o.owner == m.owner && (o.newName == some name || o.key == m.keyAs name)

/-- All of the group can be called `name`. -/
def groupFits (t : TakenNames) (group : List MethodSymbol) (name : String) : Bool :=
  group.all fun m => t.memberFits group m name

/-- The number of keys that the owners of the methods have, counted for every method. -/
def inTheWay (t : TakenNames) (group : List MethodSymbol) : Nat :=
  group.foldr (fun m n => (t.taken m.scope).length + n) 0

/-- Takes one name for the whole group: `chosen` where all can be called so, else the first fresh
name that all can be called. Every key taken by the owner of a member stands in the way of no
more than one word for that member. -/
def fitGroup (t : TakenNames) (group : List MethodSymbol) (chosen : String)
    (source : NameSource) : String × TakenNames × NameSource :=
  let (name, source) :=
    if t.groupFits group chosen then (chosen, source)
    else source.nextWhere (t.groupFits group) (t.inTheWay group)
  (name, group.foldl (fun t m => t.claimMethod m name) t, source)

end TakenNames
end Renamer
