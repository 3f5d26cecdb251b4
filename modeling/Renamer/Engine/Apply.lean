import Renamer.Engine.Compose

/-!
# Binding aliases

The second pass of a run binds to the program what the first one decided. A type is renamed where
its composed full name is another one and holds no digit. A member gets its alias, which is
replaced where it cannot be written as it is; an empty alias is none.

Whatever is bound is counted.
-/

namespace Renamer

/-- How many symbols have been given an alias. -/
structure Tally where
  /-- Types that got a new full name. -/
  types : Nat := 0
  /-- Fields that got an alias. -/
  fields : Nat := 0
  /-- Methods that got an alias. -/
  methods : Nat := 0
  deriving DecidableEq, Repr

namespace Run

/-! ## Binding -/

/-- Renames a type. -/
def applyType (r : Run) (ty : TypeId) (t : TypeSymbol) : Run :=
  let (name, engine) := r.engine.fullName r.program ty t
  let program :=
    if name != t.fullName && !Ident.hasDigit name then r.program.withTypeAlias ty name
    else r.program
  { engine, program }

/-- Binds the alias of a field of `owner`. -/
def applyField (owner : TypeSymbol) (r : Run) (entry : FieldId × FieldSymbol) : Run :=
  let (id, f) := entry
  match r.engine.fields.get? id with
  | none => r
  | some newName =>
    if newName.isEmpty then r
    else
      let (newName, e) :=
        r.engine.usableOr (f.identity owner.fullName) newName (Engine.draw f.scope)
      { engine := { e with fields := e.fields.insert id newName }
        program := r.program.withFieldAlias id newName }

/-- Binds the alias of a method of `owner`. A preset that was replaced is none any more. -/
def applyMethod (owner : TypeSymbol) (r : Run) (entry : MethodId × MethodSymbol) : Run :=
  let (id, m) := entry
  match r.engine.methods.get? id with
  | none => r
  | some newName =>
    if newName.isEmpty then r
    else
      let (usable, e) :=
        r.engine.usableOr (m.identity owner.fullName) newName (Engine.drawAs m.scope m.keyAs)
      let program := if usable != newName then r.program.withPresetMark id false else r.program
      { engine := { e with methods := e.methods.insert id usable }
        program := program.withMethodAlias id usable }

/-- Binds the aliases of a type and its members. -/
def applyEntry (r : Run) (entry : TypeId × TypeSymbol) : Run :=
  let (ty, t) := entry
  let r := r.applyType ty t
  let r := (r.program.fieldsOf ty).foldl (applyField t) r
  (r.program.methodsOf ty).foldl (applyMethod t) r

/-- Binds all aliases. -/
def apply (r : Run) : Run := r.program.types.entries.foldl applyEntry r

/-! ## Counting -/

/-- Binding the type `t` renames it. -/
def renamesType (r : Run) (ty : TypeId) (t : TypeSymbol) : Bool :=
  let name := (r.engine.fullName r.program ty t).1
  name != t.fullName && !Ident.hasDigit name

/-- A member with this alias gets one bound. -/
def bindsMember (newName : Option String) : Bool := newName.any fun name => !name.isEmpty

/-- Binds the alias of a type and counts it. -/
def countType (s : Tally × Run) (entry : TypeId × TypeSymbol) : Tally × Run :=
  let (n, r) := s
  (if r.renamesType entry.1 entry.2 then { n with types := n.types + 1 } else n,
    r.applyType entry.1 entry.2)

/-- Binds the alias of a field and counts it. -/
def countField (owner : TypeSymbol) (s : Tally × Run) (entry : FieldId × FieldSymbol) :
    Tally × Run :=
  let (n, r) := s
  (if bindsMember (r.engine.fields.get? entry.1) then { n with fields := n.fields + 1 } else n,
    applyField owner r entry)

/-- Binds the alias of a method and counts it. -/
def countMethod (owner : TypeSymbol) (s : Tally × Run) (entry : MethodId × MethodSymbol) :
    Tally × Run :=
  let (n, r) := s
  (if bindsMember (r.engine.methods.get? entry.1) then { n with methods := n.methods + 1 } else n,
    applyMethod owner r entry)

/-- Binds the aliases of a type and its members and counts them. -/
def countEntry (s : Tally × Run) (entry : TypeId × TypeSymbol) : Tally × Run :=
  let s := countType s entry
  let s := (s.2.program.fieldsOf entry.1).foldl (countField entry.2) s
  (s.2.program.methodsOf entry.1).foldl (countMethod entry.2) s

/-- Binds all aliases and counts them. -/
def applyCounted (r : Run) : Tally × Run := r.program.types.entries.foldl countEntry ({}, r)

/-- Counting does not change what is bound. -/
theorem snd_applyCounted (r : Run) : r.applyCounted.2 = r.apply := by
  have hfields : ∀ owner (s : Tally × Run) (l : List (FieldId × FieldSymbol)),
      (l.foldl (countField owner) s).2 = l.foldl (applyField owner) s.2 := fun owner s l =>
    (List.foldl_hom Prod.snd fun _ _ => rfl).symm
  have hmethods : ∀ owner (s : Tally × Run) (l : List (MethodId × MethodSymbol)),
      (l.foldl (countMethod owner) s).2 = l.foldl (applyMethod owner) s.2 := fun owner s l =>
    (List.foldl_hom Prod.snd fun _ _ => rfl).symm
  have hentry : ∀ (s : Tally × Run) entry, applyEntry s.2 entry = (countEntry s entry).2 := by
    intro s entry
    rw [countEntry, applyEntry, hmethods, hfields]
    rfl
  exact (List.foldl_hom Prod.snd hentry).symm

end Run
end Renamer
