import Renamer.Program.Symbol

/-!
# Programs

A program is three arenas: types, fields and methods.

* *Construction* adds types and members. A member is listed under a type because it names that
  type as its owner, so a member list is nothing that could get out of step.
* *Lookup* is by declared full name. Of several types with one name the newest is meant.
* *Aliases* are written back onto the symbols. All else stays as it was declared, except that a
  recorded source file is used up when a type is named after it.
-/

namespace Renamer

/-- The declarations of the program under analysis. -/
structure Program where
  /-- Classes and interfaces. -/
  types : Arena .type TypeSymbol := {}
  /-- Fields of all types. -/
  fields : Arena .field FieldSymbol := {}
  /-- Methods of all types. -/
  methods : Arena .method MethodSymbol := {}
  deriving DecidableEq, Repr, Inhabited

namespace Program

/-! ## Construction -/

/-- Adds a type. -/
def pushType (p : Program) (t : TypeSymbol) : TypeId × Program :=
  (p.types.nextSlot, { p with types := p.types.push t })

/-- Adds a top-level type. -/
def addType (p : Program) (d : Declaration) : TypeId × Program :=
  let fullName :=
    if d.package.isEmpty then d.shortName else d.package ++ packageSeparator ++ d.shortName
  p.pushType (.ofDeclaration d d.package fullName none)

/-- Adds a type nested in `outer`. It lives in the package of `outer`, whatever `d` says. -/
def addNestedType (p : Program) (outer : TypeId) (d : Declaration) :
    Except OutOfRange (TypeId × Program) := do
  let around ← p.types.get outer
  let fullName := around.fullName ++ nestedSeparator ++ d.shortName
  return p.pushType (.ofDeclaration d around.package fullName (some outer))

/-- Adds a field to the type `owner`. -/
def addField (p : Program) (owner : TypeId) (name descriptor : String) :
    Except OutOfRange (FieldId × Program) := do
  let _ ← p.types.get owner
  return (p.fields.nextSlot, { p with fields := p.fields.push { owner, name, descriptor } })

/-- Adds a method to the type `owner`. -/
def addMethod (p : Program) (owner : TypeId) (name : String) (params : List String)
    (returnType : String) (isVirtual : Bool) : Except OutOfRange (MethodId × Program) := do
  let _ ← p.types.get owner
  return (p.methods.nextSlot,
    { p with methods := p.methods.push { owner, name, params, returnType, isVirtual } })

/-- Changes a type that the program must have. -/
def updateType (p : Program) (ty : TypeId) (f : TypeSymbol → TypeSymbol) :
    Except OutOfRange Program := do
  return { p with types := ← p.types.update ty f }

/-- Makes `name` the super type of `ty`. -/
def setSuperType (p : Program) (ty : TypeId) (name : String) : Except OutOfRange Program :=
  p.updateType ty fun t => { t with superType := some name }

/-- Adds `name` to the interfaces of `ty`. -/
def addInterface (p : Program) (ty : TypeId) (name : String) : Except OutOfRange Program :=
  p.updateType ty fun t => { t with interfaces := t.interfaces ++ [name] }

/-- Records the source file of `ty`. -/
def setSourceFile (p : Program) (ty : TypeId) (file : String) : Except OutOfRange Program :=
  p.updateType ty fun t => { t with sourceFile := some file }

/-! ## Lookup -/

/-- The newest type with this declared full name. -/
def typeNamed (p : Program) (fullName : String) : Option (TypeId × TypeSymbol) :=
  p.types.entries.reverse.find? fun e => e.2.fullName == fullName

/-- The slot of the newest type with this declared full name. -/
def lookup (p : Program) (fullName : String) : Option TypeId :=
  (p.typeNamed fullName).map Prod.fst

/-- The fields that `ty` declares, in declaration order. -/
def fieldsOf (p : Program) (ty : TypeId) : List (FieldId × FieldSymbol) :=
  p.fields.entries.filter fun e => e.2.owner == ty

/-- The methods that `ty` declares, in declaration order. -/
def methodsOf (p : Program) (ty : TypeId) : List (MethodId × MethodSymbol) :=
  p.methods.entries.filter fun e => e.2.owner == ty

/-- The super type and the interfaces of a type, so far as the program has them. -/
def parents (p : Program) (t : TypeSymbol) : List (TypeId × TypeSymbol) :=
  t.references.filterMap p.typeNamed

/-- `ty` and at most `depth` types around it, innermost first. -/
def lineageWithin (p : Program) : Nat → TypeId → List (TypeId × TypeSymbol)
  | 0, ty => (p.types.get? ty).toList.map fun t => (ty, t)
  | depth + 1, ty =>
    match p.types.get? ty with
    | none => []
    | some t =>
      (ty, t) ::
        match t.enclosing with
        | some outer => p.lineageWithin depth outer
        | none => []

/-- `ty` and the types around it, innermost first. An enclosing type is older than the types in
it, so no more than `ty.index` types stand around `ty`. -/
def lineage (p : Program) (ty : TypeId) : List (TypeId × TypeSymbol) :=
  p.lineageWithin ty.index ty

/-- The identity of a field. -/
def fieldIdentity (p : Program) (id : FieldId) : Except OutOfRange String := do
  let field ← p.fields.get id
  return field.identity (← p.types.get field.owner).fullName

/-- The identity of a method. -/
def methodIdentity (p : Program) (id : MethodId) : Except OutOfRange String := do
  let method ← p.methods.get id
  return method.identity (← p.types.get method.owner).fullName

/-! ## Aliases

Each change comes twice: on symbols at hand, where it cannot fail, and by a slot that the program
must have.
-/

/-- The program in which a type has a new full name. -/
def withTypeAlias (p : Program) (ty : TypeId) (fullName : String) : Program :=
  { p with types := p.types.modify ty fun t => { t with newName := some fullName } }

/-- The program in which a field has a new name. -/
def withFieldAlias (p : Program) (id : FieldId) (name : String) : Program :=
  { p with fields := p.fields.modify id fun f => { f with newName := some name } }

/-- The program in which a method has a new name and counts as renamed. -/
def withMethodAlias (p : Program) (id : MethodId) (name : String) : Program :=
  { p with methods := p.methods.modify id fun m =>
      { m with newName := some name, renamed := true } }

/-- The program in which a method carries the note whether its alias comes from a preset. -/
def withPresetMark (p : Program) (id : MethodId) (fromPreset : Bool) : Program :=
  { p with methods := p.methods.modify id fun m => { m with fromPreset } }

/-- The program in which the recorded source file of a type is used up. -/
def withoutSourceFile (p : Program) (ty : TypeId) : Program :=
  { p with types := p.types.modify ty fun t => { t with sourceFile := none } }

/-- Gives a type a new full name. -/
def renameType (p : Program) (ty : TypeId) (fullName : String) : Except OutOfRange Program := do
  let _ ← p.types.get ty
  return p.withTypeAlias ty fullName

/-- Gives a field a new name. -/
def renameField (p : Program) (id : FieldId) (name : String) : Except OutOfRange Program := do
  let _ ← p.fields.get id
  return p.withFieldAlias id name

/-- Gives a method a new name. -/
def renameMethod (p : Program) (id : MethodId) (name : String) : Except OutOfRange Program := do
  let _ ← p.methods.get id
  return p.withMethodAlias id name

/-- Notes whether the alias of a method comes from a preset. -/
def markPreset (p : Program) (id : MethodId) (fromPreset : Bool) : Except OutOfRange Program := do
  let _ ← p.methods.get id
  return p.withPresetMark id fromPreset

/-- Takes the recorded source file of a type, which is then used up. -/
def takeSourceFile (p : Program) (ty : TypeId) : Except OutOfRange (Option String × Program) := do
  let t ← p.types.get ty
  return (t.sourceFile, p.withoutSourceFile ty)

/-- The program without aliases and flags; source files that were used up stay so. -/
def clearAliases (p : Program) : Program where
  types := p.types.map fun t => { t with newName := none }
  fields := p.fields.map fun f => { f with newName := none }
  methods := p.methods.map fun m =>
    { m with newName := none, fromPreset := false, renamed := false }

end Program
end Renamer
