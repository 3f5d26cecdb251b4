import Renamer.Arena
import Renamer.Program.Declaration

/-!
# Symbols

The types, fields and methods of a program. Each has its declared names, which never change, and
an alias that a run may bind to it. A member knows the type that declares it, and a nested type
the type around it.

The *override key* of a method is its name with its parameter types, as in `run(IJ)`: two methods
must share it to override one another, and two overloads never do.
-/

namespace Renamer

/-- A class or interface. -/
structure TypeSymbol where
  /-- The dotted path of the package, empty for the default package. -/
  package : String
  /-- The name without package and enclosing types. -/
  shortName : String
  /-- The declared full name, by which other types refer to this one. -/
  fullName : String
  /-- The type that a nested type stands in. -/
  enclosing : Option TypeId := none
  /-- The full name of the super type. -/
  superType : Option String := none
  /-- The full names of the interfaces, in declaration order. -/
  interfaces : List String := []
  /-- The source file that the compiler recorded; it is used up by naming the type after it. -/
  sourceFile : Option String := none
  /-- The full name that the type was given. -/
  newName : Option String := none
  deriving DecidableEq, Repr, Inhabited

/-- A field. -/
structure FieldSymbol where
  /-- The declaring type. -/
  owner : TypeId
  /-- The declared name. -/
  name : String
  /-- The descriptor of its type. -/
  descriptor : String
  /-- The name that the field was given. -/
  newName : Option String := none
  deriving DecidableEq, Repr

/-- A method. -/
structure MethodSymbol where
  /-- The declaring type. -/
  owner : TypeId
  /-- The declared name. -/
  name : String
  /-- The descriptors of its parameter types, in order. -/
  params : List String
  /-- The descriptor of its result type. -/
  returnType : String
  /-- Neither static nor private nor a constructor. -/
  isVirtual : Bool
  /-- The name that the method was given. -/
  newName : Option String := none
  /-- The alias was taken from a preset. -/
  fromPreset : Bool := false
  /-- An alias was bound to the method. -/
  renamed : Bool := false
  deriving DecidableEq, Repr

namespace TypeSymbol

/-- The type that `d` declares, in the package and under the full name given. -/
def ofDeclaration (d : Declaration) (package fullName : String) (enclosing : Option TypeId) :
    TypeSymbol where
  package := package
  shortName := d.shortName
  fullName := fullName
  enclosing := enclosing
  superType := d.superType
  interfaces := d.interfaces
  sourceFile := d.sourceFile

/-- The alias if there is one, else the declared full name. -/
def displayName (t : TypeSymbol) : String := t.newName.getD t.fullName

/-- The type stands in another one. -/
def isNested (t : TypeSymbol) : Bool := t.enclosing.isSome

/-- All that the type refers to: the super type, then the interfaces. -/
def references (t : TypeSymbol) : List String := t.superType.toList ++ t.interfaces

end TypeSymbol

namespace FieldSymbol

/-- The alias if there is one, else the declared name. -/
def finalName (f : FieldSymbol) : String := f.newName.getD f.name

/-- Identifies the field in a program, as in `a.B.x:I`. -/
def identity (f : FieldSymbol) (ownerName : String) : String :=
  ownerName ++ "." ++ f.name ++ ":" ++ f.descriptor

end FieldSymbol

namespace MethodSymbol

/-- The parameter types in parentheses. -/
def paramText (m : MethodSymbol) : String := "(" ++ String.join m.params ++ ")"

/-- The override key that the method has under the name `name`. -/
def keyAs (m : MethodSymbol) (name : String) : String := name ++ m.paramText

/-- The override key. -/
def key (m : MethodSymbol) : String := m.keyAs m.name

/-- The parameter types and the result type, as in `(IJ)V`. -/
def descriptor (m : MethodSymbol) : String := m.paramText ++ m.returnType

/-- The alias if there is one, else the declared name. -/
def finalName (m : MethodSymbol) : String := m.newName.getD m.name

/-- Identifies the method in a program, as in `a.B.run(IJ)V`. -/
def identity (m : MethodSymbol) (ownerName : String) : String :=
  ownerName ++ "." ++ m.name ++ m.descriptor

end MethodSymbol
end Renamer
