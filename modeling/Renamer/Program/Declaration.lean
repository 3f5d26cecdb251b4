import Renamer.Text.Split

/-!
# Declarations

A declaration describes a type that is to be added to a program. References to other types are
by declared full name, and need not name a type of the program.
-/

namespace Renamer

/-- Between the segments of a package, and between a package and a type. -/
def packageSeparator : String := "."

/-- Between an enclosing type and a type nested in it. -/
def nestedSeparator : String := "$"

/-- A type as its declaration describes it. -/
structure Declaration where
  /-- The dotted path of the package, empty for the default package. -/
  package : String := ""
  /-- The name without package and enclosing types. -/
  shortName : String := ""
  /-- The super type. -/
  superType : Option String := none
  /-- The interfaces, in declaration order. -/
  interfaces : List String := []
  /-- The source file that the compiler recorded. -/
  sourceFile : Option String := none
  deriving DecidableEq, Repr, Inhabited

/-- The declaration of a top-level type: all before the last dot of the full name is the
package. -/
def Declaration.ofFullName (fullName : String) : Declaration :=
  match Text.splitLast '.' fullName.toList with
  | some (package, shortName) =>
    { package := String.ofList package, shortName := String.ofList shortName }
  | none => { shortName := fullName }

end Renamer
