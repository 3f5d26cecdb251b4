import Renamer.Diagnostic
import Renamer.Override.Groups
import Renamer.Package.Tree
import Renamer.Policy
import Renamer.Presets.Basic
import Renamer.Scope

/-!
# The state of the engine

An engine owns every table that a run needs. The tables stay after a run, to be asked and saved,
until the engine is reset.
-/

namespace Renamer

/-- The alias decided for a type. -/
structure TypeRecord where
  /-- The package that the type lives in. -/
  package : PackagePath
  /-- The short alias, without package and enclosing types. -/
  newName : String
  /-- The name without package, kept once it has been composed. -/
  chain : Option String := none
  /-- The full name, kept once it has been composed. -/
  fullName : Option String := none
  deriving DecidableEq, Repr

/-- A policy and the state of the run under it. -/
structure Engine where
  /-- Says what to rename. -/
  policy : Policy := {}
  /-- Where fresh names come from. -/
  source : NameSource := {}
  /-- The packages seen, with the aliases of their segments. -/
  packages : PackageTree := {}
  /-- The types that were given an alias. -/
  types : Table TypeId TypeRecord := {}
  /-- The fields that were given an alias. -/
  fields : Table FieldId String := {}
  /-- The methods that were given an alias. -/
  methods : Table MethodId String := {}
  /-- The presets of types and members; those of packages go straight into the tree. -/
  presets : Presets := {}
  /-- The names in use. -/
  taken : TakenNames := {}
  /-- The methods that override one another. -/
  groups : OverrideGroups := {}
  /-- What the run found. -/
  findings : Findings := []
  /-- All aliases have been decided, so that composed names may be kept. -/
  discovered : Bool := false

/-- What a run works on. -/
structure Run where
  /-- Decides. -/
  engine : Engine
  /-- Is renamed. -/
  program : Program

namespace Engine

/-- Drops all state of runs, piece by piece. -/
def reset (e : Engine) : Engine :=
  { e with
    source := e.source.reset
    packages := e.packages.clear
    types := e.types.clear
    fields := e.fields.clear
    methods := e.methods.clear
    presets := e.presets.clear
    taken := e.taken.clear
    groups := e.groups.clear
    findings := e.findings.clear
    discovered := false }

/-- Nothing but the policy is left of an engine that is reset: it is as it was before its first
run. -/
theorem reset_eq (e : Engine) : e.reset = { policy := e.policy } := rfl

/-- Whether a bare name must be replaced. -/
def rejects (e : Engine) (name : String) : Bool := e.policy.rejects name

/-- Notes findings. -/
def report (e : Engine) (found : Findings) : Engine := { e with findings := e.findings ++ found }

/-! ## Names -/

/-- Takes a name in a scope. -/
def claim (e : Engine) (scope : Scope) (name : String) : Engine :=
  { e with taken := e.taken.claim scope name }

/-- Takes in a scope the first fresh name that is free there in the form `form` gives it. -/
def drawAs (scope : Scope) (form : String → String) (e : Engine) : String × Engine :=
  let (name, taken, source) := e.taken.drawAs scope form e.source
  (name, { e with taken, source })

/-- Takes in a scope the first fresh name that is free there. -/
def draw (scope : Scope) (e : Engine) : String × Engine := drawAs scope id e

/-- `newName` if it can be written as it is, else what `fresh` draws, with a note of that. -/
def usableOr (e : Engine) (identity newName : String) (fresh : Engine → String × Engine) :
    String × Engine :=
  if e.policy.accepts newName then (newName, e)
  else
    let (replacement, e) := fresh e
    (replacement, e.report [.unusableAlias identity newName replacement])

/-! ## Queries -/

/-- The short alias decided for a type. -/
def typeAlias (e : Engine) (ty : TypeId) : Option String := (e.types.get? ty).map (·.newName)

/-- The alias decided for a field. -/
def fieldAlias (e : Engine) (id : FieldId) : Option String := e.fields.get? id

/-- The alias decided for a method. -/
def methodAlias (e : Engine) (id : MethodId) : Option String := e.methods.get? id

/-- The path that a package is emitted under, if the package was seen. -/
def packageAlias (e : Engine) (text : String) : Option String :=
  (e.packages.lookup text).map fun _ => e.packages.fullAlias (PackagePath.ofText text)

end Engine
end Renamer
