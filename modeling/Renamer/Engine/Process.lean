import Renamer.Engine.Apply
import Renamer.Engine.Discover
import Renamer.Override.Unify

/-!
# Runs

A run clears the aliases of an earlier one, decides aliases, binds them, and gives every override
group a single alias. It answers a report.

What it decided can be exported as presets: a later run that loads them decides alike.
-/

namespace Renamer

/-- Counts and findings of a run. -/
structure Report where
  /-- Types that got a new full name. -/
  typesRenamed : Nat
  /-- Fields that got an alias. -/
  fieldsRenamed : Nat
  /-- Methods that got an alias before groups were unified. -/
  methodsRenamed : Nat
  /-- Override groups. -/
  overrideGroups : Nat
  /-- Methods whose alias changed with that of their group. -/
  methodsUnified : Nat
  /-- What was found, in that order. -/
  diagnostics : Findings
  deriving DecidableEq, Repr

namespace Run

/-- Gives every override group a single alias. Answers how many methods have got another one. -/
def unify (r : Run) : Except OutOfRange (Nat × Run) := do
  let u ← Unification.unify
    { program := r.program
      aliases := r.engine.methods
      taken := r.engine.taken
      source := r.engine.source } r.engine.groups
  let engine := { r.engine with methods := u.aliases, taken := u.taken, source := u.source }
  return (u.changed, { engine, program := u.program })

end Run

namespace Engine

/-- Renames a program. Fails only where an override group kept from an earlier run has a method
that this program does not have. -/
def process (e : Engine) (p : Program) : Except OutOfRange (Report × Run) := do
  let (tally, applied) := (Run.discover { engine := e, program := p.clearAliases }).applyCounted
  let (changed, r) ← applied.unify
  return (
    { typesRenamed := tally.types
      fieldsRenamed := tally.fields
      methodsRenamed := tally.methods
      overrideGroups := applied.engine.groups.size
      methodsUnified := changed
      diagnostics := applied.engine.findings },
    { r with engine := { r.engine with findings := [] } })

/-- All aliases decided, as presets. Fails where the program lacks a symbol that an alias was
decided for. -/
def exportPresets (e : Engine) (p : Program) : Except OutOfRange Presets := do
  let types ← e.types.toList.mapM fun entry => do
    return ((← p.types.get entry.1).fullName, entry.2.newName)
  let fields ← e.fields.toList.mapM fun entry => do
    return (← p.fieldIdentity entry.1, entry.2)
  let methods ← e.methods.toList.mapM fun entry => do
    return (← p.methodIdentity entry.1, entry.2)
  return {
    packages := Table.ofList e.packages.aliased
    types := Table.ofList types
    fields := Table.ofList fields
    methods := Table.ofList methods }

end Engine
end Renamer
