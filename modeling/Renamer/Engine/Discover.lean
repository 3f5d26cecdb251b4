import Renamer.Engine.State
import Renamer.Override.Walk

/-!
# Deciding aliases

The first pass of a run goes through the program, type by type, and decides an alias for every
package, type, field and method that needs one: the preset if there is one, else a fresh name if
the policy rejects the declared one. Along the way it collects the methods that override one
another.

Before the first decision all declared names are taken and all packages are known.
-/

namespace Renamer

/-! ## Package presets -/

namespace Engine

/-- Puts a package preset into the tree; an alias that cannot be used is replaced. -/
def loadPackage (e : Engine) (entry : String × String) : Engine :=
  let path := PackagePath.ofText entry.1
  let e := { e with packages := e.packages.create path }
  let (newName, e) := e.usableOr entry.1 entry.2 fun e =>
    let (name, source) := e.packages.freshSegment path e.source
    (name, { e with source })
  { e with packages := e.packages.assign path newName }

/-- Takes over presets for the next run. -/
def loadPresets (e : Engine) (presets : Presets) : Engine :=
  let e := presets.packages.toList.foldl loadPackage e
  { e with presets := { presets with packages := {} } }

/-- Takes every declared name, and creates every package, of a program. -/
def seed (e : Engine) (p : Program) : Engine :=
  { e with
    taken := e.taken.seed p
    packages := p.types.toList.foldl
      (fun t s => t.create (PackagePath.ofText s.package)) e.packages }

/-! ## Packages and types -/

/-- Decides the package of a type. -/
def decidePackage (e : Engine) (t : TypeSymbol) : Engine :=
  let path := PackagePath.ofText t.package
  let (packages, source) := (e.packages.create path).decide path e.rejects e.source
  { e with packages, source }

/-- Records the alias of a type. -/
def recordType (e : Engine) (ty : TypeId) (t : TypeSymbol) (newName : String) : Engine :=
  let r : TypeRecord := { package := PackagePath.ofText t.package, newName }
  { e with types := e.types.insert ty r }

/-- The endings of source files that are no part of a type's name. -/
def sourceEndings : List String := [".java", ".kt"]

/-- The name of a source file without its ending. -/
def sourceStem (file : String) : String :=
  match sourceEndings.findSome? fun ending => Text.stripSuffix ending.toList file.toList with
  | some stem => String.ofList stem
  | none => file

/-- The name that the recorded source file gives a type: only a top-level type takes it, and only
a good name that is free in its package. -/
def sourceAlias? (e : Engine) (t : TypeSymbol) : Option String := do
  let stem := sourceStem (← t.sourceFile)
  if !t.isNested && e.policy.classifier.valid stem && !e.policy.classifier.reserved stem &&
      !e.rejects stem && !Ident.hasDigit stem && e.taken.isFree t.scope stem then
    some stem
  else none

end Engine

namespace Run

/-- Decides a type that has no preset: the name of its source file if that may be used, which
uses up the record of it, else a fresh name. -/
def nameType (r : Run) (ty : TypeId) (t : TypeSymbol) : Run :=
  match if r.engine.policy.settings.useSourceNames then r.engine.sourceAlias? t else none with
  | some newName =>
    { engine := (r.engine.claim t.scope newName).recordType ty t newName
      program := r.program.withoutSourceFile ty }
  | none =>
    let (newName, engine) := Engine.draw t.scope r.engine
    { r with engine := engine.recordType ty t newName }

/-- Decides a type: by its preset, or else, unless that was done before, where the policy rejects
its short name. -/
def decideType (r : Run) (ty : TypeId) (t : TypeSymbol) : Run :=
  match r.engine.presets.types.get? t.fullName with
  | some preset =>
    let (newName, engine) := r.engine.usableOr t.fullName preset (Engine.draw t.scope)
    { r with engine := (engine.claim t.scope newName).recordType ty t newName }
  | none =>
    if r.engine.types.contains ty || !r.engine.rejects t.shortName then r else r.nameType ty t

/-! ## Members -/

/-- Decides a field of `owner`, unless that was done before. -/
def decideField (owner : TypeSymbol) (r : Run) (entry : FieldId × FieldSymbol) : Run :=
  let (id, f) := entry
  let e := r.engine
  if e.fields.contains id then r
  else match e.presets.fields.get? (f.identity owner.fullName) with
    | some preset =>
      let e := e.claim f.scope preset
      { r with engine := { e with fields := e.fields.insert id preset } }
    | none =>
      if e.rejects f.name then
        let (newName, e) := Engine.draw f.scope e
        { r with engine := { e with fields := e.fields.insert id newName } }
      else r

/-- Decides a method of `owner`, unless that was done before. -/
def decideMethod (owner : TypeSymbol) (r : Run) (entry : MethodId × MethodSymbol) : Run :=
  let (id, m) := entry
  let e := r.engine
  if e.methods.contains id then r
  else match e.presets.methods.get? (m.identity owner.fullName) with
    | some preset =>
      let e := e.claim m.scope (m.keyAs preset)
      { engine := { e with methods := e.methods.insert id preset }
        program := r.program.withPresetMark id true }
    | none =>
      if e.rejects m.name then
        let (newName, e) := Engine.drawAs m.scope m.keyAs e
        { r with engine := { e with methods := e.methods.insert id newName } }
      else r

/-- Puts a virtual method of the type `t` in slot `ty` into one group with those it overrides. -/
def linkMethod (ty : TypeId) (t : TypeSymbol) (r : Run) (m : MethodSymbol) : Run :=
  if m.isVirtual then
    let (found, diamonds) := r.program.overriddenFrom ty t m.key
    let e := r.engine.report diamonds
    { r with engine := { e with groups := (e.groups.merge found).2 } }
  else r

/-- Decides a method and links it. -/
def discoverMethod (ty : TypeId) (t : TypeSymbol) (r : Run) (entry : MethodId × MethodSymbol) :
    Run :=
  (r.decideMethod t entry).linkMethod ty t entry.2

/-! ## The pass -/

/-- Decides a type with its package, its fields and its methods. -/
def discoverType (r : Run) (entry : TypeId × TypeSymbol) : Run :=
  let (ty, t) := entry
  let r := { r with engine := r.engine.decidePackage t }
  let r := r.decideType ty t
  let r := (r.program.fieldsOf ty).foldl (decideField t) r
  (r.program.methodsOf ty).foldl (discoverMethod ty t) r

/-- Decides everything. -/
def discover (r : Run) : Run :=
  let r := { r with engine := r.engine.seed r.program }
  let r := r.program.types.entries.foldl discoverType r
  { r with engine := { r.engine with discovered := true } }

end Run
end Renamer
