import Renamer.Engine.Process
import Renamer.Proofs.MemberLists
import Renamer.Proofs.PointedPaths
import Renamer.Proofs.Pointers
import Renamer.Proofs.Queries

/-!
# Runs with pointers

What a run comes to, it comes to by slots that were stored before: the members that a type lists,
the type that the index of names notes, the type around a type and the owner of a member, the
packages above and below a package, the package noted with the alias of a type, the group that a
method points to and the methods that are in it. The run here goes by these notes, on a
`ListedProgram`, with `PointedPackages` and `PointedGroups`. It looks every slot up in its arena,
and fails where the arena does not have it.

The operations have the names of those that they stand for.
-/

namespace Renamer

/-! ## Programs -/

/-- All slots in order. -/
def Arena.slots {k : Kind} {α : Type} (a : Arena k α) : List (Slot k) :=
  (List.range a.size).map Slot.mk

namespace ListedProgram

/-- The identity of a field. -/
def fieldIdentity (q : ListedProgram) (id : FieldId) : Except OutOfRange String := do
  let field ← q.fields.get id
  return field.identity (← q.types.get field.owner).symbol.fullName

/-- The identity of a method. -/
def methodIdentity (q : ListedProgram) (id : MethodId) : Except OutOfRange String := do
  let method ← q.methods.get id
  return method.identity (← q.types.get method.owner).symbol.fullName

/-- Takes the names that a type and the members it lists are declared under. -/
def seedType (q : ListedProgram) (taken : TakenNames) (ty : TypeId) :
    Except OutOfRange TakenNames := do
  let t ← q.types.get ty
  let fields ← t.fields.mapM q.fields.get
  let methods ← t.methods.mapM q.methods.get
  let taken := taken.claim t.symbol.scope t.symbol.shortName
  let taken := fields.foldl (fun taken f => taken.claim (.fields ty) f.name) taken
  return methods.foldl (fun taken m => taken.claim (.methods ty) m.key) taken

/-- The virtual methods with override key `key` that a type lists. -/
def virtualMethods (q : ListedProgram) (t : ListedType) (key : String) :
    Except OutOfRange (List MethodId) := do
  let own ← t.methods.mapM fun id => do return (id, ← q.methods.get id)
  return (own.filter fun e => e.2.isVirtual && e.2.key == key).map Prod.fst

/-- Visits a type and what is above it, to no more than `depth` types above one another. -/
def visit (q : ListedProgram) (key : String) :
    Nat → TypeId → OverrideWalk → Except OutOfRange (Option TypeId × OverrideWalk)
  | 0, _, w => return (none, w)
  | depth + 1, ty, w =>
    match w.origins.get? ty with
    | some known => return (known, w)
    | none => do
      let t ← q.types.get ty
      let own ← q.virtualMethods t key
      let w := { w with origins := w.origins.insert ty none, found := w.found ++ own }
      let (origin, w) ← (t.symbol.references.filterMap q.lookup).foldlM
        (fun s parent => do
          let (inherited, w) ← visit q key depth parent s.2
          return OverrideWalk.join ty s.1 inherited w)
        (if own.isEmpty then none else some ty, w)
      return (origin, { w with origins := w.origins.insert ty origin })

/-- The methods that share the override key `key` with those of `ty`, and the diamonds met. -/
def overriddenFrom (q : ListedProgram) (ty : TypeId) (key : String) :
    Except OutOfRange (List MethodId × Findings) := do
  let (_, w) ← q.visit key (q.types.size + 1) ty {}
  let diamonds ← w.diamonds.mapM fun d => do
    let first ← q.types.get d.1
    let second ← q.types.get d.2
    let root ← q.types.get ty
    return .diamondOverride key first.symbol.fullName second.symbol.fullName root.symbol.fullName
  return (w.found, diamonds)

end ListedProgram

/-! ## Packages and groups -/

namespace PointedPackages

/-- The unnamed package alone, without an alias. -/
def clear (_ : PointedPackages) : PointedPackages := {}

/-- The dotted path and the alias of the package in slot `id`, if it has one. -/
def aliasedAt (q : PointedPackages) (id : PackageId) :
    Except OutOfRange (Option (String × String)) := do
  match (← q.nodes.get id).newName with
  | some newName => return some (← q.fullPath id, newName)
  | none => return none

/-- The dotted path and the alias of every package that has one, in the order of creation. -/
def aliased (q : PointedPackages) : Except OutOfRange (List (String × String)) := do
  return (← q.nodes.slots.mapM q.aliasedAt).filterMap id

end PointedPackages

namespace PointedGroups

/-- Drops all groups. -/
def clear (q : PointedGroups) : PointedGroups where
  slots := q.slots.clear
  pointers := q.pointers.clear

/-- The groups that have members, in the order of their creation. -/
def live (q : PointedGroups) : List (GroupId × List MethodId) :=
  q.slots.entries.filter fun e => !e.2.isEmpty

/-- `enter` for a group that must be there. -/
def enterAt (target : GroupId) (q : PointedGroups) (m : MethodId) :
    Except OutOfRange PointedGroups := do
  let slots ← q.slots.update target fun l => if l.contains m then l else l ++ [m]
  return { slots, pointers := q.pointers.insert m target }

/-- `empty` for groups that must be there. -/
def emptyAt (target : GroupId) (q : PointedGroups) (other : GroupId) :
    Except OutOfRange PointedGroups := do
  let members ← q.slots.get other
  let slots ← q.slots.update other fun _ => []
  members.foldlM (enterAt target) { q with slots }

/-- `seat` for a group that must be there. -/
def seatAt (target : GroupId) (q : PointedGroups) (m : MethodId) :
    Except OutOfRange PointedGroups :=
  if q.pointers.contains m then return q else q.enterAt target m

/-- `merge` where the groups that are pointed to must be there. -/
def mergeAt (q : PointedGroups) (found : List MethodId) :
    Except OutOfRange (Option GroupId × PointedGroups) :=
  let found := found.eraseDups
  if found.length < 2 then return (none, q)
  else do
    let touched := (found.filterMap q.pointers.get?).eraseDups
    let (target, q) := q.host touched
    let q ← touched.tail.foldlM (emptyAt target) q
    return (some target, ← found.foldlM (seatAt target) q)

end PointedGroups

/-! ## Engines -/

/-- The alias decided for a type, with the slot of its package. -/
structure PointedRecord where
  /-- The package that the type lives in. -/
  package : PackageId
  /-- The short alias, without package and enclosing types. -/
  newName : String
  /-- The name without package, kept once it has been composed. -/
  chain : Option String := none
  /-- The full name, kept once it has been composed. -/
  fullName : Option String := none

/-- An engine whose tables hold slots. -/
structure PointedEngine where
  /-- Says what to rename. -/
  policy : Policy := {}
  /-- Where fresh names come from. -/
  source : NameSource := {}
  /-- The packages seen, with the aliases of their segments. -/
  packages : PointedPackages := {}
  /-- The types that were given an alias. -/
  types : Table TypeId PointedRecord := {}
  /-- The fields that were given an alias. -/
  fields : Table FieldId String := {}
  /-- The methods that were given an alias. -/
  methods : Table MethodId String := {}
  /-- The presets of types and members; those of packages go straight to the packages. -/
  presets : Presets := {}
  /-- The names in use. -/
  taken : TakenNames := {}
  /-- The methods that override one another. -/
  groups : PointedGroups := {}
  /-- What the run found. -/
  findings : Findings := []
  /-- All aliases have been decided, so that composed names may be kept. -/
  discovered : Bool := false

/-- What a run with pointers works on. -/
structure PointedRun where
  /-- Decides. -/
  engine : PointedEngine
  /-- Is renamed. -/
  program : ListedProgram

namespace PointedEngine

/-- Drops all state of runs, piece by piece. -/
def reset (e : PointedEngine) : PointedEngine :=
  { e with
    source := e.source.reset
    packages := e.packages.clear
    types := e.types.clear
    fields := e.fields.clear
    methods := e.methods.clear
    presets := e.presets.clear
    taken := e.taken.clear
    groups := e.groups.clear
    findings := e.findings.clear
    discovered := false }

/-- Whether a bare name must be replaced. -/
def rejects (e : PointedEngine) (name : String) : Bool := e.policy.rejects name

/-- Notes findings. -/
def report (e : PointedEngine) (found : Findings) : PointedEngine :=
  { e with findings := e.findings ++ found }

/-! ### Names -/

/-- Takes a name in a scope. -/
def claim (e : PointedEngine) (scope : Scope) (name : String) : PointedEngine :=
  { e with taken := e.taken.claim scope name }

/-- Takes in a scope the first fresh name that is free there in the form `form` gives it. -/
def drawAs (scope : Scope) (form : String → String) (e : PointedEngine) : String × PointedEngine :=
  let (name, taken, source) := e.taken.drawAs scope form e.source
  (name, { e with taken, source })

/-- Takes in a scope the first fresh name that is free there. -/
def draw (scope : Scope) (e : PointedEngine) : String × PointedEngine := drawAs scope id e

/-- `newName` if it can be written as it is, else what `fresh` draws, with a note of that. -/
def usableOr (e : PointedEngine) (identity newName : String)
    (fresh : PointedEngine → Except OutOfRange (String × PointedEngine)) :
    Except OutOfRange (String × PointedEngine) :=
  if e.policy.accepts newName then return (newName, e)
  else do
    let (replacement, e) ← fresh e
    return (replacement, e.report [.unusableAlias identity newName replacement])

/-- Draws a name for the segment of the package in slot `id`. -/
def freshSegment (id : PackageId) (e : PointedEngine) :
    Except OutOfRange (String × PointedEngine) := do
  let (name, source) ← e.packages.freshSegment id e.source
  return (name, { e with source })

/-! ### Before the first decision -/

/-- Puts a package preset to the packages; an alias that cannot be used is replaced. -/
def loadPackage (e : PointedEngine) (entry : String × String) :
    Except OutOfRange PointedEngine := do
  let (id, packages) ← e.packages.getOrCreate entry.1
  let (newName, e) ← { e with packages }.usableOr entry.1 entry.2 (freshSegment id)
  return { e with packages := ← e.packages.assign id newName }

/-- Takes over presets for the next run. -/
def loadPresets (e : PointedEngine) (presets : Presets) : Except OutOfRange PointedEngine := do
  let e ← presets.packages.toList.foldlM loadPackage e
  return { e with presets := { presets with packages := {} } }

/-- Creates the package of a type. -/
def createPackage (q : ListedProgram) (packages : PointedPackages) (ty : TypeId) :
    Except OutOfRange PointedPackages := do
  return (← packages.getOrCreate (← q.types.get ty).symbol.package).2

/-- Takes every declared name, and creates every package, of a program. -/
def seed (e : PointedEngine) (q : ListedProgram) : Except OutOfRange PointedEngine := do
  let taken ← q.types.slots.foldlM q.seedType e.taken
  let packages ← q.types.slots.foldlM (createPackage q) e.packages
  return { e with taken, packages }

/-! ### Packages and types -/

/-- Decides the package at a dotted path, and answers its slot. -/
def decidePackage (e : PointedEngine) (text : String) :
    Except OutOfRange (PackageId × PointedEngine) := do
  let (id, packages) ← e.packages.getOrCreate text
  let (packages, source) ← packages.decide id e.rejects e.source
  return (id, { e with packages, source })

/-- Records the alias of a type that lives in the package in slot `package`. -/
def recordType (e : PointedEngine) (ty : TypeId) (package : PackageId) (newName : String) :
    PointedEngine :=
  { e with types := e.types.insert ty { package, newName } }

/-- The name that the recorded source file gives a type, as far as the policy and the names in use
let it. -/
def sourceAlias? (e : PointedEngine) (t : TypeSymbol) : Option String :=
  Engine.sourceAlias? { policy := e.policy, taken := e.taken } t

/-! ### Composing -/

/-- Changes the record of a type that has one, once all aliases have been decided. -/
def keep (e : PointedEngine) (ty : TypeId) (f : PointedRecord → PointedRecord) : PointedEngine :=
  if e.discovered then
    match e.types.get? ty with
    | some x => { e with types := e.types.insert ty (f x) }
    | none => e
  else e

/-- The name without package that was kept for a type. -/
def keptChain (e : PointedEngine) (ty : TypeId) : Option String :=
  (e.types.get? ty).bind fun x => x.chain

/-- The full name that was kept for a type. -/
def keptFullName (e : PointedEngine) (ty : TypeId) : Option String :=
  (e.types.get? ty).bind fun x => x.fullName

/-- The short alias decided for a type. -/
def typeAlias (e : PointedEngine) (ty : TypeId) : Option String :=
  (e.types.get? ty).map (·.newName)

/-- The last part of a type's name: its short alias, or else its short name. -/
def lastPart (e : PointedEngine) (ty : TypeId) (t : TypeSymbol) : String :=
  (e.typeAlias ty).getD t.shortName

/-- The path that a package is emitted under, if the package was seen. -/
def packageAlias (e : PointedEngine) (text : String) : Except OutOfRange (Option String) := do
  match ← e.packages.lookup text with
  | some id => return some (← e.packages.fullAlias id)
  | none => return none

/-- The path that a type's package is emitted under. -/
def packageName (e : PointedEngine) (ty : TypeId) (t : TypeSymbol) : Except OutOfRange String :=
  match e.types.get? ty with
  | some x => e.packages.fullAlias x.package
  | none => do return (← e.packageAlias t.package).getD t.package

/-- The name without package of a type that fewer than `depth` types stand around; it is an error
that more do. -/
def chainName (q : ListedProgram) :
    Nat → TypeId → PointedEngine → Except OutOfRange (String × PointedEngine)
  | 0, ty, _ => .error ⟨q.types.size, ty.index⟩
  | depth + 1, ty, e =>
    match e.keptChain ty with
    | some name => return (name, e)
    | none => do
      let t := (← q.types.get ty).symbol
      let own := e.lastPart ty t
      let (name, e) ← match t.enclosing with
        | none => pure (own, e)
        | some outer => do
          let (around, e) ← chainName q depth outer e
          pure (around ++ nestedSeparator ++ own, e)
      return (name, e.keep ty fun x => { x with chain := some name })

/-- The full name of a type. Types around it are older, so that they are not more than its own slot
counts. -/
def fullName (e : PointedEngine) (q : ListedProgram) (ty : TypeId) :
    Except OutOfRange (String × PointedEngine) :=
  match e.keptFullName ty with
  | some name => return (name, e)
  | none => do
    let package ← e.packageName ty (← q.types.get ty).symbol
    let (name, e) ← chainName q (ty.index + 1) ty e
    let full := if package.isEmpty then name else package ++ packageSeparator ++ name
    return (full, e.keep ty fun x => { x with fullName := some full })

end PointedEngine

/-! ## Deciding -/

namespace PointedRun

/-- Decides a type that has no preset. -/
def nameType (r : PointedRun) (ty : TypeId) (t : TypeSymbol) (package : PackageId) :
    Except OutOfRange PointedRun :=
  match if r.engine.policy.settings.useSourceNames then r.engine.sourceAlias? t else none with
  | some newName => do
    let program ← r.program.updateType ty fun t => { t with sourceFile := none }
    return { engine := (r.engine.claim t.scope newName).recordType ty package newName, program }
  | none =>
    let (newName, engine) := PointedEngine.draw t.scope r.engine
    return { r with engine := engine.recordType ty package newName }

/-- Decides a type that lives in the package in slot `package`. -/
def decideType (r : PointedRun) (ty : TypeId) (package : PackageId) :
    Except OutOfRange PointedRun := do
  let t := (← r.program.types.get ty).symbol
  match r.engine.presets.types.get? t.fullName with
  | some preset =>
    let (newName, engine) ← r.engine.usableOr t.fullName preset fun e =>
      return PointedEngine.draw t.scope e
    return { r with engine := (engine.claim t.scope newName).recordType ty package newName }
  | none =>
    if r.engine.types.contains ty || !r.engine.rejects t.shortName then return r
    else r.nameType ty t package

/-- Decides a field, unless that was done before. -/
def decideField (r : PointedRun) (id : FieldId) : Except OutOfRange PointedRun := do
  let e := r.engine
  if e.fields.contains id then return r
  else
    let identity ← r.program.fieldIdentity id
    let f ← r.program.fields.get id
    match e.presets.fields.get? identity with
    | some preset =>
      let e := e.claim f.scope preset
      return { r with engine := { e with fields := e.fields.insert id preset } }
    | none =>
      if e.rejects f.name then
        let (newName, e) := PointedEngine.draw f.scope e
        return { r with engine := { e with fields := e.fields.insert id newName } }
      else return r

/-- Decides a method, unless that was done before. -/
def decideMethod (r : PointedRun) (id : MethodId) : Except OutOfRange PointedRun := do
  let e := r.engine
  if e.methods.contains id then return r
  else
    let identity ← r.program.methodIdentity id
    let m ← r.program.methods.get id
    match e.presets.methods.get? identity with
    | some preset =>
      let e := e.claim m.scope (m.keyAs preset)
      let program ← r.program.updateMethod id fun m => { m with fromPreset := true }
      return { engine := { e with methods := e.methods.insert id preset }, program }
    | none =>
      if e.rejects m.name then
        let (newName, e) := PointedEngine.drawAs m.scope m.keyAs e
        return { r with engine := { e with methods := e.methods.insert id newName } }
      else return r

/-- Puts a virtual method of the type in slot `ty` into one group with those it overrides. -/
def linkMethod (ty : TypeId) (r : PointedRun) (id : MethodId) : Except OutOfRange PointedRun := do
  let m ← r.program.methods.get id
  if m.isVirtual then
    let (found, diamonds) ← r.program.overriddenFrom ty m.key
    let e := r.engine.report diamonds
    let (_, groups) ← e.groups.mergeAt found
    return { r with engine := { e with groups } }
  else return r

/-- Decides a method and links it. -/
def discoverMethod (ty : TypeId) (r : PointedRun) (id : MethodId) :
    Except OutOfRange PointedRun := do
  linkMethod ty (← r.decideMethod id) id

/-- Decides a type with its package, its fields and its methods. -/
def discoverType (r : PointedRun) (ty : TypeId) : Except OutOfRange PointedRun := do
  let t ← r.program.types.get ty
  let (package, engine) ← r.engine.decidePackage t.symbol.package
  let r ← decideType { r with engine } ty package
  let r ← (← r.program.types.get ty).fields.foldlM decideField r
  (← r.program.types.get ty).methods.foldlM (discoverMethod ty) r

/-- Decides everything. -/
def discover (r : PointedRun) : Except OutOfRange PointedRun := do
  let engine ← r.engine.seed r.program
  let r ← r.program.types.slots.foldlM discoverType { r with engine }
  return { r with engine := { r.engine with discovered := true } }

/-! ## Binding -/

/-- Binds the alias of a type and counts it. -/
def countType (s : Tally × PointedRun) (ty : TypeId) : Except OutOfRange (Tally × PointedRun) := do
  let (n, r) := s
  let (name, engine) ← r.engine.fullName r.program ty
  let t := (← r.program.types.get ty).symbol
  if name != t.fullName && !Ident.hasDigit name then
    let program ← r.program.updateType ty fun t => { t with newName := some name }
    return ({ n with types := n.types + 1 }, { engine, program })
  else return (n, { r with engine })

/-- Binds the alias of a field of the type in slot `ty` and counts it. -/
def countField (ty : TypeId) (s : Tally × PointedRun) (id : FieldId) :
    Except OutOfRange (Tally × PointedRun) := do
  let (n, r) := s
  match r.engine.fields.get? id with
  | none => return s
  | some newName =>
    if newName.isEmpty then return s
    else
      let identity ← r.program.fieldIdentity id
      let (newName, e) ← r.engine.usableOr identity newName fun e =>
        return PointedEngine.draw (.fields ty) e
      let program ← r.program.updateField id fun f => { f with newName := some newName }
      return ({ n with fields := n.fields + 1 },
        { engine := { e with fields := e.fields.insert id newName }, program })

/-- Binds the alias of a method and counts it. -/
def countMethod (s : Tally × PointedRun) (id : MethodId) :
    Except OutOfRange (Tally × PointedRun) := do
  let (n, r) := s
  match r.engine.methods.get? id with
  | none => return s
  | some newName =>
    if newName.isEmpty then return s
    else
      let identity ← r.program.methodIdentity id
      let m ← r.program.methods.get id
      let (usable, e) ← r.engine.usableOr identity newName fun e =>
        return PointedEngine.drawAs m.scope m.keyAs e
      let program ←
        if usable != newName then r.program.updateMethod id fun m => { m with fromPreset := false }
        else pure r.program
      let program ← program.updateMethod id fun m =>
        { m with newName := some usable, renamed := true }
      return ({ n with methods := n.methods + 1 },
        { engine := { e with methods := e.methods.insert id usable }, program })

/-- Binds the aliases of a type and its members and counts them. -/
def countEntry (s : Tally × PointedRun) (ty : TypeId) : Except OutOfRange (Tally × PointedRun) := do
  let s ← countType s ty
  let s ← (← s.2.program.types.get ty).fields.foldlM (countField ty) s
  (← s.2.program.types.get ty).methods.foldlM countMethod s

/-- Binds all aliases and counts them. -/
def applyCounted (r : PointedRun) : Except OutOfRange (Tally × PointedRun) :=
  r.program.types.slots.foldlM countEntry ({}, r)

/-! ## Unifying -/

/-- Gives a method the alias of its group, and counts it where it has another one. -/
def bindMember (name : String) (s : Nat × PointedRun) (id : MethodId) :
    Except OutOfRange (Nat × PointedRun) := do
  let (changed, r) := s
  let m ← r.program.methods.get id
  let engine := { r.engine with methods := r.engine.methods.insert id name }
  if m.newName = some name then return (changed, { r with engine })
  else
    let program ← r.program.updateMethod id fun m =>
      { m with newName := some name, renamed := true }
    return (changed + 1, { engine, program })

/-- Gives all of a group the alias chosen and fitted. -/
def unifyGroup (s : Nat × PointedRun) (members : List MethodId) :
    Except OutOfRange (Nat × PointedRun) := do
  let (changed, r) := s
  let symbols ← members.mapM r.program.methods.get
  match chosenAlias symbols with
  | none => return s
  | some chosen =>
    let (name, taken, source) := r.engine.taken.fitGroup symbols chosen r.engine.source
    members.foldlM (bindMember name)
      (changed, { r with engine := { r.engine with taken, source } })

/-- Gives every group a single alias, and counts the methods that get another one. -/
def unify (r : PointedRun) : Except OutOfRange (Nat × PointedRun) :=
  (r.engine.groups.live.map Prod.snd).foldlM unifyGroup (0, r)

end PointedRun

/-! ## The run -/

namespace PointedEngine

/-- Renames a program. -/
def process (e : PointedEngine) (q : ListedProgram) : Except OutOfRange (Report × PointedRun) := do
  let r ← PointedRun.discover { engine := e, program := q.clearAliases }
  let (tally, applied) ← r.applyCounted
  let (changed, r) ← applied.unify
  return (
    { typesRenamed := tally.types
      fieldsRenamed := tally.fields
      methodsRenamed := tally.methods
      overrideGroups := applied.engine.groups.live.length
      methodsUnified := changed
      diagnostics := applied.engine.findings },
    { r with engine := { r.engine with findings := [] } })

/-- All aliases decided, as presets. -/
def exportPresets (e : PointedEngine) (q : ListedProgram) : Except OutOfRange Presets := do
  let packages ← e.packages.aliased
  let types ← e.types.toList.mapM fun entry => do
    return ((← q.types.get entry.1).symbol.fullName, entry.2.newName)
  let fields ← e.fields.toList.mapM fun entry => do
    return (← q.fieldIdentity entry.1, entry.2)
  let methods ← e.methods.toList.mapM fun entry => do
    return (← q.methodIdentity entry.1, entry.2)
  return {
    packages := Table.ofList packages
    types := Table.ofList types
    fields := Table.ofList fields
    methods := Table.ofList methods }

/-- Answers a query. -/
def ask (q : ListedProgram) (e : PointedEngine) :
    Query → Except OutOfRange (Option String × PointedEngine)
  | .fullName ty => do
    let (name, e) ← e.fullName q ty
    return (some name, e)
  | .chainName ty => do
    let (name, e) ← chainName q (ty.index + 1) ty e
    return (some name, e)
  | .typeAlias ty => return (e.typeAlias ty, e)
  | .fieldAlias id => return (e.fields.get? id, e)
  | .methodAlias id => return (e.methods.get? id, e)
  | .packageAlias text => return (← e.packageAlias text, e)

end PointedEngine
end Renamer
