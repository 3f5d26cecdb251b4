import Renamer.Override.Groups
import Renamer.Scope
import Renamer.Table

/-!
# One alias for every group

After a run has bound aliases to methods, the members of an override group may carry different
ones. Each group is given a single alias, chosen from its members and fitted to all of them.
-/

namespace Renamer

/-! ## The choice -/

/-- The alias that a group goes by: that of the first member with a synthesised alias, else that
of the first member with a preset alias, else that of the first member. -/
def chosenAlias (group : List MethodSymbol) : Option String :=
  ((group.find? fun m => m.renamed && !m.fromPreset) <|>
    (group.find? fun m => m.fromPreset && m.newName.isSome) <|> group.head?).bind (·.newName)

/-! ## Unification -/

/-- What unification works on. -/
structure Unification where
  /-- Carries the aliases. -/
  program : Program
  /-- The alias of each method, kept in step with the program. -/
  aliases : Table MethodId String
  /-- The names in use. -/
  taken : TakenNames
  /-- Where a fresh name comes from. -/
  source : NameSource
  /-- How many methods have got another alias. -/
  changed : Nat := 0

namespace Unification

/-- Gives a method the alias of its group. -/
def bind (name : String) (u : Unification) (member : MethodId × MethodSymbol) : Unification :=
  let u := { u with aliases := u.aliases.insert member.1 name }
  if member.2.newName = some name then u
  else { u with program := u.program.withMethodAlias member.1 name, changed := u.changed + 1 }

/-- Gives all of a group the alias chosen and fitted; a group without aliases stays as it is. -/
def unifyGroup (u : Unification) (group : List (MethodId × MethodSymbol)) : Unification :=
  let symbols := group.map Prod.snd
  match chosenAlias symbols with
  | none => u
  | some chosen =>
    let (name, taken, source) := u.taken.fitGroup symbols chosen u.source
    group.foldl (bind name) { u with taken, source }

/-- The methods of a group with what the program says of them. -/
def resolve (p : Program) (members : List MethodId) :
    Except OutOfRange (List (MethodId × MethodSymbol)) :=
  members.mapM fun m => do return (m, ← p.methods.get m)

/-- Gives every group a single alias, group after group. Fails where a group has a member that
the program does not have. -/
def unify (u : Unification) (groups : OverrideGroups) : Except OutOfRange Unification :=
  groups.live.foldlM (fun u g => return u.unifyGroup (← resolve u.program g.2)) u

end Unification
end Renamer
