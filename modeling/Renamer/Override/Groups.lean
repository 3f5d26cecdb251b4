import Renamer.Arena

/-!
# Override groups

The methods that override one another, found one set at a time, are put together into groups.
A set that meets several groups joins them: the first one it meets takes in the others, which are
left behind empty. Members stand in the order of their discovery.

A method is in the group that lists it, so there is no second record of membership.
-/

namespace Renamer

/-- Disjoint groups of methods. -/
structure OverrideGroups where
  /-- The members of each group; a group that was taken in by another one has none. -/
  slots : Arena .group (List MethodId) := {}
  deriving DecidableEq, Repr, Inhabited

namespace OverrideGroups

/-- The members of a group, empty where there is no such group. -/
def members (g : OverrideGroups) (id : GroupId) : List MethodId := (g.slots.get? id).getD []

/-- The group that a method is in. -/
def groupOf (g : OverrideGroups) (m : MethodId) : Option GroupId :=
  (g.slots.entries.find? fun e => e.2.contains m).map Prod.fst

/-- The groups that have members, in the order of their creation. -/
def live (g : OverrideGroups) : List (GroupId × List MethodId) :=
  g.slots.entries.filter fun e => !e.2.isEmpty

/-- The number of groups that have members. -/
def size (g : OverrideGroups) : Nat := g.live.length

/-- No group has members. -/
def isEmpty (g : OverrideGroups) : Bool := g.size == 0

/-- Drops all groups. -/
def clear (g : OverrideGroups) : OverrideGroups where
  slots := g.slots.clear

/-- Joins the groups `others` and the methods `fresh`, which are in no group, to `target`. -/
def absorb (g : OverrideGroups) (target : GroupId) (others : List GroupId)
    (fresh : List MethodId) : OverrideGroups :=
  let joined := g.members target ++ others.flatMap g.members ++ fresh
  ⟨⟨(g.slots.entries.map fun e =>
    if e.1 = target then joined else if others.contains e.1 then [] else e.2).toArray⟩⟩

/-- Puts the methods of a set, given in order, into one group, and answers that group. A set of
fewer than two methods links nothing. -/
def merge (g : OverrideGroups) (found : List MethodId) : Option GroupId × OverrideGroups :=
  let found := found.eraseDups
  if found.length < 2 then (none, g)
  else
    let fresh := found.filter fun m => (g.groupOf m).isNone
    match (found.filterMap g.groupOf).eraseDups with
    | [] => (some g.slots.nextSlot, ⟨g.slots.push fresh⟩)
    | target :: others => (some target, g.absorb target others fresh)

end OverrideGroups
end Renamer
