import Renamer.Diagnostic
import Renamer.Program.Basic
import Renamer.Table

/-!
# Finding overridden methods

From a type, the walk visits the type itself, its super type and its interfaces, depth first and
in this order, and each type once. It collects the virtual methods with one override key.
References to types that the program does not have are passed over.

Below each type the walk keeps track of the *origin* of the method: the type that declares it, as
the first branch tells. Where a second branch tells of another origin, the two form a diamond,
which is reported; the first origin stays.
-/

namespace Renamer

/-- How far a walk has come. -/
structure OverrideWalk where
  /-- The types visited, each with the origin found below it. While a type is being visited it
  has none, which also ends a circle of super types. -/
  origins : Table TypeId (Option TypeId) := {}
  /-- The methods found, in the order of the visits. -/
  found : List MethodId := []
  /-- The pairs of origins that met. -/
  diamonds : List (TypeId × TypeId) := []
  deriving DecidableEq, Inhabited

/-- The virtual methods of `ty` with override key `key`. -/
def Program.virtualMethods (p : Program) (ty : TypeId) (key : String) : List MethodId :=
  ((p.methodsOf ty).filter fun e => e.2.isVirtual && e.2.key == key).map Prod.fst

namespace OverrideWalk

/-- What is known of the origin after a branch. `here` is the type whose branches are walked:
the origins below it are preferred to its own declaration. -/
def join (here : TypeId) (origin inherited : Option TypeId) (w : OverrideWalk) :
    Option TypeId × OverrideWalk :=
  match inherited, origin with
  | none, _ => (origin, w)
  | some second, none => (some second, w)
  | some second, some first =>
    if first = here then (some second, w)
    else if second = first then (some first, w)
    else (some first, { w with diamonds := w.diamonds ++ [(first, second)] })

/-- Visits a type and what is above it, to no more than `depth` types above one another. Answers
the origin of the method. -/
def visit (p : Program) (key : String) :
    Nat → TypeId × TypeSymbol → OverrideWalk → Option TypeId × OverrideWalk
  | 0, _, w => (none, w)
  | depth + 1, (ty, t), w =>
    match w.origins.get? ty with
    | some known => (known, w)
    | none =>
      let own := p.virtualMethods ty key
      let w := { w with origins := w.origins.insert ty none, found := w.found ++ own }
      let (origin, w) :=
        (p.parents t).foldl
          (fun s parent =>
            let (inherited, w) := visit p key depth parent s.2
            join ty s.1 inherited w)
          (if own.isEmpty then none else some ty, w)
      (origin, { w with origins := w.origins.insert ty origin })

end OverrideWalk

namespace Program

/-- The declared full name of a type of the program. -/
def typeName (p : Program) (ty : TypeId) : String := ((p.types.get? ty).map (·.fullName)).getD ""

/-- The walk from the type `t` in slot `ty`. Types above one another are distinct until one comes
a second time, where a branch ends: so the number of types and one more bounds the depth. -/
def overrideWalk (p : Program) (ty : TypeId) (t : TypeSymbol) (key : String) : OverrideWalk :=
  (OverrideWalk.visit p key (p.types.size + 1) (ty, t) {}).2

/-- The methods that share the override key `key` with those of the type `t` in slot `ty`, and
the diamonds met. -/
def overriddenFrom (p : Program) (ty : TypeId) (t : TypeSymbol) (key : String) :
    List MethodId × Findings :=
  let w := p.overrideWalk ty t key
  (w.found,
    w.diamonds.map fun d => .diamondOverride key (p.typeName d.1) (p.typeName d.2) t.fullName)

/-- All methods that share the override key of `method` in `ty` and the types above it, and the
diamonds met on the way. -/
def resolveOverriding (p : Program) (ty : TypeId) (method : MethodId) :
    Except OutOfRange (List MethodId × Findings) := do
  let m ← p.methods.get method
  let t ← p.types.get ty
  return p.overriddenFrom ty t m.key

end Program
end Renamer
