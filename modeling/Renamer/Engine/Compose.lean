import Renamer.Engine.State

/-!
# Composed names

A type is emitted under the alias of its package, the chain of the types around it, and its own
name, each in its alias where it has one.

Once all aliases have been decided, composed names are kept with the record of a type, and a kept
name is answered from then on. So composing changes the engine.
-/

namespace Renamer
namespace Engine

/-- Changes the record of a type that has one, once all aliases have been decided. -/
def keep (e : Engine) (ty : TypeId) (f : TypeRecord → TypeRecord) : Engine :=
  if e.discovered then
    match e.types.get? ty with
    | some r => { e with types := e.types.insert ty (f r) }
    | none => e
  else e

/-- The name without package that was kept for a type. -/
def keptChain (e : Engine) (ty : TypeId) : Option String :=
  (e.types.get? ty).bind fun r => r.chain

/-- The full name that was kept for a type. -/
def keptFullName (e : Engine) (ty : TypeId) : Option String :=
  (e.types.get? ty).bind fun r => r.fullName

/-- The last part of a type's name: its short alias, or else its short name. -/
def lastPart (e : Engine) (ty : TypeId) (t : TypeSymbol) : String :=
  (e.typeAlias ty).getD t.shortName

/-- The path that a type's package is emitted under; a package that was never seen is emitted as
it is. -/
def packageName (e : Engine) (ty : TypeId) (t : TypeSymbol) : String :=
  match e.types.get? ty with
  | some r => e.packages.fullAlias r.package
  | none => (e.packageAlias t.package).getD t.package

/-- The name without package of the first type, where every type is followed by the one around
it. -/
def chainName (e : Engine) : List (TypeId × TypeSymbol) → String × Engine
  | [] => ("", e)
  | (ty, t) :: outer =>
    match e.keptChain ty with
    | some name => (name, e)
    | none =>
      let own := e.lastPart ty t
      let (name, e) :=
        if outer.isEmpty then (own, e)
        else
          let (around, e) := e.chainName outer
          (around ++ nestedSeparator ++ own, e)
      (name, e.keep ty fun r => { r with chain := some name })

/-- The full name of the type `t` in slot `ty`. -/
def fullName (e : Engine) (p : Program) (ty : TypeId) (t : TypeSymbol) : String × Engine :=
  match e.keptFullName ty with
  | some name => (name, e)
  | none =>
    let package := e.packageName ty t
    let (name, e) := e.chainName (p.lineage ty)
    let full := if package.isEmpty then name else package ++ packageSeparator ++ name
    (full, e.keep ty fun r => { r with fullName := some full })

/-- The full name that a type is emitted under. -/
def fullNameAt (e : Engine) (p : Program) (ty : TypeId) : Except OutOfRange (String × Engine) :=
  match e.keptFullName ty with
  | some name => .ok (name, e)
  | none => return e.fullName p ty (← p.types.get ty)

/-- The name without package that a type is emitted under. -/
def chainNameAt (e : Engine) (p : Program) (ty : TypeId) : Except OutOfRange (String × Engine) :=
  match e.keptChain ty with
  | some name => .ok (name, e)
  | none => do
    let _ ← p.types.get ty
    return e.chainName (p.lineage ty)

end Engine
end Renamer
