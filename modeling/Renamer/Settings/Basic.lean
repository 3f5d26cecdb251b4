/-!
# Settings

The numbers and switches that are read before a run.
-/

namespace Renamer

/-- The settings of the engine. -/
structure Settings where
  /-- Shorter names are replaced. -/
  minLength : Nat := 3
  /-- Longer names are replaced. -/
  maxLength : Nat := 64
  /-- Take the alias of a type from its recorded source file where that is a good name. -/
  useSourceNames : Bool := true
  /-- Ignore stored presets, and overwrite them when saving. -/
  forceRegenerate : Bool := false
  deriving DecidableEq, Repr, Inhabited

end Renamer
