/-!
# Diagnostics

Nothing that the engine finds while renaming stops a run: it notes a diagnostic and goes on with
a choice that depends on nothing but its input. There are three findings, each with a code of its
own and a function that words it.
-/

namespace Renamer

/-- How grave a finding is. -/
inductive Severity where
  | warning
  | info
  deriving DecidableEq, Repr

/-- What kind of finding it is. -/
inductive FindingCode where
  /-- A method overrides methods of two unrelated declaring types. -/
  | diamondOverride
  /-- An alias could not be used and was replaced. -/
  | unusableAlias
  /-- Stored presets were left as they were. -/
  | presetsKept
  deriving DecidableEq, Repr

/-- The code as it is shown. -/
def FindingCode.text : FindingCode → String
  | .diamondOverride => "W0101"
  | .unusableAlias => "W0102"
  | .presetsKept => "I0101"

/-- One finding. -/
structure Diagnostic where
  /-- How grave it is. -/
  severity : Severity
  /-- What kind it is. -/
  code : FindingCode
  /-- The finding in words. -/
  message : String
  /-- The identity of the symbol that it is about. -/
  subject : Option String := none
  /-- Other symbols involved, in the order in which they were found. -/
  related : List String := []
  deriving DecidableEq, Repr

namespace Diagnostic

/-- The methods with override key `key` that `root` inherits have two declaring types. -/
def diamondOverride (key first second root : String) : Diagnostic where
  severity := .warning
  code := .diamondOverride
  message :=
    "multiple overriding '" ++ key ++ "' from '" ++ first ++ "' and '" ++ second ++ "' in '" ++
      root ++ "'"
  subject := some root
  related := [first, second]

/-- The alias of a symbol cannot be written as it is. -/
def unusableAlias (identity newName replacement : String) : Diagnostic where
  severity := .warning
  code := .unusableAlias
  message :=
    "alias '" ++ newName ++ "' for '" ++ identity ++ "' is not a usable identifier, using '" ++
      replacement ++ "'"
  subject := some identity

/-- So many aliases were decided and not saved. -/
def presetsKept (entries : Nat) : Diagnostic where
  severity := .info
  code := .presetsKept
  message :=
    "stored presets kept, " ++ toString entries ++
      " decided aliases not saved; set force_regenerate to overwrite"

end Diagnostic

/-! ## Collections of findings -/

/-- The findings so far, in the order of their arrival. -/
abbrev Findings := List Diagnostic

namespace Findings

/-- Adds a finding. -/
def report (found : Findings) (d : Diagnostic) : Findings := found ++ [d]

/-- Drops all findings. -/
def clear (_ : Findings) : Findings := []

/-- The findings whose code is shown as `code`. -/
def byCode (found : Findings) (code : String) : Findings :=
  found.filter fun d => d.code.text == code

/-- How many findings are so grave. -/
def count (found : Findings) (severity : Severity) : Nat :=
  found.countP fun d => d.severity == severity

end Findings
end Renamer
