import Renamer.Json.Reader
import Renamer.Json.Record
import Renamer.Json.Writer
import Renamer.Settings.Basic

/-!
# Settings as JSON

Settings are a record of two lengths and two truth values. One that is missing takes its default.
-/

namespace Renamer
namespace Settings

/-- The greatest length that can be set. -/
def maxBound : Nat := UInt64.size - 1

/-- Settings as an object on one line. -/
def toJson (s : Settings) : String :=
  Json.compactObject
    [("min_length", toString s.minLength), ("max_length", toString s.maxLength),
     ("use_source_name_as_alias", toString s.useSourceNames),
     ("force_regenerate", toString s.forceRegenerate)]

/-- A length that can be set. -/
def length? (value : Json) : Option Nat := do
  let n ← value.nat?
  if n ≤ maxBound then some n else none

/-- The value of a field if it is there and can be read, and its default if it is not there. -/
def fieldOr {α : Type} (default : α) (read : Json → Option α) : Option Json → Option α
  | some value => read value
  | none => some default

/-- Reads settings; those that are missing take their defaults. -/
def ofJson? (text : String) : Option Settings := do
  let base : Settings := {}
  let names := ["min_length", "max_length", "use_source_name_as_alias", "force_regenerate"]
  match ← (← Json.parse text).fieldValues names with
  | [minLength, maxLength, useSourceNames, forceRegenerate] =>
    return {
      minLength := ← fieldOr base.minLength length? minLength
      maxLength := ← fieldOr base.maxLength length? maxLength
      useSourceNames := ← fieldOr base.useSourceNames Json.bool? useSourceNames
      forceRegenerate := ← fieldOr base.forceRegenerate Json.bool? forceRegenerate }
  | _ => none

end Settings
end Renamer
