import Renamer.Json.Reader
import Renamer.Json.Record
import Renamer.Json.Writer
import Renamer.Presets.Basic

/-!
# Presets as JSON

Presets are a record of four objects, one for each section, all of which must be there.
-/

namespace Renamer
namespace Presets

/-- The object that holds a table. -/
def tableJson (t : Table String String) : String :=
  Json.prettyObject 2 (t.toList.map fun e => (e.1, Json.quote e.2))

/-- Presets as an object of four objects, indented by two blanks a level. -/
def toJson (p : Presets) : String :=
  Json.prettyObject 0
    [("packages", tableJson p.packages), ("types", tableJson p.types),
     ("fields", tableJson p.fields), ("methods", tableJson p.methods)]

/-- Reads presets; all four tables must be there. -/
def ofJson? (text : String) : Option Presets := do
  match ← (← Json.parse text).fieldValues ["packages", "types", "fields", "methods"] with
  | [some packages, some types, some fields, some methods] =>
    return {
      packages := ← packages.table?
      types := ← types.table?
      fields := ← fields.table?
      methods := ← methods.table? }
  | _ => none

end Presets
end Renamer
