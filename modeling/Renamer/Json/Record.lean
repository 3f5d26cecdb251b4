import Renamer.Json.Value
import Renamer.Table

/-!
# Records in JSON

A record has named fields in a fixed order. It is read from an object, whose members of other
names are passed over and whose fields must not be repeated, or from an array of the values of
the fields in order.
-/

namespace Renamer
namespace Json

/-- The values of the fields `names` in an object or an array; `none` for a field that is
missing. An object must not repeat a field, and a name in it must be a text; an array must not
have more values than there are fields. -/
def fieldValues (names : List String) : Json → Option (List (Option Json))
  | .object members => do
    let members ← members.mapM fun m => do return (← m.1, m.2)
    let values := names.map fun name => (members.filter fun m => m.1 == name).map Prod.snd
    if values.any fun v => v.length > 1 then none else some (values.map List.head?)
  | .array items =>
    if items.length > names.length then none
    else some ((List.range names.length).map fun i => items[i]?)
  | _ => none

/-- A table of texts from an object; a repeated name takes its last value and keeps its first
place. -/
def table? : Json → Option (Table String String)
  | .object members => do
    let entries ← members.mapM fun m => do return (← m.1, ← m.2.string?)
    return Table.ofList entries
  | _ => none

end Json
end Renamer
