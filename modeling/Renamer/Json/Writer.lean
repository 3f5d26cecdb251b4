/-!
# Writing JSON

The pieces that JSON texts are put together from: quoted strings, and objects on one line or on
several.
-/

namespace Renamer
namespace Json

/-- The character for a hexadecimal digit. -/
def hexDigit (n : Nat) : Char :=
  if n < 10 then Char.ofNat ('0'.toNat + n) else Char.ofNat ('a'.toNat + (n - 10))

/-- A character as it is written inside quotes: the quote, the backslash and control characters
are escaped, all others stand for themselves. -/
def quoteChar (c : Char) : List Char :=
  match c with
  | '"' => ['\\', '"']
  | '\\' => ['\\', '\\']
  | '\x08' => ['\\', 'b']
  | '\x0c' => ['\\', 'f']
  | '\n' => ['\\', 'n']
  | '\r' => ['\\', 'r']
  | '\t' => ['\\', 't']
  | _ =>
    if c.toNat < 0x20 then
      ['\\', 'u', '0', '0', hexDigit (c.toNat / 16), hexDigit (c.toNat % 16)]
    else [c]

/-- A text in quotes. -/
def quote (text : String) : String :=
  String.ofList ('"' :: text.toList.flatMap quoteChar ++ ['"'])

/-- An object on one line without blanks; the members come with their values written out. -/
def compactObject (members : List (String × String)) : String :=
  "\x7b" ++ ",".intercalate (members.map fun m => quote m.1 ++ ":" ++ m.2) ++ "\x7d"

/-- An object with each member on a line of its own, two blanks further in than the line it
starts on; the members come with their values written out. -/
def prettyObject (indent : Nat) (members : List (String × String)) : String :=
  let margin := "\n" ++ "".pushn ' ' indent
  if members.isEmpty then "\x7b\x7d"
  else
    "\x7b" ++ ",".intercalate (members.map fun m => margin ++ "  " ++ quote m.1 ++ ": " ++ m.2) ++
      margin ++ "\x7d"

end Json
end Renamer
