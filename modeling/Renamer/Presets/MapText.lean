import Renamer.Presets.Basic
import Renamer.Text.Split

/-!
# Map text

The text form of presets has one entry a line: a letter for the section, the identity, an equals
sign between blanks, and the alias.

    # comment
    p com.a = widgets
    c com.a.b = Button
    f com.a.b.c:I = count
    m com.a.b.d(Landroid/view/View;)V = onClick

`render` writes this form and `parse` reads it. A reader passes over blank lines and comments,
takes white space off both halves of an entry, and stops at the first line that is no entry.
Nothing is escaped: an identity that holds the separator is cut at its first occurrence.
-/

namespace Renamer

/-! ## Lines that are no entry -/

/-- Why a line is no entry. -/
inductive MalformedEntry where
  /-- There is no blank after the first word. -/
  | missingKind
  /-- There is no equals sign between blanks. -/
  | missingSeparator
  /-- The identity or the alias is empty. -/
  | emptyHalf
  /-- The first word is not the letter of a section. -/
  | unknownKind (kind : String)
  deriving DecidableEq, Repr

/-- The reason in words. -/
def MalformedEntry.reason : MalformedEntry → String
  | .missingKind => "missing symbol kind"
  | .missingSeparator => "expected '<identity> = <alias>'"
  | .emptyHalf => "empty identity or alias"
  | .unknownKind kind => "unknown symbol kind '" ++ kind ++ "'"

/-- The first line that is no entry. -/
structure MalformedLine where
  /-- Counted from one. -/
  line : Nat
  /-- Why it is none. -/
  cause : MalformedEntry
  deriving DecidableEq, Repr

/-- The fault as it is shown. -/
def MalformedLine.message (e : MalformedLine) : String :=
  "malformed preset at line " ++ toString e.line ++ ": " ++ e.cause.reason

/-! ## Sections -/

namespace Section

/-- All sections in the order in which they are written. -/
def all : List Section := [.packages, .types, .fields, .methods]

/-- The letter that stands for a section. -/
def letter : Section → Char
  | .packages => 'p'
  | .types => 'c'
  | .fields => 'f'
  | .methods => 'm'

/-- The section that a word stands for. -/
def ofWord (word : List Char) : Option Section := all.find? fun s => [s.letter] == word

end Section

namespace Presets

/-! ## Writing -/

/-- Between identity and alias. -/
def separator : List Char := [' ', '=', ' ']

/-- The first line of a text. -/
def header : List Char := "# identifier alias map\n".toList

/-- The line of an entry, with its line feed. -/
def entryLine (s : Section) (e : String × String) : List Char :=
  s.letter :: ' ' :: e.1.toList ++ separator ++ e.2.toList ++ ['\n']

/-- The lines of a section. -/
def sectionLines (p : Presets) (s : Section) : List Char :=
  (p.table s).toList.flatMap (entryLine s)

/-- The map text of presets. -/
def render (p : Presets) : String :=
  String.ofList (header ++ Section.all.flatMap p.sectionLines)

/-! ## Reading -/

/-- The entry on a line without white space at its ends. -/
def parseEntry (line : List Char) : Except MalformedEntry (Section × String × String) :=
  match Text.splitOnce [' '] line with
  | none => .error .missingKind
  | some (kind, rest) =>
    match Text.splitOnce separator rest with
    | none => .error .missingSeparator
    | some (left, right) =>
      let identity := Text.trim left
      let newName := Text.trim right
      if identity.isEmpty || newName.isEmpty then .error .emptyHalf
      else match Section.ofWord kind with
        | some s => .ok (s, String.ofList identity, String.ofList newName)
        | none => .error (.unknownKind (String.ofList kind))

/-- The presets with the entry of a line, if the line is neither blank nor a comment. -/
def addLine (p : Presets) (line : List Char) : Except MalformedEntry Presets :=
  let line := Text.trim line
  if line.isEmpty || line.head? == some '#' then .ok p
  else (parseEntry line).map fun e => p.insert e.1 e.2.1 e.2.2

/-- The presets with the entries of all lines, the first of which has the number `number`. -/
def addLines (p : Presets) (number : Nat) : List (List Char) → Except MalformedLine Presets
  | [] => .ok p
  | line :: rest =>
    match p.addLine line with
    | .ok p => p.addLines (number + 1) rest
    | .error cause => .error ⟨number, cause⟩

/-- Reads a map text. -/
def parse (text : String) : Except MalformedLine Presets :=
  addLines {} 1 (Text.pieces '\n' text.toList)

end Presets
end Renamer
