import Renamer.Table

/-!
# Presets

Presets are aliases chosen by an earlier run or by hand: for each of four sections a table from
the identity of a symbol to its alias. A package is identified by its dotted path, a type by its
full name, a member by its identity.
-/

namespace Renamer

/-- What kind of symbol an entry is about. -/
inductive Section where
  | packages
  | types
  | fields
  | methods
  deriving DecidableEq, Repr

/-- The aliases of identities, section by section. -/
structure Presets where
  /-- From dotted path to the alias of the last segment. -/
  packages : Table String String := {}
  /-- From full name to short alias. -/
  types : Table String String := {}
  /-- From identity to alias. -/
  fields : Table String String := {}
  /-- From identity to alias. -/
  methods : Table String String := {}
  deriving DecidableEq, Inhabited

namespace Presets

/-- The table of a section. -/
def table (p : Presets) : Section → Table String String
  | .packages => p.packages
  | .types => p.types
  | .fields => p.fields
  | .methods => p.methods

/-- Changes the table of a section. -/
def modify (p : Presets) (s : Section) (f : Table String String → Table String String) : Presets :=
  match s with
  | .packages => { p with packages := f p.packages }
  | .types => { p with types := f p.types }
  | .fields => { p with fields := f p.fields }
  | .methods => { p with methods := f p.methods }

/-- Sets the alias of an identity. -/
def insert (p : Presets) (s : Section) (identity newName : String) : Presets :=
  p.modify s fun t => t.insert identity newName

/-- Drops all entries. -/
def clear (p : Presets) : Presets where
  packages := p.packages.clear
  types := p.types.clear
  fields := p.fields.clear
  methods := p.methods.clear

/-- The number of entries of all sections. -/
def size (p : Presets) : Nat := p.packages.size + p.types.size + p.fields.size + p.methods.size

/-- There is no entry. -/
def isEmpty (p : Presets) : Bool := p.size == 0

/-- Both have the same entries, in whatever order. -/
def sameEntries (p q : Presets) : Bool :=
  p.packages.sameEntries q.packages && p.types.sameEntries q.types &&
    p.fields.sameEntries q.fields && p.methods.sameEntries q.methods

end Presets
end Renamer
