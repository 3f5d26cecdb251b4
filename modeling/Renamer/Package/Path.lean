import Renamer.Text.Split

/-!
# Package paths

A package path is a list of nonempty segments, outermost first. The text of a path joins them
with dots. Every text can be read as a path; empty segments are passed over, so `a..b` is `a.b`,
and both the empty text and a lone dot are the unnamed package.
-/

namespace Renamer

/-- The segments of a package, outermost first; the unnamed package has none. -/
abbrev PackagePath := List String

namespace PackagePath

/-- The path that a dotted text names. -/
def ofText (text : String) : PackagePath := Text.segments '.' text

/-- The segments joined with dots. -/
def text (path : PackagePath) : String := ".".intercalate path

/-- The innermost segment, empty for the unnamed package. -/
def segment (path : PackagePath) : String := path.getLast?.getD ""

/-- The packages from the outermost one down to `path` itself, the unnamed one left out. -/
def lineage (path : PackagePath) : List PackagePath :=
  (List.range path.length).map fun n => path.take (n + 1)

end PackagePath
end Renamer
