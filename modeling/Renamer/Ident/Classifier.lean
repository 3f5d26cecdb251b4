import Renamer.Ident.XidContinue

/-!
# Judging identifiers

The engine never looks at the characters of a name itself; it asks a `Classifier`, four
predicates on bare names. `Classifier.java` judges names for Java source.
-/

namespace Renamer

/-! ## The questions -/

/-- What can be asked about a bare identifier of the emitted source. -/
structure Classifier where
  /-- Well formed and not reserved. -/
  valid : String → Bool
  /-- A keyword or a reserved literal. -/
  reserved : String → Bool
  /-- Every character can be written into the source as it is. -/
  printable : String → Bool
  /-- Generated by a machine, or meant to confuse. -/
  obfuscated : String → Bool

namespace Ident

/-! ## Reserved words and digits -/

/-- The keywords of Java and its three reserved literals, in alphabetical order. -/
def reservedWords : List String :=
  ["abstract", "assert", "boolean", "break", "byte", "case", "catch", "char", "class", "const",
   "continue", "default", "do", "double", "else", "enum", "extends", "false", "final", "finally",
   "float", "for", "goto", "if", "implements", "import", "instanceof", "int", "interface", "long",
   "native", "new", "null", "package", "private", "protected", "public", "return", "short",
   "static", "strictfp", "super", "switch", "synchronized", "this", "throw", "throws",
   "transient", "true", "try", "void", "volatile", "while"]

/-- `name` is one of the reserved words. -/
def isReservedWord (name : String) : Bool := reservedWords.contains name

/-- Some character of `name` is an ASCII digit. -/
def hasDigit (name : String) : Bool := name.toList.any Char.isDigit

/-! ## The rules of Java -/

/-- A character that an identifier may start with. -/
def isStart (c : Char) : Bool := c == '_' || c == '$' || isXidStart c

/-- A character that may follow in an identifier. -/
def isPart (c : Char) : Bool := c == '$' || isXidContinue c

/-- A graphic ASCII character; the blank is none. -/
def isGraphic (c : Char) : Bool := '!' ≤ c && c ≤ '~'

/-- Characters that are easily taken for one another. -/
def confusable : List Char := ['l', 'I', '1', 'O', '0', '_', '$']

/-- One starting character, then parts. -/
def wellFormed : List Char → Bool
  | [] => false
  | c :: rest => isStart c && rest.all isPart

/-- Starts with a digit, or is longer than one character and confusable throughout. -/
def looksObfuscated : List Char → Bool
  | [] => false
  | c :: rest => c.isDigit || !rest.isEmpty && (c :: rest).all confusable.contains

end Ident

/-- The rules for names in Java source. -/
def Classifier.java : Classifier where
  valid name := Ident.wellFormed name.toList && !Ident.isReservedWord name
  reserved := Ident.isReservedWord
  printable name := name.toList.all Ident.isGraphic
  obfuscated name := Ident.looksObfuscated name.toList

end Renamer
