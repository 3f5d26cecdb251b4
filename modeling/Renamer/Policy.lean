import Renamer.Ident.Classifier
import Renamer.Settings.Basic

/-!
# What to rename

A policy joins settings with a classifier and answers the two questions of a run: must this name
be replaced, and may this alias be written as it is?
-/

namespace Renamer

/-- Settings together with the judge of identifiers. -/
structure Policy where
  /-- The lengths and switches. -/
  settings : Settings := {}
  /-- Judges single names. -/
  classifier : Classifier := Classifier.java

namespace Policy

/-- `name` must be replaced: too long, too short, reserved, not printable or obfuscated.
Lengths count Unicode scalar values. -/
def rejects (p : Policy) (name : String) : Bool :=
  name.length > p.settings.maxLength || name.length < p.settings.minLength ||
    p.classifier.reserved name || !p.classifier.printable name || p.classifier.obfuscated name

/-- `newName` can be written as it is: valid, not reserved, printable and free of digits. -/
def accepts (p : Policy) (newName : String) : Bool :=
  p.classifier.valid newName && !p.classifier.reserved newName && p.classifier.printable newName &&
    !Ident.hasDigit newName

end Policy
end Renamer
