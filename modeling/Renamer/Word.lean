/-!
# Words

The words over `a` to `z`, enumerated by length and then alphabetically: `a`, `b`, …, `z`, `aa`,
`ab`, …. The word with the number `n` is the spelling of `n` in bijective base 26, so every
nonempty word has exactly one number.
-/

namespace Renamer
namespace Word

/-- The letter with the number `n`, counted from `a` and around again after `z`. -/
def letter (n : Nat) : Char := Char.ofNat ('a'.toNat + n % 26)

/-- The last `fuel` letters of the word with the number `n`. -/
def lettersWithin : Nat → Nat → List Char
  | 0, _ => []
  | fuel + 1, n => (if n < 26 then [] else lettersWithin fuel (n / 26 - 1)) ++ [letter n]

/-- The letters of the word with the number `n`. There are no more than `n + 1` of them. -/
def letters (n : Nat) : List Char := lettersWithin (n + 1) n

/-- The word with the number `n`, counted from zero. -/
def spell (n : Nat) : String := String.ofList (letters n)

end Word
end Renamer
