import Renamer.Ident.Classifier
import Renamer.Word

/-!
# A source of fresh names

A name source goes once through all words. A reserved word is passed over and counts as issued;
so does a word that the caller refuses. No word comes twice before the source is started again.
-/

namespace Renamer

/-- Goes once through all words, from the word with the number `issued` on. -/
structure NameSource where
  /-- How many words have been handed out or passed over. -/
  issued : Nat := 0
  deriving DecidableEq, Repr, Inhabited

namespace NameSource

/-- The source before its first word. -/
def reset (_ : NameSource) : NameSource where
  issued := 0

/-- The first number from `start` on that is accepted, of `tries` numbers. -/
def firstFrom (accept : Nat → Bool) : Nat → Nat → Option Nat
  | 0, _ => none
  | tries + 1, start => if accept start then some start else firstFrom accept tries (start + 1)

/-- The search answers the least accepted number of those it tries. -/
theorem firstFrom_eq_some_iff {accept : Nat → Bool} {tries start n : Nat} :
    firstFrom accept tries start = some n ↔
      start ≤ n ∧ n < start + tries ∧ accept n = true ∧
        ∀ m, start ≤ m → m < n → accept m = false := by
  induction tries generalizing start with
  | zero =>
    constructor
    · intro h
      simp [firstFrom] at h
    · intro h
      omega
  | succ tries ih =>
    rw [firstFrom]
    by_cases h : accept start = true
    · rw [if_pos h, Option.some.injEq]
      constructor
      · rintro rfl
        exact ⟨Nat.le_refl _, by omega, h, fun m _ _ => by omega⟩
      · rintro ⟨hle, _, _, hno⟩
        by_cases he : start = n
        · exact he
        · have hlt := hno start (Nat.le_refl _) (by omega)
          rw [h] at hlt
          cases hlt
    · rw [if_neg h, ih]
      constructor
      · rintro ⟨hle, hlt, ha, hno⟩
        refine ⟨by omega, by omega, ha, fun m hm hmn => ?_⟩
        by_cases he : m = start
        · subst he
          simpa using h
        · exact hno m (by omega) hmn
      · rintro ⟨hle, hlt, ha, hno⟩
        have hne : start ≠ n := fun e => h (e ▸ ha)
        exact ⟨by omega, by omega, ha, fun m hm hmn => hno m (by omega) hmn⟩

/-- The next word that is not reserved and that `accept` agrees to, if it comes within `tries`
words. Words on the way are passed over. -/
def nextWhere? (s : NameSource) (tries : Nat) (accept : String → Bool) :
    Option (String × NameSource) :=
  let fit n := !Ident.isReservedWord (Word.spell n) && accept (Word.spell n)
  (firstFrom fit tries s.issued).map fun n => (Word.spell n, ⟨n + 1⟩)

/-- The next word that is not reserved and that `accept` agrees to, where `accept` refuses no
more than `refusals` words. Then one comes within so many words and the reserved ones and one
more, and the word of last resort is never needed. -/
def nextWhere (s : NameSource) (accept : String → Bool) (refusals : Nat) : String × NameSource :=
  (s.nextWhere? (refusals + Ident.reservedWords.length + 1) accept).getD
    (Word.spell s.issued, ⟨s.issued + 1⟩)

/-- The next word that is not reserved. -/
def next (s : NameSource) : String × NameSource := s.nextWhere (fun _ => true) 0

/-- The next `count` words that are not reserved. -/
def take : Nat → NameSource → List String × NameSource
  | 0, s => ([], s)
  | count + 1, s =>
    let (name, s) := s.next
    let (names, s) := take count s
    (name :: names, s)

end NameSource
end Renamer
