import Mathlib.Data.Set.Card
import Renamer.Proofs.WordOrder

/-!
# Words written into a buffer

A number of 64 bits is written as a word from the back: the last letter goes into the last place of
a buffer of fourteen bytes, what is left of the number gives the letters before it, and the bytes
written are read as UTF-8. Writing fails where a subtraction would go below zero, be it that of the
place or that of the number.

It never does. A word of `k` letters and fewer has a number below `shorter k`, and `shorter 14` is
more than 64 bits hold. So all these numbers are written, as the words listed at them
(`Word.place_write`).
-/

namespace Renamer
namespace Word

/-! ## Writing -/

/-- The difference of two numbers, where it is not below zero. -/
def minus? (a b : UInt64) : Option UInt64 := if b ≤ a then some (a - b) else none

/-- Writes the word with the number `n` so that it ends right before the place `pos`, and answers
where it starts. -/
def fill : Nat → UInt64 → Vector UInt8 14 → Option (Nat × Vector UInt8 14)
  | 0, _, _ => none
  | pos + 1, n, buffer =>
    if h : pos < 14 then do
      let buffer := buffer.set pos ('a'.toUInt8 + (n % 26).toUInt8) h
      if n / 26 = 0 then return (pos, buffer)
      else fill pos (← minus? (n / 26) 1) buffer
    else none

/-- The buffer before anything is written. -/
def blank : Vector UInt8 14 := Vector.replicate 14 0

/-- The word with the number `n`, by way of the buffer. -/
def write (n : UInt64) : Option String := do
  let (start, buffer) ← fill 14 n blank
  return (String.fromUTF8? (buffer.toList.drop start).toByteArray).getD ""

/-! ## How many letters a word has -/

/-- The letters before the last one are those of the quotient, less one. -/
theorem letters_eq (n : Nat) :
    letters n = (if n < 26 then [] else letters (n / 26 - 1)) ++ [letter n] := by
  have hsame : n < 26 ∨ lettersWithin n (n / 26 - 1) = letters (n / 26 - 1) := by
    refine or_iff_not_imp_left.mpr fun hlarge => ?_
    apply eq_of_rank_eq
    · exact fun c hc => isSmall_of_mem_lettersWithin hc
    · exact fun c hc => isSmall_of_mem_lettersWithin hc
    · rw [letters, rank_lettersWithin (by omega), rank_lettersWithin (by omega)]
  rw [letters, lettersWithin]
  rcases hsame with hsmall | hsame
  · rw [if_pos hsmall, if_pos hsmall]
  · rw [hsame]

/-- The number of words that have `k` letters or fewer. -/
def shorter : Nat → Nat
  | 0 => 0
  | k + 1 => 26 * shorter k + 26

/-- A word has `k` letters or fewer exactly if it is among the first `shorter k`. -/
theorem length_letters_le_iff {n k : Nat} : (letters n).length ≤ k ↔ n < shorter k := by
  induction k generalizing n with
  | zero =>
    rw [letters_eq]
    simp [shorter]
  | succ k ih =>
    rw [letters_eq, shorter, List.length_append, List.length_singleton, Nat.add_le_add_iff_right]
    split
    · simp only [List.length_nil, Nat.zero_le, true_iff]
      omega
    · rw [ih]
      omega

/-! ## The buffer is large enough -/

theorem toNat_toUInt8_letter (n : Nat) : (letter n).toUInt8.toNat = 97 + n % 26 := by
  have hvalue : (letter n).toUInt8.toNat = (letter n).toNat % 256 := rfl
  rw [hvalue, toNat_letter]
  omega

/-- The byte written last is the last letter of the word. -/
theorem toUInt8_letter (n : UInt64) :
    'a'.toUInt8 + (n % 26).toUInt8 = (letter n.toNat).toUInt8 := by
  have ha : 'a'.toUInt8.toNat = 97 := rfl
  apply UInt8.toNat_inj.mp
  rw [toNat_toUInt8_letter, UInt8.toNat_add, ha, UInt64.toNat_toUInt8, UInt64.toNat_mod]
  show (97 + n.toNat % 26 % 256) % 256 = 97 + n.toNat % 26
  omega

theorem toNat_div_eq_zero_iff {n : UInt64} : n / 26 = 0 ↔ n.toNat < 26 := by
  rw [← UInt64.toNat_inj, UInt64.toNat_div]
  show n.toNat / 26 = 0 ↔ _
  omega

/-- One is taken from a quotient only where it is not zero. -/
theorem minus?_div {n : UInt64} (h : ¬ n.toNat < 26) :
    ∃ rest, minus? (n / 26) 1 = some rest ∧ rest.toNat = n.toNat / 26 - 1 := by
  have hquotient : (n / 26).toNat = n.toNat / 26 := UInt64.toNat_div n 26
  have hone : (1 : UInt64) ≤ n / 26 := by
    rw [UInt64.le_iff_toNat_le, hquotient]
    show 1 ≤ n.toNat / 26
    omega
  refine ⟨n / 26 - 1, if_pos hone, ?_⟩
  rw [UInt64.toNat_sub_of_le _ _ hone, hquotient]
  rfl

/-- Where there is room for a word, it is written right before the place it has to end at, and what
stands behind stays. -/
theorem fill_eq {pos : Nat} {n : UInt64} (buffer : Vector UInt8 14) (hpos : pos ≤ 14)
    (hroom : (letters n.toNat).length ≤ pos) :
    ∃ buffer', fill pos n buffer = some (pos - (letters n.toNat).length, buffer') ∧
      buffer'.toList.drop (pos - (letters n.toNat).length) =
        (letters n.toNat).map Char.toUInt8 ++ buffer.toList.drop pos := by
  induction pos generalizing n buffer with
  | zero =>
    rw [letters_eq] at hroom
    simp at hroom
  | succ pos ih =>
    have hlt : pos < 14 := hpos
    rw [letters_eq, List.length_append, List.length_singleton] at hroom ⊢
    rw [fill, dif_pos hlt, toUInt8_letter]
    -- the last letter stands in front of what is behind it
    have hlast : (buffer.set pos (letter n.toNat).toUInt8 hlt).toList.drop pos =
        (letter n.toNat).toUInt8 :: buffer.toList.drop (pos + 1) := by
      rw [Vector.toList_set, List.drop_eq_getElem_cons (by simpa using hlt),
        List.getElem_set_self, List.drop_set_of_lt (Nat.lt_succ_self pos)]
    by_cases hsmall : n.toNat < 26
    · rw [if_pos hsmall, if_pos (toNat_div_eq_zero_iff.mpr hsmall)]
      exact ⟨_, rfl, hlast⟩
    · rw [if_neg hsmall] at hroom
      obtain ⟨rest, hrest, hvalue⟩ := minus?_div hsmall
      rw [← hvalue] at hroom
      obtain ⟨buffer', hfill, hdrop⟩ := ih (n := rest)
        (buffer.set pos (letter n.toNat).toUInt8 hlt) (by omega) (by omega)
      rw [hlast] at hdrop
      rw [if_neg hsmall, if_neg (mt toNat_div_eq_zero_iff.mp hsmall), ← hvalue,
        Nat.add_sub_add_right]
      refine ⟨buffer', ?_, ?_⟩
      · rw [hrest]
        exact hfill
      · rw [hdrop]
        simp

/-- Small letters are read back from their bytes. -/
theorem fromUTF8?_map_toUInt8 {word : List Char} (h : ∀ c ∈ word, IsSmall c) :
    String.fromUTF8? (word.map Char.toUInt8).toByteArray = some (String.ofList word) := by
  have hbytes : word.flatMap String.utf8EncodeChar = word.map Char.toUInt8 := by
    rw [← List.flatMap_pure_eq_map]
    refine List.flatMap_congr fun c hc => ?_
    have hascii : c.val ≤ 127 := by
      have hhigh : c.toNat ≤ 122 := (h c hc).2
      rw [UInt32.le_iff_toNat_le]
      show c.toNat ≤ 127
      omega
    exact String.utf8EncodeChar_eq_singleton (Char.utf8Size_eq_one_iff.mpr hascii)
  have hvalid : (word.map Char.toUInt8).toByteArray.IsValidUTF8 :=
    ⟨word, by rw [List.utf8Encode, hbytes]⟩
  rw [String.fromUTF8?, dif_pos hvalid, Option.some_inj, ← String.toByteArray_inj,
    String.toByteArray_ofList, List.utf8Encode, hbytes]
  rfl

/-- There is room for every number of 64 bits. -/
theorem length_letters_le (n : UInt64) : (letters n.toNat).length ≤ 14 := by
  rw [length_letters_le_iff]
  have hshorter : 2 ^ 64 ≤ shorter 14 := by decide
  exact Nat.lt_of_lt_of_le n.toNat_lt hshorter

/-- What is written is the word with the number. -/
theorem write_eq (n : UInt64) : write n = some (spell n.toNat) := by
  obtain ⟨buffer, hfill, hdrop⟩ := fill_eq blank (Nat.le_refl 14) (length_letters_le n)
  have hend : blank.toList.drop 14 = [] := rfl
  have hsmall : ∀ c ∈ letters n.toNat, IsSmall c := fun c hc => isSmall_of_mem_lettersWithin hc
  rw [hend, List.append_nil] at hdrop
  rw [write, hfill]
  show some _ = _
  rw [hdrop, fromUTF8?_map_toUInt8 hsmall]
  rfl

/-! ## Places in the list of words -/

/-- How many words are listed before a word. -/
noncomputable def place (word : String) : ℕ∞ := {v | IsWord v ∧ Before v word}.encard

/-- The word with the number `n` has `n` words before it. -/
theorem place_spell (n : Nat) : place (spell n) = n := by
  have hbefore : {v | IsWord v ∧ Before v (spell n)} = spell '' Set.Iio n := by
    ext v
    constructor
    · rintro ⟨hv, hlt⟩
      obtain ⟨m, rfl⟩ := isWord_iff.mp hv
      exact ⟨m, before_spell_iff.mp hlt, rfl⟩
    · rintro ⟨m, hm, rfl⟩
      exact ⟨isWord_spell m, before_spell_iff.mpr hm⟩
  rw [place, hbefore, spell_injective.encard_image, ← Finset.coe_range,
    Set.encard_coe_eq_coe_finsetCard, Finset.card_range]

/-- Writing a number of 64 bits never fails and takes fourteen places at most. The word written has
as many words before it as the number says, and is the only one; so different numbers give different
words, listed in the order of the numbers. -/
theorem place_write :
    (∀ n : UInt64, ∃ word start buffer, fill 14 n blank = some (start, buffer) ∧
      write n = some word ∧ word = spell n.toNat ∧ start + word.length = 14) ∧
    (∀ (n : UInt64) word, write n = some word ↔ IsWord word ∧ place word = n.toNat) ∧
    Function.Injective write ∧
    ∀ m n : UInt64, ∃ v w, write m = some v ∧ write n = some w ∧ (Before v w ↔ m < n) := by
  refine ⟨fun n => ?_, fun n word => ?_, fun m n h => ?_, fun m n => ?_⟩
  · have hroom := length_letters_le n
    obtain ⟨buffer, hfill, -⟩ := fill_eq blank (Nat.le_refl 14) hroom
    refine ⟨_, _, buffer, hfill, write_eq n, rfl, ?_⟩
    rw [spell, String.length_ofList]
    omega
  · rw [write_eq, Option.some_inj]
    constructor
    · rintro rfl
      exact ⟨isWord_spell _, place_spell _⟩
    · rintro ⟨hword, hplace⟩
      obtain ⟨k, rfl⟩ := isWord_iff.mp hword
      rw [place_spell, Nat.cast_inj] at hplace
      rw [hplace]
  · rw [write_eq, write_eq, Option.some_inj] at h
    exact UInt64.toNat_inj.mp (spell_injective h)
  · refine ⟨_, _, write_eq m, write_eq n, ?_⟩
    rw [before_spell_iff, UInt64.lt_iff_toNat_lt]

/-- The last number takes all of the places. -/
example : write 18446744073709551615 = some "gkgwbylwrxtlpp" := by decide +kernel

end Word
end Renamer
