import Mathlib.Data.List.Basic
import Mathlib.Data.List.Induction
import Mathlib.Logic.Function.Basic
import Renamer.Policy
import Renamer.Word

/-!
# Words and their numbers

The word with the number `n` is the bijective base 26 spelling of `n`. Reading a word back gives
its number, so two numbers never share a word; and a word holds nothing but small letters, so it
is told apart from whatever follows it in an override key, and may be written where it is not
reserved.
-/

namespace Renamer

theorem Ident.hasDigit_append (a b : String) : hasDigit (a ++ b) = (hasDigit a || hasDigit b) := by
  rw [hasDigit, String.toList_append, List.any_append]
  rfl

namespace Word

/-! ## Letters -/

theorem toNat_letter (n : Nat) : (letter n).toNat = 97 + n % 26 := by
  have hlt : n % 26 < 26 := Nat.mod_lt _ (by omega)
  have hvalid : Nat.isValidChar (97 + n % 26) := Or.inl (by omega)
  show (Char.ofNat (97 + n % 26)).toNat = 97 + n % 26
  rw [Char.ofNat, dif_pos hvalid]
  rfl

/-- A small letter of ASCII. -/
def IsSmall (c : Char) : Prop := 97 ≤ c.toNat ∧ c.toNat ≤ 122

theorem isSmall_letter (n : Nat) : IsSmall (letter n) := by
  have hlt : n % 26 < 26 := Nat.mod_lt _ (by omega)
  rw [IsSmall, toNat_letter]
  omega

theorem isSmall_of_mem_lettersWithin {fuel n : Nat} {c : Char} (h : c ∈ lettersWithin fuel n) :
    IsSmall c := by
  induction fuel generalizing n with
  | zero => simp [lettersWithin] at h
  | succ fuel ih =>
    rw [lettersWithin, List.mem_append, List.mem_singleton] at h
    rcases h with h | rfl
    · split at h
      · simp at h
      · exact ih h
    · exact isSmall_letter n

theorem isSmall_of_mem_spell {n : Nat} {c : Char} (h : c ∈ (spell n).toList) : IsSmall c := by
  rw [spell, String.toList_ofList] at h
  exact isSmall_of_mem_lettersWithin h

/-! ## Numbers -/

/-- The number of a word, counted from one: its value in bijective base 26. -/
def rank (word : List Char) : Nat := word.foldl (fun n c => 26 * n + (c.toNat - 96)) 0

theorem rank_append_singleton (word : List Char) (c : Char) :
    rank (word ++ [c]) = 26 * rank word + (c.toNat - 96) := by
  rw [rank, List.foldl_append]
  rfl

theorem rank_lettersWithin {fuel n : Nat} (h : n < fuel) : rank (lettersWithin fuel n) = n + 1 := by
  induction fuel generalizing n with
  | zero => omega
  | succ fuel ih =>
    rw [lettersWithin, rank_append_singleton, toNat_letter]
    -- a word of one letter, or the word of the quotient before the last letter
    split
    · show 26 * 0 + (97 + n % 26 - 96) = n + 1
      omega
    · rw [ih (by omega)]
      omega

/-- Reading the word with the number `n` gives `n` back. -/
theorem rank_spell (n : Nat) : rank (spell n).toList = n + 1 := by
  rw [spell, String.toList_ofList]
  exact rank_lettersWithin (Nat.lt_succ_self n)

/-- Every number has a word of its own. -/
theorem spell_injective : Function.Injective spell := by
  intro m n h
  have hm := rank_spell m
  rw [h, rank_spell] at hm
  omega

/-- Every word is the word with some number. -/
theorem exists_spell_eq {word : String} (hne : word ≠ "") (h : ∀ c ∈ word.toList, IsSmall c) :
    ∃ n, spell n = word := by
  have key : ∀ letters : List Char, letters ≠ [] → (∀ c ∈ letters, IsSmall c) →
      0 < rank letters ∧
        ∀ fuel, rank letters ≤ fuel → lettersWithin fuel (rank letters - 1) = letters := by
    intro letters
    induction letters using List.reverseRecOn with
    | nil => exact fun hnil _ => absurd rfl hnil
    | append_singleton letters c ih =>
      intro _ hsmall
      obtain ⟨hlow, hhigh⟩ := hsmall c (List.mem_append_right _ List.mem_cons_self)
      rw [rank_append_singleton]
      refine ⟨by omega, fun fuel hfuel => ?_⟩
      obtain ⟨fuel, rfl⟩ : ∃ k, fuel = k + 1 := ⟨fuel - 1, by omega⟩
      have hlast : letter (26 * rank letters + (c.toNat - 96) - 1) = c := by
        apply Char.toNat_inj.mp
        rw [toNat_letter]
        omega
      rw [lettersWithin, hlast]
      by_cases hnil : letters = []
      · rw [hnil, rank, List.foldl_nil, if_pos (by omega)]
      · obtain ⟨hpos, hall⟩ := ih hnil fun c hc => hsmall c (List.mem_append_left _ hc)
        have hquotient :
            (26 * rank letters + (c.toNat - 96) - 1) / 26 - 1 = rank letters - 1 := by omega
        rw [if_neg (by omega), hquotient, hall fuel (by omega)]
  have hletters : word.toList ≠ [] := fun hnil => hne (String.toList_inj.mp hnil)
  obtain ⟨hpos, hall⟩ := key word.toList hletters h
  refine ⟨rank word.toList - 1, String.toList_inj.mp ?_⟩
  rw [spell, String.toList_ofList]
  exact hall _ (by omega)

/-! ## What a word does not hold -/

theorem hasDigit_spell (n : Nat) : Ident.hasDigit (spell n) = false := by
  rw [Ident.hasDigit, List.any_eq_false]
  intro c hc hdigit
  obtain ⟨hlow, -⟩ := isSmall_of_mem_spell hc
  have hle : c.toNat ≤ 57 := by
    simp only [Char.isDigit, Bool.and_eq_true, decide_eq_true_eq] at hdigit
    exact hdigit.2
  omega

theorem paren_not_mem_spell (n : Nat) : '(' ∉ (spell n).toList := by
  intro h
  obtain ⟨hlow, -⟩ := isSmall_of_mem_spell h
  exact absurd hlow (by decide)

/-- Texts are cut alike at their first occurrence of a character. -/
theorem append_cons_inj_of_first {c : Char} {x y s t : List Char} (hx : c ∉ x) (hy : c ∉ y)
    (h : x ++ c :: s = y ++ c :: t) : x = y ∧ s = t := by
  induction x generalizing y with
  | nil =>
    cases y with
    | nil => exact ⟨rfl, (List.cons.inj h).2⟩
    | cons b y => exact absurd (List.cons.inj h).1 (fun e => hy (e ▸ List.mem_cons_self))
  | cons a x ih =>
    cases y with
    | nil => exact absurd (List.cons.inj h).1 (fun e => hx (e ▸ List.mem_cons_self))
    | cons b y =>
      -- neither text is cut here yet
      obtain ⟨rfl, htail⟩ := List.cons.inj h
      have hx' : c ∉ x := fun e => hx (List.mem_cons_of_mem _ e)
      have hy' : c ∉ y := fun e => hy (List.mem_cons_of_mem _ e)
      obtain ⟨rfl, hst⟩ := ih hx' hy' htail
      exact ⟨rfl, hst⟩

/-- Texts are cut alike at their last occurrence of a character. -/
theorem append_cons_inj_of_last {c : Char} {x y s t : List Char} (hs : c ∉ s) (ht : c ∉ t)
    (h : x ++ c :: s = y ++ c :: t) : x = y ∧ s = t := by
  have hrev := congrArg List.reverse h
  simp only [List.reverse_append, List.reverse_cons, List.append_assoc, List.singleton_append]
    at hrev
  have hs' : c ∉ s.reverse := fun hmem => hs (List.mem_reverse.mp hmem)
  have ht' : c ∉ t.reverse := fun hmem => ht (List.mem_reverse.mp hmem)
  rcases append_cons_inj_of_first hs' ht' hrev with ⟨hst, hxy⟩
  exact ⟨List.reverse_inj.mp hxy, List.reverse_inj.mp hst⟩

/-- Where a word stands before a parenthesis, it can be read off. -/
theorem spell_append_paren_inj {m n : Nat} {s t : String}
    (h : spell m ++ ("(" ++ s) = spell n ++ ("(" ++ t)) : m = n ∧ s = t := by
  have hl : (spell m).toList ++ '(' :: s.toList = (spell n).toList ++ '(' :: t.toList := by
    have := congrArg String.toList h
    simpa [String.toList_append] using this
  obtain ⟨hw, hr⟩ := append_cons_inj_of_first (paren_not_mem_spell m) (paren_not_mem_spell n) hl
  exact ⟨spell_injective (String.toList_inj.mp hw), String.toList_inj.mp hr⟩

/-! ## Words as identifiers -/

/-- A small letter may stand anywhere in an identifier. -/
theorem IsSmall.anywhere {c : Char} (h : IsSmall c) :
    Ident.isStart c = true ∧ Ident.isPart c = true ∧ Ident.isGraphic c = true := by
  rcases h with ⟨hlow, hhigh⟩
  have hascii : c.toNat < 128 := by omega
  have hlower : c.isLower = true :=
    Bool.and_eq_true_iff.mpr ⟨decide_eq_true hlow, decide_eq_true hhigh⟩
  have halpha : c.isAlpha = true := Bool.or_eq_true_iff.mpr (Or.inr hlower)
  have hstart : Ident.isXidStart c = true := by
    rw [Ident.isXidStart, if_pos hascii, halpha]
  have hpart : Ident.isXidContinue c = true := by
    rw [Ident.isXidContinue, if_pos hascii, Char.isAlphanum, halpha]
    rfl
  refine ⟨?_, ?_, ?_⟩
  · rw [Ident.isStart, hstart, Bool.or_true]
  · rw [Ident.isPart, hpart, Bool.or_true]
  · rw [Ident.isGraphic, Bool.and_eq_true]
    refine ⟨decide_eq_true ?_, decide_eq_true ?_⟩
    · show '!'.toNat ≤ c.toNat
      exact Nat.le_trans (by decide) hlow
    · show c.toNat ≤ '~'.toNat
      exact Nat.le_trans hhigh (by decide)

/-- Small letters make an identifier. -/
theorem wellFormed_of_isSmall {letters : List Char} (hne : letters ≠ [])
    (h : ∀ c ∈ letters, IsSmall c) : Ident.wellFormed letters = true := by
  cases letters with
  | nil => exact absurd rfl hne
  | cons c rest =>
    rw [Ident.wellFormed, Bool.and_eq_true, List.all_eq_true]
    exact ⟨(h c List.mem_cons_self).anywhere.1, fun d hd =>
      (h d (List.mem_cons_of_mem c hd)).anywhere.2.1⟩

theorem isGraphic_of_isSmall {letters : List Char} (h : ∀ c ∈ letters, IsSmall c) :
    letters.all Ident.isGraphic = true :=
  List.all_eq_true.mpr fun c hc => (h c hc).anywhere.2.2

theorem spell_ne_empty (n : Nat) : spell n ≠ "" := by
  intro hempty
  have hrank := rank_spell n
  rw [hempty] at hrank
  exact absurd hrank (Nat.succ_ne_zero n).symm

end Word

/-- Under the rules of Java every word that is not reserved may be written as it is. -/
theorem Policy.accepts_spell {P : Policy} (hjava : P.classifier = Classifier.java) {n : Nat}
    (hn : Ident.isReservedWord (Word.spell n) = false) : P.accepts (Word.spell n) = true := by
  have hsmall : ∀ c ∈ (Word.spell n).toList, Word.IsSmall c := fun c hc =>
    Word.isSmall_of_mem_spell hc
  have hwell := Word.wellFormed_of_isSmall
    (fun hnil => Word.spell_ne_empty n (String.toList_inj.mp hnil)) hsmall
  have hgraphic := Word.isGraphic_of_isSmall hsmall
  rw [accepts, hjava]
  simp [Classifier.java, hwell, hgraphic, hn, Word.hasDigit_spell]

/-- What may be written as it is holds no digit. -/
theorem Policy.hasDigit_of_accepts {P : Policy} {name : String} (h : P.accepts name = true) :
    Ident.hasDigit name = false := by
  rw [accepts, Bool.and_eq_true, Bool.not_eq_true'] at h
  exact h.2

/-- The empty alias cannot be written. -/
theorem Policy.accepts_empty {P : Policy} (hjava : P.classifier = Classifier.java) :
    P.accepts "" = false := by
  rw [accepts, hjava]
  rfl

end Renamer
