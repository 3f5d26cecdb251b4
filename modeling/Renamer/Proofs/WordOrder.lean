import Mathlib.Data.List.Shortlex
import Renamer.Proofs.Words

/-!
# The order of words

Words are listed by length, and those of one length alphabetically. That is the order of their
numbers: appending a letter multiplies the number by 26 and adds the place of the letter, so that
the earlier letters decide, then the last one (`Word.rank_lt_iff`).
-/

namespace Renamer

namespace Word

/-! ## Words -/

/-- Small letters, at least one. -/
def IsWord (word : String) : Prop := word ≠ "" ∧ ∀ c ∈ word.toList, IsSmall c

/-- The word `v` is listed before `w`: it is shorter, or as long and alphabetically before it. -/
def Before (v w : String) : Prop := List.Shortlex (· < ·) v.toList w.toList

theorem not_before_self (word : String) : ¬ Before word word := by
  intro h
  have hlist : List.Shortlex (· < ·) word.toList word.toList := h
  exact Std.Asymm.asymm _ _ hlist hlist

theorem isWord_spell (n : Nat) : IsWord (spell n) :=
  ⟨spell_ne_empty n, fun _ hc => isSmall_of_mem_spell hc⟩

theorem isWord_iff {word : String} : IsWord word ↔ ∃ n, spell n = word := by
  constructor
  · rintro ⟨hne, hsmall⟩
    exact exists_spell_eq hne hsmall
  · rintro ⟨n, rfl⟩
    exact isWord_spell n

/-! ## Letter by letter -/

variable {v w : List Char} {c d : Char}

theorem toNat_lt_toNat_iff : c.toNat < d.toNat ↔ c < d := by
  rw [Char.lt_def, UInt32.lt_iff_toNat_lt]
  rfl

/-- The earlier letters decide. -/
theorem shortlex_append_singleton (h : List.Shortlex (· < ·) v w) (c d : Char) :
    List.Shortlex (· < ·) (v ++ [c]) (w ++ [d]) := by
  rcases List.shortlex_def.mp h with hlength | ⟨hlength, hlex⟩
  · apply List.Shortlex.of_length_lt
    simpa using hlength
  · apply List.Shortlex.of_lex
    · simpa using hlength
    · clear h
      induction hlex with
      | nil => simp at hlength
      | rel h => exact List.Lex.rel h
      | cons _ ih =>
        apply List.Lex.cons
        apply ih
        simpa using hlength

/-- Where they agree, the last letter decides. -/
theorem shortlex_of_last_lt (v : List Char) (h : c < d) :
    List.Shortlex (· < ·) (v ++ [c]) (v ++ [d]) := by
  apply List.Shortlex.append_left
  exact (List.shortlex_singleton_iff c d).mpr h

/-- The number of a word is one above the place at which it is spelled. -/
theorem exists_spell_of_ne_nil (hne : v ≠ []) (hv : ∀ c ∈ v, IsSmall c) :
    ∃ n, (spell n).toList = v ∧ rank v = n + 1 := by
  have hword : IsWord (String.ofList v) := by
    refine ⟨fun hempty => hne ?_, ?_⟩
    · rw [← String.toList_ofList (l := v), hempty]
      rfl
    · rw [String.toList_ofList]
      exact hv
  obtain ⟨n, hn⟩ := isWord_iff.mp hword
  have hletters : (spell n).toList = v := by rw [hn, String.toList_ofList]
  exact ⟨n, hletters, by rw [← hletters, rank_spell]⟩

/-- What has the same number is the same. -/
theorem eq_of_rank_eq (hv : ∀ c ∈ v, IsSmall c) (hw : ∀ c ∈ w, IsSmall c)
    (h : rank v = rank w) : v = w := by
  rcases eq_or_ne v [] with rfl | hvne
  · rcases eq_or_ne w [] with rfl | hwne
    · rfl
    · obtain ⟨n, -, hn⟩ := exists_spell_of_ne_nil hwne hw
      cases h.trans hn
  · obtain ⟨m, hm, hmrank⟩ := exists_spell_of_ne_nil hvne hv
    rcases eq_or_ne w [] with rfl | hwne
    · cases h.symm.trans hmrank
    · obtain ⟨n, hn, hnrank⟩ := exists_spell_of_ne_nil hwne hw
      have hsame : m = n := by omega
      rw [← hm, ← hn, hsame]

/-- A smaller number comes first. -/
theorem shortlex_of_rank_lt (hv : ∀ c ∈ v, IsSmall c) (hw : ∀ c ∈ w, IsSmall c)
    (h : rank v < rank w) : List.Shortlex (· < ·) v w := by
  induction v using List.reverseRecOn generalizing w with
  | nil =>
    cases w with
    | nil => exact absurd h (Nat.lt_irrefl _)
    | cons d w => exact List.Shortlex.of_length_lt (Nat.succ_pos w.length)
  | append_singleton v c ih =>
    have hc := hv c (by simp)
    cases w using List.reverseRecOn with
    | nil => simp [rank] at h
    | append_singleton w d =>
      have hd := hw d (by simp)
      have hv' : ∀ a ∈ v, IsSmall a := fun a ha => hv a (List.mem_append_left _ ha)
      have hw' : ∀ a ∈ w, IsSmall a := fun a ha => hw a (List.mem_append_left _ ha)
      rw [rank_append_singleton, rank_append_singleton] at h
      rw [IsSmall] at hc hd
      -- the numbers of the fronts are in order, for the last letters add 26 at most
      rcases Nat.lt_or_ge (rank v) (rank w) with hlt | hge
      · exact shortlex_append_singleton (ih hv' hw' hlt) c d
      · have hfront : v = w := by
          apply eq_of_rank_eq hv' hw'
          omega
        rw [hfront] at h ⊢
        apply shortlex_of_last_lt
        rw [← toNat_lt_toNat_iff]
        omega

/-- Words are listed in the order of their numbers. -/
theorem rank_lt_iff (hv : ∀ c ∈ v, IsSmall c) (hw : ∀ c ∈ w, IsSmall c) :
    rank v < rank w ↔ List.Shortlex (· < ·) v w := by
  constructor
  · exact shortlex_of_rank_lt hv hw
  · intro h
    by_contra hnot
    rcases Nat.lt_or_eq_of_le (Nat.le_of_not_lt hnot) with hlt | heq
    · exact Std.Asymm.asymm _ _ h (shortlex_of_rank_lt hw hv hlt)
    · rw [eq_of_rank_eq hw hv heq] at h
      exact Std.Asymm.asymm _ _ h h

/-- The words with the numbers `m` and `n` are listed in the order of these. -/
theorem before_spell_iff {m n : Nat} : Before (spell m) (spell n) ↔ m < n := by
  rw [Before, ← rank_lt_iff (isWord_spell m).2 (isWord_spell n).2, rank_spell, rank_spell,
    Nat.add_lt_add_iff_right]

end Word
end Renamer
