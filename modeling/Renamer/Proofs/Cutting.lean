import Mathlib.Data.List.Infix
import Mathlib.Data.List.TakeWhile
import Renamer.Proofs.Paths

/-!
# Cut and trimmed texts

What the functions that cut texts answer, and where they give a text back as it was: `splitOnce`
cuts at the first occurrence of a separator, `trim` leaves a text alone that has no white space at
its ends, and a line feed ends a line.
-/

namespace Renamer
namespace Text

/-! ## Lines -/

/-- The pieces before an occurrence of the separator are apart from those after it. -/
theorem pieces_append_sep (sep : Char) (l rest : List Char) :
    pieces sep (l ++ sep :: rest) = pieces sep l ++ pieces sep rest := by
  induction l with
  | nil =>
    show pieces sep (sep :: rest) = [] :: pieces sep rest
    rw [pieces, if_pos rfl]
  | cons c l ih =>
    rw [List.cons_append, pieces, pieces, ih]
    split
    · rfl
    · cases hl : pieces sep l with
      | nil => exact absurd hl (pieces_eq_splitOn sep l ▸ List.splitOn_ne_nil sep l)
      | cons piece more => rfl

/-- There is one piece more than there are separators. -/
theorem length_pieces (sep : Char) (l : List Char) :
    (pieces sep l).length = l.count sep + 1 := by
  induction l with
  | nil => rfl
  | cons c l ih =>
    rw [pieces]
    by_cases hc : c = sep
    · rw [if_pos hc, List.length_cons, ih, hc, List.count_cons_self]
    · rw [if_neg hc, List.count_cons_of_ne hc, ← ih]
      cases hl : pieces sep l with
      | nil => exact absurd (hl ▸ ih) (Nat.succ_ne_zero _).symm
      | cons piece more => rfl

/-- A text without the separator is one piece. -/
theorem pieces_eq_singleton {sep : Char} {l : List Char} (h : sep ∉ l) : pieces sep l = [l] := by
  induction l with
  | nil => rfl
  | cons c l ih =>
    rw [List.mem_cons, not_or] at h
    rw [pieces, if_neg fun heq => h.1 heq.symm, ih h.2]

/-- A piece without the separator, and the separator, come off first. -/
theorem pieces_append_cons {sep : Char} {l : List Char} (h : sep ∉ l) (rest : List Char) :
    pieces sep (l ++ sep :: rest) = l :: pieces sep rest := by
  rw [pieces_append_sep, pieces_eq_singleton h, List.singleton_append]

/-! ## The first occurrence -/

variable {sep : List Char}

theorem append_dropLast_isPrefix (sep x y : List Char) : x ++ sep.dropLast <+: x ++ sep ++ y := by
  rw [List.append_assoc]
  exact (List.prefix_append_right_inj x).mpr
    ((List.dropLast_prefix sep).trans (List.prefix_append sep y))

/-- An occurrence that begins before a separator does ends before that separator does. -/
theorem splitOnce_append (hsep : sep ≠ []) {x : List Char} (h : ¬ sep <:+: x ++ sep.dropLast)
    (y : List Char) : splitOnce sep (x ++ sep ++ y) = some (x, y) := by
  induction x with
  | nil =>
    cases sep with
    | nil => exact absurd rfl hsep
    | cons c sep =>
      have hpre : (c :: sep).isPrefixOf (c :: (sep ++ y)) = true :=
        List.isPrefixOf_iff_prefix.mpr (List.prefix_append (c :: sep) y)
      rw [List.nil_append, List.cons_append, splitOnce, if_pos hpre, ← List.cons_append,
        List.drop_left]
  | cons c x ih =>
    have hnot : ¬ sep.isPrefixOf (c :: (x ++ sep ++ y)) = true := by
      intro hpre
      have hwithin : c :: x ++ sep.dropLast <+: c :: (x ++ sep ++ y) :=
        append_dropLast_isPrefix sep (c :: x) y
      have hpos := List.length_pos_iff.mpr hsep
      have hlength : sep.length ≤ (c :: x ++ sep.dropLast).length := by
        simp only [List.length_append, List.length_cons, List.length_dropLast]
        omega
      exact h (List.prefix_of_prefix_length_le (List.isPrefixOf_iff_prefix.mp hpre) hwithin
        hlength).isInfix
    have hrest : ¬ sep <:+: x ++ sep.dropLast := fun hin =>
      h (List.infix_cons hin)
    show splitOnce sep (c :: (x ++ sep ++ y)) = _
    rw [splitOnce, if_neg hnot, ih hrest]
    rfl

theorem eq_append_of_splitOnce (hsep : sep ≠ []) {l x y : List Char}
    (h : splitOnce sep l = some (x, y)) :
    l = x ++ sep ++ y ∧ ¬ sep <:+: x ++ sep.dropLast := by
  induction l generalizing x with
  | nil =>
    rw [splitOnce, if_neg (by simpa using hsep)] at h
    cases h
  | cons c rest ih =>
    rw [splitOnce] at h
    split at h
    · rename_i hpre
      cases h
      rcases List.isPrefixOf_iff_prefix.mp hpre with ⟨y, hy⟩
      constructor
      · rw [← hy, List.drop_left]
        rfl
      · intro hin
        have hle := hin.length_le
        have hpos := List.length_pos_iff.mpr hsep
        rw [List.nil_append, List.length_dropLast] at hle
        omega
    · rename_i hpre
      rcases Option.map_eq_some_iff.mp h with ⟨⟨x', y'⟩, hsplit, heq⟩
      rcases Prod.mk.inj heq with ⟨rfl, rfl⟩
      rcases ih hsplit with ⟨hrest, hnot⟩
      refine ⟨by rw [hrest]; rfl, fun hin => ?_⟩
      rcases List.infix_cons_iff.mp hin with hfront | hinner
      · -- it would begin the text
        refine hpre (List.isPrefixOf_iff_prefix.mpr (hfront.trans ?_))
        rw [hrest]
        exact append_dropLast_isPrefix sep (c :: x') y'
      · exact hnot hinner

/-- A text is cut where the separator occurs first. -/
theorem splitOnce_eq_some_iff (hsep : sep ≠ []) {l x y : List Char} :
    splitOnce sep l = some (x, y) ↔ l = x ++ sep ++ y ∧ ¬ sep <:+: x ++ sep.dropLast := by
  constructor
  · exact eq_append_of_splitOnce hsep
  · rintro ⟨rfl, hnot⟩
    exact splitOnce_append hsep hnot y

/-! ## White space -/

/-- There is no white space at the ends of a text. -/
structure Trimmed (l : List Char) : Prop where
  head : ∀ c ∈ l.head?, isBlank c = false
  last : ∀ c ∈ l.getLast?, isBlank c = false

theorem trimEnd_isPrefix (l : List Char) : trimEnd l <+: l := by
  rw [trimEnd, ← List.reverse_suffix, List.reverse_reverse]
  exact List.dropWhile_suffix _

theorem trim_isInfix (l : List Char) : trim l <:+: l := by
  have hstart : trimStart l <:+ l := List.dropWhile_suffix _
  exact (trimEnd_isPrefix (trimStart l)).isInfix.trans hstart.isInfix

/-- What is left first is no white space. -/
theorem head_dropWhile {l : List Char} {c : Char} (h : c ∈ (l.dropWhile isBlank).head?) :
    isBlank c = false := by
  have hhead := List.head?_dropWhile_not isBlank l
  rw [Option.mem_def.mp h] at hhead
  exact hhead

theorem trimmed_trim (l : List Char) : Trimmed (trim l) where
  head := by
    intro c hc
    rcases trimEnd_isPrefix (trimStart l) with ⟨rest, hrest⟩
    have hhead : c ∈ (trimStart l).head? := by
      rw [← hrest, List.head?_append, ← trim, Option.mem_def.mp hc]
      rfl
    exact head_dropWhile hhead
  last := by
    intro c hc
    rw [trim, trimEnd, List.getLast?_reverse] at hc
    exact head_dropWhile hc

/-- What is no white space stays. -/
theorem trim_ne_nil {c : Char} (h : isBlank c = false) (l : List Char) : trim (c :: l) ≠ [] := by
  intro hnil
  rw [trim, trimStart, List.dropWhile_cons_of_neg (by simp [h]), trimEnd, List.reverse_eq_nil_iff,
    List.dropWhile_eq_nil_iff] at hnil
  have hblank := hnil c (List.mem_reverse.mpr List.mem_cons_self)
  rw [h] at hblank
  cases hblank

theorem dropWhile_eq_self {l : List Char} (h : ∀ c ∈ l.head?, isBlank c = false) :
    l.dropWhile isBlank = l := by
  cases l with
  | nil => rfl
  | cons c l => rw [List.dropWhile_cons_of_neg (by rw [h c rfl]; exact Bool.false_ne_true)]

/-- A text is left as it is exactly if there is nothing to take off. -/
theorem trim_eq_self_iff {l : List Char} : trim l = l ↔ Trimmed l := by
  constructor
  · intro h
    rw [← h]
    exact trimmed_trim l
  · intro h
    rw [trim, trimStart, dropWhile_eq_self h.head, trimEnd, dropWhile_eq_self, List.reverse_reverse]
    rw [List.head?_reverse]
    exact h.last

theorem trim_trim (l : List Char) : trim (trim l) = trim l := trim_eq_self_iff.mpr (trimmed_trim l)

end Text
end Renamer
