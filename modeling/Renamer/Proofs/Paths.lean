import Mathlib.Data.List.Basic
import Renamer.Package.Path
import Renamer.Proofs.Words

/-!
# Texts of package paths

A path and its text are two forms of the same where every segment is one: nonempty and without a
dot. Such paths are told apart by their texts, and a dotted text without empty segments is read
and written back unchanged.
-/

namespace Renamer

namespace Text

/-! ## Pieces -/

/-- Cutting at a character is the splitting of lists. -/
theorem pieces_eq_splitOn (sep : Char) (l : List Char) : pieces sep l = l.splitOn sep := by
  induction l with
  | nil => rfl
  | cons c rest ih =>
    rw [pieces, ih, List.splitOn_eq_splitOnP, List.splitOn_eq_splitOnP,
      List.splitOnP_cons_eq_if_modifyHead]
    by_cases h : c = sep
    · rw [if_pos h, if_pos (beq_iff_eq.mpr h)]
    · rw [if_neg h, if_neg fun hc => h (beq_iff_eq.mp hc)]
      cases hrest : rest.splitOnP (· == sep) with
      | nil => exact absurd hrest (List.splitOnP_ne_nil _ rest)
      | cons piece more => rfl

/-- No piece holds the character cut at. -/
theorem sep_notMem_of_mem_pieces {sep : Char} {l piece : List Char} (h : piece ∈ pieces sep l) :
    sep ∉ piece := by
  induction l generalizing piece with
  | nil =>
    rw [List.mem_singleton.mp h]
    exact List.not_mem_nil
  | cons c rest ih =>
    rw [pieces] at h
    split at h
    · rcases List.mem_cons.mp h with hnil | hrest
      · rw [hnil]
        exact List.not_mem_nil
      · exact ih hrest
    · rename_i hc
      cases hrest : pieces sep rest with
      | nil =>
        rw [hrest] at h
        rw [List.mem_singleton.mp h, List.mem_singleton]
        exact fun heq => hc heq.symm
      | cons first more =>
        rw [hrest] at h ih
        rcases List.mem_cons.mp h with hfirst | hmore
        · rw [hfirst, List.mem_cons, not_or]
          exact ⟨fun heq => hc heq.symm, ih List.mem_cons_self⟩
        · exact ih (List.mem_cons_of_mem _ hmore)

end Text

namespace PackagePath

/-! ## Segments -/

/-- What can stand between two dots. -/
def IsSegment (s : String) : Prop := s ≠ "" ∧ '.' ∉ s.toList

/-- A word is a segment. -/
theorem isSegment_spell (n : Nat) : IsSegment (Word.spell n) := by
  refine ⟨Word.spell_ne_empty n, fun hdot => ?_⟩
  exact absurd (Word.isSmall_of_mem_spell hdot).1 (by decide)

/-- A text is read as segments. -/
theorem isSegment_of_mem_ofText {text s : String} (h : s ∈ ofText text) : IsSegment s := by
  rcases List.mem_map.mp h with ⟨piece, hpiece, rfl⟩
  rcases List.mem_filter.mp hpiece with ⟨hmem, hnonempty⟩
  constructor
  · intro hempty
    have hnil : piece = [] := by
      rw [← String.toList_ofList (l := piece), hempty]
      rfl
    rw [hnil] at hnonempty
    cases hnonempty
  · rw [String.toList_ofList]
    exact Text.sep_notMem_of_mem_pieces hmem

theorem hasDigit_text (path : PackagePath) :
    Ident.hasDigit (text path) = path.any Ident.hasDigit := by
  induction path with
  | nil => rfl
  | cons s rest ih =>
    cases rest with
    | nil =>
      rw [text, String.intercalate_singleton, List.any_cons, List.any_nil, Bool.or_false]
    | cons s' rest =>
      have hdot : Ident.hasDigit "." = false := rfl
      rw [text, String.intercalate_cons_cons, Ident.hasDigit_append, Ident.hasDigit_append, hdot,
        Bool.or_false, ← text, ih]
      rfl

/-- A path of segments is read back from its text. -/
theorem ofText_text {path : PackagePath} (h : ∀ s ∈ path, IsSegment s) :
    ofText (text path) = path := by
  by_cases hpath : path = []
  · rw [hpath]
    rfl
  · have hnodot : ∀ l ∈ path.map String.toList, '.' ∉ l := by
      intro l hl
      rcases List.mem_map.mp hl with ⟨s, hs, rfl⟩
      exact (h s hs).2
    have hpieces : Text.pieces '.' (text path).toList = path.map String.toList := by
      rw [Text.pieces_eq_splitOn, text, String.toList_intercalate]
      exact List.splitOn_intercalate '.' hnodot fun hnil => hpath (List.map_eq_nil_iff.mp hnil)
    -- no piece is empty, so none is passed over
    have hall : ∀ l ∈ path.map String.toList, (!l.isEmpty) = true := by
      intro l hl
      rcases List.mem_map.mp hl with ⟨s, hs, rfl⟩
      have hne : s.toList ≠ [] := fun hnil => (h s hs).1 (String.toList_inj.mp hnil)
      simpa using hne
    rw [ofText, Text.segments, hpieces, List.filter_eq_self.mpr hall, List.map_map]
    refine (List.map_congr_left fun s _ => ?_).trans (List.map_id path)
    exact String.ofList_toList

/-- Paths of segments with one text are one path. -/
theorem eq_of_text_eq {a b : PackagePath} (ha : ∀ s ∈ a, IsSegment s) (hb : ∀ s ∈ b, IsSegment s)
    (h : text a = text b) : a = b := by
  rw [← ofText_text ha, ← ofText_text hb, h]

/-- The dotted text `text` has no empty segment; the empty text has no segment at all. -/
def Gapless (text : String) : Prop := text = "" ∨ [] ∉ Text.pieces '.' text.toList

instance (text : String) : Decidable (Gapless text) :=
  inferInstanceAs (Decidable (text = "" ∨ [] ∉ Text.pieces '.' text.toList))

/-- A text without empty segments is the text of the path read from it. -/
theorem text_ofText {s : String} (h : Gapless s) : text (ofText s) = s := by
  rcases h with hempty | hnone
  · rw [hempty]
    rfl
  · have hall : ∀ l ∈ Text.pieces '.' s.toList, (!l.isEmpty) = true := by
      intro l hl
      cases l with
      | nil => exact absurd hl hnone
      | cons c l => rfl
    apply String.toList_inj.mp
    rw [text, String.toList_intercalate, ofText, Text.segments, List.filter_eq_self.mpr hall,
      List.map_map, Text.pieces_eq_splitOn]
    have hid : (String.toList ∘ String.ofList) = (id : List Char → List Char) :=
      funext fun l => String.toList_ofList
    rw [hid, List.map_id]
    exact List.intercalate_splitOn '.'

/-! ## Lineages -/

/-- The lineage of a path are its nonempty prefixes. -/
theorem mem_lineage {a path : PackagePath} : a ∈ path.lineage ↔ a ≠ [] ∧ a <+: path := by
  rw [lineage, List.mem_map]
  constructor
  · intro h
    rcases h with ⟨n, hn, rfl⟩
    have hlt := List.mem_range.mp hn
    refine ⟨fun hnil => ?_, List.take_prefix _ _⟩
    have hlen := congrArg List.length hnil
    rw [List.length_take, List.length_nil] at hlen
    omega
  · intro h
    rcases h with ⟨hne, hpre⟩
    have hlen : 0 < a.length := List.length_pos_iff.mpr hne
    have hle := hpre.length_le
    refine ⟨a.length - 1, List.mem_range.mpr (by omega), ?_⟩
    rw [Nat.sub_add_cancel hlen]
    exact (List.prefix_iff_eq_take.mp hpre).symm

/-- The segments along a lineage are those of the path. -/
theorem segment_mem_of_mem_lineage {a path : PackagePath} (h : a ∈ path.lineage) :
    a.segment ∈ path := by
  rcases mem_lineage.mp h with ⟨hne, hpre⟩
  apply hpre.subset
  rw [segment, List.getLast?_eq_getLast_of_ne_nil hne]
  exact List.getLast_mem hne

theorem lineage_append_singleton (path : PackagePath) (s : String) :
    lineage (path ++ [s]) = lineage path ++ [path ++ [s]] := by
  have hlen : (path ++ [s]).length = path.length + 1 := by simp
  rw [lineage, lineage, hlen, List.range_succ, List.map_append, List.map_singleton, ← hlen,
    List.take_length]
  congr 1
  refine List.map_congr_left fun n hn => ?_
  have hlt := List.mem_range.mp hn
  rw [List.take_append_of_le_length hlt]

theorem segment_append_singleton (path : PackagePath) (s : String) :
    segment (path ++ [s]) = s := by
  rw [segment, List.getLast?_concat]
  rfl

end PackagePath
end Renamer
