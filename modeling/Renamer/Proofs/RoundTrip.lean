import Mathlib.Algebra.GroupWithZero.Nat
import Mathlib.Algebra.Order.BigOperators.Group.List
import Mathlib.Algebra.Order.Group.Nat
import Mathlib.Data.List.Perm.Subperm
import Renamer.Presets.MapText
import Renamer.Proofs.Cutting
import Renamer.Proofs.Tables

/-!
# Written and read again

Map text escapes nothing. An entry is read back as it was written if it is legible: both halves are
nonempty lines without white space at their ends, and the identity neither holds ` = ` nor ends in
` =`. Presets are read back from their map text, with the order of their entries, if all entries are
legible (`Presets.parse_render`), and only then (`Presets.parse_render_iff`).

For the second, what was read holds lines without white space at their ends anyway. What is left is
an identity that ends in ` =`: it is read back shorter (`Presets.rereadEntry`), and no entry is read
back longer, so that the identities come out shorter as a whole. A text can hold such an identity,
so that presets that were read are not always read back (`Presets.parse_render_parsed`).
-/

namespace Renamer

/-- An insertion adds one key at most. -/
theorem Table.sum_keys_insert_le {α β : Type} [DecidableEq α] (t : Table α β) (f : α → Nat) (k : α)
    (v : β) : ((t.insert k v).keys.map f).sum ≤ (t.keys.map f).sum + f k := by
  rw [keys_insert]
  split
  · exact Nat.le_add_right _ _
  · rw [List.map_append, List.sum_append, List.map_singleton, List.sum_singleton]

/-! ## Legible entries -/

namespace Section

theorem ofWord_eq_some_iff {word : List Char} {s : Section} :
    ofWord word = some s ↔ word = [s.letter] := by
  constructor
  · intro h
    have hfound : ([s.letter] == word) = true :=
      List.find?_some (p := fun s : Section => [s.letter] == word) h
    exact (beq_iff_eq.mp hfound).symm
  · rintro rfl
    cases s <;> rfl

end Section

namespace Presets

/-- The text can stand on one side of an entry. -/
structure IsHalf (text : String) : Prop where
  nonempty : text ≠ ""
  trimmed : Text.trim text.toList = text.toList
  oneLine : '\n' ∉ text.toList

/-- The text is read back where it stands before a separator. -/
structure IsIdentity (text : String) : Prop extends IsHalf text where
  unbroken : ¬ separator <:+: text.toList
  unended : ¬ [' ', '='] <:+ text.toList

instance (text : String) : Decidable (IsHalf text) :=
  decidable_of_iff (text ≠ "" ∧ Text.trim text.toList = text.toList ∧ '\n' ∉ text.toList)
    ⟨fun h => ⟨h.1, h.2.1, h.2.2⟩, fun h => ⟨h.nonempty, h.trimmed, h.oneLine⟩⟩

instance (text : String) : Decidable (IsIdentity text) :=
  decidable_of_iff (IsHalf text ∧ ¬ separator <:+: text.toList ∧ ¬ [' ', '='] <:+ text.toList)
    ⟨fun h => ⟨h.1, h.2.1, h.2.2⟩, fun h => ⟨h.toIsHalf, h.unbroken, h.unended⟩⟩

/-- The entry is read back from its own line. -/
structure Legible (e : String × String) : Prop where
  identity : IsIdentity e.1
  newName : IsHalf e.2

/-- The entry can come from a line. -/
structure Proper (e : String × String) : Prop where
  identity : IsHalf e.1
  newName : IsHalf e.2
  unbroken : ¬ separator <:+: e.1.toList

/-- All entries are legible. -/
def Readable (p : Presets) : Prop := ∀ s, ∀ e ∈ (p.table s).toList, Legible e

/-! ## Reading an entry -/

/-- The line of an entry without its line feed. -/
def entryText (s : Section) (e : String × String) : List Char :=
  s.letter :: ' ' :: e.1.toList ++ separator ++ e.2.toList

theorem splitOnce_separator_iff {l x y : List Char} : Text.splitOnce separator l = some (x, y) ↔
    l = x ++ separator ++ y ∧ ¬ separator <:+: x ++ [' ', '='] :=
  Text.splitOnce_eq_some_iff (by decide : separator ≠ [])

/-- An entry is read from the letter of its section, a blank, and the two sides of the first
separator. -/
theorem parseEntry_eq_ok_iff {line : List Char} {s : Section} {identity newName : String} :
    parseEntry line = .ok (s, identity, newName) ↔
      ∃ left right, line = s.letter :: ' ' :: (left ++ separator ++ right) ∧
        ¬ separator <:+: left ++ [' ', '='] ∧ Text.trim left ≠ [] ∧ Text.trim right ≠ [] ∧
        String.ofList (Text.trim left) = identity ∧ String.ofList (Text.trim right) = newName := by
  constructor
  · intro h
    unfold parseEntry at h
    split at h
    · cases h
    · rename_i kind rest hkind
      split at h
      · cases h
      · rename_i left right hsplit
        dsimp only at h
        split at h
        · cases h
        · rename_i hsome
          split at h
          · rename_i s' hword
            rcases Prod.mk.inj (Except.ok.inj h) with ⟨rfl, hhalves⟩
            rcases Prod.mk.inj hhalves with ⟨hidentity, hname⟩
            rcases Text.eq_append_of_splitOnce (by decide) hkind with ⟨hline, -⟩
            rcases splitOnce_separator_iff.mp hsplit with ⟨hrest, hfirst⟩
            rw [Bool.or_eq_true, not_or, List.isEmpty_iff, List.isEmpty_iff] at hsome
            refine ⟨left, right, ?_, hfirst, hsome.1, hsome.2, hidentity, hname⟩
            rw [hline, Section.ofWord_eq_some_iff.mp hword, hrest]
            rfl
          · cases h
  · rintro ⟨left, right, rfl, hfirst, hleft, hright, rfl, rfl⟩
    have hkind : Text.splitOnce [' '] (s.letter :: ' ' :: (left ++ separator ++ right)) =
        some ([s.letter], left ++ separator ++ right) := by
      apply Text.splitOnce_append (x := [s.letter]) (by decide)
      cases s <;> decide
    have hempty : ¬ ((Text.trim left).isEmpty || (Text.trim right).isEmpty) = true := by
      rw [Bool.or_eq_true, not_or, List.isEmpty_iff, List.isEmpty_iff]
      exact ⟨hleft, hright⟩
    have hsplit : Text.splitOnce separator (left ++ separator ++ right) = some (left, right) :=
      splitOnce_separator_iff.mpr ⟨rfl, hfirst⟩
    have hword : Section.ofWord [s.letter] = some s := Section.ofWord_eq_some_iff.mpr rfl
    unfold parseEntry
    simp only [hkind, hsplit, if_neg hempty, hword]

theorem isHalf_trim {l : List Char} (h : Text.trim l ≠ []) (hline : '\n' ∉ l) :
    IsHalf (String.ofList (Text.trim l)) where
  nonempty := by
    intro hempty
    rw [← String.toList_eq_nil_iff, String.toList_ofList] at hempty
    exact h hempty
  trimmed := by
    rw [String.toList_ofList]
    exact Text.trim_trim l
  oneLine := by
    rw [String.toList_ofList]
    exact fun hmem => hline ((Text.trim_isInfix l).subset hmem)

/-- What is read from a line is an entry that can come from a line. -/
theorem proper_of_parseEntry {line : List Char} {s : Section} {e : String × String}
    (h : parseEntry line = .ok (s, e)) (hline : '\n' ∉ line) : Proper e := by
  rcases parseEntry_eq_ok_iff.mp h with
    ⟨left, right, rfl, hfirst, hleft, hright, hidentity, hname⟩
  have hmem : ∀ {l : List Char}, l ⊆ left ++ separator ++ right → '\n' ∉ l := fun hl hc =>
    hline (List.mem_cons_of_mem _ (List.mem_cons_of_mem _ (hl hc)))
  constructor
  · rw [← hidentity]
    refine isHalf_trim hleft (hmem fun c hc => ?_)
    exact List.mem_append_left _ (List.mem_append_left _ hc)
  · rw [← hname]
    exact isHalf_trim hright (hmem fun c hc => List.mem_append_right _ hc)
  · rw [← hidentity, String.toList_ofList]
    intro hwithin
    exact hfirst ((hwithin.trans (Text.trim_isInfix left)).trans (List.prefix_append _ _).isInfix)

/-! ## Reading an entry back -/

variable {s : Section} {e : String × String}

theorem IsHalf.toList_ne_nil {text : String} (h : IsHalf text) : text.toList ≠ [] := fun hnil =>
  h.nonempty (String.toList_eq_nil_iff.mp hnil)

/-- A separator that runs into the next one begins at the end of what stands before that. -/
theorem separator_infix_append {x : List Char} (h : separator <:+: x ++ [' ', '=']) :
    separator <:+: x ∨ [' ', '='] <:+ x := by
  rcases h with ⟨u, v, huv⟩
  rcases List.append_eq_append_iff.mp huv with ⟨w, hx, -⟩ | ⟨w, hx, hw⟩
  · exact Or.inl ⟨u, w, hx.symm⟩
  · -- it ends within the next one, and there is one place for that
    have hsep : u ++ [' ', '='] ++ [' '] = x ++ w := by rw [← hx, List.append_assoc]; rfl
    match w with
    | [] => exact Or.inl ⟨u, [], by rw [hx, List.append_nil, List.append_nil]⟩
    | [c] =>
      have hinit := (List.append_inj' hsep rfl).1
      exact Or.inr ⟨u, hinit⟩
    | [b, c] =>
      cases hw
      have hlast := congrArg List.getLast? hsep
      simp at hlast
    | _ :: _ :: _ :: _ => cases hw

/-- What is read from the line of an entry. An identity that ends in the beginning of a separator
loses this ending to the alias. -/
def rereadEntry (e : String × String) : String × String :=
  if [' ', '='] <:+ e.1.toList then
    (String.ofList (Text.trim e.1.toList.dropLast.dropLast), "= " ++ e.2)
  else e

/-- What can come from a line has no white space in front, so that something is left of it. -/
theorem IsHalf.trim_ne_nil {text : String} (h : IsHalf text) {x : List Char}
    (hx : x ++ [' ', '='] = text.toList) : Text.trim x ≠ [] := by
  have hhead := (Text.trim_eq_self_iff.mp h.trimmed).head
  rw [← hx] at hhead
  cases x with
  | nil => exact absurd (hhead ' ' rfl) (by decide)
  | cons c x => exact Text.trim_ne_nil (hhead c rfl) x

theorem IsHalf.trim_equated {text : String} (h : IsHalf text) :
    Text.trim ('=' :: ' ' :: text.toList) = '=' :: ' ' :: text.toList := by
  refine Text.trim_eq_self_iff.mpr ⟨fun c hc => ?_, fun c hc => ?_⟩
  · cases hc
    decide
  · have hlast := List.getLast?_append_of_ne_nil ['=', ' '] h.toList_ne_nil
    rw [List.cons_append, List.singleton_append] at hlast
    rw [hlast] at hc
    exact (Text.trim_eq_self_iff.mp h.trimmed).last c hc

/-- An entry that can come from a line is read from its own line, as it is but for such an ending.
-/
theorem Proper.parseEntry_eq (h : Proper e) (s : Section) :
    parseEntry (entryText s e) = .ok (s, rereadEntry e) := by
  unfold rereadEntry
  split
  · rename_i hended
    obtain ⟨x, hx⟩ := hended
    have hfront : e.1.toList.dropLast.dropLast = x := by
      rw [← hx, ← List.singleton_append, ← List.append_assoc, List.dropLast_concat,
        List.dropLast_concat]
    -- the first separator begins where that ending does
    refine parseEntry_eq_ok_iff.mpr ⟨x, '=' :: ' ' :: e.2.toList, ?_, hx ▸ h.unbroken,
      h.identity.trim_ne_nil hx, ?_, ?_, ?_⟩
    · rw [entryText, ← hx]
      simp [separator]
    · rw [h.newName.trim_equated]
      exact List.cons_ne_nil _ _
    · rw [hfront]
    · rw [h.newName.trim_equated]
      apply String.toList_inj.mp
      rw [String.toList_ofList, String.toList_append]
      rfl
  · rename_i hended
    refine parseEntry_eq_ok_iff.mpr ⟨e.1.toList, e.2.toList, rfl, fun hwithin => ?_, ?_, ?_, ?_, ?_⟩
    · exact (separator_infix_append hwithin).elim h.unbroken hended
    · rw [h.identity.trimmed]
      exact h.identity.toList_ne_nil
    · rw [h.newName.trimmed]
      exact h.newName.toList_ne_nil
    · rw [h.identity.trimmed]
      exact String.ofList_toList
    · rw [h.newName.trimmed]
      exact String.ofList_toList

theorem legible_iff : Legible e ↔ Proper e ∧ ¬ [' ', '='] <:+ e.1.toList :=
  ⟨fun h => ⟨⟨h.identity.toIsHalf, h.newName, h.identity.unbroken⟩, h.identity.unended⟩,
    fun h => ⟨⟨h.1.identity, h.1.unbroken, h.2⟩, h.1.newName⟩⟩

/-- An identity is read back shorter where it loses its ending. -/
theorem length_rereadEntry_lt (h : [' ', '='] <:+ e.1.toList) :
    (rereadEntry e).1.toList.length < e.1.toList.length := by
  have hlength := h.length_le
  have hle := (Text.trim_isInfix e.1.toList.dropLast.dropLast).length_le
  rw [rereadEntry, if_pos h, String.toList_ofList]
  simp only [List.length_dropLast, List.length_cons, List.length_nil] at hle hlength
  omega

theorem length_rereadEntry_le (e : String × String) :
    (rereadEntry e).1.toList.length ≤ e.1.toList.length := by
  by_cases h : [' ', '='] <:+ e.1.toList
  · exact (length_rereadEntry_lt h).le
  · rw [rereadEntry, if_neg h]

/-! ## Reading a line -/

theorem trimmed_entryText (h : IsHalf e.2) (s : Section) : Text.Trimmed (entryText s e) where
  head := by
    intro c hc
    have hletter : s.letter = c := Option.some.inj hc
    rw [← hletter]
    cases s <;> decide
  last := by
    intro c hc
    rw [entryText, List.getLast?_append_of_ne_nil _ h.toList_ne_nil] at hc
    exact (Text.trim_eq_self_iff.mp h.trimmed).last c hc

/-- The line of an entry is neither blank nor a comment. -/
theorem addLine_entryText (p : Presets) (h : IsHalf e.2) (s : Section) :
    p.addLine (entryText s e) =
      (parseEntry (entryText s e)).map fun x => p.insert x.1 x.2.1 x.2.2 := by
  have hletter : ((s.letter == '#') : Bool) = false := by cases s <;> decide
  have hentry : ¬ ((entryText s e).isEmpty || (entryText s e).head? == some '#') = true := by
    rw [entryText]
    simpa using hletter
  rw [addLine, Text.trim_eq_self_iff.mpr (trimmed_entryText h s), if_neg hentry]

/-- A line adds nothing, or the entry that is read from it. -/
theorem addLine_eq_ok {p q : Presets} {line : List Char} (h : p.addLine line = .ok q) :
    q = p ∨ ∃ s e, parseEntry (Text.trim line) = .ok (s, e) ∧ q = p.insert s e.1 e.2 := by
  unfold addLine at h
  dsimp only at h
  split at h
  · exact Or.inl (Except.ok.inj h).symm
  · cases hparse : parseEntry (Text.trim line) with
    | error cause =>
      rw [hparse] at h
      cases h
    | ok x =>
      rw [hparse] at h
      exact Or.inr ⟨x.1, x.2, rfl, (Except.ok.inj h).symm⟩

/-! ## Entries one after the other -/

/-- All entries in the order in which they are written. -/
def entries (p : Presets) : List (Section × String × String) :=
  Section.all.flatMap fun s => (p.table s).toList.map fun e => (s, e)

theorem mem_entries {p : Presets} {s : Section} {e : String × String} :
    (s, e) ∈ p.entries ↔ e ∈ (p.table s).toList := by
  have hall : s ∈ Section.all := by cases s <;> decide
  rw [entries, List.mem_flatMap]
  constructor
  · rintro ⟨s', -, h⟩
    rcases List.mem_map.mp h with ⟨e', he', heq⟩
    rcases Prod.mk.inj heq with ⟨rfl, rfl⟩
    exact he'
  · exact fun h => ⟨s, hall, List.mem_map_of_mem h⟩

theorem table_insert (p : Presets) (s s' : Section) (k v : String) :
    (p.insert s k v).table s' = if s = s' then (p.table s').insert k v else p.table s' := by
  cases s <;> cases s' <;> rfl

/-- Entries of one section go into its table. -/
theorem table_foldl_insert (s s' : Section) (l : List (String × String)) (p : Presets) :
    ((l.map fun e => (s, e)).foldl (fun p x => p.insert x.1 x.2.1 x.2.2) p).table s' =
      if s = s' then l.foldl (fun t e => t.insert e.1 e.2) (p.table s') else p.table s' := by
  induction l generalizing p with
  | nil => rw [List.map_nil, List.foldl_nil, List.foldl_nil, ite_self]
  | cons e l ih =>
    rw [List.map_cons, List.foldl_cons, ih, table_insert, List.foldl_cons]
    split <;> rfl

theorem ext_table {p q : Presets} (h : ∀ s, p.table s = q.table s) : p = q := by
  cases p
  cases q
  congr
  · exact h .packages
  · exact h .types
  · exact h .fields
  · exact h .methods

/-- Presets filled from their own entries are those presets. -/
theorem foldl_entries (p : Presets) :
    p.entries.foldl (fun q x => q.insert x.1 x.2.1 x.2.2) {} = p := by
  apply ext_table
  intro s
  simp only [entries, Section.all, List.flatMap_cons, List.flatMap_nil, List.append_nil,
    List.foldl_append, table_foldl_insert]
  cases s <;> exact Table.ofList_toList _

/-! ## Lines one after the other -/

/-- Entries without line feeds are written on a line each. -/
theorem pieces_entryLines {l : List (Section × String × String)}
    (h : ∀ x ∈ l, '\n' ∉ x.2.1.toList ∧ '\n' ∉ x.2.2.toList) :
    Text.pieces '\n' (l.flatMap fun x => entryLine x.1 x.2) =
      (l.map fun x => entryText x.1 x.2) ++ [[]] := by
  induction l with
  | nil => rfl
  | cons x l ih =>
    have hx := h x List.mem_cons_self
    have hnone : '\n' ∉ entryText x.1 x.2 := by
      have hletter : '\n' ≠ x.1.letter := by cases x.1 <;> decide
      simp [entryText, separator, hletter, hx.1, hx.2]
    have hline : entryLine x.1 x.2 ++ l.flatMap (fun x => entryLine x.1 x.2) =
        entryText x.1 x.2 ++ '\n' :: l.flatMap fun x => entryLine x.1 x.2 := by
      rw [entryLine, List.append_assoc]
      rfl
    rw [List.flatMap_cons, hline, Text.pieces_append_cons hnone,
      ih fun y hy => h y (List.mem_cons_of_mem x hy)]
    rfl

theorem toList_render (p : Presets) : p.render.toList = "# identifier alias map".toList ++
    '\n' :: p.entries.flatMap fun x => entryLine x.1 x.2 := by
  have hentries : Section.all.flatMap p.sectionLines =
      p.entries.flatMap fun x => entryLine x.1 x.2 := by
    rw [entries, List.flatMap_assoc]
    simp only [List.flatMap_map]
    rfl
  have hheader : header = "# identifier alias map".toList ++ ['\n'] := by decide
  rw [render, String.toList_ofList, hentries, hheader, List.append_assoc, List.singleton_append]

/-- A written text is read entry by entry, where no entry holds a line feed. -/
theorem parse_render_eq {p : Presets} (h : ∀ s, ∀ e ∈ (p.table s).toList,
    '\n' ∉ e.1.toList ∧ '\n' ∉ e.2.toList) :
    parse p.render = addLines {} 2 ((p.entries.map fun x => entryText x.1 x.2) ++ [[]]) := by
  rw [parse, toList_render, Text.pieces_append_cons (by decide), pieces_entryLines]
  · rfl
  · intro x hx
    exact h x.1 x.2 (mem_entries.mp hx)

/-- What is read from the map text of presets whose entries can come from lines. -/
def reread (p : Presets) : Presets :=
  p.entries.foldl (fun q x => q.insert x.1 (rereadEntry x.2).1 (rereadEntry x.2).2) {}

/-- Entries that can come from lines are read one after the other. -/
theorem addLines_proper {l : List (Section × String × String)} (h : ∀ x ∈ l, Proper x.2)
    (p : Presets) (number : Nat) :
    p.addLines number ((l.map fun x => entryText x.1 x.2) ++ [[]]) =
      .ok (l.foldl (fun q x => q.insert x.1 (rereadEntry x.2).1 (rereadEntry x.2).2) p) := by
  induction l generalizing p number with
  | nil => rfl
  | cons x l ih =>
    have hx := h x List.mem_cons_self
    have hadd : p.addLine (entryText x.1 x.2) =
        .ok (p.insert x.1 (rereadEntry x.2).1 (rereadEntry x.2).2) := by
      rw [addLine_entryText p hx.newName, hx.parseEntry_eq]
      rfl
    rw [List.map_cons, List.cons_append, addLines, hadd, List.foldl_cons]
    exact ih (fun y hy => h y (List.mem_cons_of_mem x hy)) _ _

theorem parse_render_proper {p : Presets} (h : ∀ s, ∀ e ∈ (p.table s).toList, Proper e) :
    parse p.render = .ok p.reread := by
  rw [parse_render_eq fun s e he => ⟨(h s e he).identity.oneLine, (h s e he).newName.oneLine⟩,
    addLines_proper fun x hx => h x.1 x.2 (mem_entries.mp hx)]
  rfl

/-- No identity ends in the beginning of a separator. -/
def Unended (p : Presets) : Prop := ∀ s, ∀ e ∈ (p.table s).toList, ¬ [' ', '='] <:+ e.1.toList

theorem Unended.reread_eq {p : Presets} (h : p.Unended) : p.reread = p := by
  have hsame : p.reread = p.entries.foldl (fun q x => q.insert x.1 x.2.1 x.2.2) {} := by
    refine List.foldl_ext _ _ _ fun q x hx => ?_
    rw [rereadEntry, if_neg (h x.1 x.2 (mem_entries.mp hx))]
  exact hsame.trans (foldl_entries p)

/-- Presets with legible entries are read back, with the order of their entries. -/
theorem parse_render {p : Presets} (h : p.Readable) : parse p.render = .ok p := by
  rw [parse_render_proper fun s e he => (legible_iff.mp (h s e he)).1,
    Unended.reread_eq fun s e he => (legible_iff.mp (h s e he)).2]

/-! ## What is read back -/

theorem sameEntries_self (p : Presets) : p.sameEntries p = true := by
  simp only [sameEntries, Table.sameEntries_self, Bool.and_self]

theorem perm_of_sameEntries {p q : Presets} (h : p.sameEntries q = true) (s : Section) :
    (p.table s).toList.Perm (q.table s).toList := by
  simp only [sameEntries, Bool.and_eq_true] at h
  rcases h with ⟨⟨⟨hpackages, htypes⟩, hfields⟩, hmethods⟩
  cases s
  · exact Table.perm_of_sameEntries hpackages
  · exact Table.perm_of_sameEntries htypes
  · exact Table.perm_of_sameEntries hfields
  · exact Table.perm_of_sameEntries hmethods

/-- What was read are entries that can come from a line. -/
theorem proper_of_addLines {p q : Presets} {number : Nat} {lines : List (List Char)}
    (h : p.addLines number lines = .ok q) (hlines : ∀ line ∈ lines, '\n' ∉ line)
    (hp : ∀ s, ∀ e ∈ (p.table s).toList, Proper e) : ∀ s, ∀ e ∈ (q.table s).toList, Proper e := by
  induction lines generalizing p number with
  | nil => exact Except.ok.inj h ▸ hp
  | cons line lines ih =>
    rw [addLines] at h
    split at h
    · rename_i p' hline
      refine ih h (fun l hl => hlines l (List.mem_cons_of_mem line hl)) fun s e he => ?_
      rcases addLine_eq_ok hline with rfl | ⟨s', e', hparse, rfl⟩
      · exact hp s e he
      · rw [table_insert] at he
        split at he
        · rcases Table.mem_insert he with rfl | hold
          · refine proper_of_parseEntry hparse fun hmem => ?_
            exact hlines line List.mem_cons_self ((Text.trim_isInfix line).subset hmem)
          · exact hp s e hold
        · exact hp s e he
    · cases h

theorem proper_of_parse {text : String} {q : Presets} (h : parse text = .ok q) :
    ∀ s, ∀ e ∈ (q.table s).toList, Proper e := by
  refine proper_of_addLines h (fun line hline => Text.sep_notMem_of_mem_pieces hline)
    fun s e he => ?_
  cases s <;> cases he

/-- The length of all identities together. -/
def identityLength (p : Presets) : Nat :=
  (Section.all.map fun s => ((p.table s).keys.map fun k => k.toList.length).sum).sum

theorem identityLength_eq (p : Presets) :
    p.identityLength = (p.entries.map fun x => x.2.1.toList.length).sum := by
  simp only [identityLength, entries, Section.all, Table.keys, List.map_map, List.flatMap_cons,
    List.flatMap_nil, List.append_nil, List.map_append, List.sum_append, List.map_cons,
    List.map_nil, List.sum_cons, List.sum_nil]
  rfl

theorem identityLength_insert_le (p : Presets) (s : Section) (k v : String) :
    (p.insert s k v).identityLength ≤ p.identityLength + k.toList.length := by
  have htable := (p.table s).sum_keys_insert_le (fun k => k.toList.length) k v
  simp only [identityLength, Section.all, List.map_cons, List.map_nil, List.sum_cons, List.sum_nil,
    table_insert]
  cases s <;> simp only [if_true, reduceCtorEq, if_false] <;> omega

theorem identityLength_eq_of_sameEntries {p q : Presets} (h : p.sameEntries q = true) :
    p.identityLength = q.identityLength := by
  have hsum : ∀ s, ((p.table s).keys.map fun k => k.toList.length).sum =
      ((q.table s).keys.map fun k => k.toList.length).sum := fun s =>
    (((perm_of_sameEntries h s).map Prod.fst).map _).sum_nat
  simp only [identityLength, hsum]

theorem identityLength_reread_le (p : Presets) :
    p.reread.identityLength ≤ (p.entries.map fun x => (rereadEntry x.2).1.toList.length).sum := by
  have hall : ∀ (l : List (Section × String × String)) (q : Presets),
      (l.foldl (fun q x => q.insert x.1 (rereadEntry x.2).1 (rereadEntry x.2).2) q).identityLength ≤
        q.identityLength + (l.map fun x => (rereadEntry x.2).1.toList.length).sum := by
    intro l
    induction l with
    | nil => exact fun q => Nat.le_refl _
    | cons x l ih =>
      intro q
      have hinsert := q.identityLength_insert_le x.1 (rereadEntry x.2).1 (rereadEntry x.2).2
      have hrest := ih (q.insert x.1 (rereadEntry x.2).1 (rereadEntry x.2).2)
      rw [List.foldl_cons, List.map_cons, List.sum_cons]
      omega
  have hzero : ({} : Presets).identityLength = 0 := rfl
  have hle := hall p.entries {}
  rwa [hzero, Nat.zero_add] at hle

/-- Where an identity loses its ending, the identities come out shorter as a whole. -/
theorem sameEntries_reread_iff {p : Presets} : p.reread.sameEntries p = true ↔ p.Unended := by
  constructor
  · intro hsame s e he hended
    have hlt : (p.entries.map fun x => (rereadEntry x.2).1.toList.length).sum <
        (p.entries.map fun x => x.2.1.toList.length).sum :=
      List.sum_lt_sum _ _ (fun x _ => length_rereadEntry_le x.2)
        ⟨(s, e), mem_entries.mpr he, length_rereadEntry_lt hended⟩
    have hle := p.identityLength_reread_le
    rw [identityLength_eq_of_sameEntries hsame, identityLength_eq] at hle
    omega
  · intro h
    rw [h.reread_eq]
    exact sameEntries_self p

/-- Presets that are read back, in whatever order, have legible entries. -/
theorem Readable.of_parse_render {p q : Presets} (h : parse p.render = .ok q)
    (hsame : q.sameEntries p = true) : p.Readable := by
  have hproper : ∀ s, ∀ e ∈ (p.table s).toList, Proper e := fun s e he =>
    proper_of_parse h s e ((perm_of_sameEntries hsame s).mem_iff.mpr he)
  cases (parse_render_proper hproper).symm.trans h
  exact fun s e he => legible_iff.mpr ⟨hproper s e he, sameEntries_reread_iff.mp hsame s e he⟩

/-- Presets are read back exactly if their entries are legible. -/
theorem readable_iff {p : Presets} :
    p.Readable ↔ ∃ q, parse p.render = .ok q ∧ q.sameEntries p = true := by
  constructor
  · exact fun h => ⟨p, parse_render h, sameEntries_self p⟩
  · rintro ⟨q, hparse, hsame⟩
    exact Readable.of_parse_render hparse hsame

/-- Presets are read back from their map text, in whatever order, exactly if each half of each entry
is a nonempty line without white space at its ends, and no identity holds a separator or ends in the
beginning of one; and exactly then they are read back in their order. -/
theorem parse_render_iff (p : Presets) :
    ((∃ q, parse p.render = .ok q ∧ q.sameEntries p = true) ↔
        ∀ s, ∀ e ∈ (p.table s).toList, Legible e) ∧
      (parse p.render = .ok p ↔ ∀ s, ∀ e ∈ (p.table s).toList, Legible e) :=
  ⟨readable_iff.symm, fun h => readable_iff.mpr ⟨p, h, sameEntries_self p⟩, parse_render⟩

/-! ## Read, written and read again -/

/-- What was read from a text can be written and read again. An identity that ends in the beginning
of a separator then loses this ending, and the white space in front of it, to its alias; the presets
are the same again exactly if there is no such identity, and then so is their order. -/
theorem parse_render_parsed (text : String) (p : Presets) (h : parse text = .ok p) :
    parse p.render = .ok p.reread ∧ (p.reread.sameEntries p = true ↔ p.Unended) ∧
      (p.Unended → p.reread = p) :=
  ⟨parse_render_proper (proper_of_parse h), sameEntries_reread_iff, Unended.reread_eq⟩

/-- A tab after an equals sign keeps it from the separator that follows. Written with a blank in its
place, the first entry is read as one for the type of the second. -/
theorem parse_render_parsed_tab : ∃ p, parse "c a =\t = x\nc a = y\nm b = z" = .ok p ∧
    p.types.toList = [("a =", "x"), ("a", "y")] ∧ p.methods.toList = [("b", "z")] ∧
    p.reread.types.toList = [("a", "y")] ∧ p.reread.methods.toList = [("b", "z")] ∧
    parse p.render = .ok p.reread ∧ p.reread.sameEntries p = false := by
  let p : Presets :=
    { types := { toList := [("a =", "x"), ("a", "y")], nodup_keys := by decide }
      methods := { toList := [("b", "z")], nodup_keys := by decide } }
  have hp : parse "c a =\t = x\nc a = y\nm b = z" = .ok p := by decide +kernel
  obtain ⟨hback, hsame, -⟩ := parse_render_parsed _ p hp
  refine ⟨p, hp, rfl, rfl, by decide +kernel, by decide +kernel, hback, ?_⟩
  have hended : ¬ p.Unended := fun h => h .types ("a =", "x") List.mem_cons_self (by decide)
  exact Bool.eq_false_iff.mpr fun h => hended (hsame.mp h)

/-- The one preset of a text comes back as a preset of another type. -/
theorem not_sameEntries_of_parse : ∃ p q, parse "c a =\t = x" = .ok p ∧ parse p.render = .ok q ∧
    p.types.toList = [("a =", "x")] ∧ q.types.toList = [("a", "= x")] ∧
    q.sameEntries p = false :=
  ⟨{ types := { toList := [("a =", "x")], nodup_keys := by decide } },
    { types := { toList := [("a", "= x")], nodup_keys := by decide } },
    by decide +kernel, by decide +kernel, rfl, rfl, by decide⟩

end Presets
end Renamer
