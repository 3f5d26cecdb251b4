import Renamer.Proofs.RoundTrip

/-!
# Map texts one after the other

A map text whose last line is ended can be followed by another one. The two are read as one text:
what the second holds is laid over what the first holds, and the first fault of either is reported,
at its line of the whole (`Presets.parse_append`).
-/

namespace Renamer

/-! ## Tables laid over one another -/

namespace Table

variable {α β : Type} [DecidableEq α]

/-- Keys that are new come last, in the order in which they are put in. -/
theorem keys_foldl_insert (s : Table α β) {l : List (α × β)} (hl : (l.map Prod.fst).Nodup) :
    (l.foldl (fun s e => s.insert e.1 e.2) s).keys =
      s.keys ++ (l.map Prod.fst).filter fun k => k ∉ s.keys := by
  induction l generalizing s with
  | nil => simp
  | cons e l ih =>
    obtain ⟨hkey, hl⟩ := List.nodup_cons.mp hl
    rw [List.foldl_cons, ih _ hl, keys_insert, List.map_cons]
    by_cases hmem : e.1 ∈ s.keys
    · rw [if_pos hmem, List.filter_cons_of_neg (by simpa using hmem)]
    · rw [if_neg hmem, List.filter_cons_of_pos (by simpa using hmem), List.append_assoc,
        List.singleton_append]
      -- the key that was put in does not come again
      congr 2
      refine List.filter_congr fun k hk => ?_
      have hne : k ≠ e.1 := fun heq => hkey (heq ▸ hk)
      simp [hne]

/-- A key that is there keeps its place, and the others follow in their order. -/
theorem keys_overlay (s t : Table α β) :
    (s.overlay t).keys = s.keys ++ t.keys.filter fun k => k ∉ s.keys :=
  keys_foldl_insert s t.nodup_keys

/-- What the table on top holds under a key covers what the one below holds there. -/
theorem get?_overlay (s t : Table α β) (k : α) :
    (s.overlay t).get? k = (t.get? k).or (s.get? k) := by
  ext v
  rw [overlay, get?_foldl_insert s t.nodup_keys, ← get?_eq_some_iff, Option.or_eq_some_iff]
  refine or_congr_right (and_congr_left fun _ => ?_)
  rw [get?_eq_none_iff]
  rfl

theorem empty_overlay (t : Table α β) : ({} : Table α β).overlay t = t := ofList_toList t

/-- What is put into the table on top is put over the one below. -/
theorem insert_overlay (s t : Table α β) (k : α) (v : β) :
    (s.overlay t).insert k v = s.overlay (t.insert k v) := by
  refine ext_get? ?_ fun k' => ?_
  · have hmem : k ∈ (s.overlay t).keys ↔ k ∈ s.keys ∨ k ∈ t.keys := by
      rw [keys_overlay, List.mem_append, List.mem_filter]
      by_cases hs : k ∈ s.keys <;> simp [hs]
    rw [keys_insert, keys_overlay s (t.insert k v), keys_insert]
    by_cases ht : k ∈ t.keys
    · rw [if_pos (hmem.mpr (Or.inr ht)), if_pos ht, keys_overlay]
    · rw [if_neg ht, List.filter_append, ← List.append_assoc, ← keys_overlay]
      by_cases hs : k ∈ s.keys
      · rw [if_pos (hmem.mpr (Or.inl hs)), List.filter_cons_of_neg (by simpa using hs),
          List.filter_nil, List.append_nil]
      · rw [if_neg fun h => (hmem.mp h).elim hs ht, List.filter_cons_of_pos (by simpa using hs),
          List.filter_nil]
  · rw [get?_insert, get?_overlay, get?_overlay, get?_insert]
    split <;> rfl

end Table

namespace Presets

/-! ## Presets laid over one another -/

/-- `p` with the entries of `q` on top, section by section. -/
def overlay (p q : Presets) : Presets where
  packages := p.packages.overlay q.packages
  types := p.types.overlay q.types
  fields := p.fields.overlay q.fields
  methods := p.methods.overlay q.methods

theorem table_overlay (p q : Presets) (s : Section) :
    (p.overlay q).table s = (p.table s).overlay (q.table s) := by
  cases s <;> rfl

theorem overlay_empty (p : Presets) : p.overlay {} = p := rfl

theorem empty_overlay (q : Presets) : ({} : Presets).overlay q = q := by
  refine ext_table fun s => ?_
  rw [table_overlay]
  cases s <;> exact Table.empty_overlay _

theorem insert_overlay (p q : Presets) (s : Section) (identity newName : String) :
    (p.overlay q).insert s identity newName = p.overlay (q.insert s identity newName) := by
  refine ext_table fun s' => ?_
  rw [table_insert, table_overlay, table_overlay, table_insert]
  split
  · exact Table.insert_overlay _ _ identity newName
  · rfl

/-! ## Lines one after the other -/

/-- A line adds to presets what it adds to those on top. -/
theorem addLine_overlay (p q : Presets) (line : List Char) :
    (p.overlay q).addLine line = (q.addLine line).map p.overlay := by
  unfold addLine
  dsimp only
  split
  · rfl
  · cases parseEntry (Text.trim line) with
    | error cause => rfl
    | ok e => exact congrArg Except.ok (insert_overlay p q e.1 e.2.1 e.2.2)

theorem addLines_overlay (p q : Presets) (number : Nat) (lines : List (List Char)) :
    (p.overlay q).addLines number lines = (q.addLines number lines).map p.overlay := by
  induction lines generalizing q number with
  | nil => rfl
  | cons line lines ih =>
    rw [addLines, addLines, addLine_overlay]
    cases q.addLine line with
    | error cause => rfl
    | ok r => exact ih r (number + 1)

/-- A fault is reported at its line, counted from the number of the first line. -/
theorem addLines_add (p : Presets) (number skipped : Nat) (lines : List (List Char)) :
    p.addLines (number + skipped) lines = (p.addLines number lines).mapError fun fault =>
      { fault with line := fault.line + skipped } := by
  induction lines generalizing p number with
  | nil => rfl
  | cons line lines ih =>
    rw [addLines, addLines]
    cases p.addLine line with
    | error cause => rfl
    | ok q =>
      rw [← ih q (number + 1), Nat.add_right_comm]

/-- Later lines add to `p` what they hold themselves, and are counted on. -/
theorem addLines_after (p : Presets) (skipped : Nat) (lines : List (List Char)) :
    p.addLines (1 + skipped) lines = ((addLines {} 1 lines).map p.overlay).mapError fun fault =>
      { fault with line := fault.line + skipped } := by
  conv_lhs => rw [← overlay_empty p]
  rw [addLines_overlay, addLines_add]
  cases addLines {} 1 lines <;> rfl

theorem addLines_append (p : Presets) (number : Nat) (front back : List (List Char)) :
    p.addLines number (front ++ back) =
      p.addLines number front >>= fun q => q.addLines (number + front.length) back := by
  induction front generalizing p number with
  | nil => rfl
  | cons line front ih =>
    rw [List.cons_append, addLines, addLines, List.length_cons]
    cases p.addLine line with
    | error cause => rfl
    | ok q =>
      rw [← Nat.add_assoc, Nat.add_right_comm]
      exact ih q (number + 1)

/-- What follows the end of a line is read after what stands before it. -/
theorem parse_append_lines (front : List Char) (t : String) :
    parse (String.ofList (front ++ ['\n']) ++ t) =
      parse (String.ofList (front ++ ['\n'])) >>= fun p => ((parse t).map p.overlay).mapError
        fun fault => { fault with line := fault.line + (front ++ ['\n']).count '\n' } := by
  have hcount : (Text.pieces '\n' front).length = (front ++ ['\n']).count '\n' := by
    rw [Text.length_pieces, List.count_append]
    rfl
  have hfront : parse (String.ofList (front ++ ['\n'])) =
      addLines {} 1 (Text.pieces '\n' front) := by
    -- the last line is empty
    rw [parse, String.toList_ofList, Text.pieces_append_sep, addLines_append]
    exact bind_pure _
  rw [hfront, parse, String.toList_append, String.toList_ofList, List.append_assoc,
    List.singleton_append, Text.pieces_append_sep, addLines_append, hcount]
  refine bind_congr fun p => ?_
  exact addLines_after p _ (Text.pieces '\n' t.toList)

/-- A text that is empty or ends with a line feed may be followed by any other. A fault of the first
text is the fault of both. Where the first text has none, a fault of the second one is the fault of
both, at a line that is counted on. Where neither has a fault, what the second text holds is laid
over what the first one holds: an identity that comes again keeps its place and has the later alias,
and new identities follow in their order. -/
theorem parse_append (s t : String) (hs : s = "" ∨ ['\n'] <:+ s.toList) :
    (∀ fault, parse s = .error fault → parse (s ++ t) = .error fault) ∧
      (∀ p fault, parse s = .ok p → parse t = .error fault →
        parse (s ++ t) = .error ⟨fault.line + s.toList.count '\n', fault.cause⟩) ∧
      ∀ p q, parse s = .ok p → parse t = .ok q → parse (s ++ t) = .ok (p.overlay q) ∧
        ∀ kind, ((p.overlay q).table kind).keys = (p.table kind).keys ++
            (q.table kind).keys.filter (fun identity => identity ∉ (p.table kind).keys) ∧
          ∀ identity, ((p.overlay q).table kind).get? identity =
            ((q.table kind).get? identity).or ((p.table kind).get? identity) := by
  have hboth : parse (s ++ t) = parse s >>= fun p => ((parse t).map p.overlay).mapError
      fun fault => ⟨fault.line + s.toList.count '\n', fault.cause⟩ := by
    rcases hs with rfl | ⟨front, hfront⟩
    · have hnone : parse "" = .ok {} := rfl
      rw [hnone, String.empty_append]
      show parse t = ((parse t).map (({} : Presets).overlay)).mapError _
      cases parse t with
      | error fault => rfl
      | ok q => exact congrArg Except.ok (empty_overlay q).symm
    · have hs : s = String.ofList (front ++ ['\n']) := by
        rw [hfront, String.ofList_toList]
      rw [hs, String.toList_ofList]
      exact parse_append_lines front t
  refine ⟨fun fault hp => ?_, fun p fault hp hq => ?_, fun p q hp hq => ⟨?_, fun kind => ?_⟩⟩
  · rw [hboth, hp]
    rfl
  · rw [hboth, hp, hq]
    rfl
  · rw [hboth, hp, hq]
    rfl
  · rw [table_overlay]
    exact ⟨Table.keys_overlay _ _, Table.get?_overlay _ _⟩

/-- A type has another alias in a second text, which names a field, too; a third text has a fault on
its second line, and reports it whatever comes after. -/
theorem parse_append_labels :
    (∃ r, parse ("c a.b = Widget\nc a.c = Button\n" ++ "f x:I = y\nc a.b = Label") = .ok r ∧
      r.types.toList = [("a.b", "Label"), ("a.c", "Button")] ∧ r.fields.toList = [("x:I", "y")]) ∧
      parse ("c a.b = Widget\nc a.c = Button\n" ++ "# more\nx a.d = Other\n") =
        .error ⟨4, .unknownKind "x"⟩ ∧
      ∀ t, parse ("# more\nx a.d = Other\n" ++ t) = .error ⟨2, .unknownKind "x"⟩ := by
  let p : Presets :=
    { types := { toList := [("a.b", "Widget"), ("a.c", "Button")], nodup_keys := by decide } }
  let q : Presets :=
    { types := { toList := [("a.b", "Label")], nodup_keys := by decide }
      fields := { toList := [("x:I", "y")], nodup_keys := by decide } }
  have hp : parse "c a.b = Widget\nc a.c = Button\n" = .ok p := by decide +kernel
  have hq : parse "f x:I = y\nc a.b = Label" = .ok q := by decide +kernel
  have hfault : parse "# more\nx a.d = Other\n" = .error ⟨2, .unknownKind "x"⟩ := by decide +kernel
  obtain ⟨-, -, hboth⟩ := parse_append _ "f x:I = y\nc a.b = Label"
    (Or.inr (by decide : ['\n'] <:+ "c a.b = Widget\nc a.c = Button\n".toList))
  obtain ⟨-, hsecond, -⟩ := parse_append _ "# more\nx a.d = Other\n"
    (Or.inr (by decide : ['\n'] <:+ "c a.b = Widget\nc a.c = Button\n".toList))
  refine ⟨⟨p.overlay q, (hboth p q hp hq).1, by decide, by decide⟩, hsecond p _ hp hfault,
    fun t => ?_⟩
  obtain ⟨hfirst, -⟩ := parse_append _ t
    (Or.inr (by decide : ['\n'] <:+ "# more\nx a.d = Other\n".toList))
  exact hfirst _ hfault

end Presets
end Renamer
