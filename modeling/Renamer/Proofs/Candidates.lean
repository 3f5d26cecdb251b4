import Mathlib.Algebra.BigOperators.Group.Finset.Basic
import Mathlib.Algebra.Group.Action.Defs
import Renamer.Proofs.Requests

/-!
# How many words a draw tries

A draw tries one word after the other and has no bound of its own. It ends nevertheless: a word is
passed over only if it is reserved or meets a taken name, and a taken name is met by one word only,
or by one word for each method that has to avoid it. So the names taken, counted where they stand in
the way, bound the words tried (`TakenNames.draws_within`).
-/

namespace Renamer

/-! ## Searches that end -/

namespace NameSource

/-- The source has found `name`, the first word from its place on that is neither reserved nor
refused, and has used up no more than `bound` words. -/
structure FindsWithin (s : NameSource) (accept : String → Bool) (bound : Nat) (name : String)
    (s' : NameSource) : Prop where
  finds : s.Finds accept name s'
  first : ∃ n, s.IsNext accept n ∧ name = Word.spell n ∧ s'.issued = n + 1
  bounded : s'.issued ≤ s.issued + bound

/-- Where few words are refused a search ends after few words more than these. -/
theorem nextWhere_findsWithin {s : NameSource} {accept : String → Bool} {k : Nat}
    (h : RefusesAtMost accept k) :
    ∃ name s', s.nextWhere accept k = (name, s') ∧
      s.FindsWithin accept (k + Ident.reservedWords.length + 1) name s' := by
  obtain ⟨n, hnext, hlt, heq⟩ := nextWhere_eq (s := s) h
  exact ⟨_, _, heq, finds_iff.mpr ⟨n, hnext, rfl, rfl⟩, ⟨n, hnext, rfl, rfl⟩, hlt⟩

end NameSource

namespace TakenNames

variable (t : TakenNames)

/-! ## Counting what is in the way -/

/-- The number of names taken in a scope. -/
def count (scope : Scope) : Nat := (t.taken scope).toFinset.card

theorem nodup_taken (scope : Scope) : (t.taken scope).Nodup := by
  refine List.Nodup.filterMap ?_ t.nodup_pairs
  intro a b name ha hb
  simp only [Option.mem_def] at ha hb
  split at ha
  · split at hb
    · rename_i hscope hscope'
      exact Prod.ext (hscope.trans hscope'.symm) (Option.some.inj (ha.trans hb.symm))
    · cases hb
  · cases ha

theorem length_taken (scope : Scope) : (t.taken scope).length = t.count scope :=
  (List.toFinset_card_of_nodup (t.nodup_taken scope)).symm

/-- For each owner of a member, the keys taken there, once for every member it owns. -/
def groupCount (group : List MethodSymbol) : Nat :=
  ∑ owner ∈ (group.map (·.owner)).toFinset,
    t.count (.methods owner) * group.countP fun m => m.owner = owner

/-- Counting the keys in the way of one member after the other counts them owner by owner. -/
theorem inTheWay_eq (group : List MethodSymbol) : t.inTheWay group = t.groupCount group := by
  have hmembers : t.inTheWay group =
      ((group.map (·.owner)).map fun owner => t.count (.methods owner)).sum := by
    induction group with
    | nil => rfl
    | cons m group ih =>
      rw [List.map_cons, List.map_cons, List.sum_cons, ← ih, ← length_taken]
      rfl
  rw [hmembers, Finset.sum_list_map_count, groupCount]
  refine Finset.sum_congr rfl fun owner _ => ?_
  rw [smul_eq_mul, Nat.mul_comm, List.count, List.countP_map]
  congr 1

/-! ## Draws -/

/-- A draw in a scope takes the first word whose form is free there. It tries as many words as
names are taken, the reserved ones, and one more at most. -/
theorem drawAs_within (scope : Scope) {form : String → String} (hform : Function.Injective form)
    (source : NameSource) :
    ∃ name source', t.drawAs scope form source = (name, t.claim scope (form name), source') ∧
      source.FindsWithin (fun name => t.isFree scope (form name))
        (t.count scope + Ident.reservedWords.length + 1) name source' := by
  obtain ⟨name, source', heq, hfinds⟩ :=
    NameSource.nextWhere_findsWithin (s := source) (t.refusesAtMost_isFree scope hform)
  rw [length_taken] at hfinds
  refine ⟨name, source', ?_, hfinds⟩
  rw [drawAs, heq]

/-- All draws end. In the scope of a type or a field, and for a method in that of its owner, the
first word is drawn that is not reserved and free, and no more words are tried than names are taken
there and words are reserved, and one. A group keeps the chosen name where that fits; else it is
given the first word that is not reserved and fits all of its members, and the keys taken by an
owner count once for each member it owns. -/
theorem draws_within (source : NameSource) :
    (∀ scope, ∃ name source', t.draw scope source = (name, t.claim scope name, source') ∧
      source.FindsWithin (t.isFree scope) (t.count scope + Ident.reservedWords.length + 1) name
        source') ∧
    (∀ m : MethodSymbol, ∃ name source',
      t.drawMethod m source = (name, t.claimMethod m name, source') ∧
      source.FindsWithin (fun name => t.isFree (.methods m.owner) (m.keyAs name))
        (t.count (.methods m.owner) + Ident.reservedWords.length + 1) name source') ∧
    ∀ group chosen, ∃ name source', t.fitGroup group chosen source =
        (name, group.foldl (fun t m => t.claimMethod m name) t, source') ∧
      if t.groupFits group chosen then name = chosen ∧ source' = source
      else source.FindsWithin (t.groupFits group)
        (t.groupCount group + Ident.reservedWords.length + 1) name source' := by
  refine ⟨fun scope => ?_, fun m => ?_, fun group chosen => ?_⟩
  · exact t.drawAs_within scope Function.injective_id source
  · exact t.drawAs_within m.scope m.keyAs_injective source
  · have hrefuses : NameSource.RefusesAtMost (t.groupFits group) (t.inTheWay group) :=
      t.refusesAtMost_memberFits group group
    obtain ⟨name, source', heq, hfinds⟩ :=
      NameSource.nextWhere_findsWithin (s := source) hrefuses
    rw [inTheWay_eq] at hfinds
    by_cases hfits : t.groupFits group chosen = true
    · refine ⟨chosen, source, ?_, ?_⟩
      · rw [fitGroup, if_pos hfits]
      · rw [if_pos hfits]
        exact ⟨rfl, rfl⟩
    · refine ⟨name, source', ?_, ?_⟩
      · rw [fitGroup, if_neg hfits, heq]
      · rw [if_neg hfits]
        exact hfinds

end TakenNames
end Renamer
