import Mathlib.Data.List.Nodup
import Mathlib.Data.List.Perm.Subperm
import Renamer.Proofs.Words
import Renamer.Scope

/-!
# Fresh names

A name source searches a bounded number of words. This file shows that the bound is never felt:
where no more words are refused than the caller says, the answer is the next word that is neither
reserved nor refused.

* `NameSource.IsNext` says which word that is, without the bound.
* `TakenNames.drawAs_eq` and `TakenNames.fitGroup_eq` describe draws by it. Taken names refuse few
  words because different words stand for different names.
-/

namespace Renamer

/-! ## The next word -/

namespace NameSource

/-- The word with the number `n` is the first from `s` on that is neither reserved nor refused. -/
structure IsNext (s : NameSource) (accept : String → Bool) (n : Nat) : Prop where
  issued_le : s.issued ≤ n
  not_reserved : Ident.isReservedWord (Word.spell n) = false
  accepted : accept (Word.spell n) = true
  first : ∀ k, s.issued ≤ k → k < n →
    Ident.isReservedWord (Word.spell k) = true ∨ accept (Word.spell k) = false

theorem IsNext.unique {s : NameSource} {accept : String → Bool} {m n : Nat}
    (hm : s.IsNext accept m) (hn : s.IsNext accept n) : m = n := by
  have key : ∀ {a b : Nat}, s.IsNext accept a → s.IsNext accept b → ¬ a < b := by
    intro a b ha hb hlt
    rcases hb.first a ha.issued_le hlt with h | h
    · rw [ha.not_reserved] at h
      cases h
    · rw [ha.accepted] at h
      cases h
  have hmn := key hm hn
  have hnm := key hn hm
  omega

/-- `accept` refuses no more than `k` words. -/
def RefusesAtMost (accept : String → Bool) (k : Nat) : Prop :=
  ∀ ns : List Nat, ns.Nodup → (∀ n ∈ ns, accept (Word.spell n) = false) → ns.length ≤ k

/-- Distinct numbers whose images all lie in a list are no more than the list is long. -/
theorem length_le_of_map_subset {β : Type} {ns : List Nat} (hns : ns.Nodup) {f : Nat → β}
    (hf : Function.Injective f) {l : List β} (h : ∀ n ∈ ns, f n ∈ l) : ns.length ≤ l.length := by
  have hnodup : (ns.map f).Nodup := List.Nodup.map hf hns
  have hsub : ns.map f ⊆ l := by
    intro b hb
    obtain ⟨n, hn, rfl⟩ := List.mem_map.mp hb
    exact h n hn
  have hle := (hnodup.subperm hsub).length_le
  rwa [List.length_map] at hle

/-- Of the words searched, some is neither reserved nor refused. -/
theorem exists_fit {accept : String → Bool} {k : Nat} (h : RefusesAtMost accept k) (start : Nat) :
    ∃ n, start ≤ n ∧ n < start + (k + Ident.reservedWords.length + 1) ∧
      Ident.isReservedWord (Word.spell n) = false ∧ accept (Word.spell n) = true := by
  by_contra hnone
  -- the words searched are more than those reserved and those refused together
  let window := List.range' start (k + Ident.reservedWords.length + 1)
  let isReserved n := Ident.isReservedWord (Word.spell n)
  let reserved := window.filter isReserved
  let others := window.filter fun n => !isReserved n
  have hwindow : window.Nodup := List.nodup_range'
  have hreserved : reserved.length ≤ Ident.reservedWords.length := by
    refine length_le_of_map_subset (hwindow.filter _) Word.spell_injective fun n hn => ?_
    have hr : Ident.reservedWords.contains (Word.spell n) = true := (List.mem_filter.mp hn).2
    exact List.contains_iff_mem.mp hr
  have hothers : others.length ≤ k := by
    refine h others (hwindow.filter _) fun n hn => ?_
    obtain ⟨hmem, hr⟩ := List.mem_filter.mp hn
    obtain ⟨hle, hlt⟩ := List.mem_range'_1.mp hmem
    by_contra ha
    exact hnone ⟨n, hle, hlt, by simpa using hr, by simpa using ha⟩
  have hsum : window.length = reserved.length + others.length :=
    List.length_eq_length_filter_add isReserved
  rw [List.length_range'] at hsum
  omega

/-- A search without an answer has refused all that it tried. -/
theorem firstFrom_eq_none {accept : Nat → Bool} {tries start : Nat}
    (h : firstFrom accept tries start = none) {n : Nat} (hle : start ≤ n)
    (hlt : n < start + tries) : accept n = false := by
  induction tries generalizing start with
  | zero => omega
  | succ tries ih =>
    rw [firstFrom] at h
    split at h
    · cases h
    · rename_i hstart
      by_cases he : start = n
      · rw [← he]
        simpa using hstart
      · exact ih h (by omega) (by omega)

/-- The search is never cut short: it answers the next word. -/
theorem nextWhere_eq {s : NameSource} {accept : String → Bool} {k : Nat}
    (h : RefusesAtMost accept k) :
    ∃ n, s.IsNext accept n ∧ n < s.issued + (k + Ident.reservedWords.length + 1) ∧
      s.nextWhere accept k = (Word.spell n, ⟨n + 1⟩) := by
  let fit n := !Ident.isReservedWord (Word.spell n) && accept (Word.spell n)
  let tries := k + Ident.reservedWords.length + 1
  cases hfirst : firstFrom fit tries s.issued with
  | none =>
    -- a word that fits was among those tried
    obtain ⟨n, hle, hlt, hr, ha⟩ := exists_fit h s.issued
    have hrefused := firstFrom_eq_none hfirst hle hlt
    simp [fit, hr, ha] at hrefused
  | some n =>
    obtain ⟨hle, hlt, hfit, hno⟩ := firstFrom_eq_some_iff.mp hfirst
    simp only [fit, Bool.and_eq_true, Bool.not_eq_true'] at hfit
    refine ⟨n, ⟨hle, hfit.1, hfit.2, fun m hm hmn => ?_⟩, hlt, ?_⟩
    · have hrefused := hno m hm hmn
      simp only [fit, Bool.and_eq_false_iff, Bool.not_eq_false'] at hrefused
      exact hrefused
    · rw [nextWhere, nextWhere?, hfirst]
      rfl

/-- Numbers are only used up. -/
theorem issued_le_nextWhere (s : NameSource) (accept : String → Bool) (k : Nat) :
    s.issued ≤ (s.nextWhere accept k).2.issued := by
  rw [nextWhere, nextWhere?]
  cases hfirst : firstFrom _ _ s.issued with
  | none =>
    show s.issued ≤ s.issued + 1
    omega
  | some n =>
    have hle := (firstFrom_eq_some_iff.mp hfirst).1
    show s.issued ≤ n + 1
    omega

end NameSource

/-! ## Override keys -/

namespace MethodSymbol

/-- The name can be read off an override key. -/
theorem keyAs_injective (m : MethodSymbol) : Function.Injective m.keyAs := by
  intro a b h
  exact String.append_left_inj m.paramText |>.mp h

/-- Two methods that are called by words have one override key only with one word. -/
theorem keyAs_spell_inj {m n : MethodSymbol} {j k : Nat}
    (h : m.keyAs (Word.spell j) = n.keyAs (Word.spell k)) : j = k := by
  rw [keyAs, keyAs, paramText, paramText, String.append_assoc, String.append_assoc] at h
  exact (Word.spell_append_paren_inj h).1

end MethodSymbol

/-! ## Drawing in a scope -/

namespace TakenNames

/-- Taken names stand in the way of one word each. -/
theorem refusesAtMost_isFree (t : TakenNames) (scope : Scope) {form : String → String}
    (hform : Function.Injective form) :
    NameSource.RefusesAtMost (fun name => t.isFree scope (form name)) (t.taken scope).length := by
  intro ns hns hrefused
  refine NameSource.length_le_of_map_subset hns (hform.comp Word.spell_injective) fun n hn => ?_
  have htaken : t.isFree scope (form (Word.spell n)) = false := hrefused n hn
  rw [mem_taken_iff]
  by_contra hfree
  exact Bool.false_ne_true (htaken.symm.trans (isFree_eq_true_iff.mpr hfree))

/-- A draw takes the next word whose form is free. -/
theorem drawAs_eq (t : TakenNames) (scope : Scope) {form : String → String}
    (hform : Function.Injective form) (source : NameSource) :
    ∃ n, source.IsNext (fun name => t.isFree scope (form name)) n ∧
      t.drawAs scope form source =
        (Word.spell n, t.claim scope (form (Word.spell n)), ⟨n + 1⟩) := by
  obtain ⟨n, hnext, -, heq⟩ :=
    NameSource.nextWhere_eq (s := source) (t.refusesAtMost_isFree scope hform)
  refine ⟨n, hnext, ?_⟩
  rw [drawAs, heq]

/-! ## Fitting a group -/

/-- The names in the way of one member are the keys its owner has. -/
theorem refusesAtMost_memberFits (t : TakenNames) (group : List MethodSymbol)
    (members : List MethodSymbol) :
    NameSource.RefusesAtMost (fun name => members.all fun m => t.memberFits group m name)
      (t.inTheWay members) := by
  induction members with
  | nil =>
    intro ns _ hrefused
    cases ns with
    | nil => exact Nat.le_refl 0
    | cons n ns => exact absurd (hrefused n List.mem_cons_self) (by simp)
  | cons m members ih =>
    intro ns hns hrefused
    -- a word is refused for `m`, or for one of the other members
    let blocked n := !t.memberFits group m (Word.spell n)
    have hfirst : (ns.filter blocked).length ≤ (t.taken m.scope).length := by
      refine refusesAtMost_isFree t m.scope m.keyAs_injective _ (hns.filter _) fun n hn => ?_
      have hb := (List.mem_filter.mp hn).2
      simp only [blocked, memberFits, Bool.not_eq_true', Bool.or_eq_false_iff] at hb
      exact hb.1
    have hrest : (ns.filter fun n => !blocked n).length ≤
        t.inTheWay members := by
      refine ih _ (hns.filter _) fun n hn => ?_
      obtain ⟨hmem, hb⟩ := List.mem_filter.mp hn
      have hall : (t.memberFits group m (Word.spell n) &&
          members.all fun m => t.memberFits group m (Word.spell n)) = false := hrefused n hmem
      simp only [blocked, Bool.not_not] at hb
      rwa [hb, Bool.true_and] at hall
    have hsplit := List.length_eq_length_filter_add (l := ns) blocked
    show ns.length ≤ (t.taken m.scope).length + t.inTheWay members
    omega

theorem groupFits_iff {t : TakenNames} {group : List MethodSymbol} {name : String} :
    t.groupFits group name = true ↔ ∀ m ∈ group, t.memberFits group m name = true :=
  List.all_eq_true

/-- A member can be called `name` where its key is free, or where a member in its owner has that
name or had that key. -/
theorem memberFits_iff {t : TakenNames} {group : List MethodSymbol} {m : MethodSymbol}
    {name : String} :
    t.memberFits group m name = true ↔
      (m.scope, m.keyAs name) ∉ t.pairs ∨
        ∃ o ∈ group, o.owner = m.owner ∧ (o.newName = some name ∨ o.key = m.keyAs name) := by
  simp [memberFits, isFree]

/-- Claiming a name for methods takes their keys under it. -/
theorem mem_foldl_claimMethod {t : TakenNames} {group : List MethodSymbol} {name : String}
    {e : Scope × String} :
    e ∈ (group.foldl (fun t m => t.claimMethod m name) t).pairs ↔
      e ∈ t.pairs ∨ ∃ m ∈ group, e = (m.scope, m.keyAs name) := by
  induction group generalizing t with
  | nil => simp
  | cons m group ih =>
    rw [List.foldl_cons, ih, claimMethod, mem_claim]
    simp [or_assoc]

/-- The word that a group is given where its chosen alias does not fit. -/
def IsRedraw (t : TakenNames) (source : NameSource) (group : List MethodSymbol)
    (chosen : String) (n : Nat) : Prop :=
  t.groupFits group chosen = false ∧ source.IsNext (t.groupFits group) n

/-- A group keeps the chosen name where that fits, and else is given the next word that does. -/
theorem fitGroup_eq (t : TakenNames) (group : List MethodSymbol) (chosen : String)
    (source : NameSource) :
    ∃ name source', t.fitGroup group chosen source =
        (name, group.foldl (fun t m => t.claimMethod m name) t, source') ∧
      (t.groupFits group chosen = true ∧ name = chosen ∧ source' = source ∨
        ∃ n, t.IsRedraw source group chosen n ∧ name = Word.spell n ∧ source' = ⟨n + 1⟩) := by
  by_cases hfits : t.groupFits group chosen = true
  · refine ⟨chosen, source, ?_, Or.inl ⟨hfits, rfl, rfl⟩⟩
    rw [fitGroup, if_pos hfits]
  · have hrefuses : NameSource.RefusesAtMost (t.groupFits group) (t.inTheWay group) :=
      t.refusesAtMost_memberFits group group
    obtain ⟨n, hnext, -, heq⟩ := NameSource.nextWhere_eq (s := source) hrefuses
    refine ⟨Word.spell n, ⟨n + 1⟩, ?_, Or.inr ⟨n, ⟨by simpa using hfits, hnext⟩, rfl, rfl⟩⟩
    rw [fitGroup, if_neg hfits, heq]

end TakenNames
end Renamer
