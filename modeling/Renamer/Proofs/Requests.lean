import Renamer.Proofs.Fresh
import Renamer.Proofs.WordOrder

/-!
# What a source of names hands out

A source is asked for names, one request after the other: for any name, or for one that a predicate
agrees to. Such a search has no bound of its own and goes on until a name is found
(`NameSource.Finds`).

`NameSource.Serves` relates a source to the requests it has served. `NameSource.names_served` is the
law of a source from its start on: the names come in the order of words, and no word before the last
one is left out without a reason.
-/

namespace Renamer

/-- A request for a name. -/
inductive NameRequest where
  /-- For any name. -/
  | any
  /-- For a name that `accept` agrees to. -/
  | fitting (accept : String → Bool)

/-- The name is one that was asked for. -/
def NameRequest.accepts : NameRequest → String → Bool
  | any, _ => true
  | fitting accept, name => accept name

namespace NameSource

variable {s s' : NameSource} {name word : String}

/-! ## One request -/

/-- Trying one word after the other, for as long as it takes, ends with `name` and leaves `s'`. -/
def Finds (s : NameSource) (accept : String → Bool) (name : String) (s' : NameSource) : Prop :=
  ∃ tries, s.nextWhere? tries accept = some (name, s')

/-- A search ends exactly with the next word that is neither reserved nor refused. -/
theorem finds_iff {accept : String → Bool} :
    s.Finds accept name s' ↔ ∃ n, s.IsNext accept n ∧ name = Word.spell n ∧ s' = ⟨n + 1⟩ := by
  unfold Finds nextWhere?
  dsimp only
  constructor
  · rintro ⟨tries, hfound⟩
    obtain ⟨n, hfirst, heq⟩ := Option.map_eq_some_iff.mp hfound
    obtain ⟨hle, -, hfit, hno⟩ := firstFrom_eq_some_iff.mp hfirst
    cases heq
    rw [Bool.and_eq_true, Bool.not_eq_true'] at hfit
    refine ⟨n, ⟨hle, hfit.1, hfit.2, fun k hk hkn => ?_⟩, rfl, rfl⟩
    have hrefused := hno k hk hkn
    rwa [Bool.and_eq_false_iff, Bool.not_eq_false'] at hrefused
  · rintro ⟨n, hnext, rfl, rfl⟩
    refine ⟨n + 1 - s.issued, Option.map_eq_some_iff.mpr ⟨n, ?_, rfl⟩⟩
    have hle := hnext.issued_le
    rw [firstFrom_eq_some_iff]
    refine ⟨hle, by omega, ?_, fun k hk hkn => ?_⟩
    · rw [hnext.not_reserved, hnext.accepted]
      rfl
    · rw [Bool.and_eq_false_iff, Bool.not_eq_false']
      exact hnext.first k hk hkn

/-- A request is answered with `name`, and the source is left as `s'`. -/
inductive Answers (s : NameSource) : NameRequest → String → NameSource → Prop
  | any : s.Answers .any s.next.1 s.next.2
  | fitting {accept : String → Bool} {name : String} {s' : NameSource}
      (h : s.Finds accept name s') : s.Answers (.fitting accept) name s'

/-- A request is answered with the next word that fits it. -/
theorem Answers.isNext {request : NameRequest} (h : s.Answers request name s') :
    ∃ n, s.IsNext request.accepts n ∧ name = Word.spell n ∧ s' = ⟨n + 1⟩ := by
  cases h with
  | any =>
    -- no word is refused
    have hrefuses : RefusesAtMost (fun _ => true) 0 := by
      intro ns _ hrefused
      cases ns with
      | nil => exact Nat.le_refl 0
      | cons n ns => exact absurd (hrefused n List.mem_cons_self) (by simp)
    obtain ⟨n, hnext, -, heq⟩ := nextWhere_eq (s := s) hrefuses
    refine ⟨n, hnext, ?_, ?_⟩
    · rw [next, heq]
    · rw [next, heq]
  | fitting hfinds => exact finds_iff.mp hfinds

/-! ## Many requests -/

/-- The requests are served one after the other, each with the name beside it. -/
inductive Serves : NameSource → List (NameRequest × String) → NameSource → Prop
  | nil {s : NameSource} : s.Serves [] s
  | cons {s s' s'' : NameSource} {request : NameRequest} {name : String}
      {rest : List (NameRequest × String)} (h : s.Answers request name s')
      (hrest : s'.Serves rest s'') : s.Serves ((request, name) :: rest) s''

/-- The word came to a request that refused it: the names of the requests before are listed before
the word, and the name handed out there after it. -/
def RefusedIn (served : List (NameRequest × String)) (word : String) : Prop :=
  ∃ earlier request name later, served = earlier ++ (request, name) :: later ∧
    (∀ d ∈ earlier, Word.Before d.2 word) ∧ Word.Before word name ∧
    request.accepts word = false

variable {served : List (NameRequest × String)}

theorem Serves.issued_le (h : s.Serves served s') : s.issued ≤ s'.issued := by
  induction h with
  | nil => exact Nat.le_refl _
  | cons hanswer _ ih =>
    obtain ⟨n, hnext, -, rfl⟩ := hanswer.isNext
    exact Nat.le_trans hnext.issued_le (Nat.le_trans (Nat.le_succ n) ih)

/-- Every name is a word with a number that is used up on the way, and fits its request. -/
theorem Serves.exists_number (h : s.Serves served s') :
    ∀ d ∈ served, ∃ n, s.issued ≤ n ∧ n < s'.issued ∧ d.2 = Word.spell n ∧
      Ident.isReservedWord d.2 = false ∧ d.1.accepts d.2 = true := by
  induction h with
  | nil => exact fun d hd => absurd hd List.not_mem_nil
  | cons hanswer hrest ih =>
    obtain ⟨n, hnext, rfl, rfl⟩ := hanswer.isNext
    have hle := hrest.issued_le
    intro d hd
    rcases List.mem_cons.mp hd with rfl | hd
    · exact ⟨n, hnext.issued_le, hle, rfl, hnext.not_reserved, hnext.accepted⟩
    · obtain ⟨k, hk, hlt, hrest⟩ := ih d hd
      have hstart : n + 1 ≤ k := hk
      have hissued := hnext.issued_le
      exact ⟨k, by omega, hlt, hrest⟩

/-- The names come in the order of words. -/
theorem Serves.pairwise_before (h : s.Serves served s') :
    (served.map Prod.snd).Pairwise Word.Before := by
  induction h with
  | nil => exact List.Pairwise.nil
  | cons hanswer hrest ih =>
    obtain ⟨n, -, rfl, rfl⟩ := hanswer.isNext
    rw [List.map_cons, List.pairwise_cons]
    refine ⟨fun name hname => ?_, ih⟩
    obtain ⟨d, hd, rfl⟩ := List.mem_map.mp hname
    obtain ⟨k, hk, -, hspell, -⟩ := hrest.exists_number d hd
    rw [hspell, Word.before_spell_iff]
    exact hk

/-- A word that is used up on the way is handed out, reserved, or refused. -/
theorem Serves.no_gap (h : s.Serves served s') {k : Nat} (hle : s.issued ≤ k)
    (hlt : k < s'.issued) :
    Word.spell k ∈ served.map Prod.snd ∨ Ident.isReservedWord (Word.spell k) = true ∨
      RefusedIn served (Word.spell k) := by
  induction h with
  | nil => omega
  | @cons s _ _ request _ rest hanswer hrest ih =>
    obtain ⟨n, hnext, rfl, rfl⟩ := hanswer.isNext
    rcases Nat.lt_trichotomy k n with hbefore | rfl | hafter
    · -- this request comes to the word and does not take it
      rcases hnext.first k hle hbefore with hreserved | hrefused
      · exact Or.inr (Or.inl hreserved)
      · refine Or.inr (Or.inr ⟨[], request, _, rest, rfl, ?_, ?_, hrefused⟩)
        · exact fun d hd => absurd hd List.not_mem_nil
        · exact Word.before_spell_iff.mpr hbefore
    · exact Or.inl List.mem_cons_self
    · rcases ih hafter hlt with hmem | hreserved | hrefused
      · exact Or.inl (List.mem_cons_of_mem _ hmem)
      · exact Or.inr (Or.inl hreserved)
      · obtain ⟨earlier, request', name, later, rfl, hearlier, hname, hno⟩ := hrefused
        refine Or.inr (Or.inr
          ⟨_ :: earlier, request', name, later, rfl, fun d hd => ?_, hname, hno⟩)
        rcases List.mem_cons.mp hd with rfl | hd
        · exact Word.before_spell_iff.mpr hafter
        · exact hearlier d hd

/-! ## From the start -/

/-- From the start on, a source hands out words that are not reserved and fit their requests, in
the order of words and so each at most once. Every word before the last one was handed out, is
reserved, or was refused by the request that came to it. -/
theorem names_served {served : List (NameRequest × String)} {s : NameSource}
    (h : Serves {} served s) :
    (∀ d ∈ served,
      Word.IsWord d.2 ∧ Ident.isReservedWord d.2 = false ∧ d.1.accepts d.2 = true) ∧
    (served.map Prod.snd).Pairwise Word.Before ∧ (served.map Prod.snd).Nodup ∧
    ∀ last ∈ (served.map Prod.snd).getLast?, ∀ word, Word.IsWord word → Word.Before word last →
      word ∈ served.map Prod.snd ∨ Ident.isReservedWord word = true ∨ RefusedIn served word := by
  have horder := h.pairwise_before
  refine ⟨fun d hd => ?_, horder, horder.imp ?_, fun last hlast word hword hbefore => ?_⟩
  · obtain ⟨n, -, -, hspell, hreserved, haccepted⟩ := h.exists_number d hd
    exact ⟨hspell ▸ Word.isWord_spell n, hreserved, haccepted⟩
  · intro v w hbefore heq
    exact Word.not_before_self w (heq ▸ hbefore)
  · obtain ⟨d, hd, rfl⟩ := List.mem_map.mp (List.mem_of_getLast? hlast)
    obtain ⟨n, -, hlt, hspell, -⟩ := h.exists_number d hd
    obtain ⟨k, rfl⟩ := Word.isWord_iff.mp hword
    rw [hspell, Word.before_spell_iff] at hbefore
    exact h.no_gap (Nat.zero_le k) (Nat.lt_trans hbefore hlt)

/-- Asks for a name of two letters that is not listed before `do`. -/
def pairRequest : NameRequest := .fitting fun name => 2 ≤ name.length && "do" ≤ name

/-- After `a` the request comes to all words up to `dp`. It refuses those before `do`, and `do` is
reserved. -/
theorem names_served_pair : ∃ s, Serves {} [(.any, "a"), (pairRequest, "dp"), (.any, "dq")] s ∧
    ∀ word, Word.IsWord word → Word.Before word "dq" → word ∈ ["a", "dp", "dq"] ∨
      Ident.isReservedWord word = true ∨
      RefusedIn [(.any, "a"), (pairRequest, "dp"), (.any, "dq")] word := by
  have hserves : Serves {} [(.any, "a"), (pairRequest, "dp"), (.any, "dq")] ⟨121⟩ := by
    have hfirst : Answers {} .any "a" ⟨1⟩ := by
      have hnext : ({} : NameSource).next = ("a", ⟨1⟩) := by decide +kernel
      have hanswer := Answers.any (s := {})
      rwa [hnext] at hanswer
    have hpair : Answers ⟨1⟩ pairRequest "dp" ⟨120⟩ := by
      refine Answers.fitting ⟨200, ?_⟩
      decide +kernel
    have hlast : Answers ⟨120⟩ .any "dq" ⟨121⟩ := by
      have hnext : (⟨120⟩ : NameSource).next = ("dq", ⟨121⟩) := by decide +kernel
      have hanswer := Answers.any (s := ⟨120⟩)
      rwa [hnext] at hanswer
    exact .cons hfirst (.cons hpair (.cons hlast .nil))
  exact ⟨⟨121⟩, hserves, (names_served hserves).2.2.2 "dq" rfl⟩

end NameSource
end Renamer
