import Renamer.Proofs.Deciding
import Renamer.Proofs.Grouping

/-!
# Aliases of methods after unification

In a run without presets every alias of a method is a word of the source, also where a group got a
new one in its turn. This file follows the words and the taken names from turn to turn.

* `Run.Numbered` is what every turn keeps: aliases are words that have been issued, and methods
  with one alias are in one group.
* `Run.key_eq_of_meets` is the one way in which an alias can meet a declared key of the same type:
  that key is the one that the method had from the start.
-/

namespace Renamer

namespace Unification

variable {u u' : Unification} {ids : List MethodId} {chosen name : String}

/-- Whichever name a group is given, it fits. -/
theorem Named.fits (h : Named u ids chosen name u') :
    u.taken.groupFits (u.program.symbols ids) name = true := by
  rcases h.name_eq with ⟨hfits, hname, -⟩ | ⟨n, ⟨-, hnext⟩, hname, -⟩
  · rw [hname]
    exact hfits
  · rw [hname]
    exact hnext.accepted

theorem Named.issued_le (h : Named u ids chosen name u') : u.source.issued ≤ u'.source.issued := by
  rcases h.name_eq with ⟨-, -, hsource⟩ | ⟨n, ⟨-, hnext⟩, -, hsource⟩
  · exact Nat.le_of_eq (congrArg NameSource.issued hsource.symm)
  · have hle := hnext.issued_le
    rw [hsource]
    show u.source.issued ≤ n + 1
    omega

/-- No turn gives a name back. -/
theorem taken_turns {groups : List (GroupId × List MethodId)}
    (hpresent : ∀ g ∈ groups, Present u.program g.2) {x : Scope × String}
    (hx : x ∈ u.taken.pairs) : x ∈ (u.turns groups).taken.pairs := by
  refine (turns_induct hpresent (motive := fun _ v => x ∈ v.taken.pairs) hx ?_).2
  intro done g rest _ _ hturn hdone
  generalize (u.turns done).turn g.2 = v at hturn
  cases hturn with
  | rest _ => exact hdone
  | call hcall => exact (hcall.taken x).mpr (Or.inl hdone)

/-- Who has an alias after the turn of a group was given it then, or had it before. -/
theorem Named.newName_cases (h : Named u ids chosen name u') {i : MethodId} {m : MethodSymbol}
    {name' : String} (hm : u'.program.methods.get? i = some m) (hname : m.newName = some name') :
    i ∈ ids ∧ name' = name ∨
      ∃ m', u.program.methods.get? i = some m' ∧ m'.newName = some name' := by
  rw [h.methods] at hm
  split at hm
  · rename_i hi
    rcases Option.map_eq_some_iff.mp hm with ⟨m', -, rfl⟩
    rw [newName_called] at hname
    exact Or.inl ⟨hi, (Option.some.inj hname).symm⟩
  · exact Or.inr ⟨m, hm, hname⟩

end Unification

namespace Run

open Unification (Present Named)

variable {p : Program} {r : Run}

/-- The aliases of methods are words that were issued, and methods with one alias are in one
group. -/
structure Numbered (r : Run) (u : Unification) : Prop where
  word : ∀ {i m name}, u.program.methods.get? i = some m → m.newName = some name →
    ∃ n < u.source.issued, name = Word.spell n
  same : ∀ {i j a b name}, u.program.methods.get? i = some a → u.program.methods.get? j = some b →
    a.newName = some name → b.newName = some name → r.engine.groups.Same i j

/-- Of a settled run the alias bound to a method is the one decided for it. -/
theorem Settled.methodAlias (h : Settled p r) {i : MethodId} {m : MethodSymbol} {name : String}
    (hm : r.program.methods.get? i = some m) (hname : m.newName = some name) :
    r.engine.aliasOf (.method i) = some name := by
  apply h.bound
  show (r.program.methods.get? i).bind (·.newName) = some name
  rw [hm]
  exact hname

theorem Settled.numbered (h : Settled p r) : Numbered r r.unification := by
  constructor
  · intro i m name hm hname
    rcases h.word (h.methodAlias hm hname) with hword | ⟨ty, hty, -⟩
    · exact hword
    · cases hty
  · intro i j a b name ha hb hna hnb
    exact Or.inl (h.methods_apart (h.methodAlias ha hna) (h.methodAlias hb hnb))

/-- Who has the new name of a group before its turn is in the group: it is the alias of a member, or
a word not issued before. -/
theorem Numbered.mem_of_named {u u' : Unification} (h : Numbered r u)
    (hg : r.engine.groups.Disjoint) {id : GroupId} {chosen name : String}
    (hcall : Named u (r.engine.groups.members id) chosen name u') {j : MethodId} {b : MethodSymbol}
    (hb : u.program.methods.get? j = some b) (hname : b.newName = some name) :
    j ∈ r.engine.groups.members id := by
  rcases hcall.name_eq with ⟨-, heq, -⟩ | ⟨n, ⟨-, hnext⟩, heq, -⟩
  · rcases mem_of_chosenAlias hcall.chosen_eq with ⟨o, ho, hno⟩
    rcases Program.mem_symbols.mp ho with ⟨k, hk, hok⟩
    rcases h.same hok hb (heq ▸ hno) hname with hkj | ⟨id', hk', hj⟩
    · exact hkj ▸ hk
    · exact hg.apart hk hk' ▸ hj
  · rcases h.word hb hname with ⟨k, hk, hword⟩
    have hkn : k = n := Word.spell_injective (by rw [← hword, heq])
    have hle := hnext.issued_le
    omega

/-- The new name of a group is a word that has been issued. -/
theorem Numbered.word_of_named {u u' : Unification} (h : Numbered r u) {ids : List MethodId}
    {chosen name : String} (hcall : Named u ids chosen name u') :
    ∃ n < u'.source.issued, name = Word.spell n := by
  rcases hcall.name_eq with ⟨-, heq, hsource⟩ | ⟨n, -, heq, hsource⟩
  · rcases mem_of_chosenAlias hcall.chosen_eq with ⟨o, ho, hno⟩
    rcases Program.mem_symbols.mp ho with ⟨k, -, hok⟩
    rw [hsource]
    exact h.word hok (heq ▸ hno)
  · refine ⟨n, ?_, heq⟩
    rw [hsource]
    exact Nat.lt_succ_self n

/-- A turn keeps aliases apart. -/
theorem Numbered.named {u u' : Unification} (h : Numbered r u) (hg : r.engine.groups.Disjoint)
    {id : GroupId} {chosen name : String}
    (hcall : Named u (r.engine.groups.members id) chosen name u') : Numbered r u' := by
  constructor
  · intro i m name' hm hname'
    rcases hcall.newName_cases hm hname' with ⟨-, rfl⟩ | ⟨m', hm', hn⟩
    · exact h.word_of_named hcall
    · rcases h.word hm' hn with ⟨n, hlt, hword⟩
      exact ⟨n, Nat.lt_of_lt_of_le hlt hcall.issued_le, hword⟩
  · -- each of the two is a member, or had its name before the turn
    intro i j a b name' ha hb hna hnb
    rcases hcall.newName_cases ha hna with ⟨hi, rfl⟩ | ⟨a', ha', hna'⟩
    · rcases hcall.newName_cases hb hnb with ⟨hj, -⟩ | ⟨b', hb', hnb'⟩
      · exact Or.inr ⟨id, hi, hj⟩
      · exact Or.inr ⟨id, hi, h.mem_of_named hg hcall hb' hnb'⟩
    · rcases hcall.newName_cases hb hnb with ⟨hj, rfl⟩ | ⟨b', hb', hnb'⟩
      · exact Or.inr ⟨id, h.mem_of_named hg hcall ha' hna', hj⟩
      · exact h.same ha' hb' hna' hnb'

/-- After all turns methods with one alias are in one group. -/
theorem Settled.numbered_turns (h : Settled p r) (hg : Grouped p r) :
    Numbered r (r.unification.turns r.engine.groups.live) := by
  refine (Unification.turns_induct hg.present (motive := fun _ v => Numbered r v) h.numbered ?_).2
  intro done g rest hlive _ hturn hdone
  have hmem : g ∈ r.engine.groups.live := by
    rw [hlive]
    simp
  have hmembers := (OverrideGroups.mem_live_iff.mp hmem).1
  generalize (r.unification.turns done).turn g.2 = v at hturn
  cases hturn with
  | rest _ => exact hdone
  | call hcall =>
    rw [hmembers] at hcall
    exact hdone.named hg.disjoint hcall

/-! ## The turn of a method -/

/-- The turn in which `i` and the rest of its group `ids` were called `name`, after the turns of
the groups `before`. -/
structure TurnOf (r : Run) (i : MethodId) (before : List (GroupId × List MethodId))
    (ids : List MethodId) (chosen name : String) : Prop where
  mem : i ∈ ids
  live : ∃ id after, ids = r.engine.groups.members id ∧
    r.engine.groups.live = before ++ (id, ids) :: after
  named : Named (r.unification.turns before) ids chosen name
    ((r.unification.turns before).turn ids)

variable {i : MethodId} {before : List (GroupId × List MethodId)} {ids : List MethodId}
  {chosen name : String}

/-- A group comes to its turn with the symbols that binding left. -/
theorem TurnOf.symbols (h : TurnOf r i before ids chosen name) (hg : Grouped p r) :
    (r.unification.turns before).program.symbols ids = r.program.symbols ids := by
  have hpresent : ∀ g ∈ r.engine.groups.live, Present r.unification.program g.2 := hg.present
  rcases h.live with ⟨id, after, -, hlive⟩
  exact Unification.symbols_turns hg.disjoint hpresent hlive

/-- What is taken stays so until the turn. -/
theorem TurnOf.taken (h : TurnOf r i before ids chosen name) (hg : Grouped p r)
    {x : Scope × String} (hx : x ∈ r.engine.taken.pairs) :
    x ∈ (r.unification.turns before).taken.pairs := by
  have hpresent : ∀ g ∈ before, Present r.unification.program g.2 := by
    rcases h.live with ⟨id, after, -, hlive⟩
    intro g hgb
    refine hg.present g ?_
    rw [hlive]
    exact List.mem_append_left _ hgb
  exact Unification.taken_turns hpresent hx

/-- Members of the group are methods together. -/
theorem TurnOf.key_eq (h : TurnOf r i before ids chosen name) (hg : Grouped p r) {k : MethodId}
    (hk : k ∈ ids) {m o : MethodSymbol} (hm : r.program.methods.get? i = some m)
    (ho : r.program.methods.get? k = some o) : o.key = m.key := by
  rcases h.live with ⟨id, -, hids, -⟩
  rcases Program.method_of_declared hg.declared ho with ⟨o', ho', hoe⟩
  rcases Program.method_of_declared hg.declared hm with ⟨m', hm', hme⟩
  have hkey := hg.key_eq ⟨id, hids ▸ h.mem, hids ▸ hk⟩ hm' ho'
  rwa [MethodSymbol.agree hoe MethodSymbol.key fun _ => rfl,
    MethodSymbol.agree hme MethodSymbol.key fun _ => rfl] at hkey

/-- The name of its turn stays with a method. -/
theorem TurnOf.newName (h : TurnOf r i before ids chosen name) (hg : Grouped p r)
    {m : MethodSymbol} (hm : r.unified.program.methods.get? i = some m) :
    m.newName = some name := by
  have hpresent : ∀ g ∈ r.engine.groups.live, Present r.unification.program g.2 := hg.present
  rcases h.live with ⟨id, after, -, hlive⟩
  have hend := (Unification.turns_of_live hg.disjoint hpresent hlive h.mem).2
  rw [h.named.methods, if_pos h.mem] at hend
  rcases Option.map_eq_some_iff.mp (hend.symm.trans hm) with ⟨m₀, -, rfl⟩
  exact Unification.newName_called name m₀

/-- A group that goes by an alias has a turn. -/
theorem Grouped.exists_turnOf (hg : Grouped p r) {id : GroupId}
    (hi : i ∈ r.engine.groups.members id) {after : List (GroupId × List MethodId)}
    (hlive : r.engine.groups.live = before ++ (id, r.engine.groups.members id) :: after)
    (hchosen : chosenAlias (r.program.symbols (r.engine.groups.members id)) = some chosen) :
    ∃ name, TurnOf r i before (r.engine.groups.members id) chosen name := by
  have hpresent : ∀ g ∈ r.engine.groups.live, Present r.unification.program g.2 := hg.present
  rcases Unification.outcome hg.disjoint hpresent hlive with
    ⟨hnone, -⟩ | ⟨chosen', name, hnamed, -⟩
  · have hcontra := hchosen.symm.trans hnone
    cases hcontra
  · have hsymbols := Unification.symbols_turns hg.disjoint hpresent hlive
    have hsame : chosen' = chosen := by
      have hchosen' := hnamed.chosen_eq
      rw [hsymbols] at hchosen'
      exact Option.some.inj (hchosen'.symm.trans hchosen)
    exact ⟨name, hi, ⟨id, after, rfl, hlive⟩, hsame ▸ hnamed⟩

/-- At the end a method is as binding left it, or has the name of its turn. -/
theorem Grouped.cases_unified (hg : Grouped p r) {m : MethodSymbol}
    (hm : r.unified.program.methods.get? i = some m) :
    r.program.methods.get? i = some m ∨
      ∃ before ids chosen name m₀, TurnOf r i before ids chosen name ∧ m.newName = some name ∧
        r.program.methods.get? i = some m₀ ∧ m₀.declared = m.declared := by
  have hpresent : ∀ g ∈ r.engine.groups.live, Present r.unification.program g.2 := hg.present
  cases hgroup : r.engine.groups.groupOf i with
  | none =>
    have hkept := Unification.get?_turns_of_groupOf_eq_none hg.disjoint hpresent hgroup
    exact Or.inl (hkept.symm.trans hm)
  | some id =>
    have hi := (OverrideGroups.groupOf_eq_some_iff hg.disjoint).mp hgroup
    rcases OverrideGroups.live_of_mem hi with ⟨before, after, hlive⟩
    rcases Unification.outcome hg.disjoint hpresent hlive with
      ⟨-, hkept⟩ | ⟨chosen, name, hnamed, hcalled⟩
    · exact Or.inl ((hkept i hi).symm.trans hm)
    · rcases Option.map_eq_some_iff.mp ((hcalled i hi).symm.trans hm) with ⟨m₀, hm₀, rfl⟩
      exact Or.inr ⟨before, _, chosen, name, m₀, ⟨hi, ⟨id, after, rfl, hlive⟩, hnamed⟩,
        Unification.newName_called name m₀, hm₀, (Unification.declared_called name m₀).symm⟩

/-! ## Aliases and declared keys -/

theorem Grouped.types_unified (h : Grouped p r) : r.unified.program.types = r.program.types := by
  have hpresent : ∀ g ∈ r.engine.groups.live, Present r.unification.program g.2 := h.present
  exact (Unification.types_fields_turns hpresent).1

theorem Grouped.fields_unified (h : Grouped p r) : r.unified.program.fields = r.program.fields := by
  have hpresent : ∀ g ∈ r.engine.groups.live, Present r.unification.program g.2 := h.present
  exact (Unification.types_fields_turns hpresent).2

theorem Grouped.declared_unified (h : Grouped p r) : r.unified.program.declared = p.declared := by
  have hpresent : ∀ g ∈ r.engine.groups.live, Present r.unification.program g.2 := h.present
  exact (Unification.declared_turns hpresent).trans h.declared

theorem Settled.holds (h : Settled p r) {m : MethodSymbol}
    (hm : r.program.methods.get? i = some m) (hname : m.newName = some name) :
    r.Holds p (.method i) (m.scope, m.keyAs name) := by
  refine ⟨name, h.methodAlias hm hname, Program.spot_of_declared h.declared ?_⟩
  rw [Program.spot, hm]
  rfl

/-- Before unification no alias meets a declared key of the same type. -/
theorem Settled.not_declares (h : Settled p r) {m : MethodSymbol}
    (hm : r.program.methods.get? i = some m) (hname : m.newName = some name) :
    ¬ p.Declares (m.scope, m.keyAs name) :=
  h.new (h.holds hm hname)

/-- The type `owner` declares a method that is `i` or in its group, and all such methods of it
have the parameter text `text`. -/
def DeclaredIn (r : Run) (owner : TypeId) (i : MethodId) (text : String) : Prop :=
  (∃ k o, r.program.methods.get? k = some o ∧ o.owner = owner ∧ r.engine.groups.Same i k) ∧
    ∀ k o, r.program.methods.get? k = some o → o.owner = owner → r.engine.groups.Same i k →
      o.paramText = text

/-- Where the alias of a method meets a key that its type declares, it is the method's own key. -/
theorem Settled.key_eq_of_meets (h : Settled p r) (hg : Grouped p r) {j : MethodId}
    {m n : MethodSymbol} (hm : r.unified.program.methods.get? i = some m)
    (hn : r.unified.program.methods.get? j = some n)
    (htext : r.unified.DeclaredIn m.owner i m.paramText) (hname : m.newName = some name)
    (howner : n.owner = m.owner) (hmeets : m.keyAs name = n.key) : n.key = m.key := by
  have hdeclares : p.Declares (m.scope, m.keyAs name) := by
    have hscope : m.scope = n.scope := congrArg Scope.methods howner.symm
    rw [hmeets, hscope]
    exact (Program.declares_key hn).of_declared hg.declared_unified
  rcases hg.cases_unified hm with hm' | ⟨before, ids, chosen, name', m₀, hturn, hname', hm₀, hdecl⟩
  · exact absurd hdeclares (h.not_declares hm' hname)
  · rw [hname] at hname'
    cases hname'
    have hscope : m₀.scope = m.scope := MethodSymbol.agree hdecl MethodSymbol.scope fun _ => rfl
    have hkey : m₀.key = m.key := MethodSymbol.agree hdecl MethodSymbol.key fun _ => rfl
    have hkeyAs : m₀.keyAs name = m.keyAs name :=
      MethodSymbol.agree hdecl (fun m => m.keyAs name) fun _ => rfl
    have hfits := hturn.named.fits
    rw [hturn.symbols hg] at hfits
    have hmember := TakenNames.groupFits_iff.mp hfits m₀
      (Program.mem_symbols.mpr ⟨i, hturn.mem, hm₀⟩)
    rcases TakenNames.memberFits_iff.mp hmember with hfree | ⟨o, ho, howner', hwhy⟩
    · -- declared keys are never free
      rw [hscope, hkeyAs] at hfree
      exact absurd (hturn.taken hg (h.declares_taken hdeclares)) hfree
    · rcases Program.mem_symbols.mp ho with ⟨k, hk, hok⟩
      have hokey := hturn.key_eq hg hk hm₀ hok
      rcases hwhy with hoalias | hocalled
      · -- a member of the same type had the alias before: its draw avoided declared keys
        rcases Program.method_of_declared (hg.declared.trans hg.declared_unified.symm) hok with
          ⟨o', ho', hoo⟩
        rcases hturn.live with ⟨id, -, hids, -⟩
        have hoowner : o.owner = m.owner :=
          howner'.trans (MethodSymbol.agree hdecl MethodSymbol.owner fun _ => rfl)
        have hotext : o.paramText = m.paramText := by
          rw [← MethodSymbol.agree hoo MethodSymbol.paramText fun _ => rfl]
          apply htext.2 k o' ho'
          · rw [MethodSymbol.agree hoo MethodSymbol.owner fun _ => rfl, hoowner]
          · exact Or.inr ⟨id, hids ▸ hturn.mem, hids ▸ hk⟩
        have hospot : (o.scope, o.keyAs name) = (m.scope, m.keyAs name) := by
          rw [MethodSymbol.scope, MethodSymbol.scope, hoowner, MethodSymbol.keyAs,
            MethodSymbol.keyAs, hotext]
        exact absurd (hospot ▸ hdeclares) (h.not_declares hok hoalias)
      · -- a member of the same type declares the key, and members share their keys
        rw [← hmeets, ← hkeyAs, ← hocalled, hokey, hkey]

/-! ## Final keys -/

/-- Methods that are one or in one group have one key. -/
theorem Grouped.key_eq_unified (hg : Grouped p r) {j : MethodId} (hij : r.engine.groups.Same i j)
    {m n : MethodSymbol} (hm : r.unified.program.methods.get? i = some m)
    (hn : r.unified.program.methods.get? j = some n) : n.key = m.key := by
  rcases hij with hij | htogether
  · rw [← hij, hm] at hn
    cases hn
    rfl
  · rcases Program.method_of_declared hg.declared_unified hm with ⟨m', hm', hme⟩
    rcases Program.method_of_declared hg.declared_unified hn with ⟨n', hn', hne⟩
    have hkey := hg.key_eq htogether hm' hn'
    rwa [MethodSymbol.agree hne MethodSymbol.key fun _ => rfl,
      MethodSymbol.agree hme MethodSymbol.key fun _ => rfl] at hkey

/-- Methods that are one or in one group end with one alias. -/
theorem Grouped.newName_eq_unified (hg : Grouped p r) {j : MethodId}
    (hij : r.engine.groups.Same i j) {m n : MethodSymbol}
    (hm : r.unified.program.methods.get? i = some m)
    (hn : r.unified.program.methods.get? j = some n) : m.newName = n.newName := by
  rcases hij with hij | htogether
  · rw [← hij, hm] at hn
    cases hn
    rfl
  · have hpresent : ∀ g ∈ r.engine.groups.live, Present r.unification.program g.2 := hg.present
    exact Unification.newName_eq_of_together hg.disjoint hpresent hg.marked htogether hm hn

/-- Two methods that were both renamed have one final key only if they had one key. -/
theorem Settled.key_eq_of_renamed (h : Settled p r) (hg : Grouped p r) {j : MethodId}
    {m n : MethodSymbol} (hm : r.unified.program.methods.get? i = some m)
    (hn : r.unified.program.methods.get? j = some n) {a b : String} (ha : m.newName = some a)
    (hb : n.newName = some b) (hkeys : m.keyAs a = n.keyAs b) : n.key = m.key := by
  have hnumbered := h.numbered_turns hg
  rcases hnumbered.word hm ha with ⟨k, -, hak⟩
  rcases hnumbered.word hn hb with ⟨l, -, hbl⟩
  -- both aliases are words, so they can be read off the keys
  rw [hak, hbl] at hkeys
  have hkl : k = l := MethodSymbol.keyAs_spell_inj hkeys
  have hab : b = a := by rw [hak, hbl, hkl]
  exact hg.key_eq_unified (hnumbered.same hm hn ha (hab ▸ hb)) hm hn

end Run

namespace MethodSymbol

/-- The override key that the method ends with. -/
def finalKey (m : MethodSymbol) : String := m.keyAs m.finalName

theorem finalKey_of_renamed {m : MethodSymbol} {name : String} (h : m.newName = some name) :
    m.finalKey = m.keyAs name := by
  rw [finalKey, finalName, h]
  rfl

theorem finalKey_of_kept {m : MethodSymbol} (h : m.newName = none) : m.finalKey = m.key := by
  rw [finalKey, finalName, h]
  rfl

end MethodSymbol

namespace Run

variable {p : Program} {r : Run}

/-- Where both of two methods were renamed or neither was, different keys stay different. -/
theorem Settled.finalKey_ne (h : Settled p r) (hg : Grouped p r) {i j : MethodId}
    {m n : MethodSymbol} (hm : r.unified.program.methods.get? i = some m)
    (hn : r.unified.program.methods.get? j = some n) (hkey : m.key ≠ n.key)
    (hboth : m.newName.isSome = n.newName.isSome) : m.finalKey ≠ n.finalKey := by
  cases ha : m.newName with
  | none =>
    rw [ha] at hboth
    have hb : n.newName = none :=
      Option.isNone_iff_eq_none.mp (Option.isSome_eq_false_iff.mp hboth.symm)
    rw [MethodSymbol.finalKey_of_kept ha, MethodSymbol.finalKey_of_kept hb]
    exact hkey
  | some a =>
    rw [ha] at hboth
    rcases Option.isSome_iff_exists.mp hboth.symm with ⟨b, hb⟩
    rw [MethodSymbol.finalKey_of_renamed ha, MethodSymbol.finalKey_of_renamed hb]
    exact fun hkeys => hkey (h.key_eq_of_renamed hg hm hn ha hb hkeys).symm

/-- A renamed method differs from a kept one of its own type. -/
theorem Settled.finalKey_ne_of_owner (h : Settled p r) (hg : Grouped p r) {i j : MethodId}
    {m n : MethodSymbol} (hm : r.unified.program.methods.get? i = some m)
    (hn : r.unified.program.methods.get? j = some n)
    (htext : r.unified.DeclaredIn m.owner i m.paramText) (hkey : m.key ≠ n.key)
    (howner : n.owner = m.owner) (hrenamed : m.newName.isSome = true) (hkept : n.newName = none) :
    m.finalKey ≠ n.finalKey := by
  rcases Option.isSome_iff_exists.mp hrenamed with ⟨a, ha⟩
  rw [MethodSymbol.finalKey_of_renamed ha, MethodSymbol.finalKey_of_kept hkept]
  exact fun hmeets => hkey (h.key_eq_of_meets hg hm hn htext ha howner hmeets).symm

end Run
end Renamer
