import Renamer.Proofs.PresetSteps
import Renamer.Proofs.SavedPackages
import Renamer.Proofs.Titles
import Renamer.Proofs.Turns

/-!
# How runs end

What a run leaves behind under the rules of Java, whatever presets it has loaded.

* Every symbol whose name must be replaced has an alias, and an alias that is not empty may be
  written as it is (`Run.Answers`).
* Binding gives every member its alias unless that is empty (`Run.BindsUpTo`). So does unification,
  which gives one alias to all members of a group.
* Every package on the way to a type has an alias or needs none (`Run.Covers`).

`Run.Ends` puts these together: it is all that a later run has to know.
-/

namespace Renamer

namespace Engine

/-- The alias that a member is to be bound to: the one decided for it, unless that is empty. -/
def memberAlias (e : Engine) : SymbolId → Option String
  | .type _ => none
  | .field id => (e.fieldAlias id).filter fun name => name ≠ ""
  | .method id => (e.methodAlias id).filter fun name => name ≠ ""

variable {e e' : Engine} {s : SymbolId} {name : String}

theorem memberAlias_congr (h : e'.aliasOf s = e.aliasOf s) :
    e'.memberAlias s = e.memberAlias s := by
  cases s with
  | type id => rfl
  | field id => exact congrArg (Option.filter _) h
  | method id => exact congrArg (Option.filter _) h

theorem aliasOf_of_memberAlias (h : e.memberAlias s = some name) :
    e.aliasOf s = some name ∧ name ≠ "" := by
  cases s with
  | type id => cases h
  | field id =>
    rcases Option.filter_eq_some_iff.mp h with ⟨halias, hne⟩
    exact ⟨halias, of_decide_eq_true hne⟩
  | method id =>
    rcases Option.filter_eq_some_iff.mp h with ⟨halias, hne⟩
    exact ⟨halias, of_decide_eq_true hne⟩

theorem memberAlias_of_aliasOf (hs : s.kind ≠ .types) (h : e.aliasOf s = some name)
    (hname : name ≠ "") : e.memberAlias s = some name := by
  cases s with
  | type id => exact absurd rfl hs
  | field id => exact Option.filter_eq_some_iff.mpr ⟨h, by simpa using hname⟩
  | method id => exact Option.filter_eq_some_iff.mpr ⟨h, by simpa using hname⟩

theorem memberAlias_eq_none (h : e.aliasOf s = none ∨ e.aliasOf s = some "") :
    e.memberAlias s = none := by
  rw [Option.eq_none_iff_forall_ne_some]
  intro name hname
  rcases aliasOf_of_memberAlias hname with ⟨halias, hne⟩
  rcases h with hnone | hempty
  · rw [halias] at hnone
    cases hnone
  · rw [halias] at hempty
    exact hne (Option.some.inj hempty)

end Engine

namespace Run

variable {p : Program} {P : Policy} {done rest : List SymbolId} {r r' : Run} {s : SymbolId}
  {name : String}

/-- A fresh name may be written as it is. -/
theorem IsFresh.accepts (h : r.IsFresh p s name)
    (hjava : r.engine.policy.classifier = Classifier.java) :
    r.engine.policy.accepts name = true := by
  rcases h.good with ⟨n, hn, hword⟩ | haccepts
  · rw [hword]
    exact Policy.accepts_spell hjava hn
  · exact haccepts

/-! ## Deciding -/

/-- What holds of aliases when the symbols `done` have been decided under the policy `P`. -/
structure Answers (p : Program) (P : Policy) (done : List SymbolId) (r : Run) : Prop where
  declared : r.program.declared = p.declared
  policy : r.engine.policy = P
  passed : ∀ {s name}, r.engine.aliasOf s = some name → s ∈ done
  needed : ∀ {s name}, s ∈ done → p.nameOf s = some name → P.rejects name = true →
    r.engine.aliasOf s ≠ none
  types : ∀ {s name}, s.kind = .types → r.engine.aliasOf s = some name → P.accepts name = true

theorem Answers.leaves (h : Answers p P done r) (hl : r.Leaves r') : Answers p P done r' := by
  constructor
  · rw [hl.declared, h.declared]
  · rw [hl.policy, h.policy]
  · intro s name hname
    rw [hl.aliases] at hname
    exact h.passed hname
  · intro s name hs hname hrejects
    rw [hl.aliases]
    exact h.needed hs hname hrejects
  · intro s name hs hname
    rw [hl.aliases] at hname
    exact h.types hs hname

theorem Answers.of_mem (h : Answers p P done r) {done' : List SymbolId}
    (hdone : ∀ s, s ∈ done' ↔ s ∈ done) : Answers p P done' r where
  declared := h.declared
  policy := h.policy
  passed := fun hname => (hdone _).mpr (h.passed hname)
  needed := fun hs => h.needed ((hdone _).mp hs)
  types := h.types

/-- A symbol is given an alias, which for a type may be written as it is. -/
theorem Answers.assigns (h : Answers p P done r) (ha : r.Assigns p s name r')
    (hname : s.kind = .types → P.accepts name = true) {done' : List SymbolId}
    (hdone : ∀ s', s' ∈ done' ↔ s' ∈ done ∨ s' = s) : Answers p P done' r' := by
  constructor
  · rw [ha.declared, h.declared]
  · rw [ha.policy, h.policy]
  · intro s' name' hname'
    rcases aliasOf_cases ha.aliases hname' with ⟨rfl, -⟩ | ⟨-, hold⟩
    · exact (hdone _).mpr (Or.inr rfl)
    · exact (hdone _).mpr (Or.inl (h.passed hold))
  · intro s' name' hs' hname' hrejects
    rw [ha.aliases]
    split
    · exact Option.some_ne_none name
    · rename_i hne
      exact h.needed (((hdone s').mp hs').resolve_right hne) hname' hrejects
  · intro s' name' hkind hname'
    rcases aliasOf_cases ha.aliases hname' with ⟨rfl, rfl⟩ | ⟨-, hold⟩
    · exact hname hkind
    · exact h.types hkind hold

theorem Answers.decides (h : Answers p P done r) (hjava : P.classifier = Classifier.java)
    (hd : Decides p s r r') : Answers p P (done ++ [s]) r' := by
  have hdone : ∀ s', s' ∈ done ++ [s] ↔ s' ∈ done ∨ s' = s := fun _ =>
    List.mem_append.trans (or_congr_right List.mem_singleton)
  cases hd with
  | keep hwhy =>
    refine ⟨h.declared, h.policy, fun hname => (hdone _).mpr (Or.inl (h.passed hname)), ?_,
      h.types⟩
    intro s' name hs' hname hrejects
    rcases (hdone s').mp hs' with hold | heq
    · exact h.needed hold hname hrejects
    · rw [heq] at hname ⊢
      rcases hwhy with hsome | ⟨-, hkept⟩
      · exact Option.isSome_iff_ne_none.mp hsome
      · have hfalse := hkept name hname
        rw [Engine.rejects, h.policy, hrejects] at hfalse
        cases hfalse
  | preset hpreset haccepts ha hb hc =>
    exact h.assigns ha (fun hkind => h.policy ▸ haccepts hkind) hdone
  | fresh hneeds hfresh ha hb =>
    have haccepts := hfresh.accepts (h.policy ▸ hjava)
    rw [h.policy] at haccepts
    exact h.assigns ha (fun _ => haccepts) hdone

/-- Nothing is bound yet. -/
def Unbound (r : Run) : Prop := ∀ s, r.program.boundAlias s = none

theorem Unbound.sameBound (h : r.Unbound) (hb : r.SameBound r') : r'.Unbound :=
  fun s => (hb s).trans (h s)

theorem Decides.sameBound (hd : Decides p s r r') : r.SameBound r' := by
  cases hd with
  | keep _ => exact fun _ => rfl
  | preset _ _ _ hb _ => exact hb
  | fresh _ _ _ hb => exact hb

theorem Decides.declared (hd : Decides p s r r') :
    r'.program.declared = r.program.declared := by
  cases hd with
  | keep _ => rfl
  | preset _ _ ha _ _ => exact ha.declared
  | fresh _ _ ha _ => exact ha.declared

theorem Decides.policy (hd : Decides p s r r') : r'.engine.policy = r.engine.policy := by
  cases hd with
  | keep _ => rfl
  | preset _ _ ha _ _ => exact ha.policy
  | fresh _ _ ha _ => exact ha.policy

theorem Decides.presets (hd : Decides p s r r') : r'.engine.presets = r.engine.presets := by
  cases hd with
  | keep _ => rfl
  | preset _ _ ha _ _ => exact ha.presets
  | fresh _ _ ha _ => exact ha.presets

/-- No other symbol gets or loses an alias. -/
theorem Decides.aliasOf_of_ne (hd : Decides p s r r') {s' : SymbolId} (hne : s' ≠ s) :
    r'.engine.aliasOf s' = r.engine.aliasOf s' := by
  cases hd with
  | keep _ => rfl
  | preset _ _ ha _ _ => rw [ha.aliases, if_neg hne]
  | fresh _ _ ha _ => rw [ha.aliases, if_neg hne]

/-- The symbols `seen` have had their answers before. -/
theorem keeps_answers_deciding (p : Program) (hjava : P.classifier = Classifier.java)
    (seen : List SymbolId) :
    Pass.deciding.Keeps p fun done r => Answers p P (seen ++ done) r ∧ r.Unbound := by
  apply Pass.keeps_deciding
  case hdeclared => exact fun h => h.1.declared
  case htype =>
    intro done rest r ty t _ ht h
    have hpackage := h.1.leaves (leaves_decidePackage r t)
    have hd := decides_decideType (r := { r with engine := r.engine.decidePackage t }) ht
    rw [← List.append_assoc]
    exact ⟨hpackage.decides hjava hd, h.2.sameBound hd.sameBound⟩
  case hmember =>
    intro done rest s r r' _ _ hd _ h
    rw [← List.append_assoc]
    exact ⟨h.1.decides hjava hd, h.2.sameBound hd.sameBound⟩
  case hlink => exact fun hl hb _ _ h => ⟨h.1.leaves hl, h.2.sameBound hb⟩

/-! ## Binding -/

/-- The members of `done`, and no others, have been bound to their aliases. -/
structure BindsUpTo (done : List SymbolId) (r : Run) : Prop where
  bound : ∀ s, r.program.boundAlias s = if s ∈ done then r.engine.memberAlias s else none
  usable : ∀ {s name}, s ∈ done → r.engine.memberAlias s = some name →
    r.engine.policy.accepts name = true

/-- At first none of them has been. -/
theorem Unbound.bindsUpTo (h : r.Unbound) : BindsUpTo [] r :=
  ⟨h, fun hs => absurd hs List.not_mem_nil⟩

/-- A step that binds nothing, of a symbol that is not to be bound. -/
theorem BindsUpTo.skip (h : BindsUpTo done r) (hl : r.Leaves r') (hb : r.SameBound r')
    (hs : s ∉ done) (hnone : r.engine.memberAlias s = none) : BindsUpTo (done ++ [s]) r' := by
  have hsame : ∀ s', r'.engine.memberAlias s' = r.engine.memberAlias s' := fun s' =>
    Engine.memberAlias_congr (hl.aliases s')
  constructor
  · intro s'
    rw [hb, h.bound, hsame]
    by_cases heq : s' = s
    · rw [heq, if_neg hs, hnone, ite_self]
    · have hmem : s' ∈ done ++ [s] ↔ s' ∈ done := by simp [heq]
      simp only [hmem]
  · intro s' name hs' hname
    rw [hsame] at hname
    rw [hl.policy]
    rcases List.mem_append.mp hs' with hold | hnew
    · exact h.usable hold hname
    · rw [List.mem_singleton.mp hnew, hnone] at hname
      cases hname

/-- A step that binds a symbol to its alias, which may be written as it is. -/
theorem BindsUpTo.boundAs (h : BindsUpTo done r) (hb : BoundAs s name r r')
    (hpolicy : r'.engine.policy = r.engine.policy)
    (hothers : ∀ s', s' ≠ s → r'.engine.memberAlias s' = r.engine.memberAlias s')
    (hs : r'.engine.memberAlias s = some name) (haccepts : r.engine.policy.accepts name = true) :
    BindsUpTo (done ++ [s]) r' := by
  constructor
  · intro s'
    rw [hb]
    by_cases heq : s' = s
    · rw [heq, if_pos rfl, if_pos (List.mem_append_right _ List.mem_cons_self), hs]
    · have hmem : s' ∈ done ++ [s] ↔ s' ∈ done := by simp [heq]
      rw [if_neg heq, h.bound, hothers s' heq]
      simp only [hmem]
  · intro s' name' hs' hname'
    rw [hpolicy]
    by_cases heq : s' = s
    · rw [heq, hs] at hname'
      exact Option.some.inj hname' ▸ haccepts
    · rw [hothers s' heq] at hname'
      rcases List.mem_append.mp hs' with hold | hnew
      · exact h.usable hold hname'
      · exact absurd (List.mem_singleton.mp hnew) heq

theorem BindsUpTo.binds (h : BindsUpTo done r)
    (hjava : r.engine.policy.classifier = Classifier.java) (hkind : s.kind ≠ .types)
    (hs : s ∉ done) (hb : Binds p s r r') :
    BindsUpTo (done ++ [s]) r' := by
  cases hb with
  | skip hwhy => exact h.skip (Leaves.refl r) (fun _ => rfl) hs (Engine.memberAlias_eq_none hwhy)
  | bind halias hne haccepts hl hbound _ =>
    refine h.boundAs hbound hl.policy (fun s' _ => Engine.memberAlias_congr (hl.aliases s')) ?_
      haccepts
    exact Engine.memberAlias_of_aliasOf hkind ((hl.aliases s).trans halias) hne
  | @redraw _ _ name halias _ _ hfresh ha hbound =>
    have haccepts := hfresh.accepts hjava
    have hne : name ≠ "" := by
      intro hempty
      rw [hempty, Policy.accepts_empty hjava] at haccepts
      cases haccepts
    refine h.boundAs hbound ha.policy (fun s' heq => Engine.memberAlias_congr ?_) ?_ haccepts
    · rw [ha.aliases, if_neg heq]
    · refine Engine.memberAlias_of_aliasOf hkind ?_ hne
      rw [ha.aliases, if_pos rfl]

theorem Answers.binds (h : Answers p P p.walk r) (hjava : P.classifier = Classifier.java)
    (hs : s ∈ p.walk) (hb : Binds p s r r') : Answers p P p.walk r' := by
  cases hb with
  | skip _ => exact h
  | bind _ _ _ hl _ _ => exact h.leaves hl
  | redraw _ _ _ hfresh ha _ =>
    have haccepts := hfresh.accepts (h.policy ▸ hjava)
    rw [h.policy] at haccepts
    exact h.assigns ha (fun _ => haccepts) fun _ => (or_iff_left_of_imp (· ▸ hs)).symm

/-- Every member is bound to its alias, which may be written as it is. -/
structure AllBound (r : Run) : Prop where
  bound : ∀ s, r.program.boundAlias s = r.engine.memberAlias s
  usable : ∀ {s name}, r.engine.memberAlias s = some name → r.engine.policy.accepts name = true

/-- When the pass has come to all symbols, all are bound: no other symbol has an alias. -/
theorem Answers.allBound (h : Answers p P p.walk r) (hb : BindsUpTo p.walk r) : r.AllBound := by
  have hwalk : ∀ {s name}, r.engine.memberAlias s = some name → s ∈ p.walk := fun hname =>
    h.passed (Engine.aliasOf_of_memberAlias hname).1
  refine ⟨fun s => ?_, fun hname => hb.usable (hwalk hname) hname⟩
  rw [hb.bound]
  split
  · rfl
  · rename_i hs
    rw [eq_comm, Option.eq_none_iff_forall_ne_some]
    exact fun name hname => hs (hwalk hname)

theorem keeps_answers_binding (p : Program) (hjava : P.classifier = Classifier.java) :
    Pass.binding.Keeps p fun done r => Answers p P p.walk r ∧ BindsUpTo done r := by
  apply Pass.keeps_binding
  case hdeclared => exact fun h => h.1.declared
  case htype =>
    intro done rest r ty t hwalk _ h
    rcases leaves_applyType r ty t with ⟨hl, hb, -⟩
    exact ⟨h.1.leaves hl, h.2.skip hl hb (Program.notMem_of_walk hwalk) rfl⟩
  case hmember =>
    intro done rest s r r' hwalk hkind hb _ h
    have hs : s ∈ p.walk := by simp [hwalk]
    exact ⟨h.1.binds hjava hs hb,
      h.2.binds (h.1.policy ▸ hjava) hkind (Program.notMem_of_walk hwalk) hb⟩

/-- When all aliases are bound, members have their aliases and no symbol is left without an
answer. -/
theorem answers_bound (p : Program) {e : Engine} (he : e.Unused)
    (hjava : e.policy.classifier = Classifier.java) :
    Answers p e.policy p.walk (e.bound p) ∧ (e.bound p).AllBound := by
  have hnone : ∀ s, (e.seed p.clearAliases).aliasOf s = none := fun s =>
    (aliasOf_seed e p.clearAliases s).trans (he.aliasOf_eq_none s)
  have hstart : Answers p e.policy []
      { engine := e.seed p.clearAliases, program := p.clearAliases } := by
    refine ⟨Program.declared_clearAliases, rfl, fun {s name} hname => ?_,
      fun hs => absurd hs List.not_mem_nil, fun {s name} _ hname => ?_⟩
    · rw [hnone] at hname
      cases hname
    · rw [hnone] at hname
      cases hname
  rcases (keeps_answers_deciding p hjava []).bound (keeps_answers_binding p hjava)
    ⟨hstart, Program.boundAlias_clearAliases⟩ fun {r} hr =>
      ⟨hr.1.leaves (leaves_discovered r), Unbound.bindsUpTo hr.2⟩ with ⟨hanswers, hbinds⟩
  exact ⟨hanswers, hanswers.allBound hbinds⟩

end Run

/-! ## Unification -/

namespace Unification

/-- The methods carry the aliases that the table has for them, and these may be written as they
are. -/
structure Agrees (P : Policy) (u : Unification) : Prop where
  bound : ∀ id, u.program.boundAlias (.method id) =
    (u.aliases.get? id).filter fun name => name ≠ ""
  usable : ∀ {id name}, u.aliases.get? id = some name → name = "" ∨ P.accepts name = true
  present : ∀ {id name}, u.aliases.get? id = some name →
    ∃ m, u.program.methods.get? id = some m

variable {P : Policy} {u u' : Unification} {ids : List MethodId} {chosen name : String}

/-- The name of a group may be written as it is. -/
theorem Named.accepts (hnamed : Named u ids chosen name u') (h : Agrees P u)
    (hjava : P.classifier = Classifier.java) : P.accepts name = true := by
  rcases hnamed.name_eq with ⟨-, hname, -⟩ | ⟨n, ⟨-, hnext⟩, hname, -⟩
  · -- the alias of a member is not empty
    rcases mem_of_chosenAlias hnamed.chosen_eq with ⟨m, hm, hchosen⟩
    rcases Program.mem_symbols.mp hm with ⟨id, -, hid⟩
    have hbound : u.program.boundAlias (.method id) = some chosen := by
      rw [Program.boundAlias, hid]
      exact hchosen
    rw [h.bound] at hbound
    rcases Option.filter_eq_some_iff.mp hbound with ⟨halias, hne⟩
    rw [hname]
    exact (h.usable halias).resolve_left (of_decide_eq_true hne)
  · rw [hname]
    exact Policy.accepts_spell hjava hnext.not_reserved

theorem Named.agrees (hnamed : Named u ids chosen name u') (h : Agrees P u)
    (hjava : P.classifier = Classifier.java) (hids : Present u.program ids) : Agrees P u' := by
  have haccepts := hnamed.accepts h hjava
  have hne : name ≠ "" := by
    intro hempty
    rw [hempty, Policy.accepts_empty hjava] at haccepts
    cases haccepts
  constructor
  · intro id
    rw [Program.boundAlias, hnamed.methods, hnamed.aliases]
    split
    · rename_i hid
      rcases hids id hid with ⟨m, hm⟩
      rw [hm, Option.map_some, Option.bind_some, newName_called, Option.filter_some,
        if_pos (decide_eq_true hne)]
    · exact h.bound id
  · intro id name' hname'
    rw [hnamed.aliases] at hname'
    split at hname'
    · exact Or.inr (Option.some.inj hname' ▸ haccepts)
    · exact h.usable hname'
  · intro id name' hname'
    rw [hnamed.aliases] at hname'
    rw [hnamed.methods]
    split at hname'
    · rename_i hid
      rcases hids id hid with ⟨m, hm⟩
      exact ⟨called name m, by rw [if_pos hid, hm]; rfl⟩
    · rename_i hid
      rw [if_neg hid]
      exact h.present hname'

/-- All turns keep the agreement. A method keeps its alias or gets one that may be written as it
is. -/
theorem Agrees.turns (h : Agrees P u) (hjava : P.classifier = Classifier.java)
    {groups : List (GroupId × List MethodId)} (hpresent : ∀ g ∈ groups, Present u.program g.2) :
    Agrees P (u.turns groups) ∧
      ∀ id, (u.turns groups).aliases.get? id = u.aliases.get? id ∨
        ∃ name, P.accepts name = true ∧ (u.turns groups).aliases.get? id = some name := by
  refine (turns_induct hpresent (motive := fun _ v => Agrees P v ∧
    ∀ id, v.aliases.get? id = u.aliases.get? id ∨
      ∃ name, P.accepts name = true ∧ v.aliases.get? id = some name)
    ⟨h, fun _ => Or.inl rfl⟩ ?_).2
  intro done g rest hgroups hdeclared hturn hdone
  have hg : Present (u.turns done).program g.2 :=
    (hpresent g (by simp [hgroups])).of_declared hdeclared.symm
  generalize (u.turns done).turn g.2 = v at hturn
  cases hturn with
  | rest _ => exact hdone
  | call hnamed =>
    refine ⟨hnamed.agrees hdone.1 hjava hg, fun id => ?_⟩
    rw [hnamed.aliases]
    split
    · exact Or.inr ⟨_, hnamed.accepts hdone.1 hjava, rfl⟩
    · exact hdone.2 id

end Unification

namespace Run

variable {p : Program} {P : Policy} {r : Run}

theorem agrees_unification (h : Answers p P p.walk r) (hb : r.AllBound) :
    Unification.Agrees P r.unification where
  bound := fun id => hb.bound (.method id)
  usable := by
    intro id name hname
    by_cases hempty : name = ""
    · exact Or.inl hempty
    · have halias : r.engine.aliasOf (.method id) = some name := hname
      have hmember : r.engine.memberAlias (.method id) = some name :=
        Engine.memberAlias_of_aliasOf (fun heq => by cases heq) halias hempty
      exact Or.inr (h.policy ▸ hb.usable hmember)
  present := by
    intro id name hname
    rcases Program.cases_of_mem_walk (h.passed (s := .method id) hname) with
      ⟨ty, t, hs, -⟩ | ⟨i, f, hs, -⟩ | ⟨i, m, hs, hm⟩
    · cases hs
    · cases hs
    · cases hs
      rcases Program.method_of_declared h.declared.symm hm with ⟨m', hm', -⟩
      exact ⟨m', hm'⟩

/-- Unification changes nothing but the aliases of methods, and leaves no symbol without an
answer. -/
theorem Answers.unified (h : Answers p P p.walk r) (hb : r.AllBound) (hg : Grouped p r)
    (hp : p.WellFormed) (hjava : P.classifier = Classifier.java) :
    Answers p P p.walk r.unified := by
  rcases (agrees_unification h hb).turns hjava hg.present with ⟨hagrees, hkept⟩
  refine ⟨hg.declared_unified, h.policy, ?_, ?_, ?_⟩
  · intro s name hname
    cases s with
    | type id => exact h.passed (s := .type id) hname
    | field id => exact h.passed (s := .field id) hname
    | method id =>
      rcases hagrees.present hname with ⟨m, hm⟩
      rcases Program.method_of_declared hg.declared_unified hm with ⟨m', hm', -⟩
      exact Program.mem_walk_method hp hm'
  · intro s name hs hname hrejects
    have hneeded := h.needed hs hname hrejects
    cases s with
    | type id => exact hneeded
    | field id => exact hneeded
    | method id =>
      show (r.unification.turns r.engine.groups.live).aliases.get? id ≠ none
      rcases hkept id with hsame | ⟨name, -, hnew⟩
      · rw [hsame]
        exact hneeded
      · rw [hnew]
        exact Option.some_ne_none name
  · intro s name hkind hname
    cases s with
    | type id => exact h.types (s := .type id) hkind hname
    | field id => cases hkind
    | method id => cases hkind

/-- Unification leaves members bound to their aliases. -/
theorem AllBound.unified (hb : r.AllBound) (h : Answers p P p.walk r) (hg : Grouped p r)
    (hjava : P.classifier = Classifier.java) : r.unified.AllBound := by
  rcases (agrees_unification h hb).turns hjava hg.present with ⟨hagrees, -⟩
  constructor
  · intro s
    cases s with
    | type id => rfl
    | field id =>
      rw [Program.boundAlias, hg.fields_unified]
      exact hb.bound (.field id)
    | method id => exact hagrees.bound id
  · intro s name hname
    cases s with
    | type id => cases hname
    | field id => exact hb.usable (s := .field id) hname
    | method id =>
      rcases Engine.aliasOf_of_memberAlias hname with ⟨halias, hne⟩
      exact h.policy ▸ (hagrees.usable halias).resolve_left hne

/-- In a run without presets no symbol ends with an empty alias. -/
theorem Settled.aliasOf_unified_ne_empty (h : Settled p r) (hanswers : Answers p P p.walk r)
    (hb : r.AllBound) (hg : Grouped p r) (hjava : P.classifier = Classifier.java) (s : SymbolId) :
    r.unified.engine.aliasOf s ≠ some "" := by
  have hbefore : ∀ s, s.kind ≠ .types → r.engine.aliasOf s ≠ some "" := by
    intro s hkind hname
    rcases h.word hname with ⟨n, -, hword⟩ | ⟨ty, rfl, -⟩
    · exact Word.spell_ne_empty n hword.symm
    · exact hkind rfl
  have hempty : ¬ P.accepts "" = true := by
    rw [Policy.accepts_empty hjava]
    exact Bool.false_ne_true
  cases s with
  | type id => exact fun hname => hempty (hanswers.types (s := .type id) rfl hname)
  | field id => exact hbefore (.field id) fun heq => by cases heq
  | method id =>
    show (r.unification.turns r.engine.groups.live).aliases.get? id ≠ some ""
    rcases ((agrees_unification hanswers hb).turns hjava hg.present).2 id with
      hsame | ⟨name, haccepts, hnew⟩
    · rw [hsame]
      exact hbefore (.method id) fun heq => by cases heq
    · rw [hnew]
      exact fun heq => hempty (Option.some.inj heq ▸ haccepts)

/-- Linked methods end bound to one alias. -/
theorem Grouped.boundAlias_eq_unified (hg : Grouped p r) {i j : MethodId}
    (hij : Relation.ReflTransGen p.Linked i j) :
    r.unified.program.boundAlias (.method i) = r.unified.program.boundAlias (.method j) := by
  rcases (hg.same_iff i j).mpr hij with heq | ⟨g, hi, hj⟩
  · rw [heq]
  · -- members of groups are methods
    have hmethod : ∀ {k}, k ∈ r.engine.groups.members g →
        ∃ m, r.unified.program.methods.get? k = some m := by
      intro k hk
      rcases OverrideGroups.live_of_mem hk with ⟨before, after, hlive⟩
      have hmem : (g, r.engine.groups.members g) ∈ r.engine.groups.live := by simp [hlive]
      rcases hg.present _ hmem k hk with ⟨m, hm⟩
      rcases Program.method_of_declared (hg.declared.trans hg.declared_unified.symm) hm with
        ⟨m', hm', -⟩
      exact ⟨m', hm'⟩
    rcases hmethod hi with ⟨m, hm⟩
    rcases hmethod hj with ⟨n, hn⟩
    rw [Program.boundAlias, Program.boundAlias, hm, hn]
    exact hg.newName_eq_unified (Or.inr ⟨g, hi, hj⟩) hm hn

/-! ## Packages -/

/-- What holds of packages when the symbols `done` have been decided: aliases may be written, and
every package on the way to a type has one or needs none. -/
structure Covers (p : Program) (P : Policy) (done : List SymbolId) (r : Run) : Prop where
  declared : r.program.declared = p.declared
  policy : r.engine.policy = P
  sound : PackageTree.Sound P r.engine.packages
  tidy : r.engine.packages.Tidy P.rejects
  covered : ∀ {ty t}, SymbolId.type ty ∈ done → p.ShowsType ty t →
    ∀ a ∈ (PackagePath.ofText t.package).lineage, r.engine.packages.Covered P.rejects a

variable {done : List SymbolId} {r' : Run} {s : SymbolId}

/-- A step that does not change the packages. -/
theorem Covers.of_packages (h : Covers p P done r)
    (hdeclared : r'.program.declared = r.program.declared)
    (hpolicy : r'.engine.policy = r.engine.policy)
    (hpackages : r'.engine.packages = r.engine.packages) {done' : List SymbolId}
    (hdone : ∀ {ty}, SymbolId.type ty ∈ done' → SymbolId.type ty ∈ done) :
    Covers p P done' r' := by
  constructor
  · rw [hdeclared, h.declared]
  · rw [hpolicy, h.policy]
  · rw [hpackages]
    exact h.sound
  · rw [hpackages]
    exact h.tidy
  · rw [hpackages]
    exact fun hty => h.covered (hdone hty)

/-- Deciding the package of a type covers it. -/
theorem Covers.decidePackage (h : Covers p P done r) (hjava : P.classifier = Classifier.java)
    {ty : TypeId} {t : TypeSymbol} (ht : p.ShowsType ty t) :
    Covers p P (done ++ [SymbolId.type ty]) { r with engine := r.engine.decidePackage t } := by
  let path := PackagePath.ofText t.package
  have hrejects : r.engine.rejects = P.rejects := by
    rw [← h.policy]
    rfl
  have hhas : ∀ a ∈ path.lineage, (r.engine.packages.create path).Has a := fun a ha =>
    PackageTree.has_create_of_mem ha
  have hsound := (h.sound.create t.package).decide hjava hhas P.rejects r.engine.source
  have htidy := (h.tidy.create path).decide hhas r.engine.source
  rcases r.engine.decidePackage_eq t with ⟨packages, source, hdecide, -, heq⟩
  rw [hrejects] at hdecide
  rw [show PackagePath.ofText t.package = path from rfl] at hsound hdecide
  rw [hdecide] at hsound htidy
  rcases htidy with ⟨htidy, hkept, hall⟩
  rw [heq]
  refine ⟨h.declared, h.policy, hsound, htidy, fun {ty' t'} hmem ht' a ha => ?_⟩
  rcases List.mem_append.mp hmem with hold | hnew
  · exact hkept a ((PackageTree.covered_create _ path a).mpr (h.covered hold ht' a ha))
  · -- a slot shows one type, up to what a run may change
    cases List.mem_singleton.mp hnew
    rcases ht with ⟨u, hu, hut⟩
    rcases ht' with ⟨u', hu', hut'⟩
    rw [hu] at hu'
    cases hu'
    rw [← TypeSymbol.agree hut' TypeSymbol.package fun _ => rfl,
      TypeSymbol.agree hut TypeSymbol.package fun _ => rfl] at ha
    exact hall a ha

theorem keeps_covers_deciding (p : Program) (hjava : P.classifier = Classifier.java) :
    Pass.deciding.Keeps p (Covers p P) := by
  apply Pass.keeps_deciding
  case hdeclared => exact fun h => h.declared
  case htype =>
    intro done rest r ty t _ ht h
    have hd := decides_decideType (r := { r with engine := r.engine.decidePackage t }) ht
    refine (h.decidePackage hjava ht).of_packages hd.declared hd.policy ?_ fun hty => hty
    exact packages_decideType _ ty t
  case hmember =>
    intro done rest s r r' _ hkind hd hs h
    exact h.of_packages hd.declared hd.policy hs.packages (SymbolId.type_mem_of_kind hkind)
  case hlink =>
    intro done r r' hl _ _ hs h
    exact h.of_packages hl.declared hl.policy hs.packages fun hty => hty

/-- When all has been decided, the packages of all types are covered. -/
theorem covers_discover (p : Program) {e : Engine} (hjava : e.policy.classifier = Classifier.java)
    (hsound : PackageTree.Sound e.policy e.packages) (horder : e.packages.order = []) :
    Covers p e.policy p.walk (Run.discover { engine := e, program := p.clearAliases }) := by
  have hseed : Covers p e.policy []
      { engine := e.seed p.clearAliases, program := p.clearAliases } := by
    have hcreated : ∀ l : List TypeSymbol,
        PackageTree.Sound e.policy
            (l.foldl (fun t s => t.create (PackagePath.ofText s.package)) e.packages) ∧
          (l.foldl (fun t s => t.create (PackagePath.ofText s.package)) e.packages).Tidy
            e.policy.rejects := by
      intro l
      apply List.foldlRecOn (motive := fun t : PackageTree =>
        PackageTree.Sound e.policy t ∧ t.Tidy e.policy.rejects)
      · refine ⟨hsound, fun b hb => ?_⟩
        rw [horder] at hb
        cases hb
      · exact fun t ht s _ => ⟨ht.1.create s.package, ht.2.create _⟩
    rcases hcreated p.clearAliases.types.toList with ⟨hsound', htidy⟩
    exact ⟨Program.declared_clearAliases, rfl, hsound', htidy, fun hty =>
      absurd hty List.not_mem_nil⟩
  rcases (keeps_covers_deciding p hjava).discover hseed with ⟨r, hr, heq⟩
  rw [heq]
  refine hr.of_packages ?_ ?_ ?_ fun hty => hty
  · rfl
  · rfl
  · rfl

/-! ## The end -/

/-- What a run leaves behind. -/
structure Ends (p : Program) (P : Policy) (r : Run) : Prop where
  answers : Answers p P p.walk r
  allBound : r.AllBound
  linked : ∀ {i j}, Relation.ReflTransGen p.Linked i j →
    r.program.boundAlias (.method i) = r.program.boundAlias (.method j)
  sound : PackageTree.Sound P r.engine.packages
  covered : ∀ {ty t}, p.types.get? ty = some t → ∀ a ∈ (PackagePath.ofText t.package).lineage,
    r.engine.packages.Covered P.rejects a

/-- So ends every run under the rules of Java. -/
theorem ends_unified (hp : p.WellFormed) {e : Engine} (he : e.Unused)
    (hjava : e.policy.classifier = Classifier.java)
    (hsound : PackageTree.Sound e.policy e.packages) (horder : e.packages.order = []) :
    Ends p e.policy (e.bound p).unified := by
  have hg := Engine.grouped_bound hp he.groups
  have hcovers := covers_discover p hjava hsound horder
  have hpackages := (alikeTypes_unified e p).packages
  rcases answers_bound p he hjava with ⟨hanswers, hbound⟩
  refine ⟨hanswers.unified hbound hg hp hjava, hbound.unified hanswers hg hjava,
    hg.boundAlias_eq_unified, ?_, fun {ty t} ht => ?_⟩
  · rw [hpackages]
    exact hcovers.sound
  · rw [hpackages]
    exact hcovers.covered (Program.mem_walk_type ht) ⟨t, ht, rfl⟩

/-- The alias of a member may be written, unless it is empty. -/
theorem Ends.accepts (h : Ends p P r) {s : SymbolId} {name : String} (hs : s.kind ≠ .types)
    (hname : r.engine.aliasOf s = some name) (hne : name ≠ "") : P.accepts name = true := by
  have hmember := Engine.memberAlias_of_aliasOf hs hname hne
  exact h.answers.policy ▸ h.allBound.usable hmember

end Run

namespace Engine

/-- A run under the rules of Java succeeds and ends so, whatever presets were loaded. -/
theorem ends_process {p : Program} (hp : p.Built) (e : Engine)
    (hjava : e.policy.classifier = Classifier.java) (presets : Presets) :
    (∃ report, (e.reset.loadPresets presets).process p =
        .ok (report, ((e.reset.loadPresets presets).bound p).unified)) ∧
      Run.Ends p e.policy ((e.reset.loadPresets presets).bound p).unified := by
  have he := e.unused_reset.loadPresets presets
  have hpolicy : (e.reset.loadPresets presets).policy = e.policy := policy_loadPresets _ presets
  rcases sound_loadPresets e hjava presets with ⟨hsound, horder⟩
  rw [← hpolicy] at hjava hsound
  refine ⟨process_eq_ok hp.wellFormed he.groups, ?_⟩
  rw [← hpolicy]
  exact Run.ends_unified hp.wellFormed he hjava hsound horder

end Engine
end Renamer
