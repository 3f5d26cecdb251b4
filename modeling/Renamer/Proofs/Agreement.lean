import Renamer.Proofs.Counting
import Renamer.Proofs.Stability

/-!
# Tables and symbols

The alias of a member is written down twice: in the table of the engine, and on the symbol. Under
the rules of Java both agree after a run, with one exception. An empty preset is taken into the
table like any other, and binds nothing. So the table answers an empty alias where the symbol has
none, unless a method gets an alias with its group.

* `Run.Voices` is the invariant that tells the empty presets apart from all other aliases.
* `Run.Grouped.boundAlias_unified_eq_none_iff` says which methods a group leaves without alias.
-/

namespace Renamer

/-- Nothing calls for an alias of the symbol `s`: its preset is the empty one, or it has none and
its declared name may stay. -/
def Engine.Silences (e : Engine) (p : Program) (presets : Presets) (s : SymbolId) : Prop :=
  p.presetOf presets s = some "" ∨
    p.presetOf presets s = none ∧ ∀ name, p.nameOf s = some name → e.rejects name = false

namespace Run

variable {p : Program} {e : Engine} {done rest : List SymbolId} {r r' : Run} {s : SymbolId}
  {name : String}

/-! ## Empty aliases -/

/-- What holds of presets, and of empty aliases, when the symbols `done` have been decided. -/
structure Voices (p : Program) (e : Engine) (done : List SymbolId) (r : Run) : Prop where
  heeds : Heeds p e done r
  given : ∀ {s}, s ∈ done → p.presetOf e.presets s ≠ none → r.engine.aliasOf s ≠ none
  empty : ∀ {s}, r.engine.aliasOf s = some "" → p.presetOf e.presets s = some ""

theorem Voices.leaves (h : Voices p e done r) (hl : r.Leaves r') : Voices p e done r' where
  heeds := h.heeds.leaves hl
  given := fun {s} hs hpreset => by
    rw [hl.aliases]
    exact h.given hs hpreset
  empty := fun {s} hs => h.empty (by rwa [hl.aliases] at hs)

/-- A symbol is given an alias that is empty only where its preset is. -/
theorem Voices.assigns (h : Voices p e done r) (ha : r.Assigns p s name r')
    {done' : List SymbolId} (hheeds : Heeds p e done' r')
    (hdone' : ∀ s' ∈ done', s' ∈ done ∨ s' = s)
    (hempty : name = "" → p.presetOf e.presets s = some "") : Voices p e done' r' := by
  refine ⟨hheeds, fun {s'} hs' hpreset => ?_, fun {s'} hs' => ?_⟩
  · rw [ha.aliases]
    split
    · exact Option.some_ne_none name
    · rename_i hne
      exact h.given ((hdone' s' hs').resolve_right hne) hpreset
  · rcases aliasOf_cases ha.aliases hs' with ⟨rfl, hname⟩ | ⟨-, hold⟩
    · exact hempty hname.symm
    · exact h.empty hold

theorem IsFresh.ne_empty (h : r.IsFresh p s name)
    (hjava : r.engine.policy.classifier = Classifier.java) : name ≠ "" := by
  intro hempty
  have haccepts := h.accepts hjava
  rw [hempty, Policy.accepts_empty hjava] at haccepts
  cases haccepts

theorem Voices.decides (h : Voices p e done r) (hjava : e.policy.classifier = Classifier.java)
    (hwalk : p.walk = done ++ s :: rest) (hd : Decides p s r r') :
    Voices p e (done ++ [s]) r' := by
  have hheeds := h.heeds.decides hwalk hd
  have hdone' : ∀ s' ∈ done ++ [s], s' ∈ done ∨ s' = s := fun s' hs' =>
    (List.mem_append.mp hs').imp_right List.mem_singleton.mp
  cases hd with
  | keep hwhy =>
    refine ⟨hheeds, fun {s'} hs' hpreset => ?_, h.empty⟩
    rcases hdone' s' hs' with hold | heq
    · exact h.given hold hpreset
    · rw [heq] at hpreset ⊢
      rcases hwhy with hsome | ⟨hnone, -⟩
      · exact Option.isSome_iff_ne_none.mp hsome
      · rw [h.heeds.presets] at hnone
        exact absurd hnone hpreset
  | preset hpreset _ ha _ _ =>
    rw [h.heeds.presets] at hpreset
    exact h.assigns ha hheeds hdone' fun hempty => hempty ▸ hpreset
  | fresh _ hfresh ha _ =>
    have hne := hfresh.ne_empty (h.heeds.policy ▸ hjava)
    exact h.assigns ha hheeds hdone' fun hempty => absurd hempty hne

theorem Voices.binds (h : Voices p e p.walk r) (hjava : e.policy.classifier = Classifier.java)
    (hs : s ∈ p.walk) (hb : Binds p s r r') : Voices p e p.walk r' := by
  have hheeds := h.heeds.binds hs hb
  cases hb with
  | skip _ => exact h
  | bind _ _ _ hl _ _ => exact h.leaves hl
  | redraw _ _ _ hfresh ha _ =>
    have hne := hfresh.ne_empty (h.heeds.policy ▸ hjava)
    exact h.assigns ha hheeds (fun _ => Or.inl) fun hempty => absurd hempty hne

theorem keeps_voices_deciding (p : Program) {e : Engine}
    (hjava : e.policy.classifier = Classifier.java) : Pass.deciding.Keeps p (Voices p e) := by
  apply Pass.keeps_deciding
  case hdeclared => exact fun h => h.heeds.declared
  case htype =>
    intro done rest r ty t hwalk ht h
    have hd := decides_decideType (r := { r with engine := r.engine.decidePackage t }) ht
    exact (h.leaves (leaves_decidePackage r t)).decides hjava hwalk hd
  case hmember => exact fun hwalk _ hd _ h => h.decides hjava hwalk hd
  case hlink => exact fun hl _ _ _ h => h.leaves hl

theorem keeps_voices_binding (p : Program) {e : Engine}
    (hjava : e.policy.classifier = Classifier.java) :
    Pass.binding.Keeps p fun _ => Voices p e p.walk := by
  apply Pass.keeps_binding
  case hdeclared => exact fun h => h.heeds.declared
  case htype =>
    intro done rest r ty t _ _ h
    exact h.leaves (leaves_applyType r ty t).1
  case hmember =>
    intro done rest s r r' hwalk _ hb _ h
    exact h.binds hjava (by simp [hwalk]) hb

/-- When all aliases are bound, empty ones are presets, and no preset has been passed over. -/
theorem voices_bound (p : Program) {e : Engine} (he : e.Unused)
    (hjava : e.policy.classifier = Classifier.java) : Voices p e p.walk (e.bound p) := by
  have hnone : ∀ s, (e.seed p.clearAliases).aliasOf s = none := fun s =>
    (aliasOf_seed e p.clearAliases s).trans (he.aliasOf_eq_none s)
  have hstart : Voices p e [] { engine := e.seed p.clearAliases, program := p.clearAliases } := by
    refine ⟨⟨Program.declared_clearAliases, rfl, rfl, fun {s name} hname => ?_,
      fun hs => absurd hs List.not_mem_nil, fun {s} _ => hnone s⟩,
      fun hs => absurd hs List.not_mem_nil, fun {s} hs => ?_⟩
    · rw [hnone] at hname
      cases hname
    · rw [hnone] at hs
      cases hs
  exact (keeps_voices_deciding p hjava).bound (keeps_voices_binding p hjava) hstart fun {r} hr =>
    hr.leaves (leaves_discovered r)

/-- A member has an empty alias exactly if its preset is empty. -/
theorem Voices.aliasOf_eq_empty_iff (h : Voices p e p.walk r) (hp : p.WellFormed)
    (hs : s.kind ≠ .types) :
    r.engine.aliasOf s = some "" ↔ p.presetOf e.presets s = some "" := by
  refine ⟨h.empty, fun hpreset => ?_⟩
  obtain ⟨identity, hidentity, -⟩ := Option.bind_eq_some_iff.mp hpreset
  exact h.heeds.adopted (Program.mem_walk_of_identityOf hp hidentity) ⟨hpreset, Or.inr ⟨hs, rfl⟩⟩

/-- A member is to be bound to no alias exactly if nothing calls for one. -/
theorem Voices.memberAlias_eq_none_iff (h : Voices p e p.walk r)
    (hanswers : Answers p e.policy p.walk r) (hp : p.WellFormed) (hs : s.kind ≠ .types) :
    r.engine.memberAlias s = none ↔ e.Silences p e.presets s := by
  constructor
  · intro hnone
    cases halias : r.engine.aliasOf s with
    | some name =>
      by_cases hname : name = ""
      · exact Or.inl (h.empty (hname ▸ halias))
      · cases hnone.symm.trans (Engine.memberAlias_of_aliasOf hs halias hname)
    | none =>
      refine Or.inr ⟨?_, fun name hname => ?_⟩
      · by_contra hpreset
        obtain ⟨preset, hpreset'⟩ := Option.ne_none_iff_exists'.mp hpreset
        obtain ⟨identity, hidentity, -⟩ := Option.bind_eq_some_iff.mp hpreset'
        exact h.given (Program.mem_walk_of_identityOf hp hidentity) hpreset halias
      · by_contra hrejects
        have hrejected : e.policy.rejects name = true := by
          simpa [Engine.rejects] using hrejects
        exact hanswers.needed (Program.mem_walk_of_nameOf hp hname) hname hrejected halias
  · intro hsilent
    refine Engine.memberAlias_eq_none ?_
    rcases hsilent with hempty | ⟨hnone, hkept⟩
    · exact Or.inr ((h.aliasOf_eq_empty_iff hp hs).mpr hempty)
    · exact Or.inl (h.heeds.spared ⟨hnone, fun {name} hname => hkept name hname⟩)

/-! ## Groups -/

variable {P : Policy} {i : MethodId}

/-- A group leaves a method without alias exactly if no method that is linked with it has one. -/
theorem Grouped.boundAlias_unified_eq_none_iff (hg : Grouped p r) :
    r.unified.program.boundAlias (.method i) = none ↔
      ∀ j, Relation.ReflTransGen p.Linked i j → r.program.boundAlias (.method j) = none := by
  constructor
  · intro hnone j hij
    rw [hg.boundAlias_eq_unified hij] at hnone
    cases hm : r.program.methods.get? j with
    | none => rw [Program.boundAlias, hm, Option.bind_none]
    | some m =>
      obtain ⟨n, hn, -⟩ :=
        Program.method_of_declared (hg.declared.trans hg.declared_unified.symm) hm
      rw [Program.boundAlias, hn] at hnone
      obtain hn' | ⟨before, ids, chosen, name, m₀, hturn, hname, -, -⟩ := hg.cases_unified hn
      · rw [Program.boundAlias, hn']
        exact hnone
      · cases hnone.symm.trans hname
  · intro hall
    have hself := hall i Relation.ReflTransGen.refl
    rw [hg.boundAlias_unified_of_same fun j hij => (hall j hij).trans hself.symm, hself]

/-- A method ends with an empty alias in the table exactly if it had one before groups were unified,
and its group has left it without alias. -/
theorem AllBound.aliasOf_unified_eq_empty_iff (hb : r.AllBound) (hanswers : Answers p P p.walk r)
    (hg : Grouped p r) (hjava : P.classifier = Classifier.java) :
    r.unified.engine.aliasOf (.method i) = some "" ↔ r.engine.aliasOf (.method i) = some "" ∧
      r.unified.program.boundAlias (.method i) = none := by
  have hbound := (hb.unified hanswers hg hjava).bound (.method i)
  have hcases : r.unified.engine.aliasOf (.method i) = r.engine.aliasOf (.method i) ∨
      ∃ name, P.accepts name = true ∧ r.unified.engine.aliasOf (.method i) = some name :=
    ((agrees_unification hanswers hb).turns hjava hg.present).2 i
  have hne : ∀ {name}, P.accepts name = true → name ≠ "" := by
    intro name haccepts hempty
    rw [hempty, Policy.accepts_empty hjava] at haccepts
    cases haccepts
  constructor
  · intro hempty
    rw [hbound, Engine.memberAlias_eq_none (Or.inr hempty)]
    rcases hcases with hsame | ⟨name, haccepts, hname⟩
    · exact ⟨hsame.symm.trans hempty, rfl⟩
    · exact absurd (Option.some.inj (hname.symm.trans hempty)) (hne haccepts)
  · rintro ⟨hempty, hnone⟩
    rcases hcases with hsame | ⟨name, haccepts, hname⟩
    · exact hsame.trans hempty
    · rw [hbound, Engine.memberAlias_of_aliasOf (fun heq => by cases heq) hname (hne haccepts)]
        at hnone
      cases hnone

end Run

/-! ## Tables and symbols -/

namespace Program

/-- A type with one field. -/
def muted : Program where
  types := ⟨#[{ package := "game", shortName := "Main", fullName := "game.Main" }]⟩
  fields := ⟨#[{ owner := ⟨0⟩, name := "size", descriptor := "I" }]⟩

theorem built_muted : muted.Built := by
  have hmain := Built.empty.addType { package := "game", shortName := "Main" }
  exact hmain.pushField ⟨0⟩ "size" "I" (by decide)

end Program

/-- Empty presets for the field of `Program.muted`, and for one of two methods that are linked in
`Program.relatedTypes`. -/
def Presets.muting : Presets where
  fields := Table.ofList [("game.Main.size:I", "")]
  methods := Table.ofList [("Sub.d()V", "")]

namespace Engine

variable {p : Program}

/-- After a run under the rules of Java every member has on it the alias of the table, where an
empty one is none. So the two are the same except where the table has an empty alias: that of a
field with an empty preset, and that of a method with an empty preset, unless something calls for an
alias of a method that is linked with it. -/
theorem aliases_process_agree_iff (p : Program) (hp : p.Built) (e : Engine)
    (hjava : e.policy.classifier = Classifier.java) (presets : Presets) :
    ∃ report r, (e.reset.loadPresets presets).process p = .ok (report, r) ∧
      (∀ id f, r.program.fields.get? id = some f →
        f.newName = (r.engine.fieldAlias id).filter (fun name => name ≠ "") ∧
        (r.engine.fieldAlias id = f.newName ↔ p.presetOf presets (.field id) ≠ some "")) ∧
      ∀ id m, r.program.methods.get? id = some m →
        m.newName = (r.engine.methodAlias id).filter (fun name => name ≠ "") ∧
        (r.engine.methodAlias id = m.newName ↔ (p.presetOf presets (.method id) = some "" →
          ∃ j, Relation.ReflTransGen p.Linked id j ∧ ¬ e.Silences p presets (.method j))) := by
  have he := e.unused_reset.loadPresets presets
  have hpolicy : (e.reset.loadPresets presets).policy = e.policy := policy_loadPresets _ presets
  obtain ⟨⟨report, hrun⟩, hends⟩ := ends_process hp e hjava presets
  have hpresetOf : ∀ s, p.presetOf (e.reset.loadPresets presets).presets s =
      p.presetOf presets s := Program.presetOf_loadPresets e.reset presets
  have hsilences : ∀ s, (e.reset.loadPresets presets).Silences p
      (e.reset.loadPresets presets).presets s ↔ e.Silences p presets s := by
    intro s
    have hrejects : (e.reset.loadPresets presets).rejects = e.rejects := by
      funext name
      exact congrArg (fun P : Policy => P.rejects name) hpolicy
    rw [Silences, Silences, hpresetOf, hrejects]
  refine ⟨report, _, hrun, ?_⟩
  generalize e.reset.loadPresets presets = e' at *
  rw [← hpolicy] at hjava hends
  obtain ⟨hanswers, hbound⟩ := Run.answers_bound p he hjava
  have hvoices := Run.voices_bound p he hjava
  have hg := grouped_bound hp.wellFormed he.groups
  -- where the table answers what is not empty, the symbol has the same
  have hagree : ∀ {answer : Option String},
      answer = answer.filter (fun name => name ≠ "") ↔ answer ≠ some "" := by
    intro answer
    cases answer with
    | none => simp
    | some name => simp [Option.filter_some]
  refine ⟨fun id f hf => ?_, fun id m hm => ?_⟩
  · have hname : f.newName = ((e'.bound p).unified.engine.fieldAlias id).filter
        (fun name => name ≠ "") := by
      have hboth := hends.allBound.bound (.field id)
      rw [Program.boundAlias, hf] at hboth
      exact hboth
    refine ⟨hname, ?_⟩
    rw [hname, hagree, ← hpresetOf]
    have hempty := hvoices.aliasOf_eq_empty_iff (s := .field id) hp.wellFormed
      fun heq => by cases heq
    exact not_congr hempty
  · have hboth := hends.allBound.bound (.method id)
    rw [Program.boundAlias, hm] at hboth
    have hname : m.newName = ((e'.bound p).unified.engine.methodAlias id).filter
        (fun name => name ≠ "") := hboth
    refine ⟨hname, ?_⟩
    rw [hname, hagree]
    have hempty := hbound.aliasOf_unified_eq_empty_iff (i := id) hanswers hg hjava
    rw [hvoices.aliasOf_eq_empty_iff hp.wellFormed (fun heq => by cases heq), hpresetOf,
      hg.boundAlias_unified_eq_none_iff] at hempty
    have hnone : ∀ j, (e'.bound p).program.boundAlias (.method j) = none ↔
        e.Silences p presets (.method j) := by
      intro j
      rw [hbound.bound, hvoices.memberAlias_eq_none_iff hanswers hp.wellFormed
        (fun heq => by cases heq), hsilences]
    simp only [hnone] at hempty
    refine not_congr hempty |>.trans ?_
    simp only [not_and, not_forall, exists_prop]

/-- The empty preset of one method `d` does no harm: it gets the word that is drawn for the
other. -/
theorem aliases_process_hushed : Program.relatedTypes.Built ∧
    Program.relatedTypes.presetOf .muting (.method ⟨0⟩) = some "" ∧
    ∃ report r m, (({} : Engine).reset.loadPresets .muting).process Program.relatedTypes =
        .ok (report, r) ∧
      r.program.methods.get? ⟨0⟩ = some m ∧ r.engine.methodAlias ⟨0⟩ = m.newName := by
  have hbuilt := Program.built_relatedTypes
  obtain ⟨report, r, hrun, -, hmethods⟩ :=
    aliases_process_agree_iff Program.relatedTypes hbuilt {} rfl .muting
  have hdeclared : (({} : Engine).reset.loadPresets .muting |>.process
      Program.relatedTypes).toOption.map (fun o => o.2.program.declared) =
        some Program.relatedTypes.declared := by
    decide +kernel
  rw [hrun] at hdeclared
  have hslot : Program.relatedTypes.methods.get? ⟨0⟩ = some
      { owner := ⟨0⟩, name := "d", params := [], returnType := "V", isVirtual := true } := rfl
  obtain ⟨m, hm, -⟩ := Program.method_of_declared (Option.some.inj hdeclared).symm hslot
  refine ⟨hbuilt, by decide +kernel, report, r, m, hrun, hm, ?_⟩
  -- the other method has no preset, and a name that must be replaced
  have hspeaks : ¬ ({} : Engine).Silences Program.relatedTypes .muting (.method ⟨2⟩) := by
    rintro (hempty | ⟨-, hkept⟩)
    · exact absurd hempty (by decide +kernel)
    · exact absurd (hkept "d" rfl) (by decide +kernel)
  refine (hmethods ⟨0⟩ m hm).2.mpr fun _ => ⟨⟨2⟩, ?_, hspeaks⟩
  have hrefers : Program.relatedTypes.Refers ⟨0⟩ ⟨1⟩ :=
    ⟨_, rfl, "Base", by decide, by decide +kernel⟩
  exact Relation.ReflTransGen.single (Or.inl ⟨_, _, rfl, rfl, rfl, rfl, rfl,
    Relation.ReflTransGen.single hrefers⟩)

/-- The table and the program can disagree: the empty preset for the field stays in the table, and
in what is exported, while the field has no alias. -/
theorem aliases_process_muted : ¬ ∀ (p : Program), p.Built → ∀ (e : Engine),
    e.policy.classifier = Classifier.java → ∀ presets,
      ∃ report r, (e.reset.loadPresets presets).process p = .ok (report, r) ∧
        (∀ id f, r.program.fields.get? id = some f → r.engine.fieldAlias id = f.newName) ∧
        ∀ id m, r.program.methods.get? id = some m → r.engine.methodAlias id = m.newName := by
  intro hall
  obtain ⟨report, r, hrun, hfields, -⟩ := hall .muted Program.built_muted {} rfl .muting
  have hfinal : ((({} : Engine).reset.loadPresets .muting).process .muted).toOption.map (fun o =>
      (o.2.engine.fieldAlias ⟨0⟩, o.2.program.fields.get? ⟨0⟩)) =
        some (some "", some { owner := ⟨0⟩, name := "size", descriptor := "I" }) := by
    decide +kernel
  rw [hrun] at hfinal
  obtain ⟨halias, hfield⟩ := Prod.mk.inj (Option.some.inj hfinal)
  have hsame := hfields ⟨0⟩ _ hfield
  rw [halias] at hsame
  cases hsame

end Engine
end Renamer
