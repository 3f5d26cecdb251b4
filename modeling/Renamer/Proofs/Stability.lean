import Renamer.Proofs.Heeding
import Renamer.Proofs.Replay

/-!
# Aliases of a program that grows

A program is renamed, grows, and is renamed again with what the first run has exported. Types and
fields have the same aliases then. So have the methods, but for those whose override group the
growth disturbs: the members of a group get one alias, and where a method is added to a group, or
two groups become one, not every older member can keep its own.

`Run.Undisturbed` says which methods are safe. `Program.strangers` is a program that grows so that
one of its methods is not.
-/

namespace Renamer

namespace Run

variable {p q : Program} {P : Policy} {r first : Run} {s : SymbolId} {i : MethodId}

/-! ## Groups that agree -/

/-- A group comes to its turn with the aliases that were bound. -/
theorem TurnOf.boundAlias {before : List (GroupId × List MethodId)} {ids : List MethodId}
    {chosen name : String} (h : TurnOf r i before ids chosen name) (hg : Grouped p r)
    {j : MethodId} (hj : j ∈ ids) : (r.unification.turns before).program.boundAlias (.method j) =
      r.program.boundAlias (.method j) := by
  have hpresent : ∀ g ∈ r.engine.groups.live, Unification.Present r.unification.program g.2 :=
    hg.present
  rcases h.live with ⟨id, after, -, hlive⟩
  have hstart := (Unification.turns_of_live hg.disjoint hpresent hlive hj).1
  rw [Program.boundAlias, hstart]
  rfl

/-- Unification lets a method be where all methods that are linked with it have its alias. -/
theorem Grouped.boundAlias_unified_of_same (hg : Grouped p r)
    (hsame : ∀ j, Relation.ReflTransGen p.Linked i j →
      r.program.boundAlias (.method j) = r.program.boundAlias (.method i)) :
    r.unified.program.boundAlias (.method i) = r.program.boundAlias (.method i) := by
  have hdeclared := hg.declared.trans hg.declared_unified.symm
  cases hm : r.program.methods.get? i with
  | none =>
    have hnone : r.unified.program.methods.get? i = none := by
      rw [Option.eq_none_iff_forall_ne_some]
      intro m hm'
      rcases Program.method_of_declared hdeclared.symm hm' with ⟨n, hn, -⟩
      rw [hm] at hn
      cases hn
    rw [Program.boundAlias, Program.boundAlias, hm, hnone]
  | some m =>
    rcases Program.method_of_declared hdeclared hm with ⟨n, hn, -⟩
    rcases hg.cases_unified hn with hn' | ⟨before, ids, chosen, name, -, hturn, hname, -, -⟩
    · rw [Program.boundAlias, Program.boundAlias, hn, hn']
    · rcases hturn.live with ⟨id, -, hids, -⟩
      have hmember : ∀ j ∈ ids, (r.unification.turns before).program.boundAlias (.method j) =
          r.program.boundAlias (.method i) := by
        intro j hj
        rw [hturn.boundAlias hg hj]
        exact hsame j (hg.reaches_of_together ⟨id, hids ▸ hturn.mem, hids ▸ hj⟩)
      rcases named_eq_of_same hturn.named fun j hj k hk =>
        (hmember j hj).trans (hmember k hk).symm with ⟨hchosen, -, hall⟩
      rw [← hmember i hturn.mem, hall i hturn.mem, Program.boundAlias, hn, ← hchosen]
      exact hname

/-! ## Symbols of the smaller program -/

/-- The run `first` on `p` has ended, and the engine `e` has loaded what it has exported, for the
larger program `q`. -/
structure Resumes (p q : Program) (P : Policy) (first : Run) (e : Engine) : Prop where
  ends : Ends p P first
  smaller : p.WellFormed
  larger : q.WellFormed
  grown : p.Extends q
  unused : e.Unused
  policy : e.policy = P
  presets : ∀ s, q.presetOf e.presets s = first.engine.aliasOf s
  packages : ∀ a, e.packages.aliasOf a = first.engine.packages.aliasOf a

/-- An engine resumes a run by loading what that has exported. -/
theorem Ends.resumes (h : Ends p P first) (hp : p.WellFormed) (hq : q.WellFormed)
    (hpq : p.Extends q) (hid : q.DistinctIdentities) {e : Engine} (hpolicy : e.policy = P) :
    Resumes p q P first (e.reset.loadPresets (first.engine.saved p)) := by
  have hsound : PackageTree.Sound e.policy first.engine.packages := hpolicy ▸ h.sound
  have hsaved : (first.engine.saved p).packages = Table.ofList first.engine.packages.aliased := rfl
  rcases Engine.loadPresets_aliased e hsound hsaved with ⟨packages, hloaded, haliases⟩
  refine ⟨h, hp, hq, hpq, e.unused_reset.loadPresets _,
    (Engine.policy_loadPresets e.reset _).trans hpolicy, fun s => ?_, fun a => ?_⟩
  · rw [Program.presetOf_loadPresets, h.presetOf_of_extends hp hq hpq hid]
  · rw [hloaded]
    exact haliases a

variable {e : Engine}

/-- The engine can use what the earlier run has left. -/
theorem Resumes.adopts (h : Resumes p q P first e) {name : String}
    (hname : first.engine.aliasOf s = some name) : e.Adopts q s name := by
  refine ⟨(h.presets s).trans hname, ?_⟩
  rw [h.policy]
  by_cases hkind : s.kind = .types
  · exact Or.inl (h.ends.answers.types hkind hname)
  · by_cases hempty : name = ""
    · exact Or.inr ⟨hkind, hempty⟩
    · exact Or.inl (h.ends.accepts hkind hname hempty)

/-- What the earlier run has left without alias needs none. -/
theorem Resumes.letsBe (h : Resumes p q P first e) (hs : s ∈ p.walk)
    (hnone : first.engine.aliasOf s = none) : e.LetsBe q s := by
  refine ⟨(h.presets s).trans hnone, fun {name} hname => ?_⟩
  rcases Program.exists_nameOf hs with ⟨name', hname'⟩
  cases (h.grown.nameOf hname').symm.trans hname
  rw [Engine.rejects, h.policy, ← Bool.not_eq_true]
  exact fun hrejects => h.ends.answers.needed hs hname' hrejects hnone

/-- Before unification the symbols of the smaller program have the aliases of the earlier run. -/
theorem Resumes.aliasOf_bound (h : Resumes p q P first e) (hs : s ∈ p.walk) :
    (e.bound q).engine.aliasOf s = first.engine.aliasOf s := by
  have hheeds := (heeds_bound q h.unused).1
  have hsq : s ∈ q.walk := by
    rcases Program.exists_identityOf h.smaller hs with ⟨identity, hidentity⟩
    exact Program.mem_walk_of_identityOf h.larger (h.grown.identityOf hidentity)
  cases hname : first.engine.aliasOf s with
  | some name => exact hheeds.adopted hsq (h.adopts hname)
  | none => exact hheeds.spared (h.letsBe hs hname)

/-- A symbol that was added has no alias by then, if its name may stay. -/
theorem Resumes.aliasOf_bound_of_added (h : Resumes p q P first e) (hs : s ∉ p.walk)
    (hkept : ∀ {name}, q.nameOf s = some name → P.rejects name = false) :
    (e.bound q).engine.aliasOf s = none := by
  have hnone : first.engine.aliasOf s = none := by
    rw [Option.eq_none_iff_forall_ne_some]
    exact fun name hname => hs (h.ends.answers.passed hname)
  refine (heeds_bound q h.unused).1.spared ⟨(h.presets s).trans hnone, fun {name} hname => ?_⟩
  rw [Engine.rejects, h.policy]
  exact hkept hname

/-- What is bound to a member is a matter of its alias. -/
theorem Resumes.boundAlias_bound (h : Resumes p q P first e)
    (hjava : P.classifier = Classifier.java)
    (hsame : (e.bound q).engine.aliasOf s = first.engine.aliasOf s) :
    (e.bound q).program.boundAlias s = first.program.boundAlias s := by
  have hclassifier : e.policy.classifier = Classifier.java := h.policy ▸ hjava
  rw [(answers_bound q h.unused hclassifier).2.bound, h.ends.allBound.bound,
    Engine.memberAlias_congr hsame]

/-- The packages of the types of the smaller program are as the earlier run has left them. -/
theorem Resumes.aliasOf_packages (h : Resumes p q P first e) {ty : TypeId} {t : TypeSymbol}
    (ht : p.types.get? ty = some t) {a : PackagePath}
    (ha : a ∈ (PackagePath.ofText t.package).lineage) :
    (e.bound q).engine.packages.aliasOf a = first.engine.packages.aliasOf a := by
  have hcovered : e.packages.Covered e.policy.rejects a := by
    rw [PackageTree.Covered, h.packages, h.policy]
    exact h.ends.covered ht a ha
  exact ((heeds_bound q h.unused).2 a hcovered).trans (h.packages a)

/-! ## Aliases after both runs -/

theorem Resumes.newName_type {d : Engine} (h : Resumes p q P (d.bound p).unified e)
    (hd : d.Unused) {ty : TypeId} {s t : TypeSymbol}
    (hs : (d.bound p).unified.program.types.get? ty = some s)
    (ht : (e.bound q).unified.program.types.get? ty = some t) : t.newName = s.newName := by
  refine newName_of_extends h.smaller h.larger h.grown hd h.unused (fun {ty u} hu => ?_) hs ht
    fun a ha => ?_
  · exact ((alikeTypes_unify (e.bound q)).typeAlias ty).trans
      (h.aliasOf_bound (Program.mem_walk_type hu))
  · rcases Program.type_of_declared h.ends.answers.declared hs with ⟨u, hu, hus⟩
    rw [← TypeSymbol.agree hus TypeSymbol.package fun _ => rfl] at ha
    rw [(alikeTypes_unify (e.bound q)).packages]
    exact h.aliasOf_packages hu ha

theorem Resumes.newName_field (h : Resumes p q P first e)
    (hjava : P.classifier = Classifier.java) {id : FieldId} {f g : FieldSymbol}
    (hf : first.program.fields.get? id = some f)
    (hg : (e.bound q).unified.program.fields.get? id = some g) : g.newName = f.newName := by
  have hs : SymbolId.field id ∈ p.walk := by
    rcases Program.field_of_declared h.ends.answers.declared hf with ⟨f', hf', -⟩
    exact Program.mem_walk_field h.smaller hf'
  have hbound := h.boundAlias_bound hjava (h.aliasOf_bound hs)
  rw [(Engine.grouped_bound h.larger h.unused.groups).fields_unified] at hg
  rw [Program.boundAlias, Program.boundAlias, hf, hg] at hbound
  exact hbound

/-- All methods that are linked with `i` in the larger program `q` have ended the run with the alias
of `i`. Those that the run did not know have names that may stay. -/
def Undisturbed (r : Run) (q : Program) (i : MethodId) : Prop :=
  ∀ j, Relation.ReflTransGen q.Linked i j →
    r.program.boundAlias (.method j) = r.program.boundAlias (.method i) ∧
      (r.program.methods.get? j = none → ∀ o, q.methods.get? j = some o →
        r.engine.rejects o.name = false)

/-- Before unification an undisturbed group has the aliases of the earlier run. -/
theorem Resumes.boundAlias_of_undisturbed (h : Resumes p q P first e)
    (hjava : P.classifier = Classifier.java) {j : MethodId} (hi : first.Undisturbed q i)
    (hij : Relation.ReflTransGen q.Linked i j) :
    (e.bound q).program.boundAlias (.method j) = first.program.boundAlias (.method i) := by
  rcases hi j hij with ⟨hsame, hkept⟩
  rw [← hsame]
  refine h.boundAlias_bound hjava ?_
  by_cases hj : SymbolId.method j ∈ p.walk
  · exact h.aliasOf_bound hj
  · have hnone : first.program.methods.get? j = none := by
      rw [Option.eq_none_iff_forall_ne_some]
      intro m hm
      rcases Program.method_of_declared h.ends.answers.declared hm with ⟨m', hm', -⟩
      exact hj (Program.mem_walk_method h.smaller hm')
    rw [h.aliasOf_bound_of_added hj fun {name} hname => ?_, eq_comm,
      Option.eq_none_iff_forall_ne_some]
    · exact fun name hname => hj (h.ends.answers.passed hname)
    · rcases Option.map_eq_some_iff.mp hname with ⟨o, ho, rfl⟩
      have hstays := hkept hnone o ho
      rwa [Engine.rejects, h.ends.answers.policy] at hstays

theorem Resumes.newName_method (h : Resumes p q P first e)
    (hjava : P.classifier = Classifier.java) (hi : first.Undisturbed q i) {m n : MethodSymbol}
    (hm : first.program.methods.get? i = some m)
    (hn : (e.bound q).unified.program.methods.get? i = some n) : n.newName = m.newName := by
  have hg := Engine.grouped_bound h.larger h.unused.groups
  have hgroup : ∀ j, Relation.ReflTransGen q.Linked i j →
      (e.bound q).program.boundAlias (.method j) = first.program.boundAlias (.method i) :=
    fun j hij => h.boundAlias_of_undisturbed hjava hi hij
  have hself := hgroup i Relation.ReflTransGen.refl
  have hunified := hg.boundAlias_unified_of_same fun j hij => (hgroup j hij).trans hself.symm
  rw [hself, Program.boundAlias, Program.boundAlias, hm, hn] at hunified
  exact hunified

end Run

/-! ## Strangers -/

namespace Program

/-- `Alpha` and `Gamma` do not know one another. Each declares a virtual method. -/
def strangers : Program where
  types := ⟨#[
    { package := "", shortName := "Alpha", fullName := "Alpha" },
    { package := "", shortName := "Gamma", fullName := "Gamma" }]⟩
  methods := ⟨#[
    { owner := ⟨0⟩, name := "ab", params := [], returnType := "V", isVirtual := true },
    { owner := ⟨1⟩, name := "cd", params := [], returnType := "V", isVirtual := true }]⟩

/-- The same types, and `Beta`, which extends `Gamma` and overrides its method. -/
def strangersAndBeta : Program where
  types := strangers.types.push
    { package := "", shortName := "Beta", fullName := "Beta", superType := some "Gamma" }
  methods := strangers.methods.push
    { owner := ⟨2⟩, name := "cd", params := [], returnType := "V", isVirtual := true }

theorem built_strangers : strangers.Built := by
  have halpha := Built.empty.addType { shortName := "Alpha" }
  have htypes := halpha.addType { shortName := "Gamma" }
  have hab := htypes.pushMethod ⟨0⟩ "ab" [] "V" true (by decide)
  exact hab.pushMethod ⟨1⟩ "cd" [] "V" true (by decide)

theorem grows_strangers : strangers.Grows strangersAndBeta := by
  have hbeta := (Grows.same (p := strangers) rfl).addType
    { shortName := "Beta", superType := some "Gamma" }
  have hadd : (strangers.addType { shortName := "Beta", superType := some "Gamma" }).2.addMethod
      ⟨2⟩ "cd" [] "V" true = .ok (⟨2⟩, strangersAndBeta) := rfl
  exact hbeta.addMethod hadd

/-- The method of `Alpha` is linked with no other. -/
theorem eq_of_linked_strangers {j : MethodId}
    (h : Relation.ReflTransGen strangersAndBeta.Linked ⟨0⟩ j) : j = ⟨0⟩ := by
  have hkeys : ∀ entry ∈ strangersAndBeta.methods.entries, entry.2.key = "ab()" →
      entry.1 = ⟨0⟩ := by decide
  induction h with
  | refl => rfl
  | tail _ hlink ih =>
    rw [ih] at hlink
    rcases hlink.agree with ⟨m, n, hm, hn, -, -, hkey⟩
    cases hm
    exact hkeys _ (Arena.mem_entries_iff.mpr hn) (hkey.trans (by decide))

end Program

namespace Engine

/-- A program is renamed, grows, and is renamed again with what was exported. Types and fields have
their aliases again, and so have methods whose groups the growth has not disturbed. All methods that
are linked by then have one alias. -/
theorem newNames_process_grown (p : Program) (hp : p.Built) (e : Engine)
    (hjava : e.policy.classifier = Classifier.java) (presets : Presets) (q : Program)
    (hq : p.Grows q) (hid : q.DistinctIdentities) :
    ∃ report r saved report' r', (e.reset.loadPresets presets).process p = .ok (report, r) ∧
      r.engine.exportPresets r.program = .ok saved ∧
      (e.reset.loadPresets saved).process q = .ok (report', r') ∧
      r.program.Extends r'.program ∧
      (∀ ty s t, r.program.types.get? ty = some s → r'.program.types.get? ty = some t →
        t.newName = s.newName) ∧
      (∀ id f g, r.program.fields.get? id = some f → r'.program.fields.get? id = some g →
        g.newName = f.newName) ∧
      (∀ i m n, r.program.methods.get? i = some m → r'.program.methods.get? i = some n →
        r.Undisturbed q i → n.newName = m.newName) ∧
      ∀ i j m n, Relation.ReflTransGen q.Linked i j → r'.program.methods.get? i = some m →
        r'.program.methods.get? j = some n → m.newName = n.newName := by
  have hpq := hq.extends
  have hqwell := hq.wellFormed hp.wellFormed
  have hunused := e.unused_reset.loadPresets presets
  rcases ends_process hp e hjava presets with ⟨⟨report, hrun⟩, hfirst⟩
  have hexport := (hfirst.exports hp.wellFormed
    (hpq.distinctIdentities hp.wellFormed hqwell hid)).1
  have hresumes := hfirst.resumes hp.wellFormed hqwell hpq hid (e := e) rfl
  rcases process_eq_ok hqwell hresumes.unused.groups with ⟨report', hrun'⟩
  have hgrouped := grouped_bound hqwell hresumes.unused.groups
  refine ⟨report, _, _, report', _, hrun, hexport, hrun', ?_, ?_, ?_, ?_, ?_⟩
  · exact ((Program.Extends.of_declared hfirst.answers.declared).trans hpq).trans
      (Program.Extends.of_declared hgrouped.declared_unified.symm)
  · exact fun ty s t hs ht => hresumes.newName_type hunused hs ht
  · exact fun id f g hf hg => hresumes.newName_field hjava hf hg
  · exact fun i m n hm hn hi => hresumes.newName_method hjava hi hm hn
  · intro i j m n hij hm hn
    have hsame := hgrouped.boundAlias_eq_unified hij
    rw [Program.boundAlias, Program.boundAlias, hm, hn] at hsame
    exact hsame

/-- The method of `Alpha` is called `a` in both runs, before and after `Beta` has been added. -/
theorem newName_process_strangers : Program.strangers.Built ∧
    Program.strangers.Grows Program.strangersAndBeta ∧
    Program.strangersAndBeta.DistinctIdentities ∧
    ∃ report r saved report' r',
      (({} : Engine).reset.loadPresets {}).process Program.strangers = .ok (report, r) ∧
      r.engine.exportPresets r.program = .ok saved ∧
      (({} : Engine).reset.loadPresets saved).process Program.strangersAndBeta =
        .ok (report', r') ∧
      r.Undisturbed Program.strangersAndBeta ⟨0⟩ ∧
      ∃ n, r'.program.methods.get? ⟨0⟩ = some n ∧ n.newName = some "a" := by
  have hbuilt := Program.built_strangers
  have hgrows := Program.grows_strangers
  have hid : Program.strangersAndBeta.DistinctIdentities := by decide +kernel
  rcases process_eq_ok (e := ({} : Engine).reset.loadPresets {}) hbuilt.wellFormed rfl with
    ⟨report, hrun⟩
  rcases newNames_process_grown Program.strangers hbuilt {} rfl {} Program.strangersAndBeta hgrows
    hid with ⟨report₁, r, saved, report', r', hrun₁, hexport, hrun', hextends, -, -, hmethods, -⟩
  rw [hrun] at hrun₁
  cases hrun₁
  have hm : ((({} : Engine).reset.loadPresets {}).bound
      Program.strangers).unified.program.methods.get? ⟨0⟩ = some
        { owner := ⟨0⟩, name := "ab", params := [], returnType := "V", isVirtual := true,
          newName := some "a", renamed := true } := by
    decide +kernel
  have halone : (((({} : Engine).reset.loadPresets {}).bound
      Program.strangers).unified).Undisturbed Program.strangersAndBeta ⟨0⟩ := by
    intro j hj
    rw [Program.eq_of_linked_strangers hj]
    refine ⟨rfl, fun hnone => ?_⟩
    rw [hm] at hnone
    cases hnone
  rcases hextends.methods hm with ⟨n, hn, -⟩
  exact ⟨hbuilt, hgrows, hid, report, _, saved, report', r', hrun, hexport, hrun', halone, n, hn,
    hmethods ⟨0⟩ _ n hm hn halone⟩

/-- The method of `Gamma` is called `b` at first. When `Beta` has been added it is called `a`, the
word that was drawn for the method of `Beta`. -/
theorem newName_process_joined : Program.strangers.Built ∧
    Program.strangers.DistinctIdentities ∧ Program.strangers.Grows Program.strangersAndBeta ∧
    Program.strangersAndBeta.DistinctIdentities ∧
    ∃ report r saved report' r', ({} : Engine).reset.process Program.strangers = .ok (report, r) ∧
      r.engine.exportPresets r.program = .ok saved ∧
      (({} : Engine).reset.loadPresets saved).process Program.strangersAndBeta =
        .ok (report', r') ∧
      ∃ m n, r.program.methods.get? ⟨1⟩ = some m ∧ r'.program.methods.get? ⟨1⟩ = some n ∧
        m.newName = some "b" ∧ n.newName = some "a" := by
  have hbuilt := Program.built_strangers
  have hgrows := Program.grows_strangers
  have hid : Program.strangersAndBeta.DistinctIdentities := by decide +kernel
  let first := (({} : Engine).reset.bound Program.strangers).unified
  let saved := first.engine.saved Program.strangers
  rcases process_eq_ok (e := ({} : Engine).reset) hbuilt.wellFormed rfl with ⟨report, hrun⟩
  have hexport : first.engine.exportPresets first.program = .ok saved := by decide +kernel
  rcases process_eq_ok (e := ({} : Engine).reset.loadPresets saved)
    (hgrows.wellFormed hbuilt.wellFormed) (groups_loadPresets _ _) with ⟨report', hrun'⟩
  have hm : first.program.methods.get? ⟨1⟩ = some
      { owner := ⟨1⟩, name := "cd", params := [], returnType := "V", isVirtual := true,
        newName := some "b", renamed := true } := by
    decide +kernel
  have hn : ((({} : Engine).reset.loadPresets saved).bound
      Program.strangersAndBeta).unified.program.methods.get? ⟨1⟩ = some
        { owner := ⟨1⟩, name := "cd", params := [], returnType := "V", isVirtual := true,
          newName := some "a", fromPreset := true, renamed := true } := by
    decide +kernel
  exact ⟨hbuilt, by decide +kernel, hgrows, hid, report, first, saved, report', _, hrun, hexport,
    hrun', _, _, hm, hn, rfl, rfl⟩

end Engine
end Renamer
