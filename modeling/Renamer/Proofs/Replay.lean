import Renamer.Proofs.Growing

/-!
# Replaying a run

A run that loads what an earlier one has exported decides as that one ended: wherever the earlier
run drew a name, took one from a source file or replaced an alias, the later run finds a preset that
it can use. So it draws nothing, finds no alias unusable and ends with the same names.

* `Run.Follows` holds while the later run decides and binds: a symbol that was passed has the alias
  that it ended with, and no word has been used up.
* Unification leaves everything as it is, since all members of a group have one alias by then.
-/

namespace Renamer

/-- The policy with the switch for names of source files set anew. -/
def Policy.sourcing (P : Policy) (useSourceNames : Bool) : Policy :=
  { P with settings := { P.settings with useSourceNames } }

namespace Program

variable {p q : Program}

/-- Declared names are a matter of declarations. -/
theorem nameOf_of_declared (h : p.declared = q.declared) (s : SymbolId) :
    p.nameOf s = q.nameOf s := by
  have hdeclared : ∀ p : Program, p.declared.nameOf s = p.nameOf s := by
    intro p
    cases s with
    | type id =>
      rw [nameOf, nameOf, declared, Arena.get?_map, Option.map_map]
      rfl
    | field id =>
      rw [nameOf, nameOf, declared, Arena.get?_map, Option.map_map]
      rfl
    | method id =>
      rw [nameOf, nameOf, declared, Arena.get?_map, Option.map_map]
      rfl
  rw [← hdeclared p, ← hdeclared q, h]

end Program

namespace Run

variable {p q : Program} {P : Policy} {use : Bool} {first r r' : Run} {done : List SymbolId}
  {s : SymbolId}

/-! ## What the earlier run has left -/

theorem Answers.of_declared (h : Answers p P p.walk r) (hpq : p.declared = q.declared) :
    Answers q P q.walk r := by
  refine ⟨h.declared.trans hpq, h.policy, ?_, ?_, h.types⟩
  · rw [← Program.walk_of_declared hpq]
    exact h.passed
  · intro s name hs hname
    rw [← Program.walk_of_declared hpq] at hs
    rw [← Program.nameOf_of_declared hpq] at hname
    exact h.needed hs hname

/-- How a run ends is a matter of declarations. -/
theorem Ends.of_declared (h : Ends p P r) (hpq : p.declared = q.declared) : Ends q P r where
  answers := h.answers.of_declared hpq
  allBound := h.allBound
  linked := by
    have hlinked : p.Linked = q.Linked := by
      ext i j
      exact Program.linked_of_declared hpq
    intro i j hij
    rw [← hlinked] at hij
    exact h.linked hij
  sound := h.sound
  covered := by
    intro ty t ht
    rcases Program.type_of_declared hpq.symm ht with ⟨t', ht', hdecl⟩
    rw [← TypeSymbol.agree hdecl TypeSymbol.package fun _ => rfl]
    exact h.covered ht'

/-! ## Deciding -/

/-- What holds of a run that has loaded the presets that `first` has exported, when the symbols
`done` have been decided: they have the aliases of `first`, and no word has been used up. -/
structure Follows (p : Program) (P : Policy) (use : Bool) (first : Run) (done : List SymbolId)
    (r : Run) : Prop where
  declared : r.program.declared = p.declared
  policy : r.engine.policy = P.sourcing use
  loaded : ∀ s, p.presetOf r.engine.presets s = first.engine.aliasOf s
  aliases : ∀ s, r.engine.aliasOf s = if s ∈ done then first.engine.aliasOf s else none
  source : r.engine.source = {}
  findings : ∀ d ∈ r.engine.findings, d.code ≠ .unusableAlias

theorem Follows.leaves (h : Follows p P use first done r) (hl : r.Leaves r') (hc : r.Calm r') :
    Follows p P use first done r' where
  declared := hl.declared.trans h.declared
  policy := hl.policy.trans h.policy
  loaded := by
    rw [hl.presets]
    exact h.loaded
  aliases := fun s => (hl.aliases s).trans (h.aliases s)
  source := hc.source.trans h.source
  findings := fun d hd => (hc.findings d hd).elim (h.findings d) fun hcode => hcode

/-- No symbol needs a fresh alias that the earlier run has not given it. -/
theorem Follows.not_needsFresh (h : Follows p P use first done r) (hfirst : Ends p P first)
    (hs : s ∈ p.walk) : ¬ r.NeedsFresh p s := by
  intro hneeds
  rcases hneeds with ⟨hnone, name, hname, hrejects⟩ | ⟨hkind, preset, hpreset, hrefused⟩
  · rw [h.loaded] at hnone
    rw [Engine.rejects, h.policy] at hrejects
    exact hfirst.answers.needed hs hname hrejects hnone
  · rw [h.loaded] at hpreset
    have haccepts : (P.sourcing use).accepts preset = true :=
      hfirst.answers.types hkind hpreset
    rw [h.policy, haccepts] at hrefused
    cases hrefused

/-- Deciding gives a symbol the alias that it ended with before. -/
theorem Follows.decides (h : Follows p P use first done r) (hfirst : Ends p P first)
    {rest : List SymbolId} (hwalk : p.walk = done ++ s :: rest) (hd : Decides p s r r') :
    Follows p P use first (done ++ [s]) r' := by
  have hs : s ∉ done := Program.notMem_of_walk hwalk
  have hmem : ∀ {s'}, s' ≠ s → (s' ∈ done ++ [s] ↔ s' ∈ done) := by
    intro s' hne
    simp [hne]
  have hlast : s ∈ done ++ [s] := List.mem_append_right _ List.mem_cons_self
  cases hd with
  | keep hwhy =>
    refine ⟨h.declared, h.policy, h.loaded, fun s' => ?_, h.source, h.findings⟩
    by_cases heq : s' = s
    · -- a symbol that is kept had no alias in the end
      rw [heq, if_pos hlast, h.aliases, if_neg hs]
      rcases hwhy with hsome | ⟨hnone, -⟩
      · rw [h.aliases, if_neg hs] at hsome
        cases hsome
      · rw [← h.loaded, hnone]
    · rw [h.aliases]
      simp only [hmem heq]
  | preset hpreset _ ha _ hc =>
    rw [h.loaded] at hpreset
    refine ⟨ha.declared.trans h.declared, ha.policy.trans h.policy, ?_, fun s' => ?_,
      hc.source.trans h.source, fun d hd => (hc.findings d hd).elim (h.findings d) id⟩
    · rw [ha.presets]
      exact h.loaded
    · rw [ha.aliases]
      by_cases heq : s' = s
      · rw [if_pos heq, heq, if_pos hlast, hpreset]
      · rw [if_neg heq, h.aliases]
        simp only [hmem heq]
  | fresh hneeds _ _ _ =>
    have hswalk : s ∈ p.walk := by simp [hwalk]
    exact absurd hneeds (h.not_needsFresh hfirst hswalk)

/-- The packages have the aliases that `first` has given them. -/
def SamePackages (first r : Run) : Prop :=
  ∀ a, r.engine.packages.aliasOf a = first.engine.packages.aliasOf a

theorem SamePackages.fullAlias (h : SamePackages first r) (path : PackagePath) :
    r.engine.packages.fullAlias path = first.engine.packages.fullAlias path :=
  PackageTree.fullAlias_congr fun a _ => h a

theorem SamePackages.of_packages (h : SamePackages first r)
    (hpackages : r'.engine.packages = r.engine.packages) : SamePackages first r' := by
  intro a
  rw [hpackages]
  exact h a

/-- Deciding the package of a type draws nothing. -/
theorem Follows.decidePackage (h : Follows p P use first done r) (hfirst : Ends p P first)
    (hsame : SamePackages first r) {ty : TypeId} {t : TypeSymbol} (ht : p.ShowsType ty t) :
    Follows p P use first done { r with engine := r.engine.decidePackage t } ∧
      SamePackages first { r with engine := r.engine.decidePackage t } := by
  have hleaves := leaves_decidePackage r t
  have hrejects : r.engine.rejects = P.rejects := by
    funext name
    rw [Engine.rejects, h.policy]
    rfl
  have hcovered : ∀ a ∈ (PackagePath.ofText t.package).lineage,
      (r.engine.packages.create (PackagePath.ofText t.package)).Covered P.rejects a := by
    intro a ha
    rcases ht with ⟨u, hu, hut⟩
    rw [← TypeSymbol.agree hut TypeSymbol.package fun _ => rfl] at ha
    rw [PackageTree.covered_create, PackageTree.Covered, hsame]
    exact hfirst.covered hu a ha
  rcases PackageTree.decide_of_covered hcovered r.engine.source with ⟨hsource, haliases⟩
  rcases r.engine.decidePackage_eq t with ⟨packages, source, hdecide, -, heq⟩
  rw [hrejects] at hdecide
  rw [hdecide] at hsource haliases
  rw [heq] at hleaves ⊢
  refine ⟨h.leaves hleaves ⟨hsource, fun _ => Or.inl⟩, fun a => ?_⟩
  rw [← hsame]
  exact (haliases a).trans (PackageTree.aliasOf_create _ _ a)

theorem keeps_follows_deciding (hfirst : Ends p P first) :
    Pass.deciding.Keeps p fun done r =>
      Follows p P use first done r ∧ SamePackages first r := by
  apply Pass.keeps_deciding
  case hdeclared => exact fun h => h.1.declared
  case htype =>
    intro done rest r ty t hwalk ht h
    rcases h.1.decidePackage hfirst h.2 ht with ⟨hfollows, hsame⟩
    have hd := decides_decideType (r := { r with engine := r.engine.decidePackage t }) ht
    exact ⟨hfollows.decides hfirst hwalk hd, hsame.of_packages (packages_decideType _ ty t)⟩
  case hmember =>
    intro done rest s r r' hwalk _ hd hs h
    exact ⟨h.1.decides hfirst hwalk hd, h.2.of_packages hs.packages⟩
  case hlink => exact fun hl _ hc hs h => ⟨h.1.leaves hl hc, h.2.of_packages hs.packages⟩

/-! ## Binding -/

/-- Binding replaces nothing. -/
theorem Follows.binds (h : Follows p P use first p.walk r) (hfirst : Ends p P first)
    (hkind : s.kind ≠ .types) (hb : Binds p s r r') : Follows p P use first p.walk r' := by
  cases hb with
  | skip _ => exact h
  | bind _ _ _ hl _ hc => exact h.leaves hl hc
  | redraw halias hne hrefused _ _ _ =>
    rw [h.aliases] at halias
    split at halias
    · have haccepts : (P.sourcing use).accepts _ = true := hfirst.accepts hkind halias hne
      rw [h.policy, haccepts] at hrefused
      cases hrefused
    · cases halias

theorem keeps_follows_binding (hfirst : Ends p P first) :
    Pass.binding.Keeps p fun _ => Follows p P use first p.walk := by
  apply Pass.keeps_binding
  case hdeclared => exact fun h => h.declared
  case htype =>
    intro done rest r ty t _ _ h
    rcases leaves_applyType r ty t with ⟨hl, -, hc⟩
    exact h.leaves hl hc
  case hmember => exact fun _ hkind hb _ h => h.binds hfirst hkind hb

/-- When all aliases are bound, every symbol has the alias that it ended with before. -/
theorem follows_bound (hfirst : Ends p P first) {e : Engine}
    (hstart : Follows p P use first []
      { engine := e.seed p.clearAliases, program := p.clearAliases })
    (hsame : SamePackages first { engine := e.seed p.clearAliases, program := p.clearAliases }) :
    Follows p P use first p.walk (e.bound p) ∧
      SamePackages first (Run.discover { engine := e, program := p.clearAliases }) := by
  rcases (keeps_follows_deciding hfirst).discover ⟨hstart, hsame⟩ with ⟨r, ⟨hfollows, hr⟩, heq⟩
  have hdiscover : Follows p P use first p.walk
      (Run.discover { engine := e, program := p.clearAliases }) := by
    rw [heq]
    exact hfollows.leaves (leaves_discovered r) ⟨rfl, fun _ => Or.inl⟩
  refine ⟨(keeps_follows_binding hfirst).apply hdiscover, ?_⟩
  rw [heq]
  exact hr

/-! ## Loading -/

/-- An engine that has loaded what was exported starts with nothing decided, all packages aliased
and no word used up. -/
theorem follows_seed (hfirst : Ends p P first) {saved : Presets}
    (hpackages : saved.packages = Table.ofList first.engine.packages.aliased)
    (hexports : ∀ s, p.presetOf saved s = first.engine.aliasOf s) (use : Bool) {e : Engine}
    (he : e = ({ policy := P.sourcing use } : Engine).reset.loadPresets saved) :
    Follows p P use first [] { engine := e.seed p.clearAliases, program := p.clearAliases } ∧
      SamePackages first { engine := e.seed p.clearAliases, program := p.clearAliases } := by
  have hsound : PackageTree.Sound (P.sourcing use) first.engine.packages :=
    ⟨hfirst.sound.root, hfirst.sound.nodup, hfirst.sound.segments, hfirst.sound.usable⟩
  have hunused : e.Unused := he ▸ (Engine.unused_reset _).loadPresets saved
  rcases Engine.loadPresets_aliased { policy := P.sourcing use } hsound hpackages with
    ⟨packages, hloaded, haliases⟩
  have heq := he.trans hloaded
  refine ⟨⟨Program.declared_clearAliases, ?_, fun s => ?_, fun s => ?_, ?_, fun d hd => ?_⟩,
    fun a => ?_⟩
  · rw [heq]
    rfl
  · rw [← hexports, he]
    exact Program.presetOf_loadPresets ({ policy := P.sourcing use } : Engine).reset saved s
  · rw [if_neg List.not_mem_nil]
    exact (aliasOf_seed e p.clearAliases s).trans (hunused.aliasOf_eq_none s)
  · rw [heq]
    rfl
  · rw [heq] at hd
    cases hd
  · rw [← haliases]
    show PackageTree.aliasOf (p.clearAliases.types.toList.foldl _ e.packages) a = _
    rw [heq]
    apply List.foldlRecOn (motive := fun t : PackageTree => t.aliasOf a = packages.aliasOf a)
    · rfl
    · exact fun t ht u _ => (PackageTree.aliasOf_create t _ a).trans ht

/-! ## Unification -/

open Unification (Present Named)

/-- The turn of a group whose members all have one alias changes no alias. -/
theorem named_eq_of_same {u u' : Unification} {ids : List MethodId} {chosen name : String}
    (hnamed : Named u ids chosen name u')
    (hsame : ∀ i ∈ ids, ∀ j ∈ ids,
      u.program.boundAlias (.method i) = u.program.boundAlias (.method j)) :
    name = chosen ∧ u'.source = u.source ∧
      ∀ i ∈ ids, u.program.boundAlias (.method i) = some chosen := by
  rcases mem_of_chosenAlias hnamed.chosen_eq with ⟨m, hm, hchosen⟩
  rcases Program.mem_symbols.mp hm with ⟨k, hk, hkm⟩
  have hbound : u.program.boundAlias (.method k) = some chosen := by
    rw [Program.boundAlias, hkm]
    exact hchosen
  have hall : ∀ i ∈ ids, u.program.boundAlias (.method i) = some chosen := fun i hi =>
    (hsame i hi k hk).trans hbound
  -- every member has the alias itself, so that the alias fits
  have hfits : u.taken.groupFits (u.program.symbols ids) chosen = true := by
    refine TakenNames.groupFits_iff.mpr fun n hn => TakenNames.memberFits_iff.mpr (Or.inr ?_)
    rcases Program.mem_symbols.mp hn with ⟨i, hi, hin⟩
    have hname := hall i hi
    rw [Program.boundAlias, hin] at hname
    exact ⟨n, hn, rfl, Or.inl hname⟩
  rcases hnamed.name_eq with ⟨-, hname, hsource⟩ | ⟨n, ⟨hmisfit, -⟩, -⟩
  · exact ⟨hname, hsource, hall⟩
  · rw [hfits] at hmisfit
    cases hmisfit

/-- Where the members have been recorded under it, such a turn changes nothing at all. -/
theorem turn_of_same {u : Unification} {ids : List MethodId}
    (hturn : Unification.Turn u ids (u.turn ids))
    (hsame : ∀ i ∈ ids, ∀ j ∈ ids,
      u.program.boundAlias (.method i) = u.program.boundAlias (.method j))
    (hrecorded : ∀ id name, u.program.boundAlias (.method id) = some name →
      u.aliases.get? id = some name) :
    (u.turn ids).source = u.source ∧ (u.turn ids).aliases = u.aliases ∧
      ∀ id, (u.turn ids).program.boundAlias (.method id) =
        u.program.boundAlias (.method id) := by
  have hkeys := Unification.keys_turn u ids
  generalize u.turn ids = v at hturn hkeys
  cases hturn with
  | rest _ => exact ⟨rfl, rfl, fun _ => rfl⟩
  | @call chosen name _ hnamed =>
    rcases named_eq_of_same hnamed hsame with ⟨rfl, hsource, hall⟩
    have hget : ∀ id ∈ ids, u.aliases.get? id = some name := fun id hid =>
      hrecorded id name (hall id hid)
    refine ⟨hsource, ?_, fun id => ?_⟩
    · refine Table.ext_get? (hkeys fun id hid => Table.mem_keys_iff.mpr ⟨_, hget id hid⟩)
        fun id => ?_
      rw [hnamed.aliases]
      split
      · rename_i hid
        exact (hget id hid).symm
      · rfl
    · rw [Program.boundAlias, hnamed.methods]
      split
      · rename_i hid
        rw [hall id hid]
        rcases Option.bind_eq_some_iff.mp (hall id hid) with ⟨m, hm, -⟩
        rw [hm, Option.map_some, Option.bind_some, Unification.newName_called]
      · rfl

/-- Where all members of a group have one alias, unification changes nothing. -/
theorem unified_of_same (hg : Grouped p r)
    (hbound : ∀ s, r.program.boundAlias s = r.engine.memberAlias s)
    (hlinked : ∀ {i j}, Relation.ReflTransGen p.Linked i j →
      r.program.boundAlias (.method i) = r.program.boundAlias (.method j)) :
    r.unified.engine.source = r.engine.source ∧ r.unified.engine.methods = r.engine.methods ∧
      ∀ s, r.unified.program.boundAlias s = r.program.boundAlias s := by
  have hturns : (r.unification.turns r.engine.groups.live).source = r.engine.source ∧
      (r.unification.turns r.engine.groups.live).aliases = r.engine.methods ∧
      ∀ id, (r.unification.turns r.engine.groups.live).program.boundAlias (.method id) =
        r.program.boundAlias (.method id) := by
    refine (Unification.turns_induct hg.present (u := r.unification)
      (motive := fun _ v => v.source = r.engine.source ∧ v.aliases = r.engine.methods ∧
        ∀ id, v.program.boundAlias (.method id) = r.program.boundAlias (.method id))
      ⟨rfl, rfl, fun id => rfl⟩ ?_).2
    intro done g rest hlive _ hturn hdone
    obtain ⟨hsource, haliases, hsame⟩ := hdone
    have hmembers : g.2 = r.engine.groups.members g.1 :=
      (OverrideGroups.mem_live_iff.mp (by rw [hlive]; simp)).1
    have hone : ∀ i ∈ g.2, ∀ j ∈ g.2,
        (r.unification.turns done).program.boundAlias (.method i) =
          (r.unification.turns done).program.boundAlias (.method j) := by
      intro i hi j hj
      rw [hmembers] at hi hj
      rw [hsame, hsame]
      exact hlinked (hg.reaches_of_together ⟨g.1, hi, hj⟩)
    have hrecorded : ∀ id name,
        (r.unification.turns done).program.boundAlias (.method id) = some name →
          (r.unification.turns done).aliases.get? id = some name := by
      intro id name hname
      rw [hsame, hbound] at hname
      rw [haliases]
      exact (Engine.aliasOf_of_memberAlias hname).1
    obtain ⟨hsource', haliases', hsame'⟩ := turn_of_same hturn hone hrecorded
    exact ⟨hsource'.trans hsource, haliases'.trans haliases,
      fun id => (hsame' id).trans (hsame id)⟩
  refine ⟨hturns.1, hturns.2.1, fun s => ?_⟩
  cases s with
  | type id => rfl
  | field id =>
    rw [Program.boundAlias, hg.fields_unified]
    rfl
  | method id => exact hturns.2.2 id

/-! ## Types and packages -/

variable {d e : Engine}

/-- Where aliases of types and packages are the same, types end with the same full names. -/
theorem newName_of_same (hp : p.WellFormed) (hq : q.WellFormed) (hpq : p.declared = q.declared)
    (hd : d.Unused) (he : e.Unused)
    (htypes : ∀ ty, (e.bound q).unified.engine.typeAlias ty =
      (d.bound p).unified.engine.typeAlias ty)
    (hpackages : SamePackages (d.bound p).unified (e.bound q).unified) {ty : TypeId}
    {s t : TypeSymbol} (hs : (d.bound p).unified.program.types.get? ty = some s)
    (ht : (e.bound q).unified.program.types.get? ty = some t) : t.newName = s.newName :=
  newName_of_extends hp hq (Program.Extends.of_declared hpq) hd he (fun {ty _} _ => htypes ty) hs ht
    fun a _ => hpackages a

/-- The package of a type is emitted under its alias. -/
theorem packageAlias_unified (hd : d.Unused) {ty : TypeId} {t : TypeSymbol}
    (ht : p.types.get? ty = some t) : (d.bound p).unified.engine.packageAlias t.package =
      some ((d.bound p).unified.engine.packages.fullAlias (PackagePath.ofText t.package)) := by
  have halias := (prepared_discover hd p).packageAlias ht
  unfold Engine.packageAlias at halias ⊢
  rw [(alikeTypes_unified d p).packages, halias]

end Run

namespace Engine

variable {p : Program}

/-- A run reports what it has found up to unification. -/
theorem diagnostics_process {e : Engine} {report : Report} {r : Run}
    (h : e.process p = .ok (report, r)) : report.diagnostics = (e.bound p).engine.findings := by
  rw [process_eq_bound] at h
  obtain ⟨u, -, hreport⟩ := bind_eq_ok.mp h
  cases hreport
  rfl

end Engine

/-! ## The later run -/

namespace Run

/-- The later run ends with the names of the earlier one, without a draw. -/
theorem Follows.ends (hfirst : Ends q P first) (hq : q.WellFormed)
    (hjava : P.classifier = Classifier.java) {saved : Presets}
    (hpackages : saved.packages = Table.ofList first.engine.packages.aliased)
    (hexports : ∀ s, q.presetOf saved s = first.engine.aliasOf s) (use : Bool) {e : Engine}
    (he : e = ({ policy := P.sourcing use } : Engine).reset.loadPresets saved) :
    (e.bound q).unified.engine.source = {} ∧
      (∀ d ∈ (e.bound q).engine.findings, d.code ≠ .unusableAlias) ∧
      (∀ s, (e.bound q).unified.engine.aliasOf s = first.engine.aliasOf s) ∧
      (∀ s, (e.bound q).unified.program.boundAlias s = first.program.boundAlias s) ∧
      SamePackages first (e.bound q).unified := by
  have hunused : e.Unused := he ▸ (Engine.unused_reset _).loadPresets saved
  have hpolicy : e.policy = P.sourcing use := he ▸ Engine.policy_loadPresets _ saved
  rcases follows_seed hfirst hpackages hexports use he with ⟨hstart, hsame⟩
  rcases follows_bound hfirst hstart hsame with ⟨hfollows, hdiscover⟩
  have hjava' : e.policy.classifier = Classifier.java := by
    rw [hpolicy]
    exact hjava
  rcases answers_bound q hunused hjava' with ⟨-, hallBound⟩
  have hg := Engine.grouped_bound hq hunused.groups
  have haliases : ∀ s, (e.bound q).engine.aliasOf s = first.engine.aliasOf s := by
    intro s
    rw [hfollows.aliases]
    split
    · rfl
    · rename_i hs
      rw [eq_comm, Option.eq_none_iff_forall_ne_some]
      exact fun name hname => hs (hfirst.answers.passed hname)
  have hbound : ∀ s, (e.bound q).program.boundAlias s = first.program.boundAlias s := by
    intro s
    rw [hallBound.bound, hfirst.allBound.bound, Engine.memberAlias_congr (haliases s)]
  rcases unified_of_same hg hallBound.bound (fun {i j} hij => by
    rw [hbound, hbound]
    exact hfirst.linked hij) with ⟨hsource, hmethods, hunified⟩
  refine ⟨hsource.trans hfollows.source, hfollows.findings, fun s => ?_,
    fun s => (hunified s).trans (hbound s),
    hdiscover.of_packages (alikeTypes_unified e q).packages⟩
  rw [← haliases]
  cases s with
  | type id => exact typeAlias_unified _ id
  | field id => exact fieldAlias_unified _ id
  | method id => exact congrArg (Table.get? · id) hmethods

end Run

namespace Engine

/-- A run that has loaded what an earlier run on the same declarations has exported ends with the
same names, draws none, and finds no alias unusable. -/
theorem names_process_saved (p : Program) (hp : p.Built) (hid : p.DistinctIdentities) (e : Engine)
    (hjava : e.policy.classifier = Classifier.java) (presets : Presets) :
    ∃ report r saved, (e.reset.loadPresets presets).process p = .ok (report, r) ∧
      r.engine.exportPresets r.program = .ok saved ∧ r.program.declared = p.declared ∧
      ∀ (useSourceNames : Bool) (q : Program), q.declared = p.declared →
        ∃ report' r', (({ policy := e.policy.sourcing useSourceNames } : Engine).reset.loadPresets
            saved).process q = .ok (report', r') ∧
          r'.program.declared = p.declared ∧
          (∀ id s t, r.program.types.get? id = some s → r'.program.types.get? id = some t →
            t.newName = s.newName) ∧
          (∀ id f g, r.program.fields.get? id = some f → r'.program.fields.get? id = some g →
            g.newName = f.newName) ∧
          (∀ id m n, r.program.methods.get? id = some m → r'.program.methods.get? id = some n →
            n.newName = m.newName) ∧
          (∀ path, r'.engine.packages.fullAlias path = r.engine.packages.fullAlias path) ∧
          (∀ t ∈ p.types.toList,
            r'.engine.packageAlias t.package = r.engine.packageAlias t.package) ∧
          r'.engine.source.issued = 0 ∧
          ∀ d ∈ report'.diagnostics, d.code ≠ .unusableAlias := by
  have he := e.unused_reset.loadPresets presets
  have hpolicy : (e.reset.loadPresets presets).policy = e.policy := policy_loadPresets _ presets
  have hends : Run.Ends p e.policy ((e.reset.loadPresets presets).bound p).unified := by
    rcases sound_loadPresets e hjava presets with ⟨hsound, horder⟩
    rw [← hpolicy] at hjava hsound ⊢
    exact Run.ends_unified hp.wellFormed he hjava hsound horder
  rcases hends.exports hp.wellFormed hid with ⟨hexport, hexports⟩
  rcases process_eq_ok hp.wellFormed he.groups with ⟨report, hrun⟩
  refine ⟨report, _, _, hrun, hexport, hends.answers.declared, fun use q hq => ?_⟩
  -- the later run, on a program with the same declarations
  let later := ({ policy := e.policy.sourcing use } : Engine).reset.loadPresets
    (((e.reset.loadPresets presets).bound p).unified.engine.saved p)
  have hlater : later.Unused := (unused_reset _).loadPresets _
  have hqwell := hp.wellFormed.of_declared hq.symm
  rcases Run.Follows.ends (hends.of_declared hq.symm) hqwell hjava rfl
    (fun s => (Program.presetOf_of_declared hq _ s).trans (hexports s)) use (e := later) rfl with
    ⟨hsource, hfindings, haliases, hbound, hsame⟩
  rcases process_eq_ok hqwell hlater.groups with ⟨report', hrun'⟩
  have hdeclared := (grouped_bound hqwell hlater.groups).declared_unified
  refine ⟨report', _, hrun', hdeclared.trans hq, ?_, ?_, ?_, hsame.fullAlias, ?_,
    congrArg NameSource.issued hsource, ?_⟩
  · intro id s t hs ht
    exact Run.newName_of_same hp.wellFormed hqwell hq.symm he hlater
      (fun ty => haliases (.type ty)) hsame hs ht
  · intro id f g hf hg
    have hboth := hbound (.field id)
    rw [Program.boundAlias, Program.boundAlias, hf, hg] at hboth
    exact hboth
  · intro id m n hm hn
    have hboth := hbound (.method id)
    rw [Program.boundAlias, Program.boundAlias, hm, hn] at hboth
    exact hboth
  · intro t ht
    rcases List.mem_iff_getElem?.mp ht with ⟨i, hi⟩
    have hslot : p.types.get? ⟨i⟩ = some t := Arena.get?_eq_some_iff.mpr hi
    rcases Program.type_of_declared hq.symm hslot with ⟨t', ht', hdecl⟩
    rw [Run.packageAlias_unified he hslot, ← hsame.fullAlias,
      ← TypeSymbol.agree hdecl TypeSymbol.package fun _ => rfl]
    exact Run.packageAlias_unified hlater ht'
  · rw [diagnostics_process hrun']
    exact hfindings

/-- Renamed a second time, with what the first run has exported, the method `d` of `Sub` is called
`d` again: a word that the first run drew to replace the alias of its group. -/
theorem names_process_again : Program.relatedTypes.Built ∧
    Program.relatedTypes.DistinctIdentities ∧
    ∃ report r saved report' r',
      (({} : Engine).reset.loadPresets {}).process Program.relatedTypes = .ok (report, r) ∧
      r.engine.exportPresets r.program = .ok saved ∧
      (({ policy := ({} : Engine).policy.sourcing false } : Engine).reset.loadPresets saved).process
        r.program = .ok (report', r') ∧
      (∃ m, r'.program.methods.get? ⟨0⟩ = some m ∧ m.newName = some "d") ∧
      r'.engine.source.issued = 0 := by
  have hbuilt := Program.built_relatedTypes
  have hid : Program.relatedTypes.DistinctIdentities := by decide +kernel
  rcases process_eq_ok (e := ({} : Engine).reset.loadPresets {}) hbuilt.wellFormed rfl with
    ⟨report, hrun⟩
  rcases names_process_saved Program.relatedTypes hbuilt hid {} rfl {} with
    ⟨report₁, r, saved, hrun₁, hexport, hdeclared, hlater⟩
  rw [hrun] at hrun₁
  cases hrun₁
  have hm : ((({} : Engine).reset.loadPresets {}).bound
      Program.relatedTypes).unified.program.methods.get? ⟨0⟩ = some
        { owner := ⟨0⟩, name := "d", params := [], returnType := "V", isVirtual := true,
          newName := some "d", renamed := true } := by
    decide +kernel
  rcases hlater false _ hdeclared with
    ⟨report', r', hrun', hdeclared', -, -, hmethods, -, -, hissued, -⟩
  rcases Program.method_of_declared (hdeclared.trans hdeclared'.symm) hm with ⟨n, hn, -⟩
  exact ⟨hbuilt, hid, report, _, saved, report', r', hrun, hexport, hrun',
    ⟨n, hn, hmethods ⟨0⟩ _ n hm hn⟩, hissued⟩

end Engine
end Renamer
