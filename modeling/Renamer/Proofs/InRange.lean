import Renamer.Proofs.PointedBinding
import Renamer.Proofs.ProgramCalls
import Renamer.Proofs.Queries

/-!
# Runs stay in range

A run with pointers looks up nothing but slots that are there (`PointedEngine.process_in_range`):
not when presets are loaded, not while it decides, binds and unifies, and not when it is asked and
exported afterwards. It goes as the run without pointers goes, and answers what that one answers.
-/

namespace Renamer

/-! ## Programs built by calls -/

namespace ProgramCall

variable {calls : List ProgramCall} {call : ProgramCall} {p : Program} {q q' : ListedProgram}

/-- A call that succeeds with member lists is given a slot that the program has. -/
theorem there_of_runListed (hq : q.Shows p) (h : runListed q call = .ok q') : call.There p := by
  have hlt : ∀ {k : Kind} {α β : Type} {a : Arena k α} {i : Slot k}
      {f : α → Except OutOfRange β} {b : β}, (a.get i >>= f) = .ok b → i.index < a.size := by
    intro k α β a i f b hbind
    obtain ⟨x, hget, _⟩ := bind_eq_ok.mp hbind
    exact Arena.index_lt_of_get? (Arena.get_eq_ok_iff.mp hget)
  cases call with
  | addType d => trivial
  | addNestedType outer d =>
    obtain ⟨_, hadd, _⟩ := bind_eq_ok.mp h
    exact (hlt hadd).trans_eq hq.size
  | addField owner name descriptor =>
    obtain ⟨_, hadd, _⟩ := bind_eq_ok.mp h
    obtain ⟨_, hupdate, _⟩ := bind_eq_ok.mp hadd
    exact (hlt hupdate).trans_eq hq.size
  | addMethod owner name params returnType isVirtual =>
    obtain ⟨_, hadd, _⟩ := bind_eq_ok.mp h
    obtain ⟨_, hupdate, _⟩ := bind_eq_ok.mp hadd
    exact (hlt hupdate).trans_eq hq.size
  | changeType ty change =>
    obtain ⟨_, hupdate, _⟩ := bind_eq_ok.mp h
    exact (hlt hupdate).trans_eq hq.size
  | renameField id name =>
    obtain ⟨_, hupdate, _⟩ := bind_eq_ok.mp h
    exact (hlt hupdate).trans_eq (congrArg Arena.size hq.fields)
  | changeMethod id change =>
    obtain ⟨_, hupdate, _⟩ := bind_eq_ok.mp h
    exact (hlt hupdate).trans_eq (congrArg Arena.size hq.methods)
  | clearAliases => trivial

/-- Calls that succeed with member lists succeed without. -/
theorem exists_shows_of_runAllListed (h : runAllListed calls = .ok q) :
    ∃ p, runAll calls = .ok p ∧ q.Shows p := by
  induction calls using List.reverseRecOn generalizing q with
  | nil =>
    cases h
    exact ⟨{}, rfl, ListedProgram.shows_empty⟩
  | append_singleton calls call ih =>
    obtain ⟨q₀, hq₀, hcall⟩ := foldlM_append_singleton_eq_ok.mp h
    obtain ⟨p₀, hp₀, hshows⟩ := ih hq₀
    -- a call needs no more than that the slot it is given is there
    obtain ⟨p, hruns⟩ := exists_runs_iff.mpr (there_of_runListed hshows hcall)
    obtain ⟨q', hq', hshows'⟩ := hruns.shows hshows (built_runAll hp₀).wellFormed
    obtain rfl : q = q' := Except.ok.inj (hcall.symm.trans hq')
    exact ⟨p, foldlM_append_singleton_eq_ok.mpr ⟨p₀, hp₀, run_eq_ok_iff.mpr hruns⟩, hshows'⟩

end ProgramCall

/-! ## Exported packages -/

namespace PointedPackages

variable {q : PointedPackages} {t : PackageTree} {pending : List PackagePath}

theorem Shows.aliasedAt_eq (h : q.Shows t pending) (ht : t.Grown) {id : PackageId} {n : PackageNode}
    (hn : t.nodes.get? id = some n) :
    q.aliasedAt id = .ok (n.newName.map fun newName => (n.path.text, newName)) := by
  obtain ⟨k, hk, hreads⟩ := h.reads hn
  rw [aliasedAt, Arena.get_eq_ok_iff.mpr hk, ok_bind, hreads.newName]
  cases n.newName with
  | none => rfl
  | some newName =>
    dsimp only
    rw [h.fullPath ht (ht.linked.find?_eq hn)]
    rfl

theorem Shows.aliased_eq (h : q.Shows t pending) (ht : t.Grown) : q.aliased = .ok t.aliased := by
  have hall : q.nodes.slots.mapM q.aliasedAt =
      .ok (t.nodes.entries.map fun e =>
        e.2.newName.map fun newName => (e.2.path.text, newName)) := by
    rw [Arena.slots_eq h.size, List.mapM_map]
    exact mapM_eq_ok fun e he => h.aliasedAt_eq ht (Arena.mem_entries_iff.mp he)
  rw [PointedPackages.aliased, hall, ok_bind, PackageTree.aliased, ← Arena.map_snd_entries,
    List.filterMap_map, List.filterMap_map]
  rfl

end PointedPackages

/-! ## Whole runs -/

namespace PointedEngine

variable {q : PointedEngine} {e : Engine} {l : ListedProgram} {p : Program}

/-- A run with pointers comes to the report of the run without, and shows where that one ends. -/
theorem Shows.process (h : q.Shows e) (hl : l.Shows p) (hp : p.WellFormed) (he : e.groups = {}) :
    ∃ report s, q.process l = .ok (report, s) ∧ e.process p = .ok (report, (e.bound p).unified) ∧
      s.Shows (e.bound p).unified ∧ p.OnlyRenamed (e.bound p).unified.program := by
  have hcleared := hp.of_declared (Program.declared_clearAliases (p := p)).symm
  have hgrouped := Engine.grouped_bound hp he
  have hstart : PointedRun.Shows { engine := q, program := l.clearAliases }
      { engine := e, program := p.clearAliases } := ⟨h, hl.clearAliases⟩
  obtain ⟨s, hdiscover, hs, hrenamed⟩ := hstart.discover hcleared
  obtain ⟨⟨tally, applied⟩, happly, htally, happlied, hbound⟩ := hs.applyCounted hcleared hrenamed
  rw [Run.snd_applyCounted, ← Engine.bound] at happlied hbound
  obtain ⟨⟨changed, u⟩, hunify, hunified⟩ := happlied.unify hgrouped.present
  have hturns : (e.bound p).unification.unify (e.bound p).engine.groups =
      .ok ((e.bound p).unification.turns (e.bound p).engine.groups.live) :=
    Unification.unify_eq_ok hgrouped.present
  have hgroups : applied.engine.groups.live.length = (e.bound p).engine.groups.size :=
    congrArg List.length happlied.engine.groups.live_eq
  have hfindings : applied.engine.findings = (e.bound p).engine.findings :=
    happlied.engine.findings
  let report : Report :=
    { typesRenamed := tally.types
      fieldsRenamed := tally.fields
      methodsRenamed := tally.methods
      overrideGroups := applied.engine.groups.live.length
      methodsUnified := changed
      diagnostics := applied.engine.findings }
  refine ⟨report, _, ?_, ?_, hunified.unified, ?_⟩
  · unfold PointedEngine.process
    rw [hdiscover, ok_bind, happly, ok_bind]
    dsimp only
    rw [hunify]
    rfl
  · dsimp only [report]
    rw [Engine.process_eq_bound, Run.unify, ← Run.unification, hturns, hgroups, hfindings,
      show tally = _ from htally, show changed = _ from hunified.changed]
    generalize e.bound p = b
    rfl
  · have hlast : (e.bound p).program.OnlyRenamed (e.bound p).unified.program :=
      .of_types (hgrouped.declared_unified.trans hgrouped.declared.symm) hgrouped.types_unified
    exact (p.onlyRenamed_clearAliases.trans hbound).trans hlast

/-! ## Exports -/

/-- Exports with pointers and without are the same, and they fail alike. -/
theorem Shows.exportPresets_eq (h : q.Shows e) (hl : l.Shows p) :
    q.exportPresets l = e.exportPresets p := by
  have htypes : (q.types.toList.mapM fun entry => do
        return ((← l.types.get entry.1).symbol.fullName, entry.2.newName)) =
      e.types.toList.mapM fun entry => do
        return ((← p.types.get entry.1).fullName, entry.2.newName) := by
    refine mapM_congr h.types fun a b hab => ?_
    rw [hab.1, hab.2.newName, ← hl.map_get]
    cases l.types.get b.1 <;> rfl
  unfold PointedEngine.exportPresets Engine.exportPresets
  rw [h.packages.aliased_eq h.grown, ok_bind, htypes, h.fields, h.methods,
    funext hl.fieldIdentity_eq, funext hl.methodIdentity_eq]

/-! ## Queries -/

/-- A query about a symbol that is there is answered with pointers as without. -/
theorem Shows.ask (h : q.Shows e) (hl : l.Shows p) (hp : p.WellFormed) {query : Query}
    (hquery : query.InRange p) : ∃ answer q' e', ask l q query = .ok (answer, q') ∧
      e.ask p query = .ok (answer, e') ∧ q'.Shows e' := by
  cases query with
  | fullName ty =>
    obtain ⟨t, ht⟩ := Arena.exists_get?_of_lt hquery
    obtain ⟨⟨name, q'⟩, hrun, hsame, hq'⟩ := h.fullName hl hp ht (rfl : t.declared = t.declared)
    refine ⟨some name, q', _, ?_, ?_, hq'⟩
    · rw [PointedEngine.ask, hrun]
      rfl
    · rw [Engine.ask, Engine.fullNameAt_of_get? ht, show name = _ from hsame]
      rfl
  | chainName ty =>
    obtain ⟨t, ht⟩ := Arena.exists_get?_of_lt hquery
    obtain ⟨⟨name, q'⟩, hrun, hsame, hq'⟩ := h.chainName hl hp ht (Nat.lt_succ_self _)
    refine ⟨some name, q', _, ?_, ?_, hq'⟩
    · rw [PointedEngine.ask, hrun]
      rfl
    · rw [Engine.ask, Engine.chainNameAt_of_get? ht, show name = _ from hsame]
      rfl
  | typeAlias ty =>
    refine ⟨e.typeAlias ty, q, e, ?_, rfl, h⟩
    rw [PointedEngine.ask, h.typeAlias_eq]
    rfl
  | fieldAlias id =>
    refine ⟨e.fieldAlias id, q, e, ?_, rfl, h⟩
    rw [PointedEngine.ask, h.fields]
    rfl
  | methodAlias id =>
    refine ⟨e.methodAlias id, q, e, ?_, rfl, h⟩
    rw [PointedEngine.ask, h.methods]
    rfl
  | packageAlias text =>
    refine ⟨e.packageAlias text, q, e, ?_, rfl, h⟩
    rw [PointedEngine.ask, h.packageAlias_eq]
    rfl

end PointedEngine

namespace Query

/-- Asks one thing after the other. -/
def all {σ : Type} (ask : σ → Query → Except OutOfRange (Option String × σ)) :
    List Query → σ → Except OutOfRange (List (Option String) × σ)
  | [], e => return ([], e)
  | query :: rest, e => do
    let (answer, e) ← ask e query
    let (answers, e) ← all ask rest e
    return (answer :: answers, e)

end Query

namespace PointedEngine

variable {q : PointedEngine} {e : Engine} {l : ListedProgram} {p : Program}

/-- So are queries one after the other, and answers keep nothing but names. -/
theorem Shows.askAll (h : q.Shows e) (hl : l.Shows p) (hp : p.WellFormed) {queries : List Query}
    (hqueries : ∀ query ∈ queries, query.InRange p) :
    ∃ answers q' e', Query.all (PointedEngine.ask l) queries q = .ok (answers, q') ∧
      Query.all (Engine.ask p) queries e = .ok (answers, e') ∧ q'.Shows e' ∧ e.Recalls e' := by
  induction queries generalizing q e with
  | nil => exact ⟨[], q, e, rfl, rfl, h, .refl e⟩
  | cons query queries ih =>
    obtain ⟨answer, q₁, e₁, hq₁, he₁, h₁⟩ := h.ask hl hp (hqueries query List.mem_cons_self)
    obtain ⟨answers, q₂, e₂, hq₂, he₂, h₂, hrecalls⟩ :=
      ih h₁ fun query hquery => hqueries query (List.mem_cons_of_mem _ hquery)
    refine ⟨answer :: answers, q₂, e₂, ?_, ?_, h₂, (Engine.recalls_ask he₁).trans hrecalls⟩
    · rw [Query.all, hq₁, ok_bind]
      dsimp only
      rw [hq₂]
      rfl
    · rw [Query.all, he₁, ok_bind]
      dsimp only
      rw [he₂]
      rfl

/-- A run on a program that was built by calls looks up no slot that its arenas do not have: not
when presets are loaded into an engine that was reset, not while it decides, binds and unifies, and
not when the engine is asked afterwards about symbols of the program, or exported. Every slot is one
that was stored: with a type, in the index of names, with a package, with a group or in a table. Of
the program the run changes aliases and marks, and it uses up source files. It is the run without
pointers, step by step, with the same report, the same answers and the same exports. -/
theorem process_in_range (calls : List ProgramCall) (q : ListedProgram)
    (hq : ProgramCall.runAllListed calls = .ok q) (e : PointedEngine) (presets : Presets) :
    ∃ loaded report s p r, e.reset.loadPresets presets = .ok loaded ∧
      loaded.process q = .ok (report, s) ∧ q.OnlyRenamed s.program ∧
      ProgramCall.runAll calls = .ok p ∧ q.Shows p ∧
      (({ policy := e.policy } : Engine).loadPresets presets).process p = .ok (report, r) ∧
      s.Shows r ∧
      ∀ queries, (∀ query ∈ queries, Query.InRange p query) → ∃ answers e₁ e₂ saved,
        Query.all (ask s.program) queries s.engine = .ok (answers, e₁) ∧
        e₁.exportPresets s.program = .ok saved ∧
        Query.all (Engine.ask r.program) queries r.engine = .ok (answers, e₂) ∧
        e₂.exportPresets r.program = .ok saved := by
  obtain ⟨p, hp, hshows⟩ := ProgramCall.exists_shows_of_runAllListed hq
  have hwf := (ProgramCall.built_runAll hp).wellFormed
  obtain ⟨loaded, hload, hloaded⟩ := (shows_reset e).loadPresets presets
  have hunused : (({ policy := e.policy } : Engine).loadPresets presets).Unused :=
    Engine.Unused.loadPresets (Engine.unused_reset { policy := e.policy }) presets
  obtain ⟨report, s, hrun, hplain, hend, hrenamed⟩ := hloaded.process hshows hwf hunused.groups
  refine ⟨loaded, report, s, p, _, hload, hrun, hshows.onlyRenamed hend.program hrenamed, hp,
    hshows, hplain, hend, fun queries hqueries => ?_⟩
  have hwf' := hwf.of_declared hrenamed.declared.symm
  obtain ⟨answers, e₁, e₂, h₁, h₂, hasked, hrecalls⟩ := hend.engine.askAll hend.program hwf'
    fun query hquery => (hqueries query hquery).of_declared hrenamed.declared
  have hexport := ((Engine.stays_bound hwf hunused).recalls hrecalls).exportPresets hwf
  exact ⟨answers, e₁, e₂, _, h₁, (hasked.exportPresets_eq hend.program).trans hexport, h₂, hexport⟩

/-- The calls that build two related types, `Sub` before the type that it extends. -/
def relatedCalls : List ProgramCall :=
  [.addType { shortName := "Sub", superType := some "Base" }, .addType { shortName := "Base" },
    .addMethod ⟨0⟩ "d" [] "V" true, .addMethod ⟨1⟩ "a" [] "V" false,
    .addMethod ⟨1⟩ "d" [] "V" true]

theorem process_relatedCalls_in_range :
    let queries := [Query.fullName ⟨0⟩, .chainName ⟨1⟩, .methodAlias ⟨2⟩, .packageAlias ""]
    ∃ q, ProgramCall.runAllListed relatedCalls = .ok q ∧
      ∃ loaded report s answers e saved,
        ({} : PointedEngine).reset.loadPresets {} = .ok loaded ∧
        loaded.process q = .ok (report, s) ∧ q.OnlyRenamed s.program ∧
        Query.all (ask s.program) queries s.engine = .ok (answers, e) ∧
        e.exportPresets s.program = .ok saved := by
  intro queries
  have hbuilt : ProgramCall.runAll relatedCalls = .ok Program.relatedTypes := rfl
  obtain ⟨q, hq, hshows⟩ := ProgramCall.shows_runAll hbuilt
  obtain ⟨loaded, report, s, p, r, hload, hrun, hrenamed, hp, -, -, -, hall⟩ :=
    process_in_range relatedCalls q hq {} {}
  obtain rfl : Program.relatedTypes = p := Except.ok.inj (hbuilt.symm.trans hp)
  have hqueries : ∀ query ∈ queries, query.InRange Program.relatedTypes := by decide
  obtain ⟨answers, e, -, saved, hasked, hexport, -, -⟩ := hall queries hqueries
  exact ⟨q, hq, loaded, report, s, answers, e, saved, hload, hrun, hrenamed, hasked, hexport⟩

/-- Asked about a type that the program does not have, an engine fails. -/
example : ask {} {} (.fullName ⟨2⟩) = .error ⟨0, 2⟩ := rfl

end PointedEngine
end Renamer
