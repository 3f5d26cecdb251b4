import Renamer.Proofs.Queries
import Renamer.Proofs.Reloading
import Renamer.Store.Memory

/-!
# Histories

An engine can be used again and again, on one program and on others. A history is a list of calls,
and `Run.after` is where it leads to.

Whatever was called before, a run with a store begins with an engine that is reset and with a
program whose aliases are cleared. So it goes as it would have gone on a new engine with the same
policy: the policy is all that a call hands on (`Run.policy_after`).
-/

namespace Renamer

/-- What can be called on an engine, the program at hand being handed to it. -/
inductive Call : Type 1 where
  /-- Another program is taken to hand. -/
  | use (p : Program)
  /-- The engine is reset. -/
  | reset
  /-- Presets are loaded for the next run. -/
  | loadPresets (presets : Presets)
  /-- The program is renamed. -/
  | process
  /-- The program is renamed with presets from a store. -/
  | execute (σ : Type) [PresetStore σ] (store : σ)
  /-- A name or an alias is asked for. -/
  | ask (query : Query)
  /-- What was decided is exported. -/
  | exportPresets

namespace Run

/-- The engine and the program after a call. -/
def call (r : Run) : Call → Except OutOfRange Run
  | .use p => return { r with program := p }
  | .reset => return { r with engine := r.engine.reset }
  | .loadPresets presets => return { r with engine := r.engine.loadPresets presets }
  | .process => do
    let (_, r) ← r.engine.process r.program
    return r
  | @Call.execute _ _ store => do
    let o ← r.engine.execute r.program store
    return { engine := o.engine, program := o.program }
  | .ask query => do
    let (_, engine) ← r.engine.ask r.program query
    return { r with engine }
  | .exportPresets => do
    let _ ← r.engine.exportPresets r.program
    return r

/-- The engine and the program after a history. -/
def after (r : Run) (calls : List Call) : Except OutOfRange Run := calls.foldlM call r

end Run

/-! ## What a run leaves alone -/

namespace Run

variable {p : Program} {r r' : Run} {s : SymbolId}

/-- `r'` has the declarations, the policy and the presets of `r`. -/
structure Fixes (r r' : Run) : Prop where
  declared : r'.program.declared = r.program.declared
  policy : r'.engine.policy = r.engine.policy
  presets : r'.engine.presets = r.engine.presets

theorem Fixes.trans {r'' : Run} (h : r.Fixes r') (h' : r'.Fixes r'') : r.Fixes r'' where
  declared := h'.declared.trans h.declared
  policy := h'.policy.trans h.policy
  presets := h'.presets.trans h.presets

theorem Leaves.fixes (h : r.Leaves r') : r.Fixes r' := ⟨h.declared, h.policy, h.presets⟩

theorem Assigns.fixes {name : String} (h : r.Assigns p s name r') : r.Fixes r' :=
  ⟨h.declared, h.policy, h.presets⟩

theorem Decides.fixes (h : Decides p s r r') : r.Fixes r' := ⟨h.declared, h.policy, h.presets⟩

theorem Binds.fixes (h : Binds p s r r') : r.Fixes r' := by
  cases h with
  | skip _ => exact ⟨rfl, rfl, rfl⟩
  | bind _ _ _ hl _ _ => exact hl.fixes
  | redraw _ _ _ _ ha _ => exact ha.fixes

theorem keeps_fixes_deciding (p : Program) {r₀ : Run} (h₀ : r₀.program.declared = p.declared) :
    Pass.deciding.Keeps p fun _ => r₀.Fixes := by
  apply Pass.keeps_deciding
  case hdeclared => exact fun h => h.declared.trans h₀
  case htype =>
    intro done rest r ty t _ ht h
    have hd := decides_decideType (r := { r with engine := r.engine.decidePackage t }) ht
    exact (h.trans (leaves_decidePackage r t).fixes).trans hd.fixes
  case hmember => exact fun _ _ hd _ h => h.trans hd.fixes
  case hlink => exact fun hl _ _ _ h => h.trans hl.fixes

theorem keeps_fixes_binding (p : Program) {r₀ : Run} (h₀ : r₀.program.declared = p.declared) :
    Pass.binding.Keeps p fun _ => r₀.Fixes := by
  apply Pass.keeps_binding
  case hdeclared => exact fun h => h.declared.trans h₀
  case htype =>
    intro done rest r ty t _ _ h
    exact h.trans (leaves_applyType r ty t).1.fixes
  case hmember => exact fun _ _ hb _ h => h.trans hb.fixes

/-- Deciding and binding leave declarations, policy and presets alone, whatever the engine has
decided before. -/
theorem fixes_bound (e : Engine) (p : Program) :
    Fixes { engine := e, program := p } (e.bound p) := by
  have hcleared : p.clearAliases.declared = p.declared := Program.declared_clearAliases
  have hseed : Fixes { engine := e, program := p }
      { engine := e.seed p.clearAliases, program := p.clearAliases } := ⟨hcleared, rfl, rfl⟩
  exact (keeps_fixes_deciding p rfl).bound (keeps_fixes_binding p rfl) hseed fun {r} hr =>
    hr.trans (leaves_discovered r).fixes

end Run

/-! ## The policy -/

theorem Program.clearAliases_clearAliases (p : Program) :
    p.clearAliases.clearAliases = p.clearAliases := by
  simp only [Program.clearAliases, Arena.map_map_of_comp, implies_true]

namespace Engine

variable {e : Engine} {p : Program}

/-- A run keeps the policy, whatever the engine has decided before. -/
theorem policy_process {report : Report} {r : Run} (h : e.process p = .ok (report, r)) :
    r.engine.policy = e.policy := by
  rw [process_eq_bound] at h
  obtain ⟨⟨changed, r'⟩, hunify, hr⟩ := bind_eq_ok.mp h
  obtain ⟨u, -, hr'⟩ := bind_eq_ok.mp hunify
  cases hr'
  cases hr
  exact (Run.fixes_bound e p).policy

/-- Aliases left on the program make no difference to a run. -/
theorem process_clearAliases (e : Engine) (p : Program) :
    e.process p.clearAliases = e.process p := by
  unfold process
  rw [p.clearAliases_clearAliases]

theorem policy_execute {σ : Type} [PresetStore σ] {store : σ} {o : Outcome σ}
    (h : e.execute p store = .ok o) : o.engine.policy = e.policy := by
  unfold execute at h
  dsimp only at h
  split at h
  · cases h
    rfl
  · obtain ⟨⟨report, r⟩, hprocess, hr⟩ := bind_eq_ok.mp h
    obtain ⟨decided, -, hsave⟩ := bind_eq_ok.mp hr
    have hpolicy : r.engine.policy = e.policy :=
      (policy_process hprocess).trans (policy_loadPresets e.reset _)
    dsimp only at hsave
    split at hsave
    · cases hsave
      exact hpolicy
    · cases hsave
      exact hpolicy

end Engine

namespace Run

/-- Every call keeps the policy. -/
theorem policy_call {r r' : Run} {c : Call} (h : r.call c = .ok r') :
    r'.engine.policy = r.engine.policy := by
  cases c with
  | use p =>
    cases h
    rfl
  | reset =>
    cases h
    rfl
  | loadPresets presets =>
    cases h
    exact Engine.policy_loadPresets r.engine presets
  | process =>
    obtain ⟨⟨report, r₁⟩, hrun, heq⟩ := bind_eq_ok.mp h
    cases heq
    exact Engine.policy_process hrun
  | execute σ store =>
    obtain ⟨o, ho, heq⟩ := bind_eq_ok.mp h
    cases heq
    exact Engine.policy_execute ho
  | ask query =>
    obtain ⟨answer, hanswer, heq⟩ := bind_eq_ok.mp h
    cases heq
    dsimp only
    rw [(Engine.recalls_ask hanswer).rest]
  | exportPresets =>
    obtain ⟨saved, -, heq⟩ := bind_eq_ok.mp h
    cases heq
    rfl

/-- So does every history. -/
theorem policy_after {r r' : Run} {calls : List Call} (h : r.after calls = .ok r') :
    r'.engine.policy = r.engine.policy := by
  induction calls generalizing r with
  | nil =>
    cases h
    rfl
  | cons c calls ih =>
    obtain ⟨r₁, hcall, hrest⟩ := bind_eq_ok.mp h
    exact (ih hrest).trans (policy_call hcall)

end Run

/-! ## Runs with a store -/

/-- A map file with a line that is no entry. -/
def FileStore.garbled : FileStore where
  file := { path := "names.map" }
  disk := { entries := Table.ofList [(["names.map"], .file "no entry".toUTF8)] }

namespace Engine

variable {σ : Type} [PresetStore σ] {e : Engine} {p : Program}

/-- A run with a store sees nothing of the engine but its policy. -/
theorem execute_of_policy {e' : Engine} (h : e.policy = e'.policy) (p : Program) (store : σ) :
    e.execute p store = e'.execute p store := by
  have hreset : e.reset = e'.reset := by rw [reset_eq, h, reset_eq]
  unfold execute
  rw [hreset]

/-- A lawful store stays as it is where presets cannot be loaded from it. -/
theorem loadFrom_of_error [LawfulPresetStore σ] {store : σ} {fault : StoreError}
    (h : (e.loadFrom store).1 = .error fault) : (e.loadFrom store).2 = store := by
  unfold loadFrom at h ⊢
  by_cases hforce : e.policy.settings.forceRegenerate = true
  · rw [if_pos hforce]
  · rw [if_neg hforce] at h ⊢
    exact LawfulPresetStore.load_of_error h

/-- Where presets cannot be loaded, nothing has been touched but by the store itself. -/
theorem execute_of_load_error {store : σ} {fault : StoreError}
    (h : (e.reset.loadFrom store).1 = .error fault) : e.execute p store =
      .ok { result := .error fault, engine := e.reset, program := p
            store := (e.reset.loadFrom store).2 } := by
  unfold execute
  dsimp only
  rcases hload : e.reset.loadFrom store with ⟨result, left⟩
  rw [hload] at h
  cases h
  rfl

/-- Where they can, the program is renamed and what was decided is exported. -/
theorem exists_process_exports (hp : p.WellFormed) (e : Engine) (presets : Presets) :
    ∃ report r saved, (e.reset.loadPresets presets).process p = .ok (report, r) ∧
      r.engine.exportPresets r.program = .ok saved := by
  have he := e.unused_reset.loadPresets presets
  obtain ⟨report, hrun⟩ := process_eq_ok hp he.groups
  exact ⟨report, _, _, hrun, (stays_bound hp he).exportPresets hp⟩

/-- Whatever an engine was called for, a run with a store goes as on a new engine with its policy,
and on the program without the aliases it has. Nothing shows of what was before, except that a
program stays as it is where presets cannot be loaded. Then the engine is as good as new, too, and
the store is what the load has left behind: a lawful one is as it was. -/
theorem execute_after (P : Policy) (p₀ : Program) (calls : List Call) (r : Run)
    (hcalls : Run.after { engine := { policy := P }, program := p₀ } calls = .ok r) (p : Program)
    (hp : p.WellFormed) (σ : Type) [PresetStore σ] (store : σ) :
    ∃ o o', r.engine.execute p store = .ok o ∧
      ({ policy := P } : Engine).execute p.clearAliases store = .ok o' ∧
      o.result = o'.result ∧ o.engine = o'.engine ∧ o.store = o'.store ∧
      o.program.clearAliases = o'.program.clearAliases ∧
      (∀ report, o.result = .ok report → o.program = o'.program) ∧
      ∀ fault, (({ policy := P } : Engine).loadFrom store).1 = .error fault →
        o.result = .error fault ∧ o.program = p ∧
          o.store = (({ policy := P } : Engine).loadFrom store).2 ∧
          (LawfulPresetStore σ → o.store = store) ∧
          ∀ q, o.engine.process q = ({ policy := P } : Engine).process q := by
  have hpolicy : r.engine.policy = P := Run.policy_after hcalls
  have hsame : r.engine.execute p store = ({ policy := P } : Engine).execute p store :=
    execute_of_policy hpolicy p store
  rw [hsame]
  cases hload : (({ policy := P } : Engine).loadFrom store).1 with
  | error fault =>
    have hkept : p.clearAliases.clearAliases = p.clearAliases := p.clearAliases_clearAliases
    refine ⟨_, _, execute_of_load_error hload, execute_of_load_error hload, rfl, rfl, rfl,
      hkept.symm, fun report hreport => ?_, fun fault' hfault => ?_⟩
    · cases hreport
    · cases hfault
      exact ⟨rfl, rfl, rfl, fun _ => loadFrom_of_error hload, fun q => rfl⟩
  | ok presets =>
    have hloaded : ({ policy := P } : Engine).loadFrom store =
        (.ok presets, (({ policy := P } : Engine).loadFrom store).2) := Prod.ext hload rfl
    obtain ⟨report, r', saved, hrun, hexport⟩ :=
      exists_process_exports hp ({ policy := P } : Engine) presets
    have hrun' := hrun
    rw [← process_clearAliases] at hrun'
    refine ⟨_, _, execute_eq hloaded hrun hexport, execute_eq hloaded hrun' hexport, rfl, rfl, rfl,
      rfl, fun _ _ => rfl, fun fault hfault => ?_⟩
    cases hfault

/-- After a run, a failed load and another run the map file fails again, and leaves the aliases of
the program; a store that can be loaded gets what a new engine would save. -/
theorem execute_after_failure :
    let calls := [.loadPresets { methods := Table.ofList [("Sub.d()V", "x")] }, .process,
      .execute FileStore .garbled, .process, .ask (.fullName ⟨0⟩)]
    ∃ r, Run.after { engine := { policy := {} }, program := .relatedTypes } calls = .ok r ∧
      r.program.WellFormed ∧
      (∃ fault o, (({ policy := {} } : Engine).loadFrom FileStore.garbled).1 = .error fault ∧
        r.engine.execute r.program FileStore.garbled = .ok o ∧ o.result = .error fault ∧
        o.program = r.program ∧ o.store = FileStore.garbled ∧
        ∀ q, o.engine.process q = ({ policy := {} } : Engine).process q) ∧
      ∃ o o', r.engine.execute r.program ({} : MemoryStore) = .ok o ∧
        ({ policy := {} } : Engine).execute r.program.clearAliases ({} : MemoryStore) = .ok o' ∧
        o.result = o'.result ∧ o.engine = o'.engine ∧ o.store = o'.store := by
  intro calls
  have hdeclared : (Run.after { engine := { policy := {} }, program := .relatedTypes } calls
      ).toOption.map (fun r => r.program.declared) = some Program.relatedTypes.declared := by
    decide +kernel
  cases hcalls : Run.after { engine := { policy := {} }, program := .relatedTypes } calls with
  | error fault =>
    rw [hcalls] at hdeclared
    cases hdeclared
  | ok r =>
    rw [hcalls] at hdeclared
    have hp : r.program.WellFormed :=
      Program.built_relatedTypes.wellFormed.of_declared (Option.some.inj hdeclared).symm
    have hfails : (({ policy := {} } : Engine).loadFrom FileStore.garbled).1 = .error
        (.malformed { line := 1, cause := .missingSeparator }) := by
      rfl
    obtain ⟨o, -, ho, -, -, -, -, -, -, hfailed⟩ :=
      execute_after {} .relatedTypes calls r hcalls r.program hp FileStore .garbled
    obtain ⟨hresult, hprogram, -, hstore, hprocess⟩ := hfailed _ hfails
    obtain ⟨s, s', hs, hs', hresults, hengines, hstores, -⟩ :=
      execute_after {} .relatedTypes calls r hcalls r.program hp MemoryStore {}
    exact ⟨r, rfl, hp, ⟨_, o, hfails, ho, hresult, hprogram, hstore inferInstance, hprocess⟩, s, s',
      hs, hs', hresults, hengines, hstores⟩

end Engine
end Renamer
