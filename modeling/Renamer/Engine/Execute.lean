import Renamer.Engine.Process
import Renamer.Store.Basic

/-!
# Runs with a store

`execute` resets the engine, loads presets, renames, and saves what was decided. It depends on
nothing that was before but the policy, the program and the store.
-/

namespace Renamer

/-- What a run with a store comes to. -/
structure Outcome (σ : Type) where
  /-- The report, or why presets could not be loaded or saved. -/
  result : Except StoreError Report
  /-- The engine afterwards. -/
  engine : Engine
  /-- The program afterwards. Where loading failed it is as it was before; where saving failed it
  has been renamed. -/
  program : Program
  /-- The store afterwards. -/
  store : σ

namespace Engine

variable {σ : Type} [PresetStore σ]

/-- Presets from a store, or none if they are to be made anew, with the store afterwards. -/
def loadFrom (e : Engine) (store : σ) : Except StoreError Presets × σ :=
  if e.policy.settings.forceRegenerate then (.ok {}, store) else PresetStore.tryLoad store

/-- Loads presets, renames, and saves. -/
def execute (e : Engine) (p : Program) (store : σ) : Except OutOfRange (Outcome σ) := do
  let e := e.reset
  match e.loadFrom store with
  | (.error error, store) => return { result := .error error, engine := e, program := p, store }
  | (.ok presets, store) =>
    let (report, r) ← (e.loadPresets presets).process p
    let decided ← r.engine.exportPresets r.program
    match PresetStore.trySave decided e.policy.settings.forceRegenerate store with
    | (.error error, store) =>
      return { result := .error error, engine := r.engine, program := r.program, store }
    | (.ok saved, store) =>
      let kept := if saved then [] else [.presetsKept decided.size]
      return {
        result := .ok { report with diagnostics := report.diagnostics ++ kept }
        engine := { r.engine with presets := r.engine.presets.clear }
        program := r.program
        store := PresetStore.clear store }

end Engine
end Renamer
