import Renamer.Presets.MapText

/-!
# Stores of presets

A store keeps presets from one run to the next. `PresetStore` is what a run asks of it: load
before the run, save after it, and drop what it holds in memory. A call that fails leaves some
store behind, too; where that is always the store from before, it is a `LawfulPresetStore`.
-/

namespace Renamer

/-- Why a file could not be read or written. -/
inductive FileFault where
  /-- There is no such file, or no directory to put it into. -/
  | notFound
  /-- The path is that of a directory. -/
  | isDirectory
  /-- The path goes through a file as if it were a directory. -/
  | notDirectory
  /-- The file is not a text in UTF-8. -/
  | notText
  deriving DecidableEq, Repr

/-- The fault as the system words it. -/
def FileFault.text : FileFault → String
  | .notFound => "No such file or directory (os error 2)"
  | .isDirectory => "Is a directory (os error 21)"
  | .notDirectory => "Not a directory (os error 20)"
  | .notText => "stream did not contain valid UTF-8"

/-- Why presets could not be loaded or saved. -/
inductive StoreError where
  /-- The stored text has a line that is no entry. -/
  | malformed (fault : MalformedLine)
  /-- The file at `path` could not be read or written. -/
  | file (path : String) (fault : FileFault)
  deriving DecidableEq, Repr

/-- The error as it is shown. -/
def StoreError.message : StoreError → String
  | .malformed fault => fault.message
  | .file path fault => "failed to access preset file " ++ path ++ ": " ++ fault.text

/-- Keeps presets from one run to the next. Calls answer the store that they leave behind beside
what they come to, also where they fail. -/
class PresetStore (σ : Type) where
  /-- Reads the stored presets; where nothing is stored they are empty. -/
  tryLoad : σ → Except StoreError Presets × σ
  /-- Stores presets, in place of others only where `force` is set. Answers whether they were
  stored. -/
  trySave : (presets : Presets) → (force : Bool) → σ → Except StoreError Bool × σ
  /-- Drops what is held in memory; what is stored stays. -/
  clear : σ → σ

/-- A load or a save that fails leaves the store as it was. -/
class LawfulPresetStore (σ : Type) [PresetStore σ] : Prop where
  load_of_error : ∀ {s : σ} {fault : StoreError},
    (PresetStore.tryLoad s).1 = .error fault → (PresetStore.tryLoad s).2 = s
  save_of_error : ∀ {presets : Presets} {force : Bool} {s : σ} {fault : StoreError},
    (PresetStore.trySave presets force s).1 = .error fault →
      (PresetStore.trySave presets force s).2 = s

namespace PresetStore

variable {σ : Type} [PresetStore σ]

/-- What a load that succeeds reads, with the store that it leaves behind. -/
def load (s : σ) : Except StoreError (Presets × σ) :=
  (tryLoad s).1.map fun presets => (presets, (tryLoad s).2)

/-- What a save that succeeds answers, with the store that it leaves behind. -/
def save (presets : Presets) (force : Bool) (s : σ) : Except StoreError (Bool × σ) :=
  (trySave presets force s).1.map fun stored => (stored, (trySave presets force s).2)

@[simp] theorem map_fst_load (s : σ) : (load s).map Prod.fst = (tryLoad s).1 := by
  unfold load
  cases (tryLoad s).1 <;> rfl

theorem save_eq_ok_iff {presets : Presets} {force stored : Bool} {s s' : σ} :
    save presets force s = .ok (stored, s') ↔ trySave presets force s = (.ok stored, s') := by
  unfold save
  rcases trySave presets force s with ⟨result, left⟩
  cases result <;> simp [Except.map]

end PresetStore

end Renamer
