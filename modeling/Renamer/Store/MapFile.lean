import Renamer.Store.Disk

/-!
# Presets in a map file

A store that keeps presets as map text in a file. Until the file is there, nothing is stored.
-/

namespace Renamer

/-- The file that presets are kept in. -/
structure MapFile where
  /-- Where the file is. -/
  path : String
  /-- What the last load that found a file handed out. -/
  loaded : Option Presets := none
  deriving DecidableEq, Inhabited

namespace MapFile

/-- Reads the file; where there is none, the presets are empty. -/
def load (f : MapFile) (d : Disk) : Except StoreError Presets × MapFile :=
  if !d.exists? f.path then (.ok {}, f)
  else match d.readText f.path with
    | .error fault => (.error (.file f.path fault), f)
    | .ok text =>
      match Presets.parse text with
      | .error fault => (.error (.malformed fault), f)
      | .ok presets => (.ok presets, { f with loaded := some presets })

/-- Writes the file unless there is one and `force` is not set. -/
def save (f : MapFile) (presets : Presets) (force : Bool) (d : Disk) :
    Except StoreError Bool × Disk :=
  if !force && d.exists? f.path then (.ok false, d)
  else match d.write f.path presets.render.toUTF8 with
    | .error fault => (.error (.file f.path fault), d)
    | .ok d => (.ok true, d)

/-- Forgets what was read. -/
def clear (f : MapFile) : MapFile := { f with loaded := none }

end MapFile

/-- A map file together with the disk it is on. -/
structure FileStore where
  /-- The map file. -/
  file : MapFile
  /-- The disk. -/
  disk : Disk := {}
  deriving DecidableEq, Inhabited

instance : PresetStore FileStore where
  tryLoad s :=
    let (result, file) := s.file.load s.disk
    (result, { s with file })
  trySave presets force s :=
    let (result, disk) := s.file.save presets force s.disk
    (result, { s with disk })
  clear s := { s with file := s.file.clear }

/-! ## Failures -/

namespace MapFile

/-- A file that cannot be read, or whose text is no map text, is not taken for loaded. -/
theorem load_of_error {f : MapFile} {d : Disk} {fault : StoreError}
    (h : (f.load d).1 = .error fault) : (f.load d).2 = f := by
  unfold load at h ⊢
  by_cases hmissing : (!d.exists? f.path) = true
  · rw [if_pos hmissing]
  · rw [if_neg hmissing] at h ⊢
    split at h
    · rfl
    · split at h
      · rfl
      · cases h

/-- A file that cannot be written changes nothing on the disk. -/
theorem save_of_error {f : MapFile} {presets : Presets} {force : Bool} {d : Disk}
    {fault : StoreError} (h : (f.save presets force d).1 = .error fault) :
    (f.save presets force d).2 = d := by
  unfold save at h ⊢
  by_cases hkeep : (!force && d.exists? f.path) = true
  · rw [if_pos hkeep]
  · rw [if_neg hkeep] at h ⊢
    split at h
    · rfl
    · cases h

end MapFile

instance : LawfulPresetStore FileStore where
  load_of_error {s _} h := congrArg (fun file => { s with file }) (MapFile.load_of_error h)
  save_of_error {_ _ s _} h := congrArg (fun disk => { s with disk }) (MapFile.save_of_error h)

end Renamer
