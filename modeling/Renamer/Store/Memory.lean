import Renamer.Store.Basic

/-!
# Presets in memory

A store without a file behind it. Nothing it does can fail.
-/

namespace Renamer

/-- Presets kept in memory. -/
structure MemoryStore where
  /-- What is stored. -/
  stored : Presets := {}
  /-- What the last load handed out. -/
  loaded : Option Presets := none
  deriving DecidableEq, Inhabited

namespace MemoryStore

/-- Hands out what is stored. -/
def load (s : MemoryStore) : Presets × MemoryStore := (s.stored, { s with loaded := some s.stored })

/-- Stores presets unless there are others and `force` is not set. -/
def save (s : MemoryStore) (presets : Presets) (force : Bool) : Bool × MemoryStore :=
  if !force && !s.stored.isEmpty then (false, s) else (true, { s with stored := presets })

/-- Forgets what was handed out. -/
def clear (s : MemoryStore) : MemoryStore := { s with loaded := none }

instance : PresetStore MemoryStore where
  tryLoad s := (.ok s.load.1, s.load.2)
  trySave presets force s := (.ok (s.save presets force).1, (s.save presets force).2)
  clear := clear

instance : LawfulPresetStore MemoryStore where
  load_of_error h := nomatch h
  save_of_error h := nomatch h

end MemoryStore
end Renamer
