import Renamer.Proofs.Disks
import Renamer.Proofs.RoundTrip
import Renamer.Store.Memory

/-!
# Calls of a store

A store shows itself in what it answers when it is called. `ContractStore` does what `PresetStore`
asks for and no more: it knows whether anything has been saved. A map file knows that, too, since
then there is a file. A store in memory does not. It takes presets without an entry for nothing,
also where they were saved, and lets others replace them.

`MemoryStore.compare` follows a store in memory up to the first call at which that shows.
-/

namespace Renamer

/-! ## Calls -/

/-- What a store is asked to do. -/
inductive StoreCall where
  | load
  | save (presets : Presets) (force : Bool)
  | clear

/-- What a store answers. -/
inductive StoreAnswer where
  /-- These are the presets stored. -/
  | loaded (presets : Presets)
  /-- The presets were stored or not. -/
  | saved (stored : Bool)
  | cleared
  deriving DecidableEq

/-- A store that does what is asked of one. -/
structure ContractStore where
  /-- What was saved last, if anything was. -/
  content : Option Presets := none

instance : PresetStore ContractStore where
  tryLoad s := (.ok (s.content.getD {}), s)
  trySave presets force s :=
    if !force && s.content.isSome then (.ok false, s) else (.ok true, { content := some presets })
  clear s := s

namespace StoreCall

variable {σ τ : Type} [PresetStore σ] [PresetStore τ]

/-- Calls a store. -/
def run (s : σ) : StoreCall → Except StoreError StoreAnswer × σ
  | load =>
    let (result, s) := PresetStore.tryLoad s
    (result.map .loaded, s)
  | save presets force =>
    let (result, s) := PresetStore.trySave presets force s
    (result.map .saved, s)
  | clear => (.ok .cleared, PresetStore.clear s)

/-- What a store answers to calls one after the other. -/
def answers (s : σ) : List StoreCall → List (Except StoreError StoreAnswer)
  | [] => []
  | call :: calls => (call.run s).1 :: answers (call.run s).2 calls

/-- The store after calls. -/
def after (s : σ) (calls : List StoreCall) : σ := calls.foldl (fun s call => (call.run s).2) s

/-- Presets that are saved can be read back from their map text. -/
def Survives : StoreCall → Prop
  | save presets _ => ∃ q, Presets.parse presets.render = .ok q ∧ q.sameEntries presets = true
  | _ => True

/-- Stores that answer every call alike, and are then as alike as before, answer alike
throughout. -/
theorem answers_eq {R : σ → τ → Prop} {calls : List StoreCall}
    (hstep : ∀ {s t} call, call ∈ calls → R s t →
      (call.run s).1 = (call.run t).1 ∧ R (call.run s).2 (call.run t).2)
    {s : σ} {t : τ} (h : R s t) : answers s calls = answers t calls := by
  induction calls generalizing s t with
  | nil => rfl
  | cons call calls ih =>
    obtain ⟨hanswer, hnext⟩ := hstep call List.mem_cons_self h
    rw [answers, answers, hanswer]
    exact congrArg _ (ih (fun call' hcall' => hstep call' (List.mem_cons_of_mem call hcall')) hnext)

end StoreCall

/-! ## Map files -/

namespace FileStore

/-- There is no file at the path of the store, and one can be written there. -/
structure Fresh (f : FileStore) : Prop where
  absent : f.disk.exists? f.file.path = false
  writable : ∀ bytes, ∃ d, f.disk.write f.file.path bytes = .ok d

/-- On an empty disk a map file can be written in the top directory. -/
theorem fresh_emptyDisk : Fresh { file := { path := "aliases.map" } } := by
  have hlocate : ({} : Disk).locate "aliases.map" = .ok ([], some "aliases.map") := by
    decide +kernel
  exact ⟨by decide +kernel, Disk.write_of_locate hlocate (by decide +kernel) (by decide +kernel)⟩

/-- The file holds what is stored; where that is nothing, there is no file. -/
structure Shows (f : FileStore) (c : ContractStore) : Prop where
  found : f.disk.exists? f.file.path = c.content.isSome
  text : ∀ {p}, c.content = some p → f.disk.readText f.file.path = .ok p.render ∧ p.Readable
  writable : ∀ bytes, ∃ d, f.disk.write f.file.path bytes = .ok d

variable {f : FileStore} {c : ContractStore}

theorem Fresh.shows (h : f.Fresh) : f.Shows {} where
  found := h.absent
  text := fun hp => by cases hp
  writable := h.writable

/-- What was read does not matter. -/
theorem Shows.of_path (h : f.Shows c) {file : MapFile} (hpath : file.path = f.file.path) :
    Shows { f with file } c where
  found := by simpa only [hpath] using h.found
  text := fun hp => by simpa only [hpath] using h.text hp
  writable := by simpa only [hpath] using h.writable

theorem Shows.load (h : f.Shows c) :
    ∃ f', PresetStore.tryLoad f = (.ok (c.content.getD {}), f') ∧ f'.Shows c := by
  have hload : ∃ file, f.file.load f.disk = (.ok (c.content.getD {}), file) ∧
      file.path = f.file.path := by
    unfold MapFile.load
    rw [h.found]
    cases hc : c.content with
    | none => exact ⟨f.file, rfl, rfl⟩
    | some p =>
      obtain ⟨htext, hreadable⟩ := h.text hc
      refine ⟨{ f.file with loaded := some p }, ?_, rfl⟩
      rw [Option.isSome_some, Bool.not_true, if_neg Bool.false_ne_true, htext]
      dsimp only
      rw [Presets.parse_render hreadable]
      rfl
  obtain ⟨file, hload, hpath⟩ := hload
  refine ⟨{ f with file }, ?_, h.of_path hpath⟩
  dsimp only [PresetStore.tryLoad]
  rw [hload]

theorem Shows.save (h : f.Shows c) {presets : Presets} (hpresets : presets.Readable)
    (force : Bool) : ∃ stored f' c', PresetStore.trySave presets force f = (.ok stored, f') ∧
      PresetStore.trySave presets force c = (.ok stored, c') ∧ f'.Shows c' := by
  cases hkeep : !force && c.content.isSome with
  | true =>
    refine ⟨false, f, c, ?_, if_pos hkeep, h⟩
    dsimp only [PresetStore.trySave]
    rw [MapFile.save, h.found, hkeep]
    rfl
  | false =>
    obtain ⟨d, hd⟩ := h.writable presets.render.toUTF8
    have hdrop : ¬ (!force && c.content.isSome) = true := Bool.eq_false_iff.mp hkeep
    refine ⟨true, { f with disk := d }, { content := some presets }, ?_, if_neg hdrop, ?_⟩
    · dsimp only [PresetStore.trySave]
      rw [MapFile.save, h.found, if_neg hdrop, hd]
    · exact ⟨Disk.exists?_write hd,
        fun hp => Option.some.inj hp ▸ ⟨Disk.readText_write hd, hpresets⟩, Disk.write_again hd⟩

/-- A map file answers a call as asked, and goes on showing what is stored. -/
theorem Shows.run (h : f.Shows c) {call : StoreCall} (hcall : call.Survives) :
    (call.run f).1 = (call.run c).1 ∧ (call.run f).2.Shows (call.run c).2 := by
  cases call with
  | load =>
    obtain ⟨f', hload, hshows⟩ := h.load
    rw [StoreCall.run, hload]
    exact ⟨rfl, hshows⟩
  | save presets force =>
    obtain ⟨stored, f', c', hsave, hcontract, hshows⟩ :=
      h.save (Presets.readable_iff.mpr hcall) force
    rw [StoreCall.run, StoreCall.run, hsave, hcontract]
    exact ⟨rfl, hshows⟩
  | clear => exact ⟨rfl, h.of_path rfl⟩

/-- A map file answers as asked throughout. -/
theorem Fresh.answers_eq (h : f.Fresh) {calls : List StoreCall}
    (hcalls : ∀ call ∈ calls, call.Survives) :
    StoreCall.answers f calls = StoreCall.answers ({} : ContractStore) calls :=
  StoreCall.answers_eq (fun call hcall hshows => hshows.run (hcalls call hcall)) h.shows

end FileStore

/-! ## Stores in memory -/

namespace StoreCall

/-- The call saves presets without force where presets without an entry are stored. -/
def OverEmpty (c : ContractStore) (call : StoreCall) : Prop :=
  ∃ presets q, call = save presets false ∧ c.content = some q ∧ q.isEmpty = true

/-- There is such a call among calls. -/
def SavesOverEmpty (c : ContractStore) (calls : List StoreCall) : Prop :=
  ∃ earlier call later, calls = earlier ++ call :: later ∧ OverEmpty (after c earlier) call

variable {c : ContractStore} {call : StoreCall} {calls : List StoreCall}

theorem not_savesOverEmpty_nil : ¬ SavesOverEmpty c [] := by
  rintro ⟨earlier, call, later, hcalls, -⟩
  cases earlier <;> cases hcalls

theorem savesOverEmpty_cons : SavesOverEmpty c (call :: calls) ↔
    OverEmpty c call ∨ SavesOverEmpty (call.run c).2 calls := by
  constructor
  · rintro ⟨earlier, call', later, hcalls, hover⟩
    cases earlier with
    | nil =>
      cases hcalls
      exact Or.inl hover
    | cons first earlier =>
      cases hcalls
      exact Or.inr ⟨earlier, call', later, rfl, hover⟩
  · rintro (hover | ⟨earlier, call', later, rfl, hover⟩)
    · exact ⟨[], call, calls, rfl, hover⟩
    · exact ⟨call :: earlier, call', later, rfl, hover⟩

end StoreCall

namespace MemoryStore

open StoreCall (answers OverEmpty SavesOverEmpty)

variable {m : MemoryStore} {c : ContractStore} {call : StoreCall}

/-- Any other call is answered as asked. -/
theorem run_eq (h : m.stored = c.content.getD {}) (hcall : ¬ OverEmpty c call) :
    (call.run m).1 = (call.run c).1 ∧ (call.run m).2.stored = (call.run c).2.content.getD {} := by
  cases call with
  | load => exact ⟨congrArg (fun p => Except.ok (StoreAnswer.loaded p)) h, h⟩
  | clear => exact ⟨rfl, h⟩
  | save presets force =>
    have hkeep : (!force && !m.stored.isEmpty) = (!force && c.content.isSome) := by
      rw [h]
      cases force with
      | true => rfl
      | false =>
        cases hc : c.content with
        | none => rfl
        | some q =>
          -- what is stored has an entry
          have hentry : ¬ q.isEmpty = true := fun hempty => hcall ⟨presets, q, rfl, hc, hempty⟩
          rw [Option.getD_some, Bool.eq_false_iff.mpr hentry]
          rfl
    rw [StoreCall.run, StoreCall.run]
    dsimp only [PresetStore.trySave, save]
    rw [hkeep]
    split
    · exact ⟨rfl, h⟩
    · exact ⟨rfl, rfl⟩

/-- Such a call replaces what is stored, though it should not. -/
theorem run_of_overEmpty (h : m.stored = c.content.getD {}) (hcall : OverEmpty c call) :
    (call.run m).1 = .ok (.saved true) ∧ (call.run c).1 = .ok (.saved false) := by
  obtain ⟨presets, q, rfl, hq, hempty⟩ := hcall
  rw [hq, Option.getD_some] at h
  rw [StoreCall.run, StoreCall.run]
  dsimp only [PresetStore.trySave, save]
  rw [h, hq, hempty]
  exact ⟨rfl, rfl⟩

/-- A store in memory answers as asked throughout, or up to the first call that saves presets
without force where presets without an entry are stored. -/
theorem compare (h : m.stored = c.content.getD {}) (calls : List StoreCall) :
    (answers m calls = answers c calls ∧ ¬ SavesOverEmpty c calls) ∨
      (SavesOverEmpty c calls ∧ ∃ k : Nat, (answers m calls)[k]? = some (.ok (.saved true)) ∧
        (answers c calls)[k]? = some (.ok (.saved false))) := by
  induction calls generalizing m c with
  | nil => exact Or.inl ⟨rfl, StoreCall.not_savesOverEmpty_nil⟩
  | cons call calls ih =>
    rw [StoreCall.savesOverEmpty_cons, answers, answers]
    by_cases hcall : OverEmpty c call
    · obtain ⟨hm, hc⟩ := run_of_overEmpty h hcall
      exact Or.inr ⟨Or.inl hcall, 0, congrArg some hm, congrArg some hc⟩
    · obtain ⟨hanswer, hnext⟩ := run_eq h hcall
      rcases ih hnext with ⟨heq, hnone⟩ | ⟨hsaves, k, hm, hc⟩
      · refine Or.inl ⟨by rw [hanswer, heq], ?_⟩
        rintro (hover | hsaves)
        · exact hcall hover
        · exact hnone hsaves
      · exact Or.inr ⟨Or.inr hsaves, k + 1, hm, hc⟩

end MemoryStore

/-! ## Both stores -/

namespace StoreCall

/-- Called alike, a new store in memory and a new map file answer alike exactly if no presets are
saved without force where presets without an entry are stored. The map file then keeps what is
stored, and the store in memory replaces it. All calls of the map file succeed. -/
theorem answers_memory_iff (f : FileStore) (hf : f.Fresh) (calls : List StoreCall)
    (hcalls : ∀ call ∈ calls, call.Survives) :
    answers f calls = answers ({} : ContractStore) calls ∧
      (answers ({} : MemoryStore) calls = answers f calls ↔ ¬ SavesOverEmpty {} calls) ∧
      (SavesOverEmpty {} calls → ∃ k : Nat,
        (answers ({} : MemoryStore) calls)[k]? = some (.ok (.saved true)) ∧
          (answers f calls)[k]? = some (.ok (.saved false))) := by
  have hfile := hf.answers_eq hcalls
  rw [hfile]
  refine ⟨rfl, ?_⟩
  rcases MemoryStore.compare (m := {}) (c := {}) rfl calls with ⟨heq, hnone⟩ | ⟨hsaves, k, hm, hc⟩
  · exact ⟨iff_of_true heq hnone, fun hsaves => absurd hsaves hnone⟩
  · refine ⟨iff_of_false (fun heq => ?_) (not_not_intro hsaves), fun _ => ⟨k, hm, hc⟩⟩
    -- the two answers at the place `k` are different
    rw [heq, hc] at hm
    cases hm

/-- An entry that has been saved is kept, unless presets without an entry are saved with force;
these are replaced with force. -/
theorem answers_memory_forced :
    ∃ (f : FileStore) (p : Presets), f.Fresh ∧ p.types.toList = [("a", "b")] ∧
      answers ({} : MemoryStore)
          [save p false, save {} false, load, save {} true, clear, save p true, load] =
        answers f [save p false, save {} false, load, save {} true, clear, save p true, load] := by
  let p : Presets := { types := { toList := [("a", "b")], nodup_keys := by decide } }
  have hp : ∀ force, (save p force).Survives := fun force =>
    ⟨p, by decide +kernel, by decide +kernel⟩
  have hempty : ∀ force, (save {} force).Survives := fun force =>
    ⟨{}, by decide +kernel, by decide +kernel⟩
  have hentry : p.isEmpty = false := rfl
  have hload : load.Survives := trivial
  have hclear : clear.Survives := trivial
  have hfresh := FileStore.fresh_emptyDisk
  refine ⟨_, p, hfresh, rfl, (answers_memory_iff _ hfresh _ ?_).2.1.mpr ?_⟩
  · simp [hp, hempty, hload, hclear]
  · -- the one unforced save over something stored is over an entry
    simp [savesOverEmpty_cons, OverEmpty, not_savesOverEmpty_nil, run, PresetStore.trySave, hentry]

/-- The second call finds presets without an entry. The store in memory replaces them, and the map
file does not. -/
theorem answers_memory_ne : ∃ (f : FileStore) (p : Presets), f.Fresh ∧
    (∀ call ∈ [save {} false, save p false], call.Survives) ∧
    answers ({} : MemoryStore) [save {} false, save p false] =
      [.ok (.saved true), .ok (.saved true)] ∧
    answers f [save {} false, save p false] = [.ok (.saved true), .ok (.saved false)] := by
  let p : Presets := { types := { toList := [("a", "b")], nodup_keys := by decide } }
  have hp : (save p false).Survives := ⟨p, by decide +kernel, by decide +kernel⟩
  have hempty : (save {} false).Survives := ⟨{}, by decide +kernel, by decide +kernel⟩
  refine ⟨_, p, FileStore.fresh_emptyDisk, ?_, ?_, ?_⟩
  · simp [hp, hempty]
  · decide +kernel
  · decide +kernel

end StoreCall
end Renamer
