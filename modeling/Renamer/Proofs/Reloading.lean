import Renamer.Engine.Execute
import Renamer.Proofs.Disks
import Renamer.Proofs.Exports
import Renamer.Proofs.RoundTrip
import Renamer.Proofs.Writable

/-!
# Saved and loaded again

What a run without presets exports is a table of aliases that can be written. Whether the map text
of it is read back is thus a matter of the identities alone: they are put together from declared
names, which may hold whatever a text can hold, and are written as they are.

`Engine.saved_reloads_iff` says which identities are read back.
-/

namespace Renamer

/-! ## Aliases in map text -/

/-- A name that can be written can stand on one side of an entry. -/
theorem Ident.Writable.isHalf {name : String} (h : Writable name) : Presets.IsHalf name := by
  have hblank : ∀ c ∈ name.toList, Text.isBlank c = false := by
    intro c hc
    have hrange := h.printable c hc
    simp only [Text.isBlank, Bool.or_eq_false_iff, Bool.and_eq_false_iff, decide_eq_false_iff_not,
      beq_eq_false_iff_ne]
    omega
  refine ⟨(writable_iff.mp h).1, Text.trim_eq_self_iff.mpr ⟨?_, ?_⟩, ?_⟩
  · exact fun c hc => hblank c (List.mem_of_mem_head? hc)
  · exact fun c hc => hblank c (List.mem_of_mem_getLast? hc)
  · exact fun hc => absurd (hblank '\n' hc) (by decide)

namespace Presets

/-- Every identity is read back. -/
def IdentitiesReadable (p : Presets) : Prop :=
  ∀ s, ∀ identity ∈ (p.table s).keys, IsIdentity identity

instance (p : Presets) : Decidable p.IdentitiesReadable :=
  decidable_of_iff (∀ s ∈ Section.all, ∀ identity ∈ (p.table s).keys, IsIdentity identity)
    ⟨fun h s => h s (by cases s <;> decide), fun h s _ => h s⟩

/-- Where aliases can be written, it is the identities that decide whether presets are read back. -/
theorem readable_iff_identities {p : Presets}
    (h : ∀ s, ∀ e ∈ (p.table s).toList, Ident.Writable e.2) :
    p.Readable ↔ p.IdentitiesReadable := by
  constructor
  · intro hreadable s identity hidentity
    rcases List.mem_map.mp hidentity with ⟨e, he, rfl⟩
    exact (hreadable s e he).identity
  · intro hidentities s e he
    exact ⟨hidentities s e.1 (List.mem_map_of_mem he), (h s e he).isHalf⟩

end Presets

/-! ## Runs -/

namespace Program

/-- A type whose name holds an equals sign between blanks. -/
def equated : Program where
  types := ⟨#[{ package := "", shortName := "a = b", fullName := "a = b" }]⟩

theorem built_equated : equated.Built := Built.empty.addType { shortName := "a = b" }

end Program

namespace Engine

/-- The aliases that a run without presets exports can be written. -/
theorem writable_saved {p : Program} (hp : p.Built) (e : Engine)
    (hjava : e.policy.classifier = Classifier.java) (s : Section) (entry : String × String)
    (hentry : entry ∈ (((e.reset.bound p).unified.engine.saved p).table s).toList) :
    Ident.Writable entry.2 := by
  have hends : Run.Ends p e.policy (e.reset.bound p).unified := (ends_process hp e hjava {}).2
  rcases Run.answers_bound p e.unused_reset hjava with ⟨hanswers, hbound⟩
  have hgrouped := grouped_bound hp.wellFormed e.unused_reset.groups
  have hempty := (Run.settled_bound e p).aliasOf_unified_ne_empty hanswers hbound hgrouped hjava
  generalize (e.reset.bound p).unified = r at *
  apply (Policy.accepts_iff_writable hjava).mp
  -- the aliases of symbols are not empty, and so may be written
  have hsymbols : ∀ kind, entry ∈ p.entriesFor (r.engine.decided kind) →
      e.policy.accepts entry.2 = true := by
    intro kind hmem
    rcases exists_of_mem_entriesFor hmem with ⟨a, name, -, halias, rfl⟩
    by_cases htype : a.kind = .types
    · exact hends.answers.types htype halias
    · exact hends.accepts htype halias fun hname => hempty a (halias.trans (congrArg some hname))
  cases s with
  | packages =>
    rcases hends.sound.mem_aliased_iff.mp (Table.mem_of_mem_ofList hentry) with ⟨a, ha, -⟩
    exact hends.sound.usable ha
  | types => exact hsymbols .types (Table.mem_of_mem_ofList hentry)
  | fields => exact hsymbols .fields (Table.mem_of_mem_ofList hentry)
  | methods => exact hsymbols .methods (Table.mem_of_mem_ofList hentry)

/-- A run with a store, where loading succeeds: what was exported is saved in the end. -/
theorem execute_eq {σ : Type} [PresetStore σ] {p : Program} {e : Engine} {store loaded : σ}
    {presets saved : Presets} {report : Report} {r : Run}
    (hload : e.reset.loadFrom store = (.ok presets, loaded))
    (hrun : (e.reset.loadPresets presets).process p = .ok (report, r))
    (hexport : r.engine.exportPresets r.program = .ok saved) :
    e.execute p store = .ok
      (match PresetStore.trySave saved e.policy.settings.forceRegenerate loaded with
      | (.error fault, store) =>
        { result := .error fault, engine := r.engine, program := r.program, store }
      | (.ok stored, store) => {
        result := .ok { report with diagnostics := report.diagnostics ++
          if stored then [] else [.presetsKept saved.size] }
        engine := { r.engine with presets := {} }
        program := r.program
        store := PresetStore.clear store }) := by
  unfold execute
  dsimp only
  rw [hload]
  refine bind_eq_ok.mpr ⟨_, hrun, bind_eq_ok.mpr ⟨_, hexport, ?_⟩⟩
  dsimp only [reset]
  rcases PresetStore.trySave saved e.policy.settings.forceRegenerate loaded with ⟨result, store⟩
  cases result <;> rfl

/-- Nothing is loaded from a map file that is not there. -/
theorem loadFrom_absent (e : Engine) {store : FileStore}
    (habsent : store.disk.exists? store.file.path = false) :
    e.loadFrom store = (.ok {}, store) := by
  have hload : store.file.load store.disk = (.ok {}, store.file) := by
    rw [MapFile.load, habsent]
    rfl
  unfold loadFrom
  split
  · rfl
  · dsimp only [PresetStore.tryLoad]
    rw [hload]

/-- A map file that is not there is not kept as it is. -/
theorem save_absent {store store' : FileStore} {presets : Presets} {force stored : Bool}
    (habsent : store.disk.exists? store.file.path = false)
    (hsave : PresetStore.trySave presets force store = (.ok stored, store')) : stored = true := by
  have hfile : (store.file.save presets force store.disk).1 = .ok stored :=
    congrArg Prod.fst hsave
  unfold MapFile.save at hfile
  rw [habsent, Bool.and_false, if_neg Bool.false_ne_true] at hfile
  split at hfile
  · cases hfile
  · cases hfile
    rfl

/-- What a run without presets exports is read back from its map text exactly if every identity
is read back; then it is read back with the order of its entries. What a map file loads after such a
run is what is read from the text. -/
theorem saved_reloads_iff (p : Program) (hp : p.Built) (hid : p.DistinctIdentities) (e : Engine)
    (hjava : e.policy.classifier = Classifier.java) :
    ∃ report r saved, e.reset.process p = .ok (report, r) ∧
      r.engine.exportPresets r.program = .ok saved ∧
      ((∃ q, Presets.parse saved.render = .ok q ∧ q.sameEntries saved = true) ↔
        saved.IdentitiesReadable) ∧
      (saved.IdentitiesReadable → Presets.parse saved.render = .ok saved) ∧
      ∀ store : FileStore, store.disk.exists? store.file.path = false →
        ∃ o, e.execute p store = .ok o ∧ (o.result.isOk = true →
          (PresetStore.load o.store).map Prod.fst =
            (Presets.parse saved.render).mapError .malformed) := by
  rcases ends_process hp e hjava {} with ⟨⟨report, hrun⟩, hends⟩
  -- loading no presets changes nothing
  change e.reset.process p = .ok (report, (e.reset.bound p).unified) at hrun
  change Run.Ends p e.policy (e.reset.bound p).unified at hends
  have hexport := (hends.exports hp.wellFormed hid).1
  have hreadable := Presets.readable_iff_identities (writable_saved hp e hjava)
  refine ⟨report, _, _, hrun, hexport, ?_, fun h => Presets.parse_render (hreadable.mpr h), ?_⟩
  · rw [← hreadable]
    exact Presets.readable_iff.symm
  · intro store habsent
    refine ⟨_, execute_eq (loadFrom_absent e.reset habsent) hrun hexport, fun hok => ?_⟩
    rcases hsave : PresetStore.trySave ((e.reset.bound p).unified.engine.saved p)
        e.policy.settings.forceRegenerate store with ⟨result, s⟩
    rw [hsave] at hok
    cases result with
    | error fault => cases hok
    | ok stored =>
      rw [save_absent habsent hsave] at hsave
      exact FileStore.load_save (PresetStore.save_eq_ok_iff.mpr hsave)

/-- The type is exported under its name, and read back under the first letter of it. -/
theorem saved_reloads_equated : Program.equated.Built ∧ Program.equated.DistinctIdentities ∧
    ∃ report r saved q, ({} : Engine).reset.process Program.equated = .ok (report, r) ∧
      r.engine.exportPresets r.program = .ok saved ∧ saved.types.toList = [("a = b", "a")] ∧
      Presets.parse saved.render = .ok q ∧ q.types.toList = [("a", "b = a")] ∧
      q.sameEntries saved = false := by
  have hbuilt := Program.built_equated
  rcases process_eq_ok (e := ({} : Engine).reset) hbuilt.wellFormed rfl with ⟨report, hrun⟩
  exact ⟨hbuilt, by decide +kernel, report, _,
    { types := { toList := [("a = b", "a")], nodup_keys := by decide } },
    { types := { toList := [("a", "b = a")], nodup_keys := by decide } }, hrun,
    by decide +kernel, rfl, by decide +kernel, rfl, by decide +kernel⟩

/-- What the crowded program exports is read back, from its map text and from a map file. -/
theorem saved_reloads_crowded : Program.crowded.Built ∧ Program.crowded.DistinctIdentities ∧
    ∃ report r saved o, ({} : Engine).reset.process Program.crowded = .ok (report, r) ∧
      r.engine.exportPresets r.program = .ok saved ∧ saved.size = 5 ∧
      Presets.parse saved.render = .ok saved ∧
      ({} : Engine).execute Program.crowded ({ file := { path := "names.map" } } : FileStore) =
        .ok o ∧
      (PresetStore.load o.store).map Prod.fst = .ok saved := by
  have hbuilt := Program.built_crowded
  have hid : Program.crowded.DistinctIdentities := by decide +kernel
  have hexport := ((ends_process hbuilt {} rfl {}).2.exports hbuilt.wellFormed hid).1
  rcases process_eq_ok (e := ({} : Engine).reset) hbuilt.wellFormed rfl with ⟨report, hrun⟩
  rcases saved_reloads_iff Program.crowded hbuilt hid {} rfl with
    ⟨report', r, saved, hrun', hexport', -, hback, hfile⟩
  rw [hrun] at hrun'
  cases hrun'
  have hsaved := Except.ok.inj (hexport.symm.trans hexport')
  subst hsaved
  have hreadable : Presets.IdentitiesReadable
      ((({} : Engine).reset.bound Program.crowded).unified.engine.saved Program.crowded) := by
    decide +kernel
  rcases hfile { file := { path := "names.map" } } (by decide +kernel) with ⟨o, ho, hload⟩
  have hok : (({} : Engine).execute Program.crowded
      ({ file := { path := "names.map" } } : FileStore)).toOption.map
        (fun o => o.result.isOk) = some true := by
    decide +kernel
  rw [ho] at hok
  refine ⟨hbuilt, hid, report, _, _, o, hrun, hexport', by decide +kernel, hback hreadable, ho, ?_⟩
  rw [hload (Option.some.inj hok), hback hreadable]
  rfl

end Engine
end Renamer
