import Renamer.Proofs.Construction
import Renamer.Proofs.Tables
import Renamer.Store.MapFile

/-!
# Files written and read

What was written to a path is read from it afterwards. The write leaves the way to the file as it
was: it changes one location, which was no directory before, so that no way went through it.
-/

namespace Renamer

namespace Disk

variable {d d' : Disk} {l place target : Location} {path : String} {bytes : ByteArray}

/-- The disks differ at most at the location `l`, where `d` has no directory. -/
structure SameBut (l : Location) (d d' : Disk) : Prop where
  others : ∀ l', l' ≠ l → d'.entryAt l' = d.entryAt l'
  plain : d.entryAt l ≠ some .directory

theorem SameBut.enter (h : SameBut l d d') {name : String}
    (henter : d.enter place name = .ok target) :
    d'.enter place name = .ok target := by
  unfold Disk.enter at henter ⊢
  split at henter
  · rename_i hdot
    rw [if_pos hdot]
    exact henter
  · rename_i hdot
    rw [if_neg hdot]
    split at henter
    · rename_i hdots
      rw [if_pos hdots]
      exact henter
    · rename_i hdots
      rw [if_neg hdots]
      -- what is entered is a directory, and so not at `l`
      have hne : place ++ [name] ≠ l := by
        intro heq
        rw [heq] at henter
        split at henter
        · rename_i hentry
          exact h.plain hentry
        · cases henter
        · cases henter
      rw [h.others _ hne]
      exact henter

theorem SameBut.walk (h : SameBut l d d') {names : List String}
    (hwalk : names.foldlM d.enter place = .ok target) :
    names.foldlM d'.enter place = .ok target := by
  induction names generalizing place with
  | nil => exact hwalk
  | cons name names ih =>
    rw [List.foldlM_cons] at hwalk ⊢
    rcases bind_eq_ok.mp hwalk with ⟨next, henter, hrest⟩
    exact bind_eq_ok.mpr ⟨next, h.enter henter, ih hrest⟩

theorem SameBut.locate (h : SameBut l d d') {name : String}
    (hlocate : d.locate path = .ok (place, some name)) :
    d'.locate path = .ok (place, some name) := by
  unfold Disk.locate at hlocate ⊢
  dsimp only at hlocate ⊢
  split at hlocate
  · cases hlocate
  · split at hlocate
    · rcases bind_eq_ok.mp hlocate with ⟨target, -, heq⟩
      cases heq
    · rename_i hdots
      rcases bind_eq_ok.mp hlocate with ⟨target, hwalk, heq⟩
      cases heq
      rw [if_neg hdots]
      exact bind_eq_ok.mpr ⟨place, h.walk hwalk, rfl⟩

/-- A write puts a file at the one location that its path leads to, where no directory is. -/
theorem write_eq_ok (h : d.write path bytes = .ok d') :
    ∃ place name, d.locate path = .ok (place, some name) ∧ endsInSlash path = false ∧
      SameBut (place ++ [name]) d d' ∧ d'.entryAt (place ++ [name]) = some (.file bytes) := by
  unfold Disk.write at h
  rcases bind_eq_ok.mp h with ⟨⟨place, last⟩, hlocate, hwrite⟩
  cases last with
  | none => cases hwrite
  | some name =>
    dsimp only at hwrite
    split at hwrite
    · cases hwrite
    · rename_i hfile
      cases hwrite
      rw [Bool.or_eq_true, not_or, decide_eq_true_iff, Bool.not_eq_true] at hfile
      have htop : ¬ (place ++ [name]).isTop = true := by
        intro htop
        refine hfile.2 ?_
        rw [Disk.entryAt, if_pos htop]
      refine ⟨place, name, hlocate, hfile.1, ⟨fun l' hl' => ?_, hfile.2⟩, ?_⟩
      · unfold Disk.entryAt
        rw [Table.get?_insert, if_neg (Ne.symm hl')]
      · rw [Disk.entryAt, if_neg htop, Table.get?_insert, if_pos rfl]

/-- What was written is found. -/
theorem lookup_write (h : d.write path bytes = .ok d') : d'.lookup path = .ok (.file bytes) := by
  rcases write_eq_ok h with ⟨place, name, hlocate, hslash, hsame, hentry⟩
  unfold Disk.lookup
  refine bind_eq_ok.mpr ⟨_, hsame.locate hlocate, ?_⟩
  dsimp only
  rw [hentry, hslash]
  rfl

theorem exists?_write (h : d.write path bytes = .ok d') : d'.exists? path = true := by
  rw [Disk.exists?, lookup_write h]
  rfl

/-- A file can be written where a path leads to a name that is not that of a directory. -/
theorem write_of_locate {name : String} (hlocate : d.locate path = .ok (place, some name))
    (hslash : endsInSlash path = false) (hentry : d.entryAt (place ++ [name]) ≠ some .directory)
    (bytes : ByteArray) : ∃ d', d.write path bytes = .ok d' := by
  refine ⟨{ d with entries := d.entries.insert (place ++ [name]) (.file bytes) }, ?_⟩
  unfold Disk.write
  refine bind_eq_ok.mpr ⟨_, hlocate, ?_⟩
  dsimp only
  rw [hslash, Bool.false_or, decide_eq_false hentry, if_neg Bool.false_ne_true]
  rfl

/-- Where a file was written, another one can be written in its place. -/
theorem write_again (h : d.write path bytes = .ok d') (bytes' : ByteArray) :
    ∃ d'', d'.write path bytes' = .ok d'' := by
  rcases write_eq_ok h with ⟨place, name, hlocate, hslash, hsame, hentry⟩
  refine write_of_locate (hsame.locate hlocate) hslash ?_ bytes'
  rw [hentry]
  exact fun heq => DiskEntry.noConfusion (Option.some.inj heq)

/-- A text that was written is read. -/
theorem readText_write {text : String} (h : d.write path text.toUTF8 = .ok d') :
    d'.readText path = .ok text := by
  have hbytes : String.fromUTF8? text.toUTF8 = some text := dif_pos text.isValidUTF8
  unfold Disk.readText
  refine bind_eq_ok.mpr ⟨_, lookup_write h, ?_⟩
  dsimp only
  rw [hbytes]
  rfl

end Disk

namespace MapFile

variable {f f' : MapFile} {d d' : Disk} {presets : Presets} {force : Bool}

/-- What was saved to a path is loaded from there, if the text can be read. -/
theorem load_save (h : f.save presets force d = (.ok true, d')) (hpath : f'.path = f.path) :
    (f'.load d').1 = (Presets.parse presets.render).mapError .malformed := by
  have hwrite : d.write f'.path presets.render.toUTF8 = .ok d' := by
    rw [hpath]
    unfold save at h
    split at h
    · cases h
    · split at h
      · cases h
      · rename_i hwritten
        cases h
        exact hwritten
  rw [load, Disk.exists?_write hwrite, Bool.not_true, if_neg Bool.false_ne_true,
    Disk.readText_write hwrite]
  dsimp only
  cases Presets.parse presets.render <;> rfl

end MapFile

/-- The same holds of a map file together with its disk, also when it has forgotten what it read. -/
theorem FileStore.load_save {s s' : FileStore} {presets : Presets} {force : Bool}
    (h : PresetStore.save presets force s = .ok (true, s')) :
    (PresetStore.load (PresetStore.clear s')).map Prod.fst =
      (Presets.parse presets.render).mapError .malformed := by
  have hsave : ((s.file.save presets force s.disk).1,
      { s with disk := (s.file.save presets force s.disk).2 }) = (Except.ok true, s') :=
    PresetStore.save_eq_ok_iff.mp h
  obtain ⟨hstored, rfl⟩ := Prod.mk.inj hsave
  rw [PresetStore.map_fst_load]
  exact MapFile.load_save (Prod.ext hstored rfl) rfl

end Renamer
