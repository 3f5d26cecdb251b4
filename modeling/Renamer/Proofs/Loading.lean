import Renamer.Proofs.Aliases

/-!
# Engines that have loaded presets

Loading puts package presets into the tree and keeps the others for the run. Nothing is decided by
it, so that such an engine starts a run as one that was reset does.
-/

namespace Renamer
namespace Engine

/-- The engine has decided nothing, except for aliases of packages. -/
structure Unused (e : Engine) : Prop where
  types : e.types = {}
  fields : e.fields = {}
  methods : e.methods = {}
  taken : e.taken = {}
  groups : e.groups = {}
  discovered : e.discovered = false
  root : e.packages.Has []

theorem unused_reset (e : Engine) : e.reset.Unused :=
  ⟨rfl, rfl, rfl, rfl, rfl, rfl, ⟨⟨0⟩, { path := [] }, rfl, rfl⟩⟩

theorem Unused.aliasOf_eq_none {e : Engine} (h : e.Unused) (s : SymbolId) :
    e.aliasOf s = none := by
  cases s with
  | type id =>
    show (e.types.get? id).map (·.newName) = none
    rw [h.types]
    rfl
  | field id =>
    show e.fields.get? id = none
    rw [h.fields]
    rfl
  | method id =>
    show e.methods.get? id = none
    rw [h.methods]
    rfl

/-- What a package preset changes. -/
theorem loadPackage_eq (e : Engine) (entry : String × String) :
    ∃ packages source findings, e.loadPackage entry = { e with packages, source, findings } := by
  unfold loadPackage usableOr
  dsimp only
  split
  · exact ⟨_, _, _, rfl⟩
  · exact ⟨_, _, _, rfl⟩

theorem has_loadPackage (e : Engine) (entry : String × String) {path : PackagePath}
    (h : e.packages.Has path) : (e.loadPackage entry).packages.Has path := by
  have hcreate := h.create (PackagePath.ofText entry.1)
  unfold loadPackage usableOr
  dsimp only
  split
  · exact hcreate.assign _ _
  · exact hcreate.assign _ _

theorem Unused.loadPackage {e : Engine} (h : e.Unused) (entry : String × String) :
    (e.loadPackage entry).Unused := by
  have hroot := has_loadPackage e entry h.root
  rcases e.loadPackage_eq entry with ⟨packages, source, findings, heq⟩
  rw [heq] at hroot ⊢
  exact ⟨h.types, h.fields, h.methods, h.taken, h.groups, h.discovered, hroot⟩

theorem Unused.loadPresets {e : Engine} (h : e.Unused) (presets : Presets) :
    (e.loadPresets presets).Unused := by
  have hall : (presets.packages.toList.foldl Engine.loadPackage e).Unused := by
    apply List.foldlRecOn (motive := Unused)
    · exact h
    · exact fun e' he' entry _ => he'.loadPackage entry
  exact ⟨hall.types, hall.fields, hall.methods, hall.taken, hall.groups, hall.discovered, hall.root⟩

/-- Loading keeps the policy. -/
theorem policy_loadPresets (e : Engine) (presets : Presets) :
    (e.loadPresets presets).policy = e.policy := by
  show (presets.packages.toList.foldl Engine.loadPackage e).policy = e.policy
  apply List.foldlRecOn (motive := fun e' : Engine => e'.policy = e.policy)
  · rfl
  · intro e' he' entry _
    rcases e'.loadPackage_eq entry with ⟨packages, source, findings, heq⟩
    rw [heq]
    exact he'

end Engine
end Renamer
