import Renamer.Proofs.Endings

/-!
# Presets that are heeded

Whatever words a run draws, and whatever symbols come first: when all aliases are bound, a symbol
whose preset can be used has that preset, and a symbol without preset whose declared name may stay
has no alias (`Run.Heeds`). A package that has an alias when the run begins, or needs none, stays as
it is (`Run.LeavesPackages`).

Both hold before groups of methods are unified, which can give a method another alias.
-/

namespace Renamer

namespace Engine

/-- The engine has the preset `name` for the symbol `s`, and can use it. Of a member the empty one
can be used, too: it binds nothing. -/
structure Adopts (e : Engine) (p : Program) (s : SymbolId) (name : String) : Prop where
  preset : p.presetOf e.presets s = some name
  usable : e.policy.accepts name = true ∨ s.kind ≠ .types ∧ name = ""

/-- The engine has no preset for the symbol `s`, whose declared name may stay. -/
structure LetsBe (e : Engine) (p : Program) (s : SymbolId) : Prop where
  preset : p.presetOf e.presets s = none
  kept : ∀ {name}, p.nameOf s = some name → e.rejects name = false

end Engine

namespace Run

variable {p : Program} {e : Engine} {done rest : List SymbolId} {r r' : Run} {s : SymbolId}

/-- What holds of a run of the engine `e`, when the symbols `done` have been decided. -/
structure Heeds (p : Program) (e : Engine) (done : List SymbolId) (r : Run) : Prop where
  declared : r.program.declared = p.declared
  policy : r.engine.policy = e.policy
  presets : r.engine.presets = e.presets
  passed : ∀ {s name}, r.engine.aliasOf s = some name → s ∈ done
  adopted : ∀ {s name}, s ∈ done → e.Adopts p s name → r.engine.aliasOf s = some name
  spared : ∀ {s}, e.LetsBe p s → r.engine.aliasOf s = none

theorem Heeds.leaves (h : Heeds p e done r) (hl : r.Leaves r') : Heeds p e done r' where
  declared := hl.declared.trans h.declared
  policy := hl.policy.trans h.policy
  presets := hl.presets.trans h.presets
  passed := fun {s name} hname => h.passed (by rwa [hl.aliases] at hname)
  adopted := fun {s name} hs hadopts => (hl.aliases s).trans (h.adopted hs hadopts)
  spared := fun {s} hspares => (hl.aliases s).trans (h.spared hspares)

/-- A symbol is given an alias, which is its preset unless that cannot be used, and which it needs
if it has none. -/
theorem Heeds.assigns (h : Heeds p e done r) {name : String} (ha : r.Assigns p s name r')
    {done' : List SymbolId} (hdone : ∀ s', s' ∈ done' ↔ s' ∈ done ∨ s' = s)
    (hadopts : ∀ {preset}, e.Adopts p s preset → preset = name) (hneeds : ¬ e.LetsBe p s) :
    Heeds p e done' r' := by
  refine ⟨ha.declared.trans h.declared, ha.policy.trans h.policy, ha.presets.trans h.presets,
    fun {s' name'} hname' => ?_, fun {s' name'} hs' hadopts' => ?_, fun {s'} hspares => ?_⟩
  · rcases aliasOf_cases ha.aliases hname' with ⟨rfl, -⟩ | ⟨-, hold⟩
    · exact (hdone _).mpr (Or.inr rfl)
    · exact (hdone _).mpr (Or.inl (h.passed hold))
  · rw [ha.aliases]
    split
    · rename_i heq
      exact congrArg some (hadopts (heq ▸ hadopts')).symm
    · rename_i hne
      exact h.adopted (((hdone s').mp hs').resolve_right hne) hadopts'
  · rw [ha.aliases]
    split
    · rename_i heq
      exact absurd (heq ▸ hspares) hneeds
    · exact h.spared hspares

/-- Deciding a symbol heeds its preset. -/
theorem Heeds.decides (h : Heeds p e done r) (hwalk : p.walk = done ++ s :: rest)
    (hd : Decides p s r r') : Heeds p e (done ++ [s]) r' := by
  have hdone : ∀ s', s' ∈ done ++ [s] ↔ s' ∈ done ∨ s' = s := fun _ =>
    List.mem_append.trans (or_congr_right List.mem_singleton)
  cases hd with
  | keep hwhy =>
    refine { h with passed := fun hname => (hdone _).mpr (Or.inl (h.passed hname)), adopted := ?_ }
    intro s' name hs' hadopts
    rcases (hdone s').mp hs' with hold | heq
    · exact h.adopted hold hadopts
    · rw [heq] at hadopts
      rcases hwhy with hsome | ⟨hnone, -⟩
      · -- the symbol has not been passed
        rcases Option.isSome_iff_exists.mp hsome with ⟨name', hname'⟩
        exact absurd (h.passed hname') (Program.notMem_of_walk hwalk)
      · rw [h.presets, hadopts.preset] at hnone
        cases hnone
  | preset hpreset _ ha _ _ =>
    rw [h.presets] at hpreset
    refine h.assigns ha hdone (fun hadopts => ?_) fun hspares => ?_
    · exact Option.some.inj (hadopts.preset.symm.trans hpreset)
    · cases hspares.preset.symm.trans hpreset
  | fresh hneeds hfresh ha _ =>
    refine h.assigns ha hdone (fun hadopts => ?_) fun hspares => ?_
    · -- a preset is passed over only where it cannot be used
      have hpreset := hadopts.preset
      rw [← h.presets] at hpreset
      rcases hneeds with ⟨hnone, -⟩ | ⟨hkind, preset, hpreset', hrefused⟩
      · cases hnone.symm.trans hpreset
      · cases hpreset'.symm.trans hpreset
        rw [h.policy] at hrefused
        rcases hadopts.usable with haccepts | ⟨hmember, -⟩
        · rw [hrefused] at haccepts
          cases haccepts
        · exact absurd hkind hmember
    · have hnone := hspares.preset
      rw [← h.presets] at hnone
      rcases hneeds with ⟨-, name, hname, hrejects⟩ | ⟨-, preset, hpreset, -⟩
      · have hkept := hspares.kept hname
        rw [Engine.rejects, ← h.policy, ← Engine.rejects, hrejects] at hkept
        cases hkept
      · cases hnone.symm.trans hpreset

/-- Binding replaces no preset that can be used. -/
theorem Heeds.binds (h : Heeds p e p.walk r) (hs : s ∈ p.walk) (hb : Binds p s r r') :
    Heeds p e p.walk r' := by
  cases hb with
  | skip _ => exact h
  | bind _ _ _ hl _ _ => exact h.leaves hl
  | redraw halias hne hrefused _ ha _ =>
    refine h.assigns ha (fun _ => (or_iff_left_of_imp (· ▸ hs)).symm) (fun hadopts => ?_)
      fun hspares => ?_
    · cases halias.symm.trans (h.adopted hs hadopts)
      rcases hadopts.usable with haccepts | ⟨-, hempty⟩
      · rw [← h.policy, hrefused] at haccepts
        cases haccepts
      · exact absurd hempty hne
    · cases halias.symm.trans (h.spared hspares)

/-! ## Packages -/

/-- Packages that had an alias in `e`, or needed none, are as they were. -/
def LeavesPackages (e : Engine) (r : Run) : Prop :=
  ∀ a, e.packages.Covered e.policy.rejects a →
    r.engine.packages.aliasOf a = e.packages.aliasOf a

theorem LeavesPackages.of_packages (h : LeavesPackages e r)
    (hpackages : r'.engine.packages = r.engine.packages) : LeavesPackages e r' := by
  intro a ha
  rw [hpackages]
  exact h a ha

theorem LeavesPackages.decidePackage (h : LeavesPackages e r)
    (hpolicy : r.engine.policy = e.policy) (t : TypeSymbol) :
    LeavesPackages e { r with engine := r.engine.decidePackage t } := by
  let path := PackagePath.ofText t.package
  rcases r.engine.decidePackage_eq t with ⟨packages, source, hdecide, -, heq⟩
  rw [heq]
  intro a ha
  have hcovered : (r.engine.packages.create path).Covered r.engine.rejects a := by
    have hrejects : r.engine.rejects = e.policy.rejects := by
      rw [← hpolicy]
      rfl
    rw [PackageTree.covered_create, PackageTree.Covered, h a ha, hrejects]
    exact ha
  have hdecided := PackageTree.aliasOf_decide_of_covered
    (fun b hb => PackageTree.has_create_of_mem hb) hcovered r.engine.source
  rw [hdecide] at hdecided
  exact hdecided.trans ((PackageTree.aliasOf_create _ path a).trans (h a ha))

/-! ## The passes -/

theorem keeps_heeds_deciding (p : Program) (e : Engine) :
    Pass.deciding.Keeps p fun done r => Heeds p e done r ∧ LeavesPackages e r := by
  apply Pass.keeps_deciding
  case hdeclared => exact fun h => h.1.declared
  case htype =>
    intro done rest r ty t hwalk ht h
    have hd := decides_decideType (r := { r with engine := r.engine.decidePackage t }) ht
    have hpackage := h.2.decidePackage h.1.policy t
    exact ⟨(h.1.leaves (leaves_decidePackage r t)).decides hwalk hd,
      hpackage.of_packages (packages_decideType _ ty t)⟩
  case hmember =>
    intro done rest s r r' hwalk _ hd hs h
    exact ⟨h.1.decides hwalk hd, h.2.of_packages hs.packages⟩
  case hlink => exact fun hl _ _ hs h => ⟨h.1.leaves hl, h.2.of_packages hs.packages⟩

theorem keeps_heeds_binding (p : Program) (e : Engine) :
    Pass.binding.Keeps p fun _ => Heeds p e p.walk := by
  apply Pass.keeps_binding
  case hdeclared => exact fun h => h.declared
  case htype =>
    intro done rest r ty t _ _ h
    exact h.leaves (leaves_applyType r ty t).1
  case hmember =>
    intro done rest s r r' hwalk _ hb _ h
    exact h.binds (by simp [hwalk]) hb

/-- Taking all declared names and knowing all packages gives no alias to any. -/
theorem leavesPackages_seed (p : Program) (e : Engine) :
    LeavesPackages e { engine := e.seed p.clearAliases, program := p.clearAliases } := by
  intro a _
  apply List.foldlRecOn (motive := fun t : PackageTree => t.aliasOf a = e.packages.aliasOf a)
  · rfl
  · exact fun t ht u _ => (PackageTree.aliasOf_create t _ a).trans ht

/-- When all aliases are bound, presets have been heeded. -/
theorem heeds_bound (p : Program) {e : Engine} (he : e.Unused) :
    Heeds p e p.walk (e.bound p) ∧ LeavesPackages e (e.bound p) := by
  have hnone : ∀ s, (e.seed p.clearAliases).aliasOf s = none := fun s =>
    (aliasOf_seed e p.clearAliases s).trans (he.aliasOf_eq_none s)
  have hstart : Heeds p e [] { engine := e.seed p.clearAliases, program := p.clearAliases } := by
    refine ⟨Program.declared_clearAliases, rfl, rfl, fun {s name} hname => ?_,
      fun hs => absurd hs List.not_mem_nil, fun {s} _ => hnone s⟩
    rw [hnone] at hname
    cases hname
  rcases (keeps_heeds_deciding p e).discover ⟨hstart, leavesPackages_seed p e⟩ with
    ⟨r, ⟨hheeds, hpackages⟩, heq⟩
  have hdiscover : Heeds p e p.walk (Run.discover { engine := e, program := p.clearAliases }) := by
    rw [heq]
    exact hheeds.leaves (leaves_discovered r)
  refine ⟨(keeps_heeds_binding p e).apply hdiscover, hpackages.of_packages ?_⟩
  rw [Engine.bound, (alikeTypes_apply _).packages, heq]

end Run
end Renamer
