import Renamer.Proofs.PresetSteps
import Renamer.Proofs.Uniqueness

/-!
# Presets and drawn names

The name of a preset is taken when the run comes to its symbol, and not before. So a symbol that is
decided earlier in the same scope can draw that very name. Where presets agree with one another and
with the declared names, this is the one way in which two symbols of a scope can end with one name.

* `Program.Consistent` says that presets agree with one another and with the declared names.
* `Program.Forestalls` is the clash of a drawn name with a later preset.
* `Run.Allotted` is the invariant: what two symbols hold in common is such a clash.
-/

namespace Renamer

namespace Program

/-! ## Consistent presets -/

/-- What a symbol takes under its declared name and under its preset. -/
def stakes (p : Program) (presets : Presets) (s : SymbolId) : List (Scope × String) :=
  ((p.nameOf s).toList ++ (p.presetOf presets s).toList).filterMap fun name => p.spot name s

/-- No two symbols of a scope have a declared name or a preset in common. -/
def Consistent (p : Program) (presets : Presets) : Prop :=
  ∀ a ∈ p.walk, ∀ b ∈ p.walk, a ≠ b → ∀ x ∈ p.stakes presets a, x ∉ p.stakes presets b

instance (p : Program) (presets : Presets) : Decidable (p.Consistent presets) :=
  inferInstanceAs (Decidable (∀ a ∈ p.walk, ∀ b ∈ p.walk, a ≠ b →
    ∀ x ∈ p.stakes presets a, x ∉ p.stakes presets b))

/-- `a` has no preset and comes before `b`, whose preset takes the spot `x`. -/
structure Forestalls (p : Program) (presets : Presets) (a b : SymbolId) (x : Scope × String) :
    Prop where
  none : p.presetOf presets a = none
  precedes : p.Precedes a b
  preset : ∃ name, p.presetOf presets b = some name ∧ p.spot name b = some x

/-- One of two symbols forestalls the other at the spot `x`. -/
def Clash (p : Program) (presets : Presets) (a b : SymbolId) (x : Scope × String) : Prop :=
  p.Forestalls presets a b x ∨ p.Forestalls presets b a x

variable {p : Program} {presets : Presets} {a b : SymbolId} {x : Scope × String} {name : String}

theorem mem_stakes_of_nameOf (hname : p.nameOf a = some name) (hx : p.spot name a = some x) :
    x ∈ p.stakes presets a :=
  List.mem_filterMap.mpr ⟨name, List.mem_append_left _ (by rw [hname]; simp), hx⟩

theorem mem_stakes_of_presetOf (hname : p.presetOf presets a = some name)
    (hx : p.spot name a = some x) : x ∈ p.stakes presets a :=
  List.mem_filterMap.mpr ⟨name, List.mem_append_right _ (by rw [hname]; simp), hx⟩

/-- Whoever takes a spot is a symbol of the program. -/
theorem mem_walk_of_spot (hp : p.WellFormed) (hx : p.spot name a = some x) : a ∈ p.walk := by
  cases a with
  | type id =>
    rcases Option.map_eq_some_iff.mp hx with ⟨t, ht, -⟩
    exact mem_walk_type ht
  | field id =>
    rcases Option.map_eq_some_iff.mp hx with ⟨f, hf, -⟩
    exact mem_walk_field hp hf
  | method id =>
    rcases Option.map_eq_some_iff.mp hx with ⟨m, hm, -⟩
    exact mem_walk_method hp hm

/-- What two symbols have a stake in makes them one. -/
theorem Consistent.eq (h : p.Consistent presets) (ha : a ∈ p.walk) (hb : b ∈ p.walk)
    (hxa : x ∈ p.stakes presets a) (hxb : x ∈ p.stakes presets b) : a = b := by
  by_contra hab
  exact h a ha b hb hab x hxa hxb

/-- Consistent presets presuppose distinct names. -/
theorem Consistent.distinctNames (h : p.Consistent presets) (hp : p.WellFormed) :
    p.DistinctNames := by
  have hne : ∀ {a b : SymbolId} {m n : String} {x : Scope × String}, a ≠ b →
      p.nameOf a = some m → p.nameOf b = some n → p.spot m a = some x → p.spot n b ≠ some x := by
    intro a b m n x hab hm hn hx hx'
    exact hab (h.eq (mem_walk_of_spot hp hx) (mem_walk_of_spot hp hx')
      (mem_stakes_of_nameOf hm hx) (mem_stakes_of_nameOf hn hx'))
  constructor
  · intro i j s t hs ht hij hscope hname
    have hsShown : p.ShowsType i s := ⟨s, hs, rfl⟩
    have htShown : p.ShowsType j t := ⟨t, ht, rfl⟩
    refine hne (fun heq => hij (SymbolId.type.inj heq)) hsShown.nameOf htShown.nameOf
      (hsShown.spot _) ?_
    rw [htShown.spot, hscope, hname]
  · intro i j f g hf hg hij howner hname
    have hfShown : p.ShowsField i f := ⟨f, hf, rfl⟩
    have hgShown : p.ShowsField j g := ⟨g, hg, rfl⟩
    refine hne (fun heq => hij (SymbolId.field.inj heq)) hfShown.nameOf hgShown.nameOf
      (hfShown.spot _) ?_
    rw [hgShown.spot, FieldSymbol.scope, FieldSymbol.scope, howner, hname]
  · intro i j m n hm hn hij howner hkey
    have hmShown : p.ShowsMethod i m := ⟨m, hm, rfl⟩
    have hnShown : p.ShowsMethod j n := ⟨n, hn, rfl⟩
    refine hne (fun heq => hij (SymbolId.method.inj heq)) hmShown.nameOf hnShown.nameOf
      (hmShown.spot _) ?_
    rw [hnShown.spot, MethodSymbol.scope, MethodSymbol.scope, howner]
    exact congrArg (fun key => some (Scope.methods n.owner, key)) hkey.symm

end Program

namespace Run

/-! ## The invariant -/

/-- What holds of the aliases of a run with the presets `presets`, when the symbols `done` have been
decided. -/
structure Allotted (p : Program) (presets : Presets) (done : List SymbolId) (r : Run) : Prop where
  declared : r.program.declared = p.declared
  loaded : ∀ s, p.presetOf r.engine.presets s = p.presetOf presets s
  usable : ∀ {s name}, p.presetOf presets s = some name → r.engine.policy.accepts name = true
  declares_taken : ∀ {x}, p.Declares x → x ∈ r.engine.taken.pairs
  known : ∀ {s name}, r.engine.aliasOf s = some name → ∃ x, p.spot name s = some x
  passed : ∀ {s name}, r.engine.aliasOf s = some name → s ∈ done
  taken : ∀ {s x}, r.Holds p s x → x ∈ r.engine.taken.pairs
  source : ∀ {s name}, r.engine.aliasOf s = some name → p.presetOf presets s = some name ∨
    p.presetOf presets s = none ∧ ∀ x, p.spot name s = some x → ¬ p.Declares x
  apart : ∀ {a b x}, r.Holds p a x → r.Holds p b x → a ≠ b →
    p.Clash presets a b x
  hasDigit : ∀ {ty name}, r.engine.aliasOf (.type ty) = some name → Ident.hasDigit name = false
  bound : ∀ {s name}, r.program.boundAlias s = some name → r.engine.aliasOf s = some name

variable {p : Program} {presets : Presets} {done rest : List SymbolId} {r r' : Run}
  {s : SymbolId}

theorem Allotted.leaves (h : Allotted p presets done r) (hl : r.Leaves r')
    (hbound : ∀ {s name}, r'.program.boundAlias s = some name → r.engine.aliasOf s = some name) :
    Allotted p presets done r' := by
  constructor
  · rw [hl.declared, h.declared]
  · intro s
    rw [hl.presets, h.loaded]
  · intro s name hname
    rw [hl.policy]
    exact h.usable hname
  · intro x hx
    rw [hl.taken]
    exact h.declares_taken hx
  · intro s name hname
    rw [hl.aliases] at hname
    exact h.known hname
  · intro s name hname
    rw [hl.aliases] at hname
    exact h.passed hname
  · intro s x hx
    rw [hl.taken]
    exact h.taken (hx.of_aliases hl.aliases)
  · intro s name hname
    rw [hl.aliases] at hname
    exact h.source hname
  · exact fun ha hb => h.apart (ha.of_aliases hl.aliases) (hb.of_aliases hl.aliases)
  · intro ty name hname
    rw [hl.aliases] at hname
    exact h.hasDigit hname
  · intro s name hname
    rw [hl.aliases]
    exact hbound hname

/-- A symbol is given the name `name`. What is asked is that the name is a preset or new, and that
whoever holds the same spot is forestalled by the preset or forestalls it. -/
theorem Allotted.assigns (h : Allotted p presets done r) {name : String}
    (ha : r.Assigns p s name r') {done' : List SymbolId} (hdone : ∀ s' ∈ done, s' ∈ done')
    (hs : s ∈ done')
    (hsource : p.presetOf presets s = some name ∨
      p.presetOf presets s = none ∧ ∀ x, p.spot name s = some x → ¬ p.Declares x)
    (hapart : ∀ {b x}, p.spot name s = some x → r.Holds p b x → b ≠ s →
      p.Forestalls presets b s x)
    (hdigit : Ident.hasDigit name = false)
    (hbound : ∀ {s name}, r'.program.boundAlias s = some name → r'.engine.aliasOf s = some name) :
    Allotted p presets done' r' := by
  rcases ha.taken with ⟨x, hspot, htaken⟩
  constructor
  · rw [ha.declared, h.declared]
  · intro a
    rw [ha.presets, h.loaded]
  · intro a name' hname'
    rw [ha.policy]
    exact h.usable hname'
  · intro y hy
    exact (htaken y).mpr (Or.inl (h.declares_taken hy))
  · intro a name' hname'
    rcases aliasOf_cases ha.aliases hname' with ⟨rfl, rfl⟩ | ⟨-, hold⟩
    · exact ⟨x, hspot⟩
    · exact h.known hold
  · intro a name' hname'
    rcases aliasOf_cases ha.aliases hname' with ⟨rfl, -⟩ | ⟨-, hold⟩
    · exact hs
    · exact hdone a (h.passed hold)
  · intro a y hy
    rw [htaken]
    rcases holds_cases ha.aliases hspot hy with ⟨-, hyx⟩ | ⟨-, hold⟩
    · exact Or.inr hyx
    · exact Or.inl (h.taken hold)
  · intro a name' hname'
    rcases aliasOf_cases ha.aliases hname' with ⟨rfl, rfl⟩ | ⟨-, hold⟩
    · exact hsource
    · exact h.source hold
  · intro a b y hay hby hab
    rcases holds_cases ha.aliases hspot hay with ⟨has, rfl⟩ | ⟨has, hay⟩
    · rcases holds_cases ha.aliases hspot hby with ⟨hbs, -⟩ | ⟨hbs, hby⟩
      · exact absurd (has.trans hbs.symm) hab
      · exact has ▸ Or.inr (hapart hspot hby hbs)
    · rcases holds_cases ha.aliases hspot hby with ⟨hbs, rfl⟩ | ⟨-, hby⟩
      · exact hbs ▸ Or.inl (hapart hspot hay has)
      · exact h.apart hay hby hab
  · intro ty name' hname'
    rcases aliasOf_cases ha.aliases hname' with ⟨-, rfl⟩ | ⟨-, hold⟩
    · exact hdigit
    · exact h.hasDigit hold
  · exact hbound

/-- Nobody holds a spot that is free, so that a fresh name clashes with none. -/
theorem Allotted.fresh (h : Allotted p presets done r) {name : String}
    (hfresh : r.IsFresh p s name) (ha : r.Assigns p s name r') {done' : List SymbolId}
    (hdone : ∀ s' ∈ done, s' ∈ done') (hs : s ∈ done')
    (hunusable : ∀ preset, p.presetOf presets s = some preset →
      r.engine.policy.accepts preset = false)
    (hbound : ∀ {s name}, r'.program.boundAlias s = some name → r'.engine.aliasOf s = some name) :
    Allotted p presets done' r' := by
  have hnone : p.presetOf presets s = none := by
    cases hpreset : p.presetOf presets s with
    | none => rfl
    | some preset =>
      have hfalse := hunusable preset hpreset
      rw [h.usable hpreset] at hfalse
      cases hfalse
  refine h.assigns ha hdone hs (Or.inr ⟨hnone, fun x hx hdeclares => ?_⟩)
    (fun hx hb _ => ?_) hfresh.hasDigit hbound
  · exact hfresh.free x hx (h.declares_taken hdeclares)
  · exact absurd (h.taken hb) (hfresh.free _ hx)

/-- Deciding a symbol keeps the invariant: a preset can meet names drawn before, nothing else. -/
theorem Allotted.decides (h : Allotted p presets done r) (hp : p.WellFormed)
    (hc : p.Consistent presets) (hwalk : p.walk = done ++ s :: rest) (hd : Decides p s r r') :
    Allotted p presets (done ++ [s]) r' := by
  have hdone : ∀ s' ∈ done, s' ∈ done ++ [s] := fun s' hs' => List.mem_append_left _ hs'
  have hs : s ∈ done ++ [s] := List.mem_append_right _ List.mem_cons_self
  -- nothing is bound while aliases are decided, or it is bound to a symbol decided before
  have hbound : ∀ {name r'}, r.Assigns p s name r' → r.SameBound r' →
      ∀ {s' name'}, r'.program.boundAlias s' = some name' →
        r'.engine.aliasOf s' = some name' := by
    intro name r' ha hb s' name' hname'
    rw [hb] at hname'
    have hold := h.bound hname'
    have hne : s' ≠ s := fun heq => Program.notMem_of_walk hwalk (heq ▸ h.passed hold)
    rw [ha.aliases, if_neg hne]
    exact hold
  cases hd with
  | keep _ =>
    exact { h with passed := fun hname => hdone _ (h.passed hname) }
  | @preset _ name hpreset _ ha hb _ =>
    rw [h.loaded] at hpreset
    refine h.assigns ha hdone hs (Or.inl hpreset) (fun {b x} hx hholds hbs => ?_)
      (Policy.hasDigit_of_accepts (h.usable hpreset)) (hbound ha hb)
    rcases hholds with ⟨name', hname', hx'⟩
    rcases h.source hname' with hother | ⟨hnone, -⟩
    · -- presets are consistent
      exact absurd (hc.eq (Program.mem_walk_of_spot hp hx') (Program.mem_walk_of_spot hp hx)
        (Program.mem_stakes_of_presetOf hother hx')
        (Program.mem_stakes_of_presetOf hpreset hx)) hbs
    · exact ⟨hnone, Program.precedes_of_walk hwalk (h.passed hname'), name, hpreset, hx⟩
  | fresh hneeds hfresh ha hb =>
    refine h.fresh hfresh ha hdone hs (fun preset hpreset => ?_) (hbound ha hb)
    rw [← h.loaded] at hpreset
    exact hneeds.unusable hpreset

/-- Binding a symbol keeps it too: no preset is replaced. -/
theorem Allotted.binds (h : Allotted p presets done r) (hb : Binds p s r r') :
    Allotted p presets done r' := by
  cases hb with
  | skip _ => exact h
  | bind halias _ _ hl hbound _ =>
    refine h.leaves hl fun {s' name'} hname' => ?_
    rw [hbound] at hname'
    split at hname'
    · rename_i hs'
      rw [hs', halias]
      exact hname'
    · exact h.bound hname'
  | redraw halias _ hrefused hfresh ha hbound =>
    refine h.fresh hfresh ha (fun _ hs' => hs') (h.passed halias) (fun preset hpreset => ?_)
      fun {s' name'} hname' => ?_
    · -- a preset would be the alias itself
      rcases h.source halias with hsource | ⟨hnone, -⟩
      · rw [hpreset] at hsource
        cases hsource
        exact hrefused
      · rw [hpreset] at hnone
        cases hnone
    · rw [hbound] at hname'
      rw [ha.aliases]
      split at hname'
      · rename_i hs'
        rw [if_pos hs']
        exact hname'
      · rename_i hs'
        rw [if_neg hs']
        exact h.bound hname'

/-! ## The passes -/

theorem allotted_seed {e : Engine} (he : e.Unused) (p : Program)
    (hpresets : ∀ s, p.presetOf e.presets s = p.presetOf presets s)
    (husable : ∀ {s name}, p.presetOf presets s = some name → e.policy.accepts name = true) :
    Allotted p presets [] { engine := e.seed p.clearAliases, program := p.clearAliases } := by
  have hnone : ∀ s, (e.seed p.clearAliases).aliasOf s = none := fun s =>
    (aliasOf_seed e p.clearAliases s).trans (he.aliasOf_eq_none s)
  have hholds : ∀ {s x}, ¬ Run.Holds p
      { engine := e.seed p.clearAliases, program := p.clearAliases } s x := by
    intro s x hx
    rcases hx with ⟨name, hname, -⟩
    rw [hnone] at hname
    cases hname
  have hno : ∀ {s name}, ¬ (e.seed p.clearAliases).aliasOf s = some name := by
    intro s name hname
    rw [hnone] at hname
    cases hname
  refine ⟨?_, ?_, ?_, ?_, ?_, ?_, ?_, ?_, ?_, ?_, ?_⟩
  · exact Program.declared_clearAliases
  · exact hpresets
  · exact husable
  · exact fun hx => TakenNames.mem_seed_of_declares
      (hx.of_declared Program.declared_clearAliases.symm)
  · exact fun hname => absurd hname hno
  · exact fun hname => absurd hname hno
  · exact fun hx => absurd hx hholds
  · exact fun hname => absurd hname hno
  · exact fun hx => absurd hx hholds
  · exact fun hname => absurd hname hno
  · intro s name hname
    rw [Program.boundAlias_clearAliases] at hname
    cases hname

theorem keeps_allotted_deciding (hp : p.WellFormed) (hc : p.Consistent presets) :
    Pass.deciding.Keeps p (Allotted p presets) := by
  apply Pass.keeps_deciding
  case hdeclared => exact fun h => h.declared
  case htype =>
    intro done rest r ty t hwalk ht h
    have hpackage := h.leaves (leaves_decidePackage r t) h.bound
    exact hpackage.decides hp hc hwalk (decides_decideType ht)
  case hmember => exact fun hwalk _ hd _ h => h.decides hp hc hwalk hd
  case hlink => exact fun hl hb _ _ h => h.leaves hl fun hname => h.bound (hb _ ▸ hname)

theorem keeps_allotted_binding (p : Program) (presets : Presets) :
    Pass.binding.Keeps p fun _ => Allotted p presets p.walk := by
  apply Pass.keeps_binding
  case hdeclared => exact fun h => h.declared
  case htype =>
    intro done rest r ty t _ _ h
    rcases leaves_applyType r ty t with ⟨hl, hb, -⟩
    exact h.leaves hl fun hname => h.bound (hb _ ▸ hname)
  case hmember => exact fun _ _ hb _ h => h.binds hb

/-- The invariant holds when all has been decided. -/
theorem allotted_discover (hp : p.WellFormed) (hc : p.Consistent presets) {e : Engine}
    (he : e.Unused) (hpresets : ∀ s, p.presetOf e.presets s = p.presetOf presets s)
    (husable : ∀ {s name}, p.presetOf presets s = some name → e.policy.accepts name = true) :
    Allotted p presets p.walk (Run.discover { engine := e, program := p.clearAliases }) := by
  rcases (keeps_allotted_deciding hp hc).discover (allotted_seed he p hpresets husable) with
    ⟨r, hr, heq⟩
  rw [heq]
  exact hr.leaves (leaves_discovered r) hr.bound

/-- It holds when all aliases are bound. -/
theorem allotted_bound (hp : p.WellFormed) (hc : p.Consistent presets) {e : Engine}
    (he : e.Unused) (hpresets : ∀ s, p.presetOf e.presets s = p.presetOf presets s)
    (husable : ∀ {s name}, p.presetOf presets s = some name → e.policy.accepts name = true) :
    Allotted p presets p.walk (e.bound p) :=
  (keeps_allotted_binding p presets).apply (allotted_discover hp hc he hpresets husable)

/-! ## Clashes -/

/-- The symbol `s` takes the spot `x` under its declared name or its alias. -/
def Occupies (p : Program) (r : Run) (s : SymbolId) (x : Scope × String) : Prop :=
  (∃ name, p.nameOf s = some name ∧ p.spot name s = some x) ∨ r.Holds p s x

/-- Two symbols take one spot only where the preset of one of them comes too late. -/
theorem Allotted.clash (h : Allotted p presets done r) (hp : p.WellFormed)
    (hc : p.Consistent presets) {a b : SymbolId} {x : Scope × String} (hab : a ≠ b)
    (ha : r.Occupies p a x) (hb : r.Occupies p b x) : p.Clash presets a b x := by
  -- a declared name is neither another declared name nor an alias
  have hdeclared : ∀ {a b}, a ≠ b → (∃ name, p.nameOf a = some name ∧ p.spot name a = some x) →
      ¬ r.Occupies p b x := by
    intro a b hab ha hb
    rcases ha with ⟨m, hm, hxm⟩
    have hstake : x ∈ p.stakes presets a := Program.mem_stakes_of_nameOf hm hxm
    rcases hb with ⟨n, hn, hxn⟩ | ⟨n, hn, hxn⟩
    · exact hab (hc.eq (Program.mem_walk_of_spot hp hxm) (Program.mem_walk_of_spot hp hxn) hstake
        (Program.mem_stakes_of_nameOf hn hxn))
    · rcases h.source hn with hpreset | ⟨-, hnew⟩
      · exact hab (hc.eq (Program.mem_walk_of_spot hp hxm) (Program.mem_walk_of_spot hp hxn) hstake
          (Program.mem_stakes_of_presetOf hpreset hxn))
      · exact hnew x hxn ⟨a, m, hm, hxm⟩
  rcases ha with hdecl | hholds
  · exact absurd hb (hdeclared hab hdecl)
  · rcases hb with hdecl | hholds'
    · exact absurd (Or.inr hholds) (hdeclared hab.symm hdecl)
    · exact h.apart hholds hholds' hab

/-- A type takes its scope under the last part of its name. -/
theorem occupies_type {ty : TypeId} {t : TypeSymbol} (ht : p.types.get? ty = some t) :
    r.Occupies p (.type ty) (t.scope, r.engine.lastPart ty t) := by
  have hshown : p.ShowsType ty t := ⟨t, ht, rfl⟩
  unfold Engine.lastPart
  cases hname : r.engine.typeAlias ty with
  | none => exact Or.inl ⟨t.shortName, hshown.nameOf, hshown.spot _⟩
  | some name => exact Or.inr ⟨name, hname, hshown.spot name⟩

theorem Allotted.occupies_field (h : Allotted p presets done r) {id : FieldId} {f : FieldSymbol}
    (hf : r.program.fields.get? id = some f) :
    r.Occupies p (.field id) (f.scope, f.finalName) := by
  have hshown : p.ShowsField id f := Program.field_of_declared h.declared hf
  unfold FieldSymbol.finalName
  cases hname : f.newName with
  | none => exact Or.inl ⟨f.name, hshown.nameOf, hshown.spot _⟩
  | some name =>
    have halias : r.program.boundAlias (.field id) = some name := by
      rw [Program.boundAlias, hf]
      exact hname
    exact Or.inr ⟨name, h.bound halias, hshown.spot name⟩

theorem Allotted.occupies_method (h : Allotted p presets done r) {id : MethodId}
    {m : MethodSymbol} (hm : r.program.methods.get? id = some m) :
    r.Occupies p (.method id) (m.scope, m.finalKey) := by
  have hshown : p.ShowsMethod id m := Program.method_of_declared h.declared hm
  unfold MethodSymbol.finalKey MethodSymbol.finalName
  cases hname : m.newName with
  | none => exact Or.inl ⟨m.name, hshown.nameOf, hshown.spot _⟩
  | some name =>
    have halias : r.program.boundAlias (.method id) = some name := by
      rw [Program.boundAlias, hm]
      exact hname
    exact Or.inr ⟨name, h.bound halias, hshown.spot name⟩

/-- What a symbol occupies is taken. -/
theorem Allotted.taken_of_occupies (h : Allotted p presets done r) {x : Scope × String}
    (hx : r.Occupies p s x) : x ∈ r.engine.taken.pairs := by
  rcases hx with ⟨name, hname, hspot⟩ | hholds
  · exact h.declares_taken ⟨s, name, hname, hspot⟩
  · exact h.taken hholds

end Run
end Renamer
