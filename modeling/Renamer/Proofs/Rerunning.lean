import Renamer.Proofs.Histories

/-!
# Engines that have run before

After a run an engine has a record of every type it has decided, with the names composed for it,
and the groups of all methods. `Engine.Rests` says what holds of an engine between two calls,
whatever these were. Then a run succeeds, and leaves the engine so again.

* `Run.Renews` is the invariant of deciding. The record of a type stays unless there is a preset for
  the type; a record that is made has no composed names.
* `Run.Completes` is the invariant of binding, after which all records have both names. A record
  that has them is not changed.
-/

namespace Renamer

namespace TypeRecord

/-- No name has been composed. -/
def Blank (x : TypeRecord) : Prop := x.chain = none ∧ x.fullName = none

/-- Both names have been composed. -/
def Complete (x : TypeRecord) : Prop := x.chain ≠ none ∧ x.fullName ≠ none

end TypeRecord

namespace Engine

/-- What holds of an engine between two calls: the groups come of methods that override one another
in `p`, and every type that was decided is a type of `p`, with its package in the tree and with both
names composed. -/
structure Rests (e : Engine) (p : Program) : Prop where
  root : e.packages.Has []
  sets : ∃ sets, e.groups = OverrideGroups.mergeAll sets ∧
    ∀ found ∈ sets, ∃ a, p.Lists a found
  package : ∀ {ty x}, e.types.get? ty = some x →
    ∃ t, p.types.get? ty = some t ∧ x.package = PackagePath.ofText t.package
  houses : ∀ {ty x}, e.types.get? ty = some x → e.packages.Has x.package
  complete : ∀ {ty x}, e.types.get? ty = some x → x.Complete

variable {e : Engine} {p q : Program}

theorem Unused.rests (h : e.Unused) (p : Program) : e.Rests p := by
  have hnone : ∀ ty, e.types.get? ty = none := by
    intro ty
    rw [h.types]
    rfl
  refine ⟨h.root, ⟨[], h.groups, by simp⟩, fun {ty x} hx => ?_, fun {ty x} hx => ?_,
    fun {ty x} hx => ?_⟩
  · cases (hnone ty).symm.trans hx
  · cases (hnone ty).symm.trans hx
  · cases (hnone ty).symm.trans hx

theorem Rests.of_declared (h : e.Rests p) (hpq : p.declared = q.declared) : e.Rests q := by
  obtain ⟨sets, hgroups, hsound⟩ := h.sets
  refine ⟨h.root, ⟨sets, hgroups, fun found hfound => ?_⟩, fun {ty x} hx => ?_, h.houses,
    h.complete⟩
  · obtain ⟨a, ha⟩ := hsound found hfound
    exact ⟨a, ha.of_declared hpq⟩
  · obtain ⟨t, ht, hpackage⟩ := h.package hx
    obtain ⟨u, hu, hut⟩ := Program.type_of_declared hpq ht
    exact ⟨u, hu, by rw [hpackage, TypeSymbol.agree hut TypeSymbol.package fun _ => rfl]⟩

/-- Loading presets changes the packages and adds to them. -/
theorem loadPresets_spares (e : Engine) (presets : Presets) :
    (e.loadPresets presets).types = e.types ∧ (e.loadPresets presets).groups = e.groups ∧
      ∀ a, e.packages.Has a → (e.loadPresets presets).packages.Has a := by
  have hall : (presets.packages.toList.foldl loadPackage e).types = e.types ∧
      (presets.packages.toList.foldl loadPackage e).groups = e.groups ∧
      ∀ a, e.packages.Has a → (presets.packages.toList.foldl loadPackage e).packages.Has a := by
    apply List.foldlRecOn (motive := fun e' : Engine => e'.types = e.types ∧
      e'.groups = e.groups ∧ ∀ a, e.packages.Has a → e'.packages.Has a)
    · exact ⟨rfl, rfl, fun _ => id⟩
    · intro e' he' entry _
      have hhas : ∀ a, e.packages.Has a → (e'.loadPackage entry).packages.Has a := fun a ha =>
        has_loadPackage e' entry (he'.2.2 a ha)
      obtain ⟨packages, source, findings, heq⟩ := e'.loadPackage_eq entry
      rw [heq] at hhas ⊢
      exact ⟨he'.1, he'.2.1, hhas⟩
  exact hall

theorem Rests.loadPresets (h : e.Rests p) (presets : Presets) :
    (e.loadPresets presets).Rests p := by
  obtain ⟨htypes, hgroups, hhas⟩ := e.loadPresets_spares presets
  obtain ⟨sets, hsets, hsound⟩ := h.sets
  refine ⟨hhas _ h.root, ⟨sets, hgroups.trans hsets, hsound⟩, fun {ty x} hx => ?_,
    fun {ty x} hx => ?_, fun {ty x} hx => ?_⟩
  · exact h.package (htypes ▸ hx)
  · exact hhas _ (h.houses (htypes ▸ hx))
  · exact h.complete (htypes ▸ hx)

/-! ## Composed names that are kept -/

theorem get?_keep_of_ne {ty ty' : TypeId} (hne : ty ≠ ty') (f : TypeRecord → TypeRecord) :
    (e.keep ty f).types.get? ty' = e.types.get? ty' := by
  unfold keep
  split
  · split
    · exact (Table.get?_insert ..).trans (if_neg hne)
    · rfl
  · rfl

/-- Names are kept with records that are there. -/
theorem keys_keep (e : Engine) (ty : TypeId) (f : TypeRecord → TypeRecord) :
    (e.keep ty f).types.keys = e.types.keys := by
  unfold keep
  split
  · split
    · rename_i x hx
      exact Table.keys_insert_of_get? hx _
    · rfl
  · rfl

theorem keys_chainName (e : Engine) (l : List (TypeId × TypeSymbol)) :
    (e.chainName l).2.types.keys = e.types.keys := by
  induction l generalizing e with
  | nil => rfl
  | cons entry outer ih =>
    obtain ⟨ty, t⟩ := entry
    rw [chainName]
    split
    · rfl
    · dsimp only
      rw [keys_keep]
      split
      · rfl
      · exact ih e

theorem keys_fullName (e : Engine) (p : Program) (ty : TypeId) (t : TypeSymbol) :
    (e.fullName p ty t).2.types.keys = e.types.keys := by
  unfold fullName
  split
  · rfl
  · exact (keys_keep _ ty _).trans (keys_chainName e _)

/-- A name without package that has been kept stays as it is, with its record. -/
theorem get?_chainName {ty : TypeId} {x : TypeRecord} (hx : e.types.get? ty = some x)
    (hchain : x.chain ≠ none) (l : List (TypeId × TypeSymbol)) :
    (e.chainName l).2.types.get? ty = some x := by
  induction l with
  | nil => exact hx
  | cons entry outer ih =>
    obtain ⟨ty', t⟩ := entry
    rw [chainName]
    split
    · exact hx
    · rename_i hnone
      have hne : ty' ≠ ty := by
        intro heq
        rw [heq, keptChain, hx] at hnone
        exact hchain hnone
      dsimp only
      rw [get?_keep_of_ne hne]
      split
      · exact hx
      · exact ih

/-- A complete record stays as it is. -/
theorem get?_fullName {ty : TypeId} {x : TypeRecord} (hx : e.types.get? ty = some x)
    (hcomplete : x.Complete) (p : Program) (ty' : TypeId) (t : TypeSymbol) :
    (e.fullName p ty' t).2.types.get? ty = some x := by
  unfold fullName
  split
  · exact hx
  · rename_i hnone
    have hne : ty' ≠ ty := by
      intro heq
      rw [heq, keptFullName, hx] at hnone
      exact hcomplete.2 hnone
    exact (get?_keep_of_ne hne _).trans (get?_chainName hx hcomplete.1 _)

/-- Where all records are complete, composing a name changes nothing. -/
theorem chainName_of_complete (h : ∀ {ty x}, e.types.get? ty = some x → x.Complete)
    (l : List (TypeId × TypeSymbol)) : (e.chainName l).2 = e := by
  have hkeep : ∀ {ty f}, e.keptChain ty = none → e.keep ty f = e := by
    intro ty f hnone
    unfold keep
    split
    · split
      · rename_i x hx
        rw [keptChain, hx] at hnone
        exact absurd hnone (h hx).1
      · rfl
    · rfl
  induction l with
  | nil => rfl
  | cons entry outer ih =>
    obtain ⟨ty, t⟩ := entry
    rw [chainName]
    split
    · rfl
    · rename_i hnone
      dsimp only
      split
      · exact hkeep hnone
      · rw [ih]
        exact hkeep hnone

theorem fullName_of_complete (h : ∀ {ty x}, e.types.get? ty = some x → x.Complete) (p : Program)
    (ty : TypeId) (t : TypeSymbol) : (e.fullName p ty t).2 = e := by
  unfold fullName
  split
  · rfl
  · rename_i hnone
    dsimp only
    rw [chainName_of_complete h, keep]
    split
    · split
      · rename_i x hx
        rw [keptFullName, hx] at hnone
        exact absurd hnone (h hx).2
      · rfl
    · rfl

/-- While names are kept, a record has a name without package once that has been asked for. -/
theorem chain_chainName (hdiscovered : e.discovered = true) {ty : TypeId} {t : TypeSymbol}
    {outer : List (TypeId × TypeSymbol)} {x : TypeRecord}
    (hx : (e.chainName ((ty, t) :: outer)).2.types.get? ty = some x) : x.chain ≠ none := by
  rw [chainName] at hx
  split at hx
  · rename_i name hname
    rw [keptChain, hx] at hname
    exact fun hnone => Option.some_ne_none name (hname.symm.trans hnone)
  · dsimp only at hx
    generalize he' : (if outer.isEmpty then (e.lastPart ty t, e)
      else ((e.chainName outer).1 ++ nestedSeparator ++ e.lastPart ty t,
        (e.chainName outer).2)) = named at hx
    have hrest : named.2.discovered = true := by
      rw [← he']
      split
      · exact hdiscovered
      · rw [(recalls_chainName e outer).rest]
        exact hdiscovered
    unfold keep at hx
    rw [if_pos hrest] at hx
    split at hx
    · rw [Table.get?_insert, if_pos rfl] at hx
      cases hx
      exact Option.some_ne_none _
    · rename_i hnone
      cases hnone.symm.trans hx

/-- A type with a full name that was kept has a name without package, too. -/
def Ordered (e : Engine) : Prop :=
  ∀ ty x, e.types.get? ty = some x → x.fullName ≠ none → x.chain ≠ none

theorem Ordered.keep (h : e.Ordered) {ty : TypeId} {f : TypeRecord → TypeRecord}
    (hf : ∀ x, e.types.get? ty = some x → (f x).chain ≠ none) : (e.keep ty f).Ordered := by
  intro ty' x hx hfull
  rcases get?_keep hx with hold | ⟨-, y, hy, rfl⟩
  · exact h ty' x hold hfull
  · exact hf y hy

theorem Ordered.chainName (h : e.Ordered) (l : List (TypeId × TypeSymbol)) :
    (e.chainName l).2.Ordered := by
  induction l with
  | nil => exact h
  | cons entry outer ih =>
    obtain ⟨ty, t⟩ := entry
    rw [Engine.chainName]
    split
    · exact h
    · dsimp only
      split
      · exact h.keep fun _ _ => Option.some_ne_none _
      · exact ih.keep fun _ _ => Option.some_ne_none _

/-- Asked for the full name of a type while names are kept, the engine keeps both names of it. -/
theorem Ordered.fullName (h : e.Ordered) (hdiscovered : e.discovered = true) {ty : TypeId}
    {s : TypeSymbol} {outer : List (TypeId × TypeSymbol)}
    (hlineage : p.lineage ty = (ty, s) :: outer) (t : TypeSymbol) :
    (e.fullName p ty t).2.Ordered ∧
      ∀ x, (e.fullName p ty t).2.types.get? ty = some x → x.Complete := by
  have hchain : ∀ x, (e.chainName (p.lineage ty)).2.types.get? ty = some x → x.chain ≠ none := by
    rw [hlineage]
    exact fun x hx => chain_chainName hdiscovered hx
  unfold Engine.fullName
  split
  · rename_i name hname
    refine ⟨h, fun x hx => ?_⟩
    have hfull : x.fullName ≠ none := by
      rw [keptFullName, hx] at hname
      exact fun hnone => Option.some_ne_none name (hname.symm.trans hnone)
    exact ⟨h ty x hx hfull, hfull⟩
  · dsimp only
    refine ⟨(h.chainName _).keep fun x hx => hchain x hx, fun x hx => ?_⟩
    have hrest : (e.chainName (p.lineage ty)).2.discovered = true := by
      rw [(recalls_chainName e (p.lineage ty)).rest]
      exact hdiscovered
    unfold Engine.keep at hx
    rw [if_pos hrest] at hx
    split at hx
    · rename_i y hy
      rw [Table.get?_insert, if_pos rfl] at hx
      cases hx
      exact ⟨hchain y hy, Option.some_ne_none _⟩
    · rename_i hnone
      cases hnone.symm.trans hx

end Engine

/-! ## Deciding -/

namespace Run

variable {p : Program} {e d : Engine} {done rest : List SymbolId} {r r' : Run}

/-- When one type more has been passed, any other one had been passed before. -/
theorem type_mem_of_ne {ty ty' : TypeId} (h : .type ty' ∈ done ++ [SymbolId.type ty])
    (hne : ty' ≠ ty) : .type ty' ∈ done := by
  refine (List.mem_append.mp h).resolve_right fun hlast => hne ?_
  exact SymbolId.type.inj (List.mem_singleton.mp hlast)

/-- What deciding a type makes of the records: all stay, or the type has a new one. It has a new one
where there is a preset, and may have one where it had none. -/
theorem types_decideType (r : Run) (ty : TypeId) (t : TypeSymbol) :
    r.engine.presets.types.get? t.fullName = none ∧ r.decideType ty t = r ∨
      (r.engine.presets.types.get? t.fullName = none → r.engine.types.get? ty = none) ∧
        ∃ newName, (r.decideType ty t).engine.types = r.engine.types.insert ty
          { package := PackagePath.ofText t.package, newName } := by
  unfold decideType
  split
  · rename_i preset hpreset
    refine Or.inr ⟨fun hnone => ?_,
      (r.engine.usableOr t.fullName preset (Engine.draw t.scope)).1, ?_⟩
    · cases hnone.symm.trans hpreset
    · exact congrArg (Table.insert · ty _) (Engine.view_usableOr Engine.types (Engine.draw t.scope)
        (fun _ => rfl) (fun _ _ => rfl) r.engine t.fullName preset)
  · rename_i hnone
    split
    · exact Or.inl ⟨hnone, rfl⟩
    · rename_i hnew
      rw [Bool.or_eq_true, not_or, Table.contains, Bool.not_eq_true, Option.isSome_eq_false_iff,
        Option.isNone_iff_eq_none] at hnew
      refine Or.inr ⟨fun _ => hnew.1, ?_⟩
      unfold nameType
      split
      · exact ⟨_, rfl⟩
      · exact ⟨_, rfl⟩

/-- What holds of the records of types when an engine that has run before has decided the symbols
`done`. -/
structure Renews (p : Program) (e : Engine) (done : List SymbolId) (r : Run) : Prop where
  declared : r.program.declared = p.declared
  presets : r.engine.presets = e.presets
  root : r.engine.packages.Has []
  unnamed : ∀ {ty t}, r.program.types.get? ty = some t → t.newName = none
  package : ∀ {ty x}, r.engine.types.get? ty = some x →
    ∃ t, p.types.get? ty = some t ∧ x.package = PackagePath.ofText t.package
  seen : ∀ {ty t}, p.types.get? ty = some t →
    r.engine.packages.Has (PackagePath.ofText t.package)
  old : ∀ {ty x}, e.types.get? ty = some x →
    (.type ty ∈ done → p.presetOf e.presets (.type ty) = none) → r.engine.types.get? ty = some x
  blank : ∀ {ty x}, r.engine.types.get? ty = some x →
    (e.types.get? ty = none ∨ .type ty ∈ done ∧ p.presetOf e.presets (.type ty) ≠ none) → x.Blank

/-- A step that is not about types. -/
theorem Renews.spares (h : Renews p e done r) (hs : r.SparesTypes r') (hf : r.Fixes r')
    {done' : List SymbolId} (hdone : ∀ ty, .type ty ∈ done' ↔ .type ty ∈ done) :
    Renews p e done' r' where
  declared := hf.declared.trans h.declared
  presets := hf.presets.trans h.presets
  root := hs.packages ▸ h.root
  unnamed := hs.types ▸ h.unnamed
  package := hs.records ▸ h.package
  seen := hs.packages ▸ h.seen
  old := fun {ty x} hx hnone => by
    rw [hs.records]
    exact h.old hx fun hty => hnone ((hdone ty).mpr hty)
  blank := fun {ty x} hx hnew => by
    rw [hs.records] at hx
    exact h.blank hx (hnew.imp_right fun hand => ⟨(hdone ty).mp hand.1, hand.2⟩)

theorem Renews.decidePackage (h : Renews p e done r) (t : TypeSymbol) :
    Renews p e done { r with engine := r.engine.decidePackage t } := by
  have hroot := Engine.has_decidePackage h.root t
  have hseen := fun {ty u} (hu : p.types.get? ty = some u) =>
    Engine.has_decidePackage (h.seen hu) t
  obtain ⟨packages, source, -, -, heq⟩ := r.engine.decidePackage_eq t
  rw [heq] at hroot hseen ⊢
  exact { h with root := hroot, seen := hseen }

/-- Deciding a type binds no alias. -/
theorem Renews.newName_decideType (h : Renews p e done r) (ty : TypeId) (t : TypeSymbol)
    {ty' : TypeId} {u : TypeSymbol}
    (hu : (r.decideType ty t).program.types.get? ty' = some u) : u.newName = none := by
  obtain hsame | hused := r.program_decideType ty t
  · exact h.unnamed (hsame ▸ hu)
  · rw [hused, Program.withoutSourceFile, Arena.get?_modify] at hu
    split at hu
    · obtain ⟨s, hs, rfl⟩ := Option.map_eq_some_iff.mp hu
      exact (h.unnamed hs : s.newName = none)
    · exact h.unnamed hu

theorem Renews.decideType (h : Renews p e done r) {ty : TypeId} {t : TypeSymbol}
    (ht : p.ShowsType ty t) : Renews p e (done ++ [.type ty]) (r.decideType ty t) := by
  have hfixes := (decides_decideType (r := r) ht).fixes
  have hpackages := packages_decideType r ty t
  have hpreset : p.presetOf e.presets (.type ty) = r.engine.presets.types.get? t.fullName := by
    rw [ht.presetOf, h.presets]
  obtain ⟨hnone, hkept⟩ | ⟨hnew, newName, htypes⟩ := r.types_decideType ty t
  · rw [hkept]
    rw [← hpreset] at hnone
    refine { h with old := fun {ty' x} hx hold => ?_, blank := fun {ty' x} hx hblank => ?_ }
    · exact h.old hx fun hty => hold (List.mem_append_left _ hty)
    · refine h.blank hx (hblank.imp_right fun hand => ⟨type_mem_of_ne hand.1 fun heq => ?_, hand.2⟩)
      exact hand.2 (heq ▸ hnone)
  · have hget : ∀ ty', (r.decideType ty t).engine.types.get? ty' =
        if ty = ty' then some { package := PackagePath.ofText t.package, newName }
        else r.engine.types.get? ty' := by
      intro ty'
      rw [htypes]
      exact Table.get?_insert ..
    refine ⟨hfixes.declared.trans h.declared, hfixes.presets.trans h.presets, hpackages ▸ h.root,
      h.newName_decideType ty t, fun {ty' x} hx => ?_, hpackages ▸ h.seen,
      fun {ty' x} hx hold => ?_,
      fun {ty' x} hx hblank => ?_⟩
    · rw [hget] at hx
      split at hx
      · rename_i heq
        obtain ⟨s, hs, hst⟩ := ht
        cases hx
        refine ⟨s, heq ▸ hs, ?_⟩
        rw [TypeSymbol.agree hst TypeSymbol.package fun _ => rfl]
      · exact h.package hx
    · rw [hget]
      split
      · -- the type had a record, so that a new one is made for a preset only
        rename_i heq
        subst heq
        have hnone := hold (List.mem_append_right _ List.mem_cons_self)
        have hstays := h.old hx fun _ => hnone
        rw [hnew (hpreset ▸ hnone)] at hstays
        cases hstays
      · exact h.old hx fun hty => hold (List.mem_append_left _ hty)
    · rw [hget] at hx
      split at hx
      · cases hx
        exact ⟨rfl, rfl⟩
      · rename_i hne
        exact h.blank hx (hblank.imp_right fun hand =>
          ⟨type_mem_of_ne hand.1 fun heq => hne heq.symm, hand.2⟩)

theorem keeps_renews_deciding (p : Program) (e : Engine) : Pass.deciding.Keeps p (Renews p e) := by
  apply Pass.keeps_deciding
  case hdeclared => exact fun h => h.declared
  case htype =>
    intro done rest r ty t _ ht h
    exact (h.decidePackage t).decideType ht
  case hmember =>
    intro done rest s r r' _ hkind hd hs h
    refine h.spares hs hd.fixes fun ty => ?_
    exact ⟨SymbolId.type_mem_of_kind hkind, List.mem_append_left _⟩
  case hlink => exact fun hl _ _ hs h => h.spares hs hl.fixes fun _ => Iff.rfl

/-- When all has been decided by an engine that has run before, the records of types without preset
are those from before. -/
theorem renews_discover (h : e.Rests p) : Renews p e p.walk
    (Run.discover { engine := e, program := p.clearAliases }) := by
  have hstart : Renews p e [] { engine := e.seed p.clearAliases, program := p.clearAliases } := by
    refine ⟨Program.declared_clearAliases, rfl, ?_, fun {ty t} ht => ?_, h.package,
      fun {ty t} ht => ?_, fun hx _ => hx, fun {ty x} hx hnew => ?_⟩
    · exact List.foldlRecOn (motive := fun t : PackageTree => t.Has []) _ _ h.root
        fun t ht s _ => ht.create _
    · rw [Program.clearAliases, Arena.get?_map] at ht
      obtain ⟨s, -, rfl⟩ := Option.map_eq_some_iff.mp ht
      rfl
    · obtain ⟨s, hs, hst⟩ := Program.type_of_declared Program.declared_clearAliases.symm ht
      rw [← TypeSymbol.agree hst TypeSymbol.package fun _ => rfl]
      exact PackageTree.has_foldl_create h.root (Arena.mem_toList_of_get? hs)
    · obtain hnone | ⟨hnil, -⟩ := hnew
      · cases hnone.symm.trans hx
      · exact absurd hnil List.not_mem_nil
  obtain ⟨r, hr, heq⟩ := (keeps_renews_deciding p e).discover hstart
  have hspares : r.SparesTypes { r with engine := { r.engine with discovered := true } } :=
    ⟨rfl, rfl, rfl⟩
  rw [heq]
  exact hr.spares hspares (leaves_discovered r).fixes fun _ => Iff.rfl

/-! ## Binding -/

/-- What holds of the records of types when the symbols `done` have been bound; `d` is the engine
that has decided them. -/
structure Completes (p : Program) (d : Engine) (done : List SymbolId) (r : Run) : Prop where
  declared : r.program.declared = p.declared
  discovered : r.engine.discovered = true
  alike : d.AlikeTypes r.engine
  kept : ∀ {ty x}, d.types.get? ty = some x → x.Complete → r.engine.types.get? ty = some x
  ordered : r.engine.Ordered
  complete : ∀ {ty x}, .type ty ∈ done → r.engine.types.get? ty = some x → x.Complete

theorem Completes.spares (h : Completes p d done r) (hs : r.SparesTypes r')
    (hdeclared : r'.program.declared = r.program.declared)
    (hdiscovered : r'.engine.discovered = r.engine.discovered) {done' : List SymbolId}
    (hdone : ∀ ty, .type ty ∈ done' → .type ty ∈ done) : Completes p d done' r' where
  declared := hdeclared.trans h.declared
  discovered := hdiscovered.trans h.discovered
  alike := h.alike.trans hs.alikeTypes
  kept := hs.records ▸ h.kept
  ordered := by
    intro ty x hx
    exact h.ordered ty x (hs.records ▸ hx)
  complete := fun {ty _} hty hx => h.complete (hdone ty hty) (hs.records ▸ hx)

theorem discovered_applyField (owner : TypeSymbol) (r : Run) (entry : FieldId × FieldSymbol) :
    (applyField owner r entry).engine.discovered = r.engine.discovered := by
  unfold applyField
  dsimp only
  split
  · rfl
  · split
    · rfl
    · exact Engine.view_usableOr Engine.discovered _ (fun _ => rfl) (fun _ _ => rfl) _ _ _

theorem discovered_applyMethod (owner : TypeSymbol) (r : Run) (entry : MethodId × MethodSymbol) :
    (applyMethod owner r entry).engine.discovered = r.engine.discovered := by
  unfold applyMethod
  dsimp only
  split
  · rfl
  · split
    · rfl
    · exact Engine.view_usableOr Engine.discovered _ (fun _ => rfl) (fun _ _ => rfl) _ _ _

/-- Binding the alias of a type composes both of its names. -/
theorem Completes.applyType (h : Completes p d done r) {ty : TypeId} {t : TypeSymbol}
    (ht : p.ShowsType ty t) : Completes p d (done ++ [.type ty]) (r.applyType ty t) := by
  have hrecalls := Engine.recalls_fullName r.engine r.program ty t
  have hdiscovered : (r.applyType ty t).engine.discovered = true := by
    show (r.engine.fullName r.program ty t).2.discovered = true
    rw [hrecalls.rest]
    exact h.discovered
  -- the type comes first in its lineage
  obtain ⟨s, hs, -⟩ := ht
  obtain ⟨s', hs', -⟩ := Program.type_of_declared h.declared.symm hs
  obtain ⟨outer, hlineage⟩ := Program.exists_lineage_eq hs'
  obtain ⟨hordered, hnew⟩ := h.ordered.fullName h.discovered hlineage t
  refine ⟨(spares_applyType r ty t).declared.trans h.declared, hdiscovered,
    h.alike.trans hrecalls.alikeTypes, fun {ty' x} hx hcomplete => ?_, hordered,
    fun {ty' x} hty hx => ?_⟩
  · exact Engine.get?_fullName (h.kept hx hcomplete) hcomplete r.program ty t
  · by_cases heq : ty' = ty
    · exact hnew x (heq ▸ hx)
    · have hold : SymbolId.type ty' ∈ done := type_mem_of_ne hty heq
      -- the record was there, and it was complete
      have hbefore := hrecalls.types ty'
      have hx' : (r.engine.fullName r.program ty t).2.types.get? ty' = some x := hx
      rw [hx'] at hbefore
      obtain ⟨y, hy, -⟩ := Option.map_eq_some_iff.mp hbefore.symm
      have hcomplete := h.complete hold hy
      have hsame := Engine.get?_fullName hy hcomplete r.program ty t
      rw [hx'] at hsame
      exact Option.some.inj hsame ▸ hcomplete

theorem keeps_completes_binding (p : Program) (d : Engine) :
    Pass.binding.Keeps p (Completes p d) where
  declared := fun h => h.declared
  type := fun _ ht h => h.applyType ht
  field := by
    intro done rest r ty t id f _ _ _ _ h
    exact h.spares (sparesTypes_applyField t r (id, f)) (spares_applyField t r (id, f)).declared
      (discovered_applyField t r (id, f)) fun ty' hty => by simpa using hty
  method := by
    intro done rest r ty t id m _ _ _ _ h
    exact h.spares (sparesTypes_applyMethod t r (id, m)) (spares_applyMethod t r (id, m)).declared
      (discovered_applyMethod t r (id, m)) fun ty' hty => by simpa using hty

/-! ## The end -/

/-- When all has been decided, a record is new and has no composed names, or it is from before and
there is no preset for its type. -/
theorem Renews.blank_or_old (h : Renews p e p.walk r) {ty : TypeId} {x : TypeRecord}
    (hx : r.engine.types.get? ty = some x) :
    x.Blank ∨ e.types.get? ty = some x ∧ p.presetOf e.presets (.type ty) = none := by
  obtain ⟨t, ht, -⟩ := h.package hx
  cases hold : e.types.get? ty with
  | none => exact Or.inl (h.blank hx (Or.inl hold))
  | some y =>
    by_cases hnone : p.presetOf e.presets (.type ty) = none
    · have hsame := h.old hold fun _ => hnone
      rw [hx] at hsame
      exact Or.inr ⟨hsame ▸ rfl, hnone⟩
    · exact Or.inl (h.blank hx (Or.inr ⟨Program.mem_walk_type ht, hnone⟩))

/-- When all aliases are bound, all records are complete. -/
theorem completes_bound (h : e.Rests p) :
    Completes p (Run.discover { engine := e, program := p.clearAliases }).engine p.walk
      (e.bound p) := by
  have hrenews := renews_discover h
  refine (keeps_completes_binding p _).apply ⟨hrenews.declared, rfl, ⟨rfl, fun _ => rfl⟩,
    fun hx _ => hx, fun ty x hx hfull => ?_, fun hty => absurd hty List.not_mem_nil⟩
  obtain hblank | ⟨hold, -⟩ := hrenews.blank_or_old hx
  · exact absurd hblank.2 hfull
  · exact (h.complete hold).1

end Run

namespace Engine

variable {e : Engine} {p : Program}

/-- What was merged before does not get in the way of the groups of a later run. -/
theorem Rests.collected (h : e.Rests p) :
    Run.Collected p.clearAliases [] { engine := e, program := p.clearAliases } := by
  obtain ⟨sets, hgroups, hsound⟩ := h.sets
  refine ⟨sets, hgroups, rfl, Program.marked_clearAliases p, fun found hfound => ?_, by simp⟩
  obtain ⟨a, ha⟩ := hsound found hfound
  exact ⟨a, ha.of_declared Program.declared_clearAliases.symm⟩

theorem Rests.grouped (h : e.Rests p) (hp : p.WellFormed) : Run.Grouped p (e.bound p) := by
  have hcleared := hp.of_declared (Program.declared_clearAliases (p := p)).symm
  obtain ⟨done, hall, hdone⟩ := Run.Collected.discover h.collected
  have hgrouped := hall.grouped fun id m hm => hdone id m hm (hcleared.method_owner hm)
  exact (hgrouped.spares (Run.spares_apply _)).of_declared Program.declared_clearAliases

/-- A run succeeds, whatever was before. -/
theorem Rests.process_eq_ok (h : e.Rests p) (hp : p.WellFormed) :
    ∃ report, e.process p = .ok (report, (e.bound p).unified) :=
  process_eq_ok_of_grouped (h.grouped hp)

/-- After a run the engine knows of the program again what it knew before. -/
theorem Rests.unified (h : e.Rests p) : (e.bound p).unified.engine.Rests p := by
  have hrenews := Run.renews_discover h
  have hcompletes := Run.completes_bound h
  have halike := Run.alikeTypes_unified e p
  have hpackage : ∀ {ty x}, (e.bound p).unified.engine.types.get? ty = some x →
      ∃ t, p.types.get? ty = some t ∧ x.package = PackagePath.ofText t.package := by
    intro ty x hx
    have htypes := halike.types ty
    rw [hx] at htypes
    obtain ⟨y, hy, hxy⟩ := Option.map_eq_some_iff.mp htypes.symm
    obtain ⟨t, ht, hyt⟩ := hrenews.package hy
    have hsame : y.package = x.package := congrArg (·.package) hxy
    exact ⟨t, ht, hsame ▸ hyt⟩
  have hpackages := halike.packages
  refine ⟨?_, ?_, hpackage, fun {ty x} hx => ?_, fun {ty x} hx => ?_⟩
  · rw [hpackages]
    exact hrenews.root
  · obtain ⟨done, hall, -⟩ := Run.Collected.discover h.collected
    obtain ⟨sets, hgroups, -, -, hsound, -⟩ := hall.spares (Run.spares_apply _)
    refine ⟨sets, (Run.knownGroups_unified _).trans hgroups, fun found hfound => ?_⟩
    obtain ⟨a, ha⟩ := hsound found hfound
    exact ⟨a, ha.of_declared Program.declared_clearAliases⟩
  · obtain ⟨t, ht, hxt⟩ := hpackage hx
    rw [hxt, hpackages]
    exact hrenews.seen ht
  · obtain ⟨t, ht, -⟩ := hpackage hx
    rw [Run.knownTypes_unified] at hx
    exact hcompletes.complete (Program.mem_walk_type ht) hx

end Engine
end Renamer
