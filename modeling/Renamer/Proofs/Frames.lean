import Renamer.Engine.Process
import Renamer.Proofs.Packages
import Renamer.Proofs.Unification

/-!
# What the steps of a run leave alone

A run is a sequence of small steps: deciding a type, a field or a method, linking a method, and
binding what was decided. Only linking changes the groups, and no step changes a declaration.

`Run.Spares` says so of two states of a run; every step but linking has its lemma here, and so
has the pass that binds.
-/

namespace Renamer

/-! ## Engines -/

/-- The record without the names that were composed. -/
def TypeRecord.decided (r : TypeRecord) : TypeRecord := { r with chain := none, fullName := none }

namespace Engine

/-- What neither a draw nor a report changes is the same after a replacement. -/
theorem view_usableOr {β : Type} (view : Engine → β) (fresh : Engine → String × Engine)
    (h : ∀ e, view (fresh e).2 = view e) (hreport : ∀ e found, view (report e found) = view e)
    (e : Engine) (identity newName : String) :
    view (e.usableOr identity newName fresh).2 = view e := by
  unfold usableOr
  split
  · rfl
  · exact (hreport _ _).trans (h e)

/-- Deciding a package concerns the packages and uses up words. -/
theorem decidePackage_eq (e : Engine) (t : TypeSymbol) :
    ∃ packages source, (e.packages.create (PackagePath.ofText t.package)).decide
        (PackagePath.ofText t.package) e.rejects e.source = (packages, source) ∧
      e.source.issued ≤ source.issued ∧ e.decidePackage t = { e with packages, source } := by
  have hle := PackageTree.issued_le_decide (e.packages.create (PackagePath.ofText t.package))
    (PackagePath.ofText t.package) e.rejects e.source
  unfold decidePackage
  dsimp only
  generalize (e.packages.create (PackagePath.ofText t.package)).decide _ _ _ = decided at hle
  rcases decided with ⟨packages, source⟩
  exact ⟨packages, source, rfl, hle, rfl⟩

/-- What deciding the package of a type makes of the packages. -/
theorem packages_decidePackage (e : Engine) (t : TypeSymbol) :
    (e.decidePackage t).packages = ((e.packages.create (PackagePath.ofText t.package)).decide
      (PackagePath.ofText t.package) e.rejects e.source).1 := by
  rcases e.decidePackage_eq t with ⟨packages, source, hdecide, -, heq⟩
  rw [heq, hdecide]

theorem has_decidePackage {e : Engine} {a : PackagePath} (h : e.packages.Has a) (t : TypeSymbol) :
    (e.decidePackage t).packages.Has a := by
  rw [packages_decidePackage]
  exact (h.create _).decide _ e.rejects e.source

/-- `e'` is `e` but for composed names that were kept. -/
structure Recalls (e e' : Engine) : Prop where
  rest : e' = { e with types := e'.types }
  types : ∀ ty, (e'.types.get? ty).map TypeRecord.decided =
    (e.types.get? ty).map TypeRecord.decided

theorem Recalls.refl (e : Engine) : e.Recalls e := ⟨rfl, fun _ => rfl⟩

theorem Recalls.trans {e e' e'' : Engine} (h : e.Recalls e') (h' : e'.Recalls e'') :
    e.Recalls e'' where
  rest := by rw [h'.rest, h.rest]
  types := fun ty => (h'.types ty).trans (h.types ty)

/-- Both engines have decided alike for types and packages. -/
structure AlikeTypes (e e' : Engine) : Prop where
  packages : e'.packages = e.packages
  types : ∀ ty, (e'.types.get? ty).map TypeRecord.decided =
    (e.types.get? ty).map TypeRecord.decided

theorem Recalls.alikeTypes {e e' : Engine} (h : e.Recalls e') : e.AlikeTypes e' where
  packages := by rw [h.rest]
  types := h.types

theorem AlikeTypes.trans {e e' e'' : Engine} (h : e.AlikeTypes e') (h' : e'.AlikeTypes e'') :
    e.AlikeTypes e'' where
  packages := h'.packages.trans h.packages
  types := fun ty => (h'.types ty).trans (h.types ty)

theorem AlikeTypes.typeAlias {e e' : Engine} (h : e.AlikeTypes e') (ty : TypeId) :
    e'.typeAlias ty = e.typeAlias ty := by
  have hname : ∀ o : Option TypeRecord,
      o.map (·.newName) = (o.map TypeRecord.decided).map (·.newName) := by
    intro o
    cases o <;> rfl
  show (e'.types.get? ty).map (·.newName) = (e.types.get? ty).map (·.newName)
  rw [hname, h.types, ← hname]

/-- Keeping a composed name changes no more than that. -/
theorem recalls_keep (e : Engine) (ty : TypeId) {f : TypeRecord → TypeRecord}
    (hf : ∀ r, (f r).decided = r.decided) : e.Recalls (e.keep ty f) := by
  unfold keep
  split
  · split
    · rename_i r hr
      refine ⟨rfl, fun ty' => ?_⟩
      show ((e.types.insert ty (f r)).get? ty').map TypeRecord.decided = _
      rw [Table.get?_insert]
      by_cases hty : ty = ty'
      · rw [if_pos hty, ← hty, hr]
        exact congrArg some (hf r)
      · rw [if_neg hty]
    · exact Recalls.refl e
  · exact Recalls.refl e

theorem recalls_chainName (e : Engine) (lineage : List (TypeId × TypeSymbol)) :
    e.Recalls (e.chainName lineage).2 := by
  induction lineage generalizing e with
  | nil => exact Recalls.refl e
  | cons entry outer ih =>
    rcases entry with ⟨ty, t⟩
    rw [chainName]
    split
    · exact Recalls.refl e
    · dsimp only
      split
      · exact recalls_keep e ty fun _ => rfl
      · exact (ih e).trans (recalls_keep _ ty fun _ => rfl)

theorem recalls_fullName (e : Engine) (p : Program) (ty : TypeId) (t : TypeSymbol) :
    e.Recalls (e.fullName p ty t).2 := by
  unfold fullName
  split
  · exact Recalls.refl e
  · exact (recalls_chainName e (p.lineage ty)).trans (recalls_keep _ ty fun _ => rfl)

theorem groups_loadPackage (e : Engine) (entry : String × String) :
    (e.loadPackage entry).groups = e.groups := by
  unfold loadPackage
  exact view_usableOr groups _ (fun _ => rfl) (fun _ _ => rfl) _ entry.1 entry.2

/-- Presets link no methods. -/
theorem groups_loadPresets (e : Engine) (presets : Presets) :
    (e.loadPresets presets).groups = e.groups := by
  show (presets.packages.toList.foldl loadPackage e).groups = e.groups
  apply List.foldlRecOn (motive := fun e' : Engine => e'.groups = e.groups)
  · rfl
  · intro e' he' entry _
    rw [groups_loadPackage, he']

end Engine

/-! ## Runs -/

namespace Run

/-- `r'` has the groups and the declarations of `r`, and its methods are marked if those of `r`
are. -/
structure Spares (r r' : Run) : Prop where
  groups : r'.engine.groups = r.engine.groups
  declared : r'.program.declared = r.program.declared
  marked : r.program.Marked → r'.program.Marked

theorem Spares.refl (r : Run) : r.Spares r := ⟨rfl, rfl, id⟩

theorem Spares.trans {r r' r'' : Run} (h : r.Spares r') (h' : r'.Spares r'') : r.Spares r'' where
  groups := h'.groups.trans h.groups
  declared := h'.declared.trans h.declared
  marked := fun hm => h'.marked (h.marked hm)

theorem Spares.foldl {α : Type} {step : Run → α → Run} (h : ∀ r x, Spares r (step r x))
    (r : Run) (l : List α) : r.Spares (l.foldl step r) := by
  apply List.foldlRecOn (motive := fun r' => r.Spares r')
  · exact Spares.refl r
  · exact fun r' hr' x _ => hr'.trans (h r' x)

/-! ## Deciding -/

theorem spares_decidePackage (r : Run) (t : TypeSymbol) :
    r.Spares { r with engine := r.engine.decidePackage t } := by
  rcases r.engine.decidePackage_eq t with ⟨packages, source, -, -, heq⟩
  rw [heq]
  exact ⟨rfl, rfl, id⟩

theorem spares_nameType (r : Run) (ty : TypeId) (t : TypeSymbol) : r.Spares (r.nameType ty t) := by
  unfold nameType
  split
  · exact ⟨rfl, Program.declared_withoutSourceFile ty, id⟩
  · exact ⟨rfl, rfl, id⟩

theorem spares_decideType (r : Run) (ty : TypeId) (t : TypeSymbol) :
    r.Spares (r.decideType ty t) := by
  unfold decideType
  split
  · rename_i preset _
    have hgroups := Engine.view_usableOr Engine.groups (Engine.draw t.scope) (fun _ => rfl)
      (fun _ _ => rfl) r.engine t.fullName preset
    exact ⟨hgroups, rfl, id⟩
  · split
    · exact Spares.refl r
    · exact spares_nameType r ty t

theorem spares_decideField (owner : TypeSymbol) (r : Run) (entry : FieldId × FieldSymbol) :
    r.Spares (decideField owner r entry) := by
  unfold decideField
  dsimp only
  split
  · exact Spares.refl r
  · split
    · exact ⟨rfl, rfl, id⟩
    · split
      · exact ⟨rfl, rfl, id⟩
      · exact Spares.refl r

theorem spares_decideMethod (owner : TypeSymbol) (r : Run) (entry : MethodId × MethodSymbol) :
    r.Spares (decideMethod owner r entry) := by
  unfold decideMethod
  dsimp only
  split
  · exact Spares.refl r
  · split
    · exact ⟨rfl, Program.declared_withPresetMark _ _, fun h => h.withPresetMark _ _⟩
    · split
      · exact ⟨rfl, rfl, id⟩
      · exact Spares.refl r

/-- A type once its package, its own alias and its fields are decided. -/
def decideHead (r : Run) (e : TypeId × TypeSymbol) : Run :=
  let named := Run.decideType { r with engine := r.engine.decidePackage e.2 } e.1 e.2
  (named.program.fieldsOf e.1).foldl (decideField e.2) named

theorem discoverType_eq (r : Run) (e : TypeId × TypeSymbol) : r.discoverType e =
    ((r.decideHead e).program.methodsOf e.1).foldl (Run.discoverMethod e.1 e.2) (r.decideHead e) :=
  rfl

theorem spares_decideHead (r : Run) (e : TypeId × TypeSymbol) : r.Spares (r.decideHead e) :=
  ((spares_decidePackage r e.2).trans (spares_decideType _ e.1 e.2)).trans
    (Spares.foldl (spares_decideField e.2) _ _)

/-! ## Binding -/

theorem spares_applyType (r : Run) (ty : TypeId) (t : TypeSymbol) :
    r.Spares (r.applyType ty t) := by
  have hgroups : (r.engine.fullName r.program ty t).2.groups = r.engine.groups := by
    rw [(Engine.recalls_fullName r.engine r.program ty t).rest]
  unfold applyType
  dsimp only
  split
  · exact ⟨hgroups, Program.declared_withTypeAlias _ _, id⟩
  · exact ⟨hgroups, rfl, id⟩

theorem spares_applyField (owner : TypeSymbol) (r : Run) (entry : FieldId × FieldSymbol) :
    r.Spares (applyField owner r entry) := by
  unfold applyField
  dsimp only
  split
  · exact Spares.refl r
  · split
    · exact Spares.refl r
    · refine ⟨?_, Program.declared_withFieldAlias _ _, id⟩
      exact Engine.view_usableOr Engine.groups _ (fun _ => rfl) (fun _ _ => rfl) _ _ _

theorem spares_applyMethod (owner : TypeSymbol) (r : Run) (entry : MethodId × MethodSymbol) :
    r.Spares (applyMethod owner r entry) := by
  unfold applyMethod
  dsimp only
  split
  · exact Spares.refl r
  · split
    · exact Spares.refl r
    · -- a replaced preset loses its mark, which is no declaration
      refine ⟨?_, ?_, fun h => ?_⟩
      · exact Engine.view_usableOr Engine.groups _ (fun _ => rfl) (fun _ _ => rfl) _ _ _
      · rw [Program.declared_withMethodAlias]
        split
        · exact Program.declared_withPresetMark _ _
        · rfl
      · refine Program.Marked.withMethodAlias ?_ _ _
        split
        · exact h.withPresetMark _ _
        · exact h

theorem spares_applyEntry (r : Run) (entry : TypeId × TypeSymbol) : r.Spares (r.applyEntry entry) :=
  ((spares_applyType r entry.1 entry.2).trans
    (Spares.foldl (spares_applyField entry.2) _ _)).trans
      (Spares.foldl (spares_applyMethod entry.2) _ _)

/-- Binding changes no group. -/
theorem spares_apply (r : Run) : r.Spares r.apply := Spares.foldl spares_applyEntry r _

/-! ## Steps that are not about types -/

/-- `r'` has the types and the packages of `r`, with all that was decided for them. -/
structure SparesTypes (r r' : Run) : Prop where
  records : r'.engine.types = r.engine.types
  packages : r'.engine.packages = r.engine.packages
  types : r'.program.types = r.program.types

theorem SparesTypes.refl (r : Run) : r.SparesTypes r := ⟨rfl, rfl, rfl⟩

theorem SparesTypes.trans {r r' r'' : Run} (h : r.SparesTypes r') (h' : r'.SparesTypes r'') :
    r.SparesTypes r'' where
  records := h'.records.trans h.records
  packages := h'.packages.trans h.packages
  types := h'.types.trans h.types

theorem SparesTypes.alikeTypes {r r' : Run} (h : r.SparesTypes r') :
    r.engine.AlikeTypes r'.engine :=
  ⟨h.packages, fun ty => by rw [h.records]⟩

theorem SparesTypes.foldl {α : Type} {step : Run → α → Run}
    (h : ∀ r x, SparesTypes r (step r x)) (r : Run) (l : List α) :
    r.SparesTypes (l.foldl step r) := by
  apply List.foldlRecOn (motive := fun r' => r.SparesTypes r')
  · exact SparesTypes.refl r
  · exact fun r' hr' x _ => hr'.trans (h r' x)

/-- Deciding a type concerns no package. -/
theorem packages_decideType (r : Run) (ty : TypeId) (t : TypeSymbol) :
    (r.decideType ty t).engine.packages = r.engine.packages := by
  unfold decideType
  split
  · exact Engine.view_usableOr Engine.packages (Engine.draw t.scope) (fun _ => rfl)
      (fun _ _ => rfl) _ _ _
  · split
    · rfl
    · unfold nameType
      split <;> rfl

/-- Deciding a type uses up its source file, or changes nothing of the program. -/
theorem program_decideType (r : Run) (ty : TypeId) (t : TypeSymbol) :
    (r.decideType ty t).program = r.program ∨
      (r.decideType ty t).program = r.program.withoutSourceFile ty := by
  unfold decideType nameType
  split
  · exact Or.inl rfl
  · split
    · exact Or.inl rfl
    · split
      · exact Or.inr rfl
      · exact Or.inl rfl

theorem sparesTypes_decideField (owner : TypeSymbol) (r : Run) (entry : FieldId × FieldSymbol) :
    r.SparesTypes (decideField owner r entry) := by
  unfold decideField
  dsimp only
  split
  · exact SparesTypes.refl r
  · split
    · exact ⟨rfl, rfl, rfl⟩
    · split
      · exact ⟨rfl, rfl, rfl⟩
      · exact SparesTypes.refl r

theorem sparesTypes_decideMethod (owner : TypeSymbol) (r : Run)
    (entry : MethodId × MethodSymbol) : r.SparesTypes (decideMethod owner r entry) := by
  unfold decideMethod
  dsimp only
  split
  · exact SparesTypes.refl r
  · split
    · exact ⟨rfl, rfl, rfl⟩
    · split
      · exact ⟨rfl, rfl, rfl⟩
      · exact SparesTypes.refl r

theorem sparesTypes_linkMethod (ty : TypeId) (t : TypeSymbol) (r : Run) (m : MethodSymbol) :
    r.SparesTypes (r.linkMethod ty t m) := by
  unfold linkMethod
  split
  · exact ⟨rfl, rfl, rfl⟩
  · exact SparesTypes.refl r

theorem sparesTypes_discoverMethod (ty : TypeId) (t : TypeSymbol) (r : Run)
    (entry : MethodId × MethodSymbol) : r.SparesTypes (discoverMethod ty t r entry) :=
  (sparesTypes_decideMethod t r entry).trans (sparesTypes_linkMethod ty t _ entry.2)

/-- Once a type is decided, its members are no matter of types. -/
theorem sparesTypes_discoverType (r : Run) (e : TypeId × TypeSymbol) :
    (Run.decideType { r with engine := r.engine.decidePackage e.2 } e.1 e.2).SparesTypes
      (r.discoverType e) := by
  rw [discoverType_eq]
  exact (SparesTypes.foldl (sparesTypes_decideField e.2) _ _).trans
    (SparesTypes.foldl (sparesTypes_discoverMethod e.1 e.2) _ _)

theorem sparesTypes_applyField (owner : TypeSymbol) (r : Run) (entry : FieldId × FieldSymbol) :
    r.SparesTypes (applyField owner r entry) := by
  unfold applyField
  dsimp only
  split
  · exact SparesTypes.refl r
  · split
    · exact SparesTypes.refl r
    · refine ⟨?_, ?_, rfl⟩
      · exact Engine.view_usableOr Engine.types _ (fun _ => rfl) (fun _ _ => rfl) _ _ _
      · exact Engine.view_usableOr Engine.packages _ (fun _ => rfl) (fun _ _ => rfl) _ _ _

theorem sparesTypes_applyMethod (owner : TypeSymbol) (r : Run) (entry : MethodId × MethodSymbol) :
    r.SparesTypes (applyMethod owner r entry) := by
  unfold applyMethod
  dsimp only
  split
  · exact SparesTypes.refl r
  · split
    · exact SparesTypes.refl r
    · refine ⟨?_, ?_, ?_⟩
      · exact Engine.view_usableOr Engine.types _ (fun _ => rfl) (fun _ _ => rfl) _ _ _
      · exact Engine.view_usableOr Engine.packages _ (fun _ => rfl) (fun _ _ => rfl) _ _ _
      · show (if _ then r.program.withPresetMark entry.1 false else r.program).types = _
        split <;> rfl

theorem sparesTypes_applyEntry (r : Run) (e : TypeId × TypeSymbol) :
    (r.applyType e.1 e.2).SparesTypes (r.applyEntry e) :=
  (SparesTypes.foldl (sparesTypes_applyField e.2) _ _).trans
    (SparesTypes.foldl (sparesTypes_applyMethod e.2) _ _)

end Run
end Renamer
