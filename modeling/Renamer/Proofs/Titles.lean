import Renamer.Proofs.Composition
import Renamer.Proofs.Loading

/-!
# Titles

The title of a type is the full name that a run binds to it: the one composed for it from what was
decided, unless that is the declared one or holds a digit.

* `Run.Prepared` holds while aliases are decided: no type is renamed yet, no composed name has been
  kept, and the tree has every package of the program.
* `Run.Titled` holds while they are bound: the types passed have their titles, and no others.
-/

namespace Renamer

/-- A package that the tree has is emitted under its alias. -/
theorem Engine.packageAlias_of_has {e : Engine} {text : String}
    (h : e.packages.Has (PackagePath.ofText text)) :
    e.packageAlias text = some (e.packages.fullAlias (PackagePath.ofText text)) := by
  obtain ⟨id, hid⟩ := Option.isSome_iff_exists.mp (PackageTree.find?_isSome_iff.mpr h)
  unfold Engine.packageAlias PackageTree.lookup
  rw [hid]
  rfl

namespace Run

/-! ## Deciding -/

/-- What holds of types and packages while aliases are decided for the program `p`. -/
structure Prepared (p : Program) (r : Run) : Prop where
  unnamed : ∀ {ty t}, r.program.types.get? ty = some t → t.newName = none
  blank : ∀ {ty x}, r.engine.types.get? ty = some x → x.chain = none ∧ x.fullName = none
  package : ∀ {ty x}, r.engine.types.get? ty = some x →
    ∃ t, p.types.get? ty = some t ∧ x.package = PackagePath.ofText t.package
  packages : ∀ {ty t}, p.types.get? ty = some t →
    r.engine.packages.Has (PackagePath.ofText t.package)

variable {p : Program} {r r' : Run}

theorem Prepared.spares (h : Prepared p r) (hs : r.SparesTypes r') : Prepared p r' := by
  constructor
  · rw [hs.types]
    exact h.unnamed
  · rw [hs.records]
    exact h.blank
  · rw [hs.records]
    exact h.package
  · rw [hs.packages]
    exact h.packages

theorem Prepared.decidePackage (h : Prepared p r) (t : TypeSymbol) :
    Prepared p { r with engine := r.engine.decidePackage t } := by
  have hhas := fun {ty u} (hu : p.types.get? ty = some u) =>
    Engine.has_decidePackage (h.packages hu) t
  rcases r.engine.decidePackage_eq t with ⟨packages, source, -, -, heq⟩
  rw [heq] at hhas ⊢
  exact ⟨h.unnamed, h.blank, h.package, hhas⟩

/-- A type has been given an alias; `e` is the engine before that was recorded. -/
theorem Prepared.recordType (h : Prepared p r) {ty : TypeId} {t : TypeSymbol}
    (ht : ∃ s, p.types.get? ty = some s ∧ s.declared = t.declared) {e : Engine}
    (htypes : e.types = r.engine.types) (hpackages : e.packages = r.engine.packages) {q : Program}
    (hq : ∀ {ty t}, q.types.get? ty = some t → t.newName = none) (name : String) :
    Prepared p { engine := e.recordType ty t name, program := q } := by
  have hcases : ∀ {ty' x}, (e.recordType ty t name).types.get? ty' = some x →
      ty' = ty ∧ x = { package := PackagePath.ofText t.package, newName := name } ∨
        r.engine.types.get? ty' = some x := by
    intro ty' x hx
    unfold Engine.recordType at hx
    rw [Table.get?_insert, htypes] at hx
    by_cases hty : ty = ty'
    · rw [if_pos hty] at hx
      exact Or.inl ⟨hty.symm, (Option.some.inj hx).symm⟩
    · rw [if_neg hty] at hx
      exact Or.inr hx
  constructor
  · exact hq
  · intro ty' x hx
    rcases hcases hx with ⟨-, hnew⟩ | hold
    · rw [hnew]
      exact ⟨rfl, rfl⟩
    · exact h.blank hold
  · intro ty' x hx
    rcases hcases hx with ⟨hty, hnew⟩ | hold
    · rcases ht with ⟨s, hs, hst⟩
      rw [hty, hnew]
      have hpackage := TypeSymbol.agree hst TypeSymbol.package fun _ => rfl
      exact ⟨s, hs, congrArg PackagePath.ofText hpackage.symm⟩
    · exact h.package hold
  · show ∀ {ty' t'}, p.types.get? ty' = some t' → e.packages.Has (PackagePath.ofText t'.package)
    rw [hpackages]
    exact h.packages

theorem Prepared.nameType (h : Prepared p r) {ty : TypeId} {t : TypeSymbol}
    (ht : ∃ s, p.types.get? ty = some s ∧ s.declared = t.declared) :
    Prepared p (r.nameType ty t) := by
  unfold Run.nameType
  split
  · apply h.recordType ht
    · rfl
    · rfl
    · intro ty' u hu
      unfold Program.withoutSourceFile at hu
      rw [Arena.get?_modify] at hu
      split at hu
      · rcases Option.map_eq_some_iff.mp hu with ⟨s, hs, hsu⟩
        rw [← hsu]
        show s.newName = none
        exact h.unnamed hs
      · exact h.unnamed hu
  · dsimp only
    apply h.recordType ht
    · rfl
    · rfl
    · exact h.unnamed

theorem Prepared.decideType (h : Prepared p r) {ty : TypeId} {t : TypeSymbol}
    (ht : ∃ s, p.types.get? ty = some s ∧ s.declared = t.declared) :
    Prepared p (r.decideType ty t) := by
  unfold Run.decideType
  split
  · rename_i preset _
    dsimp only
    apply h.recordType ht
    · exact Engine.view_usableOr Engine.types (Engine.draw t.scope) (fun _ => rfl)
        (fun _ _ => rfl) r.engine t.fullName preset
    · exact Engine.view_usableOr Engine.packages (Engine.draw t.scope) (fun _ => rfl)
        (fun _ _ => rfl) r.engine t.fullName preset
    · exact h.unnamed
  · split
    · exact h
    · exact h.nameType ht

theorem Prepared.discoverType (h : Prepared p r) {entry : TypeId × TypeSymbol}
    (ht : ∃ s, p.types.get? entry.1 = some s ∧ s.declared = entry.2.declared) :
    Prepared p (r.discoverType entry) := by
  have htype := (h.decidePackage entry.2).decideType ht
  exact htype.spares (sparesTypes_discoverType r entry)

/-- Before the first decision nothing is kept, and the tree has all packages. -/
theorem prepared_seed {e : Engine} (he : e.Unused) (p : Program) :
    Prepared p { engine := e.seed p.clearAliases, program := p.clearAliases } := by
  have hnone : ∀ ty, e.types.get? ty = none := by
    intro ty
    rw [he.types]
    rfl
  constructor
  · intro ty t ht
    unfold Program.clearAliases at ht
    rw [Arena.get?_map] at ht
    rcases Option.map_eq_some_iff.mp ht with ⟨s, -, hst⟩
    rw [← hst]
  · intro ty x hx
    cases (hnone ty).symm.trans hx
  · intro ty x hx
    cases (hnone ty).symm.trans hx
  · intro ty t ht
    rcases Program.type_of_declared Program.declared_clearAliases.symm ht with ⟨s, hs, hst⟩
    rw [← TypeSymbol.agree hst TypeSymbol.package fun _ => rfl]
    exact PackageTree.has_foldl_create he.root (Arena.mem_toList_of_get? hs)

/-- The same holds when all has been decided. -/
theorem prepared_discover {e : Engine} (he : e.Unused) (p : Program) :
    Prepared p (Run.discover { engine := e, program := p.clearAliases }) := by
  have hall : Prepared p (p.clearAliases.types.entries.foldl Run.discoverType
      { engine := e.seed p.clearAliases, program := p.clearAliases }) := by
    apply List.foldlRecOn _ _ (prepared_seed he p)
    intro r hr entry hentry
    apply hr.discoverType
    exact Program.type_of_declared Program.declared_clearAliases (Arena.mem_entries_iff.mp hentry)
  rw [Run.discover]
  dsimp only
  generalize p.clearAliases.types.entries.foldl Run.discoverType _ = r at hall
  exact hall.spares ⟨rfl, rfl, rfl⟩

/-- The package of every type was seen. -/
theorem Prepared.packageAlias (h : Prepared p r) {ty : TypeId} {t : TypeSymbol}
    (ht : p.types.get? ty = some t) : r.engine.packageAlias t.package =
      some (r.engine.packages.fullAlias (PackagePath.ofText t.package)) :=
  Engine.packageAlias_of_has (h.packages ht)

/-- Every type is emitted under the alias of its declared package. -/
theorem Prepared.packageName (h : Prepared p r) {ty : TypeId} {t : TypeSymbol}
    (ht : p.types.get? ty = some t) : r.engine.packageName ty t =
      r.engine.packages.fullAlias (PackagePath.ofText t.package) := by
  unfold Engine.packageName
  cases hx : r.engine.types.get? ty with
  | some x =>
    rcases h.package hx with ⟨s, hs, hpackage⟩
    rw [ht] at hs
    cases hs
    show r.engine.packages.fullAlias x.package = _
    rw [hpackage]
  | none =>
    show (r.engine.packageAlias t.package).getD t.package = _
    rw [h.packageAlias ht]
    rfl

theorem Prepared.remembers (h : Prepared p r) : r.engine.Remembers p where
  chain := by
    intro ty x name hx hname
    rw [(h.blank hx).1] at hname
    cases hname
  fullName := by
    intro ty x name t hx hname _
    rw [(h.blank hx).2] at hname
    cases hname

end Run

/-! ## Titles -/

namespace Engine

/-- The new full name of the type `t` in slot `ty`, if it gets one. -/
def title (e : Engine) (p : Program) (ty : TypeId) (t : TypeSymbol) : Option String :=
  let name := e.composed p ty t
  if name != t.fullName && !Ident.hasDigit name then some name else none

variable {e : Engine} {p : Program}

theorem title_of_declared {s t : TypeSymbol} (hst : s.declared = t.declared) (ty : TypeId) :
    e.title p ty s = e.title p ty t := by
  have hname : s.fullName = t.fullName := TypeSymbol.agree hst TypeSymbol.fullName fun _ => rfl
  unfold title
  rw [composed_of_declared rfl hst, hname]

/-- A type with its title is shown under the name composed for it, unless that holds a digit. -/
theorem displayName_of_title {ty : TypeId} {t : TypeSymbol} (h : t.newName = e.title p ty t) :
    t.displayName =
      if Ident.hasDigit (e.composed p ty t) then t.fullName else e.composed p ty t := by
  unfold TypeSymbol.displayName
  rw [h, title]
  cases Ident.hasDigit (e.composed p ty t) with
  | true =>
    rw [Bool.not_true, Bool.and_false]
    rfl
  | false =>
    rw [Bool.not_false, Bool.and_true]
    by_cases hsame : e.composed p ty t = t.fullName
    · rw [hsame, bne_self_eq_false]
      rfl
    · rw [bne_iff_ne.mpr hsame]
      rfl

end Engine

/-! ## Binding -/

namespace Run

/-- The types of `done`, and no others, have the titles that `e` gives them. -/
structure Titled (p : Program) (e : Engine) (done : List TypeId) (r : Run) : Prop where
  declared : r.program.declared = p.declared
  alike : e.AlikeTypes r.engine
  remembers : r.engine.Remembers p
  newName : ∀ {ty t}, r.program.types.get? ty = some t →
    t.newName = if ty ∈ done then e.title p ty t else none

variable {p : Program} {e : Engine} {done : List TypeId} {r r' : Run}

theorem Titled.spares (h : Titled p e done r) (hs : r.SparesTypes r')
    (hdeclared : r'.program.declared = r.program.declared) : Titled p e done r' := by
  have halike := hs.alikeTypes
  constructor
  · rw [hdeclared, h.declared]
  · exact h.alike.trans halike
  · exact h.remembers.alikeTypes halike hs.records
  · rw [hs.types]
    exact h.newName

/-- Binding the alias of a type changes that type only, and only where it is renamed. -/
theorem type_applyType (r : Run) (ty : TypeId) (t : TypeSymbol) {name : String}
    (hname : (r.engine.fullName r.program ty t).1 = name) {ty' : TypeId} {u : TypeSymbol}
    (hu : (r.applyType ty t).program.types.get? ty' = some u) :
    ∃ s, r.program.types.get? ty' = some s ∧ s.declared = u.declared ∧
      u.newName = if ty' = ty ∧ (name != t.fullName && !Ident.hasDigit name) then some name
        else s.newName := by
  unfold Run.applyType at hu
  dsimp only at hu
  rw [hname] at hu
  split at hu
  · rename_i hrenamed
    unfold Program.withTypeAlias at hu
    rw [Arena.get?_modify] at hu
    by_cases hty : ty' = ty
    · rw [if_pos hty.symm] at hu
      rcases Option.map_eq_some_iff.mp hu with ⟨s, hs, hsu⟩
      refine ⟨s, hs, ?_, ?_⟩
      · rw [← hsu]
        rfl
      · rw [← hsu, if_pos ⟨hty, hrenamed⟩]
    · rw [if_neg fun heq => hty heq.symm] at hu
      exact ⟨u, hu, rfl, (if_neg fun hand => hty hand.1).symm⟩
  · rename_i hkept
    exact ⟨u, hu, rfl, (if_neg fun hand => hkept hand.2).symm⟩

theorem Titled.applyType (h : Titled p e done r) (hp : p.WellFormed) {ty : TypeId}
    {t : TypeSymbol} (ht : ∃ s, p.types.get? ty = some s ∧ s.declared = t.declared)
    (hnew : ty ∉ done) : Titled p e (done ++ [ty]) (r.applyType ty t) := by
  have hslot : ∃ s, r.program.types.get? ty = some s ∧ s.declared = t.declared := by
    rcases ht with ⟨s, hs, hst⟩
    rcases Program.type_of_declared h.declared.symm hs with ⟨s', hs', hss⟩
    exact ⟨s', hs', hss.trans hst⟩
  -- names are composed from declarations, so earlier titles do not show in later ones
  rcases (h.remembers.of_declared h.declared.symm).fullName_eq
    (hp.of_declared h.declared.symm) hslot with ⟨hname, hremembers⟩
  have halike := (Engine.recalls_fullName r.engine r.program ty t).alikeTypes
  have hcomposed : (r.engine.fullName r.program ty t).1 = e.composed p ty t := by
    rw [hname, h.alike.composed, Engine.composed_of_declared h.declared rfl]
  constructor
  · rw [(spares_applyType r ty t).declared, h.declared]
  · exact h.alike.trans halike
  · exact hremembers.of_declared h.declared
  · intro ty' u hu
    rcases type_applyType r ty t hcomposed hu with ⟨s, hs, hsu, hnewName⟩
    rw [hnewName, h.newName hs, Engine.title_of_declared hsu]
    by_cases hty : ty' = ty
    · have hst : s.declared = t.declared := by
        rcases hslot with ⟨s', hs', hst⟩
        rw [hty, hs'] at hs
        cases hs
        exact hst
      rw [hty, if_neg hnew, if_pos (List.mem_append_right done List.mem_cons_self),
        Engine.title_of_declared (hsu.symm.trans hst), Engine.title]
      simp only [true_and]
    · have hmem : ty' ∈ done ++ [ty] ↔ ty' ∈ done := by simp [hty]
      rw [if_neg fun hand => hty hand.1]
      simp only [hmem]

theorem Titled.applyEntry (h : Titled p e done r) (hp : p.WellFormed)
    {entry : TypeId × TypeSymbol}
    (ht : ∃ s, p.types.get? entry.1 = some s ∧ s.declared = entry.2.declared)
    (hnew : entry.1 ∉ done) : Titled p e (done ++ [entry.1]) (r.applyEntry entry) := by
  have hfields : Titled p e (done ++ [entry.1])
      (((r.applyType entry.1 entry.2).program.fieldsOf entry.1).foldl (applyField entry.2)
        (r.applyType entry.1 entry.2)) :=
    (h.applyType hp ht hnew).spares (SparesTypes.foldl (sparesTypes_applyField entry.2) _ _)
      (Spares.foldl (spares_applyField entry.2) _ _).declared
  rw [Run.applyEntry]
  exact hfields.spares (SparesTypes.foldl (sparesTypes_applyMethod entry.2) _ _)
    (Spares.foldl (spares_applyMethod entry.2) _ _).declared

/-- One type after the other gets its title. -/
theorem Titled.foldl_applyEntry (h : Titled p e done r) (hp : p.WellFormed)
    {l : List (TypeId × TypeSymbol)}
    (hl : ∀ entry ∈ l, ∃ s, p.types.get? entry.1 = some s ∧ s.declared = entry.2.declared)
    (hnodup : (done ++ l.map Prod.fst).Nodup) :
    Titled p e (done ++ l.map Prod.fst) (l.foldl Run.applyEntry r) := by
  induction l generalizing done r with
  | nil =>
    rw [List.map_nil, List.append_nil]
    exact h
  | cons entry l ih =>
    rw [List.map_cons, List.append_cons] at hnodup ⊢
    have hnew : entry.1 ∉ done := by
      intro hmem
      have happ := (List.nodup_append.mp (List.nodup_append.mp hnodup).1).2.2
      exact happ _ hmem _ List.mem_cons_self rfl
    rw [List.foldl_cons]
    apply ih (h.applyEntry hp (hl entry List.mem_cons_self) hnew)
    · exact fun entry' hmem => hl entry' (List.mem_cons_of_mem _ hmem)
    · exact hnodup

/-- Deciding leaves the declarations as they are. -/
theorem declared_discover (hp : p.WellFormed) {e : Engine} (he : e.Unused) :
    (Run.discover { engine := e, program := p.clearAliases }).program.declared = p.declared := by
  have hcleared := hp.of_declared (Program.declared_clearAliases (p := p)).symm
  have hgrouped := grouped_discover (r := { engine := e, program := p.clearAliases }) hcleared
    he.groups (Program.marked_clearAliases p)
  exact hgrouped.declared.trans Program.declared_clearAliases

/-- Binding decides nothing for types. -/
theorem alikeTypes_apply (r : Run) : r.engine.AlikeTypes r.apply.engine := by
  rw [Run.apply]
  apply List.foldlRecOn (motive := fun r' : Run => r.engine.AlikeTypes r'.engine)
  · exact ⟨rfl, fun _ => rfl⟩
  · intro r' hr' entry _
    have htype : r'.engine.AlikeTypes (r'.applyType entry.1 entry.2).engine :=
      (Engine.recalls_fullName r'.engine r'.program entry.1 entry.2).alikeTypes
    exact (hr'.trans htype).trans (sparesTypes_applyEntry r' entry).alikeTypes

/-- Nor does unification. -/
theorem alikeTypes_unify (r : Run) : r.engine.AlikeTypes r.unified.engine := ⟨rfl, fun _ => rfl⟩

theorem alikeTypes_unified (e : Engine) (p : Program) :
    (Run.discover { engine := e, program := p.clearAliases }).engine.AlikeTypes
      (e.bound p).unified.engine :=
  (alikeTypes_apply (Run.discover { engine := e, program := p.clearAliases })).trans
    (alikeTypes_unify (e.bound p))

theorem remembers_unified (h : r.engine.Remembers p) : r.unified.engine.Remembers p :=
  h.alikeTypes (alikeTypes_unify r) (knownTypes_unified r)

/-- Binding gives every type its title. -/
theorem Titled.apply (h : Titled p e [] r) (hp : p.WellFormed) :
    ∃ done, (∀ {ty t}, r.apply.program.types.get? ty = some t → ty ∈ done) ∧
      Titled p e done r.apply := by
  -- every type is listed, and listed once
  have hend := h.foldl_applyEntry hp (l := r.program.types.entries)
    (fun entry hentry => Program.type_of_declared h.declared (Arena.mem_entries_iff.mp hentry))
    (Arena.nodup_entries _)
  rw [Run.apply]
  refine ⟨_, fun {ty t} ht => ?_, hend⟩
  rcases Program.type_of_declared (hend.declared.trans h.declared.symm) ht with ⟨s, hs, -⟩
  exact List.mem_map.mpr ⟨(ty, s), Arena.mem_entries_iff.mpr hs, rfl⟩

/-- When all aliases are bound, the types that were listed have their titles. -/
theorem titled_bound (hp : p.WellFormed) {e : Engine} (he : e.Unused) :
    ∃ done, (∀ {ty t}, (e.bound p).program.types.get? ty = some t → ty ∈ done) ∧
      Titled p (Run.discover { engine := e, program := p.clearAliases }).engine done
        (e.bound p) := by
  have hprepared := prepared_discover he p
  exact Titled.apply ⟨declared_discover hp he, ⟨rfl, fun _ => rfl⟩, hprepared.remembers,
    fun hu => hprepared.unnamed hu⟩ hp

/-- When all aliases are bound, every type has its title. -/
theorem newName_bound (hp : p.WellFormed) {e : Engine} (he : e.Unused) {ty : TypeId}
    {t : TypeSymbol} (ht : (e.bound p).program.types.get? ty = some t) :
    t.newName =
      (Run.discover { engine := e, program := p.clearAliases }).engine.title p ty t := by
  rcases titled_bound hp he with ⟨done, hdone, htitled⟩
  rw [htitled.newName ht, if_pos (hdone ht)]

/-- After a run the engine answers the full names that were composed for the types. -/
theorem fullNameAt_unified (hp : p.WellFormed) {e : Engine} (he : e.Unused) {q : Program}
    (hpq : p.declared = q.declared) {ty : TypeId} {t : TypeSymbol}
    (ht : q.types.get? ty = some t) :
    ((e.bound p).unified.engine.fullNameAt q ty).map Prod.fst =
      .ok ((Run.discover { engine := e, program := p.clearAliases }).engine.composed p ty t) := by
  rcases titled_bound hp he with ⟨done, -, htitled⟩
  have hremembers := remembers_unified htitled.remembers
  rw [(hremembers.of_declared hpq).fullNameAt_eq (hp.of_declared hpq) ht,
    (alikeTypes_unified e p).composed, ← Engine.composed_of_declared hpq rfl]

end Run
end Renamer
