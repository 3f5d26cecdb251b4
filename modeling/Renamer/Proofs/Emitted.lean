import Renamer.Proofs.PackageAliases
import Renamer.Proofs.Uniqueness

/-!
# Emitted names of types

A type is emitted under the path of its package, the names of the types around it and its own
name. Names are kept apart scope by scope; whether two types of different scopes are emitted under
different names depends on whether the parts can be read off again. A dot in a short name can pass
for that of a package, and a dollar sign for that of a nested type.

* `Run.Housed` holds while aliases are decided: packages side by side have different aliases.
* `Run.eq_of_chainOf_eq` reads the types around a type off the composed name.
-/

namespace Renamer

/-! ## Names shown -/

/-- Two names are shown differently if they are composed and declared differently, where a
composed name holds a digit only if the declared one does. -/
theorem Ident.shown_ne_of_hasDigit {a b s t : String} (hab : a ≠ b) (hst : s ≠ t)
    (ha : hasDigit a = true → hasDigit s = true) (hb : hasDigit b = true → hasDigit t = true) :
    (if hasDigit a then s else a) ≠ (if hasDigit b then t else b) := by
  split
  · rename_i hyes
    split
    · exact hst
    · rename_i hno
      exact fun heq => hno (heq ▸ ha hyes)
  · rename_i hno
    split
    · rename_i hyes
      exact fun heq => hno (heq ▸ hb hyes)
    · exact hab

namespace Program

/-- No two types have one full name. -/
def DistinctFullNames (p : Program) : Prop :=
  ∀ a ∈ p.types.entries, ∀ b ∈ p.types.entries, a.1 ≠ b.1 → a.2.fullName ≠ b.2.fullName

instance (p : Program) : Decidable p.DistinctFullNames :=
  inferInstanceAs (Decidable (∀ a ∈ p.types.entries, ∀ b ∈ p.types.entries, a.1 ≠ b.1 →
    a.2.fullName ≠ b.2.fullName))

/-- No package path has an empty segment. -/
def GaplessPackages (p : Program) : Prop := ∀ t ∈ p.types.toList, PackagePath.Gapless t.package

instance (p : Program) : Decidable p.GaplessPackages :=
  inferInstanceAs (Decidable (∀ t ∈ p.types.toList, PackagePath.Gapless t.package))

variable {p : Program} {i j : TypeId} {s t : TypeSymbol}

theorem DistinctFullNames.ne (h : p.DistinctFullNames) (hs : p.types.get? i = some s)
    (ht : p.types.get? j = some t) (hij : i ≠ j) : s.fullName ≠ t.fullName :=
  h (i, s) (Arena.mem_entries_iff.mpr hs) (j, t) (Arena.mem_entries_iff.mpr ht) hij

/-- Types of one scope with different full names have different short names. -/
theorem shortName_ne_of_scope_eq (hp : p.WellFormed) (hs : p.types.get? i = some s)
    (ht : p.types.get? j = some t) (hscope : s.scope = t.scope) (hne : s.fullName ≠ t.fullName) :
    s.shortName ≠ t.shortName := by
  rcases fullName_of_scope_eq hp hs ht hscope with ⟨front, hsfull, htfull⟩
  intro hshort
  exact hne (by rw [hsfull, htfull, hshort])

theorem hasDigit_topLevelName (package name : String) :
    Ident.hasDigit (topLevelName package name) =
      (Ident.hasDigit package || Ident.hasDigit name) := by
  unfold topLevelName
  split
  · rename_i hempty
    rw [String.isEmpty_iff.mp hempty]
    rfl
  · have hdot : Ident.hasDigit packageSeparator = false := rfl
    rw [Ident.hasDigit_append, Ident.hasDigit_append, hdot, Bool.or_false]

/-- Package and name can be read off where the name has no dot. -/
theorem topLevelName_inj {a b x y : String} (hx : '.' ∉ x.toList) (hy : '.' ∉ y.toList)
    (h : topLevelName a x = topLevelName b y) : a = b ∧ x = y := by
  have hdot : ∀ {c z : String}, c.isEmpty = false →
      (topLevelName c z).toList = c.toList ++ '.' :: z.toList := by
    intro c z hc
    rw [topLevelName, hc, if_neg Bool.false_ne_true, String.toList_append, String.toList_append,
      List.append_assoc]
    rfl
  have hbare : ∀ {c z : String}, c.isEmpty = true → topLevelName c z = z := by
    intro c z hc
    rw [topLevelName, hc, if_pos rfl]
  have hchars := congrArg String.toList h
  cases ha : a.isEmpty with
  | true =>
    rw [hbare ha] at hchars
    cases hb : b.isEmpty with
    | true =>
      rw [hbare hb] at hchars
      exact ⟨(String.isEmpty_iff.mp ha).trans (String.isEmpty_iff.mp hb).symm,
        String.toList_inj.mp hchars⟩
    | false =>
      rw [hdot hb] at hchars
      exact absurd (hchars ▸ List.mem_append_right _ List.mem_cons_self) hx
  | false =>
    rw [hdot ha] at hchars
    cases hb : b.isEmpty with
    | true =>
      rw [hbare hb] at hchars
      exact absurd (hchars ▸ List.mem_append_right _ List.mem_cons_self) hy
    | false =>
      rw [hdot hb] at hchars
      rcases Word.append_cons_inj_of_last hx hy hchars with ⟨hab, hxy⟩
      exact ⟨String.toList_inj.mp hab, String.toList_inj.mp hxy⟩

/-- A digit in the package or the short name of a type is in its full name. -/
theorem hasDigit_fullName (hp : p.WellFormed) (ht : p.types.get? i = some t) :
    (Ident.hasDigit t.package = true → Ident.hasDigit t.fullName = true) ∧
      (Ident.hasDigit t.shortName = true → Ident.hasDigit t.fullName = true) := by
  -- a nested type has the package of the type around it
  induction hindex : i.index using Nat.strongRecOn generalizing i t with
  | ind n ih =>
    cases henclosing : t.enclosing with
    | none =>
      rw [hp.topLevel ht henclosing, hasDigit_topLevelName, Bool.or_eq_true]
      exact ⟨Or.inl, Or.inr⟩
    | some outer =>
      rcases hp.nested ht henclosing with ⟨o, ho, hlt, hpackage, hname⟩
      rw [hname, Ident.hasDigit_append, Ident.hasDigit_append]
      constructor
      · intro hdigit
        have houter := (ih outer.index (hindex ▸ hlt) ho rfl).1 (hpackage ▸ hdigit)
        rw [houter]
        rfl
      · intro hdigit
        rw [hdigit, Bool.or_true]

/-- Types of one package are in one scope if they are top-level. -/
theorem scope_eq_of_topLevel (hs : s.enclosing = none) (ht : t.enclosing = none)
    (hpackage : s.package = t.package) : s.scope = t.scope := by
  rw [TypeSymbol.scope, TypeSymbol.scope, hs, ht, hpackage]

/-- The last parts along a lineage are a matter of declarations. -/
theorem lineage_of_declared {q : Program} (h : p.declared = q.declared) {x : TypeId × TypeSymbol}
    (hx : x ∈ p.lineage i) : ∃ y ∈ q.lineage i, y.1 = x.1 ∧ y.2.declared = x.2.declared := by
  have hmem : (x.1, x.2.declared) ∈ q.declared.lineage i := by
    rw [← h, lineage_declared]
    exact List.mem_map.mpr ⟨x, hx, rfl⟩
  rw [lineage_declared] at hmem
  rcases List.mem_map.mp hmem with ⟨y, hy, heq⟩
  exact ⟨y, hy, (Prod.mk.inj heq).1, (Prod.mk.inj heq).2⟩

end Program

namespace Run

variable {p : Program} {r r' : Run}

/-! ## Packages -/

/-- The tree has all packages of the program, and aliases keep them apart. -/
structure Housed (p : Program) (r : Run) : Prop where
  packages : ∀ {ty t}, p.types.get? ty = some t →
    ∀ a ∈ (PackagePath.ofText t.package).lineage, r.engine.packages.Has a
  apart : r.engine.packages.Apart

theorem Housed.of_packages (h : Housed p r) (hpackages : r'.engine.packages = r.engine.packages) :
    Housed p r' := by
  constructor
  · rw [hpackages]
    exact h.packages
  · rw [hpackages]
    exact h.apart

theorem Housed.spares (h : Housed p r) (hs : r.SparesTypes r') : Housed p r' :=
  h.of_packages hs.packages

theorem Housed.decidePackage (h : Housed p r) {ty : TypeId} {t : TypeSymbol}
    (ht : ∃ s, p.types.get? ty = some s ∧ s.declared = t.declared) :
    Housed p { r with engine := r.engine.decidePackage t } := by
  rcases ht with ⟨s, hs, hst⟩
  have hall := h.packages hs
  rw [TypeSymbol.agree hst TypeSymbol.package fun _ => rfl] at hall
  have hcreate := PackageTree.create_eq_self hall
  have hapart := h.apart.decide hall r.engine.rejects r.engine.source
  refine ⟨fun hu a ha => Engine.has_decidePackage (h.packages hu a ha) t, ?_⟩
  show (r.engine.decidePackage t).packages.Apart
  rw [Engine.packages_decidePackage, hcreate]
  exact hapart

theorem Housed.discoverType (h : Housed p r) {entry : TypeId × TypeSymbol}
    (ht : ∃ s, p.types.get? entry.1 = some s ∧ s.declared = entry.2.declared) :
    Housed p (r.discoverType entry) := by
  have htype := (h.decidePackage ht).of_packages (packages_decideType _ entry.1 entry.2)
  exact htype.spares (sparesTypes_discoverType r entry)

/-- When all is decided, packages side by side have different aliases. -/
theorem housed_discover (e : Engine) (p : Program) :
    Housed p (Run.discover { engine := e.reset, program := p.clearAliases }) := by
  have hnone : ∀ a, (e.reset.seed p.clearAliases).packages.aliasOf a = none := by
    intro a
    show (p.clearAliases.types.toList.foldl
      (fun t s => t.create (PackagePath.ofText s.package)) ({} : PackageTree)).aliasOf a = none
    apply List.foldlRecOn (motive := fun t : PackageTree => t.aliasOf a = none)
    · exact PackageTree.aliasOf_empty a
    · exact fun t ht s _ => (PackageTree.aliasOf_create t _ a).trans ht
  have hseed : Housed p { engine := e.reset.seed p.clearAliases, program := p.clearAliases } := by
    refine ⟨fun ht a ha => ?_, PackageTree.apart_of_aliasOf_eq_none hnone⟩
    rcases Program.type_of_declared Program.declared_clearAliases.symm ht with ⟨s, hs, hst⟩
    rw [← TypeSymbol.agree hst TypeSymbol.package fun _ => rfl] at ha
    exact PackageTree.has_foldl_create_of_mem (Arena.mem_toList_of_get? hs) ha
  have hall : Housed p (p.clearAliases.types.entries.foldl Run.discoverType
      { engine := e.reset.seed p.clearAliases, program := p.clearAliases }) := by
    apply List.foldlRecOn _ _ hseed
    intro r hr entry hentry
    apply hr.discoverType
    exact Program.type_of_declared Program.declared_clearAliases (Arena.mem_entries_iff.mp hentry)
  rw [Run.discover]
  exact hall.of_packages rfl

/-! ## Digits -/

/-- A chain that holds a digit stands for a full name that does. -/
theorem Settled.hasDigit_of_chainOf (h : Settled p r) (hp : p.WellFormed) {i : TypeId}
    {t : TypeSymbol} (ht : p.types.get? i = some t)
    (hdigit : Ident.hasDigit (r.engine.chainOf (p.lineage i)) = true) :
    Ident.hasDigit t.fullName = true := by
  induction hindex : i.index using Nat.strongRecOn generalizing i t with
  | ind n ih =>
    have hlast : Ident.hasDigit (r.engine.lastPart i t) = true →
        Ident.hasDigit t.fullName = true := by
      intro hpart
      rw [h.lastPart_eq_of_hasDigit hpart] at hpart
      exact (Program.hasDigit_fullName hp ht).2 hpart
    cases henclosing : t.enclosing with
    | none =>
      rw [Program.lineage_of_topLevel ht henclosing] at hdigit
      exact hlast hdigit
    | some outer =>
      rcases hp.nested ht henclosing with ⟨o, ho, hlt, -, hname⟩
      rw [Engine.chainOf_of_nested hp ht henclosing, Ident.hasDigit_append,
        Ident.hasDigit_append, Bool.or_eq_true, Bool.or_eq_true] at hdigit
      rcases hdigit with (houter | hdollar) | hpart
      · have hfull := ih outer.index (hindex ▸ hlt) ho houter rfl
        rw [hname, Ident.hasDigit_append, Ident.hasDigit_append, hfull]
        rfl
      · cases hdollar
      · exact hlast hpart

/-- A composed name that holds a digit stands for a full name that does. -/
theorem Housed.hasDigit_of_composed (hr : Housed p r) (h : Settled p r) (hprepared : Prepared p r)
    (hp : p.WellFormed) (hpackages : p.GaplessPackages) {i : TypeId} {t : TypeSymbol}
    (ht : p.types.get? i = some t) (hdigit : Ident.hasDigit (r.engine.composed p i t) = true) :
    Ident.hasDigit t.fullName = true := by
  have hparts : Ident.hasDigit (Program.topLevelName (r.engine.packageName i t)
      (r.engine.chainOf (p.lineage i))) = true := hdigit
  rw [Program.hasDigit_topLevelName, Bool.or_eq_true, hprepared.packageName ht] at hparts
  rcases hparts with hpackage | hchain
  · have hdeclared := hr.apart.hasDigit_of_fullAlias _ hpackage
    rw [PackagePath.text_ofText (hpackages t (Arena.mem_toList_of_get? ht))] at hdeclared
    exact (Program.hasDigit_fullName hp ht).1 hdeclared
  · exact h.hasDigit_of_chainOf hp ht hchain

/-! ## Reading composed names -/

theorem notMem_chainOf {e : Engine} {c : Char} (hc : c ∉ nestedSeparator.toList)
    {l : List (TypeId × TypeSymbol)} (h : ∀ x ∈ l, c ∉ (e.lastPart x.1 x.2).toList) :
    c ∉ (e.chainOf l).toList := by
  induction l with
  | nil => exact List.not_mem_nil
  | cons x outer ih =>
    rcases x with ⟨ty, t⟩
    have hlast := h (ty, t) List.mem_cons_self
    have hrest := ih fun y hy => h y (List.mem_cons_of_mem _ hy)
    rw [Engine.chainOf]
    split
    · exact hlast
    · rw [String.toList_append, String.toList_append, List.mem_append, List.mem_append, not_or,
        not_or]
      exact ⟨⟨hrest, hc⟩, hlast⟩

/-- The package of a type can be read off where its chain has no dot. -/
theorem Housed.package_of_composed (hr : Housed p r) (hprepared : Prepared p r)
    (hpackages : p.GaplessPackages) {i j : TypeId} {s t : TypeSymbol}
    (hs : p.types.get? i = some s) (ht : p.types.get? j = some t)
    (hsdot : '.' ∉ (r.engine.chainOf (p.lineage i)).toList)
    (htdot : '.' ∉ (r.engine.chainOf (p.lineage j)).toList)
    (heq : r.engine.composed p i s = r.engine.composed p j t) :
    s.package = t.package ∧ r.engine.chainOf (p.lineage i) = r.engine.chainOf (p.lineage j) := by
  have hparts : Program.topLevelName (r.engine.packageName i s)
      (r.engine.chainOf (p.lineage i)) = Program.topLevelName (r.engine.packageName j t)
        (r.engine.chainOf (p.lineage j)) := heq
  rcases Program.topLevelName_inj hsdot htdot hparts with ⟨hpackage, hchain⟩
  refine ⟨?_, hchain⟩
  rw [hprepared.packageName hs, hprepared.packageName ht] at hpackage
  have hpaths := hr.apart.eq_of_fullAlias_eq (hr.packages hs) (hr.packages ht)
    (fun _ => PackagePath.isSegment_of_mem_ofText) (fun _ => PackagePath.isSegment_of_mem_ofText)
    hpackage
  rw [← PackagePath.text_ofText (hpackages s (Arena.mem_toList_of_get? hs)), hpaths,
    PackagePath.text_ofText (hpackages t (Arena.mem_toList_of_get? ht))]

/-- In one scope a type is known by its last part. -/
theorem Settled.eq_of_lastPart_eq (h : Settled p r) (hp : p.WellFormed)
    (hnames : p.DistinctFullNames) {i j : TypeId} {s t : TypeSymbol}
    (hs : p.types.get? i = some s) (ht : p.types.get? j = some t) (hscope : s.scope = t.scope)
    (hlast : r.engine.lastPart i s = r.engine.lastPart j t) : i = j := by
  by_contra hij
  have hshort := Program.shortName_ne_of_scope_eq hp hs ht hscope (hnames.ne hs ht hij)
  exact h.lastPart_ne hs ht hij hscope hshort hlast

/-- The chain of a nested type is cut at a dollar sign. -/
theorem toList_chainOf_of_nested {e : Engine} (hp : p.WellFormed) {i outer : TypeId}
    {t : TypeSymbol} (ht : p.types.get? i = some t) (henclosing : t.enclosing = some outer) :
    (e.chainOf (p.lineage i)).toList =
      (e.chainOf (p.lineage outer)).toList ++ '$' :: (e.lastPart i t).toList := by
  rw [Engine.chainOf_of_nested hp ht henclosing, String.toList_append, String.toList_append,
    List.append_assoc]
  rfl

/-- A top-level type has not the chain of a nested one, where its last part has no dollar sign. -/
theorem chainOf_ne_of_topLevel {e : Engine} (hp : p.WellFormed) {i j outer : TypeId}
    {s t : TypeSymbol} (hs : p.types.get? i = some s) (hso : s.enclosing = none)
    (ht : p.types.get? j = some t) (hto : t.enclosing = some outer)
    (hplain : ∀ x ∈ p.lineage i, '$' ∉ (e.lastPart x.1 x.2).toList) :
    e.chainOf (p.lineage i) ≠ e.chainOf (p.lineage j) := by
  intro heq
  rw [Program.lineage_of_topLevel hs hso] at hplain
  refine hplain (i, s) List.mem_cons_self ?_
  rw [← Engine.chainOf_of_topLevel hs hso, heq, toList_chainOf_of_nested hp ht hto]
  exact List.mem_append_right _ List.mem_cons_self

/-- Types of one package with one chain are one, where no last part has a dollar sign. -/
theorem Settled.eq_of_chainOf_eq (h : Settled p r) (hp : p.WellFormed)
    (hnames : p.DistinctFullNames) {i j : TypeId} {s t : TypeSymbol}
    (hs : p.types.get? i = some s) (ht : p.types.get? j = some t)
    (hpackage : s.package = t.package)
    (hsplain : ∀ x ∈ p.lineage i, '$' ∉ (r.engine.lastPart x.1 x.2).toList)
    (htplain : ∀ x ∈ p.lineage j, '$' ∉ (r.engine.lastPart x.1 x.2).toList)
    (heq : r.engine.chainOf (p.lineage i) = r.engine.chainOf (p.lineage j)) : i = j := by
  -- on the first of the two types, from the outermost type inwards
  induction hindex : i.index using Nat.strongRecOn generalizing i j s t with
  | ind n ih =>
    cases hso : s.enclosing with
    | none =>
      cases hto : t.enclosing with
      | none =>
        rw [Engine.chainOf_of_topLevel hs hso, Engine.chainOf_of_topLevel ht hto] at heq
        exact h.eq_of_lastPart_eq hp hnames hs ht
          (Program.scope_eq_of_topLevel hso hto hpackage) heq
      | some outer => exact absurd heq (chainOf_ne_of_topLevel hp hs hso ht hto hsplain)
    | some outer =>
      cases hto : t.enclosing with
      | none => exact absurd heq.symm (chainOf_ne_of_topLevel hp ht hto hs hso htplain)
      | some outer' =>
        have hchars := congrArg String.toList heq
        rw [toList_chainOf_of_nested hp hs hso, toList_chainOf_of_nested hp ht hto] at hchars
        rw [Program.lineage_of_nested hp hs hso] at hsplain
        rw [Program.lineage_of_nested hp ht hto] at htplain
        rcases Word.append_cons_inj_of_last (hsplain _ List.mem_cons_self)
          (htplain _ List.mem_cons_self) hchars with ⟨hchain, hlast⟩
        rcases hp.nested hs hso with ⟨o, ho, hlt, hop, -⟩
        rcases hp.nested ht hto with ⟨o', ho', -, hop', -⟩
        have houter : outer = outer' := by
          apply ih outer.index (hindex ▸ hlt) ho ho' (hop.symm.trans (hpackage.trans hop'))
          · exact fun x hx => hsplain x (List.mem_cons_of_mem _ hx)
          · exact fun x hx => htplain x (List.mem_cons_of_mem _ hx)
          · exact String.toList_inj.mp hchain
          · rfl
        have hscope : s.scope = t.scope := by
          rw [TypeSymbol.scope, TypeSymbol.scope, hso, hto, houter]
        exact h.eq_of_lastPart_eq hp hnames hs ht hscope (String.toList_inj.mp hlast)

/-! ## Different types -/

/-- Two types can be told apart by what they are emitted as: they share a scope, or they are
top-level and no dot is in their last parts, or neither a dot nor a dollar sign is in any last part
along them. The engine `e` has decided the aliases. -/
def TellsApart (e : Engine) (p : Program) (i j : TypeId) (s t : TypeSymbol) : Prop :=
  s.scope = t.scope ∨
    (s.enclosing = none ∧ t.enclosing = none ∧ '.' ∉ (e.lastPart i s).toList ∧
      '.' ∉ (e.lastPart j t).toList) ∨
    ∀ x ∈ p.lineage i ++ p.lineage j,
      '.' ∉ (e.lastPart x.1 x.2).toList ∧ '$' ∉ (e.lastPart x.1 x.2).toList

theorem TellsApart.of_declared {e e' : Engine} {q : Program} {i j : TypeId} {s t s' t' : TypeSymbol}
    (h : TellsApart e p i j s t) (he : e'.AlikeTypes e) (hpq : p.declared = q.declared)
    (hs : s'.declared = s.declared) (ht : t'.declared = t.declared) :
    TellsApart e' q i j s' t' := by
  have hlast : ∀ {k : TypeId} {u u' : TypeSymbol}, u'.declared = u.declared →
      e'.lastPart k u' = e.lastPart k u := by
    intro k u u' hu
    rw [he.lastPart]
    exact TypeSymbol.agree hu (fun u => e'.lastPart k u) fun _ => rfl
  rcases h with hscope | ⟨hso, hto, hsdot, htdot⟩ | hplain
  · refine Or.inl ?_
    rw [TypeSymbol.agree hs TypeSymbol.scope fun _ => rfl, hscope,
      TypeSymbol.agree ht TypeSymbol.scope fun _ => rfl]
  · refine Or.inr (Or.inl ?_)
    rw [TypeSymbol.agree hs TypeSymbol.enclosing fun _ => rfl,
      TypeSymbol.agree ht TypeSymbol.enclosing fun _ => rfl,
      hlast hs, hlast ht]
    exact ⟨hso, hto, hsdot, htdot⟩
  · refine Or.inr (Or.inr fun x hx => ?_)
    have hback : ∃ y ∈ p.lineage i ++ p.lineage j, y.1 = x.1 ∧ y.2.declared = x.2.declared := by
      rcases List.mem_append.mp hx with hx | hx
      · rcases Program.lineage_of_declared hpq.symm hx with ⟨y, hy, hyx⟩
        exact ⟨y, List.mem_append_left _ hy, hyx⟩
      · rcases Program.lineage_of_declared hpq.symm hx with ⟨y, hy, hyx⟩
        exact ⟨y, List.mem_append_right _ hy, hyx⟩
    rcases hback with ⟨y, hy, hyx, hdeclared⟩
    rw [← hyx, hlast hdeclared.symm]
    exact hplain y hy

/-- Types that can be told apart are composed different names. -/
theorem Housed.composed_ne (hr : Housed p r) (h : Settled p r) (hprepared : Prepared p r)
    (hp : p.WellFormed) (hnames : p.DistinctFullNames) (hpackages : p.GaplessPackages)
    {i j : TypeId} {s t : TypeSymbol} (hs : p.types.get? i = some s)
    (ht : p.types.get? j = some t) (hij : i ≠ j) (hapart : TellsApart r.engine p i j s t) :
    r.engine.composed p i s ≠ r.engine.composed p j t := by
  have hscoped : s.scope = t.scope → r.engine.composed p i s ≠ r.engine.composed p j t := by
    intro hscope heq
    rcases hprepared.composed_of_scope_eq hp hs ht hscope with ⟨outer, hsouter, htouter⟩
    rw [hsouter, htouter] at heq
    exact hij (h.eq_of_lastPart_eq hp hnames hs ht hscope
      ((String.append_right_inj outer).mp heq))
  rcases hapart with hscope | ⟨hso, hto, hsdot, htdot⟩ | hplain
  · exact hscoped hscope
  · intro heq
    rw [← Engine.chainOf_of_topLevel hs hso] at hsdot
    rw [← Engine.chainOf_of_topLevel ht hto] at htdot
    have hpackage := (hr.package_of_composed hprepared hpackages hs ht hsdot htdot heq).1
    exact hscoped (Program.scope_eq_of_topLevel hso hto hpackage) heq
  · intro heq
    have hsplain := fun x hx => hplain x (List.mem_append_left _ hx)
    have htplain := fun x hx => hplain x (List.mem_append_right _ hx)
    have hdot : '.' ∉ nestedSeparator.toList := by decide
    rcases hr.package_of_composed hprepared hpackages hs ht
      (notMem_chainOf hdot fun x hx => (hsplain x hx).1)
      (notMem_chainOf hdot fun x hx => (htplain x hx).1) heq with ⟨hpackage, hchain⟩
    exact hij (h.eq_of_chainOf_eq hp hnames hs ht hpackage (fun x hx => (hsplain x hx).2)
      (fun x hx => (htplain x hx).2) hchain)

/-- And they are shown under different names. -/
theorem Housed.shown_ne (hr : Housed p r) (h : Settled p r) (hprepared : Prepared p r)
    (hp : p.WellFormed) (hnames : p.DistinctFullNames) (hpackages : p.GaplessPackages)
    {i j : TypeId} {s t : TypeSymbol} (hs : p.types.get? i = some s)
    (ht : p.types.get? j = some t) (hij : i ≠ j) (hapart : TellsApart r.engine p i j s t) :
    (if Ident.hasDigit (r.engine.composed p i s) then s.fullName else r.engine.composed p i s) ≠
      (if Ident.hasDigit (r.engine.composed p j t) then t.fullName
        else r.engine.composed p j t) := by
  apply Ident.shown_ne_of_hasDigit
  · exact hr.composed_ne h hprepared hp hnames hpackages hs ht hij hapart
  · exact hnames.ne hs ht hij
  · exact hr.hasDigit_of_composed h hprepared hp hpackages hs
  · exact hr.hasDigit_of_composed h hprepared hp hpackages ht

end Run

namespace Program

end Program

namespace Engine

end Engine
end Renamer
