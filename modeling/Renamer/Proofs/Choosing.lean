import Renamer.Proofs.Endings

/-!
# What a run without presets renames

Whatever the classifier: without presets an alias is given where the policy rejects the declared
name, and nowhere else.

* `Run.Chosen` says so of types, fields and methods, as far as the pass that decides has come.
* `Run.BoundUpTo` says so of binding: every member decided on has its alias.
* `Run.Lodged` says so of packages: every package lies on the way to a type of the program, and
  those on the way to a type that has been decided on have an alias or need none.
-/

namespace Renamer

/-- `name` is a word that is not reserved, or it may be written as it is. -/
def Policy.Coins (P : Policy) (name : String) : Prop :=
  (∃ n, Ident.isReservedWord (Word.spell n) = false ∧ name = Word.spell n) ∨ P.accepts name = true

theorem Program.presetOf_empty (p : Program) (s : SymbolId) : p.presetOf {} s = none := by
  unfold presetOf
  cases p.identityOf s with
  | none => rfl
  | some identity => cases s <;> rfl

namespace Run

variable {p : Program} {e : Engine} {done rest : List SymbolId} {r r' : Run} {s : SymbolId}
  {name : String}

/-! ## Deciding -/

/-- Of the symbols `done` those have an alias whose names the policy of `e` rejects, and no other
symbol has one. -/
structure Chosen (p : Program) (e : Engine) (done : List SymbolId) (r : Run) : Prop where
  declared : r.program.declared = p.declared
  policy : r.engine.policy = e.policy
  presets : r.engine.presets = {}
  passed : ∀ {s name}, r.engine.aliasOf s = some name → s ∈ done
  decided : ∀ {s name}, s ∈ done → p.nameOf s = some name →
    (r.engine.aliasOf s).isSome = e.rejects name
  coined : ∀ {s name}, r.engine.aliasOf s = some name → e.policy.Coins name

theorem Chosen.leaves (h : Chosen p e done r) (hl : r.Leaves r') : Chosen p e done r' := by
  refine ⟨hl.declared.trans h.declared, hl.policy.trans h.policy, hl.presets.trans h.presets,
    fun {s name} hname => ?_, fun {s name} hs hname => ?_, fun {s name} hname => ?_⟩
  · rw [hl.aliases] at hname
    exact h.passed hname
  · rw [hl.aliases]
    exact h.decided hs hname
  · rw [hl.aliases] at hname
    exact h.coined hname

/-- A symbol with a rejected name is given an alias. -/
theorem Chosen.assigns (h : Chosen p e done r) (ha : r.Assigns p s name r')
    (hcoins : e.policy.Coins name)
    (hrejects : ∀ {own}, p.nameOf s = some own → e.rejects own = true)
    {done' : List SymbolId} (hdone : ∀ s', s' ∈ done' ↔ s' ∈ done ∨ s' = s) :
    Chosen p e done' r' := by
  refine ⟨ha.declared.trans h.declared, ha.policy.trans h.policy, ha.presets.trans h.presets,
    fun {s' name'} hname' => ?_, fun {s' own} hs' hown => ?_, fun {s' name'} hname' => ?_⟩
  · rcases aliasOf_cases ha.aliases hname' with ⟨rfl, -⟩ | ⟨-, hold⟩
    · exact (hdone _).mpr (Or.inr rfl)
    · exact (hdone _).mpr (Or.inl (h.passed hold))
  · rw [ha.aliases]
    split
    · rename_i heq
      rw [hrejects (heq ▸ hown), Option.isSome_some]
    · rename_i hne
      exact h.decided (((hdone s').mp hs').resolve_right hne) hown
  · rcases aliasOf_cases ha.aliases hname' with ⟨-, rfl⟩ | ⟨-, hold⟩
    · exact hcoins
    · exact h.coined hold

/-- Deciding the next symbol gives it an alias where its name is rejected. -/
theorem Chosen.decides (h : Chosen p e done r) (hwalk : p.walk = done ++ s :: rest)
    (hd : Decides p s r r') : Chosen p e (done ++ [s]) r' := by
  have hdone : ∀ s', s' ∈ done ++ [s] ↔ s' ∈ done ∨ s' = s := fun _ =>
    List.mem_append.trans (or_congr_right List.mem_singleton)
  have hnone : p.presetOf r.engine.presets s = none := by
    rw [h.presets, Program.presetOf_empty]
  -- the pass comes to a symbol only once
  have hnew : r.engine.aliasOf s = none :=
    Option.eq_none_iff_forall_ne_some.mpr fun name hname =>
      Program.notMem_of_walk hwalk (h.passed hname)
  cases hd with
  | keep hwhy =>
    refine { h with passed := fun hname => (hdone _).mpr (Or.inl (h.passed hname)), decided := ?_ }
    intro s' own hs' hown
    rcases (hdone s').mp hs' with hold | heq
    · exact h.decided hold hown
    · rw [heq] at hown ⊢
      obtain hsome | ⟨-, hkept⟩ := hwhy
      · rw [hnew] at hsome
        cases hsome
      · have hfalse := hkept own hown
        rw [Engine.rejects, h.policy] at hfalse
        rw [hnew, Engine.rejects, hfalse]
        rfl
  | preset hpreset _ _ _ _ =>
    rw [hnone] at hpreset
    cases hpreset
  | fresh hneeds hfresh ha _ =>
    obtain ⟨-, own, hown, hrejects⟩ | ⟨-, preset, hpreset, -⟩ := hneeds
    · have hgood := hfresh.good
      rw [h.policy] at hgood
      refine h.assigns ha hgood (fun hown' => ?_) hdone
      rw [hown] at hown'
      cases hown'
      rw [Engine.rejects, ← h.policy]
      exact hrejects
    · rw [hnone] at hpreset
      cases hpreset

theorem keeps_chosen_deciding (p : Program) (e : Engine) :
    Pass.deciding.Keeps p fun done r => Chosen p e done r ∧ r.Unbound := by
  apply Pass.keeps_deciding
  case hdeclared => exact fun h => h.1.declared
  case htype =>
    intro done rest r ty t hwalk ht h
    have hpackage := h.1.leaves (leaves_decidePackage r t)
    have hd := decides_decideType (r := { r with engine := r.engine.decidePackage t }) ht
    exact ⟨hpackage.decides hwalk hd, h.2.sameBound hd.sameBound⟩
  case hmember =>
    intro done rest s r r' hwalk _ hd _ h
    exact ⟨h.1.decides hwalk hd, h.2.sameBound hd.sameBound⟩
  case hlink => exact fun hl hb _ _ h => ⟨h.1.leaves hl, h.2.sameBound hb⟩

/-- When all has been decided, the symbols with rejected names have aliases, and nothing is
bound. -/
theorem chosen_discover (p : Program) {e : Engine} (he : e.Unused) (hpresets : e.presets = {}) :
    Chosen p e p.walk (Run.discover { engine := e, program := p.clearAliases }) ∧
      (Run.discover { engine := e, program := p.clearAliases }).Unbound := by
  have hnone : ∀ s, (e.seed p.clearAliases).aliasOf s = none := fun s =>
    (aliasOf_seed e p.clearAliases s).trans (he.aliasOf_eq_none s)
  have hstart : Chosen p e [] { engine := e.seed p.clearAliases, program := p.clearAliases } := by
    refine ⟨Program.declared_clearAliases, rfl, hpresets, fun {s name} hname => ?_,
      fun hs => absurd hs List.not_mem_nil, fun {s name} hname => ?_⟩
    · rw [hnone] at hname
      cases hname
    · rw [hnone] at hname
      cases hname
  obtain ⟨r, ⟨hchosen, hunbound⟩, heq⟩ :=
    (keeps_chosen_deciding p e).discover ⟨hstart, Program.boundAlias_clearAliases⟩
  rw [heq]
  exact ⟨hchosen.leaves (leaves_discovered r), hunbound⟩

/-! ## Binding -/

/-- Binding replaces aliases, but no symbol gets or loses one. -/
theorem Chosen.binds (h : Chosen p e p.walk r) (hs : s ∈ p.walk) (hb : Binds p s r r') :
    Chosen p e p.walk r' := by
  cases hb with
  | skip _ => exact h
  | bind _ _ _ hl _ _ => exact h.leaves hl
  | redraw halias _ _ hfresh ha _ =>
    have hgood := hfresh.good
    rw [h.policy] at hgood
    refine h.assigns ha hgood (fun hown => ?_) fun _ => (or_iff_left_of_imp (· ▸ hs)).symm
    rw [← h.decided hs hown, halias, Option.isSome_some]

/-- The members of `done`, and no others, have been bound to their aliases. -/
def BoundUpTo (done : List SymbolId) (r : Run) : Prop :=
  ∀ s, s.kind ≠ .types →
    r.program.boundAlias s = if s ∈ done then r.engine.aliasOf s else none

/-- A step that binds the alias of one symbol, or of none that has one. -/
theorem BoundUpTo.step (h : BoundUpTo done r)
    (hself : s.kind ≠ .types → r'.program.boundAlias s = r'.engine.aliasOf s)
    (hbound : ∀ s', s' ≠ s → r'.program.boundAlias s' = r.program.boundAlias s')
    (haliases : ∀ s', s' ≠ s → r'.engine.aliasOf s' = r.engine.aliasOf s') :
    BoundUpTo (done ++ [s]) r' := by
  intro s' hkind
  by_cases heq : s' = s
  · rw [heq, if_pos (List.mem_append_right _ List.mem_cons_self), hself (heq ▸ hkind)]
  · have hmem : s' ∈ done ++ [s] ↔ s' ∈ done := by simp [heq]
    rw [hbound s' heq, h s' hkind, haliases s' heq]
    simp only [hmem]

theorem BoundUpTo.binds (h : BoundUpTo done r) (hs : s ∉ done)
    (hne : r.engine.aliasOf s ≠ some "") (hb : Binds p s r r') : BoundUpTo (done ++ [s]) r' := by
  cases hb with
  | skip hwhy =>
    refine h.step (fun hkind => ?_) (fun _ _ => rfl) fun _ _ => rfl
    rw [h s hkind, if_neg hs, hwhy.resolve_right hne]
  | bind halias _ _ hl hbound _ =>
    refine h.step (fun _ => ?_) (fun s' heq => ?_) fun s' _ => hl.aliases s'
    · rw [hbound, if_pos rfl, hl.aliases, halias]
    · rw [hbound, if_neg heq]
  | redraw _ _ _ _ ha hbound =>
    refine h.step (fun _ => ?_) (fun s' heq => ?_) fun s' heq => ?_
    · rw [hbound, if_pos rfl, ha.aliases, if_pos rfl]
    · rw [hbound, if_neg heq]
    · rw [ha.aliases, if_neg heq]

/-- No alias of a member is empty. -/
theorem Settled.aliasOf_ne_empty (h : Settled p r) (hkind : s.kind ≠ .types) :
    r.engine.aliasOf s ≠ some "" := by
  intro hempty
  obtain ⟨n, -, hword⟩ | ⟨ty, rfl, -⟩ := h.word hempty
  · exact Word.spell_ne_empty n hword.symm
  · exact hkind rfl

theorem keeps_chosen_binding (p : Program) (e : Engine) :
    Pass.binding.Keeps p fun done r =>
      Settled p r ∧ Chosen p e p.walk r ∧ BoundUpTo done r where
  declared := fun h => h.2.1.declared
  type := by
    intro done rest r ty t hwalk _ h
    obtain ⟨hl, hb, -⟩ := leaves_applyType r ty t
    refine ⟨h.1.step (step_applyType r ty t), h.2.1.leaves hl, ?_⟩
    exact h.2.2.step (fun hkind => absurd rfl hkind) (fun s' _ => hb s') fun s' _ => hl.aliases s'
  field := by
    intro done rest r ty t id f hwalk _ hf _ h
    have hb := binds_applyField (r := r) (t := t) hf h.2.1.declared
    have hne := h.1.aliasOf_ne_empty (s := .field id) fun heq => by cases heq
    refine ⟨h.1.step (step_applyField r t hf.spot), h.2.1.binds (by simp [hwalk]) hb, ?_⟩
    exact h.2.2.binds (Program.notMem_of_walk hwalk) hne hb
  method := by
    intro done rest r ty t id m hwalk _ hm _ h
    have hb := binds_applyMethod (r := r) (t := t) hm h.2.1.declared
    have hne := h.1.aliasOf_ne_empty (s := .method id) fun heq => by cases heq
    refine ⟨h.1.step (step_applyMethod r t hm.spot), h.2.1.binds (by simp [hwalk]) hb, ?_⟩
    exact h.2.2.binds (Program.notMem_of_walk hwalk) hne hb

/-- When all aliases are bound, the symbols with rejected names have aliases, and members are bound
to theirs. -/
theorem chosen_bound (e : Engine) (p : Program) :
    Chosen p e.reset p.walk (e.reset.bound p) ∧
      ∀ s, s.kind ≠ .types → (e.reset.bound p).program.boundAlias s =
        (e.reset.bound p).engine.aliasOf s := by
  obtain ⟨hchosen, hunbound⟩ := chosen_discover p e.unused_reset rfl
  have hstart : BoundUpTo []
      (Run.discover { engine := e.reset, program := p.clearAliases }) := by
    intro s _
    rw [hunbound s, if_neg List.not_mem_nil]
  obtain ⟨-, hend, hbound⟩ :=
    (keeps_chosen_binding p e.reset).apply ⟨Settled.discover, hchosen, hstart⟩
  refine ⟨hend, fun s hkind => ?_⟩
  -- what has an alias has been passed
  rw [Engine.bound, hbound s hkind]
  split
  · rfl
  · rename_i hs
    exact (Option.eq_none_iff_forall_ne_some.mpr fun name hname => hs (hend.passed hname)).symm

end Run

/-! ## Packages -/

namespace PackageTree

variable {t : PackageTree} {path : PackagePath} {wants : String → Bool}

/-- Only rejected segments are given aliases. -/
def Sparing (wants : String → Bool) (t : PackageTree) : Prop :=
  ∀ a name, t.aliasOf a = some name → wants a.segment = true

theorem Sparing.create (h : t.Sparing wants) (path : PackagePath) :
    (t.create path).Sparing wants := by
  intro a name ha
  rw [aliasOf_create] at ha
  exact h a name ha

theorem Sparing.decide (h : t.Sparing wants) (hhas : ∀ a ∈ path.lineage, t.Has a)
    (source : NameSource) : (t.decide path wants source).1.Sparing wants := by
  have hboth : (∀ b ∈ path.lineage, (t.decide path wants source).1.Has b) ∧
      (t.decide path wants source).1.Sparing wants := by
    refine decide_induct (motive := fun s => (∀ b ∈ path.lineage, s.1.Has b) ∧ s.1.Sparing wants)
      ⟨hhas, h⟩ fun s s' b hb hd hs => ⟨fun c hc => hd.has.mpr (hs.1 c hc), ?_⟩
    cases hd with
    | again _ => exact hs.2
    | keep _ => exact hs.2
    | @draw u source n _ hwants _ =>
      intro a name ha
      have hbhas : ({ u with order := u.order ++ [b] } : PackageTree).Has b := hs.1 b hb
      rw [aliasOf_assign hbhas] at ha
      split at ha
      · rename_i heq
        exact heq ▸ hwants
      · exact hs.2 a name ha
  exact hboth.2

end PackageTree

namespace Run

variable {p : Program} {e : Engine} {done rest : List SymbolId} {r r' : Run}

/-- What holds of packages when the symbols `done` have been decided under the policy of `e`. All
aliases are words that Java does not reserve, whatever the classifier of the policy. -/
structure Lodged (p : Program) (e : Engine) (done : List SymbolId) (r : Run) : Prop where
  declared : r.program.declared = p.declared
  policy : r.engine.policy = e.policy
  sound : PackageTree.Sound {} r.engine.packages
  tidy : r.engine.packages.Tidy e.rejects
  sparing : r.engine.packages.Sparing e.rejects
  onTheWay : ∀ {a}, r.engine.packages.Has a → a ≠ [] →
    ∃ ty t, p.types.get? ty = some t ∧ a ∈ (PackagePath.ofText t.package).lineage
  covered : ∀ {ty t}, SymbolId.type ty ∈ done → p.types.get? ty = some t →
    ∀ a ∈ (PackagePath.ofText t.package).lineage, r.engine.packages.Covered e.rejects a

/-- A step that does not change the packages. -/
theorem Lodged.of_packages (h : Lodged p e done r)
    (hdeclared : r'.program.declared = r.program.declared)
    (hpolicy : r'.engine.policy = r.engine.policy)
    (hpackages : r'.engine.packages = r.engine.packages) {done' : List SymbolId}
    (hdone : ∀ {ty}, SymbolId.type ty ∈ done' → SymbolId.type ty ∈ done) :
    Lodged p e done' r' := by
  refine ⟨hdeclared.trans h.declared, hpolicy.trans h.policy, ?_, ?_, ?_, ?_, ?_⟩
  · exact hpackages ▸ h.sound
  · exact hpackages ▸ h.tidy
  · exact hpackages ▸ h.sparing
  · exact hpackages ▸ h.onTheWay
  · exact fun hty => hpackages ▸ h.covered (hdone hty)

/-- Deciding the package of a type covers all packages on the way to the type. -/
theorem Lodged.decidePackage (h : Lodged p e done r) {ty : TypeId} {t : TypeSymbol}
    (ht : p.ShowsType ty t) :
    Lodged p e (done ++ [SymbolId.type ty]) { r with engine := r.engine.decidePackage t } := by
  let path := PackagePath.ofText t.package
  obtain ⟨u, hu, hut⟩ := ht
  have hpath : PackagePath.ofText u.package = path :=
    TypeSymbol.agree hut (fun u => PackagePath.ofText u.package) fun _ => rfl
  have hrejects : r.engine.rejects = e.rejects := by
    funext name
    rw [Engine.rejects, h.policy, Engine.rejects]
  have hhas : ∀ a ∈ path.lineage, (r.engine.packages.create path).Has a := fun a ha =>
    PackageTree.has_create_of_mem ha
  have hsound := (h.sound.create t.package).decide rfl hhas e.rejects r.engine.source
  have hsparing := (h.sparing.create path).decide hhas r.engine.source
  obtain ⟨htidy, hkept, hall⟩ := (h.tidy.create path).decide hhas r.engine.source
  have hmade : ∀ {a}, ((r.engine.packages.create path).decide path e.rejects
      r.engine.source).1.Has a → r.engine.packages.Has a ∨ a ∈ path.lineage := fun ha =>
    PackageTree.has_create_iff.mp (PackageTree.has_decide_iff.mp ha)
  obtain ⟨packages, source, hdecide, -, heq⟩ := r.engine.decidePackage_eq t
  rw [hrejects] at hdecide
  rw [show PackagePath.ofText t.package = path from rfl] at hsound hdecide
  rw [hdecide] at hsound htidy hsparing hkept hall
  simp only [hdecide] at hmade
  rw [heq]
  refine ⟨h.declared, h.policy, hsound, htidy, hsparing, fun {a} ha hne => ?_,
    fun {ty' t'} hmem ht' a ha => ?_⟩
  · rcases hmade ha with hold | hnew
    · exact h.onTheWay hold hne
    · exact ⟨ty, u, hu, hpath ▸ hnew⟩
  · rcases List.mem_append.mp hmem with hold | hnew
    · exact hkept a ((PackageTree.covered_create _ path a).mpr (h.covered hold ht' a ha))
    · cases List.mem_singleton.mp hnew
      rw [hu] at ht'
      cases ht'
      exact hall a (hpath ▸ ha)

theorem keeps_lodged_deciding (p : Program) (e : Engine) :
    Pass.deciding.Keeps p (Lodged p e) := by
  apply Pass.keeps_deciding
  case hdeclared => exact fun h => h.declared
  case htype =>
    intro done rest r ty t _ ht h
    have hd := decides_decideType (r := { r with engine := r.engine.decidePackage t }) ht
    refine (h.decidePackage ht).of_packages hd.declared hd.policy ?_ fun hty => hty
    exact packages_decideType _ ty t
  case hmember =>
    intro done rest s r r' _ hkind hd hs h
    exact h.of_packages hd.declared hd.policy hs.packages (SymbolId.type_mem_of_kind hkind)
  case hlink =>
    intro done r r' hl _ _ hs h
    exact h.of_packages hl.declared hl.policy hs.packages fun hty => hty

/-- Knowing all packages of the program, an engine that was reset has decided on none. -/
theorem lodged_seed (p : Program) (e : Engine) :
    Lodged p e.reset [] { engine := e.reset.seed p.clearAliases, program := p.clearAliases } := by
  have hcreated : ∀ l : List TypeSymbol, (∀ u ∈ l, u ∈ p.clearAliases.types.toList) →
      ∀ t : PackageTree, t = l.foldl (fun t s => t.create (PackagePath.ofText s.package)) {} →
        PackageTree.Sound {} t ∧ t.order = [] ∧ (∀ a, t.aliasOf a = none) ∧
          ∀ a, t.Has a → a ≠ [] → ∃ u ∈ l, a ∈ (PackagePath.ofText u.package).lineage := by
    intro l
    induction l using List.reverseRecOn with
    | nil =>
      rintro - t rfl
      refine ⟨PackageTree.sound_empty {}, rfl, PackageTree.aliasOf_empty, ?_⟩
      rintro a ⟨id, n, hn, hpath⟩ hne
      have hroot : n ∈ [({ path := [] } : PackageNode)] := Arena.mem_toList_of_get? hn
      rw [List.mem_singleton.mp hroot] at hpath
      exact absurd hpath.symm hne
    | append_singleton l u ih =>
      rintro hl t rfl
      rw [List.foldl_append, List.foldl_cons, List.foldl_nil]
      obtain ⟨hsound, horder, hnone, hway⟩ :=
        ih (fun u hu => hl u (List.mem_append_left _ hu)) _ rfl
      refine ⟨hsound.create u.package, (PackageTree.order_create _ _).trans horder, fun a => ?_,
        fun a ha hne => ?_⟩
      · rw [PackageTree.aliasOf_create, hnone]
      · rcases PackageTree.has_create_iff.mp ha with hold | hnew
        · obtain ⟨v, hv, hmem⟩ := hway a hold hne
          exact ⟨v, List.mem_append_left _ hv, hmem⟩
        · exact ⟨u, List.mem_append_right _ List.mem_cons_self, hnew⟩
  obtain ⟨hsound, horder, hnone, hway⟩ := hcreated _ (fun _ hu => hu) _ rfl
  refine ⟨Program.declared_clearAliases, rfl, hsound, fun b hb => ?_, fun a name ha => ?_,
    fun {a} ha hne => ?_, fun hty => absurd hty List.not_mem_nil⟩
  · cases (horder ▸ hb : b ∈ ([] : List PackagePath))
  · cases (hnone a).symm.trans ha
  · obtain ⟨u, hu, hmem⟩ := hway a ha hne
    obtain ⟨i, hi⟩ := List.mem_iff_getElem?.mp hu
    obtain ⟨s, hs, hsu⟩ := Program.type_of_declared Program.declared_clearAliases
      (Arena.get?_eq_some_iff.mpr hi : p.clearAliases.types.get? ⟨i⟩ = some u)
    refine ⟨⟨i⟩, s, hs, ?_⟩
    rw [TypeSymbol.agree hsu TypeSymbol.package fun _ => rfl]
    exact hmem

theorem lodged_bound (p : Program) (e : Engine) : Lodged p e.reset p.walk (e.reset.bound p) := by
  obtain ⟨r, hlodged, heq⟩ := (keeps_lodged_deciding p e.reset).discover (lodged_seed p e)
  have hdiscover : Lodged p e.reset p.walk
      (Run.discover { engine := e.reset, program := p.clearAliases }) := by
    rw [heq]
    refine hlodged.of_packages ?_ ?_ ?_ fun hty => hty
    · rfl
    · rfl
    · rfl
  have hpolicy := (chosen_bound e p).1.policy
  refine hdiscover.of_packages (spares_apply _).declared ?_ (alikeTypes_apply _).packages
    fun hty => hty
  rw [hdiscover.policy]
  exact hpolicy

/-- When all has been decided, a package below the unnamed one has an alias exactly if its segment
is rejected. -/
theorem Lodged.isSome_newName (h : Lodged p e p.walk r) {n : PackageNode}
    (hn : n ∈ r.engine.packages.nodes.toList) (hne : n.path ≠ []) :
    n.newName.isSome = e.rejects n.segment := by
  obtain ⟨i, hi⟩ := List.mem_iff_getElem?.mp hn
  have hhas : r.engine.packages.Has n.path := ⟨⟨i⟩, n, Arena.get?_eq_some_iff.mpr hi, rfl⟩
  obtain ⟨ty, t, ht, hmem⟩ := h.onTheWay hhas hne
  have hcovered := h.covered (Program.mem_walk_type ht) ht n.path hmem
  cases hrejects : e.rejects n.segment with
  | true =>
    have hsome := hcovered.resolve_right fun hkept => by
      rw [PackageNode.segment] at hrejects
      rw [hrejects] at hkept
      cases hkept
    obtain ⟨name, hname⟩ := Option.isSome_iff_exists.mp hsome
    -- a path has one node only
    obtain ⟨n', hn', hpath, hname'⟩ := h.sound.aliasOf_eq_some_iff.mp hname
    have hsame : n' = n := List.inj_on_of_nodup_map h.sound.nodup hn' hn hpath
    rw [← hsame, hname', Option.isSome_some]
  | false =>
    cases hname : n.newName with
    | none => rfl
    | some name =>
      have halias := h.sound.aliasOf_eq_some_iff.mpr ⟨n, hn, rfl, hname⟩
      rw [PackageNode.segment, h.sparing _ _ halias] at hrejects
      cases hrejects

end Run
end Renamer
