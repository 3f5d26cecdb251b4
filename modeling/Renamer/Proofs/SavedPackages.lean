import Renamer.Proofs.Loading
import Renamer.Proofs.PackageAliases
import Renamer.Proofs.Tables

/-!
# Saved packages

The aliases of packages can be saved and loaded again: the tree that results has the aliases of the
tree that was saved, and no package needs another one.

* `PackageTree.Sound` says that paths are lists of segments, each there once, and that aliases may
  be written as they are. Then what was saved tells everything about the aliases.
* `PackageTree.Covered` says that a package has an alias or needs none. Deciding a package leaves it
  covered with all packages above it, and leaves a covered package alone.
-/

namespace Renamer

namespace PackageTree

/-! ## Sound trees -/

/-- The packages are told apart by their texts, and their aliases may be written as they are. -/
structure Sound (P : Policy) (t : PackageTree) : Prop where
  root : t.Has []
  nodup : (t.nodes.toList.map (·.path)).Nodup
  segments : ∀ n ∈ t.nodes.toList, ∀ s ∈ n.path, PackagePath.IsSegment s
  usable : ∀ {a name}, t.aliasOf a = some name → P.accepts name = true

variable {P : Policy} {t : PackageTree} {path : PackagePath}

theorem sound_empty (P : Policy) : Sound P {} where
  root := ⟨⟨0⟩, { path := [] }, rfl, rfl⟩
  nodup := List.nodup_singleton _
  segments := by
    intro n hn s hs
    rw [List.mem_singleton.mp hn] at hs
    cases hs
  usable := by
    intro a name ha
    rw [aliasOf_empty] at ha
    cases ha

/-- Creating a path makes its package, where the unnamed one is there. -/
theorem has_create_self (h : t.Has []) (path : PackagePath) : (t.create path).Has path := by
  by_cases hpath : path = []
  · rw [hpath]
    exact h.create []
  · exact has_create_of_mem (mem_lineage_self hpath)

/-- The order of decisions counts for nothing here. -/
theorem Sound.ordered (h : Sound P t) (order : List PackagePath) : Sound P { t with order } :=
  ⟨h.root, h.nodup, h.segments, h.usable⟩

theorem Sound.ensure (h : Sound P t) (hpath : ∀ s ∈ path, PackagePath.IsSegment s) :
    Sound P (t.ensure path) := by
  have hroot := h.root.ensure path
  have hsame : (t.ensure path).aliasOf = t.aliasOf := funext fun a => aliasOf_ensure t path a
  refine ⟨hroot, ?_, ?_, fun ha => h.usable (hsame ▸ ha)⟩
  · unfold PackageTree.ensure
    split
    · exact h.nodup
    · rename_i hnew
      have hlist : (t.nodes.push { path := path }).toList = t.nodes.toList ++ [{ path := path }] :=
        Array.toList_push
      rw [hlist, List.map_append, List.map_singleton, List.nodup_append]
      refine ⟨h.nodup, List.nodup_singleton _, fun a ha b hb heq => hnew ?_⟩
      rw [List.mem_singleton.mp hb] at heq
      rcases List.mem_map.mp ha with ⟨n, hn, hna⟩
      rw [find?_isSome_iff]
      rcases List.mem_iff_getElem?.mp hn with ⟨i, hi⟩
      exact ⟨⟨i⟩, n, Arena.get?_eq_some_iff.mpr hi, hna.trans heq⟩
  · unfold PackageTree.ensure
    split
    · exact h.segments
    · have hlist : (t.nodes.push { path := path }).toList = t.nodes.toList ++ [{ path := path }] :=
        Array.toList_push
      intro n hn
      have hmem : n ∈ (t.nodes.push { path := path }).toList := hn
      rw [hlist, List.mem_append, List.mem_singleton] at hmem
      rcases hmem with hold | hnew
      · exact h.segments n hold
      · rw [hnew]
        exact hpath

/-- Creating what a text names keeps the tree sound. -/
theorem Sound.create (h : Sound P t) (text : String) :
    Sound P (t.create (PackagePath.ofText text)) := by
  apply List.foldlRecOn (motive := Sound P)
  · exact h
  · intro t' ht' a ha
    refine ht'.ensure fun s hs => ?_
    exact PackagePath.isSegment_of_mem_ofText ((PackagePath.mem_lineage.mp ha).2.subset hs)

/-- An alias that may be written keeps the tree sound. -/
theorem Sound.assign (h : Sound P t) (hhas : t.Has path) {newName : String}
    (husable : P.accepts newName = true) : Sound P (t.assign path newName) := by
  have hpaths : (t.assign path newName).nodes.toList =
      t.nodes.toList.map fun n => if n.path = path then { n with newName := some newName } else n :=
    Array.toList_map
  refine ⟨h.root.assign path newName, ?_, ?_, ?_⟩
  · rw [hpaths, List.map_map]
    exact (List.map_congr_left fun n _ => path_ite_newName n path newName) ▸ h.nodup
  · rw [hpaths]
    intro n hn
    rcases List.mem_map.mp hn with ⟨n', hn', rfl⟩
    rw [path_ite_newName]
    exact h.segments n' hn'
  · intro a name ha
    rw [aliasOf_assign hhas] at ha
    split at ha
    · rw [← Option.some.inj ha]
      exact husable
    · exact h.usable ha

/-- Deciding draws words, which may be written. -/
theorem Sound.decides (h : Sound P t) (hjava : P.classifier = Classifier.java)
    {wants : String → Bool} {source : NameSource} {s' : PackageTree × NameSource}
    (hhas : t.Has path) (hd : Decides wants path (t, source) s') : Sound P s'.1 := by
  cases hd with
  | again _ => exact h
  | keep _ => exact h.ordered _
  | draw _ _ hnext =>
    exact (h.ordered (t.order ++ [path])).assign hhas
      (Policy.accepts_spell hjava hnext.not_reserved)

theorem Sound.decide (h : Sound P t) (hjava : P.classifier = Classifier.java)
    (hhas : ∀ a ∈ path.lineage, t.Has a) (wants : String → Bool) (source : NameSource) :
    Sound P (t.decide path wants source).1 := by
  have hboth : Sound P (t.decide path wants source).1 ∧
      ∀ a ∈ path.lineage, (t.decide path wants source).1.Has a := by
    refine decide_induct (motive := fun s => Sound P s.1 ∧ ∀ a ∈ path.lineage, s.1.Has a)
      ⟨h, hhas⟩ fun s s' a ha hd hs => ?_
    exact ⟨hs.1.decides hjava (hs.2 a ha) hd, fun b hb => hd.has.mpr (hs.2 b hb)⟩
  exact hboth.1

/-! ## What is saved -/

/-- The aliases of a sound tree are those of its nodes. -/
theorem Sound.aliasOf_eq_some_iff (h : Sound P t) {name : String} :
    t.aliasOf path = some name ↔
      ∃ n ∈ t.nodes.toList, n.path = path ∧ n.newName = some name := by
  constructor
  · intro ha
    rcases node_of_aliasOf ha with ⟨id, n, hn, hpath, hname⟩
    exact ⟨n, Arena.mem_toList_of_get? hn, hpath, hname⟩
  · intro hnode
    rcases hnode with ⟨n, hn, hpath, hname⟩
    have hhas : t.Has path := by
      rcases List.mem_iff_getElem?.mp hn with ⟨i, hi⟩
      exact ⟨⟨i⟩, n, Arena.get?_eq_some_iff.mpr hi, hpath⟩
    rcases Option.isSome_iff_exists.mp (find?_isSome_iff.mpr hhas) with ⟨id, hid⟩
    rcases Option.map_eq_some_iff.mp hid with ⟨e, he, -⟩
    rcases mem_of_entryAt? he with ⟨hget, hepath⟩
    -- there is only one node with this path
    have hsame : e.2 = n :=
      List.inj_on_of_nodup_map h.nodup (Arena.mem_toList_of_get? hget) hn (hepath.trans hpath.symm)
    rw [aliasOf, he, Option.bind_some, hsame, hname]

/-- No path is saved twice. -/
theorem Sound.nodup_aliased (h : Sound P t) : (t.aliased.map Prod.fst).Nodup := by
  have hpaths : t.nodes.toList.Pairwise fun n n' => n.path ≠ n'.path :=
    List.pairwise_map.mp h.nodup
  rw [aliased, List.map_filterMap]
  refine List.pairwise_filterMap.mpr (hpaths.imp_of_mem fun {n n'} hn hn' hne => ?_)
  intro text htext text' htext' heq
  rcases Option.map_eq_some_iff.mp htext with ⟨e, he, rfl⟩
  rcases Option.map_eq_some_iff.mp htext' with ⟨e', he', rfl⟩
  rcases Option.map_eq_some_iff.mp he with ⟨name, -, rfl⟩
  rcases Option.map_eq_some_iff.mp he' with ⟨name', -, rfl⟩
  exact hne (PackagePath.eq_of_text_eq (h.segments n hn) (h.segments n' hn') heq)

/-- What is saved of a sound tree are its aliases. -/
theorem Sound.mem_aliased_iff (h : Sound P t) {entry : String × String} :
    entry ∈ t.aliased ↔ ∃ a, t.aliasOf a = some entry.2 ∧ (∀ s ∈ a, PackagePath.IsSegment s) ∧
      PackagePath.text a = entry.1 := by
  rcases entry with ⟨text, name⟩
  rw [aliased, List.mem_filterMap]
  constructor
  · intro hmem
    rcases hmem with ⟨n, hn, hentry⟩
    rcases Option.map_eq_some_iff.mp hentry with ⟨name', hname, heq⟩
    cases heq
    exact ⟨n.path, h.aliasOf_eq_some_iff.mpr ⟨n, hn, rfl, hname⟩, h.segments n hn, rfl⟩
  · intro hmem
    rcases hmem with ⟨a, ha, -, htext⟩
    rcases h.aliasOf_eq_some_iff.mp ha with ⟨n, hn, hpath, hname⟩
    refine ⟨n, hn, ?_⟩
    rw [hname, hpath, htext]
    rfl

/-! ## Covered packages -/

/-- The package at a path has an alias, or needs none. -/
def Covered (wants : String → Bool) (t : PackageTree) (path : PackagePath) : Prop :=
  (t.aliasOf path).isSome = true ∨ wants path.segment = false

variable {wants : String → Bool} {s s' : PackageTree × NameSource}

/-- Deciding a package takes no cover away. -/
theorem Decides.covered_of_covered (h : Decides wants path s s') (hhas : s.1.Has path)
    {a : PackagePath} (ha : s.1.Covered wants a) : s'.1.Covered wants a := by
  cases h with
  | again _ => exact ha
  | keep _ => exact ha
  | @draw t source n _ _ _ =>
    refine ha.imp_left fun hsome => ?_
    have hhas' : ({ t with order := t.order ++ [path] } : PackageTree).Has path := hhas
    rw [aliasOf_assign hhas']
    split
    · rfl
    · exact hsome

/-- A package that is decided gets covered, if those decided before are. -/
theorem Decides.covered (h : Decides wants path s s') (hhas : s.1.Has path)
    (horder : ∀ b ∈ s.1.order, s.1.Covered wants b) : s'.1.Covered wants path := by
  cases h with
  | again hmem => exact horder path hmem
  | keep hcovered => exact hcovered
  | @draw t source n _ _ _ =>
    have hhas' : ({ t with order := t.order ++ [path] } : PackageTree).Has path := hhas
    refine Or.inl ?_
    rw [aliasOf_assign hhas', if_pos rfl]
    rfl

/-- Deciding one package after the other covers them all. -/
theorem covered_foldl_decideOne (wants : String → Bool) (l : List PackagePath)
    (hhas : ∀ a ∈ l, s.1.Has a)
    (horder : ∀ b ∈ s.1.order, s.1.Covered wants b) :
    (∀ a, s.1.Covered wants a → (l.foldl (decideOne wants) s).1.Covered wants a) ∧
      ∀ a ∈ l, (l.foldl (decideOne wants) s).1.Covered wants a := by
  induction l generalizing s with
  | nil => exact ⟨fun a ha => ha, fun a ha => absurd ha List.not_mem_nil⟩
  | cons path l ih =>
    have hd := decides_decideOne wants s path
    have hpath := hhas path List.mem_cons_self
    have hcovered := hd.covered hpath horder
    have hkeeps : ∀ {a}, s.1.Covered wants a → (decideOne wants s path).1.Covered wants a :=
      fun ha => hd.covered_of_covered hpath ha
    rcases ih (fun a ha => hd.has.mpr (hhas a (List.mem_cons_of_mem path ha))) (fun b hb => by
      rcases hd.mem_order_iff.mp hb with hold | hnew
      · exact hkeeps (horder b hold)
      · rw [hnew]
        exact hcovered) with ⟨hkeep, hall⟩
    rw [List.foldl_cons]
    refine ⟨fun a ha => hkeep a (hkeeps ha), fun a ha => ?_⟩
    rcases List.mem_cons.mp ha with hfirst | hmem
    · rw [hfirst]
      exact hkeep path hcovered
    · exact hall a hmem

/-- Whatever has been decided is covered, and so are all packages above it. -/
def Tidy (wants : String → Bool) (t : PackageTree) : Prop :=
  ∀ b ∈ t.order, t.Covered wants b ∧ ∀ a ∈ b.lineage, t.Covered wants a

/-- Creating packages covers none and uncovers none. -/
theorem covered_create (t : PackageTree) (path a : PackagePath) :
    (t.create path).Covered wants a ↔ t.Covered wants a := by
  rw [Covered, Covered, aliasOf_create]

theorem order_create (t : PackageTree) (path : PackagePath) :
    (t.create path).order = t.order := by
  apply List.foldlRecOn (motive := fun t' : PackageTree => t'.order = t.order)
  · rfl
  · intro t' ht' a _
    unfold PackageTree.ensure
    split <;> exact ht'

theorem Tidy.create (h : t.Tidy wants) (path : PackagePath) : (t.create path).Tidy wants := by
  intro b hb
  rw [order_create] at hb
  exact ⟨(covered_create t path b).mpr (h b hb).1, fun a ha =>
    (covered_create t path a).mpr ((h b hb).2 a ha)⟩

/-- Deciding a package covers it and all packages above it. -/
theorem Tidy.decide (h : t.Tidy wants) (hhas : ∀ a ∈ path.lineage, t.Has a)
    (source : NameSource) :
    (t.decide path wants source).1.Tidy wants ∧
      (∀ a, t.Covered wants a → (t.decide path wants source).1.Covered wants a) ∧
      ∀ a ∈ path.lineage, (t.decide path wants source).1.Covered wants a := by
  unfold PackageTree.decide
  split
  · rename_i hdecided
    exact ⟨h, fun a ha => ha, (h path (List.contains_iff_mem.mp hdecided)).2⟩
  · let l := path.lineage.filter fun a => a == path || (t.aliasOf a).isNone
    have hsub : ∀ {a}, a ∈ l → a ∈ path.lineage := fun ha => (List.mem_filter.mp ha).1
    rcases covered_foldl_decideOne (s := (t, source)) wants l
      (fun a ha => hhas a (hsub ha)) fun b hb => (h b hb).1 with ⟨hkeep, hl⟩
    -- what is not decided on the way has an alias
    have hall : ∀ a ∈ path.lineage,
        (l.foldl (decideOne wants) (t, source)).1.Covered wants a := by
      intro a ha
      by_cases hmem : a ∈ l
      · exact hl a hmem
      · refine hkeep a (Or.inl ?_)
        have hskipped : ¬ (a == path || (t.aliasOf a).isNone) = true := fun hyes =>
          hmem (List.mem_filter.mpr ⟨ha, hyes⟩)
        rw [Bool.or_eq_true, not_or, Option.isNone_iff_eq_none] at hskipped
        exact Option.isSome_iff_ne_none.mpr hskipped.2
    refine ⟨fun b hb => ?_, hkeep, hall⟩
    rcases (mem_order_foldl_decideOne wants l (t, source)).mp hb with hold | hnew
    · exact ⟨hkeep b (h b hold).1, fun a ha => hkeep a ((h b hold).2 a ha)⟩
    · have hbpath := hsub hnew
      refine ⟨hall b hbpath, fun a ha => hall a ?_⟩
      rcases PackagePath.mem_lineage.mp ha with ⟨hne, hpre⟩
      exact PackagePath.mem_lineage.mpr
        ⟨hne, hpre.trans (PackagePath.mem_lineage.mp hbpath).2⟩

/-- Where all packages on the way are covered, deciding draws nothing. -/
theorem decide_of_covered (h : ∀ a ∈ path.lineage, t.Covered wants a) (source : NameSource) :
    (t.decide path wants source).2 = source ∧
      ∀ a, (t.decide path wants source).1.aliasOf a = t.aliasOf a := by
  refine decide_induct (motive := fun s => s.2 = source ∧ ∀ a, s.1.aliasOf a = t.aliasOf a)
    ⟨rfl, fun a => rfl⟩ fun s s' a ha hd hs => ?_
  cases hd with
  | again _ => exact hs
  | keep _ => exact hs
  | draw hnone hwants _ =>
    rcases h a ha with hsome | hunwanted
    · rw [← hs.2, hnone] at hsome
      cases hsome
    · rw [hwants] at hunwanted
      cases hunwanted

/-- Deciding leaves a covered package alone. -/
theorem aliasOf_decide_of_covered (hhas : ∀ b ∈ path.lineage, t.Has b) {a : PackagePath}
    (ha : t.Covered wants a) (source : NameSource) :
    (t.decide path wants source).1.aliasOf a = t.aliasOf a := by
  have hboth : (∀ b ∈ path.lineage, (t.decide path wants source).1.Has b) ∧
      (t.decide path wants source).1.aliasOf a = t.aliasOf a := by
    refine decide_induct (motive := fun s => (∀ b ∈ path.lineage, s.1.Has b) ∧
      s.1.aliasOf a = t.aliasOf a) ⟨hhas, rfl⟩ fun s s' b hb hd hs =>
        ⟨fun c hc => hd.has.mpr (hs.1 c hc), ?_⟩
    have hbhas := hs.1 b hb
    cases hd with
    | again _ => exact hs.2
    | keep _ => exact hs.2
    | @draw u source n hnone hwants _ =>
      -- the draw is for a package that is not covered
      have hne : a ≠ b := by
        intro heq
        rw [← heq] at hnone hwants
        rcases ha with hsome | hunwanted
        · rw [← hs.2, hnone] at hsome
          cases hsome
        · rw [hwants] at hunwanted
          cases hunwanted
      have hbhas' : ({ u with order := u.order ++ [b] } : PackageTree).Has b := hbhas
      rw [aliasOf_assign hbhas', if_neg hne]
      exact hs.2
  exact hboth.2

end PackageTree

/-! ## Loading -/

namespace Engine

variable {P : Policy} {e : Engine}

/-- A package preset that may be written is taken over as it is. -/
theorem loadPackage_of_accepts {entry : String × String}
    (h : e.policy.accepts entry.2 = true) :
    e.loadPackage entry = { e with
      packages := (e.packages.create (PackagePath.ofText entry.1)).assign
        (PackagePath.ofText entry.1) entry.2 } := by
  unfold loadPackage usableOr
  dsimp only
  rw [if_pos h]

/-- Loading a package preset keeps the tree sound, whatever the preset. -/
theorem sound_loadPackage (h : PackageTree.Sound e.policy e.packages)
    (hjava : e.policy.classifier = Classifier.java) (entry : String × String) :
    PackageTree.Sound e.policy (e.loadPackage entry).packages := by
  have hcreated := h.create entry.1
  have hhas := PackageTree.has_create_self h.root (PackagePath.ofText entry.1)
  unfold loadPackage usableOr
  dsimp only
  split
  · rename_i haccepts
    exact hcreated.assign hhas haccepts
  · rcases PackageTree.freshSegment_eq (e.packages.create (PackagePath.ofText entry.1))
      (PackagePath.ofText entry.1) e.source with ⟨n, hnext, heq⟩
    rw [heq]
    exact hcreated.assign hhas (Policy.accepts_spell hjava hnext.not_reserved)

theorem order_loadPackage (e : Engine) (entry : String × String) :
    (e.loadPackage entry).packages.order = e.packages.order := by
  have horder := PackageTree.order_create e.packages (PackagePath.ofText entry.1)
  unfold loadPackage usableOr
  dsimp only [PackageTree.assign]
  split <;> exact horder

/-- When all presets have been loaded, the tree is sound and nothing has been decided. -/
theorem sound_loadPresets (e : Engine) (hjava : e.policy.classifier = Classifier.java)
    (presets : Presets) :
    PackageTree.Sound e.policy (e.reset.loadPresets presets).packages ∧
      (e.reset.loadPresets presets).packages.order = [] := by
  have hall : ∀ l : List (String × String),
      (l.foldl Engine.loadPackage e.reset).policy = e.policy ∧
        PackageTree.Sound e.policy (l.foldl Engine.loadPackage e.reset).packages ∧
        (l.foldl Engine.loadPackage e.reset).packages.order = [] := by
    intro l
    apply List.foldlRecOn (motive := fun e' : Engine =>
      e'.policy = e.policy ∧ PackageTree.Sound e.policy e'.packages ∧ e'.packages.order = [])
    · exact ⟨rfl, PackageTree.sound_empty e.policy, rfl⟩
    · intro e' he' entry _
      have hpolicy : (e'.loadPackage entry).policy = e'.policy := by
        rcases e'.loadPackage_eq entry with ⟨packages, source, findings, heq⟩
        rw [heq]
      rcases he' with ⟨hsame, hsound, horder⟩
      rw [← hsame] at hsound hjava ⊢
      exact ⟨hpolicy, sound_loadPackage hsound hjava entry,
        (order_loadPackage e' entry).trans horder⟩
  exact (hall presets.packages.toList).2

/-- Package presets that may be written, and name different packages, are all taken over, without
a draw and without a finding. -/
theorem foldl_loadPackage (hroot : e.packages.Has []) {l : List (String × String)}
    (hl : ∀ entry ∈ l, e.policy.accepts entry.2 = true)
    (hpaths : (l.map fun entry => PackagePath.ofText entry.1).Nodup) :
    ∃ packages, l.foldl Engine.loadPackage e = { e with packages } ∧ packages.Has [] ∧
      (∀ entry ∈ l, packages.aliasOf (PackagePath.ofText entry.1) = some entry.2) ∧
      ∀ a, (∀ entry ∈ l, PackagePath.ofText entry.1 ≠ a) →
        packages.aliasOf a = e.packages.aliasOf a := by
  induction l using List.reverseRecOn with
  | nil => exact ⟨e.packages, rfl, hroot, fun _ h => absurd h List.not_mem_nil, fun a _ => rfl⟩
  | append_singleton l entry ih =>
    rw [List.map_append, List.map_singleton, List.nodup_append] at hpaths
    rcases ih (fun entry' h => hl entry' (List.mem_append_left _ h)) hpaths.1 with
      ⟨packages, heq, hhas, hloaded, hothers⟩
    have hnew : ∀ entry' ∈ l, PackagePath.ofText entry'.1 ≠ PackagePath.ofText entry.1 :=
      fun entry' h => hpaths.2.2 _ (List.mem_map.mpr ⟨entry', h, rfl⟩) _ List.mem_cons_self
    have haccepts : ({ e with packages } : Engine).policy.accepts entry.2 = true :=
      hl entry (List.mem_append_right _ List.mem_cons_self)
    -- the preset changes the alias of its own package only
    have halias : ∀ a, ((packages.create (PackagePath.ofText entry.1)).assign
        (PackagePath.ofText entry.1) entry.2).aliasOf a =
          if a = PackagePath.ofText entry.1 then some entry.2 else packages.aliasOf a := by
      intro a
      rw [PackageTree.aliasOf_assign (PackageTree.has_create_self hhas _),
        PackageTree.aliasOf_create]
    rw [List.foldl_append, heq, List.foldl_cons, List.foldl_nil, loadPackage_of_accepts haccepts]
    refine ⟨_, rfl, (hhas.create _).assign _ _, fun entry' h => ?_, fun a ha => ?_⟩
    · rw [halias]
      rcases List.mem_append.mp h with hold | hlast
      · rw [if_neg (hnew entry' hold), hloaded entry' hold]
      · rw [List.mem_singleton.mp hlast, if_pos rfl]
    · have hne := ha entry (List.mem_append_right _ List.mem_cons_self)
      rw [halias, if_neg hne.symm, hothers a fun entry' h => ha entry' (List.mem_append_left _ h)]

/-- Loading what was saved of a sound tree restores its aliases, without a draw and without a
finding. -/
theorem loadPresets_aliased (e : Engine) {t : PackageTree} (h : PackageTree.Sound e.policy t)
    {presets : Presets} (hpresets : presets.packages = Table.ofList t.aliased) :
    ∃ packages, e.reset.loadPresets presets =
        { e.reset with packages, presets := { presets with packages := {} } } ∧
      ∀ a, packages.aliasOf a = t.aliasOf a := by
  have hmem : ∀ entry, entry ∈ presets.packages.toList ↔ ∃ a, t.aliasOf a = some entry.2 ∧
      (∀ s ∈ a, PackagePath.IsSegment s) ∧ PackagePath.text a = entry.1 := by
    intro entry
    rw [← h.mem_aliased_iff, ← Table.get?_ofList h.nodup_aliased, ← hpresets,
      Table.get?_eq_some_iff]
  -- every entry is read back as the path that was saved
  have hpath : ∀ entry ∈ presets.packages.toList,
      t.aliasOf (PackagePath.ofText entry.1) = some entry.2 ∧
        PackagePath.text (PackagePath.ofText entry.1) = entry.1 := by
    intro entry hentry
    rcases (hmem entry).mp hentry with ⟨a, ha, hsegments, htext⟩
    rw [← htext, PackagePath.ofText_text hsegments]
    exact ⟨ha, rfl⟩
  have hnodup : (presets.packages.toList.map fun entry => PackagePath.ofText entry.1).Nodup := by
    have hkeys := List.pairwise_map.mp presets.packages.nodup_keys
    refine List.pairwise_map.mpr (hkeys.imp_of_mem fun {x y} hx hy hne heq => ?_)
    exact hne (by rw [← (hpath x hx).2, heq, (hpath y hy).2])
  rcases foldl_loadPackage (e := e.reset) ⟨⟨0⟩, { path := [] }, rfl, rfl⟩
    (fun entry hentry => h.usable (hpath entry hentry).1) hnodup with
    ⟨packages, heq, -, hloaded, hothers⟩
  refine ⟨packages, ?_, fun a => ?_⟩
  · unfold loadPresets
    rw [heq]
  · cases ha : t.aliasOf a with
    | some name =>
      rcases h.aliasOf_eq_some_iff.mp ha with ⟨n, hn, hna, -⟩
      have hsegments : ∀ s ∈ a, PackagePath.IsSegment s := hna ▸ h.segments n hn
      have hentry := (hmem (PackagePath.text a, name)).mpr ⟨a, ha, hsegments, rfl⟩
      have halias := hloaded _ hentry
      rwa [PackagePath.ofText_text hsegments] at halias
    | none =>
      rw [hothers a fun entry hentry heq => ?_]
      · exact PackageTree.aliasOf_empty a
      · have halias := (hpath entry hentry).1
        rw [heq, ha] at halias
        cases halias

end Engine
end Renamer
