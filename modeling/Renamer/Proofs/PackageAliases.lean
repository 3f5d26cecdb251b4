import Mathlib.Data.List.Induction
import Renamer.Proofs.Packages
import Renamer.Proofs.Paths

/-!
# Aliases of packages

What creating, assigning and deciding do to the aliases of packages, and how the aliases of
packages that stand side by side keep apart.

* `PackageTree.Decides` is the one description of a step of deciding: the package was decided
  before, or it needs no alias, or it draws one.
* `PackageTree.Apart` is what drawing keeps: every alias is a word, and unlike the segments and
  aliases of the packages beside it. Then different packages are emitted under different paths.
-/

namespace Renamer

namespace PackageTree

variable {t : PackageTree} {path : PackagePath}

/-! ## Looking up aliases -/

theorem mem_of_entryAt? {e : PackageId × PackageNode} (h : t.entryAt? path = some e) :
    t.nodes.get? e.1 = some e.2 ∧ e.2.path = path := by
  have hpath := List.find?_some h
  exact ⟨Arena.mem_entries_iff.mp (List.mem_of_find?_eq_some h), by simpa using hpath⟩

/-- An alias is that of a package of the tree. -/
theorem node_of_aliasOf {name : String} (h : t.aliasOf path = some name) :
    ∃ id n, t.nodes.get? id = some n ∧ n.path = path ∧ n.newName = some name := by
  rcases Option.bind_eq_some_iff.mp h with ⟨e, he, hname⟩
  rcases mem_of_entryAt? he with ⟨hget, hpath⟩
  exact ⟨e.1, e.2, hget, hpath, hname⟩

theorem aliasOf_empty (a : PackagePath) : ({} : PackageTree).aliasOf a = none := by
  show (List.find? _ [((⟨0⟩ : PackageId), ({ path := [] } : PackageNode))]).bind _ = none
  rw [List.find?_singleton]
  split <;> rfl

theorem aliasOf_ensure (t : PackageTree) (path a : PackagePath) :
    (t.ensure path).aliasOf a = t.aliasOf a := by
  unfold ensure
  split
  · rfl
  · -- a package that was not there has no alias, neither before nor after
    unfold aliasOf entryAt?
    show ((t.nodes.push { path := path }).entries.find? _).bind _ = _
    rw [Arena.entries_push, List.find?_append]
    cases t.nodes.entries.find? fun e => e.2.path == a with
    | some e => rfl
    | none =>
      rw [Option.none_or, List.find?_singleton]
      split <;> rfl

theorem aliasOf_foldl_ensure (t : PackageTree) (l : List PackagePath) (a : PackagePath) :
    (l.foldl ensure t).aliasOf a = t.aliasOf a := by
  apply List.foldlRecOn (motive := fun t' : PackageTree => t'.aliasOf a = t.aliasOf a)
  · rfl
  · exact fun t' ht' path _ => (aliasOf_ensure t' path a).trans ht'

/-- A package comes without an alias. -/
theorem aliasOf_create (t : PackageTree) (path a : PackagePath) :
    (t.create path).aliasOf a = t.aliasOf a :=
  aliasOf_foldl_ensure t path.lineage a

/-- A path is created after the one above it. -/
theorem create_append_singleton (t : PackageTree) (path : PackagePath) (segment : String) :
    t.create (path ++ [segment]) = (t.create path).ensure (path ++ [segment]) := by
  unfold create
  rw [PackagePath.lineage_append_singleton, List.foldl_append]
  rfl

/-- Nothing is created where all packages are there. -/
theorem create_eq_self (h : ∀ a ∈ path.lineage, t.Has a) : t.create path = t := by
  apply List.foldlRecOn (motive := fun t' : PackageTree => t' = t)
  · rfl
  · intro t' ht' a ha
    rw [ht', ensure, if_pos (find?_isSome_iff.mpr (h a ha))]

theorem entryAt?_assign (path : PackagePath) (newName : String) (a : PackagePath) :
    (t.assign path newName).entryAt? a = (t.entryAt? a).map fun e =>
      (e.1, if e.2.path = path then { e.2 with newName := some newName } else e.2) := by
  unfold assign entryAt?
  rw [Arena.entries_map, List.find?_map]
  -- the path of a package stays as it is
  congr 2
  funext e
  show ((if e.2.path = path then _ else e.2 : PackageNode).path == a) = _
  split <;> rfl

theorem aliasOf_assign (h : t.Has path) (newName : String) (a : PackagePath) :
    (t.assign path newName).aliasOf a = if a = path then some newName else t.aliasOf a := by
  unfold aliasOf
  rw [entryAt?_assign]
  by_cases ha : a = path
  · rw [if_pos ha, ha]
    rcases Option.isSome_iff_exists.mp (find?_isSome_iff.mpr h) with ⟨id, hid⟩
    rcases Option.map_eq_some_iff.mp hid with ⟨e, he, -⟩
    rw [he]
    show (if e.2.path = path then _ else e.2 : PackageNode).newName = _
    rw [if_pos (mem_of_entryAt? he).2]
  · rw [if_neg ha]
    cases he : t.entryAt? a with
    | none => rfl
    | some e =>
      show (if e.2.path = path then _ else e.2 : PackageNode).newName = _
      rw [if_neg fun heq => ha ((mem_of_entryAt? he).2.symm.trans heq)]
      rfl

theorem has_assign (path' : PackagePath) (newName : String) :
    (t.assign path' newName).Has path ↔ t.Has path := by
  constructor
  · intro h
    rcases h with ⟨id, n, hn, hpath⟩
    have hget : (t.nodes.map _).get? id = some n := hn
    rw [Arena.get?_map] at hget
    rcases Option.map_eq_some_iff.mp hget with ⟨n', hn', hnn⟩
    exact ⟨id, n', hn', (path_ite_newName n' path' newName).symm.trans (hnn ▸ hpath)⟩
  · exact fun h => h.assign path' newName

/-! ## Fresh segments -/

/-- A name that is free under a path is neither segment nor alias of a package there. -/
theorem isFreeUnder_eq_true {name : String} (h : t.isFreeUnder path name = true)
    {a : PackagePath} (hne : a ≠ []) (ha : a.dropLast = path) :
    (t.Has a → a.segment ≠ name) ∧ t.aliasOf a ≠ some name := by
  have hchild : ∀ {id n}, t.nodes.get? id = some n → n.path = a →
      n.segment ≠ name ∧ n.newName ≠ some name := by
    intro id n hn hpath
    have hmem : (id, n) ∈ t.children path := by
      refine List.mem_filter.mpr ⟨Arena.mem_entries_iff.mpr hn, ?_⟩
      simpa [hpath, ha] using hne
    simpa using List.all_eq_true.mp h _ hmem
  constructor
  · intro hhas
    rcases hhas with ⟨id, n, hn, hpath⟩
    have hsegment := (hchild hn hpath).1
    rwa [PackageNode.segment, hpath] at hsegment
  · intro halias
    rcases node_of_aliasOf halias with ⟨id, n, hn, hpath, hname⟩
    exact (hchild hn hpath).2 hname

/-- A package under a path stands in the way of two words, its segment and its alias. -/
theorem refusesAtMost_isFreeUnder (t : PackageTree) (path : PackagePath) :
    NameSource.RefusesAtMost (t.isFreeUnder path) (2 * (t.children path).length) := by
  intro ns hns hrefused
  let names := (t.children path).flatMap fun e => [e.2.segment, e.2.newName.getD ""]
  have hlen : names.length = 2 * (t.children path).length := by
    simp [names, List.length_flatMap, Nat.mul_comm]
  rw [← hlen]
  refine NameSource.length_le_of_map_subset hns Word.spell_injective fun n hn => ?_
  have hno := hrefused n hn
  rw [isFreeUnder, List.all_eq_false] at hno
  rcases hno with ⟨e, he, hblocks⟩
  refine List.mem_flatMap.mpr ⟨e, he, ?_⟩
  by_cases hsegment : e.2.segment = Word.spell n
  · rw [hsegment]
    exact List.mem_cons_self
  · have halias : e.2.newName = some (Word.spell n) := by
      simpa [hsegment] using hblocks
    rw [halias]
    exact List.mem_cons_of_mem _ List.mem_cons_self

/-- A fresh segment is the next word that is free beside the package. -/
theorem freshSegment_eq (t : PackageTree) (path : PackagePath) (source : NameSource) :
    ∃ n, source.IsNext (fun name => path.isEmpty || t.isFreeUnder path.dropLast name) n ∧
      t.freshSegment path source = (Word.spell n, ⟨n + 1⟩) := by
  unfold freshSegment
  split
  · rename_i hempty
    have hnone : NameSource.RefusesAtMost (fun _ => true) 0 := by
      intro ns _ hrefused
      cases ns with
      | nil => exact Nat.le_refl 0
      | cons n ns => exact absurd (hrefused n List.mem_cons_self) (by simp)
    rcases NameSource.nextWhere_eq (s := source) hnone with ⟨n, hnext, -, heq⟩
    refine ⟨n, ?_, heq⟩
    simpa [hempty] using hnext
  · rename_i hempty
    rcases NameSource.nextWhere_eq (s := source) (t.refusesAtMost_isFreeUnder path.dropLast) with
      ⟨n, hnext, -, heq⟩
    refine ⟨n, ?_, heq⟩
    simpa [hempty] using hnext

/-! ## Deciding -/

/-- What deciding the package at `path` does. -/
inductive Decides (wants : String → Bool) (path : PackagePath) :
    PackageTree × NameSource → PackageTree × NameSource → Prop
  | again {t source} : path ∈ t.order → Decides wants path (t, source) (t, source)
  | keep {t source} : (t.aliasOf path).isSome = true ∨ wants path.segment = false →
      Decides wants path (t, source) ({ t with order := t.order ++ [path] }, source)
  | draw {t source n} : t.aliasOf path = none → wants path.segment = true →
      source.IsNext (fun name => path.isEmpty || t.isFreeUnder path.dropLast name) n →
      Decides wants path (t, source)
        (({ t with order := t.order ++ [path] } : PackageTree).assign path (Word.spell n), ⟨n + 1⟩)

theorem decides_decideOne (wants : String → Bool) (s : PackageTree × NameSource)
    (path : PackagePath) : Decides wants path s (decideOne wants s path) := by
  rcases s with ⟨t, source⟩
  unfold decideOne
  dsimp only
  split
  · rename_i hmem
    exact Decides.again (List.contains_iff_mem.mp hmem)
  · split
    · rename_i hwants
      rw [Bool.and_eq_true, Option.isNone_iff_eq_none] at hwants
      rcases freshSegment_eq { t with order := t.order ++ [path] } path source with
        ⟨n, hnext, heq⟩
      rw [heq]
      exact Decides.draw hwants.1 hwants.2 hnext
    · rename_i hwants
      refine Decides.keep ?_
      rw [Bool.and_eq_true, not_and_or, Bool.not_eq_true, Bool.not_eq_true] at hwants
      exact hwants.imp_left Option.isNone_eq_false_iff.mp

/-- What the steps of deciding keep, deciding keeps. -/
theorem decide_induct {wants : String → Bool} {motive : PackageTree × NameSource → Prop}
    {source : NameSource} (start : motive (t, source))
    (step : ∀ s s' a, a ∈ path.lineage → Decides wants a s s' → motive s → motive s') :
    motive (t.decide path wants source) := by
  unfold PackageTree.decide
  split
  · exact start
  · apply List.foldlRecOn (motive := motive)
    · exact start
    · intro s hs a ha
      exact step s _ a (List.mem_filter.mp ha).1 (decides_decideOne wants s a) hs

theorem Decides.has {wants : String → Bool} {s s' : PackageTree × NameSource}
    (h : Decides wants path s s') {a : PackagePath} : s'.1.Has a ↔ s.1.Has a := by
  cases h with
  | again _ => exact Iff.rfl
  | keep _ => exact Iff.rfl
  | draw _ _ _ => exact has_assign path _

/-- Deciding puts the package among those decided, and keeps the others there. -/
theorem Decides.mem_order_iff {wants : String → Bool} {s s' : PackageTree × NameSource}
    (h : Decides wants path s s') {a : PackagePath} :
    a ∈ s'.1.order ↔ a ∈ s.1.order ∨ a = path := by
  have hlast : ∀ order : List PackagePath, a ∈ order ++ [path] ↔ a ∈ order ∨ a = path := fun _ =>
    List.mem_append.trans (or_congr_right List.mem_singleton)
  cases h with
  | again hmem => exact (or_iff_left_of_imp (· ▸ hmem)).symm
  | keep _ => exact hlast _
  | draw _ _ _ => exact hlast _

theorem mem_order_foldl_decideOne (wants : String → Bool) (l : List PackagePath)
    (s : PackageTree × NameSource) {a : PackagePath} :
    a ∈ (l.foldl (decideOne wants) s).1.order ↔ a ∈ s.1.order ∨ a ∈ l := by
  induction l generalizing s with
  | nil => exact (or_iff_left List.not_mem_nil).symm
  | cons b l ih =>
    rw [List.foldl_cons, ih, (decides_decideOne wants s b).mem_order_iff, List.mem_cons, or_assoc]

/-- Deciding makes no package. -/
theorem has_decide_iff {wants : String → Bool} {source : NameSource} {a : PackagePath} :
    (t.decide path wants source).1.Has a ↔ t.Has a :=
  decide_induct (motive := fun s => s.1.Has a ↔ t.Has a) Iff.rfl
    fun _ _ _ _ hd hs => hd.has.trans hs

/-! ## Packages side by side -/

/-- Every alias is a word, and unlike the segments and aliases of the packages beside it. -/
structure Apart (t : PackageTree) : Prop where
  ne_nil : t.aliasOf [] = none
  word : ∀ {a name}, t.aliasOf a = some name → ∃ n, name = Word.spell n
  segment : ∀ {a b name}, t.aliasOf a = some name → t.Has b → b ≠ [] → a.dropLast = b.dropLast →
    b.segment ≠ name
  apart : ∀ {a b name}, t.aliasOf a = some name → t.aliasOf b = some name →
    a.dropLast = b.dropLast → a = b

/-- A tree without aliases. -/
theorem apart_of_aliasOf_eq_none (h : ∀ a, t.aliasOf a = none) : t.Apart where
  ne_nil := h []
  word := fun ha => by
    rw [h] at ha
    cases ha
  segment := fun ha => by
    rw [h] at ha
    cases ha
  apart := fun ha => by
    rw [h] at ha
    cases ha

/-- The order of decisions counts for nothing here. -/
theorem Apart.ordered (h : t.Apart) (order : List PackagePath) :
    Apart { t with order } := ⟨h.ne_nil, h.word, h.segment, h.apart⟩

theorem Apart.draw (h : t.Apart) (hhas : t.Has path) (hpath : path ≠ []) {n : Nat}
    (hfree : t.isFreeUnder path.dropLast (Word.spell n) = true) :
    (t.assign path (Word.spell n)).Apart := by
  have hcases : ∀ {a name}, (t.assign path (Word.spell n)).aliasOf a = some name →
      a = path ∧ name = Word.spell n ∨ t.aliasOf a = some name := by
    intro a name ha
    rw [aliasOf_assign hhas] at ha
    split at ha
    · rename_i heq
      exact Or.inl ⟨heq, (Option.some.inj ha).symm⟩
    · exact Or.inr ha
  have hne : ∀ {a name}, t.aliasOf a = some name → a ≠ [] := by
    intro a name ha hnil
    rw [hnil, h.ne_nil] at ha
    cases ha
  constructor
  · rw [aliasOf_assign hhas, if_neg hpath.symm, h.ne_nil]
  · intro a name ha
    rcases hcases ha with ⟨-, hname⟩ | hold
    · exact ⟨n, hname⟩
    · exact h.word hold
  · intro a b name ha hb hbne hab
    rw [has_assign] at hb
    rcases hcases ha with ⟨hapath, hname⟩ | hold
    · rw [hname]
      exact (isFreeUnder_eq_true hfree hbne (hab.symm.trans (by rw [hapath]))).1 hb
    · exact h.segment hold hb hbne hab
  · intro a b name ha hb hab
    -- an alias from before is not the new one of a package beside it
    rcases hcases ha with ⟨hapath, hname⟩ | holda
    · rcases hcases hb with ⟨hbpath, -⟩ | holdb
      · rw [hapath, hbpath]
      · have hfresh := (isFreeUnder_eq_true hfree (hne holdb) (hab.symm.trans (by rw [hapath]))).2
        exact absurd (hname ▸ holdb) hfresh
    · rcases hcases hb with ⟨hbpath, hname⟩ | holdb
      · have hfresh := (isFreeUnder_eq_true hfree (hne holda) (hab.trans (by rw [hbpath]))).2
        exact absurd (hname ▸ holda) hfresh
      · exact h.apart holda holdb hab

/-- Deciding keeps packages apart. -/
theorem Apart.decide (h : t.Apart) (hhas : ∀ a ∈ path.lineage, t.Has a) (wants : String → Bool)
    (source : NameSource) : (t.decide path wants source).1.Apart := by
  have hboth : (t.decide path wants source).1.Apart ∧
      ∀ a ∈ path.lineage, (t.decide path wants source).1.Has a := by
    refine decide_induct (motive := fun s => s.1.Apart ∧ ∀ a ∈ path.lineage, s.1.Has a)
      ⟨h, hhas⟩ ?_
    intro s s' a ha hstep hs
    refine ⟨?_, fun b hb => hstep.has.mpr (hs.2 b hb)⟩
    have hane := (PackagePath.mem_lineage.mp ha).1
    cases hstep with
    | again _ => exact hs.1
    | keep _ => exact hs.1.ordered _
    | @draw t source n _ _ hnext =>
      have hfree := hnext.accepted
      rw [List.isEmpty_eq_false_iff.mpr hane, Bool.false_or] at hfree
      exact (hs.1.ordered (t.order ++ [a])).draw (hs.2 a ha) hane hfree
  exact hboth.1

/-! ## Emitted paths -/

/-- What the segment at the end of a path is emitted as. -/
def shown (t : PackageTree) (path : PackagePath) : String := (t.aliasOf path).getD path.segment

theorem fullAlias_eq (t : PackageTree) (path : PackagePath) :
    t.fullAlias path = PackagePath.text (path.lineage.map t.shown) := rfl

theorem shown_congr {u : PackageTree} (h : u.aliasOf path = t.aliasOf path) :
    u.shown path = t.shown path := by
  rw [shown, shown, h]

/-- Where a package is emitted is a matter of the aliases on the way to it. -/
theorem fullAlias_congr {u : PackageTree} (h : ∀ a ∈ path.lineage, u.aliasOf a = t.aliasOf a) :
    u.fullAlias path = t.fullAlias path := by
  rw [fullAlias_eq, fullAlias_eq, List.map_congr_left fun a ha => shown_congr (h a ha)]

/-- Packages side by side are shown differently. -/
theorem Apart.eq_of_shown_eq (h : t.Apart) {a : PackagePath} {s s' : String}
    (hs : t.Has (a ++ [s])) (hs' : t.Has (a ++ [s']))
    (heq : t.shown (a ++ [s]) = t.shown (a ++ [s'])) : s = s' := by
  have hbeside : (a ++ [s]).dropLast = (a ++ [s']).dropLast := by simp
  unfold shown at heq
  rw [PackagePath.segment_append_singleton, PackagePath.segment_append_singleton] at heq
  cases hx : t.aliasOf (a ++ [s]) with
  | none =>
    cases hy : t.aliasOf (a ++ [s']) with
    | none =>
      rw [hx, hy] at heq
      exact heq
    | some y =>
      rw [hx, hy] at heq
      have hne := h.segment hy hs (by simp) hbeside.symm
      rw [PackagePath.segment_append_singleton] at hne
      exact absurd heq hne
  | some x =>
    cases hy : t.aliasOf (a ++ [s']) with
    | none =>
      rw [hx, hy] at heq
      have hne := h.segment hx hs' (by simp) hbeside
      rw [PackagePath.segment_append_singleton] at hne
      exact absurd heq.symm hne
    | some y =>
      rw [hx, hy] at heq
      have hxy : x = y := heq
      have hpaths := h.apart hx (hxy ▸ hy) hbeside
      exact (List.cons.inj (List.append_cancel_left hpaths)).1

/-- Segments are shown as segments. -/
theorem Apart.isSegment_shown (h : t.Apart) {a : PackagePath}
    (hsegment : PackagePath.IsSegment a.segment) : PackagePath.IsSegment (t.shown a) := by
  unfold shown
  cases ha : t.aliasOf a with
  | none => exact hsegment
  | some name =>
    rcases h.word ha with ⟨n, hname⟩
    rw [hname]
    exact PackagePath.isSegment_spell n

/-- Two paths whose segments are shown alike, one after the other, are one. -/
theorem Apart.eq_of_map_shown_eq (h : t.Apart) {a b : PackagePath}
    (ha : ∀ c ∈ a.lineage, t.Has c) (hb : ∀ c ∈ b.lineage, t.Has c)
    (heq : a.lineage.map t.shown = b.lineage.map t.shown) : a = b := by
  induction a using List.reverseRecOn generalizing b with
  | nil =>
    cases b using List.reverseRecOn with
    | nil => rfl
    | append_singleton b s =>
      rw [PackagePath.lineage_append_singleton, List.map_append] at heq
      exact absurd (congrArg List.length heq) (by simp [PackagePath.lineage])
  | append_singleton a s ih =>
    cases b using List.reverseRecOn with
    | nil =>
      rw [PackagePath.lineage_append_singleton, List.map_append] at heq
      exact absurd (congrArg List.length heq) (by simp [PackagePath.lineage])
    | append_singleton b s' =>
      rw [PackagePath.lineage_append_singleton, PackagePath.lineage_append_singleton,
        List.map_append, List.map_append] at heq
      rw [PackagePath.lineage_append_singleton] at ha hb
      rcases List.append_inj' heq rfl with ⟨hfront, hlast⟩
      have hab : a = b := ih (fun c hc => ha c (List.mem_append_left _ hc))
        (fun c hc => hb c (List.mem_append_left _ hc)) hfront
      rw [← hab] at hb hlast ⊢
      have hss := h.eq_of_shown_eq (ha _ (List.mem_append_right _ List.mem_cons_self))
        (hb _ (List.mem_append_right _ List.mem_cons_self)) (List.cons.inj hlast).1
      rw [hss]

/-- Different packages are emitted under different paths. -/
theorem Apart.eq_of_fullAlias_eq (h : t.Apart) {a b : PackagePath}
    (ha : ∀ c ∈ a.lineage, t.Has c) (hb : ∀ c ∈ b.lineage, t.Has c)
    (hsa : ∀ s ∈ a, PackagePath.IsSegment s) (hsb : ∀ s ∈ b, PackagePath.IsSegment s)
    (heq : t.fullAlias a = t.fullAlias b) : a = b := by
  have hshown : ∀ {c : PackagePath}, (∀ s ∈ c, PackagePath.IsSegment s) →
      ∀ s ∈ c.lineage.map t.shown, PackagePath.IsSegment s := by
    intro c hc s hs
    rcases List.mem_map.mp hs with ⟨d, hd, rfl⟩
    exact h.isSegment_shown (hc _ (PackagePath.segment_mem_of_mem_lineage hd))
  rw [fullAlias_eq, fullAlias_eq] at heq
  exact h.eq_of_map_shown_eq ha hb (PackagePath.eq_of_text_eq (hshown hsa) (hshown hsb) heq)

/-- A digit in an emitted path is one of the path itself. -/
theorem Apart.hasDigit_of_fullAlias (h : t.Apart) (a : PackagePath)
    (hdigit : Ident.hasDigit (t.fullAlias a) = true) :
    Ident.hasDigit (PackagePath.text a) = true := by
  rw [fullAlias_eq, PackagePath.hasDigit_text, List.any_eq_true] at hdigit
  rcases hdigit with ⟨s, hs, hsdigit⟩
  rcases List.mem_map.mp hs with ⟨c, hc, rfl⟩
  rw [PackagePath.hasDigit_text, List.any_eq_true]
  refine ⟨c.segment, PackagePath.segment_mem_of_mem_lineage hc, ?_⟩
  -- an alias is a word, so the digit is in the segment itself
  unfold shown at hsdigit
  cases halias : t.aliasOf c with
  | none =>
    rw [halias] at hsdigit
    exact hsdigit
  | some name =>
    rcases h.word halias with ⟨n, hname⟩
    rw [halias, Option.getD_some, hname, Word.hasDigit_spell] at hsdigit
    cases hsdigit

end PackageTree
end Renamer
