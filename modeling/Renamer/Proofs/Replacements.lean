import Renamer.Proofs.Endings
import Renamer.Proofs.GrownTrees

/-!
# Replaced package presets

A package preset that cannot be used is replaced by a word while presets are still being loaded. The
word is unlike the segments and aliases of the packages that are there beside it. It is never drawn
again; but packages that come later, with another preset or with the program, keep their segments,
and another preset that can be used is taken over as it is. These are the packages that can get in
its way (`Engine.packages_process_replaced`).
-/

namespace Renamer

namespace PackagePath

/-- Different packages under one package. -/
structure Beside (a b : PackagePath) : Prop where
  left : a ≠ []
  right : b ≠ []
  ne : a ≠ b
  dropLast_eq : a.dropLast = b.dropLast

end PackagePath

namespace PackageTree

variable {t : PackageTree} {path a : PackagePath}

theorem Decides.issued_le {wants : String → Bool} {s s' : PackageTree × NameSource}
    (h : Decides wants path s s') : s.2.issued ≤ s'.2.issued := by
  cases h with
  | again _ => exact Nat.le_refl _
  | keep _ => exact Nat.le_refl _
  | draw _ _ hnext => exact Nat.le_succ_of_le hnext.issued_le

/-- A step of deciding gives no package a word that has been issued. -/
theorem Decides.aliasOf_eq_spell_iff {wants : String → Bool} {s s' : PackageTree × NameSource}
    (h : Decides wants path s s') (hhas : s.1.Has path) {n : Nat} (hn : n < s.2.issued)
    (a : PackagePath) :
    s'.1.aliasOf a = some (Word.spell n) ↔ s.1.aliasOf a = some (Word.spell n) := by
  by_cases ha : a = path
  · rw [ha]
    cases h with
    | again _ => exact Iff.rfl
    | keep _ => exact Iff.rfl
    | @draw t source k hnone _ hnext =>
      have hordered : ({ t with order := t.order ++ [path] } : PackageTree).Has path := hhas
      rw [aliasOf_assign hordered, if_pos rfl, hnone]
      refine ⟨fun heq => ?_, fun heq => by cases heq⟩
      have hk : k = n := Word.spell_injective (Option.some.inj heq)
      exact absurd (hk ▸ hnext.issued_le) (Nat.not_le_of_lt hn)
  · rw [h.aliasOf_of_ne hhas ha]

/-- Deciding gives no package a word that has been issued. -/
theorem aliasOf_decide_eq_spell_iff (hhas : ∀ b ∈ path.lineage, t.Has b) {source : NameSource}
    {n : Nat} (hn : n < source.issued) (wants : String → Bool) (a : PackagePath) :
    (t.decide path wants source).1.aliasOf a = some (Word.spell n) ↔
      t.aliasOf a = some (Word.spell n) := by
  have hall : n < (t.decide path wants source).2.issued ∧
      (∀ b ∈ path.lineage, (t.decide path wants source).1.Has b) ∧
      ((t.decide path wants source).1.aliasOf a = some (Word.spell n) ↔
        t.aliasOf a = some (Word.spell n)) :=
    decide_induct (motive := fun s => n < s.2.issued ∧ (∀ b ∈ path.lineage, s.1.Has b) ∧
      (s.1.aliasOf a = some (Word.spell n) ↔ t.aliasOf a = some (Word.spell n)))
      ⟨hn, hhas, Iff.rfl⟩ fun s s' b hb hd ⟨hn, hhas, hsame⟩ =>
        ⟨Nat.lt_of_lt_of_le hn hd.issued_le, fun c hc => hd.has.mpr (hhas c hc),
          (hd.aliasOf_eq_spell_iff (hhas b hb) hn a).trans hsame⟩
  exact hall.2.2

end PackageTree

/-! ## Loading -/

namespace Presets

/-- What the last one of some package presets says for a package. -/
def lastFor (path : PackagePath) (entries : List (String × String)) : Option String :=
  ((entries.filter fun entry => PackagePath.ofText entry.1 = path).getLast?).map Prod.snd

theorem lastFor_append_singleton (path : PackagePath) (entries : List (String × String))
    (entry : String × String) : lastFor path (entries ++ [entry]) =
      if PackagePath.ofText entry.1 = path then some entry.2 else lastFor path entries := by
  unfold lastFor
  rw [List.filter_append]
  by_cases h : PackagePath.ofText entry.1 = path <;> simp [h]

theorem lastFor_eq_none {path : PackagePath} {entries : List (String × String)}
    (h : ∀ entry ∈ entries, PackagePath.ofText entry.1 ≠ path) : lastFor path entries = none := by
  rw [lastFor, List.filter_eq_nil_iff.mpr fun entry hentry => by simpa using h entry hentry]
  rfl

end Presets

namespace Engine

variable {e e' : Engine} {n : Nat} {done : List (String × String)}

/-- A package preset that cannot be written is replaced by the next word that is free beside the
package. -/
theorem loadPackage_of_refused {entry : String × String} (h : e.policy.accepts entry.2 = false) :
    let path := PackagePath.ofText entry.1
    ∃ n findings, e.source.IsNext (fun name =>
        path.isEmpty || (e.packages.create path).isFreeUnder path.dropLast name) n ∧
      e.loadPackage entry = { e with
        packages := (e.packages.create path).assign path (Word.spell n)
        source := ⟨n + 1⟩
        findings } := by
  intro path
  obtain ⟨n, hnext, heq⟩ := PackageTree.freshSegment_eq (e.packages.create path) path e.source
  refine ⟨n, e.findings ++ [.unusableAlias entry.1 entry.2 (Word.spell n)], hnext, ?_⟩
  unfold loadPackage usableOr
  dsimp only
  rw [h, if_neg Bool.false_ne_true, heq]
  rfl

/-- What holds of an engine when the package presets `done` have been loaded into `e`, which had
issued the word with the number `n`. -/
structure Loads (e : Engine) (n : Nat) (done : List (String × String)) (e' : Engine) : Prop where
  policy : e'.policy = e.policy
  issued : n < e'.source.issued
  root : e'.packages.Has []
  has : ∀ a, e'.packages.Has a ↔
    e.packages.Has a ∨ ∃ entry ∈ done, a ∈ (PackagePath.ofText entry.1).lineage
  aliases : ∀ a, e'.packages.aliasOf a = some (Word.spell n) ↔
    (Presets.lastFor a done).or (e.packages.aliasOf a) = some (Word.spell n)

/-- One more preset is loaded. A word in the place of one that cannot be used is a new one. -/
theorem Loads.loadPackage (h : e.Loads n done e') (hjava : e.policy.classifier = Classifier.java)
    (hn : Ident.isReservedWord (Word.spell n) = false) (entry : String × String) :
    e.Loads n (done ++ [entry]) (e'.loadPackage entry) := by
  let path := PackagePath.ofText entry.1
  have hhas : ∀ newName a, ((e'.packages.create path).assign path newName).Has a ↔
      e.packages.Has a ∨ ∃ entry' ∈ done ++ [entry], a ∈ (PackagePath.ofText entry'.1).lineage := by
    intro newName a
    rw [PackageTree.has_assign, PackageTree.has_create_iff, h.has, or_assoc]
    simp only [List.mem_append, List.mem_singleton, or_and_right, exists_or, exists_eq_left, path]
  have haliases : ∀ newName, (newName = Word.spell n ↔ entry.2 = Word.spell n) →
      ∀ a, ((e'.packages.create path).assign path newName).aliasOf a = some (Word.spell n) ↔
        (Presets.lastFor a (done ++ [entry])).or (e.packages.aliasOf a) = some (Word.spell n) := by
    intro newName hsame a
    rw [PackageTree.aliasOf_assign (PackageTree.has_create_self h.root path),
      PackageTree.aliasOf_create, Presets.lastFor_append_singleton]
    by_cases ha : a = path
    · rw [if_pos ha, if_pos ha.symm, Option.some_or, Option.some.injEq, Option.some.injEq, hsame]
    · rw [if_neg ha, if_neg fun heq => ha heq.symm, h.aliases]
  cases haccepts : e'.policy.accepts entry.2 with
  | true =>
    rw [loadPackage_of_accepts haccepts]
    exact ⟨h.policy, h.issued, (h.root.create path).assign path _, hhas _, haliases _ Iff.rfl⟩
  | false =>
    obtain ⟨k, findings, hnext, heq⟩ := loadPackage_of_refused haccepts
    rw [heq]
    have hlt : n < k := Nat.lt_of_lt_of_le h.issued hnext.issued_le
    refine ⟨h.policy, Nat.lt_succ_of_lt hlt, (h.root.create path).assign path _, hhas _,
      haliases _ (iff_of_false (fun hword => ?_) fun hword => ?_)⟩
    · rw [Word.spell_injective hword] at hlt
      exact Nat.lt_irrefl n hlt
    · rw [hword, h.policy, Policy.accepts_spell hjava hn] at haccepts
      cases haccepts

theorem loads_foldl (hjava : e.policy.classifier = Classifier.java)
    (hn : Ident.isReservedWord (Word.spell n) = false) (hissued : n < e.source.issued)
    (hroot : e.packages.Has []) (l : List (String × String)) :
    e.Loads n l (l.foldl Engine.loadPackage e) := by
  induction l using List.reverseRecOn with
  | nil => exact ⟨rfl, hissued, hroot, by simp, fun a => by rw [Presets.lastFor]; rfl⟩
  | append_singleton l entry ih =>
    rw [List.foldl_append]
    exact ih.loadPackage hjava hn entry

/-! ## Words used up -/

theorem issued_le_drawAs (e : Engine) (scope : Scope) (form : String → String) :
    e.source.issued ≤ (drawAs scope form e).2.source.issued :=
  e.source.issued_le_nextWhere _ _

theorem issued_le_usableOr (e : Engine) (identity newName : String)
    {fresh : Engine → String × Engine}
    (h : ∀ e, e.source.issued ≤ (fresh e).2.source.issued) :
    e.source.issued ≤ (e.usableOr identity newName fresh).2.source.issued := by
  unfold usableOr
  split
  · exact Nat.le_refl _
  · exact h e

end Engine

namespace Run

variable {p : Program} {e : Engine} {r : Run} {n : Nat}

theorem issued_le_nameType (r : Run) (ty : TypeId) (t : TypeSymbol) :
    r.engine.source.issued ≤ (r.nameType ty t).engine.source.issued := by
  unfold nameType
  split
  · exact Nat.le_refl _
  · exact r.engine.issued_le_drawAs t.scope id

theorem issued_le_decideType (r : Run) (ty : TypeId) (t : TypeSymbol) :
    r.engine.source.issued ≤ (r.decideType ty t).engine.source.issued := by
  unfold decideType
  split
  · exact r.engine.issued_le_usableOr _ _ fun e => e.issued_le_drawAs t.scope id
  · split
    · exact Nat.le_refl _
    · exact r.issued_le_nameType ty t

theorem issued_le_decideField (owner : TypeSymbol) (r : Run) (entry : FieldId × FieldSymbol) :
    r.engine.source.issued ≤ (decideField owner r entry).engine.source.issued := by
  unfold decideField
  dsimp only
  split
  · exact Nat.le_refl _
  · split
    · exact Nat.le_refl _
    · split
      · exact r.engine.issued_le_drawAs entry.2.scope id
      · exact Nat.le_refl _

theorem issued_le_decideMethod (owner : TypeSymbol) (r : Run) (entry : MethodId × MethodSymbol) :
    r.engine.source.issued ≤ (decideMethod owner r entry).engine.source.issued := by
  unfold decideMethod
  dsimp only
  split
  · exact Nat.le_refl _
  · split
    · exact Nat.le_refl _
    · split
      · exact r.engine.issued_le_drawAs entry.2.scope entry.2.keyAs
      · exact Nat.le_refl _

/-! ## Deciding -/

/-- What holds of a run of `e`, which had issued the word with the number `n`: the packages are
those of `e` and of the program, and those that have the word as their alias had it before. -/
structure KeepsWord (p : Program) (e : Engine) (n : Nat) (r : Run) : Prop where
  declared : r.program.declared = p.declared
  issued : n < r.engine.source.issued
  has : ∀ a, r.engine.packages.Has a ↔ e.packages.Has a ∨
    ∃ text ∈ p.types.toList.map (·.package), a ∈ (PackagePath.ofText text).lineage
  aliases : ∀ a, r.engine.packages.aliasOf a = some (Word.spell n) ↔
    e.packages.aliasOf a = some (Word.spell n)

theorem KeepsWord.of_packages (h : KeepsWord p e n r) {r' : Run}
    (hdeclared : r'.program.declared = r.program.declared)
    (hissued : r.engine.source.issued ≤ r'.engine.source.issued)
    (hpackages : r'.engine.packages = r.engine.packages) : KeepsWord p e n r' where
  declared := hdeclared.trans h.declared
  issued := Nat.lt_of_lt_of_le h.issued hissued
  has := hpackages ▸ h.has
  aliases := hpackages ▸ h.aliases

theorem KeepsWord.decidePackage (h : KeepsWord p e n r) {ty : TypeId} {t : TypeSymbol}
    (ht : p.ShowsType ty t) :
    KeepsWord p e n { r with engine := r.engine.decidePackage t } := by
  let path := PackagePath.ofText t.package
  have hthere : ∀ b ∈ path.lineage, r.engine.packages.Has b := by
    obtain ⟨u, hu, hut⟩ := ht
    have hpackage : u.package = t.package := TypeSymbol.agree hut TypeSymbol.package fun _ => rfl
    have htext := List.mem_map.mpr ⟨u, Arena.mem_toList_of_get? hu, hpackage⟩
    exact fun b hb => (h.has b).mpr (Or.inr ⟨t.package, htext, hb⟩)
  obtain ⟨packages, source, hdecide, hissued, heq⟩ := r.engine.decidePackage_eq t
  rw [PackageTree.create_eq_self hthere] at hdecide
  have hhas : ∀ a, (r.engine.packages.decide path r.engine.rejects r.engine.source).1.Has a ↔
      r.engine.packages.Has a := fun a => PackageTree.has_decide_iff
  have haliases := PackageTree.aliasOf_decide_eq_spell_iff hthere h.issued r.engine.rejects
  rw [hdecide] at hhas haliases
  rw [heq]
  exact ⟨h.declared, Nat.lt_of_lt_of_le h.issued hissued, fun a => (hhas a).trans (h.has a),
    fun a => (haliases a).trans (h.aliases a)⟩

theorem KeepsWord.decideType (h : KeepsWord p e n r) {ty : TypeId} {t : TypeSymbol}
    (ht : p.ShowsType ty t) : KeepsWord p e n (r.decideType ty t) :=
  h.of_packages (decides_decideType ht).declared (issued_le_decideType r ty t)
    (packages_decideType r ty t)

theorem KeepsWord.decideField (h : KeepsWord p e n r) {ty : TypeId} {t : TypeSymbol}
    {id : FieldId} {f : FieldSymbol} (ht : p.ShowsType ty t) (hf : p.ShowsField id f)
    (howner : f.owner = ty) : KeepsWord p e n (Run.decideField t r (id, f)) :=
  h.of_packages (decides_decideField ht hf howner).declared (issued_le_decideField t r (id, f))
    (sparesTypes_decideField t r (id, f)).packages

theorem KeepsWord.discoverMethod (h : KeepsWord p e n r) {ty : TypeId} {t : TypeSymbol}
    {id : MethodId} {m : MethodSymbol} (ht : p.ShowsType ty t) (hm : p.ShowsMethod id m)
    (howner : m.owner = ty) : KeepsWord p e n (Run.discoverMethod ty t r (id, m)) := by
  have hdecided := h.of_packages (decides_decideMethod ht hm howner).declared
    (issued_le_decideMethod t r (id, m)) (sparesTypes_decideMethod t r (id, m)).packages
  rw [Run.discoverMethod]
  generalize decideMethod t r (id, m) = r' at hdecided ⊢
  obtain ⟨hl, -, hc⟩ := leaves_linkMethod r' ty t m
  exact hdecided.of_packages hl.declared
    (Nat.le_of_eq (congrArg NameSource.issued hc.source).symm)
    (sparesTypes_linkMethod ty t r' m).packages

theorem keeps_keepsWord_deciding (p : Program) (e : Engine) (n : Nat) :
    Pass.deciding.Keeps p fun _ => KeepsWord p e n where
  declared := fun h => h.declared
  type := by
    intro done rest r ty t _ ht h
    dsimp only [Pass.deciding]
    exact (h.decidePackage ht).decideType ht
  field := by
    intro done rest r ty t id f _ ht hf howner h
    exact h.decideField ht hf howner
  method := by
    intro done rest r ty t id m _ ht hm howner h
    exact h.discoverMethod ht hm howner

/-- What a run does to the packages, and to those of them that have a word issued before. -/
theorem keepsWord_unified (p : Program) {e : Engine} {n : Nat} (hn : n < e.source.issued) :
    (∀ a, (e.bound p).unified.engine.packages.Has a ↔ e.packages.Has a ∨
      ∃ text ∈ p.types.toList.map (·.package), a ∈ (PackagePath.ofText text).lineage) ∧
    ∀ a, (e.bound p).unified.engine.packages.aliasOf a = some (Word.spell n) ↔
      e.packages.aliasOf a = some (Word.spell n) := by
  have hseed : KeepsWord p e n { engine := e.seed p.clearAliases, program := p.clearAliases } := by
    have htexts : p.clearAliases.types.toList.map (·.package) =
        p.types.toList.map (·.package) := by
      show (p.types.map _).items.toList.map _ = _
      rw [Arena.map, Array.toList_map, List.map_map]
      rfl
    refine ⟨Program.declared_clearAliases, hn, fun a => ?_, fun a => ?_⟩
    · rw [← htexts]
      exact PackageTree.has_foldl_create_iff
    · apply List.foldlRecOn (motive := fun t : PackageTree =>
        t.aliasOf a = some (Word.spell n) ↔ e.packages.aliasOf a = some (Word.spell n))
      · exact Iff.rfl
      · intro t ht u _
        rw [PackageTree.aliasOf_create, ht]
  obtain ⟨r, hr, heq⟩ := (keeps_keepsWord_deciding p e n).discover hseed
  rw [(alikeTypes_unified e p).packages, heq]
  exact ⟨hr.has, hr.aliases⟩

end Run

/-! ## The end of a run -/

namespace Program

/-- Three packages side by side, each with a type `Main`. -/
def neighbours : Program where
  types := ⟨#[
    { package := "com.foo", shortName := "Main", fullName := "com.foo.Main" },
    { package := "com.bar", shortName := "Main", fullName := "com.bar.Main" },
    { package := "com.a", shortName := "Main", fullName := "com.a.Main" }]⟩

theorem built_neighbours : neighbours.Built := by
  have hfoo := Built.empty.addType { package := "com.foo", shortName := "Main" }
  have hbar := hfoo.addType { package := "com.bar", shortName := "Main" }
  exact hbar.addType { package := "com.a", shortName := "Main" }

end Program

namespace Presets

/-- A preset for the package `com.foo` that cannot be used. -/
def digit : Presets where
  packages := { toList := [("com.foo", "x1")], nodup_keys := by decide }

end Presets

namespace Engine

/-- An engine that keeps names of one letter. -/
def lenient : Engine where
  policy := { settings := { minLength := 1 } }

/-- Loading package presets leaves an engine of the same policy with the unnamed package. -/
theorem loaded_reset (e : Engine) (l : List (String × String)) :
    (l.foldl Engine.loadPackage e.reset).policy = e.policy ∧
      (l.foldl Engine.loadPackage e.reset).packages.Has [] := by
  apply List.foldlRecOn (motive := fun e' : Engine => e'.policy = e.policy ∧ e'.packages.Has [])
  · exact ⟨rfl, e.unused_reset.root⟩
  · rintro e' ⟨hpolicy, hroot⟩ entry _
    refine ⟨?_, has_loadPackage e' entry hroot⟩
    obtain ⟨packages, source, findings, heq⟩ := e'.loadPackage_eq entry
    rw [heq]
    exact hpolicy

/-- A run of an engine that had presets loaded, one of which was replaced by the word with the
number `n`: which packages there are in the end, and which have the word as their alias. -/
theorem replaced_unified (p : Program) (e : Engine)
    (hjava : e.policy.classifier = Classifier.java) {presets : Presets}
    {before after : List (String × String)} {text newName : String}
    (hentries : presets.packages.toList = before ++ (text, newName) :: after)
    (hrefused : e.policy.accepts newName = false) :
    let path := PackagePath.ofText text
    let t := (before.foldl loadPackage e.reset).packages.create path
    let u := ((e.reset.loadPresets presets).bound p).unified.engine.packages
    ∃ n, (path ≠ [] → t.isFreeUnder path.dropLast (Word.spell n) = true) ∧
      ((before ++ [(text, newName)]).foldl loadPackage e.reset).packages =
        t.assign path (Word.spell n) ∧
      (∀ a, u.Has a ↔ t.Has a ∨ ∃ later ∈ after.map Prod.fst ++ p.types.toList.map (·.package),
        a ∈ (PackagePath.ofText later).lineage) ∧
      ∀ a, u.aliasOf a = some (Word.spell n) ↔ (Presets.lastFor a after).or
        ((t.assign path (Word.spell n)).aliasOf a) = some (Word.spell n) := by
  intro path t u
  obtain ⟨hpolicy, hroot⟩ := e.loaded_reset before
  have hrefused : (before.foldl loadPackage e.reset).policy.accepts (text, newName).2 = false := by
    rw [hpolicy]
    exact hrefused
  obtain ⟨n, findings, hnext, heq⟩ := loadPackage_of_refused hrefused
  have hfold : (before ++ [(text, newName)]).foldl loadPackage e.reset =
      (before.foldl loadPackage e.reset).loadPackage (text, newName) := by
    rw [List.foldl_append]
    rfl
  have hloads := loads_foldl (e := (before.foldl loadPackage e.reset).loadPackage (text, newName))
    (n := n) (by rw [heq, hpolicy]; exact hjava) hnext.not_reserved
    (by rw [heq]; exact n.lt_succ_self)
    (has_loadPackage _ _ hroot) after
  have hloaded : e.reset.loadPresets presets =
      { after.foldl loadPackage ((before.foldl loadPackage e.reset).loadPackage (text, newName))
        with presets := { presets with packages := {} } } := by
    rw [loadPresets, hentries, List.foldl_append]
    rfl
  obtain ⟨hhas, haliases⟩ := Run.keepsWord_unified p (e := e.reset.loadPresets presets) (n := n)
    (by rw [hloaded]; exact hloads.issued)
  rw [hloaded] at hhas haliases
  have hpackages : ((before.foldl loadPackage e.reset).loadPackage (text, newName)).packages =
      t.assign path (Word.spell n) := by
    rw [heq]
  refine ⟨n, fun hne => ?_, by rw [hfold, hpackages], fun a => ?_, fun a => ?_⟩
  · have hfree := hnext.accepted
    rwa [List.isEmpty_eq_false_iff.mpr hne, Bool.false_or] at hfree
  · have hthere := hloads.has a
    rw [hpackages, PackageTree.has_assign] at hthere
    show PackageTree.Has (Run.unified _).engine.packages a ↔ _
    rw [hloaded, hhas a, hthere, or_assoc]
    simp only [List.mem_append, List.mem_map, or_and_right, exists_or, exists_exists_and_eq_and]
  · have hword := hloads.aliases a
    rw [hpackages] at hword
    show PackageTree.aliasOf (Run.unified _).engine.packages a = _ ↔ _
    rw [hloaded, haliases a]
    exact hword

/-- A package preset that cannot be used is replaced by a word. After the run a package beside it
has the word as its segment or alias exactly where that package came after the replacement, with
another preset or with the program, and has the word as its segment, or where the last of the later
presets for it is the word. -/
theorem packages_process_replaced (p : Program) (hp : p.Built) (e : Engine)
    (hjava : e.policy.classifier = Classifier.java) (presets : Presets)
    (before after : List (String × String)) (text newName : String)
    (hentries : presets.packages.toList = before ++ (text, newName) :: after)
    (hrefused : e.policy.accepts newName = false) :
    ∃ report r word, (e.reset.loadPresets presets).process p = .ok (report, r) ∧
      ((before ++ [(text, newName)]).foldl loadPackage e.reset).packages.aliasOf
        (PackagePath.ofText text) = some word ∧
      ((∀ entry ∈ after, PackagePath.ofText entry.1 ≠ PackagePath.ofText text) →
        r.engine.packages.aliasOf (PackagePath.ofText text) = some word) ∧
      ∀ b, PackagePath.Beside (PackagePath.ofText text) b →
        (r.engine.packages.Has b ∧
            (b.segment = word ∨ r.engine.packages.aliasOf b = some word) ↔
          b.segment = word ∧ (∃ later ∈ after.map Prod.fst ++ p.types.toList.map (·.package),
            b ∈ (PackagePath.ofText later).lineage) ∨
          Presets.lastFor b after = some word) := by
  let path := PackagePath.ofText text
  let t := (before.foldl loadPackage e.reset).packages.create path
  obtain ⟨n, hfree, hdrawn, hhas, haliases⟩ := replaced_unified p e hjava hentries hrefused
  have hpath : t.Has path := PackageTree.has_create_self (e.loaded_reset before).2 path
  obtain ⟨report, hrun⟩ := process_eq_ok hp.wellFormed (e.unused_reset.loadPresets presets).groups
  refine ⟨report, _, Word.spell n, hrun, ?_, fun hlast => ?_, fun b hb => ?_⟩
  · rw [hdrawn, PackageTree.aliasOf_assign hpath, if_pos rfl]
  · rw [haliases, Presets.lastFor_eq_none hlast, Option.none_or,
      PackageTree.aliasOf_assign hpath, if_pos rfl]
  · -- the word was free beside the package when it was drawn
    obtain ⟨hsegment, halias⟩ :=
      PackageTree.isFreeUnder_eq_true (hfree hb.left) hb.right hb.dropLast_eq.symm
    have hlast : ((e.reset.loadPresets presets).bound p).unified.engine.packages.aliasOf b =
        some (Word.spell n) ↔ Presets.lastFor b after = some (Word.spell n) := by
      rw [haliases, PackageTree.aliasOf_assign hpath, if_neg hb.ne.symm]
      cases Presets.lastFor b after with
      | none =>
        rw [Option.none_or]
        exact iff_of_false halias (Option.some_ne_none _).symm
      | some name => rw [Option.some_or]
    rw [hlast]
    constructor
    · rintro ⟨hthere, hword | hword⟩
      · have hlater := ((hhas b).mp hthere).resolve_left fun hold => hsegment hold hword
        exact Or.inl ⟨hword, hlater⟩
      · exact Or.inr hword
    · rintro (⟨hword, hlater⟩ | hword)
      · exact ⟨(hhas b).mpr (Or.inr hlater), Or.inl hword⟩
      · obtain ⟨id, m, hm, hpath, -⟩ := PackageTree.node_of_aliasOf (hlast.mpr hword)
        exact ⟨⟨id, m, hm, hpath⟩, Or.inr hword⟩

theorem lenient_refuses_digit : lenient.policy.accepts "x1" = false := by
  refine Bool.eq_false_iff.mpr fun haccepts => ?_
  have hdigit := Policy.hasDigit_of_accepts haccepts
  exact absurd hdigit (by decide)

/-- The word that replaces the preset of `com.foo` does not get in the way of `com.bar`, but it is
the segment of `com.a`. -/
theorem packages_process_neighbours : Program.neighbours.Built ∧
    lenient.policy.accepts "x1" = false ∧
    ∃ report r, (lenient.reset.loadPresets Presets.digit).process Program.neighbours =
        .ok (report, r) ∧
      r.engine.packages.aliasOf ["com", "foo"] = some "a" ∧
      ¬ (r.engine.packages.Has ["com", "bar"] ∧ (PackagePath.segment ["com", "bar"] = "a" ∨
        r.engine.packages.aliasOf ["com", "bar"] = some "a")) ∧
      r.engine.packages.Has ["com", "a"] := by
  have hbuilt := Program.built_neighbours
  have hrefused := lenient_refuses_digit
  obtain ⟨report, r, word, hrun, hword, hkept, hbeside⟩ := packages_process_replaced
    Program.neighbours hbuilt lenient rfl Presets.digit [] [] "com.foo" "x1" rfl hrefused
  have hpath : PackagePath.ofText "com.foo" = ["com", "foo"] := by decide +kernel
  have hfirst : (([] ++ [("com.foo", "x1")]).foldl loadPackage lenient.reset).packages.aliasOf
      ["com", "foo"] = some "a" := by decide +kernel
  rw [hpath] at hword hkept hbeside
  cases hfirst.symm.trans hword
  have hbar := hbeside ["com", "bar"] ⟨by decide, by decide, by decide, by decide⟩
  have ha := hbeside ["com", "a"] ⟨by decide, by decide, by decide, by decide⟩
  refine ⟨hbuilt, hrefused, report, r, hrun, hkept fun entry h => absurd h List.not_mem_nil,
    fun hclash => ?_, (ha.mpr (Or.inl ⟨by decide, by decide +kernel⟩)).1⟩
  rcases hbar.mp hclash with ⟨hsegment, -⟩ | hlast
  · exact absurd hsegment (by decide +kernel)
  · cases hlast

/-- So two packages are emitted under one path, and two types under one name. -/
theorem packages_process_clash : Program.neighbours.Built ∧
    lenient.policy.accepts "x1" = false ∧
    ∃ report r, (lenient.reset.loadPresets Presets.digit).process Program.neighbours =
        .ok (report, r) ∧
      r.engine.packages.aliasOf ["com", "foo"] = some "a" ∧
      r.engine.packages.Has ["com", "a"] ∧
      r.engine.packages.fullAlias ["com", "foo"] = r.engine.packages.fullAlias ["com", "a"] ∧
      ∃ s t, r.program.types.get? ⟨0⟩ = some s ∧ r.program.types.get? ⟨2⟩ = some t ∧
        s.displayName = t.displayName := by
  have hbuilt := Program.built_neighbours
  obtain ⟨report, hrun⟩ := process_eq_ok (e := lenient.reset.loadPresets Presets.digit)
    hbuilt.wellFormed rfl
  have hthere : (((lenient.reset.loadPresets Presets.digit).bound
      Program.neighbours).unified.engine.packages.find? ["com", "a"]).isSome = true := by
    decide +kernel
  exact ⟨hbuilt, lenient_refuses_digit, report, _, hrun, by decide +kernel,
    PackageTree.find?_isSome_iff.mp hthere, by decide +kernel,
    { package := "com.foo", shortName := "Main", fullName := "com.foo.Main",
      newName := some "com.a.Main" },
    { package := "com.a", shortName := "Main", fullName := "com.a.Main" }, by decide +kernel,
    by decide +kernel, by decide⟩

end Engine
end Renamer
