import Renamer.Proofs.Emitted
import Renamer.Proofs.Nesting
import Renamer.Proofs.Writable

/-!
# Names that change

A full name is put together with dots and dollar signs, and either can also stand in a package, a
short name or the types around a type. Aliases hold neither. So a composed name has no more of them
than the declared one, and the part behind the last one is the alias: a type that has an alias is
composed a name other than its declared one.

* `PackageTree.Apart.count_fullAlias_le` and `Run.count_composed_le` count separators.
* `Run.Seamless` is the invariant that no alias of a type holds one.
-/

namespace Renamer

/-! ## Counting -/

theorem Word.not_isSmall_dot : ¬ IsSmall '.' := fun h => absurd h.1 (by decide)

theorem Word.not_isSmall_dollar : ¬ IsSmall '$' := fun h => absurd h.1 (by decide)

namespace Text

/-- Two texts differ if the parts behind a separator do, where the first of these has none, and the
front of the second has no fewer than that of the first. -/
theorem append_cons_ne {c : Char} {x y s t : List Char} (hs : c ∉ s) (hne : s ≠ t)
    (hle : x.count c ≤ y.count c) : x ++ c :: s ≠ y ++ c :: t := by
  intro heq
  have hcount := congrArg (List.count c) heq
  have hszero := List.count_eq_zero.mpr hs
  simp only [List.count_append, List.count_cons_self] at hcount
  -- nothing is left to count behind the second separator
  have htzero : t.count c = 0 := by omega
  exact hne (Word.append_cons_inj_of_last hs (List.count_eq_zero.mp htzero) heq).2

/-- Leaving pieces out leaves out what they hold, and what stands between them. -/
theorem intercalate_sublist {l l' : List (List Char)} (sep : List Char) (h : l.Sublist l') :
    (sep.intercalate l).Sublist (sep.intercalate l') := by
  induction h with
  | slnil => exact List.Sublist.refl _
  | @cons l l' piece h ih =>
    cases l' with
    | nil =>
      rw [List.eq_nil_of_sublist_nil h]
      simp
    | cons first rest =>
      rw [List.intercalate_cons_cons]
      exact ih.trans (List.sublist_append_right _ _)
  | @cons_cons l l' piece h ih =>
    cases l with
    | nil =>
      cases l' with
      | nil => exact List.Sublist.refl _
      | cons first rest =>
        rw [List.intercalate_cons_cons, List.intercalate_singleton, List.append_assoc]
        exact List.sublist_append_left _ _
    | cons first rest =>
      cases l' with
      | nil => cases h
      | cons first' rest' =>
        rw [List.intercalate_cons_cons, List.intercalate_cons_cons]
        exact (List.Sublist.refl _).append ih

/-- What is left of a text without an ending was in the text. -/
theorem mem_of_stripSuffix {ending text stem : List Char} (h : stripSuffix ending text = some stem)
    {c : Char} (hc : c ∈ stem) : c ∈ text := by
  unfold stripSuffix at h
  split at h
  · cases h
    exact List.mem_of_mem_take hc
  · cases h

end Text

namespace PackagePath

/-- Reading a dotted text loses empty segments only. -/
theorem text_ofText_sublist (s : String) : (text (ofText s)).toList.Sublist s.toList := by
  have hread : (text (ofText s)).toList =
      ['.'].intercalate ((Text.pieces '.' s.toList).filter fun piece => !piece.isEmpty) := by
    have hid : String.toList ∘ String.ofList = (id : List Char → List Char) :=
      funext fun l => String.toList_ofList
    rw [text, String.toList_intercalate, ofText, Text.segments, List.map_map, hid, List.map_id]
    rfl
  have hall : ['.'].intercalate (Text.pieces '.' s.toList) = s.toList := by
    rw [Text.pieces_eq_splitOn]
    exact List.intercalate_splitOn '.'
  rw [hread]
  conv_rhs => rw [← hall]
  exact Text.intercalate_sublist _ List.filter_sublist

/-- A text whose segments hold no more of a character holds no more of it. -/
theorem count_text_map_le {α : Type} {c : Char} {f g : α → String} {l : List α}
    (h : ∀ a ∈ l, (f a).toList.count c ≤ (g a).toList.count c) :
    (text (l.map f)).toList.count c ≤ (text (l.map g)).toList.count c := by
  induction l with
  | nil => exact Nat.le_refl _
  | cons a rest ih =>
    have hfirst := h a List.mem_cons_self
    cases rest with
    | nil =>
      simp only [List.map_cons, List.map_nil, text, String.intercalate_singleton]
      exact hfirst
    | cons b rest =>
      have hrest := ih fun a ha => h a (List.mem_cons_of_mem _ ha)
      rw [List.map_cons, List.map_cons] at hrest ⊢
      rw [List.map_cons, List.map_cons, text, text, String.intercalate_cons_cons,
        String.intercalate_cons_cons, ← text, ← text]
      simp only [String.toList_append, List.count_append]
      omega

/-- The segments along the lineage of a path are those of the path. -/
theorem map_segment_lineage (path : PackagePath) : path.lineage.map segment = path := by
  induction path using List.reverseRecOn with
  | nil => rfl
  | append_singleton path s ih =>
    rw [lineage_append_singleton, List.map_append, ih, List.map_singleton,
      segment_append_singleton]

end PackagePath

namespace PackageTree

variable {t : PackageTree}

/-- A package is shown with no more of a character than it has, small letters apart. -/
theorem Apart.count_shown_le (h : t.Apart) {c : Char} (hc : ¬ Word.IsSmall c) (a : PackagePath) :
    (t.shown a).toList.count c ≤ a.segment.toList.count c := by
  unfold shown
  cases ha : t.aliasOf a with
  | none => exact Nat.le_refl _
  | some name =>
    obtain ⟨n, rfl⟩ := h.word ha
    have hnone : c ∉ (Word.spell n).toList := fun hmem => hc (Word.isSmall_of_mem_spell hmem)
    rw [Option.getD_some, List.count_eq_zero.mpr hnone]
    exact Nat.zero_le _

theorem Apart.count_fullAlias_le (h : t.Apart) {c : Char} (hc : ¬ Word.IsSmall c) (s : String) :
    (t.fullAlias (PackagePath.ofText s)).toList.count c ≤ s.toList.count c := by
  calc (t.fullAlias (PackagePath.ofText s)).toList.count c
      ≤ (PackagePath.text ((PackagePath.ofText s).lineage.map PackagePath.segment)).toList.count c
        := PackagePath.count_text_map_le fun a _ => h.count_shown_le hc a
    _ = (PackagePath.text (PackagePath.ofText s)).toList.count c := by
        rw [PackagePath.map_segment_lineage]
    _ ≤ s.toList.count c := (PackagePath.text_ofText_sublist s).count_le c

end PackageTree

/-! ## Aliases of types -/

namespace Program

/-- No recorded source file has a dollar sign in its name. -/
def DollarFreeHints (p : Program) : Prop :=
  ∀ t ∈ p.types.toList, ∀ file ∈ t.sourceFile, '$' ∉ file.toList

instance (p : Program) : Decidable p.DollarFreeHints :=
  inferInstanceAs (Decidable (∀ t ∈ p.types.toList, ∀ file ∈ t.sourceFile, '$' ∉ file.toList))

end Program

namespace Engine

/-- The name of a source file without its ending has only characters of the name. -/
theorem mem_of_mem_sourceStem {file : String} {c : Char} (hc : c ∈ (sourceStem file).toList) :
    c ∈ file.toList := by
  unfold sourceStem at hc
  split at hc
  · rename_i stem hstem
    obtain ⟨ending, -, hstrip⟩ := List.exists_of_findSome?_eq_some hstem
    rw [String.toList_ofList] at hc
    exact Text.mem_of_stripSuffix hstrip hc
  · exact hc

/-- Under the rules of Java the name of a source file is given to a type only where it has no
dot. -/
theorem NamesAfterFile.noDot {e : Engine} (hjava : e.policy.classifier = Classifier.java)
    {t : TypeSymbol} {name : String} (h : e.NamesAfterFile t name) : '.' ∉ name.toList := by
  have hwritable := (Policy.accepts_iff_writable hjava).mp h.accepted
  exact hwritable.noDot

end Engine

namespace Run

variable {p : Program} {e : Engine} {r r' : Run}

/-- While the engine `e` decides aliases without presets, no alias of a type holds a separator. -/
structure Seamless (e : Engine) (r : Run) : Prop where
  policy : r.engine.policy = e.policy
  presets : r.engine.presets = {}
  noDot : ∀ {ty name}, r.engine.typeAlias ty = some name → '.' ∉ name.toList
  noDollar : ∀ {ty name}, r.engine.typeAlias ty = some name → '$' ∉ name.toList

theorem Seamless.spares (h : Seamless e r) (hpolicy : r'.engine.policy = r.engine.policy)
    (hpresets : r'.engine.presets = r.engine.presets)
    (htypes : ∀ ty, r'.engine.typeAlias ty = r.engine.typeAlias ty) : Seamless e r' where
  policy := hpolicy.trans h.policy
  presets := hpresets.trans h.presets
  noDot := fun hname => h.noDot (by rwa [htypes] at hname)
  noDollar := fun hname => h.noDollar (by rwa [htypes] at hname)

/-- A type has been given the alias `name`. -/
theorem Seamless.gives (h : Seamless e r) {ty : TypeId} {name : String}
    (hpolicy : r'.engine.policy = r.engine.policy)
    (hpresets : r'.engine.presets = r.engine.presets)
    (htypes : ∀ ty', r'.engine.typeAlias ty' =
      if ty' = ty then some name else r.engine.typeAlias ty')
    (hdot : '.' ∉ name.toList) (hdollar : '$' ∉ name.toList) : Seamless e r' where
  policy := hpolicy.trans h.policy
  presets := hpresets.trans h.presets
  noDot := by
    intro ty' name' hname
    rw [htypes] at hname
    split at hname
    · exact Option.some.inj hname ▸ hdot
    · exact h.noDot hname
  noDollar := by
    intro ty' name' hname
    rw [htypes] at hname
    split at hname
    · exact Option.some.inj hname ▸ hdollar
    · exact h.noDollar hname

theorem typeAlias_recordType (e : Engine) (ty : TypeId) (t : TypeSymbol) (name : String)
    (ty' : TypeId) : (e.recordType ty t name).typeAlias ty' =
      if ty' = ty then some name else e.typeAlias ty' := by
  have halias := e.aliasOf_recordType ty t name (.type ty')
  simp only [SymbolId.type.injEq] at halias
  exact halias

/-- Only a type without preset is decided here, by the name of its source file or by a word. -/
theorem Seamless.decideType (h : Seamless e r) (hjava : e.policy.classifier = Classifier.java)
    (ty : TypeId) {t : TypeSymbol}
    (hhint : e.policy.settings.useSourceNames = true →
      ∀ file, t.sourceFile = some file → '$' ∉ file.toList) : Seamless e (r.decideType ty t) := by
  have hnone : r.engine.presets.types.get? t.fullName = none := by
    rw [h.presets]
    rfl
  unfold Run.decideType
  rw [hnone]
  dsimp only
  split
  · exact h
  · have hnames := namesType_nameType r ty t
    generalize r.nameType ty t = r' at hnames
    cases hnames with
    | afterFile huse hfile =>
      rw [h.policy] at huse
      have hdot := hfile.noDot (h.policy ▸ hjava)
      obtain ⟨file, hsource, rfl⟩ := hfile.source
      have hdollar : '$' ∉ (Engine.sourceStem file).toList := fun hmem =>
        hhint huse file hsource (Engine.mem_of_mem_sourceStem hmem)
      exact h.gives rfl rfl (typeAlias_recordType _ ty t _) hdot hdollar
    | draw _ =>
      exact h.gives rfl rfl (typeAlias_recordType _ ty t _)
        (fun hdot => Word.not_isSmall_dot (Word.isSmall_of_mem_spell hdot))
        fun hdollar => Word.not_isSmall_dollar (Word.isSmall_of_mem_spell hdollar)

/-- A step that concerns members alone, without presets. -/
theorem Seamless.decideField (h : Seamless e r) (owner : TypeSymbol)
    (entry : FieldId × FieldSymbol) : Seamless e (decideField owner r entry) := by
  have hnone : r.engine.presets.fields.get? (entry.2.identity owner.fullName) = none := by
    rw [h.presets]
    rfl
  unfold Run.decideField
  dsimp only
  rw [hnone]
  split
  · exact h
  · dsimp only
    split
    · exact h.spares rfl rfl fun _ => rfl
    · exact h

theorem Seamless.discoverMethod (h : Seamless e r) (ty : TypeId) (t : TypeSymbol)
    (entry : MethodId × MethodSymbol) : Seamless e (discoverMethod ty t r entry) := by
  have hnone : r.engine.presets.methods.get? (entry.2.identity t.fullName) = none := by
    rw [h.presets]
    rfl
  have hdecided : Seamless e (decideMethod t r entry) := by
    unfold decideMethod
    dsimp only
    rw [hnone]
    split
    · exact h
    · dsimp only
      split
      · exact h.spares rfl rfl fun _ => rfl
      · exact h
  unfold Run.discoverMethod linkMethod
  split
  · exact hdecided.spares rfl rfl fun _ => rfl
  · exact hdecided

theorem Seamless.discoverType (h : Seamless e r) (hjava : e.policy.classifier = Classifier.java)
    {entry : TypeId × TypeSymbol}
    (hhint : e.policy.settings.useSourceNames = true →
      ∀ file, entry.2.sourceFile = some file → '$' ∉ file.toList) :
    Seamless e (r.discoverType entry) := by
  have hpackage : Seamless e { r with engine := r.engine.decidePackage entry.2 } := by
    obtain ⟨packages, source, -, -, heq⟩ := r.engine.decidePackage_eq entry.2
    rw [heq]
    exact h.spares rfl rfl fun _ => rfl
  have hhead : Seamless e (r.decideHead entry) :=
    List.foldlRecOn _ _ (hpackage.decideType hjava entry.1 hhint)
      fun r hr f _ => hr.decideField entry.2 f
  rw [discoverType_eq]
  exact List.foldlRecOn _ _ hhead fun r hr m _ => hr.discoverMethod entry.1 entry.2 m

/-- When all has been decided without presets, no alias of a type holds a separator. -/
theorem seamless_discover (p : Program) {e : Engine} (he : e.Unused) (hpresets : e.presets = {})
    (hjava : e.policy.classifier = Classifier.java)
    (hhints : e.policy.settings.useSourceNames = true → p.DollarFreeHints) :
    Seamless e (Run.discover { engine := e, program := p.clearAliases }) := by
  have hseed : Seamless e { engine := e.seed p.clearAliases, program := p.clearAliases } := by
    have hnone : ∀ ty, (e.seed p.clearAliases).typeAlias ty = none := fun ty =>
      (aliasOf_seed e p.clearAliases (.type ty)).trans (he.aliasOf_eq_none (.type ty))
    refine ⟨rfl, hpresets, fun {ty name} hname => ?_, fun {ty name} hname => ?_⟩
    · rw [hnone] at hname
      cases hname
    · rw [hnone] at hname
      cases hname
  have hall : Seamless e (p.clearAliases.types.entries.foldl Run.discoverType
      { engine := e.seed p.clearAliases, program := p.clearAliases }) := by
    refine List.foldlRecOn _ _ hseed fun r hr entry hentry => hr.discoverType hjava ?_
    -- clearing aliases leaves the source files as they are
    intro huse file hfile
    have hget := Arena.mem_entries_iff.mp hentry
    unfold Program.clearAliases at hget
    rw [Arena.get?_map] at hget
    obtain ⟨t, ht, hentry⟩ := Option.map_eq_some_iff.mp hget
    rw [← hentry] at hfile
    exact hhints huse t (Arena.mem_toList_of_get? ht) file hfile
  rw [Run.discover]
  exact hall.spares rfl rfl fun _ => rfl

/-! ## Composed names -/

/-- A type is shown with no more of a character than its short name has, if its alias has none. -/
theorem count_lastPart_le {c : Char}
    (hnone : ∀ {ty name}, r.engine.typeAlias ty = some name → c ∉ name.toList) (ty : TypeId)
    (t : TypeSymbol) : (r.engine.lastPart ty t).toList.count c ≤ t.shortName.toList.count c := by
  unfold Engine.lastPart
  cases halias : r.engine.typeAlias ty with
  | none => exact Nat.le_refl _
  | some name =>
    rw [Option.getD_some, List.count_eq_zero.mpr (hnone halias)]
    exact Nat.zero_le _

/-- Putting a package before a name adds a dot, unless there is no package. -/
theorem count_topLevelName_le {c : Char} {a b x y : String}
    (hempty : b.isEmpty = true → a.isEmpty = true) (hab : a.toList.count c ≤ b.toList.count c)
    (hxy : x.toList.count c ≤ y.toList.count c) :
    (Program.topLevelName a x).toList.count c ≤ (Program.topLevelName b y).toList.count c := by
  unfold Program.topLevelName
  cases hb : b.isEmpty with
  | true =>
    rw [if_pos (hempty hb), if_pos rfl]
    exact hxy
  | false =>
    simp only [Bool.false_eq_true, if_false, String.toList_append, List.count_append]
    split
    · omega
    · simp only [String.toList_append, List.count_append]
      omega

/-- The dots of a name behind a package. -/
theorem count_dot_topLevelName (a x : String) : (Program.topLevelName a x).toList.count '.' =
    (if a.isEmpty then 0 else a.toList.count '.' + 1) + x.toList.count '.' := by
  have hdot : packageSeparator.toList.count '.' = 1 := rfl
  unfold Program.topLevelName
  split
  · rw [Nat.zero_add]
  · simp only [String.toList_append, List.count_append, hdot]

/-- A type without a package is emitted without one. -/
theorem Prepared.isEmpty_packageName (h : Prepared p r) {ty : TypeId} {t : TypeSymbol}
    (ht : p.types.get? ty = some t) (hempty : t.package.isEmpty = true) :
    (r.engine.packageName ty t).isEmpty = true := by
  rw [h.packageName ht, String.isEmpty_iff.mp hempty]
  rfl

/-- A composed name has no more of a character than the declared one, if no alias has it. -/
theorem Prepared.count_composed_le (h : Prepared p r) (hapart : r.engine.packages.Apart)
    (hp : p.WellFormed) {c : Char} (hc : ¬ Word.IsSmall c)
    (hnone : ∀ {ty name}, r.engine.typeAlias ty = some name → c ∉ name.toList) {ty : TypeId}
    {t : TypeSymbol} (ht : p.types.get? ty = some t) :
    (r.engine.composed p ty t).toList.count c ≤ t.fullName.toList.count c := by
  have hlast := count_lastPart_le hnone ty t
  -- the type around a type is older
  induction hindex : ty.index using Nat.strongRecOn generalizing ty t with
  | ind n ih =>
    cases henclosing : t.enclosing with
    | none =>
      have hcomposed : r.engine.composed p ty t =
          Program.topLevelName (r.engine.packageName ty t) (r.engine.lastPart ty t) := by
        rw [← Engine.chainOf_of_topLevel ht henclosing]
        rfl
      rw [hcomposed, hp.topLevel ht henclosing]
      refine count_topLevelName_le (h.isEmpty_packageName ht) ?_ hlast
      rw [h.packageName ht]
      exact hapart.count_fullAlias_le hc t.package
    | some outer =>
      obtain ⟨o, ho, hlt, -, hname⟩ := hp.nested ht henclosing
      have houter := ih outer.index (hindex ▸ hlt) ho (count_lastPart_le hnone outer o) rfl
      rw [h.composed_of_nested hp ht henclosing ho, hname]
      simp only [String.toList_append, List.count_append]
      omega

/-- Where two full names agree, and the first has no more dots in its package and none in its last
part, the second has none in its last part either. -/
theorem dot_notMem_of_topLevelName_eq {package package' name name' : String}
    (hempty : package'.isEmpty = true → package.isEmpty = true)
    (hcount : package.toList.count '.' ≤ package'.toList.count '.') (hdot : '.' ∉ name.toList)
    (heq : Program.topLevelName package name = Program.topLevelName package' name') :
    '.' ∉ name'.toList := by
  have hdots := congrArg (fun s : String => s.toList.count '.') heq
  rw [count_dot_topLevelName, count_dot_topLevelName, List.count_eq_zero.mpr hdot] at hdots
  apply List.count_eq_zero.mp
  cases hnone : package'.isEmpty with
  | true =>
    rw [hnone, hempty hnone] at hdots
    simp only [if_true] at hdots
    omega
  | false =>
    simp only [hnone, Bool.false_eq_true, if_false] at hdots
    split at hdots <;> omega

/-- A type that has an alias is composed a name other than its declared one. -/
theorem Prepared.composed_ne_fullName (h : Prepared p r) (hs : Settled p r)
    (hapart : r.engine.packages.Apart) (hseamless : Seamless e r) (hp : p.WellFormed) {ty : TypeId}
    {t : TypeSymbol} (ht : p.types.get? ty = some t)
    (halias : (r.engine.typeAlias ty).isSome = true) :
    r.engine.composed p ty t ≠ t.fullName := by
  obtain ⟨name, hname⟩ := Option.isSome_iff_exists.mp halias
  have hlast : r.engine.lastPart ty t = name := by
    rw [Engine.lastPart, hname, Option.getD_some]
  have hne : r.engine.lastPart ty t ≠ t.shortName := by
    intro heq
    rw [(hs.lastPart_eq_shortName_iff ht).mp heq] at hname
    cases hname
  have hchars : name.toList ≠ t.shortName.toList := fun heq =>
    hne (hlast.trans (String.toList_inj.mp heq))
  cases henclosing : t.enclosing with
  | some outer =>
    -- the alias stands behind the last dollar sign
    obtain ⟨o, ho, -, -, hfull⟩ := hp.nested ht henclosing
    have hcount := h.count_composed_le hapart hp Word.not_isSmall_dollar hseamless.noDollar ho
    rw [h.composed_of_nested hp ht henclosing ho, hlast, hfull]
    intro heq
    refine Text.append_cons_ne (hseamless.noDollar hname) hchars hcount ?_
    have hlists := congrArg String.toList heq
    rw [String.toList_append, String.toList_append, String.toList_append, String.toList_append,
      List.append_assoc, List.append_assoc] at hlists
    exact hlists
  | none =>
    have hcomposed : r.engine.composed p ty t =
        Program.topLevelName (r.engine.packageName ty t) name := by
      rw [← hlast, ← Engine.chainOf_of_topLevel ht henclosing]
      rfl
    have hcount := hapart.count_fullAlias_le Word.not_isSmall_dot t.package
    rw [← h.packageName ht] at hcount
    have hdot := hseamless.noDot hname
    rw [hcomposed, hp.topLevel ht henclosing]
    intro heq
    have hshort : '.' ∉ t.shortName.toList :=
      dot_notMem_of_topLevelName_eq (h.isEmpty_packageName ht) hcount hdot heq
    exact hchars (congrArg String.toList (Program.topLevelName_inj hdot hshort heq).2)

end Run

/-! ## Runs -/

namespace Program

/-- A type `x$` in a package with an empty segment, from a source file `Main.java`, and a type `y`
nested in it. -/
def seamed : Program where
  types := ⟨#[
    { package := "game.", shortName := "x$", fullName := "game..x$",
      sourceFile := some "Main.java" },
    { package := "game.", shortName := "y", fullName := "game..x$$y", enclosing := some ⟨0⟩ }]⟩

theorem built_seamed : seamed.Built := by
  have houter := Built.empty.addType
    { package := "game.", shortName := "x$", sourceFile := some "Main.java" }
  exact houter.addNestedType (rfl : Program.addNestedType _ ⟨0⟩ { shortName := "y" } = _)

end Program

namespace Engine

/-- A type that has an alias is emitted under a full name other than its declared one, whatever
separators are in its package, its short name and the types around it. And a type is renamed
exactly if the two names differ and the new one holds no digit. -/
theorem fullNames_process_ne (p : Program) (hp : p.Built) (e : Engine)
    (hjava : e.policy.classifier = Classifier.java)
    (hhints : e.policy.settings.useSourceNames = true → p.DollarFreeHints) :
    ∃ report r, e.reset.process p = .ok (report, r) ∧
      ∀ ty t, p.types.get? ty = some t →
        ∃ t' name, r.program.types.get? ty = some t' ∧
          (r.engine.fullNameAt r.program ty).map Prod.fst = .ok name ∧
          (r.engine.types.contains ty = true → name ≠ t.fullName) ∧
          t'.newName =
            if name ≠ t.fullName ∧ Ident.hasDigit name = false then some name else none := by
  have hgrouped := grouped_bound (e := e.reset) hp.wellFormed rfl
  obtain ⟨report, hrun⟩ := process_eq_ok (e := e.reset) hp.wellFormed rfl
  refine ⟨report, _, hrun, fun ty t ht => ?_⟩
  have hdeclared := hgrouped.declared_unified
  obtain ⟨t', ht', htt⟩ := Program.type_of_declared hdeclared.symm ht
  have hanswer := Run.fullNameAt_unified hp.wellFormed e.unused_reset hdeclared.symm ht'
  have htitle := Run.newName_bound hp.wellFormed e.unused_reset (hgrouped.types_unified ▸ ht')
  rw [composed_of_declared rfl htt] at hanswer
  rw [title_of_declared htt] at htitle
  refine ⟨t', _, ht', hanswer, fun hcontains => ?_, ?_⟩
  · refine (Run.prepared_discover e.unused_reset p).composed_ne_fullName Run.Settled.discover
      (Run.housed_discover e p).apart
      (Run.seamless_discover p e.unused_reset rfl hjava hhints) hp.wellFormed ht ?_
    rw [← (Run.alikeTypes_unified e.reset p).typeAlias, typeAlias, Option.isSome_map]
    exact hcontains
  · rw [htitle, title]
    simp only [Bool.and_eq_true, bne_iff_ne, Bool.not_eq_true']

/-- The type `x$` is named after its source file, and the type nested in it draws a word. -/
theorem fullNames_process_seamed : Program.seamed.Built ∧ Program.seamed.DollarFreeHints ∧
    ∃ report r, ({} : Engine).reset.process Program.seamed = .ok (report, r) ∧
      (r.engine.fullNameAt r.program ⟨0⟩).map Prod.fst = .ok "game.Main" ∧
      (r.engine.fullNameAt r.program ⟨1⟩).map Prod.fst = .ok "game.Main$a" ∧
      "game.Main" ≠ "game..x$" ∧ "game.Main$a" ≠ "game..x$$y" := by
  have hhints : Program.seamed.DollarFreeHints := by
    simp [Program.DollarFreeHints, Program.seamed, Arena.toList]
  obtain ⟨report, r, hrun, hnames⟩ :=
    fullNames_process_ne Program.seamed Program.built_seamed {} rfl fun _ => hhints
  have hr : (({} : Engine).reset.bound Program.seamed).unified = r :=
    unified_eq_of_process Program.built_seamed.wellFormed rfl hrun
  have houter : (r.engine.fullNameAt r.program ⟨0⟩).map Prod.fst = .ok "game.Main" := by
    rw [← hr]
    decide +kernel
  have hinner : (r.engine.fullNameAt r.program ⟨1⟩).map Prod.fst = .ok "game.Main$a" := by
    rw [← hr]
    decide +kernel
  have hrecorded : r.engine.types.contains ⟨0⟩ = true ∧ r.engine.types.contains ⟨1⟩ = true := by
    rw [← hr]
    decide +kernel
  refine ⟨Program.built_seamed, hhints, report, r, hrun, houter, hinner, ?_, ?_⟩
  · obtain ⟨_, name, -, hname, hne, -⟩ := hnames ⟨0⟩ _ rfl
    cases houter.symm.trans hname
    exact hne hrecorded.1
  · obtain ⟨_, name, -, hname, hne, -⟩ := hnames ⟨1⟩ _ rfl
    cases hinner.symm.trans hname
    exact hne hrecorded.2

end Engine
end Renamer
