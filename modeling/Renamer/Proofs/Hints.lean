import Renamer.Proofs.Separators

/-!
# Source files that are used up

The record of a source file is used up where a type is named after it, and that is decided long
before the name is bound. A type named after its file is top-level and keeps that name to the end of
the run. What it is shown under depends on its package alone: it is the name of the file behind the
path of the package, unless that path holds a digit. Then no type of the package is renamed.

`Run.NamedAfterFiles` is the invariant while aliases are decided.
-/

namespace Renamer
namespace Program

variable {p : Program}

/-- The source file recorded for a type, until it is used up. -/
def sourceFileOf (p : Program) (ty : TypeId) : Option String :=
  (p.types.get? ty).bind fun t => t.sourceFile

/-- The source file `file` of the type `ty`, as recorded in `p`, is used up in `q`. -/
structure UsesUp (p q : Program) (ty : TypeId) (file : String) : Prop where
  recorded : p.sourceFileOf ty = some file
  gone : q.sourceFileOf ty = none

theorem sourceFileOf_clearAliases (ty : TypeId) :
    p.clearAliases.sourceFileOf ty = p.sourceFileOf ty := by
  unfold sourceFileOf clearAliases
  rw [Arena.get?_map]
  cases p.types.get? ty <;> rfl

theorem sourceFileOf_withTypeAlias (ty : TypeId) (fullName : String) (ty' : TypeId) :
    (p.withTypeAlias ty fullName).sourceFileOf ty' = p.sourceFileOf ty' := by
  unfold sourceFileOf withTypeAlias
  rw [Arena.get?_modify]
  split
  · cases p.types.get? ty' <;> rfl
  · rfl

theorem sourceFileOf_withoutSourceFile (ty ty' : TypeId) :
    (p.withoutSourceFile ty).sourceFileOf ty' = if ty = ty' then none else p.sourceFileOf ty' := by
  unfold sourceFileOf withoutSourceFile
  rw [Arena.get?_modify]
  split
  · cases p.types.get? ty' <;> rfl
  · rfl

/-- What is used up is the source file taken last, or it was used up before. -/
theorem UsesUp.of_withoutSourceFile {q : Program} {ty ty' : TypeId} {file : String}
    (h : p.UsesUp (q.withoutSourceFile ty) ty' file) :
    ty' = ty ∨ ty' ≠ ty ∧ p.UsesUp q ty' file := by
  have hgone := h.gone
  rw [sourceFileOf_withoutSourceFile] at hgone
  split at hgone
  · rename_i heq
    exact Or.inl heq.symm
  · rename_i hne
    exact Or.inr ⟨Ne.symm hne, h.recorded, hgone⟩

end Program

namespace Run

variable {p : Program} {r r' : Run}

/-! ## Deciding -/

/-- Every type whose source file is used up is top-level and has the name of the file. -/
structure NamedAfterFiles (p : Program) (r : Run) : Prop where
  topLevel : ∀ {ty file t}, p.UsesUp r.program ty file → p.types.get? ty = some t →
    t.enclosing = none
  named : ∀ {ty file}, p.UsesUp r.program ty file →
    r.engine.typeAlias ty = some (Engine.sourceStem file)

theorem NamedAfterFiles.of_alike (h : NamedAfterFiles p r)
    (hfiles : ∀ ty, r'.program.sourceFileOf ty = r.program.sourceFileOf ty)
    (hnames : ∀ ty, r'.engine.typeAlias ty = r.engine.typeAlias ty) : NamedAfterFiles p r' := by
  have hback : ∀ {ty file}, p.UsesUp r'.program ty file → p.UsesUp r.program ty file :=
    fun hused => ⟨hused.recorded, (hfiles _).symm.trans hused.gone⟩
  exact ⟨fun hused => h.topLevel (hback hused),
    fun hused => (hnames _).trans (h.named (hback hused))⟩

theorem NamedAfterFiles.spares (h : NamedAfterFiles p r) (hs : r.SparesTypes r') :
    NamedAfterFiles p r' :=
  h.of_alike (fun ty => congrArg (fun a => (a.get? ty).bind TypeSymbol.sourceFile) hs.types)
    hs.alikeTypes.typeAlias

/-- A type is decided at most once, so a name taken from a source file is not lost again. -/
theorem NamedAfterFiles.decideType (h : NamedAfterFiles p r) (hpresets : r.engine.presets = {})
    {ty : TypeId} {s t : TypeSymbol} (hs : p.types.get? ty = some s)
    (hst : t = { s with newName := none }) : NamedAfterFiles p (r.decideType ty t) := by
  have hnone : r.engine.presets.types.get? t.fullName = none := by
    rw [hpresets]
    rfl
  unfold Run.decideType
  rw [hnone]
  dsimp only
  split
  · exact h
  · rename_i hopen
    -- the type has no alias yet, so its source file is not used up
    have hundecided : ∀ {file}, ¬ p.UsesUp r.program ty file := by
      intro file hused
      have hname := h.named hused
      simp only [Engine.typeAlias, Option.map_eq_some_iff] at hname
      obtain ⟨x, hx, -⟩ := hname
      simp [Table.contains, hx] at hopen
    have hnames := namesType_nameType r ty t
    generalize r.nameType ty t = r' at hnames
    cases hnames with
    | afterFile _ hafter =>
      have htop := hafter.topLevel
      obtain ⟨file, hfile, rfl⟩ := hafter.source
      subst hst
      have hrecorded : p.sourceFileOf ty = some file := by
        rw [Program.sourceFileOf, hs]
        exact hfile
      constructor
      · intro ty' file' t' hused ht'
        rcases hused.of_withoutSourceFile with rfl | ⟨-, hbefore⟩
        · rw [hs] at ht'
          cases ht'
          exact htop
        · exact h.topLevel hbefore ht'
      · intro ty' file' hused
        rw [typeAlias_recordType]
        rcases hused.of_withoutSourceFile with rfl | ⟨hne, hbefore⟩
        · cases hused.recorded.symm.trans hrecorded
          rw [if_pos rfl]
        · rw [if_neg hne]
          exact h.named hbefore
    | draw _ =>
      refine ⟨h.topLevel, fun {ty' file'} hused => ?_⟩
      rw [typeAlias_recordType, if_neg]
      · exact h.named hused
      · rintro rfl
        exact hundecided hused

theorem NamedAfterFiles.discoverType (h : NamedAfterFiles p r) (hpresets : r.engine.presets = {})
    {ty : TypeId} {s t : TypeSymbol} (hs : p.types.get? ty = some s)
    (hst : t = { s with newName := none }) : NamedAfterFiles p (r.discoverType (ty, t)) := by
  obtain ⟨packages, source, -, -, heq⟩ := r.engine.decidePackage_eq t
  have hpackage : NamedAfterFiles p { r with engine := r.engine.decidePackage t } := by
    rw [heq]
    exact h.of_alike (fun _ => rfl) fun _ => rfl
  have htype := hpackage.decideType (by rw [heq]; exact hpresets) hs hst
  exact htype.spares (sparesTypes_discoverType r (ty, t))

/-- When all has been decided without presets, types have the names of the files used up. -/
theorem namedAfterFiles_discover (e : Engine) (p : Program) :
    NamedAfterFiles p (Run.discover { engine := e.reset, program := p.clearAliases }) := by
  have hseed : NamedAfterFiles p
      { engine := e.reset.seed p.clearAliases, program := p.clearAliases } := by
    have hnothing : ∀ {ty file}, ¬ p.UsesUp p.clearAliases ty file := by
      intro ty file hused
      have hgone := hused.gone
      rw [Program.sourceFileOf_clearAliases, hused.recorded] at hgone
      cases hgone
    exact ⟨fun hused => absurd hused hnothing, fun hused => absurd hused hnothing⟩
  have hall : NamedAfterFiles p (p.clearAliases.types.entries.foldl Run.discoverType
        { engine := e.reset.seed p.clearAliases, program := p.clearAliases }) ∧
      Settled p (p.clearAliases.types.entries.foldl Run.discoverType
        { engine := e.reset.seed p.clearAliases, program := p.clearAliases }) := by
    apply List.foldlRecOn (motive := fun r => NamedAfterFiles p r ∧ Settled p r)
    · exact ⟨hseed, settled_seed e p⟩
    · rintro r ⟨hr, hsettled⟩ ⟨ty, t⟩ hentry
      have ht := Arena.mem_entries_iff.mp hentry
      have hcleared := ht
      rw [Program.clearAliases, Arena.get?_map] at hcleared
      obtain ⟨s, hs, hst⟩ := Option.map_eq_some_iff.mp hcleared
      exact ⟨hr.discoverType hsettled.presets hs hst.symm,
        hsettled.discoverType (Program.type_of_declared Program.declared_clearAliases ht)⟩
  rw [Run.discover]
  exact hall.1.of_alike (fun _ => rfl) fun _ => rfl

/-- Of the types of one package no two are named after files of one name. -/
theorem NamedAfterFiles.eq_of_sourceStem_eq (h : NamedAfterFiles p r) (hsettled : Settled p r)
    {i j : TypeId} {s t : TypeSymbol} {file file' : String} (hs : p.types.get? i = some s)
    (ht : p.types.get? j = some t) (hi : p.UsesUp r.program i file)
    (hj : p.UsesUp r.program j file') (hpackage : s.package = t.package)
    (hstem : Engine.sourceStem file = Engine.sourceStem file') : i = j := by
  have hscope := Program.scope_eq_of_topLevel (h.topLevel hi hs) (h.topLevel hj ht) hpackage
  have hspot : r.Holds p (.type i) (s.scope, Engine.sourceStem file) :=
    ⟨_, h.named hi, spot_type ⟨s, hs, rfl⟩ _⟩
  have hspot' : r.Holds p (.type j) (s.scope, Engine.sourceStem file) :=
    ⟨_, h.named hj, by rw [hstem, hscope]; exact spot_type ⟨t, ht, rfl⟩ _⟩
  exact SymbolId.type.inj (hsettled.apart hspot hspot')

/-- A top-level type named after its file is composed from the path of its package and that
name. -/
theorem NamedAfterFiles.composed (h : NamedAfterFiles p r) (hprepared : Prepared p r) {ty : TypeId}
    {t : TypeSymbol} {file : String} (ht : p.types.get? ty = some t)
    (hused : p.UsesUp r.program ty file) : r.engine.composed p ty t =
      Program.topLevelName (r.engine.packages.fullAlias (PackagePath.ofText t.package))
        (Engine.sourceStem file) := by
  have hlast : r.engine.lastPart ty t = Engine.sourceStem file := by
    rw [Engine.lastPart, h.named hused, Option.getD_some]
  rw [← hprepared.packageName ht, ← hlast, ← Engine.chainOf_of_topLevel ht (h.topLevel hused ht)]
  rfl

/-! ## Binding -/

/-- Binding uses up no source file. -/
theorem sourceFileOf_apply (r : Run) (ty : TypeId) :
    r.apply.program.sourceFileOf ty = r.program.sourceFileOf ty := by
  rw [Run.apply]
  apply List.foldlRecOn (motive := fun r' : Run =>
    r'.program.sourceFileOf ty = r.program.sourceFileOf ty)
  · rfl
  · intro r' hr' entry _
    have htype : (r'.applyType entry.1 entry.2).program.sourceFileOf ty =
        r'.program.sourceFileOf ty := by
      unfold applyType
      dsimp only
      split
      · exact Program.sourceFileOf_withTypeAlias _ _ _
      · rfl
    rw [Program.sourceFileOf, (sparesTypes_applyEntry r' entry).types]
    exact htype.trans hr'

end Run

/-! ## Runs -/

namespace Program

/-- A package with a digit in its name, and a type of it from a source file `Widget.java`. -/
def numberedPackage : Program where
  types := ⟨#[
    { package := "com.app2", shortName := "a", fullName := "com.app2.a",
      sourceFile := some "Widget.java" }]⟩

theorem built_numberedPackage : numberedPackage.Built :=
  Built.empty.addType
    { package := "com.app2", shortName := "a", sourceFile := some "Widget.java" }

/-- Two types of one package that were compiled from one source file. -/
def oneFile : Program where
  types := ⟨#[
    { package := "com.example", shortName := "a", fullName := "com.example.a",
      sourceFile := some "Widget.java" },
    { package := "com.example", shortName := "b", fullName := "com.example.b",
      sourceFile := some "Widget.java" }]⟩

theorem built_oneFile : oneFile.Built := by
  have hfirst := Built.empty.addType
    { package := "com.example", shortName := "a", sourceFile := some "Widget.java" }
  exact hfirst.addType
    { package := "com.example", shortName := "b", sourceFile := some "Widget.java" }

end Program

namespace Engine

/-- The source file of a type can be used up where the type is not shown under its name: the path of
the package holds a digit. -/
theorem sourceFiles_process_numberedPackage : Program.numberedPackage.Built ∧
    ∃ report r t, ({} : Engine).reset.process Program.numberedPackage = .ok (report, r) ∧
      Program.numberedPackage.UsesUp r.program ⟨0⟩ "Widget.java" ∧
      r.program.types.get? ⟨0⟩ = some t ∧ t.displayName = "com.app2.a" ∧
      ¬ (sourceStem "Widget.java").toList <:+ t.displayName.toList := by
  have hbuilt := Program.built_numberedPackage
  obtain ⟨report, hrun⟩ := process_eq_ok (e := ({} : Engine).reset) hbuilt.wellFormed rfl
  refine ⟨hbuilt, report, _, { package := "com.app2", shortName := "a", fullName := "com.app2.a" },
    hrun, ⟨rfl, ?_⟩, ?_, rfl, by decide⟩
  · decide +kernel
  · decide +kernel

/-- Where a run without presets uses up the source file of a type, the type is top-level, has the
name of the file, and is the only one of its package that is named after a file of that name. It is
shown under that name behind the path of its package, unless that path holds a digit. -/
theorem sourceFiles_process_named (p : Program) (hp : p.Built) (e : Engine)
    (hjava : e.policy.classifier = Classifier.java) :
    ∃ report r, e.reset.process p = .ok (report, r) ∧
      ∀ ty file, p.UsesUp r.program ty file →
        ∃ t package, r.program.types.get? ty = some t ∧ t.isNested = false ∧
          r.engine.typeAlias ty = some (sourceStem file) ∧ '.' ∉ (sourceStem file).toList ∧
          r.engine.packageAlias t.package = some package ∧
          t.displayName = (if Ident.hasDigit package then t.fullName
            else Program.topLevelName package (sourceStem file)) ∧
          ∀ other u file', r.program.types.get? other = some u → u.package = t.package →
            p.UsesUp r.program other file' → sourceStem file' = sourceStem file → other = ty := by
  have hgrouped := grouped_bound (e := e.reset) hp.wellFormed rfl
  obtain ⟨report, hrun⟩ := process_eq_ok (e := e.reset) hp.wellFormed rfl
  refine ⟨report, _, hrun, fun ty file hused => ?_⟩
  have hnamed := Run.namedAfterFiles_discover e p
  have hsettled := Run.Settled.discover (e := e) (p := p)
  have hprepared := Run.prepared_discover e.unused_reset p
  have halike := Run.alikeTypes_unified e.reset p
  have hdeclared := hgrouped.declared_unified
  -- binding and unification use up no source file
  have hback : ∀ {ty file}, p.UsesUp (e.reset.bound p).unified.program ty file →
      p.UsesUp (Run.discover { engine := e.reset, program := p.clearAliases }).program ty file := by
    intro ty file hused
    refine ⟨hused.recorded, ?_⟩
    rw [← Run.sourceFileOf_apply, ← hused.gone]
    exact congrArg (fun a => (a.get? ty).bind TypeSymbol.sourceFile) hgrouped.types_unified.symm
  obtain ⟨s, hs, -⟩ := Option.bind_eq_some_iff.mp hused.recorded
  obtain ⟨t, ht, hts⟩ := Program.type_of_declared hdeclared.symm hs
  have hpackage : t.package = s.package := TypeSymbol.agree hts TypeSymbol.package fun _ => rfl
  have htop : t.enclosing = none := (TypeSymbol.agree hts TypeSymbol.enclosing fun _ => rfl).trans
    (hnamed.topLevel (hback hused) hs)
  have hname : (e.reset.bound p).unified.engine.typeAlias ty = some (sourceStem file) :=
    (halike.typeAlias ty).trans (hnamed.named (hback hused))
  -- Java allows no dot in the name, and the engine accepts the name as one of Java
  have hends := (ends_process hp e hjava {}).2
  have haccepts := hends.answers.types (s := .type ty) rfl hname
  have hwritable := (Policy.accepts_iff_writable hjava).mp haccepts
  let tree := (Run.discover { engine := e.reset, program := p.clearAliases }).engine.packages
  refine ⟨t, tree.fullAlias (PackagePath.ofText s.package), ht, ?_, hname, ?_, ?_, ?_, ?_⟩
  · rw [TypeSymbol.isNested, htop]
    rfl
  · exact hwritable.noDot
  · rw [Engine.packageAlias, halike.packages, hpackage]
    exact hprepared.packageAlias hs
  · have htitle := displayName_of_title
      (Run.newName_bound hp.wellFormed e.unused_reset (hgrouped.types_unified ▸ ht))
    have hdigit : Ident.hasDigit (sourceStem file) = false :=
      Policy.hasDigit_of_accepts haccepts
    rw [composed_of_declared rfl hts, hnamed.composed hprepared hs (hback hused),
      Program.hasDigit_topLevelName, hdigit, Bool.or_false] at htitle
    exact htitle
  · intro other u file' hu hup hother hstem
    obtain ⟨v, hv, huv⟩ := Program.type_of_declared hdeclared hu
    have hvp : v.package = s.package := by
      rw [TypeSymbol.agree huv TypeSymbol.package fun _ => rfl, hup, hpackage]
    exact hnamed.eq_of_sourceStem_eq hsettled hv hs (hback hother) (hback hused) hvp hstem

/-- Of two types compiled from one file the first is named after it. The record of the second is not
used up. -/
theorem sourceFiles_process_oneFile : Program.oneFile.Built ∧
    ∃ report r, ({} : Engine).reset.process Program.oneFile = .ok (report, r) ∧
      Program.oneFile.UsesUp r.program ⟨0⟩ "Widget.java" ∧
      (∃ t, r.program.types.get? ⟨0⟩ = some t ∧ t.displayName = "com.example.Widget") ∧
      ¬ Program.oneFile.UsesUp r.program ⟨1⟩ "Widget.java" := by
  have hbuilt := Program.built_oneFile
  obtain ⟨report, r, hrun, hnamed⟩ := sourceFiles_process_named Program.oneFile hbuilt {} rfl
  have hr : (({} : Engine).reset.bound Program.oneFile).unified = r :=
    unified_eq_of_process hbuilt.wellFormed rfl hrun
  have hused : Program.oneFile.UsesUp r.program ⟨0⟩ "Widget.java" := by
    refine ⟨rfl, ?_⟩
    rw [← hr]
    decide +kernel
  have hfirst : r.program.types.get? ⟨0⟩ = some
      { package := "com.example", shortName := "a", fullName := "com.example.a",
        newName := some "com.example.Widget" } := by
    rw [← hr]
    decide +kernel
  have hsecond : (r.program.types.get? ⟨1⟩).map TypeSymbol.package = some "com.example" := by
    rw [← hr]
    decide +kernel
  obtain ⟨u, hu, hpackage⟩ := Option.map_eq_some_iff.mp hsecond
  obtain ⟨t, package, ht, -, -, -, -, -, honly⟩ := hnamed ⟨0⟩ "Widget.java" hused
  cases hfirst.symm.trans ht
  refine ⟨hbuilt, report, r, hrun, hused, ⟨_, hfirst, rfl⟩, fun hother => ?_⟩
  have hsame := honly ⟨1⟩ u "Widget.java" hu hpackage hother rfl
  cases hsame

end Engine
end Renamer
