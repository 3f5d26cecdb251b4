import Renamer.Proofs.ListedLookups

/-!
# What a run may change

A run binds aliases and marks methods, and it uses up source files; all else of a program stays as
it is. `Program.OnlyRenamed` says so of two programs, `ListedProgram.OnlyRenamed` of two that keep
notes, which a run changes as little as declarations.
-/

namespace Renamer
namespace Program

variable {p q : Program}

/-- `q` is `p` with other aliases and marks, and of the source files recorded some are used up. -/
structure OnlyRenamed (p q : Program) : Prop where
  declared : q.declared = p.declared
  sourceFile : ∀ {ty t u}, p.types.get? ty = some t → q.types.get? ty = some u →
    u.sourceFile = t.sourceFile ∨ u.sourceFile = none

theorem OnlyRenamed.trans {q' : Program} (h : p.OnlyRenamed q) (h' : q.OnlyRenamed q') :
    p.OnlyRenamed q' where
  declared := h'.declared.trans h.declared
  sourceFile := by
    intro ty t u ht hu
    obtain ⟨s, hs, -⟩ := type_of_declared h.declared.symm ht
    obtain hsame | hnone := h'.sourceFile hs hu
    · rw [hsame]
      exact h.sourceFile ht hs
    · exact Or.inr hnone

/-- Where no type has changed, no source file was used up. -/
theorem OnlyRenamed.of_types (hdeclared : q.declared = p.declared) (htypes : q.types = p.types) :
    p.OnlyRenamed q where
  declared := hdeclared
  sourceFile := by
    intro ty t u ht hu
    rw [htypes, ht] at hu
    cases hu
    exact Or.inl rfl

theorem onlyRenamed_withTypeAlias (p : Program) (ty : TypeId) (name : String) :
    p.OnlyRenamed (p.withTypeAlias ty name) where
  declared := declared_withTypeAlias ty name
  sourceFile := by
    intro i t u ht hu
    rw [withTypeAlias, Arena.get?_modify, ht] at hu
    split at hu <;> cases hu <;> exact Or.inl rfl

theorem onlyRenamed_withoutSourceFile (p : Program) (ty : TypeId) :
    p.OnlyRenamed (p.withoutSourceFile ty) where
  declared := declared_withoutSourceFile ty
  sourceFile := by
    intro i t u ht hu
    rw [withoutSourceFile, Arena.get?_modify, ht] at hu
    split at hu <;> cases hu
    · exact Or.inr rfl
    · exact Or.inl rfl

theorem onlyRenamed_clearAliases (p : Program) : p.OnlyRenamed p.clearAliases where
  declared := declared_clearAliases
  sourceFile := by
    intro ty t u ht hu
    rw [clearAliases, Arena.get?_map, ht] at hu
    cases hu
    exact Or.inl rfl

/-- The same declarations list the same fields under a type. -/
theorem fieldSlots_of_declared (h : q.declared = p.declared) (ty : TypeId) :
    (q.fieldsOf ty).map Prod.fst = (p.fieldsOf ty).map Prod.fst := by
  have hslots : ∀ p : Program, (p.fieldsOf ty).map Prod.fst =
      p.declared.fields.ownedBy FieldSymbol.owner ty := fun p =>
    (Arena.ownedBy_map (a := p.fields) (f := FieldSymbol.declared) fun _ => rfl).symm
  rw [hslots, hslots, h]

theorem methodSlots_of_declared (h : q.declared = p.declared) (ty : TypeId) :
    (q.methodsOf ty).map Prod.fst = (p.methodsOf ty).map Prod.fst := by
  have hslots : ∀ p : Program, (p.methodsOf ty).map Prod.fst =
      p.declared.methods.ownedBy MethodSymbol.owner ty := fun p =>
    (Arena.ownedBy_map (a := p.methods) (f := MethodSymbol.declared) fun _ => rfl).symm
  rw [hslots, hslots, h]

variable {ty : TypeId} {t : TypeSymbol}

/-- A field listed under a type is there as long as declarations stay, and so is its owner. -/
theorem exists_field_of_mem (h : p.declared = q.declared) {e : FieldId × FieldSymbol}
    (he : e ∈ p.fieldsOf ty) (ht : q.ShowsType ty t) :
    ∃ g o, q.fields.get? e.1 = some g ∧ g.declared = e.2.declared ∧
      q.types.get? g.owner = some o ∧ o.fullName = t.fullName := by
  obtain ⟨hf, howner⟩ := mem_fieldsOf.mp he
  obtain ⟨g, hg, hgf⟩ := field_of_declared h hf
  obtain ⟨o, ho, hot⟩ := ht
  rw [← howner, ← FieldSymbol.agree hgf FieldSymbol.owner fun _ => rfl] at ho
  exact ⟨g, o, hg, hgf, ho, TypeSymbol.agree hot TypeSymbol.fullName fun _ => rfl⟩

/-- So it is with methods. -/
theorem exists_method_of_mem (h : p.declared = q.declared) {e : MethodId × MethodSymbol}
    (he : e ∈ p.methodsOf ty) (ht : q.ShowsType ty t) :
    ∃ n o, q.methods.get? e.1 = some n ∧ n.declared = e.2.declared ∧
      q.types.get? n.owner = some o ∧ o.fullName = t.fullName := by
  obtain ⟨hm, howner⟩ := mem_methodsOf.mp he
  obtain ⟨n, hn, hnm⟩ := method_of_declared h hm
  obtain ⟨o, ho, hot⟩ := ht
  rw [← howner, ← MethodSymbol.agree hnm MethodSymbol.owner fun _ => rfl] at ho
  exact ⟨n, o, hn, hnm, ho, TypeSymbol.agree hot TypeSymbol.fullName fun _ => rfl⟩

end Program

/-- A type before and after a run: its declaration and its lists are the same, and a source file
that is recorded was recorded before. -/
structure ListedType.OnlyRenamed (t u : ListedType) : Prop where
  declared : u.symbol.declared = t.symbol.declared
  sourceFile : u.symbol.sourceFile = t.symbol.sourceFile ∨ u.symbol.sourceFile = none
  fields : u.fields = t.fields
  methods : u.methods = t.methods

namespace ListedProgram

variable {q q' : ListedProgram} {p p' : Program}

/-! ### What is changed in the one is changed in the other -/

theorem Shows.withTypeAlias (h : q.Shows p) {ty : TypeId} {t : TypeSymbol}
    (ht : p.types.get? ty = some t) (name : String) :
    ∃ q', q.updateType ty (fun t => { t with newName := some name }) = .ok q' ∧
      q'.Shows (p.withTypeAlias ty name) :=
  h.updateType ht fun _ => rfl

theorem Shows.withoutSourceFile (h : q.Shows p) {ty : TypeId} {t : TypeSymbol}
    (ht : p.types.get? ty = some t) :
    ∃ q', q.updateType ty (fun t => { t with sourceFile := none }) = .ok q' ∧
      q'.Shows (p.withoutSourceFile ty) :=
  h.updateType ht fun _ => rfl

theorem Shows.withFieldAlias (h : q.Shows p) {id : FieldId} {f : FieldSymbol}
    (hf : p.fields.get? id = some f) (name : String) :
    ∃ q', q.updateField id (fun f => { f with newName := some name }) = .ok q' ∧
      q'.Shows (p.withFieldAlias id name) :=
  h.updateField hf fun _ => rfl

theorem Shows.withMethodAlias (h : q.Shows p) {id : MethodId} {m : MethodSymbol}
    (hm : p.methods.get? id = some m) (name : String) :
    ∃ q', q.updateMethod id (fun m => { m with newName := some name, renamed := true }) = .ok q' ∧
      q'.Shows (p.withMethodAlias id name) :=
  h.updateMethod hm fun _ => rfl

theorem Shows.withPresetMark (h : q.Shows p) {id : MethodId} {m : MethodSymbol}
    (hm : p.methods.get? id = some m) (mark : Bool) :
    ∃ q', q.updateMethod id (fun m => { m with fromPreset := mark }) = .ok q' ∧
      q'.Shows (p.withPresetMark id mark) :=
  h.updateMethod hm fun _ => rfl

/-! ### What a run leaves of it -/

/-- `q'` is `q` with other aliases and marks, and of the source files recorded some are used up. -/
structure OnlyRenamed (q q' : ListedProgram) : Prop where
  size : q'.types.size = q.types.size
  types : ∀ {ty t u}, q.types.get? ty = some t → q'.types.get? ty = some u → t.OnlyRenamed u
  fields : q'.fields.map FieldSymbol.declared = q.fields.map FieldSymbol.declared
  methods : q'.methods.map MethodSymbol.declared = q.methods.map MethodSymbol.declared
  names : ∀ name, q'.lookup name = q.lookup name

/-- Notes that show what they showed have not been changed. -/
theorem Shows.onlyRenamed (h : q.Shows p) (h' : q'.Shows p') (hp : p.OnlyRenamed p') :
    q.OnlyRenamed q' where
  size := by
    have htypes := congrArg (fun p : Program => p.types.size) hp.declared
    rw [h.size, h'.size, ← p.types.size_map TypeSymbol.declared,
      ← p'.types.size_map TypeSymbol.declared]
    exact htypes
  types := fun {ty t u} ht hu => by
    have hreads := h.types ht
    have hreads' := h'.types hu
    obtain ⟨s, hs, hsame⟩ := Program.type_of_declared hp.declared.symm hreads.symbol
    rw [hreads'.symbol] at hs
    cases hs
    refine ⟨hsame, hp.sourceFile hreads.symbol hreads'.symbol, ?_, ?_⟩
    · rw [hreads.fields, hreads'.fields, Program.fieldSlots_of_declared hp.declared]
    · rw [hreads.methods, hreads'.methods, Program.methodSlots_of_declared hp.declared]
  fields := by
    rw [h.fields, h'.fields]
    exact congrArg Program.fields hp.declared
  methods := by
    rw [h.methods, h'.methods]
    exact congrArg Program.methods hp.declared
  names := fun name => by
    rw [h.names, h'.names, Program.lookup_of_declared hp.declared]

end ListedProgram
end Renamer
