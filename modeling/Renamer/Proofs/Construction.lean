import Renamer.Proofs.Declared

/-!
# Programs as they are built

A program is built from the empty one by adding types and members, setting what they refer to, and
binding aliases. Whatever the order, three things hold: members stand in types that the program
has, a nested type is younger than the type around it and lives in its package, and full names are
composed of package, enclosing type and short name.
-/

namespace Renamer

/-- A computation that went well went well step by step. -/
theorem bind_eq_ok {ε α β : Type} {x : Except ε α} {f : α → Except ε β} {b : β} :
    (x >>= f) = .ok b ↔ ∃ a, x = .ok a ∧ f a = .ok b := by
  cases x with
  | error e =>
    constructor
    · intro h
      cases h
    · intro h
      rcases h with ⟨a, h, -⟩
      cases h
  | ok a =>
    constructor
    · exact fun h => ⟨a, rfl, h⟩
    · intro h
      rcases h with ⟨a', h, hb⟩
      cases h
      exact hb

/-- A computation goes on from what went well before. -/
theorem ok_bind {ε α β : Type} (a : α) (f : α → Except ε β) : (Except.ok a >>= f) = f a := rfl

namespace Program

/-! ## Building -/

/-- The programs that the operations on programs lead to. -/
inductive Built : Program → Prop
  | empty : Built {}
  | addType {p : Program} (d : Declaration) : p.Built → Built (p.addType d).2
  | addNestedType {p q : Program} {outer id : TypeId} {d : Declaration} :
      p.Built → p.addNestedType outer d = .ok (id, q) → q.Built
  | addField {p q : Program} {owner : TypeId} {name descriptor : String} {id : FieldId} :
      p.Built → p.addField owner name descriptor = .ok (id, q) → q.Built
  | addMethod {p q : Program} {owner : TypeId} {name returnType : String} {params : List String}
      {isVirtual : Bool} {id : MethodId} :
      p.Built → p.addMethod owner name params returnType isVirtual = .ok (id, q) → q.Built
  | setSuperType {p q : Program} {ty : TypeId} {name : String} :
      p.Built → p.setSuperType ty name = .ok q → q.Built
  | addInterface {p q : Program} {ty : TypeId} {name : String} :
      p.Built → p.addInterface ty name = .ok q → q.Built
  | setSourceFile {p q : Program} {ty : TypeId} {file : String} :
      p.Built → p.setSourceFile ty file = .ok q → q.Built
  | takeSourceFile {p q : Program} {ty : TypeId} {file : Option String} :
      p.Built → p.takeSourceFile ty = .ok (file, q) → q.Built
  | renameType {p q : Program} {ty : TypeId} {name : String} :
      p.Built → p.renameType ty name = .ok q → q.Built
  | renameField {p q : Program} {id : FieldId} {name : String} :
      p.Built → p.renameField id name = .ok q → q.Built
  | renameMethod {p q : Program} {id : MethodId} {name : String} :
      p.Built → p.renameMethod id name = .ok q → q.Built
  | markPreset {p q : Program} {id : MethodId} {mark : Bool} :
      p.Built → p.markPreset id mark = .ok q → q.Built
  | clearAliases {p : Program} : p.Built → p.clearAliases.Built

/-! ## Well-formed programs -/

/-- The full name of a top-level type. -/
def topLevelName (package shortName : String) : String :=
  if package.isEmpty then shortName else package ++ packageSeparator ++ shortName

/-- Members have owners, nested types have enclosing types, and full names are composed. -/
structure WellFormed (p : Program) : Prop where
  field_owner : ∀ {id f}, p.fields.get? id = some f → ∃ t, p.types.get? f.owner = some t
  method_owner : ∀ {id m}, p.methods.get? id = some m → ∃ t, p.types.get? m.owner = some t
  topLevel : ∀ {ty t}, p.types.get? ty = some t → t.enclosing = none →
    t.fullName = topLevelName t.package t.shortName
  nested : ∀ {ty t outer}, p.types.get? ty = some t → t.enclosing = some outer →
    ∃ o, p.types.get? outer = some o ∧ outer.index < ty.index ∧ t.package = o.package ∧
      t.fullName = o.fullName ++ nestedSeparator ++ t.shortName

variable {p q : Program}

/-- Well-formedness is a matter of declarations. -/
theorem WellFormed.of_declared (hp : p.WellFormed) (h : p.declared = q.declared) :
    q.WellFormed where
  field_owner := by
    intro id f hf
    obtain ⟨f', hf', he⟩ := field_of_declared h.symm hf
    obtain ⟨t, ht⟩ := hp.field_owner hf'
    rw [FieldSymbol.agree he FieldSymbol.owner fun _ => rfl] at ht
    obtain ⟨t', ht', -⟩ := type_of_declared h ht
    exact ⟨t', ht'⟩
  method_owner := by
    intro id m hm
    obtain ⟨m', hm', he⟩ := method_of_declared h.symm hm
    obtain ⟨t, ht⟩ := hp.method_owner hm'
    rw [MethodSymbol.agree he MethodSymbol.owner fun _ => rfl] at ht
    obtain ⟨t', ht', -⟩ := type_of_declared h ht
    exact ⟨t', ht'⟩
  topLevel := by
    intro ty t ht hnone
    obtain ⟨t', ht', he⟩ := type_of_declared h.symm ht
    have hname :=
      hp.topLevel ht' ((TypeSymbol.agree he TypeSymbol.enclosing fun _ => rfl).trans hnone)
    rwa [TypeSymbol.agree he TypeSymbol.fullName fun _ => rfl,
      TypeSymbol.agree he TypeSymbol.package fun _ => rfl,
      TypeSymbol.agree he TypeSymbol.shortName fun _ => rfl] at hname
  nested := by
    intro ty t outer ht hsome
    obtain ⟨t', ht', he⟩ := type_of_declared h.symm ht
    obtain ⟨o, ho, hlt, hpackage, hname⟩ :=
      hp.nested ht' ((TypeSymbol.agree he TypeSymbol.enclosing fun _ => rfl).trans hsome)
    obtain ⟨o', ho', heo⟩ := type_of_declared h ho
    rw [TypeSymbol.agree he TypeSymbol.fullName fun _ => rfl,
      TypeSymbol.agree he TypeSymbol.shortName fun _ => rfl,
      ← TypeSymbol.agree heo TypeSymbol.fullName fun _ => rfl] at hname
    rw [TypeSymbol.agree he TypeSymbol.package fun _ => rfl,
      ← TypeSymbol.agree heo TypeSymbol.package fun _ => rfl]
      at hpackage
    exact ⟨o', ho', hlt, hpackage, hname⟩

/-! ## Each operation keeps them well formed -/

/-- A type that is added keeps the program well formed if it is composed well itself. -/
theorem WellFormed.pushType (hp : p.WellFormed) {t : TypeSymbol}
    (htop : t.enclosing = none → t.fullName = topLevelName t.package t.shortName)
    (hnested : ∀ outer, t.enclosing = some outer → ∃ o, p.types.get? outer = some o ∧
      t.package = o.package ∧ t.fullName = o.fullName ++ nestedSeparator ++ t.shortName) :
    (p.pushType t).2.WellFormed where
  field_owner := by
    intro id f hf
    obtain ⟨o, ho⟩ := hp.field_owner hf
    exact ⟨o, Arena.get?_push_of_some ho⟩
  method_owner := by
    intro id m hm
    obtain ⟨o, ho⟩ := hp.method_owner hm
    exact ⟨o, Arena.get?_push_of_some ho⟩
  topLevel := by
    intro ty u hu hnone
    rw [Program.pushType, Arena.get?_push] at hu
    split at hu
    · cases hu
      exact htop hnone
    · exact hp.topLevel hu hnone
  nested := by
    intro ty u outer hu hsome
    rw [Program.pushType, Arena.get?_push] at hu
    split at hu
    · rename_i hty
      cases hu
      obtain ⟨o, ho, hpackage, hname⟩ := hnested outer hsome
      refine ⟨o, Arena.get?_push_of_some ho, ?_, hpackage, hname⟩
      rw [hty]
      exact Arena.index_lt_of_get? ho
    · obtain ⟨o, ho, hlt, hpackage, hname⟩ := hp.nested hu hsome
      exact ⟨o, Arena.get?_push_of_some ho, hlt, hpackage, hname⟩

theorem WellFormed.addType (hp : p.WellFormed) (d : Declaration) :
    (p.addType d).2.WellFormed := by
  refine hp.pushType (fun _ => ?_) (fun outer h => by cases h)
  rfl

theorem WellFormed.addNestedType (hp : p.WellFormed) {outer id : TypeId} {d : Declaration}
    (h : p.addNestedType outer d = .ok (id, q)) : q.WellFormed := by
  obtain ⟨around, hget, hq⟩ := bind_eq_ok.mp h
  cases hq
  refine hp.pushType (fun h => by cases h) fun o ho => ?_
  cases ho
  exact ⟨around, Arena.get_eq_ok_iff.mp hget, rfl, rfl⟩

theorem WellFormed.addField (hp : p.WellFormed) {owner : TypeId} {name descriptor : String}
    {id : FieldId} (h : p.addField owner name descriptor = .ok (id, q)) : q.WellFormed := by
  obtain ⟨t, hget, hq⟩ := bind_eq_ok.mp h
  cases hq
  refine { hp with field_owner := fun {i f} hf => ?_ }
  rw [Arena.get?_push] at hf
  split at hf
  · cases hf
    exact ⟨t, Arena.get_eq_ok_iff.mp hget⟩
  · exact hp.field_owner hf

theorem WellFormed.addMethod (hp : p.WellFormed) {owner : TypeId} {name returnType : String}
    {params : List String} {isVirtual : Bool} {id : MethodId}
    (h : p.addMethod owner name params returnType isVirtual = .ok (id, q)) : q.WellFormed := by
  obtain ⟨t, hget, hq⟩ := bind_eq_ok.mp h
  cases hq
  refine { hp with method_owner := fun {i m} hm => ?_ }
  rw [Arena.get?_push] at hm
  split at hm
  · cases hm
    exact ⟨t, Arena.get_eq_ok_iff.mp hget⟩
  · exact hp.method_owner hm

/-- A change that leaves package, names and enclosing type of every type as they are. -/
theorem WellFormed.modifyType (hp : p.WellFormed) (ty : TypeId) {f : TypeSymbol → TypeSymbol}
    (hpackage : ∀ t, (f t).package = t.package) (hshort : ∀ t, (f t).shortName = t.shortName)
    (hfull : ∀ t, (f t).fullName = t.fullName)
    (henclosing : ∀ t, (f t).enclosing = t.enclosing) :
    WellFormed { p with types := p.types.modify ty f } := by
  -- The type in a slot before and after differ in nothing that counts here.
  have hforth : ∀ {i t}, p.types.get? i = some t →
      ∃ u, (p.types.modify ty f).get? i = some u ∧ u.package = t.package ∧
        u.shortName = t.shortName ∧ u.fullName = t.fullName ∧ u.enclosing = t.enclosing := by
    intro i t ht
    rw [Arena.get?_modify, ht]
    split
    · exact ⟨f t, rfl, hpackage t, hshort t, hfull t, henclosing t⟩
    · exact ⟨t, rfl, rfl, rfl, rfl, rfl⟩
  have hback : ∀ {i u}, (p.types.modify ty f).get? i = some u →
      ∃ t, p.types.get? i = some t ∧ u.package = t.package ∧
        u.shortName = t.shortName ∧ u.fullName = t.fullName ∧ u.enclosing = t.enclosing := by
    intro i u hu
    cases ht : p.types.get? i with
    | none =>
      rw [Arena.get?_modify, ht] at hu
      split at hu <;> cases hu
    | some t =>
      obtain ⟨u', hu', heq⟩ := hforth ht
      rw [hu'] at hu
      cases hu
      exact ⟨t, rfl, heq⟩
  constructor
  · intro id f hf
    obtain ⟨t, ht⟩ := hp.field_owner hf
    obtain ⟨u, hu, -⟩ := hforth ht
    exact ⟨u, hu⟩
  · intro id m hm
    obtain ⟨t, ht⟩ := hp.method_owner hm
    obtain ⟨u, hu, -⟩ := hforth ht
    exact ⟨u, hu⟩
  · intro i u hu hnone
    obtain ⟨t, ht, hp', hs, hf, he⟩ := hback hu
    rw [hf, hp', hs]
    exact hp.topLevel ht (he ▸ hnone)
  · intro i u outer hu hsome
    obtain ⟨t, ht, hp', hs, hf, he⟩ := hback hu
    obtain ⟨o, ho, hlt, hpk, hname⟩ := hp.nested ht (he ▸ hsome)
    obtain ⟨o', ho', hop, -, hof, -⟩ := hforth ho
    refine ⟨o', ho', hlt, ?_, ?_⟩
    · rw [hp', hop, hpk]
    · rw [hf, hs, hof, hname]

theorem WellFormed.updateType (hp : p.WellFormed) {ty : TypeId} {f : TypeSymbol → TypeSymbol}
    (h : p.updateType ty f = .ok q) (hpackage : ∀ t, (f t).package = t.package)
    (hshort : ∀ t, (f t).shortName = t.shortName) (hfull : ∀ t, (f t).fullName = t.fullName)
    (henclosing : ∀ t, (f t).enclosing = t.enclosing) : q.WellFormed := by
  obtain ⟨types, htypes, hq⟩ := bind_eq_ok.mp h
  obtain ⟨t, -, hmodify⟩ := bind_eq_ok.mp htypes
  cases hmodify
  cases hq
  exact hp.modifyType ty hpackage hshort hfull henclosing

/-- Every program that was built is well formed. -/
theorem Built.wellFormed (h : p.Built) : p.WellFormed := by
  induction h with
  | empty => constructor <;> (intros; simp_all [Arena.get?])
  | addType d _ ih => exact ih.addType d
  | addNestedType _ h ih => exact ih.addNestedType h
  | addField _ h ih => exact ih.addField h
  | addMethod _ h ih => exact ih.addMethod h
  | setSuperType _ h ih | addInterface _ h ih | setSourceFile _ h ih =>
    exact ih.updateType h (fun _ => rfl) (fun _ => rfl) (fun _ => rfl) (fun _ => rfl)
  -- what follows changes nothing that is declared
  | takeSourceFile _ h ih =>
    obtain ⟨t, -, hq⟩ := bind_eq_ok.mp h
    cases hq
    exact ih.of_declared (declared_withoutSourceFile _).symm
  | renameType _ h ih =>
    obtain ⟨t, -, hq⟩ := bind_eq_ok.mp h
    cases hq
    exact ih.of_declared (declared_withTypeAlias _ _).symm
  | renameField _ h ih =>
    obtain ⟨f, -, hq⟩ := bind_eq_ok.mp h
    cases hq
    exact ih.of_declared (declared_withFieldAlias _ _).symm
  | renameMethod _ h ih =>
    obtain ⟨m, -, hq⟩ := bind_eq_ok.mp h
    cases hq
    exact ih.of_declared (declared_withMethodAlias _ _).symm
  | markPreset _ h ih =>
    obtain ⟨m, -, hq⟩ := bind_eq_ok.mp h
    cases hq
    exact ih.of_declared (declared_withPresetMark _ _).symm
  | clearAliases _ ih => exact ih.of_declared declared_clearAliases.symm

/-! ## Adding members to a type that is there -/

theorem get_eq_ok_of_lt {ty : TypeId} (h : ty.index < p.types.size) :
    ∃ t, p.types.get ty = .ok t := by
  obtain ⟨t, ht⟩ := Arena.exists_get?_of_lt h
  exact ⟨t, Arena.get_eq_ok_iff.mpr ht⟩

theorem Built.pushField (hp : p.Built) (owner : TypeId) (name descriptor : String)
    (h : owner.index < p.types.size) :
    Built { p with fields := p.fields.push { owner, name, descriptor } } := by
  obtain ⟨t, hget⟩ := get_eq_ok_of_lt h
  have hadd : p.addField owner name descriptor =
      .ok (p.fields.nextSlot, { p with fields := p.fields.push { owner, name, descriptor } }) := by
    rw [Program.addField, hget]
    rfl
  exact Built.addField hp hadd

theorem Built.pushMethod (hp : p.Built) (owner : TypeId) (name : String) (params : List String)
    (returnType : String) (isVirtual : Bool) (h : owner.index < p.types.size) :
    Built { p with
      methods := p.methods.push { owner, name, params, returnType, isVirtual } } := by
  obtain ⟨t, hget⟩ := get_eq_ok_of_lt h
  have hadd : p.addMethod owner name params returnType isVirtual = .ok (p.methods.nextSlot, { p with
      methods := p.methods.push { owner, name, params, returnType, isVirtual } }) := by
    rw [Program.addMethod, hget]
    rfl
  exact Built.addMethod hp hadd

/-! ## Two related types -/

/-- `Sub` extends `Base`. Both declare a virtual method `d`, and `Base` a static method `a`. -/
def relatedTypes : Program where
  types := ⟨#[
    { package := "", shortName := "Sub", fullName := "Sub", superType := some "Base" },
    { package := "", shortName := "Base", fullName := "Base" }]⟩
  methods := ⟨#[
    { owner := ⟨0⟩, name := "d", params := [], returnType := "V", isVirtual := true },
    { owner := ⟨1⟩, name := "a", params := [], returnType := "V", isVirtual := false },
    { owner := ⟨1⟩, name := "d", params := [], returnType := "V", isVirtual := true }]⟩

theorem built_relatedTypes : relatedTypes.Built := by
  have hsub := Built.empty.addType { shortName := "Sub", superType := some "Base" }
  have htypes := hsub.addType { shortName := "Base" }
  have hd := htypes.pushMethod ⟨0⟩ "d" [] "V" true (by decide)
  have ha := hd.pushMethod ⟨1⟩ "a" [] "V" false (by decide)
  exact ha.pushMethod ⟨1⟩ "d" [] "V" true (by decide)

end Program
end Renamer
