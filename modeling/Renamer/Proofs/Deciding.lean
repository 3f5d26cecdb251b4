import Renamer.Proofs.Aliases
import Renamer.Proofs.Grouping

/-!
# Runs without presets

Every step of such a run keeps the aliases or gives one symbol an alias that takes a free spot.
So `Run.Settled` holds from the first decision until all aliases are bound.
-/

namespace Renamer

/-! ## What engine operations do to aliases -/

namespace Engine

/-- A draw takes the next word that is not reserved and whose form is free. -/
theorem drawAs_eq_next (e : Engine) (scope : Scope) {form : String → String}
    (hform : Function.Injective form) :
    ∃ n, e.source.IsNext (fun name => e.taken.isFree scope (form name)) n ∧
      drawAs scope form e = (Word.spell n, { e with
        taken := e.taken.claim scope (form (Word.spell n)), source := ⟨n + 1⟩ }) := by
  rcases e.taken.drawAs_eq scope hform e.source with ⟨n, hnext, heq⟩
  refine ⟨n, hnext, ?_⟩
  rw [drawAs, heq]

theorem aliasOf_insertField (e : Engine) (id : FieldId) (name : String) (s : SymbolId) :
    ({ e with fields := e.fields.insert id name } : Engine).aliasOf s =
      if s = .field id then some name else e.aliasOf s := by
  cases s with
  | type ty => rfl
  | method i => rfl
  | field i =>
    show (e.fields.insert id name).get? i = _
    rw [Table.get?_insert]
    by_cases h : id = i
    · rw [if_pos h, if_pos (congrArg SymbolId.field h.symm)]
    · rw [if_neg h, if_neg fun he => h (SymbolId.field.inj he).symm]
      rfl

/-- Recording again the alias that a field has changes none. -/
theorem aliasOf_insertField_self {e : Engine} {id : FieldId} {name : String}
    (h : e.aliasOf (.field id) = some name) (s : SymbolId) :
    ({ e with fields := e.fields.insert id name } : Engine).aliasOf s = e.aliasOf s := by
  rw [aliasOf_insertField]
  split
  · rename_i hs
    rw [hs, h]
  · rfl

theorem aliasOf_insertMethod (e : Engine) (id : MethodId) (name : String) (s : SymbolId) :
    ({ e with methods := e.methods.insert id name } : Engine).aliasOf s =
      if s = .method id then some name else e.aliasOf s := by
  cases s with
  | type ty => rfl
  | field i => rfl
  | method i =>
    show (e.methods.insert id name).get? i = _
    rw [Table.get?_insert]
    by_cases h : id = i
    · rw [if_pos h, if_pos (congrArg SymbolId.method h.symm)]
    · rw [if_neg h, if_neg fun he => h (SymbolId.method.inj he).symm]
      rfl

/-- Recording again the alias that a method has changes none. -/
theorem aliasOf_insertMethod_self {e : Engine} {id : MethodId} {name : String}
    (h : e.aliasOf (.method id) = some name) (s : SymbolId) :
    ({ e with methods := e.methods.insert id name } : Engine).aliasOf s = e.aliasOf s := by
  rw [aliasOf_insertMethod]
  split
  · rename_i hs
    rw [hs, h]
  · rfl

theorem aliasOf_recordType (e : Engine) (ty : TypeId) (t : TypeSymbol) (name : String)
    (s : SymbolId) :
    (e.recordType ty t name).aliasOf s = if s = .type ty then some name else e.aliasOf s := by
  cases s with
  | field i => rfl
  | method i => rfl
  | type i =>
    show ((e.types.insert ty _).get? i).map (·.newName) = _
    rw [Table.get?_insert]
    by_cases h : ty = i
    · rw [if_pos h, if_pos (congrArg SymbolId.type h.symm)]
      rfl
    · rw [if_neg h, if_neg fun he => h (SymbolId.type.inj he).symm]
      rfl

theorem Recalls.aliasOf {e e' : Engine} (h : e.Recalls e') (s : SymbolId) :
    e'.aliasOf s = e.aliasOf s := by
  cases s with
  | field i =>
    rw [h.rest]
    rfl
  | method i =>
    rw [h.rest]
    rfl
  | type i => exact h.alikeTypes.typeAlias i

/-- The type `t` can take `name`, which is that of its source file. -/
structure NamesAfterFile (e : Engine) (t : TypeSymbol) (name : String) : Prop where
  topLevel : t.enclosing = none
  source : ∃ file, t.sourceFile = some file ∧ name = sourceStem file
  accepted : e.policy.accepts name = true
  free : (t.scope, name) ∉ e.taken.pairs

theorem sourceAlias?_eq_some {e : Engine} {t : TypeSymbol} {name : String}
    (h : e.sourceAlias? t = some name) : e.NamesAfterFile t name := by
  unfold sourceAlias? at h
  rcases Option.bind_eq_some_iff.mp h with ⟨file, hfile, hstem⟩
  dsimp only at hstem
  split at hstem
  · rename_i hgood
    simp only [Bool.and_eq_true, Bool.not_eq_true', TypeSymbol.isNested,
      Option.isSome_eq_false_iff, Option.isNone_iff_eq_none, rejects, Policy.rejects,
      Bool.or_eq_false_iff, Bool.not_eq_false'] at hgood
    cases hstem
    refine ⟨hgood.1.1.1.1.1, ⟨file, hfile, rfl⟩, ?_, TakenNames.isFree_eq_true_iff.mp hgood.2⟩
    simp [Policy.accepts, hgood]
  · cases hstem

end Engine

namespace Program

variable {p : Program}

theorem boundAlias_withFieldAlias (id : FieldId) (name : String) {s : SymbolId} {name' : String}
    (h : (p.withFieldAlias id name).boundAlias s = some name') :
    s = .field id ∧ name' = name ∨ s ≠ .field id ∧ p.boundAlias s = some name' := by
  cases s with
  | type i => cases h
  | method i => exact Or.inr ⟨fun he => (by cases he), h⟩
  | field i =>
    rcases Option.bind_eq_some_iff.mp h with ⟨f, hf, hname⟩
    rw [withFieldAlias, Arena.get?_modify] at hf
    by_cases hi : id = i
    · rw [if_pos hi] at hf
      rcases Option.map_eq_some_iff.mp hf with ⟨f', -, rfl⟩
      exact Or.inl ⟨congrArg SymbolId.field hi.symm, (Option.some.inj hname).symm⟩
    · rw [if_neg hi] at hf
      exact Or.inr ⟨fun he => hi (SymbolId.field.inj he).symm,
        Option.bind_eq_some_iff.mpr ⟨f, hf, hname⟩⟩

theorem boundAlias_withMethodAlias (id : MethodId) (name : String) {s : SymbolId} {name' : String}
    (h : (p.withMethodAlias id name).boundAlias s = some name') :
    s = .method id ∧ name' = name ∨ s ≠ .method id ∧ p.boundAlias s = some name' := by
  cases s with
  | type i => cases h
  | field i => exact Or.inr ⟨fun he => (by cases he), h⟩
  | method i =>
    rcases Option.bind_eq_some_iff.mp h with ⟨m, hm, hname⟩
    rw [withMethodAlias, Arena.get?_modify] at hm
    by_cases hi : id = i
    · rw [if_pos hi] at hm
      rcases Option.map_eq_some_iff.mp hm with ⟨m', -, rfl⟩
      exact Or.inl ⟨congrArg SymbolId.method hi.symm, (Option.some.inj hname).symm⟩
    · rw [if_neg hi] at hm
      exact Or.inr ⟨fun he => hi (SymbolId.method.inj he).symm,
        Option.bind_eq_some_iff.mpr ⟨m, hm, hname⟩⟩

theorem boundAlias_withPresetMark (id : MethodId) (mark : Bool) (s : SymbolId) :
    (p.withPresetMark id mark).boundAlias s = p.boundAlias s := by
  cases s with
  | type i => rfl
  | field i => rfl
  | method i =>
    show ((p.withPresetMark id mark).methods.get? i).bind (·.newName) =
      (p.methods.get? i).bind (·.newName)
    rw [withPresetMark, Arena.get?_modify]
    split
    · cases p.methods.get? i <;> rfl
    · rfl

/-- Taking back the note on presets, or not, shows neither in the declarations nor among the
aliases. -/
theorem declared_unmark (p : Program) (c : Prop) [Decidable c] (id : MethodId) :
    (if c then p.withPresetMark id false else p).declared = p.declared := by
  split
  · exact declared_withPresetMark id false
  · rfl

theorem boundAlias_unmark (p : Program) (c : Prop) [Decidable c] (id : MethodId) (s : SymbolId) :
    (if c then p.withPresetMark id false else p).boundAlias s = p.boundAlias s := by
  split
  · exact boundAlias_withPresetMark id false s
  · rfl

theorem boundAlias_clearAliases (s : SymbolId) : p.clearAliases.boundAlias s = none := by
  cases s with
  | type i => rfl
  | field i =>
    show (p.clearAliases.fields.get? i).bind (·.newName) = none
    rw [clearAliases, Arena.get?_map]
    cases p.fields.get? i <;> rfl
  | method i =>
    show (p.clearAliases.methods.get? i).bind (·.newName) = none
    rw [clearAliases, Arena.get?_map]
    cases p.methods.get? i <;> rfl

end Program

/-! ## Steps -/

namespace Run

/-- What a step of a run without presets can do. -/
inductive Step (p : Program) (r : Run) : Run → Prop
  | keep {r' : Run} : r.Keeps r' → Step p r r'
  | give {s : SymbolId} {name : String} {r' : Run} : Gives p s name r r' → Step p r r'

variable {p : Program} {r r' : Run}

theorem Settled.step (h : Settled p r) (hs : Step p r r') : Settled p r' := by
  cases hs with
  | keep hk => exact h.keeps hk
  | give hg => exact h.gives hg

theorem Settled.foldl {α : Type} {step : Run → α → Run} {l : List α} (h : Settled p r)
    (hstep : ∀ r a, a ∈ l → Settled p r → Settled p (step r a)) : Settled p (l.foldl step r) :=
  List.foldlRecOn l step h fun r hr a ha => hstep r a ha hr

/-- A draw for a symbol without an alias. `e` is the engine once the word has been recorded. -/
theorem gives_of_draw {s : SymbolId} {scope : Scope} {form : String → String} {n : Nat}
    {e : Engine} (hspot : p.spot (Word.spell n) s = some (scope, form (Word.spell n)))
    (hnext : r.engine.source.IsNext (fun name => r.engine.taken.isFree scope (form name)) n)
    (hpresets : e.presets = r.engine.presets) (hsource : e.source = ⟨n + 1⟩)
    (htaken : e.taken = r.engine.taken.claim scope (form (Word.spell n)))
    (haliases : ∀ s', e.aliasOf s' = if s' = s then some (Word.spell n) else r.engine.aliasOf s')
    {q : Program} (hdeclared : q.declared = r.program.declared)
    (hbound : ∀ s' name', q.boundAlias s' = some name' → e.aliasOf s' = some name' ∨
      r.program.boundAlias s' = some name' ∧ (s' = s → r.engine.aliasOf s = none)) :
    Gives p s (Word.spell n) r { engine := e, program := q } where
  declared := hdeclared
  presets := hpresets
  aliases := haliases
  taken := by
    refine ⟨_, hspot, TakenNames.isFree_eq_true_iff.mp hnext.accepted, fun y => ?_⟩
    show y ∈ e.taken.pairs ↔ _
    rw [htaken, TakenNames.mem_claim]
  issued_le := by
    show _ ≤ e.source.issued
    rw [hsource]
    exact Nat.le_succ_of_le hnext.issued_le
  word := by
    refine Or.inl ⟨n, hnext.issued_le, ?_, rfl⟩
    show n < e.source.issued
    rw [hsource]
    exact Nat.lt_succ_self n
  bound := hbound

/-! ## Deciding -/

/-- What naming a type comes to: it takes the name of its source file, which uses up the record of
the file, or the next word that is free. -/
inductive NamesType (ty : TypeId) (t : TypeSymbol) (r : Run) : Run → Prop
  | afterFile {name : String} : r.engine.policy.settings.useSourceNames = true →
      r.engine.NamesAfterFile t name → NamesType ty t r
        { engine := (r.engine.claim t.scope name).recordType ty t name
          program := r.program.withoutSourceFile ty }
  | draw {n : Nat} : r.engine.source.IsNext (r.engine.taken.isFree t.scope) n → NamesType ty t r
      { r with engine := ({ r.engine with
          taken := r.engine.taken.claim t.scope (Word.spell n)
          source := ⟨n + 1⟩ } : Engine).recordType ty t (Word.spell n) }

theorem namesType_nameType (r : Run) (ty : TypeId) (t : TypeSymbol) :
    NamesType ty t r (r.nameType ty t) := by
  unfold nameType
  split
  · rename_i name hname
    split at hname
    · rename_i huse
      exact .afterFile huse (Engine.sourceAlias?_eq_some hname)
    · cases hname
  · rcases r.engine.drawAs_eq_next t.scope Function.injective_id with ⟨n, hnext, heq⟩
    rw [Engine.draw, heq]
    exact .draw hnext

theorem step_decidePackage (r : Run) (t : TypeSymbol) :
    Step p r { r with engine := r.engine.decidePackage t } := by
  rcases r.engine.decidePackage_eq t with ⟨packages, source, -, hle, heq⟩
  rw [heq]
  apply Step.keep
  constructor
  · rfl
  · rfl
  · intro s
    cases s <;> rfl
  · rfl
  · exact hle
  · exact fun s name h => Or.inl h

theorem step_nameType (r : Run) {ty : TypeId} {t : TypeSymbol}
    (hspot : ∀ name, p.spot name (.type ty) = some (t.scope, name)) :
    Step p r (r.nameType ty t) := by
  have hnames := namesType_nameType r ty t
  generalize r.nameType ty t = r' at hnames
  cases hnames with
  | @afterFile name _ hfile =>
    -- the record of the source file is used up, which is no declaration
    apply Step.give
    refine ⟨Program.declared_withoutSourceFile ty, rfl,
      fun s => Engine.aliasOf_recordType _ ty t name s,
      ⟨_, hspot name, hfile.free, fun y => TakenNames.mem_claim⟩, Nat.le_refl _,
      Or.inr ⟨ty, rfl, Policy.hasDigit_of_accepts hfile.accepted⟩, fun s name' hb => ?_⟩
    refine Or.inr ⟨?_, fun hs => ?_⟩
    · cases s <;> exact hb
    · rw [hs] at hb
      cases hb
  | draw hnext =>
    apply Step.give
    apply gives_of_draw (hspot _) hnext
    · rfl
    · rfl
    · rfl
    · exact fun s => Engine.aliasOf_recordType _ ty t _ s
    · rfl
    · intro s name' hb
      refine Or.inr ⟨hb, fun hs => ?_⟩
      rw [hs] at hb
      cases hb

theorem step_decideType (h : Settled p r) {ty : TypeId} {t : TypeSymbol}
    (hspot : ∀ name, p.spot name (.type ty) = some (t.scope, name)) :
    Step p r (r.decideType ty t) := by
  have hnone : r.engine.presets.types.get? t.fullName = none := by
    rw [h.presets]
    rfl
  unfold decideType
  rw [hnone]
  dsimp only
  split
  · exact Step.keep (Keeps.refl r)
  · exact step_nameType r hspot

theorem step_decideField (h : Settled p r) (owner : TypeSymbol) {id : FieldId} {f : FieldSymbol}
    (hspot : ∀ name, p.spot name (.field id) = some (f.scope, name)) :
    Step p r (decideField owner r (id, f)) := by
  have hpreset : r.engine.presets.fields.get? (f.identity owner.fullName) = none := by
    rw [h.presets]
    rfl
  unfold decideField
  dsimp only
  split
  · exact Step.keep (Keeps.refl r)
  · rename_i hknown
    have hnone : r.engine.aliasOf (.field id) = none := by
      show r.engine.fields.get? id = none
      simpa [Table.contains] using hknown
    rw [hpreset]
    dsimp only
    split
    · rcases r.engine.drawAs_eq_next f.scope Function.injective_id with ⟨n, hnext, heq⟩
      rw [Engine.draw, heq]
      dsimp only
      apply Step.give
      apply gives_of_draw (hspot _) hnext
      · rfl
      · rfl
      · rfl
      · exact fun s => Engine.aliasOf_insertField _ id _ s
      · rfl
      · exact fun s name' hb => Or.inr ⟨hb, fun _ => hnone⟩
    · exact Step.keep (Keeps.refl r)

theorem step_decideMethod (h : Settled p r) (owner : TypeSymbol) {id : MethodId}
    {m : MethodSymbol} (hspot : ∀ name, p.spot name (.method id) = some (m.scope, m.keyAs name)) :
    Step p r (decideMethod owner r (id, m)) := by
  have hpreset : r.engine.presets.methods.get? (m.identity owner.fullName) = none := by
    rw [h.presets]
    rfl
  unfold decideMethod
  dsimp only
  split
  · exact Step.keep (Keeps.refl r)
  · rename_i hknown
    have hnone : r.engine.aliasOf (.method id) = none := by
      show r.engine.methods.get? id = none
      simpa [Table.contains] using hknown
    rw [hpreset]
    dsimp only
    split
    · rcases r.engine.drawAs_eq_next m.scope m.keyAs_injective with ⟨n, hnext, heq⟩
      rw [heq]
      dsimp only
      apply Step.give
      apply gives_of_draw (hspot _) hnext
      · rfl
      · rfl
      · rfl
      · exact fun s => Engine.aliasOf_insertMethod _ id _ s
      · rfl
      · exact fun s name' hb => Or.inr ⟨hb, fun _ => hnone⟩
    · exact Step.keep (Keeps.refl r)

theorem step_linkMethod (r : Run) (ty : TypeId) (t : TypeSymbol) (m : MethodSymbol) :
    Step p r (r.linkMethod ty t m) := by
  apply Step.keep
  unfold linkMethod
  split
  · refine ⟨rfl, rfl, fun s => ?_, rfl, Nat.le_refl _, fun s name h => Or.inl h⟩
    cases s <;> rfl
  · exact Keeps.refl r

/-! ## Binding -/

theorem step_applyType (r : Run) (ty : TypeId) (t : TypeSymbol) : Step p r (r.applyType ty t) := by
  have hrecalls := Engine.recalls_fullName r.engine r.program ty t
  apply Step.keep
  constructor
  · exact (spares_applyType r ty t).declared
  · show (r.engine.fullName r.program ty t).2.presets = r.engine.presets
    rw [hrecalls.rest]
  · exact fun s => hrecalls.aliasOf s
  · show (r.engine.fullName r.program ty t).2.taken = r.engine.taken
    rw [hrecalls.rest]
  · have hsource : (r.engine.fullName r.program ty t).2.source = r.engine.source := by
      rw [hrecalls.rest]
    exact Nat.le_of_eq (congrArg NameSource.issued hsource.symm)
  · intro s name hb
    refine Or.inl ?_
    unfold applyType at hb
    dsimp only at hb
    cases s with
    | type i => cases hb
    | field i => split at hb <;> exact hb
    | method i => split at hb <;> exact hb

theorem step_applyField (r : Run) (owner : TypeSymbol) {id : FieldId} {f : FieldSymbol}
    (hspot : ∀ name, p.spot name (.field id) = some (f.scope, name)) :
    Step p r (applyField owner r (id, f)) := by
  unfold applyField
  dsimp only
  split
  · exact Step.keep (Keeps.refl r)
  · rename_i name hname
    have halias : r.engine.aliasOf (.field id) = some name := hname
    split
    · exact Step.keep (Keeps.refl r)
    · unfold Engine.usableOr
      split
      · apply Step.keep
        refine ⟨Program.declared_withFieldAlias _ _, rfl,
          Engine.aliasOf_insertField_self halias, rfl,
          Nat.le_refl _, fun s name' hb => ?_⟩
        rcases Program.boundAlias_withFieldAlias id name hb with ⟨hs, hn⟩ | ⟨-, hb⟩
        · rw [hs, hn]
          exact Or.inr halias
        · exact Or.inl hb
      · rcases r.engine.drawAs_eq_next f.scope Function.injective_id with ⟨n, hnext, heq⟩
        rw [Engine.draw, heq]
        dsimp only
        apply Step.give
        apply gives_of_draw (hspot _) hnext
        · rfl
        · rfl
        · rfl
        · exact fun s => Engine.aliasOf_insertField _ id _ s
        · exact Program.declared_withFieldAlias _ _
        · intro s name' hb
          rw [Engine.aliasOf_insertField]
          rcases Program.boundAlias_withFieldAlias id _ hb with ⟨hs, hn⟩ | ⟨hs, hb⟩
          · rw [if_pos hs, hn]
            exact Or.inl rfl
          · exact Or.inr ⟨hb, fun he => absurd he hs⟩

theorem step_applyMethod (r : Run) (owner : TypeSymbol) {id : MethodId} {m : MethodSymbol}
    (hspot : ∀ name, p.spot name (.method id) = some (m.scope, m.keyAs name)) :
    Step p r (applyMethod owner r (id, m)) := by
  unfold applyMethod
  dsimp only
  split
  · exact Step.keep (Keeps.refl r)
  · rename_i name hname
    have halias : r.engine.aliasOf (.method id) = some name := hname
    split
    · exact Step.keep (Keeps.refl r)
    · unfold Engine.usableOr
      split
      · apply Step.keep
        refine ⟨(Program.declared_withMethodAlias _ _).trans (Program.declared_unmark _ _ id), rfl,
          Engine.aliasOf_insertMethod_self halias, rfl, Nat.le_refl _, fun s name' hb => ?_⟩
        rcases Program.boundAlias_withMethodAlias id name hb with ⟨hs, hn⟩ | ⟨-, hb⟩
        · rw [hs, hn]
          exact Or.inr halias
        · rw [Program.boundAlias_unmark] at hb
          exact Or.inl hb
      · rcases r.engine.drawAs_eq_next m.scope m.keyAs_injective with ⟨n, hnext, heq⟩
        rw [heq]
        dsimp only
        apply Step.give
        apply gives_of_draw (hspot _) hnext
        · rfl
        · rfl
        · rfl
        · exact fun s => Engine.aliasOf_insertMethod _ id _ s
        · exact (Program.declared_withMethodAlias _ _).trans (Program.declared_unmark _ _ id)
        · intro s name' hb
          rw [Engine.aliasOf_insertMethod]
          rcases Program.boundAlias_withMethodAlias id _ hb with ⟨hs, hn⟩ | ⟨hs, hb⟩
          · rw [if_pos hs, hn]
            exact Or.inl rfl
          · rw [Program.boundAlias_unmark] at hb
            exact Or.inr ⟨hb, fun he => absurd he hs⟩

/-! ## The passes -/

theorem spot_type {ty : TypeId} {t : TypeSymbol}
    (ht : ∃ t', p.types.get? ty = some t' ∧ t'.declared = t.declared) (name : String) :
    p.spot name (.type ty) = some (t.scope, name) := by
  rcases ht with ⟨t', ht', he⟩
  rw [Program.spot, ht', ← TypeSymbol.agree he TypeSymbol.scope fun _ => rfl]
  rfl

theorem Settled.spot_field (h : Settled p r) {ty : TypeId} {e : FieldId × FieldSymbol}
    (he : e ∈ r.program.fieldsOf ty) (name : String) :
    p.spot name (.field e.1) = some (e.2.scope, name) := by
  have hspot : r.program.spot name (.field e.1) = some (e.2.scope, name) := by
    rw [Program.spot, (Program.mem_fieldsOf.mp he).1]
    rfl
  exact Program.spot_of_declared h.declared hspot

theorem Settled.spot_method (h : Settled p r) {ty : TypeId} {e : MethodId × MethodSymbol}
    (he : e ∈ r.program.methodsOf ty) (name : String) :
    p.spot name (.method e.1) = some (e.2.scope, e.2.keyAs name) := by
  have hspot : r.program.spot name (.method e.1) = some (e.2.scope, e.2.keyAs name) := by
    rw [Program.spot, (Program.mem_methodsOf.mp he).1]
    rfl
  exact Program.spot_of_declared h.declared hspot

theorem Settled.decideHead (h : Settled p r) {e : TypeId × TypeSymbol}
    (he : ∃ t, p.types.get? e.1 = some t ∧ t.declared = e.2.declared) :
    Settled p (r.decideHead e) := by
  have hpackage := h.step (step_decidePackage r e.2)
  have htype := hpackage.step (step_decideType hpackage (spot_type he))
  apply htype.foldl
  intro r' f hf hr'
  exact hr'.step (step_decideField hr' e.2 (htype.spot_field hf))

theorem Settled.discoverType (h : Settled p r) {e : TypeId × TypeSymbol}
    (he : ∃ t, p.types.get? e.1 = some t ∧ t.declared = e.2.declared) :
    Settled p (r.discoverType e) := by
  have hhead := h.decideHead he
  rw [discoverType_eq]
  apply hhead.foldl
  intro r' m hm hr'
  have hdecided := hr'.step (step_decideMethod hr' e.2 (hhead.spot_method hm))
  exact hdecided.step (step_linkMethod _ e.1 e.2 m.2)

theorem Settled.applyEntry (h : Settled p r) (e : TypeId × TypeSymbol) :
    Settled p (r.applyEntry e) := by
  have htype := h.step (step_applyType r e.1 e.2)
  -- the fields listed are those of the program that binding the type left, and so the methods
  have hfields : Settled p (((r.applyType e.1 e.2).program.fieldsOf e.1).foldl (applyField e.2)
      (r.applyType e.1 e.2)) := by
    apply htype.foldl
    intro r' f hf hr'
    exact hr'.step (step_applyField r' e.2 (htype.spot_field hf))
  rw [Run.applyEntry]
  apply hfields.foldl
  intro r' m hm hr'
  exact hr'.step (step_applyMethod r' e.2 (hfields.spot_method hm))

/-- Before the first decision all declared names are taken, and nothing else is known. -/
theorem settled_seed (e : Engine) (p : Program) :
    Settled p { engine := e.reset.seed p.clearAliases, program := p.clearAliases } := by
  have hnone : ∀ s, (e.reset.seed p.clearAliases).aliasOf s = none := by
    intro s
    cases s <;> rfl
  have hholds : ∀ {s x}, ¬ Run.Holds p
      { engine := e.reset.seed p.clearAliases, program := p.clearAliases } s x := by
    intro s x hx
    rcases hx with ⟨name, hname, -⟩
    rw [hnone] at hname
    cases hname
  constructor
  · exact Program.declared_clearAliases
  · rfl
  · exact fun hx => TakenNames.mem_seed_of_declares
      (hx.of_declared Program.declared_clearAliases.symm)
  · intro s name hname
    rw [hnone] at hname
    cases hname
  · exact fun hx => absurd hx hholds
  · exact fun hx => absurd hx hholds
  · exact fun hx => absurd hx hholds
  · intro s name hname
    rw [hnone] at hname
    cases hname
  · intro i j name hi
    cases hi
  · intro s name hname
    rw [Program.boundAlias_clearAliases] at hname
    cases hname

theorem Settled.discover {e : Engine} {p : Program} :
    Settled p (Run.discover { engine := e.reset, program := p.clearAliases }) := by
  have hall : Settled p (p.clearAliases.types.entries.foldl Run.discoverType
      { engine := e.reset.seed p.clearAliases, program := p.clearAliases }) := by
    apply (settled_seed e p).foldl
    intro r entry hentry hr
    apply hr.discoverType
    exact Program.type_of_declared Program.declared_clearAliases (Arena.mem_entries_iff.mp hentry)
  rw [Run.discover]
  dsimp only
  generalize p.clearAliases.types.entries.foldl Run.discoverType _ = r at hall
  apply hall.keeps
  refine ⟨rfl, rfl, fun s => ?_, rfl, Nat.le_refl _, fun s name hb => Or.inl hb⟩
  cases s <;> rfl

/-- When all aliases are bound, every declared name is taken, and every alias takes a spot of its
own. -/
theorem settled_bound (e : Engine) (p : Program) : Settled p (e.reset.bound p) := by
  have hdiscover := Settled.discover (e := e) (p := p)
  rw [Engine.bound, Run.apply]
  apply hdiscover.foldl
  intro r entry _ hr
  exact hr.applyEntry entry

end Run
end Renamer
