import Renamer.Proofs.Deciding
import Renamer.Proofs.Passes

/-!
# Steps of a run with presets

What the steps of a run do to aliases, whatever presets it has loaded.

* `Program.presetOf` is the preset of a symbol, found by its identity.
* `Run.Decides` says what deciding a symbol comes to: nothing, its preset, or a fresh alias.
* `Run.Binds` says what binding it comes to: nothing, the alias decided, or a fresh one in its
  place.
* `Pass.keeps_deciding` and `Pass.keeps_binding` say what an invariant of a pass comes to in these
  terms.
-/

namespace Renamer

/-! ## Presets of symbols -/

/-- The section that has the presets of a symbol. -/
def SymbolId.kind : SymbolId → Section
  | .type _ => .types
  | .field _ => .fields
  | .method _ => .methods

/-- When a member more has been passed, a type had been passed before. -/
theorem SymbolId.type_mem_of_kind {done : List SymbolId} {s : SymbolId} (hkind : s.kind ≠ .types)
    {ty : TypeId} (h : .type ty ∈ done ++ [s]) : .type ty ∈ done := by
  refine (List.mem_append.mp h).resolve_right fun hlast => hkind ?_
  rw [← List.mem_singleton.mp hlast]
  rfl

namespace Program

/-- The identity of a symbol. -/
def identityOf (p : Program) : SymbolId → Option String
  | .type id => (p.types.get? id).map (·.fullName)
  | .field id => (p.fields.get? id).bind fun f =>
    (p.types.get? f.owner).map fun t => f.identity t.fullName
  | .method id => (p.methods.get? id).bind fun m =>
    (p.types.get? m.owner).map fun t => m.identity t.fullName

/-- The preset of a symbol. -/
def presetOf (p : Program) (presets : Presets) (s : SymbolId) : Option String :=
  (p.identityOf s).bind (presets.table s.kind).get?

variable {p q : Program}

/-- A symbol keeps its identity where more symbols are added. -/
theorem Extends.identityOf (h : p.Extends q) {s : SymbolId} {identity : String}
    (hs : p.identityOf s = some identity) : q.identityOf s = some identity := by
  cases s with
  | type id =>
    rcases Option.map_eq_some_iff.mp hs with ⟨t, ht, hname⟩
    rcases h.types ht with ⟨t', ht', he⟩
    rw [Program.identityOf, ht', ← hname, ← TypeSymbol.agree he TypeSymbol.fullName fun _ => rfl]
    rfl
  | field id =>
    rcases Option.bind_eq_some_iff.mp hs with ⟨f, hf, howner⟩
    rcases Option.map_eq_some_iff.mp howner with ⟨t, ht, hname⟩
    rcases h.fields hf with ⟨f', hf', hfe⟩
    rcases h.types ht with ⟨t', ht', hte⟩
    rw [← FieldSymbol.agree hfe FieldSymbol.owner fun _ => rfl] at ht'
    rw [Program.identityOf, hf', Option.bind_some, ht', ← hname,
      ← FieldSymbol.agree hfe (fun f => f.identity t.fullName) fun _ => rfl,
      ← TypeSymbol.agree hte TypeSymbol.fullName fun _ => rfl]
    rfl
  | method id =>
    rcases Option.bind_eq_some_iff.mp hs with ⟨m, hm, howner⟩
    rcases Option.map_eq_some_iff.mp howner with ⟨t, ht, hname⟩
    rcases h.methods hm with ⟨m', hm', hme⟩
    rcases h.types ht with ⟨t', ht', hte⟩
    rw [← MethodSymbol.agree hme MethodSymbol.owner fun _ => rfl] at ht'
    rw [Program.identityOf, hm', Option.bind_some, ht', ← hname,
      ← MethodSymbol.agree hme (fun m => m.identity t.fullName) fun _ => rfl,
      ← TypeSymbol.agree hte TypeSymbol.fullName fun _ => rfl]
    rfl

/-- Identities are a matter of declarations. -/
theorem identityOf_of_declared (h : p.declared = q.declared) (s : SymbolId) :
    p.identityOf s = q.identityOf s := by
  ext identity
  exact ⟨(Extends.of_declared h).identityOf, (Extends.of_declared h.symm).identityOf⟩

theorem presetOf_of_declared (h : p.declared = q.declared) (presets : Presets) (s : SymbolId) :
    p.presetOf presets s = q.presetOf presets s := by
  rw [presetOf, presetOf, identityOf_of_declared h]

/-- Package presets are no presets of symbols. -/
theorem presetOf_loadPresets (e : Engine) (presets : Presets) (s : SymbolId) :
    p.presetOf (e.loadPresets presets).presets s = p.presetOf presets s := by
  cases s <;> rfl

theorem ShowsType.presetOf {ty : TypeId} {t : TypeSymbol} (ht : p.ShowsType ty t)
    (presets : Presets) : p.presetOf presets (.type ty) = presets.types.get? t.fullName := by
  rcases ht with ⟨s, hs, hst⟩
  show ((p.types.get? ty).map (·.fullName)).bind presets.types.get? = _
  rw [hs, ← TypeSymbol.agree hst TypeSymbol.fullName fun _ => rfl]
  rfl

theorem ShowsField.presetOf {ty : TypeId} {t : TypeSymbol} {id : FieldId} {f : FieldSymbol}
    (hf : p.ShowsField id f) (ht : p.ShowsType ty t) (howner : f.owner = ty)
    (presets : Presets) :
    p.presetOf presets (.field id) = presets.fields.get? (f.identity t.fullName) := by
  rcases hf with ⟨g, hg, hgf⟩
  rcases ht with ⟨s, hs, hst⟩
  show ((p.fields.get? id).bind fun f => (p.types.get? f.owner).map fun t =>
    f.identity t.fullName).bind presets.fields.get? = _
  rw [hg, Option.bind_some, FieldSymbol.agree hgf FieldSymbol.owner fun _ => rfl, howner, hs,
    ← FieldSymbol.agree hgf (fun f => f.identity t.fullName) fun _ => rfl,
    ← TypeSymbol.agree hst TypeSymbol.fullName fun _ => rfl]
  rfl

theorem ShowsMethod.presetOf {ty : TypeId} {t : TypeSymbol} {id : MethodId} {m : MethodSymbol}
    (hm : p.ShowsMethod id m) (ht : p.ShowsType ty t) (howner : m.owner = ty)
    (presets : Presets) :
    p.presetOf presets (.method id) = presets.methods.get? (m.identity t.fullName) := by
  rcases hm with ⟨n, hn, hnm⟩
  rcases ht with ⟨s, hs, hst⟩
  show ((p.methods.get? id).bind fun m => (p.types.get? m.owner).map fun t =>
    m.identity t.fullName).bind presets.methods.get? = _
  rw [hn, Option.bind_some, MethodSymbol.agree hnm MethodSymbol.owner fun _ => rfl, howner, hs,
    ← MethodSymbol.agree hnm (fun m => m.identity t.fullName) fun _ => rfl,
    ← TypeSymbol.agree hst TypeSymbol.fullName fun _ => rfl]
  rfl

theorem ShowsType.spot {ty : TypeId} {t : TypeSymbol} (ht : p.ShowsType ty t) (name : String) :
    p.spot name (.type ty) = some (t.scope, name) :=
  Run.spot_type ht name

theorem ShowsField.spot {id : FieldId} {f : FieldSymbol} (hf : p.ShowsField id f)
    (name : String) : p.spot name (.field id) = some (f.scope, name) := by
  rcases hf with ⟨g, hg, hgf⟩
  rw [Program.spot, hg, ← FieldSymbol.agree hgf FieldSymbol.scope fun _ => rfl]
  rfl

theorem ShowsMethod.spot {id : MethodId} {m : MethodSymbol} (hm : p.ShowsMethod id m)
    (name : String) : p.spot name (.method id) = some (m.scope, m.keyAs name) := by
  rcases hm with ⟨n, hn, hnm⟩
  rw [Program.spot, hn, ← MethodSymbol.agree hnm MethodSymbol.scope fun _ => rfl,
    ← MethodSymbol.agree hnm (fun m => m.keyAs name) fun _ => rfl]
  rfl

/-- What is declared is there, whatever aliases have been bound since. -/
theorem ShowsField.exists_get? {id : FieldId} {f : FieldSymbol} (hf : p.ShowsField id f)
    {q : Program} (hq : q.declared = p.declared) : ∃ g, q.fields.get? id = some g := by
  obtain ⟨g, hg, -⟩ := hf
  obtain ⟨g', hg', -⟩ := field_of_declared hq.symm hg
  exact ⟨g', hg'⟩

theorem ShowsMethod.exists_get? {id : MethodId} {m : MethodSymbol} (hm : p.ShowsMethod id m)
    {q : Program} (hq : q.declared = p.declared) : ∃ n, q.methods.get? id = some n := by
  obtain ⟨n, hn, -⟩ := hm
  obtain ⟨n', hn', -⟩ := method_of_declared hq.symm hn
  exact ⟨n', hn'⟩

theorem ShowsType.nameOf {ty : TypeId} {t : TypeSymbol} (ht : p.ShowsType ty t) :
    p.nameOf (.type ty) = some t.shortName := by
  rcases ht with ⟨s, hs, hst⟩
  rw [Program.nameOf, hs, ← TypeSymbol.agree hst TypeSymbol.shortName fun _ => rfl]
  rfl

theorem ShowsField.nameOf {id : FieldId} {f : FieldSymbol} (hf : p.ShowsField id f) :
    p.nameOf (.field id) = some f.name := by
  rcases hf with ⟨g, hg, hgf⟩
  rw [Program.nameOf, hg, ← FieldSymbol.agree hgf FieldSymbol.name fun _ => rfl]
  rfl

theorem ShowsMethod.nameOf {id : MethodId} {m : MethodSymbol} (hm : p.ShowsMethod id m) :
    p.nameOf (.method id) = some m.name := by
  rcases hm with ⟨n, hn, hnm⟩
  rw [Program.nameOf, hn, ← MethodSymbol.agree hnm MethodSymbol.name fun _ => rfl]
  rfl

/-! ## Bound aliases -/

theorem boundAlias_withFieldAlias_eq {id : FieldId} {f : FieldSymbol}
    (hf : p.fields.get? id = some f) (name : String) (s : SymbolId) :
    (p.withFieldAlias id name).boundAlias s =
      if s = .field id then some name else p.boundAlias s := by
  cases s with
  | type i => rfl
  | method i => rfl
  | field i =>
    show ((p.withFieldAlias id name).fields.get? i).bind (·.newName) = _
    rw [withFieldAlias, Arena.get?_modify]
    by_cases hi : id = i
    · rw [if_pos hi, ← hi, hf, if_pos rfl]
      rfl
    · rw [if_neg hi, if_neg fun he => hi (SymbolId.field.inj he).symm]
      rfl

theorem boundAlias_withMethodAlias_eq {id : MethodId} {m : MethodSymbol}
    (hm : p.methods.get? id = some m) (name : String) (s : SymbolId) :
    (p.withMethodAlias id name).boundAlias s =
      if s = .method id then some name else p.boundAlias s := by
  cases s with
  | type i => rfl
  | field i => rfl
  | method i =>
    show ((p.withMethodAlias id name).methods.get? i).bind (·.newName) = _
    rw [withMethodAlias, Arena.get?_modify]
    by_cases hi : id = i
    · rw [if_pos hi, ← hi, hm, if_pos rfl]
      rfl
    · rw [if_neg hi, if_neg fun he => hi (SymbolId.method.inj he).symm]
      rfl

theorem boundAlias_withoutSourceFile (ty : TypeId) (s : SymbolId) :
    (p.withoutSourceFile ty).boundAlias s = p.boundAlias s := by
  cases s <;> rfl

end Program

/-! ## Draws -/

namespace Run

/-! ## Changes -/

/-- `r'` has the aliases of `r` and what they depend on; it may have used up words, noted findings
and decided packages. -/
structure Leaves (r r' : Run) : Prop where
  declared : r'.program.declared = r.program.declared
  policy : r'.engine.policy = r.engine.policy
  presets : r'.engine.presets = r.engine.presets
  aliases : ∀ s, r'.engine.aliasOf s = r.engine.aliasOf s
  taken : r'.engine.taken = r.engine.taken

/-- In `r'` the symbol `s` has the alias `name`, which is taken; all other aliases are those of
`r`. -/
structure Assigns (p : Program) (s : SymbolId) (name : String) (r r' : Run) : Prop where
  declared : r'.program.declared = r.program.declared
  policy : r'.engine.policy = r.engine.policy
  presets : r'.engine.presets = r.engine.presets
  aliases : ∀ s', r'.engine.aliasOf s' = if s' = s then some name else r.engine.aliasOf s'
  taken : ∃ x, p.spot name s = some x ∧
    ∀ y, y ∈ r'.engine.taken.pairs ↔ y ∈ r.engine.taken.pairs ∨ y = x

/-- From `r` to `r'` no word is used up and no alias found unusable. -/
structure Calm (r r' : Run) : Prop where
  source : r'.engine.source = r.engine.source
  findings : ∀ d ∈ r'.engine.findings, d ∈ r.engine.findings ∨ d.code ≠ .unusableAlias

/-- `r` and `r'` have bound the same aliases to members. -/
def SameBound (r r' : Run) : Prop := ∀ s, r'.program.boundAlias s = r.program.boundAlias s

/-- `r'` has bound `name` to the member `s`, and all else as `r`. -/
def BoundAs (s : SymbolId) (name : String) (r r' : Run) : Prop :=
  ∀ s', r'.program.boundAlias s' = if s' = s then some name else r.program.boundAlias s'

/-- `name` is a fresh name for `s`: it is free, and it is a word or may be written as it is. -/
structure IsFresh (p : Program) (r : Run) (s : SymbolId) (name : String) : Prop where
  free : ∀ x, p.spot name s = some x → x ∉ r.engine.taken.pairs
  good : (∃ n, Ident.isReservedWord (Word.spell n) = false ∧ name = Word.spell n) ∨
    r.engine.policy.accepts name = true

variable {p : Program} {r r' : Run}

theorem Leaves.refl (r : Run) : r.Leaves r := ⟨rfl, rfl, rfl, fun _ => rfl, rfl⟩

theorem Calm.refl (r : Run) : r.Calm r := ⟨rfl, fun _ => Or.inl⟩

/-- A fresh name holds no digit. -/
theorem IsFresh.hasDigit {s : SymbolId} {name : String} (h : r.IsFresh p s name) :
    Ident.hasDigit name = false := by
  rcases h.good with ⟨n, -, hword⟩ | haccepts
  · rw [hword]
    exact Word.hasDigit_spell n
  · exact Policy.hasDigit_of_accepts haccepts

/-- A word that was drawn for a symbol is fresh. -/
theorem isFresh_of_isNext {s : SymbolId} {scope : Scope} {form : String → String} {n : Nat}
    (hspot : p.spot (Word.spell n) s = some (scope, form (Word.spell n)))
    (hnext : r.engine.source.IsNext (fun name => r.engine.taken.isFree scope (form name)) n) :
    r.IsFresh p s (Word.spell n) where
  free := by
    intro x hx
    rw [hspot] at hx
    cases hx
    exact TakenNames.isFree_eq_true_iff.mp hnext.accepted
  good := Or.inl ⟨n, hnext.not_reserved, rfl⟩

/-! ## Deciding -/

/-- The symbol `s` calls for a fresh alias: it has no preset and a name that must be replaced, or it
is a type with a preset that cannot be used. -/
def NeedsFresh (p : Program) (r : Run) (s : SymbolId) : Prop :=
  p.presetOf r.engine.presets s = none ∧
      (∃ name, p.nameOf s = some name ∧ r.engine.rejects name = true) ∨
    s.kind = .types ∧ ∃ preset, p.presetOf r.engine.presets s = some preset ∧
      r.engine.policy.accepts preset = false

/-- A preset is passed over only where it cannot be used. -/
theorem NeedsFresh.unusable {s : SymbolId} (h : r.NeedsFresh p s) {preset : String}
    (hpreset : p.presetOf r.engine.presets s = some preset) :
    r.engine.policy.accepts preset = false := by
  rcases h with ⟨hnone, -⟩ | ⟨-, preset', hpreset', hrefused⟩
  · rw [hpreset] at hnone
    cases hnone
  · rw [hpreset] at hpreset'
    cases hpreset'
    exact hrefused

/-- What deciding the symbol `s` comes to: nothing, its preset, or a fresh alias. -/
inductive Decides (p : Program) (s : SymbolId) (r : Run) : Run → Prop
  | keep : (r.engine.aliasOf s).isSome = true ∨ p.presetOf r.engine.presets s = none ∧
        (∀ name, p.nameOf s = some name → r.engine.rejects name = false) →
      Decides p s r r
  | preset {r' : Run} {name : String} : p.presetOf r.engine.presets s = some name →
      (s.kind = .types → r.engine.policy.accepts name = true) → r.Assigns p s name r' →
      r.SameBound r' → r.Calm r' → Decides p s r r'
  | fresh {r' : Run} {name : String} : r.NeedsFresh p s → r.IsFresh p s name →
      r.Assigns p s name r' → r.SameBound r' → Decides p s r r'

/-- The engine with an alias recorded, seen as a change of the run. -/
theorem assigns_of_engine {s : SymbolId} {scope : Scope} {name : String} {key : String}
    (hspot : p.spot name s = some (scope, key)) {e : Engine} {q : Program}
    (hdeclared : q.declared = r.program.declared) (hpolicy : e.policy = r.engine.policy)
    (hpresets : e.presets = r.engine.presets)
    (haliases : ∀ s', e.aliasOf s' = if s' = s then some name else r.engine.aliasOf s')
    (htaken : ∀ y, y ∈ e.taken.pairs ↔ y ∈ r.engine.taken.pairs ∨ y = (scope, key)) :
    r.Assigns p s name { engine := e, program := q } :=
  ⟨hdeclared, hpolicy, hpresets, haliases, _, hspot, htaken⟩

/-- That all has been decided is noted apart from the aliases. -/
theorem leaves_discovered (r : Run) :
    r.Leaves { r with engine := { r.engine with discovered := true } } := by
  refine ⟨rfl, rfl, rfl, fun s => ?_, rfl⟩
  cases s <;> rfl

/-- Taking all declared names decides nothing. -/
theorem aliasOf_seed (e : Engine) (p : Program) (s : SymbolId) :
    (e.seed p).aliasOf s = e.aliasOf s := by
  cases s <;> rfl

theorem leaves_decidePackage (r : Run) (t : TypeSymbol) :
    r.Leaves { r with engine := r.engine.decidePackage t } := by
  rcases r.engine.decidePackage_eq t with ⟨packages, source, -, -, heq⟩
  rw [heq]
  refine ⟨rfl, rfl, rfl, fun s => ?_, rfl⟩
  cases s <;> rfl

theorem decides_nameType {ty : TypeId} {t : TypeSymbol} (ht : p.ShowsType ty t)
    (hneeds : r.NeedsFresh p (.type ty)) : Decides p (.type ty) r (r.nameType ty t) := by
  have hnames := namesType_nameType r ty t
  generalize r.nameType ty t = r' at hnames
  cases hnames with
  | @afterFile name _ hfile =>
    have hfresh : r.IsFresh p (.type ty) name := by
      refine ⟨fun x hx => ?_, Or.inr hfile.accepted⟩
      rw [ht.spot] at hx
      cases hx
      exact hfile.free
    refine Decides.fresh hneeds hfresh ?_ (Program.boundAlias_withoutSourceFile ty)
    refine assigns_of_engine (ht.spot name) (Program.declared_withoutSourceFile ty) rfl rfl
      (fun s => ?_) fun y => TakenNames.mem_claim
    rw [Engine.aliasOf_recordType]
    cases s <;> rfl
  | draw hnext =>
    refine Decides.fresh hneeds (isFresh_of_isNext (ht.spot _) hnext) ?_ fun s => rfl
    refine assigns_of_engine (ht.spot _) rfl rfl rfl (fun s => ?_) fun y => TakenNames.mem_claim
    rw [Engine.aliasOf_recordType]
    cases s <;> rfl

theorem decides_decideType {ty : TypeId} {t : TypeSymbol} (ht : p.ShowsType ty t) :
    Decides p (.type ty) r (r.decideType ty t) := by
  have hpresetOf := ht.presetOf r.engine.presets
  unfold decideType
  split
  · rename_i preset hpreset
    rw [hpreset] at hpresetOf
    rw [Engine.usableOr]
    cases haccepts : r.engine.policy.accepts preset with
    | true =>
      refine Decides.preset hpresetOf (fun _ => haccepts) ?_ (fun s => rfl) ⟨rfl, fun _ => Or.inl⟩
      refine assigns_of_engine (ht.spot preset) rfl rfl rfl (fun s => ?_)
        fun y => TakenNames.mem_claim
      rw [Engine.aliasOf_recordType]
      cases s <;> rfl
    | false =>
      rcases r.engine.drawAs_eq_next t.scope Function.injective_id with ⟨n, hnext, heq⟩
      rw [if_neg Bool.false_ne_true, Engine.draw, heq]
      dsimp only
      refine Decides.fresh (Or.inr ⟨rfl, preset, hpresetOf, haccepts⟩)
        (isFresh_of_isNext (ht.spot _) hnext) ?_ fun s => rfl
      · refine assigns_of_engine (ht.spot _) rfl rfl rfl (fun s => ?_) fun y => ?_
        · rw [Engine.aliasOf_recordType]
          cases s <;> rfl
        · -- the draw has taken the name already
          show y ∈ ((r.engine.taken.claim _ _).claim _ _).pairs ↔ _
          rw [TakenNames.mem_claim, TakenNames.mem_claim, id, or_assoc, or_self]
  · rename_i hnone
    rw [hnone] at hpresetOf
    split
    · rename_i hskip
      rw [Bool.or_eq_true, Bool.not_eq_true'] at hskip
      rcases hskip with hknown | haccepted
      · refine Decides.keep (Or.inl ?_)
        show ((r.engine.types.get? ty).map (·.newName)).isSome = true
        rw [Option.isSome_map]
        exact hknown
      · refine Decides.keep (Or.inr ⟨hpresetOf, fun name hname => ?_⟩)
        rw [ht.nameOf] at hname
        cases hname
        exact haccepted
    · rename_i hneeds
      rw [Bool.or_eq_true, Bool.not_eq_true', not_or, Bool.not_eq_false] at hneeds
      exact decides_nameType ht (Or.inl ⟨hpresetOf, t.shortName, ht.nameOf, hneeds.2⟩)

theorem decides_decideField {ty : TypeId} {t : TypeSymbol} {id : FieldId} {f : FieldSymbol}
    (ht : p.ShowsType ty t) (hf : p.ShowsField id f) (howner : f.owner = ty) :
    Decides p (.field id) r (decideField t r (id, f)) := by
  have hpresetOf := hf.presetOf ht howner r.engine.presets
  unfold decideField
  dsimp only
  split
  · rename_i hknown
    exact Decides.keep (Or.inl hknown)
  · split
    · rename_i preset hpreset
      rw [hpreset] at hpresetOf
      refine Decides.preset hpresetOf (fun hkind => by cases hkind) ?_ (fun s => rfl)
        ⟨rfl, fun _ => Or.inl⟩
      exact assigns_of_engine (hf.spot preset) rfl rfl rfl
        (fun s => Engine.aliasOf_insertField _ id _ s) fun y => TakenNames.mem_claim
    · rename_i hnone
      rw [hnone] at hpresetOf
      split
      · rename_i hrejected
        rcases r.engine.drawAs_eq_next f.scope Function.injective_id with ⟨n, hnext, heq⟩
        rw [Engine.draw, heq]
        dsimp only
        refine Decides.fresh (Or.inl ⟨hpresetOf, f.name, hf.nameOf, hrejected⟩)
          (isFresh_of_isNext (hf.spot _) hnext) ?_ fun s => rfl
        · exact assigns_of_engine (hf.spot _) rfl rfl rfl
            (fun s => Engine.aliasOf_insertField _ id _ s) fun y => TakenNames.mem_claim
      · rename_i haccepted
        refine Decides.keep (Or.inr ⟨hpresetOf, fun name hname => ?_⟩)
        rw [hf.nameOf] at hname
        cases hname
        simpa using haccepted

theorem decides_decideMethod {ty : TypeId} {t : TypeSymbol} {id : MethodId} {m : MethodSymbol}
    (ht : p.ShowsType ty t) (hm : p.ShowsMethod id m) (howner : m.owner = ty) :
    Decides p (.method id) r (decideMethod t r (id, m)) := by
  have hpresetOf := hm.presetOf ht howner r.engine.presets
  unfold decideMethod
  dsimp only
  split
  · rename_i hknown
    exact Decides.keep (Or.inl hknown)
  · split
    · rename_i preset hpreset
      rw [hpreset] at hpresetOf
      refine Decides.preset hpresetOf (fun hkind => by cases hkind) ?_
        (Program.boundAlias_withPresetMark id true) ⟨rfl, fun _ => Or.inl⟩
      exact assigns_of_engine (hm.spot preset) (Program.declared_withPresetMark id true) rfl rfl
        (fun s => Engine.aliasOf_insertMethod _ id _ s) fun y => TakenNames.mem_claim
    · rename_i hnone
      rw [hnone] at hpresetOf
      split
      · rename_i hrejected
        rcases r.engine.drawAs_eq_next m.scope m.keyAs_injective with ⟨n, hnext, heq⟩
        rw [heq]
        dsimp only
        refine Decides.fresh (Or.inl ⟨hpresetOf, m.name, hm.nameOf, hrejected⟩)
          (isFresh_of_isNext (hm.spot _) hnext) ?_ fun s => rfl
        · exact assigns_of_engine (hm.spot _) rfl rfl rfl
            (fun s => Engine.aliasOf_insertMethod _ id _ s) fun y => TakenNames.mem_claim
      · rename_i haccepted
        refine Decides.keep (Or.inr ⟨hpresetOf, fun name hname => ?_⟩)
        rw [hm.nameOf] at hname
        cases hname
        simpa using haccepted

theorem leaves_linkMethod (r : Run) (ty : TypeId) (t : TypeSymbol) (m : MethodSymbol) :
    r.Leaves (r.linkMethod ty t m) ∧ r.SameBound (r.linkMethod ty t m) ∧
      r.Calm (r.linkMethod ty t m) := by
  unfold linkMethod
  split
  · refine ⟨⟨rfl, rfl, rfl, fun s => ?_, rfl⟩, fun s => rfl, rfl, fun d hd => ?_⟩
    · cases s <;> rfl
    · -- what linking finds are diamonds
      rcases List.mem_append.mp hd with hold | hnew
      · exact Or.inl hold
      · rcases List.mem_map.mp hnew with ⟨pair, -, rfl⟩
        exact Or.inr fun hcode => by cases hcode
  · exact ⟨Leaves.refl r, fun s => rfl, Calm.refl r⟩

/-! ## Binding -/

/-- What binding the member `s` comes to: nothing, the alias decided, or a fresh one in its
place. -/
inductive Binds (p : Program) (s : SymbolId) (r : Run) : Run → Prop
  | skip : r.engine.aliasOf s = none ∨ r.engine.aliasOf s = some "" → Binds p s r r
  | bind {r' : Run} {name : String} : r.engine.aliasOf s = some name → name ≠ "" →
      r.engine.policy.accepts name = true → r.Leaves r' → BoundAs s name r r' → r.Calm r' →
      Binds p s r r'
  | redraw {r' : Run} {old name : String} : r.engine.aliasOf s = some old → old ≠ "" →
      r.engine.policy.accepts old = false → r.IsFresh p s name → r.Assigns p s name r' →
      BoundAs s name r r' → Binds p s r r'

theorem leaves_applyType (r : Run) (ty : TypeId) (t : TypeSymbol) :
    r.Leaves (r.applyType ty t) ∧ r.SameBound (r.applyType ty t) ∧ r.Calm (r.applyType ty t) := by
  have hrecalls := Engine.recalls_fullName r.engine r.program ty t
  have hengine : (r.applyType ty t).engine = (r.engine.fullName r.program ty t).2 := rfl
  refine ⟨⟨(spares_applyType r ty t).declared, ?_, ?_, fun s => hrecalls.aliasOf s, ?_⟩,
    fun s => ?_, ?_, fun d hd => Or.inl ?_⟩
  · rw [hengine, hrecalls.rest]
  · rw [hengine, hrecalls.rest]
  · rw [hengine, hrecalls.rest]
  · unfold applyType
    dsimp only
    split
    · cases s <;> rfl
    · rfl
  · rw [hengine, hrecalls.rest]
  · rw [hengine, hrecalls.rest] at hd
    exact hd

theorem binds_applyField {t : TypeSymbol} {id : FieldId} {f : FieldSymbol}
    (hf : p.ShowsField id f) (hdeclared : r.program.declared = p.declared) :
    Binds p (.field id) r (applyField t r (id, f)) := by
  obtain ⟨g, hg⟩ := hf.exists_get? hdeclared
  unfold applyField
  dsimp only
  split
  · rename_i hnone
    exact Binds.skip (Or.inl hnone)
  · rename_i name hname
    have halias : r.engine.aliasOf (.field id) = some name := hname
    split
    · rename_i hempty
      exact Binds.skip (Or.inr (String.isEmpty_iff.mp hempty ▸ halias))
    · rename_i hempty
      have hne : name ≠ "" := fun heq => hempty (String.isEmpty_iff.mpr heq)
      unfold Engine.usableOr
      split
      · rename_i haccepts
        exact Binds.bind halias hne haccepts
          ⟨Program.declared_withFieldAlias _ _, rfl, rfl,
            Engine.aliasOf_insertField_self halias, rfl⟩
          (Program.boundAlias_withFieldAlias_eq hg name) ⟨rfl, fun _ => Or.inl⟩
      · rename_i hrefused
        rcases r.engine.drawAs_eq_next f.scope Function.injective_id with ⟨n, hnext, heq⟩
        rw [Engine.draw, heq]
        dsimp only
        refine Binds.redraw halias hne (by simpa using hrefused)
          (isFresh_of_isNext (hf.spot _) hnext) ?_ (Program.boundAlias_withFieldAlias_eq hg _)
        exact assigns_of_engine (hf.spot _) (Program.declared_withFieldAlias _ _) rfl rfl
          (fun s => Engine.aliasOf_insertField _ id _ s) fun y => TakenNames.mem_claim

theorem binds_applyMethod {t : TypeSymbol} {id : MethodId} {m : MethodSymbol}
    (hm : p.ShowsMethod id m) (hdeclared : r.program.declared = p.declared) :
    Binds p (.method id) r (applyMethod t r (id, m)) := by
  have hbound : ∀ (c : Prop) [Decidable c] (name : String), BoundAs (.method id) name r
      { r with program :=
        (if c then r.program.withPresetMark id false else r.program).withMethodAlias id name } := by
    intro c _ name s
    obtain ⟨n, hn⟩ := hm.exists_get? ((Program.declared_unmark _ c id).trans hdeclared)
    rw [Program.boundAlias_withMethodAlias_eq hn, Program.boundAlias_unmark]
  have hrebound : ∀ (c : Prop) [Decidable c] (name : String),
      ((if c then r.program.withPresetMark id false else r.program).withMethodAlias
        id name).declared = r.program.declared := fun c _ name =>
    (Program.declared_withMethodAlias id name).trans (Program.declared_unmark _ c id)
  unfold applyMethod
  dsimp only
  split
  · rename_i hnone
    exact Binds.skip (Or.inl hnone)
  · rename_i name hname
    have halias : r.engine.aliasOf (.method id) = some name := hname
    split
    · rename_i hempty
      exact Binds.skip (Or.inr (String.isEmpty_iff.mp hempty ▸ halias))
    · rename_i hempty
      have hne : name ≠ "" := fun heq => hempty (String.isEmpty_iff.mpr heq)
      unfold Engine.usableOr
      split
      · rename_i haccepts
        exact Binds.bind halias hne haccepts
          ⟨hrebound _ name, rfl, rfl, Engine.aliasOf_insertMethod_self halias, rfl⟩ (hbound _ name)
          ⟨rfl, fun _ => Or.inl⟩
      · rename_i hrefused
        rcases r.engine.drawAs_eq_next m.scope m.keyAs_injective with ⟨k, hnext, heq⟩
        rw [heq]
        dsimp only
        refine Binds.redraw halias hne (by simpa using hrefused)
          (isFresh_of_isNext (hm.spot _) hnext) ?_ (hbound _ _)
        exact assigns_of_engine (hm.spot _) (hrebound _ _) rfl rfl
          (fun s => Engine.aliasOf_insertMethod _ id _ s) fun y => TakenNames.mem_claim

end Run

/-! ## Both passes -/

namespace Pass

variable {p : Program} {motive motive' : List SymbolId → Run → Prop}

/-- The pass that decides keeps what is kept when a type is decided with its package, a member is
decided, and a method is linked. -/
theorem keeps_deciding (hdeclared : ∀ {done r}, motive done r → r.program.declared = p.declared)
    (htype : ∀ {done rest r ty t}, p.walk = done ++ SymbolId.type ty :: rest → p.ShowsType ty t →
      motive done r → motive (done ++ [SymbolId.type ty])
        (Run.decideType { r with engine := r.engine.decidePackage t } ty t))
    (hmember : ∀ {done rest s r r'}, p.walk = done ++ s :: rest → s.kind ≠ .types →
      Run.Decides p s r r' → r.SparesTypes r' → motive done r → motive (done ++ [s]) r')
    (hlink : ∀ {done r r'}, r.Leaves r' → r.SameBound r' → r.Calm r' → r.SparesTypes r' →
      motive done r → motive done r') : deciding.Keeps p motive where
  declared := hdeclared
  type := by
    intro done rest r ty t hwalk ht h
    dsimp only [deciding]
    exact htype hwalk ht h
  field := by
    intro done rest r ty t id f hwalk ht hf howner h
    exact hmember hwalk (fun heq => by cases heq) (Run.decides_decideField ht hf howner)
      (Run.sparesTypes_decideField t r (id, f)) h
  method := by
    intro done rest r ty t id m hwalk ht hm howner h
    have hdecided := hmember hwalk (fun heq => by cases heq)
      (Run.decides_decideMethod ht hm howner) (Run.sparesTypes_decideMethod t r (id, m)) h
    rcases Run.leaves_linkMethod (Run.decideMethod t r (id, m)) ty t m with ⟨hl, hb, hc⟩
    exact hlink hl hb hc (Run.sparesTypes_linkMethod ty t _ m) hdecided

/-- The pass that binds keeps what is kept when a type and when a member is bound. -/
theorem keeps_binding (hdeclared : ∀ {done r}, motive done r → r.program.declared = p.declared)
    (htype : ∀ {done rest r ty t}, p.walk = done ++ SymbolId.type ty :: rest → p.ShowsType ty t →
      motive done r → motive (done ++ [SymbolId.type ty]) (r.applyType ty t))
    (hmember : ∀ {done rest s r r'}, p.walk = done ++ s :: rest → s.kind ≠ .types →
      Run.Binds p s r r' → r.SparesTypes r' → motive done r → motive (done ++ [s]) r') :
    binding.Keeps p motive where
  declared := hdeclared
  type := htype
  field := by
    intro done rest r ty t id f hwalk _ hf _ h
    exact hmember hwalk (fun heq => by cases heq) (Run.binds_applyField hf (hdeclared h))
      (Run.sparesTypes_applyField t r (id, f)) h
  method := by
    intro done rest r ty t id m hwalk _ hm _ h
    exact hmember hwalk (fun heq => by cases heq) (Run.binds_applyMethod hm (hdeclared h))
      (Run.sparesTypes_applyMethod t r (id, m)) h

/-- What the pass that binds keeps holds of a run up to unification, if it follows from what the
pass that decides keeps. -/
theorem Keeps.bound (h : deciding.Keeps p motive) (h' : binding.Keeps p motive') {e : Engine}
    (hstart : motive [] { engine := e.seed p.clearAliases, program := p.clearAliases })
    (hdecided : ∀ {r}, motive p.walk r →
      motive' [] { r with engine := { r.engine with discovered := true } }) :
    motive' p.walk (e.bound p) := by
  obtain ⟨r, hr, heq⟩ := h.discover hstart
  refine h'.apply ?_
  rw [heq]
  exact hdecided hr

end Pass
end Renamer
