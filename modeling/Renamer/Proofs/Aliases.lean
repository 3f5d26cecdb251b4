import Renamer.Proofs.Frames

/-!
# Names of symbols

Types, fields and methods have names in scopes. This file treats the three alike.

* A `SymbolId` is any of them. `Program.spot` is what a symbol takes under a name: a scope, and the
  name in the form that counts there.
* `Run.Settled` is the invariant of a run without presets: every declared name is taken, and every
  alias takes a spot of its own, which no declared name has.
* A step of a run either keeps all aliases (`Run.Keeps`) or gives one symbol a new one
  (`Run.Gives`). Both keep the invariant.
-/

namespace Renamer

/-- A type, a field or a method. -/
inductive SymbolId where
  | type (id : TypeId)
  | field (id : FieldId)
  | method (id : MethodId)
  deriving DecidableEq

/-! ## Spots -/

namespace Program

/-- The declared name of a symbol. -/
def nameOf (p : Program) : SymbolId → Option String
  | .type id => (p.types.get? id).map (·.shortName)
  | .field id => (p.fields.get? id).map (·.name)
  | .method id => (p.methods.get? id).map (·.name)

/-- What a symbol takes under the name `name`. -/
def spot (p : Program) (name : String) : SymbolId → Option (Scope × String)
  | .type id => (p.types.get? id).map fun t => (t.scope, name)
  | .field id => (p.fields.get? id).map fun f => (f.scope, name)
  | .method id => (p.methods.get? id).map fun m => (m.scope, m.keyAs name)

/-- Some symbol takes `x` under its declared name. -/
def Declares (p : Program) (x : Scope × String) : Prop :=
  ∃ s name, p.nameOf s = some name ∧ p.spot name s = some x

/-- The alias that is bound to a member. -/
def boundAlias (p : Program) : SymbolId → Option String
  | .type _ => none
  | .field id => (p.fields.get? id).bind (·.newName)
  | .method id => (p.methods.get? id).bind (·.newName)

variable {p q : Program}

/-- The spots of a symbol are a matter of declarations. -/
theorem spot_of_declared (h : p.declared = q.declared) {name : String} {s : SymbolId}
    {x : Scope × String} (hx : p.spot name s = some x) : q.spot name s = some x := by
  cases s with
  | type id =>
    rcases Option.map_eq_some_iff.mp hx with ⟨t, ht, hspot⟩
    rcases type_of_declared h ht with ⟨t', ht', he⟩
    rw [spot, ht', ← hspot, ← TypeSymbol.agree he TypeSymbol.scope fun _ => rfl]
    rfl
  | field id =>
    rcases Option.map_eq_some_iff.mp hx with ⟨f, hf, hspot⟩
    rcases field_of_declared h hf with ⟨f', hf', he⟩
    rw [spot, hf', ← hspot, ← FieldSymbol.agree he FieldSymbol.scope fun _ => rfl]
    rfl
  | method id =>
    rcases Option.map_eq_some_iff.mp hx with ⟨m, hm, hspot⟩
    rcases method_of_declared h hm with ⟨m', hm', he⟩
    rw [spot, hm', ← hspot, ← MethodSymbol.agree he MethodSymbol.scope fun _ => rfl,
      ← MethodSymbol.agree he (fun m => m.keyAs name) fun _ => rfl]
    rfl

theorem Declares.of_declared (h : p.declared = q.declared) {x : Scope × String}
    (hx : p.Declares x) : q.Declares x := by
  rcases hx with ⟨s, name, hname, hspot⟩
  refine ⟨s, name, ?_, spot_of_declared h hspot⟩
  cases s with
  | type id =>
    rcases Option.map_eq_some_iff.mp hname with ⟨t, ht, hn⟩
    rcases type_of_declared h ht with ⟨t', ht', he⟩
    rw [nameOf, ht', ← hn, ← TypeSymbol.agree he TypeSymbol.shortName fun _ => rfl]
    rfl
  | field id =>
    rcases Option.map_eq_some_iff.mp hname with ⟨f, hf, hn⟩
    rcases field_of_declared h hf with ⟨f', hf', he⟩
    rw [nameOf, hf', ← hn, ← FieldSymbol.agree he FieldSymbol.name fun _ => rfl]
    rfl
  | method id =>
    rcases Option.map_eq_some_iff.mp hname with ⟨m, hm, hn⟩
    rcases method_of_declared h hm with ⟨m', hm', he⟩
    rw [nameOf, hm', ← hn, ← MethodSymbol.agree he MethodSymbol.name fun _ => rfl]
    rfl

/-- The key of a method is declared. -/
theorem declares_key {i : MethodId} {m : MethodSymbol} (hm : p.methods.get? i = some m) :
    p.Declares (m.scope, m.key) := by
  refine ⟨.method i, m.name, ?_, ?_⟩
  · rw [nameOf, hm]
    rfl
  · rw [spot, hm]
    rfl

/-- What is declared is the short name of a type, the name of a field, or the key of a method. -/
theorem declares_iff {x : Scope × String} : p.Declares x ↔
    (∃ t ∈ p.types.toList, x = (t.scope, t.shortName)) ∨
      (∃ f ∈ p.fields.toList, x = (f.scope, f.name)) ∨
      ∃ m ∈ p.methods.toList, x = (m.scope, m.key) := by
  constructor
  · rintro ⟨s, name, hname, hspot⟩
    cases s with
    | type id =>
      obtain ⟨t, ht, rfl⟩ := Option.map_eq_some_iff.mp hname
      rw [spot, ht] at hspot
      exact Or.inl ⟨t, Arena.mem_toList_of_get? ht, (Option.some.inj hspot).symm⟩
    | field id =>
      obtain ⟨f, hf, rfl⟩ := Option.map_eq_some_iff.mp hname
      rw [spot, hf] at hspot
      exact Or.inr (Or.inl ⟨f, Arena.mem_toList_of_get? hf, (Option.some.inj hspot).symm⟩)
    | method id =>
      obtain ⟨m, hm, rfl⟩ := Option.map_eq_some_iff.mp hname
      rw [spot, hm] at hspot
      exact Or.inr (Or.inr ⟨m, Arena.mem_toList_of_get? hm, (Option.some.inj hspot).symm⟩)
  · rintro (⟨t, ht, rfl⟩ | ⟨f, hf, rfl⟩ | ⟨m, hm, rfl⟩)
    · obtain ⟨id, hid⟩ := Arena.exists_get?_of_mem ht
      exact ⟨.type id, t.shortName, by rw [nameOf, hid]; rfl, by rw [spot, hid]; rfl⟩
    · obtain ⟨id, hid⟩ := Arena.exists_get?_of_mem hf
      exact ⟨.field id, f.name, by rw [nameOf, hid]; rfl, by rw [spot, hid]; rfl⟩
    · obtain ⟨id, hid⟩ := Arena.exists_get?_of_mem hm
      exact declares_key hid

end Program

/-! ## Seeding -/

namespace TakenNames

/-- Claiming one name after the other takes them all, and no others. -/
theorem mem_foldl_claim {α : Type} (scope : α → Scope) (name : α → String) (t : TakenNames)
    (l : List α) {x : Scope × String} :
    x ∈ (l.foldl (fun t a => t.claim (scope a) (name a)) t).pairs ↔
      x ∈ t.pairs ∨ ∃ a ∈ l, x = (scope a, name a) := by
  induction l generalizing t with
  | nil => simp
  | cons a l ih =>
    rw [List.foldl_cons, ih, mem_claim]
    simp [or_assoc]

variable {t : TakenNames} {p : Program} {x : Scope × String}

/-- Seeding takes every declared name, and no others. -/
theorem mem_seed : x ∈ (t.seed p).pairs ↔ x ∈ t.pairs ∨ p.Declares x := by
  unfold seed
  rw [mem_foldl_claim, mem_foldl_claim, mem_foldl_claim, Program.declares_iff, or_assoc, or_assoc]

/-- Seeding gives no name back. -/
theorem mem_seed_of_mem (h : x ∈ t.pairs) : x ∈ (t.seed p).pairs := mem_seed.mpr (Or.inl h)

theorem mem_seed_of_declares (h : p.Declares x) : x ∈ (t.seed p).pairs := mem_seed.mpr (Or.inr h)

end TakenNames

/-! ## The invariant -/

namespace Engine

/-- The alias decided for a symbol. -/
def aliasOf (e : Engine) : SymbolId → Option String
  | .type id => e.typeAlias id
  | .field id => e.fieldAlias id
  | .method id => e.methodAlias id

end Engine

namespace Run

/-- The alias of the symbol `s` takes the spot `x`. -/
def Holds (p : Program) (r : Run) (s : SymbolId) (x : Scope × String) : Prop :=
  ∃ name, r.engine.aliasOf s = some name ∧ p.spot name s = some x

/-- What holds throughout a run without presets on a program with the declarations of `p`. -/
structure Settled (p : Program) (r : Run) : Prop where
  declared : r.program.declared = p.declared
  presets : r.engine.presets = {}
  declares_taken : ∀ {x}, p.Declares x → x ∈ r.engine.taken.pairs
  known : ∀ {s name}, r.engine.aliasOf s = some name → ∃ x, p.spot name s = some x
  taken : ∀ {s x}, r.Holds p s x → x ∈ r.engine.taken.pairs
  new : ∀ {s x}, r.Holds p s x → ¬ p.Declares x
  apart : ∀ {s s' x}, r.Holds p s x → r.Holds p s' x → s = s'
  word : ∀ {s name}, r.engine.aliasOf s = some name →
    (∃ n < r.engine.source.issued, name = Word.spell n) ∨
      ∃ ty, s = .type ty ∧ Ident.hasDigit name = false
  methods_apart : ∀ {i j name}, r.engine.methodAlias i = some name →
    r.engine.methodAlias j = some name → i = j
  bound : ∀ {s name}, r.program.boundAlias s = some name → r.engine.aliasOf s = some name

/-- `r'` has all the aliases of `r`, and may have bound some. -/
structure Keeps (r r' : Run) : Prop where
  declared : r'.program.declared = r.program.declared
  presets : r'.engine.presets = r.engine.presets
  aliases : ∀ s, r'.engine.aliasOf s = r.engine.aliasOf s
  taken : r'.engine.taken = r.engine.taken
  issued_le : r.engine.source.issued ≤ r'.engine.source.issued
  bound : ∀ s name, r'.program.boundAlias s = some name →
    r.program.boundAlias s = some name ∨ r.engine.aliasOf s = some name

/-- In `r'` the symbol `s` has the alias `name`, which takes a free spot; all other aliases are
those of `r`. -/
structure Gives (p : Program) (s : SymbolId) (name : String) (r r' : Run) : Prop where
  declared : r'.program.declared = r.program.declared
  presets : r'.engine.presets = r.engine.presets
  aliases : ∀ s', r'.engine.aliasOf s' = if s' = s then some name else r.engine.aliasOf s'
  taken : ∃ x, p.spot name s = some x ∧ x ∉ r.engine.taken.pairs ∧
    ∀ y, y ∈ r'.engine.taken.pairs ↔ y ∈ r.engine.taken.pairs ∨ y = x
  issued_le : r.engine.source.issued ≤ r'.engine.source.issued
  word : (∃ n, r.engine.source.issued ≤ n ∧ n < r'.engine.source.issued ∧ name = Word.spell n) ∨
    ∃ ty, s = .type ty ∧ Ident.hasDigit name = false
  bound : ∀ s' name', r'.program.boundAlias s' = some name' →
    r'.engine.aliasOf s' = some name' ∨
      r.program.boundAlias s' = some name' ∧ (s' = s → r.engine.aliasOf s = none)

variable {p : Program} {r r' r'' : Run} {s : SymbolId} {name : String}

/-- Where all aliases are the same, so are the spots that are held. -/
theorem Holds.of_aliases (h : ∀ a, r'.engine.aliasOf a = r.engine.aliasOf a)
    {x : Scope × String} (hx : r'.Holds p s x) : r.Holds p s x := by
  rcases hx with ⟨name, hname, hspot⟩
  exact ⟨name, (h s).symm.trans hname, hspot⟩

/-- Where one symbol is given an alias, an alias is that one, or it was there before. -/
theorem aliasOf_cases
    (h : ∀ a, r'.engine.aliasOf a = if a = s then some name else r.engine.aliasOf a)
    {a : SymbolId} {name' : String} (ha : r'.engine.aliasOf a = some name') :
    a = s ∧ name' = name ∨ a ≠ s ∧ r.engine.aliasOf a = some name' := by
  rw [h] at ha
  split at ha
  · rename_i heq
    exact Or.inl ⟨heq, (Option.some.inj ha).symm⟩
  · rename_i hne
    exact Or.inr ⟨hne, ha⟩

/-- Where one symbol is given an alias, a held spot is the one that it takes under the alias, or it
was held before. -/
theorem holds_cases
    (h : ∀ a, r'.engine.aliasOf a = if a = s then some name else r.engine.aliasOf a)
    {x : Scope × String} (hspot : p.spot name s = some x) {a : SymbolId} {y : Scope × String}
    (hy : r'.Holds p a y) : a = s ∧ y = x ∨ a ≠ s ∧ r.Holds p a y := by
  rcases hy with ⟨name', hname', hy⟩
  rcases aliasOf_cases h hname' with ⟨rfl, rfl⟩ | ⟨hne, hold⟩
  · exact Or.inl ⟨rfl, Option.some.inj (hy.symm.trans hspot)⟩
  · exact Or.inr ⟨hne, name', hold, hy⟩

theorem Keeps.refl (r : Run) : r.Keeps r :=
  ⟨rfl, rfl, fun _ => rfl, rfl, Nat.le_refl _, fun _ _ h => Or.inl h⟩

theorem Settled.keeps (h : Settled p r) (hk : r.Keeps r') : Settled p r' := by
  constructor
  · rw [hk.declared, h.declared]
  · rw [hk.presets, h.presets]
  · intro x hx
    rw [hk.taken]
    exact h.declares_taken hx
  · intro s name hname
    rw [hk.aliases] at hname
    exact h.known hname
  · intro s x hx
    rw [hk.taken]
    exact h.taken (hx.of_aliases hk.aliases)
  · intro s x hx
    exact h.new (hx.of_aliases hk.aliases)
  · intro s s' x hx hx'
    exact h.apart (hx.of_aliases hk.aliases) (hx'.of_aliases hk.aliases)
  · intro s name hname
    rw [hk.aliases] at hname
    rcases h.word hname with ⟨n, hn, hword⟩ | htype
    · exact Or.inl ⟨n, Nat.lt_of_lt_of_le hn hk.issued_le, hword⟩
    · exact Or.inr htype
  · intro i j name hi hj
    have hi' : r.engine.aliasOf (.method i) = some name := by rw [← hk.aliases]; exact hi
    have hj' : r.engine.aliasOf (.method j) = some name := by rw [← hk.aliases]; exact hj
    exact h.methods_apart hi' hj'
  · intro s name hname
    rw [hk.aliases]
    rcases hk.bound s name hname with hb | ha
    · exact h.bound hb
    · exact ha

/-- The word that a method is given has not been issued before, so that no method has it. -/
theorem Settled.methodAlias_ne_of_gives (h : Settled p r) {i j : MethodId}
    (hg : Gives p (.method i) name r r') : r.engine.methodAlias j ≠ some name := by
  intro hold
  rcases h.word (s := .method j) hold with ⟨k, hk, hword⟩ | ⟨ty, hty, -⟩
  · rcases hg.word with ⟨n, hn, -, hword'⟩ | ⟨ty, hty, -⟩
    · have hkn : k = n := Word.spell_injective (hword.symm.trans hword')
      omega
    · cases hty
  · cases hty

/-- Where a symbol gets a free spot, the invariant is kept: what was held before is taken, and so
differs from the spot. -/
theorem Settled.gives (h : Settled p r) (hg : Gives p s name r r') : Settled p r' := by
  rcases hg.taken with ⟨x, hspot, hfree, htaken⟩
  constructor
  · rw [hg.declared, h.declared]
  · rw [hg.presets, h.presets]
  · intro y hy
    exact (htaken y).mpr (Or.inl (h.declares_taken hy))
  · intro a name' hname'
    rcases aliasOf_cases hg.aliases hname' with ⟨rfl, rfl⟩ | ⟨-, hold⟩
    · exact ⟨x, hspot⟩
    · exact h.known hold
  · intro a y hy
    rw [htaken]
    rcases holds_cases hg.aliases hspot hy with ⟨-, hyx⟩ | ⟨-, hold⟩
    · exact Or.inr hyx
    · exact Or.inl (h.taken hold)
  · intro a y hy hdeclares
    rcases holds_cases hg.aliases hspot hy with ⟨-, rfl⟩ | ⟨-, hold⟩
    · -- a declared spot is taken, and the new one was free
      exact hfree (h.declares_taken hdeclares)
    · exact h.new hold hdeclares
  · intro a b y ha hb
    rcases holds_cases hg.aliases hspot ha with ⟨has, rfl⟩ | ⟨-, ha⟩
    · rcases holds_cases hg.aliases hspot hb with ⟨hbs, -⟩ | ⟨-, hb⟩
      · exact has.trans hbs.symm
      · exact absurd (h.taken hb) hfree
    · rcases holds_cases hg.aliases hspot hb with ⟨-, rfl⟩ | ⟨-, hb⟩
      · exact absurd (h.taken ha) hfree
      · exact h.apart ha hb
  · intro a name' hname'
    rcases aliasOf_cases hg.aliases hname' with ⟨rfl, rfl⟩ | ⟨-, hold⟩
    · rcases hg.word with ⟨n, -, hn, hword⟩ | htype
      · exact Or.inl ⟨n, hn, hword⟩
      · exact Or.inr htype
    · rcases h.word hold with ⟨n, hn, hword⟩ | htype
      · exact Or.inl ⟨n, Nat.lt_of_lt_of_le hn hg.issued_le, hword⟩
      · exact Or.inr htype
  · intro i j name' hi hj
    rcases aliasOf_cases hg.aliases (a := .method i) hi with ⟨rfl, rfl⟩ | ⟨-, hi⟩
    · rcases aliasOf_cases hg.aliases (a := .method j) hj with ⟨hji, -⟩ | ⟨-, hj⟩
      · exact (SymbolId.method.inj hji).symm
      · exact absurd hj (h.methodAlias_ne_of_gives hg)
    · rcases aliasOf_cases hg.aliases (a := .method j) hj with ⟨rfl, rfl⟩ | ⟨-, hj⟩
      · exact absurd hi (h.methodAlias_ne_of_gives hg)
      · exact h.methods_apart hi hj
  · intro a name' hbound
    rcases hg.bound a name' hbound with halias | ⟨hold, hnone⟩
    · exact halias
    · -- what was bound before is not that of `s`, which had no alias
      have halias := h.bound hold
      have hne : a ≠ s := by
        rintro rfl
        rw [hnone rfl] at halias
        cases halias
      rw [hg.aliases, if_neg hne]
      exact halias

end Run
end Renamer
