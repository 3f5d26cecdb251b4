import Renamer.Proofs.Endings

/-!
# Exported presets

What a run exports are the aliases that it leaves behind: where no two symbols have one identity,
every symbol finds its alias among the exported presets, and a symbol without alias finds none.
-/

namespace Renamer

/-! ## Identities -/

namespace Program

/-- No two types, no two fields and no two methods have one identity. -/
def DistinctIdentities (p : Program) : Prop :=
  ∀ a ∈ p.walk, ∀ b ∈ p.walk, a.kind = b.kind → p.identityOf a = p.identityOf b → a = b

instance (p : Program) : Decidable p.DistinctIdentities :=
  inferInstanceAs (Decidable (∀ a ∈ p.walk, ∀ b ∈ p.walk, a.kind = b.kind →
    p.identityOf a = p.identityOf b → a = b))

variable {p : Program} {s : SymbolId} {identity : String}

/-- Every symbol has an identity. -/
theorem exists_identityOf (hp : p.WellFormed) (hs : s ∈ p.walk) :
    ∃ identity, p.identityOf s = some identity := by
  rcases cases_of_mem_walk hs with ⟨ty, t, rfl, ht⟩ | ⟨id, f, rfl, hf⟩ | ⟨id, m, rfl, hm⟩
  · exact ⟨t.fullName, by rw [identityOf, ht]; rfl⟩
  · rcases hp.field_owner hf with ⟨t, ht⟩
    exact ⟨f.identity t.fullName, by rw [identityOf, hf, Option.bind_some, ht]; rfl⟩
  · rcases hp.method_owner hm with ⟨t, ht⟩
    exact ⟨m.identity t.fullName, by rw [identityOf, hm, Option.bind_some, ht]; rfl⟩

/-- What has an identity is a symbol of the program. -/
theorem mem_walk_of_identityOf (hp : p.WellFormed) (hs : p.identityOf s = some identity) :
    s ∈ p.walk := by
  cases s with
  | type id =>
    rcases Option.map_eq_some_iff.mp hs with ⟨t, ht, -⟩
    exact mem_walk_type ht
  | field id =>
    rcases Option.bind_eq_some_iff.mp hs with ⟨f, hf, -⟩
    exact mem_walk_field hp hf
  | method id =>
    rcases Option.bind_eq_some_iff.mp hs with ⟨m, hm, -⟩
    exact mem_walk_method hp hm

/-! ## Entries -/

/-- Symbols with their aliases, as they are saved. -/
def entriesFor (p : Program) (l : List (SymbolId × String)) : List (String × String) :=
  l.map fun e => ((p.identityOf e.1).getD "", e.2)

/-- Of symbols of one kind every one finds its alias. -/
theorem get?_entriesFor (hp : p.WellFormed) (hid : p.DistinctIdentities)
    {l : List (SymbolId × String)} (hl : ∀ e ∈ l, e.1 ∈ p.walk ∧ e.1.kind = s.kind)
    (hnodup : (l.map Prod.fst).Nodup) (hs : p.identityOf s = some identity) {name : String} :
    (Table.ofList (p.entriesFor l)).get? identity = some name ↔ (s, name) ∈ l := by
  have hsame : ∀ {a b}, a ∈ p.walk → b ∈ p.walk → a.kind = b.kind →
      (p.identityOf a).getD "" = (p.identityOf b).getD "" → a = b := by
    intro a b ha hb hkind heq
    rcases exists_identityOf hp ha with ⟨i, hi⟩
    rcases exists_identityOf hp hb with ⟨j, hj⟩
    rw [hi, hj] at heq
    exact hid a ha b hb hkind (by rw [hi, hj]; exact congrArg some heq)
  have hkeys : ((p.entriesFor l).map Prod.fst).Nodup := by
    rw [entriesFor, List.map_map]
    refine List.pairwise_map.mpr ((List.pairwise_map.mp hnodup).imp_of_mem ?_)
    intro a b ha hb hne heq
    rcases hl a ha with ⟨hamem, hakind⟩
    rcases hl b hb with ⟨hbmem, hbkind⟩
    exact hne (hsame hamem hbmem (hakind.trans hbkind.symm) heq)
  rw [Table.get?_ofList hkeys, entriesFor, List.mem_map]
  constructor
  · intro h
    rcases h with ⟨⟨a, name'⟩, ha, heq⟩
    rcases Prod.mk.inj heq with ⟨hkey, hname⟩
    rcases hl _ ha with ⟨hamem, hakind⟩
    have has : a = s := hsame hamem (mem_walk_of_identityOf hp hs) hakind (by rw [hkey, hs]; rfl)
    rw [← has, ← hname]
    exact ha
  · intro h
    exact ⟨(s, name), h, by rw [hs]; rfl⟩

end Program

namespace Table

variable {α β : Type} {symbol : α → SymbolId} {text : β → String}

/-- The entries of a table as symbols with aliases. -/
def symbols (t : Table α β) (symbol : α → SymbolId) (text : β → String) :
    List (SymbolId × String) :=
  t.toList.map fun e => (symbol e.1, text e.2)

theorem mem_symbols [DecidableEq α] (t : Table α β) (hsymbol : Function.Injective symbol) {a : α}
    {name : String} :
    (symbol a, name) ∈ t.symbols symbol text ↔ (t.get? a).map text = some name := by
  rw [symbols, List.mem_map, Option.map_eq_some_iff]
  constructor
  · intro h
    rcases h with ⟨⟨a', b⟩, hmem, heq⟩
    rcases Prod.mk.inj heq with ⟨hkey, hname⟩
    exact ⟨b, get?_eq_some_iff.mpr (hsymbol hkey ▸ hmem), hname⟩
  · intro h
    rcases h with ⟨b, hget, hname⟩
    exact ⟨(a, b), get?_eq_some_iff.mp hget, by rw [hname]⟩

theorem nodup_symbols (t : Table α β) (hsymbol : Function.Injective symbol) :
    ((t.symbols symbol text).map Prod.fst).Nodup := by
  have hkeys := t.nodup_keys.map hsymbol
  rw [List.map_map] at hkeys
  rw [symbols, List.map_map]
  exact hkeys

end Table

/-! ## Exporting -/

/-- A traversal that succeeds everywhere succeeds. -/
theorem mapM_eq_ok {ε α β : Type} {f : α → Except ε β} {g : α → β} {l : List α}
    (h : ∀ a ∈ l, f a = .ok (g a)) : l.mapM f = .ok (l.map g) := by
  induction l with
  | nil => rfl
  | cons a l ih =>
    rw [List.mapM_cons, h a List.mem_cons_self, ih fun b hb => h b (List.mem_cons_of_mem a hb)]
    rfl

namespace Program

variable {p : Program} {identity : String}

theorem get_of_identityOf {id : TypeId} (h : p.identityOf (.type id) = some identity) :
    ∃ t, p.types.get id = .ok t ∧ t.fullName = identity := by
  rcases Option.map_eq_some_iff.mp h with ⟨t, ht, hname⟩
  exact ⟨t, Arena.get_eq_ok_iff.mpr ht, hname⟩

theorem fieldIdentity_of_identityOf {id : FieldId}
    (h : p.identityOf (.field id) = some identity) : p.fieldIdentity id = .ok identity := by
  rcases Option.bind_eq_some_iff.mp h with ⟨f, hf, howner⟩
  rcases Option.map_eq_some_iff.mp howner with ⟨t, ht, hname⟩
  rw [fieldIdentity, Arena.get_eq_ok_iff.mpr hf]
  show (do return f.identity (← p.types.get f.owner).fullName) = _
  rw [Arena.get_eq_ok_iff.mpr ht, ← hname]
  rfl

theorem methodIdentity_of_identityOf {id : MethodId}
    (h : p.identityOf (.method id) = some identity) : p.methodIdentity id = .ok identity := by
  rcases Option.bind_eq_some_iff.mp h with ⟨m, hm, howner⟩
  rcases Option.map_eq_some_iff.mp howner with ⟨t, ht, hname⟩
  rw [methodIdentity, Arena.get_eq_ok_iff.mpr hm]
  show (do return m.identity (← p.types.get m.owner).fullName) = _
  rw [Arena.get_eq_ok_iff.mpr ht, ← hname]
  rfl

end Program

namespace Engine

/-- The aliases decided for symbols of one kind. -/
def decided (e : Engine) : Section → List (SymbolId × String)
  | .packages => []
  | .types => e.types.symbols .type (·.newName)
  | .fields => e.fields.symbols .field id
  | .methods => e.methods.symbols .method id

variable {e : Engine}

theorem mem_decided {s : SymbolId} {name : String} :
    (s, name) ∈ e.decided s.kind ↔ e.aliasOf s = some name := by
  cases s with
  | type id => exact e.types.mem_symbols fun _ _ h => SymbolId.type.inj h
  | field id =>
    refine (e.fields.mem_symbols fun _ _ h => SymbolId.field.inj h).trans ?_
    rw [Option.map_id]
    rfl
  | method id =>
    refine (e.methods.mem_symbols fun _ _ h => SymbolId.method.inj h).trans ?_
    rw [Option.map_id]
    rfl

theorem kind_of_mem_decided {kind : Section} {a : SymbolId × String}
    (h : a ∈ e.decided kind) : a.1.kind = kind := by
  cases kind with
  | packages => cases h
  | types =>
    rcases List.mem_map.mp h with ⟨x, -, rfl⟩
    rfl
  | fields =>
    rcases List.mem_map.mp h with ⟨x, -, rfl⟩
    rfl
  | methods =>
    rcases List.mem_map.mp h with ⟨x, -, rfl⟩
    rfl

/-- What is saved of a kind are aliases of symbols of that kind. -/
theorem exists_of_mem_entriesFor {p : Program} {kind : Section} {entry : String × String}
    (h : entry ∈ p.entriesFor (e.decided kind)) :
    ∃ s name, s.kind = kind ∧ e.aliasOf s = some name ∧
      entry = ((p.identityOf s).getD "", name) := by
  rcases List.mem_map.mp h with ⟨⟨s, name⟩, hmem, rfl⟩
  have hkind : s.kind = kind := kind_of_mem_decided hmem
  rw [← hkind] at hmem
  exact ⟨s, name, hkind, mem_decided.mp hmem, rfl⟩

theorem nodup_decided (e : Engine) (kind : Section) : ((e.decided kind).map Prod.fst).Nodup := by
  cases kind with
  | packages => exact List.nodup_nil
  | types => exact e.types.nodup_symbols fun _ _ h => SymbolId.type.inj h
  | fields => exact e.fields.nodup_symbols fun _ _ h => SymbolId.field.inj h
  | methods => exact e.methods.nodup_symbols fun _ _ h => SymbolId.method.inj h

/-- The presets that an engine exports, where every alias is that of a symbol. -/
def saved (e : Engine) (p : Program) : Presets where
  packages := Table.ofList e.packages.aliased
  types := Table.ofList (p.entriesFor (e.decided .types))
  fields := Table.ofList (p.entriesFor (e.decided .fields))
  methods := Table.ofList (p.entriesFor (e.decided .methods))

theorem table_saved (e : Engine) (p : Program) (s : SymbolId) :
    (e.saved p).table s.kind = Table.ofList (p.entriesFor (e.decided s.kind)) := by
  cases s <;> rfl

/-- Exporting fails nowhere where every alias is that of a symbol. -/
theorem exportPresets_eq_ok {p : Program}
    (h : ∀ {s name}, e.aliasOf s = some name → ∃ identity, p.identityOf s = some identity) :
    e.exportPresets p = .ok (e.saved p) := by
  have htypes : (e.types.toList.mapM fun entry => do
      return ((← p.types.get entry.1).fullName, entry.2.newName) : Except OutOfRange _) =
        .ok (p.entriesFor (e.decided .types)) := by
    rw [Program.entriesFor, decided, Table.symbols, List.map_map]
    refine mapM_eq_ok fun entry hentry => ?_
    have halias : e.aliasOf (.type entry.1) = some entry.2.newName := by
      rw [aliasOf, typeAlias, Table.get?_eq_some_iff.mpr hentry]
      rfl
    rcases h halias with ⟨identity, hidentity⟩
    rcases Program.get_of_identityOf hidentity with ⟨t, ht, hname⟩
    rw [ht, Function.comp_apply, hidentity, ← hname]
    rfl
  have hfields : (e.fields.toList.mapM fun entry => do
      return (← p.fieldIdentity entry.1, entry.2) : Except OutOfRange _) =
        .ok (p.entriesFor (e.decided .fields)) := by
    rw [Program.entriesFor, decided, Table.symbols, List.map_map]
    refine mapM_eq_ok fun entry hentry => ?_
    rcases h (s := .field entry.1) (Table.get?_eq_some_iff.mpr hentry) with ⟨identity, hidentity⟩
    rw [Program.fieldIdentity_of_identityOf hidentity, Function.comp_apply, hidentity]
    rfl
  have hmethods : (e.methods.toList.mapM fun entry => do
      return (← p.methodIdentity entry.1, entry.2) : Except OutOfRange _) =
        .ok (p.entriesFor (e.decided .methods)) := by
    rw [Program.entriesFor, decided, Table.symbols, List.map_map]
    refine mapM_eq_ok fun entry hentry => ?_
    rcases h (s := .method entry.1) (Table.get?_eq_some_iff.mpr hentry) with ⟨identity, hidentity⟩
    rw [Program.methodIdentity_of_identityOf hidentity, Function.comp_apply, hidentity]
    rfl
  rw [exportPresets, htypes, hfields, hmethods]
  rfl

end Engine

namespace Run

variable {p : Program} {P : Policy} {r : Run}

/-- Where only symbols have aliases, exporting does not fail. -/
theorem Answers.exportPresets_eq_ok (h : Answers p P p.walk r) (hp : p.WellFormed) :
    r.engine.exportPresets r.program = .ok (r.engine.saved p) := by
  have hidentities : r.program.identityOf = p.identityOf := funext fun s =>
    Program.identityOf_of_declared h.declared s
  have hsaved : r.engine.saved r.program = r.engine.saved p := by
    unfold Engine.saved Program.entriesFor
    rw [hidentities]
  rw [← hsaved]
  refine Engine.exportPresets_eq_ok fun {s name} hname => ?_
  rw [hidentities]
  exact Program.exists_identityOf hp (h.passed hname)

/-- A run exports its aliases, and no others. -/
theorem Ends.exports (h : Ends p P r) (hp : p.WellFormed) (hid : p.DistinctIdentities) :
    r.engine.exportPresets r.program = .ok (r.engine.saved p) ∧
      ∀ s, p.presetOf (r.engine.saved p) s = r.engine.aliasOf s := by
  constructor
  · exact h.answers.exportPresets_eq_ok hp
  · intro s
    cases hs : p.identityOf s with
    | none =>
      -- what has no identity is no symbol, and has no alias
      rw [Program.presetOf, hs, Option.bind_none, eq_comm, Option.eq_none_iff_forall_ne_some]
      intro name hname
      rcases Program.exists_identityOf hp (h.answers.passed hname) with ⟨identity, hidentity⟩
      rw [hs] at hidentity
      cases hidentity
    | some identity =>
      have hentries : ∀ e ∈ r.engine.decided s.kind, e.1 ∈ p.walk ∧ e.1.kind = s.kind := by
        intro e he
        have hkind := Engine.kind_of_mem_decided he
        rw [← hkind] at he
        exact ⟨h.answers.passed (Engine.mem_decided.mp he), hkind⟩
      rw [Program.presetOf, hs, Option.bind_some, r.engine.table_saved]
      ext name
      rw [Program.get?_entriesFor hp hid hentries (r.engine.nodup_decided s.kind) hs,
        Engine.mem_decided]

end Run
end Renamer
