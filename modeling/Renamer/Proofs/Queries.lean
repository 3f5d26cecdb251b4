import Renamer.Proofs.Exports
import Renamer.Proofs.Heeding

/-!
# What a run leaves behind

After a run an engine can be asked for names and aliases, and what it has decided can be exported.
It knows aliases of the symbols of the program and of no others (`Run.Stays`), and answers keep
nothing but names: so exporting does not fail, whatever has been asked before.
-/

namespace Renamer

/-! ## Queries -/

/-- A name or an alias that an engine can be asked for. -/
inductive Query where
  /-- The full name that a type is emitted under. -/
  | fullName (ty : TypeId)
  /-- The name without package that a type is emitted under. -/
  | chainName (ty : TypeId)
  /-- The short alias of a type. -/
  | typeAlias (ty : TypeId)
  /-- The alias of a field. -/
  | fieldAlias (id : FieldId)
  /-- The alias of a method. -/
  | methodAlias (id : MethodId)
  /-- The path that a package is emitted under. -/
  | packageAlias (text : String)
  deriving DecidableEq

namespace Query

/-- The query is about a symbol that the program has. -/
def InRange (p : Program) : Query → Prop
  | .fullName ty | .chainName ty | .typeAlias ty => ty.index < p.types.size
  | .fieldAlias id => id.index < p.fields.size
  | .methodAlias id => id.index < p.methods.size
  | .packageAlias _ => True

instance (p : Program) : DecidablePred (InRange p)
  | .fullName ty | .chainName ty | .typeAlias ty =>
    inferInstanceAs (Decidable (ty.index < p.types.size))
  | .fieldAlias id => inferInstanceAs (Decidable (id.index < p.fields.size))
  | .methodAlias id => inferInstanceAs (Decidable (id.index < p.methods.size))
  | .packageAlias _ => inferInstanceAs (Decidable True)

/-- Changes that keep declarations keep all symbols. -/
theorem InRange.of_declared {p q : Program} {query : Query} (h : query.InRange p)
    (hdeclared : q.declared = p.declared) : query.InRange q := by
  cases query with
  | fullName ty | chainName ty | typeAlias ty =>
    obtain ⟨t, ht⟩ := Arena.exists_get?_of_lt h
    obtain ⟨u, hu, -⟩ := Program.type_of_declared hdeclared.symm ht
    exact Arena.index_lt_of_get? hu
  | fieldAlias id =>
    obtain ⟨f, hf⟩ := Arena.exists_get?_of_lt h
    obtain ⟨g, hg, -⟩ := Program.field_of_declared hdeclared.symm hf
    exact Arena.index_lt_of_get? hg
  | methodAlias id =>
    obtain ⟨m, hm⟩ := Arena.exists_get?_of_lt h
    obtain ⟨n, hn, -⟩ := Program.method_of_declared hdeclared.symm hm
    exact Arena.index_lt_of_get? hn
  | packageAlias text => trivial

end Query

/-- Answers a query. -/
def Engine.ask (p : Program) (e : Engine) : Query → Except OutOfRange (Option String × Engine)
  | .fullName ty => do
    let (name, e) ← e.fullNameAt p ty
    return (some name, e)
  | .chainName ty => do
    let (name, e) ← e.chainNameAt p ty
    return (some name, e)
  | .typeAlias ty => return (e.typeAlias ty, e)
  | .fieldAlias id => return (e.fieldAlias id, e)
  | .methodAlias id => return (e.methodAlias id, e)
  | .packageAlias text => return (e.packageAlias text, e)

/-- An answer keeps composed names at most. -/
theorem Engine.recalls_ask {p : Program} {e : Engine} {query : Query}
    {answer : Option String × Engine} (h : e.ask p query = .ok answer) : e.Recalls answer.2 := by
  cases query with
  | fullName ty =>
    obtain ⟨⟨name, e'⟩, hname, heq⟩ := bind_eq_ok.mp h
    cases heq
    unfold fullNameAt at hname
    split at hname
    · cases hname
      exact Recalls.refl e
    · obtain ⟨t, -, ht⟩ := bind_eq_ok.mp hname
      exact congrArg Prod.snd (Except.ok.inj ht) ▸ recalls_fullName e p ty t
  | chainName ty =>
    obtain ⟨⟨name, e'⟩, hname, heq⟩ := bind_eq_ok.mp h
    cases heq
    unfold chainNameAt at hname
    split at hname
    · cases hname
      exact Recalls.refl e
    · obtain ⟨t, -, ht⟩ := bind_eq_ok.mp hname
      exact congrArg Prod.snd (Except.ok.inj ht) ▸ recalls_chainName e (p.lineage ty)
  | typeAlias ty =>
    cases h
    exact Recalls.refl e
  | fieldAlias id =>
    cases h
    exact Recalls.refl e
  | methodAlias id =>
    cases h
    exact Recalls.refl e
  | packageAlias text =>
    cases h
    exact Recalls.refl e

/-! ## Exporting what a run leaves behind -/

/-- Unification gives aliases to members of groups, which are methods of the program. -/
theorem Run.Grouped.passed_unified {p : Program} {r : Run} (h : Run.Grouped p r) (hp : p.WellFormed)
    (hpassed : ∀ {s name}, r.engine.aliasOf s = some name → s ∈ p.walk) {s : SymbolId}
    {name : String} (hs : r.unified.engine.aliasOf s = some name) : s ∈ p.walk := by
  cases s with
  | type ty => exact hpassed (s := .type ty) hs
  | field id => exact hpassed (s := .field id) hs
  | method id =>
    have hall : ∀ id name, (r.unification.turns r.engine.groups.live).aliases.get? id = some name →
        .method id ∈ p.walk := by
      refine (Unification.turns_induct (u := r.unification) h.present (motive := fun _ v =>
        ∀ id name, v.aliases.get? id = some name → .method id ∈ p.walk)
        (fun id name hname => hpassed (s := .method id) hname) ?_).2
      intro done g rest hgroups _ hturn ih id name hname
      generalize (r.unification.turns done).turn g.2 = v at hturn hname
      cases hturn with
      | rest _ => exact ih id name hname
      | call hcall =>
        rw [hcall.aliases] at hname
        split at hname
        · rename_i hid
          obtain ⟨m, hm⟩ := h.present g (by rw [hgroups]; simp) id hid
          obtain ⟨m', hm', -⟩ := Program.method_of_declared h.declared hm
          exact Program.mem_walk_method hp hm'
        · exact ih id name hname
    exact hall id name hs

/-- The program has the declarations of `p`, and what was decided is about symbols of `p`. -/
structure Run.Stays (p : Program) (e : Engine) (q : Program) : Prop where
  declared : q.declared = p.declared
  passed : ∀ {s name}, e.aliasOf s = some name → s ∈ p.walk

/-- What an answer keeps for the next query changes nothing that counts. -/
theorem Run.Stays.recalls {p q : Program} {e e' : Engine} (h : Run.Stays p e q)
    (hr : e.Recalls e') : Run.Stays p e' q where
  declared := h.declared
  passed := fun {s name} hname => h.passed (by rwa [hr.aliasOf] at hname)

theorem Run.Stays.exportPresets {p q : Program} {e : Engine} (h : Run.Stays p e q)
    (hp : p.WellFormed) : e.exportPresets q = .ok (e.saved q) := by
  refine Engine.exportPresets_eq_ok fun {s name} hname => ?_
  rw [Program.identityOf_of_declared h.declared]
  exact Program.exists_identityOf hp (h.passed hname)

theorem Engine.stays_bound {p : Program} {e : Engine} (hp : p.WellFormed) (he : e.Unused) :
    Run.Stays p (e.bound p).unified.engine (e.bound p).unified.program := by
  have hgrouped := Engine.grouped_bound hp he.groups
  exact ⟨hgrouped.declared_unified, hgrouped.passed_unified hp (Run.heeds_bound p he).1.passed⟩

end Renamer
