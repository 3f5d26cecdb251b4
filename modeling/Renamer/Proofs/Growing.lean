import Renamer.Proofs.Exports

/-!
# Programs that grow

Types and members are added behind those that are there, so that a program that grows keeps its
symbols in their slots.

* `Program.Grows` says that types and members have been added.
* What a run on the smaller program exports offers every symbol of it its alias, and offers nothing
  to the symbols that were added (`Run.Ends.presetOf_of_extends`).
* The title of a type depends on the types around it and on its package, not on what was added
  (`Run.newName_of_extends`).
-/

namespace Renamer

namespace Program

/-- `q` is `p`, as it was declared or as a run has left it, with types and members added. -/
inductive Grows (p : Program) : Program → Prop
  | same {q : Program} : q.declared = p.declared → p.Grows q
  | addType {q : Program} (d : Declaration) : p.Grows q → p.Grows (q.addType d).2
  | addNestedType {q q' : Program} {outer id : TypeId} {d : Declaration} :
      p.Grows q → q.addNestedType outer d = .ok (id, q') → p.Grows q'
  | addField {q q' : Program} {owner : TypeId} {name descriptor : String} {id : FieldId} :
      p.Grows q → q.addField owner name descriptor = .ok (id, q') → p.Grows q'
  | addMethod {q q' : Program} {owner : TypeId} {name returnType : String} {params : List String}
      {isVirtual : Bool} {id : MethodId} :
      p.Grows q → q.addMethod owner name params returnType isVirtual = .ok (id, q') → p.Grows q'

variable {p q : Program}

theorem Extends.trans {p' : Program} (h : p.Extends q) (h' : q.Extends p') : p.Extends p' where
  types := by
    intro ty t ht
    rcases h.types ht with ⟨s, hs, hst⟩
    rcases h'.types hs with ⟨u, hu, hus⟩
    exact ⟨u, hu, hus.trans hst⟩
  fields := by
    intro id f hf
    rcases h.fields hf with ⟨g, hg, hgf⟩
    rcases h'.fields hg with ⟨k, hk, hkg⟩
    exact ⟨k, hk, hkg.trans hgf⟩
  methods := by
    intro id m hm
    rcases h.methods hm with ⟨n, hn, hnm⟩
    rcases h'.methods hn with ⟨o, ho, hon⟩
    exact ⟨o, ho, hon.trans hnm⟩

theorem Extends.pushType (h : p.Extends q) (t : TypeSymbol) : p.Extends (q.pushType t).2 where
  types := by
    intro ty s hs
    rcases h.types hs with ⟨s', hs', hss⟩
    exact ⟨s', Arena.get?_push_of_some hs', hss⟩
  fields := h.fields
  methods := h.methods

/-- What is added leaves the older symbols where they are. -/
theorem Grows.extends (h : p.Grows q) : p.Extends q := by
  induction h with
  | same hq => exact Extends.of_declared hq.symm
  | addType d _ ih => exact ih.pushType _
  | addNestedType _ hadd ih =>
    rcases bind_eq_ok.mp hadd with ⟨around, -, hq⟩
    cases hq
    exact ih.pushType _
  | addField _ hadd ih =>
    rcases bind_eq_ok.mp hadd with ⟨t, -, hq⟩
    cases hq
    refine { ih with fields := fun hf => ?_ }
    rcases ih.fields hf with ⟨f', hf', hff⟩
    exact ⟨f', Arena.get?_push_of_some hf', hff⟩
  | addMethod _ hadd ih =>
    rcases bind_eq_ok.mp hadd with ⟨t, -, hq⟩
    cases hq
    refine { ih with methods := fun hm => ?_ }
    rcases ih.methods hm with ⟨m', hm', hmm⟩
    exact ⟨m', Arena.get?_push_of_some hm', hmm⟩

theorem Grows.wellFormed (h : p.Grows q) (hp : p.WellFormed) : q.WellFormed := by
  induction h with
  | same hq => exact hp.of_declared hq.symm
  | addType d _ ih => exact ih.addType d
  | addNestedType _ hadd ih => exact ih.addNestedType hadd
  | addField _ hadd ih => exact ih.addField hadd
  | addMethod _ hadd ih => exact ih.addMethod hadd

/-! ## Names and identities -/

theorem exists_nameOf {s : SymbolId} (hs : s ∈ p.walk) : ∃ name, p.nameOf s = some name := by
  rcases cases_of_mem_walk hs with ⟨ty, t, rfl, ht⟩ | ⟨id, f, rfl, hf⟩ | ⟨id, m, rfl, hm⟩
  · exact ⟨_, ShowsType.nameOf ⟨t, ht, rfl⟩⟩
  · exact ⟨_, ShowsField.nameOf ⟨f, hf, rfl⟩⟩
  · exact ⟨_, ShowsMethod.nameOf ⟨m, hm, rfl⟩⟩

/-- A symbol keeps its declared name. -/
theorem Extends.nameOf (h : p.Extends q) {s : SymbolId} {name : String}
    (hs : p.nameOf s = some name) : q.nameOf s = some name := by
  cases s with
  | type id =>
    rcases Option.map_eq_some_iff.mp hs with ⟨t, ht, rfl⟩
    rcases h.types ht with ⟨t', ht', htt⟩
    rw [← TypeSymbol.agree htt TypeSymbol.shortName fun _ => rfl]
    exact ShowsType.nameOf ⟨t', ht', rfl⟩
  | field id =>
    rcases Option.map_eq_some_iff.mp hs with ⟨f, hf, rfl⟩
    rcases h.fields hf with ⟨f', hf', hff⟩
    rw [← FieldSymbol.agree hff FieldSymbol.name fun _ => rfl]
    exact ShowsField.nameOf ⟨f', hf', rfl⟩
  | method id =>
    rcases Option.map_eq_some_iff.mp hs with ⟨m, hm, rfl⟩
    rcases h.methods hm with ⟨m', hm', hmm⟩
    rw [← MethodSymbol.agree hmm MethodSymbol.name fun _ => rfl]
    exact ShowsMethod.nameOf ⟨m', hm', rfl⟩

/-- Distinct identities of the larger program are distinct in the smaller one. -/
theorem Extends.distinctIdentities (h : p.Extends q) (hp : p.WellFormed) (hq : q.WellFormed)
    (hid : q.DistinctIdentities) : p.DistinctIdentities := by
  intro a ha b hb hkind heq
  rcases exists_identityOf hp ha with ⟨identity, hia⟩
  have hib : p.identityOf b = some identity := heq ▸ hia
  have hqa := h.identityOf hia
  have hqb := h.identityOf hib
  exact hid a (mem_walk_of_identityOf hq hqa) b (mem_walk_of_identityOf hq hqb) hkind
    (hqa.trans hqb.symm)

end Program

namespace Run

variable {p q : Program} {P : Policy} {r : Run} {s : SymbolId}

/-- What a run exports is filed under identities of its program. -/
theorem Ends.identity_of_saved (h : Ends p P r) (hp : p.WellFormed) {identity name : String}
    (hget : ((r.engine.saved p).table s.kind).get? identity = some name) :
    ∃ a, a.kind = s.kind ∧ p.identityOf a = some identity := by
  rw [r.engine.table_saved, Table.get?_eq_some_iff] at hget
  rcases Engine.exists_of_mem_entriesFor (Table.mem_of_mem_ofList hget) with
    ⟨a, name', hkind, halias, heq⟩
  rcases Program.exists_identityOf hp (h.answers.passed halias) with ⟨identity', hidentity⟩
  rw [hidentity] at heq
  exact ⟨a, hkind, hidentity.trans (congrArg some (Prod.mk.inj heq).1.symm)⟩

/-- What a run exports offers the symbols of a larger program the aliases that the run has left. -/
theorem Ends.presetOf_of_extends (h : Ends p P r) (hp : p.WellFormed) (hq : q.WellFormed)
    (hpq : p.Extends q) (hid : q.DistinctIdentities) (s : SymbolId) :
    q.presetOf (r.engine.saved p) s = r.engine.aliasOf s := by
  rw [← (h.exports hp (hpq.distinctIdentities hp hq hid)).2]
  cases hs : p.identityOf s with
  | some identity => rw [Program.presetOf, Program.presetOf, hs, hpq.identityOf hs]
  | none =>
    -- a symbol that was added shares its identity with none before
    have hnone : p.presetOf (r.engine.saved p) s = none := by rw [Program.presetOf, hs]; rfl
    rw [hnone, Option.eq_none_iff_forall_ne_some]
    intro name hname
    rcases Option.bind_eq_some_iff.mp hname with ⟨identity, hidentity, hget⟩
    rcases h.identity_of_saved hp hget with ⟨a, hkind, ha⟩
    have hqa := hpq.identityOf ha
    have has : a = s := hid a (Program.mem_walk_of_identityOf hq hqa) s
      (Program.mem_walk_of_identityOf hq hidentity) hkind (hqa.trans hidentity.symm)
    rw [has, hs] at ha
    cases ha

end Run

/-! ## Titles -/

namespace Engine

variable {p q : Program} {d e : Engine}

/-- The types around a type are those of the smaller program. -/
theorem chainOf_of_extends (hp : p.WellFormed) (hq : q.WellFormed) (hpq : p.Extends q)
    (htypes : ∀ {ty t}, p.types.get? ty = some t → e.typeAlias ty = d.typeAlias ty) {ty : TypeId}
    {t : TypeSymbol} (ht : p.types.get? ty = some t) :
    e.chainOf (q.lineage ty) = d.chainOf (p.lineage ty) := by
  -- the type around a type is older
  induction hindex : ty.index using Nat.strongRecOn generalizing ty t with
  | ind n ih =>
    rcases hpq.types ht with ⟨u, hu, hut⟩
    have henclosing : u.enclosing = t.enclosing :=
      TypeSymbol.agree hut TypeSymbol.enclosing fun _ => rfl
    have hlast : e.lastPart ty u = d.lastPart ty t := by
      rw [lastPart, lastPart, htypes ht, TypeSymbol.agree hut TypeSymbol.shortName fun _ => rfl]
    cases houter : t.enclosing with
    | none =>
      rw [chainOf_of_topLevel ht houter, chainOf_of_topLevel hu (henclosing.trans houter), hlast]
    | some outer =>
      rcases hp.nested ht houter with ⟨o, ho, hlt, -⟩
      rw [chainOf_of_nested hp ht houter, chainOf_of_nested hq hu (henclosing.trans houter), hlast,
        ih outer.index (hindex ▸ hlt) ho rfl]

end Engine

namespace Run

variable {p q : Program}

theorem title_of_extends (hp : p.WellFormed) (hq : q.WellFormed) (hpq : p.Extends q) {d d' : Run}
    (hd : Prepared p d) (hd' : Prepared q d')
    (htypes : ∀ {ty t}, p.types.get? ty = some t →
      d'.engine.typeAlias ty = d.engine.typeAlias ty) {ty : TypeId} {s t : TypeSymbol}
    (hs : p.types.get? ty = some s) (ht : q.types.get? ty = some t)
    (hpackages : ∀ a ∈ (PackagePath.ofText s.package).lineage,
      d'.engine.packages.aliasOf a = d.engine.packages.aliasOf a) :
    d'.engine.title q ty t = d.engine.title p ty s := by
  have hts : t.declared = s.declared := by
    rcases hpq.types hs with ⟨t', ht', hts⟩
    rw [ht] at ht'
    cases ht'
    exact hts
  have hpackage : d'.engine.packageName ty t = d.engine.packageName ty s := by
    rw [hd'.packageName ht, hd.packageName hs, TypeSymbol.agree hts TypeSymbol.package fun _ => rfl,
      PackageTree.fullAlias_congr hpackages]
  have hcomposed : d'.engine.composed q ty t = d.engine.composed p ty s := by
    unfold Engine.composed
    rw [hpackage, Engine.chainOf_of_extends hp hq hpq htypes hs]
  rw [Engine.title, Engine.title, hcomposed, TypeSymbol.agree hts TypeSymbol.fullName fun _ => rfl]

variable {d e : Engine}

/-- A type ends with the same alias in the larger program where the types of the smaller one and
the packages around it do. -/
theorem newName_of_extends (hp : p.WellFormed) (hq : q.WellFormed) (hpq : p.Extends q)
    (hd : d.Unused) (he : e.Unused)
    (htypes : ∀ {ty t}, p.types.get? ty = some t → (e.bound q).unified.engine.typeAlias ty =
      (d.bound p).unified.engine.typeAlias ty) {ty : TypeId} {s t : TypeSymbol}
    (hs : (d.bound p).unified.program.types.get? ty = some s)
    (ht : (e.bound q).unified.program.types.get? ty = some t)
    (hpackages : ∀ a ∈ (PackagePath.ofText s.package).lineage,
      (e.bound q).unified.engine.packages.aliasOf a =
        (d.bound p).unified.engine.packages.aliasOf a) : t.newName = s.newName := by
  have hg := Engine.grouped_bound hp hd.groups
  have hg' := Engine.grouped_bound hq he.groups
  rw [hg.types_unified] at hs
  rw [hg'.types_unified] at ht
  rcases Program.type_of_declared hg.declared hs with ⟨s', hs', hss⟩
  rcases Program.type_of_declared hg'.declared ht with ⟨t', ht', htt⟩
  have halike := alikeTypes_unified d p
  have halike' := alikeTypes_unified e q
  rw [newName_bound hp hd hs, newName_bound hq he ht, Engine.title_of_declared hss.symm,
    Engine.title_of_declared htt.symm]
  refine title_of_extends hp hq hpq (prepared_discover hd p) (prepared_discover he q)
    (fun {ty t} ht => ?_) hs' ht' (fun a ha => ?_)
  · rw [← halike.typeAlias, ← halike'.typeAlias, htypes ht]
  · rw [TypeSymbol.agree hss TypeSymbol.package fun _ => rfl] at ha
    rw [← halike.packages, ← halike'.packages, hpackages a ha]

end Run
end Renamer
