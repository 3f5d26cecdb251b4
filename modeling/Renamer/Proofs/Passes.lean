import Renamer.Proofs.Aliases
import Renamer.Proofs.Construction

/-!
# The passes of a run

Deciding and binding go through a program alike: type by type, and with each type first the type
itself, then its fields, then its methods.

* `Program.walk` lists the symbols in this order. Of two symbols in one scope the older one comes
  first.
* `Pass` is one way of going through, and `Pass.Keeps` is an invariant of it that knows which
  symbols have been passed.
-/

namespace Renamer

/-! ## The order of symbols -/

namespace Program

/-- The fields of a type, in order. -/
def ownFields (p : Program) (ty : TypeId) : List SymbolId :=
  (p.fieldsOf ty).map fun e => .field e.1

/-- The methods of a type, in order. -/
def ownMethods (p : Program) (ty : TypeId) : List SymbolId :=
  (p.methodsOf ty).map fun e => .method e.1

/-- A type, its fields and its methods. -/
def walkOf (p : Program) (ty : TypeId) : List SymbolId :=
  .type ty :: (p.ownFields ty ++ p.ownMethods ty)

/-- All symbols, each type followed by its members. -/
def walk (p : Program) : List SymbolId := p.types.entries.flatMap fun e => p.walkOf e.1

/-- `a` is older than `b`, if both are types or members of one type. -/
def Precedes (p : Program) : SymbolId → SymbolId → Prop
  | .type i, .type j => i < j
  | .field i, .field j =>
    (p.fields.get? i).map (·.owner) = (p.fields.get? j).map (·.owner) → i < j
  | .method i, .method j =>
    (p.methods.get? i).map (·.owner) = (p.methods.get? j).map (·.owner) → i < j
  | _, _ => True

variable {p q : Program}

theorem not_precedes_self (s : SymbolId) : ¬ p.Precedes s s := by
  cases s with
  | type i => exact Nat.lt_irrefl i.index
  | field i => exact fun h => Nat.lt_irrefl i.index (h rfl)
  | method i => exact fun h => Nat.lt_irrefl i.index (h rfl)

theorem ownFields_of_declared (h : p.declared = q.declared) (ty : TypeId) :
    p.ownFields ty = q.ownFields ty := by
  have hdeclared : ∀ p : Program, p.declared.ownFields ty = p.ownFields ty := by
    intro p
    rw [ownFields, ownFields, fieldsOf, declared, Arena.entries_map, List.filter_map, List.map_map]
    rfl
  rw [← hdeclared p, ← hdeclared q, h]

theorem ownMethods_of_declared (h : p.declared = q.declared) (ty : TypeId) :
    p.ownMethods ty = q.ownMethods ty := by
  have hdeclared : ∀ p : Program, p.declared.ownMethods ty = p.ownMethods ty := by
    intro p
    rw [ownMethods, ownMethods, methodsOf, declared, Arena.entries_map, List.filter_map,
      List.map_map]
    rfl
  rw [← hdeclared p, ← hdeclared q, h]

/-- The order of symbols is a matter of declarations. -/
theorem walk_of_declared (h : p.declared = q.declared) : p.walk = q.walk := by
  have hslots : ∀ p : Program,
      p.walk = (p.declared.types.entries.map Prod.fst).flatMap p.walkOf := by
    intro p
    rw [walk, declared, Arena.entries_map, List.map_map, List.flatMap_map]
    rfl
  have hwalkOf : p.walkOf = q.walkOf := by
    funext ty
    rw [walkOf, walkOf, ownFields_of_declared h, ownMethods_of_declared h]
  rw [hslots p, hslots q, hwalkOf, h]

theorem mem_walk_type {ty : TypeId} {t : TypeSymbol} (ht : p.types.get? ty = some t) :
    .type ty ∈ p.walk :=
  List.mem_flatMap.mpr ⟨(ty, t), Arena.mem_entries_iff.mpr ht, List.mem_cons_self⟩

theorem mem_walk_field (hp : p.WellFormed) {id : FieldId} {f : FieldSymbol}
    (hf : p.fields.get? id = some f) : .field id ∈ p.walk := by
  rcases hp.field_owner hf with ⟨t, ht⟩
  refine List.mem_flatMap.mpr ⟨(f.owner, t), Arena.mem_entries_iff.mpr ht, ?_⟩
  have hmem : .field id ∈ p.ownFields f.owner :=
    List.mem_map.mpr ⟨(id, f), mem_fieldsOf.mpr ⟨hf, rfl⟩, rfl⟩
  exact List.mem_cons_of_mem _ (List.mem_append_left _ hmem)

theorem mem_walk_method (hp : p.WellFormed) {id : MethodId} {m : MethodSymbol}
    (hm : p.methods.get? id = some m) : .method id ∈ p.walk := by
  rcases hp.method_owner hm with ⟨t, ht⟩
  refine List.mem_flatMap.mpr ⟨(m.owner, t), Arena.mem_entries_iff.mpr ht, ?_⟩
  have hmem : .method id ∈ p.ownMethods m.owner :=
    List.mem_map.mpr ⟨(id, m), mem_methodsOf.mpr ⟨hm, rfl⟩, rfl⟩
  exact List.mem_cons_of_mem _ (List.mem_append_right _ hmem)

/-- The symbols of a type, seen one by one. -/
theorem mem_walkOf {ty : TypeId} {s : SymbolId} (h : s ∈ p.walkOf ty) :
    s = .type ty ∨ (∃ id f, s = .field id ∧ p.fields.get? id = some f ∧ f.owner = ty) ∨
      ∃ id m, s = .method id ∧ p.methods.get? id = some m ∧ m.owner = ty := by
  rcases List.mem_cons.mp h with htype | hmember
  · exact Or.inl htype
  · rcases List.mem_append.mp hmember with hfield | hmethod
    · rcases List.mem_map.mp hfield with ⟨⟨id, f⟩, hf, rfl⟩
      exact Or.inr (Or.inl ⟨id, f, rfl, mem_fieldsOf.mp hf⟩)
    · rcases List.mem_map.mp hmethod with ⟨⟨id, m⟩, hm, rfl⟩
      exact Or.inr (Or.inr ⟨id, m, rfl, mem_methodsOf.mp hm⟩)

/-- What the order of symbols lists is there. -/
theorem cases_of_mem_walk {s : SymbolId} (h : s ∈ p.walk) :
    (∃ ty t, s = .type ty ∧ p.types.get? ty = some t) ∨
      (∃ id f, s = .field id ∧ p.fields.get? id = some f) ∨
      ∃ id m, s = .method id ∧ p.methods.get? id = some m := by
  rcases List.mem_flatMap.mp h with ⟨⟨ty, t⟩, ht, hs⟩
  rcases mem_walkOf hs with htype | ⟨id, f, hfield, hf, -⟩ | ⟨id, m, hmethod, hm, -⟩
  · exact Or.inl ⟨ty, t, htype, Arena.mem_entries_iff.mp ht⟩
  · exact Or.inr (Or.inl ⟨id, f, hfield, hf⟩)
  · exact Or.inr (Or.inr ⟨id, m, hmethod, hm⟩)

theorem pairwise_walkOf (p : Program) (ty : TypeId) : (p.walkOf ty).Pairwise p.Precedes := by
  refine List.pairwise_cons.mpr ⟨fun s hs => ?_, List.pairwise_append.mpr ⟨?_, ?_, ?_⟩⟩
  · rcases List.mem_append.mp hs with hfield | hmethod
    · rcases List.mem_map.mp hfield with ⟨e, -, rfl⟩
      trivial
    · rcases List.mem_map.mp hmethod with ⟨e, -, rfl⟩
      trivial
  · refine List.pairwise_map.mpr ((p.fields.pairwise_entries.filter _).imp fun hlt => ?_)
    exact fun _ => hlt
  · refine List.pairwise_map.mpr ((p.methods.pairwise_entries.filter _).imp fun hlt => ?_)
    exact fun _ => hlt
  · intro a ha b hb
    rcases List.mem_map.mp ha with ⟨e, -, rfl⟩
    rcases List.mem_map.mp hb with ⟨e', -, rfl⟩
    trivial

/-- In one scope the older symbol comes first. -/
theorem pairwise_walk (p : Program) : p.walk.Pairwise p.Precedes := by
  refine List.pairwise_flatMap.mpr ⟨fun e _ => p.pairwise_walkOf e.1, ?_⟩
  refine p.types.pairwise_entries.imp fun {e e'} hlt a ha b hb => ?_
  -- members of different types are in different scopes
  have howner : e.1 ≠ e'.1 := by
    intro heq
    rw [heq] at hlt
    exact Nat.lt_irrefl _ hlt
  rcases mem_walkOf ha with rfl | ⟨i, f, rfl, hf, hfo⟩ | ⟨i, m, rfl, hm, hmo⟩
  · rcases mem_walkOf hb with rfl | ⟨j, g, rfl, -⟩ | ⟨j, n, rfl, -⟩
    · exact hlt
    · trivial
    · trivial
  · rcases mem_walkOf hb with rfl | ⟨j, g, rfl, hg, hgo⟩ | ⟨j, n, rfl, -⟩
    · trivial
    · intro hsame
      rw [hf, hg] at hsame
      exact absurd (hfo.symm.trans ((Option.some.inj hsame).trans hgo)) howner
    · trivial
  · rcases mem_walkOf hb with rfl | ⟨j, g, rfl, -⟩ | ⟨j, n, rfl, hn, hno⟩
    · trivial
    · trivial
    · intro hsame
      rw [hm, hn] at hsame
      exact absurd (hmo.symm.trans ((Option.some.inj hsame).trans hno)) howner

/-- What has been passed precedes what comes next. -/
theorem precedes_of_walk {done rest : List SymbolId} {a b : SymbolId}
    (hwalk : p.walk = done ++ b :: rest) (ha : a ∈ done) : p.Precedes a b := by
  have hpairs := p.pairwise_walk
  rw [hwalk] at hpairs
  exact (List.pairwise_append.mp hpairs).2.2 a ha b List.mem_cons_self

/-- No symbol comes twice. -/
theorem notMem_of_walk {done rest : List SymbolId} {b : SymbolId}
    (hwalk : p.walk = done ++ b :: rest) : b ∉ done :=
  fun hb => not_precedes_self b (precedes_of_walk hwalk hb)

/-! ## Symbols as a pass sees them

A pass sees the symbols of its run, which differ from those of the program in aliases only.
-/

/-- `t` is the type in slot `ty`, up to what a run may change. -/
def ShowsType (p : Program) (ty : TypeId) (t : TypeSymbol) : Prop :=
  ∃ s, p.types.get? ty = some s ∧ s.declared = t.declared

/-- `f` is the field in slot `id`, up to what a run may change. -/
def ShowsField (p : Program) (id : FieldId) (f : FieldSymbol) : Prop :=
  ∃ g, p.fields.get? id = some g ∧ g.declared = f.declared

/-- `m` is the method in slot `id`, up to what a run may change. -/
def ShowsMethod (p : Program) (id : MethodId) (m : MethodSymbol) : Prop :=
  ∃ n, p.methods.get? id = some n ∧ n.declared = m.declared

/-- `q` has all symbols of `p` in their slots, up to what a run may change. -/
structure Extends (p q : Program) : Prop where
  types : ∀ {ty t}, p.types.get? ty = some t → q.ShowsType ty t
  fields : ∀ {id f}, p.fields.get? id = some f → q.ShowsField id f
  methods : ∀ {id m}, p.methods.get? id = some m → q.ShowsMethod id m

theorem Extends.of_declared (h : p.declared = q.declared) : p.Extends q :=
  ⟨type_of_declared h, field_of_declared h, method_of_declared h⟩

end Program

/-! ## Passes -/

/-- What a pass does with a type, with a field of it, and with a method of it. Its states are runs,
or runs with something beside them. -/
structure Pass (σ : Type) where
  /-- The run of a state. -/
  run : σ → Run
  /-- The step of the type. -/
  type : σ → TypeId × TypeSymbol → σ
  /-- The step of a field of the type. -/
  field : TypeId × TypeSymbol → σ → FieldId × FieldSymbol → σ
  /-- The step of a method of the type. -/
  method : TypeId × TypeSymbol → σ → MethodId × MethodSymbol → σ

namespace Pass

/-- The steps of a type and its members. -/
def entry {σ : Type} (P : Pass σ) (r : σ) (e : TypeId × TypeSymbol) : σ :=
  let r := P.type r e
  let r := ((P.run r).program.fieldsOf e.1).foldl (P.field e) r
  ((P.run r).program.methodsOf e.1).foldl (P.method e) r

/-- The pass that decides aliases. -/
def deciding : Pass Run where
  run r := r
  type r e := Run.decideType { r with engine := r.engine.decidePackage e.2 } e.1 e.2
  field e := Run.decideField e.2
  method e := Run.discoverMethod e.1 e.2

/-- The pass that binds them. -/
def binding : Pass Run where
  run r := r
  type r e := r.applyType e.1 e.2
  field e := Run.applyField e.2
  method e := Run.applyMethod e.2

/-- The pass that binds them and counts. -/
def counting : Pass (Tally × Run) where
  run := Prod.snd
  type := Run.countType
  field e := Run.countField e.2
  method e := Run.countMethod e.2

variable {σ : Type}

/-- Every step of the pass over `p` keeps the invariant, which knows what has been passed. -/
structure Keeps (P : Pass σ) (p : Program) (motive : List SymbolId → σ → Prop) : Prop where
  declared : ∀ {done r}, motive done r → (P.run r).program.declared = p.declared
  type : ∀ {done rest r ty t}, p.walk = done ++ SymbolId.type ty :: rest → p.ShowsType ty t →
    motive done r → motive (done ++ [SymbolId.type ty]) (P.type r (ty, t))
  field : ∀ {done rest r ty t id f}, p.walk = done ++ SymbolId.field id :: rest →
    p.ShowsType ty t → p.ShowsField id f → f.owner = ty → motive done r →
    motive (done ++ [SymbolId.field id]) (P.field (ty, t) r (id, f))
  method : ∀ {done rest r ty t id m}, p.walk = done ++ SymbolId.method id :: rest →
    p.ShowsType ty t → p.ShowsMethod id m → m.owner = ty → motive done r →
    motive (done ++ [SymbolId.method id]) (P.method (ty, t) r (id, m))

variable {P : Pass σ} {p : Program} {motive : List SymbolId → σ → Prop}

/-- An invariant of the steps over a list is kept along the list. -/
theorem foldl_walk {α : Type} {step : σ → α → σ} {symbol : α → SymbolId} (l : List α)
    (hstep : ∀ done a rest r, a ∈ l → p.walk = done ++ symbol a :: rest → motive done r →
      motive (done ++ [symbol a]) (step r a))
    {done rest : List SymbolId} {r : σ} (hwalk : p.walk = done ++ l.map symbol ++ rest)
    (hr : motive done r) : motive (done ++ l.map symbol) (l.foldl step r) := by
  induction l generalizing done r with
  | nil =>
    rw [List.map_nil, List.append_nil]
    exact hr
  | cons a l ih =>
    rw [List.map_cons, List.append_cons] at hwalk ⊢
    have hfirst : p.walk = done ++ symbol a :: (l.map symbol ++ rest) := by
      rw [hwalk]
      simp
    exact ih (fun done b rest r hb => hstep done b rest r (List.mem_cons_of_mem _ hb)) hwalk
      (hstep done a _ r List.mem_cons_self hfirst hr)

theorem Keeps.entry (h : P.Keeps p motive) {done rest : List SymbolId} {r : σ}
    {e : TypeId × TypeSymbol} (hwalk : p.walk = done ++ p.walkOf e.1 ++ rest)
    (ht : p.ShowsType e.1 e.2) (hr : motive done r) :
    motive (done ++ p.walkOf e.1) (P.entry r e) := by
  have hhead : p.walk =
      done ++ SymbolId.type e.1 :: (p.ownFields e.1 ++ (p.ownMethods e.1 ++ rest)) := by
    rw [hwalk, Program.walkOf, List.append_assoc, List.cons_append, List.append_assoc]
  have htype := h.type hhead ht hr
  have hentry : P.entry r e =
      ((P.run (((P.run (P.type r e)).program.fieldsOf e.1).foldl (P.field e)
        (P.type r e))).program.methodsOf e.1).foldl (P.method e)
        (((P.run (P.type r e)).program.fieldsOf e.1).foldl (P.field e) (P.type r e)) := rfl
  rw [hentry]
  generalize P.type r e = r₀ at htype
  -- the members listed are those of the program that the step of the type left
  have hfieldIds := Program.ownFields_of_declared (h.declared htype) e.1
  have hfieldWalk : p.walk = done ++ [SymbolId.type e.1] ++ (P.run r₀).program.ownFields e.1 ++
      (p.ownMethods e.1 ++ rest) := by
    rw [hfieldIds, hhead]
    simp
  have hfields : motive (done ++ [SymbolId.type e.1] ++ (P.run r₀).program.ownFields e.1)
      (((P.run r₀).program.fieldsOf e.1).foldl (P.field e) r₀) := by
    refine foldl_walk _ (fun done f rest r hf hw hm => ?_) hfieldWalk htype
    rcases Program.mem_fieldsOf.mp hf with ⟨hget, howner⟩
    exact h.field hw ht (Program.field_of_declared (h.declared htype) hget) howner hm
  generalize ((P.run r₀).program.fieldsOf e.1).foldl (P.field e) r₀ = r' at hfields
  have hmethodIds := Program.ownMethods_of_declared (h.declared hfields) e.1
  have hmethodWalk : p.walk = done ++ [SymbolId.type e.1] ++ (P.run r₀).program.ownFields e.1 ++
      (P.run r').program.ownMethods e.1 ++ rest := by
    rw [hfieldWalk, hmethodIds, List.append_assoc _ (p.ownMethods e.1)]
  have hmethods := foldl_walk _ (fun done m rest r hm hw hmot => by
    rcases Program.mem_methodsOf.mp hm with ⟨hget, howner⟩
    exact h.method hw ht (Program.method_of_declared (h.declared hfields) hget) howner hmot)
    hmethodWalk hfields
  have hwhole : done ++ p.walkOf e.1 = done ++ [SymbolId.type e.1] ++
      (P.run r₀).program.ownFields e.1 ++ (P.run r').program.ownMethods e.1 := by
    rw [hfieldIds, hmethodIds, Program.walkOf]
    simp
  rw [hwhole]
  exact hmethods

theorem Keeps.foldl_entry (h : P.Keeps p motive) (l : List (TypeId × TypeSymbol))
    (hl : ∀ e ∈ l, p.ShowsType e.1 e.2) {done rest : List SymbolId} {r : σ}
    (hwalk : p.walk = done ++ (l.flatMap fun e => p.walkOf e.1) ++ rest) (hr : motive done r) :
    motive (done ++ l.flatMap fun e => p.walkOf e.1) (l.foldl P.entry r) := by
  induction l generalizing done r with
  | nil =>
    rw [List.flatMap_nil, List.append_nil]
    exact hr
  | cons e l ih =>
    rw [List.flatMap_cons, ← List.append_assoc] at hwalk ⊢
    have hfirst := hwalk
    rw [List.append_assoc] at hfirst
    exact ih (fun e he => hl e (List.mem_cons_of_mem _ he)) hwalk
      (h.entry hfirst (hl e List.mem_cons_self) hr)

/-- What holds when nothing has been passed, and is kept, holds when all has been passed. -/
theorem Keeps.walk (h : P.Keeps p motive) {r : σ} {q : Run}
    (hq : q.program.declared = p.declared) (hr : motive [] r) :
    motive p.walk (q.program.types.entries.foldl P.entry r) := by
  have hslots : (q.program.types.entries.flatMap fun e => p.walkOf e.1) = p.walk := by
    have hwalkOf : p.walkOf = q.program.walkOf := by
      funext ty
      rw [Program.walkOf, Program.walkOf, Program.ownFields_of_declared hq,
        Program.ownMethods_of_declared hq]
    rw [hwalkOf, ← Program.walk_of_declared hq]
    rfl
  have hwhole : p.walk = [] ++ (q.program.types.entries.flatMap fun e => p.walkOf e.1) ++ [] := by
    rw [hslots]
    simp
  have hall := h.foldl_entry q.program.types.entries
    (fun e he => Program.type_of_declared hq (Arena.mem_entries_iff.mp he)) hwhole hr
  rwa [hslots, List.nil_append] at hall

theorem entry_deciding : deciding.entry = Run.discoverType := by
  funext r e
  rw [entry, deciding, Run.discoverType]

theorem entry_binding : binding.entry = Run.applyEntry := rfl

theorem entry_counting : counting.entry = Run.countEntry := rfl

variable {motive : List SymbolId → Run → Prop}

/-- What the pass that decides keeps holds when all has been decided, but for the note of that. -/
theorem Keeps.discover (h : deciding.Keeps p motive) {e : Engine}
    (hr : motive [] { engine := e.seed p.clearAliases, program := p.clearAliases }) :
    ∃ r, motive p.walk r ∧ Run.discover { engine := e, program := p.clearAliases } =
      { r with engine := { r.engine with discovered := true } } := by
  have hall := h.walk (q := { engine := e, program := p.clearAliases })
    Program.declared_clearAliases hr
  rw [entry_deciding] at hall
  exact ⟨_, hall, rfl⟩

/-- What the pass that binds keeps holds when all has been bound. -/
theorem Keeps.apply (h : binding.Keeps p motive) {r : Run} (hr : motive [] r) :
    motive p.walk r.apply := by
  have hall := h.walk (h.declared hr) hr
  rw [entry_binding] at hall
  exact hall

/-- What the pass that counts keeps holds when all has been bound and counted. -/
theorem Keeps.applyCounted {motive : List SymbolId → Tally × Run → Prop}
    (h : counting.Keeps p motive) {r : Run} (hr : motive [] ({}, r)) :
    motive p.walk r.applyCounted := by
  have hall := h.walk (h.declared hr) hr
  rw [entry_counting] at hall
  exact hall

end Pass
end Renamer
