import Mathlib.Data.List.Nodup
import Renamer.Proofs.Construction
import Renamer.Proofs.PointedTree
import Renamer.Proofs.Tables

/-!
# Programs with member lists

The members of a type can be told without a search where the type lists them, and a full name leads
to its type without one where an index notes the type. The operations here keep such notes beside
the symbols. A member is listed as it is added; a type is noted under its full name, in the place of
an older one that has the same.

`ListedProgram.Shows` is the invariant: the notes are what a search of the program answers. From it,
every member is listed once, and a name leads to the newest type that has it.
-/

namespace Renamer

/-- A type with the slots of its members. -/
structure ListedType where
  /-- The type itself. -/
  symbol : TypeSymbol
  /-- The fields, in the order in which they were added. -/
  fields : List FieldId := []
  /-- The methods, in the order in which they were added. -/
  methods : List MethodId := []

/-- A program whose types list their members, with an index of full names. -/
structure ListedProgram where
  /-- Classes and interfaces, with their members. -/
  types : Arena .type ListedType := {}
  /-- Fields of all types. -/
  fields : Arena .field FieldSymbol := {}
  /-- Methods of all types. -/
  methods : Arena .method MethodSymbol := {}
  /-- The type that each declared full name leads to. -/
  names : Table String TypeId := {}

namespace ListedProgram

/-! ## The operations -/

/-- Adds a type, and notes it under its full name. -/
def pushType (q : ListedProgram) (t : TypeSymbol) : TypeId × ListedProgram :=
  let id := q.types.nextSlot
  (id, { q with types := q.types.push { symbol := t }, names := q.names.insert t.fullName id })

/-- Adds a top-level type. -/
def addType (q : ListedProgram) (d : Declaration) : TypeId × ListedProgram :=
  let fullName :=
    if d.package.isEmpty then d.shortName else d.package ++ packageSeparator ++ d.shortName
  q.pushType (.ofDeclaration d d.package fullName none)

/-- Adds a type nested in `outer`, in the package of `outer`. -/
def addNestedType (q : ListedProgram) (outer : TypeId) (d : Declaration) :
    Except OutOfRange (TypeId × ListedProgram) := do
  let around := (← q.types.get outer).symbol
  let fullName := around.fullName ++ nestedSeparator ++ d.shortName
  return q.pushType (.ofDeclaration d around.package fullName (some outer))

/-- Adds a field, and lists it under the type `owner`. -/
def addField (q : ListedProgram) (owner : TypeId) (name descriptor : String) :
    Except OutOfRange (FieldId × ListedProgram) := do
  let id := q.fields.nextSlot
  let types ← q.types.update owner fun t => { t with fields := t.fields ++ [id] }
  return (id, { q with types, fields := q.fields.push { owner, name, descriptor } })

/-- Adds a method, and lists it under the type `owner`. -/
def addMethod (q : ListedProgram) (owner : TypeId) (name : String) (params : List String)
    (returnType : String) (isVirtual : Bool) : Except OutOfRange (MethodId × ListedProgram) := do
  let id := q.methods.nextSlot
  let types ← q.types.update owner fun t => { t with methods := t.methods ++ [id] }
  return (id,
    { q with types, methods := q.methods.push { owner, name, params, returnType, isVirtual } })

/-- Changes a type, and neither its lists nor the index. -/
def updateType (q : ListedProgram) (ty : TypeId) (f : TypeSymbol → TypeSymbol) :
    Except OutOfRange ListedProgram := do
  return { q with types := ← q.types.update ty fun t => { t with symbol := f t.symbol } }

/-- Changes a field. -/
def updateField (q : ListedProgram) (id : FieldId) (f : FieldSymbol → FieldSymbol) :
    Except OutOfRange ListedProgram := do
  return { q with fields := ← q.fields.update id f }

/-- Changes a method. -/
def updateMethod (q : ListedProgram) (id : MethodId) (f : MethodSymbol → MethodSymbol) :
    Except OutOfRange ListedProgram := do
  return { q with methods := ← q.methods.update id f }

/-- The program without aliases and flags. -/
def clearAliases (q : ListedProgram) : ListedProgram :=
  { q with
    types := q.types.map fun t => { t with symbol := { t.symbol with newName := none } }
    fields := q.fields.map fun f => { f with newName := none }
    methods := q.methods.map fun m =>
      { m with newName := none, fromPreset := false, renamed := false } }

/-- The type that a full name leads to. -/
def lookup (q : ListedProgram) (fullName : String) : Option TypeId := q.names.get? fullName

end ListedProgram

/-! ## Searches -/

namespace Arena

variable {k : Kind} {α : Type}

theorem getElem?_entries (a : Arena k α) (n : Nat) :
    a.entries[n]? = (a.get? ⟨n⟩).map fun x => (⟨n⟩, x) := by
  rw [entries, List.getElem?_map, List.getElem?_zipIdx]
  simp [get?, Function.comp_def]

/-- A view of things does not show a change that keeps it. -/
theorem map_get?_modify {β : Type} (a : Arena k α) (i j : Slot k) {f : α → α} {view : α → β}
    (h : ∀ x, view (f x) = view x) : ((a.modify i f).get? j).map view = (a.get? j).map view := by
  rw [get?_modify]
  split
  · rw [Option.map_map]
    exact congrArg (Option.map · _) (funext h)
  · rfl

theorem map_get?_map {β : Type} (a : Arena k α) (i : Slot k) {f : α → α} {view : α → β}
    (h : ∀ x, view (f x) = view x) : ((a.map f).get? i).map view = (a.get? i).map view := by
  rw [get?_map, Option.map_map]
  exact congrArg (Option.map · _) (funext h)

/-- What a view shows of an arena is listed alike where it is the same in every slot. -/
theorem map_entries_congr {β : Type} {a b : Arena k α} {view : α → β}
    (h : ∀ i, (a.get? i).map view = (b.get? i).map view) :
    a.entries.map (Prod.map id view) = b.entries.map (Prod.map id view) := by
  refine List.ext_getElem? fun n => ?_
  have hn := h ⟨n⟩
  rw [List.getElem?_map, List.getElem?_map, getElem?_entries, getElem?_entries]
  cases ha : a.get? ⟨n⟩ <;> cases hb : b.get? ⟨n⟩ <;> simp_all

/-- The slots of what `ty` owns, in order. -/
def ownedBy (a : Arena k α) (owner : α → TypeId) (ty : TypeId) : List (Slot k) :=
  (a.entries.filter fun e => owner e.2 == ty).map Prod.fst

variable {a b : Arena k α} {owner : α → TypeId} {ty : TypeId} {i : Slot k}

theorem mem_ownedBy : i ∈ a.ownedBy owner ty ↔ ∃ x, a.get? i = some x ∧ owner x = ty := by
  simp [ownedBy, mem_entries_iff]

theorem nodup_ownedBy : (a.ownedBy owner ty).Nodup :=
  a.nodup_entries.sublist (List.filter_sublist.map Prod.fst)

theorem ownedBy_congr (h : ∀ i, (a.get? i).map owner = (b.get? i).map owner) :
    a.ownedBy owner ty = b.ownedBy owner ty := by
  have howned : ∀ c : Arena k α, c.ownedBy owner ty =
      ((c.entries.map (Prod.map id owner)).filter fun e => e.2 == ty).map Prod.fst := by
    intro c
    rw [List.filter_map, List.map_map]
    rfl
  rw [howned, howned, map_entries_congr h]

theorem ownedBy_push_self {x : α} (h : owner x = ty) :
    (a.push x).ownedBy owner ty = a.ownedBy owner ty ++ [a.nextSlot] := by
  rw [ownedBy, entries_push, List.filter_append, List.map_append]
  simp [h, ownedBy]

theorem ownedBy_push_of_ne {x : α} (h : owner x ≠ ty) :
    (a.push x).ownedBy owner ty = a.ownedBy owner ty := by
  rw [ownedBy, entries_push, List.filter_append, List.map_append]
  simp [h, ownedBy]

theorem ownedBy_modify {f : α → α} (h : ∀ x, owner (f x) = owner x) :
    (a.modify i f).ownedBy owner ty = a.ownedBy owner ty :=
  ownedBy_congr fun j => a.map_get?_modify i j h

theorem ownedBy_map {f : α → α} (h : ∀ x, owner (f x) = owner x) :
    (a.map f).ownedBy owner ty = a.ownedBy owner ty :=
  ownedBy_congr fun j => a.map_get?_map j h

end Arena

namespace Program

variable {p p' : Program} {name : String} {ty : TypeId}

/-- No type of the name is newer than the one that it leads to. -/
theorem index_le_of_lookup (h : p.lookup name = some ty) {later : TypeId} {t : TypeSymbol}
    (ht : p.types.get? later = some t) (hname : t.fullName = name) : later.index ≤ ty.index := by
  obtain ⟨e, he, rfl⟩ := Option.map_eq_some_iff.mp h
  obtain ⟨-, newer, older, hsplit, hnewer⟩ := List.find?_eq_some_iff_append.mp he
  have hmem : (later, t) ∈ newer ++ e :: older := by
    rw [← hsplit, List.mem_reverse]
    exact Arena.mem_entries_iff.mpr ht
  rcases List.mem_append.mp hmem with hmem | hmem
  · have hnot := hnewer _ hmem
    simp [hname] at hnot
  · -- the types behind the one found are older
    have hsorted := List.pairwise_reverse.mpr p.types.pairwise_entries
    rw [hsplit] at hsorted
    rcases List.mem_cons.mp hmem with rfl | hmem
    · exact Nat.le_refl _
    · exact Nat.le_of_lt ((List.pairwise_cons.mp (List.pairwise_append.mp hsorted).2.1).1 _ hmem)

theorem lookup_eq_none_iff : p.lookup name = none ↔
    ∀ ty t, p.types.get? ty = some t → t.fullName ≠ name := by
  rw [lookup, Option.map_eq_none_iff, typeNamed, List.find?_eq_none]
  constructor
  · intro h ty t ht hname
    exact h (ty, t) (List.mem_reverse.mpr (Arena.mem_entries_iff.mpr ht)) (by simpa using hname)
  · intro h e he hname
    exact h e.1 e.2 (Arena.mem_entries_iff.mp (List.mem_reverse.mp he)) (by simpa using hname)

/-- A name leads to the newest type that has it. -/
theorem lookup_eq_some_iff : p.lookup name = some ty ↔
    (∃ t, p.types.get? ty = some t ∧ t.fullName = name) ∧
      ∀ later t, p.types.get? later = some t → t.fullName = name → later.index ≤ ty.index := by
  constructor
  · intro h
    obtain ⟨e, he, rfl⟩ := Option.map_eq_some_iff.mp h
    exact ⟨⟨e.2, get?_of_typeNamed he, by simpa using List.find?_some he⟩,
      fun later t => index_le_of_lookup h⟩
  · rintro ⟨⟨t, ht, hname⟩, hnewest⟩
    cases hlookup : p.lookup name with
    | none => exact absurd hname (lookup_eq_none_iff.mp hlookup ty t ht)
    | some found =>
      obtain ⟨e, he, rfl⟩ := Option.map_eq_some_iff.mp hlookup
      have hle := index_le_of_lookup hlookup ht hname
      have hge := hnewest e.1 e.2 (get?_of_typeNamed he) (by simpa using List.find?_some he)
      exact congrArg (fun n => some (Slot.mk n)) (Nat.le_antisymm hge hle)

/-- Names lead where they led if no type gets another full name. -/
theorem lookup_congr
    (h : ∀ ty, (p.types.get? ty).map (·.fullName) = (p'.types.get? ty).map (·.fullName)) :
    p.lookup name = p'.lookup name := by
  have hview : ∀ q : Program, q.lookup name =
      ((q.types.entries.map (Prod.map id (·.fullName))).reverse.find? fun e =>
        e.2 == name).map Prod.fst := by
    intro q
    rw [← List.map_reverse, List.find?_map, Option.map_map]
    rfl
  rw [hview, hview, Arena.map_entries_congr h]

/-- A type that is added comes before all others of its name. -/
theorem lookup_pushType (p : Program) (t : TypeSymbol) (name : String) :
    (p.pushType t).2.lookup name =
      if t.fullName = name then some p.types.nextSlot else p.lookup name := by
  rw [lookup, typeNamed, pushType, Arena.entries_push, List.reverse_append]
  by_cases hname : t.fullName = name
  · simp [hname]
  · simp [hname, lookup, typeNamed]

/-- Full names are no matter of aliases. -/
theorem fullName_clearAliases (p : Program) (ty : TypeId) :
    (p.clearAliases.types.get? ty).map (·.fullName) = (p.types.get? ty).map (·.fullName) :=
  p.types.map_get?_map ty fun _ => rfl

end Program

/-! ## Notes that show a program -/

/-- What `t` notes of a type is what a search of `p` answers for the type in slot `ty`. -/
structure ListedType.Reads (t : ListedType) (p : Program) (ty : TypeId) : Prop where
  symbol : p.types.get? ty = some t.symbol
  fields : t.fields = (p.fieldsOf ty).map Prod.fst
  methods : t.methods = (p.methodsOf ty).map Prod.fst

namespace ListedProgram

/-- The symbols are those of `p`, every type lists its members, and the index leads where a search
leads. -/
structure Shows (q : ListedProgram) (p : Program) : Prop where
  size : q.types.size = p.types.size
  types : ∀ {ty t}, q.types.get? ty = some t → t.Reads p ty
  fields : q.fields = p.fields
  methods : q.methods = p.methods
  names : ∀ name, q.lookup name = p.lookup name

variable {q : ListedProgram} {p p' : Program}

theorem shows_empty : Shows {} {} where
  size := rfl
  types := fun h => by simp [Arena.get?] at h
  fields := rfl
  methods := rfl
  names := fun _ => rfl

/-- Every type has its notes. -/
theorem Shows.exists_type (h : q.Shows p) {ty : TypeId} {s : TypeSymbol}
    (hs : p.types.get? ty = some s) : ∃ t, q.types.get? ty = some t ∧ t.symbol = s := by
  have hlt : ty.index < q.types.size := h.size ▸ Arena.index_lt_of_get? hs
  obtain ⟨t, ht⟩ := Arena.exists_get?_of_lt hlt
  exact ⟨t, ht, Option.some.inj ((h.types ht).symbol.symm.trans hs)⟩

theorem Shows.nextSlot (h : q.Shows p) : q.types.nextSlot = p.types.nextSlot :=
  congrArg Slot.mk h.size

/-! ### Types and members more -/

theorem Shows.pushType (h : q.Shows p) (hp : p.WellFormed) (s : TypeSymbol) :
    (q.pushType s).2.Shows (p.pushType s).2 where
  size := by rw [ListedProgram.pushType, Program.pushType, Arena.size_push, Arena.size_push, h.size]
  types := by
    intro ty t ht
    rw [ListedProgram.pushType, Arena.get?_push] at ht
    split at ht
    · rename_i hty
      cases ht
      rw [h.nextSlot] at hty
      refine ⟨?_, ?_, ?_⟩
      · rw [Program.pushType, Arena.get?_push, if_pos hty]
      -- no member has a type that was not there
      · refine (List.eq_nil_iff_forall_not_mem.mpr fun id hid => ?_).symm
        obtain ⟨f, hf, rfl⟩ := Arena.mem_ownedBy.mp hid
        obtain ⟨o, ho⟩ := hp.field_owner hf
        exact Arena.ne_nextSlot_of_get? ho hty
      · refine (List.eq_nil_iff_forall_not_mem.mpr fun id hid => ?_).symm
        obtain ⟨m, hm, rfl⟩ := Arena.mem_ownedBy.mp hid
        obtain ⟨o, ho⟩ := hp.method_owner hm
        exact Arena.ne_nextSlot_of_get? ho hty
    · have hold := h.types ht
      exact ⟨Arena.get?_push_of_some hold.symbol, hold.fields, hold.methods⟩
  fields := h.fields
  methods := h.methods
  names := by
    intro name
    rw [Program.lookup_pushType, lookup, ListedProgram.pushType, Table.get?_insert, h.nextSlot]
    split
    · rfl
    · exact h.names name

/-- A field that is added is listed last under its owner. -/
theorem Shows.addField (h : q.Shows p) {owner : TypeId} {s : TypeSymbol}
    (hs : p.types.get? owner = some s) (name descriptor : String) :
    ∃ q', q.addField owner name descriptor = .ok (q.fields.nextSlot, q') ∧
      q'.Shows { p with fields := p.fields.push { owner, name, descriptor } } := by
  obtain ⟨t, ht, -⟩ := h.exists_type hs
  refine ⟨_, bind_eq_ok.mpr ⟨_, Arena.update_eq_ok ht _, rfl⟩,
    (Arena.size_modify _ _ _).trans h.size, ?_, ?_, h.methods, h.names⟩
  · intro ty u hu
    rw [Arena.get?_modify] at hu
    split at hu
    · rename_i howner
      obtain ⟨v, hv, rfl⟩ := Option.map_eq_some_iff.mp hu
      have hold := h.types hv
      refine ⟨hold.symbol, ?_, hold.methods⟩
      refine Eq.trans ?_ (Arena.ownedBy_push_self howner).symm
      rw [h.fields]
      exact congrArg (· ++ _) hold.fields
    · rename_i howner
      have hold := h.types hu
      exact ⟨hold.symbol, hold.fields.trans (Arena.ownedBy_push_of_ne howner).symm, hold.methods⟩
  · rw [h.fields]

/-- A method that is added is listed last under its owner. -/
theorem Shows.addMethod (h : q.Shows p) {owner : TypeId} {s : TypeSymbol}
    (hs : p.types.get? owner = some s) (name : String) (params : List String)
    (returnType : String) (isVirtual : Bool) :
    ∃ q', q.addMethod owner name params returnType isVirtual = .ok (q.methods.nextSlot, q') ∧
      q'.Shows { p with
        methods := p.methods.push { owner, name, params, returnType, isVirtual } } := by
  obtain ⟨t, ht, -⟩ := h.exists_type hs
  refine ⟨_, bind_eq_ok.mpr ⟨_, Arena.update_eq_ok ht _, rfl⟩,
    (Arena.size_modify _ _ _).trans h.size, ?_, h.fields, ?_, h.names⟩
  · intro ty u hu
    rw [Arena.get?_modify] at hu
    split at hu
    · rename_i howner
      obtain ⟨v, hv, rfl⟩ := Option.map_eq_some_iff.mp hu
      have hold := h.types hv
      refine ⟨hold.symbol, hold.fields, ?_⟩
      refine Eq.trans ?_ (Arena.ownedBy_push_self howner).symm
      rw [h.methods]
      exact congrArg (· ++ _) hold.methods
    · rename_i howner
      have hold := h.types hu
      exact ⟨hold.symbol, hold.fields, hold.methods.trans (Arena.ownedBy_push_of_ne howner).symm⟩
  · rw [h.methods]

/-! ### Changes to symbols -/

/-- A change that keeps the full name of a type. -/
theorem Shows.updateType (h : q.Shows p) {ty : TypeId} {s : TypeSymbol}
    (hs : p.types.get? ty = some s) {f : TypeSymbol → TypeSymbol}
    (hf : ∀ t, (f t).fullName = t.fullName) :
    ∃ q', q.updateType ty f = .ok q' ∧ q'.Shows { p with types := p.types.modify ty f } := by
  obtain ⟨t, ht, -⟩ := h.exists_type hs
  refine ⟨_, bind_eq_ok.mpr ⟨_, Arena.update_eq_ok ht _, rfl⟩, ?_, ?_, h.fields, h.methods, ?_⟩
  · rw [Arena.size_modify, Arena.size_modify, h.size]
  · intro i u hu
    rw [Arena.get?_modify] at hu
    split at hu
    · rename_i hi
      obtain ⟨v, hv, rfl⟩ := Option.map_eq_some_iff.mp hu
      have hold := h.types hv
      exact ⟨by rw [Arena.get?_modify, if_pos hi, hold.symbol]; rfl, hold.fields, hold.methods⟩
    · rename_i hi
      have hold := h.types hu
      exact ⟨by rw [Arena.get?_modify, if_neg hi, hold.symbol], hold.fields, hold.methods⟩
  · intro name
    refine (h.names name).trans (Program.lookup_congr fun i => ?_)
    exact (p.types.map_get?_modify ty i hf).symm

/-- A change that keeps the owner of a field. -/
theorem Shows.updateField (h : q.Shows p) {id : FieldId} {s : FieldSymbol}
    (hs : p.fields.get? id = some s) {f : FieldSymbol → FieldSymbol}
    (hf : ∀ s, (f s).owner = s.owner) :
    ∃ q', q.updateField id f = .ok q' ∧ q'.Shows { p with fields := p.fields.modify id f } := by
  have hget : q.fields.get? id = some s := by rw [h.fields, hs]
  refine ⟨_, bind_eq_ok.mpr ⟨_, Arena.update_eq_ok hget _, rfl⟩, h.size, ?_, ?_, h.methods,
    h.names⟩
  · intro ty t ht
    have hold := h.types ht
    exact ⟨hold.symbol, hold.fields.trans (Arena.ownedBy_modify hf).symm, hold.methods⟩
  · rw [h.fields]

/-- A change that keeps the owner of a method. -/
theorem Shows.updateMethod (h : q.Shows p) {id : MethodId} {s : MethodSymbol}
    (hs : p.methods.get? id = some s) {f : MethodSymbol → MethodSymbol}
    (hf : ∀ s, (f s).owner = s.owner) :
    ∃ q', q.updateMethod id f = .ok q' ∧
      q'.Shows { p with methods := p.methods.modify id f } := by
  have hget : q.methods.get? id = some s := by rw [h.methods, hs]
  refine ⟨_, bind_eq_ok.mpr ⟨_, Arena.update_eq_ok hget _, rfl⟩, h.size, ?_, h.fields, ?_,
    h.names⟩
  · intro ty t ht
    have hold := h.types ht
    exact ⟨hold.symbol, hold.fields, hold.methods.trans (Arena.ownedBy_modify hf).symm⟩
  · rw [h.methods]

/-- Aliases and flags count nowhere in the notes. -/
theorem Shows.clearAliases (h : q.Shows p) : q.clearAliases.Shows p.clearAliases where
  size := by
    rw [ListedProgram.clearAliases, Program.clearAliases, Arena.size_map, Arena.size_map, h.size]
  types := by
    intro ty u hu
    rw [ListedProgram.clearAliases, Arena.get?_map] at hu
    obtain ⟨t, ht, rfl⟩ := Option.map_eq_some_iff.mp hu
    have hold := h.types ht
    refine ⟨?_, hold.fields.trans (Eq.symm ?_), hold.methods.trans (Eq.symm ?_)⟩
    · rw [Program.clearAliases, Arena.get?_map, hold.symbol]
      rfl
    · exact Arena.ownedBy_map fun _ => rfl
    · exact Arena.ownedBy_map fun _ => rfl
  fields := by rw [ListedProgram.clearAliases, Program.clearAliases, h.fields]
  methods := by rw [ListedProgram.clearAliases, Program.clearAliases, h.methods]
  names := fun name =>
    (h.names name).trans (Program.lookup_congr fun i => (p.fullName_clearAliases i).symm)

/-! ## What the notes say -/

/-- Every type lists the members that it owns, and all types together those that are there, each of
them once. -/
structure Lists (q : ListedProgram) {k : Kind} (members : ListedType → List (Slot k))
    (owner? : Slot k → Option TypeId) : Prop where
  own : ∀ {ty t}, q.types.get? ty = some t →
    ∀ id, (members t).count id = if owner? id = some ty then 1 else 0
  all : ∀ id, (q.types.toList.flatMap members).count id = if (owner? id).isSome then 1 else 0

/-- Types list members apart where a member has one owner. -/
theorem lists_of_mem_iff {k : Kind} {members : ListedType → List (Slot k)}
    {owner? : Slot k → Option TypeId}
    (hlists : ∀ {ty t}, q.types.get? ty = some t →
      (members t).Nodup ∧ ∀ id, id ∈ members t ↔ owner? id = some ty)
    (howner : ∀ {id ty}, owner? id = some ty → ∃ t, q.types.get? ty = some t) :
    q.Lists members owner? where
  own := fun ht id => (hlists ht).1.count.trans (if_congr ((hlists ht).2 id) rfl rfl)
  all := by
    have hlisted : ∀ e ∈ q.types.entries, ∀ id, id ∈ members e.2 ↔ owner? id = some e.1 :=
      fun e he => (hlists (Arena.mem_entries_iff.mp he)).2
    have hnodup : (q.types.entries.flatMap fun e => members e.2).Nodup := by
      refine List.nodup_flatMap.mpr
        ⟨fun e he => (hlists (Arena.mem_entries_iff.mp he)).1, ?_⟩
      refine q.types.pairwise_entries.imp_of_mem fun {a b} ha hb hlt id hida hidb => ?_
      -- a member that two types list has two owners
      have hsame := ((hlisted a ha id).mp hida).symm.trans ((hlisted b hb id).mp hidb)
      exact Nat.ne_of_lt hlt (congrArg Slot.index (Option.some.inj hsame))
    intro id
    rw [← Arena.map_snd_entries, List.flatMap_map]
    refine hnodup.count.trans (if_congr ?_ rfl rfl)
    rw [List.mem_flatMap, Option.isSome_iff_exists]
    constructor
    · rintro ⟨e, he, hid⟩
      exact ⟨e.1, (hlisted e he id).mp hid⟩
    · rintro ⟨ty, hty⟩
      obtain ⟨t, ht⟩ := howner hty
      exact ⟨(ty, t), Arena.mem_entries_iff.mpr ht, ((hlists ht).2 id).mpr hty⟩

theorem Shows.lists_fields (h : q.Shows p) (hp : p.WellFormed) :
    q.Lists (·.fields) fun id => (q.fields.get? id).map (·.owner) := by
  refine lists_of_mem_iff (fun {ty t} ht => ?_) fun {id ty} hty => ?_
  · rw [(h.types ht).fields, h.fields]
    refine ⟨Arena.nodup_ownedBy, fun id => ?_⟩
    exact Arena.mem_ownedBy.trans Option.map_eq_some_iff.symm
  · rw [h.fields] at hty
    obtain ⟨f, hf, rfl⟩ := Option.map_eq_some_iff.mp hty
    obtain ⟨s, hs⟩ := hp.field_owner hf
    obtain ⟨t, ht, -⟩ := h.exists_type hs
    exact ⟨t, ht⟩

theorem Shows.lists_methods (h : q.Shows p) (hp : p.WellFormed) :
    q.Lists (·.methods) fun id => (q.methods.get? id).map (·.owner) := by
  refine lists_of_mem_iff (fun {ty t} ht => ?_) fun {id ty} hty => ?_
  · rw [(h.types ht).methods, h.methods]
    refine ⟨Arena.nodup_ownedBy, fun id => ?_⟩
    exact Arena.mem_ownedBy.trans Option.map_eq_some_iff.symm
  · rw [h.methods] at hty
    obtain ⟨m, hm, rfl⟩ := Option.map_eq_some_iff.mp hty
    obtain ⟨s, hs⟩ := hp.method_owner hm
    obtain ⟨t, ht, -⟩ := h.exists_type hs
    exact ⟨t, ht⟩

end ListedProgram
end Renamer
