import Mathlib.Data.List.Nodup
import Renamer.Program.Basic

/-!
# Declarations under a run

A run binds aliases, marks methods and uses up source files. All else of a program stays as it was
declared. `Program.declared` strips what a run may change, so that "the same declarations" is an
equation, and everything that the hierarchy and the scopes depend on can be carried along it.
-/

namespace Renamer

/-! ## Arenas -/

namespace Arena

variable {k : Kind} {α : Type}

theorem ext_get? {a b : Arena k α} (h : ∀ i, a.get? i = b.get? i) : a = b := by
  obtain ⟨xs⟩ := a
  obtain ⟨ys⟩ := b
  have hxy : xs = ys := Array.ext_getElem? fun n => h ⟨n⟩
  rw [hxy]

theorem get?_isSome_iff {a : Arena k α} {i : Slot k} : (a.get? i).isSome ↔ i.index < a.size := by
  simp [get?, size]

theorem index_lt_of_get? {a : Arena k α} {i : Slot k} {x : α} (h : a.get? i = some x) :
    i.index < a.size := get?_isSome_iff.mp (by rw [h]; rfl)

theorem exists_get?_of_lt {a : Arena k α} {i : Slot k} (h : i.index < a.size) :
    ∃ x, a.get? i = some x := Option.isSome_iff_exists.mp (get?_isSome_iff.mpr h)

theorem ne_nextSlot_of_get? {a : Arena k α} {i : Slot k} {x : α} (h : a.get? i = some x) :
    i ≠ a.nextSlot := by
  rintro rfl
  exact Nat.lt_irrefl _ (index_lt_of_get? h)

/-- What is there stays in its slot. -/
theorem get?_push_of_some {a : Arena k α} {i : Slot k} {x y : α} (h : a.get? i = some x) :
    (a.push y).get? i = some x := by
  rw [get?_push, if_neg (ne_nextSlot_of_get? h), h]

theorem mem_toList_of_get? {a : Arena k α} {i : Slot k} {x : α} (h : a.get? i = some x) :
    x ∈ a.toList :=
  List.mem_of_getElem? (get?_eq_some_iff.mp h)

/-- What an arena lists is in one of its slots. -/
theorem exists_get?_of_mem {a : Arena k α} {x : α} (h : x ∈ a.toList) :
    ∃ i, a.get? i = some x := by
  obtain ⟨n, hn⟩ := List.mem_iff_getElem?.mp h
  exact ⟨⟨n⟩, get?_eq_some_iff.mpr hn⟩

/-- Changes that a view does not show leave the view as it is. -/
theorem map_modify {a : Arena k α} {i : Slot k} {f g : α → α} (h : ∀ x, g (f x) = g x) :
    (a.modify i f).map g = a.map g := by
  refine ext_get? fun j => ?_
  rw [get?_map, get?_map, get?_modify]
  split
  · cases a.get? j with
    | none => rfl
    | some x => exact congrArg some (h x)
  · rfl

theorem map_map_of_comp {a : Arena k α} {f g : α → α} (h : ∀ x, g (f x) = g x) :
    (a.map f).map g = a.map g := by
  refine ext_get? fun j => ?_
  rw [get?_map, get?_map, get?_map]
  cases a.get? j with
  | none => rfl
  | some x => exact congrArg some (h x)

theorem entries_map (a : Arena k α) (f : α → α) :
    (a.map f).entries = a.entries.map fun e => (e.1, f e.2) := by
  rw [entries, entries, map, Array.toList_map, List.zipIdx_map, List.map_map, List.map_map]
  rfl

theorem entries_push (a : Arena k α) (x : α) :
    (a.push x).entries = a.entries ++ [(a.nextSlot, x)] := by
  rw [entries, entries, push, Array.toList_push, List.zipIdx_append, List.map_append]
  simp [nextSlot, size]

theorem map_fst_entries (a : Arena k α) :
    a.entries.map Prod.fst = (List.range' 0 a.items.toList.length).map Slot.mk := by
  have hslots : a.entries.map Prod.fst = (a.items.toList.zipIdx.map Prod.snd).map Slot.mk := by
    rw [entries, List.map_map, List.map_map]
    rfl
  rw [hslots, List.zipIdx_map_snd]

/-- Every slot is listed once. -/
theorem nodup_entries (a : Arena k α) : (a.entries.map Prod.fst).Nodup := by
  rw [map_fst_entries]
  exact List.Nodup.map (fun _ _ h => (Slot.mk.inj h)) List.nodup_range'

/-- Slots are listed from the oldest to the newest. -/
theorem pairwise_entries (a : Arena k α) : a.entries.Pairwise fun x y => x.1 < y.1 := by
  have hslots : (a.entries.map Prod.fst).Pairwise fun i j => i < j := by
    rw [map_fst_entries]
    exact List.Pairwise.map _ (fun _ _ h => h) (List.pairwise_lt_range' (s := 0))
  exact List.pairwise_map.mp hslots

end Arena

/-! ## Symbols -/

/-- The type as it was declared. -/
def TypeSymbol.declared (t : TypeSymbol) : TypeSymbol :=
  { t with newName := none, sourceFile := none }

/-- The field as it was declared. -/
def FieldSymbol.declared (f : FieldSymbol) : FieldSymbol := { f with newName := none }

/-- The method as it was declared. -/
def MethodSymbol.declared (m : MethodSymbol) : MethodSymbol :=
  { m with newName := none, fromPreset := false, renamed := false }

/-- Types with the same declaration look the same in every view of the declaration. -/
theorem TypeSymbol.agree {s t : TypeSymbol} (h : s.declared = t.declared) {β : Type}
    (view : TypeSymbol → β) (hview : ∀ u, view u.declared = view u) :
    view s = view t := by
  rw [← hview s, h, hview]

/-- Fields with the same declaration look the same in every view of the declaration. -/
theorem FieldSymbol.agree {s t : FieldSymbol} (h : s.declared = t.declared) {β : Type}
    (view : FieldSymbol → β) (hview : ∀ u, view u.declared = view u) :
    view s = view t := by
  rw [← hview s, h, hview]

/-- Methods with the same declaration look the same in every view of the declaration. -/
theorem MethodSymbol.agree {s t : MethodSymbol} (h : s.declared = t.declared) {β : Type}
    (view : MethodSymbol → β) (hview : ∀ u, view u.declared = view u) :
    view s = view t := by
  rw [← hview s, h, hview]

namespace Program

/-- The program without all that a run may change. -/
def declared (p : Program) : Program where
  types := p.types.map TypeSymbol.declared
  fields := p.fields.map FieldSymbol.declared
  methods := p.methods.map MethodSymbol.declared

variable {p q : Program}

/-! ## Changes that declarations do not show -/

theorem declared_congr (ht : p.types.map TypeSymbol.declared = q.types.map TypeSymbol.declared)
    (hf : p.fields.map FieldSymbol.declared = q.fields.map FieldSymbol.declared)
    (hm : p.methods.map MethodSymbol.declared = q.methods.map MethodSymbol.declared) :
    p.declared = q.declared := by
  rw [declared, declared, ht, hf, hm]

@[simp] theorem declared_withTypeAlias (ty : TypeId) (name : String) :
    (p.withTypeAlias ty name).declared = p.declared :=
  declared_congr (Arena.map_modify fun _ => rfl) rfl rfl

@[simp] theorem declared_withoutSourceFile (ty : TypeId) :
    (p.withoutSourceFile ty).declared = p.declared :=
  declared_congr (Arena.map_modify fun _ => rfl) rfl rfl

@[simp] theorem declared_withFieldAlias (id : FieldId) (name : String) :
    (p.withFieldAlias id name).declared = p.declared :=
  declared_congr rfl (Arena.map_modify fun _ => rfl) rfl

@[simp] theorem declared_withMethodAlias (id : MethodId) (name : String) :
    (p.withMethodAlias id name).declared = p.declared :=
  declared_congr rfl rfl (Arena.map_modify fun _ => rfl)

@[simp] theorem declared_withPresetMark (id : MethodId) (mark : Bool) :
    (p.withPresetMark id mark).declared = p.declared :=
  declared_congr rfl rfl (Arena.map_modify fun _ => rfl)

@[simp] theorem declared_clearAliases : p.clearAliases.declared = p.declared :=
  declared_congr (Arena.map_map_of_comp fun _ => rfl) (Arena.map_map_of_comp fun _ => rfl)
    (Arena.map_map_of_comp fun _ => rfl)

/-! ## What the same declarations agree on -/

theorem type_of_declared (h : p.declared = q.declared) {ty : TypeId} {t : TypeSymbol}
    (ht : p.types.get? ty = some t) :
    ∃ t', q.types.get? ty = some t' ∧ t'.declared = t.declared := by
  have hget : p.declared.types.get? ty = q.declared.types.get? ty := by rw [h]
  rw [declared, declared, Arena.get?_map, Arena.get?_map, ht] at hget
  exact Option.map_eq_some_iff.mp hget.symm

theorem field_of_declared (h : p.declared = q.declared) {id : FieldId} {f : FieldSymbol}
    (hf : p.fields.get? id = some f) :
    ∃ f', q.fields.get? id = some f' ∧ f'.declared = f.declared := by
  have hget : p.declared.fields.get? id = q.declared.fields.get? id := by rw [h]
  rw [declared, declared, Arena.get?_map, Arena.get?_map, hf] at hget
  exact Option.map_eq_some_iff.mp hget.symm

theorem method_of_declared (h : p.declared = q.declared) {id : MethodId} {m : MethodSymbol}
    (hm : p.methods.get? id = some m) :
    ∃ m', q.methods.get? id = some m' ∧ m'.declared = m.declared := by
  have hget : p.declared.methods.get? id = q.declared.methods.get? id := by rw [h]
  rw [declared, declared, Arena.get?_map, Arena.get?_map, hm] at hget
  exact Option.map_eq_some_iff.mp hget.symm

/-! ## Members and references -/

theorem mem_fieldsOf {ty : TypeId} {id : FieldId} {f : FieldSymbol} :
    (id, f) ∈ p.fieldsOf ty ↔ p.fields.get? id = some f ∧ f.owner = ty := by
  rw [fieldsOf, List.mem_filter, Arena.mem_entries_iff]
  simp

theorem mem_methodsOf {ty : TypeId} {id : MethodId} {m : MethodSymbol} :
    (id, m) ∈ p.methodsOf ty ↔ p.methods.get? id = some m ∧ m.owner = ty := by
  rw [methodsOf, List.mem_filter, Arena.mem_entries_iff]
  simp

theorem typeNamed_declared (p : Program) (name : String) :
    p.declared.typeNamed name = (p.typeNamed name).map fun e => (e.1, e.2.declared) := by
  rw [typeNamed, typeNamed, declared, Arena.entries_map, ← List.map_reverse, List.find?_map]
  rfl

/-- References resolve alike under the same declarations. -/
theorem lookup_of_declared (h : p.declared = q.declared) (name : String) :
    p.lookup name = q.lookup name := by
  have hp : p.lookup name = (p.declared.typeNamed name).map Prod.fst := by
    rw [typeNamed_declared, Option.map_map]
    rfl
  have hq : q.lookup name = (q.declared.typeNamed name).map Prod.fst := by
    rw [typeNamed_declared, Option.map_map]
    rfl
  rw [hp, hq, h]

end Program
end Renamer
