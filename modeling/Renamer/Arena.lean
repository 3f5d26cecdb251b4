/-!
# Arenas

Types, fields, methods, packages and override groups live in one array per kind and are
referred to by position.

* `Slot k` is such a position. The kind `k` keeps the position of a field from being used
  among the methods.
* `Arena k α` is the array. Reading or changing a slot that it does not have is the one way in
  which this library can be misused, and answers `OutOfRange`.
-/

namespace Renamer

/-! ## Slots -/

/-- What the things of an arena are. -/
inductive Kind where
  | type
  | field
  | method
  | package
  | group
  deriving DecidableEq, Repr

/-- The name that slots of a kind are shown under. -/
def Kind.label : Kind → String
  | .type => "TypeId"
  | .field => "FieldId"
  | .method => "MethodId"
  | .package => "PackageId"
  | .group => "GroupId"

/-- A position in the arena of kind `k`. -/
structure Slot (k : Kind) where
  /-- Counted from zero. -/
  index : Nat
  deriving DecidableEq, Repr

/-- The slot of a type. -/
abbrev TypeId := Slot .type

/-- The slot of a field. -/
abbrev FieldId := Slot .field

/-- The slot of a method. -/
abbrev MethodId := Slot .method

/-- The slot of a package. -/
abbrev PackageId := Slot .package

/-- The slot of an override group. -/
abbrev GroupId := Slot .group

namespace Slot

variable {k : Kind}

/-- Older slots come first. -/
instance : LT (Slot k) := ⟨fun a b => a.index < b.index⟩

instance (a b : Slot k) : Decidable (a < b) := inferInstanceAs (Decidable (a.index < b.index))

/-- The kind's label around the index, as in `TypeId(7)`. -/
def debugText (s : Slot k) : String := k.label ++ "(" ++ toString s.index ++ ")"

end Slot

/-! ## Arenas -/

/-- A slot was used in an arena that does not have it. -/
structure OutOfRange where
  /-- How many slots the arena has. -/
  size : Nat
  /-- The slot asked for. -/
  index : Nat
  deriving DecidableEq, Repr

/-- The text shown for a slot out of range. -/
def OutOfRange.message (e : OutOfRange) : String :=
  "index out of bounds: the len is " ++ toString e.size ++ " but the index is " ++
    toString e.index

/-- The things of kind `k`, each at its slot. -/
structure Arena (k : Kind) (α : Type) where
  /-- The things in the order in which they were added. -/
  items : Array α := #[]
  deriving DecidableEq, Repr

namespace Arena

variable {k : Kind} {α : Type}

instance : Inhabited (Arena k α) := ⟨{}⟩

/-- The number of slots. -/
def size (a : Arena k α) : Nat := a.items.size

/-- The thing at a slot, if the arena has the slot. -/
def get? (a : Arena k α) (i : Slot k) : Option α := a.items[i.index]?

/-- The thing at a slot. -/
def get (a : Arena k α) (i : Slot k) : Except OutOfRange α :=
  match a.get? i with
  | some x => .ok x
  | none => .error ⟨a.size, i.index⟩

/-- The slot that the next thing added will have. -/
def nextSlot (a : Arena k α) : Slot k := ⟨a.size⟩

/-- Adds a thing at the next slot. -/
def push (a : Arena k α) (x : α) : Arena k α := ⟨a.items.push x⟩

/-- Changes the thing at a slot; nothing happens where the arena has no such slot. -/
def modify (a : Arena k α) (i : Slot k) (f : α → α) : Arena k α := ⟨a.items.modify i.index f⟩

/-- Changes the thing at a slot that the arena must have. -/
def update (a : Arena k α) (i : Slot k) (f : α → α) : Except OutOfRange (Arena k α) := do
  let _ ← a.get i
  return a.modify i f

/-- Changes everything. -/
def map (a : Arena k α) (f : α → α) : Arena k α := ⟨a.items.map f⟩

/-- Drops everything. -/
def clear (_ : Arena k α) : Arena k α where
  items := #[]

/-- All slots with what they hold, in order. -/
def entries (a : Arena k α) : List (Slot k × α) :=
  a.items.toList.zipIdx.map fun e => (⟨e.2⟩, e.1)

/-- All things in order. -/
def toList (a : Arena k α) : List α := a.items.toList

/-! ## What an arena shows

An arena is seen through `get?` and through `entries`; the two show the same. -/

theorem get_eq_ok_iff {a : Arena k α} {i : Slot k} {x : α} :
    a.get i = .ok x ↔ a.get? i = some x := by
  unfold get
  cases a.get? i <;> simp

theorem get?_eq_some_iff {a : Arena k α} {i : Slot k} {x : α} :
    a.get? i = some x ↔ a.toList[i.index]? = some x := by
  simp [get?, toList]

theorem get?_push (a : Arena k α) (x : α) (i : Slot k) :
    (a.push x).get? i = if i = a.nextSlot then some x else a.get? i := by
  have h : i = a.nextSlot ↔ i.index = a.items.size := by
    cases i
    simp [nextSlot, size]
  simp [get?, push, Array.getElem?_push, h]

theorem get?_modify (a : Arena k α) (i j : Slot k) (f : α → α) :
    (a.modify i f).get? j = if i = j then (a.get? j).map f else a.get? j := by
  have h : i = j ↔ i.index = j.index := by
    cases i
    cases j
    simp
  simp [get?, modify, Array.getElem?_modify, h]

theorem get?_map (a : Arena k α) (f : α → α) (i : Slot k) :
    (a.map f).get? i = (a.get? i).map f := by
  simp [get?, map]

theorem mem_entries_iff {a : Arena k α} {i : Slot k} {x : α} :
    (i, x) ∈ a.entries ↔ a.get? i = some x := by
  rw [entries, List.mem_map, get?_eq_some_iff]
  constructor
  · rintro ⟨e, he, h⟩
    obtain ⟨rfl, rfl⟩ := Prod.mk.inj h
    exact List.mem_zipIdx_iff_getElem?.mp he
  · intro h
    exact ⟨(x, i.index), List.mem_zipIdx_iff_getElem?.mpr h, rfl⟩

@[simp] theorem map_snd_entries (a : Arena k α) : a.entries.map Prod.snd = a.toList := by
  simp [entries, toList, Function.comp_def]

end Arena
end Renamer
