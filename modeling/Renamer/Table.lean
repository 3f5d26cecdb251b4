/-!
# Ordered tables

A table maps keys to values and remembers the order in which its keys first came.
Three things live here:

* `Table`, a list of entries with pairwise distinct keys;
* `insert`, which keeps the place of a known key and takes the new value, and appends a new
  key at the end;
* `sameEntries`, equality of tables as maps, without regard to order.

What a table shows is `toList` (its order) and `get?` (its content); each operation is
described by one small lemma on either view.
-/

namespace Renamer

/-! ## Entries -/

/-- A finite map that remembers the order of first insertion. -/
structure Table (α β : Type) where
  /-- The entries, oldest key first. -/
  toList : List (α × β) := []
  /-- No key occurs twice. -/
  nodup_keys : (toList.map Prod.fst).Nodup := by exact List.nodup_nil

namespace Table

variable {α β : Type}

instance : Inhabited (Table α β) := ⟨{}⟩

theorem ext_toList {s t : Table α β} (h : s.toList = t.toList) : s = t := by
  cases s
  cases t
  simp_all

instance [DecidableEq α] [DecidableEq β] : DecidableEq (Table α β) := fun s t =>
  decidable_of_iff (s.toList = t.toList) ⟨ext_toList, congrArg toList⟩

/-- The keys, oldest first. -/
def keys (t : Table α β) : List α := t.toList.map Prod.fst

/-- The number of entries. -/
def size (t : Table α β) : Nat := t.toList.length

/-- Drops all entries. -/
def clear (_ : Table α β) : Table α β := {}

/-- There is no entry. -/
def isEmpty (t : Table α β) : Bool := t.toList.isEmpty

variable [DecidableEq α]

/-! ## Looking up -/

/-- The value at the first entry with key `k`. -/
def find? : List (α × β) → α → Option β
  | [], _ => none
  | (key, value) :: rest, k => if key = k then some value else find? rest k

/-- The value at key `k`, if there is one. -/
def get? (t : Table α β) (k : α) : Option β := find? t.toList k

/-- There is an entry with key `k`. -/
def contains (t : Table α β) (k : α) : Bool := (t.get? k).isSome

/-! ## Inserting -/

/-- Puts `v` at key `k`: in place when the key is there, else as a new last entry. -/
def upsert : List (α × β) → α → β → List (α × β)
  | [], k, v => [(k, v)]
  | (key, value) :: rest, k, v =>
    if key = k then (key, v) :: rest else (key, value) :: upsert rest k v

theorem map_fst_upsert (l : List (α × β)) (k : α) (v : β) :
    (upsert l k v).map Prod.fst =
      if k ∈ l.map Prod.fst then l.map Prod.fst else l.map Prod.fst ++ [k] := by
  induction l with
  | nil => simp [upsert]
  | cons e rest ih =>
    obtain ⟨key, value⟩ := e
    by_cases h : key = k
    · subst h
      simp [upsert]
    · have hk : ¬ k = key := fun e => h e.symm
      by_cases hr : k ∈ rest.map Prod.fst
      · simp [upsert, h, ih, hr]
      · rw [upsert, if_neg h, List.map_cons, ih, if_neg hr, List.map_cons,
          if_neg (by simpa [hk] using hr)]
        rfl

/-- Maps `k` to `v`: a known key keeps its place, a new one comes last. -/
def insert (t : Table α β) (k : α) (v : β) : Table α β where
  toList := upsert t.toList k v
  nodup_keys := by
    rw [map_fst_upsert]
    split
    · exact t.nodup_keys
    · rename_i h
      rw [List.nodup_append]
      exact ⟨t.nodup_keys, by simp, by
        intro a ha b hb
        rw [List.mem_singleton] at hb
        exact fun e => h (hb ▸ e ▸ ha)⟩

/-- The entries of a list put into a table one after the other. -/
def ofList (entries : List (α × β)) : Table α β :=
  entries.foldl (fun t e => t.insert e.1 e.2) {}

/-- `s` overlaid with the entries of `t`, in their order. -/
def overlay (s t : Table α β) : Table α β :=
  t.toList.foldl (fun s e => s.insert e.1 e.2) s

theorem keys_insert (t : Table α β) (k : α) (v : β) :
    (t.insert k v).keys = if k ∈ t.keys then t.keys else t.keys ++ [k] :=
  map_fst_upsert t.toList k v

theorem find?_upsert (l : List (α × β)) (k k' : α) (v : β) :
    find? (upsert l k v) k' = if k = k' then some v else find? l k' := by
  induction l with
  | nil => simp [upsert, find?]
  | cons e rest ih =>
    obtain ⟨key, value⟩ := e
    by_cases h : key = k
    · subst h
      simp only [upsert, if_pos, find?]
      split <;> rfl
    · rw [upsert, if_neg h, find?, find?, ih]
      by_cases hk : key = k'
      · rw [if_pos hk, if_pos hk, if_neg (fun e => h (hk.trans e.symm))]
      · rw [if_neg hk, if_neg hk]

/-- After an insertion the key holds the new value, and every other key what it held. -/
theorem get?_insert (t : Table α β) (k k' : α) (v : β) :
    (t.insert k v).get? k' = if k = k' then some v else t.get? k' :=
  find?_upsert t.toList k k' v

theorem find?_eq_none_iff (l : List (α × β)) (k : α) :
    find? l k = none ↔ k ∉ l.map Prod.fst := by
  induction l with
  | nil => simp [find?]
  | cons e rest ih =>
    obtain ⟨key, value⟩ := e
    by_cases h : key = k
    · simp [find?, h]
    · have hk : ¬ k = key := fun e => h e.symm
      simp [find?, h, hk, ih]

/-- A key is absent exactly when it is none of the keys. -/
theorem get?_eq_none_iff (t : Table α β) (k : α) : t.get? k = none ↔ k ∉ t.keys :=
  find?_eq_none_iff t.toList k

/-! ## Equality without order -/

/-- Both tables hold the same entries, in whatever order: they are equally long, and every
entry of `s` is found in `t`. -/
def sameEntries [DecidableEq β] (s t : Table α β) : Bool :=
  s.size == t.size && s.toList.all fun e => decide (t.get? e.1 = some e.2)

end Table
end Renamer
