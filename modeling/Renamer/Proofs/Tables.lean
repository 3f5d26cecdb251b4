import Mathlib.Data.List.Nodup
import Mathlib.Data.List.Perm.Subperm
import Renamer.Table

/-!
# Looking up

A table answers for a key what the entry with that key holds. So does a table that was filled from a
list, where no two entries of the list have one key.
-/

namespace Renamer
namespace Table

variable {α β : Type} [DecidableEq α]

theorem find?_eq_some_iff {l : List (α × β)} (hl : (l.map Prod.fst).Nodup) {k : α} {v : β} :
    find? l k = some v ↔ (k, v) ∈ l := by
  induction l with
  | nil => simp [find?]
  | cons e l ih =>
    rcases e with ⟨key, value⟩
    rw [List.map_cons, List.nodup_cons] at hl
    rw [find?, List.mem_cons]
    by_cases hkey : key = k
    · -- the entry at the head is the only one with its key
      have hrest : (k, v) ∉ l := fun hmem =>
        hl.1 (List.mem_map.mpr ⟨(k, v), hmem, hkey.symm⟩)
      rw [if_pos hkey, hkey, Option.some.injEq, Prod.mk.injEq]
      simp [hrest, eq_comm]
    · have hne : k ≠ key := fun heq => hkey heq.symm
      rw [if_neg hkey, ih hl.2, Prod.mk.injEq]
      simp [hne]

theorem get?_eq_some_iff {t : Table α β} {k : α} {v : β} :
    t.get? k = some v ↔ (k, v) ∈ t.toList :=
  find?_eq_some_iff t.nodup_keys

/-- Putting entries into a table replaces what it held under their keys. -/
theorem get?_foldl_insert (t : Table α β) {l : List (α × β)} (hl : (l.map Prod.fst).Nodup) {k : α}
    {v : β} : (l.foldl (fun t e => t.insert e.1 e.2) t).get? k = some v ↔
      (k, v) ∈ l ∨ k ∉ l.map Prod.fst ∧ t.get? k = some v := by
  induction l generalizing t with
  | nil => simp
  | cons e l ih =>
    rcases e with ⟨key, value⟩
    rw [List.map_cons, List.nodup_cons] at hl
    rw [List.foldl_cons, ih (t.insert key value) hl.2, get?_insert, List.map_cons, List.mem_cons,
      List.mem_cons, Prod.mk.injEq]
    by_cases hkey : key = k
    · subst hkey
      have hrest : (key, v) ∉ l := fun hmem =>
        hl.1 (List.mem_map.mpr ⟨(key, v), hmem, rfl⟩)
      simp [hrest, hl.1, eq_comm]
    · have hne : k ≠ key := fun heq => hkey heq.symm
      rw [if_neg hkey]
      simp [hne]

theorem get?_ofList {l : List (α × β)} (hl : (l.map Prod.fst).Nodup) {k : α} {v : β} :
    (ofList l).get? k = some v ↔ (k, v) ∈ l := by
  have hempty : ({} : Table α β).get? k ≠ some v := fun h => by cases h
  rw [ofList, get?_foldl_insert _ hl]
  simp [hempty]

/-- What an insertion leaves in a table was there or is new. -/
theorem mem_insert {t : Table α β} {k : α} {v : β} {e : α × β} (h : e ∈ (t.insert k v).toList) :
    e = (k, v) ∨ e ∈ t.toList := by
  have hget := get?_eq_some_iff.mpr h
  rw [get?_insert] at hget
  split at hget
  · rename_i hkey
    exact Or.inl (Prod.ext hkey.symm (Option.some.inj hget).symm)
  · exact Or.inr (get?_eq_some_iff.mp hget)

/-- A table that was filled from a list holds no other entries. -/
theorem mem_of_mem_ofList {l : List (α × β)} {e : α × β} (h : e ∈ (ofList l).toList) : e ∈ l := by
  have hfill : ∀ (l : List (α × β)) (t : Table α β),
      e ∈ (l.foldl (fun t e => t.insert e.1 e.2) t).toList → e ∈ l ∨ e ∈ t.toList := by
    intro l
    induction l with
    | nil => exact fun _ => Or.inr
    | cons x l ih =>
      intro t h
      rcases ih _ h with hl | ht
      · exact Or.inl (List.mem_cons_of_mem x hl)
      · rcases mem_insert ht with rfl | hold
        · exact Or.inl List.mem_cons_self
        · exact Or.inr hold
  rcases hfill l {} h with hl | hnone
  · exact hl
  · cases hnone

/-! ## Entries in their order -/

/-- A new key comes last. -/
theorem toList_insert_of_get?_eq_none {t : Table α β} {k : α} (h : t.get? k = none) (v : β) :
    (t.insert k v).toList = t.toList ++ [(k, v)] := by
  have hall : ∀ l : List (α × β), k ∉ l.map Prod.fst → upsert l k v = l ++ [(k, v)] := by
    intro l hl
    induction l with
    | nil => rfl
    | cons e l ih =>
      rw [List.map_cons, List.mem_cons, not_or] at hl
      rw [upsert, if_neg fun heq => hl.1 heq.symm, ih hl.2]
      rfl
  exact hall t.toList ((get?_eq_none_iff t k).mp h)

/-- A table filled from its own entries is that table. -/
theorem ofList_toList (t : Table α β) : ofList t.toList = t := by
  have hfill : ∀ (l : List (α × β)) (s : Table α β), ((s.toList ++ l).map Prod.fst).Nodup →
      (l.foldl (fun s e => s.insert e.1 e.2) s).toList = s.toList ++ l := by
    intro l
    induction l with
    | nil => exact fun s _ => (List.append_nil _).symm
    | cons e l ih =>
      intro s hnodup
      have hnew : e.1 ∉ s.keys := by
        intro hmem
        rw [List.map_append] at hnodup
        have hapart := (List.nodup_append.mp hnodup).2.2
        exact hapart _ hmem _ (List.mem_map_of_mem List.mem_cons_self) rfl
      have hinsert : (s.insert e.1 e.2).toList = s.toList ++ [e] :=
        toList_insert_of_get?_eq_none ((get?_eq_none_iff s e.1).mpr hnew) e.2
      rw [List.append_cons] at hnodup ⊢
      rw [List.foldl_cons, ih _ (hinsert ▸ hnodup), hinsert]
  exact ext_toList (hfill t.toList {} t.nodup_keys)

/-- Tables with the same entries list them in some order each. -/
theorem perm_of_sameEntries [DecidableEq β] {s t : Table α β} (h : s.sameEntries t = true) :
    s.toList.Perm t.toList := by
  rw [sameEntries, Bool.and_eq_true, beq_iff_eq, List.all_eq_true] at h
  have hsubset : s.toList ⊆ t.toList := fun e he =>
    get?_eq_some_iff.mp (of_decide_eq_true (h.2 e he))
  have hnodup : s.toList.Nodup := List.Nodup.of_map _ s.nodup_keys
  exact (List.subperm_of_subset hnodup hsubset).perm_of_length_le (Nat.le_of_eq h.1.symm)

theorem sameEntries_self [DecidableEq β] (t : Table α β) : t.sameEntries t = true := by
  rw [sameEntries, Bool.and_eq_true, beq_iff_eq, List.all_eq_true]
  exact ⟨rfl, fun e he => decide_eq_true (get?_eq_some_iff.mpr he)⟩

/-! ## Tables with the same keys -/

/-- Tables that have the same keys, in one order, and show the same of what they hold under them,
show the same of their entries. -/
theorem map_toList_congr {γ : Type} {f : β → γ} {s t : Table α β} (hkeys : s.keys = t.keys)
    (hget : ∀ k, (s.get? k).map f = (t.get? k).map f) :
    s.toList.map (fun e => (e.1, f e.2)) = t.toList.map fun e => (e.1, f e.2) := by
  -- a table is told by its keys and by what it holds under them
  have htold : ∀ t : Table α β, t.toList.map (fun e => (e.1, f e.2)) =
      t.keys.filterMap fun k => ((t.get? k).map f).map fun v => (k, v) := by
    intro t
    rw [keys, List.filterMap_map, ← List.filterMap_eq_map]
    refine List.filterMap_congr fun e he => ?_
    rw [Function.comp_apply, Function.comp_apply, get?_eq_some_iff.mpr he]
    rfl
  rw [htold s, htold t, hkeys]
  exact congrArg (List.filterMap · t.keys) (funext fun k => by rw [hget])

theorem ext_get? {s t : Table α β} (hkeys : s.keys = t.keys) (hget : ∀ k, s.get? k = t.get? k) :
    s = t := by
  refine ext_toList ?_
  have hsame := map_toList_congr (f := id) hkeys fun k => by rw [hget]
  have hid : ∀ l : List (α × β), l.map (fun e => (e.1, id e.2)) = l := fun l => List.map_id l
  rwa [hid, hid] at hsame

theorem mem_keys_iff {t : Table α β} {k : α} : k ∈ t.keys ↔ ∃ v, t.get? k = some v := by
  rw [← Option.ne_none_iff_exists', ne_eq, get?_eq_none_iff, not_not]

/-- A key that is there keeps its place. -/
theorem keys_insert_of_get? {t : Table α β} {k : α} {v : β} (h : t.get? k = some v) (v' : β) :
    (t.insert k v').keys = t.keys := by
  rw [keys_insert, if_pos (mem_keys_iff.mpr ⟨v, h⟩)]

/-- Putting what a table holds under a key there again changes nothing. -/
theorem insert_of_get? {t : Table α β} {k : α} {v : β} (h : t.get? k = some v) :
    t.insert k v = t := by
  refine ext_get? (keys_insert_of_get? h v) fun k' => ?_
  rw [get?_insert]
  split
  · rename_i heq
    rw [← heq, h]
  · rfl

end Table
end Renamer
