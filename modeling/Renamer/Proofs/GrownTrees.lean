import Renamer.Proofs.Finishing
import Renamer.Proofs.LinkedTrees

/-!
# Trees as the operations leave them

What creating, assigning and deciding keep of the shape of a package tree, and of the order of
decisions (`PackageTree.Grown`).

Deciding a package comes to deciding one package after the other, outermost first, each of them
alone (`PackageTree.decide_eq_decideOne`) or with those above it
(`PackageTree.decide_eq_foldl`).
-/

namespace Renamer

/-- A package is longer than those above it. -/
theorem PackagePath.ne_of_mem_lineage {path a : PackagePath} (h : a ∈ path.lineage)
    (segment : String) : a ≠ path ++ [segment] := by
  intro heq
  have hle := (mem_lineage.mp h).2.length_le
  rw [heq, List.length_append, List.length_singleton] at hle
  omega

namespace PackageTree

variable {t : PackageTree} {path a b : PackagePath} {id : PackageId} {n : PackageNode}

/-- Packages are found at their paths, which are made of segments; those above a package are there
and older; and what was decided is there, each package once. -/
structure Grown (t : PackageTree) : Prop where
  linked : t.Linked
  segments : ∀ {path}, t.Has path → ∀ s ∈ path, PackagePath.IsSegment s
  older : ∀ {path id above}, path ≠ [] → t.find? path = some id →
    t.find? path.dropLast = some above → above < id
  ordered : ∀ a ∈ t.order, t.Has a ∧ a ≠ []
  nodup : t.order.Nodup

theorem grown_empty : Grown {} where
  linked := linked_empty
  segments := by
    intro path hhas
    rw [has_empty_iff.mp hhas]
    exact fun s hs => absurd hs List.not_mem_nil
  older := fun hne hfind => by
    have hhas : ({} : PackageTree).Has _ := find?_isSome_iff.mp (by rw [hfind]; rfl)
    exact absurd (has_empty_iff.mp hhas) hne
  ordered := fun a ha => absurd ha List.not_mem_nil
  nodup := List.nodup_nil

theorem has_of_find? (h : t.find? path = some id) : t.Has path :=
  find?_isSome_iff.mp (by rw [h]; rfl)

theorem find?_eq_none (h : ¬ t.Has path) : t.find? path = none := by
  rw [← find?_isSome_iff] at h
  simpa using h

/-- A package is found in its slot. -/
theorem Linked.find?_eq (h : t.Linked) (hn : t.nodes.get? id = some n) :
    t.find? n.path = some id :=
  find?_of_entryAt? (h.found hn)

theorem Linked.find?_nil (h : t.Linked) : t.find? [] = some root := by
  obtain ⟨n, hn, hpath⟩ := h.unnamed
  rw [← hpath]
  exact h.find?_eq hn

theorem get?_of_find? (h : t.find? path = some id) :
    ∃ n, t.nodes.get? id = some n ∧ n.path = path := by
  obtain ⟨⟨id', n⟩, hentry, rfl⟩ := Option.map_eq_some_iff.mp h
  exact ⟨n, mem_of_entryAt? hentry⟩

theorem Linked.aliasOf_eq (h : t.Linked) (hn : t.nodes.get? id = some n) :
    t.aliasOf n.path = n.newName := by
  rw [aliasOf, h.found hn]
  rfl

/-- Each slot is that of one path. -/
theorem eq_of_find?_eq (ha : t.find? a = some id) (hb : t.find? b = some id) : a = b := by
  obtain ⟨n, hn, hpath⟩ := get?_of_find? ha
  obtain ⟨m, hm, hpath'⟩ := get?_of_find? hb
  cases hn.symm.trans hm
  exact hpath.symm.trans hpath'

/-- A package has the path that its slot is found at. -/
theorem Linked.path_eq_iff (h : t.Linked) (hfind : t.find? path = some id) {i : PackageId}
    (hn : t.nodes.get? i = some n) : n.path = path ↔ id = i := by
  have hown := h.find?_eq hn
  constructor
  · intro heq
    rw [heq, hfind] at hown
    exact Option.some.inj hown
  · rintro rfl
    exact eq_of_find?_eq hown hfind

theorem Linked.has_of_mem_lineage (h : t.Linked) (hhas : t.Has path) (ha : a ∈ path.lineage) :
    t.Has a :=
  h.has_of_prefix hhas (PackagePath.mem_lineage.mp ha).2

theorem find?_ensure (t : PackageTree) (path a : PackagePath) :
    (t.ensure path).find? a =
      if a = path then some ((t.find? path).getD t.nodes.nextSlot) else t.find? a := by
  unfold ensure
  split
  · rename_i hthere
    obtain ⟨id, hid⟩ := Option.isSome_iff_exists.mp hthere
    split
    · rename_i ha
      rw [ha, hid]
      rfl
    · rfl
  · rename_i hmissing
    have hnew : t.find? path = none := by simpa using hmissing
    rw [hnew, find?, entryAt?_push hnew]
    split
    · rfl
    · rfl

/-- What is there is not created again. -/
theorem Linked.create_eq_self (h : t.Linked) (hhas : t.Has path) : t.create path = t :=
  PackageTree.create_eq_self fun _ ha => h.has_of_mem_lineage hhas ha

/-- What is created is found in the slot that is answered. -/
theorem Linked.find?_getOrCreate (h : t.Linked) (text : String) :
    (t.getOrCreate text).2.find? (PackagePath.ofText text) = some (t.getOrCreate text).1 := by
  obtain ⟨id, hid⟩ := Option.isSome_iff_exists.mp (find?_isSome_iff.mpr
    (has_create_self h.has_nil (PackagePath.ofText text)))
  unfold getOrCreate
  dsimp only
  rw [hid, Option.getD_some]

theorem find?_assign (path : PackagePath) (newName : String) (a : PackagePath) :
    (t.assign path newName).find? a = t.find? a := by
  rw [find?, entryAt?_assign, Option.map_map]
  rfl

theorem Grown.ensure (h : t.Grown) (hhas : t.Has path.dropLast)
    (hpath : ∀ s ∈ path, PackagePath.IsSegment s) : (t.ensure path).Grown := by
  have horder : (t.ensure path).order = t.order := by
    unfold PackageTree.ensure
    split <;> rfl
  refine ⟨h.linked.ensure hhas, fun {a} ha => ?_, fun {a id above} hne hid habove => ?_,
    fun a ha => ?_, horder ▸ h.nodup⟩
  · rcases has_ensure_iff.mp ha with hold | heq
    · exact h.segments hold
    · exact heq ▸ hpath
  · rw [find?_ensure] at hid habove
    by_cases hthere : t.Has path
    · -- nothing is new
      obtain ⟨own, hown⟩ := Option.isSome_iff_exists.mp (find?_isSome_iff.mpr hthere)
      have hsame : ∀ b, (if b = path then some ((t.find? path).getD t.nodes.nextSlot)
          else t.find? b) = t.find? b := by
        intro b
        split
        · rename_i hb
          rw [hb, hown]
          rfl
        · rfl
      rw [hsame] at hid habove
      exact h.older hne hid habove
    · have hfresh : a.dropLast ≠ path := by
        intro heq
        rw [← heq] at hthere
        by_cases ha : a = path
        · rw [ha] at hthere
          exact hthere hhas
        · rw [if_neg ha] at hid
          exact hthere (h.linked.above (has_of_find? hid))
      rw [if_neg hfresh] at habove
      by_cases ha : a = path
      · rw [if_pos ha, find?_eq_none hthere] at hid
        cases hid
        obtain ⟨n, hn, -⟩ := get?_of_find? habove
        exact Arena.index_lt_of_get? hn
      · rw [if_neg ha] at hid
        exact h.older hne hid habove
  · rw [horder] at ha
    exact ⟨(h.ordered a ha).1.ensure path, (h.ordered a ha).2⟩

theorem Grown.create (h : t.Grown) (hpath : ∀ s ∈ path, PackagePath.IsSegment s) :
    (t.create path).Grown := by
  induction path using List.reverseRecOn with
  | nil => exact h
  | append_singleton path s ih =>
    rw [create_append_singleton]
    refine (ih fun s hs => hpath s (List.mem_append_left _ hs)).ensure ?_ hpath
    rw [List.dropLast_concat]
    exact has_create_self h.linked.has_nil path

theorem Grown.assign (h : t.Grown) (path : PackagePath) (newName : String) :
    (t.assign path newName).Grown where
  linked := h.linked.assign path newName
  segments := fun ha => h.segments ((has_assign path newName).mp ha)
  older := fun {a id above} hne hid habove => by
    rw [find?_assign] at hid habove
    exact h.older hne hid habove
  ordered := fun a ha => ⟨(h.ordered a ha).1.assign path newName, (h.ordered a ha).2⟩
  nodup := h.nodup

theorem Grown.ordering (h : t.Grown) (hhas : t.Has path) (hne : path ≠ []) (hnew : path ∉ t.order) :
    ({ t with order := t.order ++ [path] } : PackageTree).Grown where
  linked := h.linked.ordered _
  segments := h.segments
  older := h.older
  ordered := by
    intro a ha
    rcases List.mem_append.mp ha with hold | hlast
    · exact h.ordered a hold
    · rw [List.mem_singleton.mp hlast]
      exact ⟨hhas, hne⟩
  nodup := by
    refine List.nodup_append.mpr ⟨h.nodup, List.nodup_singleton _, fun a ha b hb heq => hnew ?_⟩
    rw [← List.mem_singleton.mp hb, ← heq]
    exact ha

theorem Grown.decideOne (h : t.Grown) (hhas : t.Has path) (hne : path ≠ [])
    (wants : String → Bool) (source : NameSource) :
    (PackageTree.decideOne wants (t, source) path).1.Grown := by
  unfold PackageTree.decideOne
  dsimp only
  split
  · exact h
  · rename_i hnew
    have hnew : path ∉ t.order := fun hmem => hnew (List.contains_iff_mem.mpr hmem)
    have hordered := h.ordering hhas hne hnew
    split
    · exact hordered.assign path _
    · exact hordered

/-- What is decided last gets the last place. -/
theorem decidedAt_append (hnew : path ∉ t.order) (a : PackagePath) :
    ({ t with order := t.order ++ [path] } : PackageTree).decidedAt a =
      if a = path then some t.order.length else t.decidedAt a := by
  have hfirst := List.idxOf?_eq_none_iff (l := t.order) (a := path)
  unfold decidedAt List.idxOf? at *
  rw [List.findIdx?_append]
  by_cases ha : a = path
  · rw [if_pos ha, ha, hfirst.mpr hnew]
    simp
  · have hne : ¬ path = a := fun heq => ha heq.symm
    simp [ha, hne]

/-- Deciding changes no slot. -/
theorem find?_decide (wants : String → Bool) (source : NameSource) (a : PackagePath) :
    (t.decide path wants source).1.find? a = t.find? a := by
  unfold PackageTree.decide
  split
  · rfl
  · apply List.foldlRecOn (motive := fun s : PackageTree × NameSource => s.1.find? a = t.find? a)
    · rfl
    · exact fun s hs b _ => (find?_decideOne wants s b a).trans hs

theorem Grown.decide (h : t.Grown) (hhas : t.Has path) (wants : String → Bool)
    (source : NameSource) : (t.decide path wants source).1.Grown := by
  have hall : ∀ a ∈ path.lineage, t.Has a := fun a ha => h.linked.has_of_mem_lineage hhas ha
  have hboth : (t.decide path wants source).1.Grown ∧
      ∀ a, (t.decide path wants source).1.find? a = t.find? a := by
    unfold PackageTree.decide
    split
    · exact ⟨h, fun a => rfl⟩
    · apply List.foldlRecOn (motive := fun s : PackageTree × NameSource =>
        s.1.Grown ∧ ∀ a, s.1.find? a = t.find? a)
      · exact ⟨h, fun a => rfl⟩
      · rintro ⟨t', source'⟩ hs b hb
        have hb := (List.mem_filter.mp hb).1
        have hhasb : t'.Has b := by
          rw [← find?_isSome_iff, hs.2, find?_isSome_iff]
          exact hall b hb
        exact ⟨hs.1.decideOne hhasb (PackagePath.mem_lineage.mp hb).1 wants source',
          fun a => (find?_decideOne wants _ b a).trans (hs.2 a)⟩
  exact hboth.1

/-! ## One package after the other -/

theorem decideOne_of_mem {wants : String → Bool} {s : PackageTree × NameSource}
    (h : path ∈ s.1.order) : PackageTree.decideOne wants s path = s := by
  unfold PackageTree.decideOne
  dsimp only
  rw [if_pos (List.contains_iff_mem.mpr h)]

/-- No other package gets or loses an alias. -/
theorem Decides.aliasOf_of_ne {wants : String → Bool} {s s' : PackageTree × NameSource}
    (h : Decides wants path s s') (hhas : s.1.Has path) {a : PackagePath} (ha : a ≠ path) :
    s'.1.aliasOf a = s.1.aliasOf a := by
  cases h with
  | again _ => rfl
  | keep _ => rfl
  | @draw t _ n _ _ _ =>
    have hordered : ({ t with order := t.order ++ [path] } : PackageTree).Has path := hhas
    rw [aliasOf_assign hordered, if_neg ha]
    rfl

/-- The unnamed package is never decided, and no other one twice. -/
theorem decide_eq_self (h : path = [] ∨ path ∈ t.order) (wants : String → Bool)
    (source : NameSource) : t.decide path wants source = (t, source) := by
  unfold PackageTree.decide
  split
  · rfl
  · rename_i hnew
    have hnil := h.resolve_right fun hmem => hnew (List.contains_iff_mem.mpr hmem)
    rw [hnil]
    rfl

/-- A package is decided alone where those above it have aliases or have been decided. -/
theorem decide_eq_decideOne (hne : path ≠ [])
    (h : ∀ a ∈ path.lineage, a ≠ path → (t.aliasOf a).isSome = true ∨ a ∈ t.order)
    (wants : String → Bool) (source : NameSource) :
    t.decide path wants source = PackageTree.decideOne wants (t, source) path := by
  unfold PackageTree.decide
  split
  · rename_i hmem
    exact (decideOne_of_mem (s := (t, source)) (List.contains_iff_mem.mp hmem)).symm
  · obtain ⟨front, s, rfl⟩ : ∃ (front : PackagePath) (s : String), path = front ++ [s] :=
      ⟨_, _, (List.dropLast_append_getLast hne).symm⟩
    rw [PackagePath.lineage_append_singleton, List.filter_append, List.foldl_append]
    have hlast : ([front ++ [s]] : List PackagePath).filter
        (fun p => p == front ++ [s] || (t.aliasOf p).isNone) = [front ++ [s]] := by
      simp
    rw [hlast, List.foldl_cons, List.foldl_nil]
    congr 1
    apply List.foldlRecOn (motive := fun s : PackageTree × NameSource => s = (t, source))
    · rfl
    · rintro s' rfl a ha
      obtain ⟨hmem, hwhy⟩ := List.mem_filter.mp ha
      have hshort := PackagePath.ne_of_mem_lineage hmem s
      have hnone : t.aliasOf a = none := by
        simpa [hshort] using hwhy
      have hin : a ∈ PackagePath.lineage (front ++ [s]) := by
        rw [PackagePath.lineage_append_singleton]
        exact List.mem_append_left _ hmem
      refine decideOne_of_mem ((h a hin hshort).resolve_left ?_)
      rw [hnone]
      exact Bool.false_ne_true

/-- Decides a package unless it has an alias. -/
def decideBare (wants : String → Bool) (s : PackageTree × NameSource) (path : PackagePath) :
    PackageTree × NameSource :=
  if (s.1.aliasOf path).isSome then s else s.1.decide path wants s.2

/-- The packages `l` of `t` call for no decision in `u` any more: they have aliases or have been
decided. No other package has got an alias. -/
structure Cleared (t : PackageTree) (l : List PackagePath) (u : PackageTree) : Prop where
  has : ∀ a, u.Has a ↔ t.Has a
  cleared : ∀ a ∈ l, (u.aliasOf a).isSome = true ∨ a ∈ u.order
  others : ∀ a, a ∉ l → u.aliasOf a = t.aliasOf a

theorem Cleared.named {l : List PackagePath} {u : PackageTree} (h : Cleared t l u)
    (hname : (u.aliasOf a).isSome = true) : Cleared t (l ++ [a]) u where
  has := h.has
  cleared := by
    intro b hb
    rcases List.mem_append.mp hb with hmem | hlast
    · exact h.cleared b hmem
    · rw [List.mem_singleton.mp hlast]
      exact Or.inl hname
  others := fun b hb => h.others b fun hmem => hb (List.mem_append_left _ hmem)

theorem Cleared.decides {wants : String → Bool} {l : List PackagePath}
    {s s' : PackageTree × NameSource} (h : Cleared t l s.1) (hd : Decides wants a s s')
    (hhas : t.Has a) (hnew : a ∉ l) : Cleared t (l ++ [a]) s'.1 := by
  have hothers : ∀ b, b ≠ a → s'.1.aliasOf b = s.1.aliasOf b := fun b hb =>
    hd.aliasOf_of_ne ((h.has a).mpr hhas) hb
  refine ⟨fun b => hd.has.trans (h.has b), fun b hb => ?_, fun b hb => ?_⟩
  · rcases List.mem_append.mp hb with hmem | hlast
    · rw [hothers b fun heq => hnew (heq ▸ hmem)]
      exact (h.cleared b hmem).imp_right fun hin => hd.mem_order_iff.mpr (Or.inl hin)
    · exact Or.inr (hd.mem_order_iff.mpr (Or.inr (List.mem_singleton.mp hlast)))
  · rw [List.mem_append, List.mem_singleton, not_or] at hb
    rw [hothers b hb.2, h.others b hb.1]

/-- Passing the packages on a way, outermost first, decides those that have no alias at first. -/
theorem foldl_decideBare_eq {front : PackagePath} (hhas : ∀ a ∈ front.lineage, t.Has a)
    (wants : String → Bool) (source : NameSource) :
    let s := (front.lineage.filter fun p => (t.aliasOf p).isNone).foldl
      (PackageTree.decideOne wants) (t, source)
    front.lineage.foldl (decideBare wants) (t, source) = s ∧ Cleared t front.lineage s.1 := by
  induction front using List.reverseRecOn with
  | nil => exact ⟨rfl, fun a => Iff.rfl, fun a ha => absurd ha List.not_mem_nil, fun a _ => rfl⟩
  | append_singleton front x ih =>
    rw [PackagePath.lineage_append_singleton] at hhas ⊢
    obtain ⟨heq, hcleared⟩ := ih fun a ha => hhas a (List.mem_append_left _ ha)
    dsimp only
    rw [List.foldl_append, heq, List.foldl_cons, List.foldl_nil, List.filter_append,
      List.foldl_append]
    generalize ((PackagePath.lineage front).filter fun p => (t.aliasOf p).isNone).foldl
      (PackageTree.decideOne wants) (t, source) = s at heq hcleared
    have hlast : front ++ [x] ∉ PackagePath.lineage front := fun hmem =>
      PackagePath.ne_of_mem_lineage hmem x rfl
    have halias := hcleared.others _ hlast
    cases hx : t.aliasOf (front ++ [x]) with
    | some name =>
      have hnamed : (s.1.aliasOf (front ++ [x])).isSome = true := by
        rw [halias, hx]
        rfl
      have hfilter : [front ++ [x]].filter (fun p => (t.aliasOf p).isNone) = [] := by
        simp [hx]
      rw [hfilter, List.foldl_nil, decideBare, if_pos hnamed]
      exact ⟨rfl, hcleared.named hnamed⟩
    | none =>
      have hfilter : [front ++ [x]].filter (fun p => (t.aliasOf p).isNone) = [front ++ [x]] := by
        simp [hx]
      have halone : s.1.decide (front ++ [x]) wants s.2 =
          PackageTree.decideOne wants s (front ++ [x]) := by
        refine decide_eq_decideOne (by simp) (fun a ha hne => ?_) wants s.2
        rw [PackagePath.lineage_append_singleton] at ha
        exact hcleared.cleared a ((List.mem_append.mp ha).resolve_right fun hmem =>
          hne (List.mem_singleton.mp hmem))
      rw [hfilter, List.foldl_cons, List.foldl_nil, decideBare, halias, hx, Option.isSome_none,
        if_neg Bool.false_ne_true, halone]
      exact ⟨rfl, hcleared.decides (decides_decideOne wants s _)
        (hhas _ (List.mem_append_right _ List.mem_cons_self)) hlast⟩

/-- A package is decided after the packages above it that have no alias, each of which is decided
like itself. -/
theorem decide_eq_foldl {front : PackagePath} {segment : String}
    (hhas : ∀ a ∈ front.lineage, t.Has a) (hnew : front ++ [segment] ∉ t.order)
    (wants : String → Bool) (source : NameSource) :
    t.decide (front ++ [segment]) wants source =
      PackageTree.decideOne wants (front.lineage.foldl (decideBare wants) (t, source))
        (front ++ [segment]) := by
  rw [(foldl_decideBare_eq hhas wants source).1, PackageTree.decide,
    if_neg fun hmem => hnew (List.contains_iff_mem.mp hmem),
    PackagePath.lineage_append_singleton, List.filter_append, List.foldl_append]
  have hlast : ([front ++ [segment]] : List PackagePath).filter
      (fun p => p == front ++ [segment] || (t.aliasOf p).isNone) = [front ++ [segment]] := by
    simp
  rw [hlast, List.foldl_cons, List.foldl_nil]
  congr 2
  refine List.filter_congr fun a ha => ?_
  simp [PackagePath.ne_of_mem_lineage ha segment]

theorem find?_decideBare (wants : String → Bool) (s : PackageTree × NameSource)
    (path a : PackagePath) : (decideBare wants s path).1.find? a = s.1.find? a := by
  unfold decideBare
  split
  · rfl
  · exact find?_decide wants s.2 a

theorem Grown.decideBare {s : PackageTree × NameSource} (h : s.1.Grown) (hhas : s.1.Has path)
    (wants : String → Bool) : (PackageTree.decideBare wants s path).1.Grown := by
  unfold PackageTree.decideBare
  split
  · exact h
  · exact h.decide hhas wants s.2

/-- Deciding puts none but the packages on the way among those decided. -/
theorem mem_order_of_mem_decide {wants : String → Bool} {source : NameSource} {a : PackagePath}
    (ha : a ∈ (t.decide path wants source).1.order) : a ∈ t.order ∨ a ∈ path.lineage :=
  decide_induct (motive := fun s => ∀ a ∈ s.1.order, a ∈ t.order ∨ a ∈ path.lineage)
    (fun _ ha => Or.inl ha) (fun _ _ _ hb hd hs a ha =>
      (hd.mem_order_iff.mp ha).elim (hs a) fun heq => Or.inr (heq ▸ hb)) a ha

/-- The packages above a package are older. -/
theorem Grown.index_lt_of_lineage (h : t.Grown) {front a : PackagePath} {segment : String}
    {above : PackageId} (hid : t.find? (front ++ [segment]) = some id) (ha : a ∈ front.lineage)
    (habove : t.find? a = some above) : above.index < id.index := by
  induction front using List.reverseRecOn generalizing segment id with
  | nil => exact absurd ha List.not_mem_nil
  | append_singleton front s ih =>
    obtain ⟨parent, hparent⟩ := Option.isSome_iff_exists.mp
      (find?_isSome_iff.mpr (h.linked.above (has_of_find? hid)))
    have hlt : parent.index < id.index := h.older (by simp) hid hparent
    rw [List.dropLast_concat] at hparent
    rw [PackagePath.lineage_append_singleton] at ha
    rcases List.mem_append.mp ha with hmem | hlast
    · exact Nat.lt_trans (ih hparent hmem) hlt
    · rw [List.mem_singleton.mp hlast, hparent] at habove
      cases habove
      exact hlt

/-- When those above a package have been passed, the tree is still one that the operations leave,
and the package itself has not been decided. -/
theorem Grown.foldl_decideBare (h : t.Grown) {front : PackagePath} {segment : String}
    (hhas : t.Has front) (hnew : front ++ [segment] ∉ t.order) (wants : String → Bool)
    (source : NameSource) :
    let u := (front.lineage.foldl (PackageTree.decideBare wants) (t, source)).1
    u.Grown ∧ (∀ a, u.find? a = t.find? a) ∧ front ++ [segment] ∉ u.order := by
  apply List.foldlRecOn (motive := fun s : PackageTree × NameSource =>
    s.1.Grown ∧ (∀ a, s.1.find? a = t.find? a) ∧ front ++ [segment] ∉ s.1.order)
  · exact ⟨h, fun a => rfl, hnew⟩
  · rintro s ⟨hs, hfind, hlast⟩ a ha
    have hpre := (PackagePath.mem_lineage.mp ha).2
    have hhasa : s.1.Has a := by
      rw [← find?_isSome_iff, hfind, find?_isSome_iff]
      exact h.linked.has_of_prefix hhas hpre
    refine ⟨hs.decideBare hhasa wants, fun b => (find?_decideBare wants s a b).trans (hfind b),
      fun hmem => ?_⟩
    unfold PackageTree.decideBare at hmem
    split at hmem
    · exact hlast hmem
    · -- what is decided along with `a` is not longer than it
      have hin := (mem_order_of_mem_decide hmem).resolve_left hlast
      have hle := ((PackagePath.mem_lineage.mp hin).2.trans hpre).length_le
      rw [List.length_append, List.length_singleton] at hle
      omega

end PackageTree

end Renamer
