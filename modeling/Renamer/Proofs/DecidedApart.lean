import Renamer.Proofs.TreeCalls

/-!
# Deciding keeps packages apart

Packages are created first, none with an alias, and then some of them are decided, in any order and
any number of times. Each call has its own predicate and its own source of names. Still packages
are told apart by what is emitted for them, and a package is decided by the first call for it only
(`TreeCall.packages_decided_apart`).
-/

namespace Renamer

/-- Where every element has an image, the images stand where the elements do. -/
theorem getElem?_filterMap_of_isSome {α β : Type} {f : α → Option β} {l : List α}
    (h : ∀ a ∈ l, (f a).isSome = true) (k : Nat) : (l.filterMap f)[k]? = l[k]?.bind f := by
  induction l generalizing k with
  | nil => rfl
  | cons a l ih =>
    obtain ⟨b, hb⟩ := Option.isSome_iff_exists.mp (h a List.mem_cons_self)
    rw [List.filterMap_cons_some hb]
    cases k with
    | zero => exact hb.symm
    | succ k =>
      rw [List.getElem?_cons_succ, List.getElem?_cons_succ]
      exact ih (fun c hc => h c (List.mem_cons_of_mem a hc)) k

namespace PackageTree

variable {t : PackageTree} {path a b : PackagePath} {id : PackageId} {n : PackageNode}

/-! ## What is emitted -/

/-- No package has its own segment as its alias. -/
theorem Apart.newName_ne (h : t.Apart) (ht : t.Linked) (hn : t.nodes.get? id = some n) :
    n.newName ≠ some n.segment := by
  intro hname
  have halias := (ht.aliasOf_eq hn).trans hname
  have hne : n.path ≠ [] := fun hnil => by
    rw [hnil, h.ne_nil] at halias
    cases halias
  exact h.segment halias ⟨id, n, hn, rfl⟩ hne rfl rfl

/-- Packages side by side have different segments in the end. -/
theorem Apart.nodup_finalSegment (h : t.Apart) (ht : t.Linked) (path : PackagePath) :
    ((t.children path).map fun e => e.2.finalSegment).Nodup := by
  refine List.Nodup.map_on (fun e he e' he' heq => ?_)
    ((List.Nodup.of_map _ t.nodes.nodup_entries).filter _)
  obtain ⟨hn, hpath⟩ := mem_children_iff.mp he
  obtain ⟨hn', hpath'⟩ := mem_children_iff.mp he'
  have hshown : ∀ {i m}, t.nodes.get? i = some m → m.finalSegment = t.shown m.path := by
    intro i m hm
    rw [shown, ht.aliasOf_eq hm]
    rfl
  rw [hshown hn, hshown hn', hpath, hpath'] at heq
  have hsegment := h.eq_of_shown_eq ⟨_, _, hn, hpath⟩ ⟨_, _, hn', hpath'⟩ heq
  have hsame : e.1 = e'.1 := by
    have hfind := ht.find?_eq hn
    rw [hpath, hsegment, ← hpath', ht.find?_eq hn'] at hfind
    exact (Option.some.inj hfind).symm
  rw [hsame, hn'] at hn
  exact Prod.ext hsame (Option.some.inj hn).symm

/-- Different packages are emitted under different paths. -/
theorem Apart.eq_of_fullAliasAt_eq (h : t.Apart) (ht : t.Grown) {i j : PackageId} {name : String}
    (hi : t.fullAliasAt i = .ok name) (hj : t.fullAliasAt j = .ok name) : i = j := by
  have hfind : ∀ {i}, t.fullAliasAt i = .ok name →
      ∃ a, t.find? a = some i ∧ t.fullAlias a = name := by
    intro i hi
    cases hpath : t.pathAt i with
    | error e =>
      rw [fullAliasAt, hpath] at hi
      cases hi
    | ok a =>
      rw [fullAliasAt, hpath] at hi
      exact ⟨a, ht.linked.pathAt_eq_ok_iff.mp hpath, Except.ok.inj hi⟩
  obtain ⟨a, ha, hname⟩ := hfind hi
  obtain ⟨b, hb, hname'⟩ := hfind hj
  have habove : ∀ {c : PackagePath}, t.Has c → ∀ d ∈ c.lineage, t.Has d := fun hc d hd =>
    ht.linked.has_of_mem_lineage hc hd
  have hab : a = b := h.eq_of_fullAlias_eq (habove (has_of_find? ha)) (habove (has_of_find? hb))
    (ht.segments (has_of_find? ha)) (ht.segments (has_of_find? hb)) (hname.trans hname'.symm)
  rw [hab, hb] at ha
  exact (Option.some.inj ha).symm

/-! ## Places -/

theorem mem_decisionOrder_iff : id ∈ t.decisionOrder ↔ ∃ a ∈ t.order, t.find? a = some id :=
  List.mem_filterMap

theorem Grown.nodup_decisionOrder (h : t.Grown) : t.decisionOrder.Nodup :=
  h.nodup.filterMap fun _ _ _ ha hb => eq_of_find?_eq ha hb

/-- The place of a package is that of its slot. -/
theorem Grown.decidedAt_eq_some_iff (h : t.Grown) (hfind : t.find? path = some id) {place : Nat} :
    t.decidedAt path = some place ↔ t.decisionOrder[place]? = some id := by
  rw [PackageTree.decidedAt_eq_some_iff h.nodup, decisionOrder,
    getElem?_filterMap_of_isSome fun a ha => find?_isSome_iff.mpr (h.ordered a ha).1,
    Option.bind_eq_some_iff]
  constructor
  · exact fun hplace => ⟨path, hplace, hfind⟩
  · rintro ⟨a, hplace, ha⟩
    rw [eq_of_find?_eq hfind ha]
    exact hplace

end PackageTree

/-! ## Once decided -/

/-- Nothing is noted by a call for a package that was decided. -/
theorem PointedPackages.Shows.decide_eq_self {q : PointedPackages} {t : PackageTree}
    {path : PackagePath} {id : PackageId} (h : q.Shows t []) (ht : t.Grown)
    (hfind : t.find? path = some id) (hdone : path = [] ∨ path ∈ t.order) (wants : String → Bool)
    (source : NameSource) : q.decide id wants source = .ok (q, source) := by
  obtain ⟨n, hn, hpath⟩ := PackageTree.get?_of_find? hfind
  obtain ⟨depth, hdepth⟩ := Nat.exists_eq_succ_of_ne_zero
    (Nat.ne_zero_of_lt (h.size ▸ Arena.index_lt_of_get? hn))
  rw [PointedPackages.decide, hdepth, PointedPackages.decideWithin]
  by_cases hroot : id = PackageTree.root
  · rw [if_pos hroot]
    rfl
  · have hmem : path ∈ t.order := hdone.resolve_left fun hnil =>
      hroot ((ht.linked.eq_root_iff hn).mpr (hpath.trans hnil))
    have hbegun := (h.mem_begun_iff ht (PackageTree.has_of_find? hfind)).mpr (Or.inl hmem)
    rw [if_neg hroot, h.fullPath ht hfind]
    show (if q.begun.contains path.text = true then pure (q, source) else _) = _
    rw [if_pos (List.contains_iff_mem.mpr hbegun)]
    rfl

/-! ## Creating, then deciding -/

namespace TreeCall

variable {texts : List String} {calls : List TreeCall}

/-- The tree with the packages at some dotted paths, created one after the other. -/
def created (texts : List String) : PackageTree :=
  texts.foldl (fun t text => (t.getOrCreate text).2) {}

theorem runAll_create (texts : List String) : runAll (texts.map create) = .ok (created texts) := by
  rw [runAll, List.foldlM_map]
  exact List.foldlM_pure

theorem aliasOf_created (texts : List String) (a : PackagePath) :
    (created texts).aliasOf a = none := by
  apply List.foldlRecOn (motive := fun t : PackageTree => t.aliasOf a = none)
  · exact PackageTree.aliasOf_empty a
  · exact fun t ht text _ => (PackageTree.aliasOf_create t _ a).trans ht

/-- Deciding packages of a tree never fails, and the tree keeps its packages, apart. -/
theorem exists_runAll_decide
    (hcalls : ∀ call ∈ calls, ∃ id wants source, call = decide id wants source ∧
      id.index < (created texts).size) :
    ∃ t, runAll (texts.map create ++ calls) = .ok t ∧ t.Apart ∧
      (∀ a, t.find? a = (created texts).find? a) ∧
      ∀ id wants source, decide id wants source ∈ calls →
        ∃ path, t.find? path = some id ∧ (path = [] ∨ path ∈ t.order) := by
  induction calls using List.reverseRecOn with
  | nil =>
    refine ⟨created texts, ?_, PackageTree.apart_of_aliasOf_eq_none (aliasOf_created texts),
      fun a => rfl, fun id wants source h => absurd h List.not_mem_nil⟩
    rw [List.append_nil, runAll_create]
  | append_singleton calls call ih =>
    obtain ⟨t, ht, hapart, hfinds, hdone⟩ :=
      ih fun call hcall => hcalls call (List.mem_append_left _ hcall)
    have hlinked := (grown_runAll ht).linked
    obtain ⟨id, wants, source, rfl, hid⟩ :=
      hcalls call (List.mem_append_right _ List.mem_cons_self)
    obtain ⟨path, hpath⟩ := PackageTree.pathAt_of_lt hid
    have hfind := (grown_runAll (runAll_create texts)).linked.pathAt_eq_ok_iff.mp hpath
    rw [← hfinds] at hfind
    have hrun : run t (decide id wants source) = .ok (t.decide path wants source).1 := by
      rw [run, PackageTree.decideAt, hlinked.pathAt_eq_ok_iff.mpr hfind]
      rfl
    refine ⟨(t.decide path wants source).1, ?_, hapart.decide (fun a ha => ?_) wants source,
      fun a => (PackageTree.find?_decide wants source a).trans (hfinds a),
      fun id' wants' source' hmem => ?_⟩
    · rw [← List.append_assoc, runAll_append_singleton, ht]
      exact hrun
    · exact hlinked.has_of_mem_lineage (PackageTree.has_of_find? hfind) ha
    · rcases List.mem_append.mp hmem with hold | hlast
      · obtain ⟨b, hb, horder⟩ := hdone id' wants' source' hold
        refine ⟨b, (PackageTree.find?_decide wants source b).trans hb, horder.imp_right fun h => ?_⟩
        exact PackageTree.mem_order_decide (Or.inl h)
      · cases List.mem_singleton.mp hlast
        refine ⟨path, (PackageTree.find?_decide wants source path).trans hfind, ?_⟩
        exact or_iff_not_imp_left.mpr fun hne => PackageTree.mem_order_decide (Or.inr ⟨rfl, hne⟩)

/-- Packages are created and then some are decided by any calls. No alias is the segment of its own
package, packages side by side have different segments in the end, and no two packages are emitted
under one path. What was decided is listed once, at the place that is noted with it, and a call for
it changes nothing and draws no name; so every package for which there was a call. -/
theorem packages_decided_apart (texts : List String) (calls : List TreeCall)
    (hcalls : ∀ call ∈ calls, ∃ id wants source, call = decide id wants source ∧
      id.index < (created texts).size) :
    ∃ t q, runAll (texts.map create ++ calls) = .ok t ∧
      runAllPointed (texts.map create ++ calls) = .ok q ∧ q.Shows t [] ∧
      (∀ id n, t.nodes.get? id = some n → n.newName ≠ some n.segment) ∧
      (∀ path, ((t.children path).map fun e => e.2.finalSegment).Nodup) ∧
      (∀ id n, t.nodes.get? id = some n →
        ∃ name, t.fullAliasAt id = .ok name ∧ q.fullAlias id = .ok name) ∧
      (∀ i j name, t.fullAliasAt i = .ok name → t.fullAliasAt j = .ok name → i = j) ∧
      t.decisionOrder.Nodup ∧
      (∀ id k place, q.nodes.get? id = some k →
        (k.decidedAt = some place ↔ t.decisionOrder[place]? = some id)) ∧
      (∀ id wants source, decide id wants source ∈ calls →
        id = PackageTree.root ∨ id ∈ t.decisionOrder) ∧
      ∀ id, id = PackageTree.root ∨ id ∈ t.decisionOrder → ∀ wants source,
        t.decideAt id wants source = .ok (t, source) ∧
          q.decide id wants source = .ok (q, source) := by
  obtain ⟨t, ht, hapart, -, hdone⟩ := exists_runAll_decide hcalls
  obtain ⟨q, hq, hshows⟩ := shows_runAll ht
  have hgrown := grown_runAll ht
  refine ⟨t, q, ht, hq, hshows, fun id n hn => hapart.newName_ne hgrown.linked hn,
    hapart.nodup_finalSegment hgrown.linked, fun id n hn => ?_,
    fun i j name hi hj => hapart.eq_of_fullAliasAt_eq hgrown hi hj, hgrown.nodup_decisionOrder,
    fun id k place hk => ?_, fun id wants source hcall => ?_, fun id hid wants source => ?_⟩
  · have hfind := hgrown.linked.find?_eq hn
    refine ⟨t.fullAlias n.path, ?_, hshows.fullAlias hgrown hfind⟩
    rw [PackageTree.fullAliasAt, hgrown.linked.pathAt_eq_ok_iff.mpr hfind]
    rfl
  · -- the notes of a package belong to a package of the tree
    have hlt : id.index < t.nodes.size := hshows.size ▸ Arena.index_lt_of_get? hk
    obtain ⟨n, hn⟩ := Option.isSome_iff_exists.mp (Arena.get?_isSome_iff.mpr hlt)
    obtain ⟨k', hk', hreads⟩ := hshows.reads hn
    cases hk.symm.trans hk'
    rw [hreads.decidedAt]
    exact hgrown.decidedAt_eq_some_iff (hgrown.linked.find?_eq hn)
  · obtain ⟨path, hfind, hnil | hmem⟩ := hdone id wants source hcall
    · obtain ⟨n, hn, hpath⟩ := PackageTree.get?_of_find? hfind
      exact Or.inl ((hgrown.linked.eq_root_iff hn).mpr (hpath.trans hnil))
    · exact Or.inr (PackageTree.mem_decisionOrder_iff.mpr ⟨path, hmem, hfind⟩)
  · obtain ⟨path, hfind, hpath⟩ : ∃ path, t.find? path = some id ∧
        (path = [] ∨ path ∈ t.order) := by
      rcases hid with rfl | hmem
      · obtain ⟨n, hn, hpath⟩ := hgrown.linked.unnamed
        exact ⟨[], hpath ▸ hgrown.linked.find?_eq hn, Or.inl rfl⟩
      · obtain ⟨path, hmem, hfind⟩ := PackageTree.mem_decisionOrder_iff.mp hmem
        exact ⟨path, hfind, Or.inr hmem⟩
    refine ⟨?_, hshows.decide_eq_self hgrown hfind hpath wants source⟩
    rw [PackageTree.decideAt, hgrown.linked.pathAt_eq_ok_iff.mpr hfind]
    exact congrArg Except.ok (PackageTree.decide_eq_self hpath wants source)

/-- Two packages side by side are decided, each with names from the first one on, and one of them is
decided again. -/
def deciding : List TreeCall :=
  [decide ⟨3⟩ (fun _ => true) {}, decide ⟨2⟩ (fun _ => true) {}, decide ⟨3⟩ (fun _ => true) {}]

theorem packages_decided_apart_deciding :
    ∃ t, runAll (["x.a", "x.b"].map create ++ deciding) = .ok t ∧
      t.fullAliasAt ⟨2⟩ = .ok "a.d" ∧ t.fullAliasAt ⟨3⟩ = .ok "a.c" ∧
      t.decisionOrder = [⟨1⟩, ⟨3⟩, ⟨2⟩] ∧
      ∀ wants source, t.decideAt ⟨3⟩ wants source = .ok (t, source) := by
  have hids : ∀ call ∈ deciding, ∃ id wants source, call = decide id wants source ∧
      id.index < (created ["x.a", "x.b"]).size := by
    have hsize : (created ["x.a", "x.b"]).size = 4 := by decide +kernel
    intro call hcall
    simp only [deciding, List.mem_cons, List.not_mem_nil, or_false] at hcall
    rcases hcall with rfl | rfl | rfl <;> exact ⟨_, _, _, rfl, by rw [hsize]; decide⟩
  obtain ⟨t, q, ht, -, -, -, -, -, -, -, -, -, hagain⟩ := packages_decided_apart _ _ hids
  let u : PackageTree :=
    { nodes := ⟨#[{ path := [] }, { path := ["x"], newName := some "a" },
        { path := ["x", "a"], newName := some "d" }, { path := ["x", "b"], newName := some "c" }]⟩
      order := [["x"], ["x", "b"], ["x", "a"]] }
  have hu : runAll (["x.a", "x.b"].map create ++ deciding) = .ok u := by decide +kernel
  have htu : t = u := Except.ok.inj (ht.symm.trans hu)
  rw [htu] at hagain
  have horder : u.decisionOrder = [⟨1⟩, ⟨3⟩, ⟨2⟩] := by decide
  refine ⟨u, hu, by decide +kernel, by decide +kernel, horder, fun wants source => ?_⟩
  exact (hagain ⟨3⟩ (Or.inr (by rw [horder]; decide)) wants source).1

end TreeCall
end Renamer
