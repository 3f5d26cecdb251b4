import Renamer.Proofs.PointedTree

/-!
# Calls for packages with pointers

A call for a package makes calls for the packages above it before the package gets its place among
those decided. Beside these pending packages the notes show the tree all along, so that a call
changes the notes as `PackageTree.decide` changes the tree (`PointedPackages.Shows.decide`).
-/

namespace Renamer
namespace PointedPackages

variable {q : PointedPackages} {t : PackageTree} {pending : List PackagePath}
  {path : PackagePath} {id : PackageId}

/-! ## One package -/

theorem freshSegment_of_top {k : PointedPackage} (hget : q.nodes.get id = .ok k)
    (hparent : k.parent = none) (source : NameSource) :
    q.freshSegment id source = .ok source.next := by
  rw [PointedPackages.freshSegment, hget, ok_bind]
  simp only [hparent]
  rfl

theorem freshSegment_of_under {k ka : PointedPackage} {above : PackageId}
    {siblings : List (String × Option String)} (hget : q.nodes.get id = .ok k)
    (hparent : k.parent = some above) (hgeta : q.nodes.get above = .ok ka)
    (hsiblings : ka.children.toList.mapM q.childAt = .ok siblings) (source : NameSource) :
    q.freshSegment id source =
      .ok (source.nextWhere (fun name => siblings.all fun s => s.1 != name && s.2 != some name)
        (2 * siblings.length)) := by
  rw [PointedPackages.freshSegment, hget, ok_bind]
  simp only [hparent]
  rw [hgeta, ok_bind, hsiblings]
  rfl

theorem Shows.freshSegment (h : q.Shows t pending) (ht : t.Linked)
    (hfind : t.find? path = some id) (source : NameSource) :
    q.freshSegment id source = .ok (t.freshSegment path source) := by
  obtain ⟨k, n, hget, -, hn, hpath, hreads⟩ := h.get_eq hfind
  have hparent := hreads.parent
  rw [hpath, PackageTree.parent?] at hparent
  unfold PackageTree.freshSegment
  split at hparent
  · rename_i hempty
    rw [freshSegment_of_top hget hparent, if_pos hempty]
  · rename_i hempty
    obtain ⟨above, habove⟩ := Option.isSome_iff_exists.mp (PackageTree.find?_isSome_iff.mpr
      (ht.above (PackageTree.has_of_find? hfind)))
    obtain ⟨ka, na, hgeta, -, -, hpatha, hreadsa⟩ := h.get_eq habove
    -- the slots listed with the children are theirs
    have hsiblings : ka.children.toList.mapM q.childAt =
        .ok ((t.children path.dropLast).map fun e => (e.2.segment, e.2.newName)) := by
      rw [hreadsa.children, hpatha, List.mapM_map]
      refine mapM_eq_ok fun e he => ?_
      obtain ⟨he, -⟩ := PackageTree.mem_children_iff.mp he
      obtain ⟨ke, hke, hreadse⟩ := h.reads he
      rw [Function.comp_apply, childAt, Arena.get_eq_ok_iff.mpr hke]
      exact congrArg (fun x => Except.ok (e.2.segment, x)) hreadse.newName
    rw [freshSegment_of_under hget (hparent.trans habove) hgeta hsiblings, if_neg hempty,
      List.length_map]
    simp only [List.all_map]
    rfl

theorem Shows.stamp (h : q.Shows t (path :: pending)) (ht : t.Grown)
    (hfind : t.find? path = some id) (hnew : path ∉ t.order) :
    ∃ q', q.stamp id = .ok q' ∧ q'.Shows { t with order := t.order ++ [path] } pending := by
  obtain ⟨k, n, -, hk, -⟩ := h.get_eq hfind
  refine ⟨{ q with
    nodes := q.nodes.modify id fun n => { n with decidedAt := some q.order.length }
    order := q.order ++ [id] }, ?_, ?_⟩
  · rw [PointedPackages.stamp, Arena.update_eq_ok hk]
    rfl
  have hlength : q.order.length = t.order.length := by
    rw [h.order, PackageTree.decisionOrder]
    exact List.filterMap_length_eq_length.mpr fun a ha =>
      PackageTree.find?_isSome_iff.mpr (ht.ordered a ha).1
  refine ⟨?_, fun {i m} hm => ?_, ?_, fun text => ?_, fun a ha => ?_⟩
  · show (Arena.modify _ _ _).size = _
    rw [Arena.size_modify, h.size]
  · obtain ⟨k, hk, hreads⟩ := h.reads hm
    show ∃ k, (Arena.modify _ _ _).get? i = some k ∧ _
    rw [Arena.get?_modify, hk]
    have hplace : ({ t with order := t.order ++ [path] } : PackageTree).decidedAt m.path =
        if id = i then some q.order.length else t.decidedAt m.path := by
      rw [PackageTree.decidedAt_append hnew, hlength]
      simp only [ht.linked.path_eq_iff hfind hm]
    by_cases hi : id = i
    · rw [if_pos hi]
      exact ⟨_, rfl, hreads.segment, hreads.parent, hreads.children, hreads.newName,
        by rw [hplace, if_pos hi]⟩
    · rw [if_neg hi]
      exact ⟨k, rfl, hreads.segment, hreads.parent, hreads.children, hreads.newName,
        by rw [hplace, if_neg hi, hreads.decidedAt]⟩
  · show q.order ++ [id] = (t.order ++ [path]).filterMap t.find?
    rw [List.filterMap_append, List.filterMap_cons_some hfind, h.order]
    rfl
  · rw [h.begun]
    refine exists_congr fun a => and_congr_left fun _ => ?_
    rw [List.mem_cons, List.mem_append, List.mem_singleton, or_assoc]
  · exact h.there a (List.mem_cons_of_mem path ha)

theorem Shows.settle (h : q.Shows t (path :: pending)) (ht : t.Grown)
    (hfind : t.find? path = some id) (hnew : path ∉ t.order) (wants : String → Bool)
    (source : NameSource) : ∃ q', PointedPackages.settle wants (q, source) id =
        .ok (q', (PackageTree.decideOne wants (t, source) path).2) ∧
      q'.Shows (PackageTree.decideOne wants (t, source) path).1 pending := by
  obtain ⟨r, hstamp, hordered⟩ := h.stamp ht hfind hnew
  have hlinked := ht.linked.ordered (t.order ++ [path])
  have hthere : ({ t with order := t.order ++ [path] } : PackageTree).find? path = some id := hfind
  unfold PackageTree.decideOne
  dsimp only
  rw [if_neg fun hmem => hnew (List.contains_iff_mem.mp hmem)]
  generalize ({ t with order := t.order ++ [path] } : PackageTree) = u at hordered hlinked hthere ⊢
  obtain ⟨k, n, hget, -, hn, hpath, hreads⟩ := hordered.get_eq hthere
  have halias : u.aliasOf path = n.newName := by
    rw [← hpath, hlinked.aliasOf_eq hn]
  have hsettle : PointedPackages.settle wants (q, source) id =
      if n.newName.isNone && wants path.segment then
        r.freshSegment id source >>= fun drawn => r.assign id drawn.1 >>= fun q' =>
          pure (q', drawn.2)
      else pure (r, source) := by
    rw [PointedPackages.settle, hstamp, ← hreads.newName, ← hpath, ← PackageNode.segment,
      ← hreads.segment]
    show (r.nodes.get id >>= fun n => _) = _
    rw [hget]
    rfl
  rw [hsettle, halias]
  split
  · obtain ⟨q', hassign, hshows⟩ :=
      hordered.assign hlinked hthere (u.freshSegment path source).1
    rw [hordered.freshSegment hlinked hthere]
    refine ⟨q', ?_, hshows⟩
    show (r.assign id (u.freshSegment path source).1 >>= fun q' =>
      pure (q', (u.freshSegment path source).2)) = _
    rw [hassign]
    rfl
  · exact ⟨r, rfl, hordered⟩

/-! ## Calls -/

/-- Whether a package was begun to be decided is told by its dotted path. -/
theorem Shows.mem_begun_iff (h : q.Shows t pending) (ht : t.Grown) (hhas : t.Has path) :
    path.text ∈ q.begun ↔ path ∈ t.order ∨ path ∈ pending := by
  rw [h.begun]
  constructor
  · rintro ⟨a, ha, htext⟩
    have hthere : t.Has a := ha.elim (fun hmem => (ht.ordered a hmem).1) (h.there a)
    rwa [PackagePath.eq_of_text_eq (ht.segments hthere) (ht.segments hhas) htext] at ha
  · exact fun hmem => ⟨path, hmem, rfl⟩

theorem Shows.begin (h : q.Shows t pending) (hhas : t.Has path) :
    ({ q with begun := q.begun ++ [path.text] } : PointedPackages).Shows t (path :: pending) where
  size := h.size
  reads := h.reads
  order := h.order
  begun := by
    intro text
    rw [List.mem_append, h.begun, List.mem_singleton]
    constructor
    · rintro (⟨a, ha, rfl⟩ | rfl)
      · exact ⟨a, ha.imp_right (List.mem_cons_of_mem path), rfl⟩
      · exact ⟨path, Or.inr List.mem_cons_self, rfl⟩
    · rintro ⟨a, ha, rfl⟩
      rcases ha with hmem | hmem
      · exact Or.inl ⟨a, Or.inl hmem, rfl⟩
      · rcases List.mem_cons.mp hmem with rfl | hmem
        · exact Or.inr rfl
        · exact Or.inl ⟨a, Or.inr hmem, rfl⟩
  there := by
    intro a ha
    rcases List.mem_cons.mp ha with rfl | hmem
    · exact hhas
    · exact h.there a hmem

/-- Calls that do what deciding does pass the packages of a list in the same way. -/
theorem Shows.foldlM_callBare (wants : String → Bool)
    (call : PointedPackages × NameSource → PackageId →
      Except OutOfRange (PointedPackages × NameSource)) {l : List PackagePath}
    (hcall : ∀ {r : PointedPackages} {u : PackageTree} {a i}, a ∈ l → r.Shows u pending →
      u.Grown → (∀ b, u.find? b = t.find? b) → u.find? a = some i → ∀ s, ∃ r',
        call (r, s) i = .ok (r', (u.decide a wants s).2) ∧
          r'.Shows (u.decide a wants s).1 pending)
    (h : q.Shows t pending) (ht : t.Grown) (hl : ∀ a ∈ l, t.Has a) (source : NameSource) :
    ∃ q', (l.filterMap t.find?).foldlM (callBare call) (q, source) =
        .ok (q', (l.foldl (PackageTree.decideBare wants) (t, source)).2) ∧
      q'.Shows (l.foldl (PackageTree.decideBare wants) (t, source)).1 pending := by
  induction l generalizing q t source with
  | nil => exact ⟨q, rfl, h⟩
  | cons a l ih =>
    obtain ⟨i, hi⟩ :=
      Option.isSome_iff_exists.mp (PackageTree.find?_isSome_iff.mpr (hl a List.mem_cons_self))
    obtain ⟨k, n, hget, -, hn, hpath, hreads⟩ := h.get_eq hi
    have halias : t.aliasOf a = k.newName := by
      rw [← hpath, ht.linked.aliasOf_eq hn, hreads.newName]
    have hstep : ∃ q', callBare call (q, source) i =
          .ok (q', (PackageTree.decideBare wants (t, source) a).2) ∧
        q'.Shows (PackageTree.decideBare wants (t, source) a).1 pending := by
      unfold callBare PackageTree.decideBare
      dsimp only
      rw [hget, halias]
      show ∃ q', (if k.newName.isSome = true then pure (q, source) else call (q, source) i) = _ ∧ _
      split
      · exact ⟨q, rfl, h⟩
      · exact hcall List.mem_cons_self h ht (fun _ => rfl) hi source
    obtain ⟨q', hrun, hshows⟩ := hstep
    have hfind := PackageTree.find?_decideBare wants (t, source) a
    have hgrown := ht.decideBare (s := (t, source)) (hl a List.mem_cons_self) wants
    rw [List.filterMap_cons_some hi, List.foldlM_cons, hrun, List.foldl_cons]
    generalize PackageTree.decideBare wants (t, source) a = s at hfind hshows hgrown ⊢
    obtain ⟨u, s⟩ := s
    have hsame : u.find? = t.find? := funext hfind
    rw [← hsame]
    refine ih (fun {r u' b i} hb hr hu' hfind' hbi s' => ?_) hshows hgrown (fun b hb => ?_) s
    · exact hcall (List.mem_cons_of_mem a hb) hr hu' (fun c => (hfind' c).trans (hfind c)) hbi s'
    · rw [← PackageTree.find?_isSome_iff, hsame, PackageTree.find?_isSome_iff]
      exact hl b (List.mem_cons_of_mem a hb)

/-- What is above a package above is not the package itself, and is above it too. -/
theorem mem_lineage_of_above {front a b : PackagePath} (ha : a ∈ front.lineage)
    (hb : b ∈ a.lineage) (segment : String) :
    b ≠ front ++ [segment] ∧ b ∈ PackagePath.lineage (front ++ [segment]) := by
  obtain ⟨hne, hba⟩ := PackagePath.mem_lineage.mp hb
  have hpre := hba.trans (PackagePath.mem_lineage.mp ha).2
  refine ⟨fun heq => ?_, PackagePath.mem_lineage.mpr ⟨hne, hpre.trans (List.prefix_append front _)⟩⟩
  have hle := hpre.length_le
  rw [heq, List.length_append, List.length_singleton] at hle
  omega

/-- The chain of a package without the package itself. -/
theorem dropLast_filterMap_find? {front : PackagePath} {segment : String}
    (hfind : t.find? (front ++ [segment]) = some id) :
    ((PackagePath.lineage (front ++ [segment])).filterMap t.find?).dropLast =
      (PackagePath.lineage front).filterMap t.find? := by
  rw [PackagePath.lineage_append_singleton, List.filterMap_append, List.filterMap_cons_some hfind]
  exact List.dropLast_concat

/-- A call for a package does what deciding it does. The calls nested in it are for packages above
it, which are older and have not been begun. -/
theorem Shows.decideWithin (h : q.Shows t pending) (ht : t.Grown) {depth : Nat}
    (hfind : t.find? path = some id) (hdepth : id.index < depth)
    (hpending : ∀ a ∈ path.lineage, a ∉ pending) (wants : String → Bool) (source : NameSource) :
    ∃ q', PointedPackages.decideWithin wants depth (q, source) id =
        .ok (q', (t.decide path wants source).2) ∧
      q'.Shows (t.decide path wants source).1 pending := by
  induction depth generalizing q t pending path id source with
  | zero => exact absurd hdepth (Nat.not_lt_zero _)
  | succ depth ih =>
    obtain ⟨n, hn, hpath⟩ := PackageTree.get?_of_find? hfind
    have hhas := PackageTree.has_of_find? hfind
    rw [PointedPackages.decideWithin]
    by_cases hroot : id = PackageTree.root
    · have hnil : path = [] := hpath.symm.trans ((ht.linked.eq_root_iff hn).mp hroot)
      rw [if_pos hroot, PackageTree.decide_eq_self (Or.inl hnil)]
      exact ⟨q, rfl, h⟩
    have hne : path ≠ [] := fun hnil =>
      hroot ((ht.linked.eq_root_iff hn).mpr (hpath.trans hnil))
    have hbegun := h.mem_begun_iff ht hhas
    rw [if_neg hroot, h.fullPath ht hfind]
    show ∃ q', (if q.begun.contains path.text = true then pure (q, source)
      else q.chain id >>= fun ids => ids.dropLast.foldlM
        (callBare (PointedPackages.decideWithin wants depth))
        ({ q with begun := q.begun ++ [path.text] }, source) >>= fun s =>
          PointedPackages.settle wants s id) = _ ∧ _
    by_cases hmem : path ∈ t.order
    · rw [if_pos (List.contains_iff_mem.mpr (hbegun.mpr (Or.inl hmem))),
        PackageTree.decide_eq_self (Or.inr hmem)]
      exact ⟨q, rfl, h⟩
    have hnew : path.text ∉ q.begun := fun htext =>
      (hbegun.mp htext).elim hmem (hpending path (PackageTree.mem_lineage_self hne))
    rw [if_neg fun hin => hnew (List.contains_iff_mem.mp hin), h.chain ht hfind]
    obtain ⟨front, segment, rfl⟩ : ∃ (front : PackagePath) (s : String), path = front ++ [s] :=
      ⟨_, _, (List.dropLast_append_getLast hne).symm⟩
    have hfront : t.Has front := by
      have habove := ht.linked.above hhas
      rwa [List.dropLast_concat] at habove
    have habove : ∀ a ∈ PackagePath.lineage front, t.Has a := fun a ha =>
      ht.linked.has_of_mem_lineage hfront ha
    -- the packages above are decided by calls for them
    obtain ⟨r, hfold, hshows⟩ := (h.begin hhas).foldlM_callBare wants
      (PointedPackages.decideWithin wants depth) (l := PackagePath.lineage front)
      (fun {r u a i} ha hr hu hsame hi s => by
        refine ih hr hu hi ?_ (fun b hb => ?_) s
        · have hlt : i.index < id.index := ht.index_lt_of_lineage hfind ha ((hsame a).symm.trans hi)
          omega
        · obtain ⟨hself, hmem⟩ := mem_lineage_of_above ha hb segment
          rw [List.mem_cons, not_or]
          exact ⟨hself, hpending b hmem⟩) ht habove source
    obtain ⟨hgrown, hsame, hlast⟩ := ht.foldl_decideBare hfront hmem wants source
    rw [PackageTree.decide_eq_foldl habove hmem]
    obtain ⟨q', hsettle, hend⟩ := hshows.settle hgrown ((hsame _).trans hfind) hlast wants
      ((PackagePath.lineage front).foldl (PackageTree.decideBare wants) (t, source)).2
    refine ⟨q', ?_, hend⟩
    show (((PackagePath.lineage (front ++ [segment])).filterMap t.find?).dropLast.foldlM _ _ >>=
      fun s => PointedPackages.settle wants s id) = _
    rw [dropLast_filterMap_find? hfind, hfold]
    exact hsettle

theorem Shows.decide (h : q.Shows t []) (ht : t.Grown) (hfind : t.find? path = some id)
    (wants : String → Bool) (source : NameSource) :
    ∃ q', q.decide id wants source = .ok (q', (t.decide path wants source).2) ∧
      q'.Shows (t.decide path wants source).1 [] := by
  obtain ⟨n, hn, -⟩ := PackageTree.get?_of_find? hfind
  exact h.decideWithin ht hfind (h.size ▸ Arena.index_lt_of_get? hn)
    (fun _ _ => List.not_mem_nil) wants source

end PointedPackages
end Renamer
