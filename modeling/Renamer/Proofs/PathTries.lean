import Renamer.Proofs.PointedPaths
import Renamer.Proofs.TreeCalls

/-!
# Trees as tries of paths

A package tree is changed by calls, and emptied between them. Whatever calls there were, it has the
packages along the paths created since it was last emptied, and no others. Pointers and lists of
children show one tree, a text is looked up by its segments, and a package keeps its slot until the
tree is emptied (`PackageCall.isTrie_runAll`).
-/

namespace Renamer

/-- A call that changes a package tree, or leaves the unnamed package only. -/
inductive PackageCall where
  | change (call : TreeCall)
  | clear

namespace PackageCall

/-! ## Calls -/

/-- The tree after a call. -/
def run (t : PackageTree) : PackageCall → Except OutOfRange PackageTree
  | change call => call.run t
  | clear => return {}

/-- The tree after calls, the unnamed package at first. -/
def runAll (calls : List PackageCall) : Except OutOfRange PackageTree := calls.foldlM run {}

/-- The packages with pointers after a call. -/
def runPointed (q : PointedPackages) : PackageCall → Except OutOfRange PointedPackages
  | change call => call.runPointed q
  | clear => return {}

/-- The packages with pointers after calls, the unnamed one at first. -/
def runAllPointed (calls : List PackageCall) : Except OutOfRange PointedPackages :=
  calls.foldlM runPointed {}

/-- The slot that a call is given. -/
def slot? : PackageCall → Option PackageId
  | change (.assign id _) => some id
  | change (.decide id _ _) => some id
  | _ => none

/-- Each call is given a slot that the tree has by then. -/
def SlotsThere (calls : List PackageCall) : Prop :=
  ∀ before call after, calls = before ++ call :: after → ∀ t, runAll before = .ok t →
    ∀ id, call.slot? = some id → id.index < t.size

/-- The path was created, and the tree has not been emptied since. -/
def Created (calls : List PackageCall) (text : String) : Prop :=
  ∃ before after, calls = before ++ change (.create text) :: after ∧ clear ∉ after

variable {calls : List PackageCall} {call : PackageCall} {t : PackageTree} {q : PointedPackages}
  {path : PackagePath} {id : PackageId}

theorem slotsThere_append_singleton : SlotsThere (calls ++ [call]) ↔ SlotsThere calls ∧
    ∀ t, runAll calls = .ok t → ∀ id, call.slot? = some id → id.index < t.size :=
  forall_split_append_singleton

theorem not_created_nil (text : String) : ¬ Created [] text := by
  rintro ⟨before, after, heq, -⟩
  simp at heq

theorem created_append_singleton {text : String} : Created (calls ++ [call]) text ↔
    call = change (.create text) ∨ call ≠ clear ∧ Created calls text := by
  constructor
  · rintro ⟨before, after, heq, hafter⟩
    cases after using List.reverseRecOn with
    | nil => exact Or.inl (List.singleton_inj.mp (List.append_inj' heq rfl).2)
    | append_singleton after c =>
      rw [← List.cons_append, ← List.append_assoc] at heq
      obtain ⟨hcalls, hc⟩ := List.append_inj' heq rfl
      cases hc
      rw [List.mem_append, not_or] at hafter
      refine Or.inr ⟨fun hclear => hafter.2 ?_, before, after, hcalls, hafter.1⟩
      rw [hclear]
      exact List.mem_cons_self
  · rintro (rfl | ⟨hne, before, after, rfl, hafter⟩)
    · exact ⟨calls, [], rfl, List.not_mem_nil⟩
    · refine ⟨before, after ++ [call], by simp, fun hmem => ?_⟩
      exact (List.mem_append.mp hmem).elim hafter fun hlast =>
        hne (List.mem_singleton.mp hlast).symm

/-! ## Where calls lead -/

/-- The tree has the packages along created paths, and the pointers show it. -/
structure Leads (calls : List PackageCall) (t : PackageTree) (q : PointedPackages) : Prop where
  grown : t.Grown
  shows : q.Shows t []
  has : ∀ path, t.Has path ↔
    path = [] ∨ ∃ text, Created calls text ∧ path <+: PackagePath.ofText text

theorem leads_empty {calls : List PackageCall} (h : ∀ text, ¬ Created calls text) :
    Leads calls {} {} where
  grown := PackageTree.grown_empty
  shows := PointedPackages.shows_empty
  has := fun path => by
    rw [PackageTree.has_empty_iff]
    exact ⟨Or.inl, fun hpath => hpath.resolve_right fun ⟨text, htext, _⟩ => h text htext⟩

/-- The packages along a created path are there. -/
theorem Leads.has_change {c : TreeCall} (h : Leads calls t q) {t' : PackageTree}
    (hruns : TreeCall.Runs t c t') (path : PackagePath) : t'.Has path ↔
      path = [] ∨
        ∃ text, Created (calls ++ [change c]) text ∧ path <+: PackagePath.ofText text := by
  cases hruns with
  | create made =>
    simp only [created_append_singleton, change.injEq, TreeCall.create.injEq, ne_eq, reduceCtorEq,
      not_false_eq_true, true_and]
    rw [PackageTree.has_create_iff, h.has, PackagePath.mem_lineage, or_assoc]
    constructor
    · rintro (hnil | ⟨text, htext, hpre⟩ | ⟨-, hpre⟩)
      · exact Or.inl hnil
      · exact Or.inr ⟨text, Or.inr htext, hpre⟩
      · exact Or.inr ⟨made, Or.inl rfl, hpre⟩
    · rintro (hnil | ⟨text, rfl | htext, hpre⟩)
      · exact Or.inl hnil
      · exact or_iff_not_imp_left.mpr fun hne => Or.inr ⟨hne, hpre⟩
      · exact Or.inr (Or.inl ⟨text, htext, hpre⟩)
  | assign newName _ =>
    rw [PackageTree.has_assign, h.has]
    simp [created_append_singleton]
  | decide wants source _ =>
    rw [PackageTree.has_decide_iff, h.has]
    simp [created_append_singleton]

/-- A call that is given a slot of the tree succeeds, with and without pointers. -/
theorem Leads.step (h : Leads calls t q)
    (hslot : ∀ id, call.slot? = some id → id.index < t.size) :
    ∃ t' q', run t call = .ok t' ∧ runPointed q call = .ok q' ∧ Leads (calls ++ [call]) t' q' := by
  cases call with
  | clear =>
    refine ⟨{}, {}, rfl, rfl, leads_empty fun text htext => ?_⟩
    rcases created_append_singleton.mp htext with hcreate | ⟨hne, -⟩
    · cases hcreate
    · exact hne rfl
  | change c =>
    obtain ⟨t', hrun⟩ : ∃ t', c.run t = .ok t' := by
      cases c with
      | create text => exact ⟨_, rfl⟩
      | assign id newName =>
        obtain ⟨path, hpath⟩ := PackageTree.pathAt_of_lt (hslot id rfl)
        exact ⟨_, by rw [TreeCall.run, PackageTree.assignAt, hpath]; rfl⟩
      | decide id wants source =>
        obtain ⟨path, hpath⟩ := PackageTree.pathAt_of_lt (hslot id rfl)
        exact ⟨_, by rw [TreeCall.run, PackageTree.decideAt, hpath]; rfl⟩
    have hruns := TreeCall.runs_of_run h.grown.linked hrun
    obtain ⟨q', hpointed, hshows⟩ := hruns.shows h.grown h.shows
    exact ⟨t', q', hrun, hpointed, hruns.grown h.grown, hshows, h.has_change hruns⟩

/-- Calls that are given slots of the tree succeed. -/
theorem leads_runAll (h : SlotsThere calls) :
    ∃ t q, runAll calls = .ok t ∧ runAllPointed calls = .ok q ∧ Leads calls t q := by
  induction calls using List.reverseRecOn with
  | nil => exact ⟨{}, {}, rfl, rfl, leads_empty not_created_nil⟩
  | append_singleton calls call ih =>
    obtain ⟨hfront, hlast⟩ := slotsThere_append_singleton.mp h
    obtain ⟨t, q, ht, hq, hleads⟩ := ih hfront
    obtain ⟨t', q', hrun, hpointed, hleads'⟩ := hleads.step (hlast t ht)
    exact ⟨t', q', foldlM_append_singleton_eq_ok.mpr ⟨t, ht, hrun⟩,
      foldlM_append_singleton_eq_ok.mpr ⟨q, hq, hpointed⟩, hleads'⟩

theorem slot_lt_of_run {t' : PackageTree} (ht : t.Linked) (h : run t call = .ok t')
    (hslot : call.slot? = some id) : id.index < t.size := by
  have hlt : ∀ {path}, t.find? path = some id → id.index < t.size := fun hfind => by
    obtain ⟨n, hn, -⟩ := PackageTree.get?_of_find? hfind
    exact Arena.index_lt_of_get? hn
  cases call with
  | clear => cases hslot
  | change c =>
    cases TreeCall.runs_of_run ht h with
    | create text => cases hslot
    | assign newName hfind =>
      cases hslot
      exact hlt hfind
    | decide wants source hfind =>
      cases hslot
      exact hlt hfind

/-- Calls that succeed are given slots of the tree. -/
theorem slotsThere_of_runAll (h : runAll calls = .ok t) : SlotsThere calls := by
  induction calls using List.reverseRecOn generalizing t with
  | nil => exact fun before call after heq => by simp at heq
  | append_singleton calls call ih =>
    obtain ⟨u, hu, hrun⟩ := foldlM_append_singleton_eq_ok.mp h
    refine slotsThere_append_singleton.mpr ⟨ih hu, fun u' hu' id hslot => ?_⟩
    cases hu.symm.trans hu'
    obtain ⟨t', q, ht', -, hleads⟩ := leads_runAll (ih hu)
    cases hu.symm.trans ht'
    exact slot_lt_of_run hleads.grown.linked hrun hslot

/-! ## What tries show -/

/-- The tree `t`, with the pointers `q`, is the trie of the paths that `calls` have created. -/
structure IsTrie (calls : List PackageCall) (t : PackageTree) (q : PointedPackages) : Prop where
  /-- A package is listed under another one exactly if that is its parent, and by its segment. -/
  listed : ∀ above child segment,
    (∃ k, q.nodes.get? above = some k ∧ (segment, child) ∈ k.children.toList) ↔
      ∃ k, q.nodes.get? child = some k ∧ k.parent = some above ∧ k.segment = segment
  /-- A text is found exactly if its segments lead to the unnamed package or along a path that was
  created. -/
  found : ∀ text, q.lookup text = .ok (t.lookup text) ∧ ((t.lookup text).isSome ↔
    PackagePath.ofText text = [] ∨ ∃ made, Created calls made ∧
      PackagePath.ofText text <+: PackagePath.ofText made)
  /-- What is found is not created again. Its full path has the segments of the text. -/
  answered : ∀ text id, t.lookup text = some id →
    t.getOrCreate text = (id, t) ∧ q.getOrCreate text = .ok (id, q) ∧
      t.pathAt id = .ok (PackagePath.ofText text) ∧
      q.fullPath id = .ok (PackagePath.ofText text).text
  /-- Every package is found at its full path. -/
  named : ∀ id, id.index < t.size → ∃ path, t.pathAt id = .ok path ∧ q.fullPath id = .ok path.text ∧
    t.lookup path.text = some id
  /-- Creating leaves packages as they were. From then on, texts lead to the slot that was answered
  exactly if they have the same segments, until the tree is emptied. -/
  created : ∀ text, ∃ q', q.getOrCreate text = .ok ((t.getOrCreate text).1, q') ∧
    q'.Shows (t.getOrCreate text).2 [] ∧ q.Keeps q' ∧
    ∀ (more : List TreeCall) t', more.foldlM TreeCall.run (t.getOrCreate text).2 = .ok t' →
      ∀ text', (t'.getOrCreate text').1 = (t.getOrCreate text).1 ↔
        PackagePath.ofText text' = PackagePath.ofText text

/-- Texts lead to the slot of a package exactly if they have its segments. -/
theorem slot_getOrCreate_eq_iff (ht : t.Grown) (hfind : t.find? path = some id) (text : String) :
    (t.getOrCreate text).1 = id ↔ PackagePath.ofText text = path := by
  have hown := ht.linked.find?_getOrCreate text
  have hstays := (TreeCall.Runs.create (t := t) text).find?_eq hfind
  constructor
  · rintro rfl
    exact PackageTree.eq_of_find?_eq hown hstays
  · rintro rfl
    exact Option.some.inj (hown.symm.trans hstays)

theorem Leads.isTrie (h : Leads calls t q) : IsTrie calls t q where
  listed := fun above child segment => h.shows.mem_children_iff h.grown.linked
  found := fun text =>
    ⟨h.shows.lookup_eq h.grown.linked text, PackageTree.find?_isSome_iff.trans (h.has _)⟩
  answered := by
    intro text id hthere
    have hslot := (slot_getOrCreate_eq_iff h.grown hthere text).mpr rfl
    have hsame := h.grown.linked.create_eq_self (PackageTree.has_of_find? hthere)
    exact ⟨Prod.ext hslot hsame, h.shows.getOrCreate_eq_self h.grown.linked hthere,
      h.grown.linked.pathAt_eq_ok_iff.mpr hthere, h.shows.fullPath h.grown hthere⟩
  named := by
    intro id hid
    obtain ⟨path, hpath⟩ := PackageTree.pathAt_of_lt hid
    have hfind := h.grown.linked.pathAt_eq_ok_iff.mp hpath
    have hsegments := h.grown.segments (PackageTree.has_of_find? hfind)
    refine ⟨path, hpath, h.shows.fullPath h.grown hfind, ?_⟩
    rw [PackageTree.lookup, PackagePath.ofText_text hsegments]
    exact hfind
  created := by
    intro text
    obtain ⟨q', hcreate, hshows⟩ := h.shows.getOrCreate h.grown text
    refine ⟨q', hcreate, hshows, PointedPackages.keeps_getOrCreate hcreate, ?_⟩
    intro more t' hmore text'
    have hgrown := (TreeCall.Runs.create (t := t) text).grown h.grown
    obtain ⟨hgrown', hstays⟩ := TreeCall.find?_foldlM_run hgrown hmore
    exact slot_getOrCreate_eq_iff hgrown' (hstays (h.grown.linked.find?_getOrCreate text)) text'

/-- Calls succeed exactly if each is given a slot that the tree has by then. Wherever they lead, the
tree is the trie of the paths created since it was last emptied. -/
theorem isTrie_runAll (calls : List PackageCall) :
    ((∃ t, runAll calls = .ok t) ↔ SlotsThere calls) ∧ ∀ t, runAll calls = .ok t →
      ∃ q, runAllPointed calls = .ok q ∧ q.Shows t [] ∧ IsTrie calls t q := by
  refine ⟨⟨fun ⟨t, ht⟩ => slotsThere_of_runAll ht, fun h => ?_⟩, fun t ht => ?_⟩
  · obtain ⟨t, -, ht, -, -⟩ := leads_runAll h
    exact ⟨t, ht⟩
  · obtain ⟨t', q, ht', hq, hleads⟩ := leads_runAll (slotsThere_of_runAll ht)
    cases ht.symm.trans ht'
    exact ⟨q, hq, hleads.shows, hleads.isTrie⟩

/-- A tree is emptied and grown again along another path, where one package is given an alias and
the other one is decided. -/
def regrown : List PackageCall :=
  [change (.create "x..y"), clear, change (.create ".a.b."), change (.assign ⟨1⟩ "foo"),
    change (.decide ⟨2⟩ (fun _ => true) {})]

theorem isTrie_runAll_regrown : ∃ t q, runAll regrown = .ok t ∧ runAllPointed regrown = .ok q ∧
    q.lookup "a." = .ok (some ⟨1⟩) ∧ q.lookup "x" = .ok none ∧
    q.getOrCreate "a..b" = .ok (⟨2⟩, q) ∧ q.fullPath ⟨2⟩ = .ok "a.b" ∧
    ∃ q', q.getOrCreate "a.c" = .ok (⟨3⟩, q') ∧ q.Keeps q' ∧
      ∀ text, ((t.getOrCreate "a.c").2.getOrCreate text).1 = ⟨3⟩ ↔
        PackagePath.ofText text = ["a", "c"] := by
  let t : PackageTree :=
    { nodes := ⟨#[{ path := [] }, { path := ["a"], newName := some "foo" },
        { path := ["a", "b"], newName := some "a" }]⟩
      order := [["a", "b"]] }
  have ht : runAll regrown = .ok t := by decide +kernel
  obtain ⟨q, hq, -, htrie⟩ := (isTrie_runAll regrown).2 t ht
  have habove : t.lookup "a." = some ⟨1⟩ := by decide +kernel
  have hthere : t.lookup "a..b" = some ⟨2⟩ := by decide +kernel
  have hgone : t.lookup "x" = none := by decide +kernel
  obtain ⟨-, hsame, -, hfull⟩ := htrie.answered "a..b" ⟨2⟩ hthere
  obtain ⟨q', hcreate, -, hkeeps, hslots⟩ := htrie.created "a.c"
  have hslot : (t.getOrCreate "a.c").1 = ⟨3⟩ := by decide +kernel
  have hpath : PackagePath.ofText "a.c" = ["a", "c"] := by decide +kernel
  refine ⟨t, q, ht, hq, (htrie.found "a.").1.trans (congrArg _ habove),
    (htrie.found "x").1.trans (congrArg _ hgone), hsame, hfull, q', hslot ▸ hcreate, hkeeps,
    fun text => ?_⟩
  rw [← hslot, ← hpath]
  exact hslots [] _ rfl text

end PackageCall
end Renamer
