import Renamer.Proofs.PointedEngines
import Renamer.Proofs.PresetSteps
import Renamer.Proofs.Renamings

/-!
# Deciding with pointers

Step by step the pass that decides does with pointers what it does with searches
(`PointedRun.Shows.discover`).

The pass without pointers brings the symbols of the program along, from when it began or came to
their type. `Run.Ahead` keeps that of use: a type still to come is as it was, and what a run changes
of the symbols is not what deciding looks at.
-/

namespace Renamer
namespace PointedRun

/-- The engine and the program show those of a run without pointers. -/
structure Shows (s : PointedRun) (r : Run) : Prop where
  engine : s.engine.Shows r.engine
  program : s.program.Shows r.program

variable {s : PointedRun} {r : Run} {ty : TypeId} {t : TypeSymbol}

/-! ## Types -/

theorem Shows.nameType (h : s.Shows r) (ht : r.program.types.get? ty = some t) {id : PackageId}
    (hfind : r.engine.packages.find? (PackagePath.ofText t.package) = some id) :
    Yields Shows (s.nameType ty t id) (r.nameType ty t) := by
  unfold PointedRun.nameType Run.nameType
  rw [h.engine.sourceAlias?_eq, h.engine.policy]
  cases if r.engine.policy.settings.useSourceNames then r.engine.sourceAlias? t else none with
  | some newName =>
    obtain ⟨q', hrun, hq'⟩ := h.program.withoutSourceFile ht
    dsimp only
    rw [hrun]
    exact yields_ok ⟨(h.engine.claim t.scope newName).recordType ty hfind newName, hq'⟩
  | none =>
    obtain ⟨q', hdraw, hq'⟩ := h.engine.draw t.scope
    dsimp only
    rw [hdraw]
    exact yields_ok ⟨hq'.recordType ty hfind _, h.program⟩

theorem Shows.decideType (h : s.Shows r) (ht : r.program.types.get? ty = some t) {id : PackageId}
    (hfind : r.engine.packages.find? (PackagePath.ofText t.package) = some id) :
    Yields Shows (s.decideType ty id) (r.decideType ty t) := by
  obtain ⟨u, hu, rfl, -⟩ := h.program.get_eq ht
  unfold PointedRun.decideType Run.decideType
  rw [hu, ok_bind, h.engine.presets]
  dsimp only
  cases r.engine.presets.types.get? u.symbol.fullName with
  | some preset =>
    refine (h.engine.usableOr_draw u.symbol.fullName preset u.symbol.scope).bind_beside
      fun q' hq' => ?_
    -- a replacement is drawn in a scope, which leaves the packages as they are
    have hpackages := Engine.view_usableOr Engine.packages (Engine.draw u.symbol.scope)
      (fun _ => rfl) (fun _ _ => rfl) r.engine u.symbol.fullName preset
    have hthere := (congrArg (·.find? (PackagePath.ofText u.symbol.package)) hpackages).trans hfind
    exact yields_ok ⟨(hq'.claim _ _).recordType ty hthere _, h.program⟩
  | none =>
    dsimp only
    rw [h.engine.types.contains, h.engine.rejects]
    split
    · exact yields_ok h
    · exact h.nameType ht hfind

/-! ## Members -/

theorem Shows.decideField (h : s.Shows r) {id : FieldId} {f g : FieldSymbol} {o : TypeSymbol}
    (hg : r.program.fields.get? id = some g) (hgf : g.declared = f.declared)
    (ho : r.program.types.get? g.owner = some o) (hname : o.fullName = t.fullName) :
    Yields Shows (s.decideField id) (Run.decideField t r (id, f)) := by
  have hsame : Run.decideField t r (id, g) = Run.decideField t r (id, f) :=
    FieldSymbol.agree hgf (fun u => Run.decideField t r (id, u)) fun _ => rfl
  rw [← hsame]
  unfold PointedRun.decideField Run.decideField
  dsimp only
  rw [h.engine.fields, h.engine.presets, h.engine.rejects]
  split
  · exact yields_ok h
  · rw [h.program.fieldIdentity_eq, Program.fieldIdentity_eq_ok hg ho, ok_bind, h.program.fields,
      Arena.get_eq_ok_iff.mpr hg, ok_bind, hname]
    cases r.engine.presets.fields.get? (g.identity t.fullName) with
    | some preset =>
      exact yields_ok ⟨(h.engine.claim g.scope preset).insertField id preset, h.program⟩
    | none =>
      dsimp only
      split
      · obtain ⟨q', hdraw, hq'⟩ := h.engine.draw g.scope
        rw [hdraw]
        exact yields_ok ⟨hq'.insertField id _, h.program⟩
      · exact yields_ok h

theorem Shows.decideMethod (h : s.Shows r) {id : MethodId} {m n : MethodSymbol} {o : TypeSymbol}
    (hn : r.program.methods.get? id = some n) (hnm : n.declared = m.declared)
    (ho : r.program.types.get? n.owner = some o) (hname : o.fullName = t.fullName) :
    Yields Shows (s.decideMethod id) (Run.decideMethod t r (id, m)) := by
  have hsame : Run.decideMethod t r (id, n) = Run.decideMethod t r (id, m) :=
    MethodSymbol.agree hnm (fun u => Run.decideMethod t r (id, u)) fun _ => rfl
  rw [← hsame]
  unfold PointedRun.decideMethod Run.decideMethod
  dsimp only
  rw [h.engine.methods, h.engine.presets, h.engine.rejects]
  split
  · exact yields_ok h
  · rw [h.program.methodIdentity_eq, Program.methodIdentity_eq_ok hn ho, ok_bind, h.program.methods,
      Arena.get_eq_ok_iff.mpr hn, ok_bind, hname]
    cases r.engine.presets.methods.get? (n.identity t.fullName) with
    | some preset =>
      obtain ⟨q', hrun, hq'⟩ := h.program.withPresetMark hn true
      dsimp only
      rw [hrun]
      exact yields_ok ⟨(h.engine.claim n.scope (n.keyAs preset)).insertMethod id preset, hq'⟩
    | none =>
      dsimp only
      split
      · obtain ⟨q', hdraw, hq'⟩ := h.engine.drawAs n.scope n.keyAs
        rw [hdraw]
        exact yields_ok ⟨hq'.insertMethod id _, h.program⟩
      · exact yields_ok h

/-! ## Links -/

theorem Shows.linkMethod (h : s.Shows r) {u : TypeSymbol} (hu : r.program.types.get? ty = some u)
    (hut : u.declared = t.declared) {id : MethodId} {m n : MethodSymbol}
    (hn : r.program.methods.get? id = some n) (hnm : n.declared = m.declared) :
    Yields Shows (linkMethod ty s id) (r.linkMethod ty t m) := by
  unfold PointedRun.linkMethod Run.linkMethod
  rw [h.program.methods, Arena.get_eq_ok_iff.mpr hn, ok_bind,
    MethodSymbol.agree hnm MethodSymbol.isVirtual fun _ => rfl,
    MethodSymbol.agree hnm MethodSymbol.key fun _ => rfl]
  split
  · rw [h.program.overriddenFrom_eq hu hut, ok_bind]
    have hreported := h.engine.report (r.program.overriddenFrom ty t m.key).2
    exact (hreported.groups.mergeAt hreported.disjoint _).bind_beside fun g hg =>
      yields_ok ⟨{ hreported with groups := hg, disjoint := hreported.disjoint.merge _ }, h.program⟩
  · exact yields_ok h

end PointedRun

/-! ## The pass -/

namespace Run

variable {p : Program} {done : List (TypeId × TypeSymbol)} {r r' : Run} {ty : TypeId}
  {t : TypeSymbol}

/-- The program is `p` up to what a run may change, and the types but those `done` are as they
were. -/
structure Ahead (p : Program) (done : List (TypeId × TypeSymbol)) (r : Run) : Prop where
  renamed : p.OnlyRenamed r.program
  types : ∀ {ty t}, p.types.get? ty = some t → ty ∉ done.map Prod.fst →
    r.program.types.get? ty = some t

theorem Ahead.of_types (h : Ahead p done r) (hdeclared : r'.program.declared = r.program.declared)
    (htypes : r'.program.types = r.program.types) : Ahead p done r' where
  renamed := h.renamed.trans (.of_types hdeclared htypes)
  types := htypes ▸ h.types

theorem Ahead.decideType (h : Ahead p done r) (ty : TypeId) (t : TypeSymbol) :
    Ahead p (done ++ [(ty, t)]) (r.decideType ty t) := by
  obtain hsame | hused := r.program_decideType ty t
  · refine ⟨hsame ▸ h.renamed, fun {i s} hs hi => ?_⟩
    rw [hsame]
    exact h.types hs fun hmem => hi (by simp [hmem])
  · refine ⟨?_, fun {i s} hs hi => ?_⟩
    · rw [hused]
      exact h.renamed.trans (r.program.onlyRenamed_withoutSourceFile ty)
    · have hne : ty ≠ i := fun heq => hi (by simp [heq])
      rw [hused, Program.withoutSourceFile, Arena.get?_modify, if_neg hne]
      exact h.types hs fun hmem => hi (by simp [hmem])

/-- A type of the program as a run finds it. -/
theorem Ahead.showsType (h : Ahead p done r) (ht : p.types.get? ty = some t) :
    r.program.ShowsType ty t :=
  Program.type_of_declared h.renamed.declared.symm ht

end Run

namespace PointedRun

variable {p : Program} {done : List (TypeId × TypeSymbol)} {s : PointedRun} {r : Run} {ty : TypeId}
  {t : TypeSymbol}

/-- The pass has come past `done`, with pointers and without. -/
structure Decides (p : Program) (done : List (TypeId × TypeSymbol)) (s : PointedRun) (r : Run) :
    Prop where
  shows : s.Shows r
  ahead : r.Ahead p done

theorem Decides.foldlM_decideField (h : Decides p done s r) (ht : p.types.get? ty = some t) :
    Yields (Decides p done) (((r.program.fieldsOf ty).map Prod.fst).foldlM decideField s)
      ((r.program.fieldsOf ty).foldl (Run.decideField t) r) := by
  rw [List.foldlM_map]
  refine yields_foldlM_of_mem (fun e he s' r' h' => ?_) h
  obtain ⟨g, o, hg, hgf, ho, hname⟩ := Program.exists_field_of_mem
    (h.ahead.renamed.declared.trans h'.ahead.renamed.declared.symm) he (h'.ahead.showsType ht)
  exact (h'.shows.decideField hg hgf ho hname).imp fun _ hs => ⟨hs, h'.ahead.of_types
    (Run.spares_decideField t r' e).declared (Run.sparesTypes_decideField t r' e).types⟩

theorem Decides.discoverMethod (h : Decides p done s r) (ht : p.types.get? ty = some t)
    {id : MethodId} {m n : MethodSymbol} {o : TypeSymbol}
    (hn : r.program.methods.get? id = some n) (hnm : n.declared = m.declared)
    (ho : r.program.types.get? n.owner = some o) (hname : o.fullName = t.fullName) :
    Yields (Decides p done) (discoverMethod ty s id) (r.discoverMethod ty t (id, m)) := by
  -- the method is linked as it is once it has been decided
  have hspared := Run.spares_decideMethod t r (id, m)
  have hdecided :=
    h.ahead.of_types hspared.declared (Run.sparesTypes_decideMethod t r (id, m)).types
  obtain ⟨u, hu, hut⟩ := hdecided.showsType ht
  obtain ⟨n', hn', hnn'⟩ := Program.method_of_declared hspared.declared.symm hn
  refine (h.shows.decideMethod hn hnm ho hname).bind fun s' hs' => ?_
  refine (hs'.linkMethod hu hut hn' (hnn'.trans hnm)).imp fun _ hs => ⟨hs, ?_⟩
  exact hdecided.of_types (Run.leaves_linkMethod _ ty t m).1.declared
    (Run.sparesTypes_linkMethod ty t _ m).types

theorem Decides.foldlM_discoverMethod (h : Decides p done s r) (ht : p.types.get? ty = some t) :
    Yields (Decides p done)
      (((r.program.methodsOf ty).map Prod.fst).foldlM (PointedRun.discoverMethod ty) s)
      ((r.program.methodsOf ty).foldl (Run.discoverMethod ty t) r) := by
  rw [List.foldlM_map]
  refine yields_foldlM_of_mem (fun e he s' r' h' => ?_) h
  obtain ⟨n, o, hn, hnm, ho, hname⟩ := Program.exists_method_of_mem
    (h.ahead.renamed.declared.trans h'.ahead.renamed.declared.symm) he (h'.ahead.showsType ht)
  exact h'.discoverMethod ht hn hnm ho hname

/-- The types passed are no longer ahead. -/
theorem Decides.discoverType (h : Decides p done s r) (ht : p.types.get? ty = some t)
    (hnew : ty ∉ done.map Prod.fst) :
    Yields (Decides p (done ++ [(ty, t)])) (s.discoverType ty) (r.discoverType (ty, t)) := by
  have hcurrent : r.program.types.get? ty = some t := h.ahead.types ht hnew
  obtain ⟨u, hu, rfl, -⟩ := h.shows.program.get_eq hcurrent
  obtain ⟨id, e, hrun, hfind, he⟩ := h.shows.engine.decidePackage u.symbol
  have hpackage :
      Shows { s with engine := e } { r with engine := r.engine.decidePackage u.symbol } :=
    ⟨he, h.shows.program⟩
  have hahead : Run.Ahead p done { r with engine := r.engine.decidePackage u.symbol } :=
    ⟨h.ahead.renamed, h.ahead.types⟩
  unfold PointedRun.discoverType Run.discoverType
  dsimp only
  rw [hu, ok_bind, hrun, ok_bind]
  dsimp only
  refine (hpackage.decideType hcurrent hfind).bind fun s₁ hs₁ => ?_
  have h₁ : Decides p _ s₁ _ := ⟨hs₁, hahead.decideType ty u.symbol⟩
  obtain ⟨u₁, hu₁, hreads₁⟩ := h₁.shows.program.exists_reads (h₁.ahead.showsType ht)
  rw [hu₁, ok_bind, hreads₁.fields]
  refine (h₁.foldlM_decideField ht).bind fun s₂ h₂ => ?_
  obtain ⟨u₂, hu₂, hreads₂⟩ := h₂.shows.program.exists_reads (h₂.ahead.showsType ht)
  rw [hu₂, ok_bind, hreads₂.methods]
  exact h₂.foldlM_discoverMethod ht

/-- What is decided with pointers is what is decided without. -/
theorem Shows.discover (h : s.Shows r) (hp : r.program.WellFormed) :
    Yields (fun s r' => s.Shows r' ∧ r.program.OnlyRenamed r'.program) s.discover r.discover := by
  unfold PointedRun.discover Run.discover
  refine (h.engine.seed h.program hp).bind fun e he => ?_
  have hstart : Decides r.program [] { s with engine := e }
      { r with engine := r.engine.seed r.program } :=
    ⟨⟨he, h.program⟩, .of_types rfl rfl, fun ht _ => ht⟩
  rw [h.program.slots_eq]
  refine (yields_foldlM (g := Run.discoverType) (R := Decides r.program)
    (fun done entry rest s' r' hsplit h' => ?_) hstart).bind fun s' h' => ?_
  · have hmem : entry ∈ r.program.types.entries := hsplit ▸ by simp
    exact h'.discoverType (Arena.mem_entries_iff.mp hmem)
      (notMem_passed r.program.types.nodup_entries hsplit)
  · exact yields_ok ⟨⟨{ h'.shows.engine with discovered := rfl }, h'.shows.program⟩,
      h'.ahead.renamed⟩

end PointedRun
end Renamer
