import Renamer.Proofs.ListedLookups
import Renamer.Proofs.SideBySide
import Renamer.Proofs.TreeCalls

/-!
# Engines with pointers

An engine with pointers goes through the states of one without (`PointedEngine.Shows`). Packages and
groups show those of the other one; the package noted in a record is where a search finds the path;
the names in use are the same, though they need not have been taken in one order.
-/

namespace Renamer

/-! ## Groups that are there -/

namespace PointedGroups

variable {q : PointedGroups} {target other : GroupId}

theorem size_enter (target : GroupId) (q : PointedGroups) (m : MethodId) :
    (q.enter target m).slots.size = q.slots.size :=
  Arena.size_modify _ _ _

theorem enterAt_eq_ok (h : target.index < q.slots.size) (m : MethodId) :
    q.enterAt target m = .ok (q.enter target m) := by
  obtain ⟨l, hl⟩ := Arena.exists_get?_of_lt h
  rw [enterAt, Arena.update_eq_ok hl]
  rfl

theorem emptyAt_eq_ok (htarget : target.index < q.slots.size)
    (hother : other.index < q.slots.size) : q.emptyAt target other = .ok (q.empty target other) ∧
      (q.empty target other).slots.size = q.slots.size := by
  obtain ⟨l, hl⟩ := Arena.exists_get?_of_lt hother
  rw [emptyAt, Arena.get_eq_ok_iff.mpr hl, ok_bind, Arena.update_eq_ok hl, ok_bind, empty, members,
    hl]
  refine foldlM_eq_ok (motive := fun s : PointedGroups => s.slots.size = q.slots.size)
    (fun m _ s hs => ⟨enterAt_eq_ok (hs ▸ htarget) m, (size_enter target s m).trans hs⟩) ?_
  exact Arena.size_modify _ _ _

theorem seatAt_eq_ok (h : target.index < q.slots.size) (m : MethodId) :
    q.seatAt target m = .ok (q.seat target m) ∧
      (q.seat target m).slots.size = q.slots.size := by
  rw [seatAt, seat]
  split
  · exact ⟨rfl, rfl⟩
  · exact ⟨enterAt_eq_ok h m, size_enter target q m⟩

/-- The groups that a merge goes through are there if pointers lead to groups that are. -/
theorem mergeAt_eq_ok (h : ∀ m id, q.pointers.get? m = some id → id.index < q.slots.size)
    (found : List MethodId) : q.mergeAt found = .ok (q.merge found) := by
  unfold mergeAt merge
  dsimp only
  generalize found.eraseDups = found
  split
  · rfl
  have htouched : ∀ id ∈ (found.filterMap q.pointers.get?).eraseDups, id.index < q.slots.size := by
    intro id hid
    obtain ⟨m, -, hm⟩ := List.mem_filterMap.mp (List.mem_eraseDups.mp hid)
    exact h m id hm
  generalize (found.filterMap q.pointers.get?).eraseDups = touched at htouched
  -- the group that takes in the others is there, if need be because it was just added
  obtain ⟨hhost, htail⟩ : (q.host touched).1.index < (q.host touched).2.slots.size ∧
      ∀ id ∈ touched.tail, id.index < (q.host touched).2.slots.size := by
    cases touched with
    | nil => exact ⟨by rw [host, Arena.size_push]; exact Nat.lt_succ_self _, by simp⟩
    | cons target others =>
      exact ⟨htouched target List.mem_cons_self, fun id hid =>
        htouched id (List.mem_cons_of_mem _ hid)⟩
  obtain ⟨hempty, hsize⟩ := foldlM_eq_ok
    (motive := fun s : PointedGroups => s.slots.size = (q.host touched).2.slots.size)
    (fun other hother s hs => by
      obtain ⟨hok, hkept⟩ := emptyAt_eq_ok (hs ▸ hhost) (hs ▸ htail other hother)
      exact ⟨hok, hkept.trans hs⟩) rfl
  obtain ⟨hseat, -⟩ := foldlM_eq_ok
    (motive := fun s : PointedGroups => s.slots.size = (q.host touched).2.slots.size)
    (fun m (_ : m ∈ found) s hs => by
      obtain ⟨hok, hkept⟩ := seatAt_eq_ok (hs ▸ hhost) m
      exact ⟨hok, hkept.trans hs⟩) hsize
  rw [hempty, ok_bind, hseat]
  rfl

theorem Shows.live_eq {g : OverrideGroups} (h : q.Shows g) : q.live = g.live := by
  rw [live, h.slots, OverrideGroups.live]

theorem Shows.mergeAt {g : OverrideGroups} (h : q.Shows g) (hg : g.Disjoint)
    (found : List MethodId) : Yields (Beside Shows) (q.mergeAt found) (g.merge found) := by
  refine ⟨q.merge found, mergeAt_eq_ok (fun m id hm => ?_) found, h.merge hg found⟩
  have hmem := (h.pointers m id).mp hm
  rw [← h.members, PointedGroups.members] at hmem
  cases hget : q.slots.get? id with
  | none => simp [hget] at hmem
  | some l => exact Arena.index_lt_of_get? hget

end PointedGroups

/-! ## The invariant -/

/-- The package noted in `k` is where a search of `t` finds the path noted in `x`; for the rest
the records agree. -/
structure PointedRecord.Reads (t : PackageTree) (k : PointedRecord) (x : TypeRecord) : Prop where
  package : t.find? x.package = some k.package
  newName : k.newName = x.newName
  chain : k.chain = x.chain
  fullName : k.fullName = x.fullName

/-- Packages stay in their slots, whatever is called. -/
theorem PointedRecord.Reads.runs {t t' : PackageTree} {call : TreeCall} {k : PointedRecord}
    {x : TypeRecord} (h : k.Reads t x) (hruns : TreeCall.Runs t call t') : k.Reads t' x where
  package := hruns.find?_eq h.package
  newName := h.newName
  chain := h.chain
  fullName := h.fullName

/-- Draws a name for the segment of the package at `path`. -/
def Engine.freshSegment (path : PackagePath) (e : Engine) : String × Engine :=
  ((e.packages.freshSegment path e.source).1,
    { e with source := (e.packages.freshSegment path e.source).2 })

namespace PointedEngine

/-- The notes of `q` are what searches in `e` answer. -/
structure Shows (q : PointedEngine) (e : Engine) : Prop where
  policy : q.policy = e.policy
  source : q.source = e.source
  packages : q.packages.Shows e.packages []
  grown : e.packages.Grown
  types : q.types.Alike (PointedRecord.Reads e.packages) e.types
  fields : q.fields = e.fields
  methods : q.methods = e.methods
  presets : q.presets = e.presets
  taken : q.taken.Alike e.taken
  groups : q.groups.Shows e.groups
  disjoint : e.groups.Disjoint
  findings : q.findings = e.findings
  discovered : q.discovered = e.discovered

/-- Nothing but the policy is left of an engine that is reset. -/
theorem shows_reset (q : PointedEngine) : q.reset.Shows { policy := q.policy } where
  policy := rfl
  source := rfl
  packages := PointedPackages.shows_empty
  grown := PackageTree.grown_empty
  types := .nil
  fields := rfl
  methods := rfl
  presets := rfl
  taken := fun _ => Iff.rfl
  groups := PointedGroups.shows_empty
  disjoint := OverrideGroups.disjoint_mergeAll []
  findings := rfl
  discovered := rfl

variable {q : PointedEngine} {e : Engine}

/-! ## Names -/

theorem Shows.rejects (h : q.Shows e) : q.rejects = e.rejects :=
  congrArg Policy.rejects h.policy

theorem Shows.report (h : q.Shows e) (found : Findings) : (q.report found).Shows (e.report found) :=
  { h with findings := congrArg (· ++ found) h.findings }

theorem Shows.claim (h : q.Shows e) (scope : Scope) (name : String) :
    (q.claim scope name).Shows (e.claim scope name) :=
  { h with taken := h.taken.claim scope name }

theorem Shows.drawAs (h : q.Shows e) (scope : Scope) (form : String → String) :
    ∃ q', drawAs scope form q = ((Engine.drawAs scope form e).1, q') ∧
      q'.Shows (Engine.drawAs scope form e).2 := by
  obtain ⟨taken, hdraw, htaken⟩ := h.taken.drawAs scope form e.source
  rw [PointedEngine.drawAs, h.source, hdraw]
  exact ⟨_, rfl, { h with taken := htaken, source := rfl }⟩

theorem Shows.draw (h : q.Shows e) (scope : Scope) :
    ∃ q', draw scope q = ((Engine.draw scope e).1, q') ∧ q'.Shows (Engine.draw scope e).2 :=
  h.drawAs scope id

theorem Shows.usableOr (h : q.Shows e) (identity newName : String)
    {f : PointedEngine → Except OutOfRange (String × PointedEngine)} {g : Engine → String × Engine}
    (hfresh : Yields (Beside Shows) (f q) (g e)) :
    Yields (Beside Shows) (q.usableOr identity newName f) (e.usableOr identity newName g) := by
  rw [PointedEngine.usableOr, Engine.usableOr, h.policy]
  split
  · exact yields_ok ⟨rfl, h⟩
  · exact hfresh.bind_beside fun q' hq' => yields_ok ⟨rfl, hq'.report _⟩

/-- A replacement that is drawn in a scope. -/
theorem Shows.usableOr_drawAs (h : q.Shows e) (identity newName : String) (scope : Scope)
    (form : String → String) :
    Yields (Beside Shows)
      (q.usableOr identity newName fun q => return PointedEngine.drawAs scope form q)
      (e.usableOr identity newName (Engine.drawAs scope form)) := by
  obtain ⟨q', hdraw, hq'⟩ := h.drawAs scope form
  refine h.usableOr identity newName ?_
  rw [hdraw]
  exact yields_ok ⟨rfl, hq'⟩

theorem Shows.usableOr_draw (h : q.Shows e) (identity newName : String) (scope : Scope) :
    Yields (Beside Shows)
      (q.usableOr identity newName fun q => return PointedEngine.draw scope q)
      (e.usableOr identity newName (Engine.draw scope)) :=
  h.usableOr_drawAs identity newName scope id

theorem Shows.insertField (h : q.Shows e) (id : FieldId) (newName : String) :
    ({ q with fields := q.fields.insert id newName } : PointedEngine).Shows
      { e with fields := e.fields.insert id newName } :=
  { h with fields := congrArg (·.insert id newName) h.fields }

theorem Shows.insertMethod (h : q.Shows e) (id : MethodId) (newName : String) :
    ({ q with methods := q.methods.insert id newName } : PointedEngine).Shows
      { e with methods := e.methods.insert id newName } :=
  { h with methods := congrArg (·.insert id newName) h.methods }

/-! ## Packages -/

/-- What a call does to packages changes nothing else. -/
theorem Shows.runs (h : q.Shows e) {call : TreeCall} {t : PackageTree} {k : PointedPackages}
    (hruns : TreeCall.Runs e.packages call t) (hk : k.Shows t []) :
    ({ q with packages := k } : PointedEngine).Shows { e with packages := t } :=
  { h with
    packages := hk
    grown := hruns.grown h.grown
    types := h.types.imp fun _ _ hx => hx.runs hruns }

theorem Shows.drawing (h : q.Shows e) (source : NameSource) :
    ({ q with source } : PointedEngine).Shows { e with source } :=
  { h with source := rfl }

theorem Shows.freshSegment (h : q.Shows e) {path : PackagePath} {id : PackageId}
    (hfind : e.packages.find? path = some id) :
    Yields (Beside Shows) (freshSegment id q) (e.freshSegment path) := by
  rw [PointedEngine.freshSegment, h.packages.freshSegment h.grown.linked hfind, h.source]
  exact yields_ok ⟨rfl, h.drawing _⟩

/-- The package at a dotted path, which is there from then on. -/
theorem Shows.getOrCreate (h : q.Shows e) (text : String) :
    ∃ id k, q.packages.getOrCreate text = .ok (id, k) ∧
      (e.packages.create (PackagePath.ofText text)).find? (PackagePath.ofText text) = some id ∧
      ({ q with packages := k } : PointedEngine).Shows
        { e with packages := e.packages.create (PackagePath.ofText text) } := by
  obtain ⟨k, hrun, hk⟩ := h.packages.getOrCreate h.grown text
  exact ⟨_, k, hrun, h.grown.linked.find?_getOrCreate text, h.runs (.create text) hk⟩

theorem Shows.assign (h : q.Shows e) {path : PackagePath} {id : PackageId}
    (hfind : e.packages.find? path = some id) (newName : String) :
    Yields Shows (do return { q with packages := ← q.packages.assign id newName })
      { e with packages := e.packages.assign path newName } := by
  obtain ⟨k, hassign, hk⟩ := h.packages.assign h.grown.linked hfind newName
  rw [hassign, ok_bind]
  exact yields_ok (h.runs (.assign newName hfind) hk)

theorem Shows.loadPackage (h : q.Shows e) (entry : String × String) :
    Yields Shows (q.loadPackage entry) (e.loadPackage entry) := by
  obtain ⟨id, k, hrun, hfind, hcreated⟩ := h.getOrCreate entry.1
  rw [PointedEngine.loadPackage, hrun, ok_bind]
  refine (hcreated.usableOr entry.1 entry.2 (hcreated.freshSegment hfind)).bind_beside
    fun q' hq' => ?_
  -- a replacement is drawn from the source, which leaves the packages as they are
  have hpackages := Engine.view_usableOr Engine.packages
    (Engine.freshSegment (PackagePath.ofText entry.1)) (fun _ => rfl) (fun _ _ => rfl)
    { e with packages := e.packages.create (PackagePath.ofText entry.1) } entry.1 entry.2
  have hthere := (congrArg (·.find? (PackagePath.ofText entry.1)) hpackages).trans hfind
  exact hq'.assign hthere _

theorem Shows.loadPresets (h : q.Shows e) (presets : Presets) :
    Yields Shows (q.loadPresets presets) (e.loadPresets presets) :=
  (yields_foldlM_of_mem (fun entry _ _ _ hs => hs.loadPackage entry) h).bind fun _ hq' =>
    yields_ok { hq' with presets := rfl }

/-- The packages of all types are created. -/
theorem Shows.foldlM_createPackage (h : q.Shows e) {l : ListedProgram} {p : Program}
    (hl : l.Shows p) :
    ∃ k, l.types.slots.foldlM (createPackage l) q.packages = .ok k ∧
      ({ q with packages := k } : PointedEngine).Shows { e with
        packages := p.types.toList.foldl (fun t s => t.create (PackagePath.ofText s.package))
          e.packages } := by
  rw [hl.slots_eq, ← Arena.map_snd_entries, List.foldl_map]
  refine yields_foldlM
    (R := fun _ k t => ({ q with packages := k } : PointedEngine).Shows { e with packages := t })
    (fun done entry rest k t hsplit hk => ?_) h
  have hentry : entry ∈ p.types.entries := hsplit ▸ by simp
  obtain ⟨u, hu, husymbol, -⟩ := hl.get_eq (Arena.mem_entries_iff.mp hentry)
  obtain ⟨id, k', hrun, -, hk'⟩ := hk.getOrCreate entry.2.package
  rw [createPackage, hu, ok_bind, husymbol, hrun]
  exact yields_ok hk'

/-- The names that types declare are taken type by type, and so they are the same. -/
theorem Shows.seed (h : q.Shows e) {l : ListedProgram} {p : Program} (hl : l.Shows p)
    (hp : p.WellFormed) : Yields Shows (q.seed l) (e.seed p) := by
  obtain ⟨taken, htaken, hnames⟩ := hl.foldlM_seedType hp q.taken
  obtain ⟨k, hpackages, hk⟩ := h.foldlM_createPackage hl
  rw [PointedEngine.seed, htaken, ok_bind, hpackages, ok_bind]
  refine yields_ok { hk with taken := fun x => ?_ }
  rw [hnames, h.taken]
  exact TakenNames.mem_seed.symm

/-! ## Deciding packages and types -/

/-- The package that a type lives in is decided, and it is answered where a search finds it. -/
theorem Shows.decidePackage (h : q.Shows e) (t : TypeSymbol) :
    ∃ id q', q.decidePackage t.package = .ok (id, q') ∧
      (e.decidePackage t).packages.find? (PackagePath.ofText t.package) = some id ∧
      q'.Shows (e.decidePackage t) := by
  obtain ⟨id, k, hrun, hfind, hcreated⟩ := h.getOrCreate t.package
  obtain ⟨k', hdecide, hk'⟩ := hcreated.packages.decide hcreated.grown hfind e.rejects e.source
  have hdecided := hcreated.runs (.decide e.rejects e.source hfind) hk'
  unfold PointedEngine.decidePackage Engine.decidePackage
  rw [hrun, ok_bind, h.rejects, h.source]
  dsimp only
  rw [hdecide]
  exact ⟨id, _, rfl, (PackageTree.find?_decide _ _ _).trans hfind, hdecided.drawing _⟩

theorem Shows.recordType (h : q.Shows e) (ty : TypeId) {t : TypeSymbol} {id : PackageId}
    (hfind : e.packages.find? (PackagePath.ofText t.package) = some id) (newName : String) :
    (q.recordType ty id newName).Shows (e.recordType ty t newName) :=
  { h with types := h.types.insert ty ⟨hfind, rfl, rfl, rfl⟩ }

theorem Shows.sourceAlias?_eq (h : q.Shows e) (t : TypeSymbol) :
    q.sourceAlias? t = e.sourceAlias? t := by
  rw [PointedEngine.sourceAlias?, Engine.sourceAlias?, Engine.sourceAlias?, ← h.policy]
  simp only [Engine.rejects, h.policy, h.taken.isFree]

/-! ## Composing -/

theorem Shows.keptChain_eq (h : q.Shows e) (ty : TypeId) : q.keptChain ty = e.keptChain ty :=
  h.types.bind_get? ty fun _ _ hx => hx.chain

theorem Shows.keptFullName_eq (h : q.Shows e) (ty : TypeId) :
    q.keptFullName ty = e.keptFullName ty :=
  h.types.bind_get? ty fun _ _ hx => hx.fullName

theorem Shows.typeAlias_eq (h : q.Shows e) (ty : TypeId) : q.typeAlias ty = e.typeAlias ty := by
  rw [PointedEngine.typeAlias, Engine.typeAlias, Option.map_eq_bind, Option.map_eq_bind]
  exact h.types.bind_get? ty fun _ _ hx => congrArg some hx.newName

theorem Shows.lastPart_eq (h : q.Shows e) (ty : TypeId) (t : TypeSymbol) :
    q.lastPart ty t = e.lastPart ty t := by
  rw [PointedEngine.lastPart, Engine.lastPart, h.typeAlias_eq]

theorem Shows.keep (h : q.Shows e) (ty : TypeId) {f : PointedRecord → PointedRecord}
    {g : TypeRecord → TypeRecord}
    (hfg : ∀ k x, k.Reads e.packages x → (f k).Reads e.packages (g x)) :
    (q.keep ty f).Shows (e.keep ty g) := by
  rw [PointedEngine.keep, Engine.keep, h.discovered]
  split
  · generalize hk : q.types.get? ty = k, hx : e.types.get? ty = x
    have hrel := h.types.get? ty
    rw [hk, hx] at hrel
    cases hrel with
    | none => exact h
    | some hkx => exact { h with types := h.types.insert ty (hfg _ _ hkx), discovered := rfl }
  · exact h

theorem Shows.packageAlias_eq (h : q.Shows e) (text : String) :
    q.packageAlias text = .ok (e.packageAlias text) := by
  rw [PointedEngine.packageAlias, h.packages.lookup_eq h.grown.linked, ok_bind,
    Engine.packageAlias]
  cases hlookup : e.packages.lookup text with
  | none => rfl
  | some id =>
    dsimp only
    rw [h.packages.fullAlias h.grown hlookup]
    rfl

theorem Shows.packageName_eq (h : q.Shows e) (ty : TypeId) (t : TypeSymbol) :
    q.packageName ty t = .ok (e.packageName ty t) := by
  rw [PointedEngine.packageName, Engine.packageName]
  generalize hk : q.types.get? ty = k, hx : e.types.get? ty = x
  have hrel := h.types.get? ty
  rw [hk, hx] at hrel
  cases hrel with
  | none =>
    dsimp only
    rw [h.packageAlias_eq]
    rfl
  | some hkx => exact h.packages.fullAlias h.grown hkx.package

/-- Around a type stand older ones, so that its own slot bounds the depth. -/
theorem Shows.chainName (h : q.Shows e) {l : ListedProgram} {p : Program} (hl : l.Shows p)
    (hp : p.WellFormed) {depth : Nat} {ty : TypeId} {t : TypeSymbol}
    (ht : p.types.get? ty = some t) (hdepth : ty.index < depth) :
    Yields (Beside Shows) (chainName l depth ty q) (e.chainName (p.lineage ty)) := by
  -- the type around has a smaller slot, which takes the induction on the depth through
  induction depth generalizing ty t with
  | zero => exact absurd hdepth (Nat.not_lt_zero _)
  | succ depth ih =>
    obtain ⟨u, hu, rfl, -⟩ := hl.get_eq ht
    unfold PointedEngine.chainName
    rw [h.keptChain_eq]
    cases henclosing : u.symbol.enclosing with
    | none =>
      rw [Program.lineage_of_topLevel ht henclosing, Engine.chainName]
      cases e.keptChain ty with
      | some name => exact yields_ok ⟨rfl, h⟩
      | none =>
        dsimp only
        rw [hu, ok_bind, henclosing, h.lastPart_eq]
        exact yields_ok ⟨rfl, h.keep ty fun _ _ hx => { hx with chain := rfl }⟩
    | some outer =>
      obtain ⟨o, ho, hlt, -⟩ := hp.nested ht henclosing
      rw [Program.lineage_of_nested hp ht henclosing, Engine.chainName]
      cases e.keptChain ty with
      | some name => exact yields_ok ⟨rfl, h⟩
      | none =>
        dsimp only
        rw [hu, ok_bind, henclosing, Program.isEmpty_lineage ho, h.lastPart_eq]
        dsimp only
        obtain ⟨⟨around, q'⟩, hrun, hsame, hq'⟩ := ih ho (by omega)
        rw [hrun]
        cases hsame
        exact yields_ok ⟨rfl, hq'.keep ty fun _ _ hx => { hx with chain := rfl }⟩

theorem Shows.fullName (h : q.Shows e) {l : ListedProgram} {p : Program} (hl : l.Shows p)
    (hp : p.WellFormed) {ty : TypeId} {s t : TypeSymbol} (hs : p.types.get? ty = some s)
    (hst : s.declared = t.declared) :
    Yields (Beside Shows) (q.fullName l ty) (e.fullName p ty t) := by
  unfold PointedEngine.fullName Engine.fullName
  rw [h.keptFullName_eq]
  cases e.keptFullName ty with
  | some name => exact yields_ok ⟨rfl, h⟩
  | none =>
    obtain ⟨u, hu, rfl, -⟩ := hl.get_eq hs
    dsimp only
    rw [hu, ok_bind, h.packageName_eq, ok_bind,
      TypeSymbol.agree hst (e.packageName ty) fun _ => rfl]
    exact (h.chainName hl hp hs (Nat.lt_succ_self _)).bind_beside fun q' hq' =>
      yields_ok ⟨rfl, hq'.keep ty fun _ _ hx => { hx with fullName := rfl }⟩

end PointedEngine
end Renamer
