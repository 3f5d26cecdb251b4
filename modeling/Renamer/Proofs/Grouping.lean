import Renamer.Proofs.Construction
import Renamer.Proofs.Frames
import Renamer.Proofs.Hierarchy

/-!
# The groups of a run

Two virtual methods with one override key are linked where the owner of one reaches the owner of
the other. The groups of a run are the connected components of this relation, and the members of a
group end with one alias.

* `Run.Collected` is what deciding keeps: the groups come of merging sets, each of which is all
  that some method inherits from, and every method decided so far has its set among them.
* Such sets overlap along links, so chains of sets are chains of links.
-/

namespace Renamer

/-! ## Links -/

namespace Program

/-- `b` is a virtual method with the override key of the virtual method `a`, in the owner of `a`
or above it. -/
def Inherits (p : Program) (a b : MethodId) : Prop :=
  ∃ m n, p.methods.get? a = some m ∧ p.methods.get? b = some n ∧ m.isVirtual = true ∧
    n.isVirtual = true ∧ n.key = m.key ∧ p.Reaches m.owner n.owner

/-- Two virtual methods have one override key, and the owner of one reaches that of the other. -/
def Linked (p : Program) (a b : MethodId) : Prop := p.Inherits a b ∨ p.Inherits b a

variable {p q : Program}

theorem Inherits.refl {a : MethodId} {m : MethodSymbol} (hm : p.methods.get? a = some m)
    (hvirtual : m.isVirtual = true) : p.Inherits a a :=
  ⟨m, m, hm, hm, hvirtual, hvirtual, rfl, Relation.ReflTransGen.refl⟩

theorem Inherits.self {a b : MethodId} (h : p.Inherits a b) : p.Inherits a a := by
  obtain ⟨m, n, hm, hn, hvirtual, -⟩ := h
  exact Inherits.refl hm hvirtual

/-- Along links, methods are virtual and keep their key. -/
theorem Linked.agree {a b : MethodId} (h : p.Linked a b) :
    ∃ m n, p.methods.get? a = some m ∧ p.methods.get? b = some n ∧ m.isVirtual = true ∧
      n.isVirtual = true ∧ n.key = m.key := by
  rcases h with ⟨m, n, hm, hn, hmv, hnv, hkey, -⟩ | ⟨m, n, hm, hn, hmv, hnv, hkey, -⟩
  · exact ⟨m, n, hm, hn, hmv, hnv, hkey⟩
  · exact ⟨n, m, hn, hm, hnv, hmv, hkey.symm⟩

/-- Whatever a chain of links connects has one key. -/
theorem key_eq_of_chain {a b : MethodId} (h : Relation.ReflTransGen p.Linked a b)
    {m n : MethodSymbol} (hm : p.methods.get? a = some m) (hn : p.methods.get? b = some n) :
    n.key = m.key := by
  induction h generalizing n with
  | refl =>
    rw [hm] at hn
    cases hn
    rfl
  | tail _ hlink ih =>
    obtain ⟨c, n', hc, hn', -, -, hkey⟩ := hlink.agree
    rw [hn] at hn'
    cases hn'
    rw [hkey, ih hc]

/-- What a method inherits from is a matter of declarations. -/
theorem Inherits.of_declared (h : p.declared = q.declared) {a b : MethodId} (hab : p.Inherits a b) :
    q.Inherits a b := by
  obtain ⟨m, n, hm, hn, hmv, hnv, hkey, hreach⟩ := hab
  obtain ⟨m', hm', hme⟩ := method_of_declared h hm
  obtain ⟨n', hn', hne⟩ := method_of_declared h hn
  refine ⟨m', n', hm', hn', ?_, ?_, ?_, ?_⟩
  · rw [MethodSymbol.agree hme MethodSymbol.isVirtual fun _ => rfl, hmv]
  · rw [MethodSymbol.agree hne MethodSymbol.isVirtual fun _ => rfl, hnv]
  · rw [MethodSymbol.agree hme MethodSymbol.key fun _ => rfl,
      MethodSymbol.agree hne MethodSymbol.key fun _ => rfl, hkey]
  · rw [MethodSymbol.agree hme MethodSymbol.owner fun _ => rfl,
      MethodSymbol.agree hne MethodSymbol.owner fun _ => rfl]
    exact (reaches_of_declared h).mp hreach

theorem linked_of_declared (h : p.declared = q.declared) {a b : MethodId} :
    p.Linked a b ↔ q.Linked a b :=
  ⟨fun hab => hab.imp (Inherits.of_declared h) (Inherits.of_declared h),
    fun hab => hab.imp (Inherits.of_declared h.symm) (Inherits.of_declared h.symm)⟩

/-- `found` lists what `a` inherits from. -/
def Lists (p : Program) (a : MethodId) (found : List MethodId) : Prop :=
  ∀ b, b ∈ found ↔ p.Inherits a b

theorem Lists.of_declared (h : p.declared = q.declared) {a : MethodId} {found : List MethodId}
    (ha : p.Lists a found) : q.Lists a found := by
  intro b
  rw [ha b]
  exact ⟨Inherits.of_declared h, Inherits.of_declared h.symm⟩

/-- The walk from the owner of a virtual method lists what the method inherits from. -/
theorem lists_overriddenFrom {ty : TypeId} {s t : TypeSymbol} (hs : p.types.get? ty = some s)
    (hst : s.declared = t.declared) {a : MethodId} {m : MethodSymbol}
    (hm : p.methods.get? a = some m) (howner : m.owner = ty) (hvirtual : m.isVirtual = true) :
    p.Lists a (p.overriddenFrom ty t m.key).1 := by
  intro b
  rw [mem_overriddenFrom hs hst]
  constructor
  · intro h
    rcases h with ⟨n, hn, hnv, hkey, hreach⟩
    exact ⟨m, n, hm, hn, hvirtual, hnv, hkey, howner ▸ hreach⟩
  · intro h
    rcases h with ⟨m', n, hm', hn, -, hnv, hkey, hreach⟩
    rw [hm] at hm'
    cases hm'
    exact ⟨n, hn, hnv, hkey, howner ▸ hreach⟩

/-- Where sets list what methods inherit from, and every virtual method has its set, chains of
overlapping sets are chains of links. -/
theorem meet_iff_linked {sets : List (List MethodId)}
    (hsound : ∀ found ∈ sets, ∃ a, p.Lists a found)
    (hcomplete : ∀ a, p.Inherits a a → ∃ found ∈ sets, p.Lists a found) (a b : MethodId) :
    Relation.ReflTransGen (OverrideGroups.Meet sets) a b ↔ Relation.ReflTransGen p.Linked a b := by
  constructor
  · intro h
    induction h with
    | refl => exact Relation.ReflTransGen.refl
    | tail _ hmeet ih =>
      -- the method whose set it is links the two
      obtain ⟨found, hfound, hx, hy⟩ := hmeet
      obtain ⟨c, hc⟩ := hsound found hfound
      exact (ih.tail (Or.inr ((hc _).mp hx))).tail (Or.inl ((hc _).mp hy))
  · refine Relation.ReflTransGen.mono (fun x y h => ?_) a b
    have hmeet : ∀ {x y}, p.Inherits x y → ∃ found ∈ sets, x ∈ found ∧ y ∈ found := by
      intro x y h
      obtain ⟨found, hfound, hlists⟩ := hcomplete x h.self
      exact ⟨found, hfound, (hlists x).mpr h.self, (hlists y).mpr h⟩
    rcases h with h | h
    · exact hmeet h
    · obtain ⟨found, hfound, hy, hx⟩ := hmeet h
      exact ⟨found, hfound, hx, hy⟩

end Program

/-! ## Collecting sets -/

namespace Run

/-- The groups of `r` come of sets that methods of `p` inherit from, where all methods in `done`
have had theirs. The declarations are those of `p`. -/
def Collected (p : Program) (done : List MethodId) (r : Run) : Prop :=
  ∃ sets, r.engine.groups = OverrideGroups.mergeAll sets ∧ r.program.declared = p.declared ∧
    r.program.Marked ∧ (∀ found ∈ sets, ∃ a, p.Lists a found) ∧
    ∀ a ∈ done, p.Inherits a a → ∃ found ∈ sets, p.Lists a found

variable {p : Program} {done : List MethodId} {r r' : Run}

theorem Collected.spares (h : Collected p done r) (hrr : r.Spares r') : Collected p done r' := by
  obtain ⟨sets, hgroups, hdeclared, hmarked, hsound, hdone⟩ := h
  exact ⟨sets, hrr.groups.trans hgroups, hrr.declared.trans hdeclared, hrr.marked hmarked, hsound,
    hdone⟩

theorem Collected.declared (h : Collected p done r) : r.program.declared = p.declared := by
  obtain ⟨_, _, hdeclared, _⟩ := h
  exact hdeclared

/-- Linking a method adds its set, if it is virtual. -/
theorem Collected.linkMethod (h : Collected p done r) {ty : TypeId} {t : TypeSymbol}
    (ht : ∃ s, r.program.types.get? ty = some s ∧ s.declared = t.declared) {id : MethodId}
    {m m' : MethodSymbol} (hm' : r.program.methods.get? id = some m')
    (hmm : m'.declared = m.declared) (howner : m.owner = ty) :
    Collected p (done ++ [id]) (r.linkMethod ty t m) := by
  obtain ⟨sets, hgroups, hdeclared, hmarked, hsound, hdone⟩ := h
  obtain ⟨s, hs, hst⟩ := ht
  have hvirtual : m'.isVirtual = m.isVirtual :=
    MethodSymbol.agree hmm MethodSymbol.isVirtual fun _ => rfl
  unfold Run.linkMethod
  by_cases hv : m.isVirtual = true
  · rw [if_pos hv]
    -- the set of the walk lists what the method inherits from
    have hlists : p.Lists id (r.program.overriddenFrom ty t m.key).1 := by
      rw [← MethodSymbol.agree hmm MethodSymbol.key fun _ => rfl]
      refine Program.Lists.of_declared hdeclared (Program.lists_overriddenFrom hs hst hm' ?_ ?_)
      · rw [MethodSymbol.agree hmm MethodSymbol.owner fun _ => rfl, howner]
      · rw [hvirtual, hv]
    refine ⟨sets ++ [(r.program.overriddenFrom ty t m.key).1], ?_, hdeclared, hmarked, ?_, ?_⟩
    · rw [OverrideGroups.mergeAll_append, ← hgroups]
      rfl
    · intro found hfound
      rcases List.mem_append.mp hfound with hfound | hfound
      · exact hsound found hfound
      · exact ⟨id, List.mem_singleton.mp hfound ▸ hlists⟩
    · intro a ha haa
      rcases List.mem_append.mp ha with ha | ha
      · obtain ⟨found, hfound, hlist⟩ := hdone a ha haa
        exact ⟨found, List.mem_append_left _ hfound, hlist⟩
      · rw [List.mem_singleton.mp ha]
        exact ⟨_, List.mem_append_right _ (List.mem_singleton.mpr rfl), hlists⟩
  · rw [if_neg hv]
    refine ⟨sets, hgroups, hdeclared, hmarked, hsound, fun a ha haa => ?_⟩
    rcases List.mem_append.mp ha with ha | ha
    · exact hdone a ha haa
    · -- a method that is not virtual inherits from none
      rw [List.mem_singleton.mp ha] at haa
      obtain ⟨n, -, hn, -, hnv, -⟩ := haa.of_declared hdeclared.symm
      rw [hm'] at hn
      cases hn
      exact absurd (hvirtual ▸ hnv) hv

theorem Collected.discoverMethod (h : Collected p done r) {ty : TypeId} {t : TypeSymbol}
    (ht : ∃ s, p.types.get? ty = some s ∧ s.declared = t.declared) {id : MethodId}
    {m m' : MethodSymbol} (hm : p.methods.get? id = some m') (hmm : m'.declared = m.declared)
    (howner : m.owner = ty) : Collected p (done ++ [id]) (Run.discoverMethod ty t r (id, m)) := by
  have hdecided := h.spares (spares_decideMethod t r (id, m))
  obtain ⟨s, hs, hst⟩ := ht
  obtain ⟨s', hs', hss⟩ := Program.type_of_declared hdecided.declared.symm hs
  obtain ⟨n, hn, hnm⟩ := Program.method_of_declared hdecided.declared.symm hm
  exact hdecided.linkMethod ⟨s', hs', hss.trans hst⟩ hn (hnm.trans hmm) howner

/-- Methods of one owner, one after the other. -/
theorem Collected.foldl_discoverMethod {ty : TypeId} {t : TypeSymbol}
    (ht : ∃ s, p.types.get? ty = some s ∧ s.declared = t.declared)
    (entries : List (MethodId × MethodSymbol))
    (hentries : ∀ e ∈ entries, e.2.owner = ty ∧
      ∃ m, p.methods.get? e.1 = some m ∧ m.declared = e.2.declared)
    (h : Collected p done r) :
    Collected p (done ++ entries.map Prod.fst) (entries.foldl (Run.discoverMethod ty t) r) := by
  induction entries generalizing done r with
  | nil => simpa using h
  | cons e entries ih =>
    obtain ⟨howner, m, hm, hmm⟩ := hentries e List.mem_cons_self
    have hstep := h.discoverMethod ht hm hmm howner
    have hrest := ih (fun e he => hentries e (List.mem_cons_of_mem _ he)) hstep
    rwa [List.append_assoc] at hrest

/-- The methods of a type get their sets with the type. -/
theorem Collected.discoverType (h : Collected p done r) {e : TypeId × TypeSymbol}
    (he : p.types.get? e.1 = some e.2) :
    ∃ more, Collected p (done ++ more) (r.discoverType e) ∧
      ∀ id m, p.methods.get? id = some m → m.owner = e.1 → id ∈ more := by
  have hhead := h.spares (spares_decideHead r e)
  rw [discoverType_eq]
  generalize r.decideHead e = r₁ at hhead
  refine ⟨(r₁.program.methodsOf e.1).map Prod.fst,
    hhead.foldl_discoverMethod ⟨e.2, he, rfl⟩ _ fun e he => ?_, fun id m hm howner => ?_⟩
  · obtain ⟨hget, howner⟩ := Program.mem_methodsOf.mp he
    exact ⟨howner, Program.method_of_declared hhead.declared hget⟩
  · obtain ⟨m', hm', hmm⟩ := Program.method_of_declared hhead.declared.symm hm
    have howner' : m'.owner = e.1 :=
      (MethodSymbol.agree hmm MethodSymbol.owner fun _ => rfl).trans howner
    exact List.mem_map.mpr ⟨(id, m'), Program.mem_methodsOf.mpr ⟨hm', howner'⟩, rfl⟩

theorem Collected.foldl_discoverType (entries : List (TypeId × TypeSymbol))
    (hentries : ∀ e ∈ entries, p.types.get? e.1 = some e.2) (h : Collected p done r) :
    ∃ more, Collected p (done ++ more) (entries.foldl Run.discoverType r) ∧
      ∀ e ∈ entries, ∀ id m, p.methods.get? id = some m → m.owner = e.1 → id ∈ more := by
  induction entries generalizing done r with
  | nil => exact ⟨[], by simpa using h, by simp⟩
  | cons e entries ih =>
    obtain ⟨more, hstep, hmore⟩ := h.discoverType (hentries e List.mem_cons_self)
    obtain ⟨rest, hrest, hmem⟩ := ih (fun e he => hentries e (List.mem_cons_of_mem _ he)) hstep
    rw [List.append_assoc] at hrest
    rw [List.foldl_cons]
    refine ⟨more ++ rest, hrest, fun e' he' id m hm howner => ?_⟩
    rcases List.mem_cons.mp he' with rfl | he'
    · exact List.mem_append_left _ (hmore id m hm howner)
    · exact List.mem_append_right _ (hmem e' he' id m hm howner)

/-- The groups of `r` are the connected components of the links of `p`, which `r` declares alike. -/
structure Grouped (p : Program) (r : Run) : Prop where
  declared : r.program.declared = p.declared
  marked : r.program.Marked
  disjoint : r.engine.groups.Disjoint
  same_iff : ∀ a b, r.engine.groups.Same a b ↔ Relation.ReflTransGen p.Linked a b

theorem Grouped.spares (h : Grouped p r) (hrr : r.Spares r') : Grouped p r' where
  declared := hrr.declared.trans h.declared
  marked := hrr.marked h.marked
  disjoint := by
    rw [hrr.groups]
    exact h.disjoint
  same_iff := by
    rw [hrr.groups]
    exact h.same_iff

/-- When all is decided, every method has had its set. -/
theorem Collected.discover (h : Collected r.program [] r) :
    ∃ done, Collected r.program done r.discover ∧
      ∀ id m, r.program.methods.get? id = some m →
        (∃ t, r.program.types.get? m.owner = some t) → id ∈ done := by
  have hstart : Collected r.program [] { r with engine := r.engine.seed r.program } := h
  obtain ⟨done, hall, hdone⟩ :=
    hstart.foldl_discoverType r.program.types.entries fun e he => Arena.mem_entries_iff.mp he
  refine ⟨done, hall, fun id m hm howner => ?_⟩
  -- a method stands in a type of the program, which the pass has come to
  obtain ⟨t, ht⟩ := howner
  exact hdone (m.owner, t) (Arena.mem_entries_iff.mpr ht) id m hm rfl

/-- Sets of all methods make up groups. -/
theorem Collected.grouped (h : Collected p done r)
    (hdone : ∀ id m, p.methods.get? id = some m → id ∈ done) : Grouped p r := by
  obtain ⟨sets, hg, hd, hm, hsound, hsets⟩ := h
  have hcomplete : ∀ a, p.Inherits a a → ∃ found ∈ sets, p.Lists a found := by
    intro a ha
    refine hsets a ?_ ha
    obtain ⟨m, -, hm, -⟩ := ha
    exact hdone a m hm
  refine ⟨hd, hm, ?_, fun a b => ?_⟩
  · rw [hg]
    exact OverrideGroups.disjoint_mergeAll sets
  · rw [hg, OverrideGroups.same_mergeAll_iff, Program.meet_iff_linked hsound hcomplete]

/-- When all is decided by an engine without groups, they are made up of the program's methods. -/
theorem grouped_discover (hp : r.program.WellFormed) (hgroups : r.engine.groups = {})
    (hmarked : r.program.Marked) : Grouped r.program r.discover := by
  have hstart : Collected r.program [] r := ⟨[], hgroups, rfl, hmarked, by simp, by simp⟩
  obtain ⟨done, hall, hdone⟩ := hstart.discover
  exact hall.grouped fun id m hm => hdone id m hm (hp.method_owner hm)

theorem Grouped.of_declared {q : Program} (h : Grouped p r) (hpq : p.declared = q.declared) :
    Grouped q r where
  declared := h.declared.trans hpq
  marked := h.marked
  disjoint := h.disjoint
  same_iff := by
    intro a b
    have hlinked : p.Linked = q.Linked := by
      ext x y
      exact Program.linked_of_declared hpq
    rw [h.same_iff, hlinked]

theorem Grouped.reaches_of_together (h : Grouped p r) {a b : MethodId}
    (hab : r.engine.groups.Together a b) : Relation.ReflTransGen p.Linked a b :=
  (h.same_iff a b).mp (Or.inr hab)

/-- Whoever is in a group is linked to another method. -/
theorem Grouped.linked_of_mem (h : Grouped p r) {a : MethodId} {id : GroupId}
    (ha : a ∈ r.engine.groups.members id) : ∃ b, b ≠ a ∧ p.Linked a b := by
  -- a group has a second member, and a chain of links leads to it
  obtain ⟨b, hb, hab⟩ := h.disjoint.exists_other ha
  have hne : b ≠ a := fun h => hab h.symm
  have hchain := h.reaches_of_together ⟨id, ha, hb⟩
  by_contra hnone
  -- without a link to another method, no chain leads away
  have hstay : ∀ {c}, Relation.ReflTransGen p.Linked a c → c = a := by
    intro c hc
    induction hc with
    | refl => rfl
    | tail _ hlink ih =>
      by_contra hne
      exact hnone ⟨_, hne, ih ▸ hlink⟩
  exact hne (hstay hchain)

/-- Members of groups are methods. -/
theorem Grouped.present (h : Grouped p r) :
    ∀ g ∈ r.engine.groups.live, Unification.Present r.program g.2 := by
  intro g hg a ha
  obtain ⟨hmembers, -⟩ := OverrideGroups.mem_live_iff.mp hg
  obtain ⟨b, -, hlink⟩ := h.linked_of_mem (hmembers ▸ ha)
  obtain ⟨m, -, hm, -⟩ := hlink.agree
  obtain ⟨m', hm', -⟩ := Program.method_of_declared h.declared.symm hm
  exact ⟨m', hm'⟩

/-- Members of a group have one key. -/
theorem Grouped.key_eq (h : Grouped p r) {a b : MethodId} (hab : r.engine.groups.Together a b)
    {m n : MethodSymbol} (hm : p.methods.get? a = some m) (hn : p.methods.get? b = some n) :
    n.key = m.key :=
  Program.key_eq_of_chain (h.reaches_of_together hab) hm hn

/-! ## The end of a run -/

/-- What unification starts from. -/
def unification (r : Run) : Unification where
  program := r.program
  aliases := r.engine.methods
  taken := r.engine.taken
  source := r.engine.source

/-- The end of a run whose aliases have been bound. -/
def unified (r : Run) : Run :=
  let u := r.unification.turns r.engine.groups.live
  { engine := { r.engine with
      methods := u.aliases, taken := u.taken, source := u.source, findings := [] }
    program := u.program }

@[simp] theorem knownTypes_unified (r : Run) : r.unified.engine.types = r.engine.types := rfl

@[simp] theorem knownGroups_unified (r : Run) : r.unified.engine.groups = r.engine.groups := rfl

@[simp] theorem presets_unified (r : Run) : r.unified.engine.presets = r.engine.presets := rfl

@[simp] theorem typeAlias_unified (r : Run) (ty : TypeId) :
    r.unified.engine.typeAlias ty = r.engine.typeAlias ty := rfl

@[simp] theorem fieldAlias_unified (r : Run) (id : FieldId) :
    r.unified.engine.fieldAlias id = r.engine.fieldAlias id := rfl

end Run

namespace Engine

/-- The run of an engine on a program, up to unification. -/
def bound (e : Engine) (p : Program) : Run :=
  (Run.discover { engine := e, program := p.clearAliases }).apply

variable {e : Engine} {p : Program}

theorem grouped_bound (hp : p.WellFormed) (he : e.groups = {}) : Run.Grouped p (e.bound p) := by
  have hcleared := hp.of_declared (Program.declared_clearAliases (p := p)).symm
  have hdiscover := Run.grouped_discover (r := { engine := e, program := p.clearAliases }) hcleared
    he (Program.marked_clearAliases p)
  exact (hdiscover.spares (Run.spares_apply _)).of_declared Program.declared_clearAliases

/-- A run unifies what has been bound, and reports what was counted and found up to then. -/
theorem process_eq_bound (e : Engine) (p : Program) :
    e.process p = (e.bound p).unify >>= fun u =>
      let tally := (Run.discover { engine := e, program := p.clearAliases }).applyCounted.1
      .ok (
        { typesRenamed := tally.types
          fieldsRenamed := tally.fields
          methodsRenamed := tally.methods
          overrideGroups := (e.bound p).engine.groups.size
          methodsUnified := u.1
          diagnostics := (e.bound p).engine.findings },
        { u.2 with engine := { u.2.engine with findings := [] } }) := by
  rw [bound, ← Run.snd_applyCounted]
  rfl

/-- A run whose methods are grouped does not fail, and ends with unification turn by turn. -/
theorem process_eq_ok_of_grouped (hgrouped : Run.Grouped p (e.bound p)) :
    ∃ report, e.process p = .ok (report, (e.bound p).unified) := by
  rw [process_eq_bound]
  generalize e.bound p = r at hgrouped
  have hunify : r.unification.unify r.engine.groups =
      .ok (r.unification.turns r.engine.groups.live) := Unification.unify_eq_ok hgrouped.present
  rw [Run.unify, ← Run.unification, hunify]
  exact ⟨_, rfl⟩

/-- So does not the run of an engine without groups. -/
theorem process_eq_ok (hp : p.WellFormed) (he : e.groups = {}) :
    ∃ report, e.process p = .ok (report, (e.bound p).unified) :=
  process_eq_ok_of_grouped (grouped_bound hp he)

/-- So the state at the end of a run is known. -/
theorem unified_eq_of_process (hp : p.WellFormed) (he : e.groups = {}) {report : Report} {r : Run}
    (h : e.process p = .ok (report, r)) : (e.bound p).unified = r := by
  obtain ⟨report', hrun⟩ := process_eq_ok hp he
  exact congrArg Prod.snd (Except.ok.inj (hrun.symm.trans h))

/-- After a run the override groups are the connected components of the links between methods. A
method that is linked to no other is in no group, and the members of a group have one alias. -/
theorem groups_process_iff_linked (p : Program) (hp : p.Built) (e : Engine) (presets : Presets) :
    ∃ report r, (e.reset.loadPresets presets).process p = .ok (report, r) ∧
      (∀ a b, a ≠ b → ((∃ g, r.engine.groups.groupOf a = some g ∧
        r.engine.groups.groupOf b = some g) ↔ Relation.ReflTransGen p.Linked a b)) ∧
      (∀ a, (∀ b, b ≠ a → ¬ p.Linked a b) → r.engine.groups.groupOf a = none) ∧
      ∀ g a b m n, r.engine.groups.groupOf a = some g → r.engine.groups.groupOf b = some g →
        r.program.methods.get? a = some m → r.program.methods.get? b = some n →
        m.newName = n.newName := by
  have hgroups : (e.reset.loadPresets presets).groups = {} := groups_loadPresets _ _
  have hgrouped := grouped_bound hp.wellFormed hgroups
  obtain ⟨report, hrun⟩ := process_eq_ok hp.wellFormed hgroups
  refine ⟨report, _, hrun, ?_⟩
  generalize (e.reset.loadPresets presets).bound p = r at hgrouped
  have hgroupOf : ∀ {a g}, r.unified.engine.groups.groupOf a = some g ↔
      a ∈ r.engine.groups.members g := OverrideGroups.groupOf_eq_some_iff hgrouped.disjoint
  refine ⟨fun a b hab => ?_, fun a halone => ?_, fun g a b m n ha hb hm hn => ?_⟩
  · have hsame : (∃ g, a ∈ r.engine.groups.members g ∧ b ∈ r.engine.groups.members g) ↔
        r.engine.groups.Same a b := (or_iff_right hab).symm
    simp only [hgroupOf]
    rw [hsame, hgrouped.same_iff]
  · refine (OverrideGroups.groupOf_eq_none_iff hgrouped.disjoint).mpr fun id hid => ?_
    obtain ⟨b, hne, hlink⟩ := hgrouped.linked_of_mem hid
    exact halone b hne hlink
  · exact Unification.newName_eq_of_together hgrouped.disjoint hgrouped.present hgrouped.marked
      ⟨g, hgroupOf.mp ha, hgroupOf.mp hb⟩ hm hn

/-- The two methods `d` of related types end in one group. -/
theorem groups_process_relatedTypes : Program.relatedTypes.Built ∧
    ∃ report r, (({} : Engine).reset.loadPresets {}).process Program.relatedTypes =
        .ok (report, r) ∧
      ∃ g, r.engine.groups.groupOf ⟨0⟩ = some g ∧ r.engine.groups.groupOf ⟨2⟩ = some g := by
  obtain ⟨report, r, hrun, hiff, -⟩ :=
    groups_process_iff_linked Program.relatedTypes Program.built_relatedTypes {} {}
  refine ⟨Program.built_relatedTypes, report, r, hrun, ?_⟩
  rw [hiff ⟨0⟩ ⟨2⟩ (by decide)]
  have hrefers : Program.relatedTypes.Refers ⟨0⟩ ⟨1⟩ :=
    ⟨_, rfl, "Base", by decide, by decide +kernel⟩
  exact Relation.ReflTransGen.single (Or.inl ⟨_, _, rfl, rfl, rfl, rfl, rfl,
    Relation.ReflTransGen.single hrefers⟩)

end Engine
end Renamer
