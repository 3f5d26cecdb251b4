import Renamer.Proofs.Grouping
import Renamer.Proofs.PointedDeciding

/-!
# Binding and unifying with pointers

The pass that binds, and unification after it, do with pointers what they do with searches
(`PointedRun.Shows.applyCounted`, `PointedRun.Shows.unify`).

Unification without pointers has resolved the members of a group before it binds the first one. With
pointers each member is looked up when its turn comes. It is the same as long as no member comes
twice.
-/

namespace Renamer
namespace PointedRun

variable {p : Program} {ty : TypeId} {t : TypeSymbol}

/-! ## Binding -/

section Binding

variable {s : Tally × PointedRun} {s' : Tally × Run}

/-- Binding has come as far with pointers as without, and `p` has been no more than renamed. -/
structure Binds (p : Program) (s : Tally × PointedRun) (s' : Tally × Run) : Prop where
  tally : s.1 = s'.1
  shows : s.2.Shows s'.2
  renamed : p.OnlyRenamed s'.2.program

theorem Binds.showsType (h : Binds p s s') (ht : p.ShowsType ty t) :
    s'.2.program.ShowsType ty t := by
  obtain ⟨u, hu, hut⟩ := ht
  obtain ⟨u', hu', huu'⟩ := Program.type_of_declared h.renamed.declared.symm hu
  exact ⟨u', hu', huu'.trans hut⟩

theorem Binds.countType (h : Binds p s s') (hp : p.WellFormed) (ht : p.ShowsType ty t) :
    Yields (Binds p) (countType s ty) (Run.countType s' (ty, t)) := by
  obtain ⟨n, r⟩ := s
  obtain ⟨n', r'⟩ := s'
  obtain rfl : n = n' := h.tally
  obtain ⟨u, hu, hut⟩ := h.showsType ht
  have hp' := hp.of_declared h.renamed.declared.symm
  unfold PointedRun.countType Run.countType Run.renamesType Run.applyType
  dsimp only
  refine (h.shows.engine.fullName h.shows.program hp' hu hut).bind_beside fun e he => ?_
  obtain ⟨v, hv, rfl, -⟩ := h.shows.program.get_eq hu
  dsimp only at hv ⊢
  rw [hv, ok_bind, TypeSymbol.agree hut TypeSymbol.fullName fun _ => rfl]
  split
  · obtain ⟨q, hrun, hq⟩ := h.shows.program.withTypeAlias hu
      (r'.engine.fullName r'.program ty t).1
    rw [hrun]
    exact yields_ok ⟨rfl, ⟨he, hq⟩, h.renamed.trans (r'.program.onlyRenamed_withTypeAlias ty _)⟩
  · exact yields_ok ⟨rfl, ⟨he, h.shows.program⟩, h.renamed⟩

theorem Shows.countField {s : PointedRun} {r : Run} (h : s.Shows r) (n : Tally) {id : FieldId}
    {f g : FieldSymbol} {o : TypeSymbol} (hg : r.program.fields.get? id = some g)
    (hgf : g.declared = f.declared) (ho : r.program.types.get? g.owner = some o)
    (hname : o.fullName = t.fullName) (howner : f.owner = ty) :
    Yields (Beside Shows) (countField ty (n, s) id) (Run.countField t (n, r) (id, f)) := by
  unfold PointedRun.countField Run.countField Run.applyField Run.bindsMember
  dsimp only
  rw [h.engine.fields]
  cases r.engine.fields.get? id with
  | none => exact yields_ok ⟨rfl, h⟩
  | some newName =>
    dsimp only [Option.any_some]
    by_cases hempty : newName.isEmpty = true
    · rw [if_pos hempty, if_pos hempty, if_neg (by simp [hempty])]
      exact yields_ok ⟨rfl, h⟩
    · rw [if_neg hempty, if_neg hempty, if_pos (by simp [hempty]), h.program.fieldIdentity_eq,
        Program.fieldIdentity_eq_ok hg ho, ok_bind, hname,
        FieldSymbol.agree hgf (fun u => u.identity t.fullName) fun _ => rfl, FieldSymbol.scope,
        howner]
      refine (h.engine.usableOr_draw _ _ _).bind_beside fun e he => ?_
      obtain ⟨q, hrun, hq⟩ := h.program.withFieldAlias hg
        (r.engine.usableOr (f.identity t.fullName) newName (Engine.draw (.fields ty))).1
      rw [hrun]
      exact yields_ok ⟨rfl, he.insertField id _, hq⟩

theorem Shows.countMethod {s : PointedRun} {r : Run} (h : s.Shows r) (c : Tally) {id : MethodId}
    {m n : MethodSymbol} {o : TypeSymbol} (hn : r.program.methods.get? id = some n)
    (hnm : n.declared = m.declared) (ho : r.program.types.get? n.owner = some o)
    (hname : o.fullName = t.fullName) :
    Yields (Beside Shows) (countMethod (c, s) id) (Run.countMethod t (c, r) (id, m)) := by
  have hsame : Run.countMethod t (c, r) (id, n) = Run.countMethod t (c, r) (id, m) :=
    MethodSymbol.agree hnm (fun u => Run.countMethod t (c, r) (id, u)) fun _ => rfl
  rw [← hsame]
  unfold PointedRun.countMethod Run.countMethod Run.applyMethod Run.bindsMember
  dsimp only
  rw [h.engine.methods]
  cases r.engine.methods.get? id with
  | none => exact yields_ok ⟨rfl, h⟩
  | some newName =>
    dsimp only [Option.any_some]
    by_cases hempty : newName.isEmpty = true
    · rw [if_pos hempty, if_pos hempty, if_neg (by simp [hempty])]
      exact yields_ok ⟨rfl, h⟩
    · rw [if_neg hempty, if_neg hempty, if_pos (by simp [hempty]), h.program.methodIdentity_eq,
        Program.methodIdentity_eq_ok hn ho, ok_bind, h.program.methods,
        Arena.get_eq_ok_iff.mpr hn, ok_bind, hname]
      refine (h.engine.usableOr_drawAs _ _ _ _).bind_beside fun e he => ?_
      dsimp only
      split
      · -- the mark changes nothing but itself, so that the method is still there
        obtain ⟨q, hmark, hq⟩ := h.program.withPresetMark hn false
        obtain ⟨n', hn', -⟩ := Program.method_of_declared
          (Program.declared_withPresetMark (p := r.program) id false).symm hn
        obtain ⟨q', hrun, hq'⟩ := hq.withMethodAlias hn' _
        rw [hmark, ok_bind, hrun]
        exact yields_ok ⟨rfl, he.insertMethod id _, hq'⟩
      · obtain ⟨q, hrun, hq⟩ := h.program.withMethodAlias hn _
        rw [pure_bind, hrun]
        exact yields_ok ⟨rfl, he.insertMethod id _, hq⟩

/-- Where binding changes no type, it has renamed no more than before. -/
theorem Binds.of_types (h : Binds p s s') {x : Except OutOfRange (Tally × PointedRun)}
    {a : Tally × Run} (hx : Yields (Beside Shows) x a)
    (hdeclared : a.2.program.declared = s'.2.program.declared)
    (htypes : a.2.program.types = s'.2.program.types) : Yields (Binds p) x a :=
  hx.imp fun _ hrun => ⟨hrun.1, hrun.2, h.renamed.trans (.of_types hdeclared htypes)⟩

theorem Binds.foldlM_countField (h : Binds p s s') (ht : p.ShowsType ty t) :
    Yields (Binds p) (((s'.2.program.fieldsOf ty).map Prod.fst).foldlM (PointedRun.countField ty) s)
      ((s'.2.program.fieldsOf ty).foldl (Run.countField t) s') := by
  rw [List.foldlM_map]
  refine yields_foldlM_of_mem (fun e he a b hab => ?_) h
  obtain ⟨g, o, hg, hgf, ho, hname⟩ := Program.exists_field_of_mem
    (h.renamed.declared.trans hab.renamed.declared.symm) he (hab.showsType ht)
  obtain ⟨n, a⟩ := a
  obtain ⟨n', b⟩ := b
  obtain rfl : n = n' := hab.tally
  exact hab.of_types
    (hab.shows.countField n hg hgf ho hname (Program.mem_fieldsOf.mp he).2)
    (Run.spares_applyField t b e).declared (Run.sparesTypes_applyField t b e).types

theorem Binds.foldlM_countMethod (h : Binds p s s') (ht : p.ShowsType ty t) :
    Yields (Binds p) (((s'.2.program.methodsOf ty).map Prod.fst).foldlM PointedRun.countMethod s)
      ((s'.2.program.methodsOf ty).foldl (Run.countMethod t) s') := by
  rw [List.foldlM_map]
  refine yields_foldlM_of_mem (fun e he a b hab => ?_) h
  obtain ⟨m, o, hm, hme, ho, hname⟩ := Program.exists_method_of_mem
    (h.renamed.declared.trans hab.renamed.declared.symm) he (hab.showsType ht)
  obtain ⟨n, a⟩ := a
  obtain ⟨n', b⟩ := b
  obtain rfl : n = n' := hab.tally
  exact hab.of_types (hab.shows.countMethod n hm hme ho hname)
    (Run.spares_applyMethod t b e).declared (Run.sparesTypes_applyMethod t b e).types

theorem Binds.countEntry (h : Binds p s s') (hp : p.WellFormed) (ht : p.ShowsType ty t) :
    Yields (Binds p) (PointedRun.countEntry s ty) (Run.countEntry s' (ty, t)) := by
  unfold PointedRun.countEntry Run.countEntry
  dsimp only
  refine (h.countType hp ht).bind fun s₁ h₁ => ?_
  obtain ⟨u₁, hu₁, hreads₁⟩ := h₁.shows.program.exists_reads (h₁.showsType ht)
  rw [hu₁, ok_bind, hreads₁.fields]
  refine (h₁.foldlM_countField ht).bind fun s₂ h₂ => ?_
  obtain ⟨u₂, hu₂, hreads₂⟩ := h₂.shows.program.exists_reads (h₂.showsType ht)
  rw [hu₂, ok_bind, hreads₂.methods]
  exact h₂.foldlM_countMethod ht

/-- What is bound and counted with pointers is what is bound and counted without. -/
theorem Shows.applyCounted {s : PointedRun} {r : Run} (h : s.Shows r) (hp : p.WellFormed)
    (hrenamed : p.OnlyRenamed r.program) : Yields (Binds p) s.applyCounted r.applyCounted := by
  unfold PointedRun.applyCounted Run.applyCounted
  rw [h.program.slots_eq, List.foldlM_map]
  refine yields_foldlM_of_mem (fun entry hentry a b hab => ?_) ⟨rfl, h, hrenamed⟩
  exact hab.countEntry hp
    (Program.type_of_declared hrenamed.declared (Arena.mem_entries_iff.mp hentry))

end Binding

/-! ## Unifying -/

section Unifying

variable {r : Run} {s : Nat × PointedRun} {u : Unification}

/-- Unification of `r` has come as far as `u`, with pointers and without. -/
structure Unifies (r : Run) (s : Nat × PointedRun) (u : Unification) : Prop where
  changed : s.1 = u.changed
  engine : s.2.engine.Shows
    { r.engine with methods := u.aliases, taken := u.taken, source := u.source }
  program : s.2.program.Shows u.program

theorem Unifies.bindMember (h : Unifies r s u) {id : MethodId} {m : MethodSymbol}
    (hm : u.program.methods.get? id = some m) (name : String) :
    Yields (Unifies r) (bindMember name s id) (u.bind name (id, m)) := by
  unfold PointedRun.bindMember Unification.bind
  dsimp only
  rw [h.program.methods, Arena.get_eq_ok_iff.mpr hm, ok_bind]
  split
  · exact yields_ok ⟨h.changed, h.engine.insertMethod id name, h.program⟩
  · obtain ⟨q, hrun, hq⟩ := h.program.withMethodAlias hm name
    rw [hrun]
    exact yields_ok ⟨congrArg (· + 1) h.changed, h.engine.insertMethod id name, hq⟩

/-- A member whose turn is to come is as it was when the group was resolved. -/
theorem Unifies.foldlM_bindMember (h : Unifies r s u) {group : List (MethodId × MethodSymbol)}
    (hgroup : ∀ e ∈ group, u.program.methods.get? e.1 = some e.2)
    (hnodup : (group.map Prod.fst).Nodup) (name : String) :
    Yields (Unifies r) ((group.map Prod.fst).foldlM (PointedRun.bindMember name) s)
      (group.foldl (Unification.bind name) u) := by
  -- the invariant says of the members not yet passed that they are as they were
  refine (yields_foldlM (g := Unification.bind name) (R := fun done s v => Unifies r s v ∧
    ∀ e ∈ group, e.1 ∉ done.map Prod.fst → v.program.methods.get? e.1 = some e.2)
    (fun done member rest s v hsplit hs => ?_) ⟨h, fun e he _ => hgroup e he⟩).imp fun _ ha => ha.1
  obtain ⟨hs, hahead⟩ := hs
  have hmember := hahead member (hsplit ▸ by simp) (notMem_passed hnodup hsplit)
  refine (hs.bindMember hmember name).imp fun _ ha => ⟨ha, fun e he hne => ?_⟩
  rw [List.map_append, List.mem_append, not_or] at hne
  have hother : member.1 ≠ e.1 := fun heq => hne.2 (by simp [heq])
  unfold Unification.bind
  dsimp only
  split
  · exact hahead e he hne.1
  · rw [Program.withMethodAlias, Arena.get?_modify, if_neg hother]
    exact hahead e he hne.1

theorem Unifies.unifyGroup (h : Unifies r s u) {ids : List MethodId}
    (hids : Unification.Present u.program ids) (hnodup : ids.Nodup) :
    Yields (Unifies r) (unifyGroup s ids) (u.turn ids) := by
  have hslots := Unification.map_fst_listed hids
  have hgroup : ∀ e ∈ u.program.listed ids, u.program.methods.get? e.1 = some e.2 :=
    fun e he => (Program.mem_listed.mp he).2
  unfold PointedRun.unifyGroup Unification.turn Unification.unifyGroup
  dsimp only
  generalize u.program.listed ids = group at hslots hgroup ⊢
  subst hslots
  have hsymbols : (group.map Prod.fst).mapM s.2.program.methods.get =
      .ok (group.map Prod.snd) := by
    rw [List.mapM_map]
    refine mapM_eq_ok fun e he => ?_
    rw [Function.comp_apply, h.program.methods, Arena.get_eq_ok_iff.mpr (hgroup e he)]
  rw [hsymbols, ok_bind]
  cases chosenAlias (group.map Prod.snd) with
  | none => exact yields_ok h
  | some chosen =>
    have halike : s.2.engine.taken.Alike u.taken := h.engine.taken
    have hsource : s.2.engine.source = u.source := h.engine.source
    obtain ⟨taken, hfit, htaken⟩ := halike.fitGroup (group.map Prod.snd) chosen u.source
    dsimp only
    rw [hsource, hfit]
    generalize u.taken.fitGroup (group.map Prod.snd) chosen u.source = fit at htaken ⊢
    have hstart : Unifies r
        (s.1, { s.2 with engine := { s.2.engine with taken, source := fit.2.2 } })
        { u with taken := fit.2.1, source := fit.2.2 } :=
      ⟨h.changed, { h.engine with taken := htaken, source := rfl }, h.program⟩
    exact hstart.foldlM_bindMember hgroup hnodup fit.1

/-- Where unification has come to the end, so has the run. -/
theorem Unifies.unified (h : Unifies r s (r.unification.turns r.engine.groups.live)) :
    Shows { s.2 with engine := { s.2.engine with findings := [] } } r.unified :=
  ⟨{ h.engine with findings := rfl }, h.program⟩

/-- What is unified with pointers is what is unified without. -/
theorem Shows.unify {s : PointedRun} {r : Run} (h : s.Shows r)
    (hpresent : ∀ g ∈ r.engine.groups.live, Unification.Present r.program g.2) :
    Yields (Unifies r) s.unify (r.unification.turns r.engine.groups.live) := by
  unfold PointedRun.unify Unification.turns
  rw [h.engine.groups.live_eq, List.foldlM_map]
  refine (yields_foldlM_of_mem (R := fun s u => Unifies r s u ∧
    u.program.declared = r.program.declared) (fun g hg s u hs => ?_)
    ⟨⟨rfl, h.engine, h.program⟩, rfl⟩).imp fun _ ha => ha.1
  have hpresent' := (hpresent g hg).of_declared hs.2.symm
  have hnodup : g.2.Nodup := (OverrideGroups.mem_live_iff.mp hg).1 ▸ h.engine.disjoint.nodup g.1
  exact (hs.1.unifyGroup hpresent' hnodup).imp fun _ ha =>
    ⟨ha, (Unification.turn_turn hpresent').declared.trans hs.2⟩

end Unifying

end PointedRun
end Renamer
