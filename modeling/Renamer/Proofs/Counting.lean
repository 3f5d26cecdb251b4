import Renamer.Proofs.Choosing

/-!
# What a report counts

A report counts the aliases that are bound, one by one. At the end of a run that has no presets they
are the symbols with an alias, and these are the symbols with rejected names: the methods of an
override group have one name, so that unification neither gives an alias to a method that had none
nor takes one away.

* `Run.Counted` holds along the pass that binds: what has been counted is what has an alias.
* `Run.Chosen.isSome_newName_unified` carries the aliases of methods over to the end of the run.
-/

namespace Renamer

/-! ## Symbols with an alias -/

namespace Arena

variable {k : Kind} {α : Type}

/-- Changing one thing so that it comes to have a property. -/
theorem countP_modify {a : Arena k α} {i : Slot k} {x : α} {f : α → α} {q : α → Bool}
    (hx : a.get? i = some x) (hno : q x = false) (hyes : q (f x) = true) :
    (a.modify i f).toList.countP q = a.toList.countP q + 1 := by
  have hlist : ∀ (l : List α) (n : Nat), l[n]? = some x →
      (l.modify n f).countP q = l.countP q + 1 := by
    intro l
    induction l with
    | nil =>
      intro n hn
      cases hn
    | cons y l ih =>
      intro n hn
      cases n with
      | zero =>
        cases hn
        rw [List.modify_zero_cons, List.countP_cons_of_pos hyes,
          List.countP_cons_of_neg (by simp [hno])]
      | succ n =>
        rw [List.modify_succ_cons, List.countP_cons, List.countP_cons, ih n hn]
        omega
  have hmodify : (a.modify i f).toList = a.toList.modify i.index f := Array.toList_modify
  rw [hmodify]
  exact hlist a.toList i.index (get?_eq_some_iff.mp hx)

/-- Changes that do not touch a property do not change how often it holds. -/
theorem countP_modify_of_eq (a : Arena k α) (i : Slot k) {f : α → α} {q : α → Bool}
    (h : ∀ x, q (f x) = q x) : (a.modify i f).toList.countP q = a.toList.countP q := by
  have hlist : ∀ (l : List α) (n : Nat), (l.modify n f).countP q = l.countP q := by
    intro l
    induction l with
    | nil => simp
    | cons y l ih =>
      intro n
      cases n with
      | zero => rw [List.modify_zero_cons, List.countP_cons, List.countP_cons, h]
      | succ n => rw [List.modify_succ_cons, List.countP_cons, List.countP_cons, ih]
  have hmodify : (a.modify i f).toList = a.toList.modify i.index f := Array.toList_modify
  rw [hmodify, hlist]

/-- None has what each of them lacks. -/
theorem countP_isSome_eq_zero (a : Arena k α) {β : Type} (g : α → Option β)
    (hnone : ∀ i x, a.get? i = some x → g x = none) :
    a.toList.countP (fun x => (g x).isSome) = 0 := by
  rw [List.countP_eq_zero]
  intro x hx
  obtain ⟨i, hi⟩ := List.mem_iff_getElem?.mp hx
  simp [hnone ⟨i⟩ x (get?_eq_some_iff.mpr hi)]

end Arena

/-- A parenthesis that no name holds ends the name in a key. -/
theorem MethodSymbol.name_eq_of_key_eq {m n : MethodSymbol} (hm : '(' ∉ m.name.toList)
    (hn : '(' ∉ n.name.toList) (h : m.key = n.key) : m.name = n.name := by
  have hlist := congrArg String.toList h
  rw [MethodSymbol.key, MethodSymbol.keyAs, MethodSymbol.paramText, MethodSymbol.key,
    MethodSymbol.keyAs, MethodSymbol.paramText, String.toList_append, String.toList_append,
    String.toList_append, String.toList_append, String.toList_append, String.toList_append] at hlist
  exact String.toList_inj.mp (Word.append_cons_inj_of_first hm hn hlist).1

namespace Program

/-- How many symbols have an alias. -/
def aliased (p : Program) : Tally where
  types := p.types.toList.countP fun t => t.newName.isSome
  fields := p.fields.toList.countP fun f => f.newName.isSome
  methods := p.methods.toList.countP fun m => m.newName.isSome

variable {p : Program}

theorem mem_walk_of_nameOf (hp : p.WellFormed) {s : SymbolId} {name : String}
    (h : p.nameOf s = some name) : s ∈ p.walk := by
  cases s with
  | type id =>
    obtain ⟨t, ht, -⟩ := Option.map_eq_some_iff.mp h
    exact mem_walk_type ht
  | field id =>
    obtain ⟨f, hf, -⟩ := Option.map_eq_some_iff.mp h
    exact mem_walk_field hp hf
  | method id =>
    obtain ⟨m, hm, -⟩ := Option.map_eq_some_iff.mp h
    exact mem_walk_method hp hm

theorem aliased_withTypeAlias {ty : TypeId} {t : TypeSymbol} (ht : p.types.get? ty = some t)
    (hnone : t.newName = none) (name : String) :
    (p.withTypeAlias ty name).aliased =
      { p.aliased with types := p.aliased.types + 1 } := by
  have htypes := Arena.countP_modify (f := fun t => { t with newName := some name })
    (q := fun t => t.newName.isSome) ht (by rw [hnone]; rfl) rfl
  exact congrArg (fun n => ({ p.aliased with types := n } : Tally)) htypes

theorem aliased_withFieldAlias {id : FieldId} {f : FieldSymbol} (hf : p.fields.get? id = some f)
    (hnone : f.newName = none) (name : String) :
    (p.withFieldAlias id name).aliased =
      { p.aliased with fields := p.aliased.fields + 1 } := by
  have hfields := Arena.countP_modify (f := fun f => { f with newName := some name })
    (q := fun f => f.newName.isSome) hf (by rw [hnone]; rfl) rfl
  exact congrArg (fun n => ({ p.aliased with fields := n } : Tally)) hfields

theorem aliased_withMethodAlias {id : MethodId} {m : MethodSymbol}
    (hm : p.methods.get? id = some m) (hnone : m.newName = none) (name : String) :
    (p.withMethodAlias id name).aliased =
      { p.aliased with methods := p.aliased.methods + 1 } := by
  have hmethods := Arena.countP_modify
    (f := fun m => { m with newName := some name, renamed := true })
    (q := fun m => m.newName.isSome) hm (by rw [hnone]; rfl) rfl
  exact congrArg (fun n => ({ p.aliased with methods := n } : Tally)) hmethods

/-- As many methods are renamed as have rejected names, if those and no others have an alias. -/
theorem aliased_methods {q : Program} (hpq : q.declared = p.declared) {rejects : String → Bool}
    (h : ∀ {i m}, q.methods.get? i = some m → m.newName.isSome = rejects m.name) :
    q.aliased.methods = p.methods.toList.countP fun m => rejects m.name := by
  have hcount : ∀ p : Program, (p.declared.methods.toList.countP fun m => rejects m.name) =
      p.methods.toList.countP fun m => rejects m.name := by
    intro p
    have hmap : p.declared.methods.toList = p.methods.toList.map MethodSymbol.declared :=
      Array.toList_map
    rw [hmap, List.countP_map]
    rfl
  rw [← hcount p, ← hpq, hcount q]
  refine List.countP_congr fun m hm => ?_
  obtain ⟨i, hi⟩ := List.mem_iff_getElem?.mp hm
  rw [h (i := ⟨i⟩) (Arena.get?_eq_some_iff.mpr hi)]

theorem aliased_withPresetMark (id : MethodId) (mark : Bool) :
    (p.withPresetMark id mark).aliased = p.aliased :=
  congrArg (fun n => ({ p.aliased with methods := n } : Tally))
    (p.methods.countP_modify_of_eq id fun _ => rfl)

end Program

namespace Run

variable {p : Program} {done rest : List SymbolId} {s : Tally × Run}

/-! ## Counting -/

/-- What has been counted is what has an alias, and only symbols of `done` have one. -/
structure Counted (p : Program) (done : List SymbolId) (s : Tally × Run) : Prop where
  declared : s.2.program.declared = p.declared
  tally : s.1 = s.2.program.aliased
  types : ∀ {ty t}, s.2.program.types.get? ty = some t → t.newName.isSome = true →
    SymbolId.type ty ∈ done
  members : ∀ x name, s.2.program.boundAlias x = some name → x ∈ done

/-- A symbol that has not been passed has no alias yet. -/
theorem Counted.unnamed_field (h : Counted p done s) {id : FieldId} {f : FieldSymbol}
    (hf : s.2.program.fields.get? id = some f) (hnew : SymbolId.field id ∉ done) :
    f.newName = none := by
  refine Option.eq_none_iff_forall_ne_some.mpr fun name hname => hnew (h.members _ name ?_)
  rw [Program.boundAlias, hf]
  exact hname

theorem Counted.unnamed_method (h : Counted p done s) {id : MethodId} {m : MethodSymbol}
    (hm : s.2.program.methods.get? id = some m) (hnew : SymbolId.method id ∉ done) :
    m.newName = none := by
  refine Option.eq_none_iff_forall_ne_some.mpr fun name hname => hnew (h.members _ name ?_)
  rw [Program.boundAlias, hm]
  exact hname

theorem Counted.mono (h : Counted p done s) {done' : List SymbolId}
    (hdone : ∀ x ∈ done, x ∈ done') : Counted p done' s :=
  ⟨h.declared, h.tally, fun ht hname => hdone _ (h.types ht hname),
    fun _ _ hx => hdone _ (h.members _ _ hx)⟩

/-- A type is counted when it is renamed. -/
theorem Counted.countType (h : Counted p done s) {ty : TypeId} {t : TypeSymbol}
    (hnew : SymbolId.type ty ∉ done) (ht : p.ShowsType ty t) :
    Counted p (done ++ [SymbolId.type ty]) (countType s (ty, t)) := by
  obtain ⟨n, r⟩ := s
  have hdone : ∀ x ∈ done, x ∈ done ++ [SymbolId.type ty] := fun x hx =>
    List.mem_append_left _ hx
  have hprogram : (r.applyType ty t).program = if r.renamesType ty t then
      r.program.withTypeAlias ty (r.engine.fullName r.program ty t).1 else r.program := rfl
  have hdeclared := (spares_applyType r ty t).declared.trans h.declared
  unfold Run.countType
  dsimp only
  by_cases hrenames : r.renamesType ty t = true
  · rw [if_pos hrenames] at hprogram ⊢
    obtain ⟨u, hu, -⟩ := ht
    obtain ⟨u', hu', -⟩ := Program.type_of_declared h.declared.symm hu
    have hnone : u'.newName = none := by
      refine Option.not_isSome_iff_eq_none.mp fun hname => hnew (h.types hu' hname)
    refine ⟨hdeclared, ?_, fun {ty' t'} ht' hname => ?_, fun x name hx => ?_⟩
    · dsimp only
      rw [hprogram, Program.aliased_withTypeAlias hu' hnone, ← h.tally]
    · dsimp only at ht'
      rw [hprogram, Program.withTypeAlias, Arena.get?_modify] at ht'
      split at ht'
      · rename_i heq
        rw [heq]
        exact List.mem_append_right _ List.mem_cons_self
      · exact hdone _ (h.types ht' hname)
    · dsimp only at hx
      rw [hprogram] at hx
      refine hdone _ (h.members _ name ?_)
      cases x <;> exact hx
  · rw [if_neg hrenames] at hprogram ⊢
    have hsame : Counted p done (n, r.applyType ty t) := by
      refine ⟨hdeclared, ?_, ?_, ?_⟩
      · dsimp only
        rw [hprogram]
        exact h.tally
      · dsimp only
        rw [hprogram]
        exact h.types
      · dsimp only
        rw [hprogram]
        exact h.members
    exact hsame.mono hdone

/-- A member is counted when its alias is bound: no type and no other member gets one then. -/
theorem Counted.bindMember {n n' : Tally} {r r' : Run} (h : Counted p done (n, r))
    {x : SymbolId} (hdeclared : r'.program.declared = p.declared)
    (htally : n' = r'.program.aliased) (htypes : r'.program.types = r.program.types)
    (hbound : ∀ y name, r'.program.boundAlias y = some name →
      y = x ∨ r.program.boundAlias y = some name) :
    Counted p (done ++ [x]) (n', r') := by
  refine ⟨hdeclared, htally, fun {ty t} ht hname => ?_, fun y name hy => ?_⟩
  · dsimp only at ht
    rw [htypes] at ht
    exact List.mem_append_left _ (h.types ht hname)
  · obtain rfl | hold := hbound y name hy
    · exact List.mem_append_right _ List.mem_cons_self
    · exact List.mem_append_left _ (h.members y name hold)

theorem applyField_of_not_bindsMember {r : Run} {t : TypeSymbol} {id : FieldId} {f : FieldSymbol}
    (h : bindsMember (r.engine.fields.get? id) = false) : applyField t r (id, f) = r := by
  unfold applyField
  cases halias : r.engine.fields.get? id with
  | none => simp only [halias]
  | some name =>
    rw [halias, bindsMember, Option.any_some, Bool.not_eq_false'] at h
    simp only [halias, h, if_true]

theorem program_applyField {r : Run} {t : TypeSymbol} {id : FieldId} {f : FieldSymbol}
    (h : bindsMember (r.engine.fields.get? id) = true) :
    ∃ name, (applyField t r (id, f)).program = r.program.withFieldAlias id name := by
  unfold applyField
  cases halias : r.engine.fields.get? id with
  | none =>
    rw [halias] at h
    cases h
  | some name =>
    rw [halias, bindsMember, Option.any_some, Bool.not_eq_true'] at h
    simp only [halias, h, Bool.false_eq_true, if_false]
    exact ⟨_, rfl⟩

/-- A field is counted when its alias is bound. -/
theorem Counted.countField (h : Counted p done s) {t : TypeSymbol} {id : FieldId} {f : FieldSymbol}
    (hnew : SymbolId.field id ∉ done) (hf : p.ShowsField id f) :
    Counted p (done ++ [SymbolId.field id]) (countField t s (id, f)) := by
  obtain ⟨n, r⟩ := s
  have hdeclared := (spares_applyField t r (id, f)).declared.trans h.declared
  unfold Run.countField
  dsimp only
  cases hbinds : bindsMember (r.engine.fields.get? id) with
  | false =>
    rw [applyField_of_not_bindsMember hbinds]
    exact h.mono fun x hx => List.mem_append_left _ hx
  | true =>
    obtain ⟨name, hprogram⟩ := program_applyField (t := t) (f := f) hbinds
    obtain ⟨g, hg⟩ := hf.exists_get? h.declared
    have hnone := h.unnamed_field hg hnew
    refine h.bindMember hdeclared ?_ (by rw [hprogram]; rfl) fun x name' hx => ?_
    · rw [if_pos rfl, hprogram, Program.aliased_withFieldAlias hg hnone, ← h.tally]
    · rw [hprogram] at hx
      exact (Program.boundAlias_withFieldAlias id name hx).imp And.left And.right

theorem applyMethod_of_not_bindsMember {r : Run} {t : TypeSymbol} {id : MethodId}
    {m : MethodSymbol} (h : bindsMember (r.engine.methods.get? id) = false) :
    applyMethod t r (id, m) = r := by
  unfold applyMethod
  cases halias : r.engine.methods.get? id with
  | none => simp only [halias]
  | some name =>
    rw [halias, bindsMember, Option.any_some, Bool.not_eq_false'] at h
    simp only [halias, h, if_true]

theorem program_applyMethod {r : Run} {t : TypeSymbol} {id : MethodId} {m : MethodSymbol}
    (h : bindsMember (r.engine.methods.get? id) = true) :
    ∃ q name, (q = r.program ∨ q = r.program.withPresetMark id false) ∧
      (applyMethod t r (id, m)).program = q.withMethodAlias id name := by
  unfold applyMethod
  cases halias : r.engine.methods.get? id with
  | none =>
    rw [halias] at h
    cases h
  | some name =>
    rw [halias, bindsMember, Option.any_some, Bool.not_eq_true'] at h
    simp only [halias, h, Bool.false_eq_true, if_false]
    split
    · exact ⟨_, _, Or.inr rfl, rfl⟩
    · exact ⟨_, _, Or.inl rfl, rfl⟩

/-- The note on presets counts for nothing. -/
theorem Counted.withPresetMark {n : Tally} {r : Run} (h : Counted p done (n, r)) (id : MethodId)
    (mark : Bool) :
    Counted p done (n, { r with program := r.program.withPresetMark id mark }) where
  declared := (Program.declared_withPresetMark id mark).trans h.declared
  tally := h.tally.trans (Program.aliased_withPresetMark id mark).symm
  types := h.types
  members := fun x name hx =>
    h.members x name ((Program.boundAlias_withPresetMark id mark x).symm.trans hx)

/-- A method is counted when its alias is bound. -/
theorem Counted.countMethod (h : Counted p done s) {t : TypeSymbol} {id : MethodId}
    {m : MethodSymbol} (hnew : SymbolId.method id ∉ done) (hm : p.ShowsMethod id m) :
    Counted p (done ++ [SymbolId.method id]) (countMethod t s (id, m)) := by
  obtain ⟨n, r⟩ := s
  have hdeclared := (spares_applyMethod t r (id, m)).declared.trans h.declared
  unfold Run.countMethod
  dsimp only
  cases hbinds : bindsMember (r.engine.methods.get? id) with
  | false =>
    rw [applyMethod_of_not_bindsMember hbinds]
    exact h.mono fun x hx => List.mem_append_left _ hx
  | true =>
    obtain ⟨q, name, hq, hprogram⟩ := program_applyMethod (t := t) (m := m) hbinds
    have hcounted : Counted p done (n, { r with program := q }) := by
      rcases hq with rfl | rfl
      · exact h
      · exact h.withPresetMark id false
    obtain ⟨k, hk⟩ := hm.exists_get? hcounted.declared
    have hnone := hcounted.unnamed_method hk hnew
    refine hcounted.bindMember hdeclared ?_ (by rw [hprogram]; rfl) fun x name' hx => ?_
    · rw [if_pos rfl, hprogram, Program.aliased_withMethodAlias hk hnone, ← hcounted.tally]
    · rw [hprogram] at hx
      exact (Program.boundAlias_withMethodAlias id name hx).imp And.left And.right

theorem keeps_counted (p : Program) : Pass.counting.Keeps p (Counted p) where
  declared := fun h => h.declared
  type := fun hwalk ht h => h.countType (Program.notMem_of_walk hwalk) ht
  field := fun hwalk _ hf _ h => h.countField (Program.notMem_of_walk hwalk) hf
  method := fun hwalk _ hm _ h => h.countMethod (Program.notMem_of_walk hwalk) hm

/-- What binding counts is what has an alias when all aliases are bound. -/
theorem tally_bound (p : Program) (e : Engine) :
    (Run.discover { engine := e.reset, program := p.clearAliases }).applyCounted.1 =
      (e.reset.bound p).program.aliased := by
  obtain ⟨hchosen, hunbound⟩ := chosen_discover p e.unused_reset rfl
  have hprepared := prepared_discover e.unused_reset p
  rw [Engine.bound, ← snd_applyCounted]
  generalize Run.discover { engine := e.reset, program := p.clearAliases } = r at *
  have hstart : Counted p [] ({}, r) := by
    refine ⟨hchosen.declared, ?_, fun {ty t} ht hname => ?_, fun x name hx => ?_⟩
    · have htypes := r.program.types.countP_isSome_eq_zero (·.newName) fun i t ht =>
        hprepared.unnamed ht
      have hfields := r.program.fields.countP_isSome_eq_zero (·.newName) fun i f hf => by
        have hnone := hunbound (.field i)
        rwa [Program.boundAlias, hf] at hnone
      have hmethods := r.program.methods.countP_isSome_eq_zero (·.newName) fun i m hm => by
        have hnone := hunbound (.method i)
        rwa [Program.boundAlias, hm] at hnone
      dsimp only
      rw [Program.aliased, htypes, hfields, hmethods]
    · rw [hprepared.unnamed ht] at hname
      cases hname
    · cases (hunbound x).symm.trans hx
  exact ((keeps_counted p).applyCounted hstart).tally

/-! ## The end of a run -/

variable {e : Engine} {r : Run}

/-- When all aliases are bound, a member has one exactly if its name is rejected. -/
theorem Chosen.isSome_boundAlias (h : Chosen p e p.walk r) (hp : p.WellFormed)
    (hbound : ∀ s, s.kind ≠ .types → r.program.boundAlias s = r.engine.aliasOf s) {s : SymbolId}
    (hkind : s.kind ≠ .types) {name : String} (hname : p.nameOf s = some name) :
    (r.program.boundAlias s).isSome = e.rejects name := by
  rw [hbound s hkind, h.decided (Program.mem_walk_of_nameOf hp hname) hname]

theorem Chosen.isSome_newName (h : Chosen p e p.walk r) (hp : p.WellFormed)
    (hbound : ∀ s, s.kind ≠ .types → r.program.boundAlias s = r.engine.aliasOf s) {i : MethodId}
    {m : MethodSymbol} (hm : r.program.methods.get? i = some m) :
    m.newName.isSome = e.rejects m.name := by
  have hshown : p.ShowsMethod i m := Program.method_of_declared h.declared hm
  have hsome := h.isSome_boundAlias hp hbound (s := .method i) (fun heq => by cases heq)
    hshown.nameOf
  rw [Program.boundAlias, hm] at hsome
  exact hsome

/-- At the end of a run as well, a method has an alias exactly if its name is rejected. -/
theorem Chosen.isSome_newName_unified (h : Chosen p e p.walk r) (hp : p.WellFormed)
    (hbound : ∀ s, s.kind ≠ .types → r.program.boundAlias s = r.engine.aliasOf s)
    (hg : Grouped p r) (hparen : ∀ m ∈ p.methods.toList, '(' ∉ m.name.toList) {i : MethodId}
    {m : MethodSymbol} (hm : r.unified.program.methods.get? i = some m) :
    m.newName.isSome = e.rejects m.name := by
  have hplain : ∀ {q : Program} {i m}, q.declared = p.declared → q.methods.get? i = some m →
      '(' ∉ m.name.toList := by
    intro q i m hq hm
    obtain ⟨m', hm', hmm⟩ := Program.method_of_declared hq hm
    rw [← MethodSymbol.agree hmm MethodSymbol.name fun _ => rfl]
    exact hparen m' (Arena.mem_toList_of_get? hm')
  obtain hm' | ⟨before, ids, chosen, name, m₀, hturn, hname, hm₀, hdecl⟩ := hg.cases_unified hm
  · exact h.isSome_newName hp hbound hm'
  · -- the alias of the group was given to a member, and that has the same name
    have hchosen := hturn.named.chosen_eq
    rw [hturn.symbols hg] at hchosen
    obtain ⟨o, ho, hoalias⟩ := mem_of_chosenAlias hchosen
    obtain ⟨k, hk, hok⟩ := Program.mem_symbols.mp ho
    have hkey : o.key = m.key :=
      (hturn.key_eq hg hk hm₀ hok).trans (MethodSymbol.agree hdecl MethodSymbol.key fun _ => rfl)
    have hsame := MethodSymbol.name_eq_of_key_eq (hplain h.declared hok)
      (hplain hg.declared_unified hm) hkey
    rw [hname, Option.isSome_some, ← hsame, ← h.isSome_newName hp hbound hok, hoalias,
      Option.isSome_some]


end Run

namespace Engine

/-- A run reports what it has counted while binding, and how many groups there are. -/
theorem counts_process {e : Engine} {p : Program} {report : Report} {r : Run}
    (h : e.process p = .ok (report, r)) :
    let tally := (Run.discover { engine := e, program := p.clearAliases }).applyCounted.1
    (report.typesRenamed = tally.types ∧ report.fieldsRenamed = tally.fields ∧
      report.methodsRenamed = tally.methods) ∧
      report.overrideGroups = (e.bound p).engine.groups.size := by
  rw [process_eq_bound] at h
  obtain ⟨u, -, hreport⟩ := bind_eq_ok.mp h
  cases hreport
  exact ⟨⟨rfl, rfl, rfl⟩, rfl⟩

/-- Without presets a run gives aliases to the types, members and packages whose names the policy
rejects, and to no others. It reports how many types, fields and methods have an alias at its end,
and how many groups are left. -/
theorem aliases_process_iff_rejects (p : Program) (hp : p.Built)
    (hparen : ∀ m ∈ p.methods.toList, '(' ∉ m.name.toList) (e : Engine) :
    ∃ report r, e.reset.process p = .ok (report, r) ∧
      (∀ ty t, p.types.get? ty = some t →
        (r.engine.types.contains ty = true ↔ e.rejects t.shortName = true)) ∧
      (∀ id f, p.fields.get? id = some f → ∃ f', r.program.fields.get? id = some f' ∧
        (f'.newName.isSome = true ↔ e.rejects f.name = true)) ∧
      (∀ id m, p.methods.get? id = some m → ∃ m', r.program.methods.get? id = some m' ∧
        (m'.newName.isSome = true ↔ e.rejects m.name = true)) ∧
      (∀ n ∈ r.engine.packages.nodes.toList, n.path ≠ [] →
        (n.newName.isSome = true ↔ e.rejects n.segment = true)) ∧
      report.typesRenamed = r.program.types.toList.countP (fun t => t.newName.isSome) ∧
      report.fieldsRenamed = r.program.fields.toList.countP (fun f => f.newName.isSome) ∧
      report.methodsRenamed = r.program.methods.toList.countP (fun m => m.newName.isSome) ∧
      report.overrideGroups = r.engine.groups.live.length := by
  have hwf := hp.wellFormed
  have hgrouped := grouped_bound (e := e.reset) hwf rfl
  obtain ⟨hchosen, hbound⟩ := Run.chosen_bound e p
  obtain ⟨report, hrun⟩ := process_eq_ok (e := e.reset) hwf rfl
  obtain ⟨⟨htypes, hfields, hmethods⟩, hgroups⟩ := counts_process hrun
  rw [Run.tally_bound] at htypes hfields hmethods
  have hmethod : ∀ {i m}, (e.reset.bound p).unified.program.methods.get? i = some m →
      m.newName.isSome = e.rejects m.name := fun hm =>
    hchosen.isSome_newName_unified hwf hbound hgrouped hparen hm
  have hown : ∀ {i m}, (e.reset.bound p).program.methods.get? i = some m →
      m.newName.isSome = e.rejects m.name := fun hm =>
    hchosen.isSome_newName hwf hbound hm
  refine ⟨report, _, hrun, fun ty t ht => ?_, fun id f hf => ?_, fun id m hm => ?_,
    fun n hn hne => ?_, ?_, ?_, ?_, ?_⟩
  · have hname : p.nameOf (.type ty) = some t.shortName := by
      rw [Program.nameOf, ht]
      rfl
    have hsome : (e.reset.bound p).unified.engine.types.contains ty = e.rejects t.shortName := by
      have hdecided := hchosen.decided (Program.mem_walk_type ht) hname
      rw [aliasOf, typeAlias, Option.isSome_map] at hdecided
      rw [Run.knownTypes_unified]
      exact hdecided
    rw [hsome]
  · obtain ⟨f', hf', hff⟩ := Program.field_of_declared hgrouped.declared.symm hf
    have hname : p.nameOf (.field id) = some f.name := by
      rw [Program.nameOf, hf]
      rfl
    have hsome := hchosen.isSome_boundAlias hwf hbound (s := .field id) (fun heq => by cases heq)
      hname
    rw [Program.boundAlias, hf'] at hsome
    refine ⟨f', by rw [hgrouped.fields_unified, hf'], ?_⟩
    rw [show f'.newName.isSome = e.rejects f.name from hsome]
  · obtain ⟨m', hm', hmm⟩ := Program.method_of_declared hgrouped.declared_unified.symm hm
    refine ⟨m', hm', ?_⟩
    rw [hmethod hm', MethodSymbol.agree hmm MethodSymbol.name fun _ => rfl]
  · rw [show n.newName.isSome = e.rejects n.segment from
      (Run.lodged_bound p e).isSome_newName hn hne]
  · rw [htypes, hgrouped.types_unified]
    rfl
  · rw [hfields, hgrouped.fields_unified]
    rfl
  · have hend := Program.aliased_methods hgrouped.declared_unified hmethod
    dsimp only [Program.aliased] at hend
    rw [hmethods, Program.aliased_methods hgrouped.declared hown, hend]
  · rw [hgroups, Run.knownGroups_unified, OverrideGroups.size]

/-- Of related types all methods are renamed, two of them as a group, and the types are kept. -/
theorem aliases_process_relatedTypes : Program.relatedTypes.Built ∧
    (∀ m ∈ Program.relatedTypes.methods.toList, '(' ∉ m.name.toList) ∧
    ∃ report r, ({} : Engine).reset.process Program.relatedTypes = .ok (report, r) ∧
      r.engine.types.contains ⟨0⟩ = false ∧
      (∃ m, r.program.methods.get? ⟨0⟩ = some m ∧ m.newName.isSome = true) ∧
      report.typesRenamed = 0 ∧ report.methodsRenamed = 3 ∧ report.overrideGroups = 1 := by
  have hparen : ∀ m ∈ Program.relatedTypes.methods.toList, '(' ∉ m.name.toList := by
    simp [Program.relatedTypes, Arena.toList]
  obtain ⟨report, r, hrun, htypes, -, hmethods, -, htypesRenamed, -, hmethodsRenamed, hgroups⟩ :=
    aliases_process_iff_rejects Program.relatedTypes Program.built_relatedTypes hparen {}
  have hr : (({} : Engine).reset.bound Program.relatedTypes).unified = r :=
    unified_eq_of_process Program.built_relatedTypes.wellFormed rfl hrun
  refine ⟨Program.built_relatedTypes, hparen, report, r, hrun, ?_, ?_, ?_, ?_, ?_⟩
  · exact Bool.eq_false_iff.mpr fun h => absurd ((htypes ⟨0⟩ _ rfl).mp h) (by decide +kernel)
  · obtain ⟨m, hm, hiff⟩ := hmethods ⟨0⟩ _ rfl
    exact ⟨m, hm, hiff.mpr (by decide +kernel)⟩
  · rw [htypesRenamed, ← hr]
    decide +kernel
  · rw [hmethodsRenamed, ← hr]
    decide +kernel
  · rw [hgroups, ← hr]
    decide +kernel

end Engine
end Renamer
