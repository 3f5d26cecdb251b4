import Renamer.Proofs.Finishing

/-!
# Repeated runs

A second run on the same program asks for every field and method whether it has an alias before it
looks for a preset, and so decides nothing new for members. For a type it looks for the preset
first. A preset that can be used is the alias that the type has. One that cannot be used is replaced
again, and since the alias of the first run is taken by now, the type gets another one.

* `Run.Repeats` is the invariant of the second run. All that it leaves open are the types with a
  preset that cannot be used.
* `Engine.process_again` puts together what follows for a whole run.
-/

namespace Renamer

/-- Where the type in slot `ty` has a preset, it can be used. -/
def Engine.Honours (e : Engine) (p : Program) (ty : TypeId) : Prop :=
  ∀ preset, p.presetOf e.presets (.type ty) = some preset → e.policy.accepts preset = true

/-- Whether presets can be used is a matter of declarations, of the policy and of the presets. -/
theorem Engine.honours_iff {e : Engine} {p q : Program} (hpq : p.declared = q.declared)
    {ty : TypeId} : e.Honours q ty ↔ ∀ t, p.types.get? ty = some t →
      ∀ preset, e.presets.types.get? t.fullName = some preset →
        e.policy.accepts preset = true := by
  rw [Engine.Honours, ← Program.presetOf_of_declared hpq]
  constructor
  · intro h t ht preset hpreset
    exact h preset ((Program.ShowsType.presetOf ⟨t, ht, rfl⟩ _).trans hpreset)
  · intro h preset hpreset
    obtain ⟨identity, hidentity, hget⟩ := Option.bind_eq_some_iff.mp hpreset
    obtain ⟨t, ht, rfl⟩ := Option.map_eq_some_iff.mp hidentity
    exact h t ht preset hget

namespace Run

variable {p : Program} {e : Engine} {done rest : List SymbolId} {r : Run} {s : SymbolId}

/-! ## Deciding -/

/-- What holds when the engine `e`, which has finished with the program, has decided the symbols
`done` again. -/
structure Repeats (p : Program) (e : Engine) (done : List SymbolId) (r : Run) : Prop where
  declared : r.program.declared = p.declared
  policy : r.engine.policy = e.policy
  presets : r.engine.presets = e.presets
  packages : r.engine.packages = e.packages
  fields : r.engine.fields = e.fields
  methods : r.engine.methods = e.methods
  keys : r.engine.types.keys = e.types.keys
  taken : ∀ {x}, x ∈ e.taken.pairs → x ∈ r.engine.taken.pairs
  same : ∀ {ty}, (.type ty ∈ done → e.Honours p ty) → r.engine.typeAlias ty = e.typeAlias ty
  moved : ∀ {ty}, .type ty ∈ done → ¬ e.Honours p ty → r.engine.typeAlias ty ≠ e.typeAlias ty
  source : (∀ ty, .type ty ∈ done → e.Honours p ty) → r.engine.source = e.source
  issued_le : e.source.issued ≤ r.engine.source.issued
  drawn : ∀ {ty}, .type ty ∈ done → ¬ e.Honours p ty →
    e.source.issued < r.engine.source.issued

/-- Nothing was to be decided for a symbol, which is no type with a preset that cannot be used. -/
theorem Repeats.passed (h : Repeats p e done r) (hs : ∀ ty, s = .type ty → e.Honours p ty) :
    Repeats p e (done ++ [s]) r := by
  have hdone : ∀ {ty}, .type ty ∈ done ++ [s] → ¬ e.Honours p ty → .type ty ∈ done := by
    intro ty hty hnot
    refine (List.mem_append.mp hty).resolve_right fun hlast => hnot ?_
    exact hs ty (List.mem_singleton.mp hlast).symm
  exact { h with
    same := fun hall => h.same fun hty => hall (List.mem_append_left _ hty)
    moved := fun hty hnot => h.moved (hdone hty hnot) hnot
    source := fun hall => h.source fun ty hty => hall ty (List.mem_append_left _ hty)
    drawn := fun hty hnot => h.drawn (hdone hty hnot) hnot }

/-- Groups, findings and aliases on the program play no part in it. -/
theorem Repeats.spares (h : Repeats p e done r) {q : Program}
    (hq : q.declared = r.program.declared) (groups : OverrideGroups) (findings : Findings)
    (discovered : Bool) :
    Repeats p e done { engine := { r.engine with groups, findings, discovered }, program := q } :=
  { h with declared := hq.trans h.declared }

/-- Members have the aliases that they had. -/
theorem Repeats.aliasOf_eq (h : Repeats p e done r) (hkind : s.kind ≠ .types) :
    r.engine.aliasOf s = e.aliasOf s := by
  cases s with
  | type ty => exact absurd rfl hkind
  | field id => exact congrArg (Table.get? · id) h.fields
  | method id => exact congrArg (Table.get? · id) h.methods

/-- A member without alias needs none. -/
theorem Repeats.letsBe (h : Repeats p e done r) (he : e.Finished p) (hs : s ∈ p.walk)
    (hkind : s.kind ≠ .types) (hnone : r.engine.aliasOf s = none) : r.engine.LetsBe p s := by
  obtain ⟨hpreset, hkept⟩ := he.letsBe hs ((h.aliasOf_eq hkind).symm.trans hnone)
  refine ⟨h.presets ▸ hpreset, fun {name} hname => ?_⟩
  rw [Engine.rejects, h.policy]
  exact hkept hname

/-- The alias of a member can be used, unless it is empty. -/
theorem Repeats.accepts (h : Repeats p e done r) (he : e.Finished p) (hkind : s.kind ≠ .types)
    {name : String} (hname : r.engine.aliasOf s = some name) (hne : name ≠ "") :
    r.engine.policy.accepts name = true := by
  rw [h.policy]
  exact he.accepts (Engine.memberAlias_of_aliasOf hkind ((h.aliasOf_eq hkind).symm.trans hname) hne)

/-- A type with a preset gets a record, with the preset if that can be used and else with a name
that is not taken. -/
theorem decideType_of_preset (r : Run) (ty : TypeId) (t : TypeSymbol) {preset : String}
    (hpreset : r.engine.presets.types.get? t.fullName = some preset) :
    ∃ newName taken source findings, r.decideType ty t =
        { r with engine := { r.engine with
            taken, source, findings
            types := r.engine.types.insert ty
              { package := PackagePath.ofText t.package, newName } } } ∧
      (∀ y, y ∈ taken.pairs ↔ y ∈ r.engine.taken.pairs ∨ y = (t.scope, newName)) ∧
      (r.engine.policy.accepts preset = true ∧ newName = preset ∧ source = r.engine.source ∨
        r.engine.policy.accepts preset = false ∧ (t.scope, newName) ∉ r.engine.taken.pairs ∧
          r.engine.source.issued < source.issued) := by
  unfold decideType
  rw [hpreset]
  dsimp only
  rw [Engine.usableOr]
  cases haccepts : r.engine.policy.accepts preset with
  | true => exact ⟨_, _, _, _, rfl, fun y => TakenNames.mem_claim, Or.inl ⟨rfl, rfl, rfl⟩⟩
  | false =>
    obtain ⟨n, hnext, heq⟩ := r.engine.drawAs_eq_next t.scope Function.injective_id
    rw [if_neg Bool.false_ne_true, Engine.draw, heq]
    refine ⟨_, _, _, _, rfl, fun y => ?_, Or.inr ⟨rfl, ?_, ?_⟩⟩
    · -- the draw has taken the name already
      show y ∈ ((r.engine.taken.claim _ _).claim _ _).pairs ↔ _
      rw [TakenNames.mem_claim, TakenNames.mem_claim, id, or_assoc, or_self]
    · exact TakenNames.isFree_eq_true_iff.mp hnext.accepted
    · exact Nat.lt_succ_of_le hnext.issued_le

/-- A type without preset has an alias, or needs none. -/
theorem Repeats.decideType_eq (h : Repeats p e done r) (he : e.Finished p) {ty : TypeId}
    {t : TypeSymbol} (hs : .type ty ∈ p.walk) (ht : p.ShowsType ty t)
    (hsame : r.engine.typeAlias ty = e.typeAlias ty)
    (hnone : r.engine.presets.types.get? t.fullName = none) : r.decideType ty t = r := by
  unfold Run.decideType
  rw [hnone]
  refine if_pos (Bool.or_eq_true .. ▸ ?_)
  cases halias : e.typeAlias ty with
  | none =>
    have hkept := (he.letsBe hs halias).kept ht.nameOf
    rw [Engine.rejects, ← h.policy, ← Engine.rejects] at hkept
    exact Or.inr (by rw [hkept]; rfl)
  | some name =>
    rw [halias] at hsame
    obtain ⟨x, hx, -⟩ := Option.map_eq_some_iff.mp hsame
    exact Or.inl (by rw [Table.contains, hx]; rfl)

/-- A type gets a new record. If its preset can be used, the alias stays and nothing is drawn. If
not, another alias has been drawn for it. -/
theorem Repeats.recorded (h : Repeats p e done r) {ty : TypeId} {x y : TypeRecord}
    (hx : r.engine.types.get? ty = some x) {taken : TakenNames} {source : NameSource}
    (htaken : ∀ {z}, z ∈ r.engine.taken.pairs → z ∈ taken.pairs)
    (hhonours : e.Honours p ty → some y.newName = e.typeAlias ty ∧ source = r.engine.source)
    (hnot : ¬ e.Honours p ty →
      some y.newName ≠ e.typeAlias ty ∧ r.engine.source.issued < source.issued)
    (findings : Findings) :
    Repeats p e (done ++ [.type ty]) { r with engine := { r.engine with
      taken, source, findings, types := r.engine.types.insert ty y } } := by
  have hget : ∀ ty', ((r.engine.types.insert ty y).get? ty').map (·.newName) =
      if ty = ty' then some y.newName else r.engine.typeAlias ty' := by
    intro ty'
    rw [Table.get?_insert]
    split
    · rfl
    · rfl
  have hissued : r.engine.source.issued ≤ source.issued := by
    by_cases hty : e.Honours p ty
    · rw [(hhonours hty).2]
    · exact Nat.le_of_lt (hnot hty).2
  have hlast : SymbolId.type ty ∈ done ++ [.type ty] := List.mem_append_right _ List.mem_cons_self
  refine ⟨h.declared, h.policy, h.presets, h.packages, h.fields, h.methods,
    (Table.keys_insert_of_get? hx y).trans h.keys, fun hz => htaken (h.taken hz),
    fun {ty'} hall => (hget ty').trans ?_, fun {ty'} hty hanew hsame => ?_, fun hall => ?_,
    h.issued_le.trans hissued, fun {ty'} hty hanew => ?_⟩
  · split
    · rename_i heq
      subst heq
      exact (hhonours (hall hlast)).1
    · exact h.same fun hty => hall (List.mem_append_left _ hty)
  · replace hsame := (hget ty').symm.trans hsame
    split at hsame
    · rename_i heq
      subst heq
      exact (hnot hanew).1 hsame
    · rename_i hne
      exact h.moved (type_mem_of_ne hty fun heq => hne heq.symm) hanew hsame
  · have hsource := h.source fun ty' hty => hall ty' (List.mem_append_left _ hty)
    exact (hhonours (hall ty hlast)).2.trans hsource
  · by_cases heq : ty' = ty
    · subst heq
      exact Nat.lt_of_le_of_lt h.issued_le (hnot hanew).2
    · exact Nat.lt_of_lt_of_le (h.drawn (type_mem_of_ne hty heq) hanew) hissued

theorem Repeats.decideType (h : Repeats p e done r) (he : e.Finished p)
    (hwalk : p.walk = done ++ .type ty :: rest) {t : TypeSymbol} (ht : p.ShowsType ty t) :
    Repeats p e (done ++ [.type ty]) (r.decideType ty t) := by
  have hwalked : SymbolId.type ty ∈ p.walk := by simp [hwalk]
  have halias : r.engine.typeAlias ty = e.typeAlias ty :=
    h.same fun hty => absurd hty (Program.notMem_of_walk hwalk)
  have hpresetOf : p.presetOf e.presets (.type ty) = r.engine.presets.types.get? t.fullName := by
    rw [ht.presetOf, h.presets]
  cases hpreset : r.engine.presets.types.get? t.fullName with
  | none =>
    rw [hpreset] at hpresetOf
    rw [h.decideType_eq he hwalked ht halias hpreset]
    refine h.passed fun ty' heq preset hsome => ?_
    cases heq
    cases hpresetOf.symm.trans hsome
  | some preset =>
    rw [hpreset] at hpresetOf
    obtain ⟨newName, taken, source, findings, heq, htaken, hname⟩ :=
      decideType_of_preset r ty t hpreset
    rw [h.policy] at hname
    -- the type has an alias, since it has a preset
    obtain ⟨x, hx⟩ : ∃ x, r.engine.types.get? ty = some x := by
      rw [← Option.ne_none_iff_exists']
      intro hnone
      have hnone' : e.typeAlias ty = none := by
        rw [← halias, Engine.typeAlias, hnone]
        rfl
      cases hpresetOf.symm.trans (he.letsBe hwalked hnone').preset
    rw [heq]
    refine h.recorded hx (fun hz => (htaken _).mpr (Or.inl hz)) (fun hty => ?_) (fun hnot => ?_)
      findings
    · have haccepts := hty preset hpresetOf
      obtain ⟨-, hnew, hsource⟩ | ⟨hrefused, -⟩ := hname
      · rw [hnew, he.adopted hpresetOf haccepts]
        exact ⟨rfl, hsource⟩
      · cases haccepts.symm.trans hrefused
    · obtain ⟨haccepts, -⟩ | ⟨-, hfree, hlt⟩ := hname
      · refine absurd (fun preset' hpreset' => ?_) hnot
        cases hpresetOf.symm.trans hpreset'
        exact haccepts
      · -- the old alias is taken, the new one was free
        refine ⟨fun hold => ?_, hlt⟩
        obtain ⟨z, hspot, hmem⟩ := he.taken hold.symm
        rw [ht.spot] at hspot
        cases hspot
        exact hfree (h.taken hmem)

/-- Fields have aliases, or need none. -/
theorem Repeats.decideField_eq (h : Repeats p e done r) (he : e.Finished p) {ty : TypeId}
    {t : TypeSymbol} {id : FieldId} {f : FieldSymbol} (hs : .field id ∈ p.walk)
    (ht : p.ShowsType ty t) (hf : p.ShowsField id f) (howner : f.owner = ty) :
    decideField t r (id, f) = r := by
  unfold decideField
  dsimp only
  split
  · rfl
  · rename_i hnew
    have hnone : r.engine.aliasOf (.field id) = none := by
      show r.engine.fields.get? id = none
      simpa [Table.contains] using hnew
    have hlets := h.letsBe he hs (fun heq => by cases heq) hnone
    rw [← hf.presetOf ht howner, hlets.preset, hlets.kept hf.nameOf]
    rfl

/-- So have methods. -/
theorem Repeats.decideMethod_eq (h : Repeats p e done r) (he : e.Finished p) {ty : TypeId}
    {t : TypeSymbol} {id : MethodId} {m : MethodSymbol} (hs : .method id ∈ p.walk)
    (ht : p.ShowsType ty t) (hm : p.ShowsMethod id m) (howner : m.owner = ty) :
    decideMethod t r (id, m) = r := by
  unfold decideMethod
  dsimp only
  split
  · rfl
  · rename_i hnew
    have hnone : r.engine.aliasOf (.method id) = none := by
      show r.engine.methods.get? id = none
      simpa [Table.contains] using hnew
    have hlets := h.letsBe he hs (fun heq => by cases heq) hnone
    rw [← hm.presetOf ht howner, hlets.preset, hlets.kept hm.nameOf]
    rfl

theorem Repeats.linkMethod (h : Repeats p e done r) (ty : TypeId) (t : TypeSymbol)
    (m : MethodSymbol) : Repeats p e done (r.linkMethod ty t m) := by
  unfold Run.linkMethod
  split
  · exact h.spares rfl _ _ _
  · exact h

theorem keeps_repeats_deciding (he : e.Finished p) : Pass.deciding.Keeps p (Repeats p e) where
  declared := fun h => h.declared
  type := by
    intro done rest r ty t hwalk ht h
    dsimp only [Pass.deciding]
    have hknows : r.engine.packages.Knows (PackagePath.ofText t.package) := by
      obtain ⟨s, hs, hst⟩ := ht
      rw [h.packages, ← TypeSymbol.agree hst TypeSymbol.package fun _ => rfl]
      exact he.knows hs
    rw [Engine.decidePackage_of_knows hknows]
    exact h.decideType he hwalk ht
  field := by
    intro done rest r ty t id f hwalk ht hf howner h
    dsimp only [Pass.deciding]
    rw [h.decideField_eq he (by simp [hwalk]) ht hf howner]
    exact h.passed fun ty heq => by cases heq
  method := by
    intro done rest r ty t id m hwalk ht hm howner h
    dsimp only [Pass.deciding, discoverMethod]
    rw [h.decideMethod_eq he (by simp [hwalk]) ht hm howner]
    exact (h.linkMethod ty t m).passed fun ty heq => by cases heq

/-- Before the first decision all is as the first run has left it. -/
theorem repeats_seed (he : e.Finished p) :
    Repeats p e [] { engine := e.seed p.clearAliases, program := p.clearAliases } := by
  have hpackages : (e.seed p.clearAliases).packages = e.packages := by
    apply List.foldlRecOn (motive := fun t : PackageTree => t = e.packages)
    · rfl
    · intro t ht u hu
      obtain ⟨i, hi⟩ := List.mem_iff_getElem?.mp hu
      have hslot : p.clearAliases.types.get? ⟨i⟩ = some u := Arena.get?_eq_some_iff.mpr hi
      obtain ⟨s, hs, hsu⟩ := Program.type_of_declared Program.declared_clearAliases hslot
      rw [ht, ← TypeSymbol.agree hsu TypeSymbol.package fun _ => rfl]
      exact PackageTree.create_eq_self (he.knows hs).has
  refine ⟨Program.declared_clearAliases, rfl, rfl, hpackages, rfl, rfl, rfl, fun hx => ?_,
    fun _ => rfl, fun hty => absurd hty List.not_mem_nil, fun _ => rfl, Nat.le_refl _,
    fun hty => absurd hty List.not_mem_nil⟩
  exact TakenNames.mem_seed_of_mem hx

/-! ## Binding -/

/-- Composed names play no part in it, either. -/
theorem Repeats.recalls (h : Repeats p e done r) {e' : Engine} (hr : r.engine.Recalls e')
    (hkeys : e'.types.keys = r.engine.types.keys) {q : Program}
    (hq : q.declared = r.program.declared) :
    Repeats p e done { engine := e', program := q } := by
  have hrest := hr.rest
  have htypes : ∀ ty, e'.typeAlias ty = r.engine.typeAlias ty := hr.alikeTypes.typeAlias
  generalize e'.types = types at hrest hkeys
  subst hrest
  exact ⟨hq.trans h.declared, h.policy, h.presets, h.packages, h.fields, h.methods,
    hkeys.trans h.keys, h.taken, fun hall => (htypes _).trans (h.same hall),
    fun hty hnot => htypes _ ▸ h.moved hty hnot, h.source, h.issued_le, h.drawn⟩

/-- The alias of a field can be used, and so it stays. -/
theorem Repeats.applyField (h : Repeats p e done r) (he : e.Finished p) (t : TypeSymbol)
    (entry : FieldId × FieldSymbol) : Repeats p e done (applyField t r entry) := by
  obtain ⟨id, f⟩ := entry
  unfold Run.applyField
  dsimp only
  split
  · exact h
  · rename_i name hname
    split
    · exact h
    · rename_i hempty
      have hne : name ≠ "" := fun heq => hempty (String.isEmpty_iff.mpr heq)
      have haccepts := h.accepts he (s := .field id) (fun heq => by cases heq) hname hne
      rw [Engine.usableOr, if_pos haccepts]
      dsimp only
      rw [Table.insert_of_get? hname]
      exact h.spares (Program.declared_withFieldAlias id name) _ _ _

/-- So does that of a method. -/
theorem Repeats.applyMethod (h : Repeats p e done r) (he : e.Finished p) (t : TypeSymbol)
    (entry : MethodId × MethodSymbol) : Repeats p e done (applyMethod t r entry) := by
  obtain ⟨id, m⟩ := entry
  unfold Run.applyMethod
  dsimp only
  split
  · exact h
  · rename_i name hname
    split
    · exact h
    · rename_i hempty
      have hne : name ≠ "" := fun heq => hempty (String.isEmpty_iff.mpr heq)
      have haccepts := h.accepts he (s := .method id) (fun heq => by cases heq) hname hne
      rw [Engine.usableOr, if_pos haccepts]
      dsimp only
      rw [Table.insert_of_get? hname, bne_self_eq_false, if_neg Bool.false_ne_true]
      exact h.spares (Program.declared_withMethodAlias id name) _ _ _

theorem keeps_repeats_binding (he : e.Finished p) :
    Pass.binding.Keeps p fun _ => Repeats p e p.walk where
  declared := fun h => h.declared
  type := by
    intro done rest r ty t _ _ h
    exact h.recalls (Engine.recalls_fullName r.engine r.program ty t)
      (Engine.keys_fullName r.engine r.program ty t) (spares_applyType r ty t).declared
  field := fun {_ _ _ _ t id f} _ _ _ _ h => h.applyField he t (id, f)
  method := fun {_ _ _ _ t id m} _ _ _ _ h => h.applyMethod he t (id, m)

/-- When all aliases are bound, only types with a preset that cannot be used have other ones. -/
theorem repeats_bound (he : e.Finished p) : Repeats p e p.walk (e.bound p) :=
  (keeps_repeats_deciding he).bound (keeps_repeats_binding he) (repeats_seed he) fun hr =>
    hr.spares rfl _ _ _

/-- When all aliases are bound, members have their aliases again. -/
theorem answers_again (he : e.Finished p) (hjava : e.policy.classifier = Classifier.java) :
    Answers p e.policy p.walk (e.bound p) ∧ (e.bound p).AllBound := by
  have hstart : Answers p e.policy (p.walk ++ [])
      { engine := e.seed p.clearAliases, program := p.clearAliases } := by
    have hsame := aliasOf_seed e p.clearAliases
    rw [List.append_nil]
    exact ⟨Program.declared_clearAliases, rfl,
      fun {s _} hname => he.answers.passed ((hsame s).symm.trans hname),
      fun {s _} hs hname hrejects hnone =>
        he.answers.needed hs hname hrejects ((hsame s).symm.trans hnone),
      fun {s _} hkind hname => he.answers.types hkind ((hsame s).symm.trans hname)⟩
  obtain ⟨hanswers, hbinds⟩ := (keeps_answers_deciding p hjava p.walk).bound
    (keeps_answers_binding p hjava) ⟨hstart, Program.boundAlias_clearAliases⟩ fun {r} hr => by
      have hanswers : Answers p e.policy p.walk r := hr.1.of_mem fun s => by simp
      exact ⟨hanswers.leaves (leaves_discovered r), Unbound.bindsUpTo hr.2⟩
  exact ⟨hanswers, hanswers.allBound hbinds⟩

/-! ## The end -/

/-- Members end with the aliases of the first run, and unification draws nothing. -/
theorem repeats_unified (he : e.Finished p) (hp : p.WellFormed)
    (hjava : e.policy.classifier = Classifier.java) :
    Repeats p e p.walk (e.bound p).unified ∧ Answers p e.policy p.walk (e.bound p).unified ∧
      ∀ s, (e.bound p).unified.program.boundAlias s = e.memberAlias s := by
  have hg := he.rests.grouped hp
  have hrepeats := repeats_bound he
  obtain ⟨hanswers, hbound⟩ := answers_again he hjava
  have hends := hanswers.unified hbound hg hp hjava
  generalize e.bound p = r at *
  have hmember : ∀ s, r.engine.memberAlias s = e.memberAlias s := by
    intro s
    cases s with
    | type ty => rfl
    | field id => exact Engine.memberAlias_congr (hrepeats.aliasOf_eq fun heq => by cases heq)
    | method id => exact Engine.memberAlias_congr (hrepeats.aliasOf_eq fun heq => by cases heq)
  obtain ⟨hsource, hmethods, hsame⟩ := unified_of_same hg hbound.bound fun {i j} hij => by
    rw [hbound.bound, hbound.bound, hmember, hmember]
    exact he.linked hij
  refine ⟨{ hrepeats with
    declared := hg.declared_unified
    methods := hmethods.trans hrepeats.methods
    taken := fun hx => Unification.taken_turns hg.present (hrepeats.taken hx)
    source := fun hall => hsource.trans (hrepeats.source hall)
    issued_le := hsource ▸ hrepeats.issued_le
    drawn := fun hty hnot => hsource ▸ hrepeats.drawn hty hnot }, hends, fun s => ?_⟩
  rw [hsame, hbound.bound, hmember]

/-- After the first run every type has its title. -/
theorem newName_unified (hp : p.WellFormed) (he : e.Unused) {ty : TypeId} {t : TypeSymbol}
    (ht : (e.bound p).unified.program.types.get? ty = some t) :
    t.newName = (e.bound p).unified.engine.title (e.bound p).unified.program ty t := by
  have hg := Engine.grouped_bound hp he.groups
  rw [hg.types_unified] at ht
  rw [newName_bound hp he ht, Engine.title, Engine.title,
    Engine.composed_of_declared hg.declared_unified rfl, (alikeTypes_unified e p).composed]

/-- A type that has been decided again has its alias exactly if a preset for it can be used. -/
theorem Repeats.typeAlias_iff (h : Repeats p e done r) {ty : TypeId} (hty : .type ty ∈ done) :
    r.engine.typeAlias ty = e.typeAlias ty ↔ e.Honours p ty := by
  refine ⟨fun hsame => ?_, fun hhonours => h.same fun _ => hhonours⟩
  by_contra hnot
  exact h.moved hty hnot hsame

/-- When all have been decided again, a name has been drawn exactly if there is a preset that cannot
be used. -/
theorem Repeats.source_iff (h : Repeats p e p.walk r) :
    r.engine.source = e.source ↔ ∀ ty, e.Honours p ty := by
  refine ⟨fun hsame ty preset hpreset => ?_, fun hall => h.source fun ty _ => hall ty⟩
  -- a symbol with a preset has been passed
  obtain ⟨identity, hidentity, -⟩ := Option.bind_eq_some_iff.mp hpreset
  obtain ⟨t, ht, -⟩ := Option.map_eq_some_iff.mp hidentity
  by_contra hrefused
  have hlt := h.drawn (Program.mem_walk_type ht) fun hhonours =>
    hrefused (hhonours preset hpreset)
  rw [hsame] at hlt
  exact Nat.lt_irrefl _ hlt

/-- Where types have their aliases again, they are emitted under the same names. -/
theorem Repeats.composed (h : Repeats p e p.walk (e.bound p).unified) (he : e.Finished p)
    (hall : ∀ ty, e.Honours p ty) {ty : TypeId} {t : TypeSymbol} (ht : p.types.get? ty = some t) :
    (e.bound p).unified.engine.chainOf (p.lineage ty) = e.chainOf (p.lineage ty) ∧
      (e.bound p).unified.engine.composed p ty t = e.composed p ty t := by
  have hchain := Engine.chainOf_congr (fun ty => h.same fun _ => hall ty) (p.lineage ty)
  refine ⟨hchain, ?_⟩
  rw [he.rests.composed ht, he.rests.unified.composed ht, Engine.currentName, Engine.currentName,
    hchain, Engine.packageAlias, Engine.packageAlias, h.packages]

/-- So they get the same titles. -/
theorem Repeats.newName (h : Repeats p e p.walk (e.bound p).unified) (he : e.Finished p)
    (hp : p.WellFormed) (hall : ∀ ty, e.Honours p ty) {ty : TypeId} {t : TypeSymbol}
    (ht : (e.bound p).unified.program.types.get? ty = some t) : t.newName = e.title p ty t := by
  obtain ⟨done, hdone, htitled⟩ := he.rests.titled_bound hp he.remembers fun {ty x} hx _ => by
    obtain ⟨s, hs, -⟩ := he.rests.package hx
    exact ⟨(h.composed he hall hs).1, fun t ht => (h.composed he hall ht).2⟩
  rw [(he.rests.grouped hp).types_unified] at ht
  obtain ⟨s, hs, hst⟩ := Program.type_of_declared htitled.declared ht
  have hcomposed := (h.composed he hall hs).2
  rw [(alikeTypes_unified e p).composed] at hcomposed
  rw [htitled.newName ht, if_pos (hdone ht), ← Engine.title_of_declared hst,
    ← Engine.title_of_declared hst, Engine.title, Engine.title, hcomposed]

/-- And what is exported is the same. -/
theorem Repeats.saved (h : Repeats p e done r) (hall : ∀ ty, e.Honours p ty) :
    r.engine.saved p = e.saved p := by
  have htypes : r.engine.decided .types = e.decided .types := by
    have hentries := Table.map_toList_congr (f := TypeRecord.newName) h.keys
      fun ty => h.same fun _ => hall ty
    have hsymbols := congrArg (List.map fun x : TypeId × String => (SymbolId.type x.1, x.2))
      hentries
    rw [List.map_map, List.map_map] at hsymbols
    exact hsymbols
  rw [Engine.saved, Engine.saved, h.packages, htypes, Engine.decided, Engine.decided, h.fields,
    Engine.decided, Engine.decided, h.methods]
  rfl

end Run

/-- A preset for the type of `Program.muted`. -/
def Presets.forMain (newName : String) : Presets where
  types := Table.ofList [("game.Main", newName)]

namespace Engine

/-- Under the rules of Java an engine that renames a program a second time leaves members, packages
and their aliases as they are. A type keeps its alias exactly if its preset can be used, or if it
has none. Names are drawn exactly if there is a preset of a type that cannot be used; if there is
none, the second run leaves the program, and what is exported, as they were. -/
theorem process_again (p : Program) (hp : p.Built) (e : Engine)
    (hjava : e.policy.classifier = Classifier.java) (presets : Presets) :
    ∃ report r report' r' saved, (e.reset.loadPresets presets).process p = .ok (report, r) ∧
      r.engine.process r.program = .ok (report', r') ∧
      r.engine.exportPresets r.program = .ok saved ∧
      r'.program.declared = r.program.declared ∧
      (∀ s, r'.program.boundAlias s = r.program.boundAlias s) ∧
      r'.engine.fields = r.engine.fields ∧ r'.engine.methods = r.engine.methods ∧
      r'.engine.packages = r.engine.packages ∧
      (∀ ty t, p.types.get? ty = some t → (r'.engine.typeAlias ty = r.engine.typeAlias ty ↔
        ∀ preset, presets.types.get? t.fullName = some preset →
          e.policy.accepts preset = true)) ∧
      (r'.engine.source = r.engine.source ↔ ∀ ty t, p.types.get? ty = some t →
        ∀ preset, presets.types.get? t.fullName = some preset →
          e.policy.accepts preset = true) ∧
      (r'.engine.source = r.engine.source →
        (∀ ty s t, r.program.types.get? ty = some s → r'.program.types.get? ty = some t →
          t.newName = s.newName) ∧
        r'.engine.exportPresets r'.program = .ok saved) := by
  have hwell := hp.wellFormed
  have he := e.unused_reset.loadPresets presets
  have hpolicy : (e.reset.loadPresets presets).policy = e.policy := policy_loadPresets _ presets
  have hpresets : (e.reset.loadPresets presets).presets.types = presets.types := rfl
  obtain ⟨⟨report, hrun⟩, hends⟩ := ends_process hp e hjava presets
  generalize e.reset.loadPresets presets = e' at *
  rw [← hpolicy] at hjava hends
  have hfixes := Run.fixes_bound e' p
  have hnames := @Run.newName_unified p e' hwell he
  have hfinished := finished_unified hwell he hjava
  have hhonours : ∀ ty, (e'.bound p).unified.engine.Honours (e'.bound p).unified.program ty ↔
      ∀ t, p.types.get? ty = some t → ∀ preset, presets.types.get? t.fullName = some preset →
        e.policy.accepts preset = true := by
    intro ty
    rw [honours_iff hends.answers.declared.symm, Run.presets_unified, hfixes.presets, hpresets,
      hends.answers.policy, hpolicy]
  generalize (e'.bound p).unified = r at *
  -- the second run
  have hpq := hends.answers.declared.symm
  have hwell' := hwell.of_declared hpq
  have hjava' : r.engine.policy.classifier = Classifier.java := hends.answers.policy.symm ▸ hjava
  replace hfinished := hfinished.of_declared hpq
  obtain ⟨report', hrun'⟩ := hfinished.rests.process_eq_ok hwell'
  obtain ⟨hrepeats, hanswers', hbound⟩ := Run.repeats_unified hfinished hwell' hjava'
  have hnewName := hrepeats.newName hfinished hwell'
  obtain ⟨hexport, hexport'⟩ : r.engine.exportPresets r.program = .ok (r.engine.saved r.program) ∧
      (r.engine.bound r.program).unified.engine.exportPresets
        (r.engine.bound r.program).unified.program =
          .ok ((r.engine.bound r.program).unified.engine.saved r.program) :=
    ⟨(hends.answers.of_declared hpq).exportPresets_eq_ok hwell',
      hanswers'.exportPresets_eq_ok hwell'⟩
  generalize (r.engine.bound r.program).unified = r' at *
  refine ⟨report, r, report', r', _, hrun, hrun', hexport, hanswers'.declared,
    fun s => (hbound s).trans (hends.allBound.bound s).symm, hrepeats.fields, hrepeats.methods,
    hrepeats.packages, fun ty t ht => ?_, ?_, fun hsource => ⟨fun ty s t hs ht => ?_, ?_⟩⟩
  · obtain ⟨s, hs, -⟩ := Program.type_of_declared hpq ht
    rw [hrepeats.typeAlias_iff (Program.mem_walk_type hs), hhonours]
    refine ⟨fun h => h t ht, fun h t' ht' => ?_⟩
    cases ht.symm.trans ht'
    exact h
  · rw [hrepeats.source_iff]
    exact forall_congr' hhonours
  · have hall := hrepeats.source_iff.mp hsource
    obtain ⟨s', hs', hst⟩ := Program.type_of_declared hanswers'.declared ht
    cases hs.symm.trans hs'
    rw [hnewName hall ht, hnames hs, title_of_declared hst]
  · rw [hexport', hrepeats.saved (hrepeats.source_iff.mp hsource)]

/-- Given the alias `Widget`, the type of `Program.muted` has it after the second run as well, and
the same presets are exported. -/
theorem process_again_widget : Program.muted.Built ∧
    ∃ report r report' r' saved, (({} : Engine).reset.loadPresets (.forMain "Widget")).process
        .muted = .ok (report, r) ∧
      r.engine.process r.program = .ok (report', r') ∧
      r'.engine.typeAlias ⟨0⟩ = r.engine.typeAlias ⟨0⟩ ∧
      r.engine.exportPresets r.program = .ok saved ∧
      r'.engine.exportPresets r'.program = .ok saved := by
  have hbuilt := Program.built_muted
  have husable : ∀ ty t, Program.muted.types.get? ty = some t →
      ∀ preset, (Presets.forMain "Widget").types.get? t.fullName = some preset →
        ({} : Engine).policy.accepts preset = true := by
    have hall : ∀ t ∈ Program.muted.types.toList,
        ∀ preset ∈ (Presets.forMain "Widget").types.get? t.fullName,
          ({} : Engine).policy.accepts preset = true := by
      decide +kernel
    exact fun ty t ht preset => hall t (Arena.mem_toList_of_get? ht) preset
  obtain ⟨report, r, report', r', saved, hrun, hrun', hexport, -, -, -, -, -, htypes, hsource,
    hrest⟩ := process_again .muted hbuilt {} rfl (.forMain "Widget")
  have halias := (htypes ⟨0⟩ _ rfl).mpr (husable ⟨0⟩ _ rfl)
  exact ⟨hbuilt, report, r, report', r', saved, hrun, hrun', halias, hexport,
    (hrest (hsource.mpr husable)).2⟩

/-- A second run can change aliases, namely where a preset of a type cannot be used: the type is
called `a` after the first run, and `b` after the second. -/
theorem process_again_unusable : ¬ ∀ (p : Program), p.Built → ∀ (e : Engine),
    e.policy.classifier = Classifier.java → ∀ presets,
      ∃ report r report' r' saved, (e.reset.loadPresets presets).process p = .ok (report, r) ∧
        r.engine.process r.program = .ok (report', r') ∧
        (∀ s, r'.engine.aliasOf s = r.engine.aliasOf s) ∧
        r.engine.exportPresets r.program = .ok saved ∧
        r'.engine.exportPresets r'.program = .ok saved ∧
        r'.engine.source = r.engine.source := by
  intro hall
  obtain ⟨report, r, report', r', saved, hrun, hrun', haliases, -⟩ :=
    hall .muted Program.built_muted {} rfl (.forMain "x1")
  have hboth : ((({} : Engine).reset.loadPresets (.forMain "x1")).process .muted).toOption.bind
      (fun o => (o.2.engine.process o.2.program).toOption.map fun o' =>
        (o.2.engine.typeAlias ⟨0⟩, o'.2.engine.typeAlias ⟨0⟩)) = some (some "a", some "b") := by
    decide +kernel
  rw [hrun] at hboth
  replace hboth : (r.engine.process r.program).toOption.map (fun o' =>
      (r.engine.typeAlias ⟨0⟩, o'.2.engine.typeAlias ⟨0⟩)) = some (some "a", some "b") := hboth
  rw [hrun'] at hboth
  obtain ⟨hfirst, hsecond⟩ := Prod.mk.inj (Option.some.inj hboth)
  have hsame : r'.engine.typeAlias ⟨0⟩ = r.engine.typeAlias ⟨0⟩ := haliases (.type ⟨0⟩)
  rw [hfirst, hsecond] at hsame
  exact absurd hsame (by decide)

end Engine
end Renamer
