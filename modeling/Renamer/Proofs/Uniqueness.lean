import Renamer.Proofs.Titles
import Renamer.Proofs.Turns

/-!
# Names within a scope

Where no scope declares a name twice, no scope holds a name twice after a run without presets:
neither that of types, nor that of fields, nor that of methods, whose names count together with
their parameters.

Types need a case of their own: a full name that is composed with a digit is not bound, so that in
one scope composed names stand beside declared ones (`Ident.shown_ne`).
-/

namespace Renamer

/-! ## Declared names -/

namespace Program

/-- No scope declares a name twice. -/
structure DistinctNames (p : Program) : Prop where
  types : ∀ {i j s t}, p.types.get? i = some s → p.types.get? j = some t → i ≠ j →
    s.scope = t.scope → s.shortName ≠ t.shortName
  fields : ∀ {i j f g}, p.fields.get? i = some f → p.fields.get? j = some g → i ≠ j →
    f.owner = g.owner → f.name ≠ g.name
  methods : ∀ {i j m n}, p.methods.get? i = some m → p.methods.get? j = some n → i ≠ j →
    m.owner = n.owner → m.key ≠ n.key

/-- Whether names are distinct can be read off the lists of symbols. -/
theorem distinctNames_iff {p : Program} : p.DistinctNames ↔
    (∀ a ∈ p.types.entries, ∀ b ∈ p.types.entries, a.1 ≠ b.1 → a.2.scope = b.2.scope →
      a.2.shortName ≠ b.2.shortName) ∧
    (∀ a ∈ p.fields.entries, ∀ b ∈ p.fields.entries, a.1 ≠ b.1 → a.2.owner = b.2.owner →
      a.2.name ≠ b.2.name) ∧
    (∀ a ∈ p.methods.entries, ∀ b ∈ p.methods.entries, a.1 ≠ b.1 → a.2.owner = b.2.owner →
      a.2.key ≠ b.2.key) := by
  constructor
  · intro h
    refine ⟨fun a ha b hb => ?_, fun a ha b hb => ?_, fun a ha b hb => ?_⟩
    · exact h.types (Arena.mem_entries_iff.mp ha) (Arena.mem_entries_iff.mp hb)
    · exact h.fields (Arena.mem_entries_iff.mp ha) (Arena.mem_entries_iff.mp hb)
    · exact h.methods (Arena.mem_entries_iff.mp ha) (Arena.mem_entries_iff.mp hb)
  · intro h
    rcases h with ⟨htypes, hfields, hmethods⟩
    constructor
    · exact fun hs ht => htypes _ (Arena.mem_entries_iff.mpr hs) _ (Arena.mem_entries_iff.mpr ht)
    · exact fun hf hg => hfields _ (Arena.mem_entries_iff.mpr hf) _ (Arena.mem_entries_iff.mpr hg)
    · exact fun hm hn => hmethods _ (Arena.mem_entries_iff.mpr hm) _ (Arena.mem_entries_iff.mpr hn)

instance (p : Program) : Decidable p.DistinctNames := decidable_of_iff _ distinctNames_iff.symm

/-- No type declares two methods with one key. -/
def DistinctKeys (p : Program) : Prop :=
  ∀ a ∈ p.methods.entries, ∀ b ∈ p.methods.entries, a.2.owner = b.2.owner → a.2.key = b.2.key →
    a.1 = b.1

instance (p : Program) : Decidable p.DistinctKeys :=
  inferInstanceAs (Decidable (∀ a ∈ p.methods.entries, ∀ b ∈ p.methods.entries,
    a.2.owner = b.2.owner → a.2.key = b.2.key → a.1 = b.1))

variable {p : Program}

theorem DistinctNames.distinctKeys (h : p.DistinctNames) : p.DistinctKeys := by
  intro a ha b hb howner hkey
  by_contra hab
  exact h.methods (Arena.mem_entries_iff.mp ha) (Arena.mem_entries_iff.mp hb) hab howner hkey

/-- Of the methods of a type no two have one key, in whatever state of the program. -/
theorem DistinctKeys.eq_of_key_eq {q : Program} (hd : p.DistinctKeys)
    (h : q.declared = p.declared) {i j : MethodId} {m n : MethodSymbol}
    (hm : q.methods.get? i = some m) (hn : q.methods.get? j = some n) (howner : m.owner = n.owner)
    (hkey : m.key = n.key) : i = j := by
  rcases method_of_declared h hm with ⟨m', hm', hmm⟩
  rcases method_of_declared h hn with ⟨n', hn', hnn⟩
  apply hd (i, m') (Arena.mem_entries_iff.mpr hm') (j, n') (Arena.mem_entries_iff.mpr hn')
  · rw [MethodSymbol.agree hmm MethodSymbol.owner fun _ => rfl,
      MethodSymbol.agree hnn MethodSymbol.owner fun _ => rfl, howner]
  · rw [MethodSymbol.agree hmm MethodSymbol.key fun _ => rfl,
      MethodSymbol.agree hnn MethodSymbol.key fun _ => rfl, hkey]

/-- The types of a scope stand in one package and in one type. -/
theorem eq_of_scope_eq (hp : p.WellFormed) {i j : TypeId} {s t : TypeSymbol}
    (hs : p.types.get? i = some s) (ht : p.types.get? j = some t) (hscope : s.scope = t.scope) :
    s.package = t.package ∧ s.enclosing = t.enclosing := by
  unfold TypeSymbol.scope at hscope
  cases hso : s.enclosing with
  | none =>
    rw [hso] at hscope
    cases hto : t.enclosing with
    | none =>
      rw [hto] at hscope
      exact ⟨Scope.package.inj hscope, rfl⟩
    | some outer =>
      rw [hto] at hscope
      cases hscope
  | some outer =>
    rw [hso] at hscope
    cases hto : t.enclosing with
    | none =>
      rw [hto] at hscope
      cases hscope
    | some outer' =>
      rw [hto] at hscope
      have houter : outer = outer' := Scope.nested.inj hscope
      rw [← houter] at hto
      rcases hp.nested hs hso with ⟨o, ho, -, hpackage, -⟩
      rcases hp.nested ht hto with ⟨o', ho', -, hpackage', -⟩
      rw [ho] at ho'
      cases ho'
      exact ⟨hpackage.trans hpackage'.symm, congrArg some houter⟩

/-- The declared full names of a scope differ in the short names only. -/
theorem fullName_of_scope_eq (hp : p.WellFormed) {i j : TypeId} {s t : TypeSymbol}
    (hs : p.types.get? i = some s) (ht : p.types.get? j = some t) (hscope : s.scope = t.scope) :
    ∃ front, s.fullName = front ++ s.shortName ∧ t.fullName = front ++ t.shortName := by
  rcases eq_of_scope_eq hp hs ht hscope with ⟨hpackage, henclosing⟩
  cases hto : t.enclosing with
  | none =>
    rw [hp.topLevel hs (henclosing.trans hto), hp.topLevel ht hto, hpackage]
    unfold topLevelName
    split
    · exact ⟨"", (String.empty_append).symm, (String.empty_append).symm⟩
    · exact ⟨_, rfl, rfl⟩
  | some outer =>
    rcases hp.nested hs (henclosing.trans hto) with ⟨o, ho, -, -, hsname⟩
    rcases hp.nested ht hto with ⟨o', ho', -, -, htname⟩
    rw [ho] at ho'
    cases ho'
    exact ⟨_, hsname, htname⟩

end Program

/-! ## Types -/

namespace Ident

/-- Two names of one scope, which are composed with `outer` and declared with `front`, are shown
differently, where a last part that holds a digit is the declared one. -/
theorem shown_ne {outer front a b s t : String} (hab : a ≠ b) (hst : s ≠ t)
    (ha : hasDigit a = true → a = s) (hb : hasDigit b = true → b = t) :
    (if hasDigit (outer ++ a) then front ++ s else outer ++ a) ≠
      (if hasDigit (outer ++ b) then front ++ t else outer ++ b) := by
  -- a name shown with a digit differs from one shown without
  have hmixed : ∀ {a b s : String}, (hasDigit a = true → a = s) →
      hasDigit (outer ++ a) = true → hasDigit (outer ++ b) = false → front ++ s ≠ outer ++ b := by
    intro a b s ha hyes hno heq
    have houter : hasDigit outer = false ∧ hasDigit b = false := by
      rwa [hasDigit_append, Bool.or_eq_false_iff] at hno
    have hdigit : hasDigit a = true := by
      rwa [hasDigit_append, houter.1, Bool.false_or] at hyes
    rw [← heq, hasDigit_append, ← ha hdigit, hdigit, Bool.or_true] at hno
    cases hno
  split
  · rename_i hyes
    -- two declared names, or a declared and a composed one
    split
    · exact fun heq => hst ((String.append_right_inj front).mp heq)
    · rename_i hno
      exact hmixed ha hyes (Bool.not_eq_true _ ▸ hno)
  · rename_i hno
    split
    · rename_i hyes
      exact (hmixed hb hyes (Bool.not_eq_true _ ▸ hno)).symm
    · exact fun heq => hab ((String.append_right_inj outer).mp heq)

end Ident

namespace Engine

variable {e : Engine} {p : Program}

/-- What stands before the last part in the full name of the type `t`, whose package is emitted as
`package`. -/
def front (e : Engine) (p : Program) (package : String) (t : TypeSymbol) : String :=
  (if package.isEmpty then "" else package ++ packageSeparator) ++
    match t.enclosing with
    | some outer => e.chainOf (p.lineage outer) ++ nestedSeparator
    | none => ""

theorem composed_eq_front (hp : p.WellFormed) {ty : TypeId} {t : TypeSymbol}
    (ht : p.types.get? ty = some t) :
    e.composed p ty t = e.front p (e.packageName ty t) t ++ e.lastPart ty t := by
  have hchain : e.chainOf (p.lineage ty) = (match t.enclosing with
      | some outer => e.chainOf (p.lineage outer) ++ nestedSeparator
      | none => "") ++ e.lastPart ty t := by
    cases henclosing : t.enclosing with
    | none =>
      rw [chainOf_of_topLevel ht henclosing]
      exact String.empty_append.symm
    | some outer => exact chainOf_of_nested hp ht henclosing
  unfold composed front
  dsimp only
  rw [hchain]
  split
  · rw [String.empty_append]
  · rw [String.append_assoc, String.append_assoc, String.append_assoc]

end Engine

namespace Run

variable {p : Program} {r : Run}

/-- Two symbols of one scope with different declared names are called differently, where each is
called by its alias or by its declared name: aliases are apart, and unlike declared names. -/
theorem Settled.called_ne (h : Settled p r) {x y : SymbolId} {scope : Scope} {a b : String}
    (hx : ∀ name, p.spot name x = some (scope, name))
    (hy : ∀ name, p.spot name y = some (scope, name)) (ha : p.nameOf x = some a)
    (hb : p.nameOf y = some b) (hxy : x ≠ y) (hab : a ≠ b) {o o' : Option String}
    (ho : ∀ {name}, o = some name → r.engine.aliasOf x = some name)
    (ho' : ∀ {name}, o' = some name → r.engine.aliasOf y = some name) : o.getD a ≠ o'.getD b := by
  intro heq
  cases hname : o with
  | none =>
    cases hname' : o' with
    | none =>
      rw [hname, hname'] at heq
      exact hab heq
    | some b' =>
      rw [hname, hname'] at heq
      have hab' : a = b' := heq
      exact h.new ⟨b', ho' hname', hy b'⟩ ⟨x, a, ha, hab' ▸ hx a⟩
  | some a' =>
    cases hname' : o' with
    | none =>
      rw [hname, hname'] at heq
      have hba' : a' = b := heq
      exact h.new ⟨a', ho hname, hx a'⟩ ⟨y, b, hb, hba' ▸ hy b⟩
    | some b' =>
      rw [hname, hname'] at heq
      have hab' : a' = b' := heq
      exact hxy (h.apart ⟨a', ho hname, hx a'⟩ ⟨b', ho' hname', hab' ▸ hy b'⟩)

/-- Types of one scope with different short names have different last parts. -/
theorem Settled.lastPart_ne (h : Settled p r) {i j : TypeId} {s t : TypeSymbol}
    (hs : p.types.get? i = some s) (ht : p.types.get? j = some t) (hij : i ≠ j)
    (hscope : s.scope = t.scope) (hshort : s.shortName ≠ t.shortName) :
    r.engine.lastPart i s ≠ r.engine.lastPart j t := by
  apply h.called_ne (x := .type i) (y := .type j)
  · exact spot_type ⟨s, hs, rfl⟩
  · rw [hscope]
    exact spot_type ⟨t, ht, rfl⟩
  · rw [Program.nameOf, hs]
    rfl
  · rw [Program.nameOf, ht]
    rfl
  · exact fun heq => hij (SymbolId.type.inj heq)
  · exact hshort
  · exact fun hname => hname
  · exact fun hname => hname

/-- A last part that holds a digit is the declared one. -/
theorem Settled.lastPart_eq_of_hasDigit (h : Settled p r) {ty : TypeId} {t : TypeSymbol}
    (hdigit : Ident.hasDigit (r.engine.lastPart ty t) = true) :
    r.engine.lastPart ty t = t.shortName := by
  unfold Engine.lastPart at hdigit ⊢
  cases hname : r.engine.typeAlias ty with
  | none => rfl
  | some a =>
    rw [hname, Option.getD_some] at hdigit
    rcases h.word (s := .type ty) hname with ⟨n, -, hword⟩ | ⟨ty', -, hnone⟩
    · rw [hword, Word.hasDigit_spell] at hdigit
      cases hdigit
    · rw [hnone] at hdigit
      cases hdigit

/-- The names composed for the types of a scope differ in the last parts only. -/
theorem Prepared.composed_of_scope_eq (h : Prepared p r) (hp : p.WellFormed) {i j : TypeId}
    {s t : TypeSymbol} (hs : p.types.get? i = some s) (ht : p.types.get? j = some t)
    (hscope : s.scope = t.scope) :
    ∃ outer, r.engine.composed p i s = outer ++ r.engine.lastPart i s ∧
      r.engine.composed p j t = outer ++ r.engine.lastPart j t := by
  rcases Program.eq_of_scope_eq hp hs ht hscope with ⟨hpackage, henclosing⟩
  have hfront : r.engine.front p (r.engine.packageName i s) s =
      r.engine.front p (r.engine.packageName j t) t := by
    unfold Engine.front
    rw [h.packageName hs, h.packageName ht, hpackage, henclosing]
  refine ⟨_, Engine.composed_eq_front hp hs, ?_⟩
  rw [hfront]
  exact Engine.composed_eq_front hp ht

/-- What the types of a scope are shown under differs in the last parts only, and likewise where the
declared names are shown. -/
theorem displayName_bound_eq (hp : p.WellFormed) {e : Engine} (he : e.Unused) {i j : TypeId}
    {s s' t t' : TypeSymbol} (hs' : p.types.get? i = some s') (hss : s'.declared = s.declared)
    (ht' : p.types.get? j = some t') (htt : t'.declared = t.declared)
    (hs : (e.bound p).program.types.get? i = some s)
    (ht : (e.bound p).program.types.get? j = some t) (hscope : s'.scope = t'.scope)
    (hr : Run.discover { engine := e, program := p.clearAliases } = r) :
    ∃ outer front,
      s.displayName = (if Ident.hasDigit (outer ++ r.engine.lastPart i s')
        then front ++ s'.shortName else outer ++ r.engine.lastPart i s') ∧
      t.displayName = if Ident.hasDigit (outer ++ r.engine.lastPart j t')
        then front ++ t'.shortName else outer ++ r.engine.lastPart j t' := by
  have hprepared := prepared_discover he p
  have hsname := Engine.displayName_of_title (newName_bound hp he hs)
  have htname := Engine.displayName_of_title (newName_bound hp he ht)
  rw [hr] at hprepared hsname htname
  rw [← Engine.composed_of_declared rfl hss,
    ← TypeSymbol.agree hss TypeSymbol.fullName fun _ => rfl] at hsname
  rw [← Engine.composed_of_declared rfl htt,
    ← TypeSymbol.agree htt TypeSymbol.fullName fun _ => rfl] at htname
  rcases Program.fullName_of_scope_eq hp hs' ht' hscope with ⟨front, hsfull, htfull⟩
  rcases hprepared.composed_of_scope_eq hp hs' ht' hscope with ⟨outer, hscomposed, htcomposed⟩
  rw [hscomposed, hsfull] at hsname
  rw [htcomposed, htfull] at htname
  exact ⟨outer, front, hsname, htname⟩

/-- Types of one scope are shown under different names. -/
theorem displayName_bound_ne (hp : p.WellFormed) (hd : p.DistinctNames) (e : Engine) {i j : TypeId}
    {s t : TypeSymbol} (hs : (e.reset.bound p).program.types.get? i = some s)
    (ht : (e.reset.bound p).program.types.get? j = some t) (hij : i ≠ j)
    (hscope : s.scope = t.scope) : s.displayName ≠ t.displayName := by
  have hsettled := Settled.discover (e := e) (p := p)
  have hdeclared := (settled_bound e p).declared
  -- both types as they were declared
  rcases Program.type_of_declared hdeclared hs with ⟨s', hs', hss⟩
  rcases Program.type_of_declared hdeclared ht with ⟨t', ht', htt⟩
  rw [← TypeSymbol.agree hss TypeSymbol.scope fun _ => rfl,
    ← TypeSymbol.agree htt TypeSymbol.scope fun _ => rfl] at hscope
  rcases displayName_bound_eq hp e.unused_reset hs' hss ht' htt hs ht hscope rfl with
    ⟨outer, front, hsname, htname⟩
  rw [hsname, htname]
  apply Ident.shown_ne
  · exact hsettled.lastPart_ne hs' ht' hij hscope (hd.types hs' ht' hij hscope)
  · exact hd.types hs' ht' hij hscope
  · exact hsettled.lastPart_eq_of_hasDigit
  · exact hsettled.lastPart_eq_of_hasDigit

/-! ## Members -/

/-- Fields of one type end with different names. -/
theorem Settled.finalName_ne (h : Settled p r) (hd : p.DistinctNames) {i j : FieldId}
    {f g : FieldSymbol} (hf : r.program.fields.get? i = some f)
    (hg : r.program.fields.get? j = some g) (hij : i ≠ j) (howner : f.owner = g.owner) :
    f.finalName ≠ g.finalName := by
  have hbound : ∀ {k : FieldId} {u : FieldSymbol} {name : String},
      r.program.fields.get? k = some u → u.newName = some name →
      r.engine.aliasOf (.field k) = some name := by
    intro k u name hu hname
    apply h.bound
    show (r.program.fields.get? k).bind (·.newName) = some name
    rw [hu]
    exact hname
  -- both fields as they were declared
  rcases Program.field_of_declared h.declared hf with ⟨f', hf', hff⟩
  rcases Program.field_of_declared h.declared hg with ⟨g', hg', hgg⟩
  have howner' : f'.owner = g'.owner := by
    rw [FieldSymbol.agree hff FieldSymbol.owner fun _ => rfl,
      FieldSymbol.agree hgg FieldSymbol.owner fun _ => rfl, howner]
  unfold FieldSymbol.finalName
  rw [← FieldSymbol.agree hff FieldSymbol.name fun _ => rfl,
    ← FieldSymbol.agree hgg FieldSymbol.name fun _ => rfl]
  apply h.called_ne (x := .field i) (y := .field j)
  · intro name
    rw [Program.spot, hf']
    rfl
  · intro name
    rw [Program.spot, hg', FieldSymbol.scope, howner']
    rfl
  · rw [Program.nameOf, hf']
    rfl
  · rw [Program.nameOf, hg']
    rfl
  · exact fun heq => hij (SymbolId.field.inj heq)
  · exact hd.fields hf' hg' hij howner'
  · exact hbound hf
  · exact hbound hg

/-- Methods of one type end with different override keys. -/
theorem Settled.finalKey_ne_of_distinct (h : Settled p r) (hg : Grouped p r)
    (hd : p.DistinctNames) {i j : MethodId} {m n : MethodSymbol}
    (hm : r.unified.program.methods.get? i = some m)
    (hn : r.unified.program.methods.get? j = some n) (hij : i ≠ j) (howner : m.owner = n.owner) :
    m.finalKey ≠ n.finalKey := by
  have hkey : m.key ≠ n.key := by
    rcases Program.method_of_declared hg.declared_unified hm with ⟨m', hm', hmm⟩
    rcases Program.method_of_declared hg.declared_unified hn with ⟨n', hn', hnn⟩
    have hne := hd.methods hm' hn' hij
    rw [MethodSymbol.agree hmm MethodSymbol.owner fun _ => rfl,
      MethodSymbol.agree hnn MethodSymbol.owner fun _ => rfl,
      MethodSymbol.agree hmm MethodSymbol.key fun _ => rfl,
      MethodSymbol.agree hnn MethodSymbol.key fun _ => rfl] at hne
    exact hne howner
  -- of its group no other method stands in the type
  have hdeclared : ∀ {k : MethodId} {o : MethodSymbol},
      r.unified.program.methods.get? k = some o → r.unified.DeclaredIn o.owner k o.paramText := by
    intro k o ho
    refine ⟨⟨k, o, ho, rfl, Or.inl rfl⟩, fun l u hu huowner hkl => ?_⟩
    have hukey := hg.key_eq_unified hkl ho hu
    rcases Program.method_of_declared hg.declared_unified ho with ⟨o', ho', hoo⟩
    rcases Program.method_of_declared hg.declared_unified hu with ⟨u', hu', huu⟩
    have hne := hd.methods hu' ho'
    rw [MethodSymbol.agree hoo MethodSymbol.owner fun _ => rfl,
      MethodSymbol.agree huu MethodSymbol.owner fun _ => rfl,
      MethodSymbol.agree hoo MethodSymbol.key fun _ => rfl,
      MethodSymbol.agree huu MethodSymbol.key fun _ => rfl] at hne
    by_cases hlk : l = k
    · rw [hlk, ho] at hu
      cases hu
      rfl
    · exact absurd hukey (hne hlk huowner)
  cases ha : m.newName with
  | none =>
    cases hb : n.newName with
    | none => exact h.finalKey_ne hg hm hn hkey (by rw [ha, hb])
    | some b =>
      have hrenamed : n.newName.isSome = true := by rw [hb]; rfl
      exact (h.finalKey_ne_of_owner hg hn hm (hdeclared hn) hkey.symm howner hrenamed ha).symm
  | some a =>
    have hrenamed : m.newName.isSome = true := by rw [ha]; rfl
    cases hb : n.newName with
    | none => exact h.finalKey_ne_of_owner hg hm hn (hdeclared hm) hkey howner.symm hrenamed hb
    | some b => exact h.finalKey_ne hg hm hn hkey (by rw [ha, hb]; rfl)

end Run

/-! ## Final names -/

namespace Program

/-- A package in which the new names of types and members stand close to declared ones. -/
def crowded : Program where
  types := ⟨#[
    { package := "game", shortName := "Main1", fullName := "game.Main1" },
    { package := "game", shortName := "a", fullName := "game.a" },
    { package := "game", shortName := "b", fullName := "game.a$b", enclosing := some ⟨1⟩ }]⟩
  fields := ⟨#[
    { owner := ⟨1⟩, name := "b", descriptor := "I" },
    { owner := ⟨1⟩, name := "size", descriptor := "I" }]⟩
  methods := ⟨#[
    { owner := ⟨1⟩, name := "c", params := [], returnType := "V", isVirtual := true },
    { owner := ⟨1⟩, name := "c", params := ["I"], returnType := "V", isVirtual := true }]⟩

theorem built_crowded : crowded.Built := by
  have hmain := Built.empty.addType { package := "game", shortName := "Main1" }
  have htop := hmain.addType { package := "game", shortName := "a" }
  have hinner : Built { crowded with fields := {}, methods := {} } := by
    apply htop.addNestedType
    exact (rfl : Program.addNestedType _ ⟨1⟩ { shortName := "b" } = _)
  have hb := hinner.pushField ⟨1⟩ "b" "I" (by decide)
  have hsize := hb.pushField ⟨1⟩ "size" "I" (by decide)
  have hc := hsize.pushMethod ⟨1⟩ "c" [] "V" true (by decide)
  exact hc.pushMethod ⟨1⟩ "c" ["I"] "V" true (by decide)

end Program

namespace Engine

/-- Where no scope declares a name twice, none holds a name twice at the end of a run. -/
theorem names_process_distinct (p : Program) (hp : p.Built) (hd : p.DistinctNames) (e : Engine) :
    ∃ report r, e.reset.process p = .ok (report, r) ∧
      (∀ i j s t, r.program.types.get? i = some s → r.program.types.get? j = some t → i ≠ j →
        s.scope = t.scope → s.displayName ≠ t.displayName) ∧
      (∀ i j f g, r.program.fields.get? i = some f → r.program.fields.get? j = some g → i ≠ j →
        f.owner = g.owner → f.finalName ≠ g.finalName) ∧
      ∀ i j m n, r.program.methods.get? i = some m → r.program.methods.get? j = some n → i ≠ j →
        m.owner = n.owner → m.finalKey ≠ n.finalKey := by
  have hsettled := Run.settled_bound e p
  have hgrouped := grouped_bound (e := e.reset) hp.wellFormed rfl
  rcases process_eq_ok (e := e.reset) hp.wellFormed rfl with ⟨report, hrun⟩
  refine ⟨report, _, hrun, ?_, ?_, ?_⟩
  · intro i j s t hs ht
    rw [hgrouped.types_unified] at hs ht
    exact Run.displayName_bound_ne hp.wellFormed hd e hs ht
  · intro i j f g hf hg
    rw [hgrouped.fields_unified] at hf hg
    exact hsettled.finalName_ne hd hf hg
  · intro i j m n hm hn
    exact hsettled.finalKey_ne_of_distinct hgrouped hd hm hn

/-- Types, fields and methods of the crowded package, of which some are renamed, end apart. -/
theorem names_process_crowded : Program.crowded.Built ∧ Program.crowded.DistinctNames ∧
    ∃ report r, ({} : Engine).reset.process Program.crowded = .ok (report, r) ∧
      ∃ s t f g m n, r.program.types.get? ⟨0⟩ = some s ∧ r.program.types.get? ⟨1⟩ = some t ∧
        r.program.fields.get? ⟨0⟩ = some f ∧ r.program.fields.get? ⟨1⟩ = some g ∧
        r.program.methods.get? ⟨0⟩ = some m ∧ r.program.methods.get? ⟨1⟩ = some n ∧
        s.displayName ≠ t.displayName ∧ f.finalName ≠ g.finalName ∧ m.finalKey ≠ n.finalKey := by
  have hbuilt := Program.built_crowded
  have hdistinct : Program.crowded.DistinctNames := by decide +kernel
  rcases process_eq_ok (e := ({} : Engine).reset) hbuilt.wellFormed rfl with ⟨report, hrun⟩
  rcases names_process_distinct Program.crowded hbuilt hdistinct {} with
    ⟨report', r, hrun', htypes, hfields, hmethods⟩
  rw [hrun] at hrun'
  cases hrun'
  let r := (({} : Engine).reset.bound Program.crowded).unified
  have hs : r.program.types.get? ⟨0⟩ = some
      { package := "game", shortName := "Main1", fullName := "game.Main1" } := by decide +kernel
  have ht : r.program.types.get? ⟨1⟩ = some
      { package := "game", shortName := "a", fullName := "game.a", newName := some "game.b" } := by
    decide +kernel
  have hf : r.program.fields.get? ⟨0⟩ = some
      { owner := ⟨1⟩, name := "b", descriptor := "I", newName := some "c" } := by decide +kernel
  have hg : r.program.fields.get? ⟨1⟩ = some
      { owner := ⟨1⟩, name := "size", descriptor := "I" } := by decide +kernel
  have hm : r.program.methods.get? ⟨0⟩ = some
      { owner := ⟨1⟩, name := "c", params := [], returnType := "V", isVirtual := true,
        newName := some "d", renamed := true } := by
    decide +kernel
  have hn : r.program.methods.get? ⟨1⟩ = some
      { owner := ⟨1⟩, name := "c", params := ["I"], returnType := "V", isVirtual := true,
        newName := some "e", renamed := true } := by
    decide +kernel
  exact ⟨hbuilt, hdistinct, report, r, hrun, _, _, _, _, _, _, hs, ht, hf, hg, hm, hn,
    htypes _ _ _ _ hs ht (by decide) rfl, hfields _ _ _ _ hf hg (by decide) rfl,
    hmethods _ _ _ _ hm hn (by decide) rfl⟩

end Engine
end Renamer
