import Renamer.Proofs.Rerunning

/-!
# Stale names

A composed name is kept with the record of a type and answered from then on. The record is dropped
when the engine is reset, and made anew in a run with a preset for the type. Nothing else takes a
kept name back: neither a new alias of a type around the type nor a new alias of its package.

* `Engine.currentName` composes a name of what the tables say now.
* `Run.Unmoved` says of a call that it changes no current name of a type whose record it leaves.

Asking for names changes nothing between two calls. So all names are current, at every point of a
history, exactly if every call of the history leaves them so (`Run.Between.after`).
-/

namespace Renamer

/-! ## Current names -/

namespace Engine

variable {e e' : Engine} {p : Program}

/-- The full name of the type `t` in slot `ty`, composed of the alias that its package has now, or
of the package as it is where that was never seen, and of the chain of types. -/
def currentName (e : Engine) (p : Program) (ty : TypeId) (t : TypeSymbol) : String :=
  let package := (e.packageAlias t.package).getD t.package
  let name := e.chainOf (p.lineage ty)
  if package.isEmpty then name else package ++ packageSeparator ++ name

/-- Between two calls the package in the record of a type is the package that it declares. -/
theorem Rests.composed (h : e.Rests p) {ty : TypeId} {t : TypeSymbol}
    (ht : p.types.get? ty = some t) : e.composed p ty t = e.currentName p ty t := by
  have hpackage : e.packageName ty t = (e.packageAlias t.package).getD t.package := by
    unfold packageName
    cases hx : e.types.get? ty with
    | none => rfl
    | some x =>
      obtain ⟨s, hs, hxs⟩ := h.package hx
      rw [ht] at hs
      cases hs
      have halias := packageAlias_of_has (hxs ▸ h.houses hx)
      dsimp only
      rw [halias, hxs, Option.getD_some]
  rw [Engine.composed, hpackage, currentName]

/-- Asked for the name of a type without package, the engine answers the chain composed for it. -/
theorem Remembers.chainNameAt_eq (h : e.Remembers p) (hp : p.WellFormed) {ty : TypeId}
    {t : TypeSymbol} (ht : p.types.get? ty = some t) :
    (e.chainNameAt p ty).map Prod.fst = .ok (e.chainOf (p.lineage ty)) := by
  rw [← (h.chainName hp ht).1, chainNameAt_of_get? ht]
  rfl

/-- Records that are new, or from an engine whose kept names are right, have names that are right
where those of the old ones are composed as before. -/
theorem Remembers.of_old (h : e.Remembers p)
    (hall : ∀ {ty x}, e'.types.get? ty = some x → x.Blank ∨ e.types.get? ty = some x ∧
      e'.chainOf (p.lineage ty) = e.chainOf (p.lineage ty) ∧
      ∀ t, p.types.get? ty = some t → e'.composed p ty t = e.composed p ty t) :
    e'.Remembers p where
  chain := by
    intro ty x name hx hname
    obtain hblank | ⟨hold, hchain, -⟩ := hall hx
    · cases hblank.1.symm.trans hname
    · exact (h.chain hold hname).trans hchain.symm
  fullName := by
    intro ty x name t hx hname ht
    obtain hblank | ⟨hold, -, hcomposed⟩ := hall hx
    · cases hblank.2.symm.trans hname
    · exact (h.fullName hold hname ht).trans (hcomposed t ht).symm

/-- A later run, too, gives every type its title, where the names that it keeps are right at its
end: those of the types without preset. -/
theorem Rests.titled_bound (h : e.Rests p) (hp : p.WellFormed) (hright : e.Remembers p)
    (hold : ∀ {ty x}, e.types.get? ty = some x → p.presetOf e.presets (.type ty) = none →
      (e.bound p).unified.engine.chainOf (p.lineage ty) = e.chainOf (p.lineage ty) ∧
      ∀ t, p.types.get? ty = some t →
        (e.bound p).unified.engine.composed p ty t = e.composed p ty t) :
    ∃ done, (∀ {ty t}, (e.bound p).program.types.get? ty = some t → ty ∈ done) ∧
      Run.Titled p (Run.discover { engine := e, program := p.clearAliases }).engine done
        (e.bound p) := by
  have hrenews := Run.renews_discover h
  have halike := Run.alikeTypes_unified e p
  -- before any alias is bound, the names of old records are right and the others have none
  have hdecided : (Run.discover { engine := e, program := p.clearAliases }).engine.Remembers p := by
    refine hright.of_old fun {ty x} hx => (hrenews.blank_or_old hx).imp_right fun hboth => ?_
    obtain ⟨hchain, hcomposed⟩ := hold hboth.1 hboth.2
    refine ⟨hboth.1, ?_, fun t ht => ?_⟩
    · rw [← halike.chainOf, hchain]
    · rw [← halike.composed, hcomposed t ht]
  exact Run.Titled.apply ⟨hrenews.declared, ⟨rfl, fun _ => rfl⟩, hdecided,
    fun hu => hrenews.unnamed hu⟩ hp

/-- Where a complete record stays and its names are right before and after, they are the same. -/
theorem Remembers.composed_of_kept (h : e.Remembers p) (h' : e'.Remembers p) {ty : TypeId}
    {t : TypeSymbol} (ht : p.types.get? ty = some t) {x : TypeRecord}
    (hx : e.types.get? ty = some x) (hx' : e'.types.get? ty = some x) (hcomplete : x.Complete) :
    e'.chainOf (p.lineage ty) = e.chainOf (p.lineage ty) ∧
      e'.composed p ty t = e.composed p ty t := by
  obtain ⟨chain, hchain⟩ := Option.ne_none_iff_exists'.mp hcomplete.1
  obtain ⟨name, hname⟩ := Option.ne_none_iff_exists'.mp hcomplete.2
  exact ⟨(h'.chain hx' hchain).symm.trans (h.chain hx hchain),
    (h'.fullName hx' hname ht).symm.trans (h.fullName hx hname ht)⟩

end Engine

namespace Run

variable {p : Program} {r r' : Run}

/-- For every type the engine answers the names that it would compose now. -/
def NamesCurrent (r : Run) : Prop :=
  ∀ ty t, r.program.types.get? ty = some t →
    (r.engine.fullNameAt r.program ty).map Prod.fst =
      .ok (r.engine.currentName r.program ty t) ∧
    (r.engine.chainNameAt r.program ty).map Prod.fst =
      .ok (r.engine.chainOf (r.program.lineage ty))

/-- Between two calls all names are current exactly if the kept ones are right. -/
theorem namesCurrent_iff (hdeclared : r.program.declared = p.declared) (h : r.engine.Rests p)
    (hp : p.WellFormed) : r.NamesCurrent ↔ r.engine.Remembers p := by
  replace h := h.of_declared hdeclared.symm
  replace hp := hp.of_declared hdeclared.symm
  constructor
  · intro hall
    refine Engine.Remembers.of_declared ⟨fun {ty x name} hx hname => ?_,
      fun {ty x name t} hx hname ht => ?_⟩ hdeclared
    · obtain ⟨t, ht, -⟩ := h.package hx
      have hkept : r.engine.keptChain ty = some name := by
        rw [Engine.keptChain, hx, Option.bind_some, hname]
      have hanswer := (hall ty t ht).2
      rw [Engine.chainNameAt, hkept] at hanswer
      exact Except.ok.inj hanswer
    · have hkept : r.engine.keptFullName ty = some name := by
        rw [Engine.keptFullName, hx, Option.bind_some, hname]
      have hanswer := (hall ty t ht).1
      rw [Engine.fullNameAt, hkept, ← h.composed ht] at hanswer
      exact Except.ok.inj hanswer
  · intro hremembers ty t ht
    replace hremembers := hremembers.of_declared hdeclared.symm
    rw [← h.composed ht]
    exact ⟨hremembers.fullNameAt_eq hp ht, hremembers.chainNameAt_eq hp ht⟩

end Run

/-! ## One call -/

/-- A call that is about one program and its names: queries are about symbols that it has. -/
def Call.Concerns (p : Program) : Call → Prop
  | .reset | .loadPresets _ | .process => True
  | .ask query => query.InRange p
  | _ => False

/-- The call drops the record of the type `t`, or makes a new one. -/
def Call.Remakes (c : Call) (r : Run) (t : TypeSymbol) : Prop :=
  match c with
  | .reset => True
  | .process => r.engine.presets.types.get? t.fullName ≠ none
  | _ => False

namespace Run

variable {p : Program} {r r' : Run} {c : Call}

/-- The call `c` from `r` to `r'` changes no current name of a type whose record it leaves. -/
def Unmoved (r : Run) (c : Call) (r' : Run) : Prop :=
  ∀ ty t, r.program.types.get? ty = some t → r.engine.typeAlias ty ≠ none → ¬ c.Remakes r t →
    r'.engine.currentName r.program ty t = r.engine.currentName r.program ty t ∧
    r'.engine.chainOf (r.program.lineage ty) = r.engine.chainOf (r.program.lineage ty)

/-- Names of old records are composed as before where the call leaves them unmoved. -/
theorem Unmoved.old (h : r.Unmoved c r') (hr : r.engine.Rests r.program)
    (hr' : r'.engine.Rests r.program) {ty : TypeId} {x : TypeRecord}
    (hx : r.engine.types.get? ty = some x)
    (hstays : ∀ t, r.program.types.get? ty = some t → ¬ c.Remakes r t) :
    r'.engine.chainOf (r.program.lineage ty) = r.engine.chainOf (r.program.lineage ty) ∧
      ∀ t, r.program.types.get? ty = some t →
        r'.engine.composed r.program ty t = r.engine.composed r.program ty t := by
  have halias : r.engine.typeAlias ty ≠ none := by
    rw [Engine.typeAlias, hx]
    exact Option.some_ne_none _
  obtain ⟨t, ht, -⟩ := hr.package hx
  refine ⟨(h ty t ht halias (hstays t ht)).2, fun t' ht' => ?_⟩
  rw [hr.composed ht', hr'.composed ht']
  exact (h ty t' ht' halias (hstays t' ht')).1

/-- What holds between two calls that are about the program `p`. -/
structure Between (p : Program) (r : Run) : Prop where
  declared : r.program.declared = p.declared
  rests : r.engine.Rests p

theorem Between.own (h : Between p r) : r.engine.Rests r.program :=
  h.rests.of_declared h.declared.symm

/-- The call succeeds, and if names were current they are so afterwards exactly if the call leaves
them unmoved. -/
def Goes (p : Program) (r : Run) (c : Call) : Prop :=
  ∃ r', r.call c = .ok r' ∧ Between p r' ∧ (r.NamesCurrent → (r'.NamesCurrent ↔ r.Unmoved c r'))

/-- It is enough that a call keeps the records that it does not make anew, and that the names which
it leaves unmoved stay right. -/
theorem Between.goes (h : Between p r) (hp : p.WellFormed) (hcall : r.call c = .ok r')
    (hdeclared : r'.program.declared = r.program.declared) (hr' : r'.engine.Rests r.program)
    (hkept : ∀ {ty x t}, r.engine.types.get? ty = some x → r.program.types.get? ty = some t →
      ¬ c.Remakes r t → r'.engine.types.get? ty = some x)
    (hstay : r.Unmoved c r' → r.engine.Remembers r.program → r'.engine.Remembers r.program) :
    Goes p r c := by
  have hwell := hp.of_declared h.declared.symm
  refine ⟨r', hcall, ⟨hdeclared.trans h.declared, hr'.of_declared h.declared⟩, fun hcurrent => ?_⟩
  have hright := (namesCurrent_iff rfl h.own hwell).mp hcurrent
  rw [namesCurrent_iff hdeclared hr' hwell]
  refine ⟨fun hright' ty t ht halias hstays => ?_, fun hunmoved => hstay hunmoved hright⟩
  obtain ⟨x, hx⟩ : ∃ x, r.engine.types.get? ty = some x := by
    cases hx : r.engine.types.get? ty with
    | some x => exact ⟨x, rfl⟩
    | none => exact absurd (by rw [Engine.typeAlias, hx]; rfl) halias
  -- both times the names of the record that stays are those that would be composed
  obtain ⟨hchain, hcomposed⟩ :=
    hright.composed_of_kept hright' ht hx (hkept hx ht hstays) (h.own.complete hx)
  rw [h.own.composed ht, hr'.composed ht] at hcomposed
  exact ⟨hcomposed, hchain⟩

theorem Between.goes_reset (h : Between p r) (hp : p.WellFormed) : Goes p r .reset := by
  have hunused := r.engine.unused_reset
  have hcall : r.call .reset = .ok { r with engine := r.engine.reset } := rfl
  refine h.goes hp hcall rfl (hunused.rests _)
    (fun _ _ hstays => absurd trivial hstays) fun _ hright => hright.of_old fun {ty x} hx => ?_
  have hnone : r.engine.reset.types.get? ty = none := rfl
  cases hnone.symm.trans hx

theorem Between.goes_loadPresets (h : Between p r) (hp : p.WellFormed) (presets : Presets) :
    Goes p r (.loadPresets presets) := by
  have htypes := (r.engine.loadPresets_spares presets).1
  have hr' := h.own.loadPresets presets
  have hcall : r.call (.loadPresets presets) =
      .ok { r with engine := r.engine.loadPresets presets } := rfl
  refine h.goes hp hcall rfl hr'
    (fun hx _ _ => htypes ▸ hx) fun hunmoved hright => hright.of_old fun {ty x} hx => ?_
  replace hx : r.engine.types.get? ty = some x := htypes ▸ hx
  exact Or.inr ⟨hx, hunmoved.old h.own hr' hx fun _ _ => id⟩

/-- Between two calls an answer changes nothing, all names being kept. -/
theorem Between.call_ask (h : Between p r) {query : Query} (hquery : query.InRange p) :
    r.call (.ask query) = .ok r := by
  have htype : ∀ {ty : TypeId}, ty.index < p.types.size →
      ∃ t, r.program.types.get? ty = some t := by
    intro ty hty
    obtain ⟨t, ht⟩ := Arena.exists_get?_of_lt hty
    obtain ⟨u, hu, -⟩ := Program.type_of_declared h.declared.symm ht
    exact ⟨u, hu⟩
  cases query with
  | fullName ty =>
    obtain ⟨t, ht⟩ := htype hquery
    rw [call, Engine.ask, Engine.fullNameAt_of_get? ht]
    have hsame := Engine.fullName_of_complete h.rests.complete r.program ty t
    exact congrArg (fun e => Except.ok { r with engine := e }) hsame
  | chainName ty =>
    obtain ⟨t, ht⟩ := htype hquery
    rw [call, Engine.ask, Engine.chainNameAt_of_get? ht]
    have hsame := Engine.chainName_of_complete h.rests.complete (r.program.lineage ty)
    exact congrArg (fun e => Except.ok { r with engine := e }) hsame
  | typeAlias ty => rfl
  | fieldAlias id => rfl
  | methodAlias id => rfl
  | packageAlias text => rfl

theorem Between.goes_ask (h : Between p r) (hp : p.WellFormed) {query : Query}
    (hquery : query.InRange p) : Goes p r (.ask query) :=
  h.goes hp (h.call_ask hquery) rfl h.own (fun hx _ _ => hx) fun _ hright => hright

/-- A run keeps the records of types without preset, and composes the names of the others. -/
theorem Between.goes_process (h : Between p r) (hp : p.WellFormed) : Goes p r .process := by
  have hr := h.own
  have hwell := hp.of_declared h.declared.symm
  obtain ⟨report, hrun⟩ := hr.process_eq_ok hwell
  have hcall : r.call .process = .ok (r.engine.bound r.program).unified := by
    rw [call, hrun]
    rfl
  have hr' := hr.unified
  refine h.goes hp hcall (hr.grouped hwell).declared_unified hr' (fun {ty x t} hx ht hstays => ?_)
    fun hunmoved hright => ?_
  · have hnone : r.program.presetOf r.engine.presets (.type ty) = none := by
      rw [Program.ShowsType.presetOf ⟨t, ht, rfl⟩]
      exact not_not.mp hstays
    rw [knownTypes_unified]
    exact (completes_bound hr).kept ((renews_discover hr).old hx fun _ => hnone) (hr.complete hx)
  · obtain ⟨done, -, htitled⟩ := hr.titled_bound hwell hright fun {ty x} hx hnone =>
      hunmoved.old hr hr' hx fun t ht hremakes => by
        rw [Program.ShowsType.presetOf ⟨t, ht, rfl⟩] at hnone
        exact hremakes hnone
    exact remembers_unified htitled.remembers

/-- Every call that is about one program goes. -/
theorem Between.goes_of_concerns (h : Between p r) (hp : p.WellFormed) (hc : c.Concerns p) :
    Goes p r c := by
  cases c with
  | reset => exact h.goes_reset hp
  | loadPresets presets => exact h.goes_loadPresets hp presets
  | process => exact h.goes_process hp
  | ask query => exact h.goes_ask hp hc
  | use q => exact hc.elim
  | execute σ store => exact hc.elim
  | exportPresets => exact hc.elim

end Run

/-! ## Histories -/

namespace Run

variable {p : Program} {r : Run} {calls : List Call}

/-- Names are current at every point of the history. -/
def AlwaysCurrent (r : Run) (calls : List Call) : Prop :=
  ∀ l, l <+: calls → ∀ r', r.after l = .ok r' → r'.NamesCurrent

/-- No call of the history moves a name. -/
def NeverMoved (r : Run) (calls : List Call) : Prop :=
  ∀ l c, l ++ [c] <+: calls → ∀ r' r'', r.after l = .ok r' → r'.call c = .ok r'' →
    r'.Unmoved c r''

theorem after_cons (r : Run) (c : Call) (calls : List Call) :
    r.after (c :: calls) = r.call c >>= fun r' => r'.after calls := rfl

theorem alwaysCurrent_cons {c : Call} {r' : Run} (hcall : r.call c = .ok r') :
    r.AlwaysCurrent (c :: calls) ↔ r.NamesCurrent ∧ r'.AlwaysCurrent calls := by
  have hafter : ∀ l, r.after (c :: l) = r'.after l := by
    intro l
    rw [after_cons, hcall]
    rfl
  constructor
  · intro hall
    refine ⟨hall [] List.nil_prefix r rfl, fun l hl r'' hr'' => ?_⟩
    exact hall (c :: l) (List.cons_prefix_cons.mpr ⟨rfl, hl⟩) r'' ((hafter l).trans hr'')
  · rintro ⟨hstart, hrest⟩ l hl r'' hr''
    obtain rfl | ⟨l', rfl, hl'⟩ := List.prefix_cons_iff.mp hl
    · cases hr''
      exact hstart
    · exact hrest l' hl' r'' ((hafter l').symm.trans hr'')

theorem neverMoved_cons {c : Call} {r' : Run} (hcall : r.call c = .ok r') :
    r.NeverMoved (c :: calls) ↔ r.Unmoved c r' ∧ r'.NeverMoved calls := by
  have hafter : ∀ l, r.after (c :: l) = r'.after l := by
    intro l
    rw [after_cons, hcall]
    rfl
  constructor
  · intro hall
    refine ⟨hall [] c (List.cons_prefix_cons.mpr ⟨rfl, List.nil_prefix⟩) r r' rfl hcall,
      fun l d hl s s' hs hs' => ?_⟩
    exact hall (c :: l) d (List.cons_prefix_cons.mpr ⟨rfl, hl⟩) s s' ((hafter l).trans hs) hs'
  · rintro ⟨hstart, hrest⟩ l d hl s s' hs hs'
    cases l with
    | nil =>
      obtain ⟨rfl, -⟩ := List.cons_prefix_cons.mp hl
      cases hs
      rw [hcall] at hs'
      cases hs'
      exact hstart
    | cons b l =>
      obtain ⟨rfl, hl'⟩ := List.cons_prefix_cons.mp hl
      exact hrest l d hl' s s' ((hafter l).symm.trans hs) hs'

/-- A history about one program succeeds. Where names were current at first, they are always current
exactly if no call moves one. -/
theorem Between.after (h : Between p r) (hp : p.WellFormed) (hcalls : ∀ c ∈ calls, c.Concerns p) :
    ∃ r', r.after calls = .ok r' ∧ Between p r' ∧
      (r.NamesCurrent → (r.AlwaysCurrent calls ↔ r.NeverMoved calls)) := by
  induction calls generalizing r with
  | nil =>
    refine ⟨r, rfl, h, fun hcurrent => ⟨fun _ l c hl => ?_, fun _ l hl r' hr' => ?_⟩⟩
    · cases List.append_eq_nil_iff.mp (List.prefix_nil.mp hl) |>.2
    · rw [List.prefix_nil.mp hl] at hr'
      cases hr'
      exact hcurrent
  | cons c calls ih =>
    obtain ⟨hc, hcalls⟩ := List.forall_mem_cons.mp hcalls
    obtain ⟨r', hcall, hbetween, hstep⟩ := h.goes_of_concerns hp hc
    obtain ⟨r'', hafter, hend, hrest⟩ := ih hbetween hcalls
    refine ⟨r'', ?_, hend, fun hcurrent => ?_⟩
    · rw [after_cons, hcall]
      exact hafter
    · rw [alwaysCurrent_cons hcall, neverMoved_cons hcall]
      constructor
      · rintro ⟨-, hall⟩
        have hcurrent' : r'.NamesCurrent := hall [] List.nil_prefix r' rfl
        exact ⟨(hstep hcurrent).mp hcurrent', (hrest hcurrent').mp hall⟩
      · rintro ⟨hunmoved, hnever⟩
        have hcurrent' := (hstep hcurrent).mpr hunmoved
        exact ⟨hcurrent, (hrest hcurrent').mpr hnever⟩

end Run

namespace Program

/-- A type and a type nested in it, both with names that are too short. -/
def shorthand : Program where
  types := ⟨#[{ package := "", shortName := "ab", fullName := "ab" },
    { package := "", shortName := "cd", fullName := "ab$cd", enclosing := some ⟨0⟩ }]⟩

theorem built_shorthand : shorthand.Built := by
  have houter := Built.empty.addType { shortName := "ab" }
  exact houter.addNestedType (rfl : Program.addNestedType _ ⟨0⟩ { shortName := "cd" } = _)

/-- The program is renamed, an alias for the outer type is loaded, and it is renamed again. -/
def shorthandCalls : List Call :=
  [.process, .loadPresets { types := Table.ofList [("ab", "Widget")] }, .process]

theorem concerns_shorthandCalls : ∀ c ∈ shorthandCalls, c.Concerns shorthand := by
  simp [shorthandCalls, Call.Concerns]

/-- At the end the nested type is called by the old alias of the outer one. -/
theorem not_namesCurrent_shorthandCalls {r : Run}
    (h : Run.after { engine := { policy := {} }, program := shorthand } shorthandCalls = .ok r) :
    ¬ r.NamesCurrent := by
  have hnames : (Run.after { engine := { policy := {} }, program := shorthand } shorthandCalls
      ).toOption.map (fun r => (r.program.types.get? ⟨1⟩).map fun t =>
        (((r.engine.fullNameAt r.program ⟨1⟩).map Prod.fst).toOption,
          r.engine.currentName r.program ⟨1⟩ t)) = some (some (some "a$b", "Widget$b")) := by
    decide +kernel
  rw [h] at hnames
  obtain ⟨t, ht, heq⟩ := Option.map_eq_some_iff.mp (Option.some.inj hnames)
  intro hcurrent
  obtain ⟨hkept, hcomposed⟩ := Prod.mk.inj heq
  rw [(hcurrent ⟨1⟩ t ht).1, hcomposed] at hkept
  exact absurd (Option.some.inj hkept) (by decide)

end Program

namespace Engine

/-- Whatever is called on a new engine for one program, asking for a name never changes a later
answer. The names are always current, that is composed of the aliases that there are, exactly if no
call moves one: none gives another name to a type and leaves its record. -/
theorem names_after (P : Policy) (p : Program) (hp : p.Built) (calls : List Call)
    (hcalls : ∀ c ∈ calls, c.Concerns p) :
    let start : Run := { engine := { policy := P }, program := p }
    ∃ r, start.after calls = .ok r ∧
      (∀ query : Query, query.InRange p → r.call (.ask query) = .ok r) ∧
      (start.AlwaysCurrent calls ↔ start.NeverMoved calls) := by
  intro start
  have hwell := hp.wellFormed
  have hunused : start.engine.Unused := Engine.unused_reset { policy := P }
  have hbetween : Run.Between p start := ⟨rfl, hunused.rests p⟩
  have hcurrent : start.NamesCurrent := by
    refine (Run.namesCurrent_iff rfl hbetween.rests hwell).mpr ⟨fun {ty x name} hx _ => ?_,
      fun {ty x name t} hx _ _ => ?_⟩
    · cases hx
    · cases hx
  obtain ⟨r, hafter, hend, hiff⟩ := hbetween.after hwell hcalls
  exact ⟨r, hafter, fun query hquery => hend.call_ask hquery, hiff hcurrent⟩

/-- In the second run the outer type gets a new record, and the nested one keeps its names. So the
name that was kept for it is not the one that would be composed. -/
theorem names_after_widget : Program.shorthand.Built ∧
    (∀ c ∈ Program.shorthandCalls, c.Concerns .shorthand) ∧
    ∃ r, Run.after { engine := { policy := {} }, program := .shorthand } Program.shorthandCalls =
        .ok r ∧ r.call (.ask (.fullName ⟨1⟩)) = .ok r ∧
      ∃ l c r' r'', l ++ [c] <+: Program.shorthandCalls ∧
        Run.after { engine := { policy := {} }, program := .shorthand } l = .ok r' ∧
        r'.call c = .ok r'' ∧ ¬ r'.Unmoved c r'' := by
  have hbuilt := Program.built_shorthand
  have hconcerns := Program.concerns_shorthandCalls
  obtain ⟨r, hafter, hasks, hiff⟩ := names_after {} .shorthand hbuilt _ hconcerns
  refine ⟨hbuilt, hconcerns, r, hafter, hasks (.fullName ⟨1⟩) (by decide), ?_⟩
  by_contra hnone
  have hnever : Run.NeverMoved { engine := { policy := {} }, program := .shorthand }
      Program.shorthandCalls := by
    intro l c hl r' r'' hr' hr''
    by_contra hmoved
    exact hnone ⟨l, c, r', r'', hl, hr', hr'', hmoved⟩
  have hcurrent := hiff.mpr hnever _ (List.prefix_refl _) r hafter
  exact Program.not_namesCurrent_shorthandCalls hafter hcurrent

/-- A full name can be composed of aliases that there are no more: the nested type is still called
by the old alias of the type around it. -/
theorem names_after_stale : ¬ ∀ (P : Policy) (p : Program), p.Built → ∀ calls : List Call,
    (∀ c ∈ calls, c.Concerns p) →
      ∃ r, Run.after { engine := { policy := P }, program := p } calls = .ok r ∧
        r.NamesCurrent := by
  intro hall
  obtain ⟨r, hafter, hcurrent⟩ := hall {} .shorthand Program.built_shorthand
    Program.shorthandCalls Program.concerns_shorthandCalls
  exact Program.not_namesCurrent_shorthandCalls hafter hcurrent

end Engine
end Renamer
