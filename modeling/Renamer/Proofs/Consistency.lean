import Renamer.Proofs.Clashes
import Renamer.Proofs.Tables

/-!
# Names under consistent presets

Where presets agree with one another and with the declared names, two symbols of a scope end with
one name only where one of them has drawn the name of the other one's preset, because it was decided
before (`Program.Clash`). Unification adds no clash to those of aliases: in the turn of a group a
name is taken by then, or it has been of the method all along.
-/

namespace Renamer

namespace Run

variable {p : Program} {presets : Presets} {done : List SymbolId} {r : Run}

/-! ## Types and fields -/

/-- A last part that holds a digit is the declared one. -/
theorem Allotted.lastPart_eq_of_hasDigit (h : Allotted p presets done r) {ty : TypeId}
    {t : TypeSymbol} (hdigit : Ident.hasDigit (r.engine.lastPart ty t) = true) :
    r.engine.lastPart ty t = t.shortName := by
  unfold Engine.lastPart at hdigit ⊢
  cases hname : r.engine.typeAlias ty with
  | none => rfl
  | some name =>
    rw [hname, Option.getD_some, h.hasDigit hname] at hdigit
    cases hdigit

theorem displayName_bound_clash (hp : p.WellFormed) (hc : p.Consistent presets) {e : Engine}
    (he : e.Unused) (hbound : Allotted p presets p.walk (e.bound p))
    (hdiscover : Allotted p presets p.walk
      (Run.discover { engine := e, program := p.clearAliases }))
    {i j : TypeId} {s t : TypeSymbol} (hs : (e.bound p).program.types.get? i = some s)
    (ht : (e.bound p).program.types.get? j = some t) (hij : i ≠ j) (hscope : s.scope = t.scope)
    (hname : s.displayName = t.displayName) :
    p.Clash presets (.type i) (.type j) (s.scope, (e.bound p).unified.engine.lastPart i s) := by
  have halike := alikeTypes_unified e p
  rcases Program.type_of_declared hbound.declared hs with ⟨s', hs', hss⟩
  rcases Program.type_of_declared hbound.declared ht with ⟨t', ht', htt⟩
  have hlast : (e.bound p).unified.engine.lastPart i s =
      (Run.discover { engine := e, program := p.clearAliases }).engine.lastPart i s' := by
    rw [Engine.lastPart, Engine.lastPart, halike.typeAlias,
      TypeSymbol.agree hss TypeSymbol.shortName fun _ => rfl]
  rw [hlast]
  rw [← TypeSymbol.agree hss TypeSymbol.scope fun _ => rfl] at hscope ⊢
  rw [← TypeSymbol.agree htt TypeSymbol.scope fun _ => rfl] at hscope
  rcases displayName_bound_eq hp he hs' hss ht' htt hs ht hscope rfl with
    ⟨outer, front, hsname, htname⟩
  rw [hsname, htname] at hname
  generalize Run.discover { engine := e, program := p.clearAliases } = r at hdiscover hname ⊢
  have hparts : r.engine.lastPart j t' = r.engine.lastPart i s' := by
    by_contra hne
    apply Ident.shown_ne (Ne.symm hne) _ hdiscover.lastPart_eq_of_hasDigit
      hdiscover.lastPart_eq_of_hasDigit hname
    exact (hc.distinctNames hp).types hs' ht' hij hscope
  have htype := occupies_type (r := r) ht'
  rw [hparts, ← hscope] at htype
  exact hdiscover.clash hp hc (fun heq => hij (SymbolId.type.inj heq)) (occupies_type hs') htype

theorem Allotted.finalName_clash (h : Allotted p presets done r) (hp : p.WellFormed)
    (hc : p.Consistent presets) {i j : FieldId} {f g : FieldSymbol}
    (hf : r.program.fields.get? i = some f) (hg : r.program.fields.get? j = some g) (hij : i ≠ j)
    (howner : f.owner = g.owner) (hname : f.finalName = g.finalName) :
    p.Clash presets (.field i) (.field j) (f.scope, f.finalName) := by
  have hfield := h.occupies_field hg
  rw [FieldSymbol.scope, ← howner, ← hname] at hfield
  exact h.clash hp hc (fun heq => hij (SymbolId.field.inj heq)) (h.occupies_field hf) hfield

/-! ## Methods -/

/-- What a method ends with it had when aliases were bound, or it was free in the turn of its
group. -/
theorem Allotted.cases_finalKey (h : Allotted p presets done r) (hg : Grouped p r)
    (hd : p.DistinctNames) {i : MethodId} {m : MethodSymbol}
    (hm : r.unified.program.methods.get? i = some m) :
    r.Occupies p (.method i) (m.scope, m.finalKey) ∨
      ∃ before ids chosen name, TurnOf r i before ids chosen name ∧
        (m.scope, m.finalKey) ∉ (r.unification.turns before).taken.pairs := by
  rcases hg.cases_unified hm with hm' | ⟨before, ids, chosen, name, m₀, hturn, hname, hm₀, hdecl⟩
  · exact Or.inl (h.occupies_method hm')
  · have hscope : m₀.scope = m.scope := MethodSymbol.agree hdecl MethodSymbol.scope fun _ => rfl
    have hkeyAs : m₀.keyAs name = m.keyAs name :=
      MethodSymbol.agree hdecl (fun m => m.keyAs name) fun _ => rfl
    rw [MethodSymbol.finalKey_of_renamed hname, ← hscope, ← hkeyAs]
    have hfits := hturn.named.fits
    rw [hturn.symbols hg] at hfits
    have hmember := TakenNames.groupFits_iff.mp hfits m₀
      (Program.mem_symbols.mpr ⟨i, hturn.mem, hm₀⟩)
    rcases TakenNames.memberFits_iff.mp hmember with hfree | ⟨o, ho, howner, hwhy⟩
    · exact Or.inr ⟨before, ids, chosen, name, hturn, hfree⟩
    · -- of its group no other method stands in the type
      rcases Program.mem_symbols.mp ho with ⟨k, hk, hok⟩
      have hki : k = i :=
        hd.distinctKeys.eq_of_key_eq hg.declared hok hm₀ howner (hturn.key_eq hg hk hm₀ hok)
      rw [hki, hm₀] at hok
      cases hok
      refine Or.inl ?_
      rcases hwhy with halias | hkey
      · have hoccupies := h.occupies_method hm₀
        rwa [MethodSymbol.finalKey_of_renamed halias] at hoccupies
      · have hshown : p.ShowsMethod i m₀ := Program.method_of_declared hg.declared hm₀
        rw [← hkey]
        exact Or.inl ⟨m₀.name, hshown.nameOf, hshown.spot _⟩

/-- Of two places in a list one is before the other, or they are the same. -/
theorem append_cons_cases {α : Type} {l l' t t' : List α} {a b : α}
    (h : l ++ a :: t = l' ++ b :: t') :
    l = l' ∧ a = b ∨ (∃ mid, l' = l ++ a :: mid) ∨ ∃ mid, l = l' ++ b :: mid := by
  rcases List.append_eq_append_iff.mp h with ⟨mid, hl, ht⟩ | ⟨mid, hl, ht⟩
  · cases mid with
    | nil => exact Or.inl ⟨by simpa using hl.symm, (List.cons.inj ht).1⟩
    | cons c mid =>
      rw [(List.cons.inj ht).1]
      exact Or.inr (Or.inl ⟨mid, hl⟩)
  · cases mid with
    | nil => exact Or.inl ⟨by simpa using hl, (List.cons.inj ht).1.symm⟩
    | cons c mid =>
      rw [(List.cons.inj ht).1]
      exact Or.inr (Or.inr ⟨mid, hl⟩)

/-- In later turns what a method was called in its turn is taken. -/
theorem TurnOf.taken_later (hg : Grouped p r) {i j : MethodId}
    {before later : List (GroupId × List MethodId)} {ids ids' : List MethodId}
    {chosen chosen' name name' : String} (h : TurnOf r i before ids chosen name)
    (h' : TurnOf r j later ids' chosen' name') {id : GroupId}
    {mid : List (GroupId × List MethodId)} (hlater : later = before ++ (id, ids) :: mid)
    {m : MethodSymbol} (hm : r.unified.program.methods.get? i = some m) :
    (m.scope, m.finalKey) ∈ (r.unification.turns later).taken.pairs := by
  rcases Program.method_of_declared (hg.declared_unified.trans hg.declared.symm) hm with
    ⟨m₀, hm₀, hdecl⟩
  rw [MethodSymbol.finalKey_of_renamed (h.newName hg hm),
    ← MethodSymbol.agree hdecl MethodSymbol.scope fun _ => rfl,
    ← MethodSymbol.agree hdecl (fun m => m.keyAs name) fun _ => rfl]
  -- it is taken right after the turn
  have hturn : (m₀.scope, m₀.keyAs name) ∈
      ((r.unification.turns before).turn ids).taken.pairs := by
    refine (h.named.taken _).mpr (Or.inr ⟨m₀, ?_, rfl⟩)
    rw [h.symbols hg]
    exact Program.mem_symbols.mpr ⟨i, h.mem, hm₀⟩
  have hpresent : ∀ g ∈ later, Unification.Present r.unification.program g.2 := by
    rcases h'.live with ⟨id', after, -, hlive⟩
    intro g hgl
    refine hg.present g ?_
    rw [hlive]
    exact List.mem_append_left _ hgl
  rw [hlater, List.append_cons] at hpresent ⊢
  have hdeclared := Unification.declared_turns (u := r.unification)
    fun g hgb => hpresent g (List.mem_append_left mid hgb)
  rw [Unification.turns, List.foldl_append]
  refine Unification.taken_turns (fun g hgm => ?_) ?_
  · exact (hpresent g (List.mem_append_right _ hgm)).of_declared hdeclared.symm
  · rw [← Unification.turns, Unification.turns_append_singleton]
    exact hturn

/-- Methods of one type that end with one key clashed when aliases were decided. -/
theorem Allotted.finalKey_clash (h : Allotted p presets done r) (hp : p.WellFormed)
    (hc : p.Consistent presets) (hg : Grouped p r) {i j : MethodId} {m n : MethodSymbol}
    (hm : r.unified.program.methods.get? i = some m)
    (hn : r.unified.program.methods.get? j = some n) (hij : i ≠ j) (howner : m.owner = n.owner)
    (hkeys : m.finalKey = n.finalKey) :
    p.Clash presets (.method i) (.method j) (m.scope, m.finalKey) := by
  have hd := hc.distinctNames hp
  have hspot : (n.scope, n.finalKey) = (m.scope, m.finalKey) := by
    rw [MethodSymbol.scope, MethodSymbol.scope, howner, hkeys]
  have hj := h.cases_finalKey hg hd hn
  rw [hspot] at hj
  rcases h.cases_finalKey hg hd hm with hi | ⟨before, ids, chosen, name, hturn, hfree⟩
  · rcases hj with hj | ⟨before', ids', chosen', name', hturn', hfree'⟩
    · exact h.clash hp hc (fun heq => hij (SymbolId.method.inj heq)) hi hj
    · exact absurd (hturn'.taken hg (h.taken_of_occupies hi)) hfree'
  · rcases hj with hj | ⟨before', ids', chosen', name', hturn', hfree'⟩
    · exact absurd (hturn.taken hg (h.taken_of_occupies hj)) hfree
    · -- the later of two turns finds the key taken
      rcases hturn.live with ⟨id, after, hids, hlive⟩
      rcases hturn'.live with ⟨id', after', hids', hlive'⟩
      rcases append_cons_cases (hlive.symm.trans hlive') with ⟨-, hsame⟩ | ⟨mid, hmid⟩ | ⟨mid, hmid⟩
      · cases hsame
        have hkey := hg.key_eq_unified
          (Or.inr ⟨id, hids ▸ hturn.mem, hids ▸ hturn'.mem⟩) hm hn
        exact absurd (hd.distinctKeys.eq_of_key_eq hg.declared_unified hm hn howner hkey.symm) hij
      · exact absurd (hturn.taken_later hg hturn' hmid hm) hfree'
      · exact absurd (hspot ▸ hturn'.taken_later hg hturn hmid hn) hfree

end Run

/-! ## Final names -/

namespace Presets

/-- All presets of types and members may be written as they are. -/
def Usable (presets : Presets) (policy : Policy) : Prop :=
  ∀ kind ∈ [Section.types, .fields, .methods], ∀ e ∈ (presets.table kind).toList,
    policy.accepts e.2 = true

instance (presets : Presets) (policy : Policy) : Decidable (presets.Usable policy) :=
  inferInstanceAs (Decidable (∀ kind ∈ [Section.types, .fields, .methods],
    ∀ e ∈ (presets.table kind).toList, policy.accepts e.2 = true))

theorem Usable.accepts {presets : Presets} {policy : Policy} (h : presets.Usable policy)
    {p : Program} {s : SymbolId} {name : String} (hname : p.presetOf presets s = some name) :
    policy.accepts name = true := by
  rcases Option.bind_eq_some_iff.mp hname with ⟨identity, -, hget⟩
  refine h s.kind ?_ (identity, name) (Table.get?_eq_some_iff.mp hget)
  cases s <;> simp [SymbolId.kind]

/-- A preset for the field `size` of a type, which is the first word that fits the field `a`. -/
def late : Presets where
  fields := { toList := [("game.Main.size:I", "b")], nodup_keys := by decide }

end Presets

namespace Program

/-- A type with three fields, of which the one with a preset is the second. -/
def trio : Program where
  types := ⟨#[{ package := "game", shortName := "Main", fullName := "game.Main" }]⟩
  fields := ⟨#[
    { owner := ⟨0⟩, name := "a", descriptor := "I" },
    { owner := ⟨0⟩, name := "size", descriptor := "I" },
    { owner := ⟨0⟩, name := "c", descriptor := "I" }]⟩

theorem built_trio : trio.Built := by
  have hmain := Built.empty.addType { package := "game", shortName := "Main" }
  have ha := hmain.pushField ⟨0⟩ "a" "I" (by decide)
  have hsize := ha.pushField ⟨0⟩ "size" "I" (by decide)
  exact hsize.pushField ⟨0⟩ "c" "I" (by decide)

end Program

namespace Engine

/-- Where presets may be written as they are, and agree with one another and with the declared
names, two symbols of a scope end with one name only where one of them was decided without preset
before the other one, whose preset that name is. -/
theorem names_process_presets (p : Program) (hp : p.Built) (e : Engine) (presets : Presets)
    (husable : presets.Usable e.policy) (hc : p.Consistent presets) :
    ∃ report r, (e.reset.loadPresets presets).process p = .ok (report, r) ∧
      (∀ i j s t, r.program.types.get? i = some s → r.program.types.get? j = some t → i ≠ j →
        s.scope = t.scope → s.displayName = t.displayName →
        p.Clash presets (.type i) (.type j) (s.scope, r.engine.lastPart i s)) ∧
      (∀ i j f g, r.program.fields.get? i = some f → r.program.fields.get? j = some g → i ≠ j →
        f.owner = g.owner → f.finalName = g.finalName →
        p.Clash presets (.field i) (.field j) (f.scope, f.finalName)) ∧
      ∀ i j m n, r.program.methods.get? i = some m → r.program.methods.get? j = some n → i ≠ j →
        m.owner = n.owner → m.finalKey = n.finalKey →
        p.Clash presets (.method i) (.method j) (m.scope, m.finalKey) := by
  have he := e.unused_reset.loadPresets presets
  have hloaded := Program.presetOf_loadPresets (p := p) e.reset presets
  have haccepts : ∀ {s name}, p.presetOf presets s = some name →
      (e.reset.loadPresets presets).policy.accepts name = true := by
    intro s name hname
    rw [policy_loadPresets]
    exact husable.accepts hname
  have hdiscover := Run.allotted_discover hp.wellFormed hc he hloaded haccepts
  have hbound := Run.allotted_bound hp.wellFormed hc he hloaded haccepts
  have hgrouped := grouped_bound hp.wellFormed he.groups
  rcases process_eq_ok hp.wellFormed he.groups with ⟨report, hrun⟩
  refine ⟨report, _, hrun, ?_, ?_, ?_⟩
  · intro i j s t hs ht
    rw [hgrouped.types_unified] at hs ht
    exact Run.displayName_bound_clash hp.wellFormed hc he hbound hdiscover hs ht
  · intro i j f g hf hg
    rw [hgrouped.fields_unified] at hf hg
    exact hbound.finalName_clash hp.wellFormed hc hf hg
  · intro i j m n hm hn
    exact hbound.finalKey_clash hp.wellFormed hc hgrouped hm hn

/-- The second and the third field end apart. The first one has drawn the name that is the preset
of the second. -/
theorem names_process_trio : Program.trio.Built ∧ Presets.late.Usable ({} : Engine).policy ∧
    Program.trio.Consistent Presets.late ∧
    ∃ report r, (({} : Engine).reset.loadPresets Presets.late).process Program.trio =
        .ok (report, r) ∧
      ∃ f g h, r.program.fields.get? ⟨0⟩ = some f ∧ r.program.fields.get? ⟨1⟩ = some g ∧
        r.program.fields.get? ⟨2⟩ = some h ∧ g.finalName ≠ h.finalName ∧
        Program.trio.Clash Presets.late (.field ⟨0⟩) (.field ⟨1⟩) (f.scope, f.finalName) := by
  have hbuilt := Program.built_trio
  have husable : Presets.late.Usable ({} : Engine).policy := by decide +kernel
  have hconsistent : Program.trio.Consistent Presets.late := by decide +kernel
  rcases process_eq_ok (e := ({} : Engine).reset.loadPresets Presets.late) hbuilt.wellFormed rfl
    with ⟨report, hrun⟩
  rcases names_process_presets Program.trio hbuilt {} Presets.late husable hconsistent with
    ⟨report', r, hrun', -, hfields, -⟩
  rw [hrun] at hrun'
  cases hrun'
  let r := ((({} : Engine).reset.loadPresets Presets.late).bound Program.trio).unified
  have hf : r.program.fields.get? ⟨0⟩ = some
      { owner := ⟨0⟩, name := "a", descriptor := "I", newName := some "b" } := by decide +kernel
  have hg : r.program.fields.get? ⟨1⟩ = some
      { owner := ⟨0⟩, name := "size", descriptor := "I", newName := some "b" } := by
    decide +kernel
  have hh : r.program.fields.get? ⟨2⟩ = some
      { owner := ⟨0⟩, name := "c", descriptor := "I", newName := some "d" } := by decide +kernel
  refine ⟨hbuilt, husable, hconsistent, report, r, hrun, _, _, _, hf, hg, hh, fun heq => ?_,
    hfields _ _ _ _ hf hg (by decide) rfl rfl⟩
  rcases hfields _ _ _ _ hg hh (by decide) rfl heq with hforestalls | hforestalls
  · have hnone := hforestalls.none
    rw [show Program.trio.presetOf Presets.late (.field ⟨1⟩) = some "b" by decide +kernel] at hnone
    cases hnone
  · exact absurd (hforestalls.precedes rfl) (by decide)

/-- With presets that agree with one another and with the declared names, two fields of a type end
with one name. -/
theorem names_process_late : Program.trio.Built ∧ Presets.late.Usable ({} : Engine).policy ∧
    Program.trio.Consistent Presets.late ∧
    ∃ report r, (({} : Engine).reset.loadPresets Presets.late).process Program.trio =
        .ok (report, r) ∧
      ∃ f g, r.program.fields.get? ⟨0⟩ = some f ∧ r.program.fields.get? ⟨1⟩ = some g ∧
        f.owner = g.owner ∧ f.finalName = "b" ∧ g.finalName = "b" := by
  have hbuilt := Program.built_trio
  rcases process_eq_ok (e := ({} : Engine).reset.loadPresets Presets.late) hbuilt.wellFormed rfl
    with ⟨report, hrun⟩
  let r := ((({} : Engine).reset.loadPresets Presets.late).bound Program.trio).unified
  have hf : r.program.fields.get? ⟨0⟩ = some
      { owner := ⟨0⟩, name := "a", descriptor := "I", newName := some "b" } := by decide +kernel
  have hg : r.program.fields.get? ⟨1⟩ = some
      { owner := ⟨0⟩, name := "size", descriptor := "I", newName := some "b" } := by
    decide +kernel
  exact ⟨hbuilt, by decide +kernel, by decide +kernel, report, r, hrun, _, _, hf, hg, rfl, rfl,
    rfl⟩

end Engine
end Renamer
