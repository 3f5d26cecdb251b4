import Renamer.Proofs.OwnNames
import Renamer.Proofs.Uniqueness

/-!
# Nested types

The full name that is composed for a nested type is the one composed for the type around it,
followed by its own last part. Whether the two names are bound is decided for each of them on its
own, however: a name that holds a digit is not. A nested type with a digit in its name stays under
its declared full name, even where the type around it is renamed.

`Engine.displayName_process_nested` says when a nested type is shown inside the type around it.
-/

namespace Renamer

/-! ## Shown names -/

/-- Of a type `c` around and a type nested in it, which are declared as `f` and `f` with `short`,
the second is shown inside the first if its own composed name is shown, or if both are shown as they
were declared. -/
theorem Ident.shown_inside_iff {c f last short : String}
    (hlast : hasDigit last = true → last = short) :
    (if hasDigit (c ++ nestedSeparator ++ last) then f ++ nestedSeparator ++ short
        else c ++ nestedSeparator ++ last) =
      (if hasDigit c then f else c) ++ nestedSeparator ++ last ↔
    hasDigit (c ++ nestedSeparator ++ last) = false ∨
      last = short ∧ (if hasDigit c then f else c) = f := by
  have hdigits : hasDigit (c ++ nestedSeparator ++ last) = (hasDigit c || hasDigit last) := by
    have hsep : hasDigit nestedSeparator = false := by decide
    rw [hasDigit_append, hasDigit_append, hsep, Bool.or_false]
  rw [hdigits]
  cases hc : hasDigit c with
  | true =>
    -- both stay as they were declared
    simp only [Bool.true_or, if_true, Bool.true_eq_false, false_or, and_true]
    rw [String.append_right_inj]
    exact eq_comm
  | false =>
    cases hl : hasDigit last with
    | true =>
      simp only [Bool.or_true, if_true, Bool.false_eq_true, if_false, Bool.true_eq_false, false_or]
      rw [hlast hl, String.append_left_inj, String.append_left_inj]
      exact ⟨fun h => ⟨rfl, h.symm⟩, fun h => h.2.symm⟩
    | false => simp only [Bool.or_false, Bool.false_eq_true, if_false, true_or]

namespace Run

variable {p : Program} {r : Run}

/-- A nested type is composed a name inside the one composed for the type around it. -/
theorem Prepared.composed_of_nested (h : Prepared p r) (hp : p.WellFormed) {ty outer : TypeId}
    {t o : TypeSymbol} (ht : p.types.get? ty = some t) (hnested : t.enclosing = some outer)
    (ho : p.types.get? outer = some o) :
    r.engine.composed p ty t =
      r.engine.composed p outer o ++ nestedSeparator ++ r.engine.lastPart ty t := by
  have hpackage : r.engine.packageName ty t = r.engine.packageName outer o := by
    rcases hp.nested ht hnested with ⟨o', ho', -, hsame, -⟩
    rw [ho] at ho'
    cases ho'
    rw [h.packageName ht, h.packageName ho, hsame]
  unfold Engine.composed
  dsimp only
  rw [hpackage, Engine.chainOf_of_nested hp ht hnested]
  split
  · rfl
  · simp only [String.append_assoc]

/-- The last part of a type is its declared short name where it has no alias, and only there. -/
theorem Settled.lastPart_eq_shortName_iff (h : Settled p r) {ty : TypeId} {t : TypeSymbol}
    (ht : p.types.get? ty = some t) :
    r.engine.lastPart ty t = t.shortName ↔ r.engine.typeAlias ty = none := by
  have hname : p.nameOf (.type ty) = some t.shortName := by
    rw [Program.nameOf, ht]
    rfl
  have hother := h.aliasOf_ne_nameOf hname
  rw [Engine.aliasOf] at hother
  unfold Engine.lastPart
  cases halias : r.engine.typeAlias ty with
  | none => exact ⟨fun _ => rfl, fun _ => rfl⟩
  | some name =>
    rw [halias] at hother
    constructor
    · intro hsame
      exact absurd (congrArg some hsame) hother
    · intro hnone
      cases hnone

/-- When all aliases are bound, a nested type is shown as `Engine.displayName_process_nested` says,
by the names composed when all had been decided. -/
theorem displayName_bound_nested (hp : p.WellFormed) (e : Engine) {ty outer : TypeId}
    {t : TypeSymbol} (ht : (e.reset.bound p).program.types.get? ty = some t)
    (hnested : t.enclosing = some outer)
    (hr : Run.discover { engine := e.reset, program := p.clearAliases } = r) :
    ∃ o, (e.reset.bound p).program.types.get? outer = some o ∧
      (t.displayName = o.displayName ++ nestedSeparator ++ r.engine.lastPart ty t ↔
        Ident.hasDigit (r.engine.composed p ty t) = false ∨
          r.engine.typeAlias ty = none ∧ o.displayName = o.fullName) := by
  have hdeclared := (settled_bound e p).declared
  -- both types as they were declared
  rcases Program.type_of_declared hdeclared ht with ⟨t', ht', htt⟩
  have hnested' : t'.enclosing = some outer :=
    (TypeSymbol.agree htt TypeSymbol.enclosing fun _ => rfl).trans hnested
  rcases hp.nested ht' hnested' with ⟨o', ho', -, -, hfull⟩
  rcases Program.type_of_declared hdeclared.symm ho' with ⟨o, ho, hoo⟩
  rw [TypeSymbol.agree htt TypeSymbol.fullName fun _ => rfl,
    ← TypeSymbol.agree hoo TypeSymbol.fullName fun _ => rfl,
    TypeSymbol.agree htt TypeSymbol.shortName fun _ => rfl] at hfull
  have htitle := Engine.displayName_of_title (newName_bound hp e.unused_reset ht)
  have houtertitle := Engine.displayName_of_title (newName_bound hp e.unused_reset ho)
  have hprepared := prepared_discover e.unused_reset p
  have hsettled : Settled p _ := Settled.discover (e := e) (p := p)
  rw [hr] at htitle houtertitle hprepared hsettled
  have hpart : r.engine.lastPart ty t' = r.engine.lastPart ty t :=
    TypeSymbol.agree htt (r.engine.lastPart ty) fun _ => rfl
  have hcomposed : r.engine.composed p ty t =
      r.engine.composed p outer o ++ nestedSeparator ++ r.engine.lastPart ty t := by
    rw [← Engine.composed_of_declared rfl htt, Engine.composed_of_declared rfl hoo, ← hpart]
    exact hprepared.composed_of_nested hp ht' hnested' ho'
  have hlast : Ident.hasDigit (r.engine.lastPart ty t) = true →
      r.engine.lastPart ty t = t.shortName := hsettled.lastPart_eq_of_hasDigit
  have hnone : r.engine.lastPart ty t = t.shortName ↔ r.engine.typeAlias ty = none := by
    rw [← hpart, ← TypeSymbol.agree htt TypeSymbol.shortName fun _ => rfl]
    exact hsettled.lastPart_eq_shortName_iff ht'
  refine ⟨o, ho, ?_⟩
  rw [htitle, houtertitle, hcomposed, hfull, ← hnone]
  exact Ident.shown_inside_iff hlast

end Run

/-! ## Runs -/

namespace Program

/-- A type `ab`, and a type `Inner1` nested in it. -/
def numbered : Program where
  types := ⟨#[
    { package := "", shortName := "ab", fullName := "ab" },
    { package := "", shortName := "Inner1", fullName := "ab$Inner1", enclosing := some ⟨0⟩ }]⟩

theorem built_numbered : numbered.Built := by
  have houter := Built.empty.addType { shortName := "ab" }
  exact houter.addNestedType (rfl : Program.addNestedType _ ⟨0⟩ { shortName := "Inner1" } = _)

end Program

namespace Engine

/-- A nested type with a digit in its name stays where it was when the type around it is renamed. -/
theorem displayName_process_numbered : Program.numbered.Built ∧
    ∃ report r, ({} : Engine).reset.process Program.numbered = .ok (report, r) ∧
      ∃ o t, r.program.types.get? ⟨0⟩ = some o ∧ r.program.types.get? ⟨1⟩ = some t ∧
        t.enclosing = some ⟨0⟩ ∧ o.displayName = "a" ∧ t.displayName = "ab$Inner1" ∧
        r.engine.lastPart ⟨1⟩ t = "Inner1" ∧
        t.displayName ≠ o.displayName ++ nestedSeparator ++ r.engine.lastPart ⟨1⟩ t := by
  have hbuilt := Program.built_numbered
  rcases process_eq_ok (e := ({} : Engine).reset) hbuilt.wellFormed rfl with ⟨report, hrun⟩
  refine ⟨hbuilt, report, _, hrun,
    { package := "", shortName := "ab", fullName := "ab", newName := some "a" },
    { package := "", shortName := "Inner1", fullName := "ab$Inner1", enclosing := some ⟨0⟩ },
    ?_, ?_, rfl, rfl, rfl, ?_, ?_⟩
  · decide +kernel
  · decide +kernel
  · decide +kernel
  · decide +kernel

/-- A nested type is shown inside the type around it, under its own last part, exactly if its full
name holds no digit, or if it has no alias and the type around it is not renamed. With a digit in
its full name it stays as it was declared. -/
theorem displayName_process_nested (p : Program) (hp : p.Built) (e : Engine) :
    ∃ report r, e.reset.process p = .ok (report, r) ∧
      ∀ ty t outer, r.program.types.get? ty = some t → t.enclosing = some outer →
        ∃ o name, r.program.types.get? outer = some o ∧
          (r.engine.fullNameAt r.program ty).map Prod.fst = .ok name ∧
          t.displayName = (if Ident.hasDigit name then t.fullName else name) ∧
          (t.displayName = o.displayName ++ nestedSeparator ++ r.engine.lastPart ty t ↔
            Ident.hasDigit name = false ∨
              r.engine.typeAlias ty = none ∧ o.displayName = o.fullName) := by
  have hgrouped := grouped_bound (e := e.reset) hp.wellFormed rfl
  rcases process_eq_ok (e := e.reset) hp.wellFormed rfl with ⟨report, hrun⟩
  refine ⟨report, _, hrun, fun ty t outer ht hnested => ?_⟩
  have hanswer := Run.fullNameAt_unified hp.wellFormed e.unused_reset
    hgrouped.declared_unified.symm ht
  rw [hgrouped.types_unified] at ht ⊢
  rcases Run.displayName_bound_nested hp.wellFormed e ht hnested rfl with ⟨o, ho, hshown⟩
  have htitle := displayName_of_title (Run.newName_bound hp.wellFormed e.unused_reset ht)
  have halike := Run.alikeTypes_unified e.reset p
  rw [← halike.lastPart, ← halike.typeAlias] at hshown
  exact ⟨o, _, ho, hanswer, htitle, hshown⟩

/-- In the crowded program the nested type is shown inside the type around it; both are renamed. -/
theorem displayName_process_inner : Program.crowded.Built ∧
    ∃ report r, ({} : Engine).reset.process Program.crowded = .ok (report, r) ∧
      ∃ o t, r.program.types.get? ⟨1⟩ = some o ∧ r.program.types.get? ⟨2⟩ = some t ∧
        t.enclosing = some ⟨1⟩ ∧ o.displayName = "game.b" ∧
        t.displayName = o.displayName ++ nestedSeparator ++ r.engine.lastPart ⟨2⟩ t := by
  have hbuilt := Program.built_crowded
  rcases process_eq_ok (e := ({} : Engine).reset) hbuilt.wellFormed rfl with ⟨report, hrun⟩
  rcases displayName_process_nested Program.crowded hbuilt {} with ⟨report', r, hrun', hnested⟩
  rw [hrun] at hrun'
  cases hrun'
  let r := (({} : Engine).reset.bound Program.crowded).unified
  have ho : r.program.types.get? ⟨1⟩ = some
      { package := "game", shortName := "a", fullName := "game.a", newName := some "game.b" } := by
    decide +kernel
  have ht : r.program.types.get? ⟨2⟩ = some
      { package := "game", shortName := "b", fullName := "game.a$b", enclosing := some ⟨1⟩,
        newName := some "game.b$f" } := by
    decide +kernel
  have hname : (r.engine.fullNameAt r.program ⟨2⟩).map Prod.fst = .ok "game.b$f" := by
    decide +kernel
  rcases hnested _ _ _ ht rfl with ⟨o, name, ho', hname', -, hinside⟩
  rw [ho] at ho'
  cases ho'
  rw [hname] at hname'
  cases hname'
  exact ⟨hbuilt, report, r, hrun, _, _, ho, ht, rfl, rfl, hinside.mpr (Or.inl (by decide))⟩

end Engine
end Renamer
