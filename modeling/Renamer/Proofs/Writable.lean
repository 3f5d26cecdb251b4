import Renamer.Proofs.Endings
import Renamer.Proofs.Uniqueness

/-!
# Aliases that can be written

Aliases come from presets, source files, draws and the unification of groups, and each is looked
at in another place: those of packages when they are loaded, those of types when they are decided,
those of members when they are bound, and that of a group not at all. All the same, whatever was
loaded, every alias that a run leaves behind can be written into Java source as it is.

`Ident.writable_iff` says which names these are: letters of ASCII, `_` and `$`.
-/

namespace Renamer
namespace Ident

/-! ## Names -/

/-- `name` can be written into Java source as it is, and holds no digit. -/
structure Writable (name : String) : Prop where
  wellFormed : Ident.wellFormed name.toList = true
  unreserved : name ∉ reservedWords
  printable : ∀ c ∈ name.toList, 0x21 ≤ c.toNat ∧ c.toNat ≤ 0x7e
  noDigit : ∀ c ∈ name.toList, c.isDigit = false

theorem isGraphic_iff {c : Char} : isGraphic c = true ↔ 0x21 ≤ c.toNat ∧ c.toNat ≤ 0x7e := by
  rw [isGraphic, Bool.and_eq_true, decide_eq_true_iff, decide_eq_true_iff]
  exact Iff.rfl

/-- A letter of ASCII, `_` or `$`. -/
def isPlain (c : Char) : Bool := c.isAlpha || c == '_' || c == '$'

theorem le_of_isAlpha {c : Char} (h : c.isAlpha = true) :
    65 ≤ c.toNat ∧ c.toNat ≤ 90 ∨ 97 ≤ c.toNat ∧ c.toNat ≤ 122 := by
  rcases Bool.or_eq_true_iff.mp h with hupper | hlower
  · exact Or.inl (of_decide_eq_true hupper)
  · have hbounds := Bool.and_eq_true_iff.mp hlower
    exact Or.inr ⟨of_decide_eq_true hbounds.1, of_decide_eq_true hbounds.2⟩

theorem le_of_isDigit {c : Char} (h : c.isDigit = true) : 48 ≤ c.toNat ∧ c.toNat ≤ 57 := by
  simp only [Char.isDigit, Bool.and_eq_true, decide_eq_true_eq] at h
  exact h

/-- Plain characters are graphic, and no digits. -/
theorem graphic_of_isPlain {c : Char} (h : isPlain c = true) :
    (0x21 ≤ c.toNat ∧ c.toNat ≤ 0x7e) ∧ c.isDigit = false := by
  simp only [isPlain, Bool.or_eq_true, beq_iff_eq] at h
  rcases h with (halpha | rfl) | rfl
  · have hletter := le_of_isAlpha halpha
    refine ⟨by omega, Bool.eq_false_iff.mpr fun hdigit => ?_⟩
    have hlow := le_of_isDigit hdigit
    omega
  · decide
  · decide

/-- In ASCII, a character that is no digit may stand in an identifier where it is plain, and then
it may start one. -/
theorem isPart_eq_isPlain {c : Char} (hascii : c.toNat ≤ 0x7e) (hdigit : c.isDigit = false) :
    isPart c = isPlain c ∧ isStart c = isPlain c := by
  have hlt : c.toNat < 128 := by omega
  constructor
  · rw [isPart, isXidContinue, if_pos hlt, Char.isAlphanum, hdigit, Bool.or_false, isPlain,
      Bool.or_comm]
  · rw [isStart, isXidStart, if_pos hlt, isPlain, Bool.or_comm, Bool.or_assoc]

/-- The names that can be written are the nonempty words of plain characters that are not
reserved. -/
theorem writable_iff {name : String} :
    Writable name ↔ name ≠ "" ∧ name ∉ reservedWords ∧ ∀ c ∈ name.toList, isPlain c = true := by
  constructor
  · intro h
    have hparts : ∀ c ∈ name.toList, isPart c = isPlain c ∧ isStart c = isPlain c := fun c hc =>
      isPart_eq_isPlain (h.printable c hc).2 (h.noDigit c hc)
    have hwell := h.wellFormed
    refine ⟨?_, h.unreserved, fun c hc => ?_⟩
    · rintro rfl
      cases hwell
    · cases hletters : name.toList with
      | nil =>
        rw [hletters] at hc
        cases hc
      | cons d rest =>
        rw [hletters] at hwell hparts hc
        rw [wellFormed, Bool.and_eq_true, List.all_eq_true] at hwell
        rcases List.mem_cons.mp hc with rfl | hrest
        · rw [← (hparts c hc).2]
          exact hwell.1
        · rw [← (hparts c hc).1]
          exact hwell.2 c hrest
  · rintro ⟨hne, hunreserved, hplain⟩
    have hgraphic := fun c hc => graphic_of_isPlain (hplain c hc)
    refine ⟨?_, hunreserved, fun c hc => (hgraphic c hc).1, fun c hc => (hgraphic c hc).2⟩
    cases hletters : name.toList with
    | nil => exact absurd (String.toList_eq_nil_iff.mp hletters) hne
    | cons d rest =>
      rw [hletters] at hplain hgraphic
      have hparts : ∀ c ∈ d :: rest, isPart c = isPlain c ∧ isStart c = isPlain c := fun c hc =>
        isPart_eq_isPlain (hgraphic c hc).1.2 (hgraphic c hc).2
      rw [wellFormed, Bool.and_eq_true, List.all_eq_true]
      refine ⟨?_, fun c hc => ?_⟩
      · rw [(hparts d List.mem_cons_self).2]
        exact hplain d List.mem_cons_self
      · rw [(hparts c (List.mem_cons_of_mem d hc)).1]
        exact hplain c (List.mem_cons_of_mem d hc)

theorem Writable.noDot {name : String} (h : Writable name) : '.' ∉ name.toList := by
  intro hdot
  exact absurd ((writable_iff.mp h).2.2 '.' hdot) (by decide)

end Ident

/-- Under the rules of Java a policy accepts the names that can be written. -/
theorem Policy.accepts_iff_writable {P : Policy} (hjava : P.classifier = Classifier.java)
    {name : String} : P.accepts name = true ↔ Ident.Writable name := by
  have hreserved : Ident.isReservedWord name = false ↔ name ∉ Ident.reservedWords := by
    rw [Ident.isReservedWord, ← Bool.not_eq_true, List.contains_iff_mem]
  have hprintable : name.toList.all Ident.isGraphic = true ↔
      ∀ c ∈ name.toList, 0x21 ≤ c.toNat ∧ c.toNat ≤ 0x7e := by
    simp only [List.all_eq_true, Ident.isGraphic_iff]
  have hdigit : Ident.hasDigit name = false ↔ ∀ c ∈ name.toList, c.isDigit = false := by
    simp only [Ident.hasDigit, List.any_eq_false, Bool.not_eq_true]
  rw [accepts, hjava]
  simp only [Classifier.java, Bool.and_eq_true, Bool.not_eq_true', hreserved, hprintable, hdigit]
  constructor
  · rintro ⟨⟨⟨⟨hwell, -⟩, hfree⟩, hgraphic⟩, hnone⟩
    exact ⟨hwell, hfree, hgraphic, hnone⟩
  · intro h
    exact ⟨⟨⟨⟨h.wellFormed, h.unreserved⟩, h.unreserved⟩, h.printable⟩, h.noDigit⟩

/-! ## Runs -/

namespace Presets

/-- Presets for a package, a type, a field and a method, none of which can be written. -/
def unwritable : Presets where
  packages := { toList := [("game", "jeu 7")], nodup_keys := by decide }
  types := { toList := [("game.Main1", "")], nodup_keys := by decide }
  fields := { toList := [("game.a.size:I", "größe")], nodup_keys := by decide }
  methods := { toList := [("game.a.c()V", "do")], nodup_keys := by decide }

end Presets

namespace Engine

open Ident (Writable)

/-- Whatever presets were loaded, every alias that a run leaves behind can be written. -/
theorem aliases_process_writable (p : Program) (hp : p.Built) (e : Engine)
    (hjava : e.policy.classifier = Classifier.java) (presets : Presets) :
    ∃ report r, (e.reset.loadPresets presets).process p = .ok (report, r) ∧
      (∀ id n name, r.engine.packages.nodes.get? id = some n → n.newName = some name →
        Writable name) ∧
      (∀ ty x, r.engine.types.get? ty = some x → Writable x.newName) ∧
      (∀ id f name, r.program.fields.get? id = some f → f.newName = some name → Writable name) ∧
      ∀ id m name, r.program.methods.get? id = some m → m.newName = some name →
        Writable name := by
  rcases ends_process hp e hjava presets with ⟨⟨report, hrun⟩, hends⟩
  refine ⟨report, _, hrun, ?_⟩
  generalize ((e.reset.loadPresets presets).bound p).unified = r at hends
  have hwritable : ∀ {name}, e.policy.accepts name = true → Writable name :=
    (Policy.accepts_iff_writable hjava).mp
  -- an alias bound to a member is an alias decided for it, and not empty
  have hbound : ∀ {s name}, r.program.boundAlias s = some name → Writable name := by
    intro s name hname
    rw [hends.allBound.bound] at hname
    have haccepts := hends.allBound.usable hname
    rw [hends.answers.policy] at haccepts
    exact hwritable haccepts
  refine ⟨?_, ?_, ?_, ?_⟩
  · intro id n name hn hname
    refine hwritable (hends.sound.usable (a := n.path) ?_)
    exact hends.sound.aliasOf_eq_some_iff.mpr ⟨n, Arena.mem_toList_of_get? hn, rfl, hname⟩
  · intro ty x hx
    refine hwritable (hends.answers.types (s := .type ty) rfl ?_)
    rw [aliasOf, typeAlias, hx]
    rfl
  · intro id f name hf hname
    refine hbound (s := .field id) ?_
    rw [Program.boundAlias, hf]
    exact hname
  · intro id m name hm hname
    refine hbound (s := .method id) ?_
    rw [Program.boundAlias, hm]
    exact hname

/-- None of the four presets that cannot be written is taken over in the crowded program: the
package, the type, the field and the method get drawn aliases. -/
theorem aliases_process_unwritable : Program.crowded.Built ∧
    ∃ report r, (({} : Engine).reset.loadPresets Presets.unwritable).process Program.crowded =
        .ok (report, r) ∧
      ∃ n x f m, r.engine.packages.nodes.get? ⟨1⟩ = some n ∧ n.newName = some "a" ∧
        r.engine.types.get? ⟨0⟩ = some x ∧ x.newName = "b" ∧
        r.program.fields.get? ⟨1⟩ = some f ∧ f.newName = some "g" ∧
        r.program.methods.get? ⟨0⟩ = some m ∧ m.newName = some "h" ∧
        Writable "a" ∧ Writable "b" ∧ Writable "g" ∧ Writable "h" := by
  have hbuilt := Program.built_crowded
  rcases aliases_process_writable Program.crowded hbuilt {} rfl Presets.unwritable with
    ⟨report, r, hrun, hpackages, htypes, hfields, hmethods⟩
  rcases (ends_process hbuilt {} rfl Presets.unwritable).1 with ⟨report', hrun'⟩
  have hr := congrArg Prod.snd (Except.ok.inj (hrun'.symm.trans hrun))
  subst hr
  let r := ((({} : Engine).reset.loadPresets Presets.unwritable).bound Program.crowded).unified
  have hn : r.engine.packages.nodes.get? ⟨1⟩ = some { path := ["game"], newName := some "a" } := by
    decide +kernel
  have hx : (r.engine.types.get? ⟨0⟩).map TypeRecord.newName = some "b" := by decide +kernel
  have hf : r.program.fields.get? ⟨1⟩ = some
      { owner := ⟨1⟩, name := "size", descriptor := "I", newName := some "g" } := by decide +kernel
  have hm : (r.program.methods.get? ⟨0⟩).bind MethodSymbol.newName = some "h" := by decide +kernel
  rcases Option.map_eq_some_iff.mp hx with ⟨x, hx, hxname⟩
  rcases Option.bind_eq_some_iff.mp hm with ⟨m, hm, hmname⟩
  refine ⟨hbuilt, report, r, hrun, _, x, _, m, hn, rfl, hx, hxname, hf, rfl, hm, hmname,
    hpackages _ _ _ hn rfl, ?_, hfields _ _ _ hf rfl, hmethods _ _ _ hm hmname⟩
  rw [← hxname]
  exact htypes _ _ hx

end Engine
end Renamer
