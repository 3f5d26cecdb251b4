import Renamer.Proofs.Turns

/-!
# Getting the own name back

A drawn name is unlike all declared names of its scope, so no draw gives a symbol its own name.
Where the alias of a group is replaced, however, the keys that the members declared are not in the
way: the next word that fits may be the very name that the members had.

`Engine.newName_process_iff` says when this happens.
-/

namespace Renamer
namespace Run

variable {p : Program} {r : Run}

/-- No alias is the declared name of its symbol before groups are unified. -/
theorem Settled.aliasOf_ne_nameOf (h : Settled p r) {s : SymbolId} {name : String}
    (hname : p.nameOf s = some name) : r.engine.aliasOf s ≠ some name := by
  intro halias
  rcases h.known halias with ⟨x, hx⟩
  exact h.new ⟨name, halias, hx⟩ ⟨s, name, hname, hx⟩

/-- The group of `i` cannot all be called by the alias that it goes by, and the next word that all
can be called, when it is the turn of the group, is `name`. -/
def RedrawnTo (r : Run) (i : MethodId) (name : String) : Prop :=
  ∃ before id after chosen n,
    r.engine.groups.live = before ++ (id, r.engine.groups.members id) :: after ∧
    i ∈ r.engine.groups.members id ∧
    chosenAlias (r.program.symbols (r.engine.groups.members id)) = some chosen ∧
    (r.unification.turns before).taken.IsRedraw (r.unification.turns before).source
      (r.program.symbols (r.engine.groups.members id)) chosen n ∧
    name = Word.spell n

/-- The group of `i` can all be called by the alias `name` that it goes by, which was drawn for a
member whose parameter text is not that of `m`. -/
def SharedAs (r : Run) (i : MethodId) (m : MethodSymbol) (name : String) : Prop :=
  ∃ before id after,
    r.engine.groups.live = before ++ (id, r.engine.groups.members id) :: after ∧
    i ∈ r.engine.groups.members id ∧
    chosenAlias (r.program.symbols (r.engine.groups.members id)) = some name ∧
    (r.unification.turns before).taken.groupFits
      (r.program.symbols (r.engine.groups.members id)) name = true ∧
    ∃ o ∈ r.program.symbols (r.engine.groups.members id), o.newName = some name ∧
      o.paramText ≠ m.paramText

/-- A method ends with its own name only through the turn of its group. -/
theorem Settled.of_newName_eq_name (h : Settled p r) (hg : Grouped p r) {i : MethodId}
    {m : MethodSymbol} (hm : r.unified.program.methods.get? i = some m)
    (hname : m.newName = some m.name) : r.RedrawnTo i m.name ∨ r.SharedAs i m m.name := by
  have hdeclares : p.Declares (m.scope, m.key) :=
    (Program.declares_key hm).of_declared hg.declared_unified
  rcases hg.cases_unified hm with hm' | ⟨before, ids, chosen, name, m₀, hturn, hname', hm₀, hdecl⟩
  · exact absurd hdeclares (h.not_declares hm' hname)
  · rw [hname] at hname'
    have hchosen := hturn.named.chosen_eq
    have hnamed := hturn.named.name_eq
    rw [hturn.symbols hg] at hchosen hnamed
    rcases hturn.live with ⟨id, after, hids, hlive⟩
    subst hids
    rcases hnamed with ⟨hfits, hsame, -⟩ | ⟨n, hredraw, hword, -⟩
    · -- the alias was drawn for a member, which has another name
      have hchosenName : chosen = m.name := hsame ▸ (Option.some.inj hname').symm
      rw [hchosenName] at hchosen hfits
      rcases mem_of_chosenAlias hchosen with ⟨o, ho, hoalias⟩
      refine Or.inr ⟨before, id, after, hlive, hturn.mem, hchosen, hfits, o, ho, hoalias, ?_⟩
      intro htext
      rcases Program.mem_symbols.mp ho with ⟨k, hk, hok⟩
      have hkey : o.key = m.key :=
        (hturn.key_eq hg hk hm₀ hok).trans (MethodSymbol.agree hdecl MethodSymbol.key fun _ => rfl)
      have hsameName : o.name = m.name := by
        rw [MethodSymbol.key, MethodSymbol.key, MethodSymbol.keyAs, MethodSymbol.keyAs, htext]
          at hkey
        exact (String.append_left_inj m.paramText).mp hkey
      have hown : p.Declares (o.scope, o.keyAs m.name) := by
        rw [← hsameName]
        exact (Program.declares_key hok).of_declared hg.declared
      exact h.not_declares hok hoalias hown
    · exact Or.inl ⟨before, id, after, chosen, n, hlive, hturn.mem, hchosen, hredraw,
        (Option.some.inj hname').trans hword⟩

/-- The turn of its group can give a method its own name, and any other word. -/
theorem Grouped.newName_of_redrawnTo (hg : Grouped p r) {i : MethodId} {m : MethodSymbol}
    (hm : r.unified.program.methods.get? i = some m) {name : String} (h : r.RedrawnTo i name) :
    m.newName = some name := by
  rcases h with ⟨before, id, after, chosen, n, hlive, hi, hchosen, hredraw, hword⟩
  rcases hg.exists_turnOf hi hlive hchosen with ⟨name', hturn⟩
  have hname := hturn.named.name_eq
  rw [hturn.symbols hg] at hname
  -- there is one next word that fits
  rcases hname with ⟨hfits, -, -⟩ | ⟨n', ⟨-, hnext⟩, hword', -⟩
  · rw [hredraw.1] at hfits
    cases hfits
  · rw [hturn.newName hg hm, hword', hword, hnext.unique hredraw.2]

theorem Grouped.newName_of_sharedAs (hg : Grouped p r) {i : MethodId} {m : MethodSymbol}
    (hm : r.unified.program.methods.get? i = some m) {name : String} (h : r.SharedAs i m name) :
    m.newName = some name := by
  rcases h with ⟨before, id, after, hlive, hi, hchosen, hfits, -⟩
  rcases hg.exists_turnOf hi hlive hchosen with ⟨name', hturn⟩
  have hname := hturn.named.name_eq
  rw [hturn.symbols hg] at hname
  rcases hname with ⟨-, hsame, -⟩ | ⟨n', ⟨hunfit, -⟩, -, -⟩
  · rw [hturn.newName hg hm, hsame]
  · rw [hfits] at hunfit
    cases hunfit

end Run

namespace Engine

/-- Types and fields never get their own names back. A method does exactly where the alias of its
group is replaced by that name, or was drawn for a member with other parameters. -/
theorem newName_process_iff (p : Program) (hp : p.Built) (e : Engine) :
    ∃ report r, e.reset.process p = .ok (report, r) ∧
      (∀ ty t, p.types.get? ty = some t → r.engine.typeAlias ty ≠ some t.shortName) ∧
      (∀ id f, r.program.fields.get? id = some f →
        f.newName ≠ some f.name ∧ r.engine.fieldAlias id ≠ some f.name) ∧
      ∀ i m, r.program.methods.get? i = some m → (m.newName = some m.name ↔
        (e.reset.bound p).RedrawnTo i m.name ∨ (e.reset.bound p).SharedAs i m m.name) := by
  have hsettled := Run.settled_bound e p
  have hgrouped := grouped_bound (e := e.reset) hp.wellFormed rfl
  rcases process_eq_ok (e := e.reset) hp.wellFormed rfl with ⟨report, hrun⟩
  refine ⟨report, _, hrun, ?_⟩
  generalize e.reset.bound p = r at hsettled hgrouped
  refine ⟨?_, ?_, ?_⟩
  · intro ty t ht
    apply hsettled.aliasOf_ne_nameOf (s := .type ty)
    rw [Program.nameOf, ht]
    rfl
  · intro id f hf
    rw [hgrouped.fields_unified] at hf
    have hne : r.engine.aliasOf (.field id) ≠ some f.name := by
      rcases Program.field_of_declared hsettled.declared hf with ⟨f', hf', he⟩
      apply hsettled.aliasOf_ne_nameOf
      rw [Program.nameOf, hf', ← FieldSymbol.agree he FieldSymbol.name fun _ => rfl]
      rfl
    refine ⟨fun hname => hne (hsettled.bound ?_), hne⟩
    show (r.program.fields.get? id).bind (·.newName) = some f.name
    rw [hf]
    exact hname
  · intro i m hm
    constructor
    · exact fun hname => hsettled.of_newName_eq_name hgrouped hm hname
    · intro h
      rcases h with hredrawn | hshared
      · exact hgrouped.newName_of_redrawnTo hm hredrawn
      · exact hgrouped.newName_of_sharedAs hm hshared

/-- A method `d` of the related types, once it has been called `d`. -/
def calledItself : MethodSymbol :=
  { owner := ⟨0⟩, name := "d", params := [], returnType := "V", isVirtual := true,
    newName := some "d", renamed := true }

/-- A renamed method can end with its own name: here the method `d` of `Sub` is called `d`. -/
theorem newName_process_relatedTypes : Program.relatedTypes.Built ∧
    ∃ report r, ({} : Engine).reset.process Program.relatedTypes = .ok (report, r) ∧
      ∃ m, r.program.methods.get? ⟨0⟩ = some m ∧ m.newName = some m.name := by
  have hbuilt := Program.built_relatedTypes
  rcases process_eq_ok (e := ({} : Engine).reset) hbuilt.wellFormed rfl with ⟨report, hrun⟩
  exact ⟨hbuilt, report, _, hrun, calledItself, by decide +kernel, rfl⟩

/-- It is called so because the alias that its group goes by has to be replaced. -/
theorem redrawnTo_relatedTypes : Program.relatedTypes.Built ∧
    (({} : Engine).reset.bound Program.relatedTypes).RedrawnTo ⟨0⟩ "d" := by
  have hbuilt := Program.built_relatedTypes
  rcases process_eq_ok (e := ({} : Engine).reset) hbuilt.wellFormed rfl with ⟨report, hrun⟩
  rcases newName_process_iff Program.relatedTypes hbuilt {} with ⟨report', r, hrun', -, -, hiff⟩
  rw [hrun] at hrun'
  cases hrun'
  have hm : (({} : Engine).reset.bound Program.relatedTypes).unified.program.methods.get? ⟨0⟩ =
      some calledItself := by
    decide +kernel
  refine ⟨hbuilt, ?_⟩
  rcases (hiff ⟨0⟩ calledItself hm).mp rfl with hredrawn | hshared
  · exact hredrawn
  · -- no method has parameters
    rcases hshared with ⟨before, id, after, -, -, -, -, o, ho, -, htext⟩
    rcases Program.mem_symbols.mp ho with ⟨k, -, hok⟩
    have hall : ∀ a ∈ (({} : Engine).reset.bound Program.relatedTypes).program.methods.toList,
        a.paramText = calledItself.paramText := by
      decide +kernel
    exact absurd (hall o (Arena.mem_toList_of_get? hok)) htext

end Engine
end Renamer
