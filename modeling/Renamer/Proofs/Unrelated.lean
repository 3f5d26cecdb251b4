import Renamer.Proofs.Choosing
import Renamer.Proofs.Consistency
import Renamer.Proofs.OwnNames

/-!
# Group aliases and unrelated methods

A group is not called by a name that the type of a member declares for another method, unless that
name is the preset of the very member: what a method is called already counts as fitting it, and
presets are not checked against declared names.

* `Run.Sourced` is the invariant: an alias is the preset of its symbol, or a name that its scope
  does not declare.
* `Run.Sourced.preset_of_meets` says what follows for a method whose alias meets a declared key.
-/

namespace Renamer
namespace Run

variable {p : Program} {presets : Presets} {done rest : List SymbolId} {r r' : Run} {s : SymbolId}
  {name : String}

/-! ## Where aliases come from -/

/-- Every alias is the preset of its symbol or is not declared in its scope. -/
structure Sourced (p : Program) (presets : Presets) (r : Run) : Prop where
  declared : r.program.declared = p.declared
  loaded : ∀ s, p.presetOf r.engine.presets s = p.presetOf presets s
  declares_taken : ∀ {x}, p.Declares x → x ∈ r.engine.taken.pairs
  source : ∀ {s name}, r.engine.aliasOf s = some name → p.presetOf presets s = some name ∨
    ∀ x, p.spot name s = some x → ¬ p.Declares x

theorem Sourced.leaves (h : Sourced p presets r) (hl : r.Leaves r') : Sourced p presets r' where
  declared := hl.declared.trans h.declared
  loaded := fun s => by rw [hl.presets, h.loaded]
  declares_taken := fun hx => by
    rw [hl.taken]
    exact h.declares_taken hx
  source := fun {s name} hname => by
    rw [hl.aliases] at hname
    exact h.source hname

theorem Sourced.assigns (h : Sourced p presets r) (ha : r.Assigns p s name r')
    (hsource : p.presetOf presets s = some name ∨ ∀ x, p.spot name s = some x → ¬ p.Declares x) :
    Sourced p presets r' := by
  refine ⟨ha.declared.trans h.declared, fun s' => ?_, fun {y} hy => ?_, fun {s' name'} hname' => ?_⟩
  · rw [ha.presets, h.loaded]
  · rcases ha.taken with ⟨x, -, htaken⟩
    exact (htaken y).mpr (Or.inl (h.declares_taken hy))
  · rcases aliasOf_cases ha.aliases hname' with ⟨rfl, rfl⟩ | ⟨-, hold⟩
    · exact hsource
    · exact h.source hold

/-- All declared names are taken, so that a fresh name is none of them. -/
theorem Sourced.fresh (h : Sourced p presets r) (hfresh : r.IsFresh p s name)
    (ha : r.Assigns p s name r') : Sourced p presets r' :=
  h.assigns ha (Or.inr fun x hx hdeclares => hfresh.free x hx (h.declares_taken hdeclares))

theorem Sourced.decides (h : Sourced p presets r) (hd : Decides p s r r') :
    Sourced p presets r' := by
  cases hd with
  | keep _ => exact h
  | preset hpreset _ ha _ _ => exact h.assigns ha (Or.inl (h.loaded s ▸ hpreset))
  | fresh _ hfresh ha _ => exact h.fresh hfresh ha

theorem Sourced.binds (h : Sourced p presets r) (hb : Binds p s r r') : Sourced p presets r' := by
  cases hb with
  | skip _ => exact h
  | bind _ _ _ hl _ _ => exact h.leaves hl
  | redraw _ _ _ hfresh ha _ => exact h.fresh hfresh ha

/-- What is bound to a member is its alias. -/
def BindsAliases (r : Run) : Prop :=
  ∀ s name, r.program.boundAlias s = some name → r.engine.aliasOf s = some name

theorem BindsAliases.leaves (h : r.BindsAliases) (hl : r.Leaves r') (hb : r.SameBound r') :
    r'.BindsAliases := by
  intro s name hname
  rw [hb] at hname
  rw [hl.aliases]
  exact h s name hname

theorem BindsAliases.binds (h : r.BindsAliases) (hb : Binds p s r r') : r'.BindsAliases := by
  cases hb with
  | skip _ => exact h
  | bind halias _ _ hl hbound _ =>
    intro s' name' hname'
    rw [hbound] at hname'
    rw [hl.aliases]
    split at hname'
    · rename_i heq
      rw [heq, halias]
      exact hname'
    · exact h s' name' hname'
  | redraw _ _ _ _ ha hbound =>
    intro s' name' hname'
    rw [hbound] at hname'
    rw [ha.aliases]
    split at hname'
    · rename_i heq
      rw [if_pos heq]
      exact hname'
    · rename_i hne
      rw [if_neg hne]
      exact h s' name' hname'

theorem keeps_sourced_deciding (p : Program) (presets : Presets) :
    Pass.deciding.Keeps p fun _ r => Sourced p presets r ∧ r.Unbound := by
  apply Pass.keeps_deciding
  case hdeclared => exact fun h => h.1.declared
  case htype =>
    intro done rest r ty t _ ht h
    have hpackage := h.1.leaves (leaves_decidePackage r t)
    have hd := decides_decideType (r := { r with engine := r.engine.decidePackage t }) ht
    exact ⟨hpackage.decides hd, h.2.sameBound hd.sameBound⟩
  case hmember =>
    intro done rest s r r' _ _ hd _ h
    exact ⟨h.1.decides hd, h.2.sameBound hd.sameBound⟩
  case hlink => exact fun hl hb _ _ h => ⟨h.1.leaves hl, h.2.sameBound hb⟩

theorem keeps_sourced_binding (p : Program) (presets : Presets) :
    Pass.binding.Keeps p fun _ r => Sourced p presets r ∧ r.BindsAliases := by
  apply Pass.keeps_binding
  case hdeclared => exact fun h => h.1.declared
  case htype =>
    intro done rest r ty t _ _ h
    rcases leaves_applyType r ty t with ⟨hl, hb, -⟩
    exact ⟨h.1.leaves hl, h.2.leaves hl hb⟩
  case hmember => exact fun _ _ hb _ h => ⟨h.1.binds hb, h.2.binds hb⟩

/-- When all aliases are bound, each of them is a preset or new to its scope. -/
theorem sourced_bound (p : Program) (presets : Presets) {e : Engine} (he : e.Unused)
    (hpresets : ∀ s, p.presetOf e.presets s = p.presetOf presets s) :
    Sourced p presets (e.bound p) ∧ (e.bound p).BindsAliases := by
  have hstart : Sourced p presets
      { engine := e.seed p.clearAliases, program := p.clearAliases } := by
    refine ⟨Program.declared_clearAliases, hpresets, fun hx => ?_, fun {s name} hname => ?_⟩
    · exact TakenNames.mem_seed_of_declares
        (hx.of_declared Program.declared_clearAliases.symm)
    · rw [aliasOf_seed, he.aliasOf_eq_none] at hname
      cases hname
  refine (keeps_sourced_deciding p presets).bound (keeps_sourced_binding p presets)
    ⟨hstart, Program.boundAlias_clearAliases⟩ fun {r} hr =>
      ⟨hr.1.leaves (leaves_discovered r), fun s name hname => ?_⟩
  -- binding starts with nothing bound
  have hnone : r.program.boundAlias s = none := hr.2 s
  cases hname.symm.trans hnone

/-! ## Aliases and the keys of other methods -/

variable {i j : MethodId} {m n : MethodSymbol}

/-- Before unification a method whose alias meets a declared key has that alias for a preset. -/
theorem Sourced.preset_of_declares (h : Sourced p presets r) (hb : r.BindsAliases)
    (hm : r.program.methods.get? i = some m) (hname : m.newName = some name)
    (hdeclares : p.Declares (m.scope, m.keyAs name)) :
    p.presetOf presets (.method i) = some name := by
  have hshown : p.ShowsMethod i m := Program.method_of_declared h.declared hm
  have hbound : r.program.boundAlias (.method i) = some name := by
    rw [Program.boundAlias, hm]
    exact hname
  rcases h.source (hb _ _ hbound) with hpreset | hnew
  · exact hpreset
  · exact absurd hdeclares (hnew _ (hshown.spot name))

/-- After unification a method whose alias meets the key of another method of its type has that
alias for a preset. -/
theorem Sourced.preset_of_meets (h : Sourced p presets r) (hb : r.BindsAliases)
    (hg : Grouped p r) (hd : p.DistinctKeys) (hm : r.unified.program.methods.get? i = some m)
    (hn : r.unified.program.methods.get? j = some n) (hij : i ≠ j) (howner : n.owner = m.owner)
    (hname : m.newName = some name) (hmeets : n.key = m.keyAs name) :
    p.presetOf presets (.method i) = some name := by
  have hdeclares : p.Declares (m.scope, m.keyAs name) := by
    have hscope : m.scope = n.scope := congrArg Scope.methods howner.symm
    rw [← hmeets, hscope]
    exact (Program.declares_key hn).of_declared hg.declared_unified
  rcases hg.cases_unified hm with hm' | ⟨before, ids, chosen, name', m₀, hturn, hname', hm₀, hdecl⟩
  · exact h.preset_of_declares hb hm' hname hdeclares
  · rw [hname] at hname'
    cases hname'
    have howner₀ : m₀.owner = m.owner := MethodSymbol.agree hdecl MethodSymbol.owner fun _ => rfl
    have hscope : m₀.scope = m.scope := MethodSymbol.agree hdecl MethodSymbol.scope fun _ => rfl
    have hkeyAs : m₀.keyAs name = m.keyAs name :=
      MethodSymbol.agree hdecl (fun m => m.keyAs name) fun _ => rfl
    have hfits := hturn.named.fits
    rw [hturn.symbols hg] at hfits
    have hmember := TakenNames.groupFits_iff.mp hfits m₀
      (Program.mem_symbols.mpr ⟨i, hturn.mem, hm₀⟩)
    rw [← hscope, ← hkeyAs] at hdeclares
    rcases TakenNames.memberFits_iff.mp hmember with hfree | ⟨o, ho, hoowner, hwhy⟩
    · -- declared keys are never free
      exact absurd (hturn.taken hg (h.declares_taken hdeclares)) hfree
    · -- of its group no other method stands in the type
      rcases Program.mem_symbols.mp ho with ⟨k, hk, hok⟩
      obtain rfl : k = i :=
        hd.eq_of_key_eq hg.declared hok hm₀ hoowner (hturn.key_eq hg hk hm₀ hok)
      cases hok.symm.trans hm₀
      rcases hwhy with halias | hkey
      · exact h.preset_of_declares hb hm₀ halias hdeclares
      · -- the key would be that of the method itself
        have hsame : m.key = n.key := by
          rw [hmeets, ← hkeyAs, ← hkey]
          exact (MethodSymbol.agree hdecl MethodSymbol.key fun _ => rfl).symm
        exact absurd (hd.eq_of_key_eq hg.declared_unified hm hn howner.symm hsame) hij

/-- A key that a type declares is that of one of its methods. -/
theorem exists_method_of_declares {q : Program} (hq : q.declared = p.declared) {owner : TypeId}
    {key : String} (hx : p.Declares (.methods owner, key)) :
    ∃ j n, q.methods.get? j = some n ∧ n.owner = owner ∧ n.key = key := by
  rcases hx.of_declared hq.symm with ⟨s, name, hname, hspot⟩
  cases s with
  | type j =>
    rcases Option.map_eq_some_iff.mp hspot with ⟨t, -, heq⟩
    unfold TypeSymbol.scope at heq
    split at heq <;> cases heq
  | field j =>
    rcases Option.map_eq_some_iff.mp hspot with ⟨f, -, heq⟩
    cases heq
  | method j =>
    rcases Option.map_eq_some_iff.mp hspot with ⟨n, hn, heq⟩
    rw [Program.nameOf, hn] at hname
    cases hname
    cases heq
    exact ⟨j, n, hn, rfl, rfl⟩

end Run

/-! ## Final keys of groups -/

namespace Program

/-- `Base` declares the virtual method `run`, which `Sub` overrides, and a method `size`. -/
def runners : Program where
  types := ⟨#[
    { package := "", shortName := "Base", fullName := "Base" },
    { package := "", shortName := "Sub", fullName := "Sub", superType := some "Base" }]⟩
  methods := ⟨#[
    { owner := ⟨0⟩, name := "run", params := [], returnType := "V", isVirtual := true },
    { owner := ⟨0⟩, name := "size", params := [], returnType := "V", isVirtual := false },
    { owner := ⟨1⟩, name := "run", params := [], returnType := "V", isVirtual := true }]⟩

theorem built_runners : runners.Built := by
  have hbase := Built.empty.addType { shortName := "Base" }
  have htypes := hbase.addType { shortName := "Sub", superType := some "Base" }
  have hrun := htypes.pushMethod ⟨0⟩ "run" [] "V" true (by decide)
  have hsize := hrun.pushMethod ⟨0⟩ "size" [] "V" false (by decide)
  exact hsize.pushMethod ⟨1⟩ "run" [] "V" true (by decide)

end Program

namespace Presets

/-- The preset `size` for the method `run` of `Base`. -/
def sized : Presets where
  methods := { toList := [("Base.run()V", "size")], nodup_keys := by decide }

end Presets

namespace Engine

/-- Where no type declares two methods with one key, a member of a group ends with the key of
another method of its type exactly where the alias of the group is the preset of that member and the
type declares it. -/
theorem finalKeys_process_unrelated (p : Program) (hp : p.Built) (hd : p.DistinctKeys) (e : Engine)
    (presets : Presets) :
    ∃ report r, (e.reset.loadPresets presets).process p = .ok (report, r) ∧
      ∀ g i m name, r.engine.groups.groupOf i = some g → r.program.methods.get? i = some m →
        m.newName = some name →
        ((∃ j n, r.program.methods.get? j = some n ∧ r.engine.groups.groupOf j ≠ some g ∧
            n.owner = m.owner ∧ n.key = m.finalKey) ↔
          p.presetOf presets (.method i) = some name ∧ name ≠ m.name ∧
            p.Declares (m.scope, m.keyAs name)) := by
  have he := e.unused_reset.loadPresets presets
  rcases Run.sourced_bound p presets he (Program.presetOf_loadPresets e.reset presets) with
    ⟨hsourced, hbinds⟩
  have hgrouped := grouped_bound hp.wellFormed he.groups
  rcases process_eq_ok hp.wellFormed he.groups with ⟨report, hrun⟩
  refine ⟨report, _, hrun, ?_⟩
  generalize (e.reset.loadPresets presets).bound p = r at hsourced hbinds hgrouped
  intro g i m name hi hm hname
  change r.engine.groups.groupOf i = some g at hi
  rw [MethodSymbol.finalKey_of_renamed hname]
  constructor
  · rintro ⟨j, n, hn, hj, howner, hmeets⟩
    have hij : i ≠ j := fun heq => hj (heq ▸ hi)
    refine ⟨hsourced.preset_of_meets hbinds hgrouped hd hm hn hij howner hname hmeets, ?_, ?_⟩
    · intro hown
      rw [hown, ← MethodSymbol.key] at hmeets
      exact hij (hd.eq_of_key_eq hgrouped.declared_unified hm hn howner.symm hmeets.symm)
    · have hdeclares := (Program.declares_key hn).of_declared hgrouped.declared_unified
      rwa [MethodSymbol.scope, howner, hmeets] at hdeclares
  · rintro ⟨-, hne, hdeclares⟩
    rcases Run.exists_method_of_declares hgrouped.declared_unified hdeclares with
      ⟨j, n, hn, howner, hkey⟩
    refine ⟨j, n, hn, fun hj => hne ?_, howner, hkey⟩
    -- members of the group share their keys
    have hgroup : ∀ {k}, r.engine.groups.groupOf k = some g → k ∈ r.engine.groups.members g :=
      (OverrideGroups.groupOf_eq_some_iff hgrouped.disjoint).mp
    have hsame := hgrouped.key_eq_unified (Or.inr ⟨g, hgroup hi, hgroup hj⟩) hm hn
    rw [hkey] at hsame
    exact (String.append_left_inj m.paramText).mp hsame

/-- Without presets the group of the two methods `d` takes the key of no other method. -/
theorem finalKeys_process_relatedTypes : Program.relatedTypes.Built ∧
    Program.relatedTypes.DistinctKeys ∧
    ∃ report r, (({} : Engine).reset.loadPresets {}).process Program.relatedTypes =
        .ok (report, r) ∧
      ∃ g m, r.engine.groups.groupOf ⟨2⟩ = some g ∧ r.program.methods.get? ⟨2⟩ = some m ∧
        m.newName = some "d" ∧ ¬ ∃ j n, r.program.methods.get? j = some n ∧
          r.engine.groups.groupOf j ≠ some g ∧ n.owner = m.owner ∧ n.key = m.finalKey := by
  have hbuilt := Program.built_relatedTypes
  have hdistinct : Program.relatedTypes.DistinctKeys := by decide +kernel
  rcases process_eq_ok (e := ({} : Engine).reset.loadPresets {}) hbuilt.wellFormed rfl with
    ⟨report, hrun⟩
  rcases finalKeys_process_unrelated Program.relatedTypes hbuilt hdistinct {} {} with
    ⟨report', r, hrun', hiff⟩
  rw [hrun] at hrun'
  cases hrun'
  let r := ((({} : Engine).reset.loadPresets {}).bound Program.relatedTypes).unified
  have hgroup : r.engine.groups.groupOf ⟨2⟩ = some ⟨0⟩ := by decide +kernel
  have hm : r.program.methods.get? ⟨2⟩ = some { calledItself with owner := ⟨1⟩ } := by
    decide +kernel
  refine ⟨hbuilt, hdistinct, report, r, hrun, ⟨0⟩, _, hgroup, hm, rfl, fun hmeets => ?_⟩
  have hpreset := ((hiff _ _ _ "d" hgroup hm rfl).mp hmeets).1
  rw [Program.presetOf_empty] at hpreset
  cases hpreset

/-- With a usable preset a group takes the key of an unrelated method: both methods `run` end as
`size`, which `Base` declares already. -/
theorem finalKeys_process_runners : Program.runners.Built ∧ Program.runners.DistinctKeys ∧
    Presets.sized.Usable ({} : Engine).policy ∧
    ∃ report r, (({} : Engine).reset.loadPresets Presets.sized).process Program.runners =
        .ok (report, r) ∧
      ∃ g m n, r.engine.groups.groupOf ⟨0⟩ = some g ∧ r.program.methods.get? ⟨0⟩ = some m ∧
        m.newName = some "size" ∧ r.program.methods.get? ⟨1⟩ = some n ∧
        r.engine.groups.groupOf ⟨1⟩ ≠ some g ∧ n.owner = m.owner ∧ n.key = m.finalKey := by
  have hbuilt := Program.built_runners
  rcases process_eq_ok (e := ({} : Engine).reset.loadPresets Presets.sized) hbuilt.wellFormed rfl
    with ⟨report, hrun⟩
  let r := ((({} : Engine).reset.loadPresets Presets.sized).bound Program.runners).unified
  have hm : r.program.methods.get? ⟨0⟩ = some
      { owner := ⟨0⟩, name := "run", params := [], returnType := "V", isVirtual := true,
        newName := some "size", renamed := true, fromPreset := true } := by
    decide +kernel
  have hn : r.program.methods.get? ⟨1⟩ = some
      { owner := ⟨0⟩, name := "size", params := [], returnType := "V", isVirtual := false } := by
    decide +kernel
  exact ⟨hbuilt, by decide +kernel, by decide +kernel, report, r, hrun, ⟨0⟩, _, _,
    by decide +kernel, hm, rfl, hn, by decide +kernel, rfl, rfl⟩

end Engine
end Renamer
