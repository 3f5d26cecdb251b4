import Renamer.Proofs.MemberLists
import Renamer.Proofs.TreeCalls

/-!
# Calls on programs

A program is made by calls in any order, from the empty one: types and members are added, what they
refer to is set, and aliases are bound and dropped. Wherever calls lead, member lists and the index
of names are what a search would answer, nested types agree with the types around them, and a name
can be composed around any type (`ProgramCall.wellKept_runAll`).
-/

namespace Renamer

/-- What a call changes of a type. -/
inductive TypeChange where
  | superType (name : String)
  | interface (name : String)
  | sourceFile (file : String)
  /-- The source file is taken. -/
  | noSourceFile
  | newName (fullName : String)

/-- What a call changes of a method. -/
inductive MethodChange where
  | newName (name : String)
  | presetMark (fromPreset : Bool)

/-- A call that changes a program. -/
inductive ProgramCall where
  | addType (d : Declaration)
  | addNestedType (outer : TypeId) (d : Declaration)
  | addField (owner : TypeId) (name descriptor : String)
  | addMethod (owner : TypeId) (name : String) (params : List String) (returnType : String)
      (isVirtual : Bool)
  | changeType (ty : TypeId) (change : TypeChange)
  | renameField (id : FieldId) (name : String)
  | changeMethod (id : MethodId) (change : MethodChange)
  | clearAliases

/-! ## Changes -/

namespace TypeChange

/-- The type after a change. -/
def apply : TypeChange → TypeSymbol → TypeSymbol
  | superType name, t => { t with superType := some name }
  | interface name, t => { t with interfaces := t.interfaces ++ [name] }
  | sourceFile file, t => { t with sourceFile := some file }
  | noSourceFile, t => { t with sourceFile := none }
  | newName fullName, t => { t with newName := some fullName }

/-- The program after a change of one of its types. -/
def run (p : Program) (ty : TypeId) : TypeChange → Except OutOfRange Program
  | superType name => p.setSuperType ty name
  | interface name => p.addInterface ty name
  | sourceFile file => p.setSourceFile ty file
  | noSourceFile => return (← p.takeSourceFile ty).2
  | newName fullName => p.renameType ty fullName

variable {p p' : Program} {ty : TypeId} {change : TypeChange}

theorem fullName_apply (change : TypeChange) (t : TypeSymbol) :
    (change.apply t).fullName = t.fullName := by
  cases change <;> rfl

theorem run_eq_updateType (change : TypeChange) (p : Program) (ty : TypeId) :
    change.run p ty = p.updateType ty change.apply := by
  cases change with
  | superType name | interface name | sourceFile file => rfl
  | noSourceFile =>
    rw [run, Program.takeSourceFile, Program.updateType, Arena.update]
    cases p.types.get ty <;> rfl
  | newName fullName =>
    rw [run, Program.renameType, Program.updateType, Arena.update]
    cases p.types.get ty <;> rfl

theorem built_run (hp : p.Built) (h : change.run p ty = .ok p') : p'.Built := by
  cases change with
  | superType name => exact hp.setSuperType h
  | interface name => exact hp.addInterface h
  | sourceFile file => exact hp.setSourceFile h
  | noSourceFile =>
    obtain ⟨⟨file, r⟩, htake, hr⟩ := bind_eq_ok.mp h
    cases hr
    exact hp.takeSourceFile htake
  | newName fullName => exact hp.renameType h

end TypeChange

namespace MethodChange

/-- The method after a change. -/
def apply : MethodChange → MethodSymbol → MethodSymbol
  | newName name, m => { m with newName := some name, renamed := true }
  | presetMark fromPreset, m => { m with fromPreset }

/-- The program after a change of one of its methods. -/
def run (p : Program) (id : MethodId) : MethodChange → Except OutOfRange Program
  | newName name => p.renameMethod id name
  | presetMark fromPreset => p.markPreset id fromPreset

variable {p p' : Program} {id : MethodId} {change : MethodChange}

theorem owner_apply (change : MethodChange) (m : MethodSymbol) :
    (change.apply m).owner = m.owner := by
  cases change <;> rfl

theorem run_eq_ok_iff : change.run p id = .ok p' ↔ ∃ m, p.methods.get id = .ok m ∧
    p' = { p with methods := p.methods.modify id change.apply } := by
  cases change with
  | newName name | presetMark mark =>
    exact bind_eq_ok.trans (exists_congr fun m => and_congr_right fun _ =>
      ⟨fun h => (Except.ok.inj h).symm, fun h => congrArg Except.ok h.symm⟩)

theorem built_run (hp : p.Built) (h : change.run p id = .ok p') : p'.Built := by
  cases change with
  | newName name => exact hp.renameMethod h
  | presetMark mark => exact hp.markPreset h

end MethodChange

/-! ## Composing a name slot by slot -/

namespace BySlot

/-- The name without package of a type that fewer than `depth` types stand around; it is an error
that more do. -/
def chainName (p : Program) : Nat → TypeId → Engine → Except OutOfRange (String × Engine)
  | 0, ty, _ => .error ⟨p.types.size, ty.index⟩
  | depth + 1, ty, e =>
    match e.keptChain ty with
    | some name => return (name, e)
    | none => do
      let t ← p.types.get ty
      let own := e.lastPart ty t
      let (name, e) ← match t.enclosing with
        | none => pure (own, e)
        | some outer => do
          let (around, e) ← chainName p depth outer e
          pure (around ++ nestedSeparator ++ own, e)
      return (name, e.keep ty fun r => { r with chain := some name })

/-- Around a type stand older ones, so that its own slot bounds the depth. -/
theorem chainName_eq {p : Program} (hp : p.WellFormed) {depth : Nat} {ty : TypeId} {t : TypeSymbol}
    (ht : p.types.get? ty = some t) (hdepth : ty.index < depth) (e : Engine) :
    chainName p depth ty e = .ok (e.chainName (p.lineage ty)) := by
  induction depth generalizing ty t with
  | zero => omega
  | succ depth ih =>
    unfold chainName
    cases henclosing : t.enclosing with
    | none =>
      rw [Program.lineage_of_topLevel ht henclosing, Engine.chainName]
      cases e.keptChain ty with
      | some name => rfl
      | none =>
        dsimp only
        rw [Arena.get_eq_ok_iff.mpr ht, ok_bind, henclosing]
        rfl
    | some outer =>
      obtain ⟨o, ho, hlt, -⟩ := hp.nested ht henclosing
      rw [Program.lineage_of_nested hp ht henclosing, Engine.chainName]
      cases e.keptChain ty with
      | some name => rfl
      | none =>
        dsimp only
        rw [Arena.get_eq_ok_iff.mpr ht, ok_bind, henclosing, Program.isEmpty_lineage ho]
        dsimp only
        rw [ih ho (by omega)]
        rfl

end BySlot

namespace ProgramCall

/-! ## Calls -/

/-- The program after a call. -/
def run (p : Program) : ProgramCall → Except OutOfRange Program
  | addType d => return (p.addType d).2
  | addNestedType outer d => return (← p.addNestedType outer d).2
  | addField owner name descriptor => return (← p.addField owner name descriptor).2
  | addMethod owner name params returnType isVirtual =>
    return (← p.addMethod owner name params returnType isVirtual).2
  | changeType ty change => change.run p ty
  | renameField id name => p.renameField id name
  | changeMethod id change => change.run p id
  | clearAliases => return p.clearAliases

/-- The program after calls, none at first. -/
def runAll (calls : List ProgramCall) : Except OutOfRange Program := calls.foldlM run {}

/-- The program with member lists after a call. -/
def runListed (q : ListedProgram) : ProgramCall → Except OutOfRange ListedProgram
  | addType d => return (q.addType d).2
  | addNestedType outer d => return (← q.addNestedType outer d).2
  | addField owner name descriptor => return (← q.addField owner name descriptor).2
  | addMethod owner name params returnType isVirtual =>
    return (← q.addMethod owner name params returnType isVirtual).2
  | changeType ty change => q.updateType ty change.apply
  | renameField id name => q.updateField id fun f => { f with newName := some name }
  | changeMethod id change => q.updateMethod id change.apply
  | clearAliases => return q.clearAliases

/-- The program with member lists after calls, none at first. -/
def runAllListed (calls : List ProgramCall) : Except OutOfRange ListedProgram :=
  calls.foldlM runListed {}

/-- The call is given a slot that the program has. -/
def There (p : Program) : ProgramCall → Prop
  | addNestedType ty _ | addField ty _ _ | addMethod ty _ _ _ _ | changeType ty _ =>
    ty.index < p.types.size
  | renameField id _ => id.index < p.fields.size
  | changeMethod id _ => id.index < p.methods.size
  | addType _ | clearAliases => True

/-- Each call is given a slot that the program has by then. -/
def AllThere (calls : List ProgramCall) : Prop :=
  ∀ before call after, calls = before ++ call :: after → ∀ p, runAll before = .ok p → call.There p

/-- What a call does to a program. -/
inductive Runs (p : Program) : ProgramCall → Program → Prop
  | addType (d : Declaration) : Runs p (addType d) (p.addType d).2
  | addNestedType {outer : TypeId} {o : TypeSymbol} (ho : p.types.get? outer = some o)
      (d : Declaration) : Runs p (addNestedType outer d)
        (p.pushType (.ofDeclaration d o.package (o.fullName ++ nestedSeparator ++ d.shortName)
          (some outer))).2
  | addField {owner : TypeId} {o : TypeSymbol} (ho : p.types.get? owner = some o)
      (name descriptor : String) : Runs p (addField owner name descriptor)
        { p with fields := p.fields.push { owner, name, descriptor } }
  | addMethod {owner : TypeId} {o : TypeSymbol} (ho : p.types.get? owner = some o) (name : String)
      (params : List String) (returnType : String) (isVirtual : Bool) :
      Runs p (addMethod owner name params returnType isVirtual)
        { p with methods := p.methods.push { owner, name, params, returnType, isVirtual } }
  | changeType {ty : TypeId} {t : TypeSymbol} (ht : p.types.get? ty = some t)
      (change : TypeChange) : Runs p (changeType ty change)
        { p with types := p.types.modify ty change.apply }
  | renameField {id : FieldId} {f : FieldSymbol} (hf : p.fields.get? id = some f)
      (name : String) : Runs p (renameField id name) (p.withFieldAlias id name)
  | changeMethod {id : MethodId} {m : MethodSymbol} (hm : p.methods.get? id = some m)
      (change : MethodChange) : Runs p (changeMethod id change)
        { p with methods := p.methods.modify id change.apply }
  | clearAliases : Runs p clearAliases p.clearAliases

variable {calls : List ProgramCall} {call : ProgramCall} {p p' : Program} {q : ListedProgram}

theorem run_eq_ok_iff : run p call = .ok p' ↔ Runs p call p' := by
  constructor
  · intro h
    cases call with
    | addType d =>
      cases h
      exact .addType d
    | addNestedType outer d =>
      obtain ⟨r, hadd, hr⟩ := bind_eq_ok.mp h
      obtain ⟨o, ho, hadd⟩ := bind_eq_ok.mp hadd
      cases hadd
      cases hr
      exact .addNestedType (Arena.get_eq_ok_iff.mp ho) d
    | addField owner name descriptor =>
      obtain ⟨r, hadd, hr⟩ := bind_eq_ok.mp h
      obtain ⟨o, ho, hadd⟩ := bind_eq_ok.mp hadd
      cases hadd
      cases hr
      exact .addField (Arena.get_eq_ok_iff.mp ho) name descriptor
    | addMethod owner name params returnType isVirtual =>
      obtain ⟨r, hadd, hr⟩ := bind_eq_ok.mp h
      obtain ⟨o, ho, hadd⟩ := bind_eq_ok.mp hadd
      cases hadd
      cases hr
      exact .addMethod (Arena.get_eq_ok_iff.mp ho) name params returnType isVirtual
    | changeType ty change =>
      rw [run, TypeChange.run_eq_updateType] at h
      obtain ⟨types, hupdate, hp'⟩ := bind_eq_ok.mp h
      obtain ⟨t, ht, hmodify⟩ := bind_eq_ok.mp hupdate
      cases hmodify
      cases hp'
      exact .changeType (Arena.get_eq_ok_iff.mp ht) change
    | renameField id name =>
      obtain ⟨f, hf, hp'⟩ := bind_eq_ok.mp h
      cases hp'
      exact .renameField (Arena.get_eq_ok_iff.mp hf) name
    | changeMethod id change =>
      obtain ⟨m, hm, rfl⟩ := MethodChange.run_eq_ok_iff.mp h
      exact .changeMethod (Arena.get_eq_ok_iff.mp hm) change
    | clearAliases =>
      cases h
      exact .clearAliases
  · intro h
    cases h with
    | addType d => rfl
    | addNestedType ho | addField ho | addMethod ho =>
      exact bind_eq_ok.mpr ⟨_, bind_eq_ok.mpr ⟨_, Arena.get_eq_ok_iff.mpr ho, rfl⟩, rfl⟩
    | changeType ht change =>
      rw [run, TypeChange.run_eq_updateType]
      exact bind_eq_ok.mpr ⟨_, Arena.update_eq_ok ht _, rfl⟩
    | renameField hf name => exact bind_eq_ok.mpr ⟨_, Arena.get_eq_ok_iff.mpr hf, rfl⟩
    | changeMethod hm change =>
      exact MethodChange.run_eq_ok_iff.mpr ⟨_, Arena.get_eq_ok_iff.mpr hm, rfl⟩
    | clearAliases => rfl

/-! ## What one call keeps -/

/-- A call succeeds exactly if it is given a slot that is there. -/
theorem exists_runs_iff : (∃ p', Runs p call p') ↔ call.There p := by
  constructor
  · rintro ⟨p', h⟩
    cases h with
    | addType d => trivial
    | addNestedType h | addField h | addMethod h | changeType h | renameField h | changeMethod h =>
      exact Arena.index_lt_of_get? h
    | clearAliases => trivial
  · intro h
    cases call with
    | addType d => exact ⟨_, .addType d⟩
    | addNestedType outer d =>
      obtain ⟨o, ho⟩ := Arena.exists_get?_of_lt h
      exact ⟨_, .addNestedType ho d⟩
    | addField owner name descriptor =>
      obtain ⟨o, ho⟩ := Arena.exists_get?_of_lt h
      exact ⟨_, .addField ho name descriptor⟩
    | addMethod owner name params returnType isVirtual =>
      obtain ⟨o, ho⟩ := Arena.exists_get?_of_lt h
      exact ⟨_, .addMethod ho name params returnType isVirtual⟩
    | changeType ty change =>
      obtain ⟨t, ht⟩ := Arena.exists_get?_of_lt h
      exact ⟨_, .changeType ht change⟩
    | renameField id name =>
      obtain ⟨f, hf⟩ := Arena.exists_get?_of_lt h
      exact ⟨_, .renameField hf name⟩
    | changeMethod id change =>
      obtain ⟨m, hm⟩ := Arena.exists_get?_of_lt h
      exact ⟨_, .changeMethod hm change⟩
    | clearAliases => exact ⟨_, .clearAliases⟩

theorem built_run (hp : p.Built) (h : run p call = .ok p') : p'.Built := by
  cases call with
  | addType d =>
    cases h
    exact hp.addType d
  | addNestedType outer d =>
    obtain ⟨⟨id, r⟩, hadd, hr⟩ := bind_eq_ok.mp h
    cases hr
    exact hp.addNestedType hadd
  | addField owner name descriptor =>
    obtain ⟨⟨id, r⟩, hadd, hr⟩ := bind_eq_ok.mp h
    cases hr
    exact hp.addField hadd
  | addMethod owner name params returnType isVirtual =>
    obtain ⟨⟨id, r⟩, hadd, hr⟩ := bind_eq_ok.mp h
    cases hr
    exact hp.addMethod hadd
  | changeType ty change => exact TypeChange.built_run hp h
  | renameField id name => exact hp.renameField h
  | changeMethod id change => exact MethodChange.built_run hp h
  | clearAliases =>
    cases h
    exact hp.clearAliases

/-- Where a call leads on a program, it leads there with member lists. -/
theorem Runs.shows (h : Runs p call p') (hq : q.Shows p) (hp : p.WellFormed) :
    ∃ q', runListed q call = .ok q' ∧ q'.Shows p' := by
  cases h with
  | addType d => exact ⟨_, rfl, hq.pushType hp _⟩
  | addNestedType ho d =>
    obtain ⟨t, ht, rfl⟩ := hq.exists_type ho
    refine ⟨_, bind_eq_ok.mpr ⟨_, bind_eq_ok.mpr ⟨t, Arena.get_eq_ok_iff.mpr ht, rfl⟩, rfl⟩, ?_⟩
    exact hq.pushType hp _
  | addField ho name descriptor =>
    obtain ⟨q', hadd, hq'⟩ := hq.addField ho name descriptor
    exact ⟨q', bind_eq_ok.mpr ⟨_, hadd, rfl⟩, hq'⟩
  | addMethod ho name params returnType isVirtual =>
    obtain ⟨q', hadd, hq'⟩ := hq.addMethod ho name params returnType isVirtual
    exact ⟨q', bind_eq_ok.mpr ⟨_, hadd, rfl⟩, hq'⟩
  | changeType ht change => exact hq.updateType ht change.fullName_apply
  | renameField hf name => exact hq.updateField hf fun _ => rfl
  | changeMethod hm change => exact hq.updateMethod hm change.owner_apply
  | clearAliases => exact ⟨_, rfl, hq.clearAliases⟩

/-- Types stay in their slots, under their full names. -/
theorem Runs.fullName (h : Runs p call p') {ty : TypeId} {name : String}
    (hty : (p.types.get? ty).map (·.fullName) = some name) :
    (p'.types.get? ty).map (·.fullName) = some name := by
  have hpush : ∀ s, ((p.types.push s).get? ty).map (·.fullName) = some name := by
    intro s
    obtain ⟨t, ht, rfl⟩ := Option.map_eq_some_iff.mp hty
    rw [Arena.get?_push_of_some ht]
    rfl
  cases h with
  | addType d => exact hpush _
  | addNestedType ho d => exact hpush _
  | changeType ht change => exact (p.types.map_get?_modify _ _ change.fullName_apply).trans hty
  | clearAliases => exact (p.fullName_clearAliases ty).trans hty
  | addField | addMethod | renameField | changeMethod => exact hty

/-! ## What calls keep -/

theorem allThere_append_singleton : AllThere (calls ++ [call]) ↔
    AllThere calls ∧ ∀ p, runAll calls = .ok p → call.There p :=
  forall_split_append_singleton

theorem built_runAll (h : runAll calls = .ok p) : p.Built := by
  induction calls using List.reverseRecOn generalizing p with
  | nil =>
    cases h
    exact .empty
  | append_singleton calls call ih =>
    obtain ⟨s, hs, hrun⟩ := foldlM_append_singleton_eq_ok.mp h
    exact built_run (ih hs) hrun

/-- Wherever calls lead on programs, they lead there with member lists. -/
theorem shows_runAll (h : runAll calls = .ok p) :
    ∃ q, runAllListed calls = .ok q ∧ q.Shows p := by
  induction calls using List.reverseRecOn generalizing p with
  | nil =>
    cases h
    exact ⟨{}, rfl, ListedProgram.shows_empty⟩
  | append_singleton calls call ih =>
    obtain ⟨s, hs, hrun⟩ := foldlM_append_singleton_eq_ok.mp h
    obtain ⟨q, hq, hshows⟩ := ih hs
    obtain ⟨q', hq', hshows'⟩ :=
      (run_eq_ok_iff.mp hrun).shows hshows (built_runAll hs).wellFormed
    exact ⟨q', foldlM_append_singleton_eq_ok.mpr ⟨q, hq, hq'⟩, hshows'⟩

theorem fullName_runAll {before after : List ProgramCall} (hbefore : runAll before = .ok p)
    (h : runAll (before ++ after) = .ok p') {ty : TypeId} {name : String}
    (hty : (p.types.get? ty).map (·.fullName) = some name) :
    (p'.types.get? ty).map (·.fullName) = some name := by
  induction after using List.reverseRecOn generalizing p' with
  | nil =>
    rw [List.append_nil, hbefore] at h
    cases h
    exact hty
  | append_singleton after call ih =>
    rw [← List.append_assoc] at h
    obtain ⟨s, hs, hrun⟩ := foldlM_append_singleton_eq_ok.mp h
    exact (run_eq_ok_iff.mp hrun).fullName (ih hs)

/-- Calls succeed exactly if each is given a slot that is there. -/
theorem exists_runAll_iff : (∃ p, runAll calls = .ok p) ↔ AllThere calls := by
  induction calls using List.reverseRecOn with
  | nil => exact ⟨fun _ before call after heq => by simp at heq, fun _ => ⟨{}, rfl⟩⟩
  | append_singleton calls call ih =>
    rw [allThere_append_singleton, ← ih]
    constructor
    · rintro ⟨p', h⟩
      obtain ⟨p, hp, hrun⟩ := foldlM_append_singleton_eq_ok.mp h
      refine ⟨⟨p, hp⟩, fun s hs => ?_⟩
      cases hp.symm.trans hs
      exact exists_runs_iff.mp ⟨p', run_eq_ok_iff.mp hrun⟩
    · rintro ⟨⟨p, hp⟩, hthere⟩
      obtain ⟨p', hruns⟩ := exists_runs_iff.mpr (hthere p hp)
      exact ⟨p', foldlM_append_singleton_eq_ok.mpr ⟨p, hp, run_eq_ok_iff.mpr hruns⟩⟩

/-! ## Programs as calls make them -/

/-- After `calls`, which lead to `p`, the notes in `q` are kept well. -/
structure WellKept (calls : List ProgramCall) (p : Program) (q : ListedProgram) : Prop where
  /-- A type lists its fields, and all types list all fields, each once. -/
  fields : q.Lists (·.fields) fun id => (q.fields.get? id).map (·.owner)
  /-- A type lists its methods, and all types list all methods, each once. -/
  methods : q.Lists (·.methods) fun id => (q.methods.get? id).map (·.owner)
  /-- The full name of a top-level type is composed of its package and its short name. -/
  topLevel : ∀ {ty t}, q.types.get? ty = some t → t.symbol.enclosing = none →
    t.symbol.fullName = Program.topLevelName t.symbol.package t.symbol.shortName
  /-- A nested type is younger than the type around it. It has the package of that type, and its
  full name goes on from the full name of that type. -/
  nested : ∀ {ty t outer}, q.types.get? ty = some t → t.symbol.enclosing = some outer →
    ∃ o, q.types.get? outer = some o ∧ outer.index < ty.index ∧
      t.symbol.package = o.symbol.package ∧
      t.symbol.fullName = o.symbol.fullName ++ nestedSeparator ++ t.symbol.shortName
  /-- A name leads to the last type that has it. -/
  found : ∀ {name ty}, q.lookup name = some ty ↔
    (∃ t, q.types.get? ty = some t ∧ t.symbol.fullName = name) ∧
      ∀ later t, q.types.get? later = some t → t.symbol.fullName = name → later.index ≤ ty.index
  /-- A name leads nowhere if no type has it. -/
  missing : ∀ {name}, q.lookup name = none ↔
    ∀ ty t, q.types.get? ty = some t → t.symbol.fullName ≠ name
  /-- Types stand in the order in which they were added: each keeps its slot and its full name. -/
  stays : ∀ {before after}, calls = before ++ after → ∀ {p₀ ty t₀}, runAll before = .ok p₀ →
    p₀.types.get? ty = some t₀ → ∃ t, q.types.get? ty = some t ∧ t.symbol.fullName = t₀.fullName
  /-- Composing a name ends as soon as it may go through all the types that are not younger. -/
  composed : ∀ (e : Engine) {ty}, ty.index < q.types.size →
    ∃ answer, e.chainNameAt p ty = .ok answer ∧
      ∀ depth, ty.index < depth → BySlot.chainName p depth ty e = .ok answer

theorem wellKept_of_shows (h : runAll calls = .ok p) (hq : q.Shows p) : WellKept calls p q := by
  have hp : p.WellFormed := (built_runAll h).wellFormed
  -- types are there with and without their notes
  have hforth : ∀ {ty s}, p.types.get? ty = some s → ∃ t, q.types.get? ty = some t ∧ t.symbol = s :=
    fun hs => hq.exists_type hs
  have hback : ∀ {ty t}, q.types.get? ty = some t → p.types.get? ty = some t.symbol :=
    fun ht => (hq.types ht).symbol
  refine ⟨hq.lists_fields hp, hq.lists_methods hp, fun ht => hp.topLevel (hback ht), ?_, ?_, ?_, ?_,
    ?_⟩
  · intro ty t outer ht houter
    obtain ⟨o, ho, hlt, hpackage, hname⟩ := hp.nested (hback ht) houter
    obtain ⟨u, hu, rfl⟩ := hforth ho
    exact ⟨u, hu, hlt, hpackage, hname⟩
  · intro name ty
    rw [hq.names, Program.lookup_eq_some_iff]
    refine and_congr ⟨?_, ?_⟩ ⟨?_, ?_⟩
    · rintro ⟨s, hs, hname⟩
      obtain ⟨t, ht, rfl⟩ := hforth hs
      exact ⟨t, ht, hname⟩
    · rintro ⟨t, ht, hname⟩
      exact ⟨t.symbol, hback ht, hname⟩
    · exact fun hnewest later t ht => hnewest later t.symbol (hback ht)
    · intro hnewest later s hs
      obtain ⟨t, ht, rfl⟩ := hforth hs
      exact hnewest later t ht
  · intro name
    rw [hq.names, Program.lookup_eq_none_iff]
    constructor
    · exact fun hnone ty t ht => hnone ty t.symbol (hback ht)
    · intro hnone ty s hs
      obtain ⟨t, ht, rfl⟩ := hforth hs
      exact hnone ty t ht
  · intro before after hcalls p₀ ty t₀ hbefore ht₀
    have hname := fullName_runAll hbefore (hcalls ▸ h) (congrArg (Option.map (·.fullName)) ht₀)
    obtain ⟨s, hs, hname⟩ := Option.map_eq_some_iff.mp hname
    obtain ⟨t, ht, rfl⟩ := hforth hs
    exact ⟨t, ht, hname⟩
  · intro e ty hty
    rw [hq.size] at hty
    obtain ⟨t, ht⟩ := Arena.exists_get?_of_lt hty
    exact ⟨_, Engine.chainNameAt_of_get? ht e, fun depth hdepth =>
      BySlot.chainName_eq hp ht hdepth e⟩

/-- Calls succeed exactly if each is given a slot that the program has by then. Wherever they lead,
the member lists and the index of names are kept well. -/
theorem wellKept_runAll (calls : List ProgramCall) :
    ((∃ p, runAll calls = .ok p) ↔ AllThere calls) ∧ ∀ p, runAll calls = .ok p →
      ∃ q, runAllListed calls = .ok q ∧ q.Shows p ∧ WellKept calls p q := by
  refine ⟨exists_runAll_iff, fun p hp => ?_⟩
  obtain ⟨q, hq, hshows⟩ := shows_runAll hp
  exact ⟨q, hq, hshows, wellKept_of_shows hp hshows⟩

/-- A nested type and a top-level type of one name, a field of the first one, which is given an
alias and loses it, and a method of the type around it. -/
def namedTwice : List ProgramCall :=
  [addType { package := "p", shortName := "a" }, addNestedType ⟨0⟩ { shortName := "b" },
    addType { package := "p", shortName := "a$b" }, addField ⟨1⟩ "x" "I",
    addMethod ⟨0⟩ "run" ["I"] "V" true, changeType ⟨1⟩ (.newName "p.Widget"), clearAliases]

theorem wellKept_runAll_namedTwice : ∃ p q, runAll namedTwice = .ok p ∧
    runAllListed namedTwice = .ok q ∧ q.lookup "p.a$b" = some ⟨2⟩ ∧ q.lookup "a$b" = none ∧
    (∃ t, q.types.get? ⟨1⟩ = some t ∧ t.symbol.fullName = "p.a$b" ∧ t.fields.count ⟨0⟩ = 1) ∧
    (q.types.toList.flatMap (·.fields)).count ⟨0⟩ = 1 ∧
    ∀ e : Engine, ∃ answer, BySlot.chainName p 2 ⟨1⟩ e = .ok answer := by
  let nested : TypeSymbol :=
    { package := "p", shortName := "b", fullName := "p.a$b", enclosing := some ⟨0⟩ }
  let p : Program :=
    { types := ⟨#[{ package := "p", shortName := "a", fullName := "p.a" }, nested,
        { package := "p", shortName := "a$b", fullName := "p.a$b" }]⟩
      fields := ⟨#[{ owner := ⟨1⟩, name := "x", descriptor := "I" }]⟩
      methods := ⟨#[{ owner := ⟨0⟩, name := "run", params := ["I"], returnType := "V",
                      isVirtual := true }]⟩ }
  have hp : runAll namedTwice = .ok p := by decide +kernel
  obtain ⟨q, hq, hshows, hkept⟩ := (wellKept_runAll namedTwice).2 p hp
  obtain ⟨t, ht, hsymbol⟩ := hshows.exists_type (show p.types.get? ⟨1⟩ = some nested from rfl)
  have howner : (q.fields.get? ⟨0⟩).map (·.owner) = some ⟨1⟩ := by
    rw [hshows.fields]
    rfl
  have hage : (⟨1⟩ : TypeId).index < q.types.size := Arena.index_lt_of_get? ht
  refine ⟨p, q, hp, hq, ?_, ?_, ⟨t, ht, ?_, ?_⟩, ?_, fun e => ?_⟩
  · exact (hshows.names "p.a$b").trans (by decide +kernel)
  · exact (hshows.names "a$b").trans (by decide +kernel)
  · rw [hsymbol]
  · rw [hkept.fields.own ht, howner]
    rfl
  · rw [hkept.fields.all, howner]
    rfl
  · obtain ⟨answer, -, hends⟩ := hkept.composed e hage
    exact ⟨answer, hends 2 (by decide)⟩

end ProgramCall
end Renamer
