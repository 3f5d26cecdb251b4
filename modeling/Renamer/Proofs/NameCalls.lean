import Renamer.Proofs.Aliases
import Renamer.Proofs.Construction
import Renamer.Proofs.TreeCalls
import Renamer.Proofs.Unification

/-!
# Names taken call by call

Names are seeded, claimed and drawn by calls in any order, each for a program of its own and from a
source of its own, beginning with no name in use. `NameEvent.Takes` says what a call took, given
what it answered.

The names in use are those that some call took. A draw takes what no call before it took, and a
group of methods is given the chosen name exactly where every member can have it
(`NameCall.history_runAll`).
-/

namespace Renamer

/-- A call that takes names. A call that draws has its own source of names. -/
inductive NameCall where
  | seed
  | claim (scope : Scope) (name : String)
  | claimMethod (id : MethodId) (name : String)
  | draw (scope : Scope) (source : NameSource)
  | drawMethod (id : MethodId) (source : NameSource)
  | fitGroup (group : List MethodId) (chosen : String) (source : NameSource)
  deriving DecidableEq

/-- A call for a program, with the name that it answered; seeding and claiming answer none. -/
structure NameEvent where
  program : Program
  call : NameCall
  answer : Option String
  deriving DecidableEq

namespace NameCall

/-! ## Calls -/

/-- The methods that a call is given. -/
def methods : NameCall → List MethodId
  | claimMethod id _ => [id]
  | drawMethod id _ => [id]
  | fitGroup group _ _ => group
  | _ => []

/-- What a call answers, and the names in use after it. -/
def run (t : TakenNames) (p : Program) :
    NameCall → Except OutOfRange (Option String × TakenNames)
  | seed => return (none, t.seed p)
  | claim scope name => return (none, t.claim scope name)
  | claimMethod id name => do
    let m ← p.methods.get id
    return (none, t.claimMethod m name)
  | draw scope source =>
    let drawn := t.draw scope source
    return (some drawn.1, drawn.2.1)
  | drawMethod id source => do
    let drawn := t.drawMethod (← p.methods.get id) source
    return (some drawn.1, drawn.2.1)
  | fitGroup group chosen source => do
    let members ← Unification.resolve p group
    let fitted := t.fitGroup (members.map Prod.snd) chosen source
    return (some fitted.1, fitted.2.1)

/-- Makes one call more. -/
def next (s : List NameEvent × TakenNames) (c : Program × NameCall) :
    Except OutOfRange (List NameEvent × TakenNames) := do
  let (answer, t) ← c.2.run s.2 c.1
  return (s.1 ++ [⟨c.1, c.2, answer⟩], t)

/-- The calls with their answers, and the names in use after them; at first there is none. -/
def runAll (calls : List (Program × NameCall)) :
    Except OutOfRange (List NameEvent × TakenNames) := calls.foldlM next ([], {})

/-- What a call for `p` takes where it answers `answer`: a scope, with a name in the form that
counts there. -/
def Takes (p : Program) (answer : Option String) (x : Scope × String) : NameCall → Prop
  | seed => p.Declares x
  | claim scope name => x = (scope, name)
  | claimMethod id name => ∃ m, p.methods.get? id = some m ∧ x = (m.scope, m.keyAs name)
  | draw scope _ => ∃ name, answer = some name ∧ x = (scope, name)
  | drawMethod id _ =>
    ∃ name m, answer = some name ∧ p.methods.get? id = some m ∧ x = (m.scope, m.keyAs name)
  | fitGroup group _ _ => ∃ name, answer = some name ∧
    ∃ id ∈ group, ∃ m, p.methods.get? id = some m ∧ x = (m.scope, m.keyAs name)

end NameCall

/-- What the call took. -/
def NameEvent.Takes (e : NameEvent) (x : Scope × String) : Prop :=
  e.call.Takes e.program e.answer x

/-! ## One call -/

namespace NameCall

variable {t t' : TakenNames} {p : Program} {call : NameCall} {answer : Option String}

/-- What a call that succeeds does to the names in use. -/
inductive Does (t : TakenNames) (p : Program) : NameCall → Option String → TakenNames → Prop
  | seed : Does t p seed none (t.seed p)
  | claim (scope : Scope) (name : String) :
      Does t p (claim scope name) none (t.claim scope name)
  | claimMethod {id : MethodId} {m : MethodSymbol} (name : String) :
      p.methods.get? id = some m →
      Does t p (claimMethod id name) none (t.claim m.scope (m.keyAs name))
  | draw {scope : Scope} {name : String} (source : NameSource) : (scope, name) ∉ t.pairs →
      Does t p (draw scope source) (some name) (t.claim scope name)
  | drawMethod {id : MethodId} {m : MethodSymbol} {name : String} (source : NameSource) :
      p.methods.get? id = some m → (m.scope, m.keyAs name) ∉ t.pairs →
      Does t p (drawMethod id source) (some name) (t.claim m.scope (m.keyAs name))
  | fitGroup {group : List MethodId} {chosen name : String} (source : NameSource) :
      Unification.Present p group →
      (name = chosen ↔ t.groupFits (p.symbols group) chosen = true) →
      Does t p (fitGroup group chosen source) (some name)
        ((p.symbols group).foldl (fun t m => t.claimMethod m name) t)

/-- A draw finds a name that is free in the form it is given. -/
theorem drawAs_free (t : TakenNames) (scope : Scope) {form : String → String}
    (hform : Function.Injective form) (source : NameSource) :
    ∃ name source', t.drawAs scope form source = (name, t.claim scope (form name), source') ∧
      (scope, form name) ∉ t.pairs := by
  obtain ⟨n, hnext, heq⟩ := t.drawAs_eq scope hform source
  exact ⟨_, _, heq, TakenNames.isFree_eq_true_iff.mp hnext.accepted⟩

/-- A group keeps the chosen name exactly where all of it fits. -/
theorem fitGroup_eq_chosen_iff (t : TakenNames) (group : List MethodSymbol) (chosen : String)
    (source : NameSource) :
    ∃ name source', t.fitGroup group chosen source =
        (name, group.foldl (fun t m => t.claimMethod m name) t, source') ∧
      (name = chosen ↔ t.groupFits group chosen = true) := by
  obtain ⟨name, source', heq, ⟨hfits, rfl, -⟩ | ⟨n, ⟨hfits, hnext⟩, rfl, -⟩⟩ :=
    t.fitGroup_eq group chosen source
  · exact ⟨name, source', heq, iff_of_true rfl hfits⟩
  · refine ⟨_, source', heq, iff_of_false (fun hsame => ?_) (by simp [hfits])⟩
    -- the word drawn instead fits
    have haccepted := hnext.accepted
    rw [hsame, hfits] at haccepted
    cases haccepted

/-- A call succeeds where its methods are there. -/
theorem exists_does (t : TakenNames) (h : Unification.Present p call.methods) :
    ∃ answer t', run t p call = .ok (answer, t') ∧ Does t p call answer t' := by
  cases call with
  | seed => exact ⟨_, _, rfl, .seed⟩
  | claim scope name => exact ⟨_, _, rfl, .claim scope name⟩
  | claimMethod id name =>
    obtain ⟨m, hm⟩ := h id List.mem_cons_self
    refine ⟨_, _, ?_, .claimMethod name hm⟩
    rw [run, Arena.get_eq_ok_iff.mpr hm]
    rfl
  | draw scope source =>
    obtain ⟨name, source', heq, hfree⟩ := drawAs_free t scope Function.injective_id source
    refine ⟨_, _, ?_, .draw source hfree⟩
    rw [run, TakenNames.draw, heq]
    rfl
  | drawMethod id source =>
    obtain ⟨m, hm⟩ := h id List.mem_cons_self
    obtain ⟨name, source', heq, hfree⟩ := drawAs_free t m.scope m.keyAs_injective source
    refine ⟨_, _, ?_, .drawMethod source hm hfree⟩
    have hdraw : t.drawMethod m source = (name, t.claim m.scope (m.keyAs name), source') := heq
    rw [run, Arena.get_eq_ok_iff.mpr hm, ok_bind, hdraw]
    rfl
  | fitGroup group chosen source =>
    obtain ⟨name, source', heq, hname⟩ := fitGroup_eq_chosen_iff t (p.symbols group) chosen source
    refine ⟨_, _, ?_, .fitGroup source h hname⟩
    have hfit : t.fitGroup ((p.listed group).map Prod.snd) chosen source =
        (name, (p.symbols group).foldl (fun t m => t.claimMethod m name) t, source') := heq
    have hresolve : Unification.resolve p group = .ok (p.listed group) :=
      Unification.resolve_eq_ok h
    rw [run, hresolve, ok_bind, hfit]
    rfl

theorem present_of_resolve {group : List MethodId} {members : List (MethodId × MethodSymbol)}
    (h : Unification.resolve p group = .ok members) : Unification.Present p group := by
  induction group generalizing members with
  | nil => exact fun id hid => absurd hid List.not_mem_nil
  | cons first group ih =>
    rw [Unification.resolve, List.mapM_cons] at h
    obtain ⟨e, hfirst, hrest⟩ := bind_eq_ok.mp h
    obtain ⟨m, hm, -⟩ := bind_eq_ok.mp hfirst
    obtain ⟨rest, hresolve, -⟩ := bind_eq_ok.mp hrest
    intro id hid
    rcases List.mem_cons.mp hid with rfl | hid
    · exact ⟨m, Arena.get_eq_ok_iff.mp hm⟩
    · exact ih hresolve id hid

/-- The methods of a call that succeeds are there. -/
theorem present_of_run (h : run t p call = .ok (answer, t')) :
    Unification.Present p call.methods := by
  have hone : ∀ {id m}, p.methods.get id = .ok m → Unification.Present p [id] := by
    intro id m hm id' hid
    rw [List.mem_singleton.mp hid]
    exact ⟨m, Arena.get_eq_ok_iff.mp hm⟩
  cases call with
  | seed | claim _ _ | draw _ _ => exact fun id hid => absurd hid List.not_mem_nil
  | claimMethod id name =>
    obtain ⟨m, hm, -⟩ := bind_eq_ok.mp h
    exact hone hm
  | drawMethod id source =>
    obtain ⟨m, hm, -⟩ := bind_eq_ok.mp h
    exact hone hm
  | fitGroup group chosen source =>
    obtain ⟨members, hmembers, -⟩ := bind_eq_ok.mp h
    exact present_of_resolve hmembers

theorem does_of_run (h : run t p call = .ok (answer, t')) : Does t p call answer t' := by
  obtain ⟨answer', u, hrun, hdoes⟩ := exists_does t (present_of_run h)
  cases h.symm.trans hrun
  exact hdoes

/-- After a call the names in use are those before it and those that it took. -/
theorem Does.mem_iff (h : Does t p call answer t') {x : Scope × String} :
    x ∈ t'.pairs ↔ x ∈ t.pairs ∨ call.Takes p answer x := by
  cases h with
  | seed => exact TakenNames.mem_seed
  | claim scope name => exact TakenNames.mem_claim
  | claimMethod name hm =>
    rw [TakenNames.mem_claim]
    simp [Takes, hm]
  | draw source _ =>
    rw [TakenNames.mem_claim]
    simp [Takes]
  | drawMethod source hm _ =>
    rw [TakenNames.mem_claim]
    simp [Takes, hm]
  | fitGroup source hpresent _ =>
    rw [TakenNames.mem_foldl_claimMethod]
    refine or_congr_right ⟨?_, ?_⟩
    · rintro ⟨m, hmem, rfl⟩
      obtain ⟨id, hid, hm⟩ := Program.mem_symbols.mp hmem
      exact ⟨_, rfl, id, hid, m, hm, rfl⟩
    · rintro ⟨_, hname, id, hid, m, hm, rfl⟩
      cases hname
      exact ⟨m, Program.mem_symbols.mpr ⟨id, hid, hm⟩, rfl⟩

end NameCall

/-! ## Calls in order -/

/-- The call, without its answer. -/
def NameEvent.made (e : NameEvent) : Program × NameCall := (e.program, e.call)

namespace NameCall

variable {calls : List (Program × NameCall)} {log earlier later : List NameEvent} {e : NameEvent}
  {t t' : TakenNames}

theorem runAll_append_singleton {c : Program × NameCall} :
    runAll (calls ++ [c]) = .ok (log, t') ↔ ∃ log₀ t answer, runAll calls = .ok (log₀, t) ∧
      c.2.run t c.1 = .ok (answer, t') ∧ log = log₀ ++ [⟨c.1, c.2, answer⟩] := by
  rw [runAll, foldlM_append_singleton_eq_ok]
  constructor
  · rintro ⟨⟨log₀, t⟩, hcalls, hnext⟩
    obtain ⟨⟨answer, u⟩, hrun, hu⟩ := bind_eq_ok.mp hnext
    cases hu
    exact ⟨log₀, t, answer, hcalls, hrun, rfl⟩
  · rintro ⟨log₀, t, answer, hcalls, hrun, rfl⟩
    exact ⟨(log₀, t), hcalls, bind_eq_ok.mpr ⟨(answer, t'), hrun, rfl⟩⟩

/-- The log tells the calls. -/
theorem made_runAll (h : runAll calls = .ok (log, t)) : log.map NameEvent.made = calls := by
  induction calls using List.reverseRecOn generalizing log t with
  | nil =>
    cases h
    rfl
  | append_singleton calls c ih =>
    obtain ⟨log₀, s, answer, hcalls, -, rfl⟩ := runAll_append_singleton.mp h
    rw [List.map_append, ih hcalls]
    rfl

/-- Calls succeed exactly if all methods are there. -/
theorem runAll_isOk_iff : (∃ log t, runAll calls = .ok (log, t)) ↔
    ∀ c ∈ calls, Unification.Present c.1 c.2.methods := by
  induction calls using List.reverseRecOn with
  | nil => exact iff_of_true ⟨[], {}, rfl⟩ fun c hc => absurd hc List.not_mem_nil
  | append_singleton calls c ih =>
    rw [List.forall_mem_append, List.forall_mem_singleton, ← ih]
    constructor
    · rintro ⟨log, t, h⟩
      obtain ⟨log₀, s, answer, hcalls, hrun, -⟩ := runAll_append_singleton.mp h
      exact ⟨⟨log₀, s, hcalls⟩, present_of_run hrun⟩
    · rintro ⟨⟨log, t, hcalls⟩, hpresent⟩
      obtain ⟨answer, t', hrun, -⟩ := exists_does t hpresent
      exact ⟨_, t', runAll_append_singleton.mpr ⟨log, t, answer, hcalls, hrun, rfl⟩⟩

/-- The names in use are those that some call took. -/
theorem mem_runAll_iff (h : runAll calls = .ok (log, t)) {x : Scope × String} :
    x ∈ t.pairs ↔ ∃ e ∈ log, e.Takes x := by
  induction calls using List.reverseRecOn generalizing log t with
  | nil =>
    cases h
    simp
  | append_singleton calls c ih =>
    obtain ⟨log₀, s, answer, hcalls, hrun, rfl⟩ := runAll_append_singleton.mp h
    rw [(does_of_run hrun).mem_iff, ih hcalls]
    simp [or_and_right, exists_or, NameEvent.Takes]

/-- Each event is a call made where the calls before it have led, and what is in use after it stays
in use. -/
theorem runAll_split (h : runAll calls = .ok (log, t)) (hlog : log = earlier ++ e :: later) :
    ∃ s s', runAll (earlier.map NameEvent.made) = .ok (earlier, s) ∧
      e.call.run s e.program = .ok (e.answer, s') ∧ ∀ x ∈ s'.pairs, x ∈ t.pairs := by
  induction calls using List.reverseRecOn generalizing log t later with
  | nil =>
    cases h
    simp at hlog
  | append_singleton calls c ih =>
    obtain ⟨log₀, s, answer, hcalls, hrun, rfl⟩ := runAll_append_singleton.mp h
    cases later using List.reverseRecOn with
    | nil =>
      obtain ⟨rfl, he⟩ := List.append_inj' hlog rfl
      cases he
      rw [made_runAll hcalls]
      exact ⟨s, t, hcalls, hrun, fun x hx => hx⟩
    | append_singleton later last =>
      rw [← List.cons_append, ← List.append_assoc] at hlog
      obtain ⟨u, u', hearlier, he, hkept⟩ := ih hcalls (List.append_inj' hlog rfl).1
      exact ⟨u, u', hearlier, he, fun x hx => (does_of_run hrun).mem_iff.mpr (Or.inl (hkept x hx))⟩

/-! ## Histories -/

/-- What calls and their answers have to do with the names in use after them. -/
structure History (log : List NameEvent) (t : TakenNames) : Prop where
  /-- The names in use are those that some call took. -/
  taken : ∀ x, x ∈ t.pairs ↔ ∃ e ∈ log, e.Takes x
  /-- A call gives no name back, no later call does, and the names of a scope in which it takes none
  stay as they are. -/
  kept : ∀ earlier e later, log = earlier ++ e :: later →
    ∃ s s', runAll (earlier.map NameEvent.made) = .ok (earlier, s) ∧
      e.call.run s e.program = .ok (e.answer, s') ∧
      (∀ scope, s.taken scope ⊆ s'.taken scope ∧ s'.taken scope ⊆ t.taken scope) ∧
      ∀ scope, (∀ name, ¬ e.Takes (scope, name)) →
        ∀ name, name ∈ s'.taken scope ↔ name ∈ s.taken scope
  /-- A draw in a scope answers a name that no call before took there. -/
  drawn : ∀ earlier p scope source answer later,
    log = earlier ++ ⟨p, .draw scope source, answer⟩ :: later →
      ∃ name, answer = some name ∧ name ∈ t.taken scope ∧
        ∀ e ∈ earlier, ¬ e.Takes (scope, name)
  /-- A draw for a method answers a name under which no call before took its override key. -/
  drawnMethod : ∀ earlier p id source answer later,
    log = earlier ++ ⟨p, .drawMethod id source, answer⟩ :: later →
      ∃ name m, answer = some name ∧ p.methods.get? id = some m ∧
        m.keyAs name ∈ t.taken m.scope ∧ ∀ e ∈ earlier, ¬ e.Takes (m.scope, m.keyAs name)
  /-- A group takes the keys of its members under the name answered. That is the chosen name exactly
  if no call before took the key of a member under it, unless the owner has the key through a member
  of the group. -/
  fitted : ∀ earlier p group chosen source answer later,
    log = earlier ++ ⟨p, .fitGroup group chosen source, answer⟩ :: later →
      ∃ name, answer = some name ∧
        (∀ id ∈ group, ∃ m, p.methods.get? id = some m ∧ m.keyAs name ∈ t.taken m.scope) ∧
        (name = chosen ↔ ∀ m ∈ p.symbols group,
          (∀ e ∈ earlier, ¬ e.Takes (m.scope, m.keyAs chosen)) ∨
            ∃ o ∈ p.symbols group, o.owner = m.owner ∧
              (o.newName = some chosen ∨ o.key = m.keyAs chosen))

/-- Calls succeed exactly if their methods are there. What was taken stays taken, a draw answers a
name that is new in its scope, and a call changes no scope but its own. -/
theorem history_runAll (calls : List (Program × NameCall)) :
    ((∃ log t, runAll calls = .ok (log, t)) ↔
      ∀ c ∈ calls, Unification.Present c.1 c.2.methods) ∧
    ∀ log t, runAll calls = .ok (log, t) → log.map NameEvent.made = calls ∧ History log t := by
  refine ⟨runAll_isOk_iff, fun log t h => ⟨made_runAll h, ?_⟩⟩
  have hnew : ∀ {earlier s x}, runAll (List.map NameEvent.made earlier) = .ok (earlier, s) →
      (x ∉ s.pairs ↔ ∀ e ∈ earlier, ¬ e.Takes x) := by
    intro earlier s x hs
    rw [mem_runAll_iff hs]
    simp
  constructor
  · exact fun x => mem_runAll_iff h
  · intro earlier e later hlog
    obtain ⟨s, s', hs, hrun, hkept⟩ := runAll_split h hlog
    have hmem := fun x => (does_of_run hrun).mem_iff (x := x)
    refine ⟨s, s', hs, hrun, fun scope => ⟨fun name hname => ?_, fun name hname => ?_⟩, ?_⟩
    · rw [TakenNames.mem_taken_iff] at hname ⊢
      exact (hmem _).mpr (Or.inl hname)
    · rw [TakenNames.mem_taken_iff] at hname ⊢
      exact hkept _ hname
    · intro scope hnone name
      rw [TakenNames.mem_taken_iff, TakenNames.mem_taken_iff, hmem]
      exact or_iff_left (hnone name)
  · intro earlier p scope source answer later hlog
    obtain ⟨s, s', hs, hrun, hkept⟩ := runAll_split h hlog
    cases does_of_run hrun with
    | @draw _ name _ hfree =>
      refine ⟨name, rfl, TakenNames.mem_taken_iff.mpr (hkept _ ?_), (hnew hs).mp hfree⟩
      exact TakenNames.mem_claim.mpr (Or.inr rfl)
  · intro earlier p id source answer later hlog
    obtain ⟨s, s', hs, hrun, hkept⟩ := runAll_split h hlog
    cases does_of_run hrun with
    | @drawMethod _ m name _ hm hfree =>
      refine ⟨name, m, rfl, hm, TakenNames.mem_taken_iff.mpr (hkept _ ?_), (hnew hs).mp hfree⟩
      exact TakenNames.mem_claim.mpr (Or.inr rfl)
  · intro earlier p group chosen source answer later hlog
    obtain ⟨s, s', hs, hrun, hkept⟩ := runAll_split h hlog
    cases does_of_run hrun with
    | @fitGroup _ _ name _ hpresent hname =>
      refine ⟨name, rfl, fun id hid => ?_, ?_⟩
      · obtain ⟨m, hm⟩ := hpresent id hid
        have hmem := Program.mem_symbols.mpr ⟨id, hid, hm⟩
        refine ⟨m, hm, TakenNames.mem_taken_iff.mpr (hkept _ ?_)⟩
        exact TakenNames.mem_foldl_claimMethod.mpr (Or.inr ⟨m, hmem, rfl⟩)
      · rw [hname, TakenNames.groupFits_iff]
        refine forall₂_congr fun m _ => ?_
        rw [TakenNames.memberFits_iff, hnew hs]

/-- A method is given a fresh name, which does not fit its group: the other member stands beside an
unrelated method of that name. Then two types are named in one package. -/
def refitted : List (Program × NameCall) :=
  let p := Program.relatedTypes
  [(p, seed), (p, drawMethod ⟨0⟩ {}), (p, fitGroup [⟨0⟩, ⟨2⟩] "a" ⟨1⟩), (p, draw (.package "") {}),
    (p, draw (.package "") {})]

theorem history_runAll_refitted : ∃ log t, runAll refitted = .ok (log, t) ∧
    log.map NameEvent.answer = [none, some "a", some "b", some "a", some "b"] ∧ History log t := by
  obtain ⟨hok, hhistory⟩ := history_runAll refitted
  have hthere : ∀ c ∈ refitted, ∀ id ∈ c.2.methods, (c.1.methods.get? id).isSome = true := by
    decide +kernel
  obtain ⟨log, t, h⟩ := hok.mpr fun c hc id hid => Option.isSome_iff_exists.mp (hthere c hc id hid)
  have hanswers : (runAll refitted).map (fun r => r.1.map NameEvent.answer) =
      .ok [none, some "a", some "b", some "a", some "b"] := by decide +kernel
  rw [h] at hanswers
  exact ⟨log, t, h, Except.ok.inj hanswers, (hhistory log t h).2⟩

end NameCall
end Renamer
