import Mathlib.Data.List.Induction
import Renamer.Override.Unify
import Renamer.Proofs.Declared
import Renamer.Proofs.Fresh
import Renamer.Proofs.Partition

/-!
# Unification, turn by turn

Unification goes through the groups, each of which has its turn. This file says what one turn does
and gives the induction over all of them.

* `Program.listed` are the methods of a group with what the program says of them. Where all are
  there, `Unification.unify` is the fold `Unification.turns` and does not fail.
* `Unification.Turn` is the one description of a turn that later proofs go by: either no member
  has an alias and nothing happens, or all members are called by one name.
-/

namespace Renamer

/-! ## The methods of a group -/

namespace Program

/-- The methods of a list that the program has, with what it says of them. -/
def listed (p : Program) (ids : List MethodId) : List (MethodId × MethodSymbol) :=
  ids.filterMap fun id => (p.methods.get? id).map fun m => (id, m)

variable {p : Program} {ids : List MethodId}

theorem mem_listed {id : MethodId} {m : MethodSymbol} :
    (id, m) ∈ p.listed ids ↔ id ∈ ids ∧ p.methods.get? id = some m := by
  rw [listed, List.mem_filterMap]
  constructor
  · intro h
    rcases h with ⟨i, hi, h⟩
    obtain ⟨m', hm', he⟩ := Option.map_eq_some_iff.mp h
    cases he
    exact ⟨hi, hm'⟩
  · intro h
    rcases h with ⟨hid, hm⟩
    exact ⟨id, hid, by rw [hm]; rfl⟩

/-- The symbols of a list of methods. -/
def symbols (p : Program) (ids : List MethodId) : List MethodSymbol :=
  (p.listed ids).map Prod.snd

theorem mem_symbols {m : MethodSymbol} :
    m ∈ p.symbols ids ↔ ∃ id ∈ ids, p.methods.get? id = some m := by
  rw [symbols, List.mem_map]
  constructor
  · intro h
    rcases h with ⟨⟨id, m'⟩, h, rfl⟩
    exact ⟨id, mem_listed.mp h⟩
  · intro h
    rcases h with ⟨id, hid, hm⟩
    exact ⟨(id, m), mem_listed.mpr ⟨hid, hm⟩, rfl⟩

/-- Of every method the alias is set exactly where the method counts as renamed. -/
def Marked (p : Program) : Prop :=
  ∀ id m, p.methods.get? id = some m → m.renamed = m.newName.isSome

theorem marked_clearAliases (p : Program) : p.clearAliases.Marked := by
  intro id m hm
  rw [clearAliases, Arena.get?_map] at hm
  obtain ⟨m', -, rfl⟩ := Option.map_eq_some_iff.mp hm
  rfl

theorem Marked.withMethodAlias (hp : p.Marked) (id : MethodId) (name : String) :
    (p.withMethodAlias id name).Marked := by
  intro i m hm
  rw [Program.withMethodAlias, Arena.get?_modify] at hm
  split at hm
  · obtain ⟨m', -, rfl⟩ := Option.map_eq_some_iff.mp hm
    rfl
  · exact hp i m hm

theorem Marked.withPresetMark (hp : p.Marked) (id : MethodId) (mark : Bool) :
    (p.withPresetMark id mark).Marked := by
  intro i m hm
  rw [Program.withPresetMark, Arena.get?_modify] at hm
  split at hm
  · obtain ⟨m', hm', rfl⟩ := Option.map_eq_some_iff.mp hm
    exact hp i m' hm'
  · exact hp i m hm

end Program

/-! ## The choice -/

/-- The alias that a group goes by is that of a member. -/
theorem mem_of_chosenAlias {group : List MethodSymbol} {name : String}
    (h : chosenAlias group = some name) : ∃ m ∈ group, m.newName = some name := by
  obtain ⟨m, hm, hname⟩ := Option.bind_eq_some_iff.mp h
  refine ⟨m, ?_, hname⟩
  simp only [Option.orElse_eq_orElse, Option.orElse_eq_or, Option.or_eq_some_iff] at hm
  rcases hm with hm | ⟨-, hm | ⟨-, hm⟩⟩
  · exact List.mem_of_find?_eq_some hm
  · exact List.mem_of_find?_eq_some hm
  · exact List.mem_of_head? hm

/-- A group goes by no alias only where no member has one. -/
theorem newName_of_chosenAlias_eq_none {group : List MethodSymbol}
    (hmarked : ∀ m ∈ group, m.renamed = m.newName.isSome) (h : chosenAlias group = none)
    {m : MethodSymbol} (hm : m ∈ group) : m.newName = none := by
  have hnone : ∀ x, ((group.find? fun m => m.renamed && !m.fromPreset) <|>
      (group.find? fun m => m.fromPreset && m.newName.isSome) <|> group.head?) = some x →
      x.newName = none := by
    intro x hx
    rw [chosenAlias, hx] at h
    exact h
  -- a synthesised alias would be found first, and it is an alias
  have hfirst : ∀ x ∈ group, ¬ (x.renamed && !x.fromPreset) = true := by
    cases hfind : group.find? fun m => m.renamed && !m.fromPreset with
    | none => exact fun x hx => List.find?_eq_none.mp hfind x hx
    | some x =>
      have hx : x.newName = none := hnone x (by rw [hfind]; rfl)
      have hr := List.find?_some hfind
      rw [hmarked x (List.mem_of_find?_eq_some hfind), hx] at hr
      simp at hr
  have hsecond : ∀ x ∈ group, ¬ (x.fromPreset && x.newName.isSome) = true := by
    cases hfind : group.find? fun m => m.fromPreset && m.newName.isSome with
    | none => exact fun x hx => List.find?_eq_none.mp hfind x hx
    | some x =>
      have hx : x.newName = none :=
        hnone x (by rw [List.find?_eq_none.mpr hfirst, hfind]; rfl)
      have hs := List.find?_some hfind
      rw [hx] at hs
      simp at hs
  have h1 := hfirst m hm
  have h2 := hsecond m hm
  rw [hmarked m hm] at h1
  cases hname : m.newName with
  | none => rfl
  | some name =>
    rw [hname] at h1 h2
    simp at h1 h2
    rw [h1] at h2
    cases h2

namespace Unification

/-! ## Calling methods by a name -/

/-- The method once its group has been given a name. -/
def called (name : String) (m : MethodSymbol) : MethodSymbol :=
  if m.newName = some name then m else { m with newName := some name, renamed := true }

theorem newName_called (name : String) (m : MethodSymbol) :
    (called name m).newName = some name := by
  unfold called
  split
  · assumption
  · rfl

theorem declared_called (name : String) (m : MethodSymbol) :
    (called name m).declared = m.declared := by
  unfold called
  split <;> rfl

/-- `u'` is `u` in which the methods `ids`, and no others, are called `name`. -/
structure Calls (u : Unification) (name : String) (ids : List MethodId) (u' : Unification) :
    Prop where
  methods : ∀ id, u'.program.methods.get? id =
    if id ∈ ids then (u.program.methods.get? id).map (called name) else u.program.methods.get? id
  aliases : ∀ id, u'.aliases.get? id = if id ∈ ids then some name else u.aliases.get? id
  types : u'.program.types = u.program.types
  fields : u'.program.fields = u.program.fields
  taken : u'.taken = u.taken
  source : u'.source = u.source

theorem Calls.bind {u u' : Unification} {name : String} {ids : List MethodId}
    (h : Calls u name ids u') {id : MethodId} {m : MethodSymbol}
    (hm : u.program.methods.get? id = some m) :
    Calls u name (ids ++ [id]) (bind name u' (id, m)) := by
  have haliases : ∀ i, (u'.aliases.insert id name).get? i =
      if i ∈ ids ++ [id] then some name else u.aliases.get? i := by
    intro i
    rw [Table.get?_insert, h.aliases]
    by_cases hi : id = i
    · simp [hi]
    · have hne : ¬ i = id := fun e => hi e.symm
      simp [hi, hne]
  unfold Unification.bind
  by_cases hname : m.newName = some name
  · rw [if_pos hname]
    refine ⟨fun i => ?_, haliases, h.types, h.fields, h.taken, h.source⟩
    show u'.program.methods.get? i = _
    rw [h.methods]
    by_cases hi : i = id
    · subst hi
      simp [hm, called, hname]
    · simp [hi]
  · rw [if_neg hname]
    refine ⟨fun i => ?_, haliases, h.types, h.fields, h.taken, h.source⟩
    show (u'.program.withMethodAlias id name).methods.get? i = _
    rw [Program.withMethodAlias, Arena.get?_modify, h.methods]
    by_cases hi : id = i
    · subst hi
      by_cases hmem : id ∈ ids <;> simp [hm, called, hname, hmem]
    · have hne : ¬ i = id := fun e => hi e.symm
      simp [hi, hne]

/-- Binding a name to methods one after the other calls them all by it. -/
theorem calls_foldl_bind (name : String) (u : Unification) (group : List (MethodId × MethodSymbol))
    (hgroup : ∀ e ∈ group, u.program.methods.get? e.1 = some e.2) :
    Calls u name (group.map Prod.fst) (group.foldl (bind name) u) := by
  induction group using List.reverseRecOn with
  | nil => exact ⟨fun id => by simp, fun id => by simp, rfl, rfl, rfl, rfl⟩
  | append_singleton group e ih =>
    have hrest := ih fun e he => hgroup e (List.mem_append_left _ he)
    rw [List.foldl_append, List.map_append]
    exact hrest.bind (hgroup e (by simp))

/-! ## A turn -/

/-- All members of a group are called `name`, which is either the alias that the group goes by or,
where that does not fit, the next word that does. -/
structure Named (u : Unification) (ids : List MethodId) (chosen name : String)
    (u' : Unification) : Prop where
  chosen_eq : chosenAlias (u.program.symbols ids) = some chosen
  name_eq : u.taken.groupFits (u.program.symbols ids) chosen = true ∧ name = chosen ∧
      u'.source = u.source ∨
    ∃ n, u.taken.IsRedraw u.source (u.program.symbols ids) chosen n ∧ name = Word.spell n ∧
      u'.source = ⟨n + 1⟩
  methods : ∀ id, u'.program.methods.get? id =
    if id ∈ ids then (u.program.methods.get? id).map (called name) else u.program.methods.get? id
  aliases : ∀ id, u'.aliases.get? id =
    if id ∈ ids then some name else u.aliases.get? id
  types : u'.program.types = u.program.types
  fields : u'.program.fields = u.program.fields
  taken : ∀ e, e ∈ u'.taken.pairs ↔
    e ∈ u.taken.pairs ∨ ∃ m ∈ u.program.symbols ids, e = (m.scope, m.keyAs name)

/-- What the turn of the group `ids` makes of `u`. -/
inductive Turn (u : Unification) (ids : List MethodId) : Unification → Prop
  | rest : chosenAlias (u.program.symbols ids) = none → Turn u ids u
  | call {chosen name : String} {u' : Unification} : Named u ids chosen name u' → Turn u ids u'

/-- The turn of a group whose members are all there. -/
def turn (u : Unification) (ids : List MethodId) : Unification :=
  u.unifyGroup (u.program.listed ids)

/-- All members of a list are methods of the program. -/
def Present (p : Program) (ids : List MethodId) : Prop :=
  ∀ id ∈ ids, ∃ m, p.methods.get? id = some m

theorem Present.of_declared {p q : Program} {ids : List MethodId} (hp : Present p ids)
    (h : p.declared = q.declared) : Present q ids := by
  intro id hid
  obtain ⟨m, hm⟩ := hp id hid
  obtain ⟨m', hm', -⟩ := Program.method_of_declared h hm
  exact ⟨m', hm'⟩

theorem map_fst_listed {p : Program} {ids : List MethodId} (h : Present p ids) :
    (p.listed ids).map Prod.fst = ids := by
  induction ids with
  | nil => rfl
  | cons id ids ih =>
    obtain ⟨m, hm⟩ := h id List.mem_cons_self
    have hrest := ih fun i hi => h i (List.mem_cons_of_mem _ hi)
    rw [Program.listed, List.filterMap_cons, hm]
    exact congrArg (id :: ·) hrest

/-- What one turn can do. -/
theorem turn_turn {u : Unification} {ids : List MethodId} (h : Present u.program ids) :
    Turn u ids (u.turn ids) := by
  show Turn u ids (u.unifyGroup (u.program.listed ids))
  rw [unifyGroup]
  cases hchosen : chosenAlias ((u.program.listed ids).map Prod.snd) with
  | none => exact Turn.rest hchosen
  | some chosen =>
    obtain ⟨name, source, heq, hname⟩ :=
      u.taken.fitGroup_eq (u.program.symbols ids) chosen u.source
    have hcalls := calls_foldl_bind name
      { u with
        taken := (u.program.symbols ids).foldl (fun t m => t.claimMethod m name) u.taken
        source }
      (u.program.listed ids) fun e he => (Program.mem_listed.mp he).2
    rw [map_fst_listed h] at hcalls
    dsimp only
    rw [show (u.program.listed ids).map Prod.snd = u.program.symbols ids from rfl, heq]
    have hnamed : Named u ids chosen name _ :=
      { chosen_eq := hchosen
        name_eq := by
          rw [hcalls.source]
          exact hname
        methods := hcalls.methods
        aliases := hcalls.aliases
        types := hcalls.types
        fields := hcalls.fields
        taken := fun e => by
          rw [hcalls.taken]
          exact TakenNames.mem_foldl_claimMethod }
    exact Turn.call hnamed

/-- Methods that have an alias keep their places when they get another one. -/
theorem keys_turn (u : Unification) (ids : List MethodId) (h : ∀ id ∈ ids, id ∈ u.aliases.keys) :
    (u.turn ids).aliases.keys = u.aliases.keys := by
  rw [turn, unifyGroup]
  split
  · rfl
  · apply List.foldlRecOn (motive := fun v : Unification => v.aliases.keys = u.aliases.keys)
    · rfl
    · intro v hv e he
      have hmem : e.1 ∈ v.aliases.keys := hv ▸ h e.1 (Program.mem_listed.mp he).1
      have haliases : ∀ name, (bind name v e).aliases = v.aliases.insert e.1 name := by
        intro name
        unfold bind
        dsimp only
        split <;> rfl
      rw [haliases, Table.keys_insert, if_pos hmem, hv]

theorem Named.declared {u u' : Unification} {ids : List MethodId} {chosen name : String}
    (h : Named u ids chosen name u') : u'.program.declared = u.program.declared := by
  refine Program.declared_congr (by rw [h.types]) (by rw [h.fields]) ?_
  refine Arena.ext_get? fun id => ?_
  rw [Arena.get?_map, Arena.get?_map, h.methods]
  split
  · cases u.program.methods.get? id with
    | none => rfl
    | some m => exact congrArg some (declared_called name m)
  · rfl

theorem Turn.declared {u u' : Unification} {ids : List MethodId} (h : Turn u ids u') :
    u'.program.declared = u.program.declared := by
  cases h with
  | rest => rfl
  | call h => exact h.declared

/-! ## All turns -/

/-- Unification where all members are there: turn after turn. -/
def turns (u : Unification) (groups : List (GroupId × List MethodId)) : Unification :=
  groups.foldl (fun u g => u.turn g.2) u

theorem turns_append_singleton (u : Unification) (groups : List (GroupId × List MethodId))
    (g : GroupId × List MethodId) : u.turns (groups ++ [g]) = (u.turns groups).turn g.2 := by
  rw [turns, List.foldl_append]
  rfl

theorem resolve_eq_ok {p : Program} {ids : List MethodId} (h : Present p ids) :
    resolve p ids = .ok (p.listed ids) := by
  rw [resolve]
  induction ids with
  | nil => rfl
  | cons id ids ih =>
    obtain ⟨m, hm⟩ := h id List.mem_cons_self
    have hrest := ih fun i hi => h i (List.mem_cons_of_mem _ hi)
    have hget : p.methods.get id = .ok m := Arena.get_eq_ok_iff.mpr hm
    have hlisted : p.listed (id :: ids) = (id, m) :: p.listed ids := by
      rw [Program.listed, List.filterMap_cons, hm]
      rfl
    rw [List.mapM_cons, hget, hrest, hlisted]
    rfl

/-- A property that holds at the start and is kept by every turn holds after all turns. The motive
knows which groups have had theirs. -/
theorem turns_induct {u : Unification} {groups : List (GroupId × List MethodId)}
    (hpresent : ∀ g ∈ groups, Present u.program g.2)
    {motive : List (GroupId × List MethodId) → Unification → Prop} (start : motive [] u)
    (step : ∀ done g rest, groups = done ++ g :: rest →
      (u.turns done).program.declared = u.program.declared →
      Turn (u.turns done) g.2 ((u.turns done).turn g.2) → motive done (u.turns done) →
      motive (done ++ [g]) ((u.turns done).turn g.2)) :
    (u.turns groups).program.declared = u.program.declared ∧ motive groups (u.turns groups) := by
  have key : ∀ done rest, groups = done ++ rest →
      (u.turns done).program.declared = u.program.declared ∧ motive done (u.turns done) := by
    intro done
    -- on the groups that have had their turn; of the others it matters only that they are there
    induction done using List.reverseRecOn with
    | nil => exact fun _ _ => ⟨rfl, start⟩
    | append_singleton done g ih =>
      intro rest hgroups
      rw [List.append_assoc, List.singleton_append] at hgroups
      obtain ⟨hdeclared, hmotive⟩ := ih (g :: rest) hgroups
      have hg : Present (u.turns done).program g.2 :=
        (hpresent g (by rw [hgroups]; simp)).of_declared hdeclared.symm
      have hturn := turn_turn hg
      rw [turns_append_singleton]
      exact ⟨hturn.declared.trans hdeclared, step done g rest hgroups hdeclared hturn hmotive⟩
  exact key groups [] (by simp)

theorem declared_turns {u : Unification} {groups : List (GroupId × List MethodId)}
    (hpresent : ∀ g ∈ groups, Present u.program g.2) :
    (u.turns groups).program.declared = u.program.declared :=
  (turns_induct hpresent (motive := fun _ _ => True) trivial fun _ _ _ _ _ _ _ => trivial).1

/-- Unification is about methods alone. -/
theorem types_fields_turns {u : Unification} {groups : List (GroupId × List MethodId)}
    (hpresent : ∀ g ∈ groups, Present u.program g.2) :
    (u.turns groups).program.types = u.program.types ∧
      (u.turns groups).program.fields = u.program.fields := by
  refine (turns_induct hpresent (motive := fun _ v => v.program.types = u.program.types ∧
    v.program.fields = u.program.fields) ⟨rfl, rfl⟩ ?_).2
  intro done g rest _ _ hturn hdone
  generalize (u.turns done).turn g.2 = v at hturn
  cases hturn with
  | rest _ => exact hdone
  | call hcall => exact ⟨hcall.types.trans hdone.1, hcall.fields.trans hdone.2⟩

/-- Unification does not fail where the members of all groups are there. -/
theorem unify_eq_ok {u : Unification} {groups : OverrideGroups}
    (h : ∀ g ∈ groups.live, Present u.program g.2) :
    u.unify groups = .ok (u.turns groups.live) := by
  rw [unify]
  refine (turns_induct h (motive := fun done v =>
    done.foldlM (fun u g => return u.unifyGroup (← resolve u.program g.2)) u =
      (.ok v : Except OutOfRange Unification)) rfl ?_).2
  intro done g rest hgroups hdeclared _ hdone
  have hg : Present (u.turns done).program g.2 :=
    (h g (by rw [hgroups]; simp)).of_declared hdeclared.symm
  have hresolve := resolve_eq_ok hg
  rw [List.foldlM_append, hdone]
  simp only [List.foldlM_cons, List.foldlM_nil, Bind.bind, Except.bind, pure, Except.pure,
    hresolve, turn]

/-! ## What is left after all turns

A method is in one group at most. So its group finds it as it was at the start, and it stays as
its group leaves it.
-/

variable {u : Unification} {groups : OverrideGroups}

/-- What is known of a method: its symbol, and the alias that the table has for it. -/
def shown (u : Unification) (id : MethodId) : Option MethodSymbol × Option String :=
  (u.program.methods.get? id, u.aliases.get? id)

/-- The turn of a group is about its members alone. -/
theorem shown_turn_of_notMem {ids : List MethodId} (h : Present u.program ids) {id : MethodId}
    (hid : id ∉ ids) : (u.turn ids).shown id = u.shown id := by
  generalize hv : u.turn ids = v
  have hturn := turn_turn h
  rw [hv] at hturn
  cases hturn with
  | rest _ => rfl
  | call hcall => rw [shown, hcall.methods, if_neg hid, hcall.aliases, if_neg hid, shown]

theorem shown_turns_of_notMem (done : List (GroupId × List MethodId))
    {more : List (GroupId × List MethodId)} {id : MethodId}
    (hpresent : ∀ g ∈ done ++ more, Present u.program g.2) (hid : ∀ g ∈ more, id ∉ g.2) :
    (u.turns (done ++ more)).shown id = (u.turns done).shown id := by
  induction more using List.reverseRecOn with
  | nil => rw [List.append_nil]
  | append_singleton more g ih =>
    rw [← List.append_assoc] at hpresent
    have hrest := ih (fun g hg => hpresent g (List.mem_append_left _ hg))
      (fun g hg => hid g (List.mem_append_left _ hg))
    have hdeclared := declared_turns fun g hg => hpresent g (List.mem_append_left _ hg)
    have hg : Present (u.turns (done ++ more)).program g.2 :=
      (hpresent g (by simp)).of_declared hdeclared.symm
    rw [← List.append_assoc, turns_append_singleton, shown_turn_of_notMem hg (hid g (by simp)),
      hrest]

/-- A method of no group is left as it was. -/
theorem get?_turns_of_groupOf_eq_none (hgroups : groups.Disjoint)
    (hpresent : ∀ g ∈ groups.live, Present u.program g.2) {id : MethodId}
    (hid : groups.groupOf id = none) :
    (u.turns groups.live).program.methods.get? id = u.program.methods.get? id := by
  refine congrArg Prod.fst (shown_turns_of_notMem [] hpresent fun g hg hmem => ?_)
  obtain ⟨hl, -⟩ := OverrideGroups.mem_live_iff.mp hg
  exact (OverrideGroups.groupOf_eq_none_iff hgroups).mp hid g.1 (hl ▸ hmem)

/-- A group comes to its turn with its members as they were at the start, and they are left as
the turn leaves them. -/
theorem shown_turns_of_live (hgroups : groups.Disjoint)
    (hpresent : ∀ g ∈ groups.live, Present u.program g.2)
    {before after : List (GroupId × List MethodId)} {g : GroupId × List MethodId}
    (hlive : groups.live = before ++ g :: after) {id : MethodId} (hid : id ∈ g.2) :
    (u.turns before).shown id = u.shown id ∧
      (u.turns groups.live).shown id = ((u.turns before).turn g.2).shown id := by
  have hbefore : ∀ g' ∈ before, id ∉ g'.2 := fun g' hg' =>
    OverrideGroups.notMem_of_live hgroups hlive hid (List.mem_append_left _ hg')
  have hafter : ∀ g' ∈ after, id ∉ g'.2 := fun g' hg' =>
    OverrideGroups.notMem_of_live hgroups hlive hid (List.mem_append_right _ hg')
  rw [hlive] at hpresent
  constructor
  · exact shown_turns_of_notMem []
      (fun g' hg' => hpresent g' (List.mem_append_left _ hg')) hbefore
  · rw [hlive, ← turns_append_singleton, List.append_cons]
    rw [List.append_cons] at hpresent
    exact shown_turns_of_notMem _ hpresent hafter

theorem turns_of_live (hgroups : groups.Disjoint)
    (hpresent : ∀ g ∈ groups.live, Present u.program g.2)
    {before after : List (GroupId × List MethodId)} {g : GroupId × List MethodId}
    (hlive : groups.live = before ++ g :: after) {id : MethodId} (hid : id ∈ g.2) :
    (u.turns before).program.methods.get? id = u.program.methods.get? id ∧
      (u.turns groups.live).program.methods.get? id =
        ((u.turns before).turn g.2).program.methods.get? id := by
  obtain ⟨hstart, hend⟩ := shown_turns_of_live hgroups hpresent hlive hid
  exact ⟨congrArg Prod.fst hstart, congrArg Prod.fst hend⟩

/-- The symbols with which a group comes to its turn are those of the start. -/
theorem symbols_turns (hgroups : groups.Disjoint)
    (hpresent : ∀ g ∈ groups.live, Present u.program g.2)
    {before after : List (GroupId × List MethodId)} {g : GroupId × List MethodId}
    (hlive : groups.live = before ++ g :: after) :
    (u.turns before).program.symbols g.2 = u.program.symbols g.2 := by
  have hlisted : (u.turns before).program.listed g.2 = u.program.listed g.2 :=
    List.filterMap_congr fun id hid => by
      rw [(turns_of_live hgroups hpresent hlive hid).1]
  rw [Program.symbols, hlisted, Program.symbols]

/-- The outcome for a group: nothing, where no member had an alias, and else one name for all. -/
theorem outcome (hgroups : groups.Disjoint)
    (hpresent : ∀ g ∈ groups.live, Present u.program g.2)
    {before after : List (GroupId × List MethodId)} {g : GroupId × List MethodId}
    (hlive : groups.live = before ++ g :: after) :
    (chosenAlias (u.program.symbols g.2) = none ∧ ∀ id ∈ g.2,
      (u.turns groups.live).program.methods.get? id = u.program.methods.get? id) ∨
    ∃ chosen name, Named (u.turns before) g.2 chosen name ((u.turns before).turn g.2) ∧
      ∀ id ∈ g.2, (u.turns groups.live).program.methods.get? id =
        (u.program.methods.get? id).map (called name) := by
  -- no turn before this one has touched a member
  have hg : Present (u.turns before).program g.2 := by
    intro id hid
    rw [(turns_of_live hgroups hpresent hlive hid).1]
    exact hpresent g (by rw [hlive]; simp) id hid
  have hsymbols := symbols_turns hgroups hpresent hlive
  generalize hv : (u.turns before).turn g.2 = v
  have hturn := turn_turn hg
  rw [hv] at hturn
  cases hturn with
  | rest hnone =>
    refine Or.inl ⟨hsymbols ▸ hnone, fun id hid => ?_⟩
    obtain ⟨hstart, hend⟩ := turns_of_live hgroups hpresent hlive hid
    rw [hend, hv, hstart]
  | @call chosen name _ hcall =>
    refine Or.inr ⟨chosen, name, hcall, fun id hid => ?_⟩
    obtain ⟨hstart, hend⟩ := turns_of_live hgroups hpresent hlive hid
    rw [hend, hv, hcall.methods, if_pos hid, hstart]

/-- All members of a group end with the same alias, or all without one. -/
theorem newName_eq_of_together (hgroups : groups.Disjoint)
    (hpresent : ∀ g ∈ groups.live, Present u.program g.2) (hmarked : u.program.Marked)
    {i j : MethodId} (hij : groups.Together i j) {a b : MethodSymbol}
    (ha : (u.turns groups.live).program.methods.get? i = some a)
    (hb : (u.turns groups.live).program.methods.get? j = some b) : a.newName = b.newName := by
  obtain ⟨id, hi, hj⟩ := hij
  obtain ⟨before, after, hlive⟩ := OverrideGroups.live_of_mem hi
  rcases outcome hgroups hpresent hlive with ⟨hnone, hkept⟩ | ⟨chosen, name, -, hcalled⟩
  · -- the group goes by no alias, so that no member has one
    have hname : ∀ {k m}, k ∈ groups.members id → u.program.methods.get? k = some m →
        m.newName = none := by
      intro k m hk hm
      refine newName_of_chosenAlias_eq_none (fun x hx => ?_) hnone
        (Program.mem_symbols.mpr ⟨k, hk, hm⟩)
      obtain ⟨k', -, hk'⟩ := Program.mem_symbols.mp hx
      exact hmarked k' x hk'
    rw [hkept i hi] at ha
    rw [hkept j hj] at hb
    rw [hname hi ha, hname hj hb]
  · have hname : ∀ {k m}, k ∈ groups.members id →
        (u.turns groups.live).program.methods.get? k = some m → m.newName = some name := by
      intro k m hk hm
      rw [hcalled k hk] at hm
      obtain ⟨m₀, -, rfl⟩ := Option.map_eq_some_iff.mp hm
      exact newName_called name m₀
    rw [hname hi ha, hname hj hb]

end Unification
end Renamer
