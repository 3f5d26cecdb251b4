import Renamer.Proofs.Components
import Renamer.Proofs.Construction
import Renamer.Proofs.Tables
import Renamer.Proofs.Turns

/-!
# One alias for every group

The outcome of unification on any program, with any groups, table and names in use: a group with an
alias ends with one for all its members, in the program and in the table, and nothing else is
touched.

* `Preferred` says which alias a group prefers, and `TakenNames.Fits` when it can have it.
* `Unification.Agreed` is how a group is left by its turn. A group that is left so stays as it is
  in a second turn, and no other turn undoes it, so that a second unification changes nothing.
-/

namespace Renamer

/-! ## Renamed methods -/

namespace Program

variable {p q : Program}

theorem Marked.of_methods (hp : p.Marked) (h : q.methods = p.methods) : q.Marked := by
  intro id m hm
  rw [h] at hm
  exact hp id m hm

/-- In a program that was built the methods with an alias are those that count as renamed. -/
theorem Built.marked (h : p.Built) : p.Marked := by
  induction h with
  | empty => exact fun id m hm => by cases hm
  | addType d _ ih => exact ih.of_methods rfl
  | addNestedType _ h ih | addField _ h ih =>
    obtain ⟨_, -, hq⟩ := bind_eq_ok.mp h
    cases hq
    exact ih.of_methods rfl
  | addMethod _ h ih =>
    obtain ⟨_, -, hq⟩ := bind_eq_ok.mp h
    cases hq
    intro id m hm
    rw [Arena.get?_push] at hm
    split at hm
    · cases hm
      rfl
    · exact ih id m hm
  | setSuperType _ h ih | addInterface _ h ih | setSourceFile _ h ih =>
    obtain ⟨_, -, hq⟩ := bind_eq_ok.mp h
    cases hq
    exact ih.of_methods rfl
  | takeSourceFile _ h ih | renameType _ h ih | renameField _ h ih =>
    obtain ⟨_, -, hq⟩ := bind_eq_ok.mp h
    cases hq
    exact ih.of_methods rfl
  | renameMethod _ h ih =>
    obtain ⟨_, -, hq⟩ := bind_eq_ok.mp h
    cases hq
    exact ih.withMethodAlias _ _
  | markPreset _ h ih =>
    obtain ⟨_, -, hq⟩ := bind_eq_ok.mp h
    cases hq
    exact ih.withPresetMark _ _
  | clearAliases _ _ => exact marked_clearAliases _

/-- The alias of a method. -/
def methodAlias (p : Program) (id : MethodId) : Option String :=
  (p.methods.get? id).bind (·.newName)

end Program

/-! ## The choice -/

/-- `m` is the first of a list with the property. -/
def IsFirst (q : MethodSymbol → Prop) (group : List MethodSymbol) (m : MethodSymbol) : Prop :=
  ∃ before after, group = before ++ m :: after ∧ q m ∧ ∀ o ∈ before, ¬ q o

/-- The method was renamed, and not from a preset. -/
def MethodSymbol.Synthesised (m : MethodSymbol) : Prop := m.renamed = true ∧ m.fromPreset = false

/-- The method has an alias from a preset. -/
def MethodSymbol.PresetAliased (m : MethodSymbol) : Prop := m.fromPreset = true ∧ m.newName ≠ none

/-- The alias that a group prefers: that of the first member with a synthesised one or, where there
is no such member, of the first one with an alias from a preset. -/
def Preferred (group : List MethodSymbol) (name : String) : Prop :=
  ∃ m, m.newName = some name ∧ (IsFirst MethodSymbol.Synthesised group m ∨
    (∀ o ∈ group, ¬ o.Synthesised) ∧ IsFirst MethodSymbol.PresetAliased group m)

theorem isFirst_iff_find? {q : MethodSymbol → Prop} {test : MethodSymbol → Bool}
    (htest : ∀ m, test m = true ↔ q m) {group : List MethodSymbol} {m : MethodSymbol} :
    IsFirst q group m ↔ group.find? test = some m := by
  have hno : ∀ o, ¬ q o ↔ (!test o) = true := fun o => by simp [← htest]
  rw [List.find?_eq_some_iff_append, htest]
  constructor
  · intro h
    rcases h with ⟨before, after, hgroup, hm, hbefore⟩
    exact ⟨hm, before, after, hgroup, fun o ho => (hno o).mp (hbefore o ho)⟩
  · intro h
    rcases h with ⟨hm, before, after, hgroup, hbefore⟩
    exact ⟨before, after, hgroup, hm, fun o ho => (hno o).mpr (hbefore o ho)⟩

/-- The alias that a group goes by is the one that it prefers. The third choice, the alias of the
first member, is never needed: an alias is synthesised or from a preset. -/
theorem preferred_iff_chosenAlias {group : List MethodSymbol}
    (hmarked : ∀ m ∈ group, m.renamed = m.newName.isSome) {name : String} :
    Preferred group name ↔ chosenAlias group = some name := by
  have hsynthesised : ∀ m : MethodSymbol, (m.renamed && !m.fromPreset) = true ↔ m.Synthesised :=
    fun m => by simp [MethodSymbol.Synthesised]
  have hpreset : ∀ m : MethodSymbol, (m.fromPreset && m.newName.isSome) = true ↔
      m.PresetAliased := fun m => by
    simp [MethodSymbol.PresetAliased, Option.isSome_iff_ne_none]
  have hnone : (∀ o ∈ group, ¬ o.Synthesised) ↔
      group.find? (fun m => m.renamed && !m.fromPreset) = none := by
    simp only [List.find?_eq_none, hsynthesised]
  simp only [chosenAlias, Option.bind_eq_some_iff, Option.orElse_eq_orElse, Option.orElse_eq_or,
    Option.or_eq_some_iff, Preferred, isFirst_iff_find? hsynthesised, isFirst_iff_find? hpreset,
    hnone]
  constructor
  · intro h
    rcases h with ⟨m, hname, hfirst | ⟨hno, hfirst⟩⟩
    · exact ⟨m, Or.inl hfirst, hname⟩
    · exact ⟨m, Or.inr ⟨hno, Or.inl hfirst⟩, hname⟩
  · intro h
    rcases h with ⟨m, hfirst | ⟨hno, hfirst | ⟨hno', hhead⟩⟩, hname⟩
    · exact ⟨m, hname, Or.inl hfirst⟩
    · exact ⟨m, hname, Or.inr ⟨hno, hfirst⟩⟩
    · -- the first member, which has an alias, would have been found before
      have hmem := List.mem_of_head? hhead
      have hs := List.find?_eq_none.mp hno m hmem
      have hp := List.find?_eq_none.mp hno' m hmem
      rw [hmarked m hmem, hname] at hs
      rw [hname] at hp
      cases hflag : m.fromPreset with
      | false => exact absurd (by rw [hflag]; rfl) hs
      | true => exact absurd (by rw [hflag]; rfl) hp

theorem Program.Marked.symbols {p : Program} (hp : p.Marked) {ids : List MethodId} :
    ∀ m ∈ p.symbols ids, m.renamed = m.newName.isSome := by
  intro m hm
  obtain ⟨id, -, hget⟩ := Program.mem_symbols.mp hm
  exact hp id m hget

/-- A group goes by no alias exactly where no member has one. -/
theorem Program.Marked.chosenAlias_eq_none_iff {p : Program} (hp : p.Marked)
    {ids : List MethodId} :
    chosenAlias (p.symbols ids) = none ↔ ∀ id ∈ ids, p.methodAlias id = none := by
  constructor
  · intro h id hid
    cases hget : p.methods.get? id with
    | none => rw [Program.methodAlias, hget, Option.bind_none]
    | some m =>
      rw [Program.methodAlias, hget]
      exact newName_of_chosenAlias_eq_none hp.symbols h (Program.mem_symbols.mpr ⟨id, hid, hget⟩)
  · intro h
    by_contra hsome
    obtain ⟨name, hname⟩ := Option.ne_none_iff_exists'.mp hsome
    obtain ⟨m, hm, halias⟩ := mem_of_chosenAlias hname
    obtain ⟨id, hid, hget⟩ := Program.mem_symbols.mp hm
    have hnone := h id hid
    rw [Program.methodAlias, hget] at hnone
    cases hnone.symm.trans halias

/-- All of a group can be called `name`: no owner has the override key of a member under that name,
unless through a member that is called so or that has had this key from the start. -/
def TakenNames.Fits (t : TakenNames) (group : List MethodSymbol) (name : String) : Prop :=
  ∀ m ∈ group, (m.scope, m.keyAs name) ∉ t.pairs ∨
    ∃ o ∈ group, o.owner = m.owner ∧ (o.newName = some name ∨ o.key = m.keyAs name)

theorem TakenNames.groupFits_iff_fits {t : TakenNames} {group : List MethodSymbol} {name : String} :
    t.groupFits group name = true ↔ t.Fits group name := by
  rw [TakenNames.groupFits_iff]
  exact forall₂_congr fun m _ => TakenNames.memberFits_iff

namespace OverrideGroups

/-- Groups have no members but those of the sets merged. -/
theorem mem_sets_of_mem_members {sets : List (List MethodId)} {id : GroupId} {m : MethodId}
    (h : m ∈ (mergeAll sets).members id) : ∃ found ∈ sets, m ∈ found := by
  obtain ⟨chain, hall, -, ⟨s, hs, hm⟩, -⟩ := (mem_members_iff_chained h).mp h
  exact ⟨s, (hall s (List.mem_of_mem_head? hs)).1, hm⟩

theorem present_mergeAll {p : Program} {sets : List (List MethodId)}
    (hsets : ∀ found ∈ sets, Unification.Present p found) :
    ∀ g ∈ (mergeAll sets).live, Unification.Present p g.2 := by
  intro g hg id hid
  obtain ⟨hl, -⟩ := mem_live_iff.mp hg
  rw [hl] at hid
  obtain ⟨found, hfound, hmem⟩ := mem_sets_of_mem_members hid
  exact hsets found hfound id hmem

end OverrideGroups

namespace Unification

variable {u v : Unification} {groups : OverrideGroups}

/-! ## How a turn leaves its group -/

/-- All of a group is called `name`, in the program and in the table, and the owners have the
override keys under that name. -/
structure Agreed (v : Unification) (name : String) (ids : List MethodId) : Prop where
  program : ∀ id ∈ ids, v.program.methodAlias id = some name
  aliases : ∀ id ∈ ids, v.aliases.get? id = some name
  taken : ∀ m ∈ v.program.symbols ids, (m.scope, m.keyAs name) ∈ v.taken.pairs

theorem turn_of_chosenAlias_eq_none {ids : List MethodId}
    (h : chosenAlias (u.program.symbols ids) = none) : u.turn ids = u := by
  have hgroup : chosenAlias ((u.program.listed ids).map Prod.snd) = none := h
  rw [turn, unifyGroup, hgroup]

/-- Claiming keys that are taken changes nothing. -/
theorem foldl_claimMethod_eq_self {t : TakenNames} {group : List MethodSymbol} {name : String}
    (h : ∀ m ∈ group, (m.scope, m.keyAs name) ∈ t.pairs) :
    group.foldl (fun t m => t.claimMethod m name) t = t := by
  refine List.foldlRecOn (motive := fun s => s = t) group _ rfl fun s hs m hm => ?_
  rw [hs, TakenNames.claimMethod, TakenNames.claim, dif_pos (h m hm)]

/-- Binding methods to the name that they have, in the program and in the table, changes nothing. -/
theorem foldl_bind_eq_self {group : List (MethodId × MethodSymbol)} {name : String}
    (h : ∀ e ∈ group, e.2.newName = some name ∧ u.aliases.get? e.1 = some name) :
    group.foldl (bind name) u = u := by
  refine List.foldlRecOn (motive := fun v => v = u) group _ rfl fun v hv e he => ?_
  obtain ⟨hname, halias⟩ := h e he
  rw [hv, bind, if_pos hname, Table.insert_of_get? halias]

/-- A group that agrees on an alias keeps it in a further turn, which changes nothing at all. Its
alias fits because its members are called so. -/
theorem Agreed.turn_eq {name : String} {ids : List MethodId} (h : Agreed v name ids) :
    v.turn ids = v := by
  cases hchosen : chosenAlias (v.program.symbols ids) with
  | none => exact turn_of_chosenAlias_eq_none hchosen
  | some chosen =>
    have hname : ∀ m ∈ v.program.symbols ids, m.newName = some name := by
      intro m hm
      obtain ⟨id, hid, hget⟩ := Program.mem_symbols.mp hm
      have halias := h.program id hid
      rwa [Program.methodAlias, hget] at halias
    obtain ⟨m, hm, hmname⟩ := mem_of_chosenAlias hchosen
    obtain rfl : name = chosen := Option.some.inj ((hname m hm).symm.trans hmname)
    have hfits : v.taken.groupFits (v.program.symbols ids) name = true :=
      TakenNames.groupFits_iff_fits.mpr fun m hm => Or.inr ⟨m, hm, rfl, Or.inl (hname m hm)⟩
    have hfit : v.taken.fitGroup (v.program.symbols ids) name v.source =
        (name, v.taken, v.source) := by
      rw [TakenNames.fitGroup, if_pos hfits]
      dsimp only
      rw [foldl_claimMethod_eq_self h.taken]
    have hgroup : (v.program.listed ids).map Prod.snd = v.program.symbols ids := rfl
    rw [turn, unifyGroup, hgroup, hchosen]
    dsimp only
    rw [hfit]
    refine foldl_bind_eq_self fun e he => ?_
    obtain ⟨hid, hget⟩ := Program.mem_listed.mp he
    exact ⟨hname e.2 (Program.mem_symbols.mpr ⟨e.1, hid, hget⟩), h.aliases e.1 hid⟩

theorem turns_append (u : Unification) (done more : List (GroupId × List MethodId)) :
    u.turns (done ++ more) = (u.turns done).turns more :=
  List.foldl_append

/-- The keys that a group claims in its turn are taken in the end. -/
theorem Named.mem_taken_turns (hgroups : groups.Disjoint)
    (hpresent : ∀ g ∈ groups.live, Present u.program g.2)
    {before after : List (GroupId × List MethodId)} {g : GroupId × List MethodId}
    (hlive : groups.live = before ++ g :: after) {chosen name : String}
    (hnamed : Named (u.turns before) g.2 chosen name ((u.turns before).turn g.2))
    {m : MethodSymbol} (hm : m ∈ u.program.symbols g.2) :
    (m.scope, m.keyAs name) ∈ (u.turns groups.live).taken.pairs := by
  have hclaimed : (m.scope, m.keyAs name) ∈ (u.turns (before ++ [g])).taken.pairs := by
    rw [turns_append_singleton, hnamed.taken, symbols_turns hgroups hpresent hlive]
    exact Or.inr ⟨m, hm, rfl⟩
  rw [List.append_cons] at hlive
  have hdeclared : (u.turns (before ++ [g])).program.declared = u.program.declared :=
    declared_turns fun g' hg' => hpresent g' (hlive ▸ List.mem_append_left _ hg')
  -- no later turn gives them back
  rw [hlive, turns_append]
  refine taken_turns (fun g' hg' => ?_) hclaimed
  exact (hpresent g' (hlive ▸ List.mem_append_right _ hg')).of_declared hdeclared.symm

/-- What a group finds at its turn and what is left of it in the end: all is as it was where no
member has an alias, and else the group agrees on the name that its turn gave it. -/
theorem agreed_turns (hgroups : groups.Disjoint)
    (hpresent : ∀ g ∈ groups.live, Present u.program g.2)
    {before after : List (GroupId × List MethodId)} {g : GroupId × List MethodId}
    (hlive : groups.live = before ++ g :: after) :
    (chosenAlias (u.program.symbols g.2) = none ∧
      ∀ id ∈ g.2, (u.turns groups.live).shown id = u.shown id) ∨
    ∃ chosen name, Named (u.turns before) g.2 chosen name ((u.turns before).turn g.2) ∧
      Agreed (u.turns groups.live) name g.2 := by
  rcases outcome hgroups hpresent hlive with ⟨hnone, -⟩ | ⟨chosen, name, hnamed, hcalled⟩
  · refine Or.inl ⟨hnone, fun id hid => ?_⟩
    obtain ⟨hstart, hend⟩ := shown_turns_of_live hgroups hpresent hlive hid
    rw [← symbols_turns hgroups hpresent hlive] at hnone
    rw [hend, turn_of_chosenAlias_eq_none hnone, hstart]
  · refine Or.inr ⟨chosen, name, hnamed, ?_, ?_, ?_⟩
    · intro id hid
      obtain ⟨m, hm⟩ := hpresent g (by simp [hlive]) id hid
      rw [Program.methodAlias, hcalled id hid, hm]
      exact newName_called name m
    · intro id hid
      have hend := congrArg Prod.snd (shown_turns_of_live hgroups hpresent hlive hid).2
      rw [shown, shown, hnamed.aliases, if_pos hid] at hend
      exact hend
    · intro m hm
      obtain ⟨id, hid, hget⟩ := Program.mem_symbols.mp hm
      rw [hcalled id hid] at hget
      obtain ⟨m₀, hm₀, rfl⟩ := Option.map_eq_some_iff.mp hget
      -- being called by another name changes neither the owner nor the parameters
      rw [MethodSymbol.agree (declared_called name m₀) MethodSymbol.scope fun _ => rfl,
        MethodSymbol.agree (declared_called name m₀) (·.keyAs name) fun _ => rfl]
      exact hnamed.mem_taken_turns hgroups hpresent hlive
        (Program.mem_symbols.mpr ⟨id, hid, hm₀⟩)

/-! ## A second unification -/

theorem turns_eq_self {groups : List (GroupId × List MethodId)}
    (h : ∀ g ∈ groups, v.turn g.2 = v) : v.turns groups = v :=
  List.foldlRecOn (motive := fun w => w = v) groups _ rfl fun w hw g hg => by rw [hw, h g hg]

/-- The same with nothing counted, as a further unification finds it. -/
def uncounted (u : Unification) : Unification := { u with changed := 0 }

/-- After unification another one changes nothing, and counts nothing. -/
theorem unify_uncounted (hgroups : groups.Disjoint)
    (hpresent : ∀ g ∈ groups.live, Present u.program g.2) :
    (u.turns groups.live).uncounted.unify groups = .ok (u.turns groups.live).uncounted := by
  have hdeclared := declared_turns hpresent
  rw [unify_eq_ok (u := (u.turns groups.live).uncounted) fun g hg =>
    (hpresent g hg).of_declared hdeclared.symm]
  refine congrArg Except.ok (turns_eq_self fun g hg => ?_)
  obtain ⟨before, after, hlive⟩ := List.append_of_mem hg
  rcases agreed_turns hgroups hpresent hlive with ⟨hnone, hkept⟩ | ⟨chosen, name, -, hagreed⟩
  · refine turn_of_chosenAlias_eq_none ?_
    have hlisted : (u.turns groups.live).program.listed g.2 = u.program.listed g.2 :=
      List.filterMap_congr fun id hid => by
        rw [show (u.turns groups.live).program.methods.get? id = u.program.methods.get? id from
          congrArg Prod.fst (hkept id hid)]
    exact (congrArg (fun l => chosenAlias (l.map Prod.snd)) hlisted).trans hnone
  · exact Agreed.turn_eq ⟨hagreed.program, hagreed.aliases, hagreed.taken⟩

/-! ## What is counted -/

/-- Binding a name counts the methods that had another one or none. -/
theorem changed_foldl_bind (name : String) (group : List (MethodId × MethodSymbol)) :
    (group.foldl (bind name) u).changed =
      u.changed + group.countP fun e => e.2.newName != some name := by
  induction group generalizing u with
  | nil => rfl
  | cons e group ih =>
    rw [List.foldl_cons, ih, List.countP_cons, bind]
    by_cases hname : e.2.newName = some name
    · simp [hname]
    · simp [hname]
      omega

/-- The methods counted are those whose alias has become another one. -/
theorem countP_foldl_bind (name : String) (group : List (MethodId × MethodSymbol))
    (hgroup : ∀ e ∈ group, u.program.methods.get? e.1 = some e.2) :
    (group.foldl (bind name) u).changed = u.changed + (group.map Prod.fst).countP fun id =>
      (group.foldl (bind name) u).program.methodAlias id != u.program.methodAlias id := by
  have hcalls := calls_foldl_bind name u group hgroup
  rw [changed_foldl_bind, List.countP_map]
  refine congrArg (u.changed + ·) (List.countP_congr fun e he => ?_)
  have hstart : u.program.methodAlias e.1 = e.2.newName := by
    rw [Program.methodAlias, hgroup e he]
    rfl
  have hend : (group.foldl (bind name) u).program.methodAlias e.1 = some name := by
    rw [Program.methodAlias, hcalls.methods, if_pos (List.mem_map_of_mem he), hgroup e he]
    exact newName_called name e.2
  rw [Function.comp_apply, hend, hstart, bne_iff_ne, bne_iff_ne]
  exact ne_comm

/-- A turn counts the members whose alias it changes. -/
theorem changed_turn {ids : List MethodId} (h : Present u.program ids) :
    (u.turn ids).changed = u.changed + ids.countP fun id =>
      (u.turn ids).program.methodAlias id != u.program.methodAlias id := by
  rw [turn, unifyGroup]
  cases chosenAlias ((u.program.listed ids).map Prod.snd) with
  | none => simp
  | some chosen =>
    obtain ⟨name, source, heq, -⟩ := u.taken.fitGroup_eq (u.program.symbols ids) chosen u.source
    have hcount := countP_foldl_bind name (u.program.listed ids) (u := { u with
        taken := (u.program.symbols ids).foldl (fun t m => t.claimMethod m name) u.taken
        source }) fun e he => (Program.mem_listed.mp he).2
    rw [map_fst_listed h] at hcount
    dsimp only
    rw [show (u.program.listed ids).map Prod.snd = u.program.symbols ids from rfl, heq]
    exact hcount

/-- What has been counted in the end are the methods whose alias is another one than before. -/
theorem exists_altered (hgroups : groups.Disjoint)
    (hpresent : ∀ g ∈ groups.live, Present u.program g.2) :
    ∃ altered : List MethodId, altered.Nodup ∧
      (∀ id, id ∈ altered ↔
        (u.turns groups.live).program.methodAlias id ≠ u.program.methodAlias id) ∧
      (u.turns groups.live).changed = u.changed + altered.length := by
  refine (turns_induct hpresent (motive := fun _ v => ∃ altered : List MethodId, altered.Nodup ∧
    (∀ id, id ∈ altered ↔ v.program.methodAlias id ≠ u.program.methodAlias id) ∧
    v.changed = u.changed + altered.length) ⟨[], by simp⟩ ?_).2
  rintro done g rest hlive hdeclared - ⟨altered, hnodup, hmem, hchanged⟩
  generalize hv : u.turns done = v at *
  have hpresent' : Present v.program g.2 :=
    (hpresent g (by rw [hlive]; simp)).of_declared hdeclared.symm
  -- the members of a group have their alias from the start when it comes to its turn
  have hstart : ∀ id ∈ g.2, v.program.methodAlias id = u.program.methodAlias id := by
    intro id hid
    rw [Program.methodAlias, ← hv, (turns_of_live hgroups hpresent hlive hid).1,
      Program.methodAlias]
  have hothers : ∀ id, id ∉ g.2 →
      (v.turn g.2).program.methodAlias id = v.program.methodAlias id := by
    intro id hid
    have hshown := congrArg Prod.fst (shown_turn_of_notMem hpresent' hid)
    exact congrArg (·.bind (·.newName)) hshown
  let changes := g.2.filter fun id =>
    (v.turn g.2).program.methodAlias id != v.program.methodAlias id
  have hchanges : ∀ {id}, id ∈ changes ↔ id ∈ g.2 ∧
      (v.turn g.2).program.methodAlias id ≠ v.program.methodAlias id := by
    intro id
    simp [changes]
  have hgnodup : g.2.Nodup := by
    obtain ⟨hl, -⟩ := OverrideGroups.mem_live_iff.mp
      (show (g.1, g.2) ∈ groups.live by rw [hlive]; simp)
    rw [hl]
    exact hgroups.nodup g.1
  refine ⟨altered ++ changes, ?_, fun id => ?_, ?_⟩
  · refine List.nodup_append'.mpr ⟨hnodup, hgnodup.filter _, fun id hid hid' => ?_⟩
    exact (hmem id).mp hid (hstart id (hchanges.mp hid').1)
  · rw [List.mem_append, hmem, hchanges]
    by_cases hid : id ∈ g.2
    · simp [hid, hstart id hid]
    · simp [hid, hothers id hid]
  · rw [changed_turn hpresent', hchanged, List.length_append, List.countP_eq_length_filter,
      Nat.add_assoc]

/-- Of a method nothing but its alias, and whether it counts as renamed, is changed. -/
theorem get?_turns_eq (hpresent : ∀ g ∈ groups.live, Present u.program g.2) {id : MethodId}
    {m : MethodSymbol} (hm : u.program.methods.get? id = some m) :
    ∃ m', (u.turns groups.live).program.methods.get? id = some m' ∧
      { m' with newName := m.newName, renamed := m.renamed } = m := by
  refine (turns_induct hpresent (motive := fun _ v => ∃ m', v.program.methods.get? id = some m' ∧
    { m' with newName := m.newName, renamed := m.renamed } = m) ⟨m, hm, rfl⟩ ?_).2
  rintro done g rest - - hturn ⟨m', hm', hsame⟩
  generalize (u.turns done).turn g.2 = v at hturn
  cases hturn with
  | rest _ => exact ⟨m', hm', hsame⟩
  | @call chosen name _ hcall =>
    rw [hcall.methods]
    split
    · refine ⟨called name m', by rw [hm']; rfl, ?_⟩
      rw [← hsame, called]
      split <;> rfl
    · exact ⟨m', hm', hsame⟩

/-! ## The outcome -/

/-- Where the alias that a group goes by fits, the group is given that one. -/
theorem Named.of_fits {ids : List MethodId} {chosen name : String} (h : Named u ids chosen name v)
    (hfits : u.taken.Fits (u.program.symbols ids) chosen) :
    name = chosen ∧ v.source = u.source := by
  rw [← TakenNames.groupFits_iff_fits] at hfits
  rcases h.name_eq with ⟨-, hname⟩ | ⟨n, ⟨hno, -⟩, -⟩
  · exact hname
  · exact absurd (hno.symm.trans hfits) Bool.false_ne_true

/-- Where it does not fit, the group is given the next word that does. -/
theorem Named.of_not_fits {ids : List MethodId} {chosen name : String}
    (h : Named u ids chosen name v) (hfits : ¬ u.taken.Fits (u.program.symbols ids) chosen) :
    ∃ n, u.source.IsNext (u.taken.groupFits (u.program.symbols ids)) n ∧ name = Word.spell n ∧
      v.source = ⟨n + 1⟩ := by
  rw [← TakenNames.groupFits_iff_fits] at hfits
  rcases h.name_eq with ⟨hfits', -⟩ | ⟨n, ⟨-, hnext⟩, hname⟩
  · exact absurd hfits' hfits
  · exact ⟨n, hnext, hname⟩

/-- A method that is in no group with an alias is left as it was. -/
theorem shown_turns_eq (hmarked : u.program.Marked) (hgroups : groups.Disjoint)
    (hpresent : ∀ g ∈ groups.live, Present u.program g.2) {id : MethodId}
    (hnone : ∀ g ∈ groups.live, id ∈ g.2 → ∀ i ∈ g.2, u.program.methodAlias i = none) :
    (u.turns groups.live).shown id = u.shown id := by
  by_cases hid : ∃ g ∈ groups.live, id ∈ g.2
  · obtain ⟨g, hg, hid⟩ := hid
    obtain ⟨before, after, hlive⟩ := List.append_of_mem hg
    rcases agreed_turns hgroups hpresent hlive with ⟨-, hkept⟩ | ⟨chosen, name, hnamed, -⟩
    · exact hkept id hid
    · have hchosen := hmarked.chosenAlias_eq_none_iff.mpr (hnone g hg hid)
      rw [← symbols_turns hgroups hpresent hlive, hnamed.chosen_eq] at hchosen
      cases hchosen
  · exact shown_turns_of_notMem [] hpresent fun g hg hmem => hid ⟨g, hg, hmem⟩

/-- On any program that was built, with any table, names in use and source, for groups that come of
merging methods of the program, unification gives one alias to each group with an alias: the one
that the group prefers where that fits when it comes to its turn, and else the next word that does.
It touches no other method, nor anything of a method but its alias; it counts the methods whose
alias is another one than before; and a second unification changes nothing, draws no name and
counts nothing. -/
theorem unify_mergeAll_agreed (p : Program) (hp : p.Built) (sets : List (List MethodId))
    (hsets : ∀ found ∈ sets, Present p found) (aliases : Table MethodId String)
    (taken : TakenNames) (source : NameSource) :
    let groups := OverrideGroups.mergeAll sets
    let u : Unification := { program := p, aliases, taken, source }
    ∃ v, u.unify groups = .ok v ∧
      (∀ before g after, groups.live = before ++ g :: after →
        (∃ id ∈ g.2, p.methodAlias id ≠ none) →
        let w := u.turns before
        let w' := u.turns (before ++ [g])
        ∃ chosen name, Preferred (p.symbols g.2) chosen ∧
          (∀ id ∈ g.2, v.program.methodAlias id = some name ∧ v.aliases.get? id = some name) ∧
          (w.taken.Fits (p.symbols g.2) chosen → name = chosen ∧ w'.source = w.source) ∧
          (¬ w.taken.Fits (p.symbols g.2) chosen →
            ∃ n, w.source.IsNext (w.taken.groupFits (p.symbols g.2)) n ∧ name = Word.spell n ∧
              w'.source = ⟨n + 1⟩)) ∧
      (∀ id, (∀ g ∈ groups.live, id ∈ g.2 → ∀ i ∈ g.2, p.methodAlias i = none) →
        v.program.methods.get? id = p.methods.get? id ∧ v.aliases.get? id = aliases.get? id) ∧
      (∀ id m, p.methods.get? id = some m → ∃ m', v.program.methods.get? id = some m' ∧
        { m' with newName := m.newName, renamed := m.renamed } = m) ∧
      (v.program.types = p.types ∧ v.program.fields = p.fields) ∧
      (∃ altered : List MethodId, altered.Nodup ∧
        (∀ id, id ∈ altered ↔ v.program.methodAlias id ≠ p.methodAlias id) ∧
        v.changed = altered.length) ∧
      v.uncounted.unify groups = .ok v.uncounted := by
  intro groups u
  have hgroups : groups.Disjoint := OverrideGroups.disjoint_mergeAll sets
  have hpresent : ∀ g ∈ groups.live, Present u.program g.2 := OverrideGroups.present_mergeAll hsets
  have hmarked : u.program.Marked := hp.marked
  refine ⟨u.turns groups.live, unify_eq_ok hpresent, ?_, fun id hnone => ?_,
    fun id m hm => get?_turns_eq hpresent hm, types_fields_turns hpresent, ?_,
    unify_uncounted hgroups hpresent⟩
  · intro before g after hlive halias w w'
    rcases agreed_turns hgroups hpresent hlive with ⟨hnone, -⟩ | ⟨chosen, name, hnamed, hagreed⟩
    · obtain ⟨id, hid, halias⟩ := halias
      exact absurd (hmarked.chosenAlias_eq_none_iff.mp hnone id hid) halias
    · have hsymbols : w.program.symbols g.2 = p.symbols g.2 :=
        symbols_turns hgroups hpresent hlive
      rw [← turns_append_singleton] at hnamed
      rw [← hsymbols]
      exact ⟨chosen, name,
        (preferred_iff_chosenAlias (hsymbols ▸ hmarked.symbols)).mpr hnamed.chosen_eq,
        fun id hid => ⟨hagreed.program id hid, hagreed.aliases id hid⟩, hnamed.of_fits,
        hnamed.of_not_fits⟩
  · have hshown := shown_turns_eq hmarked hgroups hpresent hnone
    exact ⟨congrArg Prod.fst hshown, congrArg Prod.snd hshown⟩
  · obtain ⟨altered, hnodup, hmem, hchanged⟩ := exists_altered hgroups hpresent
    exact ⟨altered, hnodup, hmem, hchanged.trans (Nat.zero_add _)⟩

/-- The two related types, where `d` of `Sub` was renamed to `b`, and `d` of `Base` by a preset. -/
def renamedTypes : Program :=
  ((Program.relatedTypes.withMethodAlias ⟨0⟩ "b").withMethodAlias ⟨2⟩ "kept").withPresetMark ⟨2⟩
    true

theorem built_renamedTypes : renamedTypes.Built := by
  have hb : Program.relatedTypes.renameMethod ⟨0⟩ "b" =
      .ok (Program.relatedTypes.withMethodAlias ⟨0⟩ "b") := rfl
  have hkept : (Program.relatedTypes.withMethodAlias ⟨0⟩ "b").renameMethod ⟨2⟩ "kept" =
      .ok ((Program.relatedTypes.withMethodAlias ⟨0⟩ "b").withMethodAlias ⟨2⟩ "kept") := rfl
  have hmark : ((Program.relatedTypes.withMethodAlias ⟨0⟩ "b").withMethodAlias ⟨2⟩
      "kept").markPreset ⟨2⟩ true = .ok renamedTypes := rfl
  exact ((Program.built_relatedTypes.renameMethod hb).renameMethod hkept).markPreset hmark

/-- `Base` has another method that is called `b`, and `Sub` one that is called `a`. -/
def crowdedNames : TakenNames :=
  (({} : TakenNames).claim (.methods ⟨1⟩) "b()").claim (.methods ⟨0⟩) "a()"

/-- The group prefers `b`, which does not fit `Base`, and is given the first word that fits both
types. -/
theorem unify_mergeAll_renamedTypes :
    let groups := OverrideGroups.mergeAll [[⟨0⟩, ⟨2⟩]]
    let u : Unification :=
      { program := renamedTypes, aliases := {}, taken := crowdedNames, source := {} }
    renamedTypes.Built ∧ (∀ found ∈ [[⟨0⟩, ⟨2⟩]], Present renamedTypes found) ∧
      Preferred (renamedTypes.symbols [⟨0⟩, ⟨2⟩]) "b" ∧
      ¬ crowdedNames.Fits (renamedTypes.symbols [⟨0⟩, ⟨2⟩]) "b" ∧
      ∃ v, u.unify groups = .ok v ∧
        (∀ id ∈ [(⟨0⟩ : MethodId), ⟨2⟩],
          v.program.methodAlias id = some "c" ∧ v.aliases.get? id = some "c") ∧
        v.program.methodAlias ⟨1⟩ = none ∧
        v.uncounted.unify groups = .ok v.uncounted := by
  intro groups u
  have hpresent : ∀ found ∈ [[(⟨0⟩ : MethodId), ⟨2⟩]], Present renamedTypes found := by
    intro found hfound id hid
    rw [List.mem_singleton.mp hfound] at hid
    rcases List.mem_pair.mp hid with rfl | rfl
    · exact ⟨_, rfl⟩
    · exact ⟨_, rfl⟩
  have hpreferred : ∀ {name}, Preferred (renamedTypes.symbols [⟨0⟩, ⟨2⟩]) name → name = "b" := by
    intro name h
    have hb : chosenAlias (renamedTypes.symbols [⟨0⟩, ⟨2⟩]) = some "b" := by decide +kernel
    rw [preferred_iff_chosenAlias built_renamedTypes.marked.symbols, hb] at h
    exact (Option.some.inj h).symm
  have hfits : ¬ crowdedNames.Fits (renamedTypes.symbols [⟨0⟩, ⟨2⟩]) "b" := by
    rw [← TakenNames.groupFits_iff_fits]
    decide +kernel
  have hnext : ({} : NameSource).IsNext
      (crowdedNames.groupFits (renamedTypes.symbols [⟨0⟩, ⟨2⟩])) 2 :=
    { issued_le := Nat.zero_le _
      not_reserved := by decide +kernel
      accepted := by decide +kernel
      first := fun k _ hk => by
        obtain rfl | rfl : k = 0 ∨ k = 1 := by omega
        · exact Or.inr (by decide +kernel)
        · exact Or.inr (by decide +kernel) }
  obtain ⟨v, hok, hgroup, hothers, -, -, -, hagain⟩ :=
    unify_mergeAll_agreed renamedTypes built_renamedTypes [[⟨0⟩, ⟨2⟩]] hpresent {} crowdedNames {}
  obtain ⟨chosen, name, hchosen, hall, -, hredraw⟩ :=
    hgroup [] (⟨0⟩, [⟨0⟩, ⟨2⟩]) [] (by decide) ⟨⟨0⟩, by simp, by decide +kernel⟩
  obtain rfl := hpreferred hchosen
  obtain ⟨n, hn, hname, -⟩ := hredraw hfits
  obtain rfl := hn.unique hnext
  have hc : Word.spell 2 = "c" := by decide +kernel
  rw [hname, hc] at hall
  refine ⟨built_renamedTypes, hpresent, hchosen, hfits, v, hok, hall, ?_, hagain⟩
  have hlive : groups.live = [(⟨0⟩, [⟨0⟩, ⟨2⟩])] := by decide
  obtain ⟨hkept, -⟩ := hothers ⟨1⟩ fun g hg hid => by
    rw [show (OverrideGroups.mergeAll [[⟨0⟩, ⟨2⟩]]).live = _ from hlive, List.mem_singleton] at hg
    rw [hg] at hid
    exact absurd hid (by decide)
  rw [Program.methodAlias, hkept]
  decide +kernel

end Unification
end Renamer
