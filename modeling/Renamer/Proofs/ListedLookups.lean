import Renamer.Proofs.Aliases
import Renamer.Proofs.Exports
import Renamer.Proofs.Hierarchy
import Renamer.Proofs.PointedRuns
import Renamer.Proofs.SideBySide

/-!
# What a program with member lists answers

Going by the slots that types list and that the index notes, one gets what searches of the program
get: identities, declared names, and the methods that a method overrides (`Shows.overriddenFrom`).
No slot on the way is out of range.
-/

namespace Renamer

theorem Arena.slots_eq {k : Kind} {α β : Type} {a : Arena k α} {b : Arena k β}
    (h : a.size = b.size) : a.slots = b.entries.map Prod.fst := by
  rw [Arena.map_fst_entries, ← List.range_eq_range', slots, h]
  rfl

namespace Program

variable {p : Program}

theorem fieldIdentity_eq_ok {id : FieldId} {f : FieldSymbol} {o : TypeSymbol}
    (hf : p.fields.get? id = some f) (ho : p.types.get? f.owner = some o) :
    p.fieldIdentity id = .ok (f.identity o.fullName) := by
  rw [fieldIdentity, Arena.get_eq_ok_iff.mpr hf, ok_bind, Arena.get_eq_ok_iff.mpr ho]
  rfl

theorem methodIdentity_eq_ok {id : MethodId} {m : MethodSymbol} {o : TypeSymbol}
    (hm : p.methods.get? id = some m) (ho : p.types.get? m.owner = some o) :
    p.methodIdentity id = .ok (m.identity o.fullName) := by
  rw [methodIdentity, Arena.get_eq_ok_iff.mpr hm, ok_bind, Arena.get_eq_ok_iff.mpr ho]
  rfl

/-- The type `t` in slot `ty` declares the name, its own or that of one of its members. -/
def DeclaresIn (p : Program) (ty : TypeId) (t : TypeSymbol) (x : Scope × String) : Prop :=
  x = (t.scope, t.shortName) ∨ (∃ e ∈ p.fieldsOf ty, x = (.fields ty, e.2.name)) ∨
    ∃ e ∈ p.methodsOf ty, x = (.methods ty, e.2.key)

/-- What is declared is declared in one of the types. -/
theorem WellFormed.declares_iff (hp : p.WellFormed) {x : Scope × String} :
    p.Declares x ↔ ∃ e ∈ p.types.entries, p.DeclaresIn e.1 e.2 x := by
  rw [Program.declares_iff]
  constructor
  · rintro (⟨t, ht, rfl⟩ | ⟨f, hf, rfl⟩ | ⟨m, hm, rfl⟩)
    · obtain ⟨ty, hty⟩ := Arena.exists_get?_of_mem ht
      exact ⟨(ty, t), Arena.mem_entries_iff.mpr hty, .inl rfl⟩
    · obtain ⟨id, hid⟩ := Arena.exists_get?_of_mem hf
      obtain ⟨o, ho⟩ := hp.field_owner hid
      exact ⟨(f.owner, o), Arena.mem_entries_iff.mpr ho,
        .inr (.inl ⟨(id, f), mem_fieldsOf.mpr ⟨hid, rfl⟩, rfl⟩)⟩
    · obtain ⟨id, hid⟩ := Arena.exists_get?_of_mem hm
      obtain ⟨o, ho⟩ := hp.method_owner hid
      exact ⟨(m.owner, o), Arena.mem_entries_iff.mpr ho,
        .inr (.inr ⟨(id, m), mem_methodsOf.mpr ⟨hid, rfl⟩, rfl⟩)⟩
  · rintro ⟨⟨ty, t⟩, ht, rfl | ⟨⟨id, f⟩, hf, rfl⟩ | ⟨⟨id, m⟩, hm, rfl⟩⟩
    · exact .inl ⟨t, Arena.mem_toList_of_get? (Arena.mem_entries_iff.mp ht), rfl⟩
    · obtain ⟨hget, rfl⟩ := mem_fieldsOf.mp hf
      exact .inr (.inl ⟨f, Arena.mem_toList_of_get? hget, rfl⟩)
    · obtain ⟨hget, rfl⟩ := mem_methodsOf.mp hm
      exact .inr (.inr ⟨m, Arena.mem_toList_of_get? hget, rfl⟩)

end Program

/-! ## Types and members -/

namespace ListedType

variable {q : ListedProgram} {p : Program} {ty : TypeId} {t : ListedType}

theorem Reads.mapM_fields (ht : t.Reads p ty) (h : q.Shows p) :
    t.fields.mapM q.fields.get = .ok ((p.fieldsOf ty).map Prod.snd) := by
  rw [ht.fields, List.mapM_map]
  refine mapM_eq_ok fun e he => ?_
  rw [Function.comp_apply, h.fields, Arena.get_eq_ok_iff.mpr (Program.mem_fieldsOf.mp he).1]

theorem Reads.mapM_methods (ht : t.Reads p ty) (h : q.Shows p) :
    t.methods.mapM q.methods.get = .ok ((p.methodsOf ty).map Prod.snd) := by
  rw [ht.methods, List.mapM_map]
  refine mapM_eq_ok fun e he => ?_
  rw [Function.comp_apply, h.methods, Arena.get_eq_ok_iff.mpr (Program.mem_methodsOf.mp he).1]

end ListedType

namespace ListedProgram

variable {q : ListedProgram} {p : Program} {ty : TypeId}

theorem Shows.slots_eq (h : q.Shows p) : q.types.slots = p.types.entries.map Prod.fst :=
  Arena.slots_eq h.size

/-- A type that is there is looked up with its notes. -/
theorem Shows.get_eq (h : q.Shows p) {s : TypeSymbol} (hs : p.types.get? ty = some s) :
    ∃ t, q.types.get ty = .ok t ∧ t.symbol = s ∧ t.Reads p ty := by
  obtain ⟨t, ht, hsymbol⟩ := h.exists_type hs
  exact ⟨t, Arena.get_eq_ok_iff.mpr ht, hsymbol, h.types ht⟩

/-- The lists of a type are there whenever it is. -/
theorem Shows.exists_reads (h : q.Shows p) {s : TypeSymbol} (hs : p.ShowsType ty s) :
    ∃ t, q.types.get ty = .ok t ∧ t.Reads p ty := by
  obtain ⟨s', hs', -⟩ := hs
  obtain ⟨t, ht, -, hreads⟩ := h.get_eq hs'
  exact ⟨t, ht, hreads⟩

/-- A lookup answers the same symbol, or fails alike. -/
theorem Shows.map_get (h : q.Shows p) (ty : TypeId) :
    (q.types.get ty).map ListedType.symbol = p.types.get ty := by
  cases hs : p.types.get? ty with
  | some s =>
    obtain ⟨t, ht, rfl, -⟩ := h.get_eq hs
    rw [ht, Arena.get_eq_ok_iff.mpr hs]
    rfl
  | none =>
    have hnone : q.types.get? ty = none := by
      cases ht : q.types.get? ty with
      | none => rfl
      | some t => rw [(h.types ht).symbol] at hs; cases hs
    rw [Arena.get, hnone, Arena.get, hs, h.size]
    rfl

theorem Shows.fieldIdentity_eq (h : q.Shows p) (id : FieldId) :
    q.fieldIdentity id = p.fieldIdentity id := by
  unfold fieldIdentity Program.fieldIdentity
  rw [h.fields]
  cases p.fields.get id with
  | error e => rfl
  | ok f =>
    rw [ok_bind, ok_bind, ← h.map_get]
    cases q.types.get f.owner <;> rfl

theorem Shows.methodIdentity_eq (h : q.Shows p) (id : MethodId) :
    q.methodIdentity id = p.methodIdentity id := by
  unfold methodIdentity Program.methodIdentity
  rw [h.methods]
  cases p.methods.get id with
  | error e => rfl
  | ok m =>
    rw [ok_bind, ok_bind, ← h.map_get]
    cases q.types.get m.owner <;> rfl

/-- Seeding with a type takes the names that it declares. -/
theorem Shows.seedType (h : q.Shows p) {t : TypeSymbol} (ht : p.types.get? ty = some t)
    (taken : TakenNames) : ∃ taken', q.seedType taken ty = .ok taken' ∧
      ∀ x, x ∈ taken'.pairs ↔ x ∈ taken.pairs ∨ p.DeclaresIn ty t x := by
  obtain ⟨u, hu, rfl, hreads⟩ := h.get_eq ht
  unfold ListedProgram.seedType
  rw [hu, ok_bind, hreads.mapM_fields h, ok_bind, hreads.mapM_methods h]
  refine ⟨_, rfl, fun x => ?_⟩
  rw [List.foldl_map, List.foldl_map, TakenNames.mem_foldl_claim, TakenNames.mem_foldl_claim,
    TakenNames.mem_claim, Program.DeclaresIn, or_assoc, or_assoc]

/-- Names taken type by type are those that the program declares. -/
theorem Shows.foldlM_seedType (h : q.Shows p) (hp : p.WellFormed) (taken : TakenNames) :
    ∃ taken', q.types.slots.foldlM q.seedType taken = .ok taken' ∧
      ∀ x, x ∈ taken'.pairs ↔ x ∈ taken.pairs ∨ p.Declares x := by
  obtain ⟨taken', hrun, hall⟩ := exists_foldlM_eq_ok (f := q.seedType) (k := Prod.fst)
    (l := p.types.entries)
    (motive := fun done s => ∀ x, x ∈ s.pairs ↔
      x ∈ taken.pairs ∨ ∃ e ∈ done, p.DeclaresIn e.1 e.2 x)
    (fun done e rest s hsplit hs => by
      have he : e ∈ p.types.entries := hsplit ▸ by simp
      obtain ⟨s', hrun, hs'⟩ := h.seedType (Arena.mem_entries_iff.mp he) s
      refine ⟨s', hrun, fun x => ?_⟩
      rw [hs', hs]
      simp [or_and_right, exists_or, or_assoc])
    (s := taken) fun x => by simp
  rw [h.slots_eq]
  exact ⟨taken', hrun, fun x => by rw [hall, hp.declares_iff]⟩

/-! ## Overridden methods -/

theorem Shows.virtualMethods_eq (h : q.Shows p) {t : ListedType} (ht : t.Reads p ty)
    (key : String) : q.virtualMethods t key = .ok (p.virtualMethods ty key) := by
  have hown : (t.methods.mapM fun id => do return (id, ← q.methods.get id)) =
      Except.ok (ε := OutOfRange) (p.methodsOf ty) := by
    rw [ht.methods, List.mapM_map, mapM_eq_ok (g := id) fun e he => ?_, List.map_id]
    rw [Function.comp_apply, h.methods, Arena.get_eq_ok_iff.mpr (Program.mem_methodsOf.mp he).1]
    rfl
  rw [virtualMethods, hown]
  rfl

/-- The index leads to the types that a search of the names finds. -/
theorem Shows.filterMap_lookup (h : q.Shows p) (t : TypeSymbol) :
    t.references.filterMap q.lookup = (p.parents t).map Prod.fst := by
  rw [funext h.names, Program.parents, List.map_filterMap]
  rfl

theorem Shows.visit_eq (h : q.Shows p) {key : String} {depth : Nat} {t : TypeSymbol}
    (ht : p.types.get? ty = some t) (w : OverrideWalk) :
    q.visit key depth ty w = .ok (OverrideWalk.visit p key depth (ty, t) w) := by
  -- the depth bounds both walks alike; a type found by its name is there, and so are its lists
  induction depth generalizing ty t w with
  | zero => rfl
  | succ depth ih =>
    unfold visit OverrideWalk.visit
    cases w.origins.get? ty with
    | some known => rfl
    | none =>
      obtain ⟨u, hu, rfl, hreads⟩ := h.get_eq ht
      dsimp only
      rw [hu, ok_bind, h.virtualMethods_eq hreads, ok_bind, h.filterMap_lookup, List.foldlM_map,
        (foldlM_eq_ok (motive := fun _ => True) (fun parent hparent s _ => ?_) trivial).1, ok_bind]
      · rfl
      · rw [ih (Program.get?_of_mem_parents hparent), ok_bind]
        exact ⟨rfl, trivial⟩

/-- The notes lead to the methods, and to the diamonds, that the searches come to. -/
theorem Shows.overriddenFrom_eq (h : q.Shows p) {s t : TypeSymbol}
    (hs : p.types.get? ty = some s) (hst : s.declared = t.declared) (key : String) :
    q.overriddenFrom ty key = .ok (p.overriddenFrom ty t key) := by
  have hwalk : p.overrideWalk ty s key = p.overrideWalk ty t key := Program.overrideWalk_congr
    (TypeSymbol.agree hst TypeSymbol.references fun _ => rfl) ty key
  have hempty : OverrideWalk.Sound p {} := ⟨fun ho => (nomatch ho), fun _ hd => (nomatch hd)⟩
  have hsound : (p.overrideWalk ty s key).Sound p := (hempty.visit hs).2
  unfold overriddenFrom Program.overriddenFrom
  rw [h.visit_eq hs, ok_bind, ← hwalk, h.size]
  show ((p.overrideWalk ty s key).diamonds.mapM _ >>= _) = _
  rw [mapM_eq_ok (g := fun d => Diagnostic.diamondOverride key (p.typeName d.1) (p.typeName d.2)
    t.fullName) fun d hd => ?_]
  · rfl
  · obtain ⟨⟨first, hfirst⟩, ⟨second, hsecond⟩⟩ := hsound.diamonds d hd
    obtain ⟨u, hu, husymbol, -⟩ := h.get_eq hfirst
    obtain ⟨v, hv, hvsymbol, -⟩ := h.get_eq hsecond
    obtain ⟨r, hr, hrsymbol, -⟩ := h.get_eq hs
    rw [hu, ok_bind, hv, ok_bind, hr, ok_bind, Program.typeName, hfirst, Program.typeName, hsecond,
      husymbol, hvsymbol, hrsymbol, TypeSymbol.agree hst TypeSymbol.fullName fun _ => rfl]
    rfl

end ListedProgram
end Renamer
