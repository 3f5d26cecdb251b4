import Renamer.Proofs.Candidates
import Renamer.Proofs.Construction
import Renamer.Table

/-!
# Runs side by side

One run looks up what the other one has at hand, so that it can fail. `Yields` says that it does
not, and that what comes of it is related to what comes of the other one. It is put together along
`>>=` and along loops, so that each operation has one lemma, made of those of the operations that it
calls.

Two tables are alike that have the same keys and related values, two sets of names in use that have
the same names, in whatever order these were taken.
-/

namespace Renamer

/-! ## Computations that go well -/

section Yields

variable {ε α β γ δ σ τ : Type} {R : α → β → Prop} {S : γ → δ → Prop}

/-- The computation goes well, and what comes of it is related to `b`. -/
def Yields (R : α → β → Prop) (x : Except ε α) (b : β) : Prop := ∃ a, x = .ok a ∧ R a b

/-- The answers are the same, and the states are related. -/
def Beside (R : σ → τ → Prop) (a : α × σ) (b : α × τ) : Prop := a.1 = b.1 ∧ R a.2 b.2

theorem yields_ok {a : α} {b : β} (h : R a b) : Yields R (.ok a : Except ε α) b := ⟨a, rfl, h⟩

theorem Yields.imp {x : Except ε α} {b : β} {R' : α → β → Prop} (h : Yields R x b)
    (himp : ∀ a, R a b → R' a b) : Yields R' x b := by
  obtain ⟨a, hx, ha⟩ := h
  exact ⟨a, hx, himp a ha⟩

/-- What follows goes on from what came of it. -/
theorem Yields.bind {x : Except ε α} {b : β} {f : α → Except ε γ} {d : δ} (h : Yields R x b)
    (hf : ∀ a, R a b → Yields S (f a) d) : Yields S (x >>= f) d := by
  obtain ⟨a, rfl, ha⟩ := h
  exact hf a ha

theorem Yields.bind_beside {x : Except ε (α × σ)} {b : α × τ} {f : α × σ → Except ε γ} {d : δ}
    {R : σ → τ → Prop} (h : Yields (Beside R) x b)
    (hf : ∀ s, R s b.2 → Yields S (f (b.1, s)) d) : Yields S (x >>= f) d :=
  h.bind fun ⟨_, s⟩ ⟨hsame, hs⟩ => by
    cases hsame
    exact hf s hs

/-- In a list without repetition what comes next has not been passed. -/
theorem notMem_passed {l done rest : List α} {a : α} {k : α → β} (hnodup : (l.map k).Nodup)
    (hsplit : l = done ++ a :: rest) : k a ∉ done.map k := by
  rw [hsplit, List.map_append, List.map_cons] at hnodup
  exact fun hpassed => (List.nodup_append.mp hnodup).2.2 _ hpassed _ List.mem_cons_self rfl

/-- A loop goes well under an invariant that knows what has been passed. -/
theorem exists_foldlM_eq_ok {f : σ → β → Except ε σ} {k : α → β} {l : List α}
    {motive : List α → σ → Prop}
    (hstep : ∀ done a rest s, l = done ++ a :: rest → motive done s →
      ∃ s', f s (k a) = .ok s' ∧ motive (done ++ [a]) s')
    {s : σ} (h : motive [] s) : ∃ s', (l.map k).foldlM f s = .ok s' ∧ motive l s' := by
  have hall : ∀ (rest done : List α) (s : σ), l = done ++ rest → motive done s →
      ∃ s', (rest.map k).foldlM f s = .ok s' ∧ motive l s' := by
    -- the induction is on what is still to come, so that what has been passed may grow
    intro rest
    induction rest with
    | nil =>
      intro done s hl h
      rw [List.append_nil] at hl
      exact ⟨s, rfl, hl ▸ h⟩
    | cons a rest ih =>
      intro done s hl h
      obtain ⟨s', hrun, hs'⟩ := hstep done a rest s hl h
      rw [List.map_cons, List.foldlM_cons, hrun, ok_bind]
      exact ih (done ++ [a]) s' (by rw [hl, List.append_cons]) hs'
  exact hall l [] s rfl h

/-- Two loops side by side, under a relation that knows what has been passed. -/
theorem yields_foldlM {f : σ → β → Except ε σ} {g : τ → α → τ} {k : α → β} {l : List α}
    {R : List α → σ → τ → Prop}
    (hstep : ∀ done a rest s t, l = done ++ a :: rest → R done s t →
      Yields (R (done ++ [a])) (f s (k a)) (g t a))
    {s : σ} {t : τ} (h : R [] s t) : Yields (R l) ((l.map k).foldlM f s) (l.foldl g t) := by
  refine exists_foldlM_eq_ok (motive := fun done s => R done s (done.foldl g t))
    (fun done a rest s hl hs => ?_) h
  rw [List.foldl_append]
  exact hstep done a rest s _ hl hs

/-- Two loops over one list, under a relation that does not know what has been passed. -/
theorem yields_foldlM_of_mem {f : σ → α → Except ε σ} {g : τ → α → τ} {l : List α}
    {R : σ → τ → Prop}
    (hstep : ∀ a ∈ l, ∀ s t, R s t → Yields R (f s a) (g t a)) {s : σ} {t : τ} (h : R s t) :
    Yields R (l.foldlM f s) (l.foldl g t) := by
  have hall := yields_foldlM (k := id) (l := l) (R := fun _ => R)
    (fun done a rest s t hl hs => hstep a (by simp [hl]) s t hs) h
  rwa [List.map_id] at hall

/-- A loop that cannot but go well. -/
theorem foldlM_eq_ok {f : σ → α → Except ε σ} {g : σ → α → σ} {motive : σ → Prop} {l : List α}
    (hstep : ∀ a ∈ l, ∀ s, motive s → f s a = .ok (g s a) ∧ motive (g s a)) {s : σ}
    (hs : motive s) : l.foldlM f s = .ok (l.foldl g s) ∧ motive (l.foldl g s) := by
  obtain ⟨s', hrun, rfl, hs'⟩ := yields_foldlM_of_mem (R := fun a b : σ => a = b ∧ motive b)
    (fun a ha s t hst => by
      obtain ⟨rfl, hm⟩ := hst
      exact ⟨_, (hstep a ha s hm).1, rfl, (hstep a ha s hm).2⟩) ⟨rfl, hs⟩
  exact ⟨hrun, hs'⟩

theorem mapM_congr {f : α → Except ε γ} {g : β → Except ε γ} {l : List α} {m : List β}
    (h : List.Forall₂ R l m) (hfg : ∀ a b, R a b → f a = g b) : l.mapM f = m.mapM g := by
  induction h with
  | nil => rfl
  | cons hab _ ih => rw [List.mapM_cons, List.mapM_cons, hfg _ _ hab, ih]

end Yields

/-! ## Tables with related values -/

namespace Table

variable {α β γ : Type} {R : β → γ → Prop} {s : Table α β} {t : Table α γ}

/-- The tables have the same keys in the same order, and related values. -/
def Alike (R : β → γ → Prop) (s : Table α β) (t : Table α γ) : Prop :=
  List.Forall₂ (Beside R) s.toList t.toList

theorem Alike.imp {R' : β → γ → Prop} (h : Alike R s t) (himp : ∀ v w, R v w → R' v w) :
    Alike R' s t :=
  List.Forall₂.imp (fun _ _ he => ⟨he.1, himp _ _ he.2⟩) h

variable [DecidableEq α]

theorem Alike.get? (h : Alike R s t) (k : α) : Option.Rel R (s.get? k) (t.get? k) := by
  have hall : ∀ {l : List (α × β)} {m : List (α × γ)}, List.Forall₂ (Beside R) l m →
      Option.Rel R (find? l k) (find? m k) := by
    intro l m hlm
    induction hlm with
    | nil => exact .none
    | @cons a b l m hab _ ih =>
      rw [find?, find?, hab.1]
      split
      · exact .some hab.2
      · exact ih
  exact hall h

/-- What is read off the value at a key. -/
theorem Alike.bind_get? {δ : Type} (h : Alike R s t) (k : α) {f : β → Option δ} {g : γ → Option δ}
    (hfg : ∀ v w, R v w → f v = g w) : (s.get? k).bind f = (t.get? k).bind g := by
  generalize s.get? k = v, t.get? k = w, h.get? k = hrel
  cases hrel with
  | none => rfl
  | some hvw => exact hfg _ _ hvw

theorem Alike.contains (h : Alike R s t) (k : α) : s.contains k = t.contains k := by
  rw [Table.contains, Table.contains]
  generalize s.get? k = v, t.get? k = w, h.get? k = hrel
  cases hrel <;> rfl

theorem Alike.insert (h : Alike R s t) (k : α) {v : β} {w : γ} (hvw : R v w) :
    Alike R (s.insert k v) (t.insert k w) := by
  have hall : ∀ {l : List (α × β)} {m : List (α × γ)}, List.Forall₂ (Beside R) l m →
      List.Forall₂ (Beside R) (upsert l k v) (upsert m k w) := by
    intro l m hlm
    induction hlm with
    | nil => exact .cons ⟨rfl, hvw⟩ .nil
    | @cons a b l m hab hrest ih =>
      rw [upsert, upsert, hab.1]
      split
      · exact .cons ⟨rfl, hvw⟩ hrest
      · exact .cons ⟨rfl, hab.2⟩ ih
  exact hall h

end Table

/-! ## Names taken in another order -/

namespace TakenNames

variable {s t : TakenNames}

/-- The same names are in use. -/
def Alike (s t : TakenNames) : Prop := ∀ e, e ∈ s.pairs ↔ e ∈ t.pairs

theorem Alike.claim (h : s.Alike t) (scope : Scope) (name : String) :
    (s.claim scope name).Alike (t.claim scope name) := fun e => by
  rw [mem_claim, mem_claim, h e]

theorem Alike.isFree (h : s.Alike t) (scope : Scope) (name : String) :
    s.isFree scope name = t.isFree scope name := by
  rw [Bool.eq_iff_iff, isFree_eq_true_iff, isFree_eq_true_iff, h]

/-- So many names are in use in a scope. -/
theorem Alike.length_taken (h : s.Alike t) (scope : Scope) :
    (s.taken scope).length = (t.taken scope).length := by
  refine ((List.perm_ext_iff_of_nodup (s.nodup_taken scope) (t.nodup_taken scope)).mpr ?_).length_eq
  intro name
  rw [mem_taken_iff, mem_taken_iff, h]

theorem Alike.drawAs (h : s.Alike t) (scope : Scope) (form : String → String)
    (source : NameSource) : ∃ s', s.drawAs scope form source =
        ((t.drawAs scope form source).1, s', (t.drawAs scope form source).2.2) ∧
      s'.Alike (t.drawAs scope form source).2.1 := by
  have hfree : (fun name => s.isFree scope (form name)) = fun name => t.isFree scope (form name) :=
    funext fun name => h.isFree scope (form name)
  refine ⟨_, ?_, h.claim scope (form (t.drawAs scope form source).1)⟩
  rw [TakenNames.drawAs, TakenNames.drawAs, hfree, h.length_taken]

theorem Alike.memberFits (h : s.Alike t) (group : List MethodSymbol) (m : MethodSymbol)
    (name : String) : s.memberFits group m name = t.memberFits group m name := by
  rw [TakenNames.memberFits, TakenNames.memberFits, h.isFree]

theorem Alike.groupFits (h : s.Alike t) (group : List MethodSymbol) :
    s.groupFits group = t.groupFits group := by
  funext name
  rw [TakenNames.groupFits, TakenNames.groupFits]
  simp only [h.memberFits]

theorem Alike.inTheWay (h : s.Alike t) (group : List MethodSymbol) :
    s.inTheWay group = t.inTheWay group := by
  rw [TakenNames.inTheWay, TakenNames.inTheWay]
  simp only [h.length_taken]

theorem Alike.fitGroup (h : s.Alike t) (group : List MethodSymbol) (chosen : String)
    (source : NameSource) : ∃ s', s.fitGroup group chosen source =
        ((t.fitGroup group chosen source).1, s', (t.fitGroup group chosen source).2.2) ∧
      s'.Alike (t.fitGroup group chosen source).2.1 := by
  have hclaim (name : String) : (group.foldl (fun s m => s.claimMethod m name) s).Alike
      (group.foldl (fun t m => t.claimMethod m name) t) := fun e => by
    rw [mem_foldl_claimMethod, mem_foldl_claimMethod, h]
  refine ⟨_, ?_, hclaim (t.fitGroup group chosen source).1⟩
  rw [TakenNames.fitGroup, TakenNames.fitGroup, h.groupFits, h.inTheWay]

end TakenNames

end Renamer
