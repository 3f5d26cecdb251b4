import Renamer.Proofs.Construction
import Renamer.Proofs.Deciding

/-!
# Composed names

A type's full name is composed of its package, the chain of the types around it and its own last
part. The engine keeps what it has composed; `Engine.composed` composes without keeping, and this
file shows that both agree, so that after a run every type has the name composed for it.

* `Engine.Remembers` is the invariant of the kept names: each is what would be composed anew.
* `Engine.title` is the alias that binding gives a type, if any.
-/

namespace Renamer

/-! ## Lineages -/

namespace Program

variable {p q : Program}

theorem lineageWithin_declared (p : Program) (depth : Nat) (ty : TypeId) :
    p.declared.lineageWithin depth ty =
      (p.lineageWithin depth ty).map fun e => (e.1, e.2.declared) := by
  induction depth generalizing ty with
  | zero =>
    unfold lineageWithin
    rw [declared, Arena.get?_map]
    cases p.types.get? ty <;> rfl
  | succ depth ih =>
    unfold lineageWithin
    rw [declared, Arena.get?_map, ← declared]
    cases p.types.get? ty with
    | none => rfl
    | some t =>
      show (ty, t.declared) :: _ = (ty, t.declared) :: _
      rw [show t.declared.enclosing = t.enclosing from rfl]
      cases t.enclosing with
      | none => rfl
      | some outer => exact congrArg ((ty, t.declared) :: ·) (ih outer)

theorem lineage_declared (p : Program) (ty : TypeId) :
    p.declared.lineage ty = (p.lineage ty).map fun e => (e.1, e.2.declared) :=
  lineageWithin_declared p ty.index ty

/-- Around the oldest type stands no other, so that its lineage needs no depth. -/
theorem lineageWithin_zero (hp : p.WellFormed) {ty : TypeId} (h : ty.index = 0) (depth : Nat) :
    p.lineageWithin depth ty = p.lineageWithin 0 ty := by
  cases depth with
  | zero => rfl
  | succ depth =>
    unfold lineageWithin
    cases ht : p.types.get? ty with
    | none => rfl
    | some t =>
      cases henclosing : t.enclosing with
      | none =>
        simp only [henclosing]
        rfl
      | some outer =>
        rcases hp.nested ht henclosing with ⟨o, -, hlt, -⟩
        omega

/-- Depth beyond the number of older types makes no difference. -/
theorem lineageWithin_eq (hp : p.WellFormed) {depth depth' : Nat} {ty : TypeId}
    (h : ty.index ≤ depth) (h' : ty.index ≤ depth') :
    p.lineageWithin depth ty = p.lineageWithin depth' ty := by
  induction depth generalizing depth' ty with
  | zero => rw [lineageWithin_zero hp (by omega) depth']
  | succ depth ih =>
    cases depth' with
    | zero => rw [lineageWithin_zero hp (by omega) (depth + 1)]
    | succ depth' =>
      unfold lineageWithin
      cases ht : p.types.get? ty with
      | none => rfl
      | some t =>
        cases henclosing : t.enclosing with
        | none => simp only [henclosing]
        | some outer =>
          rcases hp.nested ht henclosing with ⟨o, -, hlt, -⟩
          have hrest : p.lineageWithin depth outer = p.lineageWithin depth' outer :=
            ih (by omega) (by omega)
          simp only [henclosing]
          rw [hrest]

/-- A type comes before the lineage of the type around it. -/
theorem lineage_of_nested (hp : p.WellFormed) {ty outer : TypeId} {t : TypeSymbol}
    (ht : p.types.get? ty = some t) (h : t.enclosing = some outer) :
    p.lineage ty = (ty, t) :: p.lineage outer := by
  rcases hp.nested ht h with ⟨o, -, hlt, -⟩
  have hpos : ty.index = (ty.index - 1) + 1 := by omega
  unfold lineage
  rw [hpos, lineageWithin, ht]
  simp only [h]
  rw [lineageWithin_eq hp (by omega) (Nat.le_refl outer.index)]

theorem lineage_of_topLevel {ty : TypeId} {t : TypeSymbol} (ht : p.types.get? ty = some t)
    (h : t.enclosing = none) : p.lineage ty = [(ty, t)] := by
  unfold lineage
  cases ty.index with
  | zero =>
    unfold lineageWithin
    rw [ht]
    rfl
  | succ n =>
    unfold lineageWithin
    rw [ht]
    simp only [h]

/-- Every type comes first in its own lineage. -/
theorem exists_lineage_eq {ty : TypeId} {t : TypeSymbol} (ht : p.types.get? ty = some t) :
    ∃ outer, p.lineage ty = (ty, t) :: outer := by
  unfold lineage
  cases ty.index with
  | zero =>
    unfold lineageWithin
    rw [ht]
    exact ⟨[], rfl⟩
  | succ n =>
    unfold lineageWithin
    rw [ht]
    exact ⟨_, rfl⟩

theorem isEmpty_lineage {ty : TypeId} {t : TypeSymbol} (ht : p.types.get? ty = some t) :
    (p.lineage ty).isEmpty = false := by
  obtain ⟨outer, hlineage⟩ := exists_lineage_eq ht
  rw [hlineage]
  rfl

end Program

/-! ## Composing without keeping -/

namespace Engine

/-- The name without package of the first type, where every type is followed by the one around
it. -/
def chainOf (e : Engine) : List (TypeId × TypeSymbol) → String
  | [] => ""
  | (ty, t) :: outer =>
    if outer.isEmpty then e.lastPart ty t
    else e.chainOf outer ++ nestedSeparator ++ e.lastPart ty t

/-- The full name composed for the type `t` in slot `ty`. -/
def composed (e : Engine) (p : Program) (ty : TypeId) (t : TypeSymbol) : String :=
  let package := e.packageName ty t
  let name := e.chainOf (p.lineage ty)
  if package.isEmpty then name else package ++ packageSeparator ++ name

/-- The chain of a top-level type is its last part. -/
theorem chainOf_of_topLevel {e : Engine} {p : Program} {ty : TypeId} {t : TypeSymbol}
    (ht : p.types.get? ty = some t) (h : t.enclosing = none) :
    e.chainOf (p.lineage ty) = e.lastPart ty t := by
  rw [Program.lineage_of_topLevel ht h]
  rfl

/-- The chain of a nested type begins with that of the type around it. -/
theorem chainOf_of_nested {e : Engine} {p : Program} (hp : p.WellFormed) {ty outer : TypeId}
    {t : TypeSymbol} (ht : p.types.get? ty = some t) (h : t.enclosing = some outer) :
    e.chainOf (p.lineage ty) =
      e.chainOf (p.lineage outer) ++ nestedSeparator ++ e.lastPart ty t := by
  obtain ⟨o, ho, -⟩ := hp.nested ht h
  rw [Program.lineage_of_nested hp ht h, chainOf, Program.isEmpty_lineage ho]
  rfl

/-- The names kept are those that would be composed. -/
structure Remembers (e : Engine) (p : Program) : Prop where
  chain : ∀ {ty r name}, e.types.get? ty = some r → r.chain = some name →
    name = e.chainOf (p.lineage ty)
  fullName : ∀ {ty r name t}, e.types.get? ty = some r → r.fullName = some name →
    p.types.get? ty = some t → name = e.composed p ty t

variable {e e' : Engine} {p : Program}

theorem AlikeTypes.lastPart (h : e.AlikeTypes e') (ty : TypeId) (t : TypeSymbol) :
    e'.lastPart ty t = e.lastPart ty t := by
  unfold Engine.lastPart
  rw [h.typeAlias]

/-- Chains are composed from the aliases of types alone. -/
theorem chainOf_congr (h : ∀ ty, e'.typeAlias ty = e.typeAlias ty)
    (l : List (TypeId × TypeSymbol)) : e'.chainOf l = e.chainOf l := by
  induction l with
  | nil => rfl
  | cons entry outer ih =>
    rcases entry with ⟨ty, t⟩
    have hlast : e'.lastPart ty t = e.lastPart ty t := by
      rw [Engine.lastPart, Engine.lastPart, h]
    rw [Engine.chainOf, Engine.chainOf, hlast, ih]

theorem AlikeTypes.chainOf (h : e.AlikeTypes e') (l : List (TypeId × TypeSymbol)) :
    e'.chainOf l = e.chainOf l :=
  chainOf_congr h.typeAlias l

theorem AlikeTypes.packageName (h : e.AlikeTypes e') (ty : TypeId) (t : TypeSymbol) :
    e'.packageName ty t = e.packageName ty t := by
  have htypes := h.types ty
  unfold Engine.packageName packageAlias
  rw [h.packages]
  cases hr : e.types.get? ty with
  | none =>
    rw [hr] at htypes
    rw [Option.map_eq_none_iff.mp htypes]
  | some r =>
    rw [hr] at htypes
    rcases Option.map_eq_some_iff.mp htypes with ⟨r', hr', hdecided⟩
    rw [hr']
    show e.packages.fullAlias r'.decided.package = e.packages.fullAlias r.decided.package
    rw [hdecided]

theorem AlikeTypes.composed (h : e.AlikeTypes e') (p : Program) (ty : TypeId) (t : TypeSymbol) :
    e'.composed p ty t = e.composed p ty t := by
  unfold Engine.composed
  rw [h.packageName, h.chainOf]

/-- Names that are kept stay right as long as the records of the types stay. -/
theorem Remembers.alikeTypes (h : e.Remembers p) (halike : e.AlikeTypes e')
    (htypes : e'.types = e.types) : e'.Remembers p where
  chain := by
    intro ty x name hx hname
    rw [htypes] at hx
    rw [halike.chainOf]
    exact h.chain hx hname
  fullName := by
    intro ty x name t hx hname ht
    rw [htypes] at hx
    rw [halike.composed]
    exact h.fullName hx hname ht

/-- Composing looks at declarations alone. -/
theorem chainOf_declared (e : Engine) (l : List (TypeId × TypeSymbol)) :
    e.chainOf (l.map fun entry => (entry.1, entry.2.declared)) = e.chainOf l := by
  induction l with
  | nil => rfl
  | cons entry outer ih =>
    rcases entry with ⟨ty, t⟩
    rw [List.map_cons, chainOf, chainOf, List.isEmpty_map, ih]
    rfl

theorem chainOf_of_declared {q : Program} (hpq : p.declared = q.declared) (ty : TypeId) :
    e.chainOf (p.lineage ty) = e.chainOf (q.lineage ty) := by
  rw [← chainOf_declared e (p.lineage ty), ← chainOf_declared e (q.lineage ty),
    ← Program.lineage_declared, ← Program.lineage_declared, hpq]

theorem composed_of_declared {q : Program} (hpq : p.declared = q.declared) {s t : TypeSymbol}
    (hst : s.declared = t.declared) (ty : TypeId) : e.composed p ty s = e.composed q ty t := by
  have hpackage : e.packageName ty s = e.packageName ty t :=
    TypeSymbol.agree hst (fun u => e.packageName ty u) fun _ => rfl
  unfold composed
  rw [chainOf_of_declared hpq, hpackage]

theorem Remembers.of_declared {q : Program} (h : e.Remembers p) (hpq : p.declared = q.declared) :
    e.Remembers q where
  chain := by
    intro ty r name hr hname
    rw [← chainOf_of_declared hpq]
    exact h.chain hr hname
  fullName := by
    intro ty r name t hr hname ht
    rcases Program.type_of_declared hpq.symm ht with ⟨s, hs, hst⟩
    rw [← composed_of_declared hpq hst]
    exact h.fullName hr hname hs

/-! ## Composing with keeping -/

/-- A record after a change is one from before, or the record that was changed. -/
theorem get?_keep {ty : TypeId} {f : TypeRecord → TypeRecord} {ty' : TypeId} {r' : TypeRecord}
    (h : (e.keep ty f).types.get? ty' = some r') :
    e.types.get? ty' = some r' ∨ ty' = ty ∧ ∃ r, e.types.get? ty = some r ∧ r' = f r := by
  unfold keep at h
  split at h
  · split at h
    · rename_i r hr
      rw [Table.get?_insert] at h
      by_cases hty : ty = ty'
      · rw [if_pos hty] at h
        exact Or.inr ⟨hty.symm, r, hr, (Option.some.inj h).symm⟩
      · rw [if_neg hty] at h
        exact Or.inl h
    · exact Or.inl h
  · exact Or.inl h

/-- Keeping what would be composed. -/
theorem Remembers.keep (h : e.Remembers p) {ty : TypeId} {f : TypeRecord → TypeRecord}
    (hf : ∀ r, (f r).decided = r.decided)
    (hchain : ∀ r name, (f r).chain = some name → r.chain = some name ∨
      name = e.chainOf (p.lineage ty))
    (hfull : ∀ r name t, (f r).fullName = some name → p.types.get? ty = some t →
      r.fullName = some name ∨ name = e.composed p ty t) : (e.keep ty f).Remembers p := by
  have halike := (recalls_keep e ty hf).alikeTypes
  constructor
  · intro ty' r' name hr' hname
    rw [halike.chainOf]
    rcases get?_keep hr' with hold | ⟨hty, r, hr, hrf⟩
    · exact h.chain hold hname
    · rw [hrf] at hname
      rw [hty]
      rcases hchain r name hname with hkept | hnew
      · exact h.chain hr hkept
      · exact hnew
  · intro ty' r' name t hr' hname ht
    rw [halike.composed]
    rcases get?_keep hr' with hold | ⟨hty, r, hr, hrf⟩
    · exact h.fullName hold hname ht
    · rw [hrf] at hname
      rw [hty] at ht ⊢
      rcases hfull r name t hname ht with hkept | hnew
      · exact h.fullName hr hkept ht
      · exact hnew

/-- Composing for a type, where it is right for the types around it. -/
theorem Remembers.chainName_cons (h : e.Remembers p) {ty : TypeId} {t : TypeSymbol}
    {outer : List (TypeId × TypeSymbol)} (hlineage : p.lineage ty = (ty, t) :: outer)
    (houter : outer.isEmpty = false →
      (e.chainName outer).1 = e.chainOf outer ∧ (e.chainName outer).2.Remembers p) :
    (e.chainName (p.lineage ty)).1 = e.chainOf (p.lineage ty) ∧
      (e.chainName (p.lineage ty)).2.Remembers p := by
  have hkeep : ∀ {e' : Engine} {name : String}, e'.Remembers p →
      name = e'.chainOf (p.lineage ty) →
      (e'.keep ty fun r => { r with chain := some name }).Remembers p := by
    intro e' name he' hname
    apply he'.keep
    · intro r
      rfl
    · intro r name' hname'
      exact Or.inr (Option.some.inj hname' ▸ hname)
    · intro r name' t hname' _
      exact Or.inl hname'
  cases hkept : e.keptChain ty with
  | some name =>
    -- a kept name is answered, and it is right
    rw [hlineage, chainName, hkept, ← hlineage]
    rcases Option.bind_eq_some_iff.mp hkept with ⟨r, hr, hname⟩
    exact ⟨h.chain hr hname, h⟩
  | none =>
    have hchain : e.chainOf (p.lineage ty) = if outer.isEmpty then e.lastPart ty t
        else e.chainOf outer ++ nestedSeparator ++ e.lastPart ty t := by
      rw [hlineage, chainOf]
    rw [hchain, hlineage, chainName, hkept]
    dsimp only
    cases hempty : outer.isEmpty with
    | true =>
      rw [hempty] at hchain
      exact ⟨rfl, hkeep h hchain.symm⟩
    | false =>
      rcases houter hempty with ⟨hname, hremembers⟩
      rw [hempty] at hchain
      have hwhole : (e.chainName outer).1 ++ nestedSeparator ++ e.lastPart ty t =
          (e.chainName outer).2.chainOf (p.lineage ty) := by
        rw [(recalls_chainName e outer).alikeTypes.chainOf, hchain, hname]
        rfl
      exact ⟨congrArg (· ++ nestedSeparator ++ e.lastPart ty t) hname, hkeep hremembers hwhole⟩

/-- What is composed with keeping is what is composed without, along the types around a type. -/
theorem Remembers.chainName (h : e.Remembers p) (hp : p.WellFormed) {ty : TypeId} {t : TypeSymbol}
    (ht : p.types.get? ty = some t) :
    (e.chainName (p.lineage ty)).1 = e.chainOf (p.lineage ty) ∧
      (e.chainName (p.lineage ty)).2.Remembers p := by
  -- the type around a type is older
  induction hindex : ty.index using Nat.strongRecOn generalizing ty t with
  | ind n ih =>
    cases henclosing : t.enclosing with
    | none =>
      apply h.chainName_cons (Program.lineage_of_topLevel ht henclosing)
      intro hempty
      cases hempty
    | some outer =>
      rcases hp.nested ht henclosing with ⟨o, ho, hlt, -⟩
      apply h.chainName_cons (Program.lineage_of_nested hp ht henclosing)
      intro _
      exact ih outer.index (hindex ▸ hlt) ho rfl

/-- The full name of a type is the one composed for it, and the engine still remembers. -/
theorem Remembers.fullName_eq (h : e.Remembers p) (hp : p.WellFormed) {ty : TypeId}
    {t : TypeSymbol} (ht : ∃ s, p.types.get? ty = some s ∧ s.declared = t.declared) :
    (e.fullName p ty t).1 = e.composed p ty t ∧ (e.fullName p ty t).2.Remembers p := by
  rcases ht with ⟨s, hs, hst⟩
  have hsame : e.composed p ty s = e.composed p ty t := composed_of_declared rfl hst ty
  unfold Engine.fullName
  cases hkept : e.keptFullName ty with
  | some name =>
    rcases Option.bind_eq_some_iff.mp hkept with ⟨r, hr, hname⟩
    exact ⟨(h.fullName hr hname hs).trans hsame, h⟩
  | none =>
    dsimp only
    -- what is kept along the way changes no name
    rcases h.chainName hp hs with ⟨hchain, hremembers⟩
    have halike := (recalls_chainName e (p.lineage ty)).alikeTypes
    rw [hchain]
    refine ⟨rfl, ?_⟩
    apply hremembers.keep
    · intro r
      rfl
    · intro r name hname
      exact Or.inl hname
    · intro r name s' hname hs'
      rw [hs] at hs'
      cases hs'
      rw [halike.composed, hsame, ← Option.some.inj hname]
      exact Or.inr rfl

/-- Asked for the full name of a type, the engine composes it unless it was kept. -/
theorem fullNameAt_of_get? {ty : TypeId} {t : TypeSymbol} (ht : p.types.get? ty = some t)
    (e : Engine) : e.fullNameAt p ty = .ok (e.fullName p ty t) := by
  unfold fullNameAt
  cases hkept : e.keptFullName ty with
  | some name => rw [Engine.fullName, hkept]
  | none =>
    rw [Arena.get_eq_ok_iff.mpr ht]
    rfl

/-- So it does with the name without package. -/
theorem chainNameAt_of_get? {ty : TypeId} {t : TypeSymbol} (ht : p.types.get? ty = some t)
    (e : Engine) : e.chainNameAt p ty = .ok (e.chainName (p.lineage ty)) := by
  obtain ⟨outer, hlineage⟩ := Program.exists_lineage_eq ht
  unfold chainNameAt
  cases hkept : e.keptChain ty with
  | some name => rw [hlineage, Engine.chainName, hkept]
  | none =>
    rw [Arena.get_eq_ok_iff.mpr ht]
    rfl

/-- Asked for the full name of a type, the engine answers the one composed for it. -/
theorem Remembers.fullNameAt_eq (h : e.Remembers p) (hp : p.WellFormed) {ty : TypeId}
    {t : TypeSymbol} (ht : p.types.get? ty = some t) :
    (e.fullNameAt p ty).map Prod.fst = .ok (e.composed p ty t) := by
  rw [← (h.fullName_eq hp ⟨t, ht, rfl⟩).1, fullNameAt_of_get? ht]
  rfl

end Engine
end Renamer
