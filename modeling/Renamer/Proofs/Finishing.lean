import Renamer.Proofs.Agreement
import Renamer.Proofs.Staleness

/-!
# Finished engines

What an engine knows when its first run is over, as far as a second run on the same program asks for
it (`Engine.Finished`): the packages of all types are decided, what has no alias needs none, presets
of types that can be used are in use, and the aliases of types are taken.
-/

namespace Renamer

/-! ## Packages that are known -/

namespace PackageTree

variable {t : PackageTree} {path a : PackagePath} {wants : String → Bool}

/-- The packages on the way to `path` are all there, and the last one has been decided, unless it is
the unnamed one. -/
structure Knows (t : PackageTree) (path : PackagePath) : Prop where
  has : ∀ a ∈ path.lineage, t.Has a
  decided : path ≠ [] → path ∈ t.order

/-- Deciding a known package again changes nothing. -/
theorem Knows.decide_eq (h : t.Knows path) (wants : String → Bool) (source : NameSource) :
    t.decide path wants source = (t, source) := by
  unfold PackageTree.decide
  split
  · rfl
  · rename_i hnew
    obtain rfl : path = [] := by
      by_contra hne
      exact hnew (List.contains_iff_mem.mpr (h.decided hne))
    rfl

/-- Deciding puts a package among those decided, and keeps the others there. -/
theorem mem_order_decide {source : NameSource} (h : a ∈ t.order ∨ a = path ∧ path ≠ []) :
    a ∈ (t.decide path wants source).1.order := by
  unfold PackageTree.decide
  split
  · rename_i hmem
    exact h.elim id fun hself => hself.1 ▸ List.contains_iff_mem.mp hmem
  · rw [mem_order_foldl_decideOne]
    refine h.imp_right fun hself => List.mem_filter.mpr ⟨?_, ?_⟩
    · rw [hself.1]
      exact mem_lineage_self hself.2
    · rw [hself.1, beq_self_eq_true]
      rfl

theorem Knows.create (h : t.Knows a) (path : PackagePath) : (t.create path).Knows a where
  has := fun b hb => (h.has b hb).create path
  decided := fun hne => by
    rw [order_create]
    exact h.decided hne

theorem Knows.decide (h : t.Knows a) (path : PackagePath) (wants : String → Bool)
    (source : NameSource) : (t.decide path wants source).1.Knows a where
  has := fun b hb => (h.has b hb).decide path wants source
  decided := fun hne => mem_order_decide (Or.inl (h.decided hne))

/-- What was created and decided is known. -/
theorem knows_decide (t : PackageTree) (path : PackagePath) (wants : String → Bool)
    (source : NameSource) : ((t.create path).decide path wants source).1.Knows path where
  has := fun _ hb => (has_create_of_mem hb).decide path wants source
  decided := fun hne => mem_order_decide (Or.inr ⟨rfl, hne⟩)

end PackageTree

namespace Engine

variable {e : Engine}

/-- So deciding the package of a type changes nothing where it is known. -/
theorem decidePackage_of_knows {t : TypeSymbol}
    (h : e.packages.Knows (PackagePath.ofText t.package)) : e.decidePackage t = e := by
  unfold decidePackage
  dsimp only
  rw [PackageTree.create_eq_self h.has, h.decide_eq]

end Engine

/-! ## The first run -/

namespace Run

variable {p : Program} {e : Engine} {done : List SymbolId} {r r' : Run} {s : SymbolId}

/-- What holds when the symbols `done` have been decided: the packages of types are known, and all
aliases are taken. -/
structure Records (p : Program) (done : List SymbolId) (r : Run) : Prop where
  declared : r.program.declared = p.declared
  knows : ∀ {ty t}, .type ty ∈ done → p.types.get? ty = some t →
    r.engine.packages.Knows (PackagePath.ofText t.package)
  taken : ∀ {s name}, r.engine.aliasOf s = some name →
    ∃ x, p.spot name s = some x ∧ x ∈ r.engine.taken.pairs

/-- Nothing is decided for a symbol, whose package, if it is a type, is known. -/
theorem Records.leaves (h : Records p done r) (hl : r.Leaves r')
    (hpackages : r'.engine.packages = r.engine.packages) : Records p done r' where
  declared := hl.declared.trans h.declared
  knows := fun hty ht => hpackages ▸ h.knows hty ht
  taken := fun {s name} hname => by
    rw [hl.aliases] at hname
    rw [hl.taken]
    exact h.taken hname

theorem Records.assigns (h : Records p done r) {name : String} (ha : r.Assigns p s name r')
    (hpackages : r'.engine.packages = r.engine.packages) : Records p done r' where
  declared := ha.declared.trans h.declared
  knows := fun hty ht => hpackages ▸ h.knows hty ht
  taken := fun {s' name'} hname => by
    obtain ⟨x, hspot, htaken⟩ := ha.taken
    rcases aliasOf_cases ha.aliases hname with ⟨rfl, rfl⟩ | ⟨-, hold⟩
    · exact ⟨x, hspot, (htaken x).mpr (Or.inr rfl)⟩
    · obtain ⟨y, hy, hmem⟩ := h.taken hold
      exact ⟨y, hy, (htaken y).mpr (Or.inl hmem)⟩

theorem Records.decides (h : Records p done r) (hd : Decides p s r r')
    (hpackages : r'.engine.packages = r.engine.packages) : Records p done r' := by
  cases hd with
  | keep _ => exact h
  | preset _ _ ha _ _ => exact h.assigns ha hpackages
  | fresh _ _ ha _ => exact h.assigns ha hpackages

theorem Records.binds (h : Records p done r) (hb : Binds p s r r')
    (hpackages : r'.engine.packages = r.engine.packages) : Records p done r' := by
  cases hb with
  | skip _ => exact h
  | bind _ _ _ hl _ _ => exact h.leaves hl hpackages
  | redraw _ _ _ _ ha _ => exact h.assigns ha hpackages

/-- A symbol that is no type adds no package. -/
theorem Records.passed (h : Records p done r) (hkind : s.kind ≠ .types) :
    Records p (done ++ [s]) r :=
  { h with knows := fun hty ht => h.knows (SymbolId.type_mem_of_kind hkind hty) ht }

/-- Deciding the package of a type makes it known. -/
theorem Records.decidePackage (h : Records p done r) {ty : TypeId} {t : TypeSymbol}
    (ht : p.ShowsType ty t) :
    Records p (done ++ [.type ty]) { r with engine := r.engine.decidePackage t } := by
  have hleaves := leaves_decidePackage r t
  have hself := PackageTree.knows_decide r.engine.packages (PackagePath.ofText t.package)
    r.engine.rejects r.engine.source
  have hkept : ∀ {a}, r.engine.packages.Knows a → (r.engine.decidePackage t).packages.Knows a := by
    intro a ha
    rw [Engine.packages_decidePackage]
    exact (ha.create _).decide _ r.engine.rejects r.engine.source
  rw [← Engine.packages_decidePackage] at hself
  obtain ⟨packages, source, -, -, heq⟩ := r.engine.decidePackage_eq t
  rw [heq] at hleaves hself hkept ⊢
  refine ⟨h.declared, fun {ty' t'} hty ht' => ?_, fun {s name} hname => ?_⟩
  · obtain hold | hlast := List.mem_append.mp hty
    · exact hkept (h.knows hold ht')
    · cases List.mem_singleton.mp hlast
      obtain ⟨u, hu, hut⟩ := ht
      rw [ht'] at hu
      cases hu
      rw [TypeSymbol.agree hut (fun u => PackagePath.ofText u.package) fun _ => rfl]
      exact hself
  · rw [hleaves.aliases] at hname
    exact h.taken hname

theorem keeps_records_deciding (p : Program) : Pass.deciding.Keeps p (Records p) := by
  apply Pass.keeps_deciding
  case hdeclared => exact fun h => h.declared
  case htype =>
    intro done rest r ty t _ ht h
    have hd := decides_decideType (r := { r with engine := r.engine.decidePackage t }) ht
    exact (h.decidePackage ht).decides hd (packages_decideType _ ty t)
  case hmember => exact fun _ hkind hd hs h => (h.decides hd hs.packages).passed hkind
  case hlink => exact fun hl _ _ hs h => h.leaves hl hs.packages

theorem keeps_records_binding (p : Program) :
    Pass.binding.Keeps p fun _ => Records p p.walk := by
  apply Pass.keeps_binding
  case hdeclared => exact fun h => h.declared
  case htype =>
    intro done rest r ty t _ _ h
    have hrecalls := Engine.recalls_fullName r.engine r.program ty t
    exact h.leaves (leaves_applyType r ty t).1 hrecalls.alikeTypes.packages
  case hmember => exact fun _ _ hb hs h => h.binds hb hs.packages

/-- When all aliases are bound, they are taken, and the packages of all types are known. -/
theorem records_bound (p : Program) {e : Engine} (he : e.Unused) :
    Records p p.walk (e.bound p) := by
  have hstart : Records p [] { engine := e.seed p.clearAliases, program := p.clearAliases } := by
    refine ⟨Program.declared_clearAliases, fun hty => absurd hty List.not_mem_nil,
      fun {s name} hname => ?_⟩
    rw [aliasOf_seed, he.aliasOf_eq_none] at hname
    cases hname
  exact (keeps_records_deciding p).bound (keeps_records_binding p) hstart fun {r} hr =>
    hr.leaves (leaves_discovered r) rfl

/-- Unification takes an alias from no symbol. -/
theorem Answers.aliasOf_eq_none_of_unified {P : Policy} (h : Answers p P p.walk r) (hb : r.AllBound)
    (hg : Grouped p r) (hjava : P.classifier = Classifier.java)
    (hnone : r.unified.engine.aliasOf s = none) : r.engine.aliasOf s = none := by
  cases s with
  | type id => exact hnone
  | field id => exact hnone
  | method id =>
    have hcases : r.unified.engine.aliasOf (.method id) = r.engine.aliasOf (.method id) ∨
        ∃ name, P.accepts name = true ∧ r.unified.engine.aliasOf (.method id) = some name :=
      ((agrees_unification h hb).turns hjava hg.present).2 id
    obtain hsame | ⟨name, -, hname⟩ := hcases
    · exact hsame.symm.trans hnone
    · cases hnone.symm.trans hname

end Run

/-! ## The end -/

namespace Engine

/-- What an engine knows when its run on `p` is over. -/
structure Finished (e : Engine) (p : Program) : Prop where
  rests : e.Rests p
  remembers : e.Remembers p
  knows : ∀ {ty t}, p.types.get? ty = some t →
    e.packages.Knows (PackagePath.ofText t.package)
  answers : Run.Answers p e.policy p.walk { engine := e, program := p }
  letsBe : ∀ {s}, s ∈ p.walk → e.aliasOf s = none → e.LetsBe p s
  accepts : ∀ {s name}, e.memberAlias s = some name → e.policy.accepts name = true
  linked : ∀ {i j}, Relation.ReflTransGen p.Linked i j →
    e.memberAlias (.method i) = e.memberAlias (.method j)
  adopted : ∀ {ty name}, p.presetOf e.presets (.type ty) = some name →
    e.policy.accepts name = true → e.typeAlias ty = some name
  taken : ∀ {ty name}, e.typeAlias ty = some name →
    ∃ x, p.spot name (.type ty) = some x ∧ x ∈ e.taken.pairs

variable {e : Engine} {p q : Program}

/-- Whether an engine has finished with a program is a matter of declarations. -/
theorem Finished.of_declared (h : e.Finished p) (hpq : p.declared = q.declared) : e.Finished q where
  rests := h.rests.of_declared hpq
  remembers := h.remembers.of_declared hpq
  knows := fun {ty t} ht => by
    obtain ⟨s, hs, hst⟩ := Program.type_of_declared hpq.symm ht
    rw [← TypeSymbol.agree hst TypeSymbol.package fun _ => rfl]
    exact h.knows hs
  answers := (h.answers.of_declared hpq).leaves ⟨hpq.symm, rfl, rfl, fun _ => rfl, rfl⟩
  accepts := h.accepts
  linked := fun {i j} hij => by
    have hsame : p.Linked = q.Linked := by
      ext i j
      exact Program.linked_of_declared hpq
    exact h.linked (hsame ▸ hij)
  letsBe := fun {s} hs hnone => by
    rw [← Program.walk_of_declared hpq] at hs
    obtain ⟨hpreset, hkept⟩ := h.letsBe hs hnone
    refine ⟨(Program.presetOf_of_declared hpq _ s).symm.trans hpreset, fun {name} hname => ?_⟩
    rw [← Program.nameOf_of_declared hpq] at hname
    exact hkept hname
  adopted := fun {ty name} hpreset haccepts => by
    rw [← Program.presetOf_of_declared hpq] at hpreset
    exact h.adopted hpreset haccepts
  taken := fun {ty name} hname => by
    obtain ⟨x, hspot, hmem⟩ := h.taken hname
    exact ⟨x, Program.spot_of_declared hpq hspot, hmem⟩

/-- A run under the rules of Java leaves an engine that has finished. -/
theorem finished_unified (hp : p.WellFormed) (he : e.Unused)
    (hjava : e.policy.classifier = Classifier.java) : (e.bound p).unified.engine.Finished p := by
  have hg := grouped_bound hp he.groups
  have hfixes := Run.fixes_bound e p
  obtain ⟨hanswers, hbound⟩ := Run.answers_bound p he hjava
  have hvoices := Run.voices_bound p he hjava
  have hrecords := Run.records_bound p he
  have hrests := (he.rests p).unified
  obtain ⟨done, -, htitled⟩ := Run.titled_bound hp he
  have hends := hanswers.unified hbound hg hp hjava
  have hbound' := hbound.unified hanswers hg hjava
  generalize e.bound p = r at *
  refine ⟨hrests, Run.remembers_unified htitled.remembers, fun {ty t} ht => ?_, ?_,
    fun {s} hs hnone => ?_, fun hname => hbound'.usable hname, fun {i j} hij => ?_,
    fun {ty name} hpreset haccepts => ?_, fun {ty name} hname => ?_⟩
  · exact hrecords.knows (Program.mem_walk_type ht) ht
  · have hleaves : r.unified.Leaves { engine := r.unified.engine, program := p } :=
      ⟨hends.declared.symm, rfl, rfl, fun _ => rfl, rfl⟩
    exact hends.policy.symm ▸ hends.leaves hleaves
  · have hnone' := hanswers.aliasOf_eq_none_of_unified hbound hg hjava hnone
    refine ⟨?_, fun {name} hname => ?_⟩
    · by_contra hpreset
      have hpreset' : p.presetOf r.engine.presets s ≠ none := hpreset
      rw [hfixes.presets] at hpreset'
      exact hvoices.given hs hpreset' hnone'
    · by_contra hrejects
      have hrejects' : ¬ r.engine.policy.rejects name = false := hrejects
      rw [hfixes.policy, Bool.not_eq_false] at hrejects'
      exact hanswers.needed hs hname hrejects' hnone'
  · rw [← hbound'.bound, ← hbound'.bound]
    exact hg.boundAlias_eq_unified hij
  · have hpreset' : p.presetOf r.engine.presets (.type ty) = some name := hpreset
    have haccepts' : r.engine.policy.accepts name = true := haccepts
    rw [hfixes.presets] at hpreset'
    rw [hfixes.policy] at haccepts'
    obtain ⟨identity, hidentity, -⟩ := Option.bind_eq_some_iff.mp hpreset'
    exact hvoices.heeds.adopted (Program.mem_walk_of_identityOf hp hidentity)
      ⟨hpreset', Or.inl haccepts'⟩
  · obtain ⟨x, hspot, hmem⟩ := hrecords.taken (s := .type ty) hname
    exact ⟨x, hspot, Unification.taken_turns hg.present hmem⟩

end Engine
end Renamer
