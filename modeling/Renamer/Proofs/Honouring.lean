import Mathlib.Data.Set.Finite.Basic
import Renamer.Proofs.Choosing
import Renamer.Proofs.Emitted

/-!
# Which classifiers a run honours

The words that a run draws are those that Java does not reserve, whatever the classifier of its
policy says of them. So the aliases of all runs suit a classifier exactly if those words do.

* `Classifier.Usable` says which names suit a classifier, `Run.HasAlias` which aliases a run has
  given.
* `Run.coins_of_hasAlias` bounds the aliases of a run: words that Java does not reserve, and names
  that the classifier accepts.
* `Program.before` is a program whose first type is given the word with a chosen number.
-/

namespace Renamer

namespace Classifier

/-- `name` may stand as an identifier: it is valid, not reserved and printable. -/
def Usable (C : Classifier) (name : String) : Prop :=
  C.valid name = true ∧ C.reserved name = false ∧ C.printable name = true

/-- The rules of `C` with one more reserved word. -/
def reserving (C : Classifier) (word : String) : Classifier :=
  { C with
    valid := fun name => name != word && C.valid name
    reserved := fun name => name == word || C.reserved name }

end Classifier

theorem Policy.usable_of_accepts {P : Policy} {name : String} (h : P.accepts name = true) :
    P.classifier.Usable name := by
  simp only [accepts, Bool.and_eq_true, Bool.not_eq_true'] at h
  exact ⟨h.1.1.1, h.1.1.2, h.1.2⟩

namespace Word

/-- A word that Java does not reserve. -/
def Plain (word : String) : Prop :=
  word ≠ "" ∧ (∀ c ∈ word.toList, IsSmall c) ∧ Ident.isReservedWord word = false

theorem plain_spell {n : Nat} (hn : Ident.isReservedWord (spell n) = false) : Plain (spell n) :=
  ⟨spell_ne_empty n, fun _ hc => isSmall_of_mem_spell hc, hn⟩

end Word

namespace Run

/-- The run has given the alias `name` to a package, a type or a member. -/
inductive HasAlias (r : Run) (name : String) : Prop
  | package {n : PackageNode} :
    n ∈ r.engine.packages.nodes.toList → n.newName = some name → HasAlias r name
  | type {ty : TypeId} : r.engine.typeAlias ty = some name → HasAlias r name
  | field {id : FieldId} {f : FieldSymbol} :
    r.program.fields.get? id = some f → f.newName = some name → HasAlias r name
  | method {id : MethodId} {m : MethodSymbol} :
    r.program.methods.get? id = some m → m.newName = some name → HasAlias r name

/-! ## What aliases are -/

variable {p : Program} {e : Engine} {name : String}

/-- Without presets every alias is a word that Java does not reserve, or may be written as it
is. -/
theorem coins_of_hasAlias (hp : p.WellFormed) (h : (e.reset.bound p).unified.HasAlias name) :
    e.policy.Coins name := by
  have hg := Engine.grouped_bound (e := e.reset) hp rfl
  obtain ⟨hchosen, hbound⟩ := chosen_bound e p
  have hmember : ∀ {s name}, s.kind ≠ .types →
      (e.reset.bound p).program.boundAlias s = some name → e.policy.Coins name :=
    fun {s name} hkind hname => hchosen.coined ((hbound s hkind).symm.trans hname)
  have hmethod : ∀ {i m name}, (e.reset.bound p).program.methods.get? i = some m →
      m.newName = some name → e.policy.Coins name := by
    intro i m name hm hname
    refine hmember (s := .method i) (fun heq => by cases heq) ?_
    rw [Program.boundAlias, hm]
    exact hname
  cases h with
  | @package n hn hname =>
    have hlodged := lodged_bound p e
    have halias := hlodged.sound.aliasOf_eq_some_iff.mpr ⟨n, hn, rfl, hname⟩
    obtain ⟨-, hreserved, -⟩ := Policy.usable_of_accepts (hlodged.sound.usable halias)
    have hhoused := (housed_discover e p).of_packages (alikeTypes_apply _).packages
    obtain ⟨k, hword⟩ := hhoused.apart.word halias
    exact Or.inl ⟨k, hword ▸ hreserved, hword⟩
  | @type ty hname =>
    rw [typeAlias_unified] at hname
    exact hchosen.coined (s := .type ty) hname
  | @field id f hf hname =>
    refine hmember (s := .field id) (fun heq => by cases heq) ?_
    rw [Program.boundAlias, ← hg.fields_unified, hf]
    exact hname
  | @method id m hm hname =>
    obtain hm' | ⟨before, ids, chosen, name', m₀, hturn, hname', -, -⟩ := hg.cases_unified hm
    · exact hmethod hm' hname
    · rw [hname] at hname'
      cases hname'
      obtain ⟨-, hsame, -⟩ | ⟨n, hredraw, hword, -⟩ := hturn.named.name_eq
      · -- the alias of the group was that of a member
        have hchosenAlias := hturn.named.chosen_eq
        rw [hturn.symbols hg] at hchosenAlias
        obtain ⟨o, ho, hoalias⟩ := mem_of_chosenAlias hchosenAlias
        obtain ⟨k, -, hok⟩ := Program.mem_symbols.mp ho
        rw [hsame]
        exact hmethod hok hoalias
      · exact Or.inl ⟨n, hredraw.2.not_reserved, hword⟩

end Run

/-! ## A program that is given any word -/

namespace Program

/-- A type without a name, before types that are called by the words with the numbers below `n`. -/
def before (n : Nat) : Program where
  types := ⟨({ package := "", shortName := "", fullName := "" } ::
    (List.range n).map fun k =>
      { package := "", shortName := Word.spell k, fullName := Word.spell k }).toArray⟩

theorem built_before (n : Nat) : (before n).Built := by
  induction n with
  | zero => exact Built.empty.addType { shortName := "" }
  | succ n ih =>
    have hpush : before (n + 1) = ((before n).addType { shortName := Word.spell n }).2 := by
      simp [before, addType, pushType, Arena.push, TypeSymbol.ofDeclaration, List.range_succ]
    rw [hpush]
    exact ih.addType _

theorem clearAliases_before (n : Nat) : (before n).clearAliases = before n := by
  simp [before, clearAliases, Arena.map]

/-- In the unnamed package all words below the one with the number `n` are taken, and that is
not. -/
theorem mem_seed_before {n k : Nat} :
    (Scope.package "", Word.spell k) ∈ (TakenNames.seed {} (before n)).pairs ↔ k < n := by
  have hnone : (before n).fields.toList = [] ∧ (before n).methods.toList = [] := ⟨rfl, rfl⟩
  rw [TakenNames.seed, TakenNames.mem_foldl_claim, TakenNames.mem_foldl_claim,
    TakenNames.mem_foldl_claim, hnone.1, hnone.2]
  simp [before, Arena.toList, TypeSymbol.scope, Word.spell_ne_empty, Word.spell_injective.eq_iff]

theorem exists_walk_before (n : Nat) : ∃ rest, (before n).walk = .type ⟨0⟩ :: rest := ⟨_, rfl⟩

theorem unnamed_of_showsType {n : Nat} {ty : TypeId} {t : TypeSymbol}
    (ht : (before n).ShowsType ty t) : t.package = "" ∧ t.enclosing = none := by
  obtain ⟨u, hu, hut⟩ := ht
  rw [← TypeSymbol.agree hut TypeSymbol.package fun _ => rfl,
    ← TypeSymbol.agree hut TypeSymbol.enclosing fun _ => rfl]
  have hmem : u ∈ (before n).types.toList := Arena.mem_toList_of_get? hu
  simp only [before, Arena.toList, List.mem_cons, List.mem_map] at hmem
  obtain rfl | ⟨k, -, rfl⟩ := hmem
  · exact ⟨rfl, rfl⟩
  · exact ⟨rfl, rfl⟩

end Program

namespace Run

variable {n : Nat} {r : Run} {done rest : List SymbolId}

/-- What holds of a run on `Program.before n`: it starts with all words, and once the type without
a name has been decided on, that is called by the word with the number `n`. -/
structure Opens (n : Nat) (done : List SymbolId) (r : Run) : Prop where
  declared : r.program.declared = (Program.before n).declared
  presets : r.engine.presets = {}
  short : r.engine.rejects "" = true
  hintless : r.engine.policy.settings.useSourceNames = false
  start : done = [] → r.engine.source = {} ∧ r.engine.types = {} ∧
    r.engine.taken = TakenNames.seed {} (Program.before n)
  given : SymbolId.type ⟨0⟩ ∈ done → r.engine.aliasOf (.type ⟨0⟩) = some (Word.spell n)

/-- The unnamed package is never decided on. -/
theorem decidePackage_of_unnamed (e : Engine) {t : TypeSymbol} (ht : t.package = "") :
    e.decidePackage t = e := by
  have hpath : PackagePath.ofText t.package = [] := by
    rw [ht]
    decide
  have hdecide : ∀ u : PackageTree, u.decide [] e.rejects e.source = (u, e.source) := by
    intro u
    unfold PackageTree.decide
    split <;> rfl
  unfold Engine.decidePackage
  rw [hpath]
  dsimp only
  rw [hdecide]
  rfl

/-- The type without a name is given the first word that is not taken. -/
theorem Opens.first (h : Opens n [] r) (hn : Ident.isReservedWord (Word.spell n) = false)
    {t : TypeSymbol} (hscope : t.scope = .package "") (hshort : t.shortName = "") :
    (r.decideType ⟨0⟩ t).engine.aliasOf (.type ⟨0⟩) = some (Word.spell n) := by
  obtain ⟨hsource, htypes, htaken⟩ := h.start rfl
  obtain ⟨k, hnext, heq⟩ := r.engine.drawAs_eq_next t.scope Function.injective_id
  -- the words before it are taken
  have hword : r.engine.source.IsNext (fun name => r.engine.taken.isFree t.scope (id name)) n := by
    rw [hsource, htaken, hscope]
    refine ⟨Nat.zero_le n, hn, ?_, fun j _ hj => Or.inr ?_⟩
    · rw [TakenNames.isFree_eq_true_iff, id, Program.mem_seed_before]
      exact Nat.lt_irrefl n
    · rw [← Bool.not_eq_true, TakenNames.isFree_eq_true_iff, id, Program.mem_seed_before]
      exact not_not_intro hj
  have hpreset : r.engine.presets.types.get? t.fullName = none := by
    rw [h.presets]
    rfl
  have hnew : (r.engine.types.contains ⟨0⟩ || !r.engine.rejects t.shortName) = false := by
    rw [htypes, hshort, h.short]
    rfl
  rw [hnext.unique hword] at heq
  rw [decideType, hpreset]
  dsimp only
  rw [if_neg (by simp [hnew]), nameType, if_neg (by simp [h.hintless]), Engine.draw, heq]
  show ((r.engine.types.insert ⟨0⟩ _).get? ⟨0⟩).map TypeRecord.newName = _
  rw [Table.get?_insert, if_pos rfl]
  rfl

theorem keeps_opens (n : Nat) (hn : Ident.isReservedWord (Word.spell n) = false) :
    Pass.deciding.Keeps (Program.before n) (Opens n) where
  declared := fun h => h.declared
  type := by
    intro done rest r ty t hwalk ht h
    obtain ⟨hpackage, henclosing⟩ := Program.unnamed_of_showsType ht
    dsimp only [Pass.deciding]
    rw [decidePackage_of_unnamed r.engine hpackage]
    have hd := decides_decideType (r := r) ht
    have hrejects : (r.decideType ty t).engine.rejects "" = true := by
      rw [Engine.rejects, hd.policy]
      exact h.short
    have hhintless : (r.decideType ty t).engine.policy.settings.useSourceNames = false := by
      rw [hd.policy]
      exact h.hintless
    refine ⟨hd.declared.trans h.declared, hd.presets.trans h.presets, hrejects, hhintless,
      fun hnil => absurd hnil (by simp), fun _ => ?_⟩
    obtain ⟨tail, htail⟩ := Program.exists_walk_before n
    cases done with
    | nil =>
      -- the type without a name comes first
      rw [List.nil_append, htail] at hwalk
      cases hwalk
      have hscope : t.scope = .package "" := by
        rw [TypeSymbol.scope, henclosing, hpackage]
      obtain ⟨u, hu, hut⟩ := ht
      cases hu
      exact h.first hn hscope (TypeSymbol.agree hut TypeSymbol.shortName fun _ => rfl).symm
    | cons s done =>
      -- a later type leaves its alias alone
      have hmem : SymbolId.type ⟨0⟩ ∈ s :: done := by
        rw [htail] at hwalk
        rw [(List.cons.inj hwalk).1]
        exact List.mem_cons_self
      have hne : SymbolId.type ⟨0⟩ ≠ .type ty := fun heq =>
        Program.notMem_of_walk hwalk (heq ▸ hmem)
      exact (hd.aliasOf_of_ne hne).trans (h.given hmem)
  field := by
    intro done rest r ty t id f _ _ hf _ _
    obtain ⟨g, hg, -⟩ := hf
    cases hg
  method := by
    intro done rest r ty t id m _ _ hm _ _
    obtain ⟨k, hk, -⟩ := hm
    cases hk

/-- The type without a name ends with the word with the number `n`. -/
theorem hasAlias_before (n : Nat) (hn : Ident.isReservedWord (Word.spell n) = false) {e : Engine}
    (hshort : e.rejects "" = true) (hhintless : e.policy.settings.useSourceNames = false) :
    (e.reset.bound (Program.before n)).unified.HasAlias (Word.spell n) := by
  let p := Program.before n
  have hstart : Opens n []
      { engine := e.reset.seed p.clearAliases, program := p.clearAliases } := by
    rw [Program.clearAliases_before]
    exact ⟨rfl, rfl, hshort, hhintless, fun _ => ⟨rfl, rfl, rfl⟩,
      fun hmem => absurd hmem List.not_mem_nil⟩
  obtain ⟨r, hr, heq⟩ := (keeps_opens n hn).discover hstart
  obtain ⟨tail, htail⟩ := Program.exists_walk_before n
  have hgiven := hr.given (htail ▸ List.mem_cons_self)
  have halike := alikeTypes_unified e.reset (Program.before n)
  rw [heq] at halike
  exact HasAlias.type ((halike.typeAlias ⟨0⟩).trans hgiven)

end Run

/-! ## Runs -/

namespace Engine

/-- Whatever the classifier, an alias that does not suit it is a word that Java does not reserve.
And all runs give aliases that suit the classifier exactly if those words do. -/
theorem aliases_process_usable_iff (C : Classifier) :
    (∀ p : Program, p.Built → ∀ e : Engine, e.policy.classifier = C →
      ∃ report r, e.reset.process p = .ok (report, r) ∧
        ∀ name, r.HasAlias name → C.Usable name ∨ Word.Plain name) ∧
    ((∀ p : Program, p.Built → ∀ e : Engine, e.policy.classifier = C →
      ∃ report r, e.reset.process p = .ok (report, r) ∧
        ∀ name, r.HasAlias name → C.Usable name) ↔
      ∀ word, Word.Plain word → C.Usable word) := by
  have hall : ∀ p : Program, p.Built → ∀ e : Engine, e.policy.classifier = C →
      ∃ report r, e.reset.process p = .ok (report, r) ∧
        ∀ name, r.HasAlias name → C.Usable name ∨ Word.Plain name := by
    intro p hp e hC
    obtain ⟨report, hrun⟩ := process_eq_ok (e := e.reset) hp.wellFormed rfl
    refine ⟨report, _, hrun, fun name hname => ?_⟩
    obtain ⟨n, hreserved, rfl⟩ | haccepts := Run.coins_of_hasAlias hp.wellFormed hname
    · exact Or.inr (Word.plain_spell hreserved)
    · exact Or.inl (hC ▸ Policy.usable_of_accepts haccepts)
  refine ⟨hall, fun hruns word hword => ?_, fun hwords p hp e hC => ?_⟩
  · obtain ⟨hne, hsmall, hreserved⟩ := hword
    obtain ⟨n, rfl⟩ := Word.exists_spell_eq hne hsmall
    let e : Engine := { policy := { settings := { useSourceNames := false }, classifier := C } }
    obtain ⟨report, r, hrun, husable⟩ := hruns _ (Program.built_before n) e rfl
    refine husable _ ?_
    rw [← unified_eq_of_process (Program.built_before n).wellFormed rfl hrun]
    exact Run.hasAlias_before n hreserved rfl rfl
  · obtain ⟨report, r, hrun, hnames⟩ := hall p hp e hC
    exact ⟨report, r, hrun, fun name hname => (hnames name hname).elim id (hwords name)⟩

/-- Where `a` is one more reserved word, a type is called `a` all the same. All other words suit the
classifier but for those that Java reserves. -/
theorem hasAlias_process_reserving :
    let C := Classifier.java.reserving "a"
    let p : Program := { types := ⟨#[{ package := "", shortName := "x", fullName := "x" }]⟩ }
    {word : String | word ≠ "" ∧ (∀ c ∈ word.toList, Word.IsSmall c) ∧ ¬ C.Usable word}.Finite ∧
      p.Built ∧ ∃ report r,
        ({ policy := { classifier := C } } : Engine).reset.process p = .ok (report, r) ∧
          r.engine.typeAlias ⟨0⟩ = some "a" ∧ ¬ C.Usable "a" := by
  intro C p
  have hbuilt : p.Built := Program.Built.empty.addType { shortName := "x" }
  have hfinite : {word : String | word ≠ "" ∧ (∀ c ∈ word.toList, Word.IsSmall c) ∧
      ¬ C.Usable word}.Finite := by
    refine (List.finite_toSet ("a" :: Ident.reservedWords)).subset ?_
    rintro word ⟨hne, hsmall, hrefused⟩
    by_contra hother
    obtain ⟨hnot, hplain⟩ : word ≠ "a" ∧ word ∉ Ident.reservedWords := by
      simpa using hother
    have hreserved : Ident.isReservedWord word = false := by
      simpa [Ident.isReservedWord] using hplain
    have hwell := Word.wellFormed_of_isSmall
      (fun hnil => hne (String.toList_inj.mp hnil)) hsmall
    have hgraphic := Word.isGraphic_of_isSmall hsmall
    refine hrefused ⟨?_, ?_, hgraphic⟩
    · simp [C, Classifier.reserving, Classifier.java, hnot, hwell, hreserved]
    · simp [C, Classifier.reserving, Classifier.java, hnot, hreserved]
  let e : Engine := { policy := { classifier := C } }
  obtain ⟨report, hrun⟩ := process_eq_ok (e := e.reset) hbuilt.wellFormed rfl
  refine ⟨hfinite, hbuilt, report, _, hrun, ?_, fun husable => ?_⟩
  · decide +kernel
  · obtain ⟨hvalid, -, -⟩ := husable
    simp [C, Classifier.reserving] at hvalid

end Engine
end Renamer
