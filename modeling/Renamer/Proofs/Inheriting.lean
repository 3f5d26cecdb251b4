import Renamer.Proofs.Turns

/-!
# Methods that a type inherits together

A type inherits methods from all types above it, whether or not it declares one of them itself.
Links start from declarations: of two methods that a type inherits under one key, one is linked to
the other where some type that declares such a method reaches both owners. Where a type that
declares none is all that joins two branches, their methods are not linked, and each gets an alias
of its own.
-/

namespace Renamer

/-! ## Inherited methods -/

namespace Program

/-- `m`, in slot `i`, is a virtual method of the type `ty` or of a type above it. -/
def Offers (p : Program) (ty : TypeId) (i : MethodId) (m : MethodSymbol) : Prop :=
  p.methods.get? i = some m ∧ m.isVirtual = true ∧ p.Reaches ty m.owner

variable {p : Program} {ty : TypeId} {i j : MethodId} {m n : MethodSymbol}

/-- A method inherits from all methods with its key that its owner inherits. -/
theorem Offers.inherits (h : p.Offers n.owner i m) (hn : p.methods.get? j = some n)
    (hvirtual : n.isVirtual = true) (hkey : m.key = n.key) : p.Inherits j i :=
  ⟨n, m, hn, h.1, hvirtual, h.2.1, hkey, h.2.2⟩

/-- A method with their key in the type that inherits them links two methods. -/
theorem Offers.chain {k : MethodId} {o : MethodSymbol} (hi : p.Offers o.owner i m)
    (hj : p.Offers o.owner j n) (ho : p.methods.get? k = some o) (hvirtual : o.isVirtual = true)
    (hm : m.key = o.key) (hn : n.key = o.key) : Relation.ReflTransGen p.Linked i j := by
  have hdown : p.Linked i k := Or.inr (hi.inherits ho hvirtual hm)
  have hup : p.Linked k j := Or.inl (hj.inherits ho hvirtual hn)
  exact (Relation.ReflTransGen.single hdown).tail hup

end Program

/-! ## Final names of linked methods -/

namespace Run

variable {p : Program} {r : Run} {i j : MethodId} {m n : MethodSymbol}

/-- Unification leaves the hierarchy as it was. -/
theorem Grouped.reaches_unified (h : Grouped p r) {a b : TypeId} :
    r.unified.program.Reaches a b ↔ p.Reaches a b :=
  Program.reaches_of_declared h.declared_unified

/-- Two methods that were both renamed have one final name exactly if links connect them. -/
theorem Settled.finalName_eq_iff (h : Settled p r) (hg : Grouped p r)
    (hm : r.unified.program.methods.get? i = some m)
    (hn : r.unified.program.methods.get? j = some n) (hrenamed : m.newName.isSome = true)
    (hrenamed' : n.newName.isSome = true) :
    m.finalName = n.finalName ↔ Relation.ReflTransGen p.Linked i j := by
  rcases Option.isSome_iff_exists.mp hrenamed with ⟨a, ha⟩
  rcases Option.isSome_iff_exists.mp hrenamed' with ⟨b, hb⟩
  rw [← hg.same_iff, MethodSymbol.finalName, MethodSymbol.finalName, ha, hb]
  constructor
  · intro hab
    have hsame : a = b := hab
    exact (h.numbered_turns hg).same hm hn ha (hsame ▸ hb)
  · intro hlinked
    have hnames := hg.newName_eq_unified hlinked hm hn
    rw [ha, hb] at hnames
    exact Option.some.inj hnames

end Run

namespace Program

/-- `Both` extends `Base` and implements `Face`, and the types in `owners` declare a virtual method
`a`. -/
def joining (owners : List TypeId) : Program where
  types := ⟨#[
    { package := "", shortName := "Face", fullName := "Face" },
    { package := "", shortName := "Base", fullName := "Base" },
    { package := "", shortName := "Both", fullName := "Both", superType := some "Base",
      interfaces := ["Face"] }]⟩
  methods := ⟨(owners.map fun owner =>
    { owner, name := "a", params := [], returnType := "V", isVirtual := true }).toArray⟩

theorem built_joining :
    (joining [⟨0⟩, ⟨1⟩]).Built ∧ (joining [⟨0⟩, ⟨1⟩, ⟨2⟩]).Built := by
  have hface := Built.empty.addType { shortName := "Face" }
  have hbase := hface.addType { shortName := "Base" }
  have htypes := hbase.addType
    { shortName := "Both", superType := some "Base", interfaces := ["Face"] }
  have habove := htypes.pushMethod ⟨0⟩ "a" [] "V" true (by decide)
  have hbranches := habove.pushMethod ⟨1⟩ "a" [] "V" true (by decide)
  exact ⟨hbranches, hbranches.pushMethod ⟨2⟩ "a" [] "V" true (by decide)⟩

theorem reaches_joining (owners : List TypeId) :
    (joining owners).Reaches ⟨2⟩ ⟨0⟩ ∧ (joining owners).Reaches ⟨2⟩ ⟨1⟩ := by
  have href : ∀ name ∈ ["Base", "Face"], ∀ ty, (joining owners).lookup name = some ty →
      (joining owners).Reaches ⟨2⟩ ty :=
    fun name hname ty hty => Relation.ReflTransGen.single ⟨_, rfl, name, hname, hty⟩
  exact ⟨href "Face" (by decide) ⟨0⟩ rfl, href "Base" (by decide) ⟨1⟩ rfl⟩

end Program

namespace Engine

/-- A class inherits `a` from its super type and thereby implements the `a` of an interface. Where
it does not declare `a` itself, the two methods end with different names. -/
theorem finalNames_process_joining : (Program.joining [⟨0⟩, ⟨1⟩]).Built ∧
    ∃ report r, ({} : Engine).reset.process (Program.joining [⟨0⟩, ⟨1⟩]) = .ok (report, r) ∧
      ∃ m n, r.program.Offers ⟨2⟩ ⟨0⟩ m ∧ r.program.Offers ⟨2⟩ ⟨1⟩ n ∧ m.key = n.key ∧
        m.finalName ≠ n.finalName := by
  have hbuilt := Program.built_joining.1
  have hreach := Program.reaches_joining [⟨0⟩, ⟨1⟩]
  have hgrouped := grouped_bound (e := ({} : Engine).reset) hbuilt.wellFormed rfl
  rcases process_eq_ok (e := ({} : Engine).reset) hbuilt.wellFormed rfl with ⟨report, hrun⟩
  let called (owner : TypeId) (name : String) : MethodSymbol :=
    { owner, name := "a", params := [], returnType := "V", isVirtual := true,
      newName := some name, renamed := true }
  refine ⟨hbuilt, report, _, hrun, called ⟨0⟩ "b", called ⟨1⟩ "c", ⟨?_, rfl, ?_⟩, ⟨?_, rfl, ?_⟩,
    rfl, by decide⟩
  · decide +kernel
  · exact hgrouped.reaches_unified.mpr hreach.1
  · decide +kernel
  · exact hgrouped.reaches_unified.mpr hreach.2

/-- Methods that a type inherits under one key are linked where the type declares such a method.
Linked methods end with one alias, and so with one name if they had one name or are renamed; and
where both are renamed, they end with one name only if they are linked. -/
theorem finalNames_process_inherited (p : Program) (hp : p.Built) (e : Engine) :
    ∃ report r, e.reset.process p = .ok (report, r) ∧
      ∀ ty i j m n, r.program.Offers ty i m → r.program.Offers ty j n → m.key = n.key →
        ((∃ k o, r.program.methods.get? k = some o ∧ o.isVirtual = true ∧ o.owner = ty ∧
          o.key = m.key) → Relation.ReflTransGen p.Linked i j) ∧
        (Relation.ReflTransGen p.Linked i j ∨ m.newName = none ∧ n.newName = none →
          m.newName = n.newName ∧
            (m.name = n.name ∨ m.newName.isSome = true → m.finalName = n.finalName)) ∧
        (m.newName.isSome = true → n.newName.isSome = true →
          (m.finalName = n.finalName ↔ Relation.ReflTransGen p.Linked i j)) := by
  have hsettled := Run.settled_bound e p
  have hgrouped := grouped_bound (e := e.reset) hp.wellFormed rfl
  rcases process_eq_ok (e := e.reset) hp.wellFormed rfl with ⟨report, hrun⟩
  refine ⟨report, _, hrun, ?_⟩
  generalize e.reset.bound p = r at hsettled hgrouped
  intro ty i j m n hm hn hkey
  refine ⟨?_, ?_, hsettled.finalName_eq_iff hgrouped hm.1 hn.1⟩
  · -- links are those of the declarations
    rintro ⟨k, o, ho, hvirtual, rfl, hokey⟩
    have hchain := hm.chain hn ho hvirtual hokey.symm (hkey ▸ hokey.symm)
    refine Relation.ReflTransGen.mono (fun a b hab => ?_) i j hchain
    exact (Program.linked_of_declared hgrouped.declared_unified).mp hab
  · intro hwhy
    have hnames : m.newName = n.newName := by
      rcases hwhy with hchain | ⟨hnone, hnone'⟩
      · exact hgrouped.newName_eq_unified ((hgrouped.same_iff i j).mpr hchain) hm.1 hn.1
      · rw [hnone, hnone']
    refine ⟨hnames, fun hname => ?_⟩
    rw [MethodSymbol.finalName, MethodSymbol.finalName, ← hnames]
    rcases hname with hname | hrenamed
    · rw [hname]
    · rcases Option.isSome_iff_exists.mp hrenamed with ⟨a, ha⟩
      rw [ha]
      rfl

/-- Where the class declares `a` too, the methods that it inherits end with one name. -/
theorem finalNames_process_joined : (Program.joining [⟨0⟩, ⟨1⟩, ⟨2⟩]).Built ∧
    ∃ report r, ({} : Engine).reset.process (Program.joining [⟨0⟩, ⟨1⟩, ⟨2⟩]) = .ok (report, r) ∧
      ∃ m n, r.program.Offers ⟨2⟩ ⟨0⟩ m ∧ r.program.Offers ⟨2⟩ ⟨1⟩ n ∧
        m.newName.isSome = true ∧ m.finalName = n.finalName := by
  have hbuilt := Program.built_joining.2
  have hreach := Program.reaches_joining [⟨0⟩, ⟨1⟩, ⟨2⟩]
  have hgrouped := grouped_bound (e := ({} : Engine).reset) hbuilt.wellFormed rfl
  rcases process_eq_ok (e := ({} : Engine).reset) hbuilt.wellFormed rfl with ⟨report, hrun⟩
  rcases finalNames_process_inherited (Program.joining [⟨0⟩, ⟨1⟩, ⟨2⟩]) hbuilt {} with
    ⟨report', r, hrun', hnames⟩
  rw [hrun] at hrun'
  cases hrun'
  let r := (({} : Engine).reset.bound (Program.joining [⟨0⟩, ⟨1⟩, ⟨2⟩])).unified
  let called (owner : TypeId) : MethodSymbol :=
    { owner, name := "a", params := [], returnType := "V", isVirtual := true,
      newName := some "d", renamed := true }
  have hface : r.program.Offers ⟨2⟩ ⟨0⟩ (called ⟨0⟩) :=
    ⟨by decide +kernel, rfl, hgrouped.reaches_unified.mpr hreach.1⟩
  have hbase : r.program.Offers ⟨2⟩ ⟨1⟩ (called ⟨1⟩) :=
    ⟨by decide +kernel, rfl, hgrouped.reaches_unified.mpr hreach.2⟩
  have hboth : r.program.methods.get? ⟨2⟩ = some (called ⟨2⟩) := by decide +kernel
  have hlinks := hnames ⟨2⟩ ⟨0⟩ ⟨1⟩ _ _ hface hbase rfl
  have hchain := hlinks.1 ⟨⟨2⟩, called ⟨2⟩, hboth, rfl, rfl, rfl⟩
  have hname := (hlinks.2.1 (Or.inl hchain)).2 (Or.inl rfl)
  exact ⟨hbuilt, report, r, hrun, _, _, hface, hbase, rfl, hname⟩

end Engine
end Renamer
