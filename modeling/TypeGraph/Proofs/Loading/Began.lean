import TypeGraph.Proofs.Loading.Required

/-!
# What a load has begun with

A load reads its identifiers with the catalog that it begins with: one that is the name of a committed
assembly stands for it, and any other one for the name that its manifest declares.  Whatever else is
committed while the load is on its way, these stay the names of its roots, and when the load succeeds
they are the names of its assemblies.

**Results.**
* `RootName.unique`: an identifier stands for one name.
* `Batch.Began.start`, `Batch.Began.moves`: the names of the roots stay as they are.
* `Run.turn_outcome`: what a load has done when it ends.
-/

namespace TypeGraph

section RootName

variable {answer : String → Except Failure Manifest} {c : Catalog}

/-- An identifier stands for one name. -/
theorem RootName.unique
    {identifier name name' : String}
    (h : RootName answer c identifier name)
    (h' : RootName answer c identifier name') :
    name = name' := by
  rcases h with ⟨hc, rfl⟩ | ⟨hc, m, hm, rfl⟩ <;> rcases h' with ⟨hc', rfl⟩ | ⟨hc', m', hm', rfl⟩
  · rfl
  · rw [hc] at hc'
    cases hc'
  · rw [hc] at hc'
    cases hc'
  · rw [hm] at hm'
    cases hm'
    rfl

/-- The names of some roots are those that the identifiers stand for. -/
theorem mem_rootNames_iff
    {identifiers names : List String}
    (h : List.Forall₂ (RootName answer c) identifiers names)
    {name : String} :
    name ∈ names ↔ ∃ identifier ∈ identifiers, RootName answer c identifier name := by
  induction h with
  | nil => simp
  | @cons identifier first rest rest' hfirst _ ih =>
      simp only [List.mem_cons, exists_eq_or_imp, ih]
      refine or_congr_left ⟨?_, fun hname => hname.unique hfirst⟩
      rintro rfl
      exact hfirst

end RootName

/-- A batch that has begun with a catalog: it waits for the manifests of the identifiers that were not
committed then, or it knows the names that its identifiers stood for then. -/
structure Batch.Began (answer : String → Except Failure Manifest) (began : Catalog) (b : Batch) :
    Prop where
  waits : b.discovery = none → b.wave = firstWave began b.identifiers
  named : ∀ d, b.discovery = some d →
    List.Forall₂ (RootName answer began) b.identifiers d.rootNames

section Began

variable {resolver : Resolver} {began : Catalog} {b : Batch}

theorem Batch.Began.start
    (answer : String → Except Failure Manifest)
    (c : Catalog)
    (identifiers : List String) :
    (Batch.start c identifiers).Began answer c where
  waits _ := rfl
  named d hd := by simp [Batch.start] at hd

/-- A batch that goes on has begun with the same catalog, whatever is committed by then. -/
theorem Batch.Began.moves
    {answer : String → Except Failure Manifest}
    {c : Catalog}
    {next : Batch}
    (h : b.Began answer began)
    (hm : b.Moves answer c next) :
    next.Began answer began := by
  obtain ⟨manifests, hans, ha⟩ := hm
  cases hd : b.discovery with
  | none =>
      rw [advance_none hd] at ha
      cases ha
      refine ⟨fun hnone => by simp [goOn] at hnone, ?_⟩
      rintro d ⟨⟩
      exact forall_rootName (h.waits hd) hans
  | some d =>
      obtain ⟨-, rfl⟩ := (advance_some hans.length_eq hd).1 ha
      refine ⟨fun hnone => by simp [goOn] at hnone, ?_⟩
      rintro d' ⟨⟩
      exact h.named d hd

/-- A load that ends has failed with the registry as it was, or it has published a batch of manifests
that its resolver has found, and its answer has the names that its identifiers stood for when it
began. -/
theorem Run.turn_outcome
    {limit : Option Number}
    {r after : TypeRegistry}
    {result : Except Failure (List Manifest)}
    (hc : r.catalog.Coherent)
    (hl : b.Lawful (resolver.settle limit) r.catalog)
    (hb : b.Began (resolver.settle limit) began)
    (h : Turn (resolver.settle limit) r b after (.ended result)) :
    (∃ failure, result = .error failure ∧ after = r) ∨
    ∃ batch found, result = .ok found ∧ r.Published after batch (found.map Manifest.name) ∧
      (∀ m ∈ batch, ∃ identifier, resolver.settle limit identifier = .ok m) ∧
      List.Forall₂ (RootName (resolver.settle limit) began) b.identifiers
        (found.map Manifest.name) := by
  rcases h.ended with ⟨failure, -, he⟩ | ⟨next, d, hm, -, hd, he⟩
  · cases he
    exact Or.inl ⟨failure, rfl, rfl⟩
  · have hlearned := (hm.lawful hl).learned d hd
    rcases settle_cases hlearned hc.toIndexed with
      ⟨failure, -, hs⟩ | ⟨batch, published, found, hlink, hpub, hfound, hs⟩ <;>
      rw [hs] at he <;> cases he
    · exact Or.inl ⟨failure, rfl, rfl⟩
    · obtain ⟨hperm, -⟩ := Discovery.link_ok hc.toIndexed hlearned.found_nodup
        (fun _ => hlearned.owns) hlink
      have hcoherent := hpub.coherent hlearned hc hlink
      obtain ⟨hnames, -⟩ := Catalog.assembliesNamed_ok hcoherent.names_nodup hfound
      have hnamed := (hb.moves hm).named d hd
      rw [hm.keeps.1] at hnamed
      rw [← hnames] at hpub hnamed
      exact Or.inr ⟨batch, found, rfl, hpub,
        fun m hm => hlearned.answered m (Discovery.mem_fresh_iff.1 (hperm.mem_iff.1 hm)).1, hnamed⟩

end Began

end TypeGraph
