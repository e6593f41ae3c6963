import TypeGraph.Proofs.Graph.Cycle
import TypeGraph.Proofs.Loading.Documented
import TypeGraph.Proofs.Registry.Ordered

/-!
# Cycles that linking finds

Linking looks for cycles twice: among the dependencies of the new assemblies before anything else, and
among the bases and the listed interfaces of their types after all other checks.  No other check reports
a cycle, so the class of a failure tells which of the two it comes from.

What committed assemblies depend on is committed, and was put in order before.  So the dependencies on
them can be left out: no cycle goes through them.

**Results.**
* `Discovery.link_cyclic_iff`: linking reports a cycle of dependencies exactly when there is one.
* `Discovery.closes_of_link`: the path that it reports then.
* `Discovery.depends_cycle_append_iff`: committed assemblies make no difference to it.
* `Discovery.inheritance_of_link`: what a cycle of inheritance is reported with.
-/

namespace TypeGraph

namespace Failure

/-- A failure that reports a cycle. -/
def Cyclic (f : Failure) : Prop :=
  f.report.failureClass = .dependencyCycle ∨ f.report.failureClass = .inheritanceCycle

/-- A failure reports that a type inherits from itself: with a path that closes a cycle of listed
interfaces at it, or with one that comes back somewhere, from the type on along declared bases. -/
def TellsInheritance (P : Manifest → Prop) (f : Failure) (fqn : String) (path : List String) : Prop :=
  f.report.fqn = .string fqn ∧ f.report.path = some path ∧
    ((f.message = s!"interface '{fqn}' extends itself" ∧ Closes (InterfaceLink P) fqn path) ∨
      (f.message = s!"class '{fqn}' inherits from itself" ∧ ComesBack (BaseLink P) fqn path ∧
        (Closes (BaseLink P) fqn path ↔ Relation.TransGen (BaseLink P) fqn fqn)))

end Failure

namespace Linking

section Checks

variable {c : Catalog} {batch : List Manifest} {failure : Failure}

theorem not_cyclic_of_checkUnique
    {staged : List TypeDef}
    {declared : List (String × TypeDef)}
    (h : checkUnique c staged declared = .error failure) :
    ¬ failure.Cyclic := by
  induction declared generalizing staged with
  | nil => cases h
  | cons first rest ih =>
      obtain ⟨assembly, t⟩ := first
      rw [checkUnique] at h
      split at h
      · cases h
        simp [Failure.Cyclic, Failure.report]
      · exact ih h

theorem not_cyclic_of_checkSite
    {types : List TypeDef}
    {visible : List String}
    {assembly : String}
    {t : TypeDef}
    {site : Site}
    (h : checkSite types visible assembly t site = .error failure) :
    ¬ failure.Cyclic := by
  unfold checkSite checkKind at h
  repeat' split at h
  all_goals
    cases h
    try simp [Failure.Cyclic, Failure.report]

theorem not_cyclic_of_checkReferences
    {m : Manifest}
    (h : checkReferences c batch m = .error failure) :
    ¬ failure.Cyclic := by
  unfold checkReferences at h
  split at h
  · cases h
    simp [Failure.Cyclic, Failure.report]
  · obtain ⟨t, -, ht⟩ := exists_of_checkAll_error h
    obtain ⟨site, -, hsite⟩ := exists_of_checkAll_error ht
    exact not_cyclic_of_checkSite hsite

/-- The checks report a cycle only when the full names of the batch are declared once, and then it is
the check of one of its types that does. -/
theorem exists_of_check_cyclic
    (h : check c batch = .error failure)
    (hf : failure.Cyclic) :
    checkUnique c [] (declarations batch) = .ok () ∧
      ∃ t ∈ batch.flatMap Manifest.types, checkInheritance (knownTypes c batch) t = .error failure := by
  rcases check_error_cases h with hunique | ⟨hunique, ⟨m, -, hreferences⟩ | hinheritance⟩
  · exact absurd hf (not_cyclic_of_checkUnique hunique)
  · exact absurd hf (not_cyclic_of_checkReferences hreferences)
  · exact ⟨hunique, hinheritance⟩

/-- The check of a type reports a cycle of inheritance, not of dependencies. -/
theorem class_of_checkInheritance
    {types : List TypeDef}
    {t : TypeDef}
    (h : checkInheritance types t = .error failure) :
    failure.report.failureClass = .inheritanceCycle := by
  unfold checkInheritance at h
  split at h
  · simp only at h
    split at h <;> cases h
    rfl
  · simp only at h
    split at h <;> cases h
    rfl
  · cases h

/-- What the check of a type reports.  The chain of a class starts at the class that is checked and is
reported as a whole; of the interfaces that have been visited only the cycle is. -/
theorem tells_of_checkInheritance
    (hi : c.Indexed)
    (ha : c.Admits batch)
    {t : TypeDef}
    (h : checkInheritance (knownTypes c batch) t = .error failure) :
    ∃ fqn path, failure.TellsInheritance (c.append batch).Has fqn path := by
  unfold checkInheritance at h
  split at h
  · simp only at h
    split at h
    · rename_i names name hchain
      cases h
      have hback := Links.comesBack_of_chain hchain
      have hr : Relator.RightUnique
          (Links.Edge ((knownTypes c batch).map fun t => (t.fqn, t.base))) := by
        intro a b b' hb hb'
        rw [Links.Edge] at hb hb'
        rw [hb] at hb'
        simpa using hb'
      have hiff := hback.closes_iff_transGen hr
      rw [baseLinks_edge hi ha] at hback hiff
      exact ⟨t.fqn, _, rfl, rfl, Or.inr ⟨rfl, hback, hiff⟩⟩
    · cases h
  · simp only at h
    split at h
    · rename_i path horder
      cases h
      obtain ⟨fqn, hcycle, -⟩ := Graph.order_error horder
      have hcloses := hcycle.closes
      rw [interfaceGraph_edge hi ha] at hcloses
      have hlast : path.getLastD t.fqn = fqn := by
        rw [List.getLastD_eq_getLast?, hcloses.last]
        rfl
      rw [hlast]
      exact ⟨fqn, path, rfl, rfl, Or.inl ⟨rfl, hcloses⟩⟩
    · cases h
  · cases h

end Checks
end Linking

namespace Discovery

section Link

variable {c : Catalog} {d : Discovery} {failure : Failure}

/-- The path of a failed order closes a cycle of dependencies of new assemblies. -/
theorem closes_of_order
    (hn : (d.found.map Manifest.name).Nodup)
    {path : List String}
    (h : (graphOf (d.fresh c)).order ((d.fresh c).map Manifest.name) = .error path) :
    ∃ name, Closes (Depends (· ∈ d.fresh c)) name path := by
  obtain ⟨name, hcycle, -⟩ := Graph.order_error h
  have hcloses := hcycle.closes
  rw [graphOf_edge (fresh_nodup hn)] at hcloses
  exact ⟨name, hcloses⟩

/-- What linking reports as a cycle of dependencies is one: the path closes it at the assembly that is
named, along declared dependencies of new assemblies. -/
theorem closes_of_link
    (hn : (d.found.map Manifest.name).Nodup)
    (h : d.link c = .error failure)
    (hf : failure.report.failureClass = .dependencyCycle) :
    ∃ name path, failure.report.assembly = .string name ∧ failure.report.path = some path ∧
      Closes (Depends (· ∈ d.fresh c)) name path := by
  rcases link_error h with ⟨path, horder, rfl⟩ | ⟨batch, -, hcheck⟩
  · obtain ⟨name, hcloses⟩ := closes_of_order hn horder
    refine ⟨name, path, ?_, rfl, hcloses⟩
    simp only [Failure.report, hcloses.first]
    rfl
  · obtain ⟨-, t, -, ht⟩ := Linking.exists_of_check_cyclic hcheck (Or.inl hf)
    rw [Linking.class_of_checkInheritance ht] at hf
    cases hf

/-- Linking reports a cycle of dependencies exactly when a new assembly depends on itself, directly or
through others. -/
theorem link_cyclic_iff
    (hn : (d.found.map Manifest.name).Nodup) :
    (∃ failure, d.link c = .error failure ∧ failure.report.failureClass = .dependencyCycle) ↔
      ∃ name, Relation.TransGen (Depends (· ∈ d.fresh c)) name name := by
  constructor
  · rintro ⟨failure, h, hf⟩
    obtain ⟨name, path, -, -, hcloses⟩ := closes_of_link hn h hf
    exact ⟨name, hcloses.transGen⟩
  · rintro ⟨name, hcycle⟩
    cases horder : (graphOf (d.fresh c)).order ((d.fresh c).map Manifest.name) with
    | ok names =>
        exact absurd hcycle ((order_graphOf_iff (fresh_nodup hn)).1 ⟨names, horder⟩ name)
    | error path =>
        refine ⟨.dependencyCycle path, ?_, rfl⟩
        rw [link_eq, horder]

/-- New assemblies make no difference to what a committed one leads to, so no cycle of dependencies goes
through both. -/
theorem depends_cycle_append_iff
    (hc : c.Coherent)
    {name : String} :
    Relation.TransGen (Depends (c.append (d.fresh c)).Has) name name ↔
      Relation.TransGen (Depends (· ∈ d.fresh c)) name name := by
  have hold : ∀ a b, Known c.Has a → Depends (c.append (d.fresh c)).Has a b →
      Depends c.Has a b ∧ Known c.Has b := by
    rintro a b hk ⟨m, hm, rfl, hb⟩
    rcases List.mem_append.1 hm with hm | hm
    · have hd : Depends c.Has m.name b := ⟨m, hm, rfl, hb⟩
      exact ⟨hd, hc.depends_known hd⟩
    · rw [Catalog.known_has_iff, (mem_fresh_iff.1 hm).2] at hk
      cases hk
  constructor
  · intro hcycle
    have hnew : ¬ Known c.Has name := fun hk =>
      hc.not_depends_cycle name (transGen_within hold hk hcycle)
    -- read backwards, a link to an assembly that is not committed starts at another such
    have hstep : ∀ b a, ¬ Known c.Has b →
        Function.swap (Depends (c.append (d.fresh c)).Has) b a →
          Function.swap (Depends (· ∈ d.fresh c)) b a ∧ ¬ Known c.Has a := by
      intro b a hb hlink
      have ha : ¬ Known c.Has a := fun hk => hb (hold a b hk hlink).2
      obtain ⟨m, hm, rfl, hdep⟩ := hlink
      have hm' : m ∈ d.fresh c :=
        (List.mem_append.1 hm).resolve_left fun hmem => ha ⟨m, hmem, rfl⟩
      exact ⟨⟨m, hm', rfl, hdep⟩, ha⟩
    exact Relation.transGen_swap.1
      (transGen_within hstep hnew (Relation.transGen_swap.2 hcycle))
  · intro hcycle
    exact Relation.TransGen.mono
      (fun _ _ hd => hd.mono fun _ => List.mem_append_right _) _ _ hcycle

/-- What linking reports as a cycle of inheritance: a type of those at hand, and a path from it. -/
theorem inheritance_of_link
    (hi : c.Indexed)
    (hn : (d.found.map Manifest.name).Nodup)
    (h : d.link c = .error failure)
    (hf : failure.report.failureClass = .inheritanceCycle) :
    ∃ fqn path, failure.TellsInheritance (c.append (d.fresh c)).Has fqn path := by
  rcases link_error h with ⟨path, -, rfl⟩ | ⟨batch, hb, hcheck⟩
  · cases hf
  · have hp := hb.perm hn
    obtain ⟨hunique, t, -, ht⟩ := Linking.exists_of_check_cyclic hcheck (Or.inr hf)
    obtain ⟨hfqns, hnew⟩ := Linking.checkUnique_ok_iff.1 hunique
    have ha : c.Admits batch := ⟨(hp.map _).nodup_iff.2 (fresh_nodup hn),
      fun m hm => (mem_fresh_iff.1 (hp.mem_iff.1 hm)).2, hfqns, hnew⟩
    have hhas : (c.append batch).Has = (c.append (d.fresh c)).Has := by
      refine property_ext fun m => ?_
      simp only [Catalog.Has, Catalog.append, List.mem_append, hp.mem_iff]
    rw [← hhas]
    exact Linking.tells_of_checkInheritance hi ha ht

end Link
end Discovery
end TypeGraph
