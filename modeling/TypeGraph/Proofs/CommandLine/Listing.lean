import TypeGraph.CommandLine.Listing
import TypeGraph.Proofs.Inheritance.Total
import TypeGraph.Proofs.System.Alike

/-!
# Which listings there are

A command shows what it asks about if that is declared: an assembly, a type, or an interface.  Then no
query fails on the way, however much is remembered.  Otherwise the look-up fails because something is not
found, which is the only way in which it can.

**Results.**
* `Query.AnswersWhen.ask`: what a type system is asked is answered when it is declared.
* `Listing.recalls_describeType`: a declared type can be described.
* `Listing.answersWhen_ofCommand`: there is a listing when what is asked about is declared, and otherwise
  something is not found.
-/

namespace TypeGraph

/-- The failure says that something is not found. -/
def Failure.SaysNotFound (f : Failure) : Prop :=
  f.report.failureClass = .notFound

namespace Catalog

variable {c : Catalog} {failure : Failure}

theorem saysNotFound_of_findType
    {key : Json}
    (h : c.findType key = .error failure) :
    failure.SaysNotFound := by
  unfold findType at h
  split at h <;> cases h
  rfl

theorem saysNotFound_of_assemblyNamed
    {name : String}
    (h : c.assemblyNamed name = .error failure) :
    failure.SaysNotFound := by
  unfold assemblyNamed findAssembly at h
  split at h <;> cases h
  rfl

theorem saysNotFound_of_findKind
    {wanted : TypeKind}
    {key : Json}
    (h : c.findKind wanted key = .error failure) :
    failure.SaysNotFound := by
  rcases bind_eq_error_iff.1 h with hfind | ⟨t, -, hkind⟩
  · exact saysNotFound_of_findType hfind
  · split at hkind <;> cases hkind
    rfl

end Catalog

namespace Query

variable {α β : Type} {c : Catalog} {q : Query α} {next : α → Query β}

/-- After an answer a query goes on as the next one. -/
theorem Recalls.answered
    {a : α}
    {plain : Except Failure β}
    (hq : q.Recalls c (.ok a))
    (hn : (next a).Recalls c plain) :
    (q >>= next).Recalls c plain := by
  refine @recalls_bind α β c q (.ok a) next (fun _ => plain) hq fun b hb => ?_
  cases hb
  exact hn

/-- After a failure a query does not go on. -/
theorem Recalls.failed
    {failure : Failure}
    (hq : q.Recalls c (.error failure)) :
    (q >>= next).Recalls c (.error failure) :=
  @recalls_bind α β c q (.error failure) next (fun _ => .error failure) hq fun _ hb => nomatch hb

/-- A query is answered when something is declared, and otherwise says that something is not found. -/
def AnswersWhen (q : Query α) (c : Catalog) (declared : Prop) : Prop :=
  (declared ∧ ∃ a, q.Recalls c (.ok a)) ∨
    (¬ declared ∧ ∃ failure, q.Recalls c (.error failure) ∧ failure.SaysNotFound)

/-- A look at the catalog that finds what is declared, after which the query is answered. -/
theorem answersWhen_look
    {compute : Catalog → Except Failure α}
    {declared : Prop}
    (hfound : ∀ a, compute c = .ok a → declared ∧ ∃ b, (next a).Recalls c (.ok b))
    (hmissed : ∀ failure, compute c = .error failure → ¬ declared ∧ failure.SaysNotFound) :
    (fromCatalog compute >>= next).AnswersWhen c declared := by
  have hlook := @recalls_fromCatalog α c compute
  cases hcompute : compute c with
  | ok a =>
      rw [hcompute] at hlook
      obtain ⟨hdeclared, b, hb⟩ := hfound a hcompute
      exact Or.inl ⟨hdeclared, b, hlook.answered hb⟩
  | error failure =>
      rw [hcompute] at hlook
      obtain ⟨hnot, hsays⟩ := hmissed failure hcompute
      exact Or.inr ⟨hnot, failure, hlook.failed, hsays⟩

/-- A look at the catalog alone. -/
theorem answersWhen_fromCatalog
    {compute : Catalog → Except Failure α}
    {declared : Prop}
    (hfound : ∀ a, compute c = .ok a → declared)
    (hmissed : ∀ failure, compute c = .error failure → ¬ declared ∧ failure.SaysNotFound) :
    (fromCatalog compute).AnswersWhen c declared := by
  have hlook := @recalls_fromCatalog α c compute
  cases hcompute : compute c with
  | ok a => exact Or.inl ⟨hfound a hcompute, a, hcompute ▸ hlook⟩
  | error failure =>
      obtain ⟨hnot, hsays⟩ := hmissed failure hcompute
      exact Or.inr ⟨hnot, failure, hcompute ▸ hlook, hsays⟩

end Query

/-- What a type system at hand is asked is answered when it is declared. -/
theorem Query.AnswersWhen.ask
    {α : Type}
    {s : TypeSystem}
    {question : Query α}
    {declared : Prop}
    (h : question.AnswersWhen s.catalog declared)
    (hs : s.registry.Sincere) :
    (declared ∧ ∃ a, (s.ask question).2 = .ok a) ∨
      (¬ declared ∧ ∃ failure, (s.ask question).2 = .error failure ∧ failure.SaysNotFound) := by
  rcases h with ⟨hdeclared, a, ha⟩ | ⟨hnot, failure, hfailure, hsays⟩
  · exact Or.inl ⟨hdeclared, a, TypeSystem.ask_of_recalls hs ha⟩
  · exact Or.inr ⟨hnot, failure, TypeSystem.ask_of_recalls hs hfailure, hsays⟩

namespace CommandLine

/-- What a command asks about is declared by some assemblies. -/
def Command.Declared (P : Manifest → Prop) : Command → Prop
  | .assemblies => True
  | .types _ assembly => ∀ name ∈ assembly, Known P name
  | .describe fqn _ => ∃ m, P m ∧ ∃ t ∈ m.types, t.fqn = fqn
  | .implementations fqn => ∃ m, P m ∧ ∃ t ∈ m.types, t.fqn = fqn ∧ t.kind = .interfaceKind

namespace Listing

variable {c : Catalog} {t : TypeDef}

/-- A declared type can be described. -/
theorem recalls_describeType
    (hc : c.Coherent)
    (ht : t ∈ c.types)
    (inherited : Bool) :
    ∃ d, (describeType t inherited).Recalls c (.ok d) := by
  have hnamed : c.typeNamed t.fqn = .ok t := hc.typeNamed_iff.2 ⟨ht, rfl⟩
  obtain ⟨ancestors, hancestors, -⟩ := hc.exists_ancestors ht
  obtain ⟨isDataType, hdata⟩ := hc.exists_isDataType ht
  obtain ⟨interfaces, hinterfaces, -⟩ := hc.exists_interfacesOf ht inherited
  obtain ⟨methods, hmethods, -⟩ := hc.exists_methodsOf ht inherited
  obtain ⟨properties, hproperties, -⟩ := hc.exists_propertiesOf ht inherited
  refine ⟨⟨t, ancestors, isDataType, interfaces, methods, properties⟩, ?_⟩
  refine (hancestors ▸ Query.recalls_ancestorsOf hnamed).answered ?_
  refine (hdata ▸ Query.recalls_isDataType hnamed).answered ?_
  refine (hinterfaces ▸ Query.recalls_interfacesOf hnamed inherited).answered ?_
  refine (hmethods ▸ Query.recalls_methodsOf hnamed inherited).answered ?_
  refine (hproperties ▸ Query.recalls_propertiesOf hnamed inherited).answered ?_
  exact Query.recalls_pure _

/-- There is a description of a full name when a type has it. -/
theorem answersWhen_describe
    (hc : c.Coherent)
    (fqn : String)
    (inherited : Bool) :
    (describe fqn inherited).AnswersWhen c (∃ t ∈ c.types, t.fqn = fqn) := by
  refine Query.answersWhen_look (fun t hfind => ?_) fun failure hfind => ?_
  · obtain ⟨ht, hname⟩ := hc.typeNamed_iff.1 hfind
    obtain ⟨d, hd⟩ := recalls_describeType hc ht inherited
    exact ⟨⟨t, ht, hname⟩, _, hd.answered (Query.recalls_pure _)⟩
  · refine ⟨?_, Catalog.saysNotFound_of_findType hfind⟩
    rintro ⟨t, ht, hname⟩
    rw [hc.typeNamed_iff.2 ⟨ht, hname⟩] at hfind
    cases hfind

/-- There are implementations of a full name when an interface has it. -/
theorem answersWhen_implementations
    (hc : c.Coherent)
    (fqn : String) :
    (implementations fqn).AnswersWhen c
      (∃ t ∈ c.types, t.fqn = fqn ∧ t.kind = .interfaceKind) := by
  have hkind : ∀ t, c.findKind .interfaceKind (.string fqn) = .ok t ↔
      (t ∈ c.types ∧ t.fqn = fqn) ∧ t.kind = .interfaceKind := by
    intro t
    rw [← hc.typeNamed_iff, Catalog.findKind, bind_eq_ok_iff, Catalog.typeNamed]
    constructor
    · rintro ⟨u, hu, hif⟩
      split_ifs at hif with hk
      cases hif
      exact ⟨hu, hk⟩
    · rintro ⟨ht, hk⟩
      exact ⟨t, ht, by rw [if_pos hk]; rfl⟩
  refine Query.answersWhen_look (fun t hfind => ?_) fun failure hfind => ?_
  · obtain ⟨⟨ht, hname⟩, hinterface⟩ := (hkind t).1 hfind
    obtain ⟨names, hnames, -⟩ := hc.exists_implementations ht
    have hrecalls := Query.recalls_implementations (hc.typeNamed_iff.2 ⟨ht, rfl⟩) hc.toIndexed
    exact ⟨⟨t, ht, hname, hinterface⟩, _, (hnames ▸ hrecalls).answered (Query.recalls_pure _)⟩
  · refine ⟨?_, Catalog.saysNotFound_of_findKind hfind⟩
    rintro ⟨t, ht, hname, hinterface⟩
    rw [(hkind t).2 ⟨⟨ht, hname⟩, hinterface⟩] at hfind
    cases hfind

/-- There is a list of types when the assembly that is asked for, if any, is declared. -/
theorem answersWhen_types
    (hc : c.Coherent)
    (kind : Option TypeKind)
    (assembly : Option String) :
    (Query.fromCatalog fun c => types c kind assembly).AnswersWhen c
      (∀ name ∈ assembly, Known c.Has name) := by
  cases assembly with
  | none => exact Query.answersWhen_fromCatalog (fun _ _ => nofun) fun _ h => by cases h
  | some name =>
      simp only [Option.mem_some_iff, forall_eq']
      refine Query.answersWhen_fromCatalog (fun listing htypes => ?_) fun failure htypes => ?_
      · obtain ⟨m, hm, -⟩ := bind_eq_ok_iff.1 htypes
        obtain ⟨hmem, hname⟩ := (Catalog.assemblyNamed_ok_iff hc.names_nodup).1 hm
        exact ⟨m, hmem, hname⟩
      · rcases bind_eq_error_iff.1 htypes with hfind | ⟨found, -, hpure⟩
        · refine ⟨?_, Catalog.saysNotFound_of_assemblyNamed hfind⟩
          rintro ⟨m, hmem, hname⟩
          rw [(Catalog.assemblyNamed_ok_iff hc.names_nodup).2 ⟨hmem, hname⟩] at hfind
          cases hfind
        · cases hpure

/-- There is a listing for a command when what it asks about is declared. -/
theorem answersWhen_ofCommand
    (hc : c.Coherent)
    (command : Command) :
    (ofCommand command).AnswersWhen c (command.Declared c.Has) := by
  have htypes : ∀ (P : TypeDef → Prop), (∃ t ∈ c.types, P t) ↔
      ∃ m, c.Has m ∧ ∃ t ∈ m.types, P t := by
    intro P
    simp only [hc.mem_types_iff]
    exact ⟨fun ⟨t, ⟨m, hm, ht⟩, hP⟩ => ⟨m, hm, t, ht, hP⟩,
      fun ⟨m, hm, t, ht, hP⟩ => ⟨t, ⟨m, hm, ht⟩, hP⟩⟩
  cases command with
  | assemblies =>
      exact Or.inl ⟨trivial, _, @Query.recalls_fromCatalog _ c fun c => .ok (assemblies c)⟩
  | types kind assembly => exact answersWhen_types hc kind assembly
  | describe fqn inherited =>
      simp only [Command.Declared, ← htypes]
      exact answersWhen_describe hc fqn inherited
  | implementations fqn =>
      simp only [Command.Declared, ← htypes]
      exact answersWhen_implementations hc fqn

end Listing
end CommandLine
end TypeGraph
