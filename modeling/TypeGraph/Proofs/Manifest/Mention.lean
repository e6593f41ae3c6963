import TypeGraph.Manifest.Site
import TypeGraph.TypeRef.Basic

/-!
# Mentions

Where the declaration of a type mentions another one, stated without the lists that a load goes
through: at which place, and at any depth of a type reference.

**Results.**
* `TypeRef.mem_mentioned_iff`: the names listed for a reference are those it mentions at any depth.
* `TypeDef.mem_sites_iff`: the sites listed for a type are its mentions.
-/

namespace TypeGraph

/-- A reference mentions a full name, itself or in its elements and members. -/
inductive TypeRef.Mentions : TypeRef → String → Prop
  | named (fqn : String) :
      Mentions (.named fqn) fqn
  | array {element : TypeRef} {fqn : String} :
      Mentions element fqn →
      Mentions (.array element) fqn
  | map {element : TypeRef} {fqn : String} :
      Mentions element fqn →
      Mentions (.map element) fqn
  | union {members : List TypeRef} {member : TypeRef} {fqn : String} :
      member ∈ members →
      Mentions member fqn →
      Mentions (.union members) fqn

theorem TypeRef.Mentions.mem_mentioned
    {ref : TypeRef}
    {fqn : String}
    (h : ref.Mentions fqn) :
    fqn ∈ ref.mentioned := by
  induction h with
  | named fqn => simp [mentioned]
  | array _ ih => simpa [mentioned] using ih
  | map _ ih => simpa [mentioned] using ih
  | union hm _ ih =>
      rw [mentioned, mentionedIn_eq_flatMap, List.mem_flatMap]
      exact ⟨_, hm, ih⟩

theorem TypeRef.mentions_of_mem :
    ∀ (ref : TypeRef) (fqn : String), fqn ∈ ref.mentioned → ref.Mentions fqn
  | .primitive p, fqn, h => by
      simp [mentioned] at h
  | .named name, fqn, h => by
      rw [mentioned, List.mem_singleton] at h
      rw [h]
      exact Mentions.named name
  | .array element, fqn, h => Mentions.array (mentions_of_mem element fqn h)
  | .map element, fqn, h => Mentions.map (mentions_of_mem element fqn h)
  | .union members, fqn, h => by
      rw [mentioned, mentionedIn_eq_flatMap, List.mem_flatMap] at h
      obtain ⟨member, hm, h⟩ := h
      exact Mentions.union hm (mentions_of_mem member fqn h)

/-- The names listed for a reference are those it mentions. -/
theorem TypeRef.mem_mentioned_iff
    {ref : TypeRef}
    {fqn : String} :
    fqn ∈ ref.mentioned ↔ ref.Mentions fqn :=
  ⟨mentions_of_mem ref fqn, Mentions.mem_mentioned⟩

/-- The declaration of a type mentions a full name at a place. -/
inductive TypeDef.Mentions (t : TypeDef) : SitePlace → String → Prop
  | base {fqn : String} :
      t.base = some fqn →
      Mentions t .base fqn
  | interfaces {fqn : String} :
      fqn ∈ t.interfaces →
      Mentions t .interfaces fqn
  | initializerParameter {i : Initializer} {p : Parameter} {fqn : String} :
      t.initializer = some i →
      p ∈ i.parameters →
      p.type.Mentions fqn →
      Mentions t (.initializerParameter p.name) fqn
  | methodParameter {m : Method} {p : Parameter} {fqn : String} :
      m ∈ t.methods →
      p ∈ m.parameters →
      p.type.Mentions fqn →
      Mentions t (.methodParameter m.name p.name) fqn
  | methodReturns {m : Method} {ref : TypeRef} {fqn : String} :
      m ∈ t.methods →
      m.returns = some ref →
      ref.Mentions fqn →
      Mentions t (.methodReturns m.name) fqn
  | property {p : Property} {fqn : String} :
      p ∈ t.properties →
      p.type.Mentions fqn →
      Mentions t (.property p.name) fqn

/-- The sites of a reference at a place. -/
theorem TypeRef.mem_sites_iff
    {ref : TypeRef}
    {place : SitePlace}
    {site : Site} :
    site ∈ ref.sites place ↔ site.place = place ∧ ref.Mentions site.target := by
  rw [sites, List.mem_map]
  constructor
  · rintro ⟨fqn, h, rfl⟩
    exact ⟨rfl, mem_mentioned_iff.1 h⟩
  · rintro ⟨rfl, h⟩
    exact ⟨site.target, mem_mentioned_iff.2 h, rfl⟩

theorem Method.mem_sites_iff
    {m : Method}
    {site : Site} :
    site ∈ m.sites ↔
      (∃ p ∈ m.parameters, site.place = .methodParameter m.name p.name ∧
        p.type.Mentions site.target) ∨
      ∃ ref, m.returns = some ref ∧ site.place = .methodReturns m.name ∧
        ref.Mentions site.target := by
  rw [sites, List.mem_append, List.mem_flatMap]
  refine or_congr ?_ ?_
  · simp only [TypeRef.mem_sites_iff]
  · cases h : m.returns with
    | none => simp
    | some ref => simp [TypeRef.mem_sites_iff]

theorem Initializer.mem_sites_iff
    {i : Initializer}
    {site : Site} :
    site ∈ i.sites ↔
      ∃ p ∈ i.parameters, site.place = .initializerParameter p.name ∧
        p.type.Mentions site.target := by
  simp only [sites, List.mem_flatMap, TypeRef.mem_sites_iff]

theorem Members.mem_sites_iff
    {members : Members}
    {site : Site} :
    site ∈ members.sites ↔
      (site.place = .interfaces ∧ site.target ∈ members.interfaces) ∨
      (∃ m ∈ members.methods, site ∈ m.sites) ∨
      ∃ p ∈ members.properties, site.place = .property p.name ∧ p.type.Mentions site.target := by
  simp only [sites, List.mem_append, List.mem_flatMap, List.mem_map, Property.sites,
    TypeRef.mem_sites_iff, or_assoc]
  refine or_congr ?_ Iff.rfl
  constructor
  · rintro ⟨fqn, h, rfl⟩
    exact ⟨rfl, h⟩
  · rintro ⟨hp, h⟩
    exact ⟨site.target, h, by rw [← hp]⟩

/-- The mentions in the members of a type are among its mentions. -/
theorem TypeDef.mentions_of_mem_members
    {t : TypeDef}
    {site : Site}
    (h : site ∈ t.members.sites) :
    t.Mentions site.place site.target := by
  rcases Members.mem_sites_iff.1 h with ⟨hp, h⟩ | ⟨m, hm, h⟩ | ⟨p, hmem, hp, h⟩
  · rw [hp]
    exact Mentions.interfaces h
  · rcases Method.mem_sites_iff.1 h with ⟨p, hmem, hp, h⟩ | ⟨ref, hr, hp, h⟩
    · rw [hp]
      exact Mentions.methodParameter hm hmem h
    · rw [hp]
      exact Mentions.methodReturns hm hr h
  · rw [hp]
    exact Mentions.property hmem h

/-- The sites of a type, by the place they are listed for. -/
theorem TypeDef.mem_sites_eq
    {t : TypeDef}
    {site : Site} :
    site ∈ t.sites ↔
      (site.place = .base ∧ t.base = some site.target) ∨
      (∃ i, t.initializer = some i ∧ site ∈ i.sites) ∨
      site ∈ t.members.sites := by
  obtain ⟨target, place⟩ := site
  rcases hb : t.body with ⟨base, members, isAbstract, initializer⟩ | members | members
  · cases base <;> cases initializer <;>
      simp [sites, TypeDef.base, TypeDef.initializer, TypeDef.members, hb, eq_comm, and_comm]
  · simp [sites, TypeDef.base, TypeDef.initializer, TypeDef.members, hb]
  · simp [sites, TypeDef.base, TypeDef.initializer, TypeDef.members, hb, Members.sites]

/-- The sites listed for a type are its mentions. -/
theorem TypeDef.mem_sites_iff
    {t : TypeDef}
    {site : Site} :
    site ∈ t.sites ↔ t.Mentions site.place site.target := by
  constructor
  · intro h
    rcases mem_sites_eq.1 h with ⟨hp, h⟩ | ⟨i, hi, h⟩ | h
    · rw [hp]
      exact Mentions.base h
    · obtain ⟨p, hmem, hp, h⟩ := Initializer.mem_sites_iff.1 h
      rw [hp]
      exact Mentions.initializerParameter hi hmem h
    · exact mentions_of_mem_members h
  · obtain ⟨target, place⟩ := site
    intro h
    refine mem_sites_eq.2 ?_
    cases h with
    | base h => exact Or.inl ⟨rfl, h⟩
    | interfaces h => exact Or.inr (Or.inr (Members.mem_sites_iff.2 (Or.inl ⟨rfl, h⟩)))
    | initializerParameter hi hmem h =>
        exact Or.inr (Or.inl ⟨_, hi, Initializer.mem_sites_iff.2 ⟨_, hmem, rfl, h⟩⟩)
    | methodParameter hm hmem h =>
        have hs : ⟨target, _⟩ ∈ Method.sites _ := Method.mem_sites_iff.2 (Or.inl ⟨_, hmem, rfl, h⟩)
        exact Or.inr (Or.inr (Members.mem_sites_iff.2 (Or.inr (Or.inl ⟨_, hm, hs⟩))))
    | methodReturns hm hr h =>
        have hs : ⟨target, _⟩ ∈ Method.sites _ := Method.mem_sites_iff.2 (Or.inr ⟨_, hr, rfl, h⟩)
        exact Or.inr (Or.inr (Members.mem_sites_iff.2 (Or.inr (Or.inl ⟨_, hm, hs⟩))))
    | property hmem h =>
        exact Or.inr (Or.inr (Members.mem_sites_iff.2 (Or.inr (Or.inr ⟨_, hmem, rfl, h⟩))))

end TypeGraph
