import TypeGraph.Member
import TypeGraph.Proofs.Manifest.Mention

/-!
# Views of references

A member shows its type as a usage, and a usage shows its elements and members as usages again.  What
is met on the way down is a part of the reference, so a name that is met is one that the type mentions.

**Results.**
* `Usage.HasPart.mentions`: a reference mentions what its parts mention.
* `TypeDef.Uses.mentions`: a type mentions what the usages of its members and initializer mention.
-/

namespace TypeGraph

/-- A usage is met on the way down from another one, through elements of arrays and of maps and
through members of unions, to any depth. -/
inductive Usage.HasPart (u : Usage) : Usage → Prop
  | self :
      HasPart u u
  | array {v element : Usage} :
      HasPart u v →
      v.arrayOf? = some element →
      HasPart u element
  | map {v element : Usage} :
      HasPart u v →
      v.mapOf? = some element →
      HasPart u element
  | union {v member : Usage} {members : List Usage} :
      HasPart u v →
      v.unionOf? = some members →
      member ∈ members →
      HasPart u member

/-- The usages of the parameters, results and properties of a type, and of the parameters of its
initializer. -/
inductive TypeDef.Uses (t : TypeDef) : Usage → Prop
  | initializerParameter {i : Initializer} {p : Parameter} :
      t.initializer = some i →
      p ∈ i.parameters →
      Uses t p.usage
  | methodParameter {m : Method} {p : Parameter} :
      m ∈ t.methods →
      p ∈ m.parameters →
      Uses t p.usage
  | methodReturns {m : Method} :
      m ∈ t.methods →
      Uses t m.usage
  | property {p : Property} :
      p ∈ t.properties →
      Uses t p.usage

/-- The reference of a usage mentions a full name. -/
def Usage.Mentions (u : Usage) (fqn : String) : Prop :=
  ∃ ref, u.ref = some ref ∧ ref.Mentions fqn

namespace Usage

variable {u v : Usage} {fqn : String}

theorem mentions_of_fqn?
    (h : u.fqn? = some fqn) :
    u.Mentions fqn := by
  unfold fqn? at h
  split at h
  · rename_i name href
    cases h
    exact ⟨_, href, .named fqn⟩
  · cases h

theorem mentions_of_arrayOf?
    (h : u.arrayOf? = some v)
    (hv : v.Mentions fqn) :
    u.Mentions fqn := by
  unfold arrayOf? at h
  split at h
  · rename_i element href
    cases h
    obtain ⟨ref, he, hm⟩ := hv
    cases he
    exact ⟨_, href, .array hm⟩
  · cases h

theorem mentions_of_mapOf?
    (h : u.mapOf? = some v)
    (hv : v.Mentions fqn) :
    u.Mentions fqn := by
  unfold mapOf? at h
  split at h
  · rename_i element href
    cases h
    obtain ⟨ref, he, hm⟩ := hv
    cases he
    exact ⟨_, href, .map hm⟩
  · cases h

theorem mentions_of_unionOf?
    {members : List Usage}
    (h : u.unionOf? = some members)
    (hmem : v ∈ members)
    (hv : v.Mentions fqn) :
    u.Mentions fqn := by
  unfold unionOf? at h
  split at h
  · rename_i refs href
    cases h
    obtain ⟨member, hmember, rfl⟩ := List.mem_map.1 hmem
    obtain ⟨ref, he, hm⟩ := hv
    cases he
    exact ⟨_, href, .union hmember hm⟩
  · cases h

/-- A reference mentions what its parts mention. -/
theorem HasPart.mentions
    (h : u.HasPart v)
    (hv : v.Mentions fqn) :
    u.Mentions fqn := by
  induction h with
  | self => exact hv
  | array _ he ih => exact ih (mentions_of_arrayOf? he hv)
  | map _ he ih => exact ih (mentions_of_mapOf? he hv)
  | union _ he hmem ih => exact ih (mentions_of_unionOf? he hmem hv)

end Usage

/-- A type mentions what its usages mention. -/
theorem TypeDef.Uses.mentions
    {t : TypeDef}
    {u : Usage}
    {fqn : String}
    (h : t.Uses u)
    (hu : u.Mentions fqn) :
    ∃ place, t.Mentions place fqn := by
  obtain ⟨ref, href, hm⟩ := hu
  cases h with
  | initializerParameter hi hp =>
      cases href
      exact ⟨_, .initializerParameter hi hp hm⟩
  | methodParameter hmethod hp =>
      cases href
      exact ⟨_, .methodParameter hmethod hp hm⟩
  | methodReturns hmethod => exact ⟨_, .methodReturns hmethod href hm⟩
  | property hp =>
      cases href
      exact ⟨_, .property hp hm⟩

end TypeGraph
