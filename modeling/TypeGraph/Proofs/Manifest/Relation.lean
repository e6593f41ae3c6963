import TypeGraph.Proofs.Graph.Climb
import TypeGraph.Proofs.Manifest.Mention

/-!
# Relations between assemblies and types

How assemblies depend on each other, how their types inherit, and what it means that a mention leads
to a type.  All of this is relative to the assemblies at hand, which are given by a property: those of
a catalog, those of a batch, or both.

**Results.**
* `reflTransGen_within`, `transGen_within`: a path that cannot leave some nodes is a path among them.
* `Leads.mono`: a mention that leads to a type does so among more assemblies too.
* `baseLink_of_table`, `interfaceLink_of_table`: the links in a table of types are those that the types
  declare.
-/

namespace TypeGraph

/-- One of the assemblies at hand has a name. -/
def Known (P : Manifest → Prop) (name : String) : Prop :=
  ∃ m, P m ∧ m.name = name

/-- The assembly `a` declares `b` as a dependency. -/
def Depends (P : Manifest → Prop) (a b : String) : Prop :=
  ∃ m, P m ∧ m.name = a ∧ b ∈ m.dependencyNames

/-- The type `a` declares `b` as its base. -/
def BaseLink (P : Manifest → Prop) (a b : String) : Prop :=
  ∃ m, P m ∧ ∃ t ∈ m.types, t.fqn = a ∧ t.base = some b

/-- The type `a` lists `b` among its interfaces. -/
def InterfaceLink (P : Manifest → Prop) (a b : String) : Prop :=
  ∃ m, P m ∧ ∃ t ∈ m.types, t.fqn = a ∧ b ∈ t.interfaces

/-- Only classes are bases, and only interfaces are listed as interfaces. -/
def Fits (place : SitePlace) (kind : TypeKind) : Prop :=
  (place = .base → kind = .classKind) ∧ (place = .interfaces → kind = .interfaceKind)

/-- The mention of a full name at a place of a type of `assembly` leads to a type of that assembly or
of one that it depends on, directly or not, and the type fits the place. -/
def Leads (P : Manifest → Prop) (assembly : String) (place : SitePlace) (fqn : String) : Prop :=
  ∃ m, P m ∧ Relation.ReflTransGen (Depends P) assembly m.name ∧
    ∃ t ∈ m.types, t.fqn = fqn ∧ Fits place t.kind

section Mono

variable {P Q : Manifest → Prop} (hPQ : ∀ m, P m → Q m)
include hPQ

theorem Known.mono
    {name : String}
    (h : Known P name) :
    Known Q name := by
  obtain ⟨m, hm, he⟩ := h
  exact ⟨m, hPQ m hm, he⟩

theorem Depends.mono
    {a b : String}
    (h : Depends P a b) :
    Depends Q a b := by
  obtain ⟨m, hm, he⟩ := h
  exact ⟨m, hPQ m hm, he⟩

/-- A path of dependencies is one among more assemblies too. -/
theorem Depends.path_mono
    {a b : String}
    (h : Relation.ReflTransGen (Depends P) a b) :
    Relation.ReflTransGen (Depends Q) a b :=
  Relation.ReflTransGen.mono (fun _ _ => Depends.mono hPQ) _ _ h

theorem BaseLink.mono
    {a b : String}
    (h : BaseLink P a b) :
    BaseLink Q a b := by
  obtain ⟨m, hm, he⟩ := h
  exact ⟨m, hPQ m hm, he⟩

theorem InterfaceLink.mono
    {a b : String}
    (h : InterfaceLink P a b) :
    InterfaceLink Q a b := by
  obtain ⟨m, hm, he⟩ := h
  exact ⟨m, hPQ m hm, he⟩

theorem Leads.mono
    {assembly fqn : String}
    {place : SitePlace}
    (h : Leads P assembly place fqn) :
    Leads Q assembly place fqn := by
  obtain ⟨m, hm, hr, ht⟩ := h
  exact ⟨m, hPQ m hm, Depends.path_mono hPQ hr, ht⟩

end Mono

section Table

variable {types : List TypeDef} {P : Manifest → Prop} (hn : (types.map TypeDef.fqn).Nodup)
  (hP : ∀ t, t ∈ types ↔ ∃ m, P m ∧ t ∈ m.types)
include hn hP

/-- The base links in a table of types are those that the types declare. -/
theorem baseLink_of_table :
    Links.Edge (types.map fun t => (t.fqn, t.base)) = BaseLink P := by
  funext a b
  simp only [Links.Edge, Nodes.lookup_keyed_eq_some_iff hn, hP, BaseLink, eq_iff_iff]
  constructor
  · rintro ⟨t, ⟨m, hm, ht⟩, he, hb⟩
    exact ⟨m, hm, t, ht, he, hb⟩
  · rintro ⟨m, hm, t, ht, he, hb⟩
    exact ⟨t, ⟨m, hm, ht⟩, he, hb⟩

/-- The interface links in a table of types are those that the types declare. -/
theorem interfaceLink_of_table :
    Graph.Edge (types.map fun t => (t.fqn, t.interfaces)) = InterfaceLink P := by
  funext a b
  simp only [Graph.Edge, Nodes.lookup_keyed_eq_some_iff hn, hP, InterfaceLink, eq_iff_iff]
  constructor
  · rintro ⟨next, ⟨t, ⟨m, hm, ht⟩, he, rfl⟩, hb⟩
    exact ⟨m, hm, t, ht, he, hb⟩
  · rintro ⟨m, hm, t, ht, he, hb⟩
    exact ⟨_, ⟨t, ⟨m, hm, ht⟩, he, rfl⟩, hb⟩

end Table

/-- Properties that hold of the same assemblies are the same. -/
theorem property_ext
    {P Q : Manifest → Prop}
    (h : ∀ m, P m ↔ Q m) :
    P = Q :=
  funext fun m => propext (h m)

/-- What a load asks of new assemblies `N`, given the assemblies at hand `A`: what they depend on is at
hand, every mention leads to a type, and neither classes nor interfaces lead up to a cycle. -/
structure Sound (N A : Manifest → Prop) : Prop where
  closed : ∀ m, N m → ∀ name, Relation.ReflTransGen (Depends A) m.name name → Known A name
  resolved : ∀ m, N m → ∀ t ∈ m.types, ∀ place fqn,
    t.Mentions place fqn → Leads A m.name place fqn
  bases : ∀ m, N m → ∀ t ∈ m.types, t.kind = .classKind → ∀ fqn,
    Relation.ReflTransGen (BaseLink A) t.fqn fqn → ¬ Relation.TransGen (BaseLink A) fqn fqn
  interfaces : ∀ m, N m → ∀ t ∈ m.types, t.kind = .interfaceKind → ∀ fqn,
    Relation.ReflTransGen (InterfaceLink A) t.fqn fqn →
      ¬ Relation.TransGen (InterfaceLink A) fqn fqn

/-- What holds of some new assemblies and of others holds of all of them. -/
theorem Sound.union
    {N N' M A : Manifest → Prop}
    (h : Sound N A)
    (h' : Sound N' A)
    (hM : ∀ m, M m → N m ∨ N' m) :
    Sound M A where
  closed m hm := (hM m hm).elim (h.closed m) (h'.closed m)
  resolved m hm := (hM m hm).elim (h.resolved m) (h'.resolved m)
  bases m hm := (hM m hm).elim (h.bases m) (h'.bases m)
  interfaces m hm := (hM m hm).elim (h.interfaces m) (h'.interfaces m)

section Within

variable {α : Type} {r s : α → α → Prop} {inside : α → Prop}
  (hstep : ∀ a b, inside a → r a b → s a b ∧ inside b)
include hstep

/-- A path that cannot leave some nodes is a path among them. -/
theorem reflTransGen_within
    {a b : α}
    (ha : inside a)
    (h : Relation.ReflTransGen r a b) :
    Relation.ReflTransGen s a b ∧ inside b := by
  induction h with
  | refl => exact ⟨Relation.ReflTransGen.refl, ha⟩
  | tail _ hlast ih =>
      obtain ⟨hs, hb⟩ := hstep _ _ ih.2 hlast
      exact ⟨ih.1.tail hs, hb⟩

/-- So is one that takes at least one step. -/
theorem transGen_within
    {a b : α}
    (ha : inside a)
    (h : Relation.TransGen r a b) :
    Relation.TransGen s a b := by
  obtain ⟨c, hfirst, hrest⟩ := Relation.TransGen.head'_iff.1 h
  obtain ⟨hs, hc⟩ := hstep _ _ ha hfirst
  exact Relation.TransGen.head' hs (reflTransGen_within hstep hc hrest).1

end Within

/-- An assembly is named by each of the types it declares. -/
def Manifest.Owns (m : Manifest) : Prop :=
  ∀ t ∈ m.types, t.assembly = m.name

end TypeGraph
