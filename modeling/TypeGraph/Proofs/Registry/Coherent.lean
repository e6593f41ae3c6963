import TypeGraph.Proofs.Manifest.Relation
import TypeGraph.Proofs.Registry.Commit

/-!
# Coherent catalogs

What holds of every catalog that loads have filled.  Its types are those of its assemblies, each name
stands for one assembly and each full name for one type; every assembly comes after those it depends
on; and every mention of a type leads to a committed type.

**Results.**
* `Catalog.coherent_empty`: nothing is committed at first.
* `Catalog.Coherent.append`: a batch that is new, in dependency order and sound keeps a catalog
  coherent.
* `Catalog.Coherent.depends_known`: everything that a committed assembly leads to is committed.
-/

namespace TypeGraph

/-- In a list of assemblies every dependency is known before or stands earlier in the list. -/
def DependencyFirst (known : String → Prop) (l : List Manifest) : Prop :=
  ∀ before m after, l = before ++ m :: after →
    ∀ name ∈ m.dependencyNames, known name ∨ ∃ n ∈ before, n.name = name

theorem DependencyFirst.append
    {known : String → Prop}
    {l l' : List Manifest}
    (h : DependencyFirst known l)
    (h' : DependencyFirst (fun name => known name ∨ ∃ n ∈ l, n.name = name) l') :
    DependencyFirst known (l ++ l') := by
  intro before m after he name hname
  rcases List.append_eq_append_iff.1 he with ⟨middle, rfl, hm⟩ | ⟨middle, rfl, hm⟩
  · rcases h' middle m after hm name hname with (hk | ⟨n, hn, rfl⟩) | ⟨n, hn, rfl⟩
    · exact Or.inl hk
    · exact Or.inr ⟨n, List.mem_append_left _ hn, rfl⟩
    · exact Or.inr ⟨n, List.mem_append_right _ hn, rfl⟩
  · cases middle with
    | nil =>
        simp only [List.nil_append] at hm
        rcases h' [] m after hm.symm name hname with (hk | hn) | ⟨n, hn, -⟩
        · exact Or.inl hk
        · exact Or.inr (by simpa using hn)
        · simp at hn
    | cons first rest =>
        simp only [List.cons_append, List.cons.injEq] at hm
        obtain ⟨rfl, -⟩ := hm
        exact h before m rest rfl name hname

/-- Every dependency of a list in dependency order is known or in the list. -/
theorem DependencyFirst.known
    {known : String → Prop}
    {l : List Manifest}
    (h : DependencyFirst known l)
    {m : Manifest}
    (hm : m ∈ l)
    {name : String}
    (hname : name ∈ m.dependencyNames) :
    known name ∨ ∃ n ∈ l, n.name = name := by
  obtain ⟨before, after, rfl⟩ := List.append_of_mem hm
  refine (h before m after rfl name hname).imp_right ?_
  rintro ⟨n, hn, he⟩
  exact ⟨n, List.mem_append_left _ hn, he⟩

namespace Catalog

/-- An assembly is committed. -/
abbrev Has (c : Catalog) (m : Manifest) : Prop :=
  m ∈ c.assemblies

theorem known_has_iff
    {c : Catalog}
    {name : String} :
    Known c.Has name ↔ c.hasAssembly name = true := by
  rw [hasAssembly_iff]
  rfl

/-- Assemblies and types of a catalog are told apart by their names, and the types are those that the
assemblies declare. -/
structure Indexed (c : Catalog) : Prop where
  names_nodup : (c.assemblies.map Manifest.name).Nodup
  types_eq : c.types = c.assemblies.flatMap Manifest.types
  fqns_nodup : (c.types.map TypeDef.fqn).Nodup
  owns : ∀ m ∈ c.assemblies, m.Owns

/-- What loads keep true of a catalog. -/
structure Coherent (c : Catalog) : Prop extends Indexed c where
  ordered : DependencyFirst (fun _ => False) c.assemblies
  sound : Sound c.Has c.Has
  roots : ∀ name ∈ c.rootNames, c.hasAssembly name = true

section Indexed

variable {c : Catalog} {batch : List Manifest}

theorem Indexed.mem_types_iff
    (h : c.Indexed)
    {t : TypeDef} :
    t ∈ c.types ↔ ∃ m ∈ c.assemblies, t ∈ m.types := by
  rw [h.types_eq, List.mem_flatMap]

theorem Indexed.typeNamed_iff
    (h : c.Indexed)
    {fqn : String}
    {t : TypeDef} :
    c.typeNamed fqn = .ok t ↔ t ∈ c.types ∧ t.fqn = fqn := by
  rw [typeNamed_eq_ok_iff, type?_eq_some_iff h.fqns_nodup]

/-- A new batch of assemblies that own their types leaves a catalog indexed. -/
theorem Indexed.append
    (h : c.Indexed)
    (ha : c.Admits batch)
    (ho : ∀ m ∈ batch, m.Owns) :
    (c.append batch).Indexed where
  names_nodup := by
    rw [Catalog.append, List.map_append]
    refine List.nodup_append.2 ⟨h.names_nodup, ha.names_nodup, ?_⟩
    intro a hac b hb
    obtain ⟨n, hn, rfl⟩ := List.mem_map.1 hac
    obtain ⟨m, hm, rfl⟩ := List.mem_map.1 hb
    exact hasAssembly_eq_false_iff.1 (ha.names_new m hm) n hn
  types_eq := by
    rw [Catalog.append, List.flatMap_append, h.types_eq]
  fqns_nodup := by
    rw [Catalog.append, List.map_append]
    refine List.nodup_append.2 ⟨h.fqns_nodup, ha.fqns_nodup, ?_⟩
    intro a hac b hb
    obtain ⟨u, hu, rfl⟩ := List.mem_map.1 hac
    obtain ⟨t, ht, rfl⟩ := List.mem_map.1 hb
    exact ha.fqns_new t ht u hu
  owns := by
    intro m hm
    rcases List.mem_append.1 hm with hm | hm
    · exact h.owns m hm
    · exact ho m hm

end Indexed

/-- At first nothing is committed. -/
theorem coherent_empty :
    Catalog.empty.Coherent where
  names_nodup := by simp [empty]
  types_eq := rfl
  fqns_nodup := by simp [empty]
  owns := by simp [empty]
  ordered := by
    intro before m after he
    simp [empty] at he
  sound := by
    have hnone : ∀ m, ¬ Catalog.empty.Has m := fun m hm => List.not_mem_nil hm
    constructor <;> exact fun m hm => absurd hm (hnone m)
  roots := by simp [empty]

section Coherent

variable {c : Catalog} {batch : List Manifest}

theorem Has.append
    {m : Manifest}
    (h : c.Has m) :
    (c.append batch).Has m :=
  List.mem_append_left _ h

/-- The dependencies of committed assemblies are committed. -/
theorem Coherent.depends_known
    (h : c.Coherent)
    {a b : String}
    (hd : Depends c.Has a b) :
    Known c.Has b := by
  obtain ⟨m, hm, -, hb⟩ := hd
  rcases h.ordered.known hm hb with hf | hk
  · exact hf.elim
  · exact hk

/-- A mention in a committed type leads to a committed type. -/
theorem Coherent.exists_of_mentions
    (h : c.Coherent)
    {m : Manifest}
    (hm : c.Has m)
    {t : TypeDef}
    (ht : t ∈ m.types)
    {place : SitePlace}
    {fqn : String}
    (hf : t.Mentions place fqn) :
    ∃ u ∈ c.types, u.fqn = fqn := by
  obtain ⟨n, hn, -, u, hu, he, -⟩ := h.sound.resolved m hm t ht place fqn hf
  exact ⟨u, h.mem_types_iff.2 ⟨n, hn, hu⟩, he⟩

/-- New assemblies do not change what the committed ones depend on. -/
theorem Coherent.depends_append
    (h : c.Coherent)
    (ha : c.Admits batch)
    (a b : String)
    (hk : Known c.Has a)
    (hd : Depends (c.append batch).Has a b) :
    Depends c.Has a b ∧ Known c.Has b := by
  obtain ⟨m, hm, rfl, hb⟩ := hd
  rcases List.mem_append.1 hm with hm | hm
  · have hd : Depends c.Has m.name b := ⟨m, hm, rfl, hb⟩
    exact ⟨hd, h.depends_known hd⟩
  · rw [known_has_iff, ha.names_new m hm] at hk
    cases hk

/-- The declaration of a full name that was committed before is the old one. -/
theorem Admits.declared_before
    (ha : c.Admits batch)
    {m : Manifest}
    (hm : (c.append batch).Has m)
    {t : TypeDef}
    (ht : t ∈ m.types)
    (hk : ∃ u ∈ c.types, u.fqn = t.fqn) :
    c.Has m := by
  rcases List.mem_append.1 hm with hm | hm
  · exact hm
  · obtain ⟨u, hu, he⟩ := hk
    exact absurd he (ha.fqns_new t (List.mem_flatMap.2 ⟨m, hm, ht⟩) u hu)

theorem Coherent.baseLink_append
    (h : c.Coherent)
    (ha : c.Admits batch)
    (a b : String)
    (hk : ∃ u ∈ c.types, u.fqn = a)
    (hl : BaseLink (c.append batch).Has a b) :
    BaseLink c.Has a b ∧ ∃ u ∈ c.types, u.fqn = b := by
  obtain ⟨m, hm, t, ht, rfl, hb⟩ := hl
  have hold := ha.declared_before hm ht hk
  exact ⟨⟨m, hold, t, ht, rfl, hb⟩, h.exists_of_mentions hold ht (TypeDef.Mentions.base hb)⟩

theorem Coherent.interfaceLink_append
    (h : c.Coherent)
    (ha : c.Admits batch)
    (a b : String)
    (hk : ∃ u ∈ c.types, u.fqn = a)
    (hl : InterfaceLink (c.append batch).Has a b) :
    InterfaceLink c.Has a b ∧ ∃ u ∈ c.types, u.fqn = b := by
  obtain ⟨m, hm, t, ht, rfl, hb⟩ := hl
  have hold := ha.declared_before hm ht hk
  exact ⟨⟨m, hold, t, ht, rfl, hb⟩,
    h.exists_of_mentions hold ht (TypeDef.Mentions.interfaces hb)⟩

/-- The committed assemblies stay sound among more. -/
theorem Coherent.sound_append
    (h : c.Coherent)
    (ha : c.Admits batch) :
    Sound c.Has (c.append batch).Has where
  closed := by
    intro m hm name hr
    have hstep := reflTransGen_within (h.depends_append ha) ⟨m, hm, rfl⟩ hr
    exact hstep.2.mono fun _ => Has.append
  resolved := by
    intro m hm t ht place fqn hf
    exact (h.sound.resolved m hm t ht place fqn hf).mono fun _ => Has.append
  bases := by
    intro m hm t ht hkind fqn hr hcycle
    have hstart : ∃ u ∈ c.types, u.fqn = t.fqn := ⟨t, h.mem_types_iff.2 ⟨m, hm, ht⟩, rfl⟩
    obtain ⟨hr, hfqn⟩ := reflTransGen_within (h.baseLink_append ha) hstart hr
    refine h.sound.bases m hm t ht hkind fqn hr ?_
    exact transGen_within (h.baseLink_append ha) hfqn hcycle
  interfaces := by
    intro m hm t ht hkind fqn hr hcycle
    have hstart : ∃ u ∈ c.types, u.fqn = t.fqn := ⟨t, h.mem_types_iff.2 ⟨m, hm, ht⟩, rfl⟩
    obtain ⟨hr, hfqn⟩ := reflTransGen_within (h.interfaceLink_append ha) hstart hr
    refine h.sound.interfaces m hm t ht hkind fqn hr ?_
    exact transGen_within (h.interfaceLink_append ha) hfqn hcycle

/-- A batch that is new, in dependency order and sound keeps a catalog coherent. -/
theorem Coherent.append
    (h : c.Coherent)
    (ha : c.Admits batch)
    (ho : ∀ m ∈ batch, m.Owns)
    (hd : DependencyFirst (fun name => c.hasAssembly name = true) batch)
    (hs : Sound (· ∈ batch) (c.append batch).Has) :
    (c.append batch).Coherent where
  toIndexed := h.toIndexed.append ha ho
  ordered := by
    refine h.ordered.append ?_
    intro before m after he name hname
    rcases hd before m after he name hname with hk | hk
    · exact Or.inl (Or.inr (hasAssembly_iff.1 hk))
    · exact Or.inr hk
  sound := (h.sound_append ha).union hs fun m hm => List.mem_append.1 hm
  roots := by
    intro name hname
    exact hasAssembly_append.2 (Or.inl (h.roots name hname))

/-- Changing the names of the roots keeps a catalog coherent as long as they are committed. -/
theorem Coherent.withRoots
    (h : c.Coherent)
    {rootNames : List String}
    (hr : ∀ name ∈ rootNames, c.hasAssembly name = true) :
    Coherent { c with rootNames := rootNames } where
  names_nodup := h.names_nodup
  types_eq := h.types_eq
  fqns_nodup := h.fqns_nodup
  owns := h.owns
  ordered := h.ordered
  sound := h.sound
  roots := hr

end Coherent

end Catalog
/-- After a publication an assembly is committed that was before, or that is in the batch. -/
theorem Registry.Published.has_iff
    {κ : Type}
    {ν : κ → Type}
    {r after : Registry κ ν}
    {batch : List Manifest}
    {roots : List String}
    (h : r.Published after batch roots)
    {m : Manifest} :
    after.catalog.Has m ↔ r.catalog.Has m ∨ m ∈ batch := by
  rw [Catalog.Has, h.assemblies_eq, List.mem_append]

end TypeGraph
