import TypeGraph.Proofs.Lookup
import TypeGraph.Proofs.Result
import TypeGraph.Registry.Basic

/-!
# Commits

What a commit writes.  A batch whose assemblies and types are new is appended to the catalog as it is;
then the names of its roots are added, up to the first that is not committed.

**Results.**
* `Catalog.foldl_add`: a batch of new assemblies is appended.
* `Catalog.promoteAll_ok`: committed names become roots.
* `Catalog.commit_ok`, `Registry.commit_published`: a commit of a new batch with known roots succeeds.
-/

namespace TypeGraph
namespace Catalog

theorem hasAssembly_iff
    {c : Catalog}
    {name : String} :
    c.hasAssembly name = true ↔ ∃ m ∈ c.assemblies, m.name = name := by
  simp [hasAssembly]

theorem hasAssembly_eq_false_iff
    {c : Catalog}
    {name : String} :
    c.hasAssembly name = false ↔ ∀ m ∈ c.assemblies, m.name ≠ name := by
  simp [hasAssembly]

theorem type?_eq_none_iff
    {c : Catalog}
    {fqn : String} :
    c.type? fqn = none ↔ ∀ t ∈ c.types, t.fqn ≠ fqn := by
  simp [type?]

/-- The type of a full name that no two types share. -/
theorem type?_eq_some_iff
    {c : Catalog}
    (hn : (c.types.map TypeDef.fqn).Nodup)
    {fqn : String}
    {t : TypeDef} :
    c.type? fqn = some t ↔ t ∈ c.types ∧ t.fqn = fqn :=
  find?_key_eq_some_iff hn

/-- A full name is found when a type has it. -/
theorem typeNamed_eq_ok_iff
    {c : Catalog}
    {fqn : String}
    {t : TypeDef} :
    c.typeNamed fqn = .ok t ↔ c.type? fqn = some t := by
  simp only [typeNamed, findType, typeAt?, Json.string?, Option.bind_some]
  cases c.type? fqn <;> simp

/-- The catalog with a batch of assemblies appended. -/
def append (c : Catalog) (batch : List Manifest) : Catalog :=
  { c with
    assemblies := c.assemblies ++ batch
    types := c.types ++ batch.flatMap Manifest.types }

@[simp] theorem append_nil (c : Catalog) : c.append [] = c := by
  simp [append]

@[simp] theorem append_cons
    (c : Catalog)
    (m : Manifest)
    (batch : List Manifest) :
    (c.append [m]).append batch = c.append (m :: batch) := by
  simp [append]

/-- An assembly is committed after a batch if it was so before or is in the batch. -/
theorem hasAssembly_append
    {c : Catalog}
    {batch : List Manifest}
    {name : String} :
    (c.append batch).hasAssembly name = true ↔
      c.hasAssembly name = true ∨ ∃ m ∈ batch, m.name = name := by
  simp [hasAssembly, append]

/-- One catalog has the names of another one. -/
def Within (c later : Catalog) : Prop :=
  ∀ name, c.hasAssembly name = true → later.hasAssembly name = true

theorem within_append
    (c : Catalog)
    (batch : List Manifest) :
    c.Within (c.append batch) :=
  fun _ hname => hasAssembly_append.2 (Or.inl hname)

/-- The assemblies and types of a batch are new to a catalog and differ from each other. -/
structure Admits (c : Catalog) (batch : List Manifest) : Prop where
  names_nodup : (batch.map Manifest.name).Nodup
  names_new : ∀ m ∈ batch, c.hasAssembly m.name = false
  fqns_nodup : ((batch.flatMap Manifest.types).map TypeDef.fqn).Nodup
  fqns_new : ∀ t ∈ batch.flatMap Manifest.types, ∀ u ∈ c.types, u.fqn ≠ t.fqn

theorem putAssembly_of_new
    {m : Manifest}
    {known : List Manifest}
    (h : ∀ n ∈ known, n.name ≠ m.name) :
    putAssembly m known = known ++ [m] := by
  induction known with
  | nil => rfl
  | cons n rest ih =>
      have hn : (n.name == m.name) = false := by simpa using h n (by simp)
      simp only [putAssembly, hn, Bool.false_eq_true, if_false, List.cons_append]
      rw [ih fun k hk => h k (List.mem_cons_of_mem _ hk)]

theorem putType_of_new
    {t : TypeDef}
    {known : List TypeDef}
    (h : ∀ u ∈ known, u.fqn ≠ t.fqn) :
    putType t known = known ++ [t] := by
  induction known with
  | nil => rfl
  | cons u rest ih =>
      have hu : (u.fqn == t.fqn) = false := by simpa using h u (by simp)
      simp only [putType, hu, Bool.false_eq_true, if_false, List.cons_append]
      rw [ih fun k hk => h k (List.mem_cons_of_mem _ hk)]

theorem foldl_putType
    {types known : List TypeDef}
    (hn : (types.map TypeDef.fqn).Nodup)
    (h : ∀ t ∈ types, ∀ u ∈ known, u.fqn ≠ t.fqn) :
    types.foldl (fun known t => putType t known) known = known ++ types := by
  induction types generalizing known with
  | nil => simp
  | cons t rest ih =>
      rw [List.map_cons, List.nodup_cons] at hn
      rw [List.foldl_cons, putType_of_new (h t (by simp)), ih hn.2]
      · simp
      · intro u hu k hk
        rcases List.mem_append.1 hk with hk | hk
        · exact h u (List.mem_cons_of_mem _ hu) k hk
        · rw [List.mem_singleton.1 hk]
          exact fun he => hn.1 (List.mem_map.2 ⟨u, hu, he.symm⟩)

/-- A new assembly is appended with its types. -/
theorem add_of_admits
    {c : Catalog}
    {m : Manifest}
    (h : c.Admits [m]) :
    c.add m = c.append [m] := by
  have hname := hasAssembly_eq_false_iff.1 (h.names_new m (by simp))
  have hfqns := h.fqns_nodup
  have hnew := h.fqns_new
  simp only [List.flatMap_cons, List.flatMap_nil, List.append_nil] at hfqns hnew
  rw [add, putAssembly_of_new hname, foldl_putType hfqns hnew]
  simp [append]

/-- The first assembly of an admitted batch is admitted, and the others are after it. -/
theorem Admits.head_tail
    {c : Catalog}
    {m : Manifest}
    {batch : List Manifest}
    (h : c.Admits (m :: batch)) :
    c.Admits [m] ∧ (c.append [m]).Admits batch := by
  obtain ⟨hnames, hnew, hfqns, hfresh⟩ := h
  simp only [List.map_cons, List.nodup_cons, List.flatMap_cons, List.map_append] at hnames hfqns
  have hfqns' := List.nodup_append.1 hfqns
  refine ⟨⟨by simp, fun n hn => hnew n (by simpa using Or.inl hn), by simpa using hfqns'.1,
    fun t ht => hfresh t ?_⟩, ⟨hnames.2, ?_, hfqns'.2.1, ?_⟩⟩
  · simp only [List.flatMap_cons, List.flatMap_nil, List.append_nil] at ht
    exact List.mem_flatMap.2 ⟨m, by simp, ht⟩
  · intro n hn
    rw [Bool.eq_false_iff, Ne, hasAssembly_append, not_or]
    refine ⟨by simp [hnew n (List.mem_cons_of_mem _ hn)], ?_⟩
    rintro ⟨k, hk, he⟩
    rw [List.mem_singleton.1 hk] at he
    exact hnames.1 (List.mem_map.2 ⟨n, hn, he.symm⟩)
  · intro t ht u hu
    simp only [append, List.flatMap_cons, List.flatMap_nil, List.append_nil, List.mem_append] at hu
    rcases hu with hu | hu
    · exact hfresh t (by rw [List.flatMap_cons]; exact List.mem_append_right _ ht) u hu
    · exact hfqns'.2.2 u.fqn (List.mem_map_of_mem hu) t.fqn (List.mem_map_of_mem ht)

/-- A batch of new assemblies is appended in order. -/
theorem foldl_add
    {c : Catalog}
    {batch : List Manifest}
    (h : c.Admits batch) :
    batch.foldl add c = c.append batch := by
  induction batch generalizing c with
  | nil => simp
  | cons m rest ih =>
      obtain ⟨hm, hrest⟩ := h.head_tail
      rw [List.foldl_cons, add_of_admits hm, ih hrest, append_cons]

/-- Making an assembly a root changes the names of the roots alone. -/
theorem promote_ok
    {c after : Catalog}
    {name : String}
    (h : c.promote name = .ok after) :
    c.hasAssembly name = true ∧ ∃ rootNames, after = { c with rootNames := rootNames } ∧
      ∀ n, n ∈ rootNames ↔ n ∈ c.rootNames ∨ n = name := by
  unfold promote at h
  split at h
  · simp at h
  · rename_i hhas
    refine ⟨by simpa using hhas, ?_⟩
    split at h
    · rename_i hroot
      cases h
      refine ⟨c.rootNames, rfl, fun n => ⟨Or.inl, ?_⟩⟩
      rintro (hn | rfl)
      · exact hn
      · simpa [isRoot] using hroot
    · cases h
      exact ⟨c.rootNames ++ [name], rfl, fun n => by simp⟩

/-- Committed names all become roots. -/
theorem promoteAll_ok
    {c : Catalog}
    {names : List String}
    (h : ∀ n ∈ names, c.hasAssembly n = true) :
    ∃ rootNames, c.promoteAll names = ({ c with rootNames := rootNames }, .ok ()) ∧
      ∀ n, n ∈ rootNames ↔ n ∈ c.rootNames ∨ n ∈ names := by
  induction names generalizing c with
  | nil => exact ⟨c.rootNames, rfl, fun n => by simp⟩
  | cons name rest ih =>
      have hhas := h name (by simp)
      obtain ⟨promoted, hp⟩ : ∃ promoted, c.promote name = .ok promoted := by
        unfold promote
        split
        · simp_all
        · split
          · exact ⟨_, rfl⟩
          · exact ⟨_, rfl⟩
      obtain ⟨-, known, rfl, hknown⟩ := promote_ok hp
      obtain ⟨rootNames, he, hmem⟩ :=
        ih (c := { c with rootNames := known }) fun n hn => h n (List.mem_cons_of_mem _ hn)
      refine ⟨rootNames, ?_, ?_⟩
      · simp [promoteAll, hp, he]
      · intro n
        rw [hmem n, List.mem_cons]
        constructor
        · rintro (hn | hn)
          · exact ((hknown n).1 hn).imp_right Or.inl
          · exact Or.inr (Or.inr hn)
        · rintro (hn | hn | hn)
          · exact Or.inl ((hknown n).2 (Or.inl hn))
          · exact Or.inl ((hknown n).2 (Or.inr hn))
          · exact Or.inr hn

/-- A commit of a new batch succeeds when its roots are committed or in the batch. -/
theorem commit_ok
    {c : Catalog}
    {batch : List Manifest}
    {roots : List String}
    (h : c.Admits batch)
    (hr : ∀ n ∈ roots, (c.append batch).hasAssembly n = true) :
    ∃ rootNames,
      c.commit batch roots = ({ c.append batch with rootNames := rootNames }, .ok ()) ∧
      ∀ n, n ∈ rootNames ↔ n ∈ c.rootNames ∨ n ∈ roots := by
  rw [commit, foldl_add h]
  exact promoteAll_ok hr

/-- The assembly of a name that no two assemblies share. -/
theorem assemblyNamed_ok_iff
    {c : Catalog}
    (hn : (c.assemblies.map Manifest.name).Nodup)
    {name : String}
    {m : Manifest} :
    c.assemblyNamed name = .ok m ↔ m ∈ c.assemblies ∧ m.name = name := by
  have hfind : c.assembly? name = some m ↔ m ∈ c.assemblies ∧ m.name = name :=
    find?_key_eq_some_iff hn
  rw [← hfind]
  simp only [assemblyNamed, findAssembly, assemblyAt?, Json.string?, Option.bind_some]
  split
  · rename_i n hsome
    simp [hsome]
  · rename_i hnone
    simp [hnone]

/-- Assemblies that are looked up by name are committed and have these names, in order. -/
theorem assembliesNamed_ok
    {c : Catalog}
    (hn : (c.assemblies.map Manifest.name).Nodup)
    {names : List String}
    {found : List Manifest}
    (h : names.mapM c.assemblyNamed = .ok found) :
    found.map Manifest.name = names ∧ ∀ m ∈ found, m ∈ c.assemblies := by
  rw [mapM_eq_ok_iff] at h
  induction h with
  | nil => simp
  | @cons name m rest rest' hfirst _ ih =>
      obtain ⟨hm, he⟩ := (assemblyNamed_ok_iff hn).1 hfirst
      rw [List.map_cons, he, ih.1, List.forall_mem_cons]
      exact ⟨rfl, hm, ih.2⟩

end Catalog

namespace Registry

variable {κ : Type} {ν : κ → Type}

/-- A registry after a batch and some roots have been published: the batch is appended, the roots are
added, the generation is one more, and only the lasting answers are still remembered. -/
def Published (r after : Registry κ ν) (batch : List Manifest) (roots : List String) : Prop :=
  ∃ rootNames,
    after = ⟨{ r.catalog.append batch with rootNames := rootNames }, r.generation + 1,
      r.memo.nextGeneration⟩ ∧
    ∀ n, n ∈ rootNames ↔ n ∈ r.catalog.rootNames ∨ n ∈ roots

/-- The assemblies after a publication: those before and the batch. -/
theorem Published.assemblies_eq
    {r after : Registry κ ν}
    {batch : List Manifest}
    {roots : List String}
    (h : r.Published after batch roots) :
    after.catalog.assemblies = r.catalog.assemblies ++ batch := by
  obtain ⟨rootNames, rfl, -⟩ := h
  rfl

/-- What was committed before a publication is committed after it. -/
theorem Published.within
    {r after : Registry κ ν}
    {batch : List Manifest}
    {roots : List String}
    (h : r.Published after batch roots) :
    r.catalog.Within after.catalog := by
  obtain ⟨rootNames, rfl, -⟩ := h
  exact Catalog.within_append r.catalog batch

/-- A commit of a new batch publishes it when its roots are committed or in the batch. -/
theorem commit_published
    {r : Registry κ ν}
    {batch : List Manifest}
    {roots : List String}
    (h : r.catalog.Admits batch)
    (hr : ∀ n ∈ roots, (r.catalog.append batch).hasAssembly n = true) :
    ∃ after, r.commit batch roots = (after, .ok ()) ∧ r.Published after batch roots := by
  obtain ⟨rootNames, he, hmem⟩ := Catalog.commit_ok h hr
  exact ⟨_, commit_ok he, rootNames, rfl, hmem⟩

end Registry
end TypeGraph
