import TypeGraph.Proofs.Graph.Climb
import TypeGraph.Proofs.Inheritance.Lasting
import TypeGraph.Proofs.Manifest.View
import TypeGraph.Proofs.Registry.Coherent

/-!
# Queries that cannot fail

In a coherent catalog every name that a committed type mentions is the name of a committed type, bases
are classes, listed interfaces are interfaces, and no chain of bases comes back to a class.  So chains
of bases end at a class without a base, closures of interfaces meet interfaces alone, and every query
about a committed type has an answer, whose names are the names of committed types.

**Results.**
* `Links.chainFrom_within`: a chain among listed nodes never meets a name that is not listed.
* `Catalog.Coherent.exists_ancestors`, `Catalog.Coherent.exists_interfaceClosure`: the traversals
  succeed, and meet classes or interfaces alone.
* `Catalog.Coherent.exists_extendsType` and the others: the structural queries succeed.
-/

namespace TypeGraph

namespace Links

/-- A chain among nodes that are all listed, each with a link to another of them or with none, never
meets a name that is not listed. -/
theorem chainFrom_within
    {links unseen : Links}
    {passed : List String}
    {node : Option String}
    {inside : String → Prop}
    (hlisted : ∀ n, inside n → ∃ next, links.lookup n = some next ∧ ∀ m ∈ next, inside m)
    (hleft : links.Left passed unseen)
    (hpassed : ∀ n ∈ passed, inside n)
    (hnode : ∀ n ∈ node, inside n) :
    (∀ n ∈ (chainFrom unseen passed node).1, inside n) ∧
      ∀ name, (chainFrom unseen passed node).2 ≠ .unlisted name := by
  induction unseen, passed, node using chainFrom.induct with
  | case1 unseen passed =>
      rw [chainFrom]
      exact ⟨hpassed, by simp⟩
  | case2 unseen passed node hseen =>
      rw [chainFrom, if_pos hseen]
      exact ⟨hpassed, by simp⟩
  | case3 unseen passed node hseen hnone =>
      obtain ⟨next, hlook, -⟩ := hlisted node (hnode node rfl)
      rcases hleft.lookup_eq_none hnone with hmem | hlook'
      · exact absurd (by simpa using hmem) hseen
      · rw [hlook] at hlook'
        cases hlook'
  | case4 unseen passed node hseen next hsome ih =>
      obtain ⟨next', hlook, hnext⟩ := hlisted node (hnode node rfl)
      rw [(hleft.lookup_eq_some hsome).2] at hlook
      cases hlook
      rw [chainFrom_of_listed hseen hsome]
      refine ih (hleft.visit (by simp [or_comm])) ?_ hnext
      intro n hn
      rcases List.mem_append.1 hn with hn | hn
      · exact hpassed n hn
      · rw [List.mem_singleton.1 hn]
        exact hnode node rfl

end Links

section Collapse

variable {α : Type} {name : α → String} {members : TypeDef → List α}

theorem mem_of_mem_keepFirst
    {seen : List String}
    {l : List (TypeDef × α)}
    {owned : TypeDef × α}
    (h : owned ∈ keepFirst name seen l) :
    owned ∈ l := by
  induction seen, l using keepFirst.induct name with
  | case1 seen => simp [keepFirst] at h
  | case2 seen owner member rest hseen ih =>
      rw [keepFirst, if_pos hseen] at h
      exact List.mem_cons_of_mem _ (ih h)
  | case3 seen owner member rest hseen ih =>
      rw [keepFirst, if_neg hseen] at h
      rcases List.mem_cons.1 h with rfl | h
      · exact List.mem_cons_self
      · exact List.mem_cons_of_mem _ (ih h)

/-- A member that is found with an owner is declared by it. -/
theorem mem_of_mem_collapse
    {owners : List TypeDef}
    {owned : TypeDef × α}
    (h : owned ∈ collapse name members owners) :
    owned.1 ∈ owners ∧ owned.2 ∈ members owned.1 := by
  obtain ⟨owner, howner, hm⟩ := List.mem_flatMap.1 (mem_of_mem_keepFirst h)
  obtain ⟨member, hmember, rfl⟩ := List.mem_map.1 hm
  exact ⟨howner, hmember⟩

end Collapse

namespace Catalog

/-- A committed type that has some property has the full name. -/
def Knows (c : Catalog) (P : TypeDef → Prop) (fqn : String) : Prop :=
  ∃ t ∈ c.types, t.fqn = fqn ∧ P t

/-- Every one of the names is found, and leads to a committed type that has some property. -/
def Finds (c : Catalog) (P : TypeDef → Prop) (names : List String) : Prop :=
  ∃ types, names.mapM c.typeNamed = .ok types ∧ ∀ t ∈ types, t ∈ c.types ∧ P t

/-- The type is a class. -/
abbrev OfClass (t : TypeDef) : Prop :=
  t.kind = .classKind

/-- The type is an interface. -/
abbrev OfInterface (t : TypeDef) : Prop :=
  t.kind = .interfaceKind

section Coherent

variable {c : Catalog} {t : TypeDef} {P : TypeDef → Prop} {names starts : List String}

/-- The names of committed types are found. -/
theorem Indexed.finds
    (h : c.Indexed)
    (hn : ∀ name ∈ names, c.Knows P name) :
    c.Finds P names := by
  obtain ⟨types, hfound⟩ := exists_results fun name hname => by
    obtain ⟨u, hu, he, -⟩ := hn name hname
    exact ⟨u, h.typeNamed_iff.2 ⟨hu, he⟩⟩
  refine ⟨types, hfound, fun u hu => ?_⟩
  obtain ⟨name, hname, he⟩ := exists_of_mem_results hfound hu
  obtain ⟨hmem, hfqn⟩ := h.typeNamed_iff.1 he
  obtain ⟨v, hv, hvname, hP⟩ := hn name hname
  rw [List.inj_on_of_nodup_map h.fqns_nodup hmem hv (hfqn.trans hvname.symm)]
  exact ⟨hv, hP⟩

/-- What a committed type mentions is the name of a committed type that fits the place. -/
theorem Coherent.knows_of_mentions
    (h : c.Coherent)
    (ht : t ∈ c.types)
    {place : SitePlace}
    {fqn : String}
    (hf : t.Mentions place fqn) :
    c.Knows (fun u => Fits place u.kind) fqn := by
  obtain ⟨m, hm, htm⟩ := h.mem_types_iff.1 ht
  obtain ⟨n, hn, -, u, hu, he, hfits⟩ := h.sound.resolved m hm t htm place fqn hf
  exact ⟨u, h.mem_types_iff.2 ⟨n, hn, hu⟩, he, hfits⟩

/-- The base of a committed type is a class. -/
theorem Coherent.knows_base
    (h : c.Coherent)
    (ht : t ∈ c.types)
    {fqn : String}
    (hb : t.base = some fqn) :
    c.Knows OfClass fqn := by
  obtain ⟨u, hu, he, hfits, -⟩ := h.knows_of_mentions ht (.base hb)
  exact ⟨u, hu, he, hfits rfl⟩

/-- The interfaces that a committed type lists are interfaces. -/
theorem Coherent.knows_interface
    (h : c.Coherent)
    (ht : t ∈ c.types)
    {fqn : String}
    (hi : fqn ∈ t.interfaces) :
    c.Knows OfInterface fqn := by
  obtain ⟨u, hu, he, -, hfits⟩ := h.knows_of_mentions ht (.interfaces hi)
  exact ⟨u, hu, he, hfits rfl⟩

/-- The base links of an indexed catalog are those that its types declare. -/
theorem Indexed.baseLinks_edge
    (h : c.Indexed) :
    c.baseLinks.Edge = BaseLink c.Has :=
  baseLink_of_table h.fqns_nodup fun _ => h.mem_types_iff

theorem kind_of_base
    {fqn : String}
    (h : t.base = some fqn) :
    t.kind = .classKind := by
  unfold TypeDef.base at h
  unfold TypeDef.kind
  split at h
  · rename_i hbody
    rw [hbody]
  · cases h

/-- The chain of bases of a committed type ends at a class without a base, and meets classes alone. -/
theorem Coherent.exists_ancestors
    (h : c.Coherent)
    (ht : t ∈ c.types) :
    ∃ names, c.ancestorsOf t = .ok names ∧ ∀ name ∈ names, c.Knows OfClass name := by
  have hlisted : ∀ n, c.Knows OfClass n →
      ∃ next, c.baseLinks.lookup n = some next ∧ ∀ m ∈ next, c.Knows OfClass m := by
    rintro n ⟨u, hu, he, -⟩
    exact ⟨u.base, (Nodes.lookup_keyed_eq_some_iff h.fqns_nodup).2 ⟨u, hu, he, rfl⟩,
      fun m hm => h.knows_base hu hm⟩
  obtain ⟨hclasses, hnever⟩ := Links.chainFrom_within hlisted (Nodes.Left.start c.baseLinks)
    (by simp) fun n hn => h.knows_base ht hn
  unfold ancestorsOf
  rcases hchain : c.baseLinks.chain t.base with ⟨names, _ | name | name⟩
  · rw [Links.chain] at hchain
    rw [hchain] at hclasses
    exact ⟨names, rfl, hclasses⟩
  · rw [Links.chain] at hchain
    rw [hchain] at hnever
    exact absurd rfl (hnever name)
  · -- a chain that repeats a node would lead to a cycle of bases
    cases hb : t.base with
    | none =>
        rw [hb, Links.chain, Links.chainFrom] at hchain
        cases hchain
    | some first =>
        rw [hb] at hchain
        obtain ⟨node, hup, hcycle⟩ := (Links.chain_repeats_iff _ _).1 ⟨names, name, hchain⟩
        rw [h.toIndexed.baseLinks_edge] at hup hcycle
        obtain ⟨m, hm, htm⟩ := h.mem_types_iff.1 ht
        have hfirst : BaseLink c.Has t.fqn first := ⟨m, hm, t, htm, rfl, hb⟩
        exact absurd hcycle (h.sound.bases m hm t htm (kind_of_base hb) node (.head hfirst hup))

/-- What interfaces reach along the listed interfaces are interfaces. -/
theorem Coherent.knows_of_reaches
    (h : c.Coherent)
    {start node : String}
    (hs : c.Knows OfInterface start)
    (hr : c.interfaceGraph.Reaches start node) :
    c.Knows OfInterface node := by
  induction hr with
  | refl => exact hs
  | tail _ hedge _ =>
      obtain ⟨next, hlook, hmem⟩ := hedge
      obtain ⟨u, hu, -, rfl⟩ := (Nodes.lookup_keyed_eq_some_iff h.fqns_nodup).1 hlook
      exact h.knows_interface hu hmem

/-- The closure of some interfaces meets interfaces alone. -/
theorem Coherent.exists_interfaceClosure
    (h : c.Coherent)
    (hs : ∀ start ∈ starts, c.Knows OfInterface start) :
    ∃ names, c.interfaceClosure starts = .ok names ∧
      ∀ name ∈ names, c.Knows OfInterface name := by
  have hlisted : ∀ start ∈ starts, ∀ node, c.interfaceGraph.Reaches start node →
      c.interfaceGraph.Listed node := by
    intro start hstart node hr
    obtain ⟨u, hu, he, -⟩ := h.knows_of_reaches (hs start hstart) hr
    exact ⟨u.interfaces, (Nodes.lookup_keyed_eq_some_iff h.fqns_nodup).2 ⟨u, hu, he, rfl⟩⟩
  obtain ⟨names, hclosure⟩ := Graph.closure_eq_ok hlisted
  refine ⟨names, ?_, fun name hname => ?_⟩
  · rw [interfaceClosure, hclosure]
  · obtain ⟨start, hstart, hr⟩ := (Graph.mem_closure_iff hclosure name).1 hname
    exact h.knows_of_reaches (hs start hstart) hr

/-- The interfaces of a committed class are found. -/
theorem Coherent.exists_classInterfaces
    (h : c.Coherent)
    (ht : t ∈ c.types) :
    ∃ names, c.classInterfaces t = .ok names ∧ ∀ name ∈ names, c.Knows OfInterface name := by
  obtain ⟨above, habove, hclasses⟩ := h.exists_ancestors ht
  obtain ⟨ancestors, hfound, hmem⟩ := h.toIndexed.finds hclasses
  have hstarts : ∀ start ∈ (t :: ancestors).flatMap TypeDef.interfaces,
      c.Knows OfInterface start := by
    intro start hstart
    obtain ⟨u, hu, hi⟩ := List.mem_flatMap.1 hstart
    rcases List.mem_cons.1 hu with rfl | hu
    · exact h.knows_interface ht hi
    · exact h.knows_interface (hmem u hu).1 hi
  obtain ⟨names, hclosure, hnames⟩ := h.exists_interfaceClosure hstarts
  refine ⟨names, ?_, hnames⟩
  rw [classInterfaces, bind_eq_ok_iff]
  exact ⟨above, habove, bind_eq_ok_iff.2 ⟨ancestors, hfound, hclosure⟩⟩

/-- An interface and those it extends are found. -/
theorem Coherent.exists_ownClosure
    (h : c.Coherent)
    (ht : t ∈ c.types)
    (hkind : t.kind = .interfaceKind) :
    ∃ names, c.ownClosure t = .ok names ∧ ∀ name ∈ names, c.Knows OfInterface name := by
  refine h.exists_interfaceClosure fun start hstart => ?_
  rw [List.mem_singleton.1 hstart]
  exact ⟨t, ht, rfl, hkind⟩

/-- The interfaces of a committed type are found. -/
theorem Coherent.exists_interfacesOf
    (h : c.Coherent)
    (ht : t ∈ c.types)
    (inherited : Bool) :
    ∃ names, c.interfacesOf t inherited = .ok names ∧
      ∀ name ∈ names, c.Knows OfInterface name := by
  unfold interfacesOf
  split
  · exact h.exists_classInterfaces ht
  · rename_i hkind
    obtain ⟨names, hclosure, hnames⟩ := h.exists_ownClosure ht hkind
    exact ⟨names.drop 1, bind_eq_ok_iff.2 ⟨names, hclosure, rfl⟩,
      fun name hname => hnames name (List.mem_of_mem_drop hname)⟩
  · exact ⟨t.interfaces, rfl, fun name hname => h.knows_interface ht hname⟩

/-- Whether a committed type extends another type can be told. -/
theorem Coherent.exists_extendsType
    (h : c.Coherent)
    (ht : t ∈ c.types)
    (other : TypeDef) :
    ∃ answer, c.extendsType t other = .ok answer := by
  unfold extendsType
  split
  · split
    · exact ⟨true, rfl⟩
    · obtain ⟨names, hnames, -⟩ := h.exists_ancestors ht
      exact ⟨_, bind_eq_ok_iff.2 ⟨names, hnames, rfl⟩⟩
  · split
    · exact ⟨true, rfl⟩
    · obtain ⟨names, hnames, -⟩ := h.exists_classInterfaces ht
      exact ⟨_, bind_eq_ok_iff.2 ⟨names, hnames, rfl⟩⟩
  · rename_i hkind _
    obtain ⟨names, hnames, -⟩ := h.exists_ownClosure ht hkind
    exact ⟨_, bind_eq_ok_iff.2 ⟨names, hnames, rfl⟩⟩
  · exact ⟨false, rfl⟩
  · exact ⟨_, rfl⟩

/-- Whether a committed type is a data type can be told. -/
theorem Coherent.exists_isDataType
    (h : c.Coherent)
    (ht : t ∈ c.types) :
    ∃ answer, c.isDataType t = .ok answer := by
  unfold isDataType
  split
  · rename_i hkind
    obtain ⟨names, hclosure, hnames⟩ := h.exists_ownClosure ht hkind
    obtain ⟨types, hfound, -⟩ := h.toIndexed.finds hnames
    exact ⟨_, bind_eq_ok_iff.2 ⟨names, hclosure, bind_eq_ok_iff.2 ⟨types, hfound, rfl⟩⟩⟩
  · exact ⟨false, rfl⟩

/-- The implementations of a committed type are found: classes, and the type itself. -/
theorem Coherent.exists_implementations
    (h : c.Coherent)
    (ht : t ∈ c.types) :
    ∃ names, c.implementations t = .ok names ∧
      ∀ name ∈ names, c.Knows (fun u => u.kind = .classKind ∨ u = t) name := by
  unfold implementations
  split
  · obtain ⟨classes, hfilter, hmem⟩ := exists_filterM fun u hu =>
      h.exists_extendsType (List.mem_filter.1 hu).1 t
    refine ⟨_, bind_eq_ok_iff.2 ⟨classes, hfilter, rfl⟩, fun name hname => ?_⟩
    simp only [List.mem_append, List.mem_mergeSort, List.mem_map, List.mem_singleton] at hname
    rcases hname with ⟨u, hu, rfl⟩ | rfl
    · obtain ⟨hcommitted, hclass⟩ := List.mem_filter.1 (hmem u hu)
      exact ⟨u, hcommitted, rfl, Or.inl (by simpa [TypeDef.isClass] using hclass)⟩
    · exact ⟨t, ht, rfl, Or.inr rfl⟩
  · exact ⟨[], rfl, by simp⟩

/-- The owners of the members of a committed type are committed. -/
theorem Coherent.exists_memberOwners
    (h : c.Coherent)
    (ht : t ∈ c.types)
    (inherited : Bool) :
    ∃ owners, c.memberOwners t inherited = .ok owners ∧ ∀ owner ∈ owners, owner ∈ c.types := by
  unfold memberOwners
  split
  · obtain ⟨names, hnames, hclasses⟩ := h.exists_ancestors ht
    obtain ⟨types, hfound, hmem⟩ := h.toIndexed.finds hclasses
    refine ⟨t :: types, bind_eq_ok_iff.2 ⟨names, hnames, bind_eq_ok_iff.2 ⟨types, hfound, rfl⟩⟩, ?_⟩
    intro owner howner
    rcases List.mem_cons.1 howner with rfl | howner
    · exact ht
    · exact (hmem owner howner).1
  · rename_i hkind
    obtain ⟨names, hclosure, hnames⟩ := h.exists_ownClosure ht hkind
    obtain ⟨types, hfound, hmem⟩ := h.toIndexed.finds hnames
    exact ⟨types, bind_eq_ok_iff.2 ⟨names, hclosure, hfound⟩, fun owner ho => (hmem owner ho).1⟩
  · exact ⟨[t], rfl, fun owner ho => List.mem_singleton.1 ho ▸ ht⟩

/-- The methods of a committed type are found, each declared by a committed owner. -/
theorem Coherent.exists_methodsOf
    (h : c.Coherent)
    (ht : t ∈ c.types)
    (inherited : Bool) :
    ∃ members, c.methodsOf t inherited = .ok members ∧
      ∀ owned ∈ members, owned.1 ∈ c.types ∧ owned.2 ∈ owned.1.methods := by
  obtain ⟨owners, howners, hmem⟩ := h.exists_memberOwners ht inherited
  refine ⟨_, bind_eq_ok_iff.2 ⟨owners, howners, rfl⟩, fun owned hm => ?_⟩
  exact (mem_of_mem_collapse hm).imp_left (hmem owned.1)

/-- So are its properties. -/
theorem Coherent.exists_propertiesOf
    (h : c.Coherent)
    (ht : t ∈ c.types)
    (inherited : Bool) :
    ∃ members, c.propertiesOf t inherited = .ok members ∧
      ∀ owned ∈ members, owned.1 ∈ c.types ∧ owned.2 ∈ owned.1.properties := by
  obtain ⟨owners, howners, hmem⟩ := h.exists_memberOwners ht inherited
  refine ⟨_, bind_eq_ok_iff.2 ⟨owners, howners, rfl⟩, fun owned hm => ?_⟩
  exact (mem_of_mem_collapse hm).imp_left (hmem owned.1)

/-- Every part of a reference of a committed type leads to a committed type if it has a name, and to
none if it has no name. -/
theorem Coherent.exists_target
    (h : c.Coherent)
    (ht : t ∈ c.types)
    {u part : Usage}
    (hu : t.Uses u)
    (hpart : u.HasPart part) :
    ∃ target, part.target c = .ok target ∧ part.fqn? = target.map TypeDef.fqn ∧
      ∀ d ∈ target, d ∈ c.types := by
  unfold Usage.target
  cases hname : part.fqn? with
  | none => exact ⟨none, rfl, rfl, by simp⟩
  | some fqn =>
      obtain ⟨place, hmentions⟩ := hu.mentions (hpart.mentions (Usage.mentions_of_fqn? hname))
      obtain ⟨d, hd, rfl, -⟩ := h.knows_of_mentions ht hmentions
      refine ⟨some d, ?_, rfl, by simpa using hd⟩
      exact bind_eq_ok_iff.2 ⟨d, h.typeNamed_iff.2 ⟨hd, rfl⟩, rfl⟩

/-- The dependencies of a committed assembly are found. -/
theorem Coherent.exists_dependencies
    (h : c.Coherent)
    {m : Manifest}
    (hm : m ∈ c.assemblies) :
    ∃ found, c.dependencies m = .ok found ∧ ∀ n ∈ found, n ∈ c.assemblies := by
  have hnamed : ∀ name ∈ m.dependencyNames, ∃ n, c.assemblyNamed name = .ok n := by
    intro name hname
    obtain ⟨n, hn, he⟩ := h.depends_known ⟨m, hm, rfl, hname⟩
    exact ⟨n, (assemblyNamed_ok_iff h.names_nodup).2 ⟨hn, he⟩⟩
  obtain ⟨found, hfound⟩ := exists_results hnamed
  refine ⟨found, hfound, fun n hn => ?_⟩
  obtain ⟨name, -, he⟩ := exists_of_mem_results hfound hn
  exact ((assemblyNamed_ok_iff h.names_nodup).1 he).1

end Coherent

end Catalog
end TypeGraph
