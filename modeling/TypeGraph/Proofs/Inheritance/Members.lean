import Mathlib.Data.List.Infix
import TypeGraph.Proofs.Inheritance.Listings

/-!
# Inherited members

The members that a type inherits are collected from a sequence of owners, with one set of names for all of
them.  As no owner has two members of a name, what is kept of each owner is what it declares under names
that none of the owners before it declares; so each name is kept once, from the first owner that declares
it.

The owners of a class come from base to base, so none of them extends one that comes before it.  The
owners of an interface come in breadth-first order, and there one may extend another one that comes before
it; then links of different numbers lead to the other one.

**Results.**
* `collapse_eq_introduced`: what is kept, owner by owner.
* `collapse_eq_nil_iff`: nothing is kept where no owner declares anything.
* `mem_introduced_iff`, `names_introduced_nodup`, `mem_names_introduced_iff`: the first owner that
  declares a name has it, and each name is there once.
* `Catalog.Coherent.exists_lineage`: the owners of the members of a committed type.
* `Catalog.Lineage.mem_iff`: these are the types of its kind that the type inherits from.
* `Catalog.Lineage.pairwise_of_class`, `Catalog.Lineage.pairwise_of_interface`: when an owner extends one
  that comes before it.
-/

namespace TypeGraph

section Collapse

variable {α : Type} (name : α → String) (members : TypeDef → List α)

/-- An owner has a member of a name. -/
def Declares (owner : TypeDef) (n : String) : Prop :=
  n ∈ (members owner).map name

instance (owner : TypeDef) (n : String) :
    Decidable (Declares name members owner n) :=
  inferInstanceAs (Decidable (n ∈ (members owner).map name))

/-- What an owner has under names that none of some others declares, in the order of its
declarations. -/
def newMembers (others : List TypeDef) (owner : TypeDef) : List (TypeDef × α) :=
  ((members owner).filter fun m => ∀ other ∈ others, ¬ Declares name members other (name m)).map
    fun m => (owner, m)

/-- The owners in order, each with what it has under names that no earlier owner declares. -/
def introduced (owners : List TypeDef) : List (TypeDef × α) :=
  (owners.inits.zip owners).flatMap fun (earlier, owner) => newMembers name members earlier owner

variable {name members} {owner : TypeDef} {owners : List TypeDef} {n : String}

/-- Each owner goes with the owners before it. -/
theorem mem_zip_inits_iff
    {before : List TypeDef} :
    (before, owner) ∈ owners.inits.zip owners ↔ ∃ after, owners = before ++ owner :: after := by
  induction owners generalizing before with
  | nil => simp
  | cons first rest ih =>
      rw [List.inits, List.zip_cons_cons, List.mem_cons, List.zip_map_left]
      cases before with
      | nil => simp [Prod.map, eq_comm]
      | cons other before =>
          simp only [Prod.mk.injEq, reduceCtorEq, false_and, false_or, List.mem_map, Prod.exists,
            Prod.map_apply, List.cons.injEq, id_eq, List.cons_append]
          constructor
          · rintro ⟨b, o, hmem, ⟨rfl, rfl⟩, rfl⟩
            obtain ⟨after, rfl⟩ := ih.1 hmem
            exact ⟨after, rfl, rfl⟩
          · rintro ⟨after, rfl, rfl⟩
            exact ⟨before, owner, ih.2 ⟨after, rfl⟩, ⟨rfl, rfl⟩, rfl⟩

theorem mem_newMembers_iff
    {others : List TypeDef}
    {entry : TypeDef × α} :
    entry ∈ newMembers name members others owner ↔
      entry.1 = owner ∧ entry.2 ∈ members owner ∧
        ∀ other ∈ others, ¬ Declares name members other (name entry.2) := by
  obtain ⟨o, m⟩ := entry
  simp only [newMembers, List.mem_map, List.mem_filter, decide_eq_true_eq, Prod.mk.injEq]
  constructor
  · rintro ⟨m, ⟨hm, hnew⟩, rfl, rfl⟩
    exact ⟨rfl, hm, hnew⟩
  · rintro ⟨rfl, hm, hnew⟩
    exact ⟨m, ⟨hm, hnew⟩, rfl, rfl⟩

/-- A member is there with an owner when the owner declares it and no owner before it declares its
name. -/
theorem mem_introduced_iff
    {entry : TypeDef × α} :
    entry ∈ introduced name members owners ↔
      ∃ before after, owners = before ++ entry.1 :: after ∧ entry.2 ∈ members entry.1 ∧
        ∀ earlier ∈ before, ¬ Declares name members earlier (name entry.2) := by
  simp only [introduced, List.mem_flatMap, Prod.exists, mem_zip_inits_iff, mem_newMembers_iff]
  constructor
  · rintro ⟨before, _, ⟨after, howners⟩, rfl, hm, hnew⟩
    exact ⟨before, after, howners, hm, hnew⟩
  · rintro ⟨before, after, howners, hm, hnew⟩
    exact ⟨before, entry.1, ⟨after, howners⟩, rfl, hm, hnew⟩

/-- The first owner keeps all that it has. -/
theorem prefix_introduced
    (owner : TypeDef)
    (rest : List TypeDef) :
    ((members owner).map fun m => (owner, m)) <+: introduced name members (owner :: rest) := by
  rw [introduced, List.inits, List.zip_cons_cons, List.flatMap_cons]
  simp [newMembers]

theorem zip_inits_concat
    (owners : List TypeDef)
    (owner : TypeDef) :
    (owners ++ [owner]).inits.zip (owners ++ [owner]) =
      owners.inits.zip owners ++ [(owners, owner)] := by
  induction owners with
  | nil => rfl
  | cons first rest ih =>
      rw [List.cons_append, List.inits, List.inits, List.zip_cons_cons, List.zip_cons_cons,
        List.zip_map_left, List.zip_map_left, ih]
      simp

/-- One more owner adds what it has under new names. -/
theorem introduced_concat
    (owners : List TypeDef)
    (owner : TypeDef) :
    introduced name members (owners ++ [owner]) =
      introduced name members owners ++ newMembers name members owners owner := by
  rw [introduced, zip_inits_concat, List.flatMap_append, List.flatMap_singleton, introduced]

/-- Another owner that declares the name of a member comes after the owner that has it. -/
theorem rel_of_mem_introduced
    {R : TypeDef → TypeDef → Prop}
    {entry : TypeDef × α}
    (hp : owners.Pairwise R)
    (hentry : entry ∈ introduced name members owners)
    (howner : owner ∈ owners)
    (hne : owner ≠ entry.1)
    (hdeclares : Declares name members owner (name entry.2)) :
    R entry.1 owner := by
  obtain ⟨before, after, rfl, -, hnew⟩ := mem_introduced_iff.1 hentry
  have hafter : owner ∈ after := by
    rcases List.mem_append.1 howner with hbefore | hrest
    · exact absurd hdeclares (hnew owner hbefore)
    · exact (List.mem_cons.1 hrest).resolve_left hne
  exact (List.pairwise_cons.1 (List.pairwise_append.1 hp).2.1).1 owner hafter

/-- The names that are there are those that some owner declares. -/
theorem mem_names_introduced_iff :
    n ∈ (introduced name members owners).map (fun entry => name entry.2) ↔
      ∃ owner ∈ owners, Declares name members owner n := by
  induction owners using List.reverseRecOn with
  | nil => simp [introduced]
  | append_singleton owners owner ih =>
      rw [introduced_concat, List.map_append, List.mem_append, ih]
      simp only [List.mem_map, mem_newMembers_iff, List.mem_append, List.mem_singleton, or_and_right,
        exists_or, exists_eq_left]
      constructor
      · rintro (hold | ⟨entry, ⟨rfl, hm, -⟩, rfl⟩)
        · exact Or.inl hold
        · exact Or.inr (List.mem_map_of_mem hm)
      · rintro (hold | hnew)
        · exact Or.inl hold
        · by_cases hold : ∃ other ∈ owners, Declares name members other n
          · exact Or.inl hold
          · obtain ⟨m, hm, rfl⟩ := List.mem_map.1 hnew
            exact Or.inr ⟨(owner, m), ⟨rfl, hm, fun other ho hd => hold ⟨other, ho, hd⟩⟩, rfl⟩

/-- No name is there twice. -/
theorem names_introduced_nodup
    (h : ∀ owner ∈ owners, ((members owner).map name).Nodup) :
    ((introduced name members owners).map fun entry => name entry.2).Nodup := by
  induction owners using List.reverseRecOn with
  | nil => simp [introduced]
  | append_singleton owners owner ih =>
      rw [introduced_concat, List.map_append]
      refine List.nodup_append.2 ⟨ih fun o ho => h o (by simp [ho]), ?_, ?_⟩
      · rw [newMembers, List.map_map]
        exact (h owner (by simp)).sublist (List.filter_sublist.map name)
      · rintro a ha b hb rfl
        obtain ⟨other, hother, hdeclares⟩ := mem_names_introduced_iff.1 ha
        obtain ⟨entry, hentry, rfl⟩ := List.mem_map.1 hb
        exact (mem_newMembers_iff.1 hentry).2.2 other hother hdeclares

/-- What is kept depends on which names were seen. -/
theorem keepFirst_congr
    {seen seen' : List String}
    {l : List (TypeDef × α)}
    (h : ∀ n, n ∈ seen ↔ n ∈ seen') :
    keepFirst name seen l = keepFirst name seen' l := by
  induction l generalizing seen seen' with
  | nil => rfl
  | cons entry rest ih =>
      obtain ⟨o, m⟩ := entry
      have hnext : ∀ n, n ∈ name m :: seen ↔ n ∈ name m :: seen' := by
        intro n
        rw [List.mem_cons, List.mem_cons, h]
      rw [keepFirst, keepFirst, List.contains_eq_mem, List.contains_eq_mem, ih h, ih hnext]
      simp only [h]

/-- What comes later is kept as if all names that come before were seen. -/
theorem keepFirst_append
    {seen seen' : List String}
    {l l' : List (TypeDef × α)}
    (h : ∀ n, n ∈ seen' ↔ n ∈ seen ∨ n ∈ l.map fun entry => name entry.2) :
    keepFirst name seen (l ++ l') = keepFirst name seen l ++ keepFirst name seen' l' := by
  induction l generalizing seen with
  | nil => exact keepFirst_congr fun n => by simp [h]
  | cons entry rest ih =>
      obtain ⟨o, m⟩ := entry
      by_cases hm : name m ∈ seen
      · rw [List.cons_append, keepFirst, keepFirst, if_pos (by simpa using hm),
          if_pos (by simpa using hm)]
        refine ih fun n => (h n).trans ?_
        rw [List.map_cons, List.mem_cons, or_left_comm, or_iff_right_of_imp]
        rintro rfl
        exact Or.inl hm
      · rw [List.cons_append, keepFirst, keepFirst, if_neg (by simpa using hm),
          if_neg (by simpa using hm), List.cons_append]
        refine congrArg ((o, m) :: ·) (ih fun n => (h n).trans ?_)
        rw [List.map_cons, List.mem_cons, List.mem_cons, or_left_comm, or_assoc]

/-- Nothing is kept exactly when no owner declares anything. -/
theorem collapse_eq_nil_iff :
    collapse name members owners = [] ↔ ∀ owner ∈ owners, members owner = [] := by
  have hfirst : ∀ l : List (TypeDef × α), keepFirst name [] l = [] ↔ l = [] := by
    intro l
    cases l with
    | nil => exact Iff.rfl
    | cons entry rest => simp [keepFirst]
  rw [collapse, hfirst, List.flatMap_eq_nil_iff]
  simp only [List.map_eq_nil_iff]

/-- Of members with different names those are kept whose names were not seen. -/
theorem keepFirst_of_nodup
    {seen : List String}
    {l : List (TypeDef × α)}
    (h : (l.map fun entry => name entry.2).Nodup) :
    keepFirst name seen l = l.filter fun entry => name entry.2 ∉ seen := by
  induction l generalizing seen with
  | nil => rfl
  | cons entry rest ih =>
      obtain ⟨o, m⟩ := entry
      obtain ⟨hnew, hrest⟩ := List.nodup_cons.1 h
      by_cases hm : name m ∈ seen
      · rw [keepFirst, if_pos (by simpa using hm), List.filter_cons_of_neg (by simpa using hm),
          ih hrest]
      · rw [keepFirst, if_neg (by simpa using hm), List.filter_cons_of_pos (by simpa using hm),
          ih hrest]
        refine congrArg ((o, m) :: ·) (List.filter_congr fun entry hentry => ?_)
        have hne : name entry.2 ≠ name m := fun he =>
          hnew (List.mem_map.2 ⟨entry, hentry, he⟩)
        simp [hne]

/-- What is kept of some owners, none of which has two members of a name, is what each of them has under
new names. -/
theorem collapse_eq_introduced
    (h : ∀ owner ∈ owners, ((members owner).map name).Nodup) :
    collapse name members owners = introduced name members owners := by
  induction owners using List.reverseRecOn with
  | nil => rfl
  | append_singleton owners owner ih =>
      have hown : (((members owner).map fun m => (owner, m)).map fun entry => name entry.2).Nodup := by
        rw [List.map_map]
        exact h owner (by simp)
      have hseen : ∀ n, n ∈ owners.flatMap (fun o => (members o).map name) ↔
          n ∈ [] ∨ n ∈ (owners.flatMap fun o => (members o).map fun m => (o, m)).map
            fun entry => name entry.2 := by
        intro n
        simp only [List.map_flatMap, List.map_map, Function.comp_def, List.not_mem_nil, false_or]
      rw [introduced_concat, ← ih fun o ho => h o (by simp [ho]), collapse, List.flatMap_append,
        List.flatMap_singleton, keepFirst_append hseen, keepFirst_of_nodup hown]
      refine congrArg (collapse name members owners ++ ·) ?_
      rw [newMembers, List.filter_map]
      refine congrArg (List.map _) (List.filter_congr fun m _ => ?_)
      simp [Declares]

end Collapse

namespace Catalog

/-- The owners of the members that a type has with all that it inherits: a class and the bases above it,
the nearest first, or an interface and all that it extends, in breadth-first order. -/
inductive Lineage (c : Catalog) (t : TypeDef) : List TypeDef → Prop
  | ofClass {above : List TypeDef} :
      t.kind = .classKind →
      c.BaseChain t above →
      Lineage c t (t :: above)
  | ofInterface {owners : List TypeDef} :
      t.kind = .interfaceKind →
      (∀ owner ∈ owners, owner ∈ c.types) →
      Graph.BreadthFirst c.interfaceGraph.successors [t.fqn] (owners.map TypeDef.fqn) →
      Lineage c t owners

/-- From one interface to the next a number of links leads from a type to an interface. -/
def Leads (c : Catalog) (t : TypeDef) : Nat → String → Prop :=
  Graph.InSteps (· = t.fqn) (InterfaceLink c.Has)

/-- Links of different numbers lead from a type to an interface, and none leads to another one that is
shorter than the shortest of these. -/
def Detour (c : Catalog) (t derived target : TypeDef) : Prop :=
  ∃ near far, IsLeast {n | c.Leads t n target.fqn} near ∧ near < far ∧ c.Leads t far target.fqn ∧
    ∀ n, c.Leads t n derived.fqn → near ≤ n

section Lineage

variable {c : Catalog} {t : TypeDef} {owners : List TypeDef}

theorem Lineage.mem_types
    (h : c.Lineage t owners)
    (ht : t ∈ c.types) :
    ∀ owner ∈ owners, owner ∈ c.types := by
  cases h with
  | ofClass _ hchain => exact List.forall_mem_cons.2 ⟨ht, hchain.mem_types⟩
  | ofInterface _ hcommitted _ => exact hcommitted

/-- The owners of the members of a committed class or interface are its lineage. -/
theorem Coherent.exists_lineage
    (h : c.Coherent)
    (ht : t ∈ c.types)
    (hkind : t.kind ≠ .enumKind) :
    ∃ owners, c.memberOwners t true = .ok owners ∧ c.Lineage t owners := by
  unfold memberOwners
  cases hk : t.kind with
  | classKind =>
      obtain ⟨above, hnames, hchain⟩ := h.exists_baseChain ht
      refine ⟨t :: above, ?_, .ofClass hk hchain⟩
      exact bind_eq_ok_iff.2 ⟨_, hnames,
        bind_eq_ok_iff.2 ⟨above, h.typesNamed_map hchain.mem_types, rfl⟩⟩
  | interfaceKind =>
      obtain ⟨rest, hnames, horder, -, hknown⟩ := h.exists_ownClosure_cons ht hk
      obtain ⟨owners, howners, hcommitted⟩ := exists_types_of_knows hknown
      rw [howners] at hnames horder
      have hmem : ∀ owner ∈ owners, owner ∈ c.types := fun owner ho => (hcommitted owner ho).1
      refine ⟨owners, ?_, .ofInterface hk hmem horder⟩
      exact bind_eq_ok_iff.2 ⟨_, hnames, h.typesNamed_map hmem⟩
  | enumKind => exact absurd hk hkind

/-- The first owner is the type itself. -/
theorem Lineage.exists_cons
    (h : c.Lineage t owners)
    (hi : c.Indexed)
    (ht : t ∈ c.types) :
    ∃ rest, owners = t :: rest := by
  cases h with
  | @ofClass above _ _ => exact ⟨above, rfl⟩
  | ofInterface _ hcommitted horder =>
      obtain ⟨names, hnames⟩ := horder.prefix_of_nodup List.prefix_rfl (List.nodup_singleton t.fqn)
      obtain ⟨first, rest, rfl, he, -⟩ := List.map_eq_cons_iff.1 hnames.symm
      rw [List.inj_on_of_nodup_map hi.fqns_nodup (hcommitted first (by simp)) ht he]
      exact ⟨rest, rfl⟩

/-- The owners are the types of the same kind that the type inherits from, and the type. -/
theorem Lineage.mem_iff
    (h : c.Lineage t owners)
    (hc : c.Coherent)
    (ht : t ∈ c.types)
    {u : TypeDef}
    (hu : u ∈ c.types) :
    u ∈ owners ↔ u.kind = t.kind ∧ Relation.ReflTransGen (Inherits c.Has) t.fqn u.fqn := by
  cases h with
  | ofClass hclass hchain =>
      rw [List.mem_cons, hchain.mem_iff hc.toIndexed ht hu, hc.base_path_iff ht hu, hclass]
      constructor
      · rintro (rfl | ⟨hk, -, hpath⟩)
        · exact ⟨hclass, .refl⟩
        · exact ⟨hk, hpath⟩
      · rintro ⟨hk, hpath⟩
        exact or_iff_not_imp_left.2 fun hne => ⟨hk, hne, hpath⟩
  | ofInterface hinterface hcommitted horder =>
      rw [← hc.mem_map_fqn_iff hcommitted hu, horder.mem_iff_reached, hc.next_successors]
      simp only [List.mem_singleton, exists_eq_left]
      have hpaths : Relation.ReflTransGen (Inherits c.Has) t.fqn u.fqn ↔ _ :=
        hc.inherits_of_interface_iff ⟨t, ht, rfl, hinterface⟩
      constructor
      · intro hlinks
        have hpath := Relation.ReflTransGen.mono InterfaceLink.inherits _ _ hlinks
        exact ⟨(hc.kind_eq_of_knows (hpaths.1 hpath).2 hu rfl).trans hinterface.symm, hpath⟩
      · exact fun ⟨_, hpath⟩ => (hpaths.1 hpath).1

/-- None of the owners of a class inherits from one that comes before it. -/
theorem Lineage.pairwise_of_class
    (h : c.Lineage t owners)
    (hc : c.Coherent)
    (ht : t ∈ c.types)
    (hkind : t.kind = .classKind) :
    owners.Pairwise fun earlier later =>
      ¬ Relation.ReflTransGen (Inherits c.Has) later.fqn earlier.fqn := by
  cases h with
  | ofClass _ hchain =>
      refine (hchain.pairwise hc.toIndexed ht).imp fun {a b} hpath hback => ?_
      have hup := Relation.TransGen.mono BaseLink.inherits _ _ hpath
      exact hc.not_inherits_cycle a.fqn (hup.trans_left hback)
  | ofInterface hinterface _ _ =>
      rw [hinterface] at hkind
      cases hkind

/-- One of the owners of an interface inherits from one that comes before it only when there is a longer
way to the latter. -/
theorem Lineage.pairwise_of_interface
    (h : c.Lineage t owners)
    (hc : c.Coherent)
    (ht : t ∈ c.types)
    (hkind : t.kind = .interfaceKind) :
    owners.Pairwise fun earlier later =>
      Relation.ReflTransGen (Inherits c.Has) later.fqn earlier.fqn → c.Detour t later earlier := by
  have hkinds : ∀ u ∈ c.types, u ∈ owners → u.kind = t.kind :=
    fun u hu hmem => ((h.mem_iff hc ht hu).1 hmem).1
  cases h with
  | ofClass hclass _ =>
      rw [hclass] at hkind
      cases hkind
  | ofInterface _ hcommitted horder =>
      obtain ⟨distance, hleast, hsorted⟩ := horder.exists_distance
      have hstart : (· ∈ [t.fqn]) = (· = t.fqn) := by
        funext name
        simp
      rw [hstart, hc.next_successors] at hleast
      have hdistinct := horder.nodup
      rw [List.pairwise_map] at hsorted
      rw [List.Nodup, List.pairwise_map] at hdistinct
      refine (hsorted.and hdistinct).imp_of_mem ?_
      rintro earlier later hearlier hlater ⟨hle, hne⟩ hpath
      have hcommitted := hcommitted later hlater
      have hinterface := (hkinds later hcommitted hlater).trans hkind
      have hlinks := ((hc.inherits_of_interface_iff ⟨later, hcommitted, rfl, hinterface⟩).1 hpath).1
      have hsteps := (Relation.reflTransGen_iff_eq_or_transGen.1 hlinks).resolve_left hne
      have hl := hleast later.fqn (List.mem_map_of_mem hlater)
      obtain ⟨far, hfar, hleads⟩ := hl.1.exists_longer hsteps
      exact ⟨distance earlier.fqn, far, hleast earlier.fqn (List.mem_map_of_mem hearlier),
        Nat.lt_of_le_of_lt hle hfar, hleads, fun n hn => hle.trans (hl.2 hn)⟩

end Lineage

end Catalog
end TypeGraph
