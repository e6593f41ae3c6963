import TypeGraph.Proofs.Loading.Loadable
import TypeGraph.Proofs.Loading.Overlap
import TypeGraph.Proofs.Registry.Arena
import TypeGraph.Proofs.Registry.Ordered

/-!
# Requests in pieces

Where every identifier is answered with a manifest of that very name, loading a part of a request leaves
a catalog midway: it has all that was committed before, and nothing but what the whole request has at
hand.  What a part requires there the whole required at the beginning, so a part of a loadable request is
loadable midway.

The other way round, when all identifiers of the request are committed nothing is left to require.  Then
the catalog has exactly what the whole request has at hand, and as it is coherent the whole request was
loadable.

**Results.**
* `Midway.required`: what is required midway was required at the beginning.
* `Midway.loadable_part`: a part of a loadable request is loadable midway.
* `Midway.has_eq`, `Midway.loadable_whole`: where the parts lead when they cover the request.
-/

namespace TypeGraph

section Faithful

variable {answer : String → Except Failure Manifest} {c : Catalog} {identifiers : List String}
  {m n : Manifest} {name : String}

variable (hf : Faithful answer)
include hf

/-- A manifest with a name is the answer to that name and to no other identifier. -/
theorem Faithful.answerNamed_eq_some_iff
    {identifier : String} :
    answerNamed answer name identifier = some m ↔ identifier = name ∧ answer name = .ok m := by
  unfold answerNamed
  cases ha : answer identifier with
  | error failure =>
      simp only [reduceCtorEq, false_iff, not_and]
      rintro rfl
      simp [ha]
  | ok k =>
      have hk := hf identifier k ha
      by_cases he : identifier = name
      · subst he
        simp [hk, ha]
      · simp [hk, he]

/-- The root of a name has been asked for under this name. -/
theorem Faithful.of_rootNamed
    (h : rootNamed answer c identifiers name = some m) :
    name ∈ identifiers ∧ c.hasAssembly name = false ∧ answer name = .ok m := by
  obtain ⟨before, identifier, after, rfl, hroot, -⟩ := List.findSome?_eq_some_iff.1 h
  cases hc : c.hasAssembly identifier with
  | true => simp [hc] at hroot
  | false =>
      obtain ⟨rfl, ha⟩ := hf.answerNamed_eq_some_iff.1 (by simpa [hc] using hroot)
      exact ⟨by simp, hc, ha⟩

/-- What is required is the answer to its own name. -/
theorem Faithful.answer_of_required
    (h : Required answer c identifiers m) :
    answer m.name = .ok m := by
  cases h with
  | root hroot => exact (hf.of_rootNamed hroot.2).2.2
  | dependency _ _ _ _ ha => exact ha

/-- An answer that is new is required if its name is asked for. -/
theorem Faithful.required_of_root
    (hmem : m.name ∈ identifiers)
    (hc : c.hasAssembly m.name = false)
    (ha : answer m.name = .ok m) :
    Required answer c identifiers m := by
  refine .root ⟨hc, ?_⟩
  cases hroot : rootNamed answer c identifiers m.name with
  | none =>
      have hnone := List.findSome?_eq_none_iff.1 hroot m.name hmem
      rw [hc, if_neg (by simp), hf.answerNamed_eq_some_iff.2 ⟨rfl, ha⟩] at hnone
      cases hnone
  | some k =>
      have hk := (hf.of_rootNamed hroot).2.2
      rw [ha] at hk
      cases hk
      rfl

/-- It is required if something that is required depends on it, whether it is asked for or not. -/
theorem Faithful.required_of_dependency
    (hn : Required answer c identifiers n)
    (hdep : m.name ∈ n.dependencyNames)
    (hc : c.hasAssembly m.name = false)
    (ha : answer m.name = .ok m) :
    Required answer c identifiers m := by
  cases hroot : rootNamed answer c identifiers m.name with
  | none => exact .dependency hn hdep hc hroot ha
  | some k => exact hf.required_of_root (hf.of_rootNamed hroot).1 hc ha

/-- The new dependencies of what a loadable request requires are answered. -/
theorem Faithful.answer_of_dependency
    (h : Loadable answer c identifiers)
    (hn : Required answer c identifiers n)
    (hdep : name ∈ n.dependencyNames)
    (hc : c.hasAssembly name = false) :
    ∃ m, answer name = .ok m ∧ m.name = name := by
  cases hroot : rootNamed answer c identifiers name with
  | none => exact h.dependencies n hn name hdep hc hroot
  | some k => exact ⟨k, (hf.of_rootNamed hroot).2.2, name_of_rootNamed hroot⟩

/-- An identifier stands for itself. -/
theorem Faithful.eq_of_rootName
    {identifier : String}
    (h : RootName answer c identifier name) :
    name = identifier := by
  rcases h with ⟨-, rfl⟩ | ⟨-, m, ha, rfl⟩
  · rfl
  · exact hf identifier m ha

/-- The names of the roots are the identifiers. -/
theorem Faithful.eq_of_rootNames
    {names : List String}
    (h : List.Forall₂ (RootName answer c) identifiers names) :
    names = identifiers := by
  induction h with
  | nil => rfl
  | cons hfirst _ ih => rw [hf.eq_of_rootName hfirst, ih]

end Faithful

/-- A catalog between another one and all that a request has at hand there. -/
structure Midway (answer : String → Except Failure Manifest) (c : Catalog)
    (identifiers : List String) (middle : Catalog) : Prop where
  coherent : middle.Coherent
  keeps : ∀ m, c.Has m → middle.Has m
  within : ∀ m, middle.Has m → AtHand answer c identifiers m

section Midway

variable {answer : String → Except Failure Manifest} {c middle : Catalog}
  {identifiers part : List String} {m n : Manifest} {name : String}

/-- Nothing is loaded at the beginning. -/
theorem Midway.start
    (hc : c.Coherent)
    (identifiers : List String) :
    Midway answer c identifiers c :=
  ⟨hc, fun _ => id, fun _ => Or.inl⟩

theorem Midway.lacks
    (h : Midway answer c identifiers middle)
    (hm : middle.hasAssembly name = false) :
    c.hasAssembly name = false := by
  refine Catalog.hasAssembly_eq_false_iff.2 fun m hmem => ?_
  exact Catalog.hasAssembly_eq_false_iff.1 hm m (h.keeps m hmem)

/-- What is committed midway and was not committed before was required. -/
theorem Midway.required_of_has
    (h : Midway answer c identifiers middle)
    (hm : middle.Has m)
    (hnew : c.hasAssembly m.name = false) :
    Required answer c identifiers m := by
  refine (h.within m hm).resolve_left fun hold => ?_
  exact Catalog.hasAssembly_eq_false_iff.1 hnew m hold rfl

variable (hf : Faithful answer)
include hf

section Part

variable (h : Midway answer c identifiers middle) (hpart : ∀ name ∈ part, name ∈ identifiers)
include h hpart

/-- What a part of a request requires midway the whole request required at the beginning. -/
theorem Midway.required
    (hm : Required answer middle part m) :
    Required answer c identifiers m := by
  induction hm with
  | root hroot =>
      obtain ⟨hmem, hnew, ha⟩ := hf.of_rootNamed hroot.2
      exact hf.required_of_root (hpart _ hmem) (h.lacks hnew) ha
  | dependency _ hdep hnew _ ha ih => exact hf.required_of_dependency ih hdep (h.lacks hnew) ha

/-- What a part of a request has at hand midway the whole request had at hand at the beginning. -/
theorem Midway.atHand
    (hm : AtHand answer middle part m) :
    AtHand answer c identifiers m := by
  rcases hm with hm | hm
  · exact h.within m hm
  · exact Or.inr (h.required hf hpart hm)

/-- Publishing what a part requires leads to a catalog midway. -/
theorem Midway.next
    {later : Catalog}
    {batch : List Manifest}
    (hlater : later.Coherent)
    (he : later.assemblies = middle.assemblies ++ batch)
    (hbatch : ∀ m, m ∈ batch ↔ Required answer middle part m) :
    Midway answer c identifiers later := by
  refine ⟨hlater, fun m hm => ?_, fun m hm => ?_⟩
  · rw [Catalog.Has, he]
    exact List.mem_append_left _ (h.keeps m hm)
  · rw [Catalog.Has, he] at hm
    exact h.atHand hf hpart ((List.mem_append.1 hm).imp_right (hbatch m).1)

variable (hload : Loadable answer c identifiers)
include hload

/-- The new dependencies of what a part requires midway are answered. -/
theorem Midway.answer_of_dependency
    (hn : Required answer middle part n)
    (hdep : name ∈ n.dependencyNames)
    (hnew : middle.hasAssembly name = false) :
    ∃ m, answer name = .ok m ∧ m.name = name :=
  hf.answer_of_dependency hload (h.required hf hpart hn) hdep (h.lacks hnew)

variable (hc : c.Coherent)
include hc

/-- A path of dependencies that starts midway with what a part has at hand stays there: everything at
hand has one manifest, and its dependencies are at hand. -/
theorem Midway.path
    (hm : AtHand answer middle part m)
    (hr : Relation.ReflTransGen (Depends (AtHand answer c identifiers)) m.name name) :
    Relation.ReflTransGen (Depends (AtHand answer middle part)) m.name name ∧
      Known (AtHand answer middle part) name := by
  have hstep : ∀ a b, Known (AtHand answer middle part) a →
      Depends (AtHand answer c identifiers) a b →
      Depends (AtHand answer middle part) a b ∧ Known (AtHand answer middle part) b := by
    rintro a b ⟨k, hk, rfl⟩ ⟨n, hn, he, hb⟩
    obtain rfl := AtHand.unique hc hn (h.atHand hf hpart hk) he
    have hd : Depends (AtHand answer middle part) n.name b := ⟨n, hk, rfl, hb⟩
    refine ⟨hd, AtHand.depends_known h.coherent ?_ hd⟩
    intro n hn name hdep hnew _
    exact h.answer_of_dependency hf hpart hload hn hdep hnew
  exact reflTransGen_within hstep ⟨m, hm, rfl⟩ hr

/-- A part of a loadable request is loadable midway. -/
theorem Midway.loadable_part :
    Loadable answer middle part where
  roots name hname hnew := hload.roots name (hpart name hname) (h.lacks hnew)
  dependencies n hn name hdep hnew _ := h.answer_of_dependency hf hpart hload hn hdep hnew
  acyclic name hcycle :=
    hload.acyclic name (Relation.TransGen.mono
      (fun _ _ => Depends.mono fun _ => h.required hf hpart) _ _ hcycle)
  fqns_once m hm := hload.fqns_once m (h.required hf hpart hm)
  fqns_apart m n hm hn := hload.fqns_apart m n (h.required hf hpart hm) (h.required hf hpart hn)
  fqns_new m hm t ht u hu := by
    obtain ⟨n, hn, hun⟩ := h.coherent.mem_types_iff.1 hu
    have hm' := h.required hf hpart hm
    rcases h.within n hn with hold | hnew
    · exact hload.fqns_new m hm' t ht u (hc.mem_types_iff.2 ⟨n, hold, hun⟩)
    · have hne := Catalog.hasAssembly_eq_false_iff.1 hm.new n hn
      exact hload.fqns_apart n m hnew hm' hne u hun t ht
  resolved m hm t ht place fqn hmention := by
    obtain ⟨n, hn, hr, htarget⟩ :=
      hload.resolved m (h.required hf hpart hm) t ht place fqn hmention
    obtain ⟨hpath, k, hk, he⟩ := h.path hf hpart hload hc (Or.inr hm) hr
    obtain rfl := AtHand.unique hc hn (h.atHand hf hpart hk) he.symm
    exact ⟨n, hk, hpath, htarget⟩
  bases m hm t ht hkind fqn hr hcycle := by
    have hlink : ∀ a b, BaseLink (AtHand answer middle part) a b →
        BaseLink (AtHand answer c identifiers) a b :=
      fun _ _ => BaseLink.mono fun _ => h.atHand hf hpart
    exact hload.bases m (h.required hf hpart hm) t ht hkind fqn
      (Relation.ReflTransGen.mono hlink _ _ hr) (Relation.TransGen.mono hlink _ _ hcycle)
  interfaces m hm t ht hkind fqn hr hcycle := by
    have hlink : ∀ a b, InterfaceLink (AtHand answer middle part) a b →
        InterfaceLink (AtHand answer c identifiers) a b :=
      fun _ _ => InterfaceLink.mono fun _ => h.atHand hf hpart
    exact hload.interfaces m (h.required hf hpart hm) t ht hkind fqn
      (Relation.ReflTransGen.mono hlink _ _ hr) (Relation.TransGen.mono hlink _ _ hcycle)

end Part

section Whole

variable (h : Midway answer c identifiers middle)
  (hall : ∀ name ∈ identifiers, middle.hasAssembly name = true)
include h hall

/-- When the whole request is committed, so is all that it requires. -/
theorem Midway.has_required
    (hm : Required answer c identifiers m) :
    middle.Has m := by
  have hnamed : ∀ {m : Manifest}, Required answer c identifiers m →
      middle.hasAssembly m.name = true → middle.Has m := by
    intro m hm hhas
    obtain ⟨n, hn, he⟩ := Catalog.hasAssembly_iff.1 hhas
    have hn' := h.required_of_has hn (he ▸ hm.new)
    rwa [hm.unique hn' he.symm]
  induction hm with
  | root hroot =>
      exact hnamed (.root hroot) (hall _ (hf.of_rootNamed hroot.2).1)
  | dependency hn hdep hnew hroot ha ih =>
      have hknown := h.coherent.depends_known ⟨_, ih, rfl, hdep⟩
      exact hnamed (.dependency hn hdep hnew hroot ha) (Catalog.known_has_iff.1 hknown)

/-- When the whole request is committed, the catalog has what the request has at hand. -/
theorem Midway.has_eq :
    middle.Has = AtHand answer c identifiers := by
  refine property_ext fun m => ⟨h.within m, ?_⟩
  rintro (hm | hm)
  · exact h.keeps m hm
  · exact h.has_required hf hall hm

/-- When the whole request is committed it was loadable. -/
theorem Midway.loadable_whole
    (hc : c.Coherent) :
    Loadable answer c identifiers where
  roots name hname hnew := by
    obtain ⟨m, hm, rfl⟩ := Catalog.hasAssembly_iff.1 (hall name hname)
    exact ⟨m, hf.answer_of_required (h.required_of_has hm hnew)⟩
  dependencies n hn name hdep hnew _ := by
    obtain ⟨m, hm, rfl⟩ := h.coherent.depends_known ⟨n, h.has_required hf hall hn, rfl, hdep⟩
    exact ⟨m, hf.answer_of_required (h.required_of_has hm hnew), rfl⟩
  acyclic name hcycle :=
    h.coherent.not_depends_cycle name (Relation.TransGen.mono
      (fun _ _ => Depends.mono fun _ => h.has_required hf hall) _ _ hcycle)
  fqns_once m hm := h.coherent.fqns_nodup_of_mem (h.has_required hf hall hm)
  fqns_apart m n hm hn hne t ht u hu he := by
    have hnm := h.coherent.declared_once (h.has_required hf hall hm) ht
      (h.has_required hf hall hn) hu he.symm
    exact hne (congrArg Manifest.name hnm.symm)
  fqns_new m hm t ht u hu he := by
    obtain ⟨n, hn, hun⟩ := hc.mem_types_iff.1 hu
    obtain rfl := h.coherent.declared_once (h.has_required hf hall hm) ht (h.keeps n hn) hun he
    exact Catalog.hasAssembly_eq_false_iff.1 hm.new n hn rfl
  resolved m hm t ht place fqn hmention := by
    rw [← h.has_eq hf hall]
    exact h.coherent.sound.resolved m (h.has_required hf hall hm) t ht place fqn hmention
  bases m hm := by
    rw [← h.has_eq hf hall]
    exact h.coherent.sound.bases m (h.has_required hf hall hm)
  interfaces m hm := by
    rw [← h.has_eq hf hall]
    exact h.coherent.sound.interfaces m (h.has_required hf hall hm)

end Whole

end Midway

end TypeGraph
