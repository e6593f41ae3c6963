import TypeGraph.Inheritance.Recall
import TypeGraph.Proofs.Graph.Reach
import TypeGraph.Proofs.Registry.Commit

/-!
# Answers that last

What is found along the bases and the interfaces of a type is found again when more types are committed:
every step of a chain or a closure that succeeds looks up the same types as before.  So the questions
whose answers are kept for ever are answered alike in every later catalog, and questions about the
implementations of an interface are not among them.

**Results.**
* `Links.chain_extends`, `Graph.closure_extends`: a traversal that succeeds stays as it is in a larger
  graph.
* `Catalog.Keeps.ancestorsOf` and the others: an answer that does not look at all types stays as it is
  where its types are kept.
* `Question.answer_grows`: a lasting question is answered alike when more types are committed.
-/

namespace TypeGraph

/-- What is listed in some nodes is listed in others. -/
def Nodes.Extends {α : Type} (nodes more : Nodes α) : Prop :=
  ∀ node next, nodes.lookup node = some next → more.lookup node = some next

section Extends

variable {α : Type} {nodes more : Nodes α}

theorem Nodes.Extends.without
    (h : Nodes.Extends nodes more)
    (node : String) :
    Nodes.Extends (nodes.without node) (more.without node) := by
  intro other next hother
  by_cases he : other = node
  · subst he
    rw [Nodes.lookup_without_self] at hother
    cases hother
  · rw [Nodes.lookup_without_of_ne _ he] at hother ⊢
    exact h other next hother

/-- A chain that ends at the top passes the same nodes among more. -/
theorem Links.chainFrom_extends
    {unseen more : Links}
    {passed names : List String}
    {start : Option String}
    (h : Nodes.Extends unseen more)
    (hc : Links.chainFrom unseen passed start = (names, .top)) :
    Links.chainFrom more passed start = (names, .top) := by
  induction unseen, passed, start using Links.chainFrom.induct generalizing more with
  | case1 unseen passed =>
      rw [Links.chainFrom] at hc ⊢
      exact hc
  | case2 unseen passed node hseen =>
      rw [Links.chainFrom, if_pos hseen] at hc
      cases hc
  | case3 unseen passed node hseen hnone =>
      rw [Links.chainFrom_of_unlisted hseen hnone] at hc
      cases hc
  | case4 unseen passed node hseen next hsome ih =>
      rw [Links.chainFrom_of_listed hseen hsome] at hc
      rw [Links.chainFrom_of_listed hseen (h node next hsome)]
      exact ih (h.without node) hc

theorem Links.chain_extends
    {links more : Links}
    {names : List String}
    {start : Option String}
    (h : Nodes.Extends links more)
    (hc : links.chain start = (names, .top)) :
    more.chain start = (names, .top) :=
  Links.chainFrom_extends h hc

/-- A closure that succeeds reaches the same nodes among more. -/
theorem Graph.closureFrom_extends
    {unseen more : Graph}
    {order queue names : List String}
    (h : Nodes.Extends unseen more)
    (hc : Graph.closureFrom unseen order queue = .ok names) :
    Graph.closureFrom more order queue = .ok names := by
  induction unseen, order, queue using Graph.closureFrom.induct generalizing more with
  | case1 unseen order =>
      rw [Graph.closureFrom] at hc ⊢
      exact hc
  | case2 unseen order node queue hseen ih =>
      rw [Graph.closureFrom, if_pos hseen] at hc ⊢
      exact ih h hc
  | case3 unseen order node queue hseen hnone =>
      rw [Graph.closureFrom_of_unlisted hseen hnone] at hc
      cases hc
  | case4 unseen order node queue hseen next hsome ih =>
      rw [Graph.closureFrom_of_listed hseen hsome] at hc
      rw [Graph.closureFrom_of_listed hseen (h node next hsome)]
      exact ih (h.without node) hc

theorem Graph.closure_extends
    {graph more : Graph}
    {starts names : List String}
    (h : Nodes.Extends graph more)
    (hc : graph.closure starts = .ok names) :
    more.closure starts = .ok names :=
  Graph.closureFrom_extends h hc

end Extends

namespace Catalog

/-- What is found by a full name in one catalog is found by it in another one. -/
def Keeps (c later : Catalog) : Prop :=
  ∀ fqn t, c.type? fqn = some t → later.type? fqn = some t

/-- The types of one catalog are followed by others in a later one. -/
def Grows (c later : Catalog) : Prop :=
  ∃ more, later.types = c.types ++ more

theorem Grows.keeps
    {c later : Catalog}
    (h : c.Grows later) :
    c.Keeps later := by
  obtain ⟨more, he⟩ := h
  intro fqn t ht
  rw [type?] at ht
  rw [type?, he, List.find?_append, ht]
  rfl

section Keeps

variable {c later : Catalog} {t : TypeDef} {fqn : String} {names : List String}

variable (h : c.Keeps later)
include h

/-- What the types of one catalog are linked to they are linked to in the other one. -/
theorem Keeps.extends
    {α : Type}
    (link : TypeDef → α) :
    Nodes.Extends (c.types.map fun t => (t.fqn, link t))
      (later.types.map fun t => (t.fqn, link t)) := by
  intro node next hnode
  rw [Nodes.lookup_keyed, Option.map_eq_some_iff] at hnode ⊢
  obtain ⟨t, ht, he⟩ := hnode
  exact ⟨t, h node t ht, he⟩

theorem Keeps.typeNamed
    (ht : c.typeNamed fqn = .ok t) :
    later.typeNamed fqn = .ok t := by
  rw [typeNamed_eq_ok_iff] at ht ⊢
  exact h fqn t ht

theorem Keeps.typesNamed
    {types : List TypeDef}
    (ht : names.mapM c.typeNamed = .ok types) :
    names.mapM later.typeNamed = .ok types := by
  rw [mapM_eq_ok_iff] at ht ⊢
  exact ht.imp fun _ _ => h.typeNamed

theorem Keeps.ancestorsOf
    (ha : c.ancestorsOf t = .ok names) :
    later.ancestorsOf t = .ok names := by
  unfold Catalog.ancestorsOf at ha ⊢
  split at ha
  · rename_i hchain
    cases ha
    have hlater : later.baseLinks.chain t.base = (names, .top) :=
      Links.chain_extends (h.extends TypeDef.base) hchain
    rw [hlater]
  · cases ha
  · cases ha

theorem Keeps.interfaceClosure
    {starts : List String}
    (hi : c.interfaceClosure starts = .ok names) :
    later.interfaceClosure starts = .ok names := by
  unfold Catalog.interfaceClosure at hi ⊢
  split at hi
  · rename_i hclosure
    cases hi
    have hlater : later.interfaceGraph.closure starts = .ok names :=
      Graph.closure_extends (h.extends TypeDef.interfaces) hclosure
    rw [hlater]
  · cases hi

theorem Keeps.classInterfaces
    (hi : c.classInterfaces t = .ok names) :
    later.classInterfaces t = .ok names := by
  unfold Catalog.classInterfaces at hi ⊢
  obtain ⟨above, ha, hi⟩ := bind_eq_ok_iff.1 hi
  obtain ⟨ancestors, hnamed, hi⟩ := bind_eq_ok_iff.1 hi
  rw [bind_eq_ok_iff]
  exact ⟨above, h.ancestorsOf ha,
    bind_eq_ok_iff.2 ⟨ancestors, h.typesNamed hnamed, h.interfaceClosure hi⟩⟩

theorem Keeps.isDataType
    {answer : Bool}
    (hd : c.isDataType t = .ok answer) :
    later.isDataType t = .ok answer := by
  unfold Catalog.isDataType at hd ⊢
  split at hd
  · obtain ⟨closure, hc, hd⟩ := bind_eq_ok_iff.1 hd
    obtain ⟨types, hnamed, hd⟩ := bind_eq_ok_iff.1 hd
    rw [bind_eq_ok_iff]
    exact ⟨closure, h.interfaceClosure hc, bind_eq_ok_iff.2 ⟨types, h.typesNamed hnamed, hd⟩⟩
  · exact hd

theorem Keeps.extendsType
    {other : TypeDef}
    {answer : Bool}
    (he : c.extendsType t other = .ok answer) :
    later.extendsType t other = .ok answer := by
  unfold Catalog.extendsType at he ⊢
  split at he
  · split at he
    · rename_i hself
      rwa [if_pos hself]
    · rename_i hself
      rw [if_neg hself]
      obtain ⟨above, ha, he⟩ := bind_eq_ok_iff.1 he
      exact bind_eq_ok_iff.2 ⟨above, h.ancestorsOf ha, he⟩
  · split at he
    · rename_i hself
      rwa [if_pos hself]
    · rename_i hself
      rw [if_neg hself]
      obtain ⟨closure, hc, he⟩ := bind_eq_ok_iff.1 he
      exact bind_eq_ok_iff.2 ⟨closure, h.classInterfaces hc, he⟩
  · obtain ⟨closure, hc, he⟩ := bind_eq_ok_iff.1 he
    exact bind_eq_ok_iff.2 ⟨closure, h.interfaceClosure hc, he⟩
  · exact he
  · exact he

end Keeps

end Catalog

namespace Question

/-- How long the answer to a question is kept. -/
def lifetime : Question → Lifetime
  | .implementations _ => .current
  | _ => .lasting

/-- The answer to a question, computed from the catalog alone. -/
def answer (c : Catalog) : (q : Question) → Except Failure q.Answer
  | .ancestors fqn => do c.ancestorsOf (← c.typeNamed fqn)
  | .classInterfaces fqn => do c.classInterfaces (← c.typeNamed fqn)
  | .ownClosure fqn => do c.ownClosure (← c.typeNamed fqn)
  | .dataType fqn => do c.isDataType (← c.typeNamed fqn)
  | .implementations fqn => do c.implementations (← c.typeNamed fqn)

/-- A lasting question is answered alike when more types are committed. -/
theorem answer_grows
    {c later : Catalog}
    (h : c.Grows later)
    {q : Question}
    (hq : q.lifetime = .lasting)
    {a : q.Answer}
    (ha : q.answer c = .ok a) :
    q.answer later = .ok a := by
  have hk := h.keeps
  cases q with
  | ancestors fqn =>
      obtain ⟨t, ht, ha⟩ := bind_eq_ok_iff.1 ha
      exact bind_eq_ok_iff.2 ⟨t, hk.typeNamed ht, hk.ancestorsOf ha⟩
  | classInterfaces fqn =>
      obtain ⟨t, ht, ha⟩ := bind_eq_ok_iff.1 ha
      exact bind_eq_ok_iff.2 ⟨t, hk.typeNamed ht, hk.classInterfaces ha⟩
  | ownClosure fqn =>
      obtain ⟨t, ht, ha⟩ := bind_eq_ok_iff.1 ha
      exact bind_eq_ok_iff.2 ⟨t, hk.typeNamed ht, hk.interfaceClosure ha⟩
  | dataType fqn =>
      obtain ⟨t, ht, ha⟩ := bind_eq_ok_iff.1 ha
      exact bind_eq_ok_iff.2 ⟨t, hk.typeNamed ht, hk.isDataType ha⟩
  | implementations fqn => cases hq

/-- The names of the roots do not matter for any answer. -/
theorem answer_withRoots
    (c : Catalog)
    (rootNames : List String)
    (q : Question) :
    q.answer { c with rootNames := rootNames } = q.answer c := by
  cases q <;> rfl

end Question
end TypeGraph
