import Mathlib.Order.Nat
import TypeGraph.Proofs.Distinct
import TypeGraph.Proofs.Graph.Reach

/-!
# Breadth-first order

A closure goes through its starts and then through the successors of each node that it lists, one node
after the other, and lists what it meets for the first time.  So the list is the sequence of all that is
met without its repetitions.  From this alone it follows that the list begins with the starts, and that
no node is listed before one that fewer links lead to: the starts and the successors of the nodes that at
most `n` links lead to are those that at most `n + 1` links lead to, and they come first.

**Results.**
* `Graph.closure_breadthFirst`: a closure is in breadth-first order.
* `Graph.BreadthFirst.prefix_of_nodup`: the starts come first.
* `Graph.BreadthFirst.exists_distance`: the nodes come in the order of their distances.
* `Graph.BreadthFirst.after_start`: what follows the only start is in breadth-first order from its
  successors.
-/

namespace TypeGraph
namespace Graph

/-- The successors of a node; one that is not listed has none. -/
def successors (graph : Graph) (node : String) : List String :=
  (graph.lookup node).getD []

/-- One node is among those that another one leads on to. -/
def Next (next : String → List String) (a b : String) : Prop :=
  b ∈ next a

theorem next_successors
    (graph : Graph) :
    Next graph.successors = graph.Edge := by
  funext a b
  unfold Next successors Edge
  cases graph.lookup a <;> simp

/-- Nodes in breadth-first order from some starts: the starts and then what each of the nodes leads on
to, one node after the other, each where it is met first. -/
structure BreadthFirst (next : String → List String) (starts order : List String) : Prop where
  eq : order = (starts ++ order.flatMap next).eraseDups
  reached : ∀ node ∈ order, ∃ start ∈ starts, Relation.ReflTransGen (Next next) start node

/-- A node is reached from one of some starts along a number of links. -/
inductive InSteps (starts : String → Prop) (edge : String → String → Prop) : Nat → String → Prop
  | start {node : String} :
      starts node →
      InSteps starts edge 0 node
  | link {n : Nat} {a b : String} :
      InSteps starts edge n a →
      edge a b →
      InSteps starts edge (n + 1) b

section InSteps

variable {starts : String → Prop} {edge : String → String → Prop} {n : Nat} {a b : String}

theorem InSteps.exists_reaches
    (h : InSteps starts edge n b) :
    ∃ start, starts start ∧ Relation.ReflTransGen edge start b := by
  induction h with
  | start hs => exact ⟨_, hs, .refl⟩
  | link _ hedge ih =>
      obtain ⟨start, hs, hr⟩ := ih
      exact ⟨start, hs, hr.tail hedge⟩

/-- A path that is not empty leads on by at least one more link. -/
theorem InSteps.exists_longer
    (h : InSteps starts edge n a)
    (hr : Relation.TransGen edge a b) :
    ∃ m, n < m ∧ InSteps starts edge m b := by
  induction hr with
  | single hedge => exact ⟨n + 1, Nat.lt_succ_self n, h.link hedge⟩
  | tail _ hedge ih =>
      obtain ⟨m, hm, hsteps⟩ := ih
      exact ⟨m + 1, Nat.lt_succ_of_lt hm, hsteps.link hedge⟩

theorem exists_inSteps
    (hs : starts a)
    (hr : Relation.ReflTransGen edge a b) :
    ∃ n, InSteps starts edge n b := by
  rcases Relation.reflTransGen_iff_eq_or_transGen.1 hr with rfl | hr
  · exact ⟨0, .start hs⟩
  · obtain ⟨m, -, hsteps⟩ := (InSteps.start hs).exists_longer hr
    exact ⟨m, hsteps⟩

theorem exists_inSteps_le_zero_iff :
    (∃ m ≤ 0, InSteps starts edge m b) ↔ starts b := by
  constructor
  · rintro ⟨m, hm, hsteps⟩
    cases hsteps with
    | start hs => exact hs
    | link => omega
  · exact fun hs => ⟨0, Nat.le_refl 0, .start hs⟩

/-- One link more leads to the starts again, and to what is linked to. -/
theorem exists_inSteps_le_succ_iff :
    (∃ m ≤ n + 1, InSteps starts edge m b) ↔
      starts b ∨ ∃ a, (∃ m ≤ n, InSteps starts edge m a) ∧ edge a b := by
  constructor
  · rintro ⟨m, hm, hsteps⟩
    cases hsteps with
    | start hs => exact Or.inl hs
    | link hsteps hedge => exact Or.inr ⟨_, ⟨_, by omega, hsteps⟩, hedge⟩
  · rintro (hs | ⟨a, ⟨m, hm, hsteps⟩, hedge⟩)
    · exact ⟨0, by omega, .start hs⟩
    · exact ⟨m + 1, by omega, hsteps.link hedge⟩

end InSteps

section Closure

variable {graph unseen : Graph} {starts met order queue l : List String}

/-- `met` is what has been gone through of the starts and the successors of the nodes in `order`, and
`queue` is the rest of these. -/
theorem closureFrom_eq_eraseDups
    (hl : graph.Left order unseen)
    (hmet : met.eraseDups = order)
    (hall : met ++ queue = starts ++ order.flatMap graph.successors)
    (h : closureFrom unseen order queue = .ok l) :
    l = (starts ++ l.flatMap graph.successors).eraseDups := by
  induction unseen, order, queue using closureFrom.induct generalizing met with
  | case1 unseen order =>
      rw [closureFrom] at h
      cases h
      rw [← hall, List.append_nil, hmet]
  | case2 unseen order node queue hseen ih =>
      have hmem : node ∈ met := by
        rw [← List.mem_eraseDups, hmet]
        simpa using hseen
      rw [closureFrom, if_pos hseen] at h
      refine @ih (met ++ [node]) hl ?_ ?_ h
      · rw [eraseDups_concat, if_pos hmem, hmet]
      · rw [List.append_assoc, List.singleton_append, hall]
  | case3 unseen order node queue hseen hnone =>
      rw [closureFrom_of_unlisted hseen hnone] at h
      cases h
  | case4 unseen order node queue hseen next hsome ih =>
      have hnew : node ∉ met := by
        rw [← List.mem_eraseDups, hmet]
        simpa using hseen
      have hnext : graph.successors node = next := by
        rw [successors, (hl.lookup_eq_some hsome).2]
        rfl
      rw [closureFrom_of_listed hseen hsome] at h
      refine @ih (met ++ [node]) (hl.visit (by simp [or_comm])) ?_ ?_ h
      · rw [eraseDups_concat, if_neg hnew, hmet]
      · rw [List.flatMap_append, List.flatMap_singleton, hnext, ← List.append_assoc starts, ← hall]
        simp

/-- A closure is in breadth-first order. -/
theorem closure_breadthFirst
    (h : graph.closure starts = .ok l) :
    BreadthFirst graph.successors starts l where
  eq := closureFrom_eq_eraseDups (Nodes.Left.start graph) (List.eraseDups_nil) (by simp) h
  reached := by
    rw [next_successors]
    exact fun node hn => (mem_closure_iff h node).1 hn

end Closure

namespace BreadthFirst

variable {next : String → List String} {starts order : List String}

theorem nodup
    (h : BreadthFirst next starts order) :
    order.Nodup := by
  rw [h.eq]
  exact nodup_eraseDups _

theorem mem_iff
    (h : BreadthFirst next starts order)
    {node : String} :
    node ∈ order ↔ node ∈ starts ∨ ∃ a ∈ order, node ∈ next a := by
  conv_lhs => rw [h.eq]
  rw [List.mem_eraseDups, List.mem_append, List.mem_flatMap]

/-- The nodes are all that can be reached. -/
theorem mem_iff_reached
    (h : BreadthFirst next starts order)
    {node : String} :
    node ∈ order ↔ ∃ start ∈ starts, Relation.ReflTransGen (Next next) start node := by
  refine ⟨h.reached node, ?_⟩
  rintro ⟨start, hstart, hr⟩
  induction hr with
  | refl => exact h.mem_iff.2 (Or.inl hstart)
  | tail _ hedge ih => exact h.mem_iff.2 (Or.inr ⟨_, ih, hedge⟩)

/-- The order begins with the starts, as far as these do not repeat each other. -/
theorem prefix_of_nodup
    (h : BreadthFirst next starts order)
    {first : List String}
    (hfirst : first <+: starts)
    (hn : first.Nodup) :
    first <+: order := by
  obtain ⟨more, rfl⟩ := hfirst
  obtain ⟨rest, hrest, -⟩ := exists_eraseDups_append first (more ++ order.flatMap next)
  refine ⟨rest, ?_⟩
  rw [h.eq, List.append_assoc, hrest, eraseDups_of_nodup hn]

/-- The nodes that at most `n` links lead to come before the others. -/
theorem exists_split
    (h : BreadthFirst next starts order)
    (n : Nat) :
    ∃ near far, order = near ++ far ∧
      (∀ node ∈ near, ∃ m ≤ n, InSteps (· ∈ starts) (Next next) m node) ∧
      ∀ node ∈ far, ¬ ∃ m ≤ n, InSteps (· ∈ starts) (Next next) m node := by
  induction n with
  | zero =>
      obtain ⟨rest, hrest, hnew⟩ := exists_eraseDups_append starts (order.flatMap next)
      refine ⟨starts.eraseDups, rest, h.eq.trans hrest, fun node hn => ?_, fun node hn => ?_⟩
      · exact exists_inSteps_le_zero_iff.2 (List.mem_eraseDups.1 hn)
      · exact fun hsteps => hnew node hn (exists_inSteps_le_zero_iff.1 hsteps)
  | succ n ih =>
      obtain ⟨near, far, horder, hnear, hfar⟩ := ih
      have hmem : ∀ a, a ∈ near ↔ ∃ m ≤ n, InSteps (· ∈ starts) (Next next) m a := by
        refine fun a => ⟨hnear a, fun hsteps => ?_⟩
        obtain ⟨m, -, hm⟩ := id hsteps
        have ha : a ∈ near ++ far := horder ▸ h.mem_iff_reached.2 hm.exists_reaches
        exact (List.mem_append.1 ha).resolve_right fun ha => hfar a ha hsteps
      have hlinked : ∀ b, b ∈ starts ++ near.flatMap next ↔
          ∃ m ≤ n + 1, InSteps (· ∈ starts) (Next next) m b := by
        intro b
        simp only [exists_inSteps_le_succ_iff, List.mem_append, List.mem_flatMap, hmem,
          Next]
      obtain ⟨rest, hrest, hnew⟩ :=
        exists_eraseDups_append (starts ++ near.flatMap next) (far.flatMap next)
      refine ⟨(starts ++ near.flatMap next).eraseDups, rest, ?_, fun node hn => ?_,
        fun node hn => ?_⟩
      · rw [← hrest, List.append_assoc, ← List.flatMap_append, ← horder]
        exact h.eq
      · exact (hlinked node).1 (List.mem_eraseDups.1 hn)
      · exact fun hsteps => hnew node hn ((hlinked node).2 hsteps)

/-- What leads to a node within some links leads to those before it within as many. -/
theorem pairwise_inSteps
    (h : BreadthFirst next starts order)
    (n : Nat) :
    order.Pairwise fun a b => (∃ m ≤ n, InSteps (· ∈ starts) (Next next) m b) →
      ∃ m ≤ n, InSteps (· ∈ starts) (Next next) m a := by
  obtain ⟨near, far, rfl, hnear, hfar⟩ := h.exists_split n
  refine List.pairwise_append.2 ⟨?_, ?_, fun a ha b _ _ => hnear a ha⟩
  · exact List.pairwise_of_forall_mem_list fun a ha b _ _ => hnear a ha
  · exact List.pairwise_of_forall_mem_list fun a _ b hb hsteps => absurd hsteps (hfar b hb)

/-- The nodes come in the order of their distances, each being the least number of links that lead to
the node. -/
theorem exists_distance
    (h : BreadthFirst next starts order) :
    ∃ distance : String → Nat,
      (∀ node ∈ order,
        IsLeast {n | InSteps (· ∈ starts) (Next next) n node} (distance node)) ∧
      order.Pairwise fun a b => distance a ≤ distance b := by
  classical
  have hleast : ∀ node, ∃ d, node ∈ order →
      IsLeast {n | InSteps (· ∈ starts) (Next next) n node} d := by
    intro node
    by_cases hn : node ∈ order
    · obtain ⟨start, hstart, hr⟩ := h.reached node hn
      exact ⟨_, fun _ => Nat.isLeast_find (exists_inSteps hstart hr)⟩
    · exact ⟨0, fun hn' => absurd hn' hn⟩
  choose distance hdistance using hleast
  refine ⟨distance, hdistance, ?_⟩
  rw [List.pairwise_iff_getElem]
  intro i j hi hj hij
  have hlevel := List.pairwise_iff_getElem.1 (h.pairwise_inSteps (distance order[j])) i j hi hj hij
  obtain ⟨m, hm, hsteps⟩ := hlevel ⟨_, Nat.le_refl _, (hdistance _ (List.getElem_mem hj)).1⟩
  exact ((hdistance _ (List.getElem_mem hi)).2 hsteps).trans hm

/-- What comes after the only start, where nothing leads back to it, is in breadth-first order from what
the start leads on to. -/
theorem after_start
    {start : String}
    (h : BreadthFirst next [start] order)
    (hback : ¬ Relation.TransGen (Next next) start start) :
    ∃ rest, order = start :: rest ∧ BreadthFirst next (next start) rest := by
  have hreached : ∀ node ∈ order, Relation.ReflTransGen (Next next) start node := by
    intro node hn
    obtain ⟨first, hfirst, hr⟩ := h.reached node hn
    rwa [List.mem_singleton.1 hfirst] at hr
  have hkeep : ((order.flatMap next).filter fun b => !b == start) = order.flatMap next := by
    refine List.filter_eq_self.2 fun b hb => ?_
    obtain ⟨a, ha, hedge⟩ := List.mem_flatMap.1 hb
    have hto : Relation.TransGen (Next next) start b := .tail' (hreached a ha) hedge
    have hne : b ≠ start := fun he => hback (he ▸ hto)
    simpa using hne
  have horder : order = start :: (order.flatMap next).eraseDups := by
    conv_lhs => rw [h.eq]
    rw [List.singleton_append, List.eraseDups_cons, hkeep]
  refine ⟨(order.flatMap next).eraseDups, horder, ?_, fun node hn => ?_⟩
  · conv_lhs => rw [horder]
    rw [List.flatMap_cons]
  · have hmem : node ∈ order := by
      rw [horder]
      exact List.mem_cons_of_mem _ hn
    have hne : node ≠ start := by
      have hnodup := h.nodup
      rw [horder] at hnodup
      rintro rfl
      exact (List.nodup_cons.1 hnodup).1 hn
    rcases Relation.ReflTransGen.cases_head (hreached node hmem) with he | ⟨first, hfirst, hr⟩
    · exact absurd he.symm hne
    · exact ⟨first, hfirst, hr⟩

end BreadthFirst
end Graph
end TypeGraph
