import Mathlib.Logic.Relation
import TypeGraph.Graph.Closure
import TypeGraph.Proofs.Lookup

/-!
# Reachability

What the breadth-first closure of a graph lists: exactly the nodes that can be reached from its
starts along the links of the graph.  It fails exactly when a node that is not listed can be reached.

**Results.**
* `Nodes.lookup_keyed`: the nodes of a list of things with names.
* `Graph.mem_closure_iff`: the closure lists what can be reached.
* `Graph.closure_eq_ok`, `Graph.listed_of_closure`: it fails only at a node that is not listed.
-/

namespace TypeGraph
namespace Nodes

variable {α β : Type}

/-- `rest` is what is left of some nodes when those in `seen` are taken out. -/
def Left (nodes : Nodes α) (seen : List String) (rest : Nodes α) : Prop :=
  ∀ node, rest.lookup node = if node ∈ seen then none else nodes.lookup node

theorem Left.start
    (nodes : Nodes α) :
    nodes.Left [] nodes := by
  intro node
  simp

theorem Left.visit
    {nodes rest : Nodes α}
    {seen seen' : List String}
    {node : String}
    (h : nodes.Left seen rest)
    (hs : ∀ n, n ∈ seen' ↔ n = node ∨ n ∈ seen) :
    nodes.Left seen' (without rest node) := by
  intro n
  by_cases hn : n = node
  · subst hn
    simp [hs]
  · rw [lookup_without_of_ne rest hn, h n]
    simp [hs, hn]

/-- A node that is left has not been seen, and is listed as before. -/
theorem Left.lookup_eq_some
    {nodes rest : Nodes α}
    {seen : List String}
    {node : String}
    {next : α}
    (h : nodes.Left seen rest)
    (hn : rest.lookup node = some next) :
    node ∉ seen ∧ nodes.lookup node = some next := by
  rw [h node] at hn
  split at hn
  · simp at hn
  · exact ⟨‹_›, hn⟩

/-- A node that is not left is seen or is not listed. -/
theorem Left.lookup_eq_none
    {nodes rest : Nodes α}
    {seen : List String}
    {node : String}
    (h : nodes.Left seen rest)
    (hn : rest.lookup node = none) :
    node ∈ seen ∨ nodes.lookup node = none := by
  rw [h node] at hn
  split at hn
  · exact Or.inl ‹_›
  · exact Or.inr hn

/-- Looking a name up among things with names finds the first of that name. -/
theorem lookup_keyed
    (key : β → String)
    (value : β → α)
    (things : List β)
    (name : String) :
    (things.map fun x => (key x, value x)).lookup name =
      (things.find? fun x => key x == name).map value := by
  induction things with
  | nil => rfl
  | cons x rest ih =>
      by_cases hx : key x = name
      · simp [hx]
      · have hx' : (name == key x) = false := by
          simpa using fun h => hx h.symm
        simp [List.lookup_cons, hx', hx, ih]

theorem lookup_keyed_eq_some_iff
    {key : β → String}
    {value : β → α}
    {things : List β}
    (hn : (things.map key).Nodup)
    {name : String}
    {next : α} :
    (things.map fun x => (key x, value x)).lookup name = some next ↔
      ∃ x ∈ things, key x = name ∧ value x = next := by
  rw [lookup_keyed, Option.map_eq_some_iff]
  simp only [find?_key_eq_some_iff hn, and_assoc]

end Nodes

namespace Graph

/-- The graph lists `b` among the successors of `a`. -/
def Edge (graph : Graph) (a b : String) : Prop :=
  ∃ next, graph.lookup a = some next ∧ b ∈ next

/-- The graph lists a node. -/
def Listed (graph : Graph) (node : String) : Prop :=
  ∃ next, graph.lookup node = some next

/-- A node can be reached from another one. -/
abbrev Reaches (graph : Graph) : String → String → Prop :=
  Relation.ReflTransGen graph.Edge

/-- What holds between two steps of a breadth-first traversal: what the nodes in `order` link to is
in `order` already or waits in `queue`. -/
structure Spreading (graph unseen : Graph) (order queue : List String) : Prop where
  left : graph.Left order unseen
  nodup : order.Nodup
  listed : ∀ node ∈ order, graph.Listed node
  closed : ∀ a ∈ order, ∀ b, graph.Edge a b → b ∈ order ∨ b ∈ queue

namespace Spreading

variable {graph unseen : Graph} {order queue : List String} {node : String}

theorem start
    (graph : Graph)
    (queue : List String) :
    graph.Spreading graph [] queue where
  left := Nodes.Left.start graph
  nodup := List.nodup_nil
  listed := by simp
  closed := by simp

/-- A node that is in the order already is passed over. -/
theorem skip
    (h : graph.Spreading unseen order (node :: queue))
    (hn : node ∈ order) :
    graph.Spreading unseen order queue where
  left := h.left
  nodup := h.nodup
  listed := h.listed
  closed := by
    intro a ha b hb
    rcases h.closed a ha b hb with hb | hb
    · exact Or.inl hb
    · rcases List.mem_cons.1 hb with rfl | hb
      · exact Or.inl hn
      · exact Or.inr hb

/-- A new node is appended to the order, and its successors to the queue. -/
theorem visit
    {next : List String}
    (h : graph.Spreading unseen order (node :: queue))
    (hn : unseen.lookup node = some next) :
    graph.Spreading (Nodes.without unseen node) (order ++ [node]) (queue ++ next) := by
  obtain ⟨hnew, hlook⟩ := h.left.lookup_eq_some hn
  refine ⟨?_, ?_, ?_, ?_⟩
  · exact h.left.visit (by simp [or_comm])
  · refine List.nodup_append.2 ⟨h.nodup, List.nodup_singleton _, ?_⟩
    rintro a ha b hb rfl
    exact hnew (List.mem_singleton.1 hb ▸ ha)
  · intro a ha
    rcases List.mem_append.1 ha with ha | ha
    · exact h.listed a ha
    · rw [List.mem_singleton.1 ha]
      exact ⟨next, hlook⟩
  · intro a ha b hb
    rcases List.mem_append.1 ha with ha | ha
    · rcases h.closed a ha b hb with hb | hb
      · exact Or.inl (List.mem_append_left _ hb)
      · rcases List.mem_cons.1 hb with rfl | hb
        · exact Or.inl (by simp)
        · exact Or.inr (List.mem_append_left _ hb)
    · rw [List.mem_singleton.1 ha] at hb
      obtain ⟨next', hlook', hb⟩ := hb
      rw [hlook] at hlook'
      cases hlook'
      exact Or.inr (List.mem_append_right _ hb)

end Spreading

/-- The outcome of a breadth-first traversal from one of its states on. -/
def Spread (graph : Graph) (order queue : List String) : Except String (List String) → Prop
  | .ok l =>
      (∃ unseen, graph.Spreading unseen l []) ∧
        (∀ node, node ∈ order ∨ node ∈ queue → node ∈ l) ∧
        ∀ node ∈ l, node ∈ order ∨ ∃ start ∈ queue, graph.Reaches start node
  | .error name => ¬ graph.Listed name ∧ ∃ start ∈ queue, graph.Reaches start name

/-- An outcome belongs to an earlier state too when the later one has lost nothing and was led to
from there. -/
theorem Spread.of_later
    {graph : Graph}
    {order order' queue queue' : List String}
    {result : Except String (List String)}
    (h : graph.Spread order' queue' result)
    (hall : ∀ node, node ∈ order ∨ node ∈ queue → node ∈ order' ∨ node ∈ queue')
    (horder : ∀ node ∈ order', node ∈ order ∨ ∃ start ∈ queue, graph.Reaches start node)
    (hqueue : ∀ node ∈ queue', ∃ start ∈ queue, graph.Reaches start node) :
    graph.Spread order queue result := by
  have hled : ∀ node, (∃ start ∈ queue', graph.Reaches start node) →
      ∃ start ∈ queue, graph.Reaches start node := by
    rintro node ⟨later, hlater, hr⟩
    obtain ⟨start, hstart, hr'⟩ := hqueue later hlater
    exact ⟨start, hstart, hr'.trans hr⟩
  cases result with
  | ok l =>
      obtain ⟨hend, hmem, hreach⟩ := h
      refine ⟨hend, fun node hn => hmem node (hall node hn), ?_⟩
      intro node hn
      rcases hreach node hn with hn | hn
      · exact horder node hn
      · exact Or.inr (hled node hn)
  | error name => exact ⟨h.1, hled name h.2⟩

/-- A traversal that ends has spread over all that its queue leads to, and one that fails has been
led to a node that is not listed. -/
theorem closureFrom_spread
    {graph unseen : Graph}
    {order queue : List String}
    (hs : graph.Spreading unseen order queue) :
    graph.Spread order queue (closureFrom unseen order queue) := by
  induction unseen, order, queue using closureFrom.induct with
  | case1 unseen order =>
      rw [closureFrom]
      exact ⟨⟨unseen, hs⟩, by simp, fun node hn => Or.inl hn⟩
  | case2 unseen order node queue hseen ih =>
      have hmem : node ∈ order := by simpa using hseen
      rw [closureFrom, if_pos hseen]
      refine (ih (hs.skip hmem)).of_later ?_ (fun n hn => Or.inl hn) ?_
      · rintro n (hn | hn)
        · exact Or.inl hn
        · rcases List.mem_cons.1 hn with rfl | hn
          · exact Or.inl hmem
          · exact Or.inr hn
      · exact fun n hn => ⟨n, List.mem_cons_of_mem _ hn, Relation.ReflTransGen.refl⟩
  | case3 unseen order node queue hseen hnone =>
      rw [closureFrom_of_unlisted hseen hnone]
      refine ⟨?_, node, by simp, Relation.ReflTransGen.refl⟩
      rintro ⟨next, hnext⟩
      rcases hs.left.lookup_eq_none hnone with hmem | hlook
      · exact hseen (by simpa using hmem)
      · simp [hlook] at hnext
  | case4 unseen order node queue hseen next hsome ih =>
      rw [closureFrom_of_listed hseen hsome]
      refine (ih (hs.visit hsome)).of_later ?_ ?_ ?_
      · intro n hn
        simp only [List.mem_append, List.mem_cons, List.not_mem_nil, or_false] at hn ⊢
        tauto
      · intro n hn
        rcases List.mem_append.1 hn with hn | hn
        · exact Or.inl hn
        · exact Or.inr ⟨node, by simp, by rw [List.mem_singleton.1 hn]⟩
      · intro n hn
        rcases List.mem_append.1 hn with hn | hn
        · exact ⟨n, List.mem_cons_of_mem _ hn, Relation.ReflTransGen.refl⟩
        · have hedge : graph.Edge node n := ⟨next, (hs.left.lookup_eq_some hsome).2, hn⟩
          exact ⟨node, by simp, Relation.ReflTransGen.single hedge⟩

/-- What a closure is, and what a failure to find one means. -/
theorem closure_spread
    (graph : Graph)
    (starts : List String) :
    graph.Spread [] starts (graph.closure starts) :=
  closureFrom_spread (Spreading.start graph starts)

/-- The closure lists exactly what can be reached from its starts. -/
theorem mem_closure_iff
    {graph : Graph}
    {starts l : List String}
    (h : graph.closure starts = .ok l)
    (node : String) :
    node ∈ l ↔ ∃ start ∈ starts, graph.Reaches start node := by
  have hs := closure_spread graph starts
  rw [h] at hs
  obtain ⟨⟨unseen, hend⟩, hall, hreach⟩ := hs
  constructor
  · intro hn
    rcases hreach node hn with hn | hn
    · simp at hn
    · exact hn
  · rintro ⟨start, hstart, hr⟩
    induction hr with
    | refl => exact hall start (Or.inr hstart)
    | tail _ hedge ih =>
        rcases hend.closed _ ih _ hedge with hb | hb
        · exact hb
        · simp at hb

/-- Where there is a closure, all that can be reached is listed. -/
theorem listed_of_closure
    {graph : Graph}
    {starts l : List String}
    (h : graph.closure starts = .ok l)
    {start node : String}
    (hstart : start ∈ starts)
    (hr : graph.Reaches start node) :
    graph.Listed node := by
  have hs := closure_spread graph starts
  rw [h] at hs
  obtain ⟨⟨unseen, hend⟩, -, -⟩ := hs
  exact hend.listed node ((mem_closure_iff h node).2 ⟨start, hstart, hr⟩)

/-- There is a closure where all that can be reached is listed. -/
theorem closure_eq_ok
    {graph : Graph}
    {starts : List String}
    (h : ∀ start ∈ starts, ∀ node, graph.Reaches start node → graph.Listed node) :
    ∃ l, graph.closure starts = .ok l := by
  cases hc : graph.closure starts with
  | ok l => exact ⟨l, rfl⟩
  | error name =>
      have hs := closure_spread graph starts
      rw [hc] at hs
      obtain ⟨hname, start, hstart, hr⟩ := hs
      exact absurd (h start hstart name hr) hname

end Graph
end TypeGraph
