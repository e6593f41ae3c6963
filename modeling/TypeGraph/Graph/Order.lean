import TypeGraph.Graph.Basic

/-!
# Dependency order

A depth-first traversal lists every node after its successors, or stops at the first link that leads
back to a node that is still being visited.  The names on the way from that node, with the node again
at the end, are then the path of a cycle.  Successors that the graph does not list are left out.

**Results.**
* `Graph.orderFrom_enter`, `Graph.orderFrom_pass`: a start, when no visit is in progress.
* `Graph.orderFrom_descend`, `Graph.orderFrom_skip`, `Graph.orderFrom_cycle`: a successor of the node at
  work.
-/

namespace TypeGraph
namespace Graph

/-- A node that is being visited, with the successors that have not been followed yet. -/
structure Visit where
  node : String
  remaining : List String

/-- The path of a cycle that closes at `node`, given the visits in progress, innermost first. -/
def cyclePath (visits : List Visit) (node : String) : List String :=
  ((visits.map Visit.node).reverse.dropWhile (· != node)) ++ [node]

/-- How much of the visits in progress is left. -/
def visitSize : List Visit → Nat
  | [] => 0
  | v :: visits => v.remaining.length + 1 + visitSize visits

/-- The nodes in dependency order after those already `done`: first the visits in progress are
completed, then the remaining `starts` are visited.  An error is the path of a cycle. -/
def orderFrom
    (unseen : Graph)
    (done : List String)
    (visits : List Visit)
    (starts : List String) :
    Except (List String) (List String) :=
  match visits, starts with
  | [], [] => .ok done
  | [], start :: starts =>
      match _h : unseen.lookup start with
      | none => orderFrom unseen done [] starts
      | some next => orderFrom (Nodes.without unseen start) done [⟨start, next⟩] starts
  | ⟨node, []⟩ :: visits, starts => orderFrom unseen (done ++ [node]) visits starts
  | ⟨node, next :: remaining⟩ :: visits, starts =>
      if (node :: visits.map Visit.node).contains next then
        .error (cyclePath (⟨node, remaining⟩ :: visits) next)
      else
        match _h : unseen.lookup next with
        | none => orderFrom unseen done (⟨node, remaining⟩ :: visits) starts
        | some successors =>
            orderFrom (Nodes.without unseen next) done
              (⟨next, successors⟩ :: ⟨node, remaining⟩ :: visits) starts
  termination_by (unseen.length, visitSize visits + starts.length)
  decreasing_by
    · simp [Prod.lex_def, visitSize]
    · have := Nodes.length_without_lt _h
      simp [Prod.lex_def]
      omega
    · simp [Prod.lex_def, visitSize]
    · simp [Prod.lex_def, visitSize]
    · have := Nodes.length_without_lt _h
      simp [Prod.lex_def]
      omega

/-- The nodes that can be reached from `starts` in dependency order, or the path of a cycle. -/
def order (graph : Graph) (starts : List String) : Except (List String) (List String) :=
  orderFrom graph [] [] starts

section Steps

variable {unseen : Graph} {done : List String} {visits : List Visit} {starts : List String}

section Starts

variable {start : String}

/-- A start that is left is visited. -/
theorem orderFrom_enter
    {next : List String}
    (h : unseen.lookup start = some next) :
    orderFrom unseen done [] (start :: starts) =
      orderFrom (Nodes.without unseen start) done [⟨start, next⟩] starts := by
  rw [orderFrom]
  split <;> simp_all

/-- A start that is not left is passed over. -/
theorem orderFrom_pass
    (h : unseen.lookup start = none) :
    orderFrom unseen done [] (start :: starts) = orderFrom unseen done [] starts := by
  rw [orderFrom]
  split <;> simp_all

end Starts

section Successors

variable {node next : String} {remaining : List String}

/-- A successor whose visit is in progress closes a cycle. -/
theorem orderFrom_cycle
    (h : next ∈ node :: visits.map Visit.node) :
    orderFrom unseen done (⟨node, next :: remaining⟩ :: visits) starts =
      .error (cyclePath (⟨node, remaining⟩ :: visits) next) := by
  rw [orderFrom, if_pos (List.contains_iff_mem.2 h)]

variable (hnew : next ∉ node :: visits.map Visit.node)
include hnew

/-- A successor that is left is visited inside the visit of its node. -/
theorem orderFrom_descend
    {successors : List String}
    (h : unseen.lookup next = some successors) :
    orderFrom unseen done (⟨node, next :: remaining⟩ :: visits) starts =
      orderFrom (Nodes.without unseen next) done
        (⟨next, successors⟩ :: ⟨node, remaining⟩ :: visits) starts := by
  rw [orderFrom, if_neg (by simpa using hnew)]
  split <;> simp_all

/-- A successor that is neither left nor being visited is passed over. -/
theorem orderFrom_skip
    (h : unseen.lookup next = none) :
    orderFrom unseen done (⟨node, next :: remaining⟩ :: visits) starts =
      orderFrom unseen done (⟨node, remaining⟩ :: visits) starts := by
  rw [orderFrom, if_neg (by simpa using hnew)]
  split <;> simp_all

end Successors

end Steps

end Graph
end TypeGraph
