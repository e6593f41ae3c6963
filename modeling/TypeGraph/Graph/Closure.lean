import TypeGraph.Graph.Basic

/-!
# Closures and chains

`closureFrom` lists what can be reached in a graph, breadth first and each node once.  `chainFrom`
follows single links upwards until there is none, or until it meets a node that is not listed or one
that it has already passed.

**Results.**
* `Graph.closureFrom_of_listed`, `Graph.closureFrom_of_unlisted`: a node that was not visited.
* `Links.chainFrom_of_listed`, `Links.chainFrom_of_unlisted`: a node that was not passed.
-/

namespace TypeGraph
namespace Graph

/-- What can be reached from the nodes in `queue`, after the nodes in `order`; `unseen` is the part
of the graph that has not been visited.  A reached node that the graph does not list is an error. -/
def closureFrom (unseen : Graph) (order : List String) :
    (queue : List String) → Except String (List String)
  | [] => .ok order
  | node :: queue =>
      if order.contains node then closureFrom unseen order queue
      else
        match _h : unseen.lookup node with
        | none => .error node
        | some next => closureFrom (Nodes.without unseen node) (order ++ [node]) (queue ++ next)
  termination_by queue => (unseen.length, queue.length)
  decreasing_by
    · simp [Prod.lex_def]
    · have := Nodes.length_without_lt _h
      simp [Prod.lex_def]
      omega

/-- The breadth-first closure of some nodes. -/
def closure (graph : Graph) (starts : List String) : Except String (List String) :=
  closureFrom graph [] starts

section Steps

variable {unseen : Graph} {order queue : List String} {node : String}
  (hnew : ¬ order.contains node = true)
include hnew

/-- A listed node that was not visited is visited. -/
theorem closureFrom_of_listed
    {next : List String}
    (h : unseen.lookup node = some next) :
    closureFrom unseen order (node :: queue) =
      closureFrom (Nodes.without unseen node) (order ++ [node]) (queue ++ next) := by
  rw [closureFrom, if_neg hnew]
  split <;> simp_all

/-- A node that is not listed is an error. -/
theorem closureFrom_of_unlisted
    (h : unseen.lookup node = none) :
    closureFrom unseen order (node :: queue) = .error node := by
  rw [closureFrom, if_neg hnew]
  split <;> simp_all

end Steps

end Graph

namespace Links

/-- How a chain of links ends: at a node without a link, at a name that is not listed, or at a node
that the chain has already passed. -/
inductive ChainEnd where
  | top
  | unlisted (node : String)
  | repeated (node : String)
  deriving DecidableEq, Repr

/-- The nodes of a chain after those already `passed`, and how it ends. -/
def chainFrom (unseen : Links) (passed : List String) :
    (node : Option String) → List String × ChainEnd
  | none => (passed, .top)
  | some node =>
      if passed.contains node then (passed, .repeated node)
      else
        match _h : unseen.lookup node with
        | none => (passed, .unlisted node)
        | some next => chainFrom (Nodes.without unseen node) (passed ++ [node]) next
  termination_by unseen.length
  decreasing_by exact Nodes.length_without_lt _h

/-- The chain that starts at a node. -/
def chain (links : Links) (start : Option String) : List String × ChainEnd :=
  chainFrom links [] start

section Steps

variable {unseen : Links} {passed : List String} {node : String}
  (hnew : ¬ passed.contains node = true)
include hnew

/-- A listed node that was not passed is passed. -/
theorem chainFrom_of_listed
    {next : Option String}
    (h : unseen.lookup node = some next) :
    chainFrom unseen passed (some node) =
      chainFrom (Nodes.without unseen node) (passed ++ [node]) next := by
  rw [chainFrom, if_neg hnew]
  split <;> simp_all

/-- A chain ends at a node that is not listed. -/
theorem chainFrom_of_unlisted
    (h : unseen.lookup node = none) :
    chainFrom unseen passed (some node) = (passed, .unlisted node) := by
  rw [chainFrom, if_neg hnew]
  split <;> simp_all

end Steps

end Links
end TypeGraph
