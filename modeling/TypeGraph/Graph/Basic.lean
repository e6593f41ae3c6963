/-!
# Named graphs

A graph lists its nodes by name, each with its successors, or with its only link where a node has at
most one; a name that is listed twice counts where it comes first.  A traversal takes the nodes it
visits out of the graph, so that what is left of the graph bounds the rest of it.

**Results.**
* `Nodes.length_without_lt`: taking out a listed node makes the graph smaller.
* `Nodes.lookup_without_self`, `Nodes.lookup_without_of_ne`: it is no longer listed, and the other
  nodes stay.
-/

namespace TypeGraph

/-- Nodes by name, each with what leads on from it. -/
abbrev Nodes (α : Type) := List (String × α)

/-- Nodes with their successors. -/
abbrev Graph := Nodes (List String)

/-- Nodes with at most one link each. -/
abbrev Links := Nodes (Option String)

namespace Nodes

variable {α : Type}

/-- The nodes without one of them. -/
def without (nodes : Nodes α) (node : String) : Nodes α :=
  nodes.filter fun entry => entry.1 != node

theorem mem_of_lookup
    {nodes : Nodes α}
    {node : String}
    {next : α}
    (h : nodes.lookup node = some next) :
    (node, next) ∈ nodes := by
  induction nodes with
  | nil => simp at h
  | cons entry rest ih =>
      obtain ⟨known, successors⟩ := entry
      by_cases hk : node = known
      · subst hk
        simp at h
        simp [h]
      · have hk' : (node == known) = false := by simpa using hk
        simp [List.lookup_cons, hk'] at h
        exact List.mem_cons_of_mem _ (ih h)

/-- Taking out a listed node makes the graph smaller. -/
theorem length_without_lt
    {nodes : Nodes α}
    {node : String}
    {next : α}
    (h : nodes.lookup node = some next) :
    (without nodes node).length < nodes.length := by
  have hm := mem_of_lookup h
  unfold without
  refine List.length_filter_lt_length_iff_exists.2 ⟨_, hm, ?_⟩
  simp

/-- A node that was taken out is no longer listed. -/
@[simp] theorem lookup_without_self
    (nodes : Nodes α)
    (node : String) :
    (without nodes node).lookup node = none := by
  induction nodes with
  | nil => rfl
  | cons entry rest ih =>
      obtain ⟨known, successors⟩ := entry
      by_cases hk : known = node
      · simpa [without, hk] using ih
      · have hk' : (node == known) = false := by simpa using fun h => hk h.symm
        simpa [without, hk, List.lookup_cons, hk'] using ih

/-- The other nodes stay. -/
theorem lookup_without_of_ne
    (nodes : Nodes α)
    {node other : String}
    (h : other ≠ node) :
    (without nodes node).lookup other = nodes.lookup other := by
  induction nodes with
  | nil => rfl
  | cons entry rest ih =>
      obtain ⟨known, successors⟩ := entry
      by_cases hk : known = node
      · subst hk
        have ho : (other == known) = false := by simpa using h
        simpa [without, List.lookup_cons, ho] using ih
      · by_cases ho : other = known
        · simp [without, hk, ho]
        · have ho' : (other == known) = false := by simpa using ho
          simpa [without, hk, List.lookup_cons, ho'] using ih

end Nodes
end TypeGraph
