import TypeGraph.Proofs.Graph.Climb

/-!
# Paths of cycles

A path closes a cycle when it comes back to the name it starts at and meets no name twice on the way.
The path of a depth-first traversal that fails does.  A chain that follows single links stops where it
meets a name for the second time, wherever that is: its path leads to a cycle, and closes one only if it
has started on it.

**Results.**
* `Graph.CycleAt.closes`: the path of a traversal that fails closes a cycle.
* `Links.comesBack_of_chain`: the path of a chain that repeats a name comes back somewhere.
* `ComesBack.closes_iff`, `ComesBack.closes_iff_transGen`: when it closes a cycle.
-/

namespace TypeGraph

/-- A path of links that comes back to the name it starts at, after one link or more, and meets no name
twice before. -/
structure Closes (r : String → String → Prop) (name : String) (path : List String) : Prop where
  long : 2 ≤ path.length
  first : path.head? = some name
  last : path.getLast? = some name
  links : path.IsChain r
  once : path.dropLast.Nodup

/-- A path of links from a name to the first one that it meets for the second time: it leads to a
cycle, and goes around it once. -/
structure ComesBack (r : String → String → Prop) (start : String) (path : List String) : Prop where
  first : path.head? = some start
  links : path.IsChain r
  once : path.dropLast.Nodup
  closes : ∃ lead cycle name, path = lead ++ cycle ∧ Closes r name cycle

section Closes

variable {r : String → String → Prop} {name start : String} {path : List String}

/-- A path that closes a cycle has its name at both ends. -/
theorem Closes.exists_around
    (h : Closes r name path) :
    ∃ around, path = name :: (around ++ [name]) := by
  obtain ⟨hlong, hfirst, hlast, -, -⟩ := h
  cases path with
  | nil => simp at hfirst
  | cons first rest =>
      obtain rfl : first = name := by simpa using hfirst
      rcases List.eq_nil_or_concat rest with rfl | ⟨around, last, rfl⟩
      · simp at hlong
      · obtain rfl : last = first := by simpa [List.getLast?_cons] using hlast
        exact ⟨around, by rw [List.concat_eq_append]⟩

/-- It shows that its name leads to itself. -/
theorem Closes.transGen
    (h : Closes r name path) :
    Relation.TransGen r name name := by
  obtain ⟨around, rfl⟩ := h.exists_around
  exact Graph.transGen_of_isChain h.links

/-- The path of a traversal that fails closes a cycle. -/
theorem Graph.CycleAt.closes
    {graph : Graph}
    (h : graph.CycleAt name path) :
    Closes graph.Edge name path := by
  obtain ⟨rest, rfl, hnodup, hlinks⟩ := h
  refine ⟨by simp, rfl, by simp [List.getLast?_cons], hlinks, ?_⟩
  rwa [← List.cons_append, List.dropLast_concat]

/-- A chain that has met a name again comes back to it. -/
theorem ComesBack.of_chain
    {names : List String}
    (hfirst : names.head? = some start)
    (hnodup : names.Nodup)
    (hmem : name ∈ names)
    (hlinks : (names ++ [name]).IsChain r) :
    ComesBack r start (names ++ [name]) := by
  obtain ⟨lead, around, rfl⟩ := List.append_of_mem hmem
  refine ⟨?_, hlinks, by rwa [List.dropLast_concat], lead, name :: around ++ [name], name, ?_, ?_⟩
  · rw [List.head?_append, hfirst]
    rfl
  · rw [List.append_assoc]
  · rw [List.append_assoc] at hlinks
    refine ⟨by simp, rfl, by simp [List.getLast?_cons], hlinks.right_of_append, ?_⟩
    rw [List.dropLast_concat]
    exact hnodup.of_append_right

/-- The path of a chain that repeats a name comes back to that name. -/
theorem Links.comesBack_of_chain
    {links : Links}
    {names : List String}
    (h : links.chain (some start) = (names, .repeated name)) :
    ComesBack links.Edge start (names ++ [name]) := by
  obtain ⟨hfirst, hnodup, hmem, hlinks⟩ := Links.chain_repeated h
  exact .of_chain hfirst hnodup hmem hlinks

/-- It closes a cycle where the name that it comes back to is the one it has started at. -/
theorem ComesBack.closes_iff
    (h : ComesBack r start path) :
    Closes r start path ↔ path.getLast? = some start := by
  refine ⟨Closes.last, fun hlast => ⟨?_, h.first, hlast, h.links, h.once⟩⟩
  obtain ⟨lead, cycle, name, rfl, hcloses⟩ := h.closes
  rw [List.length_append]
  exact Nat.le_add_left_of_le hcloses.long

/-- In a chain every element but the last has a next one. -/
theorem exists_next_of_isChain
    (h : path.IsChain r)
    (hname : name ∈ path.dropLast) :
    ∃ next ∈ path.tail, r name next := by
  induction path with
  | nil => simp at hname
  | cons first rest ih =>
      cases rest with
      | nil => simp at hname
      | cons second others =>
          obtain ⟨hstep, hrest⟩ := List.isChain_cons_cons.1 h
          rw [List.dropLast_cons_cons, List.mem_cons] at hname
          rcases hname with rfl | hname
          · exact ⟨second, List.mem_cons_self, hstep⟩
          · obtain ⟨next, hnext, hlink⟩ := ih hrest hname
            exact ⟨next, List.mem_cons_of_mem _ hnext, hlink⟩

/-- The last name of a path that comes back stands before on the path. -/
theorem ComesBack.mem_dropLast
    (h : ComesBack r start path)
    (hname : name ∈ path) :
    name ∈ path.dropLast := by
  obtain ⟨lead, cycle, again, rfl, hcloses⟩ := h.closes
  obtain ⟨around, rfl⟩ := hcloses.exists_around
  rw [← List.cons_append, ← List.append_assoc, List.dropLast_concat]
  simp only [List.mem_append, List.mem_cons, List.mem_nil_iff] at hname ⊢
  tauto

/-- Single links do not lead out of the names after the start of a path that comes back. -/
theorem ComesBack.mem_tail
    (hr : Relator.RightUnique r)
    (h : ComesBack r start path)
    (hname : Relation.TransGen r start name) :
    name ∈ path.tail := by
  have hstep : ∀ a ∈ path, ∀ b, r a b → b ∈ path.tail := by
    intro a ha b hab
    obtain ⟨next, hnext, hlink⟩ := exists_next_of_isChain h.links (h.mem_dropLast ha)
    exact hr hab hlink ▸ hnext
  induction hname with
  | single hfirst => exact hstep _ (List.mem_of_head? h.first) _ hfirst
  | tail _ hlast ih => exact hstep _ (List.mem_of_mem_tail ih) _ hlast

/-- The start of a path that comes back elsewhere is not met again. -/
theorem ComesBack.start_notMem_tail
    (h : ComesBack r start path)
    (hlast : path.getLast? ≠ some start) :
    start ∉ path.tail := by
  intro hmem
  have honce := h.once
  have hfirst := h.first
  cases path with
  | nil => simp at hfirst
  | cons first rest =>
      obtain rfl : first = start := by simpa using hfirst
      rcases List.eq_nil_or_concat rest with rfl | ⟨others, last, rfl⟩
      · simp at hmem
      · rw [List.concat_eq_append] at honce hmem hlast
        rw [← List.cons_append, List.dropLast_concat] at honce
        rcases List.mem_append.1 hmem with hmem | hmem
        · exact (List.nodup_cons.1 honce).1 hmem
        · exact hlast (by simp [List.getLast?_cons, List.mem_singleton.1 hmem])

/-- It closes a cycle exactly when its start leads to itself, where each name has one link. -/
theorem ComesBack.closes_iff_transGen
    (hr : Relator.RightUnique r)
    (h : ComesBack r start path) :
    Closes r start path ↔ Relation.TransGen r start start := by
  refine ⟨Closes.transGen, fun hcycle => h.closes_iff.2 ?_⟩
  by_contra hlast
  exact h.start_notMem_tail hlast (h.mem_tail hr hcycle)

end Closes
end TypeGraph
