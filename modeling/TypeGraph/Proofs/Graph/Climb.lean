import TypeGraph.Proofs.Graph.DepthFirst

/-!
# Chains of single links

A chain that follows single links upwards comes back to a node that it has passed exactly when its
start leads to a cycle; otherwise the links lead on from the start only finitely far.

**Results.**
* `Links.chain_repeated`: a repeated node closes a path of links from the start.
* `Links.chain_repeats_iff`: a chain repeats a node exactly when its start leads to a cycle.
* `Links.chain_climb`: a chain that ends at the top has passed one node after the other.
* `Links.mem_chain_iff`: it has passed exactly what its start leads to.
-/

namespace TypeGraph
namespace Links

/-- The link of `a` leads to `b`. -/
def Edge (links : Links) (a b : String) : Prop :=
  links.lookup a = some (some b)

/-- What holds between two steps of a chain: the nodes passed are a path of links that leads to the
next node. -/
structure Climbing (links unseen : Links) (passed : List String) (node : Option String) : Prop where
  left : links.Left passed unseen
  nodup : passed.Nodup
  path : (passed ++ node.toList).IsChain links.Edge

theorem Climbing.pass
    {links unseen : Links}
    {passed : List String}
    {node : String}
    {next : Option String}
    (h : links.Climbing unseen passed (some node))
    (hnew : node ∉ passed)
    (hn : unseen.lookup node = some next) :
    links.Climbing (Nodes.without unseen node) (passed ++ [node]) next := by
  obtain ⟨-, hlook⟩ := h.left.lookup_eq_some hn
  refine ⟨?_, ?_, ?_⟩
  · exact h.left.visit (by simp [or_comm])
  · refine List.nodup_append.2 ⟨h.nodup, List.nodup_singleton _, ?_⟩
    rintro a ha b hb rfl
    exact hnew (List.mem_singleton.1 hb ▸ ha)
  · have hpath : (passed ++ [node]).IsChain links.Edge := h.path
    cases next with
    | none => simpa using hpath
    | some above =>
        refine List.isChain_append.2 ⟨hpath, List.IsChain.singleton _, ?_⟩
        intro a ha b hb
        simp only [List.getLast?_append, List.getLast?_singleton, Option.some_or,
          Option.mem_def, Option.some.injEq, Option.toList_some, List.head?_cons] at ha hb
        subst ha hb
        exact hlook

/-- How a chain that is on its way ends. -/
def Climbed (links : Links) (passed : List String) (node : Option String) :
    List String × ChainEnd → Prop
  | (names, .repeated name) =>
      passed ++ node.toList <+: names ++ [name] ∧ names.Nodup ∧ name ∈ names ∧
        (names ++ [name]).IsChain links.Edge
  | _ => ∀ n ∈ node, Acc (fun b a => links.Edge a b) n

theorem chainFrom_climbed
    {links unseen : Links}
    {passed : List String}
    {node : Option String}
    (hc : links.Climbing unseen passed node) :
    links.Climbed passed node (chainFrom unseen passed node) := by
  induction unseen, passed, node using chainFrom.induct with
  | case1 unseen passed =>
      rw [chainFrom]
      simp [Climbed]
  | case2 unseen passed node hseen =>
      rw [chainFrom, if_pos hseen]
      exact ⟨by simp, hc.nodup, by simpa using hseen, hc.path⟩
  | case3 unseen passed node hseen hnone =>
      have hnew : node ∉ passed := by simpa using hseen
      rw [chainFrom_of_unlisted hseen hnone]
      -- nothing leads on from a name that is not listed
      rintro n ⟨⟩
      refine Acc.intro node ?_
      intro b hedge
      rcases hc.left.lookup_eq_none hnone with hmem | hlook
      · exact absurd hmem hnew
      · simp [Edge, hlook] at hedge
  | case4 unseen passed node hseen next hsome ih =>
      have hnew : node ∉ passed := by simpa using hseen
      have hlook := (hc.left.lookup_eq_some hsome).2
      rw [chainFrom_of_listed hseen hsome]
      have hrest := ih (hc.pass hnew hsome)
      have hacc : (∀ n ∈ next, Acc (fun b a => links.Edge a b) n) →
          ∀ n ∈ some node, Acc (fun b a => links.Edge a b) n := by
        rintro hnext n ⟨⟩
        refine Acc.intro node ?_
        intro b hedge
        rw [Edge, hlook] at hedge
        cases hedge
        exact hnext b rfl
      revert hrest
      rcases chainFrom (Nodes.without unseen node) (passed ++ [node]) next with ⟨names, _ | name | name⟩
      · exact hacc
      · exact hacc
      · rintro ⟨hstart, hnodup, hmem, hpath⟩
        exact ⟨(List.prefix_append _ _).trans hstart, hnodup, hmem, hpath⟩

theorem chain_climbed
    (links : Links)
    (start : String) :
    links.Climbed [] (some start) (links.chain (some start)) :=
  chainFrom_climbed ⟨Nodes.Left.start links, List.nodup_nil, List.IsChain.singleton _⟩

/-- A chain that repeats a node has passed a path of links from its start to that node and back. -/
theorem chain_repeated
    {links : Links}
    {start name : String}
    {names : List String}
    (h : links.chain (some start) = (names, .repeated name)) :
    names.head? = some start ∧ names.Nodup ∧ name ∈ names ∧
      (names ++ [name]).IsChain links.Edge := by
  have hc := chain_climbed links start
  rw [h] at hc
  obtain ⟨hstart, hnodup, hmem, hpath⟩ := hc
  refine ⟨?_, hnodup, hmem, hpath⟩
  obtain ⟨rest, he⟩ := hstart
  cases names with
  | nil => simp at hmem
  | cons first others =>
      simp only [Option.toList_some, List.nil_append, List.cons_append, List.cons.injEq] at he
      simp [he.1]

/-- A chain repeats a node exactly when its start leads to a cycle. -/
theorem chain_repeats_iff
    (links : Links)
    (start : String) :
    (∃ names name, links.chain (some start) = (names, .repeated name)) ↔
      ∃ node, Relation.ReflTransGen links.Edge start node ∧
        Relation.TransGen links.Edge node node := by
  constructor
  · rintro ⟨names, name, h⟩
    obtain ⟨hhead, -, hmem, hpath⟩ := chain_repeated h
    obtain ⟨before, after, rfl⟩ := List.append_of_mem hmem
    refine ⟨name, ?_, ?_⟩
    · have hup : (before ++ [name]).IsChain links.Edge := by
        have := hpath.left_of_append
        rw [List.append_cons] at this
        exact this.left_of_append
      cases before with
      | nil =>
          simp only [List.nil_append, List.head?_cons, Option.some.injEq] at hhead
          rw [hhead]
      | cons first rest =>
          simp only [List.cons_append, List.head?_cons, Option.some.injEq] at hhead
          subst hhead
          exact (Graph.transGen_of_isChain hup).to_reflTransGen
    · have hback : (name :: (after ++ [name])).IsChain links.Edge := by
        rw [List.append_assoc] at hpath
        exact hpath.right_of_append
      exact Graph.transGen_of_isChain hback
  · rintro ⟨node, hr, hcycle⟩
    have hc := chain_climbed links start
    rcases hchain : links.chain (some start) with ⟨names, _ | name | name⟩
    · rw [hchain] at hc
      exact absurd hcycle (Graph.not_transGen_of_acc (hc start rfl) hr)
    · rw [hchain] at hc
      exact absurd hcycle (Graph.not_transGen_of_acc (hc start rfl) hr)
    · exact ⟨names, name, rfl⟩

/-- A node, the one that its link leads to and so on, up to one without a link. -/
inductive Climb (links : Links) : Option String → List String → Prop
  | top :
      Climb links none []
  | up {node : String} {next : Option String} {above : List String} :
      links.lookup node = some next →
      Climb links next above →
      Climb links (some node) (node :: above)

theorem chainFrom_climb
    {links unseen : Links}
    {passed names : List String}
    {start : Option String}
    (hl : links.Left passed unseen)
    (h : chainFrom unseen passed start = (names, .top)) :
    ∃ above, names = passed ++ above ∧ links.Climb start above := by
  induction unseen, passed, start using chainFrom.induct with
  | case1 unseen passed =>
      rw [chainFrom] at h
      cases h
      exact ⟨[], (List.append_nil _).symm, .top⟩
  | case2 unseen passed here hseen =>
      rw [chainFrom, if_pos hseen] at h
      cases h
  | case3 unseen passed here hseen hnone =>
      rw [chainFrom_of_unlisted hseen hnone] at h
      cases h
  | case4 unseen passed here hseen next hsome ih =>
      rw [chainFrom_of_listed hseen hsome] at h
      obtain ⟨above, rfl, hclimb⟩ := ih (hl.visit (by simp [or_comm])) h
      exact ⟨here :: above, List.append_assoc _ _ _, .up (hl.lookup_eq_some hsome).2 hclimb⟩

/-- A chain that ends at the top is a climb. -/
theorem chain_climb
    {links : Links}
    {names : List String}
    {start : Option String}
    (h : links.chain start = (names, .top)) :
    links.Climb start names := by
  obtain ⟨above, rfl, hclimb⟩ := chainFrom_climb (Nodes.Left.start links) h
  exact hclimb

/-- A climb passes exactly the nodes that its links lead to. -/
theorem Climb.mem_iff
    {links : Links}
    {names : List String}
    {start : Option String}
    (h : links.Climb start names)
    (node : String) :
    node ∈ names ↔ ∃ first ∈ start, Relation.ReflTransGen links.Edge first node := by
  induction h with
  | top => simp
  | @up here next above hlook _ ih =>
      have hedge : ∀ n, links.Edge here n ↔ n ∈ next := by
        intro n
        rw [Edge, hlook]
        simp
      rw [List.mem_cons, ih]
      simp only [Option.mem_def, Option.some.injEq, exists_eq_left',
        Relation.ReflTransGen.cases_head_iff (a := here), hedge]
      exact or_congr_left eq_comm

theorem mem_chain_iff
    {links : Links}
    {names : List String}
    {start : Option String}
    (h : links.chain start = (names, .top))
    (node : String) :
    node ∈ names ↔ ∃ first ∈ start, Relation.ReflTransGen links.Edge first node :=
  (chain_climb h).mem_iff node

end Links
end TypeGraph
