import Mathlib.Data.List.Chain
import TypeGraph.Graph.Order
import TypeGraph.Proofs.Graph.Reach

/-!
# Depth-first order

The depth-first traversal of a graph either lists every node after its successors, or stops with the
path of a cycle that its starts lead to.  So it succeeds exactly when they lead to no cycle.

**Results.**
* `Graph.order_ok`: the order has every node once, after its listed successors.
* `Graph.order_error`: an error is the path of a cycle.
* `Graph.order_eq_ok_iff`: there is an order exactly when no cycle can be reached.
-/

namespace TypeGraph
namespace Graph

/-- A path that comes back to the node it starts at and meets no other node twice. -/
def CycleAt (graph : Graph) (node : String) (path : List String) : Prop :=
  ∃ rest, path = node :: (rest ++ [node]) ∧ (node :: rest).Nodup ∧ path.IsChain graph.Edge

/-- Every node comes after its listed successors. -/
def Sorted (graph : Graph) (l : List String) : Prop :=
  ∀ before node after, l = before ++ node :: after →
    ∀ b, graph.Edge node b → graph.Listed b → b ∈ before

section Chains

variable {α : Type} {r : α → α → Prop}

/-- A chain leads from its first to its last element. -/
theorem transGen_of_isChain
    {a b : α}
    {l : List α}
    (h : (a :: (l ++ [b])).IsChain r) :
    Relation.TransGen r a b := by
  induction l generalizing a with
  | nil =>
      simp only [List.nil_append, List.isChain_cons_cons] at h
      exact Relation.TransGen.single h.1
  | cons c rest ih =>
      rw [List.cons_append, List.isChain_cons_cons] at h
      exact Relation.TransGen.head h.1 (ih h.2)

/-- From an accessible element no cycle can be reached. -/
theorem not_transGen_of_acc
    {a u : α}
    (ha : Acc (fun y x => r x y) a)
    (hu : Relation.ReflTransGen r a u) :
    ¬ Relation.TransGen r u u := by
  have hacc : Acc (fun y x => r x y) u := by
    induction hu with
    | refl => exact ha
    | tail _ hstep ih => exact ih.inv hstep
  intro hcycle
  have hswap : Relation.TransGen (fun y x => r x y) u u :=
    Relation.transGen_swap.2 hcycle
  have hirrefl : ∀ x, Acc (Relation.TransGen fun y x => r x y) x →
      ¬ Relation.TransGen (fun y x => r x y) x x := by
    intro x hx
    induction hx with
    | intro x _ ih => exact fun h => ih x h h
  exact hirrefl u hacc.transGen hswap

end Chains

theorem CycleAt.transGen
    {graph : Graph}
    {node : String}
    {path : List String}
    (h : graph.CycleAt node path) :
    Relation.TransGen graph.Edge node node := by
  obtain ⟨rest, rfl, -, hchain⟩ := h
  exact transGen_of_isChain hchain

/-- A node after all of its listed successors. -/
theorem Sorted.snoc
    {graph : Graph}
    {l : List String}
    {node : String}
    (h : graph.Sorted l)
    (hn : ∀ b, graph.Edge node b → graph.Listed b → b ∈ l) :
    graph.Sorted (l ++ [node]) := by
  intro before n after he b hedge hb
  rcases List.eq_nil_or_concat after with rfl | ⟨after', z, rfl⟩
  · obtain ⟨rfl, hlast⟩ := List.append_inj' he rfl
    cases hlast
    exact hn b hedge hb
  · rw [List.concat_eq_append, ← List.cons_append, ← List.append_assoc] at he
    obtain ⟨rfl, -⟩ := List.append_inj' he rfl
    exact h before n after' rfl b hedge hb

theorem acc_of_not_listed
    {graph : Graph}
    {node : String}
    (h : ¬ graph.Listed node) :
    Acc (fun b a => graph.Edge a b) node := by
  refine Acc.intro node ?_
  rintro b ⟨next, hnext, -⟩
  exact absurd ⟨next, hnext⟩ h

/-- From a node of a sorted list no link leads on for ever. -/
theorem Sorted.acc
    {graph : Graph}
    {l : List String}
    (h : graph.Sorted l)
    {node : String}
    (hn : node ∈ l) :
    Acc (fun b a => graph.Edge a b) node := by
  -- strong induction on the number of nodes before it
  obtain ⟨before, after, he⟩ := List.append_of_mem hn
  induction hk : before.length using Nat.strong_induction_on generalizing node before after with
  | _ k ih =>
      refine Acc.intro node ?_
      intro b hedge
      by_cases hb : graph.Listed b
      · have hmem := h before node after he b hedge hb
        obtain ⟨before', after', rfl⟩ := List.append_of_mem hmem
        refine ih before'.length ?_ (by simp [he]) before' (after' ++ node :: after) ?_ rfl
        · rw [← hk]
          simp
        · simpa using he
      · exact acc_of_not_listed hb

/-- What the visits in progress, innermost first, still have to follow: each successor of a visit is
done, or remains, or is the node of a visit further in. -/
def Waiting (graph : Graph) (done : List String) : (inner : List String) → List Visit → Prop
  | _, [] => True
  | inner, v :: outer =>
      (∃ next, graph.lookup v.node = some next ∧ (∀ b ∈ v.remaining, b ∈ next) ∧
        ∀ b ∈ next, graph.Listed b → b ∈ v.remaining ∨ b ∈ done ∨ b ∈ inner) ∧
      Waiting graph done (v.node :: inner) outer

theorem Waiting.mono
    {graph : Graph}
    {done done' : List String}
    {visits : List Visit}
    {inner inner' : List String}
    (h : graph.Waiting done inner visits)
    (hsub : ∀ b, b ∈ done ∨ b ∈ inner → b ∈ done' ∨ b ∈ inner') :
    graph.Waiting done' inner' visits := by
  induction visits generalizing inner inner' with
  | nil => trivial
  | cons v outer ih =>
      obtain ⟨⟨next, hnext, hrem, hall⟩, hrest⟩ := h
      refine ⟨⟨next, hnext, hrem, ?_⟩, ih hrest ?_⟩
      · intro b hb hlisted
        rcases hall b hb hlisted with hb | hb
        · exact Or.inl hb
        · exact Or.inr (hsub b hb)
      · intro b hb
        simp only [List.mem_cons] at hb ⊢
        rcases hb with hb | hb | hb
        · exact (hsub b (Or.inl hb)).imp_right Or.inr
        · exact Or.inr (Or.inl hb)
        · exact (hsub b (Or.inr hb)).imp_right Or.inr

/-- What holds between two steps of a depth-first traversal. -/
structure Visiting (graph unseen : Graph) (done : List String) (visits : List Visit) : Prop where
  left : graph.Left (done ++ visits.map Visit.node) unseen
  nodup : (done ++ visits.map Visit.node).Nodup
  listed : ∀ node ∈ done, graph.Listed node
  sorted : graph.Sorted done
  linked : (visits.map Visit.node).IsChain fun inner outer => graph.Edge outer inner
  waiting : graph.Waiting done [] visits

namespace Visiting

variable {graph unseen : Graph} {done : List String} {visits : List Visit}

theorem start
    (graph : Graph) :
    graph.Visiting graph [] [] where
  left := Nodes.Left.start graph
  nodup := List.nodup_nil
  listed := by simp
  sorted := by simp [Sorted]
  linked := List.IsChain.nil
  waiting := trivial

/-- A new start is visited when no visit is in progress. -/
theorem enter
    {node : String}
    {next : List String}
    (h : graph.Visiting unseen done [])
    (hn : unseen.lookup node = some next) :
    graph.Visiting (Nodes.without unseen node) done [⟨node, next⟩] := by
  obtain ⟨hnew, hlook⟩ := h.left.lookup_eq_some hn
  simp only [List.map_nil, List.append_nil] at hnew
  refine ⟨?_, ?_, h.listed, h.sorted, List.IsChain.singleton _, ?_⟩
  · exact h.left.visit (by simp [or_comm])
  · refine List.nodup_append.2 ⟨by simpa using h.nodup, List.nodup_singleton _, ?_⟩
    rintro a ha b hb rfl
    have he : a = node := by simpa using hb
    exact hnew (he ▸ ha)
  · exact ⟨⟨next, hlook, fun b hb => hb, fun b hb _ => Or.inl hb⟩, trivial⟩

/-- A visit with nothing left to follow is done. -/
theorem leave
    {node : String}
    (h : graph.Visiting unseen done (⟨node, []⟩ :: visits)) :
    graph.Visiting unseen (done ++ [node]) visits := by
  obtain ⟨⟨next, hnext, -, hall⟩, hwait⟩ := h.waiting
  refine ⟨?_, ?_, ?_, ?_, h.linked.tail, ?_⟩
  · simpa using h.left
  · simpa using h.nodup
  · intro n hn
    rcases List.mem_append.1 hn with hn | hn
    · exact h.listed n hn
    · rw [List.mem_singleton.1 hn]
      exact ⟨next, hnext⟩
  · refine h.sorted.snoc ?_
    rintro b ⟨next', hnext', hb⟩ hlisted
    rw [hnext] at hnext'
    cases hnext'
    simpa using hall b hb hlisted
  · refine hwait.mono ?_
    intro b hb
    simpa using hb

/-- A successor that is not listed, or that is done, is passed over. -/
theorem skip
    {node next : String}
    {remaining : List String}
    (h : graph.Visiting unseen done (⟨node, next :: remaining⟩ :: visits))
    (hn : graph.Listed next → next ∈ done) :
    graph.Visiting unseen done (⟨node, remaining⟩ :: visits) := by
  obtain ⟨⟨succs, hsuccs, hrem, hall⟩, hwait⟩ := h.waiting
  refine ⟨h.left, h.nodup, h.listed, h.sorted, h.linked, ⟨succs, hsuccs, ?_, ?_⟩, hwait⟩
  · exact fun b hb => hrem b (List.mem_cons_of_mem _ hb)
  · intro b hb hlisted
    rcases hall b hb hlisted with hmem | hmem
    · rcases List.mem_cons.1 hmem with rfl | hmem
      · exact Or.inr (Or.inl (hn hlisted))
      · exact Or.inl hmem
    · exact Or.inr hmem

/-- A successor that is neither left nor being visited is done if it is listed. -/
theorem done_of_left
    {node next : String}
    {remaining : List String}
    (h : graph.Visiting unseen done (⟨node, next :: remaining⟩ :: visits))
    (hnew : next ∉ node :: visits.map Visit.node)
    (hn : unseen.lookup next = none)
    (hlisted : graph.Listed next) :
    next ∈ done := by
  obtain ⟨successors, hsome⟩ := hlisted
  rcases h.left.lookup_eq_none hn with hmem | hlook
  · rcases List.mem_append.1 hmem with hmem | hmem
    · exact hmem
    · exact absurd hmem hnew
  · simp [hlook] at hsome

theorem edge
    {node next : String}
    {remaining : List String}
    (h : graph.Visiting unseen done (⟨node, next :: remaining⟩ :: visits)) :
    graph.Edge node next := by
  obtain ⟨⟨succs, hsuccs, hrem, -⟩, -⟩ := h.waiting
  exact ⟨succs, hsuccs, hrem next (by simp)⟩

/-- A new successor is visited inside the visit of its node. -/
theorem descend
    {node next : String}
    {remaining successors : List String}
    (h : graph.Visiting unseen done (⟨node, next :: remaining⟩ :: visits))
    (hn : unseen.lookup next = some successors) :
    graph.Visiting (Nodes.without unseen next) done
      (⟨next, successors⟩ :: ⟨node, remaining⟩ :: visits) := by
  obtain ⟨hnew, hlook⟩ := h.left.lookup_eq_some hn
  have hedge := h.edge
  obtain ⟨⟨succs, hsuccs, hrem, hall⟩, hwait⟩ := h.waiting
  refine ⟨?_, ?_, h.listed, h.sorted, ?_, ?_, ⟨succs, hsuccs, ?_, ?_⟩, ?_⟩
  · refine h.left.visit ?_
    intro n
    simp only [List.map_cons, List.mem_append, List.mem_cons]
    tauto
  · simp only [List.map_cons] at hnew ⊢
    rw [List.perm_middle.nodup_iff]
    exact List.nodup_cons.2 ⟨hnew, h.nodup⟩
  · exact List.isChain_cons_cons.2 ⟨hedge, h.linked⟩
  · exact ⟨successors, hlook, fun b hb => hb, fun b hb _ => Or.inl hb⟩
  · exact fun b hb => hrem b (List.mem_cons_of_mem _ hb)
  · intro b hb hlisted
    rcases hall b hb hlisted with hmem | hmem | hmem
    · rcases List.mem_cons.1 hmem with rfl | hmem
      · exact Or.inr (Or.inr (by simp))
      · exact Or.inl hmem
    · exact Or.inr (Or.inl hmem)
    · simp at hmem
  · refine hwait.mono ?_
    intro b hb
    simp only [List.mem_cons, List.not_mem_nil, or_false] at hb ⊢
    tauto

/-- A successor whose visit is in progress closes a cycle. -/
theorem cycleAt
    {node next : String}
    {remaining : List String}
    (h : graph.Visiting unseen done (⟨node, next :: remaining⟩ :: visits))
    (hn : next ∈ node :: visits.map Visit.node) :
    graph.CycleAt next (cyclePath (⟨node, remaining⟩ :: visits) next) := by
  have hedge := h.edge
  have hchain : (node :: visits.map Visit.node).reverse.IsChain graph.Edge :=
    List.isChain_reverse.2 h.linked
  have hnodup : (node :: visits.map Visit.node).reverse.Nodup :=
    List.nodup_reverse.2 (List.nodup_append.1 h.nodup).2.1
  obtain ⟨before, after, he⟩ := List.append_of_mem (List.mem_reverse.2 hn)
  have hdrop : (node :: visits.map Visit.node).reverse.dropWhile (· != next) = next :: after := by
    rw [he] at hnodup ⊢
    have hbefore : ∀ a ∈ before, (a != next) = true := by
      intro a ha
      have hne := (List.nodup_append.1 hnodup).2.2 a ha next (by simp)
      simpa using hne
    rw [List.dropWhile_append_of_pos hbefore]
    simp
  have hlast : (next :: after).getLast? = some node := by
    have hl : (node :: visits.map Visit.node).reverse.getLast? = some node := by simp
    rw [he, List.getLast?_append] at hl
    simpa using hl
  refine ⟨after, ?_, ?_, ?_⟩
  · rw [cyclePath, List.map_cons, hdrop]
    simp
  · rw [he] at hnodup
    exact (List.nodup_append.1 hnodup).2.1
  · rw [cyclePath, List.map_cons, hdrop]
    rw [he] at hchain
    refine List.isChain_append.2 ⟨hchain.right_of_append, List.IsChain.singleton _, ?_⟩
    intro a ha b hb
    rw [hlast] at ha
    cases ha
    cases hb
    exact hedge

end Visiting

/-- The outcome of a depth-first traversal from one of its states on. -/
def Traversed (graph : Graph) (done : List String) (visits : List Visit) (starts : List String) :
    Except (List String) (List String) → Prop
  | .ok l =>
      (∃ unseen, graph.Visiting unseen l []) ∧
        (∀ node, node ∈ done ∨ node ∈ visits.map Visit.node → node ∈ l) ∧
        ∀ start ∈ starts, graph.Listed start → start ∈ l
  | .error path =>
      ∃ node, graph.CycleAt node path ∧
        ∃ start, (start ∈ visits.map Visit.node ∨ start ∈ starts) ∧ graph.Reaches start node

/-- An outcome belongs to an earlier state too when the later one has lost nothing and was led to
from there. -/
theorem Traversed.of_later
    {graph : Graph}
    {done done' : List String}
    {visits visits' : List Visit}
    {starts starts' : List String}
    {result : Except (List String) (List String)}
    (h : graph.Traversed done' visits' starts' result)
    (hseen : ∀ node, node ∈ done ∨ node ∈ visits.map Visit.node →
      node ∈ done' ∨ node ∈ visits'.map Visit.node)
    (hstarts : ∀ start ∈ starts, graph.Listed start →
      start ∈ starts' ∨ start ∈ done' ∨ start ∈ visits'.map Visit.node)
    (hled : ∀ node, node ∈ visits'.map Visit.node ∨ node ∈ starts' →
      ∃ start, (start ∈ visits.map Visit.node ∨ start ∈ starts) ∧ graph.Reaches start node) :
    graph.Traversed done visits starts result := by
  cases result with
  | ok l =>
      obtain ⟨hend, hall, hlast⟩ := h
      refine ⟨hend, fun node hn => hall node (hseen node hn), ?_⟩
      intro start hs hlisted
      rcases hstarts start hs hlisted with hs | hs
      · exact hlast start hs hlisted
      · exact hall start hs
  | error path =>
      obtain ⟨node, hcycle, later, hlater, hr⟩ := h
      obtain ⟨start, hstart, hr'⟩ := hled later hlater
      exact ⟨node, hcycle, start, hstart, hr'.trans hr⟩

/-- A traversal that ends has every node after its listed successors, and one that fails has found
the path of a cycle. -/
theorem orderFrom_traversed
    {graph unseen : Graph}
    {done : List String}
    {visits : List Visit}
    (starts : List String)
    (hv : graph.Visiting unseen done visits) :
    graph.Traversed done visits starts (orderFrom unseen done visits starts) := by
  induction unseen, done, visits, starts using orderFrom.induct with
  | case1 unseen done =>
      rw [orderFrom]
      exact ⟨⟨unseen, hv⟩, by simp, by simp⟩
  | case2 unseen done start starts hnone ih =>
      rw [orderFrom_pass hnone]
      refine (ih hv).of_later (fun _ hn => hn) ?_ ?_
      · intro s hs hlisted
        rcases List.mem_cons.1 hs with rfl | hs
        · obtain ⟨next, hnext⟩ := hlisted
          rcases hv.left.lookup_eq_none hnone with hmem | hlook
          · exact Or.inr (by simpa using hmem)
          · simp [hlook] at hnext
        · exact Or.inl hs
      · intro node hn
        exact ⟨node, hn.imp_right (List.mem_cons_of_mem _), Relation.ReflTransGen.refl⟩
  | case3 unseen done start starts next hsome ih =>
      rw [orderFrom_enter hsome]
      refine (ih (hv.enter hsome)).of_later ?_ ?_ ?_
      · intro node hn
        simpa using hn.imp_right fun hn => absurd hn List.not_mem_nil
      · intro s hs _
        rcases List.mem_cons.1 hs with rfl | hs
        · exact Or.inr (Or.inr (by simp))
        · exact Or.inl hs
      · intro node hn
        refine ⟨node, Or.inr ?_, Relation.ReflTransGen.refl⟩
        simpa using hn
  | case4 unseen done node visits starts ih =>
      rw [orderFrom]
      refine (ih hv.leave).of_later ?_ (fun s hs _ => Or.inl hs) ?_
      · intro n hn
        simp only [List.map_cons, List.mem_cons, List.mem_append, List.not_mem_nil, or_false] at hn ⊢
        tauto
      · intro n hn
        exact ⟨n, hn.imp_left (List.mem_cons_of_mem _), Relation.ReflTransGen.refl⟩
  | case5 unseen done node next remaining visits starts hcycle =>
      have hmem : next ∈ node :: visits.map Visit.node := by simpa using hcycle
      rw [orderFrom_cycle hmem]
      exact ⟨next, hv.cycleAt hmem, next, Or.inl hmem, Relation.ReflTransGen.refl⟩
  | case6 unseen done node next remaining visits starts hcycle hnone ih =>
      have hnew : next ∉ node :: visits.map Visit.node := by simpa using hcycle
      rw [orderFrom_skip hnew hnone]
      refine (ih (hv.skip (hv.done_of_left hnew hnone))).of_later (fun _ hn => hn)
        (fun s hs _ => Or.inl hs) ?_
      exact fun n hn => ⟨n, hn, Relation.ReflTransGen.refl⟩
  | case7 unseen done node next remaining visits starts hcycle successors hsome ih =>
      have hnew : next ∉ node :: visits.map Visit.node := by simpa using hcycle
      rw [orderFrom_descend hnew hsome]
      refine (ih (hv.descend hsome)).of_later ?_ (fun s hs _ => Or.inl hs) ?_
      · intro n hn
        simp only [List.map_cons, List.mem_cons] at hn ⊢
        tauto
      · rintro n (hn | hn)
        · rcases List.mem_cons.1 hn with rfl | hn
          · exact ⟨node, Or.inl (by simp), Relation.ReflTransGen.single hv.edge⟩
          · exact ⟨n, Or.inl hn, Relation.ReflTransGen.refl⟩
        · exact ⟨n, Or.inr hn, Relation.ReflTransGen.refl⟩

/-- An order has every node once, after its listed successors, and every listed start. -/
theorem order_ok
    {graph : Graph}
    {starts l : List String}
    (h : graph.order starts = .ok l) :
    l.Nodup ∧ graph.Sorted l ∧ (∀ node ∈ l, graph.Listed node) ∧
      ∀ start ∈ starts, graph.Listed start → start ∈ l := by
  have ht := orderFrom_traversed starts (Visiting.start graph)
  rw [← order, h] at ht
  obtain ⟨⟨unseen, hend⟩, -, hstarts⟩ := ht
  exact ⟨by simpa using hend.nodup, hend.sorted, hend.listed, hstarts⟩

/-- An error is the path of a cycle that one of the starts leads to. -/
theorem order_error
    {graph : Graph}
    {starts path : List String}
    (h : graph.order starts = .error path) :
    ∃ node, graph.CycleAt node path ∧ ∃ start ∈ starts, graph.Reaches start node := by
  have ht := orderFrom_traversed starts (Visiting.start graph)
  rw [← order, h] at ht
  obtain ⟨node, hcycle, start, hstart, hr⟩ := ht
  refine ⟨node, hcycle, start, ?_, hr⟩
  simpa using hstart

/-- There is an order exactly when the starts lead to no cycle. -/
theorem order_eq_ok_iff
    (graph : Graph)
    (starts : List String) :
    (∃ l, graph.order starts = .ok l) ↔
      ∀ start ∈ starts, ∀ node, graph.Reaches start node →
        ¬ Relation.TransGen graph.Edge node node := by
  constructor
  · rintro ⟨l, h⟩ start hstart node hr
    obtain ⟨-, hsorted, -, hstarts⟩ := order_ok h
    by_cases hlisted : graph.Listed start
    · exact not_transGen_of_acc (hsorted.acc (hstarts start hstart hlisted)) hr
    · exact not_transGen_of_acc (acc_of_not_listed hlisted) hr
  · intro h
    cases ho : graph.order starts with
    | ok l => exact ⟨l, rfl⟩
    | error path =>
        obtain ⟨node, hcycle, start, hstart, hr⟩ := order_error ho
        exact absurd hcycle.transGen (h start hstart node hr)

end Graph
end TypeGraph
