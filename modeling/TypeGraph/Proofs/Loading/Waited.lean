import Mathlib.Data.List.Perm.Subperm
import TypeGraph.Proofs.Loading.Events

/-!
# Turns are used up

Every wave of dependencies uses up names of the resolver, so that a batch can have only so many turns, and
several batches together only so many times as many.

**Results.**
* `Batch.Waited.moves`, `Batch.Waited.length_le`: a batch cannot go on for ever.
* `Run.Waits.turn`, `Run.Waits.le`: nor can several.
-/

namespace TypeGraph

namespace Batch

/-- A batch has gone on for some waves: all but the first have used up names of the resolver, which
it will not ask for again. -/
def Waited (resolver : Resolver) : Nat → Batch → Prop
  | 0, _ => True
  | count + 1, b =>
      ∃ d, b.discovery = some d ∧ b.wave ≠ [] ∧
        ∃ past : List String, past.Nodup ∧ count ≤ past.length ∧
          ∀ name ∈ past, name ∈ resolver.names ∧ name ∈ d.requested ∧ name ∉ b.wave

section Waited

variable {resolver : Resolver} {limit : Option Number} {c : Catalog} {b next : Batch} {count : Nat}

/-- Going on uses up names. -/
theorem Waited.moves
    (h : b.Waited resolver count)
    (hb : b.Lawful (resolver.settle limit) c)
    (hm : b.Moves (resolver.settle limit) c next)
    (hw : next.wave ≠ []) :
    next.Waited resolver (count + 1) := by
  cases count with
  | zero =>
      obtain ⟨d, hd⟩ := hm.exists_discovery
      exact ⟨d, hd, hw, [], List.nodup_nil, by simp, by simp⟩
  | succ count =>
      obtain ⟨d, hd, hwave, past, hnodup, hcount, hpast⟩ := h
      obtain ⟨manifests, hans, ha⟩ := hm
      obtain ⟨hnames, rfl⟩ := (advance_some hans.length_eq hd).1 ha
      have hl := hb.learned d hd
      refine ⟨_, rfl, hw, past ++ b.wave, ?_, ?_, ?_⟩
      · refine List.nodup_append.2 ⟨hnodup, hb.wave_nodup, ?_⟩
        rintro a hp x hx rfl
        exact (hpast a hp).2.2 hx
      · have hpos := List.length_pos_of_ne_nil hwave
        rw [List.length_append]
        omega
      · intro name hname
        have hrequested : name ∈ d.requested := by
          rcases List.mem_append.1 hname with hp | hx
          · exact (hpast name hp).2.1
          · exact hl.wave_requested name hx
        refine ⟨?_, List.mem_append_left _ hrequested, ?_⟩
        · rcases List.mem_append.1 hname with hp | hx
          · exact (hpast name hp).1
          · rw [← hnames] at hx
            obtain ⟨m, hmem, rfl⟩ := List.mem_map.1 hx
            exact Resolver.mem_names_of_settle (answer_name_of_mem hans hnames hmem) rfl
        · exact fun hnew => (Discovery.mem_newNames_iff.1 hnew).2.1 hrequested

/-- A batch cannot have used up more names than there are. -/
theorem Waited.length_le
    (h : b.Waited resolver count) :
    count ≤ resolver.names.length + 1 := by
  cases count with
  | zero => omega
  | succ count =>
      obtain ⟨d, -, -, past, hnodup, hcount, hpast⟩ := h
      have hsub : past.Subperm resolver.names :=
        List.subperm_of_subset hnodup fun name hname => (hpast name hname).1
      have := hsub.length_le
      omega

end Waited
end Batch

namespace Run

/-- Some batches have had some number of turns together. -/
inductive Waits (resolver : Resolver) : List BatchState → Nat → Prop
  | nil :
      Waits resolver [] 0
  | ended {result : Except Failure (List Manifest)} {states : List BatchState} {count total : Nat} :
      count ≤ resolver.names.length + 2 →
      Waits resolver states total →
      Waits resolver (.ended result :: states) (count + total)
  | active {b : Batch} {states : List BatchState} {count total : Nat} :
      b.Waited resolver count →
      Waits resolver states total →
      Waits resolver (.active b :: states) (count + total)

section Waits

variable {resolver : Resolver} {limit : Option Number} {states : List BatchState} {total : Nat}

/-- There are at most so many turns. -/
theorem Waits.le
    (h : Waits resolver states total) :
    total ≤ states.length * (resolver.names.length + 2) := by
  induction h with
  | nil => simp
  | ended hcount _ ih =>
      rw [List.length_cons, Nat.succ_mul]
      omega
  | active hb _ ih =>
      have := hb.length_le
      rw [List.length_cons, Nat.succ_mul]
      omega

/-- A turn counts. -/
theorem Waits.turn
    {r r' : TypeRegistry}
    {b : Batch}
    {state : BatchState}
    (ht : Turn (resolver.settle limit) r b r' state)
    (hb : b.Lawful (resolver.settle limit) r.catalog)
    (h : Waits resolver states total)
    {i : Nat}
    (hi : states[i]? = some (.active b)) :
    Waits resolver (states.set i state) (total + 1) := by
  induction h generalizing i with
  | nil => simp at hi
  | @ended result states count total hcount _ ih =>
      cases i with
      | zero => simp at hi
      | succ i =>
          rw [List.set_cons_succ, Nat.add_assoc]
          exact .ended hcount (ih (by simpa using hi))
  | @active b' states count total hw hrest ih =>
      cases i with
      | succ i =>
          rw [List.set_cons_succ, Nat.add_assoc]
          exact .active hw (ih (by simpa using hi))
      | zero =>
          obtain rfl : b' = b := by simpa using hi
          rw [List.set_cons_zero, Nat.add_right_comm]
          cases state with
          | active next =>
              obtain ⟨rfl, hm, hwave⟩ := ht.active
              exact .active (hw.moves hb hm hwave) hrest
          | ended result =>
              have := hw.length_le
              exact .ended (by omega) hrest

/-- Before the first turn there was none. -/
theorem Waits.start
    (resolver : Resolver)
    (c : Catalog)
    (groups : List (List String)) :
    Waits resolver (groups.map fun identifiers => .active (.start c identifiers)) 0 := by
  induction groups with
  | nil => exact .nil
  | cons identifiers rest ih =>
      have hfirst : (Batch.start c identifiers).Waited resolver 0 := trivial
      exact .active hfirst ih

end Waits
end Run
end TypeGraph
