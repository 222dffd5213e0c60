import Mathlib
import StackFlow.Proofs.Predecessors

/-!
Graphs made of lists of successors. Read as tables, the lists of neighbours say the same
edges in both directions: a node is listed before another as often as it lists the other
(`count_before`). If no successor is listed twice, the predecessors are in ascending order
(`before_ascending`). The edges can be counted from either end (`edgeCount_eq_out`,
`edgeCount_eq_in`).
-/
namespace StackFlow.Digraph

open Finset

/-- The successors of a node; a number that is no node has none. -/
def next (g : Digraph) (a : Nat) : List Nat := g.succ[a]?.getD []

/-- The predecessors of a node; a number that is no node has none. -/
def before (g : Digraph) (b : Nat) : List Nat := g.pred[b]?.getD []

variable {succ : Array (List Nat)} {g : Digraph} {a b : Nat}

theorem successors_of_lt (inside : a < g.nodeCount) : g.successors a = .ok (g.next a) := by
  have bound : a < g.succ.size := inside
  rw [successors, fetch_of_lt bound, next, Array.getElem?_eq_getElem bound, Option.getD_some]

theorem predecessors_of_lt (inside : b < g.nodeCount) : g.predecessors b = .ok (g.before b) := by
  have bound : b < g.pred.size := g.same_size ▸ inside
  rw [predecessors, fetch_of_lt bound, before, Array.getElem?_eq_getElem bound, Option.getD_some]

theorem before_of_le (outside : g.nodeCount ≤ b) : g.before b = [] := by
  have bound : g.pred.size ≤ b := g.same_size ▸ outside
  rw [before, Array.getElem?_eq_none bound, Option.getD_none]

theorem mem_next : b ∈ g.next a ↔ g.Edge a b := by
  rw [edge_iff, next]
  cases g.succ[a]? <;> simp

theorem lt_of_mem_next (member : b ∈ g.next a) : a < g.nodeCount := by
  obtain ⟨row, listed, _⟩ := edge_iff.mp (mem_next.mp member)
  exact (Array.getElem?_eq_some_iff.mp listed).1

variable (built : ofSuccessors succ = .ok g)

include built

theorem nodeCount_of_built : g.nodeCount = succ.size := by
  rw [nodeCount, (ofSuccessors_eq_ok built).1]

theorem lt_of_edge (edge : g.Edge a b) : b < g.nodeCount :=
  nodeCount_of_built built ▸ (ofSuccessors_eq_ok built).2.2 a b edge

theorem before_of_lt (inside : b < g.nodeCount) : g.before b = noted succ.toList.zipIdx b := by
  have listed := (predecessors_eq_ok built).mpr ⟨nodeCount_of_built built ▸ inside, rfl⟩
  exact Except.ok.inj ((predecessors_of_lt inside).symm.trans listed)

/-- An edge is listed as often at its one end as at the other. -/
theorem count_before (a b : Nat) : (g.before b).count a = (g.next a).count b := by
  by_cases inside : b < g.nodeCount
  · rw [before_of_lt built inside, count_noted, if_pos (Nat.zero_le a), Nat.sub_zero, Array.getElem?_toList, next,
      (ofSuccessors_eq_ok built).1]
  · have unlisted : b ∉ g.next a := fun member => inside (lt_of_edge built (mem_next.mp member))
    rw [before_of_le (Nat.le_of_not_lt inside), List.count_nil, List.count_eq_zero.mpr unlisted]

theorem mem_before : a ∈ g.before b ↔ g.Edge a b := by
  rw [← List.count_pos_iff, count_before built, List.count_pos_iff, mem_next]

/-- The rows come in the order of their nodes, so each list of predecessors does as well. -/
theorem before_ascending (distinct : ∀ a, (g.next a).Nodup) : (g.before b).Pairwise (· < ·) := by
  by_cases inside : b < g.nodeCount
  · have ordered : (succ.toList.zipIdx.map Prod.snd).Pairwise (· < ·) := by
      rw [List.zipIdx_map_snd]
      exact List.pairwise_lt_range'
    rw [before_of_lt built inside, noted, List.pairwise_flatMap]
    constructor
    · rintro ⟨row, a⟩ listed
      rw [List.mk_mem_zipIdx_iff_getElem?, Array.getElem?_toList] at listed
      have same : g.next a = row := by rw [next, (ofSuccessors_eq_ok built).1, listed, Option.getD_some]
      exact List.pairwise_replicate.mpr (.inl (List.nodup_iff_count_le_one.mp (same ▸ distinct a) b))
    · refine (List.pairwise_map.mp ordered).imp fun {x y} less p first q second => ?_
      rw [List.eq_of_mem_replicate first, List.eq_of_mem_replicate second]
      exact less
  · rw [before_of_le (Nat.le_of_not_lt inside)]
    exact List.Pairwise.nil

omit built in
theorem foldl_length_eq (rows : List (List Nat)) (start : Nat) :
    rows.foldl (fun count row => count + row.length) start =
      start + ∑ a ∈ range rows.length, (rows[a]?.getD []).length := by
  induction rows generalizing start with
  | nil => rfl
  | cons row rest ih =>
    rw [List.foldl_cons, ih, List.length_cons, sum_range_succ', Nat.add_assoc, Nat.add_comm row.length]
    rfl

/-- Every edge starts somewhere. -/
theorem edgeCount_eq_out : g.edgeCount = ∑ a ∈ range g.nodeCount, (g.next a).length := by
  obtain ⟨pred, _, made⟩ := bind_eq_ok.mp built
  cases made
  simp only [nodeCount, next, ← Array.getElem?_toList]
  exact (foldl_length_eq succ.toList 0).trans (Nat.zero_add _)

omit built in
theorem sum_count_eq_length {xs : List Nat} {s : Finset Nat} (inside : ∀ x ∈ xs, x ∈ s) :
    ∑ x ∈ s, xs.count x = xs.length := by
  have counted := Multiset.sum_count_eq_card fun x (member : x ∈ (xs : Multiset Nat)) => inside x member
  simpa using counted

/-- Every edge ends somewhere. -/
theorem edgeCount_eq_in : g.edgeCount = ∑ b ∈ range g.nodeCount, (g.before b).length := by
  have out : ∀ a, ∑ b ∈ range g.nodeCount, (g.next a).count b = (g.next a).length := fun a =>
    sum_count_eq_length fun b member => mem_range.mpr (lt_of_edge built (mem_next.mp member))
  have into : ∀ b, ∑ a ∈ range g.nodeCount, (g.before b).count a = (g.before b).length := fun b =>
    sum_count_eq_length fun a member => mem_range.mpr (lt_of_mem_next (mem_next.mpr ((mem_before built).mp member)))
  calc g.edgeCount = ∑ a ∈ range g.nodeCount, (g.next a).length := edgeCount_eq_out built
    _ = ∑ a ∈ range g.nodeCount, ∑ b ∈ range g.nodeCount, (g.next a).count b := sum_congr rfl fun a _ => (out a).symm
    _ = ∑ b ∈ range g.nodeCount, ∑ a ∈ range g.nodeCount, (g.next a).count b := sum_comm
    _ = ∑ b ∈ range g.nodeCount, ∑ a ∈ range g.nodeCount, (g.before b).count a :=
      sum_congr rfl fun b _ => sum_congr rfl fun a _ => (count_before built a b).symm
    _ = ∑ b ∈ range g.nodeCount, (g.before b).length := sum_congr rfl fun b _ => into b

end StackFlow.Digraph
