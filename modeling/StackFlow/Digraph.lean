import StackFlow.Error

/-!
Finite directed graphs on the numbers below their size, with the neighbours of each
node listed in both directions. Lists keep their order, because the order in which
neighbours are visited can be seen in results.
-/
namespace StackFlow

/-- Keeps the values that have not been seen before. -/
def keepNew (seen : List Nat) : List Nat → List Nat
  | [] => []
  | x :: rest => if seen.contains x then keepNew seen rest else x :: keepNew (seen ++ [x]) rest

/-- The list without later repeats. -/
def distinct (xs : List Nat) : List Nat := keepNew [] xs

theorem mem_keepNew {seen xs : List Nat} {y : Nat} : y ∈ keepNew seen xs ↔ y ∈ xs ∧ y ∉ seen := by
  induction xs generalizing seen with
  | nil => simp [keepNew]
  | cons x rest ih =>
    by_cases old : x ∈ seen
    · rw [keepNew, if_pos (List.contains_iff_mem.mpr old), ih, List.mem_cons]
      constructor
      · exact fun later => ⟨.inr later.1, later.2⟩
      · rintro ⟨rfl | later, fresh⟩
        · exact absurd old fresh
        · exact ⟨later, fresh⟩
    · rw [keepNew, if_neg (mt List.contains_iff_mem.mp old), List.mem_cons, List.mem_cons, ih]
      by_cases same : y = x
      · simp [same, old]
      · simp [same]

theorem nodup_keepNew (seen xs : List Nat) : (keepNew seen xs).Nodup := by
  induction xs generalizing seen with
  | nil => exact List.nodup_nil
  | cons x rest ih =>
    rw [keepNew]
    split
    · exact ih seen
    · exact List.nodup_cons.mpr ⟨by simp [mem_keepNew], ih _⟩

theorem mem_distinct {xs : List Nat} {y : Nat} : y ∈ distinct xs ↔ y ∈ xs := by
  simp [distinct, mem_keepNew]

theorem nodup_distinct (xs : List Nat) : (distinct xs).Nodup := nodup_keepNew [] xs

structure Digraph where
  succ : Array (List Nat)
  pred : Array (List Nat)
  /-- The number of edges, from which budgets are computed. -/
  edgeCount : Nat
  same_size : pred.size = succ.size

namespace Digraph

def nodeCount (g : Digraph) : Nat := g.succ.size

def successors (g : Digraph) (node : Nat) : Result (List Nat) := fetch g.succ node

def predecessors (g : Digraph) (node : Nat) : Result (List Nat) := fetch g.pred node

/-- Appends `a` to the predecessors of `b`, which has to be a node. -/
def addSource {count : Nat} (a : Nat) (pred : Vector (List Nat) count) (b : Nat) : Result (Vector (List Nat) count) :=
  if inside : b < count then .ok (pred.set b (pred[b] ++ [a])) else abort (.outOfRange b count)

/-- Appends the node of a row to the predecessors of all nodes that the row lists. -/
def addSources {count : Nat} (pred : Vector (List Nat) count) (row : List Nat × Nat) : Result (Vector (List Nat) count) :=
  row.1.foldlM (addSource row.2) pred

/-- For each node, those that list it as a successor, collected row by row. -/
def sources (succ : Array (List Nat)) : Result (Vector (List Nat) succ.size) :=
  succ.toList.zipIdx.foldlM addSources (Vector.replicate succ.size [])

/-- The graph with the given successors, all of which have to be nodes. -/
def ofSuccessors (succ : Array (List Nat)) : Result Digraph := do
  let pred ← sources succ
  let edgeCount := succ.toList.foldl (fun count row => count + row.length) 0
  return { succ, pred := pred.toArray, edgeCount, same_size := pred.size_toArray }

/-- The graph of a list of edges, repeats kept and in the given order. An edge end
    that is no node has no neighbours of its own. -/
def ofEdges (nodes : Nat) (edges : List (Nat × Nat)) : Digraph where
  succ := Array.ofFn fun a : Fin nodes => (edges.filter fun e => e.1 == a.val).map Prod.snd
  pred := Array.ofFn fun b : Fin nodes => (edges.filter fun e => e.2 == b.val).map Prod.fst
  edgeCount := edges.length
  same_size := by simp

end Digraph

end StackFlow
