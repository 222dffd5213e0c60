import StackFlow.Routine.Basic

/-!
The skeleton of a routine: only the first instruction and those that touch a
variable, end a statement or transfer control are nodes. One node follows another
if the routine has a path between them that meets no further node. The analyses of
variables run on the skeleton, where long stretches of plain code cost nothing.
-/
namespace StackFlow

structure Skeleton where
  /-- The instruction of each node, ascending. -/
  nodes : Array Nat
  /-- The node of each instruction that has one. -/
  index : Array (Option Nat)
  flow : Digraph

namespace Skeleton

def isNode (index : Nat) (instr : Instr) : Bool :=
  index == 0 || instr.touches.isSome || instr.isBoundary || instr.isTransfer

/-- The nodes that have been found, and the number of each instruction that is one. -/
structure Numbering where
  nodes : Array Nat
  index : Array (Option Nat)

/-- Gives the next number to an instruction that is a node. -/
def Numbering.visit (numbered : Numbering) (placed : Instr × Nat) : Result Numbering := do
  if isNode placed.2 placed.1 then
    let index ← replace numbered.index placed.2 (some numbered.nodes.size)
    return { nodes := numbered.nodes.push placed.2, index }
  else return numbered

/-- Numbers the nodes of a routine in the order of its code. -/
def numbering (r : Routine) : Result Numbering :=
  r.code.toList.zipIdx.foldlM Numbering.visit ⟨#[], Array.replicate r.size none⟩

/-- What the searches from one node after the other share: marks on the instructions seen
    in the search at hand, and a list of these instructions. -/
structure Scratch where
  seen : Array Bool
  touched : Array Nat

namespace Scratch

/-- Nothing has been seen of `count` instructions. -/
def fresh (count : Nat) : Scratch := ⟨Array.replicate count false, #[]⟩

/-- Notes that an instruction has been seen. -/
def mark (s : Scratch) (i : Nat) (inside : i < s.seen.size) : Scratch := ⟨s.seen.set i true, s.touched.push i⟩

/-- Takes back the marks on all that has been touched. -/
def clear (s : Scratch) : Result Scratch := do
  return ⟨← s.touched.toList.foldlM (fun seen i => replace seen i false) s.seen, #[]⟩

end Scratch

theorem count_set_true {seen : Array Bool} {i : Nat} (inside : i < seen.size) (fresh : seen[i] = false) :
    (seen.set i true).count false < seen.count false := by
  have some : 0 < seen.count false := Array.count_pos_iff.mpr (fresh ▸ Array.getElem_mem inside)
  rw [Array.count_set, fresh]
  change seen.count false - 1 + 0 < seen.count false
  omega

/-- Adds to `found` the nodes that the instructions of `stack` reach without passing
    through a node, depth first. Instructions already seen are not entered again. -/
def search (r : Routine) (index : Array (Option Nat)) (stack : List Nat) (scratch : Scratch) (found : List Nat) :
    Result (List Nat × Scratch) :=
  match stack with
  | [] => .ok (found, scratch)
  | current :: rest =>
    match fetch index current with
    | .error e => .error e
    | .ok (some node) => search r index rest scratch (if found.contains node then found else found ++ [node])
    | .ok none =>
      if inside : current < scratch.seen.size then
        if fresh : scratch.seen[current] = false then
          match r.flow.successors current with
          | .error e => .error e
          | .ok next => search r index (next ++ rest) (scratch.mark current inside) found
        else search r index rest scratch found
      else abort (.outOfRange current scratch.seen.size)
termination_by (scratch.seen.count false, stack.length)
decreasing_by
  · exact Prod.Lex.right _ (by simp)
  · exact Prod.Lex.left _ _ (count_set_true inside fresh)
  · exact Prod.Lex.right _ (by simp)

/-- The nodes that follow the one at instruction `origin`. The marks that the search has
    made are taken back at its end. -/
def successorsOf (r : Routine) (index : Array (Option Nat)) (scratch : Scratch) (origin : Nat) :
    Result (List Nat × Scratch) := do
  let first ← r.flow.successors origin
  let (found, scratch) ← search r index first scratch []
  return (found, ← scratch.clear)

/-- Appends the successors of one more node. -/
def addRow (r : Routine) (index : Array (Option Nat)) (state : Array (List Nat) × Scratch) (origin : Nat) :
    Result (Array (List Nat) × Scratch) := do
  let (found, scratch) ← successorsOf r index state.2 origin
  return (state.1.push found, scratch)

/-- The successors of each node, found by one search after the other. -/
def successorRows (r : Routine) (index : Array (Option Nat)) (nodes : List Nat) : Result (Array (List Nat)) := do
  return (← nodes.foldlM (addRow r index) (#[], Scratch.fresh r.size)).1

def ofRoutine (r : Routine) : Result Skeleton := do
  let numbered ← numbering r
  let succ ← successorRows r numbered.index numbered.nodes.toList
  let flow ← Digraph.ofSuccessors succ
  return { nodes := numbered.nodes, index := numbered.index, flow }

def size (s : Skeleton) : Nat := s.nodes.size

/-- The instruction of a node. -/
def instruction (s : Skeleton) (node : Nat) : Result Nat := fetch s.nodes node

/-- The node of an instruction, if it is one. -/
def node? (s : Skeleton) (index : Nat) : Option Nat := s.index[index]?.join

end Skeleton

end StackFlow
