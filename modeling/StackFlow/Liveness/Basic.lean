import StackFlow.Routine.Skeleton
import StackFlow.Scope.Chain
import StackFlow.Worklist.Basic

/-!
Live variables at statement boundaries. A variable is live where some way to an exit
reads it before it is overwritten; reading a field reads all that hold it, and
writing a variable overwrites its fields. Sets of variables go backwards from the
exits over the skeleton of the routine, and what arrives at a boundary is united.
-/
namespace StackFlow

open Worklist

/-- The live variables at each boundary from which an exit can be reached, in
    ascending order of the boundaries. -/
structure LiveSets where
  entries : List (Nat × BitSet)
  deriving DecidableEq

namespace LiveSets

def at? (live : LiveSets) (boundary : Nat) : Option BitSet := live.entries.lookup boundary

end LiveSets

/-- A routine with its skeleton, ready for the analysis of its variables. -/
structure Liveness where
  routine : Routine
  skeleton : Skeleton

namespace Liveness

def ofRoutine (r : Routine) : Result Liveness := do return ⟨r, ← Skeleton.ofRoutine r⟩

/-- The instruction at a node. -/
def instr (a : Liveness) (node : Nat) : Result Instr := do a.routine.instr (← a.skeleton.instruction node)

/-- How many variables there are. -/
def width (a : Liveness) : Nat := a.routine.scope.size

/-- For each variable, what its being read makes live. -/
def readMasks (scope : Scope) : Result (Array BitSet) := do
  return (← (scope.vars.toList.map Variable.id).mapM fun v => BitSet.ofIndices scope.size (scope.chain v)).toArray

/-- Makes sure of the mask of a slot that a node returns over. -/
def noteSlot (a : Liveness) (masks : Std.HashMap UInt16 BitSet) (node : Nat) : Result (Std.HashMap UInt16 BitSet) := do
  match ← a.instr node with
  | .ret slot =>
    if masks.contains slot then return masks
    else return masks.insert slot (← BitSet.ofIndices a.width (a.routine.scope.slotVariables slot))
  | _ => return masks

/-- For each slot that some node returns over, what the return makes live. -/
def slotMasks (a : Liveness) : Result (Std.HashMap UInt16 BitSet) :=
  (List.range a.skeleton.size).foldlM a.noteSlot ∅

/-- What the instructions do to sets of live variables. -/
structure Masks where
  kill : Array BitSet
  read : Array BitSet
  slot : Std.HashMap UInt16 BitSet

def masks (a : Liveness) : Result Masks := do
  return { kill := ← a.routine.scope.killMasks, read := ← readMasks a.routine.scope, slot := ← a.slotMasks }

/-- The set with all variables of a mask. A set that has them already is kept. -/
def withMask (live mask : BitSet) : Result BitSet := do
  if ← mask.subset live then return live else return (← live.union mask).1

/-- The set without the variables of a mask. A set that has none of them is kept. -/
def withoutMask (live mask : BitSet) : Result BitSet := do
  let (rest, changed) ← live.difference mask
  return if changed then rest else live

/-- The variables live before an access to some, from those live after it. -/
def Masks.before (masks : Masks) (instr : Instr) (after : BitSet) : Result BitSet := do
  match instr with
  | .store v | .discard v => withoutMask after (← fetch masks.kill v)
  | .load v => withMask after (← fetch masks.read v)
  | .ret slot =>
    match masks.slot[slot]? with
    | some mask => withMask after mask
    | none => return after
  | _ => return after

/-- The variables live before a node, from those live after it. -/
def before (a : Liveness) (masks : Masks) (node : Nat) (after : BitSet) : Result BitSet := do
  match ← a.instr node with
  | .boundary =>
    -- What comes to a boundary is united there with what has come before.
    let _ ← (BitSet.empty a.width).union after
    return after
  | instr => masks.before instr after

/-- The nodes at which the routine ends. -/
def exitNodes (a : Liveness) : Result (List Nat) :=
  (List.range a.skeleton.size).filterM fun node => return (← a.instr node).isExit

/-- All members of a list of sets over `width` variables. -/
def unionAll (width : Nat) (sets : List BitSet) : Result BitSet :=
  sets.foldlM (fun s t => return (← s.union t).1) (BitSet.empty width)

/-- The facts that a run brought to a node. -/
def factsAt (calls : List (Nat × BitSet)) (node : Nat) : List BitSet :=
  calls.filterMap fun (reached, fact) => if reached == node then some fact else none

/-- The entry of a node, if it is a boundary that facts have come to. -/
def entryAt (a : Liveness) (calls : List (Nat × BitSet)) (node : Nat) : Result (Option (Nat × BitSet)) := do
  if (← a.instr node).isBoundary then
    match factsAt calls node with
    | [] => return none
    | facts => return some (← a.skeleton.instruction node, ← unionAll a.width facts)
  else return none

def collect (a : Liveness) (calls : List (Nat × BitSet)) : Result LiveSets := do
  return ⟨(← (List.range a.skeleton.size).mapM (a.entryAt calls)).filterMap id⟩

/-- The live variables of the routine. -/
def liveSets (a : Liveness) (config : Config) (check : Option Check) : Monitored LiveSets :=
  match (do return (← a.masks, ← a.exitNodes) : Result _) with
  | .error e => ⟨.error e, check⟩
  | .ok (masks, exits) =>
    let transfer := fun node after => do return Flow.continue (← a.before masks node after)
    let seeds := exits.map fun node => (node, BitSet.empty a.width)
    (run (Problem.ofConfig a.skeleton.flow .backward config transfer) check seeds).collect a.collect

end Liveness

end StackFlow
