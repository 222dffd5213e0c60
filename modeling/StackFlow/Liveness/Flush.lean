import StackFlow.Liveness.Basic

/-!
Flush plans. A variable that was live at one statement boundary and is no longer live
at the next can be flushed there, unless it may be read in ways that the code does
not show. Going forwards from the first instruction, the live set of the last
boundary is carried to the next.
-/
namespace StackFlow

open Worklist

/-- The variables to flush at each boundary that has any, both in ascending order. -/
structure FlushPlan where
  entries : List (Nat × List VarId)
  deriving DecidableEq, Repr, Inhabited

namespace FlushPlan

def empty : FlushPlan := ⟨[]⟩

def varsAt (plan : FlushPlan) (boundary : Nat) : List VarId := (plan.entries.lookup boundary).getD []

def isEmpty (plan : FlushPlan) : Bool := plan.entries.isEmpty

/-- The number of flushes at all boundaries together. -/
def total (plan : FlushPlan) : Nat := (plan.entries.flatMap Prod.snd).length

end FlushPlan

namespace Liveness

/-- The variables that are never flushed. -/
def exempt (scope : Scope) : Result BitSet :=
  BitSet.ofIndices scope.size ((scope.vars.toList.map Variable.id).filter scope.isExempt)

/-- The carried variables that are neither live here nor exempt. -/
def dead (exempt live carried : BitSet) : Result BitSet := do
  let (gone, _) ← carried.difference live
  return (← gone.difference exempt).1

/-- The live set at a node, if the node is a boundary that has one. -/
def liveHere (a : Liveness) (live : LiveSets) (node : Nat) : Result (Option BitSet) := do
  if (← a.instr node).isBoundary then return live.at? (← a.skeleton.instruction node) else return none

/-- At a boundary with a live set, that set is carried on; elsewhere what is carried
    stays the same. -/
def carry (a : Liveness) (live : LiveSets) (exempt : BitSet) (node : Nat) (carried : BitSet) :
    Result (Flow BitSet) := do
  match ← a.liveHere live node with
  | none => return .continue carried
  | some here =>
    let _ ← dead exempt here carried
    return .continue here

/-- The flushes at a node: all that dies there on some way. -/
def flushesAt (a : Liveness) (live : LiveSets) (exempt : BitSet) (calls : List (Nat × BitSet)) (node : Nat) :
    Result (Option (Nat × List VarId)) := do
  match ← a.liveHere live node with
  | none => return none
  | some here =>
    let flushed ← unionAll a.width (← (factsAt calls node).mapM (dead exempt here))
    match flushed.toList with
    | [] => return none
    | vars => return some (← a.skeleton.instruction node, vars)

/-- The plan for given live sets, which have to be about as many variables as the
    routine has. -/
def flushPlanFrom (a : Liveness) (config : Config) (check : Option Check) (live : LiveSets) : Monitored FlushPlan :=
  match exempt a.routine.scope with
  | .error e => ⟨.error e, check⟩
  | .ok exempt =>
    let problem := Problem.ofConfig a.skeleton.flow .forward config (a.carry live exempt)
    (run problem check [(0, BitSet.empty a.width)]).collect fun calls => do
      return ⟨(← (List.range a.skeleton.size).mapM (a.flushesAt live exempt calls)).filterMap id⟩

/-- The plan for the live variables of the routine. -/
def flushPlan (a : Liveness) (config : Config) (check : Option Check) : Monitored FlushPlan :=
  match a.liveSets config check with
  | ⟨.error e, check⟩ => ⟨.error e, check⟩
  | ⟨.ok live, check⟩ => a.flushPlanFrom config check live

end Liveness

namespace Routine

/-- The live variables at the boundaries of a routine. -/
def liveSets (r : Routine) (config : Config) : Result LiveSets := do
  (← Liveness.ofRoutine r).liveSets config none |>.result

def flushPlan (r : Routine) (config : Config) : Result FlushPlan := do
  (← Liveness.ofRoutine r).flushPlan config none |>.result

/-- The plan of a routine, or no flushes at all if it is too complex to analyse. -/
def flushPlanOrEmpty (r : Routine) (config : Config) : Result FlushPlan :=
  match r.flushPlan config with
  | .error (.error (.tooComplex _ _)) => .ok FlushPlan.empty
  | other => other

end Routine

end StackFlow
