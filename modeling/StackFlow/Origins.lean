import StackFlow.Routine.Frames
import StackFlow.Worklist.Basic

/-!
The instructions that make a returned value. From each instruction that returns a
value, the location of the value is followed backwards: an instruction that only
moves the value leads to where the value was before, and the instruction that makes
it is an origin, unless its kind is hidden. A stack cell at the entry of a handler
is followed along normal edges only, because an exception clears the stack.
-/
namespace StackFlow.Origins

open Worklist

/-- What an instruction has to do with the value in a location after it. -/
inductive Provenance where
  /-- Control does not come to the instruction. -/
  | unreached
  /-- The instruction makes the value. -/
  | made
  /-- The value was in another location, or in the same one. -/
  | moved (before : Location)
  deriving DecidableEq, Repr

/-- The instructions after which a location before `index` may hold its value. -/
def valueSources (r : Routine) (index : Nat) (place : Location) : Result (List Nat) :=
  if place.isStack && r.isHandlerEntry index then r.normalPredecessors index else r.flow.predecessors index

def provenance (r : Routine) (frames : Array (Option (Frame Value))) (index : Nat) (after : Location) :
    Result Provenance := do
  match ← fetch frames index with
  | none => return .unreached
  | some frame =>
    match ← frame.source r.scope (← r.instr index) after with
    | some before => return .moved before
    | none => return .made

/-- One step back from the location of a value after an instruction. -/
def transfer (r : Routine) (frames : Array (Option (Frame Value))) (index : Nat) (after : Location) :
    Result (Flow Location) := do
  match ← provenance r frames index after with
  | .unreached | .made => return .stop
  | .moved before =>
    if before.isStack && r.isHandlerEntry index then
      match ← valueSources r index before with
      | [] => return .stop
      | sources => return .redirect before sources
    else if (← r.instr index).isTransparent then return .pass before
    else return .continue before

/-- Where to start: the values returned at `index`, after the instructions before it. -/
def seedsAt (r : Routine) (frames : Array (Option (Frame Value))) (index : Nat) (instr : Instr) :
    Result (List (Nat × Location)) :=
  match instr with
  | .return true => do
    match ← fetch frames index with
    | none => return []
    | some frame =>
      match frame.top with
      | none => reject (.emptyReturn index)
      | some place => return (← valueSources r index place).map (·, place)
  | _ => return []

def seeds (r : Routine) (frames : Array (Option (Frame Value))) : Result (List (Nat × Location)) := do
  return (← r.code.toList.zipIdx.mapM fun (instr, index) => seedsAt r frames index instr).flatten

/-- Marks the instruction of an item if it makes the value and is not hidden. -/
def mark (r : Routine) (frames : Array (Option (Frame Value))) (hidden : ProducerSet) (marks : Array Bool)
    (item : Nat × Location) : Result (Array Bool) := do
  match ← provenance r frames item.1 item.2 with
  | .made => if hidden.hides r.scope (← r.instr item.1) then return marks else replace marks item.1 true
  | .unreached | .moved _ => return marks

/-- The instructions in which a value that the routine returns may originate, given
    the frames before the instructions. -/
def resultOrigins (r : Routine) (config : Config) (check : Option Check) (frames : Array (Option (Frame Value))) :
    Monitored (Array Bool) :=
  if frames.size = r.size then
    match seeds r frames with
    | .error e => ⟨.error e, check⟩
    | .ok items =>
      (run (Problem.ofConfig r.flow .backward config (transfer r frames)) check items).collect fun calls =>
        calls.foldlM (mark r frames config.hidden) (Array.replicate r.size false)
  else ⟨reject (.frameCount frames.size r.size), check⟩

end StackFlow.Origins
