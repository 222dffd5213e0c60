import StackFlow.Frame.Basic
import StackFlow.Scope.Basic

/-!
One instruction on a frame. `step` is the same for every kind of contents; a value
that the instruction makes anew is the given `fresh` one. Run on markers it tells
where the contents of a cell came from.
-/
namespace StackFlow.Frame

variable {α : Type}

/-- The frame after an instruction that does not raise an exception. -/
def step (scope : Scope) (fresh : α) (instr : Instr) (frame : Frame α) : Result (Frame α) :=
  match instr with
  | .nop | .label | .lineMarker | .boundary | .goto _ => .ok frame
  | .pushConst | .new | .jsr _ => .ok (frame.push fresh)
  | .load v => do
    match (← scope.find v).slot with
    | some slot => return frame.push (← frame.readLocal slot)
    | none => return frame.push fresh
  | .store v => do
    let (x, rest) ← frame.pop
    match (← scope.find v).slot with
    | some slot => rest.writeLocal slot x
    | none => return rest
  | .discard v => do
    match (← scope.find v).slot with
    | some slot => frame.writeLocal slot fresh
    | none => return frame
  | .dup => do
    let (x, rest) ← frame.pop
    return (rest.push x).push x
  | .swap => do
    let (x, rest) ← frame.pop
    let (y, rest) ← rest.pop
    return (rest.push x).push y
  | .pop | .switch _ _ | .throw => do return (← frame.pop).2
  | .compute pops => do return (← frame.popN pops.toNat).push fresh
  | .fieldRead isStatic => do
    if isStatic then return frame.push fresh
    else return (← frame.pop).2.push fresh
  | .fieldWrite isStatic => frame.popN (if isStatic then 1 else 2)
  | .arrayRead => do return (← frame.popN 2).push fresh
  | .arrayWrite => frame.popN 3
  | .invoke _ args returns => do
    let rest ← frame.popN args.toNat
    return if returns then rest.push fresh else rest
  | .branch _ pops => frame.popN pops.toNat
  | .return value => do
    if value then return (← frame.pop).2
    else return frame
  | .ret slot => do
    let _ ← frame.readLocal slot
    return frame

/-- Where the contents of `after` were before the instruction; `none` if the
    instruction makes them. -/
def source (scope : Scope) (instr : Instr) (frame : Frame α) (after : Location) : Result (Option Location) := do
  let stepped ← frame.marker.step scope .unknown instr
  match stepped.get? after with
  | some (.from place) => return some place
  | some .unknown => return none
  | none => reject (.missingCell after instr stepped.depth)

end StackFlow.Frame
