import StackFlow.Frame.Step

/-!
The machine does not look into the cells of a frame: changing all contents before an
instruction or after it comes to the same (`step_map`). So frames that agree in
shape fail together and arrive at one shape, whatever they hold.
-/
namespace StackFlow.Frame

variable {α β : Type}

@[simp] theorem numLocals_map (f : α → β) (frame : Frame α) : (frame.map f).numLocals = frame.numLocals := by
  simp [numLocals, map]

@[simp] theorem depth_map (f : α → β) (frame : Frame α) : (frame.map f).depth = frame.depth := by simp [depth, map]

@[simp] theorem numLocals_marker (frame : Frame α) : frame.marker.numLocals = frame.numLocals := by
  simp [numLocals, marker]

@[simp] theorem depth_marker (frame : Frame α) : frame.marker.depth = frame.depth := by simp [depth, marker]

theorem get?_map (f : α → β) (frame : Frame α) (place : Location) :
    (frame.map f).get? place = (frame.get? place).map f := by
  cases place <;> simp [get?, map]

theorem push_map (f : α → β) (frame : Frame α) (x : α) : (frame.map f).push (f x) = (frame.push x).map f := by
  simp [push, map]

theorem pop_map (f : α → β) (frame : Frame α) :
    (frame.map f).pop = frame.pop.map fun (x, rest) => (f x, rest.map f) := by
  unfold pop map
  simp only [Array.back?_map]
  cases frame.stack.back? <;> simp [Except.map, reject]

theorem popN_map (f : α → β) (frame : Frame α) (count : Nat) :
    (frame.map f).popN count = (frame.popN count).map (map f) := by
  unfold popN
  rw [depth_map]
  by_cases enough : count ≤ frame.depth
  · simp [enough, map, Except.map]
  · simp [enough, reject, Except.map]

theorem readLocal_map (f : α → β) (frame : Frame α) (slot : UInt16) :
    (frame.map f).readLocal slot = (frame.readLocal slot).map f := by
  unfold readLocal
  rw [numLocals_map]
  simp only [map, Array.getElem?_map]
  cases frame.locals[slot.toNat]? <;> simp [reject, Except.map]

theorem writeLocal_map (f : α → β) (frame : Frame α) (slot : UInt16) (x : α) :
    (frame.map f).writeLocal slot (f x) = (frame.writeLocal slot x).map (map f) := by
  unfold writeLocal
  rw [numLocals_map]
  by_cases inside : slot.toNat < frame.locals.size
  · simp [inside, map, Except.map]
  · simp [inside, map, reject, Except.map]

theorem step_map (scope : Scope) (f : α → β) (fresh : α) (instr : Instr) (frame : Frame α) :
    (frame.map f).step scope (f fresh) instr = (frame.step scope fresh instr).map (map f) := by
  cases instr with
  | nop | label | lineMarker | boundary | goto _ => rfl
  | pushConst | new | jsr _ => simp [step, push_map, Except.map]
  | load v =>
    simp only [step, readLocal_map]
    cases scope.find v with
    | error e => rfl
    | ok var =>
      cases slot : var.slot with
      | none => simp [slot, push_map, bind, Except.bind, pure, Except.pure, Except.map]
      | some s =>
        cases read : frame.readLocal s <;>
          simp [slot, read, push_map, bind, Except.bind, pure, Except.pure, Except.map]
  | store v =>
    simp only [step, pop_map]
    cases frame.pop with
    | error e => rfl
    | ok popped =>
      cases scope.find v with
      | error e => rfl
      | ok var =>
        cases slot : var.slot <;>
          simp [slot, writeLocal_map, bind, Except.bind, pure, Except.pure, Except.map]
  | discard v =>
    simp only [step]
    cases scope.find v with
    | error e => rfl
    | ok var =>
      cases slot : var.slot <;> simp [slot, writeLocal_map, bind, Except.bind, pure, Except.pure, Except.map]
  | dup =>
    simp only [step, pop_map]
    cases frame.pop <;> simp [push_map, bind, Except.bind, pure, Except.pure, Except.map]
  | swap =>
    simp only [step, pop_map]
    cases frame.pop with
    | error e => rfl
    | ok popped =>
      simp only [bind, Except.bind, Except.map, pop_map]
      cases popped.2.pop <;> simp [push_map, pure, Except.pure]
  | pop | switch _ _ | throw =>
    simp only [step, pop_map]
    cases frame.pop <;> simp [bind, Except.bind, pure, Except.pure, Except.map]
  | compute n =>
    simp only [step, popN_map]
    cases frame.popN n.toNat <;> simp [push_map, bind, Except.bind, pure, Except.pure, Except.map]
  | arrayRead =>
    simp only [step, popN_map]
    cases frame.popN 2 <;> simp [push_map, bind, Except.bind, pure, Except.pure, Except.map]
  | fieldRead isStatic =>
    cases isStatic
    · simp only [step, pop_map]
      cases frame.pop <;> simp [push_map, bind, Except.bind, pure, Except.pure, Except.map]
    · simp [step, push_map, pure, Except.pure, Except.map]
  | fieldWrite _ | arrayWrite | branch _ _ => simp only [step, popN_map]
  | invoke d n returns =>
    simp only [step, popN_map]
    cases frame.popN n.toNat <;> cases returns <;>
      simp [push_map, bind, Except.bind, pure, Except.pure, Except.map]
  | «return» value =>
    cases value
    · simp [step, pure, Except.pure, Except.map]
    · simp only [step, pop_map]
      cases frame.pop <;> simp [bind, Except.bind, pure, Except.pure, Except.map]
  | ret s =>
    simp only [step, readLocal_map]
    cases frame.readLocal s <;> simp [bind, Except.bind, pure, Except.pure, Except.map]

end StackFlow.Frame
