import StackFlow.Error

/-!
Frames of the stack machine: the local slots and the operand stack, bottom first.
A frame can hold anything in its cells, so the same machine runs on abstract values,
on the places they came from, or on tags. `map` changes the contents and keeps the
shape.
-/
namespace StackFlow

structure Frame (α : Type) where
  locals : Array α
  stack : Array α
  deriving DecidableEq, Repr, Inhabited

/-- What is known of a cell: nothing, or where its value was copied from. -/
inductive Value where
  | unknown
  | from (place : Location)
  deriving DecidableEq, Repr, Inhabited

namespace Value

def render : Value → String
  | unknown => "?"
  | .from place => place.render

end Value

namespace Frame

variable {α β : Type}

/-- The frame of a shape with `x` in every cell. -/
def filled (x : α) (locals depth : Nat) : Frame α := ⟨Array.replicate locals x, Array.replicate depth x⟩

def map (f : α → β) (frame : Frame α) : Frame β := ⟨frame.locals.map f, frame.stack.map f⟩

/-- The frame of the same shape in which every cell names itself. Numbers of cells
    have sixteen bits; larger ones wrap around. -/
def marker (shape : Frame α) : Frame Value where
  locals := Array.ofFn fun slot : Fin shape.locals.size => .from (.local (UInt16.ofNat slot.val))
  stack := Array.ofFn fun depth : Fin shape.stack.size => .from (.stack (UInt16.ofNat depth.val))

def numLocals (frame : Frame α) : Nat := frame.locals.size

def depth (frame : Frame α) : Nat := frame.stack.size

/-- The contents of a location, if the frame has it. -/
def get? (frame : Frame α) : Location → Option α
  | .local slot => frame.locals[slot.toNat]?
  | .stack depth => frame.stack[depth.toNat]?

/-- The location of the uppermost stack cell. A cell whose number does not fit in
    sixteen bits has no location. -/
def top (frame : Frame α) : Option Location :=
  if 0 < frame.depth ∧ frame.depth ≤ 65536 then some (.stack (UInt16.ofNat (frame.depth - 1))) else none

def readLocal (frame : Frame α) (slot : UInt16) : Result α :=
  match frame.locals[slot.toNat]? with
  | some x => .ok x
  | none => reject (.badSlot slot frame.numLocals)

def writeLocal (frame : Frame α) (slot : UInt16) (x : α) : Result (Frame α) :=
  if inside : slot.toNat < frame.locals.size then .ok { frame with locals := frame.locals.set slot.toNat x }
  else reject (.badSlot slot frame.numLocals)

def push (frame : Frame α) (x : α) : Frame α := { frame with stack := frame.stack.push x }

def pop (frame : Frame α) : Result (α × Frame α) :=
  match frame.stack.back? with
  | some x => .ok (x, { frame with stack := frame.stack.pop })
  | none => reject .stackUnderflow

/-- Takes away the `count` uppermost cells. -/
def popN (frame : Frame α) (count : Nat) : Result (Frame α) :=
  if count ≤ frame.depth then .ok { frame with stack := frame.stack.take (frame.depth - count) }
  else reject (.stackUnderflowBy count frame.depth)

/-- What a handler starts with: the locals as they were, and the exception `x`. -/
def handlerEntry (frame : Frame α) (x : α) : Frame α := { frame with stack := #[x] }

def sameShape (a : Frame α) (b : Frame β) : Bool := a.numLocals == b.numLocals && a.depth == b.depth

end Frame

end StackFlow
