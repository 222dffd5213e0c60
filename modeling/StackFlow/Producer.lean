import StackFlow.Scope.Basic

/-!
Kinds of instructions whose results come from outside of the routine: calls, and
reads of fields and arrays. A set of them says what is not reported as an origin.
-/
namespace StackFlow

inductive Producer where
  | virtualCall
  | interfaceCall
  | fieldRead
  | arrayRead
  | staticCall
  | specialCall
  deriving DecidableEq, Repr, Inhabited

namespace Producer

def all : List Producer := [virtualCall, interfaceCall, fieldRead, arrayRead, staticCall, specialCall]

/-- The number of the kind in the encoding of a set. -/
def bit : Producer → Nat
  | virtualCall => 0
  | interfaceCall => 1
  | fieldRead => 2
  | arrayRead => 3
  | staticCall => 4
  | specialCall => 5

/-- The kind of an instruction, if it has one. A variable without a slot is read
    from a field. -/
def classify (scope : Scope) : Instr → Option Producer
  | .invoke .virtual _ _ => some virtualCall
  | .invoke .interface _ _ => some interfaceCall
  | .invoke .static _ _ => some staticCall
  | .invoke .special _ _ => some specialCall
  | .fieldRead _ => some fieldRead
  | .arrayRead => some arrayRead
  | .load v =>
    match scope.get? v with
    | some var => if var.slot.isNone then some fieldRead else none
    | none => none
  | _ => none

end Producer

/-- A set of kinds, as a number below 64. -/
structure ProducerSet where
  bits : Nat
  bits_lt : bits < 64
  deriving DecidableEq

namespace ProducerSet

/-- The set in the six lowest bits of a number. -/
def ofBits (n : Nat) : ProducerSet := ⟨n % 64, Nat.mod_lt n (by decide)⟩

/-- Virtual and interface calls, fields and arrays. -/
def standard : ProducerSet := ofBits 15

instance : Inhabited ProducerSet := ⟨standard⟩

def contains (s : ProducerSet) (p : Producer) : Bool := s.bits.testBit p.bit

/-- The set of the kind of one instruction. -/
def ofOption (p : Option Producer) : ProducerSet :=
  match p with
  | some p => ofBits (1 <<< p.bit)
  | none => ofBits 0

/-- An instruction of the set, whose result is not followed up. -/
def hides (s : ProducerSet) (scope : Scope) (instr : Instr) : Bool := (Producer.classify scope instr).any s.contains

end ProducerSet

end StackFlow
