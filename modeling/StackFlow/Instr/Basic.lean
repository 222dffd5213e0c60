/-!
The instruction set of the stack machine. Values live in the local slots of a
frame and on an operand stack; an instruction moves them, consumes them or hands
over control. What an analysis asks of an instruction alone is answered here:
its category, where control may go next, and the variable it touches.
-/
namespace StackFlow

/-- The number of a variable in its scope. -/
abbrev VarId := Nat

/-- How a call finds its callee. -/
inductive Dispatch where
  | static
  | special
  | virtual
  | interface
  deriving DecidableEq, Repr, Inhabited

/-- One instruction. A target is the number of an instruction; the eight-bit counts
    say how many operands are taken from the stack. -/
inductive Instr where
  | nop
  | label
  | lineMarker
  /-- A statement ends here. -/
  | boundary
  | pushConst
  | new
  | load (var : VarId)
  | store (var : VarId)
  /-- Forget the value of a variable. -/
  | discard (var : VarId)
  | dup
  | swap
  | pop
  /-- Take `pops` operands and push one result. -/
  | compute (pops : UInt8)
  | fieldRead (isStatic : Bool)
  | fieldWrite (isStatic : Bool)
  | arrayRead
  | arrayWrite
  | invoke (dispatch : Dispatch) (args : UInt8) (returns : Bool)
  | goto (target : Nat)
  /-- Take `pops` operands and branch or fall through. -/
  | branch (target : Nat) (pops : UInt8)
  | switch (targets : List Nat) (default : Nat)
  /-- Leave the routine, with the top of the stack as its result if `value`. -/
  | return (value : Bool)
  | throw
  /-- Call the subroutine at `target`, pushing the return address. -/
  | jsr (target : Nat)
  /-- Return from a subroutine to the address held in a local slot. -/
  | ret (slot : UInt16)
  deriving DecidableEq, Repr, Inhabited

/-- The coarse kinds of instruction. -/
inductive Category where
  | read
  | write
  | jump
  | conditionalJump
  | switch
  | return
  | throw
  | statementBoundary
  | subroutineCall
  | subroutineReturn
  | fallthrough
  deriving DecidableEq, Repr, Inhabited

namespace Category

/-- All categories, in the order in which counts are reported. -/
def all : List Category :=
  [read, write, jump, conditionalJump, switch, .return, throw, statementBoundary, subroutineCall,
    subroutineReturn, fallthrough]

theorem mem_all (c : Category) : c ∈ all := by cases c <;> decide

def name : Category → String
  | read => "Read"
  | write => "Write"
  | jump => "Jump"
  | conditionalJump => "ConditionalJump"
  | switch => "Switch"
  | .return => "Return"
  | throw => "Throw"
  | statementBoundary => "StatementBoundary"
  | subroutineCall => "SubroutineCall"
  | subroutineReturn => "SubroutineReturn"
  | fallthrough => "Fallthrough"

/-- Control does not simply go on to the next instruction, or not always. -/
def isTransfer : Category → Bool
  | jump | conditionalJump | switch | .return | throw | subroutineCall | subroutineReturn => true
  | read | write | statementBoundary | fallthrough => false

end Category

namespace Instr

def category : Instr → Category
  | load _ => .read
  | store _ | discard _ => .write
  | goto _ => .jump
  | branch _ _ => .conditionalJump
  | switch _ _ => .switch
  | .return _ => .return
  | throw => .throw
  | boundary => .statementBoundary
  | jsr _ => .subroutineCall
  | ret _ => .subroutineReturn
  | nop | label | lineMarker | pushConst | new | dup | swap | pop | compute _ | fieldRead _ | fieldWrite _
  | arrayRead | arrayWrite | invoke _ _ _ => .fallthrough

/-- Control may go on to the next instruction. A subroutine call does so only
    through the return of the subroutine. -/
def fallsThrough : Instr → Bool
  | goto _ | switch _ _ | .return _ | throw | jsr _ | ret _ => false
  | _ => true

def isJsr : Instr → Bool
  | jsr _ => true
  | _ => false

def isRet : Instr → Bool
  | ret _ => true
  | _ => false

/-- The instruction after this one has to exist: it follows, or is returned to. -/
def needsNext (i : Instr) : Bool := i.fallsThrough || i.isJsr

/-- The instructions that this one names as targets, in order and with repeats. -/
def targets : Instr → List Nat
  | goto t | branch t _ | jsr t => [t]
  | switch ts d => ts ++ [d]
  | _ => []

/-- The routine ends here. -/
def isExit : Instr → Bool
  | .return _ | throw => true
  | _ => false

def isTransfer (i : Instr) : Bool := i.category.isTransfer

def isBoundary : Instr → Bool
  | boundary => true
  | _ => false

/-- Neither frame nor control flow notices the instruction. -/
def isTransparent : Instr → Bool
  | nop | label | lineMarker | boundary => true
  | _ => false

def reads : Instr → Option VarId
  | load v => some v
  | _ => none

def writes : Instr → Option VarId
  | store v | discard v => some v
  | _ => none

/-- The variable that the instruction names, be it read or written. -/
def touches (i : Instr) : Option VarId := i.reads.or i.writes

end Instr

end StackFlow
