import StackFlow.Instr.Text
import StackFlow.Location

/-!
How a computation fails. An `Error` is reported to the caller: the input is
malformed (a `Defect` says how), the analysis gave up, or it was cancelled. A
`Fault` is a broken contract inside the library: an index outside of its
container, sets of different capacity, a remainder by zero. Keeping the two apart
lets a theorem say that an analysis never faults.
-/
namespace StackFlow

/-- What is wrong with a malformed input. -/
inductive Defect where
  | unknownVariable (var : VarId) (count : Nat)
  | duplicateLabel (name : String)
  | unresolvedLabel (name : String)
  | emptyCode
  | badRange (start stop handler count : Nat)
  | badTarget (index target count : Nat)
  | fallsOffEnd (index : Nat)
  | badSlot (slot : UInt16) (count : Nat)
  | stackUnderflow
  | stackUnderflowBy (need got : Nat)
  | missingCell (cell : Location) (instr : Instr) (depth : Nat)
  | depthMismatch (index existing incoming : Nat)
  | badNode (node count : Nat)
  | frameCount (given expected : Nat)
  | emptyReturn (index : Nat)
  | regionEscapes (region index count : Nat)
  | unknownClass (id : Nat)
  | mergedClass (id : Nat)
  | emptyClass (id : Nat)
  /-- A defect found by a caller's own transfer function. -/
  | other (message : String)
  deriving DecidableEq, Repr

namespace Defect

def message : Defect → String
  | unknownVariable var count => s!"Unknown variable {var.render} ({count} variables)"
  | duplicateLabel name => s!"Label '{name}' is defined twice"
  | unresolvedLabel name => s!"Label '{name}' does not resolve to an instruction"
  | emptyCode => "Instruction sequence is empty"
  | badRange start stop handler count =>
    s!"Invalid exception range {start}..{stop} -> {handler} ({count} instructions)"
  | badTarget index target count => s!"Instruction {index} targets {target} which is outside of 0..{count}"
  | fallsOffEnd index => s!"Execution can fall off the end of the code after instruction {index}"
  | badSlot slot count => s!"Local slot {slot} is out of range ({count} locals)"
  | stackUnderflow => "Operand stack underflow"
  | stackUnderflowBy need got => s!"Operand stack underflow: need {need} values, have {got}"
  | missingCell cell instr depth =>
    s!"{cell.render} does not exist after {instr.describe} (stack depth {depth})"
  | depthMismatch index existing incoming =>
    s!"Stack depth mismatch at instruction {index}: {existing} vs {incoming}"
  | badNode node count => s!"Work item for node {node} outside of 0..{count}"
  | frameCount given expected => s!"Got {given} frames for {expected} instructions"
  | emptyReturn index => s!"Instruction {index} returns a value from an empty stack"
  | regionEscapes region index count =>
    s!"Region {region} walks past the end of the code at {index} ({count} instructions)"
  | unknownClass id => s!"Unknown or merged equivalence class {id}"
  | mergedClass id => s!"Class {id} was already merged"
  | emptyClass id => s!"Equivalence class {id} is empty"
  | other message => message

end Defect

/-- A failure that the caller sees. -/
inductive Error where
  | malformed (defect : Defect)
  /-- The analysis took more than `budget` steps. -/
  | tooComplex (steps budget : Nat)
  | cancelled
  deriving DecidableEq, Repr

namespace Error

def message : Error → String
  | malformed defect => defect.message
  | tooComplex steps budget => s!"Analysis too complex - gave up after {steps} steps (budget {budget})"
  | cancelled => "Analysis was cancelled"

/-- The message as a log shows it: a defect together with the place that reports it. -/
def logLine (file : String) (line : Nat) : Error → String
  | malformed defect => s!"Malformed - {file}:{line}: {defect.message}"
  | e => e.message

def isTooComplex : Error → Bool
  | tooComplex _ _ => true
  | _ => false

end Error

/-- A broken contract between two parts of the library. -/
inductive Fault where
  | outOfRange (index size : Nat)
  | capacityMismatch (left right : Nat)
  | zeroDivisor
  deriving DecidableEq, Repr

inductive Failure where
  | error (e : Error)
  | fault (f : Fault)
  deriving DecidableEq, Repr

/-- A value, an error for the caller, or a fault. -/
abbrev Result := Except Failure

/-- Fail because the input has a defect. -/
def reject {α : Type} (defect : Defect) : Result α := .error (.error (.malformed defect))

/-- Fail because a contract is broken. -/
def abort {α : Type} (fault : Fault) : Result α := .error (.fault fault)

/-- The entry at an index that has to be inside the array. -/
def fetch {α : Type} (xs : Array α) (i : Nat) : Result α :=
  match xs[i]? with
  | some x => .ok x
  | none => abort (.outOfRange i xs.size)

/-- The array with another entry at an index that has to be inside it. -/
def replace {α : Type} (xs : Array α) (i : Nat) (x : α) : Result (Array α) :=
  if h : i < xs.size then .ok (xs.set i x) else abort (.outOfRange i xs.size)

/-- The remainder by a divisor that has to be positive. -/
def remainder (n d : Nat) : Result Nat := if d = 0 then abort .zeroDivisor else .ok (n % d)

/-- What a successful sequence went through. -/
theorem bind_eq_ok {α β : Type} {x : Result α} {f : α → Result β} {b : β} :
    x >>= f = .ok b ↔ ∃ a, x = .ok a ∧ f a = .ok b := by
  cases x <;> simp [bind, Except.bind]

/-- A list of checks passes if each of them does. -/
theorem forM_eq_ok {α : Type} {xs : List α} {check : α → Result Unit} :
    xs.forM check = .ok () ↔ ∀ x ∈ xs, check x = .ok () := by
  induction xs with
  | nil => simp [List.forM, pure, Except.pure]
  | cons x rest ih =>
    rw [List.forM, bind_eq_ok, List.forall_mem_cons]
    constructor
    · rintro ⟨_, first, others⟩; exact ⟨first, ih.mp others⟩
    · rintro ⟨first, others⟩; exact ⟨(), first, ih.mpr others⟩

theorem fetch_eq_ok {α : Type} {xs : Array α} {i : Nat} {x : α} : fetch xs i = .ok x ↔ xs[i]? = some x := by
  unfold fetch abort
  cases xs[i]? <;> simp

theorem fetch_of_lt {α : Type} {xs : Array α} {i : Nat} (inside : i < xs.size) : fetch xs i = .ok xs[i] := by
  simp [fetch, inside]

theorem replace_of_lt {α : Type} {xs : Array α} {i : Nat} (inside : i < xs.size) (x : α) :
    replace xs i x = .ok (xs.set i x) := by
  simp [replace, inside]

theorem replace_eq_ok {α : Type} {xs out : Array α} {i : Nat} {x : α} (run : replace xs i x = .ok out) :
    ∃ inside : i < xs.size, xs.set i x = out := by
  unfold replace at run
  split at run
  · rename_i inside
    cases run
    exact ⟨inside, rfl⟩
  · cases run

theorem remainder_of_pos {n d : Nat} (positive : 0 < d) : remainder n d = .ok (n % d) := by
  simp [remainder, Nat.ne_of_gt positive]

end StackFlow
