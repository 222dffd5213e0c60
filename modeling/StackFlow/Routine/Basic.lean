import StackFlow.BitSet.Basic
import StackFlow.Digraph
import StackFlow.Scope.Basic

/-!
A routine: checked code with its protected ranges, its variables and its edges.
Normal edges follow branches, falling through and returns from subroutines, where
every return may go back to behind every subroutine call. Exceptional edges go from
the instructions of a protected range to its handler.
-/
namespace StackFlow

/-- The instructions from `start` up to but not including `stop` are protected by
    the code at `handler`. -/
structure Range where
  start : Nat
  stop : Nat
  handler : Nat
  deriving DecidableEq, Repr, Inhabited

namespace Range

def covers (r : Range) (index : Nat) : Bool := r.start ≤ index && index < r.stop

/-- A range is not empty, and both it and its handler lie in the code. -/
def check (count : Nat) (r : Range) : Result Unit :=
  if r.start < r.stop ∧ r.stop ≤ count ∧ r.handler < count then .ok ()
  else reject (.badRange r.start r.stop r.handler count)

end Range

structure Routine where
  code : Array Instr
  ranges : List Range
  scope : Scope
  /-- Where control may go without an exception. -/
  normal : Array (List Nat)
  /-- Where an exception may take control. -/
  exceptional : Array (List Nat)
  /-- Both kinds of edges together. -/
  flow : Digraph
  /-- The instructions at which some handler starts. -/
  handlerEntries : BitSet

namespace Routine

/-- What has to hold of the instruction at `index`: its targets lie in the code, it
    does not run off the end, and its variable is known. -/
def checkInstr (count : Nat) (scope : Scope) (index : Nat) (instr : Instr) : Result Unit := do
  instr.targets.forM fun target =>
    if target < count then .ok () else reject (.badTarget index target count)
  if instr.needsNext && index + 1 == count then reject (.fallsOffEnd index)
  match instr.touches with
  | some v => discard (scope.find v)
  | none => pure ()

/-- The instructions behind the subroutine calls. -/
def returnPoints (code : Array Instr) : List Nat :=
  code.toList.zipIdx.filterMap fun (instr, index) => if instr.isJsr then some (index + 1) else none

/-- Where `instr` at `index` may pass control, when subroutines return to `returns`. -/
def normalTargets (returns : List Nat) (index : Nat) (instr : Instr) : List Nat :=
  distinct (instr.targets ++ (if instr.fallsThrough then [index + 1] else []) ++
    (if instr.isRet then returns else []))

/-- The handlers of the ranges around an instruction. -/
def handlersAt (ranges : List Range) (index : Nat) : List Nat :=
  distinct ((ranges.filter (·.covers index)).map Range.handler)

/-- Checks the parts of a routine and computes its edges. -/
def build (code : Array Instr) (ranges : List Range) (scope : Scope) : Result Routine := do
  if code.isEmpty then reject .emptyCode
  ranges.forM (Range.check code.size)
  code.toList.zipIdx.forM fun (instr, index) => checkInstr code.size scope index instr
  let returns := returnPoints code
  let normal := code.mapIdx (normalTargets returns)
  let exceptional := code.mapIdx fun index _ => handlersAt ranges index
  let flow ← Digraph.ofSuccessors
    (normal.zipWith (fun targets handlers => distinct (targets ++ handlers)) exceptional)
  let handlerEntries ← BitSet.ofIndices code.size (ranges.map Range.handler)
  return { code, ranges, scope, normal, exceptional, flow, handlerEntries }

/-- The number of instructions. -/
def size (r : Routine) : Nat := r.code.size

/-- The instruction at an index that has to be in the code. -/
def instr (r : Routine) (index : Nat) : Result Instr := fetch r.code index

def normalSuccessors (r : Routine) (index : Nat) : Result (List Nat) := fetch r.normal index

def exceptionSuccessors (r : Routine) (index : Nat) : Result (List Nat) := fetch r.exceptional index

def isHandlerEntry (r : Routine) (index : Nat) : Bool := r.handlerEntries.contains index

/-- The instructions that may pass control to `index` without an exception. -/
def normalPredecessors (r : Routine) (index : Nat) : Result (List Nat) := do
  let sources ← r.flow.predecessors index
  sources.filterM fun source => return (← r.normalSuccessors source).contains index

/-- How many instructions each category has. -/
def categoryCounts (r : Routine) : List Nat :=
  Category.all.map fun c => r.code.toList.countP fun instr => instr.category == c

/-- The categories that occur, with their counts. -/
def categorySummary (r : Routine) : String :=
  let shown := (Category.all.zip r.categoryCounts).filter fun (_, n) => n != 0
  " ".intercalate (shown.map fun (c, n) => s!"{c.name}={n}")

/-- The instructions at which the routine ends. -/
def exits (r : Routine) : List Nat :=
  r.code.toList.zipIdx.filterMap fun (instr, index) => if instr.isExit then some index else none

end Routine

end StackFlow
