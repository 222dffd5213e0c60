import Std.Data.HashMap
import StackFlow.Routine.Basic

/-!
Code under construction. Directives declare variables, append instructions and
protect ranges; branches name labels, which may be defined before or after their
use. A name always stands for the place of its latest definition, a refused one
included. `finish` puts numbers for the names and checks the routine.
-/
namespace StackFlow

/-- An instruction whose targets may still be names. -/
inductive Draft where
  | ready (instr : Instr)
  | goto (label : String)
  | branch (label : String) (pops : UInt8)
  | switch (labels : List String) (default : String)
  | jsr (label : String)
  deriving DecidableEq, Repr, Inhabited

inductive Directive where
  | declare (d : Declaration)
  /-- Append an instruction as it is. -/
  | emit (instr : Instr)
  /-- Append a load, store or discard of a known variable. -/
  | load (var : VarId)
  | store (var : VarId)
  | discard (var : VarId)
  /-- Append an instruction with named targets. -/
  | goto (label : String)
  | branch (label : String) (pops : UInt8)
  | switch (labels : List String) (default : String)
  | jsr (label : String)
  /-- Append a label and give it a name. -/
  | label (name : String)
  /-- Protect the code between two labels. -/
  | protect (start stop handler : String)
  deriving DecidableEq, Repr, Inhabited

namespace Directive

/-- Branch on a truth value. -/
def ifTrue (label : String) : Directive := branch label 1

/-- Branch on the comparison of two values. -/
def ifCompare (label : String) : Directive := branch label 2

/-- A local that code outside of the routine may read. -/
def captured (slot : UInt16) : Directive := declare (.local slot ⟨true, false⟩)

def getField : Directive := emit (.fieldRead false)

def getStatic : Directive := emit (.fieldRead true)

def putField : Directive := emit (.fieldWrite false)

def returnValue : Directive := emit (.return true)

def returnVoid : Directive := emit (.return false)

end Directive

/-- The names of a protected range. -/
structure NamedRange where
  start : String
  stop : String
  handler : String
  deriving DecidableEq, Repr, Inhabited

structure Assembly where
  scope : Scope
  code : Array Draft
  labels : Std.HashMap String Nat
  ranges : List NamedRange

namespace Assembly

/-- Nothing written yet, over the given variables. -/
def start (scope : Scope) : Assembly := ⟨scope, #[], ∅, []⟩

/-- Where the next instruction goes. -/
def position (a : Assembly) : Nat := a.code.size

def append (a : Assembly) (draft : Draft) : Assembly := { a with code := a.code.push draft }

/-- Lets a name stand for the present position. -/
def bindLabel (a : Assembly) (name : String) : Assembly := { a with labels := a.labels.insert name a.position }

/-- Appends an instruction on a variable that has to be known. -/
def access (a : Assembly) (instr : Instr) (var : VarId) : Assembly × Result (Option VarId) :=
  match a.scope.find var with
  | .ok _ => (a.append (.ready instr), .ok none)
  | .error e => (a, .error e)

/-- Follows a directive. The answer is the number of a declared variable, if one is
    declared. A refused directive appends nothing; a refused label still moves its
    name to the present position. -/
def apply (a : Assembly) : Directive → Assembly × Result (Option VarId)
  | .declare d =>
    match a.scope.declare d with
    | .ok scope => ({ a with scope }, .ok (some a.scope.size))
    | .error e => (a, .error e)
  | .emit instr => (a.append (.ready instr), .ok none)
  | .load v => a.access (.load v) v
  | .store v => a.access (.store v) v
  | .discard v => a.access (.discard v) v
  | .goto label => (a.append (.goto label), .ok none)
  | .branch label pops => (a.append (.branch label pops), .ok none)
  | .switch labels default => (a.append (.switch labels default), .ok none)
  | .jsr label => (a.append (.jsr label), .ok none)
  | .label name =>
    if a.labels.contains name then (a.bindLabel name, reject (.duplicateLabel name))
    else ((a.bindLabel name).append (.ready .label), .ok none)
  | .protect start stop handler => ({ a with ranges := a.ranges ++ [⟨start, stop, handler⟩] }, .ok none)

/-- Follows directives until one is refused. -/
def applyAll (a : Assembly) (ds : List Directive) : Result Assembly :=
  ds.foldlM (fun a d =>
    match a.apply d with
    | (next, .ok _) => .ok next
    | (_, .error e) => .error e) a

/-- The instruction that a name stands for. -/
def resolve (a : Assembly) (name : String) : Result Nat :=
  match a.labels[name]? with
  | some index => .ok index
  | none => reject (.unresolvedLabel name)

def resolveDraft (a : Assembly) : Draft → Result Instr
  | .ready instr => .ok instr
  | .goto label => do return .goto (← a.resolve label)
  | .branch label pops => do return .branch (← a.resolve label) pops
  | .switch labels default => do
    let targets ← labels.mapM a.resolve
    return .switch targets (← a.resolve default)
  | .jsr label => do return .jsr (← a.resolve label)

def resolveRange (a : Assembly) (r : NamedRange) : Result Range := do
  return ⟨← a.resolve r.start, ← a.resolve r.stop, ← a.resolve r.handler⟩

/-- The routine that has been written. -/
def finish (a : Assembly) : Result Routine := do
  let code ← a.code.toList.mapM a.resolveDraft
  let ranges ← a.ranges.mapM a.resolveRange
  Routine.build code.toArray ranges a.scope

end Assembly

end StackFlow
