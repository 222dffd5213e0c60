import Std.Data.HashMap
import StackFlow.BitSet.Basic
import StackFlow.Digraph
import StackFlow.Worklist.Deque

/-!
Propagation of facts along the edges of a graph. Facts are not joined: each pair of a
node and a fact is a work item of its own, and is worked off once. A transfer
function says what becomes of a fact at a node. As facts may be of unboundedly many
kinds, a run has a budget of charged steps, and takes at most twice as many items
from its queue. Now and then it asks whether it has been cancelled.
-/
namespace StackFlow.Worklist

inductive Direction where
  /-- Facts go from a node to its successors. -/
  | forward
  /-- Facts go from a node to its predecessors. -/
  | backward
  deriving DecidableEq, Repr, Inhabited

/-- What becomes of a fact at a node. -/
inductive Flow (F : Type) where
  /-- The new fact goes to all neighbours. -/
  | continue (fact : F)
  /-- Likewise, without being charged a step. -/
  | pass (fact : F)
  /-- The new fact goes to the given nodes only. -/
  | redirect (fact : F) (targets : List Nat)
  | stop
  deriving DecidableEq, Repr, Inhabited

/-- The counts of a finished run. -/
structure Stats where
  /-- Charged transfers. -/
  steps : Nat
  /-- Items taken from the queue. -/
  dequeued : Nat
  /-- Different items ever queued. -/
  pairs : Nat
  deriving DecidableEq, Repr, Inhabited

/-- A cancellation check: what it answers to its first, second, … question, and how
    many it has been asked. -/
structure Check where
  answer : Nat → Bool
  asked : Nat

namespace Check

def start (answer : Nat → Bool) : Check := ⟨answer, 0⟩

/-- Asks the next question. -/
def ask (c : Check) : Bool × Check := (c.answer (c.asked + 1), { c with asked := c.asked + 1 })

end Check

structure Problem (F : Type) where
  graph : Digraph
  direction : Direction
  order : Order
  budget : Nat
  /-- Items between two questions to the cancellation check; none counts as one. -/
  interval : Nat
  transfer : Nat → F → Result (Flow F)

/-- What a run did besides its result. -/
structure Log (F : Type) where
  /-- The items given to the transfer function, in order. -/
  calls : Array (Nat × F)
  dequeued : Nat
  check : Option Check

structure Outcome (F : Type) where
  result : Result Stats
  log : Log F

/-- A result, and the cancellation check as the computation leaves it. -/
structure Monitored (α : Type) where
  result : Result α
  check : Option Check

variable {F : Type}

namespace Problem

def ofConfig (graph : Digraph) (direction : Direction) (config : Config) (transfer : Nat → F → Result (Flow F)) :
    Problem F where
  graph := graph
  direction := direction
  order := config.order
  budget := config.budget graph.edgeCount
  interval := config.pollInterval
  transfer := transfer

/-- The most items that a run takes from its queue. -/
def cap (p : Problem F) : Nat := min (2 * p.budget) maxCount

/-- Where a fact goes from a node. -/
def neighbours (p : Problem F) (node : Nat) : Result (List Nat) :=
  match p.direction with
  | .forward => p.graph.successors node
  | .backward => p.graph.predecessors node

/-- The run gives up after so many steps. -/
def giveUp {α : Type} (p : Problem F) (steps : Nat) : Result α := .error (.error (.tooComplex steps p.budget))

end Problem

namespace Log

def start (check : Option Check) : Log F := ⟨#[], 0, check⟩

/-- Counts an item as taken from the queue. -/
def dequeue (l : Log F) : Log F := { l with dequeued := l.dequeued + 1 }

/-- Notes an item as given to the transfer function. -/
def call (l : Log F) (item : Nat × F) : Log F := { l with calls := l.calls.push item }

/-- Asks the check whether the run is cancelled, when it is due. -/
def poll (interval : Nat) (l : Log F) : Result (Bool × Log F) := do
  if (← remainder l.dequeued (max interval 1)) = 0 then
    match l.check with
    | some check =>
      let (cancelled, check) := check.ask
      return (cancelled, { l with check := some check })
    | none => return (false, l)
  else return (false, l)

end Log

/-- How often a check has been asked; never, if there is none. -/
def polls (check : Option Check) : Nat :=
  match check with
  | some check => check.asked
  | none => 0

/-- Reads the answer off the items of a run that succeeded. -/
def Outcome.collect {α : Type} (o : Outcome F) (answer : List (Nat × F) → Result α) : Monitored α :=
  match o.result with
  | .ok _ => ⟨answer o.log.calls.toList, o.log.check⟩
  | .error e => ⟨.error e, o.log.check⟩

variable [DecidableEq F] [Hashable F]

/-- The items known and those still to do. -/
structure Agenda (F : Type) [DecidableEq F] [Hashable F] where
  /-- For each fact, the nodes it has been queued with. -/
  seen : Std.HashMap F BitSet
  queue : Deque (Nat × F)
  steps : Nat
  pairs : Nat

namespace Agenda

def empty : Agenda F := ⟨∅, Deque.empty, 0, 0⟩

/-- Queues an item on a graph of `count` nodes, unless it is known. -/
def enqueue (count : Nat) (a : Agenda F) (item : Nat × F) : Result (Agenda F) :=
  let (node, fact) := item
  if node < count then do
    let (nodes, fresh) ← (a.seen.getD fact (BitSet.empty count)).insert node
    if fresh then
      return { a with seen := a.seen.insert fact nodes, queue := a.queue.push item, pairs := a.pairs + 1 }
    else return a
  else reject (.badNode node count)

def enqueueAll (count : Nat) (a : Agenda F) (items : List (Nat × F)) : Result (Agenda F) :=
  items.foldlM (enqueue count) a

/-- Charges one step, if the budget allows it. -/
def charge (p : Problem F) (a : Agenda F) : Result (Agenda F) :=
  if a.steps + 1 ≤ p.budget then .ok { a with steps := a.steps + 1 } else p.giveUp (a.steps + 1)

/-- Queues a fact at each of the given nodes. -/
def spread (p : Problem F) (fact : F) (targets : List Nat) (a : Agenda F) : Result (Agenda F) :=
  a.enqueueAll p.graph.nodeCount (targets.map (·, fact))

/-- Works off one item that has been taken from the queue. -/
def process (p : Problem F) (a : Agenda F) (node : Nat) (fact : F) : Result (Agenda F) := do
  let neighbours ← p.neighbours node
  match ← p.transfer node fact with
  | .continue out => (← a.charge p).spread p out neighbours
  | .pass out => a.spread p out neighbours
  | .redirect out targets => (← a.charge p).spread p out targets
  | .stop => a.charge p

end Agenda

/-- Works off the queue; at most `left` more items may be given to the transfer
    function. -/
def loop (p : Problem F) (left : Nat) (a : Agenda F) (l : Log F) : Outcome F :=
  match a.queue.pop p.order with
  | none => ⟨.ok ⟨a.steps, l.dequeued, a.pairs⟩, l⟩
  | some ((node, fact), queue) =>
    match l.dequeue.poll p.interval with
    | .error e => ⟨.error e, l.dequeue⟩
    | .ok (true, l) => ⟨.error (.error .cancelled), l⟩
    | .ok (false, l) =>
      match left with
      | 0 => ⟨p.giveUp a.steps, l⟩
      | left + 1 =>
        match Agenda.process p { a with queue } node fact with
        | .error e => ⟨.error e, l.call (node, fact)⟩
        | .ok a => loop p left a (l.call (node, fact))

/-- Propagates the seeds until there is nothing new. -/
def run (p : Problem F) (check : Option Check) (seeds : List (Nat × F)) : Outcome F :=
  match Agenda.empty.enqueueAll p.graph.nodeCount seeds with
  | .error e => ⟨.error e, Log.start check⟩
  | .ok a => loop p p.cap a (Log.start check)

end StackFlow.Worklist
