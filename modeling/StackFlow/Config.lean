import StackFlow.Producer

/-!
The limits and choices of an analysis. Budgets are counted in machine words and
stick at the largest of them.
-/
namespace StackFlow

/-- Which waiting work item comes next. -/
inductive Order where
  /-- The one that waits longest. -/
  | fifo
  /-- The one that came last. -/
  | lifo
  deriving DecidableEq, Repr, Inhabited

/-- The largest count: counts are words of 64 bits. -/
def maxCount : Nat := UInt64.size - 1

structure Config where
  /-- Steps allowed for each edge of the graph. -/
  stepMultiplier : Nat
  /-- Work items between two looks at the cancellation check. -/
  pollInterval : Nat
  order : Order
  /-- Producers that are not reported as origins. -/
  hidden : ProducerSet
  deriving DecidableEq, Inhabited

namespace Config

def standard : Config := ⟨100, 1024, .fifo, ProducerSet.standard⟩

def fast : Config := { standard with stepMultiplier := 20, pollInterval := 256 }

def thorough : Config := { standard with stepMultiplier := 1000, pollInterval := 4096 }

def withPollInterval (c : Config) (interval : Nat) : Config := { c with pollInterval := max interval 1 }

/-- The steps allowed on a graph with so many edges; a graph without edges counts as
    one with a single edge. -/
def budget (c : Config) (edges : Nat) : Nat := min (max edges 1 * c.stepMultiplier) maxCount

end Config

end StackFlow
