import StackFlow.Liveness.Flush
import StackFlow.Origins
import StackFlow.Regions

/-!
All analyses of a list of routines. Each analysis fails on its own; a token cancels
them, at once or when its deadline has passed.
-/
namespace StackFlow

open Worklist

/-- A request to stop. Times are counted in nanoseconds. -/
structure Token where
  cancelled : Bool
  deadline : Option Nat
  deriving DecidableEq, Repr, Inhabited

namespace Token

/-- The last time that a clock can show: its seconds are words of 63 bits. -/
def lastTime : Nat := 9223372036854775808 * 1000000000 - 1

def fresh : Token := ⟨false, none⟩

/-- A token that expires some time after `now`; never, if that is beyond all clocks. -/
def withTimeout (now timeout : Nat) : Token :=
  ⟨false, if now + timeout ≤ lastTime then some (now + timeout) else none⟩

def cancel (t : Token) : Token := { t with cancelled := true }

def isCancelled (t : Token) (now : Nat) : Bool := t.cancelled || t.deadline.any (· ≤ now)

end Token

/-- A named routine and the number of its local slots. -/
structure Job where
  name : String
  routine : Routine
  locals : Nat

structure Report where
  name : String
  origins : Result (Array Bool)
  flushPlan : Result FlushPlan
  regions : Result RegionMap

namespace Report

def isComplete (r : Report) : Bool := r.origins.isOk && r.flushPlan.isOk && r.regions.isOk

/-- Nothing was done. -/
def cancelled (name : String) : Report :=
  ⟨name, .error (.error .cancelled), .error (.error .cancelled), .error (.error .cancelled)⟩

/-- The origins of a job, from the frames of its routine. -/
def originsOf (job : Job) (config : Config) (check : Option Check) : Monitored (Array Bool) :=
  match job.routine.frames job.locals with
  | .error e => ⟨.error e, check⟩
  | .ok frames => Origins.resultOrigins job.routine config check frames

/-- The flush plan of a job. -/
def flushPlanOf (job : Job) (config : Config) (check : Option Check) : Monitored FlushPlan :=
  match Liveness.ofRoutine job.routine with
  | .error e => ⟨.error e, check⟩
  | .ok a => a.flushPlan config check

/-- Analyses one job. The `k`-th look at the clock shows `clock k`. -/
def ofJob (config : Config) (token : Token) (clock : Nat → Nat) (job : Job) : Report :=
  if token.isCancelled (clock 0) then cancelled job.name
  else
    let check := Check.start fun k => token.isCancelled (clock k)
    let origins := originsOf job config (some check)
    let flushPlan := flushPlanOf job config origins.check
    ⟨job.name, origins.result, flushPlan.result, Regions.partition job.routine⟩

/-- Analyses jobs, and reports on them in their order. -/
def ofJobs (config : Config) (token : Token) (clock : Nat → Nat) (jobs : List Job) : List Report :=
  jobs.map (ofJob config token clock)

end Report

end StackFlow
