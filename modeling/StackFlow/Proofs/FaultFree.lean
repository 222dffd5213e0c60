import StackFlow.Proofs.LivenessTotal
import StackFlow.Proofs.OriginQueries
import StackFlow.Proofs.RegionOwnership

/-!
No analysis of a routine breaks a contract of the library. Instructions reject frames that
do not suit them, and so do frames that do not suit each other; everything else that is
looked up on the way is there. What an analysis reports is an error for the caller, even
if the frames it is given have nothing to do with the routine (`analyses_never_fault`).
-/
namespace StackFlow

open Routine Worklist

namespace Frame

variable {α : Type}

theorem pop_malformed (frame : Frame α) : FailsOnly Failure.Malformed frame.pop := by
  unfold pop
  split
  · exact .ok _
  · exact .reject _

theorem popN_malformed (frame : Frame α) (count : Nat) : FailsOnly Failure.Malformed (frame.popN count) := by
  unfold popN
  split
  · exact .ok _
  · exact .reject _

theorem readLocal_malformed (frame : Frame α) (slot : UInt16) : FailsOnly Failure.Malformed (frame.readLocal slot) := by
  unfold readLocal
  split
  · exact .ok _
  · exact .reject _

theorem writeLocal_malformed (frame : Frame α) (slot : UInt16) (x : α) :
    FailsOnly Failure.Malformed (frame.writeLocal slot x) := by
  unfold writeLocal
  split
  · exact .ok _
  · exact .reject _

/-- An instruction either runs on a frame or finds it malformed. -/
theorem step_malformed (scope : Scope) (fresh : α) (instr : Instr) (frame : Frame α) :
    FailsOnly Failure.Malformed (frame.step scope fresh instr) := by
  cases instr with
  | nop | label | lineMarker | boundary | goto _ | pushConst | new | jsr _ => exact .ok _
  | load v =>
    refine (scope.find_malformed v).bind fun var _ => ?_
    split
    · exact (frame.readLocal_malformed _).bind fun x _ => .ok _
    · exact .ok _
  | store v =>
    refine frame.pop_malformed.bind fun popped _ => (scope.find_malformed v).bind fun var _ => ?_
    split
    · exact popped.2.writeLocal_malformed _ _
    · exact .ok _
  | discard v =>
    refine (scope.find_malformed v).bind fun var _ => ?_
    split
    · exact frame.writeLocal_malformed _ _
    · exact .ok _
  | dup | pop | switch _ _ | throw => exact frame.pop_malformed.bind fun popped _ => .ok _
  | swap => exact frame.pop_malformed.bind fun popped _ => popped.2.pop_malformed.bind fun popped _ => .ok _
  | compute _ | arrayRead | invoke _ _ _ => exact (frame.popN_malformed _).bind fun rest _ => .ok _
  | fieldWrite _ | arrayWrite | branch _ _ => exact frame.popN_malformed _
  | fieldRead isStatic =>
    cases isStatic with
    | true => exact .ok _
    | false => exact frame.pop_malformed.bind fun popped _ => .ok _
  | «return» value =>
    cases value with
    | true => exact frame.pop_malformed.bind fun popped _ => .ok _
    | false => exact .ok _
  | ret slot => exact (frame.readLocal_malformed slot).bind fun x _ => .ok _

theorem source_malformed (scope : Scope) (instr : Instr) (frame : Frame α) (after : Location) :
    FailsOnly Failure.Malformed (frame.source scope instr after) := by
  refine (step_malformed scope _ instr frame.marker).bind fun stepped _ => ?_
  split
  · exact .ok _
  · exact .ok _
  · exact .reject _

end Frame

namespace Survey

variable {r : Routine} {s : Survey} {locals : Nat}

theorem merge_malformed (incoming : Frame Value) {index : Nat} (inside : index < s.frames.size) :
    FailsOnly Failure.Malformed (merge incoming s index) := by
  unfold merge
  rw [dif_pos inside]
  split
  · split
    · exact .ok _
    · exact .reject _
  · exact .ok _

/-- Handing a frame to instructions of the routine can only find that shapes differ. -/
theorem foldlM_merge_malformed (incoming : Frame Value) {indices : List Nat}
    (inside : ∀ j ∈ indices, j < s.frames.size) : FailsOnly Failure.Malformed (indices.foldlM (merge incoming) s) := by
  refine FailsOnly.foldlM (fun t : Survey => t.frames.size = s.frames.size) rfl fun j member t sized => ⟨?_, ?_⟩
  · exact merge_malformed incoming (sized ▸ inside j member)
  · intro u run
    exact (merged_of_merge run).size.trans sized

theorem Sound.advance_malformed (built : r.Built) {index : Nat} {rest : List Nat} (sound : Sound r locals s)
    (waiting : s.pending = index :: rest) :
    FailsOnly Failure.Malformed (Survey.advance r { s with pending := rest } index) := by
  obtain ⟨f, framed⟩ := sound.framed index (by simp [waiting])
  obtain ⟨instr, listed⟩ := sound.getElem?_code framed
  have normal : ∀ j ∈ normalTargets (returnPoints r.code) index instr, j < r.size :=
    fun j member => built.lt_of_passes ((built.passes_normal listed).mpr member)
  have exceptional : ∀ j ∈ handlersAt r.ranges index, j < r.size :=
    fun j member => built.lt_of_passes ((built.passes_exceptional listed).mpr member)
  rw [advance_eq built (s := { s with pending := rest }) framed listed]
  refine (f.step_malformed r.scope .unknown instr |>.bind fun after _ => ?_)
  refine (foldlM_merge_malformed after fun j member => sound.size.symm ▸ normal j member).bind fun u first => ?_
  have size : u.frames.size = r.size := (merged_of_foldlM first).size.trans sound.size
  exact foldlM_merge_malformed _ fun j member => size.symm ▸ exceptional j member

theorem Sound.finish_malformed (built : r.Built) (sound : Sound r locals s) :
    FailsOnly Failure.Malformed (Survey.finish r s) := by
  fun_induction Survey.finish r s with
  | case1 s pending => exact .ok _
  | case2 s index rest pending e failed =>
    rintro e' ⟨⟩
    exact sound.advance_malformed built pending e failed
  | case3 s index rest pending next advanced _ ih => exact ih (sound.advance built pending advanced)

end Survey

variable {r : Routine}

theorem frames_malformed (built : r.Built) (locals : Nat) : FailsOnly Failure.Malformed (r.frames locals) := by
  rw [Survey.frames_eq built.nonempty]
  exact (Survey.sound_initial locals built.nonempty).finish_malformed built

/-- Whatever frames it is given, the search for origins does not fault. -/
theorem Origins.resultOrigins_reported (built : r.Built) (config : Config) (check : Option Check)
    (frames : Array (Option (Frame Value))) :
    FailsOnly Failure.Reported (Origins.resultOrigins r config check frames).result := by
  by_cases sized : frames.size = r.size
  · cases found : Origins.seeds r frames with
    | ok items =>
      exact Origins.trace_failsOnly built sized found (fun e => Stopped.reported) fun item frame instr _ _ _ =>
        (frame.source_malformed r.scope instr item.2).mono fun e => Failure.Malformed.reported
    | error e =>
      rw [Origins.resultOrigins_of_error sized found]
      rintro e' ⟨⟩
      exact (Origins.seeds_malformed built sized e found).reported
  · unfold Origins.resultOrigins
    rw [if_neg sized]
    exact (FailsOnly.reject _).mono fun e => Failure.Malformed.reported

/-- Giving up on live variables means that nothing is flushed. -/
theorem flushPlanOrEmpty_total (checked : r.Checked) (config : Config) : ∃ plan, r.flushPlanOrEmpty config = .ok plan := by
  obtain ⟨a, made, _, prepared⟩ := Liveness.ofRoutine_total checked
  have stops : FailsOnly (Stopped none) (r.flushPlan config) := by
    unfold Routine.flushPlan
    rw [made]
    exact Liveness.flushPlan_stops prepared config none
  unfold Routine.flushPlanOrEmpty
  cases planned : r.flushPlan config with
  | ok plan => exact ⟨plan, rfl⟩
  | error e =>
    obtain ⟨steps, budget, rfl⟩ := (stops e planned).gaveUp
    exact ⟨FlushPlan.empty, rfl⟩

/-- For every routine, with all settings and whatever frames: faults do not occur. -/
theorem analyses_never_fault {code : Array Instr} {ranges : List Range} {scope : Scope}
    (built : Routine.build code ranges scope = .ok r) (config : Config) (check : Option Check) (locals : Nat)
    (frames : Array (Option (Frame Value))) :
    FailsOnly Failure.Reported (r.frames locals) ∧
    FailsOnly Failure.Reported (Origins.resultOrigins r config check frames).result ∧
    (∃ s, Skeleton.ofRoutine r = .ok s) ∧
    (∃ a, Liveness.ofRoutine r = .ok a ∧ FailsOnly (Stopped check) (a.liveSets config check).result ∧
      FailsOnly (Stopped check) (a.flushPlan config check).result) ∧
    (∃ plan, r.flushPlanOrEmpty config = .ok plan) ∧ ∃ regions, Regions.partition r = .ok regions := by
  have checked := checked_of_build built
  refine ⟨?_, ?_, ?_, ?_, ?_, ?_⟩
  · exact (frames_malformed checked.toBuilt locals).mono fun e => Failure.Malformed.reported
  · exact Origins.resultOrigins_reported checked.toBuilt config check frames
  · exact Skeleton.ofRoutine_total checked.toBuilt
  · obtain ⟨a, made, _, prepared⟩ := Liveness.ofRoutine_total checked
    exact ⟨a, made, Liveness.liveSets_stops prepared config check, Liveness.flushPlan_stops prepared config check⟩
  · exact flushPlanOrEmpty_total checked config
  · obtain ⟨regions, found, _⟩ := Regions.partition_total checked.toBuilt
    exact ⟨regions, found⟩

/-- No budget for steps, and no interval between two looks at the check. -/
def starved : Config := { Config.standard with stepMultiplier := 0, pollInterval := 0 }

/-- A check that cancels as soon as it is asked. -/
def impatient : Option Check := some (Check.start fun _ => true)

/-- Too few locals, frames without any cells, and neither budget nor patience. -/
theorem analyses_never_fault_sharedEntry :
    ∃ r a, Origins.sharedEntry = .ok r ∧ Liveness.ofRoutine r = .ok a ∧
      (∃ e, r.frames 0 = .error e ∧ e.Reported) ∧
      (∃ e, (Origins.resultOrigins r starved impatient (Array.replicate 4 (some ⟨#[], #[]⟩))).result = .error e ∧
        e.Reported) ∧
      (∃ e, (a.liveSets starved impatient).result = .error e ∧ Stopped impatient e) ∧
      ∃ plan, r.flushPlanOrEmpty starved = .ok plan := by
  have computed : (do
      let r ← Origins.sharedEntry
      let a ← Liveness.ofRoutine r
      return (r.frames 0, (Origins.resultOrigins r starved impatient (Array.replicate 4 (some ⟨#[], #[]⟩))).result,
        (a.liveSets starved impatient).result) : Result _) =
      .ok (.error (.error (.malformed (.badSlot 0 0))), .error (.error (.malformed (.emptyReturn 3))),
        .error (.error .cancelled)) := by cbv
  obtain ⟨r, made, computed⟩ := bind_eq_ok.mp computed
  obtain ⟨a, ready, computed⟩ := bind_eq_ok.mp computed
  simp only [pure, Except.pure, Except.ok.injEq, Prod.mk.injEq] at computed
  obtain ⟨framed, traced, analysed⟩ := computed
  obtain ⟨scope, _, built⟩ := bind_eq_ok.mp made
  obtain ⟨frames, origins, _, ⟨a', ready', live, _⟩, plan, _⟩ :=
    analyses_never_fault built starved impatient 0 (Array.replicate 4 (some ⟨#[], #[]⟩))
  cases ready.symm.trans ready'
  exact ⟨r, a, made, ready, ⟨_, framed, frames _ framed⟩, ⟨_, traced, origins _ traced⟩, ⟨_, analysed, live _ analysed⟩,
    plan⟩

end StackFlow
