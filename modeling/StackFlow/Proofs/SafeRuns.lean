import StackFlow.Proofs.CheckedRuns
import StackFlow.Proofs.Failures

/-!
Runs that cannot go wrong. If nothing that is reached is off the graph and no transfer of
it fails, all that is given to the transfer function is reached, with any cancellation
check (`Sane.reached_of_call`), and the run fails only by giving up or being cancelled.
More generally, an answer fails only as transfers and the reading off of the answer do
(`collect_failsOnly`).
-/
namespace StackFlow.Worklist

variable {F : Type}

/-- Nothing that is reached is off the graph, and its transfer does not fail. -/
structure Sane (p : Problem F) (seeds : List (Nat × F)) : Prop where
  inside : ∀ item, Reached p seeds item → item.1 < p.graph.nodeCount
  transferred : ∀ item, Reached p seeds item → ∃ flow, p.transfer item.1 item.2 = .ok flow

/-- The run gave up, or was cancelled by its check. -/
def Stopped (check : Option Check) : Failure → Prop
  | .error (.tooComplex _ _) => True
  | .error .cancelled => check ≠ none
  | .error (.malformed _) | .fault _ => False

theorem Stopped.reported {check : Option Check} {e : Failure} (stopped : Stopped check e) : e.Reported := by
  cases e with
  | error e => trivial
  | fault f => exact stopped

theorem Stopped.mono {check check' : Option Check} {e : Failure} (stopped : Stopped check e)
    (kept : check ≠ none → check' ≠ none) : Stopped check' e := by
  match e with
  | .error (.tooComplex _ _) => trivial
  | .error .cancelled => exact kept stopped

theorem Stopped.gaveUp {e : Failure} (stopped : Stopped none e) : ∃ steps budget, e = .error (.tooComplex steps budget) := by
  match e with
  | .error (.tooComplex steps budget) => exact ⟨steps, budget, rfl⟩
  | .error .cancelled => exact absurd rfl stopped

variable [DecidableEq F] [Hashable F] {p : Problem F} {seeds : List (Nat × F)}

/-- Whatever a sane run does, it does to reached items. -/
theorem Sane.reached_of_call (sane : Sane p seeds) (check : Option Check) {item : Nat × F}
    (called : item ∈ (run p check seeds).log.calls.toList) : Reached p seeds item := by
  have free : ∀ item ∈ (run p none seeds).log.calls.toList, Reached p seeds item := by
    have verdict := (run_justified p seeds).verdict
    generalize (run p none seeds).result = result at verdict
    cases verdict with
    | complete exact _ _ _ => exact fun item => (exact item).mp
    | outside reached beyond => exact absurd (sane.inside _ reached) (Nat.not_lt.mpr beyond)
    | failed reached fails =>
      obtain ⟨flow, becomes⟩ := sane.transferred _ reached
      cases becomes.symm.trans fails
    | overspent reached _ => exact reached
    | overrun reached _ _ _ => exact fun item member => reached item (List.mem_cons_of_mem _ member)
  rcases run_follows p check seeds with ⟨_, front⟩ | ⟨_, same⟩
  · exact free item (front.mem called)
  · exact free item (same ▸ called)

/-- Failures of an answer come from the transfer of a reached item or from reading the
    answer off, unless the run gave up or was cancelled. -/
theorem collect_failsOnly {α : Type} {kind : Failure → Prop} {check : Option Check} (stops : ∀ e, Stopped check e → kind e)
    (inside : ∀ item, Reached p seeds item → item.1 < p.graph.nodeCount)
    (transfers : ∀ item, Reached p seeds item → FailsOnly kind (p.transfer item.1 item.2))
    {answer : List (Nat × F) → Result α}
    (answers : ∀ calls, (∀ item, item ∈ calls ↔ Reached p seeds item) →
      (∀ item ∈ calls, ∃ flow, p.transfer item.1 item.2 = .ok flow) → FailsOnly kind (answer calls)) :
    FailsOnly kind ((run p check seeds).collect answer).result := by
  rcases collect_follows p check seeds answer with ⟨checked, cancelled⟩ | same
  · rw [cancelled]
    rintro e ⟨⟩
    exact stops _ checked
  · rw [same]
    have verdict := (run_justified p seeds).verdict
    unfold Outcome.collect
    generalize (run p none seeds).result = result at verdict
    cases verdict with
    | complete exact _ transferred _ => exact answers _ exact transferred
    | outside reached beyond => exact absurd (inside _ reached) (Nat.not_lt.mpr beyond)
    | failed reached fails =>
      rintro e ⟨⟩
      exact transfers _ reached _ fails
    | overspent _ _ | overrun _ _ _ _ =>
      rintro e ⟨⟩
      exact stops _ trivial

end StackFlow.Worklist
