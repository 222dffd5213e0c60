import Mathlib
import StackFlow.Proofs.FrameTransport

/-!
What the markers tell about a step. Running an instruction on markers shows, for each cell
of the result, the cell that its contents come from, and since the machine does not look
into the cells, that holds of a frame with any contents (`source_parametric`). The cells
have to be few enough for each of them to have a location of its own.
-/
namespace StackFlow.Frame

variable {α β : Type} {scope : Scope} {instr : Instr} {fresh : α}

theorem marker_sameShape (frame : Frame α) : frame.marker.sameShape frame = true :=
  sameShape_iff.mpr ⟨numLocals_marker frame, depth_marker frame⟩

/-- Frames of one shape fail in one way. -/
theorem step_error_shape {a : Frame α} {b : Frame β} {e : Failure} (same : a.sameShape b = true)
    (failed : a.step scope fresh instr = .error e) (y : β) : b.step scope y instr = .error e := by
  cases ran : b.step scope y instr with
  | ok b' =>
    obtain ⟨a', run, _⟩ := step_shape (sameShape_symm same) ran fresh
    cases failed.symm.trans run
  | error e' =>
    obtain ⟨locals, depths⟩ := sameShape_iff.mp same
    have left := step_map scope (fun _ => ()) fresh instr a
    have right := step_map scope (fun _ => ()) y instr b
    rw [map_unit, locals, depths, ← map_unit, right, failed, ran] at left
    exact congrArg Except.error (Except.error.inj left)

theorem number_lt {frame : Frame α} (slots : frame.numLocals ≤ 65536) (cells : frame.depth ≤ 65536) (cell : frame.Cell) :
    frame.number cell < UInt16.size := by
  cases cell with
  | inl slot => exact Nat.lt_of_lt_of_le slot.isLt slots
  | inr depth => exact Nat.lt_of_lt_of_le depth.isLt cells

variable {frame next : Frame α}

/-- The markers take a step just if the frame does. -/
theorem marker_step_iff :
    (∃ stepped, frame.marker.step scope .unknown instr = .ok stepped) ↔
      ∃ next, frame.step scope fresh instr = .ok next := by
  constructor
  · rintro ⟨stepped, run⟩
    obtain ⟨next, run', _⟩ := step_shape (marker_sameShape frame) run fresh
    exact ⟨next, run'⟩
  · rintro ⟨next, run⟩
    obtain ⟨stepped, run', _⟩ := step_shape (sameShape_symm (marker_sameShape frame)) run Value.unknown
    exact ⟨stepped, run'⟩

theorem marker_step_shape {stepped : Frame Value} (marked : frame.marker.step scope .unknown instr = .ok stepped)
    (run : frame.step scope fresh instr = .ok next) : stepped.sameShape next = true := by
  obtain ⟨next', run', same⟩ := step_shape (marker_sameShape frame) marked fresh
  cases run.symm.trans run'
  exact same

/-- What is not there after a step has no source. -/
theorem source_of_absent (run : frame.step scope fresh instr = .ok next) {after : Location}
    (absent : next.get? after = none) : ∃ e, frame.source scope instr after = .error e := by
  obtain ⟨stepped, marked⟩ := marker_step_iff.mpr ⟨next, run⟩
  have none : stepped.get? after = none := by
    by_contra held
    obtain ⟨x, found⟩ := (has_congr (marker_step_shape marked run)).mp (Option.ne_none_iff_exists'.mp held)
    cases absent.symm.trans found
  refine ⟨.error (.malformed (.missingCell after instr stepped.depth)), ?_⟩
  simp only [source, marked, none, bind, Except.bind]
  rfl

theorem source_eq_error_iff (run : frame.step scope fresh instr = .ok next) {after : Location} :
    (∃ e, frame.source scope instr after = .error e) ↔ next.get? after = none := by
  constructor
  · rintro ⟨e, failed⟩
    by_contra held
    obtain ⟨before, traced⟩ := source_total run (Option.ne_none_iff_exists'.mp held)
    cases failed.symm.trans traced
  · exact source_of_absent run

/-- The source of a cell has its contents. -/
theorem get?_of_source (slots : frame.numLocals ≤ 65536) (cells : frame.depth ≤ 65536)
    (run : frame.step scope fresh instr = .ok next) {after before : Location}
    (moved : frame.source scope instr after = .ok (some before)) : next.get? after = frame.get? before := by
  cases held : next.get? after with
  | none =>
    obtain ⟨e, failed⟩ := source_of_absent run held
    cases moved.symm.trans failed
  | some x =>
    rcases source_of_step run held with ⟨made, _⟩ | ⟨cell, moved', rfl⟩
    · cases moved.symm.trans made
    · cases moved.symm.trans moved'
      exact (get?_place (number_lt slots cells cell)).symm

/-- What has no source in the frame is new. -/
theorem get?_of_made (run : frame.step scope fresh instr = .ok next) {after : Location}
    (made : frame.source scope instr after = .ok none) : next.get? after = some fresh := by
  cases held : next.get? after with
  | none =>
    obtain ⟨e, failed⟩ := source_of_absent run held
    cases made.symm.trans failed
  | some x =>
    rcases source_of_step run held with ⟨_, rfl⟩ | ⟨cell, moved, _⟩
    · rfl
    · cases made.symm.trans moved

/-- Markers speak for frames of any contents. They take a step just if the frame does, and
    arrive at the same shape; the cells that have a source are those of the resulting frame,
    and each of them holds what its source held, or what is new. If the step fails, so does
    every question for a source, in the same way. -/
theorem source_parametric (scope : Scope) (instr : Instr) (fresh : α) (frame : Frame α)
    (slots : frame.numLocals ≤ 65536) (cells : frame.depth ≤ 65536) :
    ((∃ stepped, frame.marker.step scope .unknown instr = .ok stepped) ↔
      ∃ next, frame.step scope fresh instr = .ok next) ∧
    (∀ stepped next, frame.marker.step scope .unknown instr = .ok stepped → frame.step scope fresh instr = .ok next →
      stepped.numLocals = next.numLocals ∧ stepped.depth = next.depth) ∧
    (∀ next, frame.step scope fresh instr = .ok next → ∀ after,
      ((∃ e, frame.source scope instr after = .error e) ↔ next.get? after = none) ∧
      (∀ before, frame.source scope instr after = .ok (some before) →
        (∃ x, frame.get? before = some x) ∧ next.get? after = frame.get? before) ∧
      (frame.source scope instr after = .ok none → next.get? after = some fresh)) ∧
    ∀ e, frame.step scope fresh instr = .error e → ∀ after, frame.source scope instr after = .error e := by
  refine ⟨marker_step_iff, fun stepped next marked run => ?_, fun next run after => ⟨?_, ?_, ?_⟩, ?_⟩
  · exact sameShape_iff.mp (marker_step_shape marked run)
  · exact source_eq_error_iff run
  · intro before moved
    exact ⟨has_of_source moved, get?_of_source slots cells run moved⟩
  · exact get?_of_made run
  · intro e failed after
    have marked := step_error_shape (sameShape_symm (marker_sameShape frame)) failed Value.unknown
    simp only [source, marked, bind, Except.bind]

/-- One local with a value from elsewhere, and two values on the stack. -/
def crossed : Frame Value := ⟨#[.from (.local 7)], #[.unknown, .from (.stack 9)]⟩

theorem source_parametric_crossed :
    ∃ scope next, Scope.empty.declareAll [.local 0 Flags.none] = .ok scope ∧
      crossed.step scope .unknown (.store 0) = .ok next ∧ next.get? (.local 0) = crossed.get? (.stack 1) ∧
      next.get? (.stack 0) = crossed.get? (.stack 0) ∧
      (∃ e, crossed.source scope (.store 0) (.stack 1) = .error e) ∧
      crossed.source Scope.empty (.store 0) (.local 0) = .error (.error (.malformed (.unknownVariable 0 0))) := by
  have computed : (do
      let scope ← Scope.empty.declareAll [.local 0 Flags.none]
      let next ← crossed.step scope .unknown (.store 0)
      return (crossed.source scope (.store 0) (.local 0), crossed.source scope (.store 0) (.stack 0),
        next.get? (.stack 1)) : Result _) = .ok (.ok (some (.stack 1)), .ok (some (.stack 0)), none) := by cbv
  have unknown : crossed.step Scope.empty .unknown (.store 0) = .error (.error (.malformed (.unknownVariable 0 0))) := by
    cbv
  obtain ⟨scope, declared, computed⟩ := bind_eq_ok.mp computed
  obtain ⟨next, run, computed⟩ := bind_eq_ok.mp computed
  simp only [pure, Except.pure, Except.ok.injEq, Prod.mk.injEq] at computed
  obtain ⟨stored, kept, absent⟩ := computed
  obtain ⟨_, _, sources, _⟩ := source_parametric scope (.store 0) .unknown crossed (by decide) (by decide)
  obtain ⟨_, _, _, fails⟩ := source_parametric Scope.empty (.store 0) .unknown crossed (by decide) (by decide)
  refine ⟨scope, next, declared, run, ?_, ?_, ?_, fails _ unknown _⟩
  · exact ((sources next run (.local 0)).2.1 _ stored).2
  · exact ((sources next run (.stack 0)).2.1 _ kept).2
  · exact (sources next run (.stack 1)).1.mpr absent

end StackFlow.Frame
