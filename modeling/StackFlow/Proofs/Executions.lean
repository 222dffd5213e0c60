import Mathlib.Logic.Relation
import StackFlow.Proofs.FrameTransport
import StackFlow.Proofs.RoutineEdges

/-!
Executions of a routine. A walk goes from the first instruction over normal and
exceptional passages, and carries a frame along: a normal passage takes a step, an
exceptional one keeps the locals and leaves the exception alone on the stack. What the
cells hold is left open, so that walks can carry plain frames as well as frames of tags;
the shape of the frame is the same for all of them (`carry_shape`).
-/
namespace StackFlow.Routine

variable {α β : Type} {r : Routine}

/-- A walk from the first instruction: the instructions that it has left, each with the
    way it was left, and the instruction where it is. -/
inductive Walk (r : Routine) : List (Nat × Passage) → Nat → Prop
  | start : Walk r [] 0
  | move {path : List (Nat × Passage)} {i j : Nat} {passage : Passage} (way : Walk r path i) (pass : r.Passes i passage j) :
      Walk r (path ++ [(i, passage)]) j

/-- The frame with which control leaves an instruction. A value that the instruction at
    `i` makes is `fresh i`; an exception is `blank`. -/
def leave (r : Routine) (fresh : Nat → α) (blank : α) (frame : Frame α) : Nat × Passage → Result (Frame α)
  | (i, .normal) => do frame.step r.scope (fresh i) (← r.instr i)
  | (_, .exceptional) => .ok (frame.handlerEntry blank)

/-- The frame with which a walk arrives. It starts with blank locals and an empty stack. -/
def carry (r : Routine) (fresh : Nat → α) (blank : α) (locals : Nat) (path : List (Nat × Passage)) : Result (Frame α) :=
  path.foldlM (r.leave fresh blank) (Frame.filled blank locals 0)

/-- A walk with a frame of which nothing but the shape is known. -/
def simulate (r : Routine) (locals : Nat) (path : List (Nat × Passage)) : Result (Frame Value) :=
  r.carry (fun _ => .unknown) .unknown locals path

theorem carry_snoc {fresh : Nat → α} {blank : α} {locals : Nat} {path : List (Nat × Passage)} {leg : Nat × Passage}
    {next : Frame α} :
    r.carry fresh blank locals (path ++ [leg]) = .ok next ↔
      ∃ frame, r.carry fresh blank locals path = .ok frame ∧ r.leave fresh blank frame leg = .ok next := by
  unfold carry
  rw [List.foldlM_append, bind_eq_ok]
  refine exists_congr fun frame => and_congr_right fun _ => ?_
  rw [List.foldlM_cons, bind_eq_ok]
  constructor
  · rintro ⟨_, left, same⟩
    cases same
    exact left
  · intro left
    exact ⟨next, left, rfl⟩

theorem leave_normal {fresh : Nat → α} {blank : α} {frame next : Frame α} {i : Nat} {instr : Instr}
    (listed : r.code[i]? = some instr) :
    r.leave fresh blank frame (i, .normal) = .ok next ↔ frame.step r.scope (fresh i) instr = .ok next := by
  have decoded : r.instr i = .ok instr := fetch_eq_ok.mpr listed
  simp only [leave, decoded]
  rfl

theorem leave_numLocals {fresh : Nat → α} {blank : α} {frame next : Frame α} {leg : Nat × Passage}
    (left : r.leave fresh blank frame leg = .ok next) : next.numLocals = frame.numLocals := by
  obtain ⟨i, passage⟩ := leg
  cases passage with
  | normal =>
    obtain ⟨instr, _, run⟩ := bind_eq_ok.mp left
    exact Frame.numLocals_of_step run
  | exceptional =>
    cases left
    rfl

/-- Frames of one shape leave an instruction with one shape. -/
theorem leave_shape {a a' : Frame α} {b : Frame β} {fresh : Nat → α} {blank : α} {leg : Nat × Passage}
    (same : a.sameShape b = true) (left : r.leave fresh blank a leg = .ok a') (fresh' : Nat → β) (blank' : β) :
    ∃ b', r.leave fresh' blank' b leg = .ok b' ∧ a'.sameShape b' = true := by
  obtain ⟨i, passage⟩ := leg
  cases passage with
  | normal =>
    obtain ⟨instr, decoded, run⟩ := bind_eq_ok.mp left
    obtain ⟨b', run', shape⟩ := Frame.step_shape same run (fresh' i)
    exact ⟨b', bind_eq_ok.mpr ⟨instr, decoded, run'⟩, shape⟩
  | exceptional =>
    cases left
    exact ⟨_, rfl, Frame.handlerEntry_shape same _ _⟩

theorem carry_numLocals {fresh : Nat → α} {blank : α} {locals i : Nat} {path : List (Nat × Passage)} (way : r.Walk path i)
    {frame : Frame α} (carried : r.carry fresh blank locals path = .ok frame) : frame.numLocals = locals := by
  induction way generalizing frame with
  | start =>
    cases carried
    simp [Frame.filled, Frame.numLocals]
  | move way _ ih =>
    obtain ⟨before, carried, left⟩ := carry_snoc.mp carried
    exact (leave_numLocals left).trans (ih carried)

/-- No instruction writes a local whose number takes more than sixteen bits. -/
theorem carry_local_beyond {fresh : Nat → α} {blank : α} {locals i n : Nat} {path : List (Nat × Passage)}
    (way : r.Walk path i) {frame : Frame α} (carried : r.carry fresh blank locals path = .ok frame)
    (beyond : UInt16.size ≤ n) {x : α} (held : frame.locals[n]? = some x) : x = blank := by
  induction way generalizing frame with
  | start =>
    cases carried
    simp only [Frame.filled, Array.getElem?_replicate] at held
    split at held <;> cases held
    rfl
  | @move path i j passage way _ ih =>
    obtain ⟨before, arrived, left⟩ := carry_snoc.mp carried
    cases passage with
    | normal =>
      obtain ⟨instr, _, run⟩ := bind_eq_ok.mp left
      rcases Frame.locals_of_step run with same | ⟨slot, y, inside, _, changed⟩
      · exact ih arrived (same ▸ held)
      · have other : slot.toNat ≠ n := by
          have := slot.toNat_lt_size
          omega
        rw [changed, Array.getElem?_set_ne inside other] at held
        exact ih arrived held
    | exceptional =>
      cases left
      exact ih arrived held

/-- Along one walk, all frames have the same shape. -/
theorem carry_shape {fresh : Nat → α} {blank : α} {locals i : Nat} {path : List (Nat × Passage)} (way : r.Walk path i)
    {frame : Frame α} (carried : r.carry fresh blank locals path = .ok frame) (fresh' : Nat → β) (blank' : β) :
    ∃ frame', r.carry fresh' blank' locals path = .ok frame' ∧ frame.sameShape frame' = true := by
  induction way generalizing frame with
  | start =>
    cases carried
    exact ⟨_, rfl, by simp [Frame.sameShape, Frame.filled, Frame.numLocals, Frame.depth]⟩
  | move way _ ih =>
    obtain ⟨before, carried, left⟩ := carry_snoc.mp carried
    obtain ⟨before', carried', same⟩ := ih carried
    obtain ⟨next, left', shape⟩ := leave_shape same left fresh' blank'
    exact ⟨next, carry_snoc.mpr ⟨before', carried', left'⟩, shape⟩

/-- Walks go where the edges of the routine lead. -/
theorem Built.exists_walk_iff (built : r.Built) {i : Nat} :
    (∃ path, r.Walk path i) ↔ Relation.ReflTransGen r.flow.Edge 0 i := by
  constructor
  · rintro ⟨path, way⟩
    induction way with
    | start => exact .refl
    | move way pass ih => exact ih.tail (built.edge_iff.mpr ⟨_, pass⟩)
  · intro reached
    induction reached with
    | refl => exact ⟨[], .start⟩
    | tail _ edge ih =>
      obtain ⟨path, way⟩ := ih
      obtain ⟨passage, pass⟩ := built.edge_iff.mp edge
      exact ⟨_, way.move pass⟩

end StackFlow.Routine
