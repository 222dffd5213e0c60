import Mathlib
import StackFlow.Proofs.FramesExact
import StackFlow.Proofs.OriginTrails

/-!
The origins found, against executions whose values are tagged with the instructions that
made them. Going back along a walk from a return, the trace stays with the cell that holds
the tag (`tag_of_step`) and so ends at the instruction of the tag (`traced_of_walk`). There
are two ways to lose the tag. An exception leaves the locals as they were before the
instruction, but the trace goes back over the instruction as if it had been completed, so
it misses a local that the instruction would have overwritten. And the trace tells stack
cells apart only if their numbers fit in sixteen bits. Otherwise no origin is missed
(`origins_sound`).
-/
namespace StackFlow.Origins

open Worklist Routine

variable {r : Routine} {frames : Array (Option (Frame Value))} {locals tag : Nat}

/-- The frame with which a walk arrives, with each value tagged by the instruction that
    made it. What was there at the start and caught exceptions have no tag. -/
def tagged (r : Routine) (locals : Nat) (path : List (Nat × Passage)) : Result (Frame (Option Nat)) :=
  r.carry some none locals path

/-- The walk never loses the tag: an exception comes from no instruction that writes a
    local where the tag is, and the tag is in no stack cell without a location. -/
structure Keeps (r : Routine) (locals tag : Nat) (path : List (Nat × Passage)) : Prop where
  unwritten : ∀ front i rest frame instr slot, path = front ++ (i, .exceptional) :: rest →
    tagged r locals front = .ok frame → r.code[i]? = some instr → instr.writtenSlot r.scope = some slot →
    frame.get? (.local slot) ≠ some (some tag)
  located : ∀ front rest frame depth, path = front ++ rest → tagged r locals front = .ok frame →
    frame.stack[depth]? = some (some tag) → depth < UInt16.size

theorem Keeps.front {path : List (Nat × Passage)} {leg : Nat × Passage} (keeps : Keeps r locals tag (path ++ [leg])) :
    Keeps r locals tag path := by
  constructor
  · intro front i rest frame instr slot split
    exact keeps.unwritten front i (rest ++ [leg]) frame instr slot (by rw [split]; simp)
  · intro front rest frame depth split
    exact keeps.located front (rest ++ [leg]) frame depth (by rw [split]; simp)

/-- A cell with the tag is at its place. -/
theorem get?_place {path : List (Nat × Passage)} {i : Nat} (way : r.Walk path i) (keeps : Keeps r locals tag path)
    {frame : Frame (Option Nat)} (carried : tagged r locals path = .ok frame) {cell : frame.Cell}
    (held : frame.contents cell = some tag) : frame.get? (frame.place cell) = some (some tag) := by
  have small : frame.number cell < UInt16.size := by
    cases cell with
    | inl slot =>
      by_contra beyond
      have there : frame.locals[slot.val]? = some (some tag) :=
        (Array.getElem?_eq_getElem slot.isLt).trans (congrArg some held)
      cases carry_local_beyond way carried (Nat.not_lt.mp beyond) there
    | inr depth =>
      have there : frame.stack[depth.val]? = some (some tag) :=
        (Array.getElem?_eq_getElem depth.isLt).trans (congrArg some held)
      exact keeps.located path [] frame depth.val (by simp) carried there
  rw [Frame.get?_place small, held]

theorem frame_of_walk (sound : Survey.Sound r locals ⟨frames, []⟩) {path : List (Nat × Passage)} {i : Nat}
    (way : r.Walk path i) {frame : Frame (Option Nat)} (carried : tagged r locals path = .ok frame) :
    ∃ f, frames[i]? = some (some f) ∧ f.sameShape frame = true := by
  obtain ⟨plain, f, arrived, found, same⟩ := sound.carried rfl way
  obtain ⟨plain', arrived', same'⟩ := carry_shape way carried (fun _ => Value.unknown) .unknown
  cases arrived.symm.trans arrived'
  exact ⟨f, found, Frame.sameShape_trans same (Frame.sameShape_symm same')⟩

/-- The tag after an instruction has been put there by the instruction, or was in the
    location from which the trace sees it come. -/
theorem tag_of_step (sound : Survey.Sound r locals ⟨frames, []⟩) {path : List (Nat × Passage)} {i : Nat}
    (way : r.Walk path i) (keeps : Keeps r locals tag path) {before after : Frame (Option Nat)}
    (carried : tagged r locals path = .ok before) {instr : Instr} (listed : r.code[i]? = some instr)
    (run : before.step r.scope (some i) instr = .ok after) {place : Location}
    (held : after.get? place = some (some tag)) :
    (tag = i ∧ Makes r frames i place) ∨
      ∃ source, before.get? source = some (some tag) ∧ Moves r frames i source place := by
  obtain ⟨f, found, same⟩ := frame_of_walk sound way carried
  have shape := Frame.source_congr same r.scope instr place
  rcases Frame.source_of_step run held with ⟨made, mine⟩ | ⟨cell, moved, mine⟩
  · exact .inl ⟨Option.some.inj mine, instr, f, listed, found, shape.trans made⟩
  · exact .inr ⟨_, get?_place way keeps carried mine.symm, instr, f, listed, found, shape.trans moved⟩

/-- If the trace follows the cell of a tag from the end of a walk, it finds the instruction
    of the tag. -/
theorem traced_of_walk (built : r.Built) (sound : Survey.Sound r locals ⟨frames, []⟩) {path : List (Nat × Passage)}
    {j : Nat} (way : r.Walk path j) (keeps : Keeps r locals tag path) {frame : Frame (Option Nat)}
    (carried : tagged r locals path = .ok frame) {place : Location} (held : frame.get? place = some (some tag))
    (follows : ∀ i, Brings r i j place → Traced r frames i place) :
    ∃ after, Traced r frames tag after ∧ Makes r frames tag after := by
  induction way generalizing frame place with
  | start =>
    cases carried
    cases place with
    | «local» slot =>
      simp only [Frame.filled, Frame.get?, Array.getElem?_replicate] at held
      split at held <;> cases held
    | stack depth => simp [Frame.filled, Frame.get?] at held
  | @move path i j passage way pass ih =>
    obtain ⟨before, arrived, left⟩ := carry_snoc.mp carried
    have edge := built.edge_iff.mpr ⟨passage, pass⟩
    -- Whichever way control goes on, the completed instruction would have the tag in `place`.
    obtain ⟨instr, after, listed, run, held, traced⟩ : ∃ instr after, r.code[i]? = some instr ∧
        before.step r.scope (some i) instr = .ok after ∧ after.get? place = some (some tag) ∧ Traced r frames i place := by
      cases passage with
      | normal =>
        obtain ⟨instr, decoded, run⟩ := bind_eq_ok.mp left
        exact ⟨instr, frame, fetch_eq_ok.mp decoded, run, held, follows i ⟨edge, fun _ _ => pass⟩⟩
      | exceptional =>
        cases left
        cases place with
        | stack depth =>
          -- The one value on the stack is the exception, and it has no tag.
          simp only [Frame.handlerEntry, Frame.get?, Array.getElem?_singleton] at held
          split at held <;> cases held
        | «local» slot =>
          obtain ⟨f, found, same⟩ := frame_of_walk sound way arrived
          obtain ⟨instr, after, listed, run⟩ := sound.step_total rfl found same (some i)
          have kept : instr.writtenSlot r.scope ≠ some slot := fun written =>
            keeps.unwritten path i [] before instr slot rfl arrived listed written held
          refine ⟨instr, after, listed, run, ?_, follows i ⟨edge, fun _ stack => by cases stack⟩⟩
          rw [Frame.get?_local_of_step run kept]
          exact held
    rcases tag_of_step sound way keeps.front arrived listed run held with ⟨rfl, makes⟩ | ⟨source, there, moves⟩
    · exact ⟨place, traced, makes⟩
    · exact ih keeps.front arrived there fun i brings => .moved traced moves brings

theorem returns_of_tag (sound : Survey.Sound r locals ⟨frames, []⟩) {path : List (Nat × Passage)} {j : Nat}
    (way : r.Walk path j) (keeps : Keeps r locals tag path) (listed : r.code[j]? = some (.return true))
    {frame : Frame (Option Nat)} (carried : tagged r locals path = .ok frame)
    (top : frame.stack.back? = some (some tag)) :
    ∃ place, Returns r frames j place ∧ frame.get? place = some (some tag) := by
  obtain ⟨f, found, same⟩ := frame_of_walk sound way carried
  rw [Array.back?_eq_getElem?] at top
  have small := keeps.located path [] frame _ (by simp) carried top
  have nonempty : frame.depth - 1 < frame.depth := (Array.getElem?_eq_some_iff.mp top).1
  have depths := (Frame.sameShape_iff.mp same).2
  refine ⟨.stack (UInt16.ofNat (frame.depth - 1)), ⟨listed, f, found, ?_⟩, ?_⟩
  · have fits : 0 < frame.depth ∧ frame.depth ≤ 65536 := by
      change frame.depth - 1 < 65536 at small
      omega
    rw [Frame.top, depths, if_pos fits]
  · change frame.stack[(UInt16.ofNat (frame.stack.size - 1)).toNat]? = some (some tag)
    rw [UInt16.toNat_ofNat_of_lt' small]
    exact top

/-- If a walk that keeps a tag arrives at a return with the tag on top of the stack, the
    instruction of the tag is marked, unless it is hidden. -/
theorem origins_sound {code : Array Instr} {ranges : List Range} {scope : Scope} {config : Config}
    {check : Option Check} {marks : Array Bool} {path : List (Nat × Passage)} {ret : Nat} {frame : Frame (Option Nat)}
    {instr : Instr} (built : Routine.build code ranges scope = .ok r) (framed : r.frames locals = .ok frames)
    (answered : (resultOrigins r config check frames).result = .ok marks) (way : r.Walk path ret)
    (returned : r.code[ret]? = some (.return true)) (carried : tagged r locals path = .ok frame)
    (top : frame.stack.back? = some (some tag)) (keeps : Keeps r locals tag path)
    (listed : r.code[tag]? = some instr) (shown : config.hidden.hides r.scope instr = false) :
    marks[tag]? = some true := by
  have checked := built_of_build built
  have sound := Survey.sound_of_frames checked framed
  obtain ⟨place, returns, held⟩ := returns_of_tag sound way keeps returned carried top
  obtain ⟨after, traced, makes⟩ :=
    traced_of_walk checked sound way keeps carried held fun i brings => .returned returns brings
  exact ((marked_iff checked answered).2 tag).mpr ⟨after, traced, makes, instr, listed, shown⟩

/-- The instructions from `first` to the store at 3 are protected by the handler at 5. What
    the local holds at the end is returned: the new object, or the constant if there was an
    exception. -/
def protectedStore (first : Nat) : Result Routine := do
  let scope ← Scope.empty.declareAll [.local 0 Flags.none]
  Routine.build #[.pushConst, .store 0, .new, .store 0, .goto 6, .pop, .load 0, .return true] [⟨first, 4, 5⟩] scope

/-- An exception out of the store itself leaves the constant in the local, but only the new
    object is found as an origin. -/
theorem origins_miss_overwritten :
    ∃ r frames marks path frame, protectedStore 3 = .ok r ∧ r.frames 1 = .ok frames ∧
      (resultOrigins r Config.standard none frames).result = .ok marks ∧ r.Walk path 7 ∧
      r.code[7]? = some (.return true) ∧ tagged r 1 path = .ok frame ∧ frame.stack.back? = some (some 0) ∧
      r.code[0]? = some .pushConst ∧ Config.standard.hidden.hides r.scope .pushConst = false ∧ marks[0]? ≠ some true := by
  have computed : (do
      let r ← protectedStore 3
      let frames ← r.frames 1
      let items ← seeds r frames
      let frame ← tagged r 1 [(0, .normal), (1, .normal), (2, .normal), (3, .exceptional), (5, .normal), (6, .normal)]
      return (r.code, r.normal, r.exceptional, frames.size == r.size, frame.stack.back?,
        certifies (problem r Config.standard frames) items
          [(6, .stack 0), (4, .local 0), (5, .local 0), (3, .local 0), (2, .stack 0)]) : Result _) =
      .ok (#[.pushConst, .store 0, .new, .store 0, .goto 6, .pop, .load 0, .return true],
        #[[1], [2], [3], [4], [6], [6], [7], []], #[[], [], [], [5], [], [], [], []], true, some (some 0), true) := by cbv
  obtain ⟨r, made, computed⟩ := bind_eq_ok.mp computed
  obtain ⟨frames, framed, computed⟩ := bind_eq_ok.mp computed
  obtain ⟨items, found, computed⟩ := bind_eq_ok.mp computed
  obtain ⟨frame, carried, computed⟩ := bind_eq_ok.mp computed
  simp only [pure, Except.pure, Except.ok.injEq, Prod.mk.injEq, beq_iff_eq] at computed
  obtain ⟨code, normal, exceptional, sized, top, certified⟩ := computed
  obtain ⟨scope, _, built⟩ := bind_eq_ok.mp made
  have checked := built_of_build built
  obtain ⟨marks, answered⟩ := exists_marks checked sized found (feasible_of_certifies certified)
  obtain ⟨size, marked⟩ := marked_iff checked answered
  have on : ∀ i j, (#[[1], [2], [3], [4], [6], [6], [7], []] : Array (List Nat))[i]? = some [j] → r.Passes i .normal j :=
    fun i j found => ⟨[j], fetch_eq_ok.mpr (normal ▸ found), List.mem_cons_self⟩
  have out : r.Passes 3 .exceptional 5 := ⟨[5], fetch_eq_ok.mpr (exceptional ▸ rfl), List.mem_cons_self⟩
  have way : r.Walk [(0, .normal), (1, .normal), (2, .normal), (3, .exceptional), (5, .normal), (6, .normal)] 7 :=
    (((((Walk.start.move (on 0 1 rfl)).move (on 1 2 rfl)).move (on 2 3 rfl)).move out).move (on 5 6 rfl)).move (on 6 7 rfl)
  refine ⟨r, frames, marks, _, frame, made, framed, answered, way, by rw [code]; rfl, carried, top, by rw [code]; rfl, rfl,
    fun mark => ?_⟩
  obtain ⟨after, traced, _⟩ := (marked 0).mp mark
  simpa using mem_of_traced checked found certified traced

/-- An exception out of the instruction before the store does not take the trace away from
    the constant. -/
theorem origins_sound_protectedStore :
    ∃ r frames marks path, protectedStore 2 = .ok r ∧ r.frames 1 = .ok frames ∧
      (resultOrigins r Config.standard none frames).result = .ok marks ∧ r.Walk path 7 ∧ (2, .exceptional) ∈ path ∧
      Keeps r 1 0 path ∧ marks[0]? = some true := by
  have computed : (do
      let r ← protectedStore 2
      let frames ← r.frames 1
      let items ← seeds r frames
      let fronts ← [(0, .normal), (1, .normal), (2, .exceptional), (5, .normal), (6, .normal)].inits.mapM (tagged r 1)
      return (r.code, r.normal, r.exceptional, frames.size == r.size, fronts,
        certifies (problem r Config.standard frames) items
          [(6, .stack 0), (4, .local 0), (5, .local 0), (3, .local 0), (2, .stack 0), (2, .local 0), (1, .local 0),
            (0, .stack 0)]) : Result _) =
      .ok (#[.pushConst, .store 0, .new, .store 0, .goto 6, .pop, .load 0, .return true],
        #[[1], [2], [3], [4], [6], [6], [7], []], #[[], [], [5], [5], [], [], [], []], true,
        [⟨#[none], #[]⟩, ⟨#[none], #[some 0]⟩, ⟨#[some 0], #[]⟩, ⟨#[some 0], #[none]⟩, ⟨#[some 0], #[]⟩,
          ⟨#[some 0], #[some 0]⟩], true) := by cbv
  obtain ⟨r, made, computed⟩ := bind_eq_ok.mp computed
  obtain ⟨frames, framed, computed⟩ := bind_eq_ok.mp computed
  obtain ⟨items, found, computed⟩ := bind_eq_ok.mp computed
  obtain ⟨fronts, fronted, computed⟩ := bind_eq_ok.mp computed
  simp only [pure, Except.pure, Except.ok.injEq, Prod.mk.injEq, beq_iff_eq] at computed
  obtain ⟨code, normal, exceptional, sized, rfl, certified⟩ := computed
  obtain ⟨scope, _, built⟩ := bind_eq_ok.mp made
  obtain ⟨marks, answered⟩ := exists_marks (built_of_build built) sized found (feasible_of_certifies certified)
  have on : ∀ i j, (#[[1], [2], [3], [4], [6], [6], [7], []] : Array (List Nat))[i]? = some [j] → r.Passes i .normal j :=
    fun i j found => ⟨[j], fetch_eq_ok.mpr (normal ▸ found), List.mem_cons_self⟩
  have out : r.Passes 2 .exceptional 5 := ⟨[5], fetch_eq_ok.mpr (exceptional ▸ rfl), List.mem_cons_self⟩
  have way : r.Walk [(0, .normal), (1, .normal), (2, .exceptional), (5, .normal), (6, .normal)] 7 :=
    ((((Walk.start.move (on 0 1 rfl)).move (on 1 2 rfl)).move out).move (on 5 6 rfl)).move (on 6 7 rfl)
  have keeps : Keeps r 1 0 [(0, .normal), (1, .normal), (2, .exceptional), (5, .normal), (6, .normal)] := by
    constructor
    · intro front i rest frame instr slot split _ listed written
      have leg : (i, Passage.exceptional) ∈ front ++ (i, .exceptional) :: rest := by simp
      rw [← split] at leg
      have here : i = 2 := by simpa using leg
      rw [here, code] at listed
      cases listed
      cases written
    · intro front rest frame depth split carried held
      have listed := (mem_of_mapM fronted).mpr ⟨front, (List.mem_inits _ _).mpr ⟨rest, split.symm⟩, carried⟩
      have shallow : frame.stack.size ≤ 1 := by
        clear carried held
        revert frame
        decide
      have inside := (Array.getElem?_eq_some_iff.mp held).1
      exact Nat.lt_of_lt_of_le inside (shallow.trans (by decide))
  obtain ⟨path, last, carried⟩ := (getElem?_of_mapM fronted (i := 5)).mp rfl
  cases last
  have marked := origins_sound built framed answered way (by rw [code]; rfl) carried rfl keeps (by rw [code]; rfl) rfl
  exact ⟨r, frames, marks, _, made, framed, answered, way, by simp, keeps, marked⟩

end StackFlow.Origins
