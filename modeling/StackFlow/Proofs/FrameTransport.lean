import StackFlow.Frame.Lemmas

/-!
What an instruction does to the cells of a frame. Frames of one shape take a step
together and arrive at one shape (`step_shape`). A step writes at most one local slot
and leaves the others alone (`locals_of_step`). Whatever a cell holds after a step is
new or was held by some cell before, and the markers tell which, up to the sixteen bits
that they have for the number of a cell (`source_of_step`).
-/
namespace StackFlow

theorem Scope.find_eq_ok {scope : Scope} {v : VarId} {var : Variable} :
    scope.find v = .ok var ↔ scope.get? v = some var := by
  unfold Scope.find
  cases scope.get? v <;> simp [reject]

/-- The local slot that an instruction writes. -/
def Instr.writtenSlot (scope : Scope) (instr : Instr) : Option UInt16 :=
  instr.writes.bind fun v => (scope.get? v).bind Variable.slot

namespace Frame

variable {α β γ : Type}

theorem sameShape_iff {a : Frame α} {b : Frame β} :
    a.sameShape b = true ↔ a.numLocals = b.numLocals ∧ a.depth = b.depth := by
  simp [sameShape]

theorem sameShape_symm {a : Frame α} {b : Frame β} (same : a.sameShape b = true) : b.sameShape a = true := by
  rw [sameShape_iff] at same ⊢
  exact ⟨same.1.symm, same.2.symm⟩

theorem sameShape_trans {a : Frame α} {b : Frame β} {c : Frame γ} (first : a.sameShape b = true)
    (second : b.sameShape c = true) : a.sameShape c = true := by
  rw [sameShape_iff] at first second ⊢
  exact ⟨first.1.trans second.1, first.2.trans second.2⟩

/-- A frame without contents is its shape. -/
theorem map_unit (a : Frame α) : a.map (fun _ => ()) = filled () a.numLocals a.depth := by
  simp only [map, filled, numLocals, depth, Array.map_const']

theorem step_shape {a a' : Frame α} {b : Frame β} {scope : Scope} {instr : Instr} {x : α}
    (same : a.sameShape b = true) (run : a.step scope x instr = .ok a') (y : β) :
    ∃ b', b.step scope y instr = .ok b' ∧ a'.sameShape b' = true := by
  obtain ⟨locals, depths⟩ := sameShape_iff.mp same
  have left := step_map scope (fun _ => ()) x instr a
  have right := step_map scope (fun _ => ()) y instr b
  rw [map_unit, locals, depths, ← map_unit, right, run] at left
  cases ran : b.step scope y instr with
  | error e =>
    rw [ran] at left
    cases left
  | ok b' =>
    rw [ran] at left
    have shapes : b'.map (fun _ => ()) = a'.map (fun _ => ()) := Except.ok.inj left
    refine ⟨b', rfl, sameShape_iff.mpr ⟨?_, ?_⟩⟩
    · simpa using (congrArg numLocals shapes).symm
    · simpa using (congrArg depth shapes).symm

theorem handlerEntry_shape {a : Frame α} {b : Frame β} (same : a.sameShape b = true) (x : α) (y : β) :
    (a.handlerEntry x).sameShape (b.handlerEntry y) = true :=
  sameShape_iff.mpr ⟨(sameShape_iff.mp same).1, rfl⟩

theorem locals_of_pop {frame rest : Frame α} {x : α} (popped : frame.pop = .ok (x, rest)) :
    rest.locals = frame.locals := by
  unfold pop at popped
  split at popped
  · cases popped
    rfl
  · cases popped

theorem depth_of_pop {frame rest : Frame α} {x : α} (popped : frame.pop = .ok (x, rest)) : 0 < frame.depth := by
  unfold pop at popped
  split at popped
  · rename_i top
    rw [Array.back?_eq_getElem?] at top
    exact Nat.zero_lt_of_lt (Array.getElem?_eq_some_iff.mp top).1
  · cases popped

theorem locals_of_popN {frame rest : Frame α} {count : Nat} (popped : frame.popN count = .ok rest) :
    rest.locals = frame.locals := by
  unfold popN at popped
  split at popped
  · cases popped
    rfl
  · cases popped

theorem locals_of_writeLocal {frame next : Frame α} {slot : UInt16} {x : α} (written : frame.writeLocal slot x = .ok next) :
    ∃ inside : slot.toNat < frame.locals.size, next.locals = frame.locals.set slot.toNat x := by
  unfold writeLocal at written
  split at written
  · rename_i inside
    cases written
    exact ⟨inside, rfl⟩
  · cases written

/-- A step changes no local slot but the one that the instruction writes. -/
theorem locals_of_step {scope : Scope} {fresh : α} {instr : Instr} {frame next : Frame α}
    (run : frame.step scope fresh instr = .ok next) :
    next.locals = frame.locals ∨ ∃ (slot : UInt16) (x : α) (_ : slot.toNat < frame.locals.size),
      instr.writtenSlot scope = some slot ∧ next.locals = frame.locals.set slot.toNat x := by
  cases instr with
  | nop | label | lineMarker | boundary | goto _ | pushConst | new | jsr _ =>
    cases run
    exact .inl rfl
  | load v =>
    obtain ⟨var, _, run⟩ := bind_eq_ok.mp run
    split at run
    · obtain ⟨x, _, run⟩ := bind_eq_ok.mp run
      cases run
      exact .inl rfl
    · cases run
      exact .inl rfl
  | store v =>
    obtain ⟨⟨x, rest⟩, popped, run⟩ := bind_eq_ok.mp run
    obtain ⟨var, found, run⟩ := bind_eq_ok.mp run
    split at run
    · rename_i slot backed
      obtain ⟨inside, locals⟩ := locals_of_writeLocal run
      simp only [locals_of_pop popped] at inside locals
      refine .inr ⟨slot, x, inside, ?_, locals⟩
      simp [Instr.writtenSlot, Instr.writes, Scope.find_eq_ok.mp found, backed]
    · cases run
      exact .inl (locals_of_pop popped)
  | discard v =>
    obtain ⟨var, found, run⟩ := bind_eq_ok.mp run
    split at run
    · rename_i slot backed
      obtain ⟨inside, locals⟩ := locals_of_writeLocal run
      refine .inr ⟨slot, fresh, inside, ?_, locals⟩
      simp [Instr.writtenSlot, Instr.writes, Scope.find_eq_ok.mp found, backed]
    · cases run
      exact .inl rfl
  | dup =>
    obtain ⟨⟨x, rest⟩, popped, run⟩ := bind_eq_ok.mp run
    have kept := locals_of_pop popped
    cases run
    exact .inl kept
  | swap =>
    obtain ⟨⟨x, rest⟩, popped, run⟩ := bind_eq_ok.mp run
    obtain ⟨⟨y, last⟩, popped', run⟩ := bind_eq_ok.mp run
    have kept := (locals_of_pop popped').trans (locals_of_pop popped)
    cases run
    exact .inl kept
  | pop | switch _ _ | throw =>
    obtain ⟨⟨x, rest⟩, popped, run⟩ := bind_eq_ok.mp run
    have kept := locals_of_pop popped
    cases run
    exact .inl kept
  | compute _ | arrayRead =>
    obtain ⟨rest, popped, run⟩ := bind_eq_ok.mp run
    have kept := locals_of_popN popped
    cases run
    exact .inl kept
  | fieldRead isStatic =>
    cases isStatic with
    | true =>
      cases run
      exact .inl rfl
    | false =>
      obtain ⟨⟨x, rest⟩, popped, run⟩ := bind_eq_ok.mp run
      have kept := locals_of_pop popped
      cases run
      exact .inl kept
  | fieldWrite _ | arrayWrite | branch _ _ => exact .inl (locals_of_popN run)
  | invoke _ _ returns =>
    obtain ⟨rest, popped, run⟩ := bind_eq_ok.mp run
    have kept := locals_of_popN popped
    cases run
    cases returns <;> exact .inl kept
  | «return» value =>
    cases value with
    | false =>
      cases run
      exact .inl rfl
    | true =>
      obtain ⟨⟨x, rest⟩, popped, run⟩ := bind_eq_ok.mp run
      have kept := locals_of_pop popped
      cases run
      exact .inl kept
  | ret slot =>
    obtain ⟨x, _, run⟩ := bind_eq_ok.mp run
    cases run
    exact .inl rfl

theorem numLocals_of_step {scope : Scope} {fresh : α} {instr : Instr} {frame next : Frame α}
    (run : frame.step scope fresh instr = .ok next) : next.numLocals = frame.numLocals := by
  unfold numLocals
  rcases locals_of_step run with same | ⟨slot, x, inside, _, changed⟩
  · rw [same]
  · rw [changed, Array.size_set]

/-- A slot that the instruction does not write keeps its contents. -/
theorem get?_local_of_step {scope : Scope} {fresh : α} {instr : Instr} {frame next : Frame α}
    (run : frame.step scope fresh instr = .ok next) {slot : UInt16} (kept : instr.writtenSlot scope ≠ some slot) :
    next.get? (.local slot) = frame.get? (.local slot) := by
  unfold get?
  rcases locals_of_step run with same | ⟨other, x, inside, written, changed⟩
  · simp only [same]
  · have different : other.toNat ≠ slot.toNat := by
      intro equal
      rw [UInt16.toNat_inj.mp equal] at written
      exact kept written
    simp only [changed]
    rw [Array.getElem?_set_ne inside different]

/-- The cells of a frame: its local slots and its stack cells. -/
def Cell (frame : Frame α) : Type := Fin frame.locals.size ⊕ Fin frame.stack.size

def contents (frame : Frame α) : frame.Cell → α
  | .inl slot => frame.locals[slot]
  | .inr depth => frame.stack[depth]

/-- The location of a cell, if its number fits in sixteen bits. -/
def place (frame : Frame α) : frame.Cell → Location
  | .inl slot => .local (UInt16.ofNat slot)
  | .inr depth => .stack (UInt16.ofNat depth)

def number (frame : Frame α) : frame.Cell → Nat
  | .inl slot => slot
  | .inr depth => depth

theorem get?_place {frame : Frame α} {cell : frame.Cell} (small : frame.number cell < UInt16.size) :
    frame.get? (frame.place cell) = some (frame.contents cell) := by
  cases cell with
  | inl slot =>
    have same : (UInt16.ofNat slot.val).toNat = slot.val := UInt16.toNat_ofNat_of_lt' small
    change frame.locals[(UInt16.ofNat slot.val).toNat]? = some frame.locals[slot]
    rw [same]
    exact Array.getElem?_eq_getElem slot.isLt
  | inr depth =>
    have same : (UInt16.ofNat depth.val).toNat = depth.val := UInt16.toNat_ofNat_of_lt' small
    change frame.stack[(UInt16.ofNat depth.val).toNat]? = some frame.stack[depth]
    rw [same]
    exact Array.getElem?_eq_getElem depth.isLt

/-- The frame in which every cell holds itself. -/
def selves (frame : Frame α) : Frame (Option frame.Cell) where
  locals := Array.ofFn fun slot => some (.inl slot)
  stack := Array.ofFn fun depth => some (.inr depth)

theorem selves_contents (frame : Frame α) (fresh : α) : frame.selves.map (Option.elim · fresh frame.contents) = frame := by
  obtain ⟨locals, stack⟩ := frame
  simp only [selves, map, mk.injEq, Array.map_ofFn]
  exact ⟨Array.ofFn_getElem, Array.ofFn_getElem⟩

theorem selves_marker (frame : Frame α) :
    frame.selves.map (Option.elim · .unknown fun cell => .from (frame.place cell)) = frame.marker := by
  simp only [selves, marker, map, mk.injEq, Array.map_ofFn]
  exact ⟨rfl, rfl⟩

/-- What a cell holds after a step is new, or was held by a cell before the step, and the
    source of the cell says so. -/
theorem source_of_step {scope : Scope} {fresh : α} {instr : Instr} {frame next : Frame α}
    (run : frame.step scope fresh instr = .ok next) {after : Location} {x : α} (held : next.get? after = some x) :
    frame.source scope instr after = .ok none ∧ x = fresh ∨
      ∃ cell, frame.source scope instr after = .ok (some (frame.place cell)) ∧ x = frame.contents cell := by
  -- The step moves cells, so its effect on contents and on markers is one effect seen twice.
  have moved := step_map scope (Option.elim · fresh frame.contents) none instr frame.selves
  have marked := step_map scope (Option.elim · Value.unknown fun cell => .from (frame.place cell)) none instr frame.selves
  rw [selves_contents] at moved
  rw [selves_marker] at marked
  cases ran : frame.selves.step scope none instr with
  | error e =>
    rw [ran] at moved
    cases run.symm.trans moved
  | ok cells =>
    rw [ran] at moved marked
    cases run.symm.trans moved
    rw [get?_map] at held
    obtain ⟨origin, there, same⟩ := Option.map_eq_some_iff.mp held
    have shown : (cells.map (Option.elim · Value.unknown fun cell => .from (frame.place cell))).get? after =
        some (origin.elim .unknown fun cell => .from (frame.place cell)) := by
      rw [get?_map, there]
      rfl
    have traced : frame.source scope instr after = .ok (origin.map frame.place) := by
      refine bind_eq_ok.mpr ⟨_, marked, ?_⟩
      rw [shown]
      cases origin <;> rfl
    cases origin with
    | none => exact .inl ⟨traced, same.symm⟩
    | some cell => exact .inr ⟨cell, traced, same.symm⟩

theorem marker_congr {a : Frame α} {b : Frame β} (same : a.sameShape b = true) : a.marker = b.marker := by
  obtain ⟨locals, depths⟩ := sameShape_iff.mp same
  simp only [numLocals, depth] at locals depths
  simp only [marker, mk.injEq]
  constructor
  · apply Array.ext <;> simp [locals]
  · apply Array.ext <;> simp [depths]

/-- The source of a cell is a matter of shape. -/
theorem source_congr {a : Frame α} {b : Frame β} (same : a.sameShape b = true) (scope : Scope) (instr : Instr)
    (after : Location) : a.source scope instr after = b.source scope instr after := by
  unfold source
  rw [marker_congr same]

/-- The frame has a cell at the location. -/
def Has (frame : Frame α) (place : Location) : Prop := ∃ x, frame.get? place = some x

theorem has_local {frame : Frame α} {slot : UInt16} : frame.Has (.local slot) ↔ slot.toNat < frame.numLocals := by
  constructor
  · rintro ⟨x, held⟩
    exact (Array.getElem?_eq_some_iff.mp held).1
  · intro inside
    exact ⟨_, Array.getElem?_eq_getElem inside⟩

theorem has_stack {frame : Frame α} {depth : UInt16} : frame.Has (.stack depth) ↔ depth.toNat < frame.depth := by
  constructor
  · rintro ⟨x, held⟩
    exact (Array.getElem?_eq_some_iff.mp held).1
  · intro inside
    exact ⟨_, Array.getElem?_eq_getElem inside⟩

theorem has_congr {a : Frame α} {b : Frame β} (same : a.sameShape b = true) {place : Location} :
    a.Has place ↔ b.Has place := by
  obtain ⟨locals, depths⟩ := sameShape_iff.mp same
  cases place with
  | «local» slot => rw [has_local, has_local, locals]
  | stack depth => rw [has_stack, has_stack, depths]

/-- The place of a cell may be that of another one, but it is in the frame. -/
theorem has_place (frame : Frame α) (cell : frame.Cell) : frame.Has (frame.place cell) := by
  cases cell with
  | inl slot =>
    refine has_local.mpr (Nat.lt_of_le_of_lt ?_ slot.isLt)
    rw [UInt16.toNat_ofNat']
    exact Nat.mod_le _ _
  | inr depth =>
    refine has_stack.mpr (Nat.lt_of_le_of_lt ?_ depth.isLt)
    rw [UInt16.toNat_ofNat']
    exact Nat.mod_le _ _

theorem has_top {frame : Frame α} {place : Location} (top : frame.top = some place) : frame.Has place := by
  unfold Frame.top at top
  split at top
  · rename_i fits
    cases top
    have small : frame.depth - 1 < UInt16.size := by
      change frame.depth - 1 < 65536
      omega
    rw [has_stack, UInt16.toNat_ofNat_of_lt' small]
    omega
  · cases top

/-- A location has a source just if the frame has it after the step. -/
theorem source_total {scope : Scope} {fresh : α} {instr : Instr} {frame next : Frame α}
    (run : frame.step scope fresh instr = .ok next) {after : Location} (has : next.Has after) :
    ∃ before, frame.source scope instr after = .ok before := by
  obtain ⟨x, held⟩ := has
  rcases source_of_step run held with ⟨made, _⟩ | ⟨cell, moved, _⟩
  · exact ⟨none, made⟩
  · exact ⟨_, moved⟩

/-- What is moved was in a cell of the frame. -/
theorem has_of_source {scope : Scope} {instr : Instr} {frame : Frame α} {before after : Location}
    (moved : frame.source scope instr after = .ok (some before)) : frame.Has before := by
  obtain ⟨stepped, run, found⟩ := bind_eq_ok.mp moved
  have same : frame.marker.sameShape frame = true := sameShape_iff.mpr ⟨numLocals_marker frame, depth_marker frame⟩
  cases held : stepped.get? after with
  | none =>
    rw [held] at found
    cases found
  | some x =>
    -- The instruction moves the cells of the marker just as those of the frame itself.
    have shape := source_congr same scope instr after
    rcases source_of_step run held with ⟨made, _⟩ | ⟨cell, moved', _⟩
    · cases moved.symm.trans (shape.symm.trans made)
    · cases moved.symm.trans (shape.symm.trans moved')
      exact (has_congr same).mp (has_place frame.marker cell)

end Frame

end StackFlow
