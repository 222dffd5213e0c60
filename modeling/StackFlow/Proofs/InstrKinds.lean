import StackFlow.Instr.Basic

/-!
The questions that are asked of an instruction, answered kind by kind. The code asks by
functions such as `targets` and `isTransfer`; here it is written down which kinds of
instruction branch, transfer control, let it go on, touch a variable or end the routine,
and that the functions say the same.
-/
namespace StackFlow.Instr

/-- The instruction names `t` as a place where control may go. -/
inductive BranchesTo : Instr → Nat → Prop
  | goto (t : Nat) : BranchesTo (.goto t) t
  | branch (t : Nat) (pops : UInt8) : BranchesTo (.branch t pops) t
  | listed {targets : List Nat} {t : Nat} (member : t ∈ targets) (default : Nat) : BranchesTo (.switch targets default) t
  | default (targets : List Nat) (t : Nat) : BranchesTo (.switch targets t) t
  | jsr (t : Nat) : BranchesTo (.jsr t) t

/-- Control goes elsewhere than to the next instruction, always or at times. -/
inductive Transfers : Instr → Prop
  | goto (t : Nat) : Transfers (.goto t)
  | branch (t : Nat) (pops : UInt8) : Transfers (.branch t pops)
  | switch (targets : List Nat) (default : Nat) : Transfers (.switch targets default)
  | return (value : Bool) : Transfers (.return value)
  | throw : Transfers .throw
  | jsr (t : Nat) : Transfers (.jsr t)
  | ret (slot : UInt16) : Transfers (.ret slot)

/-- Control may go on to the next instruction: of those that transfer control, only a
    branch lets it. -/
def GoesOn (i : Instr) : Prop := i.Transfers → ∃ t pops, i = .branch t pops

/-- The instruction reads or writes `v`. -/
def Touches (i : Instr) (v : VarId) : Prop := i = .load v ∨ i = .store v ∨ i = .discard v

variable {i : Instr}

theorem mem_targets {t : Nat} : t ∈ i.targets ↔ i.BranchesTo t := by
  constructor
  · intro member
    cases i with
    | goto target | branch target pops | jsr target =>
      cases List.mem_singleton.mp member
      constructor
    | switch targets default =>
      rcases List.mem_append.mp member with listed | last
      · exact .listed listed default
      · cases List.mem_singleton.mp last
        exact .default targets t
    | _ => cases member
  · intro branches
    cases branches with
    | goto | branch | jsr => exact List.mem_singleton_self t
    | listed member default => exact List.mem_append_left _ member
    | default targets => exact List.mem_append_right _ (List.mem_singleton_self t)

theorem isTransfer_iff : i.isTransfer = true ↔ i.Transfers := by
  constructor
  · intro transfer
    cases i with
    | goto t => exact .goto t
    | branch t pops => exact .branch t pops
    | switch targets default => exact .switch targets default
    | «return» value => exact .return value
    | throw => exact .throw
    | jsr t => exact .jsr t
    | ret slot => exact .ret slot
    | _ => cases transfer
  · intro transfers
    cases transfers <;> rfl

theorem fallsThrough_iff : i.fallsThrough = true ↔ i.GoesOn := by
  constructor
  · intro falls transfers
    cases transfers with
    | branch t pops => exact ⟨t, pops, rfl⟩
    | _ => cases falls
  · intro goesOn
    have branches : i.Transfers → i.fallsThrough = true := by
      intro transfers
      obtain ⟨t, pops, rfl⟩ := goesOn transfers
      rfl
    cases i with
    | goto t => exact branches (.goto t)
    | switch targets default => exact branches (.switch targets default)
    | «return» value => exact branches (.return value)
    | throw => exact branches .throw
    | jsr t => exact branches (.jsr t)
    | ret slot => exact branches (.ret slot)
    | _ => rfl

theorem isJsr_iff : i.isJsr = true ↔ ∃ t, i = .jsr t := by cases i <;> simp [isJsr]

theorem isRet_iff : i.isRet = true ↔ ∃ slot, i = .ret slot := by cases i <;> simp [isRet]

theorem needsNext_iff : i.needsNext = true ↔ i.GoesOn ∨ ∃ t, i = .jsr t := by
  rw [needsNext, Bool.or_eq_true, fallsThrough_iff, isJsr_iff]

theorem isBoundary_iff : i.isBoundary = true ↔ i = .boundary := by cases i <;> simp [isBoundary]

theorem isExit_iff : i.isExit = true ↔ (∃ value, i = .return value) ∨ i = .throw := by cases i <;> simp [isExit]

theorem touches_eq_some {v : VarId} : i.touches = some v ↔ i.Touches v := by
  cases i <;> simp [touches, reads, writes, Touches]

theorem touches_ne_none : i.touches ≠ none ↔ ∃ v, i.Touches v := by
  simp only [Option.ne_none_iff_exists', touches_eq_some]

end StackFlow.Instr
