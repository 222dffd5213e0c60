import Mathlib
import StackFlow.Proofs.Adjacency
import StackFlow.Proofs.Failures
import StackFlow.Proofs.RoutineEdges

/-!
Which parts make a routine, and what its graph lists. A routine is built just if its parts
fit together (`Fitting`), and otherwise the failure says what is wrong with them. The five
tables of a routine (where control goes normally, by an exception, and at all, and the
last two directions reversed) are made one by one, but they say one relation between the
instructions (`Neighbours`), which can be read off the code: `Follows` for the normal
passages, `Catches` for the exceptional ones.
-/
namespace StackFlow

namespace Routine

/-- The parts of a routine fit together: the code is not empty, the ranges lie in it, no
    instruction names a target outside of it or a variable that is unknown, and the last
    instruction does not need another one behind it. -/
structure Fitting (code : Array Instr) (ranges : List Range) (scope : Scope) : Prop where
  nonempty : 0 < code.size
  ordered : ∀ range ∈ ranges, range.start < range.stop ∧ range.stop ≤ code.size ∧ range.handler < code.size
  targets : ∀ (i : Nat) (instr : Instr) (t : Nat), code[i]? = some instr → instr.BranchesTo t → t < code.size
  last : ∀ instr, code.back? = some instr → ¬ instr.GoesOn ∧ ∀ t, instr ≠ .jsr t
  known : ∀ (i : Nat) (instr : Instr) (v : VarId), code[i]? = some instr → instr.Touches v → v < scope.size

/-- Without an exception, control may go from `a` to the targets it names, past it, or, if
    it returns from a subroutine, to behind any subroutine call. -/
def Follows (code : Array Instr) (a b : Nat) : Prop :=
  ∃ instr, code[a]? = some instr ∧ (instr.BranchesTo b ∨ (instr.GoesOn ∧ b = a + 1) ∨
    (∃ slot, instr = .ret slot) ∧ ∃ j target, code[j]? = some (.jsr target) ∧ b = j + 1)

/-- The handler at `b` protects `a`. -/
def Catches (ranges : List Range) (a b : Nat) : Prop :=
  ∃ range ∈ ranges, range.start ≤ a ∧ a < range.stop ∧ range.handler = b

/-- Tables of the neighbours of each instruction, as the routine lists them and as the
    code and the ranges say. -/
structure Neighbours (code : Array Instr) (ranges : List Range) (r : Routine)
    (normal exceptional next before normalBefore : Nat → List Nat) : Prop where
  normally : ∀ a < code.size, r.normalSuccessors a = .ok (normal a) ∧ (normal a).Nodup ∧
    ∀ b, b ∈ normal a ↔ Follows code a b
  exceptionally : ∀ a < code.size, r.exceptionSuccessors a = .ok (exceptional a) ∧ (exceptional a).Nodup ∧
    ∀ b, b ∈ exceptional a ↔ Catches ranges a b
  successors : ∀ a < code.size, r.flow.successors a = .ok (next a) ∧ (next a).Nodup ∧
    ∀ b, b ∈ next a ↔ b ∈ normal a ∨ b ∈ exceptional a
  predecessors : ∀ b < code.size, r.flow.predecessors b = .ok (before b) ∧ (before b).Pairwise (· < ·) ∧
    ∀ a, a ∈ before b ↔ a < code.size ∧ b ∈ next a
  normalPredecessors : ∀ b < code.size, r.normalPredecessors b = .ok (normalBefore b) ∧
    (normalBefore b).Pairwise (· < ·) ∧ ∀ a, a ∈ normalBefore b ↔ a < code.size ∧ b ∈ normal a
  out : r.flow.edgeCount = ∑ a ∈ Finset.range code.size, (next a).length
  into : r.flow.edgeCount = ∑ b ∈ Finset.range code.size, (before b).length

variable {code : Array Instr} {ranges : List Range} {scope : Scope} {r : Routine} {a b : Nat}

/-- Only the last instruction can run off the end. -/
theorem last_iff :
    (∀ instr, code.back? = some instr → ¬ instr.GoesOn ∧ ∀ t, instr ≠ .jsr t) ↔
      ∀ (i : Nat) (instr : Instr), code[i]? = some instr → instr.needsNext = true → i + 1 ≠ code.size := by
  simp only [Instr.needsNext_iff, Array.back?_eq_getElem?]
  constructor
  · intro final i instr listed next ends
    have last : code[code.size - 1]? = some instr := by
      rw [← ends]
      exact listed
    obtain ⟨halts, noCall⟩ := final instr last
    rcases next with goesOn | ⟨t, call⟩
    · exact halts goesOn
    · exact noCall t call
  · intro each instr last
    obtain ⟨inside, _⟩ := Array.getElem?_eq_some_iff.mp last
    have ends : code.size - 1 + 1 = code.size := by omega
    exact ⟨fun goesOn => each _ instr last (.inl goesOn) ends, fun t call => each _ instr last (.inr ⟨t, call⟩) ends⟩

theorem fitting_iff :
    Fitting code ranges scope ↔ 0 < code.size ∧ (∀ range ∈ ranges, range.check code.size = .ok ()) ∧
      ∀ (i : Nat) (instr : Instr), code[i]? = some instr → checkInstr code.size scope i instr = .ok () := by
  simp only [checkRange_eq_ok, checkInstr_eq_ok, Instr.mem_targets, Instr.touches_eq_some]
  constructor
  · rintro ⟨nonempty, ordered, targets, last, known⟩
    exact ⟨nonempty, ordered, fun i instr listed => ⟨fun t => targets i instr t listed, last_iff.mp last i instr listed,
      fun v => known i instr v listed⟩⟩
  · rintro ⟨nonempty, ordered, each⟩
    exact ⟨nonempty, ordered, fun i instr t listed => (each i instr listed).1 t,
      last_iff.mpr fun i instr listed => (each i instr listed).2.1, fun i instr v listed => (each i instr listed).2.2 v⟩

theorem mem_returnPoints : b ∈ returnPoints code ↔ ∃ j target, code[j]? = some (.jsr target) ∧ b = j + 1 := by
  simp only [returnPoints, List.mem_filterMap, Prod.exists, List.mk_mem_zipIdx_iff_getElem?, Array.getElem?_toList,
    Option.ite_none_right_eq_some, Option.some.injEq]
  constructor
  · rintro ⟨instr, j, listed, call, behind⟩
    cases instr with
    | jsr target => exact ⟨j, target, listed, behind.symm⟩
    | _ => cases call
  · rintro ⟨j, target, listed, behind⟩
    exact ⟨.jsr target, j, listed, rfl, behind.symm⟩

theorem follows_iff {instr : Instr} (listed : code[a]? = some instr) :
    Follows code a b ↔ b ∈ normalTargets (returnPoints code) a instr := by
  rw [mem_normalTargets, mem_returnPoints, Instr.mem_targets, Instr.fallsThrough_iff, Instr.isRet_iff]
  simp [Follows, listed]

theorem catches_iff : Catches ranges a b ↔ b ∈ handlersAt ranges a := by
  simp only [handlersAt, mem_distinct, List.mem_map, List.mem_filter, Range.covers, Bool.and_eq_true, decide_eq_true_eq,
    Catches, and_assoc]

theorem getElem?_rows (a : Nat) :
    (rows code ranges)[a]? = code[a]?.map fun instr =>
      distinct (normalTargets (returnPoints code) a instr ++ handlersAt ranges a) := by
  rw [rows, Array.getElem?_zipWith, Array.getElem?_mapIdx, Array.getElem?_mapIdx]
  cases code[a]? <;> rfl

namespace Fitting

variable (fitting : Fitting code ranges scope)

include fitting

theorem lt_of_needsNext {instr : Instr} (listed : code[a]? = some instr) (next : instr.needsNext = true) :
    a + 1 < code.size := by
  obtain ⟨inside, _⟩ := Array.getElem?_eq_some_iff.mp listed
  have notLast := last_iff.mp fitting.last a instr listed next
  omega

/-- Control stays in the code. -/
theorem lt_of_follows (follows : Follows code a b) : b < code.size := by
  obtain ⟨instr, listed, branches | ⟨goesOn, rfl⟩ | ⟨_, j, target, call, rfl⟩⟩ := follows
  · exact fitting.targets a instr b listed branches
  · exact fitting.lt_of_needsNext listed (Instr.needsNext_iff.mpr (.inl goesOn))
  · exact fitting.lt_of_needsNext call rfl

theorem lt_of_catches (catches : Catches ranges a b) : b < code.size := by
  obtain ⟨range, listed, _, _, rfl⟩ := catches
  exact (fitting.ordered range listed).2.2

/-- What a routine is made of besides its parts can be made. -/
theorem edges_total :
    ∃ flow entries, Digraph.ofSuccessors (rows code ranges) = .ok flow ∧
      BitSet.ofIndices code.size (ranges.map Range.handler) = .ok entries := by
  have size : (rows code ranges).size = code.size := by simp [rows]
  have targets : ∀ row ∈ (rows code ranges).toList, ∀ b ∈ row, b < (rows code ranges).size := by
    intro row listed b member
    obtain ⟨a, at_a⟩ := List.mem_iff_getElem?.mp listed
    rw [Array.getElem?_toList, getElem?_rows] at at_a
    obtain ⟨instr, found, rfl⟩ := Option.map_eq_some_iff.mp at_a
    rw [mem_distinct, List.mem_append, ← follows_iff found, ← catches_iff] at member
    rw [size]
    exact member.elim fitting.lt_of_follows fitting.lt_of_catches
  have handlers : ∀ j ∈ ranges.map Range.handler, j < code.size := by
    intro j member
    obtain ⟨range, listed, rfl⟩ := List.mem_map.mp member
    exact (fitting.ordered range listed).2.2
  obtain ⟨flow, linked⟩ := Digraph.ofSuccessors_total targets
  obtain ⟨entries, marked, _⟩ := BitSet.ofIndices_of_lt handlers
  exact ⟨flow, entries, linked, marked⟩

end Fitting

/-- A routine can be built just of parts that fit together. -/
theorem exists_build_iff : (∃ r, build code ranges scope = .ok r) ↔ Fitting code ranges scope := by
  constructor
  · rintro ⟨r, built⟩
    obtain ⟨nonempty, ordered, each, _⟩ := build_eq_ok.mp built
    exact fitting_iff.mpr ⟨nonempty, ordered, each⟩
  · intro fitting
    obtain ⟨nonempty, ordered, each⟩ := fitting_iff.mp fitting
    obtain ⟨flow, entries, linked, marked⟩ := fitting.edges_total
    exact ⟨_, build_eq_ok.mpr ⟨nonempty, ordered, each, flow, entries, linked, marked, rfl⟩⟩

/-- What can be wrong with the parts of a routine. -/
inductive Misfit : Defect → Prop
  | empty : Misfit .emptyCode
  | range (start stop handler count : Nat) : Misfit (.badRange start stop handler count)
  | target (index target count : Nat) : Misfit (.badTarget index target count)
  | last (index : Nat) : Misfit (.fallsOffEnd index)
  | variable (v : VarId) (count : Nat) : Misfit (.unknownVariable v count)

theorem checkRange_misfit (count : Nat) (range : Range) : FailsOnly (Failure.Finds Misfit) (range.check count) := by
  unfold Range.check
  split
  · exact .ok ()
  · exact .finds (.range _ _ _ _)

theorem find_misfit (scope : Scope) (v : VarId) : FailsOnly (Failure.Finds Misfit) (scope.find v) := by
  unfold Scope.find
  split
  · exact .ok _
  · exact .finds (.variable _ _)

theorem checkInstr_misfit (count : Nat) (scope : Scope) (index : Nat) (instr : Instr) :
    FailsOnly (Failure.Finds Misfit) (checkInstr count scope index instr) := by
  refine FailsOnly.bind (.forM fun target _ => ?_) fun _ _ => ?_
  · split
    · exact .ok ()
    · exact .finds (.target _ _ _)
  · by_cases off : (instr.needsNext && index + 1 == count) = true
    · rw [if_pos off]
      exact (FailsOnly.finds (.last index)).bind fun _ failed => by cases failed
    · rw [if_neg off]
      cases instr.touches with
      | none => exact .ok ()
      | some v => exact (find_misfit scope v).bind fun _ _ => .ok ()

/-- A build that fails says what is wrong with the parts. -/
theorem build_misfit (code : Array Instr) (ranges : List Range) (scope : Scope) :
    FailsOnly (Failure.Finds Misfit) (build code ranges scope) := by
  unfold build
  split
  · exact (FailsOnly.finds .empty).bind fun _ failed => by cases failed
  · rename_i nonempty
    refine FailsOnly.bind (.forM fun range _ => checkRange_misfit _ range) fun _ ordered => ?_
    refine FailsOnly.bind (.forM fun placed _ => checkInstr_misfit _ _ _ _) fun _ each => ?_
    have positive : 0 < code.size := Nat.pos_of_ne_zero (by simpa using nonempty)
    have fitting : Fitting code ranges scope :=
      fitting_iff.mpr ⟨positive, forM_eq_ok.mp ordered, forM_checkInstr.mp each⟩
    obtain ⟨flow, entries, linked, marked⟩ := fitting.edges_total
    exact .of_total ⟨_, bind_eq_ok.mpr ⟨flow, linked, bind_eq_ok.mpr ⟨entries, marked, rfl⟩⟩⟩

theorem build_malformed (code : Array Instr) (ranges : List Range) (scope : Scope) :
    FailsOnly Failure.Malformed (build code ranges scope) :=
  (build_misfit code ranges scope).mono fun _ => Failure.Finds.malformed

namespace Built

variable (built : r.Built)

include built

theorem normally (inside : a < r.size) :
    ∃ next, r.normalSuccessors a = .ok next ∧ next.Nodup ∧ ∀ b, b ∈ next ↔ Follows r.code a b := by
  have listed : r.code[a]? = some r.code[a] := Array.getElem?_eq_getElem inside
  exact ⟨_, built.normalSuccessors_of_getElem? listed, nodup_distinct _, fun b => (follows_iff listed).symm⟩

theorem exceptionally (inside : a < r.size) :
    ∃ next, r.exceptionSuccessors a = .ok next ∧ next.Nodup ∧ ∀ b, b ∈ next ↔ Catches r.ranges a b := by
  have listed : r.code[a]? = some r.code[a] := Array.getElem?_eq_getElem inside
  exact ⟨_, built.exceptionSuccessors_of_getElem? listed, nodup_distinct _, fun b => catches_iff.symm⟩

theorem next_nodup (a : Nat) : (r.flow.next a).Nodup := by
  by_cases inside : a < r.size
  · have found := built.successors_of_getElem? (Array.getElem?_eq_getElem inside)
    rw [Digraph.successors_of_lt (built.nodeCount_flow.symm ▸ inside)] at found
    rw [Except.ok.inj found]
    exact nodup_distinct _
  · have none : r.flow.next a = [] := by
      refine List.eq_nil_iff_forall_not_mem.mpr fun b member => inside ?_
      exact built.nodeCount_flow ▸ Digraph.lt_of_mem_next member
    rw [none]
    exact List.nodup_nil

/-- The normal predecessors, read off a table of the normal successors. -/
theorem normalPredecessors_eq {normal : Nat → List Nat} (table : ∀ a < r.size, r.normalSuccessors a = .ok (normal a))
    (inside : b < r.size) :
    r.normalPredecessors b = .ok ((r.flow.before b).filter fun a => (normal a).contains b) := by
  refine bind_eq_ok.mpr ⟨_, Digraph.predecessors_of_lt (built.nodeCount_flow.symm ▸ inside), ?_⟩
  refine filterM_of_total fun a member => ?_
  have edge := (Digraph.mem_before built.flow).mp member
  have start : a < r.size := built.nodeCount_flow ▸ Digraph.lt_of_mem_next (Digraph.mem_next.mpr edge)
  exact bind_eq_ok.mpr ⟨normal a, table a start, rfl⟩

/-- The tables of a routine that has been built. -/
theorem neighbours :
    ∃ normal exceptional next before normalBefore,
      Neighbours r.code r.ranges r normal exceptional next before normalBefore := by
  have size : r.flow.nodeCount = r.code.size := built.nodeCount_flow
  have normally : ∀ a < r.code.size, _ := fun a => built.normally
  have exceptionally : ∀ a < r.code.size, _ := fun a => built.exceptionally
  choose! normal normally using normally
  choose! exceptional exceptionally using exceptionally
  -- Both kinds of passages together are the edges, and these are listed from either end.
  have edges : ∀ a < r.code.size, ∀ b, b ∈ r.flow.next a ↔ b ∈ normal a ∨ b ∈ exceptional a := by
    intro a inside b
    obtain ⟨normalRow, _⟩ := normally a inside
    obtain ⟨exceptionalRow, _⟩ := exceptionally a inside
    rw [Digraph.mem_next, built.edge_iff]
    constructor
    · rintro ⟨_ | _, row, found, member⟩
      · cases normalRow.symm.trans found
        exact .inl member
      · cases exceptionalRow.symm.trans found
        exact .inr member
    · rintro (member | member)
      · exact ⟨.normal, _, normalRow, member⟩
      · exact ⟨.exceptional, _, exceptionalRow, member⟩
  have before : ∀ a b, a ∈ r.flow.before b ↔ a < r.code.size ∧ b ∈ r.flow.next a := by
    intro a b
    rw [Digraph.mem_before built.flow, ← Digraph.mem_next]
    exact ⟨fun member => ⟨size ▸ Digraph.lt_of_mem_next member, member⟩, fun both => both.2⟩
  have ascending : ∀ b, (r.flow.before b).Pairwise (· < ·) := fun b =>
    Digraph.before_ascending built.flow built.next_nodup
  refine ⟨normal, exceptional, r.flow.next, r.flow.before, fun b => (r.flow.before b).filter fun a => (normal a).contains b,
    normally, exceptionally, ?_, ?_, ?_, ?_, ?_⟩
  · intro a inside
    exact ⟨Digraph.successors_of_lt (size ▸ inside), built.next_nodup a, edges a inside⟩
  · intro b inside
    exact ⟨Digraph.predecessors_of_lt (size ▸ inside), ascending b, fun a => before a b⟩
  · intro b inside
    refine ⟨built.normalPredecessors_eq (fun a start => (normally a start).1) inside, (ascending b).filter _, fun a => ?_⟩
    rw [List.mem_filter, before, List.contains_iff_mem]
    constructor
    · rintro ⟨⟨start, _⟩, member⟩
      exact ⟨start, member⟩
    · rintro ⟨start, member⟩
      exact ⟨⟨start, (edges a start b).mpr (.inl member)⟩, member⟩
  · rw [← size]
    exact Digraph.edgeCount_eq_out built.flow
  · rw [← size]
    exact Digraph.edgeCount_eq_in built.flow

end Built

/-- A routine is built just of parts that fit together; otherwise the failure says what is
    wrong with them. Its tables list the neighbours of each instruction, each of them once,
    and its edges are counted from both ends. -/
theorem build_exact (code : Array Instr) (ranges : List Range) (scope : Scope) :
    ((∃ r, build code ranges scope = .ok r) ↔ Fitting code ranges scope) ∧
    FailsOnly Failure.Malformed (build code ranges scope) ∧
    ∀ r, build code ranges scope = .ok r → ∃ normal exceptional next before normalBefore,
      Neighbours code ranges r normal exceptional next before normalBefore := by
  refine ⟨exists_build_iff, build_malformed code ranges scope, fun r built => ?_⟩
  have tables := (built_of_build built).neighbours
  obtain ⟨_, _, _, _, _, _, _, rfl⟩ := build_eq_ok.mp built
  exact tables

/-- A subroutine at 3 that is called from 0, and a switch that names one target twice and
    has another one by default. -/
def tangle : Array Instr := #[.jsr 3, .switch [0, 2, 0] 4, .return false, .store 0, .ret 0]

/-- Ranges around it that overlap and share a handler. -/
def tangleRanges : List Range := [⟨1, 4, 2⟩, ⟨3, 5, 2⟩, ⟨0, 2, 4⟩]

theorem build_exact_tangle :
    ∃ scope r, Scope.empty.declareAll [.local 0 Flags.none] = .ok scope ∧ build tangle tangleRanges scope = .ok r ∧
      Fitting tangle tangleRanges scope ∧ ¬ Fitting tangle tangleRanges Scope.empty ∧ r.flow.edgeCount = 10 ∧
      (∀ b, Follows tangle 1 b ↔ b = 0 ∨ b = 2 ∨ b = 4) ∧ (∀ b, Follows tangle 4 b ↔ b = 1) ∧
      (∀ b, Catches tangleRanges 1 b ↔ b = 2 ∨ b = 4) ∧ ∀ a < 5, Follows tangle a 4 ↔ a = 1 ∨ a = 3 := by
  have computed : (do
      let scope ← Scope.empty.declareAll [.local 0 Flags.none]
      let r ← build tangle tangleRanges scope
      return (r.flow.edgeCount, r.normalSuccessors 1, r.normalSuccessors 4, r.exceptionSuccessors 1,
        r.normalPredecessors 4) : Result _) = .ok (10, .ok [0, 2, 4], .ok [1], .ok [2, 4], .ok [1, 3]) := by cbv
  have unknown : build tangle tangleRanges Scope.empty = .error (.error (.malformed (.unknownVariable 0 0))) := by cbv
  obtain ⟨scope, declared, computed⟩ := bind_eq_ok.mp computed
  obtain ⟨r, made, computed⟩ := bind_eq_ok.mp computed
  simp only [pure, Except.pure, Except.ok.injEq, Prod.mk.injEq] at computed
  obtain ⟨count, switched, returned, handlers, into⟩ := computed
  obtain ⟨fits, _, tables⟩ := build_exact tangle tangleRanges scope
  obtain ⟨normal, exceptional, next, before, normalBefore, lists⟩ := tables r made
  refine ⟨scope, r, declared, made, fits.mp ⟨r, made⟩, fun fitting => ?_, count, fun b => ?_, fun b => ?_, fun b => ?_,
    fun a inside => ?_⟩
  · obtain ⟨other, built⟩ := (build_exact tangle tangleRanges Scope.empty).1.mpr fitting
    cases unknown.symm.trans built
  · obtain ⟨row, _, follows⟩ := lists.normally 1 (by decide)
    rw [← follows, Except.ok.inj (row.symm.trans switched)]
    simp
  · obtain ⟨row, _, follows⟩ := lists.normally 4 (by decide)
    rw [← follows, Except.ok.inj (row.symm.trans returned), List.mem_singleton]
  · obtain ⟨row, _, catches⟩ := lists.exceptionally 1 (by decide)
    rw [← catches, Except.ok.inj (row.symm.trans handlers)]
    simp
  · obtain ⟨row, _, sources⟩ := lists.normalPredecessors 4 (by decide)
    have listed := sources a
    rw [Except.ok.inj (row.symm.trans into), List.mem_cons, List.mem_singleton] at listed
    rw [← (lists.normally a inside).2.2, listed]
    exact ⟨fun member => ⟨inside, member⟩, fun both => both.2⟩

end Routine

end StackFlow
