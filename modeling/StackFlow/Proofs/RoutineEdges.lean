import StackFlow.Proofs.SkeletonPaths

/-!
The edges of a routine that has been checked. Control passes from one instruction to
another normally or by an exception, and the edges of the graph are both together
(`Built.edge_iff`). What is read off the graph elsewhere (which instructions follow,
which come before, which come before without an exception) is said here in terms of
these passages.
-/
namespace StackFlow

/-- How control leaves an instruction. -/
inductive Passage where
  | normal
  | exceptional
  deriving DecidableEq, Repr

namespace Routine

def Passes (r : Routine) (i : Nat) : Passage → Nat → Prop
  | .normal, j => ∃ next, r.normalSuccessors i = .ok next ∧ j ∈ next
  | .exceptional, j => ∃ next, r.exceptionSuccessors i = .ok next ∧ j ∈ next

/-- What building a routine makes sure of. -/
structure Built (r : Routine) : Prop where
  nonempty : 0 < r.size
  targets : ∀ (i : Nat) (instr : Instr), r.code[i]? = some instr → ∀ t ∈ instr.targets, t < r.size
  next : ∀ (i : Nat) (instr : Instr), r.code[i]? = some instr → instr.needsNext = true → i + 1 < r.size
  normal : r.normal = r.code.mapIdx (normalTargets (returnPoints r.code))
  exceptional : r.exceptional = r.code.mapIdx fun i _ => handlersAt r.ranges i
  flow : Digraph.ofSuccessors (r.normal.zipWith (fun targets handlers => distinct (targets ++ handlers)) r.exceptional) =
    .ok r.flow

/-- What building makes sure of besides: no instruction touches an unknown variable, and
    the handlers are known as such. -/
structure Checked (r : Routine) : Prop extends Built r where
  known : ∀ (i : Nat) (instr : Instr) (v : VarId), r.code[i]? = some instr → instr.touches = some v → v < r.scope.size
  entries : ∀ range ∈ r.ranges, r.isHandlerEntry range.handler = true

theorem checkInstr_eq_ok {count index : Nat} {scope : Scope} {instr : Instr} :
    checkInstr count scope index instr = .ok () ↔ (∀ t ∈ instr.targets, t < count) ∧
      (instr.needsNext = true → index + 1 ≠ count) ∧ ∀ v, instr.touches = some v → v < scope.size := by
  constructor
  · intro checked
    obtain ⟨⟨⟩, targets, checked⟩ := bind_eq_ok.mp checked
    refine ⟨fun t member => ?_, fun next last => ?_, fun v touched => ?_⟩
    · have inside := forM_eq_ok.mp targets t member
      by_cases small : t < count
      · exact small
      · simp [small, reject] at inside
    · simp [next, last, reject, bind, Except.bind] at checked
    · by_cases known : v < scope.size
      · exact known
      · have absent : scope.get? v = none := Array.getElem?_eq_none (Nat.le_of_not_lt known)
        simp only [touched, Scope.find, absent, reject] at checked
        split at checked <;> cases checked
  · rintro ⟨targets, next, known⟩
    refine bind_eq_ok.mpr ⟨(), forM_eq_ok.mpr fun t member => if_pos (targets t member), ?_⟩
    have goesOn : ¬ (instr.needsNext && index + 1 == count) = true := by
      rw [Bool.and_eq_true, beq_iff_eq]
      exact fun both => next both.1 both.2
    rw [if_neg goesOn]
    cases touched : instr.touches with
    | none => rfl
    | some v =>
      obtain ⟨var, found⟩ : ∃ var, scope.get? v = some var := ⟨_, Array.getElem?_eq_getElem (known v touched)⟩
      simp only [Scope.find, found]
      rfl

theorem checkRange_eq_ok {count : Nat} {range : Range} :
    range.check count = .ok () ↔ range.start < range.stop ∧ range.stop ≤ count ∧ range.handler < count := by
  unfold Range.check
  split <;> simp_all [reject]

theorem forM_checkInstr {code : Array Instr} {scope : Scope} :
    (code.toList.zipIdx.forM fun (instr, index) => checkInstr code.size scope index instr) = .ok () ↔
      ∀ (i : Nat) (instr : Instr), code[i]? = some instr → checkInstr code.size scope i instr = .ok () := by
  rw [forM_eq_ok, Prod.forall, forall_comm]
  simp only [List.mk_mem_zipIdx_iff_getElem?, Array.getElem?_toList]

/-- The edges of a routine with the given parts. -/
def rows (code : Array Instr) (ranges : List Range) : Array (List Nat) :=
  (code.mapIdx (normalTargets (returnPoints code))).zipWith (fun targets handlers => distinct (targets ++ handlers))
    (code.mapIdx fun i _ => handlersAt ranges i)

/-- The parts of a routine that can be built, and what it is built of. -/
theorem build_eq_ok {code : Array Instr} {ranges : List Range} {scope : Scope} {r : Routine} :
    build code ranges scope = .ok r ↔ 0 < code.size ∧ (∀ range ∈ ranges, range.check code.size = .ok ()) ∧
      (∀ (i : Nat) (instr : Instr), code[i]? = some instr → checkInstr code.size scope i instr = .ok ()) ∧
      ∃ flow entries, Digraph.ofSuccessors (rows code ranges) = .ok flow ∧
        BitSet.ofIndices code.size (ranges.map Range.handler) = .ok entries ∧
        r = ⟨code, ranges, scope, code.mapIdx (normalTargets (returnPoints code)),
          code.mapIdx fun i _ => handlersAt ranges i, flow, entries⟩ := by
  rw [← forM_eq_ok, ← forM_checkInstr]
  unfold build
  by_cases empty : code.isEmpty = true
  · have none : ¬ 0 < code.size := by simpa using empty
    simp [empty, none, reject, bind, Except.bind]
  · have some : 0 < code.size := Nat.pos_of_ne_zero (by simpa using empty)
    rw [if_neg empty]
    constructor
    · intro built
      obtain ⟨⟨⟩, fitting, built⟩ := bind_eq_ok.mp built
      obtain ⟨⟨⟩, checked, built⟩ := bind_eq_ok.mp built
      obtain ⟨flow, linked, built⟩ := bind_eq_ok.mp built
      obtain ⟨entries, marked, built⟩ := bind_eq_ok.mp built
      cases built
      exact ⟨some, fitting, checked, flow, entries, linked, marked, rfl⟩
    · rintro ⟨_, fitting, checked, flow, entries, linked, marked, rfl⟩
      refine bind_eq_ok.mpr ⟨(), fitting, bind_eq_ok.mpr ⟨(), checked, ?_⟩⟩
      exact bind_eq_ok.mpr ⟨flow, linked, bind_eq_ok.mpr ⟨entries, marked, rfl⟩⟩

theorem checked_of_build {code : Array Instr} {ranges : List Range} {scope : Scope} {r : Routine}
    (built : build code ranges scope = .ok r) : r.Checked := by
  obtain ⟨nonempty, fitting, each, flow, entries, linked, marked, rfl⟩ := build_eq_ok.mp built
  refine ⟨⟨nonempty, ?_, ?_, rfl, rfl, linked⟩, ?_, ?_⟩
  · intro i instr listed
    exact (checkInstr_eq_ok.mp (each i instr listed)).1
  · intro i instr listed next
    have inside : i < code.size := (Array.getElem?_eq_some_iff.mp listed).1
    have notLast := (checkInstr_eq_ok.mp (each i instr listed)).2.1 next
    change i + 1 < code.size
    omega
  · intro i instr v listed
    exact (checkInstr_eq_ok.mp (each i instr listed)).2.2 v
  · have inside : ∀ j ∈ ranges.map Range.handler, j < code.size := by
      intro j member
      obtain ⟨range, listed, rfl⟩ := List.mem_map.mp member
      exact (checkRange_eq_ok.mp (fitting range listed)).2.2
    obtain ⟨entries', marked', _, members⟩ := BitSet.ofIndices_of_lt inside
    cases marked.symm.trans marked'
    intro range listed
    exact (members range.handler).mpr (List.mem_map_of_mem listed)

theorem built_of_build {code : Array Instr} {ranges : List Range} {scope : Scope} {r : Routine}
    (built : build code ranges scope = .ok r) : r.Built := (checked_of_build built).toBuilt

theorem mem_normalTargets {returns : List Nat} {i j : Nat} {instr : Instr} :
    j ∈ normalTargets returns i instr ↔
      j ∈ instr.targets ∨ (instr.fallsThrough = true ∧ j = i + 1) ∨ (instr.isRet = true ∧ j ∈ returns) := by
  unfold normalTargets
  rw [mem_distinct, List.mem_append, List.mem_append, or_assoc]
  cases instr.fallsThrough <;> cases instr.isRet <;> simp

namespace Built

variable {r : Routine} (built : r.Built) {i j : Nat}

include built

theorem normalSuccessors_of_getElem? {instr : Instr} (listed : r.code[i]? = some instr) :
    r.normalSuccessors i = .ok (normalTargets (returnPoints r.code) i instr) := by
  unfold normalSuccessors
  rw [fetch_eq_ok, built.normal, Array.getElem?_mapIdx, listed]
  rfl

theorem exceptionSuccessors_of_getElem? {instr : Instr} (listed : r.code[i]? = some instr) :
    r.exceptionSuccessors i = .ok (handlersAt r.ranges i) := by
  unfold exceptionSuccessors
  rw [fetch_eq_ok, built.exceptional, Array.getElem?_mapIdx, listed]
  rfl

/-- An instruction that passes control on is in the code. -/
theorem getElem?_of_passes {passage : Passage} (pass : r.Passes i passage j) : ∃ instr, r.code[i]? = some instr := by
  cases passage with
  | normal =>
    obtain ⟨next, found, _⟩ := pass
    unfold normalSuccessors at found
    rw [fetch_eq_ok, built.normal, Array.getElem?_mapIdx] at found
    obtain ⟨instr, listed, _⟩ := Option.map_eq_some_iff.mp found
    exact ⟨instr, listed⟩
  | exceptional =>
    obtain ⟨next, found, _⟩ := pass
    unfold exceptionSuccessors at found
    rw [fetch_eq_ok, built.exceptional, Array.getElem?_mapIdx] at found
    obtain ⟨instr, listed, _⟩ := Option.map_eq_some_iff.mp found
    exact ⟨instr, listed⟩

theorem passes_normal {instr : Instr} (listed : r.code[i]? = some instr) :
    r.Passes i .normal j ↔ j ∈ normalTargets (returnPoints r.code) i instr := by
  simp [Passes, built.normalSuccessors_of_getElem? listed]

theorem passes_exceptional {instr : Instr} (listed : r.code[i]? = some instr) :
    r.Passes i .exceptional j ↔ j ∈ handlersAt r.ranges i := by
  simp [Passes, built.exceptionSuccessors_of_getElem? listed]

theorem successors_of_getElem? {instr : Instr} (listed : r.code[i]? = some instr) :
    r.flow.successors i =
      .ok (distinct (normalTargets (returnPoints r.code) i instr ++ handlersAt r.ranges i)) := by
  have normal := fetch_eq_ok.mp (built.normalSuccessors_of_getElem? listed)
  have exceptional := fetch_eq_ok.mp (built.exceptionSuccessors_of_getElem? listed)
  unfold Digraph.successors
  rw [fetch_eq_ok, (Digraph.ofSuccessors_eq_ok built.flow).1, Array.getElem?_zipWith, normal, exceptional]

/-- The edges of a routine are its normal and its exceptional passages. -/
theorem edge_iff : r.flow.Edge i j ↔ ∃ passage, r.Passes i passage j := by
  constructor
  · rintro ⟨next, found, member⟩
    have inside : i < r.code.size := by
      have listed := fetch_eq_ok.mp found
      rw [(Digraph.ofSuccessors_eq_ok built.flow).1] at listed
      obtain ⟨bound, _⟩ := Array.getElem?_eq_some_iff.mp listed
      simp only [Array.size_zipWith, built.normal, Array.size_mapIdx] at bound
      omega
    have listed : r.code[i]? = some r.code[i] := Array.getElem?_eq_getElem inside
    rw [built.successors_of_getElem? listed] at found
    cases found
    rw [mem_distinct, List.mem_append] at member
    rcases member with normal | exceptional
    · exact ⟨.normal, (built.passes_normal listed).mpr normal⟩
    · exact ⟨.exceptional, (built.passes_exceptional listed).mpr exceptional⟩
  · rintro ⟨passage, pass⟩
    obtain ⟨instr, listed⟩ := built.getElem?_of_passes pass
    refine ⟨_, built.successors_of_getElem? listed, ?_⟩
    rw [mem_distinct, List.mem_append]
    cases passage with
    | normal => exact .inl ((built.passes_normal listed).mp pass)
    | exceptional => exact .inr ((built.passes_exceptional listed).mp pass)

theorem nodeCount_flow : r.flow.nodeCount = r.size := by
  have normal : r.normal.size = r.size := by rw [built.normal, Array.size_mapIdx]; rfl
  have exceptional : r.exceptional.size = r.size := by rw [built.exceptional, Array.size_mapIdx]; rfl
  unfold Digraph.nodeCount
  rw [(Digraph.ofSuccessors_eq_ok built.flow).1, Array.size_zipWith, normal, exceptional, Nat.min_self]

theorem lt_of_edge (edge : r.flow.Edge i j) : j < r.size := by
  have inside := (Digraph.ofSuccessors_eq_ok built.flow).2.2 i j edge
  rw [← (Digraph.ofSuccessors_eq_ok built.flow).1] at inside
  exact built.nodeCount_flow ▸ inside

theorem lt_of_passes {passage : Passage} (pass : r.Passes i passage j) : j < r.size :=
  built.lt_of_edge (built.edge_iff.mpr ⟨passage, pass⟩)

theorem mem_predecessors {sources : List Nat} (found : r.flow.predecessors j = .ok sources) :
    i ∈ sources ↔ r.flow.Edge i j := by
  rw [← Digraph.mem_predecessors_iff built.flow]
  simp [found]

theorem mem_normalPredecessors {sources : List Nat} (found : r.normalPredecessors j = .ok sources) :
    i ∈ sources ↔ r.Passes i .normal j := by
  obtain ⟨all, listed, kept⟩ := bind_eq_ok.mp found
  rw [mem_of_filterM kept, built.mem_predecessors listed, bind_eq_ok]
  constructor
  · rintro ⟨_, next, after, same⟩
    exact ⟨next, after, List.contains_iff_mem.mp (Except.ok.inj same)⟩
  · intro pass
    obtain ⟨next, after, member⟩ := pass
    refine ⟨built.edge_iff.mpr ⟨.normal, next, after, member⟩, next, after, ?_⟩
    rw [List.contains_iff_mem.mpr member]
    rfl

theorem predecessors_total (inside : j < r.size) : ∃ sources, r.flow.predecessors j = .ok sources := by
  have bound : j < r.flow.pred.size := by
    rw [r.flow.same_size]
    change j < r.flow.nodeCount
    rw [built.nodeCount_flow]
    exact inside
  exact ⟨_, fetch_of_lt bound⟩

theorem normalPredecessors_total (inside : j < r.size) : ∃ sources, r.normalPredecessors j = .ok sources := by
  obtain ⟨all, listed⟩ := built.predecessors_total inside
  have each : ∀ i ∈ all, ∃ passed, (do return (← r.normalSuccessors i).contains j : Result Bool) = .ok passed := by
    intro i member
    obtain ⟨passage, pass⟩ := built.edge_iff.mp ((built.mem_predecessors listed).mp member)
    obtain ⟨instr, decoded⟩ := built.getElem?_of_passes pass
    exact ⟨_, bind_eq_ok.mpr ⟨_, built.normalSuccessors_of_getElem? decoded, rfl⟩⟩
  obtain ⟨sources, kept⟩ := exists_filterM each
  exact ⟨sources, bind_eq_ok.mpr ⟨all, listed, kept⟩⟩

end Built

/-- An exception takes control to the entry of a handler. -/
theorem Checked.entry_of_passes {r : Routine} (checked : r.Checked) {i j : Nat} (pass : r.Passes i .exceptional j) :
    r.isHandlerEntry j = true := by
  obtain ⟨instr, listed⟩ := checked.getElem?_of_passes pass
  have handler := (checked.passes_exceptional listed).mp pass
  rw [handlersAt, mem_distinct] at handler
  obtain ⟨range, covering, rfl⟩ := List.mem_map.mp handler
  exact checked.entries range (List.mem_filter.mp covering).1

end Routine

end StackFlow
