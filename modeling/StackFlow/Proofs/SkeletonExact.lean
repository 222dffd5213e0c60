import Mathlib
import StackFlow.Proofs.Adjacency
import StackFlow.Proofs.LivePaths
import StackFlow.Proofs.RoutineEdges

/-!
The skeleton of a checked routine is the routine without its plain instructions. It is
always found (`ofRoutine_total`). Its nodes are numbered in the order of the code, the
numbering and its inverse agree, and a node lists another among its successors, once,
just if the routine has a path between the two that meets no node on the way
(`skeleton_exact`).
-/
namespace StackFlow.Skeleton

open Routine

variable {r : Routine}

theorem successors_total (built : r.Built) {i : Nat} (inside : i < r.size) :
    ∃ next, r.flow.successors i = .ok next ∧ ∀ j ∈ next, j < r.size := by
  have found := built.successors_of_getElem? (Array.getElem?_eq_getElem inside)
  exact ⟨_, found, fun j member => built.lt_of_edge ⟨_, found, member⟩⟩

theorem search_total (built : r.Built) {index : Array (Option Nat)} (numbers : Numbers r index) {stack : List Nat}
    {scratch : Scratch} (found : List Nat) (inside : ∀ j ∈ stack, j < r.size) (sized : scratch.seen.size = r.size) :
    ∃ answer, search r index stack scratch found = .ok answer := by
  fun_induction search r index stack scratch found with
  | case1 scratch found => exact ⟨(found, scratch), rfl⟩
  | case2 scratch found current rest e failed =>
    rw [fetch_of_lt (numbers.size.symm ▸ inside current (by simp))] at failed
    cases failed
  | case3 scratch found current rest node entry ih => exact ih (fun j later => inside j (by simp [later])) sized
  | case4 scratch found current rest entry _ fresh e failed =>
    obtain ⟨next, listed, _⟩ := successors_total built (inside current (by simp))
    cases listed.symm.trans failed
  | case5 scratch found current rest entry bound fresh next listed ih =>
    obtain ⟨next', listed', targets⟩ := successors_total built (inside current (by simp))
    cases listed.symm.trans listed'
    refine ih (fun j member => ?_) (by rw [Scratch.mark, Array.size_set, sized])
    rcases List.mem_append.mp member with new | later
    · exact targets j new
    · exact inside j (by simp [later])
  | case6 scratch found current rest entry bound old ih => exact ih (fun j later => inside j (by simp [later])) sized
  | case7 scratch found current rest entry outside => exact absurd (sized.symm ▸ inside current (by simp)) outside

/-- A search ends and takes back its marks. -/
theorem follow_total (built : r.Built) {index : Array (Option Nat)} (numbers : Numbers r index) {origin : Nat}
    (inside : origin < r.size) : ∃ out, follow r index origin = .ok out := by
  obtain ⟨next, after, targets⟩ := successors_total built inside
  have sized : (Scratch.fresh r.size).seen.size = r.size := Array.size_replicate
  obtain ⟨⟨out, left⟩, ran⟩ := search_total built numbers [] targets sized
  have cleaned := Scratch.clear_of_tracks (search_tracks ran (Scratch.tracks_fresh r.size))
  refine ⟨out, bind_eq_ok.mpr ⟨(out, Scratch.fresh r.size), bind_eq_ok.mpr ⟨next, after, ?_⟩, rfl⟩⟩
  exact bind_eq_ok.mpr ⟨(out, left), ran, bind_eq_ok.mpr ⟨_, cleaned, rfl⟩⟩

theorem ofRoutine_total (built : r.Built) : ∃ s, ofRoutine r = .ok s := by
  obtain ⟨numbered, counted, nodes, numbers⟩ := numbering_spec r
  have each : ∀ i ∈ nodesOf r, ∃ out, follow r numbered.index i = .ok out := by
    intro i node
    obtain ⟨instr, listed, _⟩ := mem_nodesOf.mp node
    exact follow_total built numbers (Array.getElem?_eq_some_iff.mp listed).1
  obtain ⟨succ, searched⟩ := exists_mapM each
  have rows : successorRows r numbered.index numbered.nodes.toList = .ok succ.toArray := by
    rw [nodes, successorRows_eq, searched]
    rfl
  have inside : ∀ out ∈ succ.toArray.toList, ∀ n ∈ out, n < succ.toArray.size := by
    intro out row n member
    obtain ⟨i, _, run⟩ := (mem_of_mapM searched).mp row
    obtain ⟨j, _, place⟩ := (mem_follow numbers run).mp member
    rw [List.size_toArray, length_of_mapM searched]
    exact (List.getElem?_eq_some_iff.mp place).1
  obtain ⟨flow, linked⟩ := Digraph.ofSuccessors_total inside
  exact ⟨_, bind_eq_ok.mpr ⟨numbered, counted, bind_eq_ok.mpr ⟨_, rows, bind_eq_ok.mpr ⟨flow, linked, rfl⟩⟩⟩⟩

variable {s : Skeleton}

theorem nodeCount_flow (made : ofRoutine r = .ok s) : s.flow.nodeCount = s.size := by
  obtain ⟨_, _, succ, searched, linked⟩ := ofRoutine_eq_ok made
  rw [Digraph.nodeCount, (Digraph.ofSuccessors_eq_ok linked).1, size_eq made, List.size_toArray, length_of_mapM searched]

/-- What is already found is not noted again. -/
theorem search_nodup {index : Array (Option Nat)} {stack : List Nat} {scratch left : Scratch} {found out : List Nat}
    (run : search r index stack scratch found = .ok (out, left)) (distinct : found.Nodup) : out.Nodup := by
  fun_induction search r index stack scratch found with
  | case1 scratch found =>
    cases run
    exact distinct
  | case3 scratch found current rest node entry ih =>
    refine ih run ?_
    split
    · exact distinct
    · rename_i fresh
      have absent : node ∉ found := fun member => fresh (List.contains_iff_mem.mpr member)
      simpa using distinct.concat absent
  | case5 scratch found current rest entry inside fresh next listed ih => exact ih run distinct
  | case6 scratch found current rest entry inside old ih => exact ih run distinct
  | case2 | case4 | case7 => cases run

theorem next_nodup (made : ofRoutine r = .ok s) (n : Nat) : (s.flow.next n).Nodup := by
  obtain ⟨_, _, succ, searched, linked⟩ := ofRoutine_eq_ok made
  rw [Digraph.next, (Digraph.ofSuccessors_eq_ok linked).1, List.getElem?_toArray]
  cases row : succ[n]? with
  | none => exact List.nodup_nil
  | some out =>
    obtain ⟨i, _, run⟩ := (getElem?_of_mapM searched).mp row
    obtain ⟨first, left, _, run⟩ := follow_eq_ok run
    exact search_nodup run List.nodup_nil

/-- The ways of a routine are its paths that meet no node in between. -/
theorem leads_iff_path (built : r.Built) {i j : Nat} :
    Leads r i j ↔ ∃ between, r.IsPath (i :: (between ++ [j])) ∧ ∀ k ∈ between, k ∉ nodesOf r := by
  constructor
  · intro way
    induction way with
    | edge pass => exact ⟨[], List.isChain_pair.mpr pass, by simp⟩
    | @through j k way plain pass ih =>
      obtain ⟨between, isPath, avoids⟩ := ih
      have longer : r.IsPath ((i :: between) ++ [j, k]) := isPath_snoc.mpr ⟨isPath, pass⟩
      refine ⟨between ++ [j], by simpa using longer, ?_⟩
      exact List.forall_mem_append.mpr ⟨avoids, List.forall_mem_singleton.mpr plain.not_mem⟩
  · rintro ⟨between, isPath, avoids⟩
    induction between using List.reverseRecOn generalizing j with
    | nil => exact .edge (List.isChain_pair.mp isPath)
    | append_singleton between k ih =>
      have split : i :: (between ++ [k] ++ [j]) = (i :: between) ++ [k, j] := by simp
      obtain ⟨shorter, pass⟩ := isPath_snoc.mp (split ▸ isPath)
      obtain ⟨avoids, other⟩ := List.forall_mem_append.mp avoids
      -- What an edge leaves from is in the code, so it is plain if it is no node.
      have inside : k < r.size := built.nodeCount_flow ▸ Digraph.lt_of_mem_next (Digraph.mem_next.mpr pass)
      exact .through (ih shorter avoids) ((plain_iff inside).mpr (other k (List.mem_singleton_self k))) pass

theorem node?_eq_some (made : ofRoutine r = .ok s) {i n : Nat} : s.node? i = some n ↔ (nodesOf r)[n]? = some i := by
  rw [node?, Option.join_eq_some_iff, (ofRoutine_eq_ok made).2.1.place]

theorem node?_eq_none (made : ofRoutine r = .ok s) {i : Nat} : s.node? i = none ↔ i ∉ nodesOf r := by
  rw [Option.eq_none_iff_forall_ne_some, List.mem_iff_getElem?, not_exists]
  exact forall_congr' fun n => not_congr (node?_eq_some made)

/-- The skeleton of a routine: its nodes are the first instruction and those that touch a
    variable, end a statement or transfer control, in the order of the code; the
    numbering of the nodes goes both ways; and one node follows another just if some path
    leads from the one to the other and meets no node in between. Successors and
    predecessors are listed once each, and the edges are counted. -/
theorem skeleton_exact {code : Array Instr} {ranges : List Range} {scope : Scope}
    (built : Routine.build code ranges scope = .ok r) :
    ∃ s, ofRoutine r = .ok s ∧ s.nodes.toList.Pairwise (· < ·) ∧
      (∀ i, i ∈ s.nodes.toList ↔ ∃ instr, r.code[i]? = some instr ∧
        (i = 0 ∨ (∃ v, instr.Touches v) ∨ instr = .boundary ∨ instr.Transfers)) ∧
      (∀ i n, s.node? i = some n ↔ s.instruction n = .ok i) ∧ (∀ i, s.node? i = none ↔ i ∉ s.nodes.toList) ∧
      ∃ next before : Nat → List Nat,
        (∀ n < s.size, s.flow.successors n = .ok (next n) ∧ s.flow.predecessors n = .ok (before n)) ∧
        (∀ n i, s.instruction n = .ok i → (next n).Nodup ∧ ∀ m, m ∈ next n ↔ ∃ j between,
          s.instruction m = .ok j ∧ r.IsPath (i :: (between ++ [j])) ∧ ∀ k ∈ between, k ∉ s.nodes.toList) ∧
        (∀ n m, (before m).count n = if m ∈ next n then 1 else 0) ∧
        s.flow.edgeCount = ∑ n ∈ Finset.range s.size, (next n).length := by
  have checked := built_of_build built
  obtain ⟨s, made⟩ := ofRoutine_total checked
  obtain ⟨listed, _, succ, _, linked⟩ := ofRoutine_eq_ok made
  have size := nodeCount_flow made
  refine ⟨s, made, ?_⟩
  simp only [listed, instruction_eq_ok made]
  refine ⟨nodesOf_ascending r, fun i => ?_, fun i n => node?_eq_some made, fun i => node?_eq_none made,
    s.flow.next, s.flow.before, fun n inside => ?_, fun n i place => ⟨next_nodup made n, fun m => ?_⟩, fun n m => ?_, ?_⟩
  · simp only [mem_nodesOf, isNode_iff]
  · rw [← size] at inside
    exact ⟨Digraph.successors_of_lt inside, Digraph.predecessors_of_lt inside⟩
  · rw [Digraph.mem_next, edge_iff_leads made]
    constructor
    · rintro ⟨i', j, place', there, way⟩
      cases place.symm.trans place'
      obtain ⟨between, path⟩ := (leads_iff_path checked).mp way
      exact ⟨j, between, there, path⟩
    · rintro ⟨j, between, there, path⟩
      exact ⟨i, j, place, there, (leads_iff_path checked).mpr ⟨between, path⟩⟩
  · rw [Digraph.count_before linked, (next_nodup made n).count]
  · rw [← size]
    exact Digraph.edgeCount_eq_out linked

/-- Every exception in the plain code from 1 to 3 leads back to 2, and the jump at 4 to 1. -/
def plainLoop : Result Routine :=
  Routine.build #[.boundary, .nop, .pushConst, .pop, .goto 1] [⟨1, 4, 2⟩] Scope.empty

theorem skeleton_exact_plainLoop :
    ∃ r s, plainLoop = .ok r ∧ ofRoutine r = .ok s ∧ s.nodes = #[0, 4] ∧ s.flow.edgeCount = 2 ∧
      (∃ between, r.IsPath (4 :: (between ++ [4])) ∧ ∀ k ∈ between, k ∉ [0, 4]) ∧
      ¬ ∃ between, r.IsPath (4 :: (between ++ [0])) ∧ ∀ k ∈ between, k ∉ [0, 4] := by
  have computed : (do
      let r ← plainLoop
      let s ← ofRoutine r
      return (s.nodes, s.flow.edgeCount, s.flow.successors 1) : Result _) = .ok (#[0, 4], 2, .ok [1]) := by cbv
  obtain ⟨r, built, computed⟩ := bind_eq_ok.mp computed
  obtain ⟨s, made, computed⟩ := bind_eq_ok.mp computed
  simp only [pure, Except.pure, Except.ok.injEq, Prod.mk.injEq] at computed
  obtain ⟨nodes, edges, after⟩ := computed
  obtain ⟨s', made', _, _, _, _, next, before, tables, paths, _⟩ := skeleton_exact built
  cases made.symm.trans made'
  have size : s.size = 2 := by rw [Skeleton.size, nodes]; rfl
  have row : next 1 = [1] := Except.ok.inj ((tables 1 (by omega)).1.symm.trans after)
  have first : s.instruction 0 = .ok 0 := fetch_eq_ok.mpr (by rw [nodes]; rfl)
  have second : s.instruction 1 = .ok 4 := fetch_eq_ok.mpr (by rw [nodes]; rfl)
  obtain ⟨_, follows⟩ := paths 1 4 second
  rw [nodes] at follows
  refine ⟨r, s, built, made, nodes, edges, ?_, fun path => ?_⟩
  · obtain ⟨j, between, there, path⟩ := (follows 1).mp (by simp [row])
    cases second.symm.trans there
    exact ⟨between, path⟩
  · obtain ⟨between, path⟩ := path
    have member := (follows 0).mpr ⟨0, between, first, path⟩
    simp [row] at member

end StackFlow.Skeleton
