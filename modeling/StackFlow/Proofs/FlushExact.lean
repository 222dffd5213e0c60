import Mathlib
import StackFlow.Proofs.LivenessTotal

/-!
What a flush plan is, along the paths of a routine. On its way from the first instruction a
path hands on the live set that it met last; the sets that come to a node over the skeleton
are those that the paths to its instruction hand on (`brought_iff`). A plan flushes at a
boundary what is handed on to it and neither live there nor exempt (`flushPlan_exact`).
-/
namespace StackFlow

open Routine Skeleton Worklist

namespace Routine

variable {r : Routine} {live : LiveSets} {i : Nat} {path : List Nat}

theorem recorded_of_plain (plain : Plain r i) : r.recorded live i = none := by
  refine Option.eq_none_iff_forall_ne_some.mpr fun here met => ?_
  exact plain.not_mem (mem_nodesOf_of_boundary (recorded_eq_some.mp met).1)

/-- The set that a path hands on: the last one it has met, and no variables before that. -/
def handsOn (r : Routine) (live : LiveSets) (path : List Nat) : BitSet :=
  (path.filterMap (r.recorded live)).getLast?.getD (BitSet.empty r.scope.size)

theorem handsOn_snoc : r.handsOn live (path ++ [i]) = (r.recorded live i).getD (r.handsOn live path) := by
  unfold handsOn
  cases met : r.recorded live i <;> simp [List.filterMap_append, met]

theorem handsOn_plain (plain : Plain r i) : r.handsOn live (path ++ [i]) = r.handsOn live path := by
  rw [handsOn_snoc, recorded_of_plain plain, Option.getD_none]

theorem contains_handsOn {v : VarId} : (r.handsOn live path).contains v = true ↔
    ∃ last ∈ (path.filterMap (r.recorded live)).getLast?, last.contains v = true := by
  unfold handsOn
  cases (path.filterMap (r.recorded live)).getLast? <;> simp

/-- A path from the first instruction. -/
structure Starts (r : Routine) (path : List Nat) : Prop where
  isPath : r.IsPath path
  first : path.head? = some 0

theorem starts_singleton : r.Starts [i] ↔ i = 0 :=
  ⟨fun starts => Option.some.inj starts.first, fun zero => ⟨List.isChain_singleton i, congrArg some zero⟩⟩

theorem starts_snoc {j : Nat} : r.Starts (path ++ [i] ++ [j]) ↔ r.Starts (path ++ [i]) ∧ r.flow.Edge i j := by
  have same : path ++ [i] ++ [j] = path ++ [i, j] := by simp
  have heads : (path ++ [i, j]).head? = (path ++ [i]).head? := by cases path <;> rfl
  rw [same]
  constructor
  · rintro ⟨isPath, first⟩
    obtain ⟨front, pass⟩ := isPath_snoc.mp isPath
    exact ⟨⟨front, heads ▸ first⟩, pass⟩
  · rintro ⟨⟨front, first⟩, pass⟩
    exact ⟨isPath_snoc.mpr ⟨front, pass⟩, heads.trans first⟩

end Routine

namespace Skeleton

variable {r : Routine}

/-- A path to a node goes on to each node that follows it, and meets nothing on the way. -/
theorem Leads.starts (live : LiveSets) {i j : Nat} {path : List Nat} (way : Leads r i j) (starts : r.Starts (path ++ [i])) :
    ∃ longer, r.Starts (longer ++ [j]) ∧ r.handsOn live longer = r.handsOn live (path ++ [i]) := by
  induction way with
  | edge pass => exact ⟨path ++ [i], starts_snoc.mpr ⟨starts, pass⟩, rfl⟩
  | @through j k way plain pass ih =>
    obtain ⟨longer, reaches, same⟩ := ih
    exact ⟨longer ++ [j], starts_snoc.mpr ⟨reaches, pass⟩, (handsOn_plain plain).trans same⟩

end Skeleton

namespace Liveness

variable {a : Liveness} {config : Config} {live : LiveSets} {spared : BitSet} {n m i j : Nat}

/-- The sets that come to the nodes on a forward run. -/
def Brought (a : Liveness) (config : Config) (live : LiveSets) (spared : BitSet) (n : Nat) (f : BitSet) : Prop :=
  Reached (a.forward config live spared) [(0, BitSet.empty a.width)] (n, f)

theorem mem_near_forward (made : Skeleton.ofRoutine a.routine = .ok a.skeleton) :
    m ∈ (a.forward config live spared).near n ↔
      ∃ i j, (nodesOf a.routine)[n]? = some i ∧ (nodesOf a.routine)[m]? = some j ∧ Leads a.routine i j :=
  mem_near.trans (edge_iff_leads made)

section Run

variable (prepared : a.Prepared) (sized : a.Sized live) (capacity : spared.capacity = a.width)

include prepared sized capacity

theorem capacity_brought {f : BitSet} (brought : a.Brought config live spared n f) : f.capacity = a.width :=
  ((forward_carries prepared sized capacity config).fits prepared brought).capacity

/-- What comes to a node is handed on to it by some path. -/
theorem starts_of_reached {item : Nat × BitSet}
    (reached : Reached (a.forward config live spared) [(0, BitSet.empty a.width)] item) :
    ∃ path i, (nodesOf a.routine)[item.1]? = some i ∧ a.routine.Starts (path ++ [i]) ∧
      item.2 = a.routine.handsOn live path := by
  induction reached with
  | seed given =>
    rw [List.mem_singleton.mp given]
    exact ⟨[], 0, place_zero prepared.checked.nonempty, starts_singleton.mpr rfl, rfl⟩
  | sent source becomes target ih =>
    obtain ⟨path, i, place, starts, same⟩ := ih
    obtain ⟨sends, _⟩ := carry_total prepared sized capacity place (capacity_brought prepared sized capacity source)
    cases becomes.symm.trans sends
    obtain ⟨m, near, rfl⟩ := List.mem_map.mp target
    obtain ⟨i', j, place', there, way⟩ := (mem_near_forward prepared.made).mp near
    cases place.symm.trans place'
    obtain ⟨longer, reaches, kept⟩ := way.starts live starts
    exact ⟨longer, j, there, reaches, by rw [kept, handsOn_snoc, same]⟩

/-- What comes to a node is sent to the nodes that it leads to. -/
theorem Brought.send {f : BitSet} (brought : a.Brought config live spared n f) (place : (nodesOf a.routine)[n]? = some i)
    (there : (nodesOf a.routine)[m]? = some j) (way : Leads a.routine i j) :
    a.Brought config live spared m ((a.routine.recorded live i).getD f) := by
  obtain ⟨sends, _⟩ := carry_total prepared sized capacity place (capacity_brought prepared sized capacity brought)
  have near : m ∈ (a.forward config live spared).near n := (mem_near_forward prepared.made).mpr ⟨i, j, place, there, way⟩
  exact .sent brought sends (List.mem_map.mpr ⟨m, near, rfl⟩)

/-- What a path hands on comes to the node at its end; if there is none, it is on the way
    from a node whose set it still hands on. -/
theorem brought_of_starts (config : Config) {path : List Nat} (starts : a.routine.Starts (path ++ [i])) :
    (∃ n, (nodesOf a.routine)[n]? = some i ∧ a.Brought config live spared n (a.routine.handsOn live path)) ∨
    Plain a.routine i ∧ ∃ m k f, (nodesOf a.routine)[m]? = some k ∧ Leads a.routine k i ∧
      a.Brought config live spared m f ∧ (a.routine.recorded live k).getD f = a.routine.handsOn live path := by
  induction path using List.reverseRecOn generalizing i with
  | nil =>
    cases starts_singleton.mp starts
    exact .inl ⟨0, place_zero prepared.checked.nonempty, .seed (List.mem_singleton.mpr rfl)⟩
  | append_singleton path j ih =>
    obtain ⟨starts, pass⟩ := starts_snoc.mp starts
    -- Either the instruction before is a node itself, or the way from the last node goes on.
    have origin : ∃ m k f, (nodesOf a.routine)[m]? = some k ∧ Leads a.routine k i ∧ a.Brought config live spared m f ∧
        (a.routine.recorded live k).getD f = a.routine.handsOn live (path ++ [j]) := by
      rcases ih starts with ⟨n, place, brought⟩ | ⟨plain, m, k, f, place, way, brought, same⟩
      · exact ⟨n, j, _, place, .edge pass, brought, handsOn_snoc.symm⟩
      · exact ⟨m, k, f, place, .through way plain pass, brought, same.trans (handsOn_plain plain).symm⟩
    obtain ⟨m, k, f, place, way, brought, same⟩ := origin
    rcases plain_or_node prepared.made (List.mem_of_getElem? place) way with plain | node
    · exact .inr ⟨plain, m, k, f, place, way, brought, same⟩
    · obtain ⟨n, there⟩ := List.mem_iff_getElem?.mp node
      exact .inl ⟨n, there, same ▸ Brought.send prepared sized capacity brought place there way⟩

/-- The sets that come to a node are those that paths hand on to its instruction. -/
theorem brought_iff (place : (nodesOf a.routine)[n]? = some i) {f : BitSet} :
    a.Brought config live spared n f ↔ ∃ path, a.routine.Starts (path ++ [i]) ∧ f = a.routine.handsOn live path := by
  constructor
  · intro brought
    obtain ⟨path, i', place', starts, same⟩ := starts_of_reached prepared sized capacity brought
    cases place.symm.trans place'
    exact ⟨path, starts, same⟩
  · rintro ⟨path, starts, rfl⟩
    rcases brought_of_starts prepared sized capacity config starts with ⟨m, there, brought⟩ | ⟨plain, _⟩
    · cases place_injective place there
      exact brought
    · exact absurd (List.mem_of_getElem? place) plain.not_mem

end Run

end Liveness

/-- A plan for given live sets flushes at a boundary that has one all that is neither live
    there nor exempt and that some path from the first instruction brings along: it is in the
    set that the path met last before it came to the boundary. Flushes are listed in ascending
    order, and the plan has an entry for just those boundaries that have any, again in
    ascending order. -/
theorem flushPlan_exact {code : Array Instr} {ranges : List Range} {scope : Scope} {r : Routine} {a : Liveness}
    {config : Config} {live : LiveSets} {plan : FlushPlan} (built : Routine.build code ranges scope = .ok r)
    (made : Liveness.ofRoutine r = .ok a) (sized : ∀ b here, live.at? b = some here → here.capacity = r.scope.size)
    (planned : (a.flushPlanFrom config none live).result = .ok plan) :
    (∀ b v, v ∈ plan.varsAt b ↔ ∃ here, r.code[b]? = some .boundary ∧ live.at? b = some here ∧
      r.scope.isExempt v = false ∧ here.contains v = false ∧ ∃ path, r.Starts (path ++ [b]) ∧
      ∃ last ∈ (path.filterMap (r.recorded live)).getLast?, last.contains v = true) ∧
    (∀ b, (plan.varsAt b).Pairwise (· < ·)) ∧ plan.entries.Pairwise (fun x y => x.1 < y.1) ∧
    ∀ b vars, (b, vars) ∈ plan.entries ↔ vars ≠ [] ∧ plan.varsAt b = vars := by
  obtain ⟨rfl, skeleton⟩ := Liveness.ofRoutine_eq_ok made
  have prepared : a.Prepared := ⟨checked_of_build built, skeleton⟩
  have sized : a.Sized live := sized
  obtain ⟨spared, capacity, exempt, plans⟩ := Liveness.flushPlanFrom_eq a
  rw [plans] at planned
  obtain ⟨calls, collected, exact, _⟩ := collect_eq_ok planned
  obtain ⟨ascending, entries, _⟩ := Liveness.entries_of_plan skeleton sized collected
  have flushes := Liveness.varsAt_of_plan skeleton sized collected
  refine ⟨fun b v => ((flushes b).2 v).trans ⟨?_, ?_⟩, fun b => (flushes b).1, ascending, entries⟩
  · rintro ⟨here, n, f, met, notLive, notExempt, place, called, held⟩
    have brought : a.Brought config live spared n f := (exact _).mp called
    have inside : v < a.width := Liveness.capacity_brought prepared sized capacity brought ▸ BitSet.lt_of_contains held
    obtain ⟨boundary, entry⟩ := recorded_eq_some.mp met
    obtain ⟨path, starts, rfl⟩ := (Liveness.brought_iff prepared sized capacity place).mp brought
    refine ⟨here, boundary, entry, ?_, by simpa using notLive, path, starts, contains_handsOn.mp held⟩
    simpa [exempt, inside] using notExempt
  · rintro ⟨here, boundary, entry, spares, notLive, path, starts, last⟩
    obtain ⟨n, place⟩ := List.mem_iff_getElem?.mp (mem_nodesOf_of_boundary boundary)
    have called := (exact _).mpr ((Liveness.brought_iff prepared sized capacity place).mpr ⟨path, starts, rfl⟩)
    exact ⟨here, n, _, recorded_eq_some.mpr ⟨boundary, entry⟩, by simp [notLive], by simp [exempt, spares], place, called,
      contains_handsOn.mpr last⟩

/-- The last variable may be read in ways that the code does not show. -/
def skipping : Result Routine := do
  let scope ← Scope.empty.declareAll [.local 0 Flags.none, .local 1 Flags.none, .local 2 ⟨true, false⟩]
  Routine.build #[.boundary, .boundary, .branch 0 1, .boundary, .nop, .boundary, .return false] [] scope

/-- Live sets for all boundaries but the one at 1. -/
def skippingSets : Result LiveSets := do
  return ⟨[(0, ← BitSet.ofIndices 3 [0, 2]), (3, ← BitSet.ofIndices 3 [1]), (5, BitSet.empty 3)]⟩

theorem flushPlan_exact_skipping :
    ∃ r a live plan, skipping = .ok r ∧ Liveness.ofRoutine r = .ok a ∧ skippingSets = .ok live ∧
      (a.flushPlanFrom Config.standard none live).result = .ok plan ∧ plan.entries = [(3, [0]), (5, [1])] ∧
      (∃ path, r.Starts (path ++ [3]) ∧
        ∃ last ∈ (path.filterMap (r.recorded live)).getLast?, last.contains 0 = true) ∧
      ¬ ∃ path, r.Starts (path ++ [5]) ∧
        ∃ last ∈ (path.filterMap (r.recorded live)).getLast?, last.contains 0 = true := by
  have computed : (do
      let r ← skipping
      let a ← Liveness.ofRoutine r
      let live ← skippingSets
      let plan ← (a.flushPlanFrom Config.standard none live).result
      return (plan.entries, live.entries.all (·.2.capacity == r.scope.size), r.code[5]?, live.at? 5, r.scope.isExempt 0) :
        Result _) = .ok ([(3, [0]), (5, [1])], true, some .boundary, some (BitSet.empty 3), false) := by cbv
  obtain ⟨r, built, computed⟩ := bind_eq_ok.mp computed
  obtain ⟨a, made, computed⟩ := bind_eq_ok.mp computed
  obtain ⟨live, given, computed⟩ := bind_eq_ok.mp computed
  obtain ⟨plan, planned, computed⟩ := bind_eq_ok.mp computed
  simp only [pure, Except.pure, Except.ok.injEq, Prod.mk.injEq] at computed
  obtain ⟨entries, capacities, boundary, none, notExempt⟩ := computed
  have sized : ∀ b here, live.at? b = some here → here.capacity = r.scope.size := by
    intro b here entry
    obtain ⟨front, back, split, _⟩ := List.lookup_eq_some_iff.mp entry
    simpa using List.all_eq_true.mp capacities (b, here) (by simp [split])
  obtain ⟨scope, _, checked⟩ := bind_eq_ok.mp built
  obtain ⟨flushes, _, _, listed⟩ := flushPlan_exact checked made sized planned
  refine ⟨r, a, live, plan, built, made, given, planned, entries, ?_, fun brought => ?_⟩
  · have here : plan.varsAt 3 = [0] := ((listed 3 [0]).mp (by simp [entries])).2
    obtain ⟨_, _, _, _, _, brought⟩ := (flushes 3 0).mp (by simp [here])
    exact brought
  · have here : plan.varsAt 5 = [1] := ((listed 5 [1]).mp (by simp [entries])).2
    have flushed := (flushes 5 0).mpr ⟨_, boundary, none, notExempt, BitSet.contains_empty 3 0, brought⟩
    simp [here] at flushed

end StackFlow
