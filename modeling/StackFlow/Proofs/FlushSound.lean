import StackFlow.Proofs.LivenessExact

/-!
When flushing is safe. What a plan flushes at a boundary came there and is neither live nor
exempt (`varsAt_of_plan`), so no path to an exit reads it before overwriting it. Live sets
say nothing about paths that never come to an exit: a flush is safe just if none of these
reads the variable first (`flush_safe_iff`), and there are routines where one does
(`flush_safe_iff_endless`).
-/
namespace StackFlow

open Routine Skeleton Worklist

namespace Routine

/-- Every path from `b` to a read of `v` overwrites `v` in between. -/
def NeverReadAgain (r : Routine) (v : VarId) (b : Nat) : Prop :=
  ∀ between i, r.IsPath (b :: (between ++ [i])) → r.ReadsAt v i → ∃ j ∈ between, r.OverwritesAt v j

/-- Some path from `b` reads `v` before overwriting it, in a part of the routine that no
    path leaves. -/
def TrappedRead (r : Routine) (v : VarId) (b : Nat) : Prop :=
  ∃ between i, r.IsPath (b :: (between ++ [i])) ∧ r.ReadsAt v i ∧ (∀ j ∈ between, ¬ r.OverwritesAt v j) ∧
    ¬ r.ReachesExit i

/-- Where no path to an exit reads `v` first, only trapped reads are left. -/
theorem neverReadAgain_iff {r : Routine} {v : VarId} {b : Nat} (dead : ¬ ∃ path, r.Leaves b path ∧ r.ReadsFirst v path) :
    r.NeverReadAgain v b ↔ ¬ r.TrappedRead v b := by
  constructor
  · rintro safe ⟨between, i, isPath, reads, intact, _⟩
    obtain ⟨j, member, overwrites⟩ := safe between i isPath reads
    exact intact j member overwrites
  · intro free between i isPath reads
    refine Classical.byContradiction fun intact => ?_
    have kept : ∀ j ∈ between, ¬ r.OverwritesAt v j := fun j member overwrites => intact ⟨j, member, overwrites⟩
    by_cases reaches : r.ReachesExit i
    · obtain ⟨path, leaves⟩ := reaches
      exact dead ⟨between ++ i :: path, Leaves.append isPath leaves, between, i, path, rfl, reads, kept⟩
    · exact free ⟨between, i, isPath, reads, kept, reaches⟩

/-- The live set that is met at an instruction: boundaries may have one. -/
def recorded (r : Routine) (live : LiveSets) (i : Nat) : Option BitSet :=
  if r.code[i]? = some .boundary then live.at? i else none

theorem recorded_eq_some {r : Routine} {live : LiveSets} {i : Nat} {here : BitSet} :
    r.recorded live i = some here ↔ r.code[i]? = some .boundary ∧ live.at? i = some here := by
  unfold recorded
  by_cases boundary : r.code[i]? = some .boundary <;> simp [boundary]

end Routine

namespace Liveness

variable {a : Liveness} {live : LiveSets} {exempt : BitSet} {calls : List (Nat × BitSet)} {n i b : Nat}

theorem dead_eq_ok {exempt live carried out : BitSet} (run : dead exempt live carried = .ok out) :
    out.capacity = live.capacity ∧ ∀ v, out.contains v = true ↔
      carried.contains v = true ∧ ¬ live.contains v = true ∧ ¬ exempt.contains v = true := by
  obtain ⟨gone, taken, run⟩ := bind_eq_ok.mp run
  obtain ⟨rest, taken', run⟩ := bind_eq_ok.mp run
  cases run
  obtain ⟨same, size, members⟩ := BitSet.difference_eq_ok taken
  obtain ⟨_, size', members'⟩ := BitSet.difference_eq_ok taken'
  refine ⟨size'.trans (size.trans same), fun v => ?_⟩
  rw [members', members, and_assoc]

theorem liveHere_of_place (made : Skeleton.ofRoutine a.routine = .ok a.skeleton)
    (place : (nodesOf a.routine)[n]? = some i) : a.liveHere live n = .ok (a.routine.recorded live i) := by
  obtain ⟨instr, listed, _⟩ := mem_nodesOf.mp (List.mem_of_getElem? place)
  have found := (instruction_eq_ok made).mpr place
  have decoded : a.instr n = .ok instr := instr_eq_ok.mpr ⟨i, found, listed⟩
  unfold liveHere recorded
  simp only [decoded, found, listed, Option.some.injEq, ← Instr.isBoundary_iff]
  by_cases boundary : instr.isBoundary = true <;> simp [boundary, bind, Except.bind, pure, Except.pure]

theorem liveHere_eq_ok (made : Skeleton.ofRoutine a.routine = .ok a.skeleton) {found : Option BitSet}
    (sought : a.liveHere live n = .ok found) : ∃ i, (nodesOf a.routine)[n]? = some i ∧ a.routine.recorded live i = found := by
  obtain ⟨instr, decoded, _⟩ := bind_eq_ok.mp sought
  obtain ⟨i, at_n, _⟩ := instr_eq_ok.mp decoded
  have place := (instruction_eq_ok made).mp at_n
  exact ⟨i, place, Except.ok.inj ((liveHere_of_place made place).symm.trans sought)⟩

/-- The sets are about the variables of the routine. -/
def Sized (a : Liveness) (live : LiveSets) : Prop := ∀ b here, live.at? b = some here → here.capacity = a.width

theorem Sized.recorded {here : BitSet} (sized : a.Sized live) (met : a.routine.recorded live i = some here) :
    here.capacity = a.width := sized i here (recorded_eq_some.mp met).2

theorem capacity_deads {here : BitSet} {deads : List BitSet} (size : here.capacity = a.width)
    (taken : (factsAt calls n).mapM (dead exempt here) = .ok deads) {t : BitSet} (member : t ∈ deads) :
    t.capacity = a.width := by
  obtain ⟨f, _, died⟩ := (mem_of_mapM taken).mp member
  exact (dead_eq_ok died).1.trans size

/-- What dies at a node, on all ways to it together. -/
theorem contains_flushed {here flushed : BitSet} {deads : List BitSet} (size : here.capacity = a.width)
    (taken : (factsAt calls n).mapM (dead exempt here) = .ok deads) (united : unionAll a.width deads = .ok flushed)
    (v : VarId) :
    flushed.contains v = true ↔ ¬ here.contains v = true ∧ ¬ exempt.contains v = true ∧
      ∃ f, (n, f) ∈ calls ∧ f.contains v = true := by
  obtain ⟨flushed', united', _, members⟩ := unionAll_spec fun t => capacity_deads size taken
  cases united.symm.trans united'
  rw [members]
  constructor
  · rintro ⟨t, member, inside⟩
    obtain ⟨f, brought, died⟩ := (mem_of_mapM taken).mp member
    obtain ⟨held, notLive, notExempt⟩ := ((dead_eq_ok died).2 v).mp inside
    exact ⟨notLive, notExempt, f, mem_factsAt.mp brought, held⟩
  · rintro ⟨notLive, notExempt, f, brought, held⟩
    obtain ⟨k, at_k⟩ := List.mem_iff_getElem?.mp (mem_factsAt.mpr brought)
    obtain ⟨t, listed, died⟩ := entry_of_mapM taken at_k
    exact ⟨t, List.mem_of_getElem? listed, ((dead_eq_ok died).2 v).mpr ⟨held, notLive, notExempt⟩⟩

/-- The flushes at a node: in ascending order, what comes there and is neither live nor
    exempt, if there is anything. -/
theorem flushesAt_eq_ok (made : Skeleton.ofRoutine a.routine = .ok a.skeleton) (sized : a.Sized live)
    (place : (nodesOf a.routine)[n]? = some i) {entry : Option (Nat × List VarId)}
    (run : a.flushesAt live exempt calls n = .ok entry) :
    ∃ vars : List VarId, vars.Pairwise (· < ·) ∧ entry = (if vars = [] then none else some (i, vars)) ∧
      ∀ v, v ∈ vars ↔ ∃ here, a.routine.recorded live i = some here ∧ ¬ here.contains v = true ∧
        ¬ exempt.contains v = true ∧ ∃ f, (n, f) ∈ calls ∧ f.contains v = true := by
  obtain ⟨found, sought, run⟩ := bind_eq_ok.mp run
  cases (liveHere_of_place made place).symm.trans sought
  cases met : a.routine.recorded live i with
  | none =>
    rw [met] at run
    cases run
    exact ⟨[], List.Pairwise.nil, rfl, by simp⟩
  | some here =>
    rw [met] at run
    obtain ⟨deads, taken, run⟩ := bind_eq_ok.mp run
    obtain ⟨flushed, united, run⟩ := bind_eq_ok.mp run
    refine ⟨flushed.toList, BitSet.toList_ascending flushed, ?_, fun v => ?_⟩
    · split at run
      · rename_i none
        cases run
        rw [none]
        rfl
      · rename_i some
        obtain ⟨i', place', run⟩ := bind_eq_ok.mp run
        cases ((instruction_eq_ok made).mpr place).symm.trans place'
        cases run
        rw [if_neg some]
    · rw [BitSet.mem_toList, contains_flushed (sized.recorded met) taken united]
      simp

theorem flushesAt_eq_some (made : Skeleton.ofRoutine a.routine = .ok a.skeleton) (sized : a.Sized live)
    {vars : List VarId} (run : a.flushesAt live exempt calls n = .ok (some (i, vars))) :
    (nodesOf a.routine)[n]? = some i ∧ vars ≠ [] := by
  obtain ⟨found, sought, _⟩ := bind_eq_ok.mp run
  obtain ⟨i', place, _⟩ := liveHere_eq_ok made sought
  obtain ⟨vars', _, entry, _⟩ := flushesAt_eq_ok made sized place run
  by_cases none : vars' = []
  · rw [if_pos none] at entry
    cases entry
  · rw [if_neg none] at entry
    cases entry
    exact ⟨place, none⟩

/-- The plan that is read off a forward run. -/
def plan (a : Liveness) (live : LiveSets) (spared : BitSet) (calls : List (Nat × BitSet)) : Result FlushPlan := do
  return ⟨(← (List.range a.skeleton.size).mapM (a.flushesAt live spared calls)).filterMap id⟩

variable {plan : FlushPlan}

/-- The entries of a plan: they are in ascending order, and a boundary has one if there is
    anything to flush. -/
theorem entries_of_plan (made : Skeleton.ofRoutine a.routine = .ok a.skeleton) (sized : a.Sized live)
    (planned : a.plan live exempt calls = .ok plan) :
    plan.entries.Pairwise (fun x y => x.1 < y.1) ∧ (∀ b vars, (b, vars) ∈ plan.entries ↔ vars ≠ [] ∧ plan.varsAt b = vars) ∧
    ∀ b vars, plan.entries.lookup b = some vars ↔ ∃ n, a.flushesAt live exempt calls n = .ok (some (b, vars)) := by
  obtain ⟨found, run, collected⟩ := bind_eq_ok.mp planned
  cases collected
  have keyed : ∀ n b vars, a.flushesAt live exempt calls n = .ok (some (b, vars)) → (nodesOf a.routine)[n]? = some b :=
    fun n b vars ran => (flushesAt_eq_some made sized ran).1
  refine ⟨keys_of_nodes keyed run, fun b vars => ?_, fun b vars => lookup_of_nodes made keyed run⟩
  rw [mem_of_nodes made keyed run, ← lookup_of_nodes made keyed run]
  unfold FlushPlan.varsAt
  cases listed : (found.filterMap id).lookup b with
  | none =>
    simp only [Option.getD_none, reduceCtorEq, false_iff, not_and]
    exact fun some none => some none.symm
  | some vars' =>
    obtain ⟨n, ran⟩ := (lookup_of_nodes made keyed run).mp listed
    simp only [Option.some.injEq, Option.getD_some, iff_and_self]
    rintro rfl
    exact (flushesAt_eq_some made sized ran).2

/-- The variables flushed at a boundary are those of its node. -/
theorem varsAt_of_place (made : Skeleton.ofRoutine a.routine = .ok a.skeleton) (sized : a.Sized live)
    (planned : a.plan live exempt calls = .ok plan) (place : (nodesOf a.routine)[n]? = some b) :
    (plan.varsAt b).Pairwise (· < ·) ∧ ∀ v, v ∈ plan.varsAt b ↔ ∃ here, a.routine.recorded live b = some here ∧
      ¬ here.contains v = true ∧ ¬ exempt.contains v = true ∧ ∃ f, (n, f) ∈ calls ∧ f.contains v = true := by
  obtain ⟨_, _, lookup⟩ := entries_of_plan made sized planned
  obtain ⟨found, run, _⟩ := bind_eq_ok.mp planned
  obtain ⟨entry, _, ran⟩ := entry_of_mapM run (List.getElem?_range (lt_size_of_place made place))
  obtain ⟨vars, ascending, same, members⟩ := flushesAt_eq_ok made sized place ran
  have here : plan.varsAt b = vars := by
    unfold FlushPlan.varsAt
    by_cases none : vars = []
    · cases listed : plan.entries.lookup b with
      | none => exact none.symm
      | some vars' =>
        obtain ⟨m, ran'⟩ := (lookup b vars').mp listed
        cases place_injective place (flushesAt_eq_some made sized ran').1
        rw [if_pos none] at same
        cases same
        cases ran.symm.trans ran'
    · rw [if_neg none] at same
      rw [(lookup b vars).mpr ⟨n, same ▸ ran⟩, Option.getD_some]
  rw [here]
  exact ⟨ascending, members⟩

/-- Nothing is flushed where there is no node. -/
theorem varsAt_of_not_node (made : Skeleton.ofRoutine a.routine = .ok a.skeleton) (sized : a.Sized live)
    (planned : a.plan live exempt calls = .ok plan) (other : b ∉ nodesOf a.routine) : plan.varsAt b = [] := by
  obtain ⟨_, _, lookup⟩ := entries_of_plan made sized planned
  unfold FlushPlan.varsAt
  cases listed : plan.entries.lookup b with
  | none => rfl
  | some vars =>
    obtain ⟨n, ran⟩ := (lookup b vars).mp listed
    exact absurd (List.mem_of_getElem? (flushesAt_eq_some made sized ran).1) other

/-- A plan flushes what came to a boundary and is neither live there nor exempt. -/
theorem varsAt_of_plan (made : Skeleton.ofRoutine a.routine = .ok a.skeleton) (sized : a.Sized live)
    (planned : a.plan live exempt calls = .ok plan) (b : Nat) :
    (plan.varsAt b).Pairwise (· < ·) ∧ ∀ v, v ∈ plan.varsAt b ↔ ∃ here n f, a.routine.recorded live b = some here ∧
      ¬ here.contains v = true ∧ ¬ exempt.contains v = true ∧ (nodesOf a.routine)[n]? = some b ∧ (n, f) ∈ calls ∧
      f.contains v = true := by
  by_cases node : b ∈ nodesOf a.routine
  · obtain ⟨n, place⟩ := List.mem_iff_getElem?.mp node
    obtain ⟨ascending, members⟩ := varsAt_of_place made sized planned place
    refine ⟨ascending, fun v => (members v).trans ⟨?_, ?_⟩⟩
    · rintro ⟨here, met, notLive, notExempt, f, called, held⟩
      exact ⟨here, n, f, met, notLive, notExempt, place, called, held⟩
    · rintro ⟨here, m, f, met, notLive, notExempt, place', called, held⟩
      cases place_injective place place'
      exact ⟨here, met, notLive, notExempt, f, called, held⟩
  · rw [varsAt_of_not_node made sized planned node]
    refine ⟨List.Pairwise.nil, fun v => iff_of_false List.not_mem_nil ?_⟩
    rintro ⟨_, n, _, _, _, _, place, _⟩
    exact node (List.mem_of_getElem? place)

/-- A plan for the live sets of a routine is read off some run. -/
theorem flushPlan_eq_ok {r : Routine} {config : Config} (planned : r.flushPlan config = .ok plan) :
    ∃ (a : Liveness) (live : LiveSets) (exempt : BitSet) (calls : List (Nat × BitSet)),
      a.routine = r ∧ Skeleton.ofRoutine r = .ok a.skeleton ∧ r.liveSets config = .ok live ∧
      a.plan live exempt calls = .ok plan := by
  obtain ⟨a, made, planned⟩ := bind_eq_ok.mp planned
  obtain ⟨same, built⟩ := ofRoutine_eq_ok made
  unfold flushPlan at planned
  split at planned
  · cases planned
  · rename_i live check analysed
    have analysed : r.liveSets config = .ok live := bind_eq_ok.mpr ⟨a, made, by rw [analysed]⟩
    unfold flushPlanFrom at planned
    split at planned
    · cases planned
    · rename_i exempt spared
      exact ⟨a, live, exempt, _, same, built, analysed, (answer_of_collect planned).2⟩

/-- A flushed variable is not live at the boundary where it is flushed. -/
theorem not_live_of_flushed {r : Routine} {config : Config} (planned : r.flushPlan config = .ok plan) {v : VarId}
    (flushed : v ∈ plan.varsAt b) :
    ∃ live here, r.liveSets config = .ok live ∧ live.at? b = some here ∧ ¬ here.contains v = true := by
  obtain ⟨a, live, exempt, calls, rfl, built, analysed, collected⟩ := flushPlan_eq_ok planned
  obtain ⟨_, _, _, entries⟩ := liveSets_arrives analysed
  have sized : a.Sized live := fun b here entry => ((entries b).2 here entry).1
  obtain ⟨here, _, _, met, notLive, _⟩ := ((varsAt_of_plan built sized collected b).2 v).mp flushed
  exact ⟨live, here, analysed, (recorded_eq_some.mp met).2, notLive⟩

end Liveness

/-- A variable flushed at `b` is never read again before it is overwritten, just if no
    read of it is trapped where no exit can be reached. -/
theorem flush_safe_iff {r : Routine} {config : Config} {plan : FlushPlan} (planned : r.flushPlan config = .ok plan)
    {b : Nat} {v : VarId} (flushed : v ∈ plan.varsAt b) : r.NeverReadAgain v b ↔ ¬ r.TrappedRead v b := by
  obtain ⟨live, here, analysed, entry, notLive⟩ := Liveness.not_live_of_flushed planned flushed
  exact neverReadAgain_iff fun read => notLive ((contains_at?_iff analysed entry).mpr read)

/-- From the boundary at 4 the routine either returns or goes into a loop that loads the
    variable again and again. -/
def endless : Result Routine := do
  let scope ← Scope.empty.declareAll [.local 0 Flags.none]
  Routine.build #[.pushConst, .store 0, .boundary, .load 0, .boundary, .branch 7 1, .return false,
    .load 0, .pop, .goto 7] [] scope

theorem endless_flush :
    ∃ r plan, endless = .ok r ∧ r.flushPlan Config.standard = .ok plan ∧ 0 ∈ plan.varsAt 4 ∧
      r.IsPath [4, 5, 7] ∧ r.ReadsAt 0 7 ∧ ¬ r.OverwritesAt 0 5 := by
  have computed : (do
      let r ← endless
      let plan ← r.flushPlan Config.standard
      return (plan.varsAt 4, r.flow.succ[4]?, r.flow.succ[5]?, r.code[5]?, r.code[7]?, r.scope.chain 0) : Result _) =
        .ok ([0], some [5], some [7, 6], some (.branch 7 1), some (.load 0), [0]) := by cbv
  obtain ⟨r, built, computed⟩ := bind_eq_ok.mp computed
  obtain ⟨plan, planned, computed⟩ := bind_eq_ok.mp computed
  simp only [pure, Except.pure, Except.ok.injEq, Prod.mk.injEq] at computed
  obtain ⟨flushed, after, branch, between, read, chain⟩ := computed
  refine ⟨r, plan, built, planned, by simp [flushed], ?_, .inl ⟨0, read, by simp [chain]⟩, ?_⟩
  · have first : r.flow.Edge 4 5 := Digraph.edge_iff.mpr ⟨_, after, by simp⟩
    have second : r.flow.Edge 5 7 := Digraph.edge_iff.mpr ⟨_, branch, by simp⟩
    exact List.isChain_cons_cons.mpr ⟨first, List.isChain_cons_cons.mpr ⟨second, List.isChain_singleton 7⟩⟩
  · rintro ⟨u, _, writes | writes⟩ <;> cases between.symm.trans writes

theorem flush_unsafe_endless :
    ∃ r plan, endless = .ok r ∧ r.flushPlan Config.standard = .ok plan ∧ 0 ∈ plan.varsAt 4 ∧ ¬ r.NeverReadAgain 0 4 := by
  obtain ⟨r, plan, built, planned, flushed, isPath, reads, intact⟩ := endless_flush
  refine ⟨r, plan, built, planned, flushed, fun safe => ?_⟩
  obtain ⟨j, member, overwrites⟩ := safe [5] 7 isPath reads
  exact intact (List.mem_singleton.mp member ▸ overwrites)

/-- The read in the loop is trapped. -/
theorem flush_safe_iff_endless :
    ∃ r plan, endless = .ok r ∧ r.flushPlan Config.standard = .ok plan ∧ 0 ∈ plan.varsAt 4 ∧ r.TrappedRead 0 4 := by
  obtain ⟨r, plan, built, planned, flushed, isPath, reads, intact⟩ := endless_flush
  refine ⟨r, plan, built, planned, flushed, Classical.byContradiction fun free => ?_⟩
  obtain ⟨j, member, overwrites⟩ := (flush_safe_iff planned flushed).mpr free [5] 7 isPath reads
  exact intact (List.mem_singleton.mp member ▸ overwrites)

end StackFlow
