import StackFlow.Proofs.FlushSound
import StackFlow.Proofs.SafeRuns
import StackFlow.Proofs.SkeletonExact

/-!
The analyses of variables do not go wrong. A routine that has been checked has a skeleton,
all sets that go over the skeleton have as many members as there are variables at most
(`Fits`), and on such sets no step fails (`before_total`, `carry_total`). Both passes are
of one form (`Carries`): what fits is sent on, and what is sent fits. So live sets and
flush plans are found unless the run gives up or is cancelled.
-/
namespace StackFlow

open Routine Skeleton Worklist

namespace Skeleton

variable {r : Routine} {s : Skeleton}

/-- In both directions the neighbours of a node are nodes. -/
theorem lt_size_of_near {F : Type} (made : ofRoutine r = .ok s) {p : Problem F} (graph : p.graph = s.flow) {n m : Nat}
    (near : m ∈ p.near n) : m < s.size := by
  obtain ⟨all, listed, member⟩ := mem_near.mp near
  unfold Problem.neighbours at listed
  rw [graph] at listed
  cases direction : p.direction with
  | forward =>
    rw [direction] at listed
    obtain ⟨_, j, _, place, _⟩ := (edge_iff_leads made).mp ⟨all, listed, member⟩
    exact lt_size_of_place made place
  | backward =>
    rw [direction] at listed
    obtain ⟨i, _, place, _⟩ := (mem_predecessors_iff_leads made).mp ⟨all, listed, member⟩
    exact lt_size_of_place made place

end Skeleton

namespace Liveness

/-- The routine has been checked, and the skeleton is its own. -/
structure Prepared (a : Liveness) : Prop where
  checked : a.routine.Checked
  made : Skeleton.ofRoutine a.routine = .ok a.skeleton

theorem ofRoutine_total {r : Routine} (checked : r.Checked) : ∃ a, ofRoutine r = .ok a ∧ a.routine = r ∧ a.Prepared := by
  obtain ⟨s, made⟩ := Skeleton.ofRoutine_total checked.toBuilt
  exact ⟨⟨r, s⟩, bind_eq_ok.mpr ⟨s, made, rfl⟩, rfl, checked, made⟩

variable {a : Liveness}

/-- A node with a set of variables of the routine. -/
structure Fits (a : Liveness) (item : Nat × BitSet) : Prop where
  node : item.1 < a.skeleton.size
  capacity : item.2.capacity = a.width

/-- A problem that sends sets of variables over the skeleton, and never fails to. -/
structure Carries (a : Liveness) (p : Problem BitSet) (seeds : List (Nat × BitSet)) : Prop where
  graph : p.graph = a.skeleton.flow
  seeded : ∀ item ∈ seeds, a.Fits item
  steps : ∀ item, a.Fits item → ∃ out, p.transfer item.1 item.2 = .ok (.continue out) ∧ out.capacity = a.width

namespace Carries

variable {p : Problem BitSet} {seeds : List (Nat × BitSet)}

theorem fits (carries : a.Carries p seeds) (prepared : a.Prepared) {item : Nat × BitSet} (reached : Reached p seeds item) :
    a.Fits item := by
  induction reached with
  | seed given => exact carries.seeded _ given
  | sent _ becomes target ih =>
    obtain ⟨out, becomes', capacity⟩ := carries.steps _ ih
    cases becomes.symm.trans becomes'
    obtain ⟨n, near, rfl⟩ := List.mem_map.mp target
    exact ⟨lt_size_of_near prepared.made carries.graph near, capacity⟩

theorem sane (carries : a.Carries p seeds) (prepared : a.Prepared) : Sane p seeds := by
  refine ⟨fun item reached => ?_, fun item reached => ?_⟩
  · rw [carries.graph, nodeCount_flow prepared.made]
    exact (carries.fits prepared reached).node
  · obtain ⟨out, becomes, _⟩ := carries.steps item (carries.fits prepared reached)
    exact ⟨_, becomes⟩

/-- An answer that can be read off all sets that fit is found, unless the run is stopped. -/
theorem collect_stops {α : Type} (carries : a.Carries p seeds) (prepared : a.Prepared)
    {answer : List (Nat × BitSet) → Result α}
    (total : ∀ calls, (∀ item ∈ calls, a.Fits item) → ∃ x, answer calls = .ok x) (check : Option Check) :
    FailsOnly (Stopped check) ((run p check seeds).collect answer).result := by
  have sane := carries.sane prepared
  refine collect_failsOnly (fun e => id) sane.inside (fun item reached => .of_total (sane.transferred item reached)) ?_
  intro calls exact _
  exact .of_total (total calls fun item called => carries.fits prepared ((exact item).mp called))

end Carries

theorem exitNodes_total (prepared : a.Prepared) : ∃ exits, a.exitNodes = .ok exits := by
  refine exists_filterM fun n member => ?_
  obtain ⟨_, instr, _, _, decoded⟩ := instr_total prepared.made (List.mem_range.mp member)
  exact ⟨instr.isExit, bind_eq_ok.mpr ⟨instr, decoded, rfl⟩⟩

/-- The variable that an instruction touches has a mask. A slot without one changes nothing. -/
theorem access_total {masks : Masks} (masked : a.Masked masks) {instr : Instr}
    (known : ∀ v, instr.touches = some v → v < a.width) {after : BitSet} (fits : after.capacity = a.width) :
    ∃ out, masks.before instr after = .ok out := by
  cases instr with
  | store v | discard v =>
    obtain ⟨mask, found, capacity, _⟩ := masked.kills.fetch (known v rfl)
    obtain ⟨out, run, _⟩ := withoutMask_of_eq (fits.trans capacity.symm)
    exact ⟨out, bind_eq_ok.mpr ⟨mask, found, run⟩⟩
  | load v =>
    obtain ⟨mask, found, capacity, _⟩ := masked.reads.fetch (known v rfl)
    obtain ⟨out, run, _⟩ := withMask_of_eq (fits.trans capacity.symm)
    exact ⟨out, bind_eq_ok.mpr ⟨mask, found, run⟩⟩
  | ret slot =>
    cases found : masks.slot[slot]? with
    | none => exact ⟨after, by simp [Masks.before, found, pure, Except.pure]⟩
    | some mask =>
      obtain ⟨capacity, _⟩ := masked.slots.entry slot mask found
      obtain ⟨out, run, _⟩ := withMask_of_eq (fits.trans capacity.symm)
      exact ⟨out, by simp [Masks.before, found, run]⟩
  | _ => exact ⟨after, rfl⟩

/-- What fits can be taken over every node. -/
theorem before_total (prepared : a.Prepared) {masks : Masks} (masked : a.Masked masks) {item : Nat × BitSet}
    (fits : a.Fits item) : ∃ out, a.before masks item.1 item.2 = .ok out ∧ out.capacity = a.width := by
  obtain ⟨i, instr, place, listed, decoded⟩ := instr_total prepared.made fits.node
  have known : ∀ v, instr.touches = some v → v < a.width := fun v => prepared.checked.known i instr v listed
  have total : ∃ out, a.before masks item.1 item.2 = .ok out := by
    obtain ⟨out, accessed⟩ := access_total masked known fits.capacity
    cases instr with
    | boundary =>
      have same : (BitSet.empty a.width).capacity = item.2.capacity := fits.capacity.symm
      exact ⟨item.2, bind_eq_ok.mpr ⟨_, decoded, bind_eq_ok.mpr ⟨_, BitSet.union_of_eq same, rfl⟩⟩⟩
    | _ => exact ⟨out, bind_eq_ok.mpr ⟨_, decoded, accessed⟩⟩
  obtain ⟨out, run⟩ := total
  exact ⟨out, run, (before_spec masked fits.node place fits.capacity run).capacity⟩

theorem backward_carries (prepared : a.Prepared) {masks : Masks} (masked : a.Masked masks) {exits : List Nat}
    (ends : a.exitNodes = .ok exits) (config : Config) : a.Carries (a.backward config masks) (a.exitSeeds exits) := by
  refine ⟨rfl, fun item given => ?_, fun item fits => ?_⟩
  · obtain ⟨n, listed, rfl⟩ := List.mem_map.mp given
    obtain ⟨i, place, _⟩ := (mem_exitNodes prepared.made ends).mp listed
    exact ⟨lt_size_of_place prepared.made place, BitSet.capacity_empty _⟩
  · obtain ⟨out, run, capacity⟩ := before_total prepared masked fits
    exact ⟨out, bind_eq_ok.mpr ⟨out, run, rfl⟩, capacity⟩

/-- Live sets are read off a backward run, whose masks and exits are found. -/
theorem liveSets_eq (prepared : a.Prepared) :
    ∃ masks exits, a.Masked masks ∧ a.exitNodes = .ok exits ∧ ∀ config check,
      a.liveSets config check = (run (a.backward config masks) check (a.exitSeeds exits)).collect a.collect := by
  obtain ⟨masks, made, masked⟩ := masks_found prepared.made
  obtain ⟨exits, ends⟩ := exitNodes_total prepared
  refine ⟨masks, exits, masked, ends, fun config check => ?_⟩
  unfold liveSets
  rw [made, ends]
  rfl

theorem capacity_factsAt {calls : List (Nat × BitSet)} (fit : ∀ item ∈ calls, a.Fits item) {n : Nat} {f : BitSet}
    (member : f ∈ factsAt calls n) : f.capacity = a.width := (fit (n, f) (mem_factsAt.mp member)).capacity

theorem entryAt_total (prepared : a.Prepared) {calls : List (Nat × BitSet)} (fit : ∀ item ∈ calls, a.Fits item) {n : Nat}
    (inside : n < a.skeleton.size) : ∃ entry, a.entryAt calls n = .ok entry := by
  obtain ⟨i, instr, place, _, decoded⟩ := instr_total prepared.made inside
  obtain ⟨set, joined, _⟩ := unionAll_spec fun f (member : f ∈ factsAt calls n) => capacity_factsAt fit member
  unfold entryAt
  simp only [decoded, place, bind, Except.bind]
  split
  · split
    · exact ⟨none, rfl⟩
    · exact ⟨some (i, set), by rw [joined]; rfl⟩
  · exact ⟨none, rfl⟩

theorem collect_total (prepared : a.Prepared) {calls : List (Nat × BitSet)} (fit : ∀ item ∈ calls, a.Fits item) :
    ∃ live, a.collect calls = .ok live := by
  obtain ⟨found, run⟩ := exists_mapM fun n (member : n ∈ List.range a.skeleton.size) =>
    entryAt_total prepared fit (List.mem_range.mp member)
  exact ⟨_, bind_eq_ok.mpr ⟨found, run, rfl⟩⟩

/-- Live sets are found, unless the analysis gives up or is cancelled. -/
theorem liveSets_stops (prepared : a.Prepared) (config : Config) (check : Option Check) :
    FailsOnly (Stopped check) (a.liveSets config check).result := by
  obtain ⟨masks, exits, masked, ends, analysis⟩ := liveSets_eq prepared
  rw [analysis]
  exact (backward_carries prepared masked ends config).collect_stops prepared (fun calls => collect_total prepared) check

theorem liveSets_sized (prepared : a.Prepared) {config : Config} {check : Option Check} {live : LiveSets}
    (analysed : (a.liveSets config check).result = .ok live) : a.Sized live := by
  obtain ⟨masks, exits, _, _, analysis⟩ := liveSets_eq prepared
  rw [analysis] at analysed
  have free : (a.liveSets config none).result = .ok live := by
    rw [analysis]
    exact collect_unchecked analysed
  have found : a.routine.liveSets config = .ok live :=
    bind_eq_ok.mpr ⟨a, bind_eq_ok.mpr ⟨a.skeleton, prepared.made, rfl⟩, free⟩
  obtain ⟨_, _, _, entries⟩ := liveSets_arrives found
  exact fun b here entry => ((entries b).2 here entry).1

theorem exempt_total (scope : Scope) : ∃ set, exempt scope = .ok set ∧ set.capacity = scope.size ∧
    ∀ v, set.contains v = true ↔ v < scope.size ∧ scope.isExempt v = true := by
  have listed : ∀ v, v ∈ (scope.vars.toList.map Variable.id).filter scope.isExempt ↔
      v < scope.size ∧ scope.isExempt v = true := by
    intro v
    rw [List.mem_filter, Scope.ids_eq, List.mem_range]
  obtain ⟨set, made, capacity, members⟩ := BitSet.ofIndices_of_lt fun v member => ((listed v).mp member).1
  exact ⟨set, made, capacity, fun v => (members v).trans (listed v)⟩

theorem dead_total {exempt live carried : BitSet} (same : carried.capacity = live.capacity)
    (same' : carried.capacity = exempt.capacity) : ∃ out, dead exempt live carried = .ok out := by
  have gone := BitSet.difference_of_eq same
  have rest := BitSet.difference_of_eq (s := carried.minus live same) same'
  exact ⟨_, bind_eq_ok.mpr ⟨_, gone, bind_eq_ok.mpr ⟨_, rest, rfl⟩⟩⟩

variable {live : LiveSets} {spared : BitSet}

/-- What fits is carried on, and what takes its place at a boundary fits as well. -/
theorem carry_total (prepared : a.Prepared) (sized : a.Sized live) (capacity : spared.capacity = a.width) {n i : Nat}
    (place : (nodesOf a.routine)[n]? = some i) {f : BitSet} (size : f.capacity = a.width) :
    a.carry live spared n f = .ok (.continue ((a.routine.recorded live i).getD f)) ∧
      ((a.routine.recorded live i).getD f).capacity = a.width := by
  unfold carry
  simp only [liveHere_of_place prepared.made place, bind, Except.bind]
  cases met : a.routine.recorded live i with
  | none => exact ⟨rfl, size⟩
  | some here =>
    have size' := sized.recorded met
    obtain ⟨out, died⟩ := dead_total (size.trans size'.symm) (size.trans capacity.symm)
    exact ⟨by simp only [died]; rfl, size'⟩

/-- The problem that takes live sets forwards over the skeleton. -/
def forward (a : Liveness) (config : Config) (live : LiveSets) (spared : BitSet) : Problem BitSet :=
  Problem.ofConfig a.skeleton.flow .forward config (a.carry live spared)

theorem forward_carries (prepared : a.Prepared) (sized : a.Sized live) (capacity : spared.capacity = a.width)
    (config : Config) : a.Carries (a.forward config live spared) [(0, BitSet.empty a.width)] := by
  refine ⟨rfl, fun item given => ?_, fun item fits => ?_⟩
  · rw [List.mem_singleton.mp given]
    exact ⟨lt_size_of_place prepared.made (place_zero prepared.checked.nonempty), BitSet.capacity_empty _⟩
  · obtain ⟨i, place⟩ := place_of_lt prepared.made fits.node
    exact ⟨_, carry_total prepared sized capacity place fits.capacity⟩

/-- What dies at a boundary can be told for all that comes there. -/
theorem deads_total {here : BitSet} (size : here.capacity = a.width) (capacity : spared.capacity = a.width)
    {calls : List (Nat × BitSet)} (fit : ∀ item ∈ calls, a.Fits item) (n : Nat) :
    ∃ deads, (factsAt calls n).mapM (dead spared here) = .ok deads ∧ ∀ t ∈ deads, t.capacity = a.width := by
  obtain ⟨deads, taken⟩ := exists_mapM fun f (member : f ∈ factsAt calls n) =>
    dead_total ((capacity_factsAt fit member).trans size.symm) ((capacity_factsAt fit member).trans capacity.symm)
  exact ⟨deads, taken, fun t => capacity_deads size taken⟩

theorem flushesAt_total (prepared : a.Prepared) (sized : a.Sized live) (capacity : spared.capacity = a.width)
    {calls : List (Nat × BitSet)} (fit : ∀ item ∈ calls, a.Fits item) {n : Nat} (inside : n < a.skeleton.size) :
    ∃ flushes, a.flushesAt live spared calls n = .ok flushes := by
  obtain ⟨i, place⟩ := place_of_lt prepared.made inside
  unfold flushesAt
  simp only [liveHere_of_place prepared.made place, bind, Except.bind]
  cases met : a.routine.recorded live i with
  | none => exact ⟨none, rfl⟩
  | some here =>
    obtain ⟨deads, taken, capacities⟩ := deads_total (sized.recorded met) capacity fit n
    obtain ⟨flushed, united, _⟩ := unionAll_spec capacities
    simp only [taken, united, (instruction_eq_ok prepared.made).mpr place]
    split
    · exact ⟨none, rfl⟩
    · exact ⟨_, rfl⟩

theorem plan_total (prepared : a.Prepared) (sized : a.Sized live) (capacity : spared.capacity = a.width)
    {calls : List (Nat × BitSet)} (fit : ∀ item ∈ calls, a.Fits item) : ∃ plan, a.plan live spared calls = .ok plan := by
  obtain ⟨found, run⟩ := exists_mapM fun n (member : n ∈ List.range a.skeleton.size) =>
    flushesAt_total prepared sized capacity fit (List.mem_range.mp member)
  exact ⟨_, bind_eq_ok.mpr ⟨found, run, rfl⟩⟩

/-- A plan is read off a forward run, which spares the exempt variables. -/
theorem flushPlanFrom_eq (a : Liveness) : ∃ spared, spared.capacity = a.width ∧
    (∀ v, spared.contains v = true ↔ v < a.width ∧ a.routine.scope.isExempt v = true) ∧ ∀ config check live,
      a.flushPlanFrom config check live =
        (run (a.forward config live spared) check [(0, BitSet.empty a.width)]).collect (a.plan live spared) := by
  obtain ⟨spared, made, capacity, members⟩ := exempt_total a.routine.scope
  refine ⟨spared, capacity, members, fun config check live => ?_⟩
  unfold flushPlanFrom
  rw [made]
  rfl

theorem flushPlanFrom_stops (prepared : a.Prepared) (sized : a.Sized live) (config : Config) (check : Option Check) :
    FailsOnly (Stopped check) (a.flushPlanFrom config check live).result := by
  obtain ⟨spared, capacity, _, plans⟩ := flushPlanFrom_eq a
  rw [plans]
  exact (forward_carries prepared sized capacity config).collect_stops prepared
    (fun calls => plan_total prepared sized capacity) check

/-- Without a check, none is left over for the second pass. -/
theorem check_of_liveSets (prepared : a.Prepared) (config : Config) : (a.liveSets config none).check = none := by
  obtain ⟨masks, exits, _, _, analysis⟩ := liveSets_eq prepared
  have free := check_of_run (a.backward config masks) (a.exitSeeds exits)
  rw [analysis]
  unfold Outcome.collect
  split <;> exact free

/-- Flush plans are found, unless the analysis gives up or is cancelled. -/
theorem flushPlan_stops (prepared : a.Prepared) (config : Config) (check : Option Check) :
    FailsOnly (Stopped check) (a.flushPlan config check).result := by
  have first := liveSets_stops prepared config check
  have free := check_of_liveSets prepared config
  unfold flushPlan
  cases analysed : a.liveSets config check with
  | mk result left =>
    rw [analysed] at first
    cases result with
    | error e =>
      rintro e' ⟨⟩
      exact first e rfl
    | ok live =>
      have sized : a.Sized live := liveSets_sized prepared (by rw [analysed])
      have kept : left ≠ none → check ≠ none := by
        rintro more rfl
        rw [analysed] at free
        exact more free
      exact fun e failed => (flushPlanFrom_stops prepared sized config left e failed).mono kept

end Liveness

end StackFlow
