import Mathlib
import StackFlow.Liveness.Flush
import StackFlow.Proofs.LivePaths
import StackFlow.Proofs.Masks
import StackFlow.Proofs.Propagation

/-!
The live sets of a routine are its liveness along paths. The masks make the transfer
function do what `Before` says, so the items of a backward run are the sets that arrive
at the nodes; a boundary has an entry if any set arrives there, and the entry unites
them (`at?_of_solved`). What the paths say about these sets then gives the main result,
`liveSets_exact`.
-/
namespace StackFlow

open Routine Skeleton Worklist

namespace Liveness

variable {a : Liveness}

theorem ofRoutine_eq_ok {r : Routine} (made : ofRoutine r = .ok a) :
    a.routine = r ∧ Skeleton.ofRoutine r = .ok a.skeleton := by
  obtain ⟨s, built, same⟩ := bind_eq_ok.mp made
  cases same
  exact ⟨rfl, built⟩

theorem instr_eq_ok {n : Nat} {instr : Instr} :
    a.instr n = .ok instr ↔ ∃ i, a.skeleton.instruction n = .ok i ∧ a.routine.code[i]? = some instr := by
  unfold Liveness.instr Routine.instr
  simp only [bind_eq_ok, fetch_eq_ok]

/-- A node is an instruction of the routine. -/
theorem instr_total (built : Skeleton.ofRoutine a.routine = .ok a.skeleton) {n : Nat} (inside : n < a.skeleton.size) :
    ∃ i instr, a.skeleton.instruction n = .ok i ∧ a.routine.code[i]? = some instr ∧ a.instr n = .ok instr := by
  obtain ⟨i, place⟩ := place_of_lt built inside
  obtain ⟨instr, listed, _⟩ := mem_nodesOf.mp (List.mem_of_getElem? place)
  have found := (instruction_eq_ok built).mpr place
  exact ⟨i, instr, found, listed, instr_eq_ok.mpr ⟨i, found, listed⟩⟩

theorem masks_found (built : Skeleton.ofRoutine a.routine = .ok a.skeleton) :
    ∃ masks, a.masks = .ok masks ∧ a.Masked masks := by
  refine masks_total fun n inside => ?_
  obtain ⟨_, instr, _, _, decoded⟩ := instr_total built inside
  exact ⟨instr, decoded⟩

variable {i : Nat} {after out : BitSet}

/-- Writing `u` takes its kill mask away. -/
theorem before_of_write {kill : Array BitSet} {u : VarId}
    (kills : Represents a.width kill fun u v => v < a.width ∧ u ∈ a.routine.scope.chain v)
    (capacity : after.capacity = a.width) (unread : ∀ v, ¬ a.routine.ReadsAt v i)
    (overwrites : ∀ v, a.routine.OverwritesAt v i ↔ u ∈ a.routine.scope.chain v)
    (run : (do withoutMask after (← fetch kill u) : Result BitSet) = .ok out) : Before a.routine i after out := by
  obtain ⟨mask, found, run⟩ := bind_eq_ok.mp run
  obtain ⟨width, masked⟩ := kills.entry u mask (fetch_eq_ok.mp found)
  obtain ⟨out', run', size, members⟩ := withoutMask_of_eq (capacity.trans width.symm)
  cases run.symm.trans run'
  refine ⟨size.trans capacity, fun v => ?_⟩
  rw [members, masked, overwrites]
  constructor
  · rintro ⟨old, kept⟩
    have inside : v < a.width := capacity ▸ BitSet.lt_of_contains old
    exact .inr ⟨old, fun above => kept ⟨inside, above⟩⟩
  · rintro (reads | ⟨old, kept⟩)
    · exact absurd reads (unread v)
    · exact ⟨old, fun killed => kept killed.2⟩

/-- Reading adds a mask. -/
theorem before_of_read {mask : BitSet} (capacity : after.capacity = a.width) (width : mask.capacity = a.width)
    (intact : ∀ v, ¬ a.routine.OverwritesAt v i) (masked : ∀ v, mask.contains v = true ↔ a.routine.ReadsAt v i)
    (run : withMask after mask = .ok out) : Before a.routine i after out := by
  obtain ⟨out', run', size, members⟩ := withMask_of_eq (capacity.trans width.symm)
  cases run.symm.trans run'
  refine ⟨size.trans capacity, fun v => ?_⟩
  rw [members, masked, or_comm]
  exact or_congr_right ⟨fun old => ⟨old, intact v⟩, fun old => old.1⟩

/-- An instruction that neither reads nor overwrites leaves the set as it is. -/
theorem before_of_idle (capacity : after.capacity = a.width) (unread : ∀ v, ¬ a.routine.ReadsAt v i)
    (intact : ∀ v, ¬ a.routine.OverwritesAt v i) : Before a.routine i after after := by
  refine ⟨capacity, fun v => ⟨fun old => .inr ⟨old, intact v⟩, ?_⟩⟩
  rintro (reads | ⟨old, _⟩)
  · exact absurd reads (unread v)
  · exact old

/-- The masks do what the instruction says. -/
theorem access_spec {masks : Masks} (masked : a.Masked masks) {instr : Instr} (listed : a.routine.code[i]? = some instr)
    (noted : ∀ slot, instr = .ret slot → masks.slot.contains slot = true) (capacity : after.capacity = a.width)
    (run : masks.before instr after = .ok out) : Before a.routine i after out := by
  cases instr with
  | store u | discard u =>
    exact before_of_write masked.kills capacity (by simp [ReadsAt, listed]) (by simp [OverwritesAt, listed]) run
  | load w =>
    obtain ⟨mask, found, run⟩ := bind_eq_ok.mp run
    obtain ⟨width, members⟩ := masked.reads.entry w mask (fetch_eq_ok.mp found)
    refine before_of_read capacity width (by simp [OverwritesAt, listed]) (fun v => ?_) run
    rw [members]
    simp [ReadsAt, listed]
  | ret slot =>
    have present := Std.HashMap.isSome_getElem?_eq_contains.trans (noted slot rfl)
    obtain ⟨mask, found⟩ := Option.isSome_iff_exists.mp present
    obtain ⟨width, members⟩ := masked.slots.entry slot mask found
    simp only [Masks.before, found] at run
    refine before_of_read capacity width (by simp [OverwritesAt, listed]) (fun v => ?_) run
    rw [members]
    simp [ReadsAt, listed]
  | _ =>
    cases run
    exact before_of_idle capacity (by simp [ReadsAt, listed]) (by simp [OverwritesAt, listed])

/-- The transfer function does what the instruction at the node says. -/
theorem before_spec {masks : Masks} (masked : a.Masked masks) {n : Nat} (inside : n < a.skeleton.size)
    (place : a.skeleton.instruction n = .ok i) (capacity : after.capacity = a.width)
    (run : a.before masks n after = .ok out) : Before a.routine i after out := by
  obtain ⟨instr, decoded, run⟩ := bind_eq_ok.mp run
  obtain ⟨i', place', listed⟩ := instr_eq_ok.mp decoded
  cases place.symm.trans place'
  have noted : ∀ slot, instr = .ret slot → masks.slot.contains slot = true := by
    rintro slot rfl
    exact masked.slots.present n (List.mem_range.mpr inside) slot decoded
  cases instr with
  | boundary =>
    obtain ⟨_, _, run⟩ := bind_eq_ok.mp run
    cases run
    exact before_of_idle capacity (by simp [ReadsAt, listed]) (by simp [OverwritesAt, listed])
  | _ => exact access_spec masked listed noted capacity run

/-- The problem that takes sets of variables backwards over the skeleton. -/
def backward (a : Liveness) (config : Config) (masks : Masks) : Problem BitSet :=
  Problem.ofConfig a.skeleton.flow .backward config
    fun node after => do return .continue (← a.before masks node after)

/-- Nothing is live after an exit. -/
def exitSeeds (a : Liveness) (exits : List Nat) : List (Nat × BitSet) := exits.map (·, BitSet.empty a.width)

theorem liveSets_eq_ok {config : Config} {live : LiveSets} (analysed : (a.liveSets config none).result = .ok live) :
    ∃ masks exits, a.masks = .ok masks ∧ a.exitNodes = .ok exits ∧
      ((run (a.backward config masks) none (a.exitSeeds exits)).collect a.collect).result = .ok live := by
  unfold liveSets at analysed
  split at analysed
  · cases analysed
  · rename_i masks exits prepared
    obtain ⟨masks', made, prepared⟩ := bind_eq_ok.mp prepared
    obtain ⟨exits', ends, prepared⟩ := bind_eq_ok.mp prepared
    cases prepared
    exact ⟨masks, exits, made, ends, analysed⟩

theorem mem_exitNodes (built : Skeleton.ofRoutine a.routine = .ok a.skeleton) {exits : List Nat}
    (found : a.exitNodes = .ok exits) {n : Nat} :
    n ∈ exits ↔ ∃ i, (nodesOf a.routine)[n]? = some i ∧ a.routine.ExitsAt i := by
  rw [mem_of_filterM found, bind_eq_ok]
  simp only [instr_eq_ok, instruction_eq_ok built, exitsAt_iff, pure, Except.pure, Except.ok.injEq]
  constructor
  · rintro ⟨_, instr, ⟨i, place, listed⟩, isExit⟩
    exact ⟨i, place, instr, listed, isExit⟩
  · rintro ⟨i, place, instr, listed, isExit⟩
    exact ⟨List.mem_range.mpr (lt_size_of_place built place), instr, ⟨i, place, listed⟩, isExit⟩

theorem mem_factsAt {calls : List (Nat × BitSet)} {n : Nat} {f : BitSet} : f ∈ factsAt calls n ↔ (n, f) ∈ calls := by
  unfold factsAt
  rw [List.mem_filterMap]
  constructor
  · rintro ⟨⟨m, g⟩, member, kept⟩
    by_cases here : m = n
    · simp only [here, beq_self_eq_true, if_true, Option.some.injEq] at kept
      exact kept ▸ here ▸ member
    · simp [here] at kept
  · intro member
    exact ⟨(n, f), member, by simp⟩

/-- A backward run with the right masks and exits, of which no transfer fails. -/
structure Solved (a : Liveness) (p : Problem BitSet) (exits : List Nat) : Prop where
  built : Skeleton.ofRoutine a.routine = .ok a.skeleton
  ends : ∀ n, n ∈ exits ↔ ∃ i, (nodesOf a.routine)[n]? = some i ∧ a.routine.ExitsAt i
  near : ∀ n m, n ∈ p.near m ↔
    ∃ i j, (nodesOf a.routine)[n]? = some i ∧ (nodesOf a.routine)[m]? = some j ∧ Leads a.routine i j
  steps : ∀ (m j : Nat) (after : BitSet) (flow : Flow BitSet), (nodesOf a.routine)[m]? = some j →
    after.capacity = a.width → p.transfer m after = .ok flow → ∃ out, flow = .continue out ∧ Before a.routine j after out
  transferred : ∀ item, Reached p (a.exitSeeds exits) item → ∃ flow, p.transfer item.1 item.2 = .ok flow

namespace Solved

variable {p : Problem BitSet} {exits : List Nat}

theorem of_run (built : Skeleton.ofRoutine a.routine = .ok a.skeleton) {config : Config} {masks : Masks}
    (made : a.masks = .ok masks) (found : a.exitNodes = .ok exits)
    (transferred : ∀ item, Reached (a.backward config masks) (a.exitSeeds exits) item →
      ∃ flow, (a.backward config masks).transfer item.1 item.2 = .ok flow) :
    a.Solved (a.backward config masks) exits := by
  obtain ⟨masks', made', masked⟩ := masks_found built
  cases made.symm.trans made'
  refine ⟨built, fun n => mem_exitNodes built found, fun n m => ?_, fun m j after flow place capacity becomes => ?_,
    transferred⟩
  · exact mem_near.trans (mem_predecessors_iff_leads built)
  · obtain ⟨out, run, same⟩ := bind_eq_ok.mp becomes
    cases same
    have inside := lt_size_of_place built place
    exact ⟨out, rfl, before_spec masked inside ((instruction_eq_ok built).mpr place) capacity run⟩

/-- An item of the run is a set that arrives at its node. -/
theorem arrives (solved : a.Solved p exits) {item : Nat × BitSet} (reached : Reached p (a.exitSeeds exits) item) :
    ∃ i, (nodesOf a.routine)[item.1]? = some i ∧ Arrives a.routine i item.2 := by
  induction reached with
  | seed given =>
    obtain ⟨n, listed, rfl⟩ := List.mem_map.mp given
    obtain ⟨i, place, ends⟩ := (solved.ends n).mp listed
    exact ⟨i, place, .exit ends⟩
  | @sent item next flow source becomes target ih =>
    obtain ⟨j, place, later⟩ := ih
    obtain ⟨out, rfl, step⟩ := solved.steps _ j _ flow place later.capacity becomes
    obtain ⟨n, listed, rfl⟩ := List.mem_map.mp target
    obtain ⟨i, j', place', there, way⟩ := (solved.near n _).mp listed
    cases place.symm.trans there
    exact ⟨i, place', .back later step (List.mem_of_getElem? place') way⟩

/-- A set that arrives at a node is an item of the run. -/
theorem reached (solved : a.Solved p exits) {i : Nat} {f : BitSet} (arrives : Arrives a.routine i f) {n : Nat}
    (place : (nodesOf a.routine)[n]? = some i) : Reached p (a.exitSeeds exits) (n, f) := by
  induction arrives generalizing n with
  | exit ends => exact .seed (List.mem_map.mpr ⟨n, (solved.ends n).mpr ⟨_, place, ends⟩, rfl⟩)
  | @back i j after out later step node way ih =>
    obtain ⟨m, there⟩ := List.mem_iff_getElem?.mp later.mem_nodesOf
    obtain ⟨flow, becomes⟩ := solved.transferred _ (ih there)
    obtain ⟨out', rfl, step'⟩ := solved.steps m j after flow there later.capacity becomes
    -- There is but one set before the instruction, so the run sends the one that arrives.
    cases step.unique step'
    have near := (solved.near n m).mpr ⟨i, j, place, there, way⟩
    exact .sent (ih there) becomes (List.mem_map.mpr ⟨n, near, rfl⟩)

/-- What arrives at an instruction can be taken over it. -/
theorem supplied (solved : a.Solved p exits) {j : Nat} {after : BitSet} (later : Arrives a.routine j after) :
    ∃ out, Before a.routine j after out := by
  obtain ⟨m, there⟩ := List.mem_iff_getElem?.mp later.mem_nodesOf
  obtain ⟨flow, becomes⟩ := solved.transferred _ (solved.reached later there)
  obtain ⟨out, _, step⟩ := solved.steps m j after flow there later.capacity becomes
  exact ⟨out, step⟩

/-- The facts that the run brought to a node are the sets that arrive there. -/
theorem facts_iff (solved : a.Solved p exits) {calls : List (Nat × BitSet)}
    (exact : ∀ item, item ∈ calls ↔ Reached p (a.exitSeeds exits) item) {n i : Nat}
    (place : (nodesOf a.routine)[n]? = some i) (f : BitSet) : f ∈ factsAt calls n ↔ Arrives a.routine i f := by
  rw [mem_factsAt, exact]
  constructor
  · intro reached
    obtain ⟨i', place', arrives⟩ := solved.arrives reached
    cases place.symm.trans place'
    exact arrives
  · intro arrives
    exact solved.reached arrives place

end Solved

theorem unionAll_spec {width : Nat} {sets : List BitSet} (capacities : ∀ t ∈ sets, t.capacity = width) :
    ∃ out, unionAll width sets = .ok out ∧ out.capacity = width ∧
      ∀ v, out.contains v = true ↔ ∃ t ∈ sets, t.contains v = true := by
  obtain ⟨out, run, capacity, members⟩ := BitSet.foldlM_union (s := BitSet.empty width) capacities
  refine ⟨out, run, capacity, fun v => (members v).trans ?_⟩
  simp

section Nodes

variable {β : Type} {entry : Nat → Result (Option (Nat × β))} {found : List (Option (Nat × β))} {b : Nat} {x : β}

/-- A list with an entry for some of the nodes, under their instructions. -/
theorem mem_of_nodes (built : Skeleton.ofRoutine a.routine = .ok a.skeleton)
    (keyed : ∀ n b x, entry n = .ok (some (b, x)) → (nodesOf a.routine)[n]? = some b)
    (run : (List.range a.skeleton.size).mapM entry = .ok found) :
    (b, x) ∈ found.filterMap id ↔ ∃ n, entry n = .ok (some (b, x)) := by
  simp only [List.mem_filterMap, id_eq, exists_eq_right, mem_of_mapM run]
  constructor
  · rintro ⟨n, _, made⟩
    exact ⟨n, made⟩
  · rintro ⟨n, made⟩
    exact ⟨n, List.mem_range.mpr (lt_size_of_place built (keyed n b x made)), made⟩

/-- Such a list is searched by instruction. -/
theorem lookup_of_nodes (built : Skeleton.ofRoutine a.routine = .ok a.skeleton)
    (keyed : ∀ n b x, entry n = .ok (some (b, x)) → (nodesOf a.routine)[n]? = some b)
    (run : (List.range a.skeleton.size).mapM entry = .ok found) :
    (found.filterMap id).lookup b = some x ↔ ∃ n, entry n = .ok (some (b, x)) := by
  refine (lookup_eq_some_of_unique fun x y one other => ?_).trans (mem_of_nodes built keyed run)
  obtain ⟨n, made⟩ := (mem_of_nodes built keyed run).mp one
  obtain ⟨m, made'⟩ := (mem_of_nodes built keyed run).mp other
  have same : n = m := place_injective (keyed n b x made) (keyed m b y made')
  subst same
  cases made.symm.trans made'
  rfl

/-- Its entries are in ascending order. -/
theorem keys_of_nodes (keyed : ∀ n b x, entry n = .ok (some (b, x)) → (nodesOf a.routine)[n]? = some b)
    (run : (List.range a.skeleton.size).mapM entry = .ok found) : (found.filterMap id).Pairwise fun x y => x.1 < y.1 := by
  have placed : ∀ n (inside : n < found.length) x, found[n] = some x → (nodesOf a.routine)[n]? = some x.1 := by
    intro n inside x listed
    obtain ⟨n', at_n, made⟩ := (getElem?_of_mapM run).mp ((List.getElem?_eq_getElem inside).trans (congrArg some listed))
    obtain ⟨_, rfl⟩ := List.getElem?_eq_some_iff.mp at_n
    rw [List.getElem_range] at made
    exact keyed n x.1 x.2 made
  refine List.pairwise_filterMap.mpr (List.pairwise_iff_getElem.mpr fun n m inside inside' less x left y right => ?_)
  obtain ⟨_, here⟩ := List.getElem?_eq_some_iff.mp (placed n inside x left)
  obtain ⟨_, there⟩ := List.getElem?_eq_some_iff.mp (placed m inside' y right)
  rw [← here, ← there]
  exact List.pairwise_iff_getElem.mp (nodesOf_ascending a.routine) n m _ _ less

end Nodes

theorem entryAt_eq_some (built : Skeleton.ofRoutine a.routine = .ok a.skeleton) {calls : List (Nat × BitSet)}
    {n b : Nat} {set : BitSet} :
    a.entryAt calls n = .ok (some (b, set)) ↔ (nodesOf a.routine)[n]? = some b ∧
      a.routine.code[b]? = some .boundary ∧ factsAt calls n ≠ [] ∧ unionAll a.width (factsAt calls n) = .ok set := by
  unfold entryAt
  constructor
  · intro run
    obtain ⟨instr, decoded, run⟩ := bind_eq_ok.mp run
    obtain ⟨i, place, listed⟩ := instr_eq_ok.mp decoded
    split at run
    · rename_i boundary
      split at run
      · cases run
      · rename_i some
        obtain ⟨i', place', run⟩ := bind_eq_ok.mp run
        obtain ⟨united, joined, run⟩ := bind_eq_ok.mp run
        cases place.symm.trans place'
        cases run
        refine ⟨(instruction_eq_ok built).mp place, ?_, some, joined⟩
        rw [listed, Instr.isBoundary_iff.mp boundary]
    · cases run
  · rintro ⟨place, listed, some, joined⟩
    have place' := (instruction_eq_ok built).mpr place
    refine bind_eq_ok.mpr ⟨.boundary, instr_eq_ok.mpr ⟨b, place', listed⟩, ?_⟩
    rw [if_pos (show Instr.boundary.isBoundary = true from rfl)]
    split
    · contradiction
    · exact bind_eq_ok.mpr ⟨b, place', bind_eq_ok.mpr ⟨set, joined, rfl⟩⟩

/-- What a boundary has in the live sets that are read off a run. -/
theorem at?_of_solved {p : Problem BitSet} {exits : List Nat} {calls : List (Nat × BitSet)} {live : LiveSets}
    (solved : a.Solved p exits) (exact : ∀ item, item ∈ calls ↔ Reached p (a.exitSeeds exits) item)
    (collected : a.collect calls = .ok live) (b : Nat) :
    ((live.at? b).isSome = true ↔ a.routine.code[b]? = some .boundary ∧ ∃ f, Arrives a.routine b f) ∧
    ∀ set, live.at? b = some set → set.capacity = a.width ∧
      ∀ v, set.contains v = true ↔ ∃ f, Arrives a.routine b f ∧ f.contains v = true := by
  obtain ⟨found, run, same⟩ := bind_eq_ok.mp collected
  cases same
  have entry : ∀ set, (found.filterMap id).lookup b = some set ↔ ∃ n, a.entryAt calls n = .ok (some (b, set)) :=
    fun set => lookup_of_nodes solved.built (fun n b x made => ((entryAt_eq_some solved.built).mp made).1) run
  have facts : ∀ n, (nodesOf a.routine)[n]? = some b → ∀ f, f ∈ factsAt calls n ↔ Arrives a.routine b f :=
    fun n place => solved.facts_iff exact place
  refine ⟨⟨?_, ?_⟩, ?_⟩
  · intro present
    obtain ⟨set, at_b⟩ := Option.isSome_iff_exists.mp present
    obtain ⟨n, made⟩ := (entry set).mp at_b
    obtain ⟨place, boundary, some, _⟩ := (entryAt_eq_some solved.built).mp made
    obtain ⟨f, member⟩ := List.exists_mem_of_ne_nil _ some
    exact ⟨boundary, f, (facts n place f).mp member⟩
  · rintro ⟨boundary, f, arrives⟩
    obtain ⟨n, place⟩ := List.mem_iff_getElem?.mp arrives.mem_nodesOf
    obtain ⟨set, joined, _⟩ := unionAll_spec fun g member => ((facts n place g).mp member).capacity
    have some : factsAt calls n ≠ [] := List.ne_nil_of_mem ((facts n place f).mpr arrives)
    have at_b := (entry set).mpr ⟨n, (entryAt_eq_some solved.built).mpr ⟨place, boundary, some, joined⟩⟩
    exact Option.isSome_iff_exists.mpr ⟨set, at_b⟩
  · intro set at_b
    obtain ⟨n, made⟩ := (entry set).mp at_b
    obtain ⟨place, _, _, joined⟩ := (entryAt_eq_some solved.built).mp made
    obtain ⟨set', joined', capacity, members⟩ := unionAll_spec fun g member => ((facts n place g).mp member).capacity
    cases joined.symm.trans joined'
    refine ⟨capacity, fun v => (members v).trans ?_⟩
    simp only [facts n place]

end Liveness

variable {r : Routine} {config : Config} {live : LiveSets}

/-- The live sets of a routine unite what arrives at its boundaries. -/
theorem liveSets_arrives (analysed : r.liveSets config = .ok live) :
    ∃ s, Skeleton.ofRoutine r = .ok s ∧ (∀ j after, Arrives r j after → ∃ out, Before r j after out) ∧
    ∀ b, ((live.at? b).isSome = true ↔ r.code[b]? = some .boundary ∧ ∃ f, Arrives r b f) ∧
      ∀ set, live.at? b = some set → set.capacity = r.scope.size ∧
        ∀ v, set.contains v = true ↔ ∃ f, Arrives r b f ∧ f.contains v = true := by
  obtain ⟨a, made, ran⟩ := bind_eq_ok.mp analysed
  obtain ⟨rfl, built⟩ := Liveness.ofRoutine_eq_ok made
  obtain ⟨masks, exits, prepared, found, answered⟩ := Liveness.liveSets_eq_ok ran
  obtain ⟨calls, collected, exact, transferred⟩ := collect_eq_ok answered
  have solved := Liveness.Solved.of_run built prepared found transferred
  exact ⟨a.skeleton, built, fun j after => solved.supplied, Liveness.at?_of_solved solved exact collected⟩

theorem isSome_at?_iff (analysed : r.liveSets config = .ok live) {b : Nat} :
    (live.at? b).isSome = true ↔ r.code[b]? = some .boundary ∧ r.ReachesExit b := by
  obtain ⟨s, built, supplied, entries⟩ := liveSets_arrives analysed
  rw [(entries b).1]
  refine and_congr_right fun boundary => ⟨?_, ?_⟩
  · rintro ⟨f, arrives⟩
    exact arrives.leaves
  · rintro ⟨path, leaves⟩
    obtain ⟨f, arrives, _⟩ := (arrives_of_leaves built supplied leaves).1 (mem_nodesOf_of_boundary boundary)
    exact ⟨f, arrives⟩

theorem contains_at?_iff (analysed : r.liveSets config = .ok live) {b : Nat} {set : BitSet}
    (entry : live.at? b = some set) {v : VarId} :
    set.contains v = true ↔ ∃ path, r.Leaves b path ∧ r.ReadsFirst v path := by
  obtain ⟨s, built, supplied, entries⟩ := liveSets_arrives analysed
  rw [((entries b).2 set entry).2 v]
  constructor
  · rintro ⟨f, arrives, member⟩
    exact arrives.readsFirst member
  · rintro ⟨path, leaves, reads⟩
    obtain ⟨_, f, arrives⟩ := (entries b).1.mp (Option.isSome_iff_exists.mpr ⟨set, entry⟩)
    obtain ⟨g, arrives, holds⟩ := (arrives_of_leaves built supplied leaves).1 arrives.mem_nodesOf
    exact ⟨g, arrives, holds v reads⟩

/-- The live sets have an entry for just those boundaries from which an exit can be
    reached, and a variable is in the entry of `b` if some path from `b` to an exit reads
    it, behind `b`, before overwriting it. -/
theorem liveSets_exact (analysed : r.liveSets config = .ok live) (b : Nat) :
    ((live.at? b).isSome = true ↔ r.code[b]? = some .boundary ∧ r.ReachesExit b) ∧
    ∀ set, live.at? b = some set → ∀ v, set.contains v = true ↔ ∃ path, r.Leaves b path ∧ r.ReadsFirst v path :=
  ⟨isSome_at?_iff analysed, fun _ entry _ => contains_at?_iff analysed entry⟩

/-- A subroutine at 5 keeps its return address in a variable, behind the call a field is
    loaded, and the branch at 1 may also end up in a loop. -/
def subroutine : Result Routine := do
  let scope ← Scope.empty.declareAll [.local 0 Flags.none, .field 0 "f", .local 1 Flags.none]
  Routine.build #[.boundary, .branch 8 1, .jsr 5, .load 1, .return false, .store 2, .boundary, .ret 1,
    .boundary, .load 2, .goto 8] [] scope

theorem liveSets_exact_subroutine :
    ∃ r live, subroutine = .ok r ∧ r.liveSets Config.standard = .ok live ∧ ¬ r.ReachesExit 8 ∧
      (∃ path, r.Leaves 0 path ∧ r.ReadsFirst 1 path) ∧ (¬ ∃ path, r.Leaves 0 path ∧ r.ReadsFirst 2 path) ∧
      ∃ path, r.Leaves 6 path ∧ r.ReadsFirst 2 path := by
  have computed : (do
      let r ← subroutine
      let live ← r.liveSets Config.standard
      return (r.code[8]?, (live.at? 8).isSome, (live.at? 0).map BitSet.toList, (live.at? 6).map BitSet.toList) :
        Result _) = .ok (some .boundary, false, some [0, 1], some [0, 1, 2]) := by cbv
  obtain ⟨r, built, computed⟩ := bind_eq_ok.mp computed
  obtain ⟨live, analysed, computed⟩ := bind_eq_ok.mp computed
  simp only [pure, Except.pure, Except.ok.injEq, Prod.mk.injEq] at computed
  obtain ⟨boundary, absent, first, inner⟩ := computed
  obtain ⟨set, entry, members⟩ := Option.map_eq_some_iff.mp first
  obtain ⟨set', entry', members'⟩ := Option.map_eq_some_iff.mp inner
  refine ⟨r, live, built, analysed, fun reaches => ?_, ?_, fun reads => ?_, ?_⟩
  · have present := (liveSets_exact analysed 8).1.mpr ⟨boundary, reaches⟩
    rw [absent] at present
    cases present
  · refine ((liveSets_exact analysed 0).2 set entry 1).mp (BitSet.mem_toList.mp ?_)
    simp [members]
  · have member := BitSet.mem_toList.mpr (((liveSets_exact analysed 0).2 set entry 2).mpr reads)
    simp [members] at member
  · -- The return at 7 reads its address, which variable 2 holds.
    refine ((liveSets_exact analysed 6).2 set' entry' 2).mp (BitSet.mem_toList.mp ?_)
    simp [members']

end StackFlow
