import Mathlib
import StackFlow.Origins
import StackFlow.Proofs.CheckedRuns
import StackFlow.Proofs.RoutineEdges
import StackFlow.Proofs.WorklistExact

/-!
The trace from returned values back to what makes them, step by step. A location before
an instruction gets its value from the instructions that lead there (`Brings`), an item
that only moves its value sends the trace on to these (`mem_sends`), and the trace starts
where a value is returned (`mem_seeds`). So an instruction is marked just if the trace
arrives at it with a value that it makes (`marked_iff`), that is, if a path of moves leads
from the value to a return (`origins_exact`).
-/
namespace StackFlow.Origins

open Worklist

variable {r : Routine} {frames : Array (Option (Frame Value))}

/-- The value in `place` before the instruction at `j` may be the one there after the
    instruction at `i`: an exception leaves nothing of the stack. -/
def Brings (r : Routine) (i j : Nat) (place : Location) : Prop :=
  r.flow.Edge i j ∧ (r.isHandlerEntry j = true → place.isStack = true → r.Passes i .normal j)

/-- The instruction moves the value from one location to the other. -/
def Moves (r : Routine) (frames : Array (Option (Frame Value))) (i : Nat) (before after : Location) : Prop :=
  ∃ instr frame, r.code[i]? = some instr ∧ frames[i]? = some (some frame) ∧
    frame.source r.scope instr after = .ok (some before)

def Makes (r : Routine) (frames : Array (Option (Frame Value))) (i : Nat) (after : Location) : Prop :=
  ∃ instr frame, r.code[i]? = some instr ∧ frames[i]? = some (some frame) ∧ frame.source r.scope instr after = .ok none

/-- The instruction returns the value in the location. -/
def Returns (r : Routine) (frames : Array (Option (Frame Value))) (i : Nat) (place : Location) : Prop :=
  r.code[i]? = some (.return true) ∧ ∃ frame, frames[i]? = some (some frame) ∧ frame.top = some place

theorem mem_valueSources (built : r.Built) {i j : Nat} {place : Location} {sources : List Nat}
    (found : valueSources r j place = .ok sources) : i ∈ sources ↔ Brings r i j place := by
  unfold valueSources at found
  unfold Brings
  split at found
  · rename_i special
    obtain ⟨stack, entry⟩ := Bool.and_eq_true_iff.mp special
    rw [built.mem_normalPredecessors found]
    constructor
    · intro pass
      exact ⟨built.edge_iff.mpr ⟨.normal, pass⟩, fun _ _ => pass⟩
    · rintro ⟨_, normal⟩
      exact normal entry stack
  · rename_i plain
    rw [built.mem_predecessors found]
    constructor
    · intro edge
      refine ⟨edge, fun entry stack => ?_⟩
      simp [entry, stack] at plain
    · exact And.left

/-- The provenance of a value is the source of its cell in the frame. -/
theorem provenance_eq_ok {i : Nat} {after : Location} (source : Option Location) :
    provenance r frames i after = .ok (source.elim .made .moved) ↔ ∃ instr frame, r.code[i]? = some instr ∧
      frames[i]? = some (some frame) ∧ frame.source r.scope instr after = .ok source := by
  unfold provenance
  rw [bind_eq_ok]
  constructor
  · rintro ⟨framed, found, traced⟩
    cases framed with
    | none => cases source <;> cases traced
    | some frame =>
      obtain ⟨instr, listed, traced⟩ := bind_eq_ok.mp traced
      obtain ⟨origin, moved, traced⟩ := bind_eq_ok.mp traced
      have same : origin = source := by
        cases origin <;> cases source <;> cases traced <;> rfl
      exact ⟨instr, frame, fetch_eq_ok.mp listed, fetch_eq_ok.mp found, same ▸ moved⟩
  · rintro ⟨instr, frame, listed, found, moved⟩
    refine ⟨some frame, fetch_eq_ok.mpr found, bind_eq_ok.mpr ⟨instr, fetch_eq_ok.mpr listed, ?_⟩⟩
    refine bind_eq_ok.mpr ⟨source, moved, ?_⟩
    cases source <;> rfl

theorem provenance_eq_made {i : Nat} {after : Location} :
    provenance r frames i after = .ok .made ↔ Makes r frames i after := provenance_eq_ok none

theorem provenance_eq_moved {i : Nat} {before after : Location} :
    provenance r frames i after = .ok (.moved before) ↔ Moves r frames i before after := provenance_eq_ok (some before)

/-- The problem that the trace solves. -/
def problem (r : Routine) (config : Config) (frames : Array (Option (Frame Value))) : Problem Location :=
  .ofConfig r.flow .backward config (transfer r frames)

variable {config : Config}

theorem mem_near_problem (built : r.Built) {i j : Nat} : i ∈ (problem r config frames).near j ↔ r.flow.Edge i j := by
  rw [mem_near, ← Digraph.mem_predecessors_iff built.flow]
  rfl

/-- A step of the trace goes back over a move, to wherever the value may come from. -/
theorem mem_sends (built : r.Built) {j : Nat} {after : Location} {flow : Flow Location}
    (becomes : transfer r frames j after = .ok flow) {i : Nat} {before : Location} :
    (i, before) ∈ flow.sends ((problem r config frames).near j) ↔ Moves r frames j before after ∧ Brings r i j before := by
  rw [← provenance_eq_moved]
  obtain ⟨origin, traced, becomes⟩ := bind_eq_ok.mp becomes
  rw [traced]
  cases origin with
  | unreached | made =>
    cases becomes
    simp [Flow.sends]
  | moved place =>
    simp only [Except.ok.injEq, Provenance.moved.injEq]
    simp only at becomes
    split at becomes
    · obtain ⟨sources, found, becomes⟩ := bind_eq_ok.mp becomes
      rw [and_congr_right fun same : place = before => (same ▸ mem_valueSources built found).symm]
      cases sources with
      | nil =>
        cases becomes
        simp [Flow.sends]
      | cons source rest =>
        cases becomes
        simp only [Flow.sends, List.mem_map, Prod.mk.injEq]
        grind
    · rename_i plain
      have brings : place = before → (i ∈ (problem r config frames).near j ↔ Brings r i j before) := by
        rintro rfl
        rw [mem_near_problem built]
        refine ⟨fun edge => ⟨edge, fun entry stack => ?_⟩, And.left⟩
        simp [entry, stack] at plain
      rw [← and_congr_right brings]
      obtain ⟨instr, _, becomes⟩ := bind_eq_ok.mp becomes
      split at becomes
      all_goals
        cases becomes
        simp only [Flow.sends, List.mem_map, Prod.mk.injEq]
        grind

theorem mem_seedsAt (built : r.Built) {i j : Nat} {instr : Instr} {place : Location} {items : List (Nat × Location)}
    (listed : r.code[j]? = some instr) (found : seedsAt r frames j instr = .ok items) :
    (i, place) ∈ items ↔ Returns r frames j place ∧ Brings r i j place := by
  unfold Returns
  rw [listed]
  unfold seedsAt at found
  split at found
  · obtain ⟨framed, there, found⟩ := bind_eq_ok.mp found
    rw [fetch_eq_ok.mp there]
    cases framed with
    | none =>
      cases found
      simp
    | some frame =>
      simp only at found
      cases top : frame.top with
      | none =>
        rw [top] at found
        cases found
      | some cell =>
        rw [top] at found
        obtain ⟨sources, listed, found⟩ := bind_eq_ok.mp found
        cases found
        have brings : cell = place → (i ∈ sources ↔ Brings r i j place) := fun same => same ▸ mem_valueSources built listed
        simp only [List.mem_map, Prod.mk.injEq]
        grind
  · rename_i other
    cases found
    simpa using fun same => absurd same other

theorem mem_seeds (built : r.Built) {items : List (Nat × Location)} (found : seeds r frames = .ok items) {i : Nat}
    {place : Location} : (i, place) ∈ items ↔ ∃ j, Returns r frames j place ∧ Brings r i j place := by
  obtain ⟨lists, each, found⟩ := bind_eq_ok.mp found
  cases found
  rw [List.mem_flatten]
  constructor
  · rintro ⟨items, member, mine⟩
    obtain ⟨⟨instr, j⟩, listed, found⟩ := (mem_of_mapM each).mp member
    rw [List.mk_mem_zipIdx_iff_getElem?, Array.getElem?_toList] at listed
    exact ⟨j, (mem_seedsAt built listed found).mp mine⟩
  · rintro ⟨j, returns, brings⟩
    have listed := returns.1
    have place : r.code.toList.zipIdx[j]? = some (.return true, j) := by
      rw [List.getElem?_zipIdx, Array.getElem?_toList, listed]
      simp
    obtain ⟨items, member, found⟩ := entry_of_mapM each place
    exact ⟨items, List.mem_of_getElem? member, (mem_seedsAt built listed found).mpr ⟨returns, brings⟩⟩

/-- An item of which the instruction is to be marked. -/
def Marking (r : Routine) (frames : Array (Option (Frame Value))) (hidden : ProducerSet) (i : Nat) (after : Location) : Prop :=
  Makes r frames i after ∧ ∃ instr, r.code[i]? = some instr ∧ hidden.hides r.scope instr = false

theorem mark_eq_ok {hidden : ProducerSet} {marks out : Array Bool} {item : Nat × Location}
    (run : mark r frames hidden marks item = .ok out) :
    out.size = marks.size ∧
      ∀ i, out[i]? = some true ↔ marks[i]? = some true ∨ item.1 = i ∧ Marking r frames hidden item.1 item.2 := by
  unfold Marking
  rw [← provenance_eq_made]
  obtain ⟨origin, traced, run⟩ := bind_eq_ok.mp run
  rw [traced]
  cases origin with
  | unreached | moved _ =>
    cases run
    simp
  | made =>
    obtain ⟨instr, listed, run⟩ := bind_eq_ok.mp run
    rw [fetch_eq_ok.mp listed]
    split at run
    · rename_i hides
      cases run
      simp [hides]
    · rename_i shown
      obtain ⟨inside, rfl⟩ := replace_eq_ok run
      refine ⟨Array.size_set inside, fun i => ?_⟩
      rw [Array.getElem?_set]
      by_cases here : item.1 = i
      · simp [here, shown]
      · simp [here]

theorem foldlM_mark {hidden : ProducerSet} {marks out : Array Bool} {items : List (Nat × Location)}
    (run : items.foldlM (mark r frames hidden) marks = .ok out) :
    out.size = marks.size ∧
      ∀ i, out[i]? = some true ↔ marks[i]? = some true ∨ ∃ after, (i, after) ∈ items ∧ Marking r frames hidden i after := by
  induction items generalizing marks with
  | nil =>
    cases run
    simp
  | cons item rest ih =>
    rw [List.foldlM_cons] at run
    obtain ⟨next, first, others⟩ := bind_eq_ok.mp run
    obtain ⟨size, marked⟩ := mark_eq_ok first
    obtain ⟨size', marked'⟩ := ih others
    refine ⟨size'.trans size, fun i => ?_⟩
    rw [marked', marked]
    obtain ⟨node, place⟩ := item
    simp only [List.mem_cons, Prod.mk.injEq]
    grind

/-- Where the trace arrives: the value in the location after the instruction may be
    returned. -/
inductive Traced (r : Routine) (frames : Array (Option (Frame Value))) : Nat → Location → Prop
  | returned {i j : Nat} {place : Location} (returns : Returns r frames j place) (brings : Brings r i j place) :
      Traced r frames i place
  | moved {i j : Nat} {before after : Location} (later : Traced r frames j after) (moves : Moves r frames j before after)
      (brings : Brings r i j before) : Traced r frames i before

theorem reached_iff_traced (built : r.Built) {items : List (Nat × Location)} (found : seeds r frames = .ok items)
    (total : ∀ item, Reached (problem r config frames) items item → ∃ flow, transfer r frames item.1 item.2 = .ok flow)
    {i : Nat} {place : Location} : Reached (problem r config frames) items (i, place) ↔ Traced r frames i place := by
  constructor
  · intro reached
    generalize here : (i, place) = item at reached
    induction reached generalizing i place with
    | seed given =>
      subst here
      obtain ⟨j, returns, brings⟩ := (mem_seeds built found).mp given
      exact .returned returns brings
    | sent _ becomes target ih =>
      subst here
      obtain ⟨moves, brings⟩ := (mem_sends built becomes).mp target
      exact .moved (ih rfl) moves brings
  · intro traced
    induction traced with
    | returned returns brings => exact .seed ((mem_seeds built found).mpr ⟨_, returns, brings⟩)
    | moved _ moves brings ih =>
      obtain ⟨flow, becomes⟩ := total _ ih
      exact .sent ih becomes ((mem_sends built becomes).mpr ⟨moves, brings⟩)

/-- What a marked instruction makes may be returned, and is not hidden. -/
theorem marked_iff (built : r.Built) {check : Option Check} {marks : Array Bool}
    (answered : (resultOrigins r config check frames).result = .ok marks) :
    marks.size = r.size ∧
      ∀ i, marks[i]? = some true ↔ ∃ after, Traced r frames i after ∧ Marking r frames config.hidden i after := by
  unfold resultOrigins at answered
  split at answered
  · split at answered
    · cases answered
    · rename_i items found
      obtain ⟨calls, folded, exact, total⟩ := collect_eq_ok (collect_unchecked answered)
      obtain ⟨size, marked⟩ := foldlM_mark folded
      refine ⟨size.trans Array.size_replicate, fun i => ?_⟩
      rw [marked, or_iff_right (Skeleton.unmarked r.size i)]
      refine exists_congr fun after => and_congr_left fun _ => ?_
      exact (exact (i, after)).trans (reached_iff_traced built found total)
  · cases answered

theorem mark_total (hidden : ProducerSet) {marks : Array Bool} {i : Nat} {after : Location} {flow : Flow Location}
    (becomes : transfer r frames i after = .ok flow) (inside : i < marks.size) :
    ∃ out, mark r frames hidden marks (i, after) = .ok out := by
  obtain ⟨origin, traced, _⟩ := bind_eq_ok.mp becomes
  unfold mark
  simp only [traced, bind, Except.bind]
  cases origin with
  | unreached | moved _ => exact ⟨marks, rfl⟩
  | made =>
    obtain ⟨instr, _, listed, _⟩ := provenance_eq_made.mp traced
    have decoded : r.instr i = .ok instr := fetch_eq_ok.mpr listed
    simp only [decoded]
    split
    · exact ⟨marks, rfl⟩
    · exact ⟨_, replace_of_lt inside true⟩

theorem foldlM_mark_total {hidden : ProducerSet} {marks : Array Bool} {items : List (Nat × Location)}
    (each : ∀ item ∈ items, item.1 < marks.size ∧ ∃ flow, transfer r frames item.1 item.2 = .ok flow) :
    ∃ out, items.foldlM (mark r frames hidden) marks = .ok out := by
  induction items generalizing marks with
  | nil => exact ⟨marks, rfl⟩
  | cons item rest ih =>
    obtain ⟨inside, flow, becomes⟩ := each item List.mem_cons_self
    obtain ⟨next, first⟩ := mark_total hidden becomes inside
    have later : ∀ other ∈ rest, other.1 < next.size ∧ ∃ flow, transfer r frames other.1 other.2 = .ok flow :=
      fun other member => (mark_eq_ok first).1 ▸ each other (List.mem_cons_of_mem _ member)
    obtain ⟨out, others⟩ := ih later
    exact ⟨out, by rw [List.foldlM_cons]; exact bind_eq_ok.mpr ⟨next, first, others⟩⟩

theorem exists_marks (built : r.Built) (sized : frames.size = r.size) {items : List (Nat × Location)}
    (found : seeds r frames = .ok items) (feasible : Feasible (problem r config frames) items) :
    ∃ marks, (resultOrigins r config none frames).result = .ok marks := by
  obtain ⟨calls, answered, reached⟩ := collect_of_feasible feasible fun calls =>
    calls.foldlM (mark r frames config.hidden) (Array.replicate r.size false)
  have each : ∀ item ∈ calls, item.1 < (Array.replicate r.size false).size ∧
      ∃ flow, transfer r frames item.1 item.2 = .ok flow := by
    intro item member
    have arrived := reached item member
    refine ⟨?_, feasible.transferred item arrived⟩
    rw [Array.size_replicate, ← built.nodeCount_flow]
    exact feasible.inside item arrived
  obtain ⟨marks, marked⟩ := foldlM_mark_total each
  refine ⟨marks, ?_⟩
  unfold resultOrigins
  rw [if_pos sized, found]
  exact answered.trans marked

theorem mem_of_traced (built : r.Built) {items trail : List (Nat × Location)} (found : seeds r frames = .ok items)
    (certified : certifies (problem r config frames) items trail = true) {i : Nat} {after : Location}
    (traced : Traced r frames i after) : (i, after) ∈ trail := by
  have total := (feasible_of_certifies certified).transferred
  exact mem_of_certifies certified ((reached_iff_traced built found total).mpr traced)

/-- A path of `k` edges on which a value that is in `place 1` after the first instruction
    is moved to `place k` and returned from there. Where the path enters a handler with the
    value on the stack, it does so without an exception. -/
structure CopyPath (r : Routine) (frames : Array (Option (Frame Value))) (k : Nat) (path : Nat → Nat)
    (place : Nat → Location) : Prop where
  nonempty : 1 ≤ k
  edges : ∀ j < k, r.flow.Edge (path j) (path (j + 1))
  moves : ∀ j, 1 ≤ j → j < k → Moves r frames (path j) (place j) (place (j + 1))
  entries : ∀ j < k, r.isHandlerEntry (path (j + 1)) = true → (place (j + 1)).isStack = true →
    r.Passes (path j) .normal (path (j + 1))
  returns : Returns r frames (path k) (place k)

namespace CopyPath

variable {k : Nat} {path : Nat → Nat} {place : Nat → Location}

theorem brings (copied : CopyPath r frames k path place) {j : Nat} (inside : j < k) :
    Brings r (path j) (path (j + 1)) (place (j + 1)) := ⟨copied.edges j inside, copied.entries j inside⟩

theorem single {i j : Nat} {here : Location} (returns : Returns r frames j here) (brings : Brings r i j here) :
    CopyPath r frames 1 (fun n => if n = 0 then i else j) fun _ => here := by
  refine ⟨Nat.le_refl 1, ?_, ?_, ?_, returns⟩
  · intro n inside
    simpa [Nat.lt_one_iff.mp inside] using brings.1
  · intro n _ _
    omega
  · intro n inside
    simpa [Nat.lt_one_iff.mp inside] using brings.2

/-- One more edge at the beginning of a path. -/
theorem extend (copied : CopyPath r frames k path place) {i : Nat} {before : Location}
    (moves : Moves r frames (path 0) before (place 1)) (brings : Brings r i (path 0) before) :
    CopyPath r frames (k + 1) (fun n => if n = 0 then i else path (n - 1))
      fun n => if n ≤ 1 then before else place (n - 1) := by
  have nonempty := copied.nonempty
  refine ⟨Nat.le_add_left 1 k, ?_, ?_, ?_, ?_⟩
  · intro n inside
    cases n with
    | zero => exact brings.1
    | succ n => exact copied.edges n (by omega)
  · intro n positive inside
    obtain ⟨m, rfl⟩ := Nat.exists_eq_add_of_le' positive
    cases m with
    | zero => exact moves
    | succ m => exact copied.moves (m + 1) (by omega) (by omega)
  · intro n inside
    cases n with
    | zero => exact brings.2
    | succ n => exact copied.entries n (by omega)
  · obtain ⟨m, rfl⟩ := Nat.exists_eq_add_of_le' nonempty
    exact copied.returns

/-- The trace goes along a path from its end to its beginning. -/
theorem traced (copied : CopyPath r frames k path place) {j : Nat} (inside : j < k) :
    Traced r frames (path j) (place (j + 1)) := by
  obtain ⟨left, rest⟩ : ∃ left, j + 1 + left = k := Nat.le.dest inside
  induction left generalizing j with
  | zero =>
    have last : j + 1 = k := rest
    exact .returned (last ▸ copied.returns) (copied.brings inside)
  | succ left ih =>
    have later : j + 1 < k := by omega
    exact .moved (ih later (by omega)) (copied.moves (j + 1) (by omega) later) (copied.brings inside)

end CopyPath

theorem traced_iff_copyPath {i : Nat} {after : Location} :
    Traced r frames i after ↔ ∃ k path place, path 0 = i ∧ place 1 = after ∧ CopyPath r frames k path place := by
  constructor
  · intro traced
    induction traced with
    | returned returns brings => exact ⟨1, _, _, rfl, rfl, .single returns brings⟩
    | moved _ moves brings ih =>
      obtain ⟨k, path, place, rfl, rfl, copied⟩ := ih
      exact ⟨k + 1, _, _, rfl, rfl, copied.extend moves brings⟩
  · rintro ⟨k, path, place, rfl, rfl, copied⟩
    exact copied.traced copied.nonempty

/-- The marked instructions are those that are not hidden and make a value which a path of
    moves takes to a return. -/
theorem origins_exact {code : Array Instr} {ranges : List Range} {scope : Scope} {check : Option Check}
    {marks : Array Bool} (built : Routine.build code ranges scope = .ok r)
    (answered : (resultOrigins r config check frames).result = .ok marks) :
    marks.size = r.size ∧ ∀ i, marks[i]? = some true ↔
      (∃ instr, r.code[i]? = some instr ∧ config.hidden.hides r.scope instr = false) ∧
      ∃ k path place, path 0 = i ∧ Makes r frames i (place 1) ∧ CopyPath r frames k path place := by
  obtain ⟨size, marked⟩ := marked_iff (Routine.built_of_build built) answered
  refine ⟨size, fun i => (marked i).trans ?_⟩
  constructor
  · rintro ⟨after, traced, makes, shown⟩
    obtain ⟨k, path, place, start, rfl, copied⟩ := traced_iff_copyPath.mp traced
    exact ⟨shown, k, path, place, start, makes, copied⟩
  · rintro ⟨shown, k, path, place, start, makes, copied⟩
    exact ⟨place 1, traced_iff_copyPath.mpr ⟨k, path, place, start, rfl, copied⟩, makes, shown⟩

/-- The new object goes through the local and is returned at 3. This is also the entry of
    the handler of what comes before, but the exception is made by no instruction. -/
def sharedEntry : Result Routine := do
  let scope ← Scope.empty.declareAll [.local 0 Flags.none]
  Routine.build #[.new, .store 0, .load 0, .return true] [⟨0, 2, 3⟩] scope

theorem origins_exact_sharedEntry :
    ∃ r frames marks, sharedEntry = .ok r ∧ r.frames 1 = .ok frames ∧
      (resultOrigins r Config.standard none frames).result = .ok marks ∧ marks[0]? = some true ∧ marks[2]? ≠ some true := by
  have computed : (do
      let r ← sharedEntry
      let frames ← r.frames 1
      let items ← seeds r frames
      let first ← transfer r frames 2 (.stack 0)
      let second ← transfer r frames 1 (.local 0)
      let makes ← provenance r frames 0 (.stack 0)
      let moves ← provenance r frames 2 (.stack 0)
      let p := problem r Config.standard frames
      return (r.code[0]?, frames.size == r.size, items, first.sends (p.near 2), second.sends (p.near 1), makes, moves,
        certifies p items [(2, .stack 0), (1, .local 0), (0, .stack 0)]) : Result _) =
      .ok (some .new, true, [(2, .stack 0)], [(1, .local 0)], [(0, .stack 0)], .made, .moved (.local 0), true) := by cbv
  obtain ⟨r, made, computed⟩ := bind_eq_ok.mp computed
  obtain ⟨frames, framed, computed⟩ := bind_eq_ok.mp computed
  obtain ⟨items, found, computed⟩ := bind_eq_ok.mp computed
  obtain ⟨first, becomes, computed⟩ := bind_eq_ok.mp computed
  obtain ⟨second, becomes', computed⟩ := bind_eq_ok.mp computed
  obtain ⟨makes, here, computed⟩ := bind_eq_ok.mp computed
  obtain ⟨moves, there, computed⟩ := bind_eq_ok.mp computed
  simp only [pure, Except.pure, Except.ok.injEq, Prod.mk.injEq, beq_iff_eq] at computed
  obtain ⟨listed, sized, rfl, sent, sent', rfl, rfl, certified⟩ := computed
  obtain ⟨scope, _, built⟩ := bind_eq_ok.mp made
  have checked := Routine.built_of_build built
  have feasible := feasible_of_certifies certified
  obtain ⟨marks, answered⟩ := exists_marks checked sized found feasible
  obtain ⟨_, marked⟩ := origins_exact built answered
  refine ⟨r, frames, marks, made, framed, answered, (marked 0).mpr ⟨⟨.new, listed, rfl⟩, ?_⟩, fun mark => ?_⟩
  · have loaded : Reached (problem r Config.standard frames) [(2, .stack 0)] (1, .local 0) :=
      .sent (.seed List.mem_cons_self) becomes (by rw [sent]; exact List.mem_cons_self)
    have stored : Reached (problem r Config.standard frames) [(2, .stack 0)] (0, .stack 0) :=
      .sent loaded becomes' (by rw [sent']; exact List.mem_cons_self)
    obtain ⟨k, path, place, start, top, copied⟩ :=
      traced_iff_copyPath.mp ((reached_iff_traced checked found feasible.transferred).mp stored)
    exact ⟨k, path, place, start, top ▸ provenance_eq_made.mp here, copied⟩
  · obtain ⟨_, k, path, place, start, makes, copied⟩ := (marked 2).mp mark
    have member := mem_of_traced checked found certified (start ▸ copied.traced copied.nonempty)
    have top : place 1 = .stack 0 := by simpa using member
    rw [top, ← provenance_eq_made, there] at makes
    cases makes

end StackFlow.Origins
