import StackFlow.Proofs.Predecessors
import StackFlow.Proofs.SkeletonNumbering

/-!
The edges of a skeleton are the ways between two nodes that meet no third one. The
search from a node follows plain instructions, and when it ends, whatever comes after an
instruction it has seen has been seen as well or is a node it has found (`Covered`). All
searches use the same marks. What a search marks it also lists (`Tracks`), so the marks
are all taken back at its end (`clear_of_tracks`), and each search starts as if it were
the first (`successorRows_eq`). So one node follows another exactly if the routine leads
from the one to the other (`edge_iff_leads`), and the predecessors are listed accordingly.
-/
namespace StackFlow.Skeleton

variable {r : Routine}

/-- A way from one instruction to another, of at least one edge, on which everything in
    between is plain. -/
inductive Leads (r : Routine) (i : Nat) : Nat → Prop
  | edge {j : Nat} (pass : r.flow.Edge i j) : Leads r i j
  | through {j k : Nat} (way : Leads r i j) (plain : Plain r j) (pass : r.flow.Edge j k) : Leads r i k

theorem unmarked (count i : Nat) : (Array.replicate count false)[i]? ≠ some true := by
  intro mark
  rw [Array.getElem?_replicate] at mark
  split at mark <;> cases mark

namespace Scratch

/-- The marks are on `count` instructions, and just on those that are listed as touched. -/
structure Tracks (s : Scratch) (count : Nat) : Prop where
  size : s.seen.size = count
  marked : ∀ i : Nat, s.seen[i]? = some true ↔ i ∈ s.touched

theorem tracks_fresh (count : Nat) : (fresh count).Tracks count :=
  ⟨Array.size_replicate, fun i => iff_of_false (unmarked count i) (Array.not_mem_empty i)⟩

variable {s : Scratch} {count : Nat}

theorem getElem?_mark {i : Nat} (inside : i < s.seen.size) (j : Nat) :
    (s.mark i inside).seen[j]? = some true ↔ j = i ∨ s.seen[j]? = some true := by
  rw [mark, Array.getElem?_set]
  by_cases here : i = j
  · simp [here]
  · simp [here, Ne.symm here]

theorem Tracks.mark (tracks : s.Tracks count) {i : Nat} (inside : i < s.seen.size) : (s.mark i inside).Tracks count := by
  refine ⟨(Array.size_set inside).trans tracks.size, fun j => ?_⟩
  rw [getElem?_mark, tracks.marked, Scratch.mark, Array.mem_push, or_comm]

/-- Taking back the marks on a list of instructions. -/
theorem foldlM_unmark {touched : List Nat} {seen : Array Bool} (inside : ∀ i ∈ touched, i < seen.size) :
    ∃ out, touched.foldlM (fun seen i => replace seen i false) seen = .ok out ∧ out.size = seen.size ∧
      ∀ j : Nat, out[j]? = some true ↔ seen[j]? = some true ∧ j ∉ touched := by
  induction touched generalizing seen with
  | nil => exact ⟨seen, rfl, rfl, by simp⟩
  | cons i rest ih =>
    obtain ⟨bound, bounds⟩ := List.forall_mem_cons.mp inside
    have sized : (seen.set i false).size = seen.size := Array.size_set bound
    have inside : ∀ j ∈ rest, j < (seen.set i false).size := fun j later => sized.symm ▸ bounds j later
    obtain ⟨out, run, size, marks⟩ := ih inside
    refine ⟨out, bind_eq_ok.mpr ⟨_, replace_of_lt bound false, run⟩, size.trans sized, fun j => ?_⟩
    rw [marks, Array.getElem?_set, List.mem_cons, not_or, ← and_assoc]
    refine and_congr_left fun _ => ?_
    by_cases here : i = j
    · simp [here]
    · simp [here, Ne.symm here]

/-- Marks that are tracked can all be taken back. -/
theorem clear_of_tracks (tracks : s.Tracks count) : s.clear = .ok (fresh count) := by
  have inside : ∀ i ∈ s.touched.toList, i < s.seen.size := by
    intro i touched
    obtain ⟨bound, _⟩ := Array.getElem?_eq_some_iff.mp ((tracks.marked i).mpr (Array.mem_toList_iff.mp touched))
    exact bound
  obtain ⟨out, run, size, marks⟩ := foldlM_unmark inside
  have free : out = Array.replicate count false := by
    refine Array.ext (by rw [size, tracks.size, Array.size_replicate]) fun i bound _ => ?_
    have unmarked : ¬ out[i]? = some true := by
      rw [marks, tracks.marked, Array.mem_toList_iff]
      exact fun both => both.2 both.1
    rw [Array.getElem?_eq_getElem bound, Option.some.injEq, Bool.not_eq_true] at unmarked
    rw [unmarked, Array.getElem_replicate]
  exact bind_eq_ok.mpr ⟨out, run, by rw [free]; rfl⟩

end Scratch

variable {index : Array (Option Nat)}

theorem mem_noted {found : List Nat} {node n : Nat} :
    (n ∈ if _ : found.contains node = true then found else found ++ [node]) ↔ n ∈ found ∨ n = node := by
  by_cases known : node ∈ found
  · rw [dif_pos (List.contains_iff_mem.mpr known)]
    exact ⟨.inl, fun either => either.elim id fun same => same ▸ known⟩
  · rw [dif_neg (mt List.contains_iff_mem.mp known), List.mem_append, List.mem_singleton]

/-- The search finds nothing but nodes that the routine leads to. -/
theorem search_sound (numbers : Numbers r index) {origin : Nat} {stack : List Nat} {scratch left : Scratch}
    {found out : List Nat} (run : search r index stack scratch found = .ok (out, left))
    (ways : ∀ j ∈ stack, Leads r origin j) :
    ∀ n ∈ out, n ∈ found ∨ ∃ j, Leads r origin j ∧ (nodesOf r)[n]? = some j := by
  fun_induction search r index stack scratch found with
  | case1 scratch found =>
    cases run
    exact fun n member => .inl member
  | case3 scratch found current rest node entry ih =>
    intro n member
    rcases ih run (fun j later => ways j (by simp [later])) n member with noted | led
    · rcases mem_noted.mp noted with known | rfl
      · exact .inl known
      · exact .inr ⟨current, ways current (by simp), (numbers.place _ _).mp (fetch_eq_ok.mp entry)⟩
    · exact .inr led
  | case5 scratch found current rest entry inside fresh next listed ih =>
    refine ih run fun j member => ?_
    rcases List.mem_append.mp member with new | later
    · exact .through (ways current (by simp)) (numbers.plain.mp (fetch_eq_ok.mp entry)) ⟨next, listed, new⟩
    · exact ways j (by simp [later])
  | case6 scratch found current rest entry inside old ih => exact ih run fun j later => ways j (by simp [later])
  | case2 | case4 | case7 => cases run

/-- The marks that a search leaves are tracked. -/
theorem search_tracks {count : Nat} {stack : List Nat} {scratch left : Scratch} {found out : List Nat}
    (run : search r index stack scratch found = .ok (out, left)) (tracks : scratch.Tracks count) : left.Tracks count := by
  fun_induction search r index stack scratch found with
  | case1 scratch found =>
    cases run
    exact tracks
  | case3 scratch found current rest node entry ih => exact ih run tracks
  | case5 scratch found current rest entry inside fresh next listed ih => exact ih run (tracks.mark inside)
  | case6 scratch found current rest entry inside old ih => exact ih run tracks
  | case2 | case4 | case7 => cases run

/-- An instruction that the search has on its stack, has seen, or has found as a node. -/
def Covered (r : Routine) (stack : List Nat) (scratch : Scratch) (found : List Nat) (j : Nat) : Prop :=
  j ∈ stack ∨ scratch.seen[j]? = some true ∨ ∃ n ∈ found, (nodesOf r)[n]? = some j

/-- Only plain instructions are seen, and what comes after them is covered. -/
structure Closed (r : Routine) (stack : List Nat) (scratch : Scratch) (found : List Nat) : Prop where
  plain : ∀ i : Nat, scratch.seen[i]? = some true → Plain r i
  after : ∀ i : Nat, scratch.seen[i]? = some true → ∀ j, r.flow.Edge i j → Covered r stack scratch found j

theorem Closed.mono {stack stack' : List Nat} {scratch : Scratch} {found found' : List Nat}
    (closed : Closed r stack scratch found)
    (more : ∀ j, Covered r stack scratch found j → Covered r stack' scratch found' j) : Closed r stack' scratch found' :=
  ⟨closed.plain, fun i mark j pass => more j (closed.after i mark j pass)⟩

/-- A node on the stack is covered once it is noted. -/
theorem covered_noted {current node : Nat} {rest found : List Nat} {scratch : Scratch}
    (entry : (nodesOf r)[node]? = some current) {j : Nat} (covered : Covered r (current :: rest) scratch found j) :
    Covered r rest scratch (if _ : found.contains node = true then found else found ++ [node]) j := by
  rcases covered with stacked | mark | ⟨n, known, place⟩
  · rcases List.mem_cons.mp stacked with rfl | later
    · exact .inr (.inr ⟨node, mem_noted.mpr (.inr rfl), entry⟩)
    · exact .inl later
  · exact .inr (.inl mark)
  · exact .inr (.inr ⟨n, mem_noted.mpr (.inl known), place⟩)

/-- An instruction on the stack is covered once it is marked and its successors are
    stacked in its place. -/
theorem covered_marked {current : Nat} {next rest found : List Nat} {scratch : Scratch}
    (inside : current < scratch.seen.size) {j : Nat} (covered : Covered r (current :: rest) scratch found j) :
    Covered r (next ++ rest) (scratch.mark current inside) found j := by
  rcases covered with stacked | mark | noted
  · rcases List.mem_cons.mp stacked with rfl | later
    · exact .inr (.inl ((Scratch.getElem?_mark inside j).mpr (.inl rfl)))
    · exact .inl (List.mem_append_right _ later)
  · exact .inr (.inl ((Scratch.getElem?_mark inside j).mpr (.inr mark)))
  · exact .inr (.inr noted)

theorem closed_marked {current : Nat} {next rest found : List Nat} {scratch : Scratch}
    (inside : current < scratch.seen.size) (plain : Plain r current) (listed : r.flow.successors current = .ok next)
    (closed : Closed r (current :: rest) scratch found) :
    Closed r (next ++ rest) (scratch.mark current inside) found := by
  constructor
  · intro i mark
    rcases (Scratch.getElem?_mark inside i).mp mark with rfl | old
    · exact plain
    · exact closed.plain i old
  · intro i mark j pass
    rcases (Scratch.getElem?_mark inside i).mp mark with rfl | old
    · obtain ⟨next', listed', member⟩ := pass
      cases listed.symm.trans listed'
      exact .inl (List.mem_append_left _ member)
    · exact covered_marked inside (closed.after i old j pass)

/-- At its end the search still covers what it covered, with nothing left on its stack. -/
theorem search_closed (numbers : Numbers r index) {stack : List Nat} {scratch left : Scratch} {found out : List Nat}
    (run : search r index stack scratch found = .ok (out, left)) (closed : Closed r stack scratch found) :
    Closed r [] left out ∧ ∀ j, Covered r stack scratch found j → Covered r [] left out j := by
  fun_induction search r index stack scratch found with
  | case1 scratch found =>
    cases run
    exact ⟨closed, fun j covered => covered⟩
  | case3 scratch found current rest node entry ih =>
    have step : ∀ j, Covered r (current :: rest) scratch found j → Covered r rest scratch _ j :=
      fun j => covered_noted ((numbers.place _ _).mp (fetch_eq_ok.mp entry))
    obtain ⟨closed', covers⟩ := ih run (closed.mono step)
    exact ⟨closed', fun j covered => covers j (step j covered)⟩
  | case5 scratch found current rest entry inside fresh next listed ih =>
    have plain := numbers.plain.mp (fetch_eq_ok.mp entry)
    obtain ⟨closed', covers⟩ := ih run (closed_marked inside plain listed closed)
    exact ⟨closed', fun j covered => covers j (covered_marked inside covered)⟩
  | case6 scratch found current rest entry inside old ih =>
    have mark : scratch.seen[current]? = some true := by
      rw [Array.getElem?_eq_getElem inside, Bool.of_not_eq_false old]
    have step : ∀ j, Covered r (current :: rest) scratch found j → Covered r rest scratch found j := by
      rintro j (stacked | covered)
      · rcases List.mem_cons.mp stacked with rfl | later
        · exact .inr (.inl mark)
        · exact .inl later
      · exact .inr covered
    obtain ⟨closed', covers⟩ := ih run (closed.mono step)
    exact ⟨closed', fun j covered => covers j (step j covered)⟩
  | case2 | case4 | case7 => cases run

/-- The nodes that a search finds from an instruction, with nothing seen before. -/
def follow (r : Routine) (index : Array (Option Nat)) (origin : Nat) : Result (List Nat) := do
  return (← successorsOf r index (Scratch.fresh r.size) origin).1

/-- A search that starts without marks leaves none. -/
theorem successorsOf_fresh {origin : Nat} {out : List Nat} {left : Scratch}
    (run : successorsOf r index (Scratch.fresh r.size) origin = .ok (out, left)) : left = Scratch.fresh r.size := by
  obtain ⟨first, _, run⟩ := bind_eq_ok.mp run
  obtain ⟨⟨found, marks⟩, ran, run⟩ := bind_eq_ok.mp run
  obtain ⟨cleared, cleaned, run⟩ := bind_eq_ok.mp run
  cases run
  have tracks := search_tracks ran (Scratch.tracks_fresh r.size)
  exact Except.ok.inj (cleaned.symm.trans (Scratch.clear_of_tracks tracks))

theorem foldlM_addRow (nodes : List Nat) (rows : Array (List Nat)) :
    nodes.foldlM (addRow r index) (rows, Scratch.fresh r.size) = (do
      return (rows ++ (← nodes.mapM (follow r index)).toArray, Scratch.fresh r.size)) := by
  induction nodes generalizing rows with
  | nil => simp [pure, Except.pure, bind, Except.bind]
  | cons origin rest ih =>
    rw [List.foldlM_cons, List.mapM_cons]
    cases ran : successorsOf r index (Scratch.fresh r.size) origin with
    | error e =>
      have failed : follow r index origin = .error e := by rw [follow, ran]; rfl
      have stopped : addRow r index (rows, Scratch.fresh r.size) origin = .error e := by simp only [addRow, ran]; rfl
      rw [failed, stopped]
      rfl
    | ok answer =>
      obtain ⟨out, left⟩ := answer
      cases successorsOf_fresh ran
      have found : follow r index origin = .ok out := bind_eq_ok.mpr ⟨_, ran, rfl⟩
      have added : addRow r index (rows, Scratch.fresh r.size) origin = .ok (rows.push out, Scratch.fresh r.size) :=
        bind_eq_ok.mpr ⟨_, ran, rfl⟩
      rw [found, added]
      refine (ih (rows.push out)).trans ?_
      cases rest.mapM (follow r index) with
      | error e => rfl
      | ok others => simp [bind, Except.bind, pure, Except.pure]

/-- Each search starts as if it were the first. -/
theorem successorRows_eq (r : Routine) (index : Array (Option Nat)) (nodes : List Nat) :
    successorRows r index nodes = do return (← nodes.mapM (follow r index)).toArray := by
  unfold successorRows
  rw [foldlM_addRow]
  cases nodes.mapM (follow r index) with
  | error e => rfl
  | ok rows => simp [pure, Except.pure, bind, Except.bind]

theorem follow_eq_ok {origin : Nat} {out : List Nat} (run : follow r index origin = .ok out) :
    ∃ first left, r.flow.successors origin = .ok first ∧
      search r index first (Scratch.fresh r.size) [] = .ok (out, left) := by
  obtain ⟨⟨found, cleared⟩, ran, same⟩ := bind_eq_ok.mp run
  cases same
  obtain ⟨first, listed, ran⟩ := bind_eq_ok.mp ran
  obtain ⟨⟨found, left⟩, ran, same⟩ := bind_eq_ok.mp ran
  obtain ⟨_, _, same⟩ := bind_eq_ok.mp same
  cases same
  exact ⟨first, left, listed, ran⟩

/-- Whatever the routine leads to from an instruction is plain or has been found. -/
theorem plain_or_found (numbers : Numbers r index) {origin : Nat} {out : List Nat} (run : follow r index origin = .ok out)
    {j : Nat} (way : Leads r origin j) : Plain r j ∨ ∃ n ∈ out, (nodesOf r)[n]? = some j := by
  obtain ⟨first, left, listed, run⟩ := follow_eq_ok run
  obtain ⟨closed, covers⟩ := search_closed numbers run
    ⟨fun i mark => absurd mark (unmarked _ i), fun i mark => absurd mark (unmarked _ i)⟩
  -- Along the way, a plain instruction that is covered has been seen.
  have covered : Covered r [] left out j := by
    induction way with
    | edge pass =>
      obtain ⟨first', listed', member⟩ := pass
      cases listed.symm.trans listed'
      exact covers _ (.inl member)
    | @through j k way plain pass ih =>
      rcases ih with none | mark | ⟨m, _, node⟩
      · cases none
      · exact closed.after j mark k pass
      · exact absurd (List.mem_of_getElem? node) plain.not_mem
  rcases covered with none | mark | found
  · cases none
  · exact .inl (closed.plain j mark)
  · exact .inr found

/-- The nodes that follow an instruction are those that the routine leads to from it. -/
theorem mem_follow (numbers : Numbers r index) {origin : Nat} {out : List Nat} (run : follow r index origin = .ok out)
    {n : Nat} : n ∈ out ↔ ∃ j, Leads r origin j ∧ (nodesOf r)[n]? = some j := by
  constructor
  · intro member
    obtain ⟨first, left, listed, run⟩ := follow_eq_ok run
    rcases search_sound numbers run (fun j member => .edge ⟨first, listed, member⟩) n member with none | led
    · cases none
    · exact led
  · rintro ⟨j, way, place⟩
    rcases plain_or_found numbers run way with plain | ⟨m, known, place'⟩
    · exact absurd (List.mem_of_getElem? place) plain.not_mem
    · cases place_injective place place'
      exact known

/-- The parts of a skeleton. -/
theorem ofRoutine_eq_ok {s : Skeleton} (built : ofRoutine r = .ok s) :
    s.nodes.toList = nodesOf r ∧ Numbers r s.index ∧
      ∃ succ, (nodesOf r).mapM (follow r s.index) = .ok succ ∧ Digraph.ofSuccessors succ.toArray = .ok s.flow := by
  obtain ⟨numbered, counted, built⟩ := bind_eq_ok.mp built
  obtain ⟨numbered', counted', nodes, numbers⟩ := numbering_spec r
  cases counted.symm.trans counted'
  obtain ⟨rows, searched, built⟩ := bind_eq_ok.mp built
  obtain ⟨flow, linked, built⟩ := bind_eq_ok.mp built
  cases built
  rw [nodes, successorRows_eq] at searched
  obtain ⟨succ, followed, same⟩ := bind_eq_ok.mp searched
  cases same
  exact ⟨nodes, numbers, succ, followed, linked⟩

theorem instruction_eq_ok {s : Skeleton} (built : ofRoutine r = .ok s) {n i : Nat} :
    s.instruction n = .ok i ↔ (nodesOf r)[n]? = some i := by
  unfold instruction
  rw [fetch_eq_ok, ← (ofRoutine_eq_ok built).1, Array.getElem?_toList]

theorem size_eq {s : Skeleton} (built : ofRoutine r = .ok s) : s.size = (nodesOf r).length := by
  rw [← (ofRoutine_eq_ok built).1]
  rfl

theorem lt_size_of_place {s : Skeleton} (built : ofRoutine r = .ok s) {n i : Nat} (place : (nodesOf r)[n]? = some i) :
    n < s.size := by
  rw [size_eq built]
  exact (List.getElem?_eq_some_iff.mp place).1

theorem place_of_lt {s : Skeleton} (built : ofRoutine r = .ok s) {n : Nat} (inside : n < s.size) :
    ∃ i, (nodesOf r)[n]? = some i := by
  rw [size_eq built] at inside
  exact ⟨_, List.getElem?_eq_getElem inside⟩

/-- One node follows another if the routine leads from the one to the other. -/
theorem edge_iff_leads {s : Skeleton} (built : ofRoutine r = .ok s) {n m : Nat} :
    s.flow.Edge n m ↔ ∃ i j, (nodesOf r)[n]? = some i ∧ (nodesOf r)[m]? = some j ∧ Leads r i j := by
  obtain ⟨_, numbers, succ, searched, linked⟩ := ofRoutine_eq_ok built
  rw [Digraph.edge_iff, (Digraph.ofSuccessors_eq_ok linked).1]
  simp only [List.getElem?_toArray]
  constructor
  · rintro ⟨next, row, member⟩
    obtain ⟨i, node, run⟩ := (getElem?_of_mapM searched).mp row
    obtain ⟨j, way, place⟩ := (mem_follow numbers run).mp member
    exact ⟨i, j, node, place, way⟩
  · rintro ⟨i, j, node, place, way⟩
    obtain ⟨next, row, run⟩ := entry_of_mapM searched node
    exact ⟨next, row, (mem_follow numbers run).mpr ⟨j, way, place⟩⟩

theorem mem_predecessors_iff_leads {s : Skeleton} (built : ofRoutine r = .ok s) {n m : Nat} :
    (∃ previous, s.flow.predecessors m = .ok previous ∧ n ∈ previous) ↔
      ∃ i j, (nodesOf r)[n]? = some i ∧ (nodesOf r)[m]? = some j ∧ Leads r i j := by
  obtain ⟨_, _, succ, _, linked⟩ := ofRoutine_eq_ok built
  rw [Digraph.mem_predecessors_iff linked, edge_iff_leads built]

/-- From a node, the routine leads to nothing but its own instructions. -/
theorem plain_or_node {s : Skeleton} (built : ofRoutine r = .ok s) {i j : Nat} (node : i ∈ nodesOf r)
    (way : Leads r i j) : Plain r j ∨ j ∈ nodesOf r := by
  obtain ⟨_, numbers, succ, searched, _⟩ := ofRoutine_eq_ok built
  obtain ⟨n, place⟩ := List.mem_iff_getElem?.mp node
  obtain ⟨out, _, run⟩ := entry_of_mapM searched place
  exact (plain_or_found numbers run way).imp id fun ⟨_, _, found⟩ => List.mem_of_getElem? found

end StackFlow.Skeleton
