import StackFlow.BitSet.Lemmas
import StackFlow.Worklist.Basic

/-!
The items that a worklist has to work off are the seeds and whatever the transfer
function sends on from them (`Reached`). Along a run, the items given to the transfer
function and those still queued together are exactly the items known, each of them
once, and no item sent from the former is missing (`Invariant`). However a run without
a cancellation check ends, the invariant says why it ended so (`Verdict`).
-/
namespace StackFlow.Worklist

variable {F : Type}

/-- The items that a flow sends on from a node with the given neighbours. -/
def Flow.sends (near : List Nat) : Flow F → List (Nat × F)
  | .continue out | .pass out => near.map (·, out)
  | .redirect out targets => targets.map (·, out)
  | .stop => []

/-- The neighbours in the direction of the run; a number that is no node has none. -/
def Problem.near (p : Problem F) (node : Nat) : List Nat :=
  match p.neighbours node with
  | .ok near => near
  | .error _ => []

/-- An item whose transfer is charged a step: all but those that pass. -/
def Problem.isCharged (p : Problem F) (item : Nat × F) : Bool :=
  match p.transfer item.1 item.2 with
  | .ok (.pass _) => false
  | _ => true

/-- The least set of items that has the seeds and is closed under propagation. -/
inductive Reached (p : Problem F) (seeds : List (Nat × F)) : Nat × F → Prop
  | seed {item : Nat × F} (given : item ∈ seeds) : Reached p seeds item
  | sent {item next : Nat × F} {flow : Flow F} (source : Reached p seeds item)
      (becomes : p.transfer item.1 item.2 = .ok flow) (target : next ∈ flow.sends (p.near item.1)) :
      Reached p seeds next

theorem neighbours_of_lt {p : Problem F} {node : Nat} (inside : node < p.graph.nodeCount) :
    p.neighbours node = .ok (p.near node) := by
  have listed : ∃ near, p.neighbours node = .ok near := by
    unfold Problem.neighbours
    cases p.direction with
    | forward => exact ⟨_, fetch_of_lt inside⟩
    | backward => exact ⟨_, fetch_of_lt (show node < p.graph.pred.size from p.graph.same_size ▸ inside)⟩
  obtain ⟨near, ok⟩ := listed
  simp [Problem.near, ok]

theorem mem_near {p : Problem F} {node other : Nat} :
    other ∈ p.near node ↔ ∃ near, p.neighbours node = .ok near ∧ other ∈ near := by
  unfold Problem.near
  cases p.neighbours node <;> simp

theorem poll_unchecked (interval : Nat) {l : Log F} (unchecked : l.check = none) : l.poll interval = .ok (false, l) := by
  unfold Log.poll
  rw [remainder_of_pos (by omega), unchecked]
  by_cases due : l.dequeued % max interval 1 = 0 <;> simp [due, bind, Except.bind, pure, Except.pure]

theorem answer_of_collect {α : Type} {o : Outcome F} {answer : List (Nat × F) → Result α} {x : α}
    (answered : (o.collect answer).result = .ok x) :
    (∃ stats, o.result = .ok stats) ∧ answer o.log.calls.toList = .ok x := by
  unfold Outcome.collect at answered
  cases finished : o.result with
  | error e =>
    rw [finished] at answered
    cases answered
  | ok stats =>
    rw [finished] at answered
    exact ⟨⟨stats, rfl⟩, answered⟩

variable [DecidableEq F] [Hashable F]

namespace Agenda

/-- The item has been queued before. -/
def knows (count : Nat) (a : Agenda F) (item : Nat × F) : Bool :=
  (a.seen.getD item.2 (BitSet.empty count)).contains item.1

/-- The items worked off and those queued are the known ones, each counted once. -/
structure Tracks (count : Nat) (a : Agenda F) (done : List (Nat × F)) : Prop where
  capacity : ∀ fact, (a.seen.getD fact (BitSet.empty count)).capacity = count
  known : ∀ item, a.knows count item = true ↔ item ∈ done ++ a.queue.toList
  nodup : (done ++ a.queue.toList).Nodup
  pairs : a.pairs = (done ++ a.queue.toList).length

theorem tracks_empty (count : Nat) : (empty : Agenda F).Tracks count [] := by
  refine ⟨?_, ?_, ?_, rfl⟩
  · intro fact; simp [empty]
  · intro item; simp [empty, knows]
  · simp [empty]

variable {count : Nat} {a : Agenda F} {done : List (Nat × F)}

theorem Tracks.lt_count (tracks : a.Tracks count done) {item : Nat × F} (member : item ∈ done ++ a.queue.toList) :
    item.1 < count := by
  have inside := BitSet.lt_of_contains ((tracks.known item).mpr member)
  rwa [tracks.capacity] at inside

/-- Taking an item from the queue to work it off keeps all items tracked. -/
theorem Tracks.pop (tracks : a.Tracks count done) {order : Order} {item : Nat × F} {rest : Deque (Nat × F)}
    (popped : a.queue.pop order = some (item, rest)) : ({ a with queue := rest } : Agenda F).Tracks count (done ++ [item]) := by
  have moved : (done ++ a.queue.toList).Perm (done ++ [item] ++ rest.toList) := by
    rw [List.append_assoc]
    exact (Deque.perm_of_pop popped).append_left done
  refine ⟨tracks.capacity, ?_, moved.nodup_iff.mp tracks.nodup, ?_⟩
  · intro other
    exact (tracks.known other).trans moved.mem_iff
  · exact tracks.pairs.trans moved.length_eq

theorem enqueue_outside {item : Nat × F} (outside : count ≤ item.1) :
    a.enqueue count item = reject (.badNode item.1 count) := by
  simp [enqueue, Nat.not_lt.mpr outside]

theorem enqueue_known (tracks : a.Tracks count done) {item : Nat × F} (member : item ∈ done ++ a.queue.toList) :
    a.enqueue count item = .ok a := by
  have inside := tracks.lt_count member
  have capacity : item.1 < (a.seen.getD item.2 (BitSet.empty count)).capacity := by rwa [tracks.capacity]
  have known : (a.seen.getD item.2 (BitSet.empty count)).contains item.1 = true := (tracks.known item).mpr member
  simp [enqueue, inside, BitSet.insert_of_lt capacity, known, bind, Except.bind, pure, Except.pure]

theorem enqueue_fresh (tracks : a.Tracks count done) {item : Nat × F} (inside : item.1 < count)
    (fresh : item ∉ done ++ a.queue.toList) :
    ∃ b, a.enqueue count item = .ok b ∧ b.Tracks count done ∧ b.steps = a.steps ∧ b.queue = a.queue.push item := by
  obtain ⟨node, fact⟩ := item
  have capacity : node < (a.seen.getD fact (BitSet.empty count)).capacity := by rwa [tracks.capacity]
  have unknown : (a.seen.getD fact (BitSet.empty count)).contains node = false := by
    cases known : (a.seen.getD fact (BitSet.empty count)).contains node
    · rfl
    · exact absurd ((tracks.known (node, fact)).mp known) fresh
  refine ⟨{ a with
    seen := a.seen.insert fact ((a.seen.getD fact (BitSet.empty count)).put node capacity)
    queue := a.queue.push (node, fact), pairs := a.pairs + 1 }, ?_, ⟨?_, ?_, ?_, ?_⟩, rfl, rfl⟩
  · simp [enqueue, inside, BitSet.insert_of_lt capacity, unknown, bind, Except.bind, pure, Except.pure]
  · intro other
    rw [Std.HashMap.getD_insert]
    split
    · exact tracks.capacity fact
    · exact tracks.capacity other
  · rintro ⟨other, fact'⟩
    have before := tracks.known (other, fact')
    simp only [knows] at before
    rw [Deque.toList_push, ← List.append_assoc, List.mem_append, List.mem_singleton, ← before]
    simp only [knows, Std.HashMap.getD_insert]
    by_cases same : fact = fact'
    · subst same
      rw [if_pos (beq_self_eq_true fact), BitSet.contains_put, Bool.or_eq_true, decide_eq_true_eq, Prod.mk.injEq]
      exact or_congr_right ⟨fun here => ⟨here.symm, rfl⟩, fun here => here.1.symm⟩
    · have other : ¬ (fact == fact') = true := by simpa using same
      rw [if_neg other, Prod.mk.injEq]
      exact ⟨.inl, fun either => either.resolve_right fun here => same here.2.symm⟩
  · rw [Deque.toList_push, ← List.append_assoc]
    refine List.nodup_append.mpr ⟨tracks.nodup, List.pairwise_singleton _ _, ?_⟩
    rintro x member y last rfl
    rw [List.mem_singleton] at last
    exact fresh (last ▸ member)
  · rw [Deque.toList_push, ← List.append_assoc, List.length_append, ← tracks.pairs]
    rfl

/-- Queueing a list of items makes all of them known, or fails at one that is no item
    of the graph. -/
theorem enqueueAll_cases (tracks : a.Tracks count done) (items : List (Nat × F)) :
    (∃ b, a.enqueueAll count items = .ok b ∧ b.Tracks count done ∧ b.steps = a.steps ∧
      ∀ other, other ∈ done ++ b.queue.toList ↔ other ∈ done ++ a.queue.toList ∨ other ∈ items) ∨
    ∃ item ∈ items, count ≤ item.1 ∧ a.enqueueAll count items = reject (.badNode item.1 count) := by
  induction items generalizing a with
  | nil => exact .inl ⟨a, rfl, tracks, rfl, by simp⟩
  | cons item rest ih =>
    have unfolded : a.enqueueAll count (item :: rest) = a.enqueue count item >>= fun b => b.enqueueAll count rest := rfl
    by_cases outside : count ≤ item.1
    · right
      refine ⟨item, by simp, outside, ?_⟩
      rw [unfolded, enqueue_outside outside]
      rfl
    -- The first item is queued, be it new or not, and known from then on.
    have first : ∃ b, a.enqueue count item = .ok b ∧ b.Tracks count done ∧ b.steps = a.steps ∧
        ∀ other, other ∈ done ++ b.queue.toList ↔ other ∈ done ++ a.queue.toList ∨ other = item := by
      by_cases member : item ∈ done ++ a.queue.toList
      · refine ⟨a, enqueue_known tracks member, tracks, rfl, fun other => ⟨.inl, ?_⟩⟩
        rintro (old | rfl)
        · exact old
        · exact member
      · obtain ⟨b, ran, tracked, steps, queue⟩ := enqueue_fresh tracks (Nat.lt_of_not_le outside) member
        refine ⟨b, ran, tracked, steps, fun other => ?_⟩
        rw [queue, Deque.toList_push, ← List.append_assoc, List.mem_append, List.mem_singleton]
    obtain ⟨b, ran, tracked, steps, grown⟩ := first
    rw [unfolded, ran]
    rcases ih tracked with ⟨c, ran', tracked', steps', grown'⟩ | ⟨bad, member, outside', ran'⟩
    · refine .inl ⟨c, ran', tracked', steps'.trans steps, fun other => ?_⟩
      rw [grown', grown, List.mem_cons, or_assoc]
    · exact .inr ⟨bad, List.mem_cons_of_mem _ member, outside', ran'⟩

/-- Working off an item charges it, unless it passes, and queues what it sends on. -/
theorem process_eq {p : Problem F} {node : Nat} {fact : F} {flow : Flow F} (inside : node < p.graph.nodeCount)
    (becomes : p.transfer node fact = .ok flow) :
    a.process p node fact = (if p.isCharged (node, fact) then a.charge p else .ok a) >>= fun b =>
      b.enqueueAll p.graph.nodeCount (flow.sends (p.near node)) := by
  unfold process Problem.isCharged
  simp only [neighbours_of_lt inside, becomes]
  cases flow with
  | «continue» out => rfl
  | pass out => rfl
  | redirect out targets => rfl
  | stop =>
    change a.charge p = a.charge p >>= fun b => .ok b
    cases a.charge p <;> rfl

end Agenda

/-- What a run keeps: nothing but reached items is known, all seeds are, and so is
    everything sent on from the items worked off. -/
structure Invariant (p : Problem F) (seeds : List (Nat × F)) (a : Agenda F) (done : List (Nat × F)) : Prop where
  tracks : a.Tracks p.graph.nodeCount done
  reached : ∀ item ∈ done ++ a.queue.toList, Reached p seeds item
  seeded : ∀ item ∈ seeds, item ∈ done ++ a.queue.toList
  settled : ∀ item ∈ done, ∃ flow, p.transfer item.1 item.2 = .ok flow ∧
    ∀ next ∈ flow.sends (p.near item.1), next ∈ done ++ a.queue.toList
  steps : a.steps = done.countP p.isCharged
  within : a.steps ≤ p.budget

/-- How a run without a cancellation check that worked off `calls` ends, and what that
    says of the reached items. -/
inductive Verdict (p : Problem F) (seeds calls : List (Nat × F)) : Result Stats → Prop
  | complete (exact : ∀ item, item ∈ calls ↔ Reached p seeds item)
      (inside : ∀ item ∈ calls, item.1 < p.graph.nodeCount)
      (transferred : ∀ item ∈ calls, ∃ flow, p.transfer item.1 item.2 = .ok flow)
      (within : calls.countP p.isCharged ≤ p.budget) :
      Verdict p seeds calls (.ok ⟨calls.countP p.isCharged, calls.length, calls.length⟩)
  | outside {item : Nat × F} (reached : Reached p seeds item) (beyond : p.graph.nodeCount ≤ item.1) :
      Verdict p seeds calls (reject (.badNode item.1 p.graph.nodeCount))
  | failed {item : Nat × F} {e : Failure} (reached : Reached p seeds item)
      (fails : p.transfer item.1 item.2 = .error e) : Verdict p seeds calls (.error e)
  /-- One charged item too many. -/
  | overspent (reached : ∀ item ∈ calls, Reached p seeds item)
      (charged : calls.countP p.isCharged = p.budget + 1) : Verdict p seeds calls (p.giveUp (p.budget + 1))
  /-- As many items as a run may take, and one more is waiting. -/
  | overrun {item : Nat × F} (reached : ∀ other ∈ item :: calls, Reached p seeds other) (waiting : item ∉ calls)
      (full : calls.length = p.cap) (within : calls.countP p.isCharged ≤ p.budget) :
      Verdict p seeds calls (p.giveUp (calls.countP p.isCharged))

variable {p : Problem F} {seeds : List (Nat × F)} {a : Agenda F} {done : List (Nat × F)}

theorem Invariant.nodup (inv : Invariant p seeds a done) : done.Nodup := (List.nodup_append.mp inv.tracks.nodup).1

/-- With an empty queue, the items worked off are all there are. -/
theorem Invariant.complete (inv : Invariant p seeds a done) (nothing : a.queue.toList = []) :
    Verdict p seeds done (.ok ⟨a.steps, done.length, a.pairs⟩) := by
  have all : done ++ a.queue.toList = done := by rw [nothing, List.append_nil]
  have pairs : a.pairs = done.length := by rw [inv.tracks.pairs, all]
  rw [pairs, inv.steps]
  refine .complete (fun item => ⟨?_, ?_⟩) ?_ ?_ (inv.steps ▸ inv.within)
  · intro member
    exact inv.reached item (all.symm ▸ member)
  · intro reached
    induction reached with
    | seed given => exact all ▸ inv.seeded _ given
    | sent source becomes target ih =>
      obtain ⟨flow, same, sent⟩ := inv.settled _ ih
      rw [becomes] at same
      cases same
      exact all ▸ sent _ target
  · intro item member
    exact inv.tracks.lt_count (all.symm ▸ member)
  · intro item member
    obtain ⟨flow, becomes, _⟩ := inv.settled item member
    exact ⟨flow, becomes⟩

/-- Paying for an item: the steps of the agenda stay the number of charged items, or
    there is one charged item too many. -/
theorem pay_cases (steps : a.steps = done.countP p.isCharged) (within : a.steps ≤ p.budget) (item : Nat × F) :
    (∃ b : Agenda F, (if p.isCharged item then a.charge p else .ok a) = .ok b ∧
      b = { a with steps := (done ++ [item]).countP p.isCharged } ∧
      (done ++ [item]).countP p.isCharged ≤ p.budget) ∨
    ((if p.isCharged item then a.charge p else .ok a) = p.giveUp (p.budget + 1) ∧
      (done ++ [item]).countP p.isCharged = p.budget + 1) := by
  rw [List.countP_append, List.countP_singleton, ← steps]
  by_cases charged : p.isCharged item = true
  · simp only [charged, if_true, Agenda.charge]
    by_cases room : a.steps + 1 ≤ p.budget
    · exact .inl ⟨_, if_pos room, rfl, room⟩
    · have spent : a.steps = p.budget := by omega
      exact .inr ⟨by rw [if_neg room, spent], by rw [spent]⟩
  · simp only [charged]
    exact .inl ⟨a, rfl, rfl, within⟩

/-- Working off the next item keeps the invariant, or ends the run for a good reason. -/
theorem Invariant.step (inv : Invariant p seeds a done) {item : Nat × F} {rest : Deque (Nat × F)}
    (popped : a.queue.pop p.order = some (item, rest)) :
    (∃ b, Agenda.process p { a with queue := rest } item.1 item.2 = .ok b ∧ Invariant p seeds b (done ++ [item])) ∨
    ∃ e, Agenda.process p { a with queue := rest } item.1 item.2 = .error e ∧
      Verdict p seeds (done ++ [item]) (.error e) := by
  have moved : ∀ other, other ∈ done ++ a.queue.toList ↔ other ∈ done ++ [item] ++ rest.toList := by
    intro other
    rw [List.append_assoc]
    exact ((Deque.perm_of_pop popped).append_left done).mem_iff
  have reached : ∀ other ∈ done ++ [item] ++ rest.toList, Reached p seeds other :=
    fun other member => inv.reached other ((moved other).mpr member)
  have here : Reached p seeds item := reached item (by simp)
  have inside : item.1 < p.graph.nodeCount := inv.tracks.lt_count ((moved item).mpr (by simp))
  cases becomes : p.transfer item.1 item.2 with
  | error e =>
    refine .inr ⟨e, ?_, .failed here becomes⟩
    simp [Agenda.process, neighbours_of_lt inside, becomes, bind, Except.bind]
  | ok flow =>
    rw [Agenda.process_eq inside becomes]
    rcases pay_cases (a := { a with queue := rest }) inv.steps inv.within item with
      ⟨b, paid, rfl, within⟩ | ⟨paid, charged⟩
    · rw [paid]
      have tracks := inv.tracks.pop popped
      have tracks' : Agenda.Tracks p.graph.nodeCount
          { a with queue := rest, steps := (done ++ [item]).countP p.isCharged } (done ++ [item]) :=
        ⟨tracks.capacity, tracks.known, tracks.nodup, tracks.pairs⟩
      rcases Agenda.enqueueAll_cases tracks' (flow.sends (p.near item.1)) with
        ⟨c, ran, tracked, steps, grown⟩ | ⟨bad, member, beyond, ran⟩
      · refine .inl ⟨c, ran, tracked, ?_, ?_, ?_, steps, steps ▸ within⟩
        · intro other member
          rcases (grown other).mp member with old | sent
          · exact reached other old
          · exact .sent here becomes sent
        · intro seed given
          exact (grown seed).mpr (.inl ((moved seed).mp (inv.seeded seed given)))
        · intro other member
          rcases List.mem_append.mp member with earlier | last
          · obtain ⟨before, same, sent⟩ := inv.settled other earlier
            exact ⟨before, same, fun next target => (grown next).mpr (.inl ((moved next).mp (sent next target)))⟩
          · rw [List.mem_singleton.mp last]
            exact ⟨flow, becomes, fun next target => (grown next).mpr (.inr target)⟩
      · exact .inr ⟨_, ran, .outside (.sent here becomes member) beyond⟩
    · rw [paid]
      refine .inr ⟨_, rfl, .overspent (fun other member => ?_) charged⟩
      exact reached other (List.mem_append_left _ member)

/-- The run ended for a good reason, with no item worked off twice and no more of them
    than it may take. -/
structure Justified (p : Problem F) (seeds : List (Nat × F)) (o : Outcome F) : Prop where
  verdict : Verdict p seeds o.log.calls.toList o.result
  nodup : o.log.calls.toList.Nodup
  bounded : o.log.calls.toList.length ≤ p.cap

theorem loop_of_empty {left : Nat} {l : Log F} (popped : a.queue.pop p.order = none) :
    loop p left a l = ⟨.ok ⟨a.steps, l.dequeued, a.pairs⟩, l⟩ := by
  unfold loop
  rw [popped]

theorem loop_zero {l asked : Log F} {item : Nat × F} {rest : Deque (Nat × F)}
    (popped : a.queue.pop p.order = some (item, rest)) (polled : l.dequeue.poll p.interval = .ok (false, asked)) :
    loop p 0 a l = ⟨p.giveUp a.steps, asked⟩ := by
  unfold loop
  rw [popped, polled]

theorem loop_succ {left : Nat} {l asked : Log F} {item : Nat × F} {rest : Deque (Nat × F)}
    (popped : a.queue.pop p.order = some (item, rest)) (polled : l.dequeue.poll p.interval = .ok (false, asked)) :
    loop p (left + 1) a l =
      match Agenda.process p { a with queue := rest } item.1 item.2 with
      | .error e => ⟨.error e, asked.call item⟩
      | .ok b => loop p left b (asked.call item) := by
  obtain ⟨node, fact⟩ := item
  conv => lhs; unfold loop
  cases ran : Agenda.process p { a with queue := rest } node fact <;> simp only [popped, polled, ran]

theorem Invariant.justified_of_empty {left : Nat} {l : Log F} (inv : Invariant p seeds a l.calls.toList)
    (counted : l.dequeued = l.calls.toList.length) (bounded : l.calls.toList.length ≤ p.cap)
    (popped : a.queue.pop p.order = none) : Justified p seeds (loop p left a l) := by
  rw [loop_of_empty popped, counted]
  exact ⟨inv.complete (Deque.pop_eq_none.mp popped), inv.nodup, bounded⟩

/-- An item waits although the run has taken as many as it may. -/
theorem Invariant.overrun (inv : Invariant p seeds a done) {item : Nat × F} {rest : Deque (Nat × F)}
    (popped : a.queue.pop p.order = some (item, rest)) (full : done.length = p.cap) :
    Verdict p seeds done (p.giveUp a.steps) := by
  have queued : item ∈ a.queue.toList := (Deque.perm_of_pop popped).mem_iff.mpr (by simp)
  have reached : ∀ other ∈ item :: done, Reached p seeds other := by
    intro other member
    rcases List.mem_cons.mp member with rfl | earlier
    · exact inv.reached other (List.mem_append_right _ queued)
    · exact inv.reached other (List.mem_append_left _ earlier)
  have waiting : item ∉ done := fun earlier => (List.nodup_append.mp inv.tracks.nodup).2.2 item earlier item queued rfl
  rw [inv.steps]
  exact .overrun reached waiting full (inv.steps ▸ inv.within)

theorem loop_justified {left : Nat} {l : Log F} (inv : Invariant p seeds a l.calls.toList) (unchecked : l.check = none)
    (counted : l.dequeued = l.calls.toList.length) (room : l.calls.toList.length + left = p.cap) :
    Justified p seeds (loop p left a l) := by
  induction left generalizing a l with
  | zero =>
    cases popped : a.queue.pop p.order with
    | none => exact inv.justified_of_empty counted (Nat.le.intro room) popped
    | some taken =>
      obtain ⟨item, rest⟩ := taken
      rw [loop_zero popped (poll_unchecked p.interval (show l.dequeue.check = none from unchecked))]
      exact ⟨inv.overrun popped room, inv.nodup, Nat.le.intro room⟩
  | succ left ih =>
    cases popped : a.queue.pop p.order with
    | none => exact inv.justified_of_empty counted (Nat.le.intro room) popped
    | some taken =>
      obtain ⟨item, rest⟩ := taken
      have calls : (l.dequeue.call item).calls.toList = l.calls.toList ++ [item] := Array.toList_push
      have length : (l.calls.toList ++ [item]).length = l.calls.toList.length + 1 := List.length_append
      have nodup := (List.nodup_append.mp (inv.tracks.pop popped).nodup).1
      rw [loop_succ popped (poll_unchecked p.interval (show l.dequeue.check = none from unchecked))]
      rcases inv.step popped with ⟨b, ran, next⟩ | ⟨e, ran, verdict⟩
      · rw [ran]
        refine ih (calls ▸ next) unchecked ?_ ?_
        · rw [calls, length, ← counted]
          rfl
        · rw [calls, length]
          omega
      · rw [ran]
        exact ⟨calls ▸ verdict, calls ▸ nodup, by rw [calls, length]; omega⟩

theorem Invariant.start {a : Agenda F} (tracks : a.Tracks p.graph.nodeCount []) (steps : a.steps = 0)
    (queued : ∀ item, item ∈ a.queue.toList ↔ item ∈ seeds) : Invariant p seeds a [] := by
  refine ⟨tracks, ?_, ?_, ?_, steps, steps ▸ Nat.zero_le _⟩
  · intro item member
    exact .seed ((queued item).mp member)
  · intro item given
    exact (queued item).mpr given
  · intro item member
    cases member

/-- However a run without a cancellation check ends, there is a good reason for it. -/
theorem run_justified (p : Problem F) (seeds : List (Nat × F)) : Justified p seeds (run p none seeds) := by
  unfold run
  rcases Agenda.enqueueAll_cases (Agenda.tracks_empty (F := F) p.graph.nodeCount) seeds with
    ⟨a, ran, tracks, steps, grown⟩ | ⟨item, given, beyond, ran⟩
  · have queued : ∀ item, item ∈ a.queue.toList ↔ item ∈ seeds := fun item =>
      (grown item).trans ⟨fun either => either.resolve_left List.not_mem_nil, .inr⟩
    rw [ran]
    exact loop_justified (l := Log.start none) (.start tracks steps queued) rfl rfl (Nat.zero_add _)
  · rw [ran]
    exact ⟨.outside (.seed given) beyond, List.nodup_nil, Nat.zero_le _⟩

/-- An answer read off a run is read off the reached items, all of which could be
    transferred. -/
theorem collect_eq_ok {α : Type} {answer : List (Nat × F) → Result α} {x : α}
    (answered : ((run p none seeds).collect answer).result = .ok x) :
    ∃ calls, answer calls = .ok x ∧ (∀ item, item ∈ calls ↔ Reached p seeds item) ∧
      ∀ item, Reached p seeds item → ∃ flow, p.transfer item.1 item.2 = .ok flow := by
  obtain ⟨⟨stats, finished⟩, answered⟩ := answer_of_collect answered
  have verdict := (run_justified p seeds).verdict
  rw [finished] at verdict
  cases verdict with
  | complete exact inside transferred within =>
    exact ⟨_, answered, exact, fun item reached => transferred item ((exact item).mpr reached)⟩

end StackFlow.Worklist
