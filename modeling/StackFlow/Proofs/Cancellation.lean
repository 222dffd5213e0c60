import Mathlib
import StackFlow.Proofs.CheckedRuns

/-!
When and how a cancellation check cuts a run short. The check is asked at every
`interval`-th item taken from the queue, so after `n` items it has been asked
`n / interval` times (`Awaiting`). As long as it has not answered yes, the run does what
the run without a check does; at its first yes, the run ends with the items that had been
given to the transfer function by then (`Truncates`). A cancellation that a transfer
function asks for by itself is an error of the transfer like any other.
-/
namespace StackFlow.Worklist

namespace Check

/-- The number of the first question that is answered with yes; infinite if there is none. -/
noncomputable def firstYes (answer : Nat → Bool) : ℕ∞ := ⨅ (n : ℕ) (_ : 0 < n ∧ answer n = true), (n : ℕ∞)

variable {answer : Nat → Bool}

theorem firstYes_le {n : ℕ} (asked : 0 < n) (yes : answer n = true) : firstYes answer ≤ n := iInf₂_le n ⟨asked, yes⟩

theorem lt_firstYes_iff {n : ℕ} : (n : ℕ∞) < firstYes answer ↔ ∀ j, 0 < j → j ≤ n → answer j = false := by
  constructor
  · intro quiet j asked early
    by_contra other
    have yes : answer j = true := by simpa using other
    have small : (j : ℕ∞) ≤ n := by exact_mod_cast early
    exact absurd ((firstYes_le asked yes).trans small) (not_le.mpr quiet)
  · intro quiet
    have later : ((n + 1 : ℕ) : ℕ∞) ≤ firstYes answer := by
      refine le_iInf₂ fun j yes => ?_
      by_cases early : j ≤ n
      · rw [quiet j yes.1 early] at yes
        cases yes.2
      · have beyond : n + 1 ≤ j := by omega
        exact_mod_cast beyond
    exact lt_of_lt_of_le (by exact_mod_cast Nat.lt_succ_self n) later

/-- The question after those answered with no. -/
theorem firstYes_eq {n : ℕ} (quiet : (n : ℕ∞) < firstYes answer) (yes : answer (n + 1) = true) :
    firstYes answer = (n + 1 : ℕ) := by
  refine le_antisymm (firstYes_le (Nat.succ_pos n) yes) ?_
  have next := Order.add_one_le_of_lt quiet
  exact_mod_cast next

theorem firstYes_beq (n : ℕ) : firstYes (· == n + 1) = (n + 1 : ℕ) := by
  refine firstYes_eq (lt_firstYes_iff.mpr fun j _ early => ?_) (beq_self_eq_true (n + 1))
  have other : j ≠ n + 1 := by omega
  simpa using other

theorem quiet_succ {n : ℕ} (quiet : (n : ℕ∞) < firstYes answer) (no : answer (n + 1) = false) :
    ((n + 1 : ℕ) : ℕ∞) < firstYes answer := by
  rw [lt_firstYes_iff] at quiet ⊢
  intro j asked early
  by_cases last : j = n + 1
  · rw [last, no]
  · exact quiet j asked (by omega)

/-- A yes comes too late for a run if it answers none of the questions that the run asks. -/
theorem late_iff {interval n : ℕ} (positive : 0 < interval) :
    ((n / interval : ℕ) : ℕ∞) < firstYes answer ↔ ¬ firstYes answer * interval ≤ n := by
  rw [not_le]
  cases first : firstYes answer with
  | top =>
    have nonzero : (interval : ℕ∞) ≠ 0 := by exact_mod_cast positive.ne'
    rw [ENat.top_mul nonzero]
    exact iff_of_true (ENat.natCast_lt_top _) (ENat.natCast_lt_top _)
  | coe k => exact_mod_cast Nat.div_lt_iff_lt_mul positive

end Check

variable {F : Type} {answer : Nat → Bool}

/-- The check has been asked whenever it was due, and has not answered yes. Each item
    taken from the queue has been given to the transfer function. -/
structure Awaiting (interval : Nat) (answer : Nat → Bool) (l : Log F) : Prop where
  check : l.check = some ⟨answer, l.dequeued / interval⟩
  quiet : ((l.dequeued / interval : ℕ) : ℕ∞) < Check.firstYes answer
  counted : l.calls.toList.length = l.dequeued

/-- What a question that is due does. -/
theorem poll_due {interval asked : Nat} {l : Log F} (installed : l.check = some ⟨answer, asked⟩)
    (due : l.dequeued % max interval 1 = 0) :
    l.poll interval = .ok (answer (asked + 1), { l with check := some ⟨answer, asked + 1⟩ }) := by
  unfold Log.poll
  rw [remainder_of_pos (by omega), installed]
  simp only [due, bind, Except.bind, if_true]
  rfl

theorem poll_idle {interval : Nat} {l : Log F} (idle : l.dequeued % max interval 1 ≠ 0) : l.poll interval = .ok (false, l) := by
  unfold Log.poll
  rw [remainder_of_pos (by omega)]
  simp only [idle, bind, Except.bind, if_false]
  rfl

/-- The next item: the check answers yes for the first time, or is still awaited once the
    item has been given to the transfer function. -/
theorem Awaiting.poll_cases {interval : Nat} {l : Log F} (awaiting : Awaiting (max interval 1) answer l) :
    (∃ k asked, l.dequeue.poll interval = .ok (true, asked) ∧ Check.firstYes answer = (k : ℕ) ∧
      k * max interval 1 = l.dequeued + 1 ∧ polls asked.check = k) ∨
    ∃ asked, l.dequeue.poll interval = .ok (false, asked) ∧ asked.check = some ⟨answer, asked.dequeued / max interval 1⟩ ∧
      ((asked.dequeued / max interval 1 : ℕ) : ℕ∞) < Check.firstYes answer := by
  have positive : 0 < max interval 1 := by omega
  by_cases due : (l.dequeued + 1) % max interval 1 = 0
  · have next : (l.dequeued + 1) / max interval 1 = l.dequeued / max interval 1 + 1 :=
      Nat.succ_div_of_mod_eq_zero due
    have polled := poll_due (l := l.dequeue) awaiting.check due
    cases said : answer (l.dequeued / max interval 1 + 1) with
    | true =>
      rw [said] at polled
      refine .inl ⟨_, _, polled, Check.firstYes_eq awaiting.quiet said, ?_, rfl⟩
      rw [← next]
      exact Nat.div_mul_cancel (Nat.dvd_of_mod_eq_zero due)
    | false =>
      rw [said] at polled
      refine .inr ⟨_, polled, ?_, ?_⟩
      · change some _ = some (Check.mk answer ((l.dequeued + 1) / max interval 1))
        rw [next]
      · change (((l.dequeued + 1) / max interval 1 : ℕ) : ℕ∞) < _
        rw [next]
        exact Check.quiet_succ awaiting.quiet said
  · have same : (l.dequeued + 1) / max interval 1 = l.dequeued / max interval 1 :=
      Nat.succ_div_of_mod_ne_zero due
    refine .inr ⟨l.dequeue, poll_idle due, ?_, ?_⟩
    · change l.check = some (Check.mk answer ((l.dequeued + 1) / max interval 1))
      rw [same, awaiting.check]
    · change (((l.dequeued + 1) / max interval 1 : ℕ) : ℕ∞) < _
      rw [same]
      exact awaiting.quiet

/-- The outcome of a run with a check, beside that of the run without one. -/
inductive Truncates (interval : Nat) (answer : Nat → Bool) (o free : Outcome F) : Prop
  /-- The check has answered yes while there was an item to work off. -/
  | cut {k : ℕ} (first : Check.firstYes answer = k) (within : k * interval ≤ free.log.dequeued)
      (result : o.result = .error (.error .cancelled)) (front : o.log.calls.toList <+: free.log.calls.toList)
      (length : o.log.calls.toList.length = k * interval - 1) (asked : polls o.log.check = k)
  /-- The check has not answered yes to any of its questions. -/
  | whole (late : ((free.log.dequeued / interval : ℕ) : ℕ∞) < Check.firstYes answer) (result : o.result = free.result)
      (calls : o.log.calls = free.log.calls) (asked : polls o.log.check = free.log.dequeued / interval)

variable [DecidableEq F] [Hashable F] {p : Problem F} {seeds : List (Nat × F)}

theorem dequeued_le_loop {left : Nat} {a : Agenda F} {l : Log F} (unchecked : l.check = none) :
    l.dequeued ≤ (loop p left a l).log.dequeued := by
  have polled : l.dequeue.poll p.interval = .ok (false, l.dequeue) := poll_unchecked p.interval unchecked
  have later : l.dequeued ≤ l.dequeue.dequeued := Nat.le_succ _
  induction left generalizing a l with
  | zero =>
    cases popped : a.queue.pop p.order with
    | none => rw [loop_of_empty popped]
    | some taken =>
      rw [loop_zero popped polled]
      exact later
  | succ left ih =>
    cases popped : a.queue.pop p.order with
    | none => rw [loop_of_empty popped]
    | some taken =>
      rw [loop_succ popped polled]
      split
      · exact later
      · exact later.trans (ih (l := l.dequeue.call taken.1) unchecked (poll_unchecked p.interval unchecked) (Nat.le_succ _))

/-- Whatever comes of an item that is taken from the queue, it is counted. -/
theorem dequeued_lt_loop {left : Nat} {a : Agenda F} {l : Log F} {item : Nat × F} {rest : Deque (Nat × F)}
    (popped : a.queue.pop p.order = some (item, rest)) (unchecked : l.check = none) :
    l.dequeued < (loop p left a l).log.dequeued := by
  have polled : l.dequeue.poll p.interval = .ok (false, l.dequeue) := poll_unchecked p.interval unchecked
  cases left with
  | zero =>
    rw [loop_zero popped polled]
    exact Nat.lt_succ_self _
  | succ left =>
    rw [loop_succ popped polled]
    split
    · exact Nat.lt_succ_self _
    · exact dequeued_le_loop (l := l.dequeue.call item) unchecked

theorem Awaiting.truncates_of_empty {left : Nat} {a : Agenda F} {l : Log F} (awaiting : Awaiting (max p.interval 1) answer l)
    (popped : a.queue.pop p.order = none) :
    Truncates (max p.interval 1) answer (loop p left a l) (loop p left a l.unchecked) := by
  rw [loop_of_empty popped, loop_of_empty popped]
  exact .whole awaiting.quiet rfl rfl (by rw [awaiting.check]; rfl)

theorem Awaiting.truncates_of_yes {left k : Nat} {a : Agenda F} {l asked : Log F} {item : Nat × F} {rest : Deque (Nat × F)}
    (awaiting : Awaiting (max p.interval 1) answer l) (popped : a.queue.pop p.order = some (item, rest))
    (polled : l.dequeue.poll p.interval = .ok (true, asked)) (first : Check.firstYes answer = k)
    (due : k * max p.interval 1 = l.dequeued + 1) (number : polls asked.check = k) :
    Truncates (max p.interval 1) answer (loop p left a l) (loop p left a l.unchecked) := by
  have kept : l.unchecked.calls.toList <+: (loop p left a l.unchecked).log.calls.toList := (log_of_loop rfl).1
  have counted : l.unchecked.dequeued < (loop p left a l.unchecked).log.dequeued := dequeued_lt_loop popped rfl
  rw [loop_cancelled popped polled]
  refine .cut first (due ▸ counted) rfl ?_ ?_ number
  · rw [calls_of_poll polled]
    exact kept
  · rw [calls_of_poll polled, awaiting.counted]
    omega

theorem Awaiting.loop_truncates {left : Nat} {a : Agenda F} {l : Log F} (awaiting : Awaiting (max p.interval 1) answer l) :
    Truncates (max p.interval 1) answer (loop p left a l) (loop p left a l.unchecked) := by
  induction left generalizing a l with
  | zero =>
    cases popped : a.queue.pop p.order with
    | none => exact awaiting.truncates_of_empty popped
    | some taken =>
      rcases awaiting.poll_cases with ⟨k, asked, polled, first, due, number⟩ | ⟨asked, polled, check, quiet⟩
      · exact awaiting.truncates_of_yes popped polled first due number
      · have free : l.unchecked.dequeue.poll p.interval = .ok (false, l.unchecked.dequeue) := poll_unchecked p.interval rfl
        have same : asked.unchecked = l.unchecked.dequeue := poll_eq_ok polled
        rw [loop_zero popped polled, loop_zero popped free, ← same]
        exact .whole quiet rfl rfl (by rw [check]; rfl)
  | succ left ih =>
    cases popped : a.queue.pop p.order with
    | none => exact awaiting.truncates_of_empty popped
    | some taken =>
      obtain ⟨item, rest⟩ := taken
      rcases awaiting.poll_cases with ⟨k, asked, polled, first, due, number⟩ | ⟨asked, polled, check, quiet⟩
      · exact awaiting.truncates_of_yes popped polled first due number
      · have free : l.unchecked.dequeue.poll p.interval = .ok (false, l.unchecked.dequeue) := poll_unchecked p.interval rfl
        have same : (asked.call item).unchecked = l.unchecked.dequeue.call item :=
          congrArg (Log.call · item) (poll_eq_ok polled)
        rw [loop_succ popped polled, loop_succ popped free, ← same]
        split
        · exact .whole quiet rfl rfl (by change polls asked.check = _; rw [check]; rfl)
        · refine ih ⟨check, quiet, ?_⟩
          have calls : (asked.call item).calls.toList = l.calls.toList ++ [item] := by
            rw [← calls_of_poll polled]
            exact Array.toList_push
          have dequeued : asked.dequeued = l.dequeued + 1 := congrArg Log.dequeued (poll_eq_ok polled)
          rw [calls, List.length_append, awaiting.counted]
          exact dequeued.symm

theorem run_truncates (p : Problem F) (seeds : List (Nat × F)) (answer : Nat → Bool) :
    Truncates (max p.interval 1) answer (run p (some (Check.start answer)) seeds) (run p none seeds) := by
  have nothing : 0 / max p.interval 1 = 0 := Nat.zero_div _
  have quiet : ((0 / max p.interval 1 : ℕ) : ℕ∞) < Check.firstYes answer := by
    rw [nothing]
    exact Check.lt_firstYes_iff.mpr fun j asked early => by omega
  unfold run
  cases Agenda.empty.enqueueAll p.graph.nodeCount seeds with
  | error e => exact .whole quiet rfl rfl nothing.symm
  | ok a =>
    refine Awaiting.loop_truncates (l := Log.start (some (Check.start answer))) ⟨?_, quiet, rfl⟩
    change some (Check.start answer) = some ⟨answer, 0 / max p.interval 1⟩
    rw [nothing]
    rfl

/-- A check only cuts a run short. Let it answer yes first to its `k`-th question, and let
    the run without it take `n` items from the queue, one at which it fails included. If
    the question falls on one of these items, the run is cancelled there, with all items
    before given to the transfer function as in the run without the check. Otherwise
    nothing changes, and the check is asked at every `interval`-th item. So the answer is a
    cancellation if the check cuts the run short, or if the run without it ends so. -/
theorem run_truncated (p : Problem F) (seeds : List (Nat × F)) (answer : Nat → Bool) :
    let interval := max p.interval 1
    let k := Check.firstYes answer
    let free := run p none seeds
    let n := free.log.dequeued
    let o := run p (some (Check.start answer)) seeds
    (o.result = .error (.error .cancelled) ↔ k * interval ≤ n ∨ free.result = .error (.error .cancelled)) ∧
    (k * interval ≤ n → o.result = .error (.error .cancelled) ∧
      o.log.calls.toList = free.log.calls.toList.take (k.toNat * interval - 1) ∧
      o.log.calls.size = k.toNat * interval - 1 ∧ polls o.log.check = k) ∧
    (¬ k * interval ≤ n → o.result = free.result ∧ o.log.calls = free.log.calls ∧ polls o.log.check = n / interval) := by
  intro interval k free n o
  have late : ((n / interval : ℕ) : ℕ∞) < k ↔ ¬ k * interval ≤ n := Check.late_iff (by omega)
  cases run_truncates p seeds answer with
  | @cut m first within result front length asked =>
    have early : k * interval ≤ n := by
      change Check.firstYes answer * _ ≤ _
      rw [first]
      exact_mod_cast within
    refine ⟨iff_of_true result (.inl early), fun _ => ⟨result, ?_, ?_, ?_⟩, fun other => absurd early other⟩
    · change _ = List.take ((Check.firstYes answer).toNat * interval - 1) _
      rw [first, ENat.toNat_natCast, ← length]
      exact List.prefix_iff_eq_take.mp front
    · change _ = (Check.firstYes answer).toNat * interval - 1
      rw [first, ENat.toNat_natCast, ← length, Array.length_toList]
    · change _ = Check.firstYes answer
      rw [first, asked]
  | whole quiet result calls asked =>
    have missed : ¬ k * interval ≤ n := late.mp quiet
    refine ⟨?_, fun early => absurd early missed, fun _ => ⟨result, calls, asked⟩⟩
    rw [show o.result = free.result from result]
    exact ⟨.inr, fun either => either.resolve_left missed⟩

/-- Four nodes in a row, the last of which calls the run off by itself. The check is asked
    at every second item. -/
def relay : Problem Nat :=
  Problem.ofConfig (Digraph.ofEdges 4 [(0, 1), (1, 2), (2, 3)]) .forward { Config.standard with pollInterval := 2 }
    fun node fact => if node = 3 then .error (.error .cancelled) else .ok (.continue fact)

theorem relay_free :
    (run relay none [(0, 7)]).log.dequeued = 4 ∧
      (run relay none [(0, 7)]).log.calls.toList = [(0, 7), (1, 7), (2, 7), (3, 7)] := by
  refine ⟨by cbv, by cbv⟩

/-- A run can be called off although its check never answers yes. -/
theorem cancelled_without_yes :
    ¬ ((run relay (some (Check.start fun _ => false)) [(0, 7)]).result = .error (.error .cancelled) ↔
      Check.firstYes (fun _ => false) * (max relay.interval 1 : ℕ) ≤ (run relay none [(0, 7)]).log.dequeued) := by
  have ended : (run relay (some (Check.start fun _ => false)) [(0, 7)]).result = .error (.error .cancelled) := by cbv
  intro agree
  exact (Check.late_iff (by decide)).mp (Check.lt_firstYes_iff.mpr fun _ _ _ => rfl) (agree.mp ended)

/-- The second question falls on the last item, which is then not given to the transfer
    function; a third question is not asked. -/
theorem run_truncated_relay :
    ((run relay (some (Check.start (· == 2))) [(0, 7)]).log.calls.toList = [(0, 7), (1, 7), (2, 7)] ∧
      polls (run relay (some (Check.start (· == 2))) [(0, 7)]).log.check = 2) ∧
    (run relay (some (Check.start (· == 3))) [(0, 7)]).log.calls.toList = [(0, 7), (1, 7), (2, 7), (3, 7)] ∧
      polls (run relay (some (Check.start (· == 3))) [(0, 7)]).log.check = 2 := by
  obtain ⟨taken, calls⟩ := relay_free
  obtain ⟨_, cut, _⟩ := run_truncated relay [(0, 7)] (· == 2)
  obtain ⟨_, _, whole⟩ := run_truncated relay [(0, 7)] (· == 3)
  rw [taken, calls, Check.firstYes_beq 1] at cut
  rw [taken, Check.firstYes_beq 2] at whole
  obtain ⟨_, front, _, asked⟩ := cut (by decide)
  obtain ⟨_, all, asked'⟩ := whole (by decide)
  refine ⟨⟨front, by exact_mod_cast asked⟩, ?_, asked'⟩
  rw [all, calls]

end StackFlow.Worklist
