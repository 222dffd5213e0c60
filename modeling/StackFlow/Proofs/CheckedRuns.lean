import StackFlow.Proofs.Propagation

/-!
Runs with a cancellation check. Asking the check changes nothing but the check itself
(`poll_eq_ok`), so a run with whatever check is cancelled on its way, or does what the
run without one does (`run_follows`), and answers the same (`collect_follows`).
-/
namespace StackFlow.Worklist

variable {F : Type}

/-- The log as it would be without a check. -/
def Log.unchecked (l : Log F) : Log F := { l with check := none }

theorem poll_eq_ok {interval : Nat} {l l' : Log F} {cancelled : Bool} (polled : l.poll interval = .ok (cancelled, l')) :
    l'.unchecked = l.unchecked := by
  obtain ⟨left, _, polled⟩ := bind_eq_ok.mp polled
  by_cases due : left = 0
  · rw [if_pos due] at polled
    cases asked : l.check with
    | none =>
      rw [asked] at polled
      cases polled
      rfl
    | some check =>
      rw [asked] at polled
      cases polled
      rfl
  · rw [if_neg due] at polled
    cases polled
    rfl

theorem calls_of_poll {interval : Nat} {l asked : Log F} {cancelled : Bool}
    (polled : l.dequeue.poll interval = .ok (cancelled, asked)) : asked.calls = l.calls := by
  have same : asked.unchecked.calls = l.dequeue.unchecked.calls := congrArg Log.calls (poll_eq_ok polled)
  exact same

/-- The check can always be asked: the interval between two questions is never zero. -/
theorem poll_total (interval : Nat) (l : Log F) : ∃ cancelled asked, l.poll interval = .ok (cancelled, asked) := by
  unfold Log.poll
  rw [remainder_of_pos (by omega)]
  by_cases due : l.dequeued % max interval 1 = 0
  · cases asked : l.check with
    | none => exact ⟨false, l, by simp only [due, bind, Except.bind]; rfl⟩
    | some check => exact ⟨_, _, by simp only [due, bind, Except.bind]; rfl⟩
  · exact ⟨false, l, by simp only [due, bind, Except.bind]; rfl⟩

variable [DecidableEq F] [Hashable F] {p : Problem F} {seeds : List (Nat × F)}

/-- The outcome of a run with a check, beside that of the run without one: it has been
    cancelled on the way, or the check has changed nothing. -/
def Follows (o free : Outcome F) : Prop :=
  o.result = .error (.error .cancelled) ∧ o.log.calls.toList <+: free.log.calls.toList ∨
    o.result = free.result ∧ o.log.calls = free.log.calls

theorem loop_cancelled {left : Nat} {a : Agenda F} {l asked : Log F} {item : Nat × F} {rest : Deque (Nat × F)}
    (popped : a.queue.pop p.order = some (item, rest)) (polled : l.dequeue.poll p.interval = .ok (true, asked)) :
    loop p left a l = ⟨.error (.error .cancelled), asked⟩ := by
  unfold loop
  rw [popped, polled]

/-- A loop without a check makes none up, and keeps in its log what has been given to the
    transfer function. -/
theorem log_of_loop {left : Nat} {a : Agenda F} {l : Log F} (unchecked : l.check = none) :
    l.calls.toList <+: (loop p left a l).log.calls.toList ∧ (loop p left a l).log.check = none := by
  have polled : l.dequeue.poll p.interval = .ok (false, l.dequeue) := poll_unchecked p.interval unchecked
  induction left generalizing a l with
  | zero =>
    cases popped : a.queue.pop p.order with
    | none =>
      rw [loop_of_empty popped]
      exact ⟨List.prefix_rfl, unchecked⟩
    | some taken =>
      rw [loop_zero popped polled]
      exact ⟨List.prefix_rfl, unchecked⟩
  | succ left ih =>
    cases popped : a.queue.pop p.order with
    | none =>
      rw [loop_of_empty popped]
      exact ⟨List.prefix_rfl, unchecked⟩
    | some taken =>
      obtain ⟨item, rest⟩ := taken
      have noted : l.calls.toList <+: (l.dequeue.call item).calls.toList := ⟨[item], Array.toList_push.symm⟩
      rw [loop_succ popped polled]
      split
      · exact ⟨noted, unchecked⟩
      · obtain ⟨later, free⟩ := ih (l := l.dequeue.call item) unchecked (poll_unchecked p.interval unchecked)
        exact ⟨noted.trans later, free⟩

theorem check_of_run (p : Problem F) (seeds : List (Nat × F)) : (run p none seeds).log.check = none := by
  unfold run
  cases Agenda.empty.enqueueAll p.graph.nodeCount seeds with
  | error e => rfl
  | ok a => exact (log_of_loop rfl).2

theorem follows_of_empty {left : Nat} {a : Agenda F} (l : Log F) (popped : a.queue.pop p.order = none) :
    Follows (loop p left a l) (loop p left a l.unchecked) := by
  rw [loop_of_empty popped, loop_of_empty popped]
  exact .inr ⟨rfl, rfl⟩

theorem follows_of_cancelled {left : Nat} {a : Agenda F} {l asked : Log F} {item : Nat × F} {rest : Deque (Nat × F)}
    (popped : a.queue.pop p.order = some (item, rest)) (polled : l.dequeue.poll p.interval = .ok (true, asked)) :
    Follows (loop p left a l) (loop p left a l.unchecked) := by
  have kept : l.unchecked.calls.toList <+: (loop p left a l.unchecked).log.calls.toList := (log_of_loop rfl).1
  rw [loop_cancelled popped polled]
  refine .inl ⟨rfl, ?_⟩
  rw [calls_of_poll polled]
  exact kept

theorem loop_follows (left : Nat) (a : Agenda F) (l : Log F) : Follows (loop p left a l) (loop p left a l.unchecked) := by
  have free : l.unchecked.dequeue.poll p.interval = .ok (false, l.unchecked.dequeue) := poll_unchecked p.interval rfl
  induction left generalizing a l with
  | zero =>
    cases popped : a.queue.pop p.order with
    | none => exact follows_of_empty l popped
    | some taken =>
      obtain ⟨cancelled, asked, polled⟩ := poll_total p.interval l.dequeue
      cases cancelled with
      | true => exact follows_of_cancelled popped polled
      | false =>
        have same : asked.calls = l.calls := calls_of_poll polled
        rw [loop_zero popped polled, loop_zero popped free]
        exact .inr ⟨rfl, same⟩
  | succ left ih =>
    cases popped : a.queue.pop p.order with
    | none => exact follows_of_empty l popped
    | some taken =>
      obtain ⟨item, rest⟩ := taken
      obtain ⟨cancelled, asked, polled⟩ := poll_total p.interval l.dequeue
      cases cancelled with
      | true => exact follows_of_cancelled popped polled
      | false =>
        have same : (asked.call item).unchecked = l.unchecked.dequeue.call item :=
          congrArg (Log.call · item) (poll_eq_ok polled)
        rw [loop_succ popped polled, loop_succ popped free, ← same]
        split
        · exact .inr ⟨rfl, rfl⟩
        · exact ih _ _ (poll_unchecked p.interval rfl)

theorem run_follows (p : Problem F) (check : Option Check) (seeds : List (Nat × F)) :
    Follows (run p check seeds) (run p none seeds) := by
  unfold run
  cases Agenda.empty.enqueueAll p.graph.nodeCount seeds with
  | error e => exact .inr ⟨rfl, rfl⟩
  | ok a => exact loop_follows p.cap a (Log.start check)

/-- With any check, an answer is the one found without a check, unless the run is
    cancelled. -/
theorem collect_follows {α : Type} (p : Problem F) (check : Option Check) (seeds : List (Nat × F))
    (answer : List (Nat × F) → Result α) :
    check ≠ none ∧ ((run p check seeds).collect answer).result = .error (.error .cancelled) ∨
      ((run p check seeds).collect answer).result = ((run p none seeds).collect answer).result := by
  by_cases free : check = none
  · rw [free]
    exact .inr rfl
  unfold Outcome.collect
  rcases run_follows p check seeds with ⟨cancelled, _⟩ | ⟨same, calls⟩
  · rw [cancelled]
    exact .inl ⟨free, rfl⟩
  · rw [same, calls]
    right
    split <;> rfl

theorem collect_unchecked {α : Type} {check : Option Check} {answer : List (Nat × F) → Result α} {x : α}
    (answered : ((run p check seeds).collect answer).result = .ok x) :
    ((run p none seeds).collect answer).result = .ok x := by
  rcases collect_follows p check seeds answer with ⟨_, cancelled⟩ | same
  · cases cancelled.symm.trans answered
  · exact same.symm.trans answered

end StackFlow.Worklist
