import StackFlow.Config

/-!
Queues that are filled at the back and emptied at either end. The items in front are
listed first to last, those behind last to first.
-/
namespace StackFlow

structure Deque (α : Type) where
  front : List α
  back : List α

namespace Deque

variable {α : Type}

def empty : Deque α := ⟨[], []⟩

/-- The items from the longest waiting to the latest. -/
def toList (q : Deque α) : List α := q.front ++ q.back.reverse

def push (q : Deque α) (x : α) : Deque α := ⟨q.front, x :: q.back⟩

def popFront (q : Deque α) : Option (α × Deque α) :=
  match q.front with
  | x :: rest => some (x, ⟨rest, q.back⟩)
  | [] =>
    match q.back.reverse with
    | x :: rest => some (x, ⟨rest, []⟩)
    | [] => none

def popBack (q : Deque α) : Option (α × Deque α) :=
  match q.back with
  | x :: rest => some (x, ⟨q.front, rest⟩)
  | [] =>
    match q.front.reverse with
    | x :: rest => some (x, ⟨[], rest⟩)
    | [] => none

/-- The next item in an order. -/
def pop (order : Order) (q : Deque α) : Option (α × Deque α) :=
  match order with
  | .fifo => q.popFront
  | .lifo => q.popBack

@[simp] theorem toList_empty : (empty : Deque α).toList = [] := rfl

@[simp] theorem toList_push (q : Deque α) (x : α) : (q.push x).toList = q.toList ++ [x] := by simp [toList, push]

theorem toList_of_popFront {q rest : Deque α} {x : α} (popped : q.popFront = some (x, rest)) :
    q.toList = x :: rest.toList := by
  unfold popFront at popped
  split at popped
  · rename_i front; cases popped; simp [toList, front]
  · rename_i front
    split at popped
    · rename_i back; cases popped; simp [toList, front, back]
    · cases popped

theorem toList_of_popBack {q rest : Deque α} {x : α} (popped : q.popBack = some (x, rest)) :
    q.toList = rest.toList ++ [x] := by
  unfold popBack at popped
  split at popped
  · rename_i back; cases popped; simp [toList, back]
  · rename_i back
    split at popped
    · rename_i y front shape
      cases popped
      simp [toList, back, List.reverse_eq_iff.mp shape]
    · cases popped

theorem pop_eq_none {order : Order} {q : Deque α} : q.pop order = none ↔ q.toList = [] := by
  rcases q with ⟨_ | ⟨x, front⟩, _ | ⟨y, back⟩⟩ <;> cases order <;>
    simp [pop, popFront, popBack, toList]
  all_goals (split <;> simp_all)

/-- Popping takes one item out. -/
theorem perm_of_pop {order : Order} {q rest : Deque α} {x : α} (popped : q.pop order = some (x, rest)) :
    q.toList.Perm (x :: rest.toList) := by
  cases order with
  | fifo => rw [toList_of_popFront popped]
  | lifo => rw [toList_of_popBack popped]; exact List.perm_append_singleton x rest.toList

end Deque

end StackFlow
