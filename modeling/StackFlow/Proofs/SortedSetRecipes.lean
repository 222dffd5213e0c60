import Mathlib
import StackFlow.SortedSet

/-!
Sorted sets as finite sets of numbers. A recipe tells by which calls a sorted set comes
about, those on its operands included. Each call keeps the values in ascending order,
which the searches of the next call rely on, and does to the values what the operation
on sets does (`members_make`). Since a set has one ascending list only, sets are equal
if they have the same members.
-/
namespace StackFlow.SortedSet

/-- The numbers of a sorted set. -/
def members (s : SortedSet) : Finset Nat := s.values.toFinset

@[simp] theorem mem_members {s : SortedSet} {x : Nat} : x ∈ s.members ↔ x ∈ s.values := List.mem_toFinset

theorem members_ofList (values : List Nat) : (ofList values).members = values.toFinset := by
  ext x
  rw [mem_members, mem_ofList, List.mem_toFinset]

theorem members_insert (s : SortedSet) (x : Nat) : (s.insert x).1.members = s.members ∪ {x} := by
  ext z
  rw [mem_members, mem_insert, Finset.mem_union, Finset.mem_singleton, mem_members, or_comm]

theorem members_erase (s : SortedSet) (x : Nat) : (s.erase x).1.members = s.members \ {x} := by
  ext z
  rw [mem_members, mem_erase, Finset.mem_sdiff, Finset.mem_singleton, mem_members, and_comm]

theorem members_union (s t : SortedSet) : (s.union t).members = s.members ∪ t.members := by
  ext z
  rw [mem_members, mem_union, Finset.mem_union, mem_members, mem_members]

theorem eq_iff_members {s t : SortedSet} : s = t ↔ s.members = t.members := by
  refine ⟨congrArg members, fun same => ext fun x => ?_⟩
  rw [← mem_members, ← mem_members, same]

theorem missing_le {values : List Nat} {x i j : Nat} (first : (Spot.missing i).Right values x)
    (second : (Spot.missing j).Right values x) : i ≤ j := by
  obtain ⟨inside, before, _⟩ := first
  obtain ⟨_, _, behind⟩ := second
  apply Nat.le_of_not_lt
  intro earlier
  -- The entry at `j` would have to be smaller than `x`, and greater as well.
  have bound : j < values.length := Nat.lt_of_lt_of_le earlier inside
  have smaller : values[j] < x := before _ (List.mem_take_iff_getElem.mpr ⟨j, by omega, rfl⟩)
  have greater : x < values[j] := behind _ (by rw [List.drop_eq_getElem_cons bound]; exact List.mem_cons_self)
  exact Nat.lt_asymm smaller greater

/-- In an ascending list there is only one right spot for a number, so it does not matter how
    the search goes about finding it. -/
theorem right_iff {values : List Nat} (ascending : values.Pairwise (· < ·)) (x : Nat) (spot : Spot) :
    spot.Right values x ↔ spot = search values x := by
  refine ⟨fun right => ?_, fun same => same ▸ search_right ascending x⟩
  rcases search_cases ascending x with ⟨i, found, here⟩ | ⟨i, missing, searched, absent⟩
  · rw [found]
    cases spot with
    | found j =>
      obtain ⟨bound, _⟩ := List.getElem?_eq_some_iff.mp right
      rw [(List.getElem?_inj bound (ascending.imp Nat.ne_of_lt)).mp (right.trans here.symm)]
    | missing j => exact absurd (List.mem_of_getElem? here) (not_mem_of_missing right)
  · rw [missing]
    cases spot with
    | found j => exact absurd (List.mem_of_getElem? right) absent
    | missing j => rw [Nat.le_antisymm (missing_le right searched) (missing_le searched right)]

/-- How a sorted set comes about: from nothing, from a list, or by a call on sets that have
    come about before. -/
inductive Recipe where
  | empty
  | ofList (values : List Nat)
  | insert (r : Recipe) (x : Nat)
  | erase (r : Recipe) (x : Nat)
  | union (r q : Recipe)

namespace Recipe

/-- Makes the calls. -/
def make : Recipe → SortedSet
  | empty => SortedSet.empty
  | ofList values => SortedSet.ofList values
  | insert r x => (r.make.insert x).1
  | erase r x => (r.make.erase x).1
  | union r q => r.make.union q.make

/-- The set of numbers that the calls are to make. -/
def meaning : Recipe → Finset Nat
  | empty => ∅
  | ofList values => values.toFinset
  | insert r x => r.meaning ∪ {x}
  | erase r x => r.meaning \ {x}
  | union r q => r.meaning ∪ q.meaning

theorem members_make (r : Recipe) : r.make.members = r.meaning := by
  induction r with
  | empty => rfl
  | ofList values => exact members_ofList values
  | insert r x ih => rw [make, members_insert, ih, meaning]
  | erase r x ih => rw [make, members_erase, ih, meaning]
  | union r q ihr ihq => rw [make, members_union, ihr, ihq, meaning]

end Recipe

/-- Whatever calls have made it, a sorted set lists in ascending order the numbers that these
    calls mean. A search in it has one right answer only, and every further call acts on it as
    the operation on sets. -/
theorem ordered_refines (r : Recipe) :
    r.make.values.Pairwise (· < ·) ∧ r.make.members = r.meaning ∧
    (∀ x (spot : Spot), spot.Right r.make.values x ↔ spot = search r.make.values x) ∧
    (∀ x, (r.make.insert x).1.members = r.meaning ∪ {x} ∧ ((r.make.insert x).2 = true ↔ x ∉ r.meaning)) ∧
    (∀ x, (r.make.erase x).1.members = r.meaning \ {x} ∧ ((r.make.erase x).2 = true ↔ x ∈ r.meaning)) ∧
    (∀ x, r.make.contains x = true ↔ x ∈ r.meaning) ∧
    ∀ q : Recipe, (r.make.union q.make).members = r.meaning ∪ q.meaning ∧
      ((r.make == q.make) = true ↔ r.meaning = q.meaning) := by
  have meant := r.members_make
  have listed : ∀ x, x ∈ r.meaning ↔ x ∈ r.make.values := fun x => by rw [← meant, mem_members]
  refine ⟨r.make.ascending, meant, right_iff r.make.ascending, fun x => ?_, fun x => ?_, fun x => ?_, fun q => ?_⟩
  · rw [members_insert, meant, insert_fresh, listed]
    exact ⟨rfl, Iff.rfl⟩
  · rw [members_erase, meant, erase_present, listed]
    exact ⟨rfl, Iff.rfl⟩
  · rw [contains_iff, listed]
  · rw [members_union, beq_iff_eq, eq_iff_members, meant, q.members_make]
    exact ⟨rfl, Iff.rfl⟩

/-- A list with a repetition and a set from which a number is taken out again; 4 is in both. -/
def interleaved : Recipe := .union (.ofList [9, 1, 4, 1]) (.erase (.insert (.insert .empty 10) 4) 10)

theorem ordered_refines_interleaved :
    interleaved.make.values = [1, 4, 9] ∧ (interleaved.make.insert 4).2 = false ∧ (interleaved.make.erase 9).2 = true ∧
      (interleaved.make == Recipe.make (.ofList [4, 9, 1])) = true := by
  have meaning : interleaved.meaning = {1, 4, 9} := by decide
  obtain ⟨_, _, _, inserts, erases, _, others⟩ := ordered_refines interleaved
  refine ⟨by cbv, ?_, ?_, ?_⟩
  · rw [← Bool.not_eq_true, (inserts 4).2, meaning]
    decide
  · rw [(erases 9).2, meaning]
    decide
  · rw [(others (.ofList [4, 9, 1])).2, meaning]
    decide

end StackFlow.SortedSet
