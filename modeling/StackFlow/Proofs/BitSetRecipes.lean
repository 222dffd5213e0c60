import Mathlib
import StackFlow.Proofs.Sequencing

/-!
Bit sets as finite sets of numbers. A recipe tells by which calls a bit set comes about,
those on its operands included. If every number is below the capacity and sets that meet
have one capacity, no call of a recipe fails, and each does to the words what the
operation on sets does to the numbers (`make_eq_ok`): a word holds just the bits of the
set that the recipe means, and none above the capacity. So equality of the words is
equality of the sets.
-/
namespace StackFlow.BitSet

/-- The numbers of a bit set. -/
def members (s : BitSet) : Finset Nat := (Finset.range s.capacity).filter fun i => s.contains i = true

@[simp] theorem mem_members {s : BitSet} {i : Nat} : i ∈ s.members ↔ s.contains i = true := by
  rw [members, Finset.mem_filter, Finset.mem_range]
  exact ⟨And.right, fun member => ⟨lt_of_contains member, member⟩⟩

theorem eq_of_members {s t : BitSet} (capacities : s.capacity = t.capacity) (same : s.members = t.members) : s = t := by
  refine ext capacities fun i => Bool.eq_iff_iff.mpr ?_
  rw [← mem_members, ← mem_members, same]

/-- The words of two sets differ just if the sets do. -/
theorem words_changed {s t : BitSet} (capacities : s.capacity = t.capacity) :
    (s.words != t.words) = decide (s.members ≠ t.members) := by
  rw [Bool.eq_iff_iff, bne_iff_ne, decide_eq_true_eq, not_iff_not]
  constructor
  · intro words
    ext i
    rw [mem_members, mem_members, contains, contains, words]
  · intro same
    rw [eq_of_members capacities same]

theorem members_put (s : BitSet) (i : Nat) (inside : i < s.capacity) : (s.put i inside).members = s.members ∪ {i} := by
  ext j
  rw [mem_members, contains_put, Bool.or_eq_true, decide_eq_true_eq, Finset.mem_union, Finset.mem_singleton, mem_members,
    @eq_comm _ i j]

theorem members_drop (s : BitSet) (i : Nat) (inside : i < s.capacity) : (s.drop i inside).members = s.members \ {i} := by
  ext j
  rw [mem_members, contains_drop, Bool.and_eq_true, Bool.not_eq_true', decide_eq_false_iff_not, Finset.mem_sdiff,
    Finset.mem_singleton, mem_members, @eq_comm _ i j]

theorem members_join (s t : BitSet) (same : s.capacity = t.capacity) :
    (s.join t same).members = s.members ∪ t.members := by
  ext i
  rw [mem_members, contains_join, Bool.or_eq_true, Finset.mem_union, mem_members, mem_members]

theorem members_minus (s t : BitSet) (same : s.capacity = t.capacity) :
    (s.minus t same).members = s.members \ t.members := by
  ext i
  rw [mem_members, contains_minus, Bool.and_eq_true, Bool.not_eq_true', ← Bool.not_eq_true, Finset.mem_sdiff, mem_members,
    mem_members]

theorem members_empty (capacity : Nat) : (empty capacity).members = ∅ := by
  ext i
  simp

theorem toFinset_toList (s : BitSet) : s.toList.toFinset = s.members := by
  ext i
  rw [List.mem_toFinset, mem_toList, mem_members]

/-- A bit set is a set of numbers below its capacity: what the calls do to it, and what they
    answer. -/
structure ActsAsSet (s : BitSet) : Prop where
  insert : ∀ i < s.capacity, ∃ t, s.insert i = .ok (t, decide (i ∉ s.members)) ∧ t.capacity = s.capacity ∧
    t.members = s.members ∪ {i}
  erase : ∀ i < s.capacity, ∃ t, s.erase i = .ok t ∧ t.capacity = s.capacity ∧ t.members = s.members \ {i}
  clear : s.clear.capacity = s.capacity ∧ s.clear.members = ∅
  union : ∀ t : BitSet, s.capacity = t.capacity → ∃ u, s.union t = .ok (u, decide (u.members ≠ s.members)) ∧
    u.capacity = s.capacity ∧ u.members = s.members ∪ t.members
  difference : ∀ t : BitSet, s.capacity = t.capacity → ∃ u, s.difference t = .ok (u, decide (u.members ≠ s.members)) ∧
    u.capacity = s.capacity ∧ u.members = s.members \ t.members
  subset : ∀ t : BitSet, s.capacity = t.capacity → s.subset t = .ok (decide (s.members ⊆ t.members))
  isEmpty : s.isEmpty = decide (s.members = ∅)
  count : s.count = s.members.card
  iterated : s.Yields s.start s.toList
  ascending : s.toList.Pairwise (· < ·)
  listed : s.toList.toFinset = s.members
  equal : ∀ t : BitSet, (s == t) = decide (s.capacity = t.capacity ∧ s.members = t.members)

theorem actsAsSet (s : BitSet) : ActsAsSet s where
  insert i inside := by
    refine ⟨s.put i inside, ?_, rfl, s.members_put i inside⟩
    rw [insert_of_lt inside]
    cases member : s.contains i <;> simp [member]
  erase i inside := ⟨s.drop i inside, erase_of_lt inside, rfl, s.members_drop i inside⟩
  clear := ⟨rfl, members_empty s.capacity⟩
  union t same := by
    refine ⟨s.join t same, ?_, rfl, s.members_join t same⟩
    rw [union_of_eq same, words_changed (s.capacity_join t same)]
  difference t same := by
    refine ⟨s.minus t same, ?_, rfl, s.members_minus t same⟩
    rw [difference_of_eq same, words_changed (s.capacity_minus t same)]
  subset t same := by
    obtain ⟨included, run, holds⟩ := subset_of_eq same
    rw [run, Except.ok.injEq, Bool.eq_iff_iff, holds, decide_eq_true_eq, Finset.subset_iff]
    simp
  isEmpty := by
    rw [Bool.eq_iff_iff, isEmpty_iff, decide_eq_true_eq, Finset.eq_empty_iff_forall_notMem]
    simp
  count := by
    have distinct : s.toList.Nodup := s.toList_ascending.imp Nat.ne_of_lt
    rw [← length_toList, ← toFinset_toList, List.toFinset_card_of_nodup distinct]
  iterated := s.yields_upcoming s.start
  ascending := s.toList_ascending
  listed := s.toFinset_toList
  equal t := by
    rw [Bool.eq_iff_iff, beq_iff_eq, decide_eq_true_eq]
    constructor
    · rintro rfl
      exact ⟨rfl, rfl⟩
    · rintro ⟨capacities, same⟩
      exact eq_of_members capacities same

/-- How a bit set comes about: from nothing, from a list, or by a call on sets that have
    come about before. -/
inductive Recipe where
  | empty (capacity : Nat)
  | ofIndices (capacity : Nat) (indices : List Nat)
  | insert (r : Recipe) (i : Nat)
  | erase (r : Recipe) (i : Nat)
  | clear (r : Recipe)
  | union (r q : Recipe)
  | difference (r q : Recipe)

namespace Recipe

def capacity : Recipe → Nat
  | empty n => n
  | ofIndices n _ => n
  | insert r _ => r.capacity
  | erase r _ => r.capacity
  | clear r => r.capacity
  | union r _ => r.capacity
  | difference r _ => r.capacity

/-- Every number is below the capacity, and sets that meet have one capacity. -/
def Fits : Recipe → Prop
  | empty _ => True
  | ofIndices n indices => ∀ i ∈ indices, i < n
  | insert r i => r.Fits ∧ i < r.capacity
  | erase r i => r.Fits ∧ i < r.capacity
  | clear r => r.Fits
  | union r q => r.Fits ∧ q.Fits ∧ r.capacity = q.capacity
  | difference r q => r.Fits ∧ q.Fits ∧ r.capacity = q.capacity

/-- Makes the calls. -/
def make : Recipe → Result BitSet
  | empty n => .ok (BitSet.empty n)
  | ofIndices n indices => BitSet.ofIndices n indices
  | insert r i => do return (← (← r.make).insert i).1
  | erase r i => do (← r.make).erase i
  | clear r => do return (← r.make).clear
  | union r q => do return (← (← r.make).union (← q.make)).1
  | difference r q => do return (← (← r.make).difference (← q.make)).1

/-- The set of numbers that the calls are to make. -/
def meaning : Recipe → Finset Nat
  | empty _ => ∅
  | ofIndices _ indices => indices.toFinset
  | insert r i => r.meaning ∪ {i}
  | erase r i => r.meaning \ {i}
  | clear _ => ∅
  | union r q => r.meaning ∪ q.meaning
  | difference r q => r.meaning \ q.meaning

/-- A recipe that fits makes a bit set with the numbers that it means. -/
theorem make_eq_ok {r : Recipe} (fits : r.Fits) :
    ∃ s, r.make = .ok s ∧ s.capacity = r.capacity ∧ s.members = r.meaning := by
  induction r with
  | empty n => exact ⟨BitSet.empty n, rfl, rfl, members_empty n⟩
  | ofIndices n indices =>
    obtain ⟨s, made, sized, listed⟩ := ofIndices_of_lt fits
    refine ⟨s, made, sized, ?_⟩
    ext i
    rw [mem_members, listed, meaning, List.mem_toFinset]
  | insert r i ih =>
    obtain ⟨s, made, sized, meant⟩ := ih fits.1
    obtain ⟨t, inserted, kept, grown⟩ := s.actsAsSet.insert i (sized ▸ fits.2)
    refine ⟨t, bind_eq_ok.mpr ⟨s, made, bind_eq_ok.mpr ⟨_, inserted, rfl⟩⟩, kept.trans sized, ?_⟩
    rw [grown, meant, meaning]
  | erase r i ih =>
    obtain ⟨s, made, sized, meant⟩ := ih fits.1
    obtain ⟨t, erased, kept, shrunk⟩ := s.actsAsSet.erase i (sized ▸ fits.2)
    refine ⟨t, bind_eq_ok.mpr ⟨s, made, erased⟩, kept.trans sized, ?_⟩
    rw [shrunk, meant, meaning]
  | clear r ih =>
    obtain ⟨s, made, sized, _⟩ := ih fits
    exact ⟨s.clear, bind_eq_ok.mpr ⟨s, made, rfl⟩, sized, s.actsAsSet.clear.2⟩
  | union r q ihr ihq =>
    obtain ⟨s, made, sized, meant⟩ := ihr fits.1
    obtain ⟨t, made', sized', meant'⟩ := ihq fits.2.1
    obtain ⟨u, united, kept, both⟩ := s.actsAsSet.union t (by rw [sized, sized', fits.2.2])
    refine ⟨u, bind_eq_ok.mpr ⟨s, made, bind_eq_ok.mpr ⟨t, made', bind_eq_ok.mpr ⟨_, united, rfl⟩⟩⟩, kept.trans sized, ?_⟩
    rw [both, meant, meant', meaning]
  | difference r q ihr ihq =>
    obtain ⟨s, made, sized, meant⟩ := ihr fits.1
    obtain ⟨t, made', sized', meant'⟩ := ihq fits.2.1
    obtain ⟨u, reduced, kept, left⟩ := s.actsAsSet.difference t (by rw [sized, sized', fits.2.2])
    refine ⟨u, bind_eq_ok.mpr ⟨s, made, bind_eq_ok.mpr ⟨t, made', bind_eq_ok.mpr ⟨_, reduced, rfl⟩⟩⟩, kept.trans sized, ?_⟩
    rw [left, meant, meant', meaning]

end Recipe

/-- Whatever calls have made it, a bit set is the set of numbers that these calls mean. Its
    words have the bits of this set and no others, and every further call acts on it as the
    operation on sets. -/
theorem recipe_refines (r : Recipe) (fits : r.Fits) :
    ∃ s, r.make = .ok s ∧ s.capacity = r.capacity ∧ s.members = r.meaning ∧
      (∀ i, s.contains i = true ↔ i ∈ r.meaning) ∧ (∀ i ∈ r.meaning, i < r.capacity) ∧
      s.words.size = (r.capacity + 63) / 64 ∧ (∀ i, bitAt s.words i = decide (i ∈ r.meaning)) ∧
      (∀ i, r.capacity ≤ i → bitAt s.words i = false) ∧ s.ActsAsSet := by
  obtain ⟨s, made, sized, meant⟩ := Recipe.make_eq_ok fits
  have held : ∀ i, s.contains i = true ↔ i ∈ r.meaning := fun i => by rw [← meant, mem_members]
  refine ⟨s, made, sized, meant, held, fun i member => ?_, ?_, fun i => ?_, fun i above => ?_, s.actsAsSet⟩
  · rw [← sized]
    exact lt_of_contains ((held i).mpr member)
  · rw [← sized]
    exact s.size_words
  · rw [Bool.eq_iff_iff, decide_eq_true_eq, ← held, contains]
  · exact s.clear_above i (sized ▸ above)

/-- Numbers at both ends of two words, one of them taken out again. -/
def acrossWords : Recipe :=
  .difference (.union (.ofIndices 128 [63, 0, 64]) (.insert (.empty 128) 127)) (.erase (.ofIndices 128 [0, 64]) 64)

theorem recipe_refines_acrossWords :
    acrossWords.Fits ∧ ∃ s, acrossWords.make = .ok s ∧ s.members = {63, 64, 127} ∧ s.count = 3 ∧ bitAt s.words 128 = false ∧
      ∃ t, s.insert 0 = .ok (t, true) ∧ t.members = {63, 64, 127, 0} := by
  have fits : acrossWords.Fits := by simp [acrossWords, Recipe.Fits, Recipe.capacity]
  have meaning : acrossWords.meaning = {63, 64, 127} := by decide
  obtain ⟨s, made, sized, meant, _, _, _, _, above, acts⟩ := recipe_refines acrossWords fits
  have members : s.members = {63, 64, 127} := meant.trans meaning
  have size : s.capacity = 128 := sized
  refine ⟨fits, s, made, members, ?_, above 128 (Nat.le_refl 128), ?_⟩
  · rw [acts.count, members]
    rfl
  · obtain ⟨t, inserted, _, grown⟩ := acts.insert 0 (by omega)
    rw [members] at inserted grown
    exact ⟨t, inserted, grown.trans (by decide)⟩

end StackFlow.BitSet
