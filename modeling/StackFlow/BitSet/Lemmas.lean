import StackFlow.BitSet.Basic
import StackFlow.SortedSet

/-!
What the operations on bit sets do, read through `contains`. Sets of one capacity
with the same members are equal. From each place of its walk over the words `toList`
meets what is ahead of that place, so `next` gives the members in ascending order and
then comes to its end.
-/
namespace StackFlow

/-- The bits of a word are the lowest one and those that are left without it. -/
theorem Word.bits_eq_cons {w : UInt64} (nonzero : w ≠ 0) : bits w = lowest w :: bits (dropLowest w) := by
  refine SortedSet.ascending_ext (bits_pairwise w) (List.pairwise_cons.mpr ⟨fun j later => ?_, bits_pairwise _⟩) fun j => ?_
  · obtain ⟨small, left⟩ := mem_bits.mp later
    exact lowest_lt_of_left nonzero small left
  · rw [List.mem_cons, mem_bits, mem_bits]
    constructor
    · rintro ⟨small, bit⟩
      by_cases first : j = lowest w
      · exact .inl first
      · exact .inr ⟨small, by simp [test_dropLowest nonzero small, bit, first]⟩
    · rintro (rfl | ⟨small, left⟩)
      · exact ⟨lowest_lt nonzero, test_lowest nonzero⟩
      · rw [test_dropLowest nonzero small, Bool.and_eq_true] at left
        exact ⟨small, left.1⟩

namespace BitSet

@[simp] theorem contains_empty (capacity i : Nat) : (empty capacity).contains i = false := bitAt_replicate_zero _ i

@[simp] theorem capacity_empty (capacity : Nat) : (empty capacity).capacity = capacity := rfl

theorem lt_of_contains {s : BitSet} {i : Nat} (member : s.contains i = true) : i < s.capacity := by
  apply Nat.lt_of_not_le
  intro above
  have clear := s.clear_above i above
  rw [contains, clear] at member
  cases member

@[simp] theorem capacity_put (s : BitSet) (i : Nat) (inside : i < s.capacity) :
    (s.put i inside).capacity = s.capacity := rfl

@[simp] theorem contains_put (s : BitSet) (i j : Nat) (inside : i < s.capacity) :
    (s.put i inside).contains j = (s.contains j || decide (i = j)) :=
  bitAt_or_mask _ _ _ (s.word_lt inside)

@[simp] theorem capacity_drop (s : BitSet) (i : Nat) (inside : i < s.capacity) :
    (s.drop i inside).capacity = s.capacity := rfl

@[simp] theorem contains_drop (s : BitSet) (i j : Nat) (inside : i < s.capacity) :
    (s.drop i inside).contains j = (s.contains j && !decide (i = j)) :=
  bitAt_and_not_mask _ _ _ (s.word_lt inside)

@[simp] theorem capacity_join (s t : BitSet) (same : s.capacity = t.capacity) :
    (s.join t same).capacity = s.capacity := rfl

@[simp] theorem contains_join (s t : BitSet) (same : s.capacity = t.capacity) (i : Nat) :
    (s.join t same).contains i = (s.contains i || t.contains i) :=
  bitAt_zipWith _ _ (fun a b _ small => Word.test_or a b small) (size_words_eq same) rfl i

@[simp] theorem capacity_minus (s t : BitSet) (same : s.capacity = t.capacity) :
    (s.minus t same).capacity = s.capacity := rfl

theorem contains_minus (s t : BitSet) (same : s.capacity = t.capacity) (i : Nat) :
    (s.minus t same).contains i = (s.contains i && !t.contains i) :=
  bitAt_zipWith _ (fun a b => a && !b) (fun a b _ small => by simp [small]) (size_words_eq same) rfl i

theorem insert_of_lt {s : BitSet} {i : Nat} (inside : i < s.capacity) :
    s.insert i = .ok (s.put i inside, !s.contains i) := by
  simp [insert, inside]

theorem erase_of_lt {s : BitSet} {i : Nat} (inside : i < s.capacity) : s.erase i = .ok (s.drop i inside) := by
  simp [erase, inside]

/-- Rows of words of one length with the same bits are equal. -/
theorem words_ext {a b : Array UInt64} (sizes : a.size = b.size) (same : ∀ i, bitAt a i = bitAt b i) : a = b := by
  apply Array.ext sizes
  intro k inA inB
  apply Word.ext
  intro j small
  have bits := same (64 * k + j)
  have word : (64 * k + j) / 64 = k := by omega
  have offset : (64 * k + j) % 64 = j := by omega
  simpa [bitAt, word, offset, inA, inB] using bits

theorem ext {s t : BitSet} (capacities : s.capacity = t.capacity) (members : ∀ i, s.contains i = t.contains i) :
    s = t := by
  have words : s.words = t.words := words_ext (size_words_eq capacities) members
  cases s; cases t
  simp_all

theorem union_of_eq {s t : BitSet} (same : s.capacity = t.capacity) :
    s.union t = .ok (s.join t same, (s.join t same).words != s.words) := dif_pos same

theorem difference_of_eq {s t : BitSet} (same : s.capacity = t.capacity) :
    s.difference t = .ok (s.minus t same, (s.minus t same).words != s.words) := dif_pos same

/-- All words are zero if no bit is set. -/
theorem all_zero_iff {words : Array UInt64} : words.all (· == 0) = true ↔ ∀ i, bitAt words i = false := by
  rw [Array.all_eq_true]
  constructor
  · intro zero i
    by_cases inside : i / 64 < words.size
    · have word := zero (i / 64) inside
      simp only [beq_iff_eq] at word
      simp [bitAt, inside, word]
    · simp [bitAt, inside]
  · intro clear k inside
    rw [beq_iff_eq, Word.eq_zero_iff]
    intro j small
    have bit := clear (64 * k + j)
    have word : (64 * k + j) / 64 = k := by omega
    have offset : (64 * k + j) % 64 = j := by omega
    simpa [bitAt, word, offset, inside] using bit

theorem isEmpty_iff {s : BitSet} : s.isEmpty = true ↔ ∀ i, s.contains i = false := all_zero_iff

theorem subset_of_eq {s t : BitSet} (same : s.capacity = t.capacity) :
    ∃ included, s.subset t = .ok included ∧
      (included = true ↔ ∀ i, s.contains i = true → t.contains i = true) := by
  refine ⟨_, by rw [subset, if_pos same], ?_⟩
  have zero := @all_zero_iff (s.minus t same).words
  refine Iff.trans zero ?_
  constructor
  · intro none i member
    have outside := none i
    change (s.minus t same).contains i = false at outside
    rw [contains_minus, member] at outside
    simpa using outside
  · intro included i
    change (s.minus t same).contains i = false
    rw [contains_minus]
    cases member : s.contains i
    · rfl
    · simp [included i member]

/-- One `next` after the other from a place on gives the numbers of a list, and then no more. -/
inductive Yields (s : BitSet) : Cursor → List Nat → Prop
  | done {c : Cursor} (ended : s.next c = none) : Yields s c []
  | more {c behind : Cursor} {i : Nat} {later : List Nat} (step : s.next c = some (i, behind))
      (others : Yields s behind later) : Yields s c (i :: later)

theorem Yields.congr {s : BitSet} {c d : Cursor} (same : s.next c = s.next d) {numbers : List Nat}
    (yields : s.Yields d numbers) : s.Yields c numbers := by
  cases yields with
  | done ended => exact .done (same.trans ended)
  | more step others => exact .more (same.trans step) others

theorem yields_upcoming (s : BitSet) (c : Cursor) : s.Yields c (s.upcoming c) := by
  fun_induction s.upcoming c with
  | case1 c exhausted more ih =>
    refine ih.congr ?_
    conv => lhs; unfold next
    rw [if_pos exhausted, dif_pos more]
  | case2 c exhausted last =>
    apply Yields.done
    rw [next, if_pos exhausted, dif_neg last]
  | case3 c left lower ih =>
    refine .more ?_ ih
    rw [next, if_neg left]

/-- What is still to come at a place: the bits left in its word, and all numbers of later words. -/
def Ahead (s : BitSet) (c : Cursor) (i : Nat) : Prop :=
  i / 64 = c.word ∧ Word.test c.rest (i % 64) = true ∨ c.word < i / 64 ∧ s.contains i = true

/-- At the beginning of a word nothing from this word on is missing. -/
theorem ahead_word {s : BitSet} {k : Nat} (inside : k < s.words.size) {i : Nat} :
    s.Ahead ⟨k, s.words[k]⟩ i ↔ k ≤ i / 64 ∧ s.contains i = true := by
  unfold Ahead
  rw [Nat.le_iff_lt_or_eq, or_and_right, or_comm]
  refine or_congr_right ⟨?_, ?_⟩
  · rintro ⟨rfl, bit⟩
    exact ⟨rfl, by simpa [contains, bitAt, inside] using bit⟩
  · rintro ⟨rfl, member⟩
    exact ⟨rfl, by simpa [contains, bitAt, inside] using member⟩

theorem mem_upcoming {s : BitSet} {c : Cursor} {i : Nat} : i ∈ s.upcoming c ↔ s.Ahead c i := by
  fun_induction s.upcoming c with
  | case1 c exhausted more ih =>
    rw [ih, ahead_word more, Ahead, exhausted, Word.test_zero, Nat.succ_le_iff]
    simp only [Bool.false_eq_true, and_false, false_or]
  | case2 c exhausted last =>
    rw [Ahead, exhausted, Word.test_zero]
    simp only [List.not_mem_nil, Bool.false_eq_true, and_false, false_or, false_iff, not_and]
    intro later
    have beyond : s.words.size ≤ i / 64 := by omega
    simp [contains, bitAt, beyond]
  | case3 c left lower ih =>
    have small : i % 64 < 64 := Nat.mod_lt i (by decide)
    have bound := Word.lowest_lt left
    rw [List.mem_cons, ih, Ahead, Ahead, Word.test_dropLowest left small]
    have here : i = 64 * c.word + Word.lowest c.rest ↔ i / 64 = c.word ∧ i % 64 = Word.lowest c.rest := by omega
    rw [here, ← or_assoc, ← and_or_left]
    refine or_congr_left (and_congr_right fun _ => ?_)
    by_cases first : i % 64 = Word.lowest c.rest
    · simp [first, Word.test_lowest left]
    · simp [first]

theorem upcoming_ascending (s : BitSet) (c : Cursor) : (s.upcoming c).Pairwise (· < ·) := by
  fun_induction s.upcoming c with
  | case1 c exhausted more ih => exact ih
  | case2 c exhausted last => exact .nil
  | case3 c left lower ih =>
    refine List.pairwise_cons.mpr ⟨fun i later => ?_, ih⟩
    have bound := Word.lowest_lt left
    rcases mem_upcoming.mp later with ⟨here, bit⟩ | ⟨further, _⟩
    · have above := Word.lowest_lt_of_left left (Nat.mod_lt i (by decide)) bit
      change i / 64 = c.word at here
      omega
    · change c.word < i / 64 at further
      omega

theorem length_upcoming (s : BitSet) (c : Cursor) :
    (s.upcoming c).length = (Word.bits c.rest).length + ((s.words.toList.drop (c.word + 1)).flatMap Word.bits).length := by
  fun_induction s.upcoming c with
  | case1 c exhausted more ih =>
    have row : s.words.toList.drop (c.word + 1) = s.words[c.word + 1] :: s.words.toList.drop (c.word + 1 + 1) :=
      List.drop_eq_getElem_cons more
    rw [ih, exhausted, row, List.flatMap_cons, List.length_append, Word.bits_zero]
    exact (Nat.zero_add _).symm
  | case2 c exhausted last =>
    rw [exhausted, List.drop_eq_nil_of_le (Nat.le_of_not_lt last)]
    rfl
  | case3 c left lower ih =>
    rw [List.length_cons, ih, Word.bits_eq_cons left, List.length_cons, Nat.add_right_comm]

/-- From the beginning all numbers are still to come. -/
theorem ahead_start {s : BitSet} {i : Nat} : s.Ahead s.start i ↔ s.contains i = true := by
  by_cases inside : 0 < s.words.size
  · have first : s.start = ⟨0, s.words[0]⟩ := by simp [start, inside]
    rw [first, ahead_word inside]
    simp
  · have none : s.words.size = 0 := by omega
    simp [Ahead, start, contains, bitAt, none]

theorem mem_toList {s : BitSet} {i : Nat} : i ∈ s.toList ↔ s.contains i = true := mem_upcoming.trans ahead_start

theorem toList_ascending (s : BitSet) : s.toList.Pairwise (· < ·) := s.upcoming_ascending s.start

theorem length_toList (s : BitSet) : s.toList.length = s.count := by
  rw [toList, length_upcoming, count, start, ← Array.getElem?_toList]
  cases s.words.toList with
  | nil => rfl
  | cons w rest => simp

end BitSet

end StackFlow
