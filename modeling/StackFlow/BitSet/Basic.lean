import StackFlow.BitSet.Word
import StackFlow.Error

/-!
Sets of numbers below a fixed capacity, 64 to a word. The bits above the capacity
stay clear, so equal sets of one capacity are equal values and can be hashed. A set
is read through `contains`; an index outside of the capacity, or a second set of
another capacity, is a fault.
-/
namespace StackFlow

/-- The bit at a position of a row of words. -/
def bitAt (words : Array UInt64) (i : Nat) : Bool :=
  match words[i / 64]? with
  | some w => Word.test w (i % 64)
  | none => false

structure BitSet where
  capacity : Nat
  words : Array UInt64
  size_words : words.size = (capacity + 63) / 64
  clear_above : ∀ i, capacity ≤ i → bitAt words i = false
  deriving DecidableEq

namespace BitSet

instance : Hashable BitSet := ⟨fun s => mixHash (hash s.capacity) (hash s.words)⟩

/-- Out-of-range numbers are simply not contained. -/
def contains (s : BitSet) (i : Nat) : Bool := bitAt s.words i

theorem bitAt_replicate_zero (n i : Nat) : bitAt (Array.replicate n 0) i = false := by
  by_cases inside : i / 64 < n <;> simp [bitAt, inside]

/-- The empty set over the numbers below `capacity`. -/
def empty (capacity : Nat) : BitSet where
  capacity := capacity
  words := Array.replicate ((capacity + 63) / 64) 0
  size_words := by simp
  clear_above := fun i _ => bitAt_replicate_zero _ i

instance : Inhabited BitSet := ⟨empty 0⟩

theorem bitAt_modify (words : Array UInt64) (f : UInt64 → UInt64) (k i : Nat) :
    bitAt (words.modify k f) i =
      match words[i / 64]? with
      | some w => Word.test (if k = i / 64 then f w else w) (i % 64)
      | none => false := by
  unfold bitAt
  rw [Array.getElem?_modify]
  by_cases here : k = i / 64 <;> cases words[i / 64]? <;> simp [here]

theorem bitAt_or_mask (words : Array UInt64) (i j : Nat) (inside : i / 64 < words.size) :
    bitAt (words.modify (i / 64) (· ||| Word.mask (i % 64))) j = (bitAt words j || decide (i = j)) := by
  rw [bitAt_modify]
  unfold bitAt
  have hi : i % 64 < 64 := Nat.mod_lt _ (by decide)
  have hj : j % 64 < 64 := Nat.mod_lt _ (by decide)
  by_cases here : i / 64 = j / 64
  · rw [here] at inside
    have same : i % 64 = j % 64 ↔ i = j := by omega
    simp [inside, here, hj, Word.test_mask hi hj, same]
  · have other : i ≠ j := fun equal => here (by rw [equal])
    cases words[j / 64]? <;> simp [here, other]

theorem bitAt_and_not_mask (words : Array UInt64) (i j : Nat) (inside : i / 64 < words.size) :
    bitAt (words.modify (i / 64) (· &&& ~~~ Word.mask (i % 64))) j = (bitAt words j && !decide (i = j)) := by
  rw [bitAt_modify]
  unfold bitAt
  have hi : i % 64 < 64 := Nat.mod_lt _ (by decide)
  have hj : j % 64 < 64 := Nat.mod_lt _ (by decide)
  by_cases here : i / 64 = j / 64
  · rw [here] at inside
    have same : i % 64 = j % 64 ↔ i = j := by omega
    simp [inside, here, hj, Word.test_mask hi hj, same]
  · have other : i ≠ j := fun equal => here (by rw [equal])
    cases words[j / 64]? <;> simp [here, other]

/-- The word that holds a number below the capacity exists. -/
theorem word_lt (s : BitSet) {i : Nat} (inside : i < s.capacity) : i / 64 < s.words.size := by
  rw [s.size_words]; omega

/-- The set with `i` added. -/
def put (s : BitSet) (i : Nat) (inside : i < s.capacity) : BitSet where
  capacity := s.capacity
  words := s.words.modify (i / 64) (· ||| Word.mask (i % 64))
  size_words := by rw [Array.size_modify]; exact s.size_words
  clear_above := by
    intro j above
    rw [bitAt_or_mask _ _ _ (s.word_lt inside), s.clear_above j above]
    simp; omega

/-- The set without `i`. -/
def drop (s : BitSet) (i : Nat) (inside : i < s.capacity) : BitSet where
  capacity := s.capacity
  words := s.words.modify (i / 64) (· &&& ~~~ Word.mask (i % 64))
  size_words := by rw [Array.size_modify]; exact s.size_words
  clear_above := by
    intro j above
    rw [bitAt_and_not_mask _ _ _ (s.word_lt inside), s.clear_above j above]
    simp

/-- Adds a number, and says whether it is new. -/
def insert (s : BitSet) (i : Nat) : Result (BitSet × Bool) :=
  if inside : i < s.capacity then .ok (s.put i inside, !s.contains i) else abort (.outOfRange i s.capacity)

def erase (s : BitSet) (i : Nat) : Result BitSet :=
  if inside : i < s.capacity then .ok (s.drop i inside) else abort (.outOfRange i s.capacity)

/-- The set of the given numbers. -/
def ofIndices (capacity : Nat) (indices : List Nat) : Result BitSet :=
  indices.foldlM (fun s i => do return (← s.insert i).1) (empty capacity)

def clear (s : BitSet) : BitSet := empty s.capacity

theorem bitAt_zipWith (f : UInt64 → UInt64 → UInt64) (g : Bool → Bool → Bool)
    (bitwise : ∀ a b j, j < 64 → Word.test (f a b) j = g (Word.test a j) (Word.test b j)) {s t : Array UInt64}
    (same : s.size = t.size) (clear : g false false = false) (i : Nat) :
    bitAt (s.zipWith f t) i = g (bitAt s i) (bitAt t i) := by
  unfold bitAt
  rw [Array.getElem?_zipWith]
  by_cases inside : i / 64 < s.size
  · have inside' : i / 64 < t.size := same ▸ inside
    simp [inside, inside', bitwise _ _ _ (Nat.mod_lt i (show 64 > 0 by decide))]
  · have outside' : ¬ i / 64 < t.size := same ▸ inside
    simp [inside, outside', clear]

theorem size_words_eq {s t : BitSet} (same : s.capacity = t.capacity) : s.words.size = t.words.size := by
  rw [s.size_words, t.size_words, same]

/-- The numbers of either set of one capacity. -/
def join (s t : BitSet) (same : s.capacity = t.capacity) : BitSet where
  capacity := s.capacity
  words := s.words.zipWith (· ||| ·) t.words
  size_words := by rw [Array.size_zipWith, ← size_words_eq same, Nat.min_self]; exact s.size_words
  clear_above := by
    intro i above
    rw [bitAt_zipWith _ _ (fun a b _ small => Word.test_or a b small) (size_words_eq same) rfl, s.clear_above i above,
      t.clear_above i (same ▸ above)]
    rfl

/-- The numbers of the first set that are not in the second. -/
def minus (s t : BitSet) (same : s.capacity = t.capacity) : BitSet where
  capacity := s.capacity
  words := s.words.zipWith (fun a b => a &&& ~~~ b) t.words
  size_words := by rw [Array.size_zipWith, ← size_words_eq same, Nat.min_self]; exact s.size_words
  clear_above := by
    intro i above
    rw [bitAt_zipWith _ (fun a b => a && !b) (fun a b _ small => by simp [small]) (size_words_eq same) rfl,
      s.clear_above i above]
    rfl

/-- The union, and whether it differs from the first set. -/
def union (s t : BitSet) : Result (BitSet × Bool) :=
  if same : s.capacity = t.capacity then .ok (s.join t same, (s.join t same).words != s.words)
  else abort (.capacityMismatch s.capacity t.capacity)

/-- The difference, and whether it differs from the first set. -/
def difference (s t : BitSet) : Result (BitSet × Bool) :=
  if same : s.capacity = t.capacity then .ok (s.minus t same, (s.minus t same).words != s.words)
  else abort (.capacityMismatch s.capacity t.capacity)

/-- Every number of the first set is in the second. -/
def subset (s t : BitSet) : Result Bool :=
  if s.capacity = t.capacity then .ok ((s.words.zipWith (fun a b => a &&& ~~~ b) t.words).all (· == 0))
  else abort (.capacityMismatch s.capacity t.capacity)

def isEmpty (s : BitSet) : Bool := s.words.all (· == 0)

/-- How many numbers the set has. -/
def count (s : BitSet) : Nat := (s.words.toList.flatMap Word.bits).length

/-- A place in the enumeration of a set: a word, and those of its bits that are still to
    come. -/
structure Cursor where
  word : Nat
  rest : UInt64

/-- Before the first number. -/
def start (s : BitSet) : Cursor := ⟨0, s.words[0]?.getD 0⟩

/-- The next number, the lowest bit that is still to come, and the place behind it. When a
    word has no bit left, the next word is taken. -/
def next (s : BitSet) (c : Cursor) : Option (Nat × Cursor) :=
  if c.rest = 0 then
    if more : c.word + 1 < s.words.size then s.next ⟨c.word + 1, s.words[c.word + 1]⟩ else none
  else some (64 * c.word + Word.lowest c.rest, ⟨c.word, Word.dropLowest c.rest⟩)
termination_by s.words.size - c.word

/-- The numbers from a place on, one `next` after the other. -/
def upcoming (s : BitSet) (c : Cursor) : List Nat :=
  if exhausted : c.rest = 0 then
    if more : c.word + 1 < s.words.size then s.upcoming ⟨c.word + 1, s.words[c.word + 1]⟩ else []
  else
    have := Word.dropLowest_lt exhausted
    (64 * c.word + Word.lowest c.rest) :: s.upcoming ⟨c.word, Word.dropLowest c.rest⟩
termination_by (s.words.size - c.word, c.rest.toNat)

/-- The numbers of the set, in ascending order. -/
def toList (s : BitSet) : List Nat := s.upcoming s.start

/-- The set in braces, each number written by `item`. -/
def renderWith (item : Nat → String) (s : BitSet) : String :=
  "\x7b" ++ ", ".intercalate (s.toList.map item) ++ "\x7d"

def render (s : BitSet) : String := s.renderWith toString

end BitSet

end StackFlow
