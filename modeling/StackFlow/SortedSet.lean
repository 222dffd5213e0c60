/-!
Finite sets of numbers as strictly ascending lists. The order is part of the type,
so two sets with the same members are equal. A number is looked for by halving the
list, which finds it because of the order; a new number is put where the search ends.
-/
namespace StackFlow

structure SortedSet where
  values : List Nat
  ascending : values.Pairwise (· < ·)
  deriving DecidableEq

namespace SortedSet

/-- Where a number is in a list, or where it has to go. -/
inductive Spot where
  | found (i : Nat)
  | missing (i : Nat)
  deriving DecidableEq, Repr

/-- Looks for a number between two places of an ascending list. -/
def searchIn (values : List Nat) (x low high : Nat) (inside : high ≤ values.length) : Spot :=
  if more : low < high then
    let mid := (low + high) / 2
    have below : mid < values.length := by omega
    if values[mid] < x then searchIn values x (mid + 1) high inside
    else if x < values[mid] then searchIn values x low mid (Nat.le_of_lt below)
    else .found mid
  else .missing low
termination_by high - low

def search (values : List Nat) (x : Nat) : Spot := searchIn values x 0 values.length (Nat.le_refl _)

/-- The list with a number at its place, and whether it is new there. -/
def place (values : List Nat) (x : Nat) : List Nat × Bool :=
  match search values x with
  | .found _ => (values, false)
  | .missing i => (values.take i ++ x :: values.drop i, true)

/-- A sorted list with each number once. -/
def dropRepeats : List Nat → List Nat
  | [] => []
  | [x] => [x]
  | x :: y :: rest => if x = y then dropRepeats (y :: rest) else x :: dropRepeats (y :: rest)

/-- Both lists in one ascending list, a common member once. -/
def weave : List Nat → List Nat → List Nat
  | [], ys => ys
  | x :: xs, [] => x :: xs
  | x :: xs, y :: ys =>
    if x < y then x :: weave xs (y :: ys)
    else if y < x then y :: weave (x :: xs) ys
    else x :: weave xs ys

/-- A spot is right if the number is there, or if all before the spot are smaller and all
    behind it are greater. -/
def Spot.Right (values : List Nat) (x : Nat) : Spot → Prop
  | found i => values[i]? = some x
  | missing i => i ≤ values.length ∧ (∀ y ∈ values.take i, y < x) ∧ ∀ y ∈ values.drop i, x < y

/-- An entry of an ascending list parts it into smaller and greater numbers. -/
theorem parted {values : List Nat} (ascending : values.Pairwise (· < ·)) {x i : Nat} (here : values[i]? = some x) :
    values = values.take i ++ x :: values.drop (i + 1) ∧ (∀ y ∈ values.take i, y < x) ∧
      ∀ y ∈ values.drop (i + 1), x < y := by
  obtain ⟨inside, rfl⟩ := List.getElem?_eq_some_iff.mp here
  have split : values = values.take i ++ values[i] :: values.drop (i + 1) := by
    rw [← List.drop_eq_getElem_cons inside, List.take_append_drop]
  rw [split] at ascending
  obtain ⟨_, behind, across⟩ := List.pairwise_append.mp ascending
  exact ⟨split, fun y before => across y before _ List.mem_cons_self, (List.pairwise_cons.mp behind).1⟩

/-- The search keeps smaller numbers to its left and greater ones to its right. -/
theorem searchIn_right {values : List Nat} (ascending : values.Pairwise (· < ·)) {x low high : Nat}
    (inside : high ≤ values.length) (ordered : low ≤ high) (left : ∀ y ∈ values.take low, y < x)
    (right : ∀ y ∈ values.drop high, x < y) : (searchIn values x low high inside).Right values x := by
  fun_induction searchIn values x low high inside with
  | case1 low high inside more mid bound smaller ih =>
    obtain ⟨_, before_mid, _⟩ := parted ascending (List.getElem?_eq_getElem bound)
    refine ih (by omega) (fun y before => ?_) right
    rw [List.take_succ_eq_append_getElem bound, List.mem_append, List.mem_singleton] at before
    rcases before with earlier | rfl
    · exact Nat.lt_trans (before_mid y earlier) smaller
    · exact smaller
  | case2 low high inside more mid bound notSmaller greater ih =>
    obtain ⟨_, _, after_mid⟩ := parted ascending (List.getElem?_eq_getElem bound)
    refine ih (by omega) left fun y behind => ?_
    rw [List.drop_eq_getElem_cons bound, List.mem_cons] at behind
    rcases behind with rfl | later
    · exact greater
    · exact Nat.lt_trans greater (after_mid y later)
  | case3 low high inside more mid bound notSmaller notGreater =>
    have same : values[mid] = x := by omega
    exact List.getElem?_eq_some_iff.mpr ⟨bound, same⟩
  | case4 low high inside done =>
    have same : low = high := by omega
    exact ⟨same ▸ inside, left, same ▸ right⟩

theorem search_right {values : List Nat} (ascending : values.Pairwise (· < ·)) (x : Nat) :
    (search values x).Right values x :=
  searchIn_right ascending _ (Nat.zero_le _) (by simp) (by simp)

theorem not_mem_of_missing {values : List Nat} {x i : Nat} (spot : (Spot.missing i).Right values x) : x ∉ values := by
  obtain ⟨_, before, behind⟩ := spot
  rw [← List.take_append_drop i values, List.mem_append]
  rintro (early | late)
  · exact Nat.lt_irrefl x (before x early)
  · exact Nat.lt_irrefl x (behind x late)

/-- The search finds a number just if it is in the list. -/
theorem search_cases {values : List Nat} (ascending : values.Pairwise (· < ·)) (x : Nat) :
    (∃ i, search values x = .found i ∧ values[i]? = some x) ∨
    ∃ i, search values x = .missing i ∧ (Spot.missing i).Right values x ∧ x ∉ values := by
  have right := search_right ascending x
  cases result : search values x with
  | found i =>
    rw [result] at right
    exact .inl ⟨i, rfl, right⟩
  | missing i =>
    rw [result] at right
    exact .inr ⟨i, rfl, right, not_mem_of_missing right⟩

theorem mem_place {values : List Nat} (ascending : values.Pairwise (· < ·)) {x z : Nat} :
    z ∈ (place values x).1 ↔ z = x ∨ z ∈ values := by
  rcases search_cases ascending x with ⟨i, found, here⟩ | ⟨i, missing, _⟩
  · rw [place, found]
    refine ⟨.inr, ?_⟩
    rintro (rfl | member)
    · exact List.mem_of_getElem? here
    · exact member
  · have halves : z ∈ values ↔ z ∈ values.take i ∨ z ∈ values.drop i := by
      rw [← List.mem_append, List.take_append_drop]
    rw [place, missing, halves, List.mem_append, List.mem_cons, or_left_comm]

theorem place_fresh {values : List Nat} (ascending : values.Pairwise (· < ·)) (x : Nat) :
    (place values x).2 = true ↔ x ∉ values := by
  rcases search_cases ascending x with ⟨i, found, here⟩ | ⟨i, missing, _, absent⟩
  · simp [place, found, List.mem_of_getElem? here]
  · simp [place, missing, absent]

theorem place_ascending {values : List Nat} (ascending : values.Pairwise (· < ·)) (x : Nat) :
    (place values x).1.Pairwise (· < ·) := by
  rcases search_cases ascending x with ⟨i, found, _⟩ | ⟨i, missing, ⟨inside, before, behind⟩, _⟩
  · rw [place, found]
    exact ascending
  · rw [place, missing]
    have halves := ascending
    rw [← List.take_append_drop i values] at halves
    obtain ⟨front, back, across⟩ := List.pairwise_append.mp halves
    refine List.pairwise_append.mpr ⟨front, List.pairwise_cons.mpr ⟨behind, back⟩, fun y early z late => ?_⟩
    rcases List.mem_cons.mp late with rfl | later
    · exact before y early
    · exact across y early z later

theorem mem_dropRepeats {z : Nat} {values : List Nat} : z ∈ dropRepeats values ↔ z ∈ values := by
  fun_induction dropRepeats values with
  | case1 => rfl
  | case2 x => rfl
  | case3 x rest ih => rw [ih]; simp
  | case4 x y rest other ih => rw [List.mem_cons, ih, List.mem_cons (l := y :: rest)]

theorem dropRepeats_ascending {values : List Nat} (sorted : values.Pairwise (· ≤ ·)) :
    (dropRepeats values).Pairwise (· < ·) := by
  fun_induction dropRepeats values with
  | case1 => exact .nil
  | case2 x => exact List.pairwise_singleton _ _
  | case3 x rest ih => exact ih (List.pairwise_cons.mp sorted).2
  | case4 x y rest other ih =>
    obtain ⟨least, tail⟩ := List.pairwise_cons.mp sorted
    refine List.pairwise_cons.mpr ⟨fun z member => ?_, ih tail⟩
    have first : x < y := Nat.lt_of_le_of_ne (least y List.mem_cons_self) other
    rcases List.mem_cons.mp (mem_dropRepeats.mp member) with rfl | later
    · exact first
    · exact Nat.lt_of_lt_of_le first ((List.pairwise_cons.mp tail).1 z later)

theorem sorted_mergeSort (values : List Nat) : values.mergeSort.Pairwise (· ≤ ·) := by
  have sorted : values.mergeSort.Pairwise fun a b => decide (a ≤ b) = true :=
    List.pairwise_mergeSort (fun a b c => by simpa using Nat.le_trans) (fun a b => by simpa using Nat.le_total a b) values
  exact sorted.imp of_decide_eq_true

theorem mem_weave {z : Nat} {xs ys : List Nat} : z ∈ weave xs ys ↔ z ∈ xs ∨ z ∈ ys := by
  fun_induction weave xs ys with
  | case1 ys => simp
  | case2 x xs => simp
  | case3 x xs y ys before ih => simp only [List.mem_cons, ih]; grind
  | case4 x xs y ys notBefore after ih => simp only [List.mem_cons, ih]; grind
  | case5 x xs y ys notBefore notAfter ih =>
    have same : x = y := by omega
    simp only [List.mem_cons, ih, same]; grind

theorem weave_ascending {xs ys : List Nat} (left : xs.Pairwise (· < ·)) (right : ys.Pairwise (· < ·)) :
    (weave xs ys).Pairwise (· < ·) := by
  fun_induction weave xs ys with
  | case1 ys => exact right
  | case2 x xs => exact left
  | case3 x xs y ys before ih =>
    obtain ⟨above, tail⟩ := List.pairwise_cons.mp left
    obtain ⟨above', _⟩ := List.pairwise_cons.mp right
    refine List.pairwise_cons.mpr ⟨fun z member => ?_, ih tail right⟩
    rcases mem_weave.mp member with inLeft | inRight
    · exact above z inLeft
    · rcases List.mem_cons.mp inRight with rfl | later
      · exact before
      · exact Nat.lt_trans before (above' z later)
  | case4 x xs y ys notBefore after ih =>
    obtain ⟨above, _⟩ := List.pairwise_cons.mp left
    obtain ⟨above', tail⟩ := List.pairwise_cons.mp right
    refine List.pairwise_cons.mpr ⟨fun z member => ?_, ih left tail⟩
    rcases mem_weave.mp member with inLeft | inRight
    · rcases List.mem_cons.mp inLeft with rfl | later
      · exact after
      · exact Nat.lt_trans after (above z later)
    · exact above' z inRight
  | case5 x xs y ys notBefore notAfter ih =>
    obtain ⟨above, tail⟩ := List.pairwise_cons.mp left
    obtain ⟨above', tail'⟩ := List.pairwise_cons.mp right
    refine List.pairwise_cons.mpr ⟨fun z member => ?_, ih tail tail'⟩
    rcases mem_weave.mp member with inLeft | inRight
    · exact above z inLeft
    · have same : x = y := by omega
      exact same ▸ above' z inRight

def empty : SortedSet := ⟨[], List.Pairwise.nil⟩

instance : Inhabited SortedSet := ⟨empty⟩

def contains (s : SortedSet) (x : Nat) : Bool :=
  match search s.values x with
  | .found _ => true
  | .missing _ => false

/-- Adds a number, and says whether it is new. -/
def insert (s : SortedSet) (x : Nat) : SortedSet × Bool :=
  (⟨(place s.values x).1, place_ascending s.ascending x⟩, (place s.values x).2)

/-- Removes a number, and says whether it was there. -/
def erase (s : SortedSet) (x : Nat) : SortedSet × Bool :=
  match search s.values x with
  | .found i => (⟨s.values.eraseIdx i, s.ascending.sublist (List.eraseIdx_sublist _ _)⟩, true)
  | .missing _ => (s, false)

def union (s t : SortedSet) : SortedSet := ⟨weave s.values t.values, weave_ascending s.ascending t.ascending⟩

def ofList (values : List Nat) : SortedSet :=
  ⟨dropRepeats values.mergeSort, dropRepeats_ascending (sorted_mergeSort values)⟩

def singleton (x : Nat) : SortedSet := ⟨[x], List.pairwise_singleton _ _⟩

def size (s : SortedSet) : Nat := s.values.length

def isEmpty (s : SortedSet) : Bool := s.values.isEmpty

def min? (s : SortedSet) : Option Nat := s.values.head?

def max? (s : SortedSet) : Option Nat := s.values.getLast?

theorem contains_iff {s : SortedSet} {x : Nat} : s.contains x = true ↔ x ∈ s.values := by
  rcases search_cases s.ascending x with ⟨i, found, here⟩ | ⟨i, missing, _, absent⟩
  · simp [contains, found, List.mem_of_getElem? here]
  · simp [contains, missing, absent]

theorem mem_insert {s : SortedSet} {x z : Nat} : z ∈ (s.insert x).1.values ↔ z = x ∨ z ∈ s.values :=
  mem_place s.ascending

theorem insert_fresh {s : SortedSet} {x : Nat} : (s.insert x).2 = true ↔ x ∉ s.values := place_fresh s.ascending x

theorem mem_erase {s : SortedSet} {x z : Nat} : z ∈ (s.erase x).1.values ↔ z ≠ x ∧ z ∈ s.values := by
  rcases search_cases s.ascending x with ⟨i, found, here⟩ | ⟨i, missing, _, absent⟩
  · obtain ⟨split, before, behind⟩ := parted s.ascending here
    have listed : z ∈ s.values ↔ z ∈ s.values.take i ∨ z = x ∨ z ∈ s.values.drop (i + 1) := by
      rw [← List.mem_cons, ← List.mem_append, ← split]
    rw [erase, found, listed]
    dsimp only
    rw [List.eraseIdx_eq_take_drop_succ, List.mem_append]
    constructor
    · rintro (early | late)
      · exact ⟨Nat.ne_of_lt (before z early), .inl early⟩
      · exact ⟨Nat.ne_of_gt (behind z late), .inr (.inr late)⟩
    · rintro ⟨other, early | same | late⟩
      · exact .inl early
      · exact absurd same other
      · exact .inr late
  · rw [erase, missing]
    exact ⟨fun member => ⟨fun same => absent (same ▸ member), member⟩, And.right⟩

theorem erase_present {s : SortedSet} {x : Nat} : (s.erase x).2 = true ↔ x ∈ s.values := by
  rcases search_cases s.ascending x with ⟨i, found, here⟩ | ⟨i, missing, _, absent⟩
  · simp [erase, found, List.mem_of_getElem? here]
  · simp [erase, missing, absent]

theorem mem_union {s t : SortedSet} {z : Nat} :
    z ∈ (s.union t).values ↔ z ∈ s.values ∨ z ∈ t.values := mem_weave

theorem mem_ofList {values : List Nat} {z : Nat} : z ∈ (ofList values).values ↔ z ∈ values :=
  mem_dropRepeats.trans (List.mergeSort_perm values _).mem_iff

/-- Ascending lists with the same members are equal. -/
theorem ascending_ext {xs ys : List Nat} (left : xs.Pairwise (· < ·)) (right : ys.Pairwise (· < ·))
    (same : ∀ z, z ∈ xs ↔ z ∈ ys) : xs = ys := by
  have perm : xs.Perm ys := (List.perm_ext_iff_of_nodup (left.imp Nat.ne_of_lt) (right.imp Nat.ne_of_lt)).mpr same
  exact perm.eq_of_pairwise (fun _ _ _ _ before after => absurd before (Nat.lt_asymm after)) left right

theorem ext {s t : SortedSet} (same : ∀ z, z ∈ s.values ↔ z ∈ t.values) : s = t := by
  have values := ascending_ext s.ascending t.ascending same
  cases s; cases t
  simp_all

end SortedSet

end StackFlow
