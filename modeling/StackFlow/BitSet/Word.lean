/-!
Words of 64 bits as sets of the numbers below 64. A bit is read through `test`,
and every operation on words is known by what it does to the tests.
-/
namespace StackFlow.Word

/-- The word whose only bit is `j`, for `j` below 64. -/
def mask (j : Nat) : UInt64 := 1 <<< UInt64.ofNat j

def test (w : UInt64) (j : Nat) : Bool := w &&& mask j != 0

/-- The place of the lowest bit of a word that is not zero. -/
def lowest (w : UInt64) : Nat := w.toBitVec.ctz.toNat

/-- A word that is not zero, without its lowest bit. -/
def dropLowest (w : UInt64) : UInt64 := w &&& (w - 1)

/-- The bits of a word, in ascending order. -/
def bits (w : UInt64) : List Nat := (List.range 64).filter (test w)

theorem toBitVec_mask {j : Nat} (small : j < 64) : (mask j).toBitVec = BitVec.twoPow 64 j := by
  have amount : (UInt64.ofNat j).toBitVec.toNat = j := UInt64.toNat_ofNat_of_lt' (Nat.lt_trans small (by decide))
  rw [mask, UInt64.toBitVec_shiftLeft, BitVec.twoPow_eq, BitVec.shiftLeft_eq', BitVec.toNat_umod, amount]
  simp [Nat.mod_eq_of_lt small]

theorem test_eq {j : Nat} (small : j < 64) (w : UInt64) : test w j = w.toBitVec.getLsbD j := by
  have single : BitVec.twoPow 64 j ≠ 0#64 := by
    intro zero
    have := congrArg (·.getLsbD j) zero
    simp [small] at this
  have masked : (w &&& mask j = 0) ↔ w.toBitVec.getLsbD j = false := by
    rw [← UInt64.toBitVec_inj, UInt64.toBitVec_and, toBitVec_mask small, BitVec.and_twoPow]
    cases w.toBitVec.getLsbD j <;> simp [single]
  unfold test
  cases bit : w.toBitVec.getLsbD j <;> simp [masked, bit]

@[simp] theorem test_zero (j : Nat) : test 0 j = false := by simp [test]

theorem test_mask {j k : Nat} (hj : j < 64) (hk : k < 64) : test (mask j) k = decide (j = k) := by
  rw [test_eq hk, toBitVec_mask hj]
  simp [hj]

@[simp] theorem test_or (a b : UInt64) {j : Nat} (small : j < 64) : test (a ||| b) j = (test a j || test b j) := by
  simp [test_eq small]

@[simp] theorem test_and (a b : UInt64) {j : Nat} (small : j < 64) : test (a &&& b) j = (test a j && test b j) := by
  simp [test_eq small]

@[simp] theorem test_not (a : UInt64) {j : Nat} (small : j < 64) : test (~~~a) j = !test a j := by
  simp [test_eq small, small]

/-- Words with the same bits are equal. -/
theorem ext {a b : UInt64} (same : ∀ j < 64, test a j = test b j) : a = b := by
  apply UInt64.eq_of_toBitVec_eq
  apply BitVec.eq_of_getLsbD_eq
  intro j small
  have := same j small
  rwa [test_eq small, test_eq small] at this

theorem eq_zero_iff {w : UInt64} : w = 0 ↔ ∀ j < 64, test w j = false :=
  ⟨fun zero j _ => by simp [zero], fun none => ext fun j small => by simp [none j small]⟩

@[simp] theorem bits_zero : bits 0 = [] := by simp [bits]

theorem mem_bits {w : UInt64} {j : Nat} : j ∈ bits w ↔ j < 64 ∧ test w j = true := by simp [bits]

theorem bits_pairwise (w : UInt64) : (bits w).Pairwise (· < ·) := List.Pairwise.filter _ List.pairwise_lt_range

theorem toBitVec_ne_zero {w : UInt64} (nonzero : w ≠ 0) : w.toBitVec ≠ 0#64 :=
  fun zero => nonzero (UInt64.eq_of_toBitVec_eq zero)

theorem lowest_lt {w : UInt64} (nonzero : w ≠ 0) : lowest w < 64 := by
  have below : w.toBitVec.ctz < 64#64 := BitVec.ctz_lt_iff_ne_zero.mpr (toBitVec_ne_zero nonzero)
  exact BitVec.lt_def.mp below

theorem test_lowest {w : UInt64} (nonzero : w ≠ 0) : test w (lowest w) = true := by
  rw [test_eq (lowest_lt nonzero)]
  exact BitVec.getLsbD_true_ctz_of_ne_zero (toBitVec_ne_zero nonzero)

theorem test_of_lt_lowest {w : UInt64} {j : Nat} (small : j < 64) (below : j < lowest w) : test w j = false := by
  rw [test_eq small]
  exact BitVec.getLsbD_false_of_lt_ctz below

/-- One less than a number: from its lowest bit on only that bit is another. -/
theorem testBit_pred {n t j : Nat} (bit : n.testBit t = true) (clear : ∀ k < t, n.testBit k = false) (upper : t ≤ j) :
    (n - 1).testBit j = (n.testBit j && decide (j ≠ t)) := by
  induction t generalizing n j with
  | zero =>
    have odd : n % 2 = 1 := by simpa [Nat.testBit_zero] using bit
    cases j with
    | zero =>
      have even : (n - 1) % 2 = 0 := by omega
      simp [Nat.testBit_zero, even]
    | succ j =>
      have half : (n - 1) / 2 = n / 2 := by omega
      simp [Nat.testBit_add_one, half]
  | succ t ih =>
    have even : n % 2 = 0 := by simpa [Nat.testBit_zero] using clear 0 (Nat.succ_pos t)
    have half : (n - 1) / 2 = n / 2 - 1 := by omega
    obtain ⟨j, rfl⟩ : ∃ i, j = i + 1 := ⟨j - 1, by omega⟩
    rw [Nat.testBit_add_one, Nat.testBit_add_one, half,
      ih (Nat.testBit_add_one n t ▸ bit) (fun k below => Nat.testBit_add_one n k ▸ clear (k + 1) (Nat.succ_lt_succ below))
        (Nat.le_of_succ_le_succ upper)]
    simp

theorem test_eq_testBit {j : Nat} (small : j < 64) (w : UInt64) : test w j = w.toNat.testBit j := test_eq small w

/-- Taking one from a word clears its lowest bit and sets only bits below that. -/
theorem test_dropLowest {w : UInt64} (nonzero : w ≠ 0) {j : Nat} (small : j < 64) :
    test (dropLowest w) j = (test w j && decide (j ≠ lowest w)) := by
  rw [dropLowest, test_and _ _ small]
  rcases Nat.lt_or_ge j (lowest w) with below | upper
  · simp [test_of_lt_lowest small below]
  · have positive : 1 ≤ w := UInt64.pos_iff_ne_zero.mpr nonzero
    have bit : w.toNat.testBit (lowest w) = true := test_eq_testBit (lowest_lt nonzero) w ▸ test_lowest nonzero
    have clear : ∀ k < lowest w, w.toNat.testBit k = false := fun k => BitVec.getLsbD_false_of_lt_ctz
    have less : test (w - 1) j = (test w j && decide (j ≠ lowest w)) := by
      rw [test_eq_testBit small, test_eq_testBit small, UInt64.toNat_sub_of_le _ _ positive]
      exact testBit_pred bit clear upper
    rw [less, ← Bool.and_assoc, Bool.and_self]

/-- The bits that are left without the lowest one are above it. -/
theorem lowest_lt_of_left {w : UInt64} (nonzero : w ≠ 0) {j : Nat} (small : j < 64)
    (left : test (dropLowest w) j = true) : lowest w < j := by
  rw [test_dropLowest nonzero small, Bool.and_eq_true, decide_eq_true_eq] at left
  have above : ¬ j < lowest w := by
    intro below
    rw [test_of_lt_lowest small below] at left
    exact absurd left.1 Bool.false_ne_true
  omega

/-- Whoever takes the lowest bit off a word again and again comes to an end. -/
theorem dropLowest_lt {w : UInt64} (nonzero : w ≠ 0) : (dropLowest w).toNat < w.toNat := by
  have positive : 1 ≤ w := UInt64.pos_iff_ne_zero.mpr nonzero
  have least : 1 ≤ w.toNat := positive
  rw [dropLowest, UInt64.toNat_and, UInt64.toNat_sub_of_le _ _ positive]
  have below : w.toNat &&& (w.toNat - 1) ≤ w.toNat - 1 := Nat.and_le_right
  exact Nat.lt_of_le_of_lt below (Nat.sub_one_lt_of_lt least)

end StackFlow.Word
