import Mathlib.Data.List.Nodup
import Mathlib.Data.List.Perm.Subperm
import Mathlib.Data.Nat.Bitwise
import Mathlib.Tactic.IntervalCases

/-! # Fixed-width words

Facts about `UInt32` and `UInt8` that machine-level definitions need: what the masks of page
numbers and offsets select, when joining two words adds them, and what setting, clearing and
finding one bit of a byte does to its binary digits.  The digits of a word `b` are `b.toNat.testBit`. -/

namespace Words

/-- Masking out everything but `n` binary digits from digit `k` on. -/
theorem nat_and_field (x n k : ℕ) : x &&& ((2 ^ n - 1) <<< k) = x / 2 ^ k % 2 ^ n * 2 ^ k := by
  rw [← Nat.shiftRight_eq_div_pow, ← Nat.shiftLeft_eq]
  apply Nat.eq_of_testBit_eq
  intro i
  simp only [Nat.testBit_and, Nat.testBit_shiftLeft, Nat.testBit_two_pow_sub_one,
    Nat.testBit_mod_two_pow, Nat.testBit_shiftRight]
  by_cases hi : k ≤ i
  · have e : k + (i - k) = i := by omega
    simp only [hi, e, decide_true, Bool.true_and]
    exact Bool.and_comm _ _
  · simp [hi]

/-- Masking a word with `0xFFFFF000` rounds it down to a multiple of 4096. -/
theorem toNat_and_frame (x : UInt32) : (x &&& 0xFFFFF000).toNat = x.toNat / 4096 * 4096 := by
  have h := nat_and_field x.toNat 20 12
  rw [Nat.mod_eq_of_lt (by have := x.toNat_lt; omega)] at h
  rw [UInt32.toNat_and]
  exact h

theorem toNat_and_offset (x : UInt32) : (x &&& 0xFFF).toNat = x.toNat % 4096 := by
  have h := nat_and_field x.toNat 12 0
  simpa [UInt32.toNat_and] using h

/-- An aligned address has the offset 0. -/
theorem and_offset_of_aligned {x : UInt32} (h : x.toNat % 4096 = 0) : x &&& 0xFFF = 0 := by
  rw [← UInt32.toNat_inj, toNat_and_offset, h]
  rfl

theorem toNat_and_index (x : UInt32) : (x &&& 0x3FF).toNat = x.toNat % 1024 := by
  have h := nat_and_field x.toNat 10 0
  simpa [UInt32.toNat_and] using h

theorem toNat_and_middle (x : UInt32) :
    (x &&& 0x003FF000).toNat = x.toNat / 4096 % 1024 * 4096 := by
  rw [UInt32.toNat_and]
  exact nat_and_field x.toNat 10 12

theorem toNat_and_one (x : UInt32) : (x &&& 1).toNat = x.toNat % 2 := by
  rw [UInt32.toNat_and]
  exact Nat.and_one_is_mod _

/-- Joining two words that share no binary digit adds them. -/
theorem toNat_or (x y : UInt32) (k : ℕ) (hx : x.toNat % 2 ^ k = 0) (hy : y.toNat < 2 ^ k) :
    (x ||| y).toNat = x.toNat + y.toNat := by
  have e : x.toNat = (x.toNat / 2 ^ k) <<< k := by
    rw [Nat.shiftLeft_eq, Nat.div_mul_cancel (Nat.dvd_of_mod_eq_zero hx)]
  rw [UInt32.toNat_or, e]
  exact (Nat.shiftLeft_add_eq_or_of_lt hy _).symm

/-- Joining with a word changes nothing exactly when its digits are set. -/
theorem eq_or_iff (x y : UInt32) : x = x ||| y ↔ x &&& y = y := by
  rw [← UInt32.toBitVec_inj, ← UInt32.toBitVec_inj, UInt32.toBitVec_or, UInt32.toBitVec_and]
  constructor
  · intro h
    ext i hi
    have hbit := congrArg (fun b : BitVec 32 => b[i]) h
    simp only [BitVec.getElem_or] at hbit
    rw [BitVec.getElem_and, hbit, Bool.and_eq_right_iff_imp, Bool.or_eq_true]
    exact Or.inr
  · intro h
    ext i hi
    have hbit := congrArg (fun b : BitVec 32 => b[i]) h
    simp only [BitVec.getElem_and] at hbit
    rw [BitVec.getElem_or, ← hbit, eq_comm, Bool.or_eq_left_iff_imp, Bool.and_eq_true]
    exact And.left

/-! ### The binary digits of a byte -/

/-- The byte with only the digit `7 - j` set. -/
def mask (j : ℕ) : UInt8 := 1 <<< UInt8.ofNat (7 - j)

/-- A fact about all bytes is a fact about the numbers below 256. -/
theorem forall_byte {P : UInt8 → Prop} (h : ∀ n < 256, P (UInt8.ofNat n)) (b : UInt8) : P b := by
  have := h b.toNat b.toNat_lt
  rwa [UInt8.ofNat_toNat] at this

/-- `b == (b | mask)` tests the digit. -/
theorem eq_or_mask_iff (b : UInt8) {j : ℕ} (hj : j < 8) :
    b = b ||| mask j ↔ b.toNat.testBit (7 - j) = true := by
  have h : ∀ b : UInt8, ∀ j < 8, b = b ||| mask j ↔ b.toNat.testBit (7 - j) = true :=
    forall_byte (by decide +kernel)
  exact h b j hj

/-- `b - mask` clears a digit that is set and keeps the others. -/
theorem testBit_sub_mask (b : UInt8) {i j : ℕ} (hi : i < 8) (hj : j < 8)
    (hb : b.toNat.testBit (7 - j) = true) :
    (b - mask j).toNat.testBit (7 - i) = (b.toNat.testBit (7 - i) && decide (i ≠ j)) := by
  have h : ∀ b : UInt8, ∀ j < 8, b.toNat.testBit (7 - j) = true → b - mask j = b &&& ~~~mask j :=
    forall_byte (by decide +kernel)
  have hm : ∀ i < 8, ∀ j < 8, (~~~mask j).toNat.testBit (7 - i) = decide (i ≠ j) := by
    decide +kernel
  rw [h b j hj hb, UInt8.toNat_and, Nat.testBit_and, hm i hi j hj]

/-- `b | mask` sets a digit and keeps the others. -/
theorem testBit_or_mask (b : UInt8) {i j : ℕ} (hi : i < 8) (hj : j < 8) :
    (b ||| mask j).toNat.testBit (7 - i) = (b.toNat.testBit (7 - i) || decide (i = j)) := by
  have hm : ∀ i < 8, ∀ j < 8, (mask j).toNat.testBit (7 - i) = decide (i = j) := by
    decide +kernel
  rw [UInt8.toNat_or, Nat.testBit_or, hm i hi j hj]

/-- There are `2 ^ 32` words. -/
theorem length_le_of_nodup {l : List UInt32} (h : l.Nodup) : l.length ≤ 2 ^ 32 := by
  have hc : (l.map UInt32.toNat).Nodup := h.map fun a b e => UInt32.toNat_inj.mp e
  have hsub : (l.map UInt32.toNat) ⊆ List.range (2 ^ 32) := by
    intro x hx
    obtain ⟨a, -, rfl⟩ := List.mem_map.mp hx
    exact List.mem_range.mpr a.toNat_lt
  have hlen := (hc.subperm hsub).length_le
  rwa [List.length_map, List.length_range] at hlen

end Words
