import Mathlib.Data.BitVec
import Mathlib.Logic.Function.Basic

/-!
# Mixing words

The two steps that hash mixers are made of are injective: the exclusive or with a shifted copy of
the word (`xorShift_injective`), and the multiplication by an odd constant, given its inverse
(`mul_injective`). Words that are told apart are told apart by one of their digits
(`exists_digit_ne`).
-/

namespace Foundations

variable {w : ℕ}

/-- A word that its own shift equals is zero. -/
theorem eq_zero_of_eq_shift {n : ℕ} (hn : 0 < n) {z : BitVec w} (hz : z = z >>> n) : z = 0#w := by
  apply BitVec.eq_of_toNat_eq
  have hdiv : z.toNat = z.toNat / 2 ^ n := by
    conv_lhs => rw [hz]
    rw [BitVec.toNat_ushiftRight, Nat.shiftRight_eq_div_pow]
  by_contra hne
  have hpos : 0 < z.toNat := Nat.pos_of_ne_zero (by simpa using hne)
  have hlt : z.toNat / 2 ^ n < z.toNat := Nat.div_lt_self hpos (Nat.one_lt_two_pow hn.ne')
  omega

theorem xorShift_injective {n : ℕ} (hn : 0 < n) :
    Function.Injective fun x : BitVec w => x ^^^ (x >>> n) := by
  intro x y hxy
  have hshift : x ^^^ y = (x ^^^ y) >>> n := by
    rw [BitVec.ushiftRight_xor_distrib]
    have hsum : (x ^^^ (x >>> n)) ^^^ (y ^^^ (y >>> n)) = 0#w := by
      rw [show x ^^^ (x >>> n) = y ^^^ (y >>> n) from hxy, BitVec.xor_self]
    have hsplit : (x ^^^ y) ^^^ (x >>> n ^^^ y >>> n) = 0#w := by
      rw [← hsum]
      ac_rfl
    exact BitVec.xor_eq_zero_iff.mp hsplit
  exact BitVec.xor_eq_zero_iff.mp (eq_zero_of_eq_shift hn hshift)

theorem mul_injective {c d : BitVec w} (hinv : c * d = 1#w) :
    Function.Injective fun x : BitVec w => x * c := by
  intro x y hxy
  have hcancel : ∀ z : BitVec w, z * c * d = z := by
    intro z
    rw [BitVec.mul_assoc, hinv, BitVec.mul_one]
  rw [← hcancel x, ← hcancel y]
  exact congrArg (· * d) hxy

/-- The `i`-th digit of `k` bits, the lowest first. -/
def digit (k i : ℕ) (x : BitVec w) : BitVec k := (x >>> (k * i)).setWidth k

/-- Words whose digits are the same are the same. -/
theorem eq_of_digits {k n : ℕ} (hk : 0 < k) (hw : w ≤ k * n) {x y : BitVec w}
    (h : ∀ i < n, digit k i x = digit k i y) : x = y := by
  apply BitVec.eq_of_getLsbD_eq
  intro j hj
  have hdiv : j / k < n := (Nat.div_lt_iff_lt_mul hk).mpr (by rw [Nat.mul_comm]; omega)
  have hbit := congrArg (fun z => z.getLsbD (j % k)) (h (j / k) hdiv)
  simpa [digit, Nat.mod_lt j hk, Nat.div_add_mod] using hbit

theorem exists_digit_ne {k n : ℕ} (hk : 0 < k) (hw : w ≤ k * n) {x y : BitVec w} (hxy : x ≠ y) :
    ∃ i < n, digit k i x ≠ digit k i y := by
  by_contra hall
  push Not at hall
  exact hxy (eq_of_digits hk hw hall)

end Foundations
