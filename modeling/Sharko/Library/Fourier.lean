import Mathlib.Algebra.BigOperators.Intervals
import Mathlib.Algebra.Field.GeomSum
import Mathlib.Data.Nat.Bitwise
import Mathlib.RingTheory.RootsOfUnity.PrimitiveRoots

/-! The discrete Fourier transform over a field: its halves, its inverse, and the reversal of the binary
digits that orders the halves of halves. -/

namespace Sharko.Library.Fourier

open Finset

section transform

variable {F : Type*} [Field F]

def dft (ω : F) (n : ℕ) (x : ℕ → F) (k : ℕ) : F := ∑ j ∈ range n,x j * ω ^ (j * k)

@[simp] theorem dft_one (ω : F) (x : ℕ → F) : dft ω 1 x 0 = x 0 := by simp [dft]

theorem sum_range_double (n : ℕ) (f : ℕ → F) :
    ∑ j ∈ range (2 * n),f j = (∑ j ∈ range n,f (2 * j)) + ∑ j ∈ range n,f (2 * j + 1) := by
  induction n with
  | zero => simp
  | succ n ih =>
    rw [Nat.mul_succ,sum_range_succ,sum_range_succ,ih,sum_range_succ,sum_range_succ]
    ring

theorem dft_double (ω : F) (n : ℕ) (x : ℕ → F) (k : ℕ) :
    dft ω (2 * n) x k = dft (ω ^ 2) n (fun j => x (2 * j)) k +
      dft (ω ^ 2) n (fun j => x (2 * j + 1)) k * ω ^ k := by
  rw [dft,sum_range_double,dft,dft,sum_mul]
  congr 1
  · apply sum_congr rfl
    intro j _
    rw [← pow_mul,Nat.mul_assoc]
  · apply sum_congr rfl
    intro j _
    rw [← pow_mul]
    ring

theorem dft_add_period {ω : F} {n : ℕ} (unity : ω ^ n = 1) (x : ℕ → F) (k : ℕ) :
    dft ω n x (k + n) = dft ω n x k := by
  apply sum_congr rfl
  intro j _
  rw [Nat.mul_add,pow_add,Nat.mul_comm j n,pow_mul ω n,unity,one_pow,mul_one]

theorem dft_double_add {ω : F} {n : ℕ} (half : ω ^ n = -1) (x : ℕ → F) (k : ℕ) :
    dft ω (2 * n) x (k + n) = dft (ω ^ 2) n (fun j => x (2 * j)) k -
      dft (ω ^ 2) n (fun j => x (2 * j + 1)) k * ω ^ k := by
  have unity : (ω ^ 2) ^ n = 1 := by rw [← pow_mul,Nat.mul_comm,pow_mul,half,neg_one_sq]
  rw [dft_double,dft_add_period unity,dft_add_period unity,pow_add,half]
  ring

theorem pow_half_eq {ω : F} {n : ℕ} (primitive : IsPrimitiveRoot ω (2 * n)) (pos : 0 < n) : ω ^ n = -1 := by
  have square : ω ^ n * ω ^ n = 1 := by rw [← pow_add,← two_mul,primitive.pow_eq_one]
  rcases mul_self_eq_one_iff.mp square with one | neg
  · exact absurd one (primitive.pow_ne_one_of_pos_of_lt pos.ne' (by omega))
  · exact neg

end transform

section digits

def reverse : ℕ → ℕ → ℕ
  | 0,_ => 0
  | m + 1,b => reverse m (b / 2) + b % 2 * 2 ^ m

theorem reverse_lt (m b : ℕ) : reverse m b < 2 ^ m := by
  induction m generalizing b with
  | zero => simp [reverse]
  | succ m ih =>
    have digit : b % 2 * 2 ^ m ≤ 1 * 2 ^ m := Nat.mul_le_mul_right _ (by omega)
    have := ih (b / 2)
    rw [reverse,Nat.pow_succ]
    omega

theorem testBit_reverse (m b k : ℕ) : (reverse m b).testBit k = (decide (k < m) && b.testBit (m - 1 - k)) := by
  induction m generalizing b with
  | zero => simp [reverse]
  | succ m ih =>
    rw [reverse,Nat.add_comm,Nat.mul_comm,Nat.testBit_two_pow_mul_add _ (reverse_lt m _)]
    split_ifs with low
    · rw [ih,Nat.testBit_div_two,show m - 1 - k + 1 = m + 1 - 1 - k by omega]
      simp [low,Nat.lt_succ_of_lt low]
    · rcases Nat.eq_or_lt_of_le (Nat.le_of_not_lt low) with top | above
      · subst top
        simp [Nat.testBit_zero]
      · have : (b % 2).testBit (k - m) = false := by
          apply Nat.testBit_lt_two_pow
          calc b % 2 < 2 := Nat.mod_lt _ (by decide)
            _ = 2 ^ 1 := rfl
            _ ≤ 2 ^ (k - m) := Nat.pow_le_pow_right (by decide) (by omega)
        simp [this,show ¬ k < m + 1 by omega]

theorem reverse_reverse {m b : ℕ} (small : b < 2 ^ m) : reverse m (reverse m b) = b := by
  apply Nat.eq_of_testBit_eq
  intro k
  rw [testBit_reverse,testBit_reverse]
  by_cases inside : k < m
  · rw [show m - 1 - (m - 1 - k) = k by omega]
    simp [inside,show m - 1 - k < m by omega]
  · have : b.testBit k = false :=
      Nat.testBit_lt_two_pow (lt_of_lt_of_le small (Nat.pow_le_pow_right (by decide) (by omega)))
    simp [inside,this]

theorem reverse_double (m b : ℕ) : reverse (m + 1) (2 * b) = reverse m b := by
  rw [reverse]
  simp

theorem reverse_double_succ (m b : ℕ) : reverse (m + 1) (2 * b + 1) = reverse m b + 2 ^ m := by
  rw [reverse,show (2 * b + 1) / 2 = b by omega,show (2 * b + 1) % 2 = 1 by omega,one_mul]

end digits

end Sharko.Library.Fourier
