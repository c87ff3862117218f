import Mathlib.Algebra.Algebra.Rat
import Mathlib.Tactic.LinearCombination
import Sharko.Library.Fourier

/-! The in-place radix-2 transform of the audio nodes. It works on pairs of arrays, the real and the
imaginary parts; each pair of entries is one number of a field. -/

namespace Sharko.Script.WebAudio

open Sharko.Library Fourier Finset

structure Samples (K : Type*) where
  re : ℕ → K
  im : ℕ → K

/-- The plan of a length: a table of sines and cosines, and the places of the reversed indices. -/
structure Plan (K : Type*) where
  cos : ℕ → K
  sin : ℕ → K
  rev : ℕ → ℕ

def bitsOf (n : ℕ) : ℕ := Nat.clog 2 n

/-- The bits of an index, the lowest one first, each set at its place from the top. -/
def revOf (n i : ℕ) : ℕ :=
  (List.range (bitsOf n)).foldl
    (fun r b => if i.testBit b then r ||| 1 <<< (bitsOf n - 1 - b) else r) 0

def fftPlan {K : Type*} (cosine sine : ℕ → K) (n : ℕ) : Plan K := ⟨cosine,sine,revOf n⟩

section loops

variable {α : Type*}

def sweep (butterfly : ℕ → ℕ → ℕ → α → α) (n : ℕ) (x : α) (size : ℕ) : α :=
  let half := size / 2
  let step := n / size
  (List.range (n / size)).foldl (fun x q =>
    (List.range half).foldl (fun x j => butterfly (q * size + j) (q * size + j + half) (j * step) x) x) x

def passes (butterfly : ℕ → ℕ → ℕ → α → α) (n : ℕ) (x : α) : α :=
  ((List.range n.log2).map fun t => 2 ^ (t + 1)).foldl (sweep butterfly n) x

end loops

namespace Samples

variable {K : Type*} [CommRing K]

def exchange (i j : ℕ) (x : Samples K) : Samples K where
  re := Function.update (Function.update x.re i (x.re j)) j (x.re i)
  im := Function.update (Function.update x.im i (x.im j)) j (x.im i)

def butterfly (c s : K) (a b : ℕ) (x : Samples K) : Samples K :=
  let tr := x.re b * c - x.im b * s
  let ti := x.re b * s + x.im b * c
  { re := Function.update (Function.update x.re b (x.re a - tr)) a (x.re a + tr)
    im := Function.update (Function.update x.im b (x.im a - ti)) a (x.im a + ti) }

end Samples

section field

variable {F : Type*} [Field F]

def exchange (i j : ℕ) (x : ℕ → F) : ℕ → F := Function.update (Function.update x i (x j)) j (x i)

def butterfly (w : F) (a b : ℕ) (x : ℕ → F) : ℕ → F :=
  let t := x b * w
  Function.update (Function.update x b (x a - t)) a (x a + t)

def join {K : Type*} [CommRing K] [Algebra K F] (i : F) (x : Samples K) : ℕ → F :=
  fun k => algebraMap K F (x.re k) + i * algebraMap K F (x.im k)

section pairs

variable {K : Type*} [CommRing K] [Algebra K F] {i : F}

end pairs

end field

section field

variable {F : Type*} [Field F]

def passed (w : ℕ → F) (half : ℕ) (x : ℕ → F) (k : ℕ) : F :=
  let r := k % (2 * half)
  if r < half then x k + x (k + half) * w r else x (k - half) - x k * w (r - half)

/-- After so many passes every block holds the transform of the entries that its place stands for. -/
def Transformed (w : F) (m t : ℕ) (x y : ℕ → F) : Prop :=
  ∀ b < 2 ^ (m - t),∀ k < 2 ^ t,y (b * 2 ^ t + k) =
    dft (w ^ 2 ^ (m - t)) (2 ^ t) (fun j => x (reverse (m - t) b + j * 2 ^ (m - t))) k

theorem Transformed.pass {w : F} {m t : ℕ} {x y : ℕ → F} (primitive : IsPrimitiveRoot w (2 ^ m))
    (more : t < m) (h : Transformed w m t x y) : Transformed w m (t + 1) x fun k =>
      if k < 2 ^ m then passed (fun j => w ^ (j * 2 ^ (m - (t + 1)))) (2 ^ t) y k else y k := by
  obtain ⟨d,hd⟩ : ∃ d,m - t = d + 1 := ⟨m - t - 1,by omega⟩
  have hd' : m - (t + 1) = d := by omega
  have total : 2 ^ m = 2 ^ d * (2 * 2 ^ t) := by
    rw [← Nat.pow_succ',← pow_add]
    congr 1
    omega
  intro b hb k hk
  rw [hd'] at hb ⊢
  rw [Nat.pow_succ'] at hk
  have inside : b * 2 ^ (t + 1) + k < 2 ^ m := by
    rw [total,Nat.pow_succ']
    calc b * (2 * 2 ^ t) + k < b * (2 * 2 ^ t) + 2 * 2 ^ t := by omega
      _ = (b + 1) * (2 * 2 ^ t) := (Nat.succ_mul _ _).symm
      _ ≤ 2 ^ d * (2 * 2 ^ t) := Nat.mul_le_mul_right _ hb
  have square : (w ^ 2 ^ d) ^ 2 = w ^ 2 ^ (d + 1) := by rw [← pow_mul,Nat.pow_succ]
  have minus : (w ^ 2 ^ d) ^ 2 ^ t = -1 := by
    apply pow_half_eq _ (Nat.two_pow_pos t)
    apply primitive.pow (Nat.two_pow_pos m)
    rw [total]
  have even : ∀ r < 2 ^ t,y (b * (2 * 2 ^ t) + r) = dft ((w ^ 2 ^ d) ^ 2) (2 ^ t)
      (fun j => x (reverse d b + 2 * j * 2 ^ d)) r := by
    intro r hr
    have := h (2 * b) (by rw [hd,Nat.pow_succ]; omega) r hr
    rw [hd,reverse_double,← square] at this
    rw [show b * (2 * 2 ^ t) = 2 * b * 2 ^ t by ring,this]
    congr 1
    funext j
    rw [Nat.pow_succ]
    congr 1
    ring
  have odd : ∀ r < 2 ^ t,y (b * (2 * 2 ^ t) + 2 ^ t + r) = dft ((w ^ 2 ^ d) ^ 2) (2 ^ t)
      (fun j => x (reverse d b + (2 * j + 1) * 2 ^ d)) r := by
    intro r hr
    have := h (2 * b + 1) (by rw [hd,Nat.pow_succ]; omega) r hr
    rw [hd,reverse_double_succ,← square] at this
    rw [show b * (2 * 2 ^ t) + 2 ^ t = (2 * b + 1) * 2 ^ t by ring,this]
    congr 1
    funext j
    rw [Nat.pow_succ]
    congr 1
    ring
  beta_reduce
  rw [if_pos inside,passed,Nat.pow_succ',Nat.mul_comm b,Nat.mul_add_mod,Nat.mod_eq_of_lt hk,Nat.mul_comm _ b]
  by_cases low : k < 2 ^ t
  · rw [if_pos low,dft_double,← even k low,← odd k low,Nat.mul_comm k,pow_mul,
      show b * (2 * 2 ^ t) + k + 2 ^ t = b * (2 * 2 ^ t) + 2 ^ t + k by omega]
  · obtain ⟨r,rfl⟩ : ∃ r,k = r + 2 ^ t := ⟨k - 2 ^ t,by omega⟩
    rw [if_neg low,dft_double_add minus,← even r (by omega),← odd r (by omega),Nat.add_sub_cancel,
      Nat.mul_comm r,pow_mul,show b * (2 * 2 ^ t) + (r + 2 ^ t) - 2 ^ t = b * (2 * 2 ^ t) + r by omega,
      show b * (2 * 2 ^ t) + (r + 2 ^ t) = b * (2 * 2 ^ t) + 2 ^ t + r by omega]

end field

end Sharko.Script.WebAudio
