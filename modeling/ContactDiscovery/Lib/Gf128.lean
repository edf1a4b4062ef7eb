/-
  ContactDiscovery.Lib.Gf128 — the field of GHASH (NIST SP 800-38D): blocks of 128 bits, read as polynomials
  over two elements with the leftmost bit first, modulo `x^128 + x^7 + x^2 + x + 1`.

  `mul` is the standard's bit by bit multiplication. In any ring with such an `x` it is the product
  (`value_mul`), and in the quotient ring a block is known by its value (`value_inj`). So an
  implementation may be checked in the ring, by values alone: `value_eq_pow_mul_eval` takes a value to the
  polynomial of the integer in `1/x`, on which a carry-less product is the product (`eval_clmul`) and
  shifts are powers (`eval_shift`).
-/

import Mathlib

namespace ContactDiscovery.Lib.Gf128

abbrev Block := BitVec 128

/-! ## The standard's multiplication -/

/-- `x^128`, as `x^7 + x^2 + x + 1`. -/
def r : Block := 0xE1 <<< 120

/-- By `x`. -/
def shiftStep (v : Block) : Block := if v.getLsbD 0 then (v >>> 1) ^^^ r else v >>> 1

/-- The first `i` bits of `a`: the sum so far, and `b` times `x^i`. -/
def mulSteps (a b : Block) : Nat → Block × Block
  | 0 => (0, b)
  | i + 1 =>
    let (z, v) := mulSteps a b i
    (if a.getMsbD i then z ^^^ v else z, shiftStep v)

def mul (a b : Block) : Block := (mulSteps a b 128).1

/-- GHASH from the value `y` on. -/
def ghash (h y : Block) (blocks : List Block) : Block := blocks.foldl (fun y block => mul (y ^^^ block) h) y

theorem ghash_append (h y : Block) (a b : List Block) : ghash h y (a ++ b) = ghash h (ghash h y a) b := List.foldl_append

/-! ## Values of bits -/

section Eval

variable {R : Type} [CommRing R]

/-- The polynomial of some bits, at `y`. -/
def evalBits (y : R) (f : Nat → Bool) (n : Nat) : R := ∑ i ∈ Finset.range n, if f i then y ^ i else 0

theorem evalBits_congr {y : R} {f g : Nat → Bool} {n : Nat} (h : ∀ i < n, f i = g i) : evalBits y f n = evalBits y g n :=
  Finset.sum_congr rfl fun i hi => by rw [h i (Finset.mem_range.mp hi)]

theorem evalBits_false {y : R} {f : Nat → Bool} {n : Nat} (h : ∀ i < n, f i = false) : evalBits y f n = 0 :=
  Finset.sum_eq_zero fun i hi => by rw [h i (Finset.mem_range.mp hi)]; rfl

theorem evalBits_split (y : R) (f : Nat → Bool) {k m n : Nat} (h : k = m + n) :
    evalBits y f k = evalBits y f m + y ^ m * evalBits y (fun i => f (m + i)) n := by
  rw [h, evalBits, evalBits, evalBits, Finset.sum_range_add, Finset.mul_sum]
  congr 1
  apply Finset.sum_congr rfl
  intro i _
  rw [mul_ite, mul_zero, pow_add]

/-- The polynomial of a number, the lowest bit first, at `y`. -/
def eval {n : Nat} (y : R) (w : BitVec n) : R := evalBits y w.getLsbD n

theorem eval_zero {n : Nat} (y : R) : eval y (0 : BitVec n) = 0 := evalBits_false fun _ _ => BitVec.getLsbD_zero

theorem ite_xor [CharP R 2] (p q : Bool) (t : R) :
    (if (p ^^ q) then t else 0) = (if p then t else 0) + (if q then t else 0) := by
  cases p <;> cases q <;> simp [CharTwo.add_self_eq_zero]

theorem eval_xor [CharP R 2] {n : Nat} (y : R) (a b : BitVec n) : eval y (a ^^^ b) = eval y a + eval y b := by
  simp only [eval, evalBits, BitVec.getLsbD_xor, ite_xor, Finset.sum_add_distrib]

theorem eval_append {m n : Nat} (y : R) (hi : BitVec m) (lo : BitVec n) : eval y (hi ++ lo) = eval y lo + y ^ n * eval y hi := by
  have hlow : ∀ i < n, (hi ++ lo).getLsbD i = lo.getLsbD i := by
    intro i h
    rw [BitVec.getLsbD_append, if_pos h]
  have hhigh : ∀ i < m, (hi ++ lo).getLsbD (n + i) = hi.getLsbD i := by
    intro i _
    rw [BitVec.getLsbD_append, if_neg (by omega), Nat.add_sub_cancel_left]
  rw [eval, evalBits_split y _ (Nat.add_comm m n), evalBits_congr hlow, evalBits_congr hhigh]
  rfl

theorem eval_setWidth {m n : Nat} (h : m ≤ n) (y : R) (w : BitVec m) : eval y (w.setWidth n) = eval y w := by
  obtain ⟨k, rfl⟩ : ∃ k, n = m + k := ⟨n - m, by omega⟩
  have hlow : ∀ i < m, (w.setWidth (m + k)).getLsbD i = w.getLsbD i := by
    intro i hi
    simp [show i < m + k by omega]
  have hhigh : ∀ i < k, (w.setWidth (m + k)).getLsbD (m + i) = false := by
    intro i _
    rw [BitVec.getLsbD_setWidth, BitVec.getLsbD_of_ge _ _ (by omega), Bool.and_false]
  rw [eval, evalBits_split y _ rfl, evalBits_congr hlow, evalBits_false hhigh, mul_zero, add_zero]
  rfl

/-- What is shifted out at one side comes in at the other. -/
theorem eval_shift {n k : Nat} (hk : k ≤ n) (y : R) (w : BitVec n) :
    y ^ (n - k) * eval y w = y ^ n * eval y (w >>> k) + eval y (w <<< (n - k)) := by
  obtain ⟨m, rfl⟩ : ∃ m, n = k + m := ⟨n - k, by omega⟩
  have hright : eval y (w >>> k) = evalBits y (fun i => w.getLsbD (k + i)) m := by
    have hlow : ∀ i < m, (w >>> k).getLsbD i = w.getLsbD (k + i) := fun i _ => BitVec.getLsbD_ushiftRight ..
    have hhigh : ∀ i < k, (w >>> k).getLsbD (m + i) = false := by
      intro i _
      rw [BitVec.getLsbD_ushiftRight, BitVec.getLsbD_of_ge _ _ (by omega)]
    rw [eval, evalBits_split y _ (Nat.add_comm k m), evalBits_congr hlow, evalBits_false hhigh, mul_zero, add_zero]
  have hleft : eval y (w <<< m) = y ^ m * evalBits y w.getLsbD k := by
    have hlow : ∀ i < m, (w <<< m).getLsbD i = false := by
      intro i hi
      simp [BitVec.getLsbD_shiftLeft, hi]
    have hhigh : ∀ i < k, (w <<< m).getLsbD (m + i) = w.getLsbD i := by
      intro i hi
      rw [BitVec.getLsbD_shiftLeft, Nat.add_sub_cancel_left]
      simp [show m + i < k + m by omega]
    rw [eval, evalBits_split y _ (Nat.add_comm k m), evalBits_false hlow, evalBits_congr hhigh, zero_add]
  rw [Nat.add_sub_cancel_left, hright, hleft, eval, evalBits_split y _ rfl]
  ring

theorem eval_shiftLeft {n k : Nat} (hk : k ≤ n) (y : R) {w : BitVec n} (h : ∀ i, n - k ≤ i → w.getLsbD i = false) :
    eval y (w <<< k) = y ^ k * eval y w := by
  have hshift := eval_shift (show n - k ≤ n by omega) y w
  have hzero : eval y (w >>> (n - k)) = 0 :=
    evalBits_false fun i _ => by rw [BitVec.getLsbD_ushiftRight, h _ (by omega)]
  rw [hzero, mul_zero, zero_add, show n - (n - k) = k by omega] at hshift
  exact hshift.symm

/-! ## Carry-less products -/

/-- The first `i` bits of `a`. -/
def clmulSteps (a b : BitVec 64) : Nat → BitVec 128
  | 0 => 0
  | i + 1 => if a.getLsbD i then clmulSteps a b i ^^^ (b.setWidth 128 <<< i) else clmulSteps a b i

/-- The product of two quadwords, by `pclmulqdq`. -/
def clmul (a b : BitVec 64) : BitVec 128 := clmulSteps a b 64

theorem eval_clmulSteps [CharP R 2] (y : R) (a b : BitVec 64) {i : Nat} (hi : i ≤ 64) :
    eval y (clmulSteps a b i) = evalBits y a.getLsbD i * eval y b := by
  induction i with
  | zero => rw [clmulSteps, eval_zero, evalBits, Finset.range_zero, Finset.sum_empty, zero_mul]
  | succ i ih =>
    have hterm : eval y (b.setWidth 128 <<< i) = y ^ i * eval y b := by
      rw [eval_shiftLeft (by omega), eval_setWidth (by decide)]
      intro j hj
      rw [BitVec.getLsbD_setWidth, BitVec.getLsbD_of_ge b _ (by omega), Bool.and_false]
    rw [clmulSteps, evalBits, Finset.sum_range_succ, ← evalBits, add_mul, ← ih (by omega)]
    split
    · rw [eval_xor, hterm]
    · rw [zero_mul, add_zero]

theorem eval_clmul [CharP R 2] (y : R) (a b : BitVec 64) : eval y (clmul a b) = eval y a * eval y b :=
  eval_clmulSteps y a b (Nat.le_refl 64)

omit [CommRing R] in
/-- A product has 127 bits. -/
theorem clmul_top (a b : BitVec 64) : (clmul a b).getLsbD 127 = false := by
  suffices h : ∀ i ≤ 64, (clmulSteps a b i).getLsbD 127 = false from h 64 (Nat.le_refl 64)
  intro i hi
  induction i with
  | zero => exact BitVec.getLsbD_zero
  | succ i ih =>
    have hterm : (b.setWidth 128 <<< i).getLsbD 127 = false := by
      rw [BitVec.getLsbD_shiftLeft, BitVec.getLsbD_setWidth, BitVec.getLsbD_of_ge b _ (by omega)]
      simp
    rw [clmulSteps]
    split
    · rw [BitVec.getLsbD_xor, ih (by omega), hterm]; rfl
    · exact ih (by omega)

/-! ## Blocks -/

/-- The polynomial of a block, the leftmost bit first, at `x`. -/
def value (x : R) (w : Block) : R := evalBits x w.getMsbD 128

theorem value_xor [CharP R 2] (x : R) (a b : Block) : value x (a ^^^ b) = value x a + value x b := by
  simp only [value, evalBits, BitVec.getMsbD_xor, ite_xor, Finset.sum_add_distrib]

/-- A block is its integer, with the powers from the other end. -/
theorem value_eq_pow_mul_eval {x y : R} (hxy : x * y = 1) (w : Block) : value x w = x ^ 127 * eval y w := by
  rw [value, eval, evalBits, evalBits, ← Finset.sum_range_reflect, Finset.mul_sum]
  apply Finset.sum_congr rfl
  intro i hi
  have hi := Finset.mem_range.mp hi
  have hpow : x ^ 127 * y ^ i = x ^ (127 - i) := by
    rw [show x ^ 127 = x ^ (127 - i) * x ^ i by rw [← pow_add]; congr 1; omega, mul_assoc, ← mul_pow, hxy, one_pow, mul_one]
  rw [BitVec.getMsbD_eq_getLsbD, mul_ite, mul_zero, hpow]
  simp only [show 128 - 1 - (128 - 1 - i) = i by omega, show 128 - 1 - i < 128 by omega, decide_true, Bool.true_and]

/-! ## The multiplication in the ring -/

variable {x : R} [CharP R 2]

omit [CharP R 2] in
theorem value_r : value x r = x ^ 7 + x ^ 2 + x + 1 := by
  have hhigh : ∀ i < 120, r.getMsbD (8 + i) = false := by decide
  have hlow : ∀ i < 8, r.getMsbD i = decide (i = 0 ∨ i = 1 ∨ i = 2 ∨ i = 7) := by decide
  rw [value, evalBits_split x _ (show 128 = 8 + 120 from rfl), evalBits_false hhigh, evalBits_congr hlow]
  simp [evalBits, Finset.sum_range_succ]
  ring

omit [CharP R 2] in
theorem value_ushiftRight (v : Block) :
    x * value x v = value x (v >>> 1) + if v.getLsbD 0 then x ^ 128 else 0 := by
  have hfirst : ∀ i < 1, (v >>> 1).getMsbD i = false := by
    intro i hi
    rw [BitVec.getMsbD_ushiftRight]
    simp [hi]
  have hrest : ∀ i < 127, (v >>> 1).getMsbD (1 + i) = v.getMsbD i := by
    intro i hi
    rw [BitVec.getMsbD_ushiftRight, Nat.add_sub_cancel_left]
    simp [show 1 + i < 128 by omega]
  have hlast : evalBits x (fun i => v.getMsbD (127 + i)) 1 = if v.getLsbD 0 then 1 else 0 := by
    simp [evalBits, BitVec.getMsbD_eq_getLsbD]
  rw [value, value, evalBits_split x v.getMsbD (show 128 = 127 + 1 from rfl), hlast,
    evalBits_split x (v >>> 1).getMsbD (show 128 = 1 + 127 from rfl), evalBits_false hfirst, evalBits_congr hrest]
  split <;> ring

theorem value_shiftStep (hx : x ^ 128 = x ^ 7 + x ^ 2 + x + 1) (v : Block) : value x (shiftStep v) = x * value x v := by
  rw [value_ushiftRight, shiftStep]
  split
  · rw [value_xor, value_r, hx]
  · rw [add_zero]

theorem value_mulSteps (hx : x ^ 128 = x ^ 7 + x ^ 2 + x + 1) (a b : Block) (i : Nat) :
    value x (mulSteps a b i).1 = evalBits x a.getMsbD i * value x b ∧ value x (mulSteps a b i).2 = x ^ i * value x b := by
  induction i with
  | zero =>
    have hzero : value x (0 : Block) = 0 := evalBits_false fun _ _ => BitVec.getMsbD_zero
    refine ⟨?_, by rw [mulSteps, pow_zero, one_mul]⟩
    rw [mulSteps, hzero, evalBits, Finset.range_zero, Finset.sum_empty, zero_mul]
  | succ i ih =>
    obtain ⟨hz, hv⟩ := ih
    simp only [mulSteps]
    refine ⟨?_, by rw [value_shiftStep hx, hv]; ring⟩
    rw [evalBits, Finset.sum_range_succ, ← evalBits, add_mul, ← hz]
    split
    · rw [value_xor, hv]
    · rw [zero_mul, add_zero]

theorem value_mul (hx : x ^ 128 = x ^ 7 + x ^ 2 + x + 1) (a b : Block) : value x (mul a b) = value x a * value x b :=
  (value_mulSteps hx a b 128).1

end Eval

/-! ## The quotient ring -/

open Polynomial

/-- `x^n + x^7 + x^2 + x + 1`. -/
noncomputable def modulus (n : Nat) : (ZMod 2)[X] := X ^ n + (X ^ 7 + X ^ 2 + X + 1)

theorem degree_modulus {n : Nat} (hn : 7 < n) : (modulus n).degree = n := by
  have hlow : (X ^ 7 + X ^ 2 + X + 1 : (ZMod 2)[X]).degree < (n : WithBot Nat) := by compute_degree!
  rw [modulus, degree_add_eq_left_of_degree_lt]
  · exact degree_X_pow n
  · rw [degree_X_pow]
    exact hlow

abbrev Quotient (n : Nat) := AdjoinRoot (modulus n)

noncomputable def root (n : Nat) : Quotient n := AdjoinRoot.root (modulus n)

theorem charP_quotient {n : Nat} (hn : 7 < n) : CharP (Quotient n) 2 := by
  have hnontrivial : Nontrivial (Quotient n) := by
    apply AdjoinRoot.nontrivial
    rw [degree_modulus hn]
    exact_mod_cast (show n ≠ 0 by omega)
  exact charP_of_injective_algebraMap (algebraMap (ZMod 2) (Quotient n)).injective 2

theorem root_pow_add (n : Nat) : root n ^ n + (root n ^ 7 + root n ^ 2 + root n + 1) = 0 := by
  have hself : AdjoinRoot.mk (modulus n) (X ^ n + (X ^ 7 + X ^ 2 + X + 1)) = 0 := AdjoinRoot.mk_self
  simp only [map_add, map_pow, AdjoinRoot.mk_X, map_one] at hself
  exact hself

theorem evalBits_map {R S : Type} [CommRing R] [CommRing S] (φ : R →+* S) (y : R) (f : Nat → Bool) (n : Nat) :
    φ (evalBits y f n) = evalBits (φ y) f n := by
  rw [evalBits, evalBits, map_sum]
  apply Finset.sum_congr rfl
  intro i _
  rw [apply_ite φ, map_pow, map_zero]

theorem coeff_evalBits (f : Nat → Bool) (n i : Nat) :
    (evalBits (X : (ZMod 2)[X]) f n).coeff i = if i < n ∧ f i then 1 else 0 := by
  rw [evalBits, finsetSum_coeff]
  have hterm : ∀ j, (if f j then (X : (ZMod 2)[X]) ^ j else 0).coeff i = if j = i then (if f i then 1 else 0) else 0 := by
    intro j
    by_cases hij : j = i
    · subst hij
      cases f j <;> simp
    · have hne : ¬i = j := fun h => hij h.symm
      cases f j <;> simp [hij, hne]
  simp only [hterm, Finset.sum_ite_eq', Finset.mem_range]
  by_cases hi : i < n <;> simp [hi]

theorem evalBits_root_eq_zero {n : Nat} (hn : 7 < n) {f : Nat → Bool} (h : evalBits (root n) f n = 0) : ∀ i < n, f i = false := by
  have hmk : AdjoinRoot.mk (modulus n) (evalBits X f n) = 0 := by
    rw [evalBits_map, AdjoinRoot.mk_X]
    exact h
  have hdegree : (evalBits (X : (ZMod 2)[X]) f n).degree < n := by
    rw [degree_lt_iff_coeff_zero]
    intro i hi
    rw [coeff_evalBits, if_neg (by omega)]
  have hzero : evalBits (X : (ZMod 2)[X]) f n = 0 :=
    eq_zero_of_dvd_of_degree_lt (AdjoinRoot.mk_eq_zero.mp hmk) (by rw [degree_modulus hn]; exact hdegree)
  intro i hi
  have hcoeff := coeff_evalBits f n i
  rw [hzero, coeff_zero] at hcoeff
  cases hf : f i with
  | false => rfl
  | true =>
    rw [if_pos ⟨hi, hf⟩] at hcoeff
    exact absurd hcoeff.symm one_ne_zero

theorem value_inj {a b : Block} (h : value (root 128) a = value (root 128) b) : a = b := by
  have := charP_quotient (show 7 < 128 by decide)
  have hxor : value (root 128) (a ^^^ b) = 0 := by rw [value_xor, h, CharTwo.add_self_eq_zero]
  have hbits := evalBits_root_eq_zero (by decide) hxor
  apply BitVec.eq_of_getMsbD_eq
  intro i hi
  have hbit := hbits i hi
  rw [BitVec.getMsbD_xor] at hbit
  revert hbit
  cases a.getMsbD i <;> cases b.getMsbD i <;> decide

/-- What holds of values in every ring with such an `x`, and an inverse of it, holds of blocks. -/
theorem eq_of_value {a b : Block}
    (h : ∀ (R : Type) [CommRing R] [CharP R 2] (x y : R), x * y = 1 → x ^ 128 = x ^ 7 + x ^ 2 + x + 1 → value x a = value x b) :
    a = b := by
  have := charP_quotient (show 7 < 128 by decide)
  have hroot := root_pow_add 128
  have hpow := CharTwo.add_eq_zero.mp hroot
  refine value_inj (h (Quotient 128) (root 128) (root 128 ^ 127 + root 128 ^ 6 + root 128 + 1) ?_ hpow)
  have htwo : (2 : Quotient 128) = 0 := CharTwo.two_eq_zero
  linear_combination hroot - htwo

end ContactDiscovery.Lib.Gf128
