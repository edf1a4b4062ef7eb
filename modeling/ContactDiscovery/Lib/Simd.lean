/-
  ContactDiscovery.Lib.Simd — a 256-bit register as four 64-bit lanes, lane 0 the lowest,
  and the AVX intrinsics branch-free table code is written with. Every operation is lane
  by lane except the byte blend, which picks each byte by the top bit of the mask's byte,
  and `testzPd`, which looks at the four sign bits.

  A comparison gives a lane of ones or a lane of zeros, so a blend by it, by bytes or by
  lanes, is an `if` (`blendvEpi8_cmpeq`), and `testzPd_self` says when no lane compared
  equal. A mask lane that counts (`count - rank`, both below 2^63) is negative exactly
  while the count is below the rank (`msb_sub`).
-/

import Mathlib

namespace ContactDiscovery.Lib.Simd

abbrev M256i := Fin 4 → BitVec 64

instance neZero_four : NeZero 4 := ⟨by decide⟩

def setzeroSi256 : M256i := fun _ => 0

def set1Epi64x (x : BitVec 64) : M256i := fun _ => x

/-- The highest lane comes first, as in `_mm256_set_epi64x`. -/
def setEpi64x (e3 e2 e1 e0 : BitVec 64) : M256i
  | 0 => e0
  | 1 => e1
  | 2 => e2
  | 3 => e3

def cmpeqEpi64 (a b : M256i) : M256i := fun i => if a i = b i then BitVec.allOnes 64 else 0

def orSi256 (a b : M256i) : M256i := fun i => a i ||| b i

def andSi256 (a b : M256i) : M256i := fun i => a i &&& b i

def xorSi256 (a b : M256i) : M256i := fun i => a i ^^^ b i

def addEpi64 (a b : M256i) : M256i := fun i => a i + b i

/-- A lane of `b` where the mask's lane is negative, else of `a`. -/
def blendvPd (a b mask : M256i) : M256i := fun i => if (mask i).msb then b i else a i

/-- Byte by byte: `b`'s byte where the top bit of the mask's byte is set, else `a`'s. -/
def blendBytes (a b mask : BitVec 64) : BitVec 64 :=
  BitVec.ofFnLE fun i : Fin 64 => if mask.getLsbD (8 * (i / 8) + 7) then b.getLsbD i else a.getLsbD i

def blendvEpi8 (a b mask : M256i) : M256i := fun i => blendBytes (a i) (b i) (mask i)

/-- No lane of `a & b` is negative. -/
def testzPd (a b : M256i) : Bool := decide (∀ i, (a i &&& b i).msb = false)

def extractEpi64 (a : M256i) (i : Fin 4) : BitVec 64 := a i

/-! ## Lanes -/

@[simp] theorem setzeroSi256_apply (i : Fin 4) : setzeroSi256 i = 0 := rfl
@[simp] theorem set1Epi64x_apply (x : BitVec 64) (i : Fin 4) : set1Epi64x x i = x := rfl
@[simp] theorem orSi256_apply (a b : M256i) (i : Fin 4) : orSi256 a b i = a i ||| b i := rfl
@[simp] theorem andSi256_apply (a b : M256i) (i : Fin 4) : andSi256 a b i = a i &&& b i := rfl
@[simp] theorem xorSi256_apply (a b : M256i) (i : Fin 4) : xorSi256 a b i = a i ^^^ b i := rfl
@[simp] theorem addEpi64_apply (a b : M256i) (i : Fin 4) : addEpi64 a b i = a i + b i := rfl
@[simp] theorem extractEpi64_apply (a : M256i) (i : Fin 4) : extractEpi64 a i = a i := rfl

theorem cmpeqEpi64_apply (a b : M256i) (i : Fin 4) :
    cmpeqEpi64 a b i = if a i = b i then BitVec.allOnes 64 else 0 := rfl

theorem blendvPd_apply (a b m : M256i) (i : Fin 4) : blendvPd a b m i = if (m i).msb then b i else a i := rfl

/-! ## Blends by a comparison -/

theorem blendBytes_allOnes (a b : BitVec 64) : blendBytes a b (BitVec.allOnes 64) = b := by
  apply BitVec.eq_of_getLsbD_eq
  intro i hi
  have hm : (BitVec.allOnes 64).getLsbD (8 * (i / 8) + 7) = true := by
    rw [BitVec.getLsbD_allOnes, decide_eq_true_eq]; omega
  rw [blendBytes, BitVec.getLsbD_ofFnLE, dif_pos hi, if_pos hm]

theorem blendBytes_zero (a b : BitVec 64) : blendBytes a b 0 = a := by
  apply BitVec.eq_of_getLsbD_eq
  intro i hi
  simp [blendBytes, hi]

/-- A byte blend by the lanes of a comparison takes whole lanes. -/
theorem blendvEpi8_cmpeq (a b x y : M256i) (i : Fin 4) :
    blendvEpi8 a b (cmpeqEpi64 x y) i = if x i = y i then b i else a i := by
  simp only [blendvEpi8, cmpeqEpi64]
  split
  · exact blendBytes_allOnes _ _
  · exact blendBytes_zero _ _

theorem msb_cmpeqEpi64 (a b : M256i) (i : Fin 4) : (cmpeqEpi64 a b i).msb = decide (a i = b i) := by
  rw [cmpeqEpi64_apply]
  split
  · rename_i h; simp [h]; decide
  · rename_i h; simp [h]

theorem testzPd_self (a : M256i) : testzPd a a = true ↔ ∀ i, (a i).msb = false := by
  simp [testzPd]

/-! ## A lane that counts -/

theorem msb_sub {c r : Nat} (hc : c < 2 ^ 63) (hr : r < 2 ^ 63) :
    (BitVec.ofNat 64 c - BitVec.ofNat 64 r).msb = decide (c < r) := by
  have h63 : (2 : Nat) ^ 63 = 9223372036854775808 := by norm_num
  rw [h63] at hc hr
  rw [BitVec.msb_eq_decide]
  simp only [BitVec.toNat_sub, BitVec.toNat_ofNat]
  by_cases h : c < r
  · simp only [h, decide_true, decide_eq_true_eq]; omega
  · simp only [h, decide_false, decide_eq_false_iff_not]; omega

end ContactDiscovery.Lib.Simd
