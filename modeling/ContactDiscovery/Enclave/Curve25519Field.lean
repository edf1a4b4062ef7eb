/-
  ContactDiscovery.Enclave.Curve25519Field — the arithmetic of `curve25519-donna-c64.c` is that of the
  integers modulo `p = 2^255 - 19` (`toF`), as long as no limb is too large.

  - `carry_spec`: the carries at the end of a product keep the number modulo `p`, and leave limbs of at
    most `2^51`.
  - `fmul_spec`, `fsquareTimes_spec`: products and repeated squares, of limbs up to `maxLimb`.
  - `fsum_spec`, `fdifferenceBackwards_spec`, `fscalarProduct_spec`: the rest.

  `maxLimb` is what a difference of two reduced numbers can have. It is less than the comments in the
  source allow, and about the most that `fmul` can take: with `2^55` the carry out of a column no longer
  fits a word.
-/

import ContactDiscovery.Enclave.Curve25519

namespace ContactDiscovery.Enclave.Curve25519

open Lib

def p : Nat := 2 ^ 255 - 19

/-- The number that the limbs stand for. -/
def Felem.val (f : Felem) : Nat :=
  f.l0.toNat + 2 ^ 51 * f.l1.toNat + 2 ^ 102 * f.l2.toNat + 2 ^ 153 * f.l3.toNat + 2 ^ 204 * f.l4.toNat

structure Felem.Le (b : Nat) (f : Felem) : Prop where
  l0 : f.l0.toNat ≤ b
  l1 : f.l1.toNat ≤ b
  l2 : f.l2.toNat ≤ b
  l3 : f.l3.toNat ≤ b
  l4 : f.l4.toNat ≤ b

/-! ## Words -/

theorem toNat_mask (w : Limb) : (w &&& 0x7ffffffffffff).toNat = w.toNat % 2 ^ 51 :=
  Nat.and_two_pow_sub_one_eq_mod w.toNat 51

theorem limb_split (w : Limb) :
    (w &&& 0x7ffffffffffff).toNat < 2 ^ 51 ∧ (w &&& 0x7ffffffffffff).toNat + 2 ^ 51 * (w >>> 51).toNat = w.toNat := by
  rw [toNat_mask, BitVec.toNat_ushiftRight, Nat.shiftRight_eq_div_pow]
  omega

theorem wide_split {t : Uint128} (h : t.toNat < 2 ^ 115) :
    (low51 t).toNat < 2 ^ 51 ∧ (low51 t).toNat + 2 ^ 51 * (high51 t).toNat = t.toNat := by
  rw [low51, high51, toNat_mask, toLimb, toLimb, BitVec.toNat_setWidth, BitVec.toNat_setWidth, BitVec.toNat_ushiftRight,
    Nat.shiftRight_eq_div_pow]
  omega

theorem toNat_addCarry {t : Uint128} {c : Limb} (h : t.toNat < 2 ^ 115) :
    (t + c.setWidth 128).toNat = t.toNat + c.toNat := by
  have hc := c.isLt
  rw [BitVec.toNat_add, BitVec.toNat_setWidth]
  omega

theorem toNat_limbAdd {v w : Limb} (h : v.toNat + w.toNat < 2 ^ 64) : (v + w).toNat = v.toNat + w.toNat := by
  rw [BitVec.toNat_add, Nat.mod_eq_of_lt h]

theorem toNat_mul19 {w : Limb} (h : w.toNat * 19 < 2 ^ 64) : (w * 19).toNat = w.toNat * 19 := by
  rw [BitVec.toNat_mul]
  exact Nat.mod_eq_of_lt h

theorem toNat_mul2 {w : Limb} (h : w.toNat * 2 < 2 ^ 64) : (w * 2).toNat = w.toNat * 2 := by
  rw [BitVec.toNat_mul]
  exact Nat.mod_eq_of_lt h

theorem carry_spec {t0 t1 t2 t3 t4 : Uint128} (h0 : t0.toNat ≤ 98 * 2 ^ 108) (h1 : t1.toNat ≤ 98 * 2 ^ 108)
    (h2 : t2.toNat ≤ 98 * 2 ^ 108) (h3 : t3.toNat ≤ 98 * 2 ^ 108) (h4 : 20 * t4.toNat ≤ 2 ^ 115) :
    (carry t0 t1 t2 t3 t4).Le (2 ^ 51) ∧
    ∃ k, (carry t0 t1 t2 t3 t4).val + k * p =
      t0.toNat + 2 ^ 51 * t1.toNat + 2 ^ 102 * t2.toNat + 2 ^ 153 * t3.toNat + 2 ^ 204 * t4.toNat := by
  simp only [carry]
  -- up the words: each is cut, and what is carried goes to the next
  obtain ⟨hr0, e0⟩ := wide_split (t := t0) (by omega)
  have hc0 := (high51 t0).isLt
  have ht1 := toNat_addCarry (t := t1) (c := high51 t0) (by omega)
  generalize t1 + (high51 t0).setWidth 128 = u1 at ht1 ⊢
  obtain ⟨hr1, e1⟩ := wide_split (t := u1) (by omega)
  have hc1 := (high51 u1).isLt
  have ht2 := toNat_addCarry (t := t2) (c := high51 u1) (by omega)
  generalize t2 + (high51 u1).setWidth 128 = u2 at ht2 ⊢
  obtain ⟨hr2, e2⟩ := wide_split (t := u2) (by omega)
  have hc2 := (high51 u2).isLt
  have ht3 := toNat_addCarry (t := t3) (c := high51 u2) (by omega)
  generalize t3 + (high51 u2).setWidth 128 = u3 at ht3 ⊢
  obtain ⟨hr3, e3⟩ := wide_split (t := u3) (by omega)
  have hc3 := (high51 u3).isLt
  have ht4 := toNat_addCarry (t := t4) (c := high51 u3) (by omega)
  generalize t4 + (high51 u3).setWidth 128 = u4 at ht4 ⊢
  obtain ⟨hr4, e4⟩ := wide_split (t := u4) (by omega)
  -- from the last word to the first, and up to the third
  have hm := toNat_mul19 (w := high51 u4) (by omega)
  have hw0 := toNat_limbAdd (v := low51 t0) (w := high51 u4 * 19) (by omega)
  generalize low51 t0 + high51 u4 * 19 = w0 at hw0 ⊢
  obtain ⟨hs0, f0⟩ := limb_split w0
  have hw1 := toNat_limbAdd (v := low51 u1) (w := w0 >>> 51) (by omega)
  generalize low51 u1 + w0 >>> 51 = w1 at hw1 ⊢
  obtain ⟨hs1, f1⟩ := limb_split w1
  have hw2 := toNat_limbAdd (v := low51 u2) (w := w1 >>> 51) (by omega)
  generalize low51 u2 + w1 >>> 51 = w2 at hw2 ⊢
  have hs2 : w2.toNat ≤ 2 ^ 51 := by omega
  refine ⟨⟨Nat.le_of_lt hs0, Nat.le_of_lt hs1, hs2, Nat.le_of_lt hr3, Nat.le_of_lt hr4⟩, (high51 u4).toNat, ?_⟩
  simp only [Felem.val, p]
  omega

/-! ## Products -/

/-- The largest limbs that are multiplied: a difference of two reduced numbers. -/
def maxLimb : Nat := 2 ^ 54 + 2 ^ 51

def Felem.toF (f : Felem) : ZMod p := (f.val : ZMod p)

theorem pow255 : (2 : ZMod p) ^ 255 = 19 := by
  have hp : ((p : Nat) : ZMod p) = 0 := ZMod.natCast_self p
  have hpow : (2 : ZMod p) ^ 255 = ((p + 19 : Nat) : ZMod p) := by
    rw [p]; norm_num
  rw [hpow, Nat.cast_add, hp, zero_add]
  rfl

theorem toF_eq (f : Felem) : f.toF = (f.l0.toNat : ZMod p) + 2 ^ 51 * (f.l1.toNat : ZMod p) + 2 ^ 102 * (f.l2.toNat : ZMod p) +
    2 ^ 153 * (f.l3.toNat : ZMod p) + 2 ^ 204 * (f.l4.toNat : ZMod p) := by
  rw [Felem.toF, Felem.val]
  push_cast
  rfl

theorem toNat_mul128 (r s : Limb) : (mul128 r s).toNat = r.toNat * s.toNat := by
  have hr : r.toNat % 2 ^ 128 = r.toNat := Nat.mod_eq_of_lt (Nat.lt_trans r.isLt (by decide))
  have hs : s.toNat % 2 ^ 128 = s.toNat := Nat.mod_eq_of_lt (Nat.lt_trans s.isLt (by decide))
  rw [mul128, BitVec.toNat_mul, BitVec.toNat_setWidth, BitVec.toNat_setWidth, hr, hs]
  exact Nat.mod_eq_of_lt (Nat.lt_of_lt_of_le (Nat.mul_lt_mul'' r.isLt s.isLt) (by decide))

theorem toNat_mul128_19 {r : Limb} (hr : r.toNat ≤ maxLimb) (s : Limb) :
    (mul128 (r * 19) s).toNat = 19 * (r.toNat * s.toNat) := by
  have hlt : r.toNat * 19 < 2 ^ 64 := Nat.lt_of_le_of_lt (Nat.mul_le_mul_right 19 hr) (by decide)
  rw [toNat_mul128, toNat_mul19 hlt]
  ring

theorem prod_le {r s : Limb} (hr : r.toNat ≤ maxLimb) (hs : s.toNat ≤ maxLimb) : r.toNat * s.toNat ≤ maxLimb * maxLimb :=
  Nat.mul_le_mul hr hs

/-- Five words, carried: the field element that they stand for. -/
theorem carry_toF {t0 t1 t2 t3 t4 : Uint128} {n0 n1 n2 n3 n4 : Nat} (h0 : t0.toNat = n0) (h1 : t1.toNat = n1)
    (h2 : t2.toNat = n2) (h3 : t3.toNat = n3) (h4 : t4.toNat = n4) (hle0 : n0 ≤ 98 * 2 ^ 108) (hle1 : n1 ≤ 98 * 2 ^ 108)
    (hle2 : n2 ≤ 98 * 2 ^ 108) (hle3 : n3 ≤ 98 * 2 ^ 108) (hle4 : 20 * n4 ≤ 2 ^ 115) :
    (carry t0 t1 t2 t3 t4).Le (2 ^ 51) ∧
    (carry t0 t1 t2 t3 t4).toF = (n0 : ZMod p) + 2 ^ 51 * n1 + 2 ^ 102 * n2 + 2 ^ 153 * n3 + 2 ^ 204 * n4 := by
  subst h0 h1 h2 h3 h4
  obtain ⟨hle, k, hk⟩ := carry_spec hle0 hle1 hle2 hle3 hle4
  refine ⟨hle, ?_⟩
  have hcast := congrArg (Nat.cast : Nat → ZMod p) hk
  rw [Nat.cast_add, Nat.cast_mul, ZMod.natCast_self, mul_zero, add_zero] at hcast
  rw [Felem.toF, hcast]
  push_cast
  rfl

theorem fmul_spec {f g : Felem} (hf : f.Le maxLimb) (hg : g.Le maxLimb) :
    (fmul f g).Le (2 ^ 51) ∧ (fmul f g).toF = f.toF * g.toF := by
  obtain ⟨s0, s1, s2, s3, s4⟩ := f
  obtain ⟨r0, r1, r2, r3, r4⟩ := g
  obtain ⟨hs0, hs1, hs2, hs3, hs4⟩ := hf
  obtain ⟨hr0, hr1, hr2, hr3, hr4⟩ := hg
  simp only at hs0 hs1 hs2 hs3 hs4 hr0 hr1 hr2 hr3 hr4
  have hmax : maxLimb * maxLimb = 2 ^ 108 + 2 ^ 106 + 2 ^ 102 := by decide
  -- the products, by column
  have h00 := prod_le hr0 hs0
  have h41 := prod_le hr4 hs1
  have h14 := prod_le hr1 hs4
  have h23 := prod_le hr2 hs3
  have h32 := prod_le hr3 hs2
  have ht0 : (mul128 r0 s0 + (mul128 (r4 * 19) s1 + mul128 (r1 * 19) s4 + mul128 (r2 * 19) s3 + mul128 (r3 * 19) s2)).toNat =
      r0.toNat * s0.toNat + 19 * (r4.toNat * s1.toNat + r1.toNat * s4.toNat + r2.toNat * s3.toNat + r3.toNat * s2.toNat) := by
    simp only [BitVec.toNat_add, toNat_mul128 r0, toNat_mul128_19 hr1, toNat_mul128_19 hr2, toNat_mul128_19 hr3,
      toNat_mul128_19 hr4]
    omega
  have h01 := prod_le hr0 hs1
  have h10 := prod_le hr1 hs0
  have h42 := prod_le hr4 hs2
  have h24 := prod_le hr2 hs4
  have h33 := prod_le hr3 hs3
  have ht1 : (mul128 r0 s1 + mul128 r1 s0 + (mul128 (r4 * 19) s2 + mul128 (r2 * 19) s4 + mul128 (r3 * 19) s3)).toNat =
      r0.toNat * s1.toNat + r1.toNat * s0.toNat + 19 * (r4.toNat * s2.toNat + r2.toNat * s4.toNat + r3.toNat * s3.toNat) := by
    simp only [BitVec.toNat_add, toNat_mul128 r0, toNat_mul128 r1, toNat_mul128_19 hr2, toNat_mul128_19 hr3, toNat_mul128_19 hr4]
    omega
  have h02 := prod_le hr0 hs2
  have h20 := prod_le hr2 hs0
  have h11 := prod_le hr1 hs1
  have h43 := prod_le hr4 hs3
  have h34 := prod_le hr3 hs4
  have ht2 : (mul128 r0 s2 + mul128 r2 s0 + mul128 r1 s1 + (mul128 (r4 * 19) s3 + mul128 (r3 * 19) s4)).toNat =
      r0.toNat * s2.toNat + r2.toNat * s0.toNat + r1.toNat * s1.toNat + 19 * (r4.toNat * s3.toNat + r3.toNat * s4.toNat) := by
    simp only [BitVec.toNat_add, toNat_mul128 r0, toNat_mul128 r1, toNat_mul128 r2, toNat_mul128_19 hr3, toNat_mul128_19 hr4]
    omega
  have h03 := prod_le hr0 hs3
  have h30 := prod_le hr3 hs0
  have h12 := prod_le hr1 hs2
  have h21 := prod_le hr2 hs1
  have h44 := prod_le hr4 hs4
  have ht3 : (mul128 r0 s3 + mul128 r3 s0 + mul128 r1 s2 + mul128 r2 s1 + mul128 (r4 * 19) s4).toNat =
      r0.toNat * s3.toNat + r3.toNat * s0.toNat + r1.toNat * s2.toNat + r2.toNat * s1.toNat + 19 * (r4.toNat * s4.toNat) := by
    simp only [BitVec.toNat_add, toNat_mul128 r0, toNat_mul128 r1, toNat_mul128 r2, toNat_mul128 r3, toNat_mul128_19 hr4]
    omega
  have h04 := prod_le hr0 hs4
  have h40 := prod_le hr4 hs0
  have h31 := prod_le hr3 hs1
  have h13 := prod_le hr1 hs3
  have h22 := prod_le hr2 hs2
  have ht4 : (mul128 r0 s4 + mul128 r4 s0 + mul128 r3 s1 + mul128 r1 s3 + mul128 r2 s2).toNat =
      r0.toNat * s4.toNat + r4.toNat * s0.toNat + r3.toNat * s1.toNat + r1.toNat * s3.toNat + r2.toNat * s2.toNat := by
    simp only [BitVec.toNat_add, toNat_mul128]
    omega
  obtain ⟨hle, hval⟩ := carry_toF ht0 ht1 ht2 ht3 ht4 (by omega) (by omega) (by omega) (by omega) (by omega)
  simp only [fmul]
  refine ⟨hle, ?_⟩
  rw [hval, toF_eq, toF_eq]
  push_cast
  -- what is beyond the fifth limb comes back times 19
  linear_combination (-(r4.toNat * s1.toNat + r1.toNat * s4.toNat + r2.toNat * s3.toNat + r3.toNat * s2.toNat : ZMod p) -
    2 ^ 51 * (r4.toNat * s2.toNat + r2.toNat * s4.toNat + r3.toNat * s3.toNat : ZMod p) -
    2 ^ 102 * (r4.toNat * s3.toNat + r3.toNat * s4.toNat : ZMod p) - 2 ^ 153 * (r4.toNat * s4.toNat : ZMod p)) * pow255

/-- Limbs up to `2^55`, which the comment on `fmul` allows, are too large: a carry is lost. -/
example : (fmul ⟨2 ^ 55 - 1, 2 ^ 55 - 1, 2 ^ 55 - 1, 2 ^ 55 - 1, 2 ^ 55 - 1⟩
    ⟨2 ^ 55 - 1, 2 ^ 55 - 1, 2 ^ 55 - 1, 2 ^ 55 - 1, 2 ^ 55 - 1⟩).val % p ≠
    (Felem.mk (2 ^ 55 - 1) (2 ^ 55 - 1) (2 ^ 55 - 1) (2 ^ 55 - 1) (2 ^ 55 - 1)).val ^ 2 % p := by
  decide +kernel

theorem fsquare_spec {f : Felem} (hf : f.Le maxLimb) : (fsquare f).Le (2 ^ 51) ∧ (fsquare f).toF = f.toF ^ 2 := by
  obtain ⟨r0, r1, r2, r3, r4⟩ := f
  obtain ⟨hr0, hr1, hr2, hr3, hr4⟩ := hf
  simp only at hr0 hr1 hr2 hr3 hr4
  have hmaxLimb : maxLimb = 2 ^ 54 + 2 ^ 51 := rfl
  have hmax : maxLimb * maxLimb = 2 ^ 108 + 2 ^ 106 + 2 ^ 102 := by decide
  -- the doubled limbs
  have hd0 : (r0 * 2).toNat = r0.toNat * 2 := toNat_mul2 (by omega)
  have hd1 : (r1 * 2).toNat = r1.toNat * 2 := toNat_mul2 (by omega)
  have hd2 : (r2 * 2 * 19).toNat = r2.toNat * 2 * 19 := by
    have h2 : (r2 * 2).toNat = r2.toNat * 2 := toNat_mul2 (by omega)
    rw [← h2]; exact toNat_mul19 (by omega)
  have hd3 : (r3 * 19).toNat = r3.toNat * 19 := toNat_mul19 (by omega)
  have hd419 : (r4 * 19).toNat = r4.toNat * 19 := toNat_mul19 (by omega)
  have hd4 : (r4 * 19 * 2).toNat = r4.toNat * 19 * 2 := by
    rw [← hd419]; exact toNat_mul2 (by omega)
  -- the products, by column
  have h00 := prod_le hr0 hr0
  have h41 := prod_le hr4 hr1
  have h23 := prod_le hr2 hr3
  have ht0 : (mul128 r0 r0 + mul128 (r4 * 19 * 2) r1 + mul128 (r2 * 2 * 19) r3).toNat =
      r0.toNat * r0.toNat + 38 * (r4.toNat * r1.toNat) + 38 * (r2.toNat * r3.toNat) := by
    have h4 : r4.toNat * 19 * 2 * r1.toNat = 38 * (r4.toNat * r1.toNat) := by ring
    have h2 : r2.toNat * 2 * 19 * r3.toNat = 38 * (r2.toNat * r3.toNat) := by ring
    simp only [BitVec.toNat_add, toNat_mul128, hd4, hd2, h4, h2]
    omega
  have h01 := prod_le hr0 hr1
  have h42 := prod_le hr4 hr2
  have h33 := prod_le hr3 hr3
  have ht1 : (mul128 (r0 * 2) r1 + mul128 (r4 * 19 * 2) r2 + mul128 r3 (r3 * 19)).toNat =
      2 * (r0.toNat * r1.toNat) + 38 * (r4.toNat * r2.toNat) + 19 * (r3.toNat * r3.toNat) := by
    have h0 : r0.toNat * 2 * r1.toNat = 2 * (r0.toNat * r1.toNat) := by ring
    have h4 : r4.toNat * 19 * 2 * r2.toNat = 38 * (r4.toNat * r2.toNat) := by ring
    have h3 : r3.toNat * (r3.toNat * 19) = 19 * (r3.toNat * r3.toNat) := by ring
    simp only [BitVec.toNat_add, toNat_mul128, hd0, hd4, hd3, h0, h4, h3]
    omega
  have h02 := prod_le hr0 hr2
  have h11 := prod_le hr1 hr1
  have h43 := prod_le hr4 hr3
  have ht2 : (mul128 (r0 * 2) r2 + mul128 r1 r1 + mul128 (r4 * 19 * 2) r3).toNat =
      2 * (r0.toNat * r2.toNat) + r1.toNat * r1.toNat + 38 * (r4.toNat * r3.toNat) := by
    have h0 : r0.toNat * 2 * r2.toNat = 2 * (r0.toNat * r2.toNat) := by ring
    have h4 : r4.toNat * 19 * 2 * r3.toNat = 38 * (r4.toNat * r3.toNat) := by ring
    simp only [BitVec.toNat_add, toNat_mul128, hd0, hd4, h0, h4]
    omega
  have h03 := prod_le hr0 hr3
  have h12 := prod_le hr1 hr2
  have h44 := prod_le hr4 hr4
  have ht3 : (mul128 (r0 * 2) r3 + mul128 (r1 * 2) r2 + mul128 r4 (r4 * 19)).toNat =
      2 * (r0.toNat * r3.toNat) + 2 * (r1.toNat * r2.toNat) + 19 * (r4.toNat * r4.toNat) := by
    have h0 : r0.toNat * 2 * r3.toNat = 2 * (r0.toNat * r3.toNat) := by ring
    have h1 : r1.toNat * 2 * r2.toNat = 2 * (r1.toNat * r2.toNat) := by ring
    have h4 : r4.toNat * (r4.toNat * 19) = 19 * (r4.toNat * r4.toNat) := by ring
    simp only [BitVec.toNat_add, toNat_mul128, hd0, hd1, hd419, h0, h1, h4]
    omega
  have h04 := prod_le hr0 hr4
  have h13 := prod_le hr1 hr3
  have h22 := prod_le hr2 hr2
  have ht4 : (mul128 (r0 * 2) r4 + mul128 (r1 * 2) r3 + mul128 r2 r2).toNat =
      2 * (r0.toNat * r4.toNat) + 2 * (r1.toNat * r3.toNat) + r2.toNat * r2.toNat := by
    have h0 : r0.toNat * 2 * r4.toNat = 2 * (r0.toNat * r4.toNat) := by ring
    have h1 : r1.toNat * 2 * r3.toNat = 2 * (r1.toNat * r3.toNat) := by ring
    simp only [BitVec.toNat_add, toNat_mul128, hd0, hd1, h0, h1]
    omega
  obtain ⟨hle, hval⟩ := carry_toF ht0 ht1 ht2 ht3 ht4 (by omega) (by omega) (by omega) (by omega) (by omega)
  simp only [fsquare]
  refine ⟨hle, ?_⟩
  rw [hval, toF_eq]
  push_cast
  linear_combination (-(2 * r4.toNat * r1.toNat + 2 * r2.toNat * r3.toNat : ZMod p) -
    2 ^ 51 * (2 * r4.toNat * r2.toNat + r3.toNat * r3.toNat : ZMod p) - 2 ^ 102 * (2 * r4.toNat * r3.toNat : ZMod p) -
    2 ^ 153 * (r4.toNat * r4.toNat : ZMod p)) * pow255

theorem Felem.Le.mono {b b' : Nat} {f : Felem} (h : f.Le b) (hb : b ≤ b') : f.Le b' :=
  ⟨Nat.le_trans h.l0 hb, Nat.le_trans h.l1 hb, Nat.le_trans h.l2 hb, Nat.le_trans h.l3 hb, Nat.le_trans h.l4 hb⟩

theorem pow51_le_maxLimb : 2 ^ 51 ≤ maxLimb := by decide

theorem iterate_fsquare_spec (n : Nat) : ∀ {f : Felem}, f.Le maxLimb →
    (fsquare^[n + 1] f).Le (2 ^ 51) ∧ (fsquare^[n + 1] f).toF = f.toF ^ 2 ^ (n + 1) := by
  induction n with
  | zero =>
    intro f hf
    exact fsquare_spec hf
  | succ n ih =>
    intro f hf
    obtain ⟨hle, hval⟩ := fsquare_spec hf
    obtain ⟨hle', hval'⟩ := ih (hle.mono pow51_le_maxLimb)
    rw [Function.iterate_succ_apply]
    refine ⟨hle', ?_⟩
    rw [hval', hval, ← pow_mul, ← pow_succ']

theorem fsquareTimes_spec {f : Felem} (hf : f.Le maxLimb) (count : Limb) (hcount : count ≠ 0) :
    (fsquareTimes f count).Le (2 ^ 51) ∧ (fsquareTimes f count).toF = f.toF ^ 2 ^ count.toNat := by
  have hpos : 0 < count.toNat := Nat.pos_of_ne_zero fun h => hcount (BitVec.eq_of_toNat_eq h)
  have hn : (count - 1).toNat + 1 = count.toNat := by
    have hlt := count.isLt
    have hone : (1 : Limb).toNat = 1 := rfl
    rw [BitVec.toNat_sub, hone]
    omega
  rw [fsquareTimes, ← hn]
  exact iterate_fsquare_spec _ hf

/-! ## Sums and differences -/

theorem fsum_spec {b b' : Nat} {f g : Felem} (hf : f.Le b) (hg : g.Le b') (hb : b + b' < 2 ^ 64) :
    (fsum f g).Le (b + b') ∧ (fsum f g).toF = f.toF + g.toF := by
  obtain ⟨hf0, hf1, hf2, hf3, hf4⟩ := hf
  obtain ⟨hg0, hg1, hg2, hg3, hg4⟩ := hg
  have h0 := toNat_limbAdd (v := f.l0) (w := g.l0) (by omega)
  have h1 := toNat_limbAdd (v := f.l1) (w := g.l1) (by omega)
  have h2 := toNat_limbAdd (v := f.l2) (w := g.l2) (by omega)
  have h3 := toNat_limbAdd (v := f.l3) (w := g.l3) (by omega)
  have h4 := toNat_limbAdd (v := f.l4) (w := g.l4) (by omega)
  refine ⟨⟨?_, ?_, ?_, ?_, ?_⟩, ?_⟩
  · rw [fsum, h0]; omega
  · rw [fsum, h1]; omega
  · rw [fsum, h2]; omega
  · rw [fsum, h3]; omega
  · rw [fsum, h4]; omega
  · simp only [toF_eq, fsum, h0, h1, h2, h3, h4]
    push_cast
    ring

theorem toNat_sub_raised {k a b : Limb} (ha : a.toNat ≤ 2 ^ 51) (hb : b.toNat ≤ 2 ^ 51) (hk : 2 ^ 51 ≤ k.toNat) (hk' : k.toNat ≤ 2 ^ 54) :
    (a + k - b).toNat + b.toNat = a.toNat + k.toNat := by
  rw [BitVec.toNat_sub, BitVec.toNat_add]
  omega

/-- The raised limbs add up to a multiple of `p`. -/
theorem fdifferenceBackwards_spec {f g : Felem} (hf : f.Le (2 ^ 51)) (hg : g.Le (2 ^ 51)) :
    (fdifferenceBackwards f g).Le maxLimb ∧ (fdifferenceBackwards f g).toF = g.toF - f.toF := by
  obtain ⟨hf0, hf1, hf2, hf3, hf4⟩ := hf
  obtain ⟨hg0, hg1, hg2, hg3, hg4⟩ := hg
  have hk0 : two54m152.toNat = 2 ^ 54 - 152 := by decide
  have hk : two54m8.toNat = 2 ^ 54 - 8 := by decide
  have hmax : maxLimb = 2 ^ 54 + 2 ^ 51 := rfl
  have h0 := toNat_sub_raised (k := two54m152) hg0 hf0 (by omega) (by omega)
  have h1 := toNat_sub_raised (k := two54m8) hg1 hf1 (by omega) (by omega)
  have h2 := toNat_sub_raised (k := two54m8) hg2 hf2 (by omega) (by omega)
  have h3 := toNat_sub_raised (k := two54m8) hg3 hf3 (by omega) (by omega)
  have h4 := toNat_sub_raised (k := two54m8) hg4 hf4 (by omega) (by omega)
  refine ⟨⟨?_, ?_, ?_, ?_, ?_⟩, ?_⟩
  · simp only [fdifferenceBackwards]; omega
  · simp only [fdifferenceBackwards]; omega
  · simp only [fdifferenceBackwards]; omega
  · simp only [fdifferenceBackwards]; omega
  · simp only [fdifferenceBackwards]; omega
  · have hval : (fdifferenceBackwards f g).val + f.val = g.val + 8 * p := by
      simp only [Felem.val, fdifferenceBackwards, p]
      omega
    have hcast := congrArg (Nat.cast : Nat → ZMod p) hval
    rw [Nat.cast_add, Nat.cast_add, Nat.cast_mul, ZMod.natCast_self, mul_zero, add_zero] at hcast
    exact eq_sub_of_add_eq hcast

/-! ## A small factor -/

theorem toNat_carry19 {t : Uint128} (h : t.toNat < 2 ^ 73) : (toLimb (t >>> 51 * 19)).toNat = (high51 t).toNat * 19 := by
  have hdiv : t.toNat / 2 ^ 51 < 2 ^ 22 := by omega
  have hhigh : (high51 t).toNat = t.toNat / 2 ^ 51 := by
    rw [high51, toLimb, BitVec.toNat_setWidth, BitVec.toNat_ushiftRight, Nat.shiftRight_eq_div_pow]
    exact Nat.mod_eq_of_lt (by omega)
  have hmul : (t >>> 51 * 19).toNat = t.toNat / 2 ^ 51 * 19 := by
    rw [BitVec.toNat_mul, BitVec.toNat_ushiftRight, Nat.shiftRight_eq_div_pow]
    exact Nat.mod_eq_of_lt (Nat.lt_of_lt_of_le (Nat.mul_lt_mul_of_pos_right hdiv (by decide)) (by decide))
  rw [toLimb, BitVec.toNat_setWidth, hmul, hhigh]
  exact Nat.mod_eq_of_lt (by omega)

theorem fscalarProduct_spec {f : Felem} (hf : f.Le maxLimb) (scalar : Limb) (hscalar : scalar.toNat ≤ 2 ^ 17) :
    (fscalarProduct f scalar).Le (2 ^ 51 + 2 ^ 27) ∧ (fscalarProduct f scalar).toF = (scalar.toNat : ZMod p) * f.toF := by
  obtain ⟨hf0, hf1, hf2, hf3, hf4⟩ := hf
  have hmax : maxLimb * 2 ^ 17 = 2 ^ 71 + 2 ^ 68 := by decide
  have hx0 := Nat.mul_le_mul hf0 hscalar
  have hx1 := Nat.mul_le_mul hf1 hscalar
  have hx2 := Nat.mul_le_mul hf2 hscalar
  have hx3 := Nat.mul_le_mul hf3 hscalar
  have hx4 := Nat.mul_le_mul hf4 hscalar
  simp only [fscalarProduct]
  obtain ⟨hr0, e0⟩ := wide_split (t := mul128 f.l0 scalar) (by rw [toNat_mul128]; omega)
  have ha1 := toNat_addCarry (t := mul128 f.l1 scalar) (c := high51 (mul128 f.l0 scalar)) (by rw [toNat_mul128]; omega)
  generalize mul128 f.l1 scalar + (high51 (mul128 f.l0 scalar)).setWidth 128 = a1 at ha1 ⊢
  rw [toNat_mul128] at e0 ha1
  obtain ⟨hr1, e1⟩ := wide_split (t := a1) (by omega)
  have ha2 := toNat_addCarry (t := mul128 f.l2 scalar) (c := high51 a1) (by rw [toNat_mul128]; omega)
  generalize mul128 f.l2 scalar + (high51 a1).setWidth 128 = a2 at ha2 ⊢
  rw [toNat_mul128] at ha2
  obtain ⟨hr2, e2⟩ := wide_split (t := a2) (by omega)
  have ha3 := toNat_addCarry (t := mul128 f.l3 scalar) (c := high51 a2) (by rw [toNat_mul128]; omega)
  generalize mul128 f.l3 scalar + (high51 a2).setWidth 128 = a3 at ha3 ⊢
  rw [toNat_mul128] at ha3
  obtain ⟨hr3, e3⟩ := wide_split (t := a3) (by omega)
  have ha4 := toNat_addCarry (t := mul128 f.l4 scalar) (c := high51 a3) (by rw [toNat_mul128]; omega)
  generalize mul128 f.l4 scalar + (high51 a3).setWidth 128 = a4 at ha4 ⊢
  rw [toNat_mul128] at ha4
  obtain ⟨hr4, e4⟩ := wide_split (t := a4) (by omega)
  -- the last carry goes to the first limb
  have hc := toNat_carry19 (t := a4) (by omega)
  have hw := toNat_limbAdd (v := low51 (mul128 f.l0 scalar)) (w := toLimb (a4 >>> 51 * 19)) (by omega)
  refine ⟨⟨?_, Nat.le_trans (Nat.le_of_lt hr1) (by decide), Nat.le_trans (Nat.le_of_lt hr2) (by decide),
    Nat.le_trans (Nat.le_of_lt hr3) (by decide), Nat.le_trans (Nat.le_of_lt hr4) (by decide)⟩, ?_⟩
  · simp only [hw, hc]; omega
  · have hval : (⟨low51 (mul128 f.l0 scalar) + toLimb (a4 >>> 51 * 19), low51 a1, low51 a2, low51 a3, low51 a4⟩ : Felem).val +
        (high51 a4).toNat * p = f.l0.toNat * scalar.toNat + 2 ^ 51 * (f.l1.toNat * scalar.toNat) +
        2 ^ 102 * (f.l2.toNat * scalar.toNat) + 2 ^ 153 * (f.l3.toNat * scalar.toNat) + 2 ^ 204 * (f.l4.toNat * scalar.toNat) := by
      simp only [Felem.val, p, hw, hc]
      omega
    have hcast := congrArg (Nat.cast : Nat → ZMod p) hval
    rw [Nat.cast_add, Nat.cast_mul, ZMod.natCast_self, mul_zero, add_zero] at hcast
    rw [Felem.toF, hcast, toF_eq]
    push_cast
    ring

end ContactDiscovery.Enclave.Curve25519
