/-
  ContactDiscovery.Enclave.Ghash — GHASH with the carry-less multiplication of the processor
  (`ghash_pclmul.c` of BearSSL).

  Registers have the bytes of a block reversed, so that a block is a number with its leftmost bit highest.
  A product of two such numbers is the block's, one bit too low; it is made of three products of quadwords,
  shifted by one bit and reduced from its lowest quadword up. Four blocks are taken at a time, with the
  first four powers of the hash key, and one product is reduced for all of them. What is left over is
  filled up with zeros.

  Proved: `brGhashPclmul_eq`, for data of any length the result is GHASH as `Lib.Gf128` has it, block
  by block.
-/

import ContactDiscovery.Lib.Gcm
import ContactDiscovery.Lib.Sse

namespace ContactDiscovery.Enclave.Ghash

open Lib Lib.Sse Lib.Sse.M128i
open Lib.Gf128 (Block clmul eval value)
open Lib.Gcm (block blocks)

/-! ## The code -/

def ofBits (w : BitVec 128) : M128i := ofQuads (w.extractLsb' 64 64) (w.extractLsb' 0 64)

/-- The lower quadwords. -/
def pclmulqdq00 (x y : M128i) : M128i := ofBits (clmul x.lo y.lo)

/-- The upper quadwords. -/
def pclmulqdq11 (x y : M128i) : M128i := ofBits (clmul x.hi y.hi)

/-- `BK`: the two quadwords combined, in the lower one. -/
def bk (kw : M128i) : M128i := xorSi128 kw (shuffleEpi32 kw 0x0E)

def pbk (k0 k1 : M128i) : M128i × M128i := (unpackloEpi64 k1 k0, xorSi128 k0 k1)

/-- Four registers with a quadword each, the first the highest. -/
structure Quads where
  x0 : M128i
  x1 : M128i
  x2 : M128i
  x3 : M128i

def sl256 (q : Quads) : Quads :=
  ⟨orSi128 (slliEpi64 q.x0 1) (srliEpi64 q.x1 63), orSi128 (slliEpi64 q.x1 1) (srliEpi64 q.x2 63),
    orSi128 (slliEpi64 q.x2 1) (srliEpi64 q.x3 63), slliEpi64 q.x3 1⟩

/-- A quadword of `REDUCE_F128`, at the place of the quadword two above. -/
def foldUp (x y : M128i) : M128i :=
  xorSi128 x (xorSi128 (xorSi128 y (srliEpi64 y 1)) (xorSi128 (srliEpi64 y 2) (srliEpi64 y 7)))

/-- What that shifted out, at the quadword below. -/
def foldDown (x y : M128i) : M128i :=
  xorSi128 (xorSi128 x (slliEpi64 y 63)) (xorSi128 (slliEpi64 y 62) (slliEpi64 y 57))

def reduceF128 (q : Quads) : M128i × M128i :=
  let x1 := foldUp q.x1 q.x3
  let x2 := foldDown q.x2 q.x3
  let x0 := foldUp q.x0 x2
  let x1 := foldDown x1 x2
  (x0, x1)

def squareF128 (kw : M128i) : M128i × M128i :=
  let z1 := pclmulqdq11 kw kw
  let z3 := pclmulqdq00 kw kw
  let r := reduceF128 (sl256 ⟨shuffleEpi32 z1 0x0E, z1, shuffleEpi32 z3 0x0E, z3⟩)
  pbk r.1 r.2

/-- From the products of the upper quadwords, of both and of the lower ones to the reduced product. -/
def reduceProducts (t1 t2 t3 : M128i) : M128i × M128i :=
  let t2 := xorSi128 t2 (xorSi128 t1 t3)
  let t0 := shuffleEpi32 t1 0x0E
  let t1 := xorSi128 t1 (shuffleEpi32 t2 0x0E)
  let t2 := xorSi128 t2 (shuffleEpi32 t3 0x0E)
  reduceF128 (sl256 ⟨t0, t1, t2, t3⟩)

/-- A power of the hash key, and its quadwords combined. -/
structure Power where
  w : M128i
  x : M128i

structure Powers where
  h1 : Power
  h2 : Power
  h3 : Power
  h4 : Power

def powers (h1w : M128i) : Powers :=
  let h1x := bk h1w
  let h2 := squareF128 h1w
  let r := reduceProducts (pclmulqdq11 h1w h2.1) (pclmulqdq00 h1x h2.2) (pclmulqdq00 h1w h2.1)
  let h3 := pbk r.1 r.2
  let h4 := squareF128 h2.1
  ⟨⟨h1w, h1x⟩, ⟨h2.1, h2.2⟩, ⟨h3.1, h3.2⟩, ⟨h4.1, h4.2⟩⟩

/-- Four products, with the powers of the key. -/
def sum4 (f : M128i → M128i → M128i) (a0 h4 a1 h3 a2 h2 a3 h1 : M128i) : M128i :=
  xorSi128 (xorSi128 (f a0 h4) (f a1 h3)) (xorSi128 (f a2 h2) (f a3 h1))

/-- The 64 bytes at `buf1`. -/
def step4 (h : Powers) (buf1 : List Byte) (yw : M128i) : M128i :=
  let aw0 := xorSi128 (byteswap (loadu (buf1.take 16))) yw
  let aw1 := byteswap (loadu ((buf1.drop 16).take 16))
  let aw2 := byteswap (loadu ((buf1.drop 32).take 16))
  let aw3 := byteswap (loadu ((buf1.drop 48).take 16))
  let t1 := sum4 pclmulqdq11 aw0 h.h4.w aw1 h.h3.w aw2 h.h2.w aw3 h.h1.w
  let t3 := sum4 pclmulqdq00 aw0 h.h4.w aw1 h.h3.w aw2 h.h2.w aw3 h.h1.w
  let t2 := sum4 pclmulqdq00 (bk aw0) h.h4.x (bk aw1) h.h3.x (bk aw2) h.h2.x (bk aw3) h.h1.x
  let r := reduceProducts t1 t2 t3
  unpackloEpi64 r.2 r.1

/-- The 16 bytes at `buf2`. -/
def step1 (h : Power) (buf2 : List Byte) (yw : M128i) : M128i :=
  let aw := xorSi128 (byteswap (loadu (buf2.take 16))) yw
  let r := reduceProducts (pclmulqdq11 aw h.w) (pclmulqdq00 (bk aw) h.x) (pclmulqdq00 aw h.w)
  unpackloEpi64 r.2 r.1

def loop4 (h : Powers) : (num4 : Nat) → (buf1 : List Byte) → (yw : M128i) → M128i
  | 0, _, yw => yw
  | num4 + 1, buf1, yw => loop4 h num4 (buf1.drop 64) (step4 h buf1 yw)

def loop1 (h : Power) : (num1 : Nat) → (buf2 : List Byte) → (yw : M128i) → M128i
  | 0, _, yw => yw
  | num1 + 1, buf2, yw => loop1 h num1 (buf2.drop 16) (step1 h buf2 yw)

def brGhashPclmul (y h data : List Byte) : List Byte :=
  let num4 := data.length / 64
  let len := data.length % 64
  let buf2 := data.drop (num4 * 64)
  let num1 := (len + 15) / 16
  let buf2 := if len % 16 ≠ 0 then buf2.take len ++ List.replicate (num1 * 16 - len) 0 else buf2
  let yw := byteswap (loadu y)
  let h1w := byteswap (loadu h)
  -- the powers are made only if there are 64 bytes
  let yw := if num4 > 0 then loop4 (powers h1w) num4 data yw else yw
  let yw := loop1 ⟨h1w, bk h1w⟩ num1 buf2 yw
  storeu (byteswap yw)


/-! ## Quadwords -/

theorem bits_ofBits (w : BitVec 128) : (ofBits w).bits = w := by
  rw [bits, ofBits, hi_ofQuads, lo_ofQuads]
  apply BitVec.eq_of_toNat_eq
  have hw := w.isLt
  simp only [toNat_append, BitVec.extractLsb'_toNat, Nat.shiftRight_eq_div_pow]
  omega

/-- The two parts of a sum of shifted words do not meet. -/
theorem shiftLeft_or_ushiftRight (a b : BitVec 64) : (a <<< 1) ||| (b >>> 63) = (a <<< 1) ^^^ (b >>> 63) := by
  apply BitVec.eq_of_getLsbD_eq
  intro i hi
  rw [BitVec.getLsbD_or, BitVec.getLsbD_xor]
  rcases Nat.eq_zero_or_pos i with rfl | hpos
  · simp
  · have hb : (b >>> 63).getLsbD i = false := by
      rw [BitVec.getLsbD_ushiftRight]
      exact BitVec.getLsbD_of_ge _ _ (by omega)
    rw [hb, Bool.or_false, Bool.xor_false]

section Ring

variable {R : Type} [CommRing R] {x y : R}

theorem eval_bits (y : R) (w : M128i) : eval y w.bits = eval y w.lo + y ^ 64 * eval y w.hi := Gf128.eval_append y w.hi w.lo

def Quads.eval (y : R) (q : Quads) : R :=
  y ^ 192 * Gf128.eval y q.x0.lo + y ^ 128 * Gf128.eval y q.x1.lo + y ^ 64 * Gf128.eval y q.x2.lo + Gf128.eval y q.x3.lo

variable [CharP R 2]

theorem eval_pclmulqdq00 (y : R) (a b : M128i) : eval y (pclmulqdq00 a b).bits = eval y a.lo * eval y b.lo := by
  rw [pclmulqdq00, bits_ofBits, Gf128.eval_clmul]

theorem eval_pclmulqdq11 (y : R) (a b : M128i) : eval y (pclmulqdq11 a b).bits = eval y a.hi * eval y b.hi := by
  rw [pclmulqdq11, bits_ofBits, Gf128.eval_clmul]

omit [CharP R 2] in
theorem eval_shift_one (y : R) (w : BitVec 64) : y * eval y w = y ^ 64 * eval y (w >>> 63) + eval y (w <<< 1) := by
  have h := Gf128.eval_shift (show 63 ≤ 64 by decide) y w
  rwa [show 64 - 63 = 1 from rfl, pow_one] at h

/-- The shift is a product with `y` if it drops nothing. -/
theorem eval_sl256 (y : R) {q : Quads} (htop : q.x0.lo.getLsbD 63 = false) : (sl256 q).eval y = y * q.eval y := by
  have hdropped : eval y (q.x0.lo >>> 63) = 0 := by
    apply Gf128.evalBits_false
    intro i _
    rw [BitVec.getLsbD_ushiftRight]
    rcases Nat.eq_zero_or_pos i with rfl | hpos
    · exact htop
    · exact BitVec.getLsbD_of_ge _ _ (by omega)
  have h₀ := eval_shift_one y q.x0.lo
  have h₁ := eval_shift_one y q.x1.lo
  have h₂ := eval_shift_one y q.x2.lo
  have h₃ := eval_shift_one y q.x3.lo
  rw [hdropped] at h₀
  simp only [Quads.eval, sl256, lo_orSi128, lo_slliEpi64, lo_srliEpi64, shiftLeft_or_ushiftRight, Gf128.eval_xor]
  linear_combination - y ^ 192 * h₀ - y ^ 128 * h₁ - y ^ 64 * h₂ - h₃

theorem eval_foldUp (y : R) (a c : M128i) :
    eval y (foldUp a c).lo =
      eval y a.lo + (eval y c.lo + eval y (c.lo >>> 1) + (eval y (c.lo >>> 2) + eval y (c.lo >>> 7))) := by
  simp only [foldUp, lo_xorSi128, lo_srliEpi64, Gf128.eval_xor]

theorem eval_foldDown (y : R) (b c : M128i) :
    eval y (foldDown b c).lo =
      eval y b.lo + eval y (c.lo <<< 63) + (eval y (c.lo <<< 62) + eval y (c.lo <<< 57)) := by
  simp only [foldDown, lo_xorSi128, lo_slliEpi64, Gf128.eval_xor]

theorem eval_fold (hy : (1 : R) = y ^ 121 + y ^ 126 + y ^ 127 + y ^ 128) (a b c : M128i) :
    y ^ 128 * eval y a.lo + y ^ 64 * eval y b.lo + eval y c.lo =
      y ^ 128 * eval y (foldUp a c).lo + y ^ 64 * eval y (foldDown b c).lo := by
  have h₁ := Gf128.eval_shift (show 1 ≤ 64 by decide) y c.lo
  have h₂ := Gf128.eval_shift (show 2 ≤ 64 by decide) y c.lo
  have h₇ := Gf128.eval_shift (show 7 ≤ 64 by decide) y c.lo
  rw [eval_foldUp, eval_foldDown]
  simp only [Nat.reduceSub] at h₁ h₂ h₇
  linear_combination eval y c.lo * hy + y ^ 64 * (h₁ + h₂ + h₇)

/-- What `REDUCE_F128` leaves, two places higher. -/
theorem eval_reduceF128 (hy : (1 : R) = y ^ 121 + y ^ 126 + y ^ 127 + y ^ 128) (q : Quads) :
    y ^ 128 * eval y (unpackloEpi64 (reduceF128 q).2 (reduceF128 q).1).bits = q.eval y := by
  have hlow := eval_fold hy q.x1 q.x2 q.x3
  have hhigh := eval_fold hy q.x0 (foldUp q.x1 q.x3) (foldDown q.x2 q.x3)
  rw [bits_unpackloEpi64, Gf128.eval_append, Quads.eval, reduceF128]
  linear_combination - hlow - y ^ 64 * hhigh

omit [CharP R 2] in
/-- The powers of the variable, from the other end. -/
theorem one_eq_inverse (hxy : x * y = 1) (hx : x ^ 128 = x ^ 7 + x ^ 2 + x + 1) :
    (1 : R) = y ^ 121 + y ^ 126 + y ^ 127 + y ^ 128 := by
  have hpow : ∀ n, x ^ n * y ^ n = 1 := fun n => by rw [← mul_pow, hxy, one_pow]
  have h₁₂₈ := hpow 128
  rw [hx] at h₁₂₈
  linear_combination (- 1 : R) * h₁₂₈ + y ^ 121 * hpow 7 + y ^ 126 * hpow 2 + y ^ 127 * hpow 1

theorem value_reduceF128 (hxy : x * y = 1) (hx : x ^ 128 = x ^ 7 + x ^ 2 + x + 1) {q : Quads} (htop : q.x0.lo.getLsbD 63 = false) :
    value x (unpackloEpi64 (reduceF128 (sl256 q)).2 (reduceF128 (sl256 q)).1).bits = x ^ 254 * q.eval y := by
  have hpow : x ^ 128 * y ^ 128 = 1 := by rw [← mul_pow, hxy, one_pow]
  have hreduce := eval_reduceF128 (one_eq_inverse hxy hx) (sl256 q)
  rw [eval_sl256 y htop] at hreduce
  rw [Gf128.value_eq_pow_mul_eval hxy]
  generalize eval y (unpackloEpi64 (reduceF128 (sl256 q)).2 (reduceF128 (sl256 q)).1).bits = e at hreduce ⊢
  linear_combination x ^ 255 * hreduce - x ^ 127 * e * hpow + x ^ 254 * q.eval y * hxy

omit [CharP R 2] in
theorem value_eq_eval (hxy : x * y = 1) (w : M128i) : value x w.bits = x ^ 127 * (eval y w.lo + y ^ 64 * eval y w.hi) := by
  rw [Gf128.value_eq_pow_mul_eval hxy, eval_bits]

theorem hi_getLsbD {w : M128i} (h : w.bits.getLsbD 127 = false) : w.hi.getLsbD 63 = false := by
  rw [bits, BitVec.getLsbD_append] at h
  exact h

theorem value_reduceProducts (hxy : x * y = 1) (hx : x ^ 128 = x ^ 7 + x ^ 2 + x + 1) {t1 : M128i} (htop : t1.bits.getLsbD 127 = false)
    (t2 t3 : M128i) :
    value x (unpackloEpi64 (reduceProducts t1 t2 t3).2 (reduceProducts t1 t2 t3).1).bits =
      x ^ 254 * (y ^ 128 * eval y t1.bits + y ^ 64 * (eval y t2.bits + (eval y t1.bits + eval y t3.bits)) + eval y t3.bits) := by
  rw [reduceProducts, value_reduceF128 hxy hx (by rw [lo_shuffleEpi32_0E]; exact hi_getLsbD htop)]
  congr 1
  simp only [Quads.eval, lo_xorSi128, hi_xorSi128, lo_shuffleEpi32_0E, Gf128.eval_xor, eval_bits]
  ring

/-- The lower quadword of `x` is both of `w` combined. -/
def Combined (w x : M128i) : Prop := x.lo = w.lo ^^^ w.hi

omit [CommRing R] [CharP R 2] in
theorem combined_bk (w : M128i) : Combined w (bk w) := by
  rw [Combined, bk, lo_xorSi128, lo_shuffleEpi32_0E]

omit [CommRing R] [CharP R 2] in
theorem combined_pbk (k0 k1 : M128i) : Combined (pbk k0 k1).1 (pbk k0 k1).2 := by
  rw [Combined, pbk, unpackloEpi64, hi_ofQuads, lo_ofQuads, lo_xorSi128, BitVec.xor_comm]

/-- Three products of quadwords make the product of two registers. -/
theorem value_mul_value (hxy : x * y = 1) {a ax b bx : M128i} (ha : Combined a ax) (hb : Combined b bx) :
    value x a.bits * value x b.bits =
      x ^ 254 * (y ^ 128 * eval y (pclmulqdq11 a b).bits +
        y ^ 64 * (eval y (pclmulqdq00 ax bx).bits + (eval y (pclmulqdq11 a b).bits + eval y (pclmulqdq00 a b).bits)) +
        eval y (pclmulqdq00 a b).bits) := by
  rw [value_eq_eval hxy, value_eq_eval hxy]
  simp only [eval_pclmulqdq00, eval_pclmulqdq11]
  rw [ha, hb, Gf128.eval_xor, Gf128.eval_xor]
  -- the products of equal quadwords come twice
  have hlow := CharTwo.add_self_eq_zero (eval y a.lo * eval y b.lo)
  have hhigh := CharTwo.add_self_eq_zero (eval y a.hi * eval y b.hi)
  linear_combination - x ^ 254 * y ^ 64 * (hlow + hhigh)

theorem clmul_bits_top (a b : M128i) : (pclmulqdq11 a b).bits.getLsbD 127 = false := by
  rw [pclmulqdq11, bits_ofBits]
  exact Gf128.clmul_top a.hi b.hi

theorem value_squareF128 (hxy : x * y = 1) (hx : x ^ 128 = x ^ 7 + x ^ 2 + x + 1) (w : M128i) :
    value x (squareF128 w).1.bits = value x w.bits ^ 2 := by
  have htop : (shuffleEpi32 (pclmulqdq11 w w) 0x0E).lo.getLsbD 63 = false := by
    rw [lo_shuffleEpi32_0E]
    exact hi_getLsbD (clmul_bits_top w w)
  have hhigh := eval_pclmulqdq11 y w w
  have hlow := eval_pclmulqdq00 y w w
  have hcross := CharTwo.add_self_eq_zero (eval y w.lo * eval y w.hi)
  rw [eval_bits] at hhigh hlow
  have hreduce := value_reduceF128 hxy hx
    (q := ⟨shuffleEpi32 (pclmulqdq11 w w) 0x0E, pclmulqdq11 w w, shuffleEpi32 (pclmulqdq00 w w) 0x0E, pclmulqdq00 w w⟩) htop
  refine hreduce.trans ?_
  rw [value_eq_eval hxy]
  simp only [Quads.eval, lo_shuffleEpi32_0E]
  linear_combination x ^ 254 * (y ^ 128 * hhigh + hlow - y ^ 64 * hcross)

theorem value_product (hxy : x * y = 1) (hx : x ^ 128 = x ^ 7 + x ^ 2 + x + 1) {a ax b bx : M128i} (ha : Combined a ax) (hb : Combined b bx)
    {r : M128i × M128i} (hr : r = reduceProducts (pclmulqdq11 a b) (pclmulqdq00 ax bx) (pclmulqdq00 a b)) :
    value x (unpackloEpi64 r.2 r.1).bits = value x a.bits * value x b.bits := by
  rw [hr, value_reduceProducts hxy hx (clmul_bits_top a b), value_mul_value hxy ha hb]

theorem value_powers (hxy : x * y = 1) (hx : x ^ 128 = x ^ 7 + x ^ 2 + x + 1) (w : M128i) :
    value x (powers w).h2.w.bits = value x w.bits ^ 2 ∧ value x (powers w).h3.w.bits = value x w.bits ^ 3 ∧
    value x (powers w).h4.w.bits = value x w.bits ^ 4 := by
  have h2 := value_squareF128 hxy hx w
  have hcombined : Combined (squareF128 w).1 (squareF128 w).2 := combined_pbk ..
  refine ⟨h2, ?_, ?_⟩
  · have h3 := value_product hxy hx (combined_bk w) hcombined rfl
    rw [h2] at h3
    refine h3.trans ?_
    ring
  · show value x (squareF128 (squareF128 w).1).1.bits = _
    rw [value_squareF128 hxy hx, h2]
    ring

end Ring

theorem powers_combined (w : M128i) :
    Combined (powers w).h1.w (powers w).h1.x ∧ Combined (powers w).h2.w (powers w).h2.x ∧
    Combined (powers w).h3.w (powers w).h3.x ∧ Combined (powers w).h4.w (powers w).h4.x :=
  ⟨combined_bk w, combined_pbk .., combined_pbk .., combined_pbk ..⟩

/-! ## Blocks -/

theorem bits_load {b : List Byte} (h : 16 ≤ b.length) : (byteswap (loadu (b.take 16))).bits = block (b.take 16) := by
  have hlen : (b.take 16).length = 16 := by rw [List.length_take]; omega
  rw [bits_byteswap_loadu hlen, Gcm.block_of_length hlen]

theorem step1_bits {w wx : M128i} (hw : Combined w wx) {buf2 : List Byte} (hlen : 16 ≤ buf2.length) (yw : M128i) :
    (step1 ⟨w, wx⟩ buf2 yw).bits = Gf128.mul (yw.bits ^^^ block (buf2.take 16)) w.bits := by
  apply Gf128.eq_of_value
  intro R _ _ x y hxy hx
  generalize haw : xorSi128 (byteswap (loadu (buf2.take 16))) yw = aw
  have hbits : aw.bits = yw.bits ^^^ block (buf2.take 16) := by rw [← haw, bits_xorSi128, bits_load hlen, BitVec.xor_comm]
  rw [Gf128.value_mul hx, step1, haw, ← hbits]
  exact value_product hxy hx (combined_bk aw) hw rfl

section Sums

variable {R : Type} [CommRing R] [CharP R 2]

theorem eval_sum4 (y : R) (f : M128i → M128i → M128i) (a0 h4 a1 h3 a2 h2 a3 h1 : M128i) :
    eval y (sum4 f a0 h4 a1 h3 a2 h2 a3 h1).bits =
      eval y (f a0 h4).bits + eval y (f a1 h3).bits + (eval y (f a2 h2).bits + eval y (f a3 h1).bits) := by
  simp only [sum4, bits_xorSi128, Gf128.eval_xor]

end Sums

theorem sum4_top (a0 h4 a1 h3 a2 h2 a3 h1 : M128i) : (sum4 pclmulqdq11 a0 h4 a1 h3 a2 h2 a3 h1).bits.getLsbD 127 = false := by
  simp only [sum4, bits_xorSi128, BitVec.getLsbD_xor, clmul_bits_top, Bool.xor_false]

/-- Four blocks with one reduction: the key's powers take the place of the products one after the other. -/
theorem step4_bits (w : M128i) {buf1 : List Byte} (hlen : 64 ≤ buf1.length) (yw : M128i) :
    (step4 (powers w) buf1 yw).bits =
      Gf128.ghash w.bits yw.bits [block (buf1.take 16), block ((buf1.drop 16).take 16), block ((buf1.drop 32).take 16),
        block ((buf1.drop 48).take 16)] := by
  apply Gf128.eq_of_value
  intro R _ _ x y hxy hx
  obtain ⟨h2, h3, h4⟩ := value_powers hxy hx w
  obtain ⟨c1, c2, c3, c4⟩ := powers_combined w
  have b0 := bits_load (show 16 ≤ buf1.length by omega)
  have b1 := bits_load (show 16 ≤ (buf1.drop 16).length by rw [List.length_drop]; omega)
  have b2 := bits_load (show 16 ≤ (buf1.drop 32).length by rw [List.length_drop]; omega)
  have b3 := bits_load (show 16 ≤ (buf1.drop 48).length by rw [List.length_drop]; omega)
  simp only [Gf128.ghash, List.foldl_cons, List.foldl_nil, Gf128.value_mul hx, Gf128.value_xor, ← b0, ← b1, ← b2, ← b3]
  rw [step4]
  generalize haw0 : xorSi128 (byteswap (loadu (buf1.take 16))) yw = aw0
  generalize byteswap (loadu ((buf1.drop 16).take 16)) = aw1
  generalize byteswap (loadu ((buf1.drop 32).take 16)) = aw2
  generalize byteswap (loadu ((buf1.drop 48).take 16)) = aw3
  have hfirst : value x aw0.bits = value x (byteswap (loadu (buf1.take 16))).bits + value x yw.bits := by
    rw [← haw0, bits_xorSi128, Gf128.value_xor]
  have p0 := value_mul_value hxy (combined_bk aw0) c4
  have p1 := value_mul_value hxy (combined_bk aw1) c3
  have p2 := value_mul_value hxy (combined_bk aw2) c2
  have p3 := value_mul_value hxy (combined_bk aw3) c1
  refine (value_reduceProducts hxy hx (sum4_top ..) ..).trans ?_
  rw [eval_sum4, eval_sum4, eval_sum4]
  rw [h4, hfirst] at p0
  rw [h3] at p1
  rw [h2] at p2
  have h1 : value x (powers w).h1.w.bits = value x w.bits := rfl
  rw [h1] at p3
  linear_combination - p0 - p1 - p2 - p3

/-! ## Data -/

theorem blocks_four {buf : List Byte} (h : 64 ≤ buf.length) :
    blocks (buf.take 64) =
      [block (buf.take 16), block ((buf.drop 16).take 16), block ((buf.drop 32).take 16), block ((buf.drop 48).take 16)] := by
  rw [show 64 = 16 * (3 + 1) from rfl, Gcm.blocks_take (by omega), Gcm.blocks_take (by rw [List.length_drop]; omega),
    Gcm.blocks_take (by rw [List.length_drop, List.length_drop]; omega),
    Gcm.blocks_take (by rw [List.length_drop, List.length_drop, List.length_drop]; omega), List.drop_drop, List.drop_drop,
    Nat.mul_zero, List.take_zero, Gcm.blocks_nil]

theorem loop4_bits (w : M128i) (num4 : Nat) {buf1 : List Byte} (hlen : 64 * num4 ≤ buf1.length) (yw : M128i) :
    (loop4 (powers w) num4 buf1 yw).bits = Gf128.ghash w.bits yw.bits (blocks (buf1.take (64 * num4))) := by
  induction num4 generalizing buf1 yw with
  | zero => rw [loop4, Nat.mul_zero, List.take_zero, Gcm.blocks_nil, Gf128.ghash, List.foldl_nil]
  | succ num4 ih =>
    have hfour : blocks (buf1.take 64) = [block (buf1.take 16), block ((buf1.drop 16).take 16), block ((buf1.drop 32).take 16),
        block ((buf1.drop 48).take 16)] := blocks_four (by omega)
    have hsplit : buf1.take (64 * (num4 + 1)) = buf1.take 64 ++ (buf1.drop 64).take (64 * num4) := by
      rw [Nat.mul_succ, Nat.add_comm, List.take_add]
    rw [loop4, ih (by rw [List.length_drop]; omega), step4_bits w (by omega), hsplit,
      Gcm.blocks_append (by rw [List.length_take]; omega), hfour, Gf128.ghash_append]

theorem loop1_bits {w wx : M128i} (hw : Combined w wx) (num1 : Nat) {buf2 : List Byte} (hlen : 16 * num1 ≤ buf2.length) (yw : M128i) :
    (loop1 ⟨w, wx⟩ num1 buf2 yw).bits = Gf128.ghash w.bits yw.bits (blocks (buf2.take (16 * num1))) := by
  induction num1 generalizing buf2 yw with
  | zero => rw [loop1, Nat.mul_zero, List.take_zero, Gcm.blocks_nil, Gf128.ghash, List.foldl_nil]
  | succ num1 ih =>
    rw [loop1, ih (by rw [List.length_drop]; omega), step1_bits hw (by omega), Gcm.blocks_take hlen]
    rfl

theorem loop1_padded {w wx : M128i} (hw : Combined w wx) {rest : List Byte} {len : Nat} (hlen : rest.length = len) (yw : M128i) :
    (loop1 ⟨w, wx⟩ ((len + 15) / 16)
      (if len % 16 ≠ 0 then rest.take len ++ List.replicate ((len + 15) / 16 * 16 - len) 0 else rest) yw).bits =
      Gf128.ghash w.bits yw.bits (blocks rest) := by
  subst hlen
  split
  · have hpadded : (rest ++ List.replicate ((rest.length + 15) / 16 * 16 - rest.length) 0).length = 16 * ((rest.length + 15) / 16) := by
      rw [List.length_append, List.length_replicate]
      omega
    rw [List.take_length, loop1_bits hw _ (by omega), List.take_of_length_le (by omega), Gcm.blocks_pad (by assumption) (by omega)]
  · rw [loop1_bits hw _ (by omega), List.take_of_length_le (by omega)]

theorem block_storeu_byteswap (w : M128i) : block (storeu (byteswap w)) = w.bits := by
  rw [Gcm.block_of_length (length_storeu _), ← bits_byteswap_loadu (length_storeu _), loadu_storeu, byteswap_byteswap]

/-- The hash of data of any length, whatever comes four blocks at a time. -/
theorem brGhashPclmul_eq {y h : List Byte} (hy : y.length = 16) (hh : h.length = 16) (data : List Byte) :
    (brGhashPclmul y h data).length = 16 ∧
    block (brGhashPclmul y h data) = Gf128.ghash (block h) (block y) (blocks data) := by
  refine ⟨length_storeu _, ?_⟩
  have hyw : (byteswap (loadu y)).bits = block y := by rw [bits_byteswap_loadu hy, Gcm.block_of_length hy]
  have hhw : (byteswap (loadu h)).bits = block h := by rw [bits_byteswap_loadu hh, Gcm.block_of_length hh]
  have hsplit : data = data.take (64 * (data.length / 64)) ++ data.drop (data.length / 64 * 64) := by
    rw [Nat.mul_comm, List.take_append_drop]
  -- the whole quadruples
  have h4 : (if data.length / 64 > 0 then loop4 (powers (byteswap (loadu h))) (data.length / 64) data (byteswap (loadu y))
      else byteswap (loadu y)).bits = Gf128.ghash (block h) (block y) (blocks (data.take (64 * (data.length / 64)))) := by
    rw [← hyw, ← hhw, ← loop4_bits _ _ (by omega)]
    split
    · rfl
    · rw [show data.length / 64 = 0 by omega, loop4]
  have hrest : (data.drop (data.length / 64 * 64)).length = data.length % 64 := by rw [List.length_drop]; omega
  have hwhole : (data.take (64 * (data.length / 64))).length % 16 = 0 := by rw [List.length_take]; omega
  have hcombined := combined_bk (byteswap (loadu h))
  calc block (brGhashPclmul y h data)
      = Gf128.ghash (block h) (Gf128.ghash (block h) (block y) (blocks (data.take (64 * (data.length / 64)))))
          (blocks (data.drop (data.length / 64 * 64))) := by
        rw [brGhashPclmul, block_storeu_byteswap, loop1_padded hcombined hrest, h4, hhw]
    _ = Gf128.ghash (block h) (block y) (blocks data) := by
        rw [← Gf128.ghash_append, ← Gcm.blocks_append hwhole, ← hsplit]

end ContactDiscovery.Enclave.Ghash
