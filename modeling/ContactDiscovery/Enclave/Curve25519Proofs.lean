/-
  ContactDiscovery.Enclave.Curve25519Proofs — `curve25519_donna` multiplies points of the curve
  `y² = x³ + 486662 x² + x`, by their x-coordinates.

  - `prime_p`: `2^255 - 19` is prime.
  - `crecip_spec`: the chain of squares and products is the inverse.
  - `fmonty_spec`, `cmult_spec`: the loop over bytes and bits is the ladder of `Lib.Montgomery`, and its
    limbs never get too large.
  - `curve25519Donna_spec`: so the result is that of the ladder, in the only 32 bytes below the prime.
  - `curve25519Donna_mul`: it is the x-coordinate of a multiple of every point with the x-coordinate that
    is given.
  - `curve25519Donna_comm`: two secrets can be applied in either order.
-/

import ContactDiscovery.Enclave.Curve25519Codec
import ContactDiscovery.Lib.Lucas
import ContactDiscovery.Lib.Montgomery

namespace ContactDiscovery.Enclave.Curve25519

open Lib Lib.Montgomery

/-! ## The prime -/

def smallPrimes : List Nat :=
  [2, 3, 5, 7, 13, 17, 19, 23, 29, 31, 41, 43, 47, 59, 83, 97, 103, 107, 127, 131, 173, 223, 353, 419, 479, 487, 991]

def certificates : List LucasCertificate :=
  [⟨1723, 3, [2, 3, 7, 41]⟩, ⟨2437, 2, [2, 2, 3, 7, 29]⟩, ⟨3727, 3, [2, 3, 3, 3, 3, 23]⟩, ⟨4153, 5, [2, 2, 2, 3, 173]⟩,
    ⟨9463, 3, [2, 3, 19, 83]⟩, ⟨32573, 2, [2, 2, 17, 479]⟩, ⟨37853, 2, [2, 2, 9463]⟩, ⟨57467, 2, [2, 59, 487]⟩,
    ⟨65147, 2, [2, 32573]⟩, ⟨75707, 2, [2, 37853]⟩, ⟨132049, 26, [2, 2, 2, 2, 3, 3, 7, 131]⟩,
    ⟨430751, 17, [2, 5, 5, 5, 1723]⟩, ⟨569003, 2, [2, 7, 97, 419]⟩, ⟨1923133, 2, [2, 2, 3, 43, 3727]⟩,
    ⟨8574133, 2, [2, 2, 3, 7, 103, 991]⟩, ⟨2773320623, 5, [2, 2437, 569003]⟩, ⟨72106336199, 7, [2, 13, 2773320623]⟩,
    ⟨1919519569386763, 2, [2, 3, 7, 19, 47, 47, 127, 8574133]⟩,
    ⟨31757755568855353, 10, [2, 2, 2, 3, 31, 107, 223, 4153, 430751]⟩,
    ⟨75445702479781427272750846543864801, 7, [2, 2, 2, 2, 2, 3, 3, 5, 5, 75707, 72106336199, 1919519569386763]⟩,
    ⟨74058212732561358302231226437062788676166966415465897661863160754340907, 2,
      [2, 3, 353, 57467, 132049, 1923133, 31757755568855353, 75445702479781427272750846543864801]⟩,
    ⟨2 ^ 255 - 19, 2, [2, 2, 3, 65147, 74058212732561358302231226437062788676166966415465897661863160754340907]⟩]

theorem prime_p : p.Prime := by
  have hsmall : ∀ q ∈ smallPrimes, q.Prime := by
    simp only [smallPrimes, List.forall_mem_cons]
    norm_num
  have hcheck : checkAll 256 smallPrimes certificates = true := by decide +kernel
  exact prime_of_checkAll hsmall hcheck ⟨p, 2, _⟩ (List.mem_of_getLast? rfl)

instance : Fact p.Prime := ⟨prime_p⟩

/-! ## The inverse -/

structure IsPow (z : ZMod p) (e : Nat) (f : Felem) : Prop where
  le : f.Le (2 ^ 51)
  eq : f.toF = z ^ e

theorem IsPow.mul {z : ZMod p} {d e : Nat} {f g : Felem} (hf : IsPow z d f) (hg : IsPow z e g) : IsPow z (d + e) (fmul f g) := by
  obtain ⟨hle, heq⟩ := fmul_spec (hf.le.mono pow51_le_maxLimb) (hg.le.mono pow51_le_maxLimb)
  exact ⟨hle, by rw [heq, hf.eq, hg.eq, pow_add]⟩

theorem IsPow.squareTimes {z : ZMod p} {e : Nat} {f : Felem} (hf : IsPow z e f) (count : Limb) (hcount : count ≠ 0) :
    IsPow z (e * 2 ^ count.toNat) (fsquareTimes f count) := by
  obtain ⟨hle, heq⟩ := fsquareTimes_spec (hf.le.mono pow51_le_maxLimb) count hcount
  exact ⟨hle, by rw [heq, hf.eq, pow_mul]⟩

theorem pow_sub_two (z : ZMod p) : z ^ (p - 2) = z⁻¹ := by
  have hp : p - 2 ≠ 0 := by decide
  by_cases hz : z = 0
  · rw [hz, zero_pow hp, inv_zero]
  · have hcard : z ^ (p - 2) * z = 1 := by
      rw [← pow_succ]
      exact ZMod.pow_card_sub_one_eq_one hz
    exact eq_inv_of_mul_eq_one_left hcard

theorem crecip_spec {f : Felem} (hf : f.Le (2 ^ 51)) : (crecip f).Le (2 ^ 51) ∧ (crecip f).toF = f.toF⁻¹ := by
  have h1 : IsPow f.toF 1 f := ⟨hf, (pow_one _).symm⟩
  have h2 := h1.squareTimes 1 (by decide)
  have h8 := h2.squareTimes 2 (by decide)
  have h9 := h8.mul h1
  have h11 := h9.mul h2
  have h22 := h11.squareTimes 1 (by decide)
  have h31 := h22.mul h9
  have h10 := (h31.squareTimes 5 (by decide)).mul h31
  have h20 := (h10.squareTimes 10 (by decide)).mul h10
  have h40 := (h20.squareTimes 20 (by decide)).mul h20
  have h50 := (h40.squareTimes 10 (by decide)).mul h10
  have h100 := (h50.squareTimes 50 (by decide)).mul h50
  have h200 := (h100.squareTimes 100 (by decide)).mul h100
  have h250 := (h200.squareTimes 50 (by decide)).mul h50
  have h255 := (h250.squareTimes 5 (by decide)).mul h11
  have hrecip : IsPow f.toF (p - 2) (crecip f) := h255
  exact ⟨hrecip.le, by rw [hrecip.eq, pow_sub_two]⟩

/-! ## A step of the ladder -/

def Coords.toPair (q : Coords) : Pair (ZMod p) := ⟨q.x.toF, q.z.toF⟩

structure Coords.Reduced (q : Coords) : Prop where
  x : q.x.Le (2 ^ 51)
  z : q.z.Le (2 ^ 51)

/-- Limbs never grow beyond what `fmul` and `fsquare_times` can take: a difference is the largest. -/
theorem fmonty_spec {q q' : Coords} {u : Felem} (hq : q.Reduced) (hq' : q'.Reduced) (hu : u.Le (2 ^ 51)) :
    ((fmonty q q' u).1.Reduced ∧ (fmonty q q' u).2.Reduced) ∧
    (fmonty q q' u).1.toPair = double 121665 q.toPair ∧ (fmonty q q' u).2.toPair = diffAdd u.toF q.toPair q'.toPair := by
  have hsum : 2 ^ 51 + 2 ^ 51 ≤ maxLimb := by decide
  obtain ⟨lx, ex⟩ := fsum_spec hq.x hq.z (by decide)
  obtain ⟨lz, ez⟩ := fdifferenceBackwards_spec hq.z hq.x
  obtain ⟨lx', ex'⟩ := fsum_spec hq'.x hq'.z (by decide)
  obtain ⟨lz', ez'⟩ := fdifferenceBackwards_spec hq'.z hq'.x
  obtain ⟨lcb, ecb⟩ := fmul_spec (lx'.mono hsum) lz
  obtain ⟨lda, eda⟩ := fmul_spec (lx.mono hsum) lz'
  obtain ⟨lsum, esum⟩ := fsum_spec lcb lda (by decide)
  obtain ⟨ldif, edif⟩ := fdifferenceBackwards_spec lda lcb
  obtain ⟨lx3, ex3⟩ := fsquareTimes_spec (lsum.mono hsum) 1 (by decide)
  obtain ⟨lzzz', ezzz'⟩ := fsquareTimes_spec ldif 1 (by decide)
  obtain ⟨lz3, ez3⟩ := fmul_spec (lzzz'.mono pow51_le_maxLimb) (hu.mono pow51_le_maxLimb)
  obtain ⟨lxx, exx⟩ := fsquareTimes_spec (lx.mono hsum) 1 (by decide)
  obtain ⟨lzz, ezz⟩ := fsquareTimes_spec lz 1 (by decide)
  obtain ⟨lx2, ex2⟩ := fmul_spec (lxx.mono pow51_le_maxLimb) (lzz.mono pow51_le_maxLimb)
  obtain ⟨le, ee⟩ := fdifferenceBackwards_spec lzz lxx
  obtain ⟨lp, ep⟩ := fscalarProduct_spec le 121665 (by decide)
  obtain ⟨lzzz, ezzz⟩ := fsum_spec lp lxx (by decide)
  obtain ⟨lz2, ez2⟩ := fmul_spec le (lzzz.mono (by decide))
  have hone : (1 : Limb).toNat = 1 := rfl
  have hscalar : (((121665 : Limb).toNat : Nat) : ZMod p) = 121665 := rfl
  rw [hone, pow_one] at ex3 ezzz' exx ezz
  refine ⟨⟨⟨lx2, lz2⟩, ⟨lx3, lz3⟩⟩, ?_, ?_⟩
  · simp only [fmonty, Coords.toPair, double, ex2, ez2, ezzz, ep, ee, exx, ezz, ex, ez, hscalar, Pair.mk.injEq, true_and]
    ring
  · simp only [fmonty, Coords.toPair, diffAdd, ex3, ez3, ezzz', esum, edif, ecb, eda, ex, ez, ex', ez', Pair.mk.injEq]
    exact ⟨by ring, by ring⟩

theorem swapConditional_zero (a b : Felem) : swapConditional a b 0 = (a, b) := by
  simp [swapConditional, swapLimb]

theorem swapLimb_ones (a b : Limb) : swapLimb (-1) a b = (b, a) := by
  have hones : (-1 : Limb) = BitVec.allOnes 64 := by decide
  have hb : a ^^^ (a ^^^ b) = b := by rw [← BitVec.xor_assoc, BitVec.xor_self, BitVec.zero_xor]
  have ha : b ^^^ (a ^^^ b) = a := by rw [BitVec.xor_comm a b, ← BitVec.xor_assoc, BitVec.xor_self, BitVec.zero_xor]
  rw [swapLimb, hones]
  simp only [BitVec.allOnes_and, ha, hb]

theorem swapConditional_one (a b : Felem) : swapConditional a b 1 = (b, a) := by
  simp only [swapConditional, swapLimb_ones]

theorem swapCoords_bit (q q' : Coords) (bit : Bool) :
    swapCoords q q' (BitVec.setWidth 64 (BitVec.ofBool bit)) = if bit then (q', q) else (q, q') := by
  cases bit with
  | false =>
    have hbit : BitVec.setWidth 64 (BitVec.ofBool false) = 0 := by decide
    simp only [swapCoords, hbit, swapConditional_zero, Bool.false_eq_true, if_false]
  | true =>
    have hbit : BitVec.setWidth 64 (BitVec.ofBool true) = 1 := by decide
    simp only [swapCoords, hbit, swapConditional_one, if_true]

def toPairs (q : Coords × Coords) : Pair (ZMod p) × Pair (ZMod p) := (q.1.toPair, q.2.toPair)

theorem cmultBit_spec {u : Felem} (hu : u.Le (2 ^ 51)) {q : Coords × Coords} (h₁ : q.1.Reduced) (h₂ : q.2.Reduced) (byte : Byte) :
    ((cmultBit u (q, byte)).1.1.Reduced ∧ (cmultBit u (q, byte)).1.2.Reduced) ∧
    toPairs (cmultBit u (q, byte)).1 = ladderStep 121665 u.toF (toPairs q) (byte.getMsbD 0) ∧
    (cmultBit u (q, byte)).2 = byte <<< 1 := by
  have hbit : (byte >>> 7).setWidth 64 = BitVec.setWidth 64 (BitVec.ofBool (byte.getMsbD 0)) := by
    revert byte; decide
  simp only [cmultBit, hbit, swapCoords_bit]
  cases byte.getMsbD 0 with
  | false =>
    obtain ⟨hred, hdouble, hadd⟩ := fmonty_spec h₁ h₂ hu
    simp only [Bool.false_eq_true, if_false]
    refine ⟨hred, ?_, trivial⟩
    simp only [toPairs, ladderStep, Bool.false_eq_true, if_false, hdouble, hadd]
  | true =>
    obtain ⟨hred, hdouble, hadd⟩ := fmonty_spec h₂ h₁ hu
    simp only [if_true]
    refine ⟨⟨hred.2, hred.1⟩, ?_, trivial⟩
    simp only [toPairs, ladderStep, if_true, hdouble, hadd]

/-! ## The scalar -/

def byteBits (byte : Byte) : List Bool := (List.range 8).map byte.getMsbD

/-- The bits of a little-endian number, highest first. -/
def scalarBits (n : List Byte) : List Bool := n.reverse.flatMap byteBits

theorem cmultBit_iterate {u : Felem} (hu : u.Le (2 ^ 51)) {q : Coords × Coords} (h₁ : q.1.Reduced) (h₂ : q.2.Reduced)
    (byte : Byte) (n : Nat) :
    ((((cmultBit u)^[n] (q, byte)).1.1.Reduced ∧ ((cmultBit u)^[n] (q, byte)).1.2.Reduced) ∧
    toPairs ((cmultBit u)^[n] (q, byte)).1 = ((List.range n).map byte.getMsbD).foldl (ladderStep 121665 u.toF) (toPairs q)) ∧
    ((cmultBit u)^[n] (q, byte)).2 = byte <<< n := by
  induction n with
  | zero => exact ⟨⟨⟨h₁, h₂⟩, rfl⟩, by simp⟩
  | succ n ih =>
    obtain ⟨⟨hred, hpairs⟩, hbyte⟩ := ih
    rw [Function.iterate_succ_apply']
    generalize (cmultBit u)^[n] (q, byte) = r at *
    obtain ⟨r, b⟩ := r
    simp only at hbyte
    subst hbyte
    obtain ⟨hred', hpairs', hbyte'⟩ := cmultBit_spec hu hred.1 hred.2 (byte <<< n)
    have hmsb : (byte <<< n).getMsbD 0 = byte.getMsbD n := by simp [BitVec.getMsbD_shiftLeft]
    refine ⟨⟨hred', ?_⟩, ?_⟩
    · rw [hpairs', hmsb, List.range_succ, List.map_append, List.map_cons, List.map_nil, List.foldl_concat, ← hpairs]
    · rw [hbyte', ← BitVec.shiftLeft_add]

theorem cmult_spec {u : Felem} (hu : u.Le (2 ^ 51)) (n : List Byte) :
    (cmult n u).Reduced ∧ (cmult n u).toPair = (ladder 121665 u.toF (scalarBits n)).1 := by
  have hzero : felemZero.toF = 0 := by simp [Felem.toF, Felem.val, felemZero]
  have hone : felemOne.toF = 1 := by simp [Felem.toF, Felem.val, felemOne]
  have hloop : ∀ (bytes : List Byte) (q : Coords × Coords), q.1.Reduced → q.2.Reduced →
      let r := bytes.foldl (fun nq byte => ((cmultBit u)^[8] (nq, byte)).1) q
      (r.1.Reduced ∧ r.2.Reduced) ∧ toPairs r = (bytes.flatMap byteBits).foldl (ladderStep 121665 u.toF) (toPairs q) := by
    intro bytes
    induction bytes with
    | nil => intro q h₁ h₂; exact ⟨⟨h₁, h₂⟩, rfl⟩
    | cons byte bytes ih =>
      intro q h₁ h₂
      obtain ⟨⟨hred, hpairs⟩, -⟩ := cmultBit_iterate hu h₁ h₂ byte 8
      obtain ⟨hred', hpairs'⟩ := ih _ hred.1 hred.2
      refine ⟨hred', ?_⟩
      rw [List.flatMap_cons, List.foldl_append, byteBits, ← hpairs]
      exact hpairs'
  have hle : ∀ f, f = felemZero ∨ f = felemOne → f.Le (2 ^ 51) := by
    intro f hf
    rcases hf with rfl | rfl
    · exact ⟨by decide, by decide, by decide, by decide, by decide⟩
    · exact ⟨by decide, by decide, by decide, by decide, by decide⟩
  obtain ⟨hred, hpairs⟩ := hloop n.reverse (⟨felemOne, felemZero⟩, ⟨u, felemOne⟩)
    ⟨hle _ (.inr rfl), hle _ (.inl rfl)⟩ ⟨hu, hle _ (.inr rfl)⟩
  refine ⟨hred.1, ?_⟩
  have hstart : toPairs (⟨felemOne, felemZero⟩, ⟨u, felemOne⟩) = (⟨1, 0⟩, ⟨u.toF, 1⟩) := by
    simp only [toPairs, Coords.toPair, hzero, hone]
  rw [hstart] at hpairs
  exact congrArg Prod.fst hpairs

theorem scalar_byteBits (byte : Byte) : scalar (byteBits byte) = byte.toNat := by
  revert byte; decide

theorem scalar_scalarBits (n : List Byte) : scalar (scalarBits n) = leNat n := by
  induction n with
  | nil => rfl
  | cons byte n ih =>
    have hlen : (byteBits byte).length = 8 := by simp [byteBits]
    rw [scalarBits, List.reverse_cons, List.flatMap_append, List.flatMap_cons, List.flatMap_nil, List.append_nil,
      scalar_append, scalar_byteBits, ← scalarBits, ih, hlen, leNat_cons]
    ring

theorem toNat_clampFirst (byte : Byte) : (byte &&& 248).toNat = 8 * (byte.toNat / 8) := by
  revert byte; decide

theorem toNat_clampLast (byte : Byte) : ((byte &&& 127) ||| 64).toNat = 64 + byte.toNat % 64 := by
  revert byte; decide

/-- The three lowest bits are cleared and the highest of the 255 is set. -/
theorem leNat_clamp {secret : List Byte} (h : secret.length = 32) :
    leNat (clamp secret) = 2 ^ 254 + 8 * (leNat secret / 8 % 2 ^ 251) := by
  obtain ⟨first, rest, rfl⟩ : ∃ first rest, secret = first :: rest := List.exists_cons_of_length_pos (by omega)
  obtain ⟨mid, last, rfl⟩ : ∃ mid last, rest = mid ++ [last] := by
    refine ⟨rest.dropLast, rest.getLast ?_, (List.dropLast_append_getLast _).symm⟩
    intro hnil
    rw [hnil] at h
    cases h
  have hmid : mid.length = 30 := by simpa using h
  have hclamp : clamp (first :: (mid ++ [last])) = (first &&& 248) :: (mid ++ [(last &&& 127) ||| 64]) := by
    have hmod : ∀ (f : Byte → Byte) (b : Byte), (mid ++ [b]).modify 30 f = mid ++ [f b] := by
      intro f b
      rw [← hmid, List.modify_eq_take_cons_drop (by simp), List.take_left, List.getElem_concat_length rfl]
      simp
    simp only [clamp, List.modify_zero_cons, List.modify_succ_cons, hmod]
  have hf := first.isLt
  have hl := last.isLt
  have hm := leNat_lt mid
  rw [hmid] at hm
  simp only [hclamp, leNat_cons, leNat_append, leNat_nil, hmid, toNat_clampFirst, toNat_clampLast, Nat.mul_zero, Nat.add_zero]
  omega

/-! ## The public key function -/

theorem curve25519Donna_spec (secret basepoint : List Byte) :
    (curve25519Donna secret basepoint).length = 32 ∧ leNat (curve25519Donna secret basepoint) < p ∧
    (leNat (curve25519Donna secret basepoint) : ZMod p) =
      mulX 121665 ((leNat basepoint % 2 ^ 255 : Nat) : ZMod p) (scalarBits (clamp secret)) := by
  obtain ⟨hbp, hval⟩ := fexpand_spec basepoint
  obtain ⟨hred, hpair⟩ := cmult_spec hbp (clamp secret)
  obtain ⟨hinv, hinvF⟩ := crecip_spec hred.z
  obtain ⟨hle, hmul⟩ := fmul_spec (hred.x.mono pow51_le_maxLimb) (hinv.mono pow51_le_maxLimb)
  obtain ⟨hlen, hbytes⟩ := fcontract_spec hle
  refine ⟨hlen, ?_, ?_⟩
  · rw [curve25519Donna, hbytes]
    exact Nat.mod_lt _ (by decide)
  · rw [curve25519Donna, hbytes, ZMod.natCast_mod, ← Felem.toF, hmul, hinvF, mulX, ← hval, ← Felem.toF, ← hpair]
    rfl

theorem even_clamp {secret : List Byte} (h : secret.length = 32) : Even (scalar (scalarBits (clamp secret))) := by
  rw [scalar_scalarBits, leNat_clamp h, Nat.even_iff]
  omega

theorem curve_ok : (2 : ZMod p) ≠ 0 ∧ (486662 : ZMod p) ^ 2 ≠ 4 ∧ (4 * 121665 : ZMod p) = 486662 - 2 := by
  have hcast : ∀ n : Nat, 0 < n → n < p → ((n : Nat) : ZMod p) ≠ 0 := by
    intro n hn hlt h
    have hdvd := (ZMod.natCast_eq_zero_iff n p).mp h
    exact absurd (Nat.le_of_dvd hn hdvd) (by omega)
  refine ⟨hcast 2 (by decide) (by decide), ?_, by norm_num⟩
  have hsub : (486662 : ZMod p) ^ 2 - 4 = ((486662 ^ 2 - 4 : Nat) : ZMod p) := by norm_num
  exact sub_ne_zero.mp (by rw [hsub]; exact hcast _ (by decide) (by decide))

theorem basePoint_equation : (14781619447589544791020593568409986887264606134616475288964881837755586237401 : ZMod p) ^ 2 =
    9 ^ 3 + 486662 * 9 ^ 2 + 9 := by
  have hnat : ((14781619447589544791020593568409986887264606134616475288964881837755586237401 ^ 2 : Nat) : ZMod p) =
      ((9 ^ 3 + 486662 * 9 ^ 2 + 9 : Nat) : ZMod p) := (ZMod.natCast_eq_natCast_iff' _ _ p).mpr (by decide)
  exact_mod_cast hnat

/-- The point whose multiples are the public keys. -/
def basePoint : (montgomery (486662 : ZMod p)).Point :=
  .some 9 14781619447589544791020593568409986887264606134616475288964881837755586237401
    (nonsingular_of_equation curve_ok.1 curve_ok.2.1 basePoint_equation)

theorem xCoord_basePoint : xCoord basePoint = ((leNat (9 :: List.replicate 31 0) % 2 ^ 255 : Nat) : ZMod p) := by
  have hnine : leNat (9 :: List.replicate 31 0) % 2 ^ 255 = 9 := by decide
  rw [hnine]
  rfl

/-- What is computed: the x-coordinate of a multiple of any point with the x-coordinate that is given,
    in any field that has the integers modulo the prime; 0 stands for the point at infinity. -/
theorem curve25519Donna_mul {K : Type} [Field K] [CharP K p] [DecidableEq K] (secret : Bytes 32) (basepoint : List Byte)
    (Q : (montgomery (486662 : K)).Point) (hQ : xCoord Q = ((leNat basepoint % 2 ^ 255 : Nat) : K)) :
    (leNat (curve25519Donna secret.1 basepoint) : K) = xCoord ((2 ^ 254 + 8 * (leNat secret.1 / 8 % 2 ^ 251)) • Q) := by
  obtain ⟨h2, ha, ha24⟩ := curve_ok
  let f := ZMod.castHom (dvd_refl p) K
  have h2' : (2 : K) ≠ 0 := by
    rw [← map_ofNat f 2]
    exact (map_ne_zero f).mpr h2
  have ha' : (486662 : K) ^ 2 ≠ 4 := by
    rw [← map_ofNat f 486662, ← map_pow, ← map_ofNat f 4]
    exact f.injective.ne ha
  have ha24' : (4 * f 121665 : K) = 486662 - 2 := by
    rw [← map_ofNat f 4, ← map_ofNat f 486662, ← map_ofNat f 2, ← map_mul, ← map_sub, ha24]
  have hspec := congrArg f (curve25519Donna_spec secret.1 basepoint).2.2
  rw [map_natCast, map_mulX, map_natCast, ← hQ, mulX_xCoord h2' ha' ha24' Q (even_clamp secret.2), scalar_scalarBits,
    leNat_clamp secret.2] at hspec
  exact hspec

theorem curve25519Donna_mul_basePoint :
    (leNat (curve25519Donna (List.replicate 32 7) (9 :: List.replicate 31 0)) : ZMod p) =
      xCoord ((2 ^ 254 + 8 * (leNat (List.replicate 32 7) / 8 % 2 ^ 251)) • basePoint) :=
  curve25519Donna_mul ⟨List.replicate 32 7, rfl⟩ (9 :: List.replicate 31 0) basePoint xCoord_basePoint

/-- Two secrets can be applied in either order, to any 32 bytes. -/
theorem curve25519Donna_comm (secret secret' : Bytes 32) (basepoint : List Byte) :
    curve25519Donna secret.1 (curve25519Donna secret'.1 basepoint) =
      curve25519Donna secret'.1 (curve25519Donna secret.1 basepoint) := by
  obtain ⟨h2, ha, ha24⟩ := curve_ok
  have hp : p < 2 ^ 255 := by decide
  obtain ⟨-, hlt, hval⟩ := curve25519Donna_spec secret.1 basepoint
  obtain ⟨-, hlt', hval'⟩ := curve25519Donna_spec secret'.1 basepoint
  obtain ⟨hlen₁, hlt₁, hval₁⟩ := curve25519Donna_spec secret.1 (curve25519Donna secret'.1 basepoint)
  obtain ⟨hlen₂, hlt₂, hval₂⟩ := curve25519Donna_spec secret'.1 (curve25519Donna secret.1 basepoint)
  -- what was computed is below the prime, so its last bit is not lost
  rw [Nat.mod_eq_of_lt (Nat.lt_trans hlt' hp), hval'] at hval₁
  rw [Nat.mod_eq_of_lt (Nat.lt_trans hlt hp), hval] at hval₂
  rw [mulX_comm h2 ha ha24 _ (even_clamp secret'.2) (even_clamp secret.2), ← hval₂] at hval₁
  apply leNat_inj (hlen₁.trans hlen₂.symm)
  have hmod := (ZMod.natCast_eq_natCast_iff' _ _ p).mp hval₁
  rwa [Nat.mod_eq_of_lt hlt₁, Nat.mod_eq_of_lt hlt₂] at hmod

end ContactDiscovery.Enclave.Curve25519
