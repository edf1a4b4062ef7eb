/-
  ContactDiscovery.Enclave.Curve25519Codec — the bytes of a field element.

  `fexpand` reads a number of 255 bits, whatever the last bit of the 32 bytes is, and also one that is
  not below the prime (`fexpand_spec`). `fcontract` writes the only 32 bytes of the element that are a
  number below the prime (`fcontract_spec`): the carries bring the limbs below `2^255`, and adding 19
  tells whether the prime is to be subtracted.
-/

import ContactDiscovery.Enclave.Curve25519Field

namespace ContactDiscovery.Enclave.Curve25519

open Lib

/-! ## Reading -/

theorem toNat_byteAt (b : List Byte) (i : Nat) : (byteAt b i).toNat = (b.getD i 0).toNat := by
  have hlt := (b.getD i 0).isLt
  rw [byteAt, BitVec.toNat_setWidth]
  exact Nat.mod_eq_of_lt (by omega)

theorem leNat_eq_getD (b : List Byte) (i : Nat) : leNat (b.drop i) = (b.getD i 0).toNat + 256 * leNat (b.drop (i + 1)) := by
  by_cases hi : i < b.length
  · rw [List.drop_eq_getElem_cons hi, leNat_cons, List.getD_eq_getElem b 0 hi]
  · rw [List.drop_eq_nil_of_le (by omega), List.drop_eq_nil_of_le (by omega), List.getD_eq_default _ _ (by omega)]
    rfl

/-- Eight bytes, and zeros where there are none. -/
theorem toNat_loadLimb (b : List Byte) (i : Nat) : (loadLimb b i).toNat = leNat b / 256 ^ i % 2 ^ 64 := by
  have hbyte : ∀ j, (byteAt b j).toNat < 256 := by
    intro j
    rw [toNat_byteAt]
    exact (b.getD j 0).isLt
  have h0 := hbyte i
  have h1 := hbyte (i + 1)
  have h2 := hbyte (i + 2)
  have h3 := hbyte (i + 3)
  have h4 := hbyte (i + 4)
  have h5 := hbyte (i + 5)
  have h6 := hbyte (i + 6)
  have h7 := hbyte (i + 7)
  rw [← leNat_drop, leNat_eq_getD, leNat_eq_getD, leNat_eq_getD, leNat_eq_getD, leNat_eq_getD, leNat_eq_getD, leNat_eq_getD,
    leNat_eq_getD]
  simp only [← toNat_byteAt, Nat.add_assoc, Nat.reduceAdd]
  have e1 := toNat_or_shift (w := byteAt b i) (v := byteAt b (i + 1)) (n := 8) (by omega) (by omega)
  have e2 := toNat_or_shift (v := byteAt b (i + 2)) (n := 16) (Nat.lt_of_le_of_lt (Nat.le_of_eq e1) (by omega)) (by omega)
  have e3 := toNat_or_shift (v := byteAt b (i + 3)) (n := 24) (Nat.lt_of_le_of_lt (Nat.le_of_eq e2) (by omega)) (by omega)
  have e4 := toNat_or_shift (v := byteAt b (i + 4)) (n := 32) (Nat.lt_of_le_of_lt (Nat.le_of_eq e3) (by omega)) (by omega)
  have e5 := toNat_or_shift (v := byteAt b (i + 5)) (n := 40) (Nat.lt_of_le_of_lt (Nat.le_of_eq e4) (by omega)) (by omega)
  have e6 := toNat_or_shift (v := byteAt b (i + 6)) (n := 48) (Nat.lt_of_le_of_lt (Nat.le_of_eq e5) (by omega)) (by omega)
  have e7 := toNat_or_shift (v := byteAt b (i + 7)) (n := 56) (Nat.lt_of_le_of_lt (Nat.le_of_eq e6) (by omega)) (by omega)
  rw [loadLimb, e7, e6, e5, e4, e3, e2, e1]
  omega

theorem fexpand_spec (b : List Byte) : (fexpand b).Le (2 ^ 51) ∧ (fexpand b).val = leNat b % 2 ^ 255 := by
  have h0 := toNat_loadLimb b 0
  have h6 := toNat_loadLimb b 6
  have h12 := toNat_loadLimb b 12
  have h19 := toNat_loadLimb b 19
  have h24 := toNat_loadLimb b 24
  generalize leNat b = n at *
  have e0 : (fexpand b).l0.toNat = n % 2 ^ 51 := by
    rw [fexpand, toNat_mask, h0]; omega
  have e1 : (fexpand b).l1.toNat = n / 2 ^ 51 % 2 ^ 51 := by
    rw [fexpand, toNat_mask, BitVec.toNat_ushiftRight, Nat.shiftRight_eq_div_pow, h6]; omega
  have e2 : (fexpand b).l2.toNat = n / 2 ^ 102 % 2 ^ 51 := by
    rw [fexpand, toNat_mask, BitVec.toNat_ushiftRight, Nat.shiftRight_eq_div_pow, h12]; omega
  have e3 : (fexpand b).l3.toNat = n / 2 ^ 153 % 2 ^ 51 := by
    rw [fexpand, toNat_mask, BitVec.toNat_ushiftRight, Nat.shiftRight_eq_div_pow, h19]; omega
  have e4 : (fexpand b).l4.toNat = n / 2 ^ 204 % 2 ^ 51 := by
    rw [fexpand, toNat_mask, BitVec.toNat_ushiftRight, Nat.shiftRight_eq_div_pow, h24]; omega
  refine ⟨⟨by omega, by omega, by omega, by omega, by omega⟩, ?_⟩
  rw [Felem.val, e0, e1, e2, e3, e4]
  omega

/-! ## Writing -/

def Wide.val (t : Wide) : Nat :=
  t.t0.toNat + 2 ^ 51 * t.t1.toNat + 2 ^ 102 * t.t2.toNat + 2 ^ 153 * t.t3.toNat + 2 ^ 204 * t.t4.toNat

structure Wide.Lt (b : Nat) (t : Wide) : Prop where
  t0 : t.t0.toNat < b
  t1 : t.t1.toNat < b
  t2 : t.t2.toNat < b
  t3 : t.t3.toNat < b
  t4 : t.t4.toNat < b

theorem toNat_wideMask (t : Uint128) : (t &&& 0x7ffffffffffff).toNat = t.toNat % 2 ^ 51 :=
  Nat.and_two_pow_sub_one_eq_mod t.toNat 51

theorem toNat_addShift {t u : Uint128} (ht : t.toNat < 2 ^ 64) (hu : u.toNat < 2 ^ 65) :
    (t + u >>> 51).toNat = t.toNat + u.toNat / 2 ^ 51 := by
  rw [BitVec.toNat_add, BitVec.toNat_ushiftRight, Nat.shiftRight_eq_div_pow]
  omega

/-- The carries keep the number, and leave 51 bits in all words but the last. -/
theorem carryUp_spec {t : Wide} (h : t.Lt (2 ^ 64)) :
    t.carryUp.val = t.val ∧ t.carryUp.t0.toNat < 2 ^ 51 ∧ t.carryUp.t1.toNat < 2 ^ 51 ∧ t.carryUp.t2.toNat < 2 ^ 51 ∧
      t.carryUp.t3.toNat < 2 ^ 51 ∧ t.carryUp.t4.toNat < 2 ^ 65 := by
  obtain ⟨h0, h1, h2, h3, h4⟩ := h
  simp only [Wide.carryUp, Wide.val]
  have e1 := toNat_addShift (t := t.t1) (u := t.t0) h1 (by omega)
  generalize t.t1 + t.t0 >>> 51 = u1 at e1 ⊢
  have e2 := toNat_addShift (t := t.t2) (u := u1) h2 (by omega)
  generalize t.t2 + u1 >>> 51 = u2 at e2 ⊢
  have e3 := toNat_addShift (t := t.t3) (u := u2) h3 (by omega)
  generalize t.t3 + u2 >>> 51 = u3 at e3 ⊢
  have e4 := toNat_addShift (t := t.t4) (u := u3) h4 (by omega)
  generalize t.t4 + u3 >>> 51 = u4 at e4 ⊢
  simp only [toNat_wideMask]
  omega

/-- What is beyond 255 bits is carried to the first word, times 19. -/
theorem carryRound_spec {t : Wide} (h : t.Lt (2 ^ 64)) (hval : t.val < 2 ^ 256) :
    t.carryRound.val + t.val / 2 ^ 255 * (2 ^ 255 - 19) = t.val ∧ t.carryRound.t0.toNat < 2 ^ 51 + 19 * (t.val / 2 ^ 255) ∧
      t.carryRound.t1.toNat < 2 ^ 51 ∧ t.carryRound.t2.toNat < 2 ^ 51 ∧ t.carryRound.t3.toNat < 2 ^ 51 ∧
      t.carryRound.t4.toNat < 2 ^ 51 := by
  obtain ⟨hv, h0, h1, h2, h3, h4⟩ := carryUp_spec h
  generalize ht : t.carryUp = u at hv h0 h1 h2 h3 h4
  generalize t.val = n at hval hv ⊢
  rw [Wide.val] at hv
  have hquot : u.t4.toNat / 2 ^ 51 = n / 2 ^ 255 := by omega
  have hcarry : (u.t0 + (19 : Uint128) * u.t4 >>> 51).toNat = u.t0.toNat + 19 * (n / 2 ^ 255) := by
    have h19 : (19 : Uint128).toNat = 19 := rfl
    rw [BitVec.toNat_add, BitVec.toNat_mul, BitVec.toNat_ushiftRight, Nat.shiftRight_eq_div_pow, h19, hquot]
    omega
  simp only [Wide.carryRound, ht]
  refine ⟨?_, by rw [hcarry]; omega, h1, h2, h3, by rw [toNat_wideMask]; omega⟩
  simp only [Wide.val, hcarry, toNat_wideMask]
  omega

theorem leNat_storeLimb (w : Limb) : leNat (storeLimb w) = w.toNat := by
  have hw := w.isLt
  have hbyte : ∀ v : Limb, ((v &&& 0xff).setWidth 8).toNat = v.toNat % 256 := by
    intro v
    have hmask : (v &&& 0xff).toNat = v.toNat % 2 ^ 8 := Nat.and_two_pow_sub_one_eq_mod v.toNat 8
    rw [BitVec.toNat_setWidth, hmask, Nat.mod_mod]
    rfl
  simp only [storeLimb, List.map_cons, List.map_nil, leNat_cons, leNat_nil, hbyte, BitVec.toNat_ushiftRight,
    Nat.shiftRight_eq_div_pow]
  omega

/-- A word of the output: what is left of one limb, and the low bits of the next. -/
theorem toNat_pack {v u : Uint128} {j : Nat} (hv : v.toNat < 2 ^ j) (hu : u.toNat < 2 ^ 51) (hj : j ≤ 51) :
    (toLimb (v ||| u <<< j)).toNat = (v.toNat + u.toNat * 2 ^ j) % 2 ^ 64 := by
  have hlt : u.toNat * 2 ^ j < 2 ^ 51 * 2 ^ 51 :=
    Nat.mul_lt_mul_of_lt_of_le hu (Nat.pow_le_pow_right (by decide) hj) (by decide)
  have hshift : (u <<< j).toNat = u.toNat <<< j := by
    rw [BitVec.toNat_shiftLeft, Nat.shiftLeft_eq, Nat.mod_eq_of_lt (by omega)]
  rw [toLimb, BitVec.toNat_setWidth, BitVec.toNat_or, hshift, Nat.or_comm, ← Nat.shiftLeft_add_eq_or_of_lt hv,
    Nat.shiftLeft_eq, Nat.add_comm]

theorem leNat_pack {t : Wide} (h : t.Lt (2 ^ 51)) :
    leNat (storeLimb (toLimb (t.t0 ||| t.t1 <<< 51)) ++ storeLimb (toLimb (t.t1 >>> 13 ||| t.t2 <<< 38)) ++
      storeLimb (toLimb (t.t2 >>> 26 ||| t.t3 <<< 25)) ++ storeLimb (toLimb (t.t3 >>> 39 ||| t.t4 <<< 12))) = t.val := by
  obtain ⟨h0, h1, h2, h3, h4⟩ := h
  have hlen : ∀ w, (storeLimb w).length = 8 := fun _ => rfl
  have hshift : ∀ (v : Uint128) (n : Nat), (v >>> n).toNat = v.toNat / 2 ^ n := by
    intro v n
    rw [BitVec.toNat_ushiftRight, Nat.shiftRight_eq_div_pow]
  have e0 := toNat_pack (v := t.t0) (j := 51) h0 h1 (by decide)
  have e1 := toNat_pack (v := t.t1 >>> 13) (j := 38) (by rw [hshift]; omega) h2 (by decide)
  have e2 := toNat_pack (v := t.t2 >>> 26) (j := 25) (by rw [hshift]; omega) h3 (by decide)
  have e3 := toNat_pack (v := t.t3 >>> 39) (j := 12) (by rw [hshift]; omega) h4 (by decide)
  simp only [leNat_append, leNat_storeLimb, List.length_append, hlen, e0, e1, e2, e3, hshift, Wide.val]
  omega

theorem Wide.Lt.mono {b b' : Nat} {t : Wide} (h : t.Lt b) (hb : b ≤ b') : t.Lt b' :=
  ⟨Nat.lt_of_lt_of_le h.t0 hb, Nat.lt_of_lt_of_le h.t1 hb, Nat.lt_of_lt_of_le h.t2 hb, Nat.lt_of_lt_of_le h.t3 hb,
    Nat.lt_of_lt_of_le h.t4 hb⟩

theorem carryRound_twice {t : Wide} (h : t.Lt (2 ^ 51 + 1)) :
    t.carryRound.carryRound.Lt (2 ^ 51) ∧ t.carryRound.carryRound.val % p = t.val % p := by
  have hlt : t.val < 2 ^ 255 + 2 ^ 205 := by
    obtain ⟨h0, h1, h2, h3, h4⟩ := h
    rw [Wide.val]; omega
  obtain ⟨hval, a0, a1, a2, a3, a4⟩ := carryRound_spec (h.mono (by decide)) (by omega)
  generalize t.carryRound = u at *
  -- nothing is carried out of the second round
  have hu : u.val < 2 ^ 255 := by omega
  obtain ⟨hval', b0, b1, b2, b3, b4⟩ := carryRound_spec (t := u) ⟨by omega, by omega, by omega, by omega, by omega⟩ (by omega)
  have hzero : u.val / 2 ^ 255 = 0 := by omega
  rw [hzero] at hval' b0
  refine ⟨⟨by omega, b1, b2, b3, b4⟩, ?_⟩
  have hmod : u.val % p = t.val % p := by
    rw [← hval, ← p, Nat.add_mul_mod_self_right]
  rw [← hmod, ← hval', Nat.zero_mul, Nat.add_zero]

theorem toNat_addConst {w k : Uint128} (hw : w.toNat < 2 ^ 64) (hk : k.toNat < 2 ^ 64) : (w + k).toNat = w.toNat + k.toNat := by
  rw [BitVec.toNat_add]
  omega

/-- Adding 19 carries out just when the number is not below the prime. -/
theorem reduce_spec {t : Wide} (h : t.Lt (2 ^ 51)) : t.reduce.Lt (2 ^ 51) ∧ t.reduce.val = t.val % p := by
  obtain ⟨h0, h1, h2, h3, h4⟩ := h
  simp only [Wide.reduce]
  have h19 : (19 : Uint128).toNat = 19 := rfl
  have e0 := toNat_addConst (w := t.t0) (k := 19) (by omega) (by decide)
  generalize hu : (⟨t.t0 + 19, t.t1, t.t2, t.t3, t.t4⟩ : Wide) = u
  have hval : u.val = t.val + 19 := by
    simp only [← hu, Wide.val]; omega
  have hlt : t.val < 2 ^ 255 := by
    rw [Wide.val]; omega
  have hu64 : u.Lt (2 ^ 64) := by
    rw [← hu]
    exact ⟨Nat.lt_of_le_of_lt (Nat.le_of_eq e0) (by omega), Nat.lt_trans h1 (by decide), Nat.lt_trans h2 (by decide),
      Nat.lt_trans h3 (by decide), Nat.lt_trans h4 (by decide)⟩
  obtain ⟨hround, a0, a1, a2, a3, a4⟩ := carryRound_spec hu64 (by omega)
  generalize u.carryRound = v at *
  have hred : v.val = t.val % p + 19 := by
    rw [p]; omega
  -- 2^255 - 19 is added, and what is carried out is dropped
  have f0 := toNat_addConst (w := v.t0) (k := 0x8000000000000 - 19) (by omega) (by decide)
  have f1 := toNat_addConst (w := v.t1) (k := 0x8000000000000 - 1) (by omega) (by decide)
  have f2 := toNat_addConst (w := v.t2) (k := 0x8000000000000 - 1) (by omega) (by decide)
  have f3 := toNat_addConst (w := v.t3) (k := 0x8000000000000 - 1) (by omega) (by decide)
  have f4 := toNat_addConst (w := v.t4) (k := 0x8000000000000 - 1) (by omega) (by decide)
  have k0 : (0x8000000000000 - 19 : Uint128).toNat = 2 ^ 51 - 19 := by decide
  have k1 : (0x8000000000000 - 1 : Uint128).toNat = 2 ^ 51 - 1 := by decide
  generalize hw : (⟨v.t0 + (0x8000000000000 - 19), v.t1 + (0x8000000000000 - 1), v.t2 + (0x8000000000000 - 1),
    v.t3 + (0x8000000000000 - 1), v.t4 + (0x8000000000000 - 1)⟩ : Wide) = w
  have hwval : w.val = v.val + (2 ^ 255 - 19) := by
    simp only [← hw, Wide.val]; omega
  have hw64 : w.Lt (2 ^ 64) := by
    rw [← hw]
    exact ⟨Nat.lt_of_le_of_lt (Nat.le_of_eq f0) (by omega), Nat.lt_of_le_of_lt (Nat.le_of_eq f1) (by omega),
      Nat.lt_of_le_of_lt (Nat.le_of_eq f2) (by omega), Nat.lt_of_le_of_lt (Nat.le_of_eq f3) (by omega),
      Nat.lt_of_le_of_lt (Nat.le_of_eq f4) (by omega)⟩
  obtain ⟨hup, b0, b1, b2, b3, b4⟩ := carryUp_spec hw64
  have hp : t.val % p < 2 ^ 255 - 19 := Nat.mod_lt _ (by decide)
  rw [hwval, hred] at hup
  generalize t.val % p = n at *
  generalize w.carryUp = x at *
  refine ⟨⟨b0, b1, b2, b3, by rw [toNat_wideMask]; omega⟩, ?_⟩
  rw [Wide.val] at hup
  simp only [Wide.val, toNat_wideMask]
  omega

theorem fcontract_spec {f : Felem} (hf : f.Le (2 ^ 51)) : (fcontract f).length = 32 ∧ leNat (fcontract f) = f.val % p := by
  have hwide : ∀ w : Limb, (w.setWidth 128).toNat = w.toNat := by
    intro w
    rw [BitVec.toNat_setWidth]
    exact Nat.mod_eq_of_lt (Nat.lt_trans w.isLt (by decide))
  refine ⟨rfl, ?_⟩
  simp only [fcontract]
  generalize ht : (⟨f.l0.setWidth 128, f.l1.setWidth 128, f.l2.setWidth 128, f.l3.setWidth 128, f.l4.setWidth 128⟩ : Wide) = t
  have hval : t.val = f.val := by
    simp only [← ht, Wide.val, Felem.val, hwide]
  have hlt : t.Lt (2 ^ 51 + 1) := by
    rw [← ht]
    exact ⟨by rw [hwide]; exact Nat.lt_succ_of_le hf.l0, by rw [hwide]; exact Nat.lt_succ_of_le hf.l1,
      by rw [hwide]; exact Nat.lt_succ_of_le hf.l2, by rw [hwide]; exact Nat.lt_succ_of_le hf.l3,
      by rw [hwide]; exact Nat.lt_succ_of_le hf.l4⟩
  obtain ⟨hlt', hval'⟩ := carryRound_twice hlt
  obtain ⟨hlt'', hval''⟩ := reduce_spec hlt'
  rw [leNat_pack hlt'', hval'', hval', hval]

end ContactDiscovery.Enclave.Curve25519
