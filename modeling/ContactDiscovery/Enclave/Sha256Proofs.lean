/-
  ContactDiscovery.Enclave.Sha256Proofs — the running hash of `sha2small.c` is SHA-256 of all that it was
  given, and the HMAC of `hmac.c` is the one of `Lib.Crypt` over it.
-/

import ContactDiscovery.Enclave.Sha256
import ContactDiscovery.Enclave.RequestKeys

namespace ContactDiscovery.Enclave.Sha256

open Lib
open Lib.Sha2 hiding hash
open Lib.Sha2 (Word Regs)

/-! ## The round function -/

theorem ch_eq (x y z : Word) : ch x y z = choose x y z := by
  apply BitVec.eq_of_getLsbD_eq
  intro i hi
  simp only [ch, choose, BitVec.getLsbD_xor, BitVec.getLsbD_and, BitVec.getLsbD_not, hi, decide_true, Bool.true_and]
  cases x.getLsbD i <;> cases y.getLsbD i <;> cases z.getLsbD i <;> rfl

theorem maj_eq (x y z : Word) : maj x y z = majority x y z := by
  apply BitVec.eq_of_getLsbD_eq
  intro i _
  simp only [maj, majority, BitVec.getLsbD_xor, BitVec.getLsbD_and, BitVec.getLsbD_or]
  cases x.getLsbD i <;> cases y.getLsbD i <;> cases z.getLsbD i <;> rfl

theorem rotr_eq (x : Word) {n : Nat} (h : n < 32) : rotr x n = x.rotateRight n := by
  rw [rotr, BitVec.or_comm, BitVec.rotateRight, Nat.mod_eq_of_lt h]
  rfl

theorem bsg20_eq (x : Word) : bsg20 x = bigSigma0 x := by
  rw [bsg20, rotr_eq x (by decide), rotr_eq x (by decide), rotr_eq x (by decide), bigSigma0]

theorem bsg21_eq (x : Word) : bsg21 x = bigSigma1 x := by
  rw [bsg21, rotr_eq x (by decide), rotr_eq x (by decide), rotr_eq x (by decide), bigSigma1]

theorem ssg20_eq (x : Word) : ssg20 x = smallSigma0 x := by
  rw [ssg20, rotr_eq x (by decide), rotr_eq x (by decide), smallSigma0]

theorem ssg21_eq (x : Word) : ssg21 x = smallSigma1 x := by
  rw [ssg21, rotr_eq x (by decide), rotr_eq x (by decide), smallSigma1]

/-- A step sets two of the registers that a round shifts. -/
theorem round_eq (w : List Word) (a b c d e f g h : Word) (j : Nat) :
    Sha2.round (k j) (w.getD j 0) ⟨a, b, c, d, e, f, g, h⟩ =
      ⟨(sha2Step w a b c d e f g h j).2, a, b, c, (sha2Step w a b c d e f g h j).1, e, f, g⟩ := by
  simp only [Sha2.round, sha2Step, bsg20_eq, bsg21_eq, ch_eq, maj_eq]

/-- After eight steps each register is in its place again. -/
theorem sha2Steps_eq (w : List Word) (r : Regs) (i : Nat) :
    sha2Steps w r i = (List.range 8).foldl (fun r t => Sha2.round (k (i + t)) (w.getD (i + t) 0) r) r := by
  obtain ⟨a, b, c, d, e, f, g, h⟩ := r
  have hround := round_eq w
  unfold sha2Steps
  generalize sha2Step w = step at hround ⊢
  simp only [List.range, List.range.loop, List.foldl_cons, List.foldl_nil, hround]

theorem foldl_range_mul {σ : Type} (f : σ → Nat → σ) (m n : Nat) (s : σ) :
    (List.range n).foldl (fun s i => (List.range m).foldl (fun s t => f s (m * i + t)) s) s = (List.range (m * n)).foldl f s := by
  induction n with
  | zero => rfl
  | succ n ih =>
    rw [List.range_succ, List.foldl_concat, ih, Nat.mul_succ, List.range_add, List.foldl_append, List.foldl_map]

/-- The words are those of the schedule, as far as there are words. -/
theorem extend_schedule {m : Nat → Word} {w : List Word} (hlen : w.length = 16) (hw : ∀ t < 16, w.getD t 0 = m t) (n : Nat) :
    ((List.range' 16 n).foldl extend w).length = 16 + n ∧
    ∀ t < 16 + n, ((List.range' 16 n).foldl extend w).getD t 0 = schedule m t := by
  induction n with
  | zero =>
    refine ⟨hlen, fun t ht => ?_⟩
    rw [schedule, if_pos ht]
    exact hw t ht
  | succ n ih =>
    obtain ⟨ihlen, ih⟩ := ih
    rw [List.range'_concat, List.foldl_concat, Nat.one_mul]
    generalize (List.range' 16 n).foldl extend w = v at *
    refine ⟨by rw [extend, List.length_append, ihlen]; rfl, fun t ht => ?_⟩
    rw [extend]
    by_cases hlt : t < 16 + n
    · rw [List.getD_append _ _ _ _ (by omega), ih t hlt]
    · obtain rfl : t = 16 + n := by omega
      rw [List.getD_append_right _ _ _ _ (by omega), ihlen, Nat.sub_self, List.getD_cons_zero, schedule, if_neg (by omega),
        ih _ (by omega), ih _ (by omega), ih _ (by omega), ih _ (by omega), ssg20_eq, ssg21_eq]

theorem beNat_four (b₀ b₁ b₂ b₃ : Byte) :
    beNat [b₀, b₁, b₂, b₃] = b₀.toNat * 2 ^ 24 + b₁.toNat * 2 ^ 16 + b₂.toNat * 2 ^ 8 + b₃.toNat := by
  simp only [beNat, List.foldl_cons, List.foldl_nil]
  ring

theorem brDec32be_eq {buf : List Byte} {i : Nat} (h : i + 4 ≤ buf.length) : brDec32be buf i = beWord ((buf.drop i).take 4) := by
  have htake : (buf.drop i).take 4 = [buf.getD i 0, buf.getD (i + 1) 0, buf.getD (i + 2) 0, buf.getD (i + 3) 0] := by
    apply List.ext_getElem
    · rw [List.length_take, List.length_drop]
      exact Nat.min_eq_left (by omega)
    · intro j h₁ h₂
      have hj : j < 4 := h₂
      rw [List.getElem_take, List.getElem_drop]
      match j, hj with
      | 0, _ => rw [List.getElem_cons_zero, List.getD_eq_getElem _ _ (by omega)]; rfl
      | 1, _ => rw [List.getElem_cons_succ, List.getElem_cons_zero, List.getD_eq_getElem _ _ (by omega)]
      | 2, _ => rw [List.getElem_cons_succ, List.getElem_cons_succ, List.getElem_cons_zero, List.getD_eq_getElem _ _ (by omega)]
      | 3, _ =>
        rw [List.getElem_cons_succ, List.getElem_cons_succ, List.getElem_cons_succ, List.getElem_cons_zero,
          List.getD_eq_getElem _ _ (by omega)]
  rw [htake, beWord, beNat_four, brDec32be]
  generalize buf.getD i 0 = b₀
  generalize buf.getD (i + 1) 0 = b₁
  generalize buf.getD (i + 2) 0 = b₂
  generalize buf.getD (i + 3) 0 = b₃
  have hwidth : ∀ b : Byte, (b.setWidth 32).toNat = b.toNat := by
    intro b
    rw [BitVec.toNat_setWidth]
    exact Nat.mod_eq_of_lt (Nat.lt_trans b.isLt (by decide))
  have h₀ := b₀.isLt
  have h₁ := b₁.isLt
  have h₂ := b₂.isLt
  have h₃ := b₃.isLt
  -- lowest byte first
  rw [BitVec.or_comm _ (b₃.setWidth 32), BitVec.or_comm _ (b₂.setWidth 32 <<< 8), BitVec.or_comm (b₀.setWidth 32 <<< 24),
    ← BitVec.or_assoc, ← BitVec.or_assoc]
  have e₁ := toNat_or_shift (w := b₃.setWidth 32) (v := b₂.setWidth 32) (n := 8) (by rw [hwidth]; omega) (by rw [hwidth]; omega)
  have e₂ := toNat_or_shift (v := b₁.setWidth 32) (n := 16) (Nat.lt_of_le_of_lt (Nat.le_of_eq e₁) (by rw [hwidth, hwidth]; omega))
    (by rw [hwidth]; omega)
  rw [hwidth, hwidth] at e₁
  rw [e₁, hwidth] at e₂
  have e₃ := toNat_or_shift (v := b₀.setWidth 32) (n := 24) (Nat.lt_of_le_of_lt (Nat.le_of_eq e₂) (by omega)) (by rw [hwidth]; omega)
  rw [e₂, hwidth] at e₃
  apply BitVec.eq_of_toNat_eq
  rw [e₃, BitVec.toNat_ofNat]
  omega

theorem brSha2smallRound_eq {buf : List Byte} (h : buf.length = 64) (val : Regs) :
    brSha2smallRound buf val = compress k val buf := by
  have hw : ∀ t < 16, (brRangeDec32be 16 buf).getD t 0 = beWord (block 4 t buf) := by
    intro t ht
    rw [brRangeDec32be, List.getD_eq_getElem _ _ (by simpa using ht), List.getElem_map, List.getElem_range,
      brDec32be_eq (by omega), block]
  obtain ⟨-, hsched⟩ := extend_schedule (by simp [brRangeDec32be]) hw 48
  simp only [brSha2smallRound, compress, sha2Steps_eq]
  rw [foldl_range_mul (fun r t => Sha2.round (k t) (((List.range' 16 48).foldl extend (brRangeDec32be 16 buf)).getD t 0) r) 8 8]
  have hfold : ∀ r : Regs,
      (List.range 64).foldl (fun r t => Sha2.round (k t) (((List.range' 16 48).foldl extend (brRangeDec32be 16 buf)).getD t 0) r) r =
      (List.range 64).foldl (fun r t => Sha2.round (k t) (schedule (fun t => beWord (block 4 t buf)) t) r) r := by
    intro r
    apply List.foldl_ext
    intro r t ht
    rw [hsched t (List.mem_range.mp ht)]
  rw [hfold]
  rfl

/-! ## The running hash -/

/-- What the loop leaves: the value after all whole blocks, and what is left over in the buffer. -/
theorem sha2smallUpdateLoop_spec (buf : List Byte) (val : Regs) (ptr : Fin 64) (data : List Byte) (hbuf : buf.length = 64) :
    (sha2smallUpdateLoop buf val ptr data).1.length = 64 ∧
    (sha2smallUpdateLoop buf val ptr data).1.take ((ptr.1 + data.length) % 64) = leftover 64 (buf.take ptr ++ data) ∧
    (sha2smallUpdateLoop buf val ptr data).2 = absorb 64 (compress k) val (buf.take ptr ++ data) := by
  have hptr := ptr.isLt
  fun_induction sha2smallUpdateLoop buf val ptr data with
  | case1 buf val ptr =>
    have hlen : (buf.take ptr.1).length < 64 := by rw [List.length_take]; omega
    rw [List.append_nil, leftover_of_lt hlen, absorb_of_lt hlen, List.length_nil, Nat.add_zero, Nat.mod_eq_of_lt ptr.isLt]
    exact ⟨hbuf, rfl, rfl⟩
  | case2 buf val ptr data hdata clen buf' hfull ih =>
    -- the buffer is full
    have hclen : (data.take clen).length = clen := by rw [List.length_take]; omega
    have htake : buf'.take (ptr.1 + (data.take clen).length) = buf.take ptr.1 ++ data.take clen := take_memcpy _ _ (by omega)
    have hlen : buf'.length = buf.length := memcpy_length (by omega)
    rw [hclen, hfull, List.take_of_length_le (by omega)] at htake
    obtain ⟨ihlen, ihtake, ihval⟩ := ih (by omega) (by decide)
    have hsplit : buf.take ptr.1 ++ data = buf' ++ data.drop clen := by
      rw [htake, List.append_assoc, List.take_append_drop]
    have hmod : (ptr.1 + data.length) % 64 = (0 + (data.drop clen).length) % 64 := by
      rw [List.length_drop]; omega
    rw [hsplit, leftover_block (by decide) (by omega), absorb_block (by decide) (by omega), hmod,
      ← brSha2smallRound_eq (by omega)]
    exact ⟨ihlen, ihtake, ihval⟩
  | case3 buf val ptr data hdata clen buf' hpart ih =>
    -- the data is at its end
    have hclen : (data.take clen).length = clen := by rw [List.length_take]; omega
    have htake : buf'.take (ptr.1 + (data.take clen).length) = buf.take ptr.1 ++ data.take clen := take_memcpy _ _ (by omega)
    have hlen : buf'.length = buf.length := memcpy_length (by omega)
    rw [hclen] at htake
    obtain ⟨ihlen, ihtake, ihval⟩ := ih (by omega) (by omega)
    have hsplit : buf.take ptr.1 ++ data = buf'.take (ptr.1 + clen) ++ data.drop clen := by
      rw [htake, List.append_assoc, List.take_append_drop]
    have hmod : (ptr.1 + data.length) % 64 = (ptr.1 + clen + (data.drop clen).length) % 64 := by
      rw [List.length_drop]; omega
    rw [hsplit, hmod]
    exact ⟨ihlen, ihtake, ihval⟩

/-- The context has been given `data` since it started with `iv`. -/
structure Absorbed (iv : Regs) (cc : Sha256Context) (data : List Byte) : Prop where
  length : cc.buf.length = 64
  count : cc.count = BitVec.ofNat 64 data.length
  buf : cc.buf.take (data.length % 64) = leftover 64 data
  val : cc.val = absorb 64 (compress k) iv data

theorem ptrOf_ofNat (n : Nat) : (ptrOf (BitVec.ofNat 64 n)).1 = n % 64 := by
  show (BitVec.ofNat 64 n).toNat % 64 = n % 64
  rw [BitVec.toNat_ofNat]
  omega

theorem init_absorbed {cc : Sha256Context} (h : cc.buf.length = 64) : Absorbed brSha256IV (brSha256Init cc) [] :=
  ⟨h, rfl, rfl, (absorb_of_lt (by decide) _).symm⟩

theorem update_absorbed {iv : Regs} {cc : Sha256Context} {data : List Byte} (h : Absorbed iv cc data) (more : List Byte) :
    Absorbed iv (sha2smallUpdate cc more) (data ++ more) := by
  obtain ⟨hlen, htake, hval⟩ := sha2smallUpdateLoop_spec cc.buf cc.val (ptrOf cc.count) more h.length
  have hptr : (ptrOf cc.count).1 = data.length % 64 := by rw [h.count, ptrOf_ofNat]
  rw [hptr, h.buf] at htake hval
  refine ⟨hlen, ?_, ?_, ?_⟩
  · rw [sha2smallUpdate, h.count, List.length_append, BitVec.ofNat_add]
  · have hmod : (data ++ more).length % 64 = (data.length % 64 + more.length) % 64 := by
      rw [List.length_append]; omega
    rw [hmod, leftover_append (by decide)]
    exact htake
  · rw [absorb_append (by decide), ← h.val]
    exact hval

theorem updates_absorbed {iv : Regs} (bufs : List (List Byte)) : ∀ {cc : Sha256Context} {data : List Byte},
    Absorbed iv cc data → Absorbed iv (bufs.foldl sha2smallUpdate cc) (data ++ bufs.flatten) := by
  induction bufs with
  | nil =>
    intro cc data h
    rw [List.flatten_nil, List.append_nil]
    exact h
  | cons buf bufs ih =>
    intro cc data h
    rw [List.foldl_cons, List.flatten_cons, ← List.append_assoc]
    exact ih (update_absorbed h buf)

/-! ## The end of the message -/

theorem setWidth_shift (x : Word) (n : Nat) : (x >>> n).setWidth 8 = BitVec.ofNat 8 (x.toNat / 2 ^ n) := by
  apply BitVec.eq_of_toNat_eq
  rw [BitVec.toNat_setWidth, BitVec.toNat_ushiftRight, Nat.shiftRight_eq_div_pow, BitVec.toNat_ofNat]

theorem brEnc32be_eq (x : Word) : brEnc32be x = wordBytes x := by
  have hlast : x.setWidth 8 = BitVec.ofNat 8 x.toNat := by
    apply BitVec.eq_of_toNat_eq
    rw [BitVec.toNat_setWidth, BitVec.toNat_ofNat]
  rw [brEnc32be, setWidth_shift, setWidth_shift, setWidth_shift, hlast]
  rfl

theorem brRangeEnc32be_eq (r : Regs) : brRangeEnc32be [r.a, r.b, r.c, r.d, r.e, r.f, r.g, r.h] = r.bytes := by
  rw [brRangeEnc32be, Regs.bytes, funext brEnc32be_eq]

theorem brEnc64be_eq (x : BitVec 64) : brEnc64be x = beBytes x := by
  simp only [brEnc64be, brEnc32be, beBytes, leBytes, List.range, List.range.loop, List.map_cons, List.map_nil, List.reverse_cons,
    List.reverse_nil, List.nil_append, List.cons_append, List.cons.injEq, and_true, ← BitVec.toNat_inj, BitVec.toNat_setWidth,
    BitVec.toNat_ushiftRight, BitVec.extractLsb'_toNat, Nat.shiftRight_eq_div_pow]
  omega

theorem out_absorbed {iv : Regs} {cc : Sha256Context} {data : List Byte} (h : Absorbed iv cc data) :
    sha2smallOut cc = (Sha2.hash k iv data).bytes := by
  have hptr : (ptrOf cc.count).1 = data.length % 64 := by rw [h.count, ptrOf_ofNat]
  have hlen := length_leftover 64 data
  have hmod : data.length % 64 < 64 := Nat.mod_lt _ (by decide)
  have hcount : cc.count <<< 3 = BitVec.ofNat 64 (8 * data.length) := by
    apply BitVec.eq_of_toNat_eq
    rw [h.count, BitVec.toNat_shiftLeft, BitVec.toNat_ofNat, BitVec.toNat_ofNat, Nat.shiftLeft_eq]
    omega
  rw [sha2smallOut, hptr, h.buf, hcount, brEnc64be_eq, brRangeEnc32be_eq, Sha2.hash, absorb_append (by decide), ← h.val, padding]
  generalize hrest : leftover 64 data = rest at hlen ⊢
  generalize hbits : beBytes (BitVec.ofNat 64 (8 * data.length)) = bits
  have hbitsLen : bits.length = 8 := by rw [← hbits, length_beBytes]
  by_cases hlong : data.length % 64 + 1 > 56
  · -- the length does not fit the block
    have hz : (119 - data.length % 64) % 64 = (64 - (data.length % 64 + 1)) + 56 := by omega
    have hsplit : rest ++ 0x80 :: (List.replicate ((119 - data.length % 64) % 64) 0 ++ bits) =
        (rest ++ [0x80] ++ List.replicate (64 - (data.length % 64 + 1)) 0) ++ (List.replicate 56 0 ++ bits) := by
      rw [hz, List.replicate_add]
      simp
    rw [hsplit, absorb_block (by decide) (by simp; omega), absorb_eq (by decide) (by simp; omega), if_pos hlong]
    simp only
    rw [brSha2smallRound_eq (by simp; omega), brSha2smallRound_eq (by simp; omega)]
  · have hz : (119 - data.length % 64) % 64 = 56 - (data.length % 64 + 1) := by omega
    have hsplit : rest ++ 0x80 :: (List.replicate ((119 - data.length % 64) % 64) 0 ++ bits) =
        rest ++ [0x80] ++ List.replicate (56 - (data.length % 64 + 1)) 0 ++ bits := by
      rw [hz]
      simp
    rw [hsplit, absorb_eq (by decide) (by simp; omega), if_neg hlong]
    simp only
    rw [brSha2smallRound_eq (by simp; omega)]

/-- The hash that the enclave computes with. -/
def sha256 (data : List Byte) : List Byte := (Sha2.hash k brSha256IV data).bytes

theorem length_sha256 (data : List Byte) : (sha256 data).length = 32 := length_bytes _

theorem kTable_roots : List.Forall₂ (IsRootBits 3) ((List.range 312).filter fun p => decide p.Prime) kTable := by
  rw [filter_prime (by decide)]
  exact forall₂_isRootBits (by decide +kernel) (by decide +kernel)

theorem brSha256IV_roots : List.Forall₂ (IsRootBits 2) ((List.range 20).filter fun p => decide p.Prime) brSha256IV.words := by
  rw [filter_prime (by decide)]
  exact forall₂_isRootBits (by decide +kernel) (by decide +kernel)

/-- However the data is cut into buffers and whatever the context held before, the result is the standard's hash of
    all data, its constants from the cube roots of the first 64 primes and the square roots of the first eight. -/
theorem sgxsdEnclaveSha256_standard {shaContext : Sha256Context} (h : shaContext.buf.length = 64) (bufs : List (List Byte)) :
    ∃ (table : List Word) (iv : Regs),
      List.Forall₂ (IsRootBits 3) ((List.range 312).filter fun p => decide p.Prime) table ∧
      List.Forall₂ (IsRootBits 2) ((List.range 20).filter fun p => decide p.Prime) iv.words ∧
      sgxsdEnclaveSha256 shaContext bufs = (Sha2.hash (fun j => table.getD j 0) iv bufs.flatten).bytes :=
  ⟨kTable, brSha256IV, kTable_roots, brSha256IV_roots, out_absorbed (updates_absorbed bufs (init_absorbed h))⟩

theorem sgxsdEnclaveSha256_standard_two :
    ∃ (table : List Word) (iv : Regs),
      List.Forall₂ (IsRootBits 3) ((List.range 312).filter fun p => decide p.Prime) table ∧
      List.Forall₂ (IsRootBits 2) ((List.range 20).filter fun p => decide p.Prime) iv.words ∧
      sgxsdEnclaveSha256 ⟨List.replicate 64 0, 0, brSha256IV⟩ [[1, 2], [3]] =
        (Sha2.hash (fun j => table.getD j 0) iv [1, 2, 3]).bytes :=
  sgxsdEnclaveSha256_standard rfl [[1, 2], [3]]

/-! ## HMAC -/

/-- A state that was written out after one block is the one that is read back. -/
theorem setState_absorbed {iv : Regs} {cc hc : Sha256Context} {data : List Byte} (h : Absorbed iv cc data)
    (hdata : data.length = 64) (hhc : hc.buf.length = 64) :
    Absorbed iv (brSha256SetState hc (brSha256State cc).1 (BitVec.ofNat 64 data.length)) data := by
  have hword : ∀ i w, i + 4 ≤ 32 → (cc.val.bytes.drop i).take 4 = wordBytes w → brDec32be cc.val.bytes i = w := by
    intro i w hi hw
    rw [brDec32be_eq (by rw [length_bytes]; exact hi), hw, beWord_wordBytes]
  have hval : (brSha256SetState hc (brSha256State cc).1 (BitVec.ofNat 64 data.length)).val = cc.val := by
    rw [brSha256State, brRangeEnc32be_eq]
    simp only [brSha256SetState]
    rw [hword 0 cc.val.a (by decide) rfl, hword 4 cc.val.b (by decide) rfl, hword 8 cc.val.c (by decide) rfl,
      hword 12 cc.val.d (by decide) rfl, hword 16 cc.val.e (by decide) rfl, hword 20 cc.val.f (by decide) rfl,
      hword 24 cc.val.g (by decide) rfl, hword 28 cc.val.h (by decide) rfl]
  refine ⟨hhc, rfl, ?_, hval.trans h.val⟩
  rw [leftover_eq_nil (by decide) hdata, hdata]
  rfl

theorem processKey_pad {key : List Byte} (bb : Byte) :
    key.map (· ^^^ bb) ++ List.replicate (blockSize - key.length) bb = Crypt.keyPad 64 bb key := by
  have hzero : bb ^^^ 0 = bb := BitVec.xor_zero
  rw [Crypt.keyPad, List.map_append, List.map_replicate, hzero]
  simp only [BitVec.xor_comm bb]
  rfl

theorem length_keyPad {key : List Byte} (h : key.length ≤ 64) (bb : Byte) : (Crypt.keyPad 64 bb key).length = 64 := by
  rw [Crypt.keyPad, List.length_map, List.length_append, List.length_replicate]
  omega

theorem processKey_absorbed {hc : Sha256Context} (h : hc.buf.length = 64) (key : List Byte) (bb : Byte) :
    ∃ cc, (processKey hc key bb).1 = cc ∧ (processKey hc key bb).2 = (brSha256State cc).1 ∧
      Absorbed brSha256IV cc (Crypt.keyPad 64 bb key) := by
  refine ⟨_, rfl, rfl, ?_⟩
  rw [processKey, processKey_pad]
  exact update_absorbed (init_absorbed h) _

theorem brHmacKeyInit_absorbed {hc : Sha256Context} (h : hc.buf.length = 64) (key : List Byte) :
    ∃ inner outer : Sha256Context, brHmacKeyInit hc key = ⟨(brSha256State inner).1, (brSha256State outer).1⟩ ∧
      Absorbed brSha256IV inner (Crypt.keyPad 64 0x36 (Crypt.shortKey sha256 64 key)) ∧
      Absorbed brSha256IV outer (Crypt.keyPad 64 0x5c (Crypt.shortKey sha256 64 key)) := by
  have hshort : ∃ hc' : Sha256Context, hc'.buf.length = 64 ∧
      (if key.length > blockSize then
        let hc := sha2smallUpdate (brSha256Init hc) key
        (hc, sha2smallOut hc)
      else (hc, key)) = (hc', Crypt.shortKey sha256 64 key) := by
    by_cases hlong : key.length > blockSize
    · have hkey := update_absorbed (init_absorbed h) key
      refine ⟨_, hkey.length, ?_⟩
      rw [if_pos hlong, show Crypt.shortKey sha256 64 key = sha256 key from if_pos hlong]
      exact congrArg _ (out_absorbed hkey)
    · exact ⟨hc, h, by rw [if_neg hlong, show Crypt.shortKey sha256 64 key = key from if_neg hlong]⟩
  obtain ⟨hc', hlen, heq⟩ := hshort
  obtain ⟨inner, hinner, hksi, hin⟩ := processKey_absorbed hlen (Crypt.shortKey sha256 64 key) 0x36
  obtain ⟨outer, -, hkso, hout⟩ := processKey_absorbed hin.length (Crypt.shortKey sha256 64 key) 0x5c
  refine ⟨inner, outer, ?_, hin, hout⟩
  simp only [brHmacKeyInit]
  rw [heq]
  simp only
  rw [hinner, hksi, hkso]

theorem updates_dig (parts : List (List Byte)) : ∀ ctx : HmacContext,
    parts.foldl brHmacUpdate ctx = { ctx with dig := parts.foldl sha2smallUpdate ctx.dig } := by
  induction parts with
  | nil => intro ctx; rfl
  | cons part parts ih => intro ctx; rw [List.foldl_cons, ih, List.foldl_cons]; rfl

theorem length_shortKey (key : List Byte) : (Crypt.shortKey sha256 64 key).length ≤ 64 := by
  rw [Crypt.shortKey]
  split
  · rw [length_sha256]; decide
  · omega

/-- The inner hash has the key's block and the parts of the message. -/
theorem brHmac_absorbed {hc : Sha256Context} {ctx : HmacContext} (h : hc.buf.length = 64) (hctx : ctx.dig.buf.length = 64)
    (key : List Byte) (outLen : Nat) (parts : List (List Byte)) :
    Absorbed brSha256IV (parts.foldl brHmacUpdate (brHmacInit ctx (brHmacKeyInit hc key) outLen)).dig
      (Crypt.keyPad 64 0x36 (Crypt.shortKey sha256 64 key) ++ parts.flatten) := by
  obtain ⟨inner, outer, hkc, hin, -⟩ := brHmacKeyInit_absorbed h key
  have hdig := setState_absorbed hin (length_keyPad (length_shortKey key) _) (show (brSha256Init ctx.dig).buf.length = 64 from hctx)
  rw [length_keyPad (length_shortKey key)] at hdig
  rw [hkc, updates_dig]
  exact updates_absorbed parts hdig

/-- The code of a message that comes in parts, cut to the length that was asked for. Nothing depends on what the local
contexts had. -/
theorem brHmac_eq {hc hc' : Sha256Context} {ctx : HmacContext} (h : hc.buf.length = 64) (h' : hc'.buf.length = 64)
    (hctx : ctx.dig.buf.length = 64) (key : List Byte) (outLen : Nat) (parts : List (List Byte)) :
    brHmacOut hc' (parts.foldl brHmacUpdate (brHmacInit ctx (brHmacKeyInit hc key) outLen)) =
      (Crypt.hmac sha256 64 key parts.flatten).take (if outLen > 0 ∧ outLen < digestSize then outLen else digestSize) := by
  have hmsg := out_absorbed (brHmac_absorbed h hctx key outLen parts)
  obtain ⟨inner, outer, hkc, -, hout⟩ := brHmacKeyInit_absorbed h key
  have hfinal := setState_absorbed hout (length_keyPad (length_shortKey key) _) (show (brSha256Init hc').buf.length = 64 from h')
  rw [length_keyPad (length_shortKey key)] at hfinal
  have htag := out_absorbed (update_absorbed hfinal (sha256 (Crypt.keyPad 64 0x36 (Crypt.shortKey sha256 64 key) ++ parts.flatten)))
  rw [brHmacOut, hmsg, hkc, updates_dig]
  exact congrArg _ htag

/-! ## As the hash of the key derivation -/

/-- The hash as `sgxsd_sha256_hash_t` has it. -/
def sha256Hash (data : List Byte) : PendingRequests.Prk := BitVec.ofNat 256 (leNat (sha256 data))

theorem hashBytes_ofNat {b : List Byte} (h : b.length = 32) : (hashBytes (BitVec.ofNat 256 (leNat b))).1 = b := by
  apply List.ext_getElem
  · rw [(hashBytes _).2, h]
  · intro i h₁ h₂
    have hlt : leNat b < 2 ^ 256 := by
      have := leNat_lt b
      rw [h] at this
      exact this
    have hbyte : leNat (b.drop i) % 256 = (b[i]).toNat := by
      have := (b[i]).isLt
      rw [List.drop_eq_getElem_cons h₂, leNat_cons]
      omega
    simp only [hashBytes, List.getElem_map, List.getElem_range]
    apply BitVec.eq_of_toNat_eq
    rw [BitVec.extractLsb'_toNat, BitVec.toNat_ofNat, Nat.shiftRight_eq_div_pow, Nat.pow_mul, Nat.mod_eq_of_lt hlt, ← hbyte,
      leNat_drop]

theorem shaBytes_sha256Hash : RequestKeys.shaBytes sha256Hash = sha256 :=
  funext fun d => hashBytes_ofNat (length_sha256 d)

end ContactDiscovery.Enclave.Sha256
