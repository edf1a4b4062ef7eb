/-
  ContactDiscovery.Lib.Sse — a 128-bit register as four doublewords, lane 0 the lowest, and the SSE
  intrinsics that ciphers are written with.

  A register is loaded from 16 bytes and stored to them (`storeu_loadu`, `loadu_storeu`). Its two quadwords
  are `lo` and `hi`, and shifts of quadwords work on these. `byteswap` reverses the sixteen bytes: what is
  then in the register is the number of the bytes with the highest first (`bits_byteswap_loadu`).
-/

import ContactDiscovery.Lib.Bytes

namespace ContactDiscovery.Lib.Sse

@[ext]
structure M128i where
  d0 : BitVec 32
  d1 : BitVec 32
  d2 : BitVec 32
  d3 : BitVec 32
  deriving DecidableEq

namespace M128i

def lo (x : M128i) : BitVec 64 := x.d1 ++ x.d0
def hi (x : M128i) : BitVec 64 := x.d3 ++ x.d2

/-- The register as a number. -/
def bits (x : M128i) : BitVec 128 := x.hi ++ x.lo

def ofQuads (hi lo : BitVec 64) : M128i :=
  ⟨lo.extractLsb' 0 32, lo.extractLsb' 32 32, hi.extractLsb' 0 32, hi.extractLsb' 32 32⟩

def lane (x : M128i) (i : BitVec 2) : BitVec 32 :=
  match i with
  | 0 => x.d0
  | 1 => x.d1
  | 2 => x.d2
  | 3 => x.d3

end M128i

open M128i

/-! ## Intrinsics -/

def xorSi128 (a b : M128i) : M128i := ⟨a.d0 ^^^ b.d0, a.d1 ^^^ b.d1, a.d2 ^^^ b.d2, a.d3 ^^^ b.d3⟩

def orSi128 (a b : M128i) : M128i := ⟨a.d0 ||| b.d0, a.d1 ||| b.d1, a.d2 ||| b.d2, a.d3 ||| b.d3⟩

/-- Two bits of `imm` for each lane. -/
def shuffleEpi32 (x : M128i) (imm : BitVec 8) : M128i :=
  ⟨x.lane (imm.extractLsb' 0 2), x.lane (imm.extractLsb' 2 2), x.lane (imm.extractLsb' 4 2), x.lane (imm.extractLsb' 6 2)⟩

/-- `_mm_slli_si128(x, 4)`. -/
def slliSi128By4 (x : M128i) : M128i := ⟨0, x.d0, x.d1, x.d2⟩

def slliEpi64 (x : M128i) (n : Nat) : M128i := ofQuads (x.hi <<< n) (x.lo <<< n)

def srliEpi64 (x : M128i) (n : Nat) : M128i := ofQuads (x.hi >>> n) (x.lo >>> n)

def unpackloEpi64 (a b : M128i) : M128i := ofQuads b.lo a.lo

/-- A quadword of each, by a bit of `imm`. -/
def shufflePd (a b : M128i) (imm : BitVec 2) : M128i :=
  ofQuads (if imm.getLsbD 1 then b.hi else b.lo) (if imm.getLsbD 0 then a.hi else a.lo)

/-- `_mm_insert_epi32(x, d, 3)`. -/
def insertEpi32At3 (x : M128i) (d : BitVec 32) : M128i := { x with d3 := d }

/-- `br_bswap32`. -/
def bswap32 (d : BitVec 32) : BitVec 32 :=
  d.extractLsb' 0 8 ++ d.extractLsb' 8 8 ++ d.extractLsb' 16 8 ++ d.extractLsb' 24 8

/-- `_mm_shuffle_epi8`, by the indices of `BYTESWAP_PREP`. -/
def byteswap (x : M128i) : M128i := ⟨bswap32 x.d3, bswap32 x.d2, bswap32 x.d1, bswap32 x.d0⟩

/-! ## Memory -/

def le32 (b : List Byte) : BitVec 32 := BitVec.ofNat 32 (leNat b)

def leBytes32 (d : BitVec 32) : List Byte := [d.extractLsb' 0 8, d.extractLsb' 8 8, d.extractLsb' 16 8, d.extractLsb' 24 8]

def loadu (b : List Byte) : M128i :=
  ⟨le32 (b.take 4), le32 ((b.drop 4).take 4), le32 ((b.drop 8).take 4), le32 ((b.drop 12).take 4)⟩

def storeu (x : M128i) : List Byte := leBytes32 x.d0 ++ leBytes32 x.d1 ++ leBytes32 x.d2 ++ leBytes32 x.d3

@[simp] theorem length_storeu (x : M128i) : (storeu x).length = 16 := rfl

theorem toNat_append {m n : Nat} (a : BitVec m) (b : BitVec n) : (a ++ b).toNat = a.toNat * 2 ^ n + b.toNat := by
  rw [BitVec.toNat_append, Nat.shiftLeft_eq_mul_pow, Nat.mul_comm, ← Nat.two_pow_add_eq_or_of_lt b.isLt]

theorem le32_leBytes32 (d : BitVec 32) : le32 (leBytes32 d) = d := by
  have hd := d.isLt
  apply BitVec.eq_of_toNat_eq
  simp only [le32, leBytes32, leNat_cons, leNat_nil, BitVec.toNat_ofNat, BitVec.extractLsb'_toNat, Nat.shiftRight_eq_div_pow]
  omega

theorem leBytes32_le32 {b : List Byte} (h : b.length = 4) : leBytes32 (le32 b) = b := by
  match b, h with
  | [b₀, b₁, b₂, b₃], _ =>
    have h₀ := b₀.isLt
    have h₁ := b₁.isLt
    have h₂ := b₂.isLt
    have h₃ := b₃.isLt
    simp only [le32, leBytes32, leNat_cons, leNat_nil, List.cons.injEq, and_true, ← BitVec.toNat_inj, BitVec.extractLsb'_toNat,
      BitVec.toNat_ofNat, Nat.shiftRight_eq_div_pow]
    omega

theorem loadu_storeu (x : M128i) : loadu (storeu x) = x := by
  apply M128i.ext
  · exact le32_leBytes32 x.d0
  · exact le32_leBytes32 x.d1
  · exact le32_leBytes32 x.d2
  · exact le32_leBytes32 x.d3

theorem storeu_loadu {b : List Byte} (h : b.length = 16) : storeu (loadu b) = b := by
  match b, h with
  | [b₀, b₁, b₂, b₃, b₄, b₅, b₆, b₇, b₈, b₉, b₁₀, b₁₁, b₁₂, b₁₃, b₁₄, b₁₅], _ =>
    show leBytes32 (le32 [b₀, b₁, b₂, b₃]) ++ leBytes32 (le32 [b₄, b₅, b₆, b₇]) ++ leBytes32 (le32 [b₈, b₉, b₁₀, b₁₁]) ++
      leBytes32 (le32 [b₁₂, b₁₃, b₁₄, b₁₅]) = _
    rw [leBytes32_le32 rfl, leBytes32_le32 rfl, leBytes32_le32 rfl, leBytes32_le32 rfl]
    rfl

/-! ## Quadwords -/

theorem loadu_take (b : List Byte) : loadu (b.take 16) = loadu b := by
  simp [loadu, List.take_take, List.drop_take]

theorem loadu_append (x : M128i) (b : List Byte) : loadu (storeu x ++ b) = x := by
  rw [← loadu_take, List.take_append_of_le_length (by simp), List.take_of_length_le (by simp), loadu_storeu]

theorem storeu_xorSi128 (a b : M128i) : storeu (xorSi128 a b) = (storeu a).zipWith (· ^^^ ·) (storeu b) := by
  simp [storeu, leBytes32, xorSi128, BitVec.extractLsb'_xor]

theorem storeu_insertEpi32At3 {b : List Byte} (h : b.length = 16) (d : BitVec 32) :
    storeu (insertEpi32At3 (loadu b) d) = b.take 12 ++ leBytes32 d := by
  have hfirst : (storeu (loadu b)).take 12 ++ leBytes32 d = storeu (insertEpi32At3 (loadu b) d) := rfl
  rw [← hfirst, storeu_loadu h]

theorem ofQuads_append (d₀ d₁ d₂ d₃ : BitVec 32) : ofQuads (d₃ ++ d₂) (d₁ ++ d₀) = ⟨d₀, d₁, d₂, d₃⟩ := by
  have hparts : ∀ a b : BitVec 32, (a ++ b).extractLsb' 0 32 = b ∧ (a ++ b).extractLsb' 32 32 = a := by
    intro a b
    have ha := a.isLt
    have hb := b.isLt
    refine ⟨BitVec.eq_of_toNat_eq ?_, BitVec.eq_of_toNat_eq ?_⟩ <;>
      simp only [toNat_append, BitVec.extractLsb'_toNat, Nat.shiftRight_eq_div_pow] <;> omega
  rw [ofQuads, (hparts d₁ d₀).1, (hparts d₁ d₀).2, (hparts d₃ d₂).1, (hparts d₃ d₂).2]

theorem extract_append_quad (q : BitVec 64) : q.extractLsb' 32 32 ++ q.extractLsb' 0 32 = q := by
  have hq := q.isLt
  apply BitVec.eq_of_toNat_eq
  simp only [toNat_append, BitVec.extractLsb'_toNat, Nat.shiftRight_eq_div_pow]
  omega

@[simp] theorem lo_ofQuads (h l : BitVec 64) : (ofQuads h l).lo = l := extract_append_quad l
@[simp] theorem hi_ofQuads (h l : BitVec 64) : (ofQuads h l).hi = h := extract_append_quad h

theorem append_xor {m n : Nat} (a b : BitVec m) (c d : BitVec n) : (a ^^^ b) ++ (c ^^^ d) = (a ++ c) ^^^ (b ++ d) := by
  apply BitVec.eq_of_getLsbD_eq
  intro i _
  simp only [BitVec.getLsbD_append, BitVec.getLsbD_xor]
  split <;> rfl

theorem append_or {m n : Nat} (a b : BitVec m) (c d : BitVec n) : (a ||| b) ++ (c ||| d) = (a ++ c) ||| (b ++ d) := by
  apply BitVec.eq_of_getLsbD_eq
  intro i _
  simp only [BitVec.getLsbD_append, BitVec.getLsbD_or]
  split <;> rfl

@[simp] theorem lo_xorSi128 (a b : M128i) : (xorSi128 a b).lo = a.lo ^^^ b.lo := append_xor ..
@[simp] theorem hi_xorSi128 (a b : M128i) : (xorSi128 a b).hi = a.hi ^^^ b.hi := append_xor ..
@[simp] theorem lo_orSi128 (a b : M128i) : (orSi128 a b).lo = a.lo ||| b.lo := append_or ..
@[simp] theorem bits_xorSi128 (a b : M128i) : (xorSi128 a b).bits = a.bits ^^^ b.bits := by
  rw [bits, lo_xorSi128, hi_xorSi128, append_xor]
  rfl

@[simp] theorem lo_slliEpi64 (x : M128i) (n : Nat) : (slliEpi64 x n).lo = x.lo <<< n := lo_ofQuads ..
@[simp] theorem lo_srliEpi64 (x : M128i) (n : Nat) : (srliEpi64 x n).lo = x.lo >>> n := lo_ofQuads ..
@[simp] theorem bits_unpackloEpi64 (a b : M128i) : (unpackloEpi64 a b).bits = b.lo ++ a.lo := by
  rw [bits, unpackloEpi64, hi_ofQuads, lo_ofQuads]

@[simp] theorem lo_shuffleEpi32_0E (x : M128i) : (shuffleEpi32 x 0x0E).lo = x.hi := rfl

/-! ## Bytes the other way round -/

/-- The bytes of a doubleword that is put together from four. -/
theorem extract_bytes (b₃ b₂ b₁ b₀ : Byte) :
    (b₃ ++ b₂ ++ b₁ ++ b₀).extractLsb' 0 8 = b₀ ∧ (b₃ ++ b₂ ++ b₁ ++ b₀).extractLsb' 8 8 = b₁ ∧
    (b₃ ++ b₂ ++ b₁ ++ b₀).extractLsb' 16 8 = b₂ ∧ (b₃ ++ b₂ ++ b₁ ++ b₀).extractLsb' 24 8 = b₃ := by
  have h₀ := b₀.isLt
  have h₁ := b₁.isLt
  have h₂ := b₂.isLt
  have h₃ := b₃.isLt
  simp only [← BitVec.toNat_inj, BitVec.extractLsb'_toNat, toNat_append, Nat.shiftRight_eq_div_pow]
  omega

theorem bswap32_bytes (b₃ b₂ b₁ b₀ : Byte) : bswap32 (b₃ ++ b₂ ++ b₁ ++ b₀) = b₀ ++ b₁ ++ b₂ ++ b₃ := by
  obtain ⟨h₀, h₁, h₂, h₃⟩ := extract_bytes b₃ b₂ b₁ b₀
  rw [bswap32, h₀, h₁, h₂, h₃]

theorem append_extract (d : BitVec 32) :
    d.extractLsb' 24 8 ++ d.extractLsb' 16 8 ++ d.extractLsb' 8 8 ++ d.extractLsb' 0 8 = d := by
  have hd := d.isLt
  apply BitVec.eq_of_toNat_eq
  simp only [toNat_append, BitVec.extractLsb'_toNat, Nat.shiftRight_eq_div_pow]
  omega

@[simp] theorem bswap32_bswap32 (d : BitVec 32) : bswap32 (bswap32 d) = d := by
  rw [show bswap32 d = d.extractLsb' 0 8 ++ d.extractLsb' 8 8 ++ d.extractLsb' 16 8 ++ d.extractLsb' 24 8 from rfl,
    bswap32_bytes, append_extract]

@[simp] theorem byteswap_byteswap (x : M128i) : byteswap (byteswap x) = x := by
  simp only [byteswap, bswap32_bswap32]

theorem le32_bytes (b₀ b₁ b₂ b₃ : Byte) : le32 [b₀, b₁, b₂, b₃] = b₃ ++ b₂ ++ b₁ ++ b₀ := by
  have h₀ := b₀.isLt
  have h₁ := b₁.isLt
  have h₂ := b₂.isLt
  have h₃ := b₃.isLt
  apply BitVec.eq_of_toNat_eq
  simp only [le32, toNat_append, BitVec.toNat_ofNat, leNat_cons, leNat_nil]
  omega

theorem leBytes32_bswap32 (d : BitVec 32) : leBytes32 (bswap32 d) = beBytes32 d.toNat := by
  have hbyte : ∀ k, d.extractLsb' k 8 = BitVec.ofNat 8 (d.toNat / 2 ^ k) := by
    intro k
    apply BitVec.eq_of_toNat_eq
    rw [BitVec.extractLsb'_toNat, BitVec.toNat_ofNat, Nat.shiftRight_eq_div_pow]
  obtain ⟨h₀, h₁, h₂, h₃⟩ := extract_bytes (d.extractLsb' 0 8) (d.extractLsb' 8 8) (d.extractLsb' 16 8) (d.extractLsb' 24 8)
  rw [leBytes32, bswap32, h₀, h₁, h₂, h₃, hbyte 24, hbyte 16, hbyte 8, hbyte 0, pow_zero, Nat.div_one]
  rfl

theorem beNat_lt_block {b : List Byte} (h : b.length = 16) : beNat b < 2 ^ 128 := by
  have hlt := beNat_lt_pow b
  rw [h] at hlt
  exact Nat.lt_of_lt_of_eq hlt (by norm_num)

theorem bits_byteswap_loadu {b : List Byte} (h : b.length = 16) : (byteswap (loadu b)).bits = BitVec.ofNat 128 (beNat b) := by
  match b, h with
  | [b₀, b₁, b₂, b₃, b₄, b₅, b₆, b₇, b₈, b₉, b₁₀, b₁₁, b₁₂, b₁₃, b₁₄, b₁₅], _ =>
    show ((bswap32 (le32 [b₀, b₁, b₂, b₃]) ++ bswap32 (le32 [b₄, b₅, b₆, b₇])) ++
      (bswap32 (le32 [b₈, b₉, b₁₀, b₁₁]) ++ bswap32 (le32 [b₁₂, b₁₃, b₁₄, b₁₅])) : BitVec 128) = _
    apply BitVec.eq_of_toNat_eq
    rw [BitVec.toNat_ofNat, Nat.mod_eq_of_lt (beNat_lt_block rfl)]
    simp only [le32_bytes, bswap32_bytes, toNat_append, beNat, List.foldl_cons, List.foldl_nil]
    ring

end ContactDiscovery.Lib.Sse
