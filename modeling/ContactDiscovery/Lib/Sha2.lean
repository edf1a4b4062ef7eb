/-
  ContactDiscovery.Lib.Sha2 — SHA-256 as FIPS 180-4 states it: the schedule of 64 words, a round that
  shifts eight registers, the blocks of the padded message folded into the initial value.

  The constants of a round and the initial value are parameters; the standard takes them from roots of the
  first primes (`IsRootBits`). The length of the message is taken modulo `2^64` bits, as a counter of 64 bits has it; the standard
  has no longer messages.
-/

import ContactDiscovery.Lib.Absorb
import ContactDiscovery.Lib.Bytes

namespace ContactDiscovery.Lib.Sha2

abbrev Word := BitVec 32

/-- The eight registers, and the eight words of a hash value. -/
structure Regs where
  a : Word
  b : Word
  c : Word
  d : Word
  e : Word
  f : Word
  g : Word
  h : Word
  deriving DecidableEq

def choose (x y z : Word) : Word := (x &&& y) ^^^ (~~~x &&& z)

def majority (x y z : Word) : Word := (x &&& y) ^^^ (x &&& z) ^^^ (y &&& z)

def bigSigma0 (x : Word) : Word := x.rotateRight 2 ^^^ x.rotateRight 13 ^^^ x.rotateRight 22

def bigSigma1 (x : Word) : Word := x.rotateRight 6 ^^^ x.rotateRight 11 ^^^ x.rotateRight 25

def smallSigma0 (x : Word) : Word := x.rotateRight 7 ^^^ x.rotateRight 18 ^^^ x >>> 3

def smallSigma1 (x : Word) : Word := x.rotateRight 17 ^^^ x.rotateRight 19 ^^^ x >>> 10

def schedule (m : Nat → Word) (t : Nat) : Word :=
  if t < 16 then m t
  else smallSigma1 (schedule m (t - 2)) + schedule m (t - 7) + smallSigma0 (schedule m (t - 15)) + schedule m (t - 16)

/-- A round, with its constant and its word of the schedule. -/
def round (k w : Word) (r : Regs) : Regs :=
  let t1 := r.h + bigSigma1 r.e + choose r.e r.f r.g + k + w
  let t2 := bigSigma0 r.a + majority r.a r.b r.c
  ⟨t1 + t2, r.a, r.b, r.c, r.d + t1, r.e, r.f, r.g⟩

def Regs.add (r s : Regs) : Regs :=
  ⟨r.a + s.a, r.b + s.b, r.c + s.c, r.d + s.d, r.e + s.e, r.f + s.f, r.g + s.g, r.h + s.h⟩

def beWord (b : List Byte) : Word := BitVec.ofNat 32 (beNat b)

def wordBytes (w : Word) : List Byte := beBytes32 w.toNat

def Regs.bytes (r : Regs) : List Byte := [r.a, r.b, r.c, r.d, r.e, r.f, r.g, r.h].flatMap wordBytes

section Hash

variable (k : Nat → Word) (iv : Regs)

/-- A block of 64 bytes is taken into a hash value. -/
def compress (v : Regs) (block : List Byte) : Regs :=
  let w := schedule fun t => beWord (Lib.block 4 t block)
  v.add ((List.range 64).foldl (fun r t => round (k t) (w t) r) v)

/-- One bit, zeros up to eight bytes before the end of a block, and the length in bits. -/
def padding (n : Nat) : List Byte :=
  0x80 :: (List.replicate ((119 - n % 64) % 64) 0 ++ beBytes (BitVec.ofNat 64 (8 * n)))

def hash (message : List Byte) : Regs := absorb 64 (compress k) iv (message ++ padding message.length)

end Hash

theorem length_bytes (r : Regs) : r.bytes.length = 32 := rfl

theorem beWord_wordBytes (w : Word) : beWord (wordBytes w) = w := by
  rw [beWord, wordBytes, beNat_beBytes32, Nat.mod_eq_of_lt w.isLt, BitVec.ofNat_toNat, BitVec.setWidth_eq]

/-! ## Constants -/

def Regs.words (r : Regs) : List Word := [r.a, r.b, r.c, r.d, r.e, r.f, r.g, r.h]

/-- The first 32 bits of the fractional part of the `d`-th root of `p`. -/
def IsRootBits (d p : Nat) (w : Word) : Prop :=
  ∃ n, n ^ d ≤ p * 2 ^ (32 * d) ∧ p * 2 ^ (32 * d) < (n + 1) ^ d ∧ w = BitVec.ofNat 32 n

/-- The root with its fraction is found by its integer part, which is under 20 here. -/
def rootBitsCheck (d p : Nat) (w : Word) : Bool :=
  let n := (((List.range 20).filter fun r => r ^ d ≤ p).length - 1) * 2 ^ 32 + w.toNat
  decide (n ^ d ≤ p * 2 ^ (32 * d)) && decide (p * 2 ^ (32 * d) < (n + 1) ^ d)

theorem isRootBits_of_check {d p : Nat} {w : Word} (h : rootBitsCheck d p w = true) : IsRootBits d p w := by
  simp only [rootBitsCheck, Bool.and_eq_true, decide_eq_true_eq] at h
  refine ⟨_, h.1, h.2, ?_⟩
  apply BitVec.eq_of_toNat_eq
  rw [BitVec.toNat_ofNat, Nat.mul_add_mod_self_right, Nat.mod_eq_of_lt w.isLt]

theorem forall₂_isRootBits {d : Nat} {ps : List Nat} {ws : List Word} (hlen : ps.length = ws.length)
    (h : ((ps.zip ws).all fun x => rootBitsCheck d x.1 x.2) = true) : List.Forall₂ (IsRootBits d) ps ws := by
  rw [List.forall₂_iff_zip]
  refine ⟨hlen, ?_⟩
  intro p w hmem
  exact isRootBits_of_check (List.all_eq_true.mp h (p, w) hmem)

/-- Trial division by what is under 18. -/
def primesUnder (n : Nat) : List Nat :=
  (List.range n).filter fun p => decide (2 ≤ p) && (List.range 18).all fun m => m < 2 || p < m * m || p % m != 0

theorem filter_prime {n : Nat} (hn : n ≤ 324) : (List.range n).filter (fun p => decide p.Prime) = primesUnder n := by
  apply List.filter_congr
  intro p hp
  rw [List.mem_range] at hp
  rw [Bool.eq_iff_iff, decide_eq_true_iff, Nat.prime_def_le_sqrt]
  simp only [Bool.and_eq_true, decide_eq_true_eq, List.all_eq_true, List.mem_range, Bool.or_eq_true, bne_iff_ne]
  refine and_congr_right fun _ => ⟨fun h m hm => ?_, fun h m h2 hm hdvd => ?_⟩
  · by_cases hle : 2 ≤ m ∧ m * m ≤ p
    · exact .inr fun hmod => h m hle.1 (Nat.le_sqrt.mpr hle.2) (Nat.dvd_of_mod_eq_zero hmod)
    · exact .inl (by omega)
  · have hsq := Nat.le_sqrt.mp hm
    have hlt : m < 18 := by nlinarith
    rcases h m hlt with h | h
    · omega
    · exact h (Nat.mod_eq_zero_of_dvd hdvd)

end ContactDiscovery.Lib.Sha2
