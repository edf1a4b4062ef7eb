/-
  ContactDiscovery.Lib.Aes — the block cipher of FIPS 197.

  A block is its sixteen bytes, column by column. A byte of the S-box is the inverse in GF(2^8) with an
  affine map over it. A word of the key schedule is four bytes, the first the lowest; `word` gives the
  words for keys of four, six or eight words. The instructions of the processor take a block in a register,
  and do a round in one step.
-/

import ContactDiscovery.Lib.Sse

namespace ContactDiscovery.Lib.Aes

open Sse (le32 leBytes32)

/-! ## Bytes -/

/-- By `x`, with `x^8 = x^4 + x^3 + x + 1`. -/
def xtime (a : Byte) : Byte := (a <<< 1) ^^^ (if a.msb then 0x1B else 0)

/-- The lowest `n` bits of `b`, times `a`. -/
def mulBits (a b : Byte) : Nat → Byte
  | 0 => 0
  | n + 1 => mulBits a b n ^^^ (if b.getLsbD n then Nat.iterate xtime n a else 0)

def mul (a b : Byte) : Byte := mulBits a b 8

/-- `a^(2^n - 1)`. -/
def powOnes (a : Byte) : Nat → Byte
  | 0 => 1
  | n + 1 =>
    let b := powOnes a n
    mul a (mul b b)

/-- `a^254`: the inverse, and `0` of `0`. -/
def inv (a : Byte) : Byte :=
  let b := powOnes a 7
  mul b b

def sbox (a : Byte) : Byte :=
  let b := inv a
  b ^^^ b.rotateLeft 1 ^^^ b.rotateLeft 2 ^^^ b.rotateLeft 3 ^^^ b.rotateLeft 4 ^^^ 0x63

/-! ## Rounds -/

def subBytes (s : List Byte) : List Byte := s.map sbox

/-- A row is rotated by its number. -/
def shiftRows (s : List Byte) : List Byte := (List.range 16).map fun i => s.getD ((5 * i) % 16) 0

/-- The row of a column's product with `3x^3 + x^2 + x + 2`. -/
def mixRow (a b c d : Byte) : Byte := mul 2 a ^^^ mul 3 b ^^^ c ^^^ d

def mixColumns (s : List Byte) : List Byte :=
  (List.range 16).map fun i =>
    let column := i / 4 * 4
    mixRow (s.getD i 0) (s.getD (column + (i + 1) % 4) 0) (s.getD (column + (i + 2) % 4) 0) (s.getD (column + (i + 3) % 4) 0)

def addRoundKey (s key : List Byte) : List Byte := s.zipWith (· ^^^ ·) key

/-! ## The key schedule -/

def subWord (w : BitVec 32) : BitVec 32 := le32 ((leBytes32 w).map sbox)

def rotWord (w : BitVec 32) : BitVec 32 := w.extractLsb' 0 8 ++ w.extractLsb' 24 8 ++ w.extractLsb' 16 8 ++ w.extractLsb' 8 8

/-- `x^(i - 1)`, in the first byte. -/
def rcon (i : Nat) : BitVec 32 := (Nat.iterate xtime (i - 1) 1).setWidth 32

/-- What a word adds to the one a key's length before. -/
def temp (nk i : Nat) (prev : BitVec 32) : BitVec 32 :=
  if i % nk = 0 then subWord (rotWord prev) ^^^ rcon (i / nk)
  else if 6 < nk ∧ i % nk = 4 then subWord prev
  else prev

/-- The first `n` words, of a key of `nk` words. -/
def schedule (nk : Nat) (key : List Byte) : (n : Nat) → List (BitVec 32)
  | 0 => []
  | i + 1 =>
    let ws := schedule nk key i
    ws ++ [if i < nk then le32 ((key.drop (4 * i)).take 4) else ws.getD (i - nk) 0 ^^^ temp nk i (ws.getD (i - 1) 0)]

@[irreducible]
def word (nk : Nat) (key : List Byte) (i : Nat) : BitVec 32 := (schedule nk key (i + 1)).getD i 0

theorem length_schedule (nk : Nat) (key : List Byte) (n : Nat) : (schedule nk key n).length = n := by
  induction n with
  | zero => rfl
  | succ n ih => rw [schedule, List.length_append, ih, List.length_singleton]

theorem getD_schedule (nk : Nat) (key : List Byte) {i n : Nat} (h : i < n) : (schedule nk key n).getD i 0 = word nk key i := by
  induction n with
  | zero => omega
  | succ n ih =>
    rcases Nat.lt_or_ge i n with hlt | hge
    · rw [← ih hlt, schedule, List.getD_append _ _ _ _ (by rw [length_schedule]; exact hlt)]
    · rw [show i = n by omega, word]

theorem word_key {nk i : Nat} (h : i < nk) (key : List Byte) : word nk key i = le32 ((key.drop (4 * i)).take 4) := by
  rw [word, schedule, List.getD_append_right _ _ _ _ (by rw [length_schedule]), length_schedule, Nat.sub_self, List.getD_cons_zero,
    if_pos h]

theorem word_next {nk i : Nat} (hpos : 0 < nk) (h : nk ≤ i) (key : List Byte) :
    word nk key i = word nk key (i - nk) ^^^ temp nk i (word nk key (i - 1)) := by
  rw [word, schedule, List.getD_append_right _ _ _ _ (by rw [length_schedule]), length_schedule, Nat.sub_self, List.getD_cons_zero,
    if_neg (by omega), getD_schedule _ _ (by omega), getD_schedule _ _ (by omega)]

def roundKey (nk : Nat) (key : List Byte) (i : Nat) : Sse.M128i :=
  ⟨word nk key (4 * i), word nk key (4 * i + 1), word nk key (4 * i + 2), word nk key (4 * i + 3)⟩

/-! ## The cipher -/

def round (keys : Nat → List Byte) (s : List Byte) (i : Nat) : List Byte :=
  addRoundKey (mixColumns (shiftRows (subBytes s))) (keys i)

/-- `nr` rounds, the last without `mixColumns`. -/
def rounds (nr : Nat) (keys : Nat → List Byte) (s : List Byte) : List Byte :=
  let s := (List.range' 1 (nr - 1)).foldl (round keys) (addRoundKey s (keys 0))
  addRoundKey (shiftRows (subBytes s)) (keys nr)

def cipher (key s : List Byte) : List Byte :=
  let nk := key.length / 4
  rounds (nk + 6) (fun i => Sse.storeu (roundKey nk key i)) s

/-! ## The instructions -/

open Sse (M128i loadu storeu xorSi128)

def aesenc (x key : M128i) : M128i := xorSi128 (loadu (mixColumns (subBytes (shiftRows (storeu x))))) key

def aesenclast (x key : M128i) : M128i := xorSi128 (loadu (subBytes (shiftRows (storeu x)))) key

def aeskeygenassist (x : M128i) (imm : Byte) : M128i :=
  ⟨subWord x.d1, rotWord (subWord x.d1) ^^^ imm.setWidth 32, subWord x.d3, rotWord (subWord x.d3) ^^^ imm.setWidth 32⟩

@[simp] theorem length_subBytes (s : List Byte) : (subBytes s).length = s.length := List.length_map ..

@[simp] theorem length_shiftRows (s : List Byte) : (shiftRows s).length = 16 := by simp [shiftRows]

@[simp] theorem length_mixColumns (s : List Byte) : (mixColumns s).length = 16 := by simp [mixColumns]

/-- The instructions shift first. -/
theorem subBytes_shiftRows {s : List Byte} (h : s.length = 16) : subBytes (shiftRows s) = shiftRows (subBytes s) := by
  rw [subBytes, shiftRows, shiftRows, List.map_map]
  apply List.map_congr_left
  intro i _
  have hi : 5 * i % 16 < s.length := by omega
  simp [subBytes, List.getD_eq_getElem?_getD, hi]

theorem storeu_aesenc (x key : M128i) :
    storeu (aesenc x key) = addRoundKey (mixColumns (shiftRows (subBytes (storeu x)))) (storeu key) := by
  rw [aesenc, Sse.storeu_xorSi128, Sse.storeu_loadu (length_mixColumns _), subBytes_shiftRows (Sse.length_storeu x), addRoundKey]

theorem storeu_aesenclast (x key : M128i) :
    storeu (aesenclast x key) = addRoundKey (shiftRows (subBytes (storeu x))) (storeu key) := by
  rw [aesenclast, Sse.storeu_xorSi128, Sse.storeu_loadu (by simp), subBytes_shiftRows (Sse.length_storeu x), addRoundKey]

end ContactDiscovery.Lib.Aes
