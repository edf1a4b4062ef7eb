/-
  ContactDiscovery.Lib.Gcm — Galois/Counter Mode (NIST SP 800-38D) over any cipher on blocks of 16 bytes.

  The key stream is the cipher's blocks at successive counters; data is combined with it byte by byte, from
  any place on (`xorFrom`). The tag is GHASH of the associated data, the encrypted data and their lengths,
  combined with the cipher's block at the first counter.

  `aead`: what is sealed opens again; a tag is accepted only if it is the one of what is opened.
-/

import ContactDiscovery.Lib.Absorb
import ContactDiscovery.Lib.Crypt
import ContactDiscovery.Lib.Gf128

namespace ContactDiscovery.Lib.Gcm

open Gf128 (Block)

/-! ## Blocks -/

/-- The block of up to 16 bytes, with zeros after them. -/
def block (b : List Byte) : Block := BitVec.ofNat 128 (beNat (b ++ List.replicate (16 - b.length) 0))

def blockBytes (w : Block) : List Byte := (List.range 16).map fun i => w.extractLsb' (8 * (15 - i)) 8

def blocks (data : List Byte) : List Block := (chunks 16 data).map block

@[simp] theorem length_blockBytes (w : Block) : (blockBytes w).length = 16 := by simp [blockBytes]

theorem blocks_nil : blocks [] = [] := by rw [blocks, chunks_nil, List.map_nil]

theorem blocks_cons {data : List Byte} (h : data ≠ []) : blocks data = block (data.take 16) :: blocks (data.drop 16) := by
  rw [blocks, chunks_ne_nil (by decide) h, List.map_cons, blocks]

theorem blocks_one {b : List Byte} (h : 0 < b.length ∧ b.length ≤ 16) : blocks b = [block b] := by
  rw [blocks_cons (List.ne_nil_of_length_pos h.1), List.take_of_length_le h.2, List.drop_of_length_le h.2, blocks_nil]

theorem blocks_append {a : List Byte} (h : a.length % 16 = 0) (b : List Byte) : blocks (a ++ b) = blocks a ++ blocks b := by
  induction hn : a.length using Nat.strongRecOn generalizing a with
  | _ n ih =>
    by_cases hnil : a = []
    · rw [hnil, List.nil_append, blocks_nil, List.nil_append]
    · have hpos := List.length_pos_of_ne_nil hnil
      have hrest := ih (a.drop 16).length (by rw [List.length_drop]; omega) (by rw [List.length_drop]; omega) rfl
      rw [blocks_cons (by simp [hnil]), blocks_cons hnil, List.take_append_of_le_length (by omega),
        List.drop_append_of_le_length (by omega), hrest, List.cons_append]

theorem blocks_take {data : List Byte} {n : Nat} (h : 16 * (n + 1) ≤ data.length) :
    blocks (data.take (16 * (n + 1))) = block (data.take 16) :: blocks ((data.drop 16).take (16 * n)) := by
  have hnil : data.take (16 * (n + 1)) ≠ [] := List.ne_nil_of_length_pos (by rw [List.length_take]; omega)
  rw [blocks_cons hnil, List.take_take, List.drop_take, show min 16 (16 * (n + 1)) = 16 by omega,
    show 16 * (n + 1) - 16 = 16 * n by omega]

theorem block_pad {b : List Byte} {k : Nat} (h : b.length + k ≤ 16) : block (b ++ List.replicate k 0) = block b := by
  rw [block, block, List.length_append, List.length_replicate, List.append_assoc, List.replicate_append_replicate,
    show k + (16 - (b.length + k)) = 16 - b.length by omega]

/-- Zeros up to the end of the last block change nothing. -/
theorem blocks_pad {b : List Byte} {k : Nat} (h : b.length % 16 ≠ 0) (hk : b.length % 16 + k ≤ 16) :
    blocks (b ++ List.replicate k 0) = blocks b := by
  have hsplit := List.take_append_drop (b.length / 16 * 16) b
  have hwhole : (b.take (b.length / 16 * 16)).length % 16 = 0 := by rw [List.length_take]; omega
  have hlast : (b.drop (b.length / 16 * 16)).length = b.length % 16 := by rw [List.length_drop]; omega
  have hpadded : (b.drop (b.length / 16 * 16) ++ List.replicate k 0).length = b.length % 16 + k := by
    rw [List.length_append, hlast, List.length_replicate]
  rw [← hsplit, List.append_assoc, blocks_append hwhole, blocks_append hwhole, @blocks_one (_ ++ List.replicate k 0) (by omega),
    block_pad (by omega), @blocks_one (b.drop _) (by omega)]

theorem block_of_length {b : List Byte} (h : b.length = 16) : block b = BitVec.ofNat 128 (beNat b) := by
  rw [block, h, Nat.sub_self, List.replicate_zero, List.append_nil]

theorem toNat_block {b : List Byte} (h : b.length = 16) : (block b).toNat = beNat b := by
  have hlt := beNat_lt_pow b
  rw [h] at hlt
  rw [block_of_length h, BitVec.toNat_ofNat, Nat.mod_eq_of_lt (Nat.lt_of_lt_of_eq hlt (by norm_num))]

theorem beNat_blockBytes (w : Block) : beNat (blockBytes w) = w.toNat := by
  have hreverse : (blockBytes w).reverse = (List.range 16).map fun i => w.extractLsb' (8 * i) 8 := rfl
  rw [beNat_eq_leNat_reverse, hreverse, leNat_extract, Nat.mod_eq_of_lt (Nat.lt_of_lt_of_eq w.isLt (by norm_num))]

theorem blockBytes_block {b : List Byte} (h : b.length = 16) : blockBytes (block b) = b := by
  have hnat : beNat (blockBytes (block b)) = beNat b := by rw [beNat_blockBytes, toNat_block h]
  rw [beNat_eq_leNat_reverse, beNat_eq_leNat_reverse] at hnat
  exact List.reverse_injective (leNat_inj (by simp [h]) hnat)

def hashStep (h y : Block) (b : List Byte) : Block := Gf128.mul (y ^^^ block b) h

/-- The whole blocks first, then what is left over. -/
theorem ghash_blocks (h y : Block) (data : List Byte) :
    Gf128.ghash h y (blocks data) = Gf128.ghash h (absorb 16 (hashStep h) y data) (blocks (leftover 16 data)) := by
  induction data using block_induction (show 0 < 16 by decide) generalizing y with
  | hlt data hlt => rw [absorb_of_lt hlt, leftover_of_lt hlt]
  | hblock b data hb ih =>
    have hone : Gf128.ghash h y (blocks b) = hashStep h y b := by rw [blocks_one (by omega)]; rfl
    rw [blocks_append (by omega), Gf128.ghash_append, hone, ih, absorb_block (by decide) hb, leftover_block (by decide) hb]

theorem absorb_hashStep (h y : Block) {data : List Byte} (hlen : data.length % 16 = 0) :
    absorb 16 (hashStep h) y data = Gf128.ghash h y (blocks data) := by
  have hnil : leftover 16 data = [] := List.eq_nil_of_length_eq_zero (by rw [length_leftover, hlen])
  rw [ghash_blocks, hnil, blocks_nil]
  rfl

/-! ## The key stream -/

section Cipher

/-- Data combined with a stream from the place `n` on. -/
def xorFrom (ks : Nat → Byte) : (n : Nat) → List Byte → List Byte
  | _, [] => []
  | n, x :: data => (x ^^^ ks n) :: xorFrom ks (n + 1) data

@[simp] theorem length_xorFrom (ks : Nat → Byte) (n : Nat) (data : List Byte) : (xorFrom ks n data).length = data.length := by
  induction data generalizing n with
  | nil => rfl
  | cons x data ih => rw [xorFrom, List.length_cons, List.length_cons, ih]

theorem xorFrom_append (ks : Nat → Byte) (n : Nat) (a b : List Byte) :
    xorFrom ks n (a ++ b) = xorFrom ks n a ++ xorFrom ks (n + a.length) b := by
  induction a generalizing n with
  | nil => rfl
  | cons x a ih =>
    rw [List.cons_append, xorFrom, ih, xorFrom, List.cons_append, List.length_cons]
    congr 3
    omega

theorem xorFrom_xorFrom (ks : Nat → Byte) (n : Nat) (data : List Byte) : xorFrom ks n (xorFrom ks n data) = data := by
  induction data generalizing n with
  | nil => rfl
  | cons x data ih => rw [xorFrom, xorFrom, ih, BitVec.xor_assoc, BitVec.xor_self, BitVec.xor_zero]

theorem xorFrom_eq_zipWith {ks : Nat → Byte} {n : Nat} {data l : List Byte} (hlen : data.length ≤ l.length)
    (h : ∀ i < l.length, l.getD i 0 = ks (n + i)) : xorFrom ks n data = data.zipWith (· ^^^ ·) l := by
  induction data generalizing n l with
  | nil => rw [xorFrom, List.zipWith_nil_left]
  | cons x data ih =>
    cases l with
    | nil => exact absurd hlen (by simp)
    | cons y l =>
      have hfirst := h 0 (by simp)
      rw [List.getD_cons_zero, Nat.add_zero] at hfirst
      have hrest := ih (n := n + 1) (l := l) (by simpa using hlen) fun i hi => by
        have hi := h (i + 1) (by simpa using hi)
        rwa [List.getD_cons_succ, show n + (i + 1) = n + 1 + i by omega] at hi
      rw [xorFrom, List.zipWith_cons_cons, hfirst, hrest]

theorem xorFrom_congr {ks ks' : Nat → Byte} {m n : Nat} {data : List Byte} (h : ∀ i < data.length, ks (m + i) = ks' (n + i)) :
    xorFrom ks m data = xorFrom ks' n data := by
  induction data generalizing m n with
  | nil => rfl
  | cons x data ih =>
    have hfirst := h 0 (by simp)
    rw [xorFrom, xorFrom, show ks m = ks' n from hfirst, ih]
    intro i hi
    have hrest := h (i + 1) (by simpa using hi)
    rw [show m + 1 + i = m + (i + 1) by omega, show n + 1 + i = n + (i + 1) by omega]
    exact hrest

variable (E : List Byte → List Byte)

/-- The counter after the bytes of an IV. -/
def counterBlock (iv : List Byte) (cc : BitVec 32) : List Byte := iv ++ beBytes32 cc.toNat

/-- A byte of the key stream that starts at a counter. -/
def ksByte (iv : List Byte) (cc : BitVec 32) (i : Nat) : Byte :=
  (E (counterBlock iv (cc + BitVec.ofNat 32 (i / 16)))).getD (i % 16) 0

/-- Counter mode. -/
def ctr (iv : List Byte) (cc : BitVec 32) (data : List Byte) : List Byte := xorFrom (ksByte E iv cc) 0 data

/-- A run from a later counter is the key stream from a later place. -/
theorem ctr_add (iv : List Byte) (cc : BitVec 32) {n : Nat} (h : n % 16 = 0) (data : List Byte) :
    ctr E iv (cc + BitVec.ofNat 32 (n / 16)) data = xorFrom (ksByte E iv cc) n data := by
  apply xorFrom_congr
  intro i _
  rw [ksByte, ksByte, Nat.zero_add, show (n + i) / 16 = n / 16 + i / 16 by omega, show (n + i) % 16 = i % 16 by omega,
    BitVec.ofNat_add, BitVec.add_assoc]

theorem ctr_append (iv : List Byte) (cc : BitVec 32) {a : List Byte} (h : a.length % 16 = 0) (b : List Byte) :
    ctr E iv cc (a ++ b) = ctr E iv cc a ++ ctr E iv (cc + BitVec.ofNat 32 (a.length / 16)) b := by
  rw [ctr, xorFrom_append, ctr_add E iv cc h, ctr, Nat.zero_add]

def keyStream (iv : List Byte) (cc : BitVec 32) : (n : Nat) → List Byte
  | 0 => []
  | n + 1 => E (counterBlock iv cc) ++ keyStream iv (cc + 1) n

variable {E}

theorem length_keyStream (hE : ∀ s, (E s).length = 16) (iv : List Byte) (cc : BitVec 32) (n : Nat) :
    (keyStream E iv cc n).length = 16 * n := by
  induction n generalizing cc with
  | zero => rfl
  | succ n ih =>
    rw [keyStream, List.length_append, hE, ih]
    omega

theorem getD_keyStream (hE : ∀ s, (E s).length = 16) (iv : List Byte) (cc : BitVec 32) {i n : Nat} (h : i < 16 * n) :
    (keyStream E iv cc n).getD i 0 = ksByte E iv cc i := by
  induction n generalizing cc i with
  | zero => omega
  | succ n ih =>
    rw [keyStream, ksByte]
    rcases Nat.lt_or_ge i 16 with hlt | hge
    · rw [List.getD_append _ _ _ _ (by rw [hE]; exact hlt), Nat.div_eq_of_lt hlt, Nat.mod_eq_of_lt hlt, BitVec.add_zero]
    · rw [List.getD_append_right _ _ _ _ (by rw [hE]; exact hge), hE, ih _ (by omega), ksByte,
        show i / 16 = 1 + (i - 16) / 16 by omega, show (i - 16) % 16 = i % 16 by omega, BitVec.ofNat_add, BitVec.add_assoc]
      rfl

theorem ctr_eq_zipWith (hE : ∀ s, (E s).length = 16) (iv : List Byte) (cc : BitVec 32) {n : Nat} {data : List Byte}
    (h : data.length ≤ 16 * n) : ctr E iv cc data = data.zipWith (· ^^^ ·) (keyStream E iv cc n) := by
  have hlen := length_keyStream hE iv cc n
  refine xorFrom_eq_zipWith (by omega) fun i hi => ?_
  rw [getD_keyStream hE iv cc (by omega), Nat.zero_add]

theorem ctr_zeros (hE : ∀ s, (E s).length = 16) (iv : List Byte) (cc : BitVec 32) :
    ctr E iv cc (List.replicate 16 0) = E (counterBlock iv cc) := by
  have hxor : ∀ l : List Byte, (List.replicate l.length 0).zipWith (· ^^^ ·) l = l := by
    intro l
    induction l with
    | nil => rfl
    | cons x l ih => rw [List.length_cons, List.replicate_succ, List.zipWith_cons_cons, ih, BitVec.ofNat_eq_ofNat, BitVec.zero_xor]
  have hblock := hxor (E (counterBlock iv cc))
  rw [hE] at hblock
  rw [ctr_eq_zipWith hE iv cc (n := 1) (by simp), keyStream, keyStream, List.append_nil, hblock]

variable (E)

/-! ## The mode -/

/-- `H`, the hash key. -/
def hashKey : Block := block (E (List.replicate 16 0))

/-- `J0`, the counter block of the tag. -/
def j0 (iv : List Byte) : List Byte × BitVec 32 :=
  if iv.length = 12 then (iv, 1)
  else
    let y := blockBytes (Gf128.ghash (hashKey E) 0 (blocks iv ++ [block (List.replicate 8 0 ++ beBytes (BitVec.ofNat 64 (8 * iv.length)))]))
    (y.take 12, BitVec.ofNat 32 (beNat (y.drop 12)))

theorem length_j0 (iv : List Byte) : (j0 E iv).1.length = 12 := by
  rw [j0]
  split
  · assumption
  · simp

/-- The lengths in bits, in one block. -/
def lengths (aad data : List Byte) : Block :=
  block (beBytes (BitVec.ofNat 64 (8 * aad.length)) ++ beBytes (BitVec.ofNat 64 (8 * data.length)))

def tag (iv aad data : List Byte) : List Byte :=
  ctr E (j0 E iv).1 (j0 E iv).2
    (blockBytes (Gf128.ghash (hashKey E) 0 (blocks aad ++ blocks data ++ [lengths aad data])))

/-- The data with the key stream, from the second counter on. -/
def crypt (iv data : List Byte) : List Byte := ctr E (j0 E iv).1 ((j0 E iv).2 + 1) data

theorem length_tag (iv aad data : List Byte) : (tag E iv aad data).length = 16 := by
  rw [tag, ctr, length_xorFrom, length_blockBytes]

theorem length_crypt (iv data : List Byte) : (crypt E iv data).length = data.length := by rw [crypt, ctr, length_xorFrom]

theorem crypt_crypt (iv data : List Byte) : crypt E iv (crypt E iv data) = data := xorFrom_xorFrom _ _ _

end Cipher

/-- The mode over a cipher with a key. -/
def aead {K N : Type} (E : K → List Byte → List Byte) (bytes : N → List Byte) : Aead K N (Bytes 16) where
  encrypt key iv aad data :=
    let encrypted := crypt (E key) (bytes iv) data
    (encrypted, ⟨tag (E key) (bytes iv) aad encrypted, length_tag ..⟩)
  decrypt key iv aad data mac := if tag (E key) (bytes iv) aad data = mac.1 then some (crypt (E key) (bytes iv) data) else none
  length_encrypt _ _ _ _ := length_crypt ..
  length_decrypt key iv aad data mac plain h := by
    split at h
    · cases h; exact length_crypt ..
    · cases h
  decrypt_encrypt key iv aad data := by
    rw [if_pos rfl, crypt_crypt]

end ContactDiscovery.Lib.Gcm
