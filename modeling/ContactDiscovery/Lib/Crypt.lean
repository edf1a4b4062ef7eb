/-
  ContactDiscovery.Lib.Crypt — authenticated encryption as an interface (`Aead`), and HMAC and HKDF
  over any hash function `hash` with blocks of `blockLen` bytes.

  Used from here: `hmac_hashed_key`, a key longer than a block may be hashed beforehand;
  `xorPad_eq`, a pad written in place is the key's, padded with zeros; `expand_two`, the output of
  two rounds.
-/

import ContactDiscovery.Lib.Bytes

namespace ContactDiscovery.Lib

/-- Encryption with a nonce, associated data and a tag; what it accepts has the length of what is
    sealed. -/
structure Aead (K N T : Type) where
  encrypt : (key : K) → (iv : N) → (aad data : List Byte) → List Byte × T
  decrypt : (key : K) → (iv : N) → (aad data : List Byte) → (mac : T) → Option (List Byte)
  length_encrypt : ∀ key iv aad data, (encrypt key iv aad data).1.length = data.length
  length_decrypt : ∀ key iv aad data mac plain, decrypt key iv aad data mac = some plain → plain.length = data.length
  decrypt_encrypt : ∀ key iv aad data,
    decrypt key iv aad (encrypt key iv aad data).1 (encrypt key iv aad data).2 = some data

namespace Crypt

section Hmac

variable (hash : List Byte → List Byte) (blockLen : Nat)

/-- A key longer than a block is hashed. -/
def shortKey (key : List Byte) : List Byte := if key.length > blockLen then hash key else key

/-- The key with zeros up to a block, each byte combined with `x`. -/
def keyPad (x : Byte) (key : List Byte) : List Byte :=
  (key ++ List.replicate (blockLen - key.length) 0).map (x ^^^ ·)

def hmac (key msg : List Byte) : List Byte :=
  let k := shortKey hash blockLen key
  hash (keyPad blockLen 0x5c k ++ hash (keyPad blockLen 0x36 k ++ msg))

/-- A key is combined into the bytes of a pad from the front. -/
def xorPad : (pad key : List Byte) → List Byte
  | p :: pad, k :: key => (p ^^^ k) :: xorPad pad key
  | pad, _ => pad

variable {hash blockLen}

theorem xorPad_eq (x : Byte) {key : List Byte} : ∀ {n : Nat}, key.length ≤ n →
    xorPad (List.replicate n x) key = keyPad n x key := by
  induction key with
  | nil => intro n _; cases n <;> simp [xorPad, keyPad, List.replicate_succ]
  | cons k key ih =>
    intro n hn
    cases n with
    | zero => cases hn
    | succ n =>
      have hkey : key.length ≤ n := Nat.le_of_succ_le_succ hn
      simp only [List.replicate_succ, xorPad]
      rw [ih hkey]
      simp [keyPad]

/-- The hash of a long key is as good a key. -/
theorem hmac_hashed_key {key : List Byte} (msg : List Byte) (hkey : blockLen < key.length)
    (hhash : (hash key).length ≤ blockLen) : hmac hash blockLen (hash key) msg = hmac hash blockLen key msg := by
  have hlong : shortKey hash blockLen key = hash key := if_pos hkey
  have hshort : shortKey hash blockLen (hash key) = hash key := if_neg (by omega)
  simp only [hmac, hlong, hshort]

end Hmac

section Hkdf

variable (hash : List Byte → List Byte) (blockLen hashLen : Nat)

def extract (salt secret : List Byte) : List Byte := hmac hash blockLen salt secret

/-- The blocks of the output, from the first on; the block before the first is empty. -/
def okmBlock (prk info : List Byte) : Nat → List Byte
  | 0 => []
  | i + 1 => hmac hash blockLen prk (okmBlock prk info i ++ info ++ [BitVec.ofNat 8 (i + 1)])

def expand (prk info : List Byte) (len : Nat) : List Byte :=
  ((List.range ((len + hashLen - 1) / hashLen)).flatMap fun i => okmBlock hash blockLen prk info (i + 1)).take len

variable {hash blockLen hashLen}

theorem length_hmac (hhash : ∀ d, (hash d).length = hashLen) (key msg : List Byte) :
    (hmac hash blockLen key msg).length = hashLen := hhash _

theorem expand_two (hhash : ∀ d, (hash d).length = hashLen) (hpos : 0 < hashLen) (prk info : List Byte) :
    expand hash blockLen hashLen prk info (2 * hashLen) =
      okmBlock hash blockLen prk info 1 ++ okmBlock hash blockLen prk info 2 := by
  have hblocks : (2 * hashLen + hashLen - 1) / hashLen = 2 := by
    rw [show 2 * hashLen + hashLen - 1 = (hashLen - 1) + 2 * hashLen by omega, Nat.add_mul_div_right _ _ hpos,
      Nat.div_eq_of_lt (by omega)]
  rw [expand, hblocks]
  simp only [List.range_succ, List.range_zero, List.nil_append, List.flatMap_append, List.flatMap_cons, List.flatMap_nil,
    List.append_nil, Nat.zero_add, Nat.reduceAdd]
  apply List.take_of_length_le
  simp only [List.length_append, okmBlock, length_hmac hhash]
  omega

theorem length_expand_two (hhash : ∀ d, (hash d).length = hashLen) (hpos : 0 < hashLen) (prk info : List Byte) :
    (expand hash blockLen hashLen prk info (2 * hashLen)).length = 2 * hashLen := by
  rw [expand_two hhash hpos, List.length_append]
  simp only [okmBlock, length_hmac hhash]
  omega

end Hkdf

end Crypt

end ContactDiscovery.Lib
