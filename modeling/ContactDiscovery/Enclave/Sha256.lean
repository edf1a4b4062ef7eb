/-
  ContactDiscovery.Enclave.Sha256 — the hash function and the HMAC of the enclave (`sha2small.c`, `hmac.c`
  and the codecs of BearSSL).

  The running context has a block buffer, a count of bytes and eight words. A field of the context that
  a function does not set keeps what it had. The table of functions in a context is always that of
  SHA-256 here, and is left out. The HMAC stores the running state after one block of key, and sets it
  again for each message.
-/

import ContactDiscovery.Lib.Sha2

namespace ContactDiscovery.Enclave.Sha256

open Lib
open Lib.Sha2 (Word Regs)

/-! ## Rounds -/

def ch (x y z : Word) : Word := ((y ^^^ z) &&& x) ^^^ z

def maj (x y z : Word) : Word := (y &&& z) ||| ((y ||| z) &&& x)

def rotr (x : Word) (n : Nat) : Word := (x <<< (32 - n)) ||| (x >>> n)

def bsg20 (x : Word) : Word := rotr x 2 ^^^ rotr x 13 ^^^ rotr x 22

def bsg21 (x : Word) : Word := rotr x 6 ^^^ rotr x 11 ^^^ rotr x 25

def ssg20 (x : Word) : Word := rotr x 7 ^^^ rotr x 18 ^^^ x >>> 3

def ssg21 (x : Word) : Word := rotr x 17 ^^^ rotr x 19 ^^^ x >>> 10

def brSha256IV : Regs :=
  ⟨0x6A09E667, 0xBB67AE85, 0x3C6EF372, 0xA54FF53A, 0x510E527F, 0x9B05688C, 0x1F83D9AB, 0x5BE0CD19⟩

def kTable : List Word :=
  [0x428A2F98, 0x71374491, 0xB5C0FBCF, 0xE9B5DBA5, 0x3956C25B, 0x59F111F1, 0x923F82A4, 0xAB1C5ED5,
    0xD807AA98, 0x12835B01, 0x243185BE, 0x550C7DC3, 0x72BE5D74, 0x80DEB1FE, 0x9BDC06A7, 0xC19BF174,
    0xE49B69C1, 0xEFBE4786, 0x0FC19DC6, 0x240CA1CC, 0x2DE92C6F, 0x4A7484AA, 0x5CB0A9DC, 0x76F988DA,
    0x983E5152, 0xA831C66D, 0xB00327C8, 0xBF597FC7, 0xC6E00BF3, 0xD5A79147, 0x06CA6351, 0x14292967,
    0x27B70A85, 0x2E1B2138, 0x4D2C6DFC, 0x53380D13, 0x650A7354, 0x766A0ABB, 0x81C2C92E, 0x92722C85,
    0xA2BFE8A1, 0xA81A664B, 0xC24B8B70, 0xC76C51A3, 0xD192E819, 0xD6990624, 0xF40E3585, 0x106AA070,
    0x19A4C116, 0x1E376C08, 0x2748774C, 0x34B0BCB5, 0x391C0CB3, 0x4ED8AA4A, 0x5B9CCA4F, 0x682E6FF3,
    0x748F82EE, 0x78A5636F, 0x84C87814, 0x8CC70208, 0x90BEFFFA, 0xA4506CEB, 0xBEF9A3F7, 0xC67178F2]

def k (j : Nat) : Word := kTable.getD j 0

/-- `br_dec32be(buf + i)`. -/
def brDec32be (buf : List Byte) (i : Nat) : Word :=
  ((buf.getD i 0).setWidth 32 <<< 24) ||| ((buf.getD (i + 1) 0).setWidth 32 <<< 16) |||
    ((buf.getD (i + 2) 0).setWidth 32 <<< 8) ||| (buf.getD (i + 3) 0).setWidth 32

def brRangeDec32be (num : Nat) (src : List Byte) : List Word := (List.range num).map fun i => brDec32be src (4 * i)

def brEnc32be (x : Word) : List Byte :=
  [(x >>> 24).setWidth 8, (x >>> 16).setWidth 8, (x >>> 8).setWidth 8, x.setWidth 8]

def brRangeEnc32be (v : List Word) : List Byte := v.flatMap brEnc32be

def brEnc64be (x : BitVec 64) : List Byte := brEnc32be ((x >>> 32).setWidth 32) ++ brEnc32be (x.setWidth 32)

/-- `SHA2_STEP`: the new `D` and `H`. -/
def sha2Step (w : List Word) (a b c d e f g h : Word) (j : Nat) : Word × Word :=
  let t1 := h + bsg21 e + ch e f g + k j + w.getD j 0
  let t2 := bsg20 a + maj a b c
  (d + t1, t1 + t2)

/-- The body of the loop: eight steps, in which the registers change places. -/
def sha2Steps (w : List Word) (r : Regs) (i : Nat) : Regs :=
  let (d, h) := sha2Step w r.a r.b r.c r.d r.e r.f r.g r.h (i + 0)
  let (c, g) := sha2Step w h r.a r.b r.c d r.e r.f r.g (i + 1)
  let (b, f) := sha2Step w g h r.a r.b c d r.e r.f (i + 2)
  let (a, e) := sha2Step w f g h r.a b c d r.e (i + 3)
  let (h, d) := sha2Step w e f g h a b c d (i + 4)
  let (g, c) := sha2Step w d e f g h a b c (i + 5)
  let (f, b) := sha2Step w c d e f g h a b (i + 6)
  let (e, a) := sha2Step w b c d e f g h a (i + 7)
  ⟨a, b, c, d, e, f, g, h⟩

/-- One more word of `w`. -/
def extend (w : List Word) (i : Nat) : List Word :=
  w ++ [ssg21 (w.getD (i - 2) 0) + w.getD (i - 7) 0 + ssg20 (w.getD (i - 15) 0) + w.getD (i - 16) 0]

def brSha2smallRound (buf : List Byte) (val : Regs) : Regs :=
  let w := (List.range' 16 48).foldl extend (brRangeDec32be 16 buf)
  let r := (List.range 8).foldl (fun r i => sha2Steps w r (8 * i)) val
  ⟨val.a + r.a, val.b + r.b, val.c + r.c, val.d + r.d, val.e + r.e, val.f + r.f, val.g + r.g, val.h + r.h⟩

/-! ## The running hash -/

structure Sha256Context where
  buf : List Byte
  count : BitVec 64
  val : Regs

/-- The buffer is not touched. -/
def brSha256Init (cc : Sha256Context) : Sha256Context := { cc with val := brSha256IV, count := 0 }

def sha2smallUpdateLoop (buf : List Byte) (val : Regs) (ptr : Fin 64) (data : List Byte) : List Byte × Regs :=
  if _h : data = [] then (buf, val)
  else
    let clen := min (64 - ptr.1) data.length
    let buf := memcpy buf ptr (data.take clen)
    if hptr : ptr.1 + clen = 64 then sha2smallUpdateLoop buf (brSha2smallRound buf val) 0 (data.drop clen)
    else sha2smallUpdateLoop buf val ⟨ptr.1 + clen, by omega⟩ (data.drop clen)
termination_by data.length
decreasing_by
  all_goals
    have hlen := List.length_pos_of_ne_nil _h
    have hlt := ptr.isLt
    simp only [List.length_drop]
    omega

/-- `count & 63`. -/
def ptrOf (count : BitVec 64) : Fin 64 := ⟨count.toNat % 64, Nat.mod_lt _ (by decide)⟩

def sha2smallUpdate (cc : Sha256Context) (data : List Byte) : Sha256Context :=
  let r := sha2smallUpdateLoop cc.buf cc.val (ptrOf cc.count) data
  ⟨r.1, cc.count + BitVec.ofNat 64 data.length, r.2⟩

/-- The block is built in a buffer of its own. -/
def sha2smallOut (cc : Sha256Context) : List Byte :=
  let ptr := (ptrOf cc.count).1
  let buf := cc.buf.take ptr ++ [0x80]
  let ptr := ptr + 1
  let r : List Byte × Regs :=
    if ptr > 56 then (List.replicate 56 0, brSha2smallRound (buf ++ List.replicate (64 - ptr) 0) cc.val)
    else (buf ++ List.replicate (56 - ptr) 0, cc.val)
  let val := brSha2smallRound (r.1 ++ brEnc64be (cc.count <<< 3)) r.2
  brRangeEnc32be [val.a, val.b, val.c, val.d, val.e, val.f, val.g, val.h]

/-- `br_sha256_state`: the words, and the count. -/
def brSha256State (cc : Sha256Context) : List Byte × BitVec 64 :=
  (brRangeEnc32be [cc.val.a, cc.val.b, cc.val.c, cc.val.d, cc.val.e, cc.val.f, cc.val.g, cc.val.h], cc.count)

def brSha256SetState (cc : Sha256Context) (stb : List Byte) (count : BitVec 64) : Sha256Context :=
  { cc with
    val := ⟨brDec32be stb 0, brDec32be stb 4, brDec32be stb 8, brDec32be stb 12, brDec32be stb 16, brDec32be stb 20,
      brDec32be stb 24, brDec32be stb 28⟩
    count := count }

/-- `sgxsd_enclave_sha256`, on what its local variable holds at first. -/
def sgxsdEnclaveSha256 (shaContext : Sha256Context) (bufs : List (List Byte)) : List Byte :=
  sha2smallOut (bufs.foldl sha2smallUpdate (brSha256Init shaContext))

/-! ## HMAC -/

structure HmacKeyContext where
  ksi : List Byte
  kso : List Byte

structure HmacContext where
  dig : Sha256Context
  kso : List Byte
  outLen : Nat

def blockSize : Nat := 64

def digestSize : Nat := 32

/-- The running state after the key's block, and the context that was used for it. -/
def processKey (hc : Sha256Context) (key : List Byte) (bb : Byte) : Sha256Context × List Byte :=
  let tmp := key.map (· ^^^ bb) ++ List.replicate (blockSize - key.length) bb
  let hc := sha2smallUpdate (brSha256Init hc) tmp
  (hc, (brSha256State hc).1)

/-- On what the local context holds at first. -/
def brHmacKeyInit (hc : Sha256Context) (key : List Byte) : HmacKeyContext :=
  let r : Sha256Context × List Byte :=
    if key.length > blockSize then
      let hc := sha2smallUpdate (brSha256Init hc) key
      (hc, sha2smallOut hc)
    else (hc, key)
  let inner := processKey r.1 r.2 0x36
  let outer := processKey inner.1 r.2 0x5C
  ⟨inner.2, outer.2⟩

def brHmacInit (ctx : HmacContext) (kc : HmacKeyContext) (outLen : Nat) : HmacContext :=
  ⟨brSha256SetState (brSha256Init ctx.dig) kc.ksi (BitVec.ofNat 64 blockSize), kc.kso,
    if outLen > 0 ∧ outLen < digestSize then outLen else digestSize⟩

def brHmacUpdate (ctx : HmacContext) (data : List Byte) : HmacContext := { ctx with dig := sha2smallUpdate ctx.dig data }

/-- What is written, its length the return value; `hc` is the local context. -/
def brHmacOut (hc : Sha256Context) (ctx : HmacContext) : List Byte :=
  let tmp := sha2smallOut ctx.dig
  let hc := brSha256SetState (brSha256Init hc) ctx.kso (BitVec.ofNat 64 blockSize)
  let hc := sha2smallUpdate hc tmp
  (sha2smallOut hc).take ctx.outLen

end ContactDiscovery.Enclave.Sha256
