/-
  ContactDiscovery.Enclave.AesGcm — authenticated encryption of the enclave (`gcm.c` of BearSSL and
  `sgxsd_aes_gcm_run`).

  A context takes the associated data and then the data in pieces of any lengths. It keeps 16 bytes
  between them: of the associated data what does not fill a block, of the data the encrypted bytes of the
  last block with the rest of its key stream behind them. The counter mode and the hash are functions of
  the context; `Computes` says what they have to give.

  Proved, for any such functions: `run_crypted`, the pieces together come out as with one key stream and
  the context holds the hash of the encrypted data, and `getTag_eq`, the tag is the standard's. From it
  `sgxsdAesGcmRun_standard`, with the instructions of the processor the enclave's encryption is
  AES-GCM, what it decrypts is accepted only with the tag, and nothing of it is left where the tag
  is wrong.
-/

import ContactDiscovery.Enclave.AesNi
import ContactDiscovery.Enclave.Ghash
import ContactDiscovery.Enclave.Sgxsd
import ContactDiscovery.Enclave.Sha256Proofs
import ContactDiscovery.Lib.Absorb

namespace ContactDiscovery.Enclave.AesGcm

open Lib hiding block
open Lib.Gf128 (Block)
open Lib.Gcm (block blocks blockBytes counterBlock ksByte ctr xorFrom hashKey j0)
open Sha256 (brEnc64be brDec32be)

/-! ## The code -/

/-- `br_gcm_context`, with the function of `bctx` and its key. -/
structure GcmContext where
  run : (iv : List Byte) → (cc : BitVec 32) → (data : List Byte) → BitVec 32 × List Byte
  gh : (y h data : List Byte) → List Byte
  h : List Byte
  j01 : List Byte
  j02 : BitVec 32
  buf : List Byte
  y : List Byte
  jc : BitVec 32
  countAad : BitVec 64
  countCtr : BitVec 64

def brGcmInit (ctx : GcmContext) (run : (iv : List Byte) → (cc : BitVec 32) → (data : List Byte) → BitVec 32 × List Byte)
    (gh : (y h data : List Byte) → List Byte) : GcmContext :=
  { ctx with run, gh, h := (run (List.replicate 12 0) 0 (List.replicate 16 0)).2 }

def resetJ0 (ctx : GcmContext) (iv : List Byte) : GcmContext :=
  if iv.length = 12 then { ctx with j01 := iv, j02 := 1 }
  else
    let ty := List.replicate 16 0
    let ty := ctx.gh ty ctx.h iv
    let tmp := List.replicate 8 (0 : Byte) ++ brEnc64be (BitVec.ofNat 64 iv.length <<< 3)
    let ty := ctx.gh ty ctx.h tmp
    { ctx with j01 := ty.take 12, j02 := brDec32be ty 12 }

def brGcmReset (ctx : GcmContext) (iv : List Byte) : GcmContext :=
  let ctx := resetJ0 ctx iv
  { ctx with jc := ctx.j02 + 1, y := List.replicate 16 0, countAad := 0, countCtr := 0 }

def aadBlocks (ctx : GcmContext) (data : List Byte) : GcmContext :=
  let dlen := data.length / 16 * 16
  { ctx with
    y := ctx.gh ctx.y ctx.h (data.take dlen)
    buf := memcpy ctx.buf 0 (data.drop dlen)
    countAad := ctx.countAad + BitVec.ofNat 64 data.length }

def brGcmAadInject (ctx : GcmContext) (data : List Byte) : GcmContext :=
  let ptr := (ctx.countAad &&& 15).toNat
  if ptr ≠ 0 then
    let clen := 16 - ptr
    if data.length < clen then
      { ctx with buf := memcpy ctx.buf ptr data, countAad := ctx.countAad + BitVec.ofNat 64 data.length }
    else
      let buf := memcpy ctx.buf ptr (data.take clen)
      aadBlocks { ctx with buf, y := ctx.gh ctx.y ctx.h buf, countAad := ctx.countAad + BitVec.ofNat 64 clen } (data.drop clen)
  else aadBlocks ctx data

def brGcmFlip (ctx : GcmContext) : GcmContext :=
  let ptr := (ctx.countAad &&& 15).toNat
  if ptr ≠ 0 then { ctx with y := ctx.gh ctx.y ctx.h (ctx.buf.take ptr) } else ctx

/-- Bytes with those of the buffer from `ptr` on: the buffer then has the encrypted ones. -/
def cryptBuf (ctx : GcmContext) (encrypt : Bool) (ptr : Nat) (data : List Byte) : GcmContext × List Byte :=
  let out := data.zipWith (· ^^^ ·) (ctx.buf.drop ptr)
  ({ ctx with buf := memcpy ctx.buf ptr (if encrypt then out else data), countCtr := ctx.countCtr + BitVec.ofNat 64 data.length }, out)

def runWhole (ctx : GcmContext) (encrypt : Bool) (data : List Byte) : GcmContext × List Byte :=
  let (jc, out) := ctx.run ctx.j01 ctx.jc data
  ({ ctx with
    jc
    y := ctx.gh ctx.y ctx.h (if encrypt then out else data)
    countCtr := ctx.countCtr + BitVec.ofNat 64 data.length }, out)

def startBlock (ctx : GcmContext) (encrypt : Bool) (data : List Byte) : GcmContext × List Byte :=
  let (jc, buf) := ctx.run ctx.j01 ctx.jc (List.replicate 16 0)
  cryptBuf { ctx with jc, buf } encrypt 0 data

def runBlocks (ctx : GcmContext) (encrypt : Bool) (data : List Byte) : GcmContext × List Byte :=
  let dlen := data.length / 16 * 16
  let (ctx, out) := runWhole ctx encrypt (data.take dlen)
  let rest := data.drop dlen
  if rest.length > 0 then
    let (ctx, restOut) := startBlock ctx encrypt rest
    (ctx, out ++ restOut)
  else (ctx, out)

/-- The context, and the data in place. -/
def brGcmRun (ctx : GcmContext) (encrypt : Bool) (data : List Byte) : GcmContext × List Byte :=
  let ptr := (ctx.countCtr &&& 15).toNat
  if ptr ≠ 0 then
    let clen := if data.length < 16 - ptr then data.length else 16 - ptr
    let (ctx, out) := cryptBuf ctx encrypt ptr (data.take clen)
    if ptr + clen < 16 then (ctx, out)
    else
      let (ctx, rest) := runBlocks { ctx with y := ctx.gh ctx.y ctx.h ctx.buf } encrypt (data.drop clen)
      (ctx, out ++ rest)
  else runBlocks ctx encrypt data

def brGcmGetTag (ctx : GcmContext) : List Byte :=
  let ptr := (ctx.countCtr &&& 15).toNat
  let y := if ptr > 0 then ctx.gh ctx.y ctx.h (ctx.buf.take ptr) else ctx.y
  let tmp := brEnc64be (ctx.countAad <<< 3) ++ brEnc64be (ctx.countCtr <<< 3)
  let y := ctx.gh y ctx.h tmp
  (ctx.run ctx.j01 ctx.j02 y).2

def eq0 (q : BitVec 32) : BitVec 32 := ~~~(q ||| -q) >>> 31

def brGcmCheckTagTrunc (ctx : GcmContext) (tag : List Byte) (len : Nat) : BitVec 32 :=
  let tmp := brGcmGetTag ctx
  let x := (List.range len).foldl (fun x u => x ||| (tmp.getD u 0 ^^^ tag.getD u 0).setWidth 32) 0
  eq0 x

def brGcmCheckTag (ctx : GcmContext) (tag : List Byte) : BitVec 32 := brGcmCheckTagTrunc ctx tag 16

/-- What `sgxsd_aes_gcm_run` returns, and the memory at `p_dst` and `p_mac`. -/
structure AesGcmResult where
  status : Except SgxStatus Unit
  dst : Option (List Byte)
  mac : Option (List Byte)

/-- The context of `sgxsd_aes_gcm_run` before the data. -/
def sgxsdAesGcmStart (aesCtx : AesNi.CtrKeys) (gcmCtx : GcmContext) (key : Key) (iv : Iv) (aad : List Byte) (aadLen : Nat) : GcmContext :=
  let aesCtx := AesNi.brAesX86niCtrInit aesCtx key.1
  let ctx := brGcmInit gcmCtx (AesNi.brAesX86niCtrRun aesCtx) Ghash.brGhashPclmul
  let ctx := brGcmReset ctx iv.1
  let ctx := if aadLen ≠ 0 then brGcmAadInject ctx aad else ctx
  brGcmFlip ctx

/-- `sgxsd_aes_gcm_run`. A pointer that is `NULL` is `none`; of `p_src` and `p_dst` the first `src_len` bytes are
given, of `p_aad` the first `aad_len`. The local variables have `aesCtx` and `gcmCtx` at first. -/
def sgxsdAesGcmRun (aesCtx : AesNi.CtrKeys) (gcmCtx : GcmContext) (encrypt : Bool) (pKey : Option Key) (pSrc : Option (List Byte))
    (srcLen : Nat) (pDst : Option (List Byte)) (pIv : Option Iv) (pAad : Option (List Byte)) (aadLen : Nat) (pMac : Option (List Byte)) :
    AesGcmResult :=
  match pKey, pIv, pMac with
  | some key, some iv, some mac =>
    if ((pSrc.isNone ∨ pDst.isNone) ∧ srcLen ≠ 0) ∨ (pAad.isNone ∧ aadLen ≠ 0) then ⟨.error .invalidParameter, pDst, pMac⟩
    else
      let ctx := sgxsdAesGcmStart aesCtx gcmCtx key iv (pAad.getD []) aadLen
      let (ctx, pDst) :=
        if srcLen ≠ 0 then
          let (ctx, data) := brGcmRun ctx encrypt (pSrc.getD [])
          (ctx, some data)
        else (ctx, pDst)
      if encrypt then ⟨.ok (), pDst, some (brGcmGetTag ctx)⟩
      else if brGcmCheckTag ctx mac ≠ 0 then ⟨.ok (), pDst, pMac⟩
      else ⟨.error .macMismatch, pDst.map fun _ => List.replicate srcLen 0, pMac⟩
  | _, _, _ => ⟨.error .invalidParameter, pDst, pMac⟩

/-! ## What a context has -/

/-- The functions a context is given. -/
structure Computes (E : List Byte → List Byte) (run : (iv : List Byte) → (cc : BitVec 32) → (data : List Byte) → BitVec 32 × List Byte)
    (gh : (y h data : List Byte) → List Byte) : Prop where
  cipher : ∀ s, (E s).length = 16
  run : ∀ iv cc data, iv.length = 12 → run iv cc data = (cc + BitVec.ofNat 32 (data.length / 16), ctr E iv cc data)
  gh : ∀ y h data, y.length = 16 → h.length = 16 →
    (gh y h data).length = 16 ∧ block (gh y h data) = Gf128.ghash (block h) (block y) (blocks data)

structure Keyed (E : List Byte → List Byte) (iv : List Byte) (ctx : GcmContext) : Prop where
  computes : Computes E ctx.run ctx.gh
  h : ctx.h.length = 16 ∧ block ctx.h = hashKey E
  nonce : (ctx.j01, ctx.j02) = j0 E iv
  buf : ctx.buf.length = 16
  y : ctx.y.length = 16

/-- What the hash has, after the whole blocks of `data` from `y` on. -/
def Hashed (E : List Byte → List Byte) (y : Block) (data : List Byte) (ctx : GcmContext) : Prop :=
  block ctx.y = absorb 16 (Gcm.hashStep (hashKey E)) y data

section Context

variable {E : List Byte → List Byte} {iv : List Byte} {ctx : GcmContext}

theorem gh_eq (h : Keyed E iv ctx) {y : List Byte} (hy : y.length = 16) (data : List Byte) :
    (ctx.gh y ctx.h data).length = 16 ∧ block (ctx.gh y ctx.h data) = Gf128.ghash (hashKey E) (block y) (blocks data) := by
  rw [← h.h.2]
  exact h.computes.gh y ctx.h data hy h.h.1

theorem run_eq (h : Keyed E iv ctx) (cc : BitVec 32) (data : List Byte) :
    ctx.run ctx.j01 cc data = (cc + BitVec.ofNat 32 (data.length / 16), ctr E (j0 E iv).1 cc data) := by
  have hj : ctx.j01 = (j0 E iv).1 := congrArg Prod.fst h.nonce
  rw [hj, h.computes.run _ _ _ (Gcm.length_j0 E iv)]

theorem toNat_and_15 (n : Nat) : (BitVec.ofNat 64 n &&& 15).toNat = n % 16 := by
  have h := Nat.and_two_pow_sub_one_eq_mod (n % 2 ^ 64) 4
  rw [BitVec.toNat_and, BitVec.toNat_ofNat, show (15 : BitVec 64).toNat = 2 ^ 4 - 1 from rfl, h]
  omega

theorem hashed_block (hk : Keyed E iv ctx) {y : Block} {data more buf : List Byte} (h : Hashed E y data ctx)
    (hbuf : buf = leftover 16 data ++ more) (hlen : buf.length = 16) :
    block (ctx.gh ctx.y ctx.h buf) = absorb 16 (Gcm.hashStep (hashKey E)) y (data ++ more) := by
  rw [(gh_eq hk hk.y buf).2, h, ← Gcm.absorb_hashStep _ _ (by rw [hlen]), hbuf, ← absorb_append (by decide)]

theorem hashed_blocks (hk : Keyed E iv ctx) {y : Block} {data more : List Byte} (h : Hashed E y data ctx) (hdata : data.length % 16 = 0)
    (rest : List Byte) (hmore : more.length % 16 = 0) (hrest : rest.length < 16) :
    Gcm.block (ctx.gh ctx.y ctx.h more) = absorb 16 (Gcm.hashStep (hashKey E)) y (data ++ (more ++ rest)) := by
  have hnil : ∀ l : List Byte, l.length % 16 = 0 → leftover 16 l = [] := by
    intro l hl
    exact List.eq_nil_of_length_eq_zero (by rw [length_leftover, hl])
  rw [(gh_eq hk hk.y more).2, h, ← Gcm.absorb_hashStep _ _ hmore, absorb_append (by decide) data, hnil data hdata, List.nil_append,
    absorb_append (by decide) more, hnil more hmore, List.nil_append, absorb_of_lt hrest]

/-! ## The associated data -/

/-- The associated data so far. -/
structure Injected (E : List Byte → List Byte) (iv aad : List Byte) (ctx : GcmContext) : Prop extends Keyed E iv ctx where
  jc : ctx.jc = ctx.j02 + 1
  countCtr : ctx.countCtr = 0
  countAad : ctx.countAad = BitVec.ofNat 64 aad.length
  hashed : Hashed E 0 aad ctx
  front : ctx.buf.take (aad.length % 16) = leftover 16 aad

theorem ofNat_add_length (a b : List Byte) : BitVec.ofNat 64 a.length + BitVec.ofNat 64 b.length = BitVec.ofNat 64 (a ++ b).length := by
  rw [List.length_append, BitVec.ofNat_add]

theorem aadBlocks_injected {aad : List Byte} (h : Injected E iv aad ctx) (hlen : aad.length % 16 = 0) (data : List Byte) :
    Injected E iv (aad ++ data) (aadBlocks ctx data) := by
  have hwhole : (data.take (data.length / 16 * 16)).length % 16 = 0 := by rw [List.length_take]; omega
  have hrest : (data.drop (data.length / 16 * 16)).length = data.length % 16 := by rw [List.length_drop]; omega
  have hgh := gh_eq h.toKeyed h.y (data.take (data.length / 16 * 16))
  have hblocks := hashed_blocks h.toKeyed h.hashed hlen (data.drop (data.length / 16 * 16)) hwhole (by omega)
  rw [List.take_append_drop] at hblocks
  have hleft : leftover 16 (aad ++ data) = data.drop (data.length / 16 * 16) := by
    have hnil : leftover 16 aad = [] := List.eq_nil_of_length_eq_zero (by rw [length_leftover, hlen])
    rw [leftover_append (by decide), hnil, List.nil_append, leftover, Nat.mul_comm]
  refine ⟨⟨h.computes, h.h, h.nonce, ?_, hgh.1⟩, h.jc, h.countCtr, ?_, hblocks, ?_⟩
  · have hbuf := h.buf
    show (memcpy ctx.buf 0 _).length = 16
    rw [memcpy_length (by omega), hbuf]
  · show ctx.countAad + _ = _
    rw [h.countAad, ofNat_add_length]
  · have htake := take_memcpy ctx.buf (data.drop (data.length / 16 * 16)) (Nat.zero_le _)
    rw [hrest, Nat.zero_add, List.take_zero, List.nil_append] at htake
    show (memcpy ctx.buf 0 _).take _ = _
    rw [hleft, List.length_append, Nat.add_mod, hlen, Nat.zero_add, Nat.mod_mod, htake]

theorem aadInject_injected {aad : List Byte} (h : Injected E iv aad ctx) (data : List Byte) :
    Injected E iv (aad ++ data) (brGcmAadInject ctx data) := by
  have hptr := toNat_and_15 aad.length
  rw [← h.countAad] at hptr
  have hbuf := h.buf
  rw [brGcmAadInject, hptr]
  split
  · simp only []
    split
    · rename_i hshort
      have hleft : leftover 16 (aad ++ data) = leftover 16 aad ++ data := by
        rw [leftover_append (by decide), leftover_of_lt (by rw [List.length_append, length_leftover]; omega)]
      have habsorb : absorb 16 (Gcm.hashStep (hashKey E)) 0 (aad ++ data) = absorb 16 (Gcm.hashStep (hashKey E)) 0 aad := by
        rw [absorb_append (by decide), absorb_of_lt (by rw [List.length_append, length_leftover]; omega)]
      refine ⟨⟨h.computes, h.h, h.nonce, ?_, h.y⟩, h.jc, h.countCtr, ?_, ?_, ?_⟩
      · show (memcpy ctx.buf _ data).length = 16
        rw [memcpy_length (by omega), hbuf]
      · show ctx.countAad + _ = _
        rw [h.countAad, ofNat_add_length]
      · show block ctx.y = _
        rw [habsorb]
        exact h.hashed
      · show (memcpy ctx.buf _ data).take _ = _
        rw [hleft, ← h.front, ← take_memcpy ctx.buf data (by omega), List.length_append]
        congr 1
        omega
    · rename_i hlong
      -- the buffer is completed, and the rest starts a block
      have hfirst : (data.take (16 - aad.length % 16)).length = 16 - aad.length % 16 := by rw [List.length_take]; omega
      have hfull : memcpy ctx.buf (aad.length % 16) (data.take (16 - aad.length % 16)) =
          leftover 16 aad ++ data.take (16 - aad.length % 16) := by
        have htake := take_memcpy ctx.buf (data.take (16 - aad.length % 16)) (show aad.length % 16 ≤ ctx.buf.length by omega)
        rw [h.front, List.take_of_length_le (by rw [memcpy_length (by omega)]; omega)] at htake
        exact htake
      have hblock := hashed_block h.toKeyed h.hashed hfull (by rw [memcpy_length (by omega), hbuf])
      have hsplit : aad ++ data = aad ++ data.take (16 - aad.length % 16) ++ data.drop (16 - aad.length % 16) := by
        rw [List.append_assoc, List.take_append_drop]
      have haligned : (aad ++ data.take (16 - aad.length % 16)).length % 16 = 0 := by
        rw [List.length_append, hfirst]
        omega
      rw [hsplit]
      generalize memcpy ctx.buf (aad.length % 16) (data.take (16 - aad.length % 16)) = buf at hfull hblock ⊢
      have hmid : Injected E iv (aad ++ data.take (16 - aad.length % 16))
          { ctx with buf, y := ctx.gh ctx.y ctx.h buf, countAad := ctx.countAad + BitVec.ofNat 64 (16 - aad.length % 16) } := by
        refine ⟨⟨h.computes, h.h, h.nonce, ?_, (gh_eq h.toKeyed h.y _).1⟩, h.jc, h.countCtr, ?_, hblock, ?_⟩
        · show buf.length = 16
          rw [hfull, List.length_append, length_leftover, hfirst]
          omega
        · show ctx.countAad + BitVec.ofNat 64 (16 - aad.length % 16) = _
          rw [h.countAad, ← ofNat_add_length, hfirst]
        · rw [haligned, List.take_zero]
          exact (List.eq_nil_of_length_eq_zero (by rw [length_leftover, haligned])).symm
      exact aadBlocks_injected hmid haligned _
  · exact aadBlocks_injected h (by omega) data

/-! ## The data -/

def keyBytes (E : List Byte → List Byte) (iv : List Byte) : Nat → Byte := ksByte E (j0 E iv).1 ((j0 E iv).2 + 1)

/-- The encrypted form of data from a place on, when the other form is given. -/
def encrypted (E : List Byte → List Byte) (iv : List Byte) (encrypt : Bool) (n : Nat) (data : List Byte) : List Byte :=
  if encrypt then xorFrom (keyBytes E iv) n data else data

theorem encrypted_append (e : Bool) (n : Nat) (a b : List Byte) :
    encrypted E iv e n (a ++ b) = encrypted E iv e n a ++ encrypted E iv e (n + a.length) b := by
  cases e
  · rfl
  · exact Gcm.xorFrom_append ..

@[simp] theorem length_encrypted (e : Bool) (n : Nat) (data : List Byte) : (encrypted E iv e n data).length = data.length := by
  cases e
  · rfl
  · exact Gcm.length_xorFrom ..

/-- A block in the buffer: encrypted bytes, and the key stream for the others. -/
structure Buffered (E : List Byte → List Byte) (iv : List Byte) (e : Bool) (inp buf : List Byte) : Prop where
  length : buf.length = 16
  front : buf.take (inp.length % 16) = leftover 16 (encrypted E iv e 0 inp)
  stream : ∀ i, inp.length % 16 ≤ i → i < 16 → buf.getD i 0 = keyBytes E iv (inp.length / 16 * 16 + i)

/-- The data so far. -/
structure Crypted (E : List Byte → List Byte) (iv aad : List Byte) (e : Bool) (inp : List Byte) (ctx : GcmContext) : Prop
    extends Keyed E iv ctx where
  jc : ctx.jc = ctx.j02 + 1 + BitVec.ofNat 32 ((inp.length + 15) / 16)
  countAad : ctx.countAad = BitVec.ofNat 64 aad.length
  countCtr : ctx.countCtr = BitVec.ofNat 64 inp.length
  hashed : Hashed E (Gf128.ghash (hashKey E) 0 (blocks aad)) (encrypted E iv e 0 inp) ctx
  buffered : inp.length % 16 ≠ 0 → Buffered E iv e inp ctx.buf

/-- `br_gcm_flip` hashes what is left over. -/
theorem flip_crypted {aad : List Byte} (h : Injected E iv aad ctx) (e : Bool) : Crypted E iv aad e [] (brGcmFlip ctx) := by
  have hptr := toNat_and_15 aad.length
  rw [← h.countAad] at hptr
  have hjc : ctx.jc = ctx.j02 + 1 + BitVec.ofNat 32 (([] : List Byte).length + 15 / 16) := by
    rw [h.jc]
    exact (BitVec.add_zero _).symm
  have hnone : encrypted E iv e 0 [] = [] := List.eq_nil_of_length_eq_zero (length_encrypted ..)
  have hhash := Gcm.ghash_blocks (hashKey E) 0 aad
  rw [brGcmFlip, hptr]
  split
  · have hgh := gh_eq h.toKeyed h.y (ctx.buf.take (aad.length % 16))
    refine ⟨⟨h.computes, h.h, h.nonce, h.buf, hgh.1⟩, hjc, h.countAad, h.countCtr, ?_, fun hne => absurd rfl hne⟩
    rw [hnone, Hashed, absorb_of_lt (by decide), hhash, ← h.front]
    rw [hgh.2, h.hashed]
  · rename_i hzero
    have hnil : leftover 16 aad = [] := List.eq_nil_of_length_eq_zero (by rw [length_leftover]; omega)
    refine ⟨h.toKeyed, hjc, h.countAad, h.countCtr, ?_, fun hne => absurd rfl hne⟩
    rw [hnone, Hashed, absorb_of_lt (by decide), hhash, hnil, Gcm.blocks_nil, h.hashed]
    rfl

theorem drop_getD (l : List Byte) (n i : Nat) : (l.drop n).getD i 0 = l.getD (n + i) 0 := by
  rw [List.getD_eq_getElem?_getD, List.getD_eq_getElem?_getD, List.getElem?_drop]

theorem cryptBuf_eq {e : Bool} {inp data : List Byte} (h : Buffered E iv e inp ctx.buf) (hlen : inp.length % 16 + data.length ≤ 16) :
    (cryptBuf ctx e (inp.length % 16) data).2 = xorFrom (keyBytes E iv) inp.length data ∧
    (cryptBuf ctx e (inp.length % 16) data).1.buf =
      leftover 16 (encrypted E iv e 0 inp) ++ encrypted E iv e inp.length data ++ ctx.buf.drop (inp.length % 16 + data.length) := by
  have hbuf := h.length
  have hout : (cryptBuf ctx e (inp.length % 16) data).2 = xorFrom (keyBytes E iv) inp.length data := by
    refine (Gcm.xorFrom_eq_zipWith (by rw [List.length_drop]; omega) fun i hi => ?_).symm
    rw [List.length_drop] at hi
    rw [drop_getD, h.stream _ (by omega) (by omega)]
    congr 1
    omega
  refine ⟨hout, ?_⟩
  have hstored : (if e then (cryptBuf ctx e (inp.length % 16) data).2 else data) = encrypted E iv e inp.length data := by
    rw [hout, encrypted]
  show memcpy ctx.buf _ (if e then (cryptBuf ctx e (inp.length % 16) data).2 else data) = _
  rw [hstored, memcpy, h.front, length_encrypted]

theorem cryptBuf_buffered {e : Bool} {inp data : List Byte} (h : Buffered E iv e inp ctx.buf) (hlen : inp.length % 16 + data.length < 16) :
    Buffered E iv e (inp ++ data) (cryptBuf ctx e (inp.length % 16) data).1.buf := by
  have hbuf := h.length
  have hmod : (inp ++ data).length % 16 = inp.length % 16 + data.length := by rw [List.length_append]; omega
  have hdiv : (inp ++ data).length / 16 = inp.length / 16 := by rw [List.length_append]; omega
  have hfront : (leftover 16 (encrypted E iv e 0 inp) ++ encrypted E iv e inp.length data).length = inp.length % 16 + data.length := by
    rw [List.length_append, length_leftover, length_encrypted, length_encrypted]
  rw [(cryptBuf_eq h (by omega)).2]
  refine ⟨?_, ?_, ?_⟩
  · rw [List.length_append, hfront, List.length_drop]
    omega
  · have hshort : leftover 16 (leftover 16 (encrypted E iv e 0 inp) ++ encrypted E iv e inp.length data) = _ := leftover_of_lt (by omega)
    rw [hmod, List.take_left' hfront, encrypted_append, Nat.zero_add, leftover_append (by decide), hshort]
  · intro i hi h16
    rw [hmod] at hi
    rw [hdiv, List.getD_append_right _ _ _ _ (by omega), hfront, drop_getD, ← h.stream i (by omega) h16]
    congr 1
    omega

/-- The counter is where the data is. -/
theorem jc_aligned {aad inp : List Byte} {e : Bool} (h : Crypted E iv aad e inp ctx) (haligned : inp.length % 16 = 0) :
    ctx.jc = (j0 E iv).2 + 1 + BitVec.ofNat 32 (inp.length / 16) := by
  have hj02 : ctx.j02 = (j0 E iv).2 := congrArg Prod.snd h.nonce
  rw [h.jc, hj02, show (inp.length + 15) / 16 = inp.length / 16 by omega]

theorem runWhole_crypted {aad inp whole : List Byte} {e : Bool} (h : Crypted E iv aad e inp ctx) (haligned : inp.length % 16 = 0)
    (hwhole : whole.length % 16 = 0) :
    (runWhole ctx e whole).2 = xorFrom (keyBytes E iv) inp.length whole ∧
    Crypted E iv aad e (inp ++ whole) (runWhole ctx e whole).1 := by
  have hrun := run_eq h.toKeyed ctx.jc whole
  have hout : (ctx.run ctx.j01 ctx.jc whole).2 = xorFrom (keyBytes E iv) inp.length whole := by
    rw [hrun, jc_aligned h haligned]
    exact Gcm.ctr_add E _ _ haligned whole
  have hstored : (if e then (ctx.run ctx.j01 ctx.jc whole).2 else whole) = encrypted E iv e inp.length whole := by rw [hout, encrypted]
  have hgh := gh_eq h.toKeyed h.y (encrypted E iv e inp.length whole)
  have hhash := hashed_blocks h.toKeyed h.hashed (by rw [length_encrypted, haligned]) [] (show (encrypted E iv e inp.length whole).length % 16 = 0 by
    rw [length_encrypted, hwhole]) (by decide)
  have hlen : (inp ++ whole).length = inp.length + whole.length := List.length_append
  refine ⟨hout, ⟨h.computes, h.h, h.nonce, h.buf, ?_⟩, ?_, h.countAad, ?_, ?_, fun hne => absurd (by omega) hne⟩
  · show (ctx.gh ctx.y ctx.h (if e then _ else whole)).length = 16
    rw [hstored, hgh.1]
  · show (ctx.run ctx.j01 ctx.jc whole).1 = ctx.j02 + 1 + _
    rw [hrun, h.jc, BitVec.add_assoc _ (BitVec.ofNat 32 _), ← BitVec.ofNat_add, hlen,
      show (inp.length + 15) / 16 + whole.length / 16 = (inp.length + whole.length + 15) / 16 by omega]
  · show ctx.countCtr + _ = _
    rw [h.countCtr, ofNat_add_length]
  · show block (ctx.gh ctx.y ctx.h (if e then _ else whole)) = _
    rw [hstored, hhash, List.append_nil, encrypted_append, Nat.zero_add]

theorem fresh_buffered {aad inp : List Byte} {e : Bool} (h : Crypted E iv aad e inp ctx) (haligned : inp.length % 16 = 0) :
    Buffered E iv e inp (ctx.run ctx.j01 ctx.jc (List.replicate 16 0)).2 := by
  have hstream : (ctx.run ctx.j01 ctx.jc (List.replicate 16 0)).2 = E (counterBlock (j0 E iv).1 ctx.jc) := by
    rw [run_eq h.toKeyed]
    exact Gcm.ctr_zeros h.computes.cipher ..
  rw [hstream]
  refine ⟨h.computes.cipher _, ?_, ?_⟩
  · rw [haligned, List.take_zero]
    exact (List.eq_nil_of_length_eq_zero (by rw [length_leftover, length_encrypted, haligned])).symm
  · intro i _ hi
    rw [keyBytes, ksByte, show (inp.length / 16 * 16 + i) / 16 = inp.length / 16 by omega,
      show (inp.length / 16 * 16 + i) % 16 = i by omega, jc_aligned h haligned]

theorem startBlock_crypted {aad inp data : List Byte} {e : Bool} (h : Crypted E iv aad e inp ctx) (haligned : inp.length % 16 = 0)
    (hpos : 0 < data.length) (hlt : data.length < 16) :
    (startBlock ctx e data).2 = xorFrom (keyBytes E iv) inp.length data ∧
    Crypted E iv aad e (inp ++ data) (startBlock ctx e data).1 := by
  have hfresh := fresh_buffered h haligned
  rw [startBlock]
  generalize hrun : ctx.run ctx.j01 ctx.jc (List.replicate 16 0) = r at hfresh ⊢
  obtain ⟨jc, buf⟩ := r
  simp only [] at hfresh ⊢
  have hlen : (inp ++ data).length = inp.length + data.length := List.length_append
  obtain ⟨hout, -⟩ := @cryptBuf_eq E iv { ctx with jc, buf } e inp data hfresh (by omega)
  have hbuffered := @cryptBuf_buffered E iv { ctx with jc, buf } e inp data hfresh (by omega)
  rw [haligned] at hout hbuffered
  refine ⟨hout, ⟨h.computes, h.h, h.nonce, hbuffered.length, h.y⟩, ?_, h.countAad, ?_, ?_, fun _ => hbuffered⟩
  · rw [run_eq h.toKeyed, h.jc] at hrun
    obtain ⟨hjc, -⟩ := Prod.mk.inj hrun
    show jc = ctx.j02 + 1 + _
    rw [← hjc, BitVec.add_assoc _ (BitVec.ofNat 32 _), ← BitVec.ofNat_add, hlen, List.length_replicate,
      show (inp.length + 15) / 16 + 16 / 16 = (inp.length + data.length + 15) / 16 by omega]
  · show ctx.countCtr + _ = _
    rw [h.countCtr, ofNat_add_length]
  · have hshort : (leftover 16 (encrypted E iv e 0 inp) ++ encrypted E iv e inp.length data).length < 16 := by
      rw [List.length_append, length_leftover, length_encrypted, length_encrypted]
      omega
    rw [encrypted_append, Nat.zero_add, Hashed, absorb_append (by decide), absorb_of_lt hshort]
    exact h.hashed

/-- The data at the start of a block: whole blocks, and the start of one more. -/
theorem runBlocks_crypted {aad inp : List Byte} {e : Bool} (h : Crypted E iv aad e inp ctx) (haligned : inp.length % 16 = 0)
    (data : List Byte) :
    (runBlocks ctx e data).2 = xorFrom (keyBytes E iv) inp.length data ∧
    Crypted E iv aad e (inp ++ data) (runBlocks ctx e data).1 := by
  generalize hwhole : data.take (data.length / 16 * 16) = whole
  generalize hrest : data.drop (data.length / 16 * 16) = rest
  have hdata : data = whole ++ rest := by rw [← hwhole, ← hrest, List.take_append_drop]
  have hwlen : whole.length % 16 = 0 := by rw [← hwhole, List.length_take]; omega
  have hrlen : rest.length < 16 := by rw [← hrest, List.length_drop]; omega
  obtain ⟨hout, hmid⟩ := runWhole_crypted h haligned hwlen
  rw [runBlocks, hwhole, hrest]
  generalize runWhole ctx e whole = r at hout hmid ⊢
  obtain ⟨ctx', out⟩ := r
  simp only [] at hout hmid ⊢
  split
  · rename_i hpos
    obtain ⟨hrestOut, hall⟩ := startBlock_crypted hmid (by rw [List.length_append]; omega) hpos hrlen
    rw [hdata, ← List.append_assoc, Gcm.xorFrom_append, ← hout, ← List.length_append, ← hrestOut]
    exact ⟨rfl, hall⟩
  · rename_i hzero
    have hnil : rest = [] := List.eq_nil_of_length_eq_zero (by omega)
    rw [hdata, hnil, List.append_nil]
    exact ⟨hout, hmid⟩

/-- A piece of the data: it comes out with the key stream from its place on. -/
theorem run_crypted {aad inp : List Byte} {e : Bool} (h : Crypted E iv aad e inp ctx) (data : List Byte) :
    (brGcmRun ctx e data).2 = xorFrom (keyBytes E iv) inp.length data ∧
    Crypted E iv aad e (inp ++ data) (brGcmRun ctx e data).1 := by
  have hptr := toNat_and_15 inp.length
  rw [← h.countCtr] at hptr
  rw [brGcmRun, hptr]
  split
  · rename_i hne
    have hbuffered := h.buffered hne
    generalize hclen : (if data.length < 16 - inp.length % 16 then data.length else 16 - inp.length % 16) = clen
    have hfirst : (data.take clen).length = clen := by
      rw [List.length_take, ← hclen]
      split <;> omega
    have hle : inp.length % 16 + (data.take clen).length ≤ 16 := by
      rw [hfirst, ← hclen]
      split <;> omega
    obtain ⟨hout, hbuf⟩ := cryptBuf_eq hbuffered hle
    have hcount : ctx.countCtr + BitVec.ofNat 64 (data.take clen).length = BitVec.ofNat 64 (inp ++ data.take clen).length := by
      rw [h.countCtr, ofNat_add_length]
    simp only []
    split
    · rename_i hshort
      -- the block is not full: these are all the data
      have hall : data.take clen = data := List.take_of_length_le (by split at hclen <;> omega)
      rw [hall] at hout hbuf hcount hfirst ⊢
      have hnext := @cryptBuf_buffered E iv ctx e inp data hbuffered (by omega)
      have hlen : (inp ++ data).length = inp.length + data.length := List.length_append
      have hnone : (leftover 16 (encrypted E iv e 0 inp) ++ encrypted E iv e inp.length data).length < 16 := by
        rw [List.length_append, length_leftover, length_encrypted, length_encrypted]
        omega
      refine ⟨hout, ⟨h.computes, h.h, h.nonce, hnext.length, h.y⟩, ?_, h.countAad, hcount, ?_, fun _ => hnext⟩
      · show ctx.jc = ctx.j02 + 1 + _
        rw [h.jc, hlen, show (inp.length + data.length + 15) / 16 = (inp.length + 15) / 16 by omega]
      · rw [encrypted_append, Nat.zero_add, Hashed, absorb_append (by decide), absorb_of_lt hnone]
        exact h.hashed
    · rename_i hfull
      have hclen16 : inp.length % 16 + clen = 16 := by omega
      have hmod : (inp ++ data.take clen).length % 16 = 0 := by rw [List.length_append, hfirst]; omega
      have hbuf16 := hbuffered.length
      rw [hfirst, hclen16, List.drop_of_length_le (by omega), List.append_nil] at hbuf
      have hlen16 : (cryptBuf ctx e (inp.length % 16) (data.take clen)).1.buf.length = 16 := by
        rw [hbuf, List.length_append, length_leftover, length_encrypted, length_encrypted, hfirst, hclen16]
      have hblock := hashed_block h.toKeyed h.hashed hbuf hlen16
      have hmid : Crypted E iv aad e (inp ++ data.take clen)
          { (cryptBuf ctx e (inp.length % 16) (data.take clen)).1 with
            y := ctx.gh ctx.y ctx.h (cryptBuf ctx e (inp.length % 16) (data.take clen)).1.buf } := by
        refine ⟨⟨h.computes, h.h, h.nonce, hlen16, (gh_eq h.toKeyed h.y _).1⟩, ?_, h.countAad, hcount, ?_, fun hne' => absurd hmod hne'⟩
        · show ctx.jc = ctx.j02 + 1 + _
          rw [h.jc, List.length_append, hfirst, show (inp.length + clen + 15) / 16 = (inp.length + 15) / 16 by omega]
        · rw [encrypted_append, Nat.zero_add]
          exact hblock
      obtain ⟨hrest, hall⟩ := runBlocks_crypted hmid hmod (data.drop clen)
      rw [List.append_assoc, List.take_append_drop] at hall
      refine ⟨?_, hall⟩
      refine (congrArg₂ (· ++ ·) hout hrest).trans ?_
      rw [List.length_append, ← Gcm.xorFrom_append, List.take_append_drop]
  · exact runBlocks_crypted h (by omega) data

/-! ## The tag -/

theorem ofNat_shiftLeft_three (n : Nat) : BitVec.ofNat 64 n <<< 3 = BitVec.ofNat 64 (8 * n) := by
  apply BitVec.eq_of_toNat_eq
  rw [BitVec.toNat_shiftLeft, BitVec.toNat_ofNat, BitVec.toNat_ofNat, Nat.shiftLeft_eq]
  omega

theorem lengths_eq (aad data : List Byte) :
    brEnc64be (BitVec.ofNat 64 aad.length <<< 3) ++ brEnc64be (BitVec.ofNat 64 data.length <<< 3) =
      beBytes (BitVec.ofNat 64 (8 * aad.length)) ++ beBytes (BitVec.ofNat 64 (8 * data.length)) := by
  rw [Sha256.brEnc64be_eq, Sha256.brEnc64be_eq, ofNat_shiftLeft_three, ofNat_shiftLeft_three]

theorem getTag_eq {aad inp : List Byte} {e : Bool} (h : Crypted E iv aad e inp ctx) :
    brGcmGetTag ctx = Gcm.tag E iv aad (encrypted E iv e 0 inp) := by
  have hptr := toNat_and_15 inp.length
  rw [← h.countCtr] at hptr
  have hhash : ∃ y, (if inp.length % 16 > 0 then ctx.gh ctx.y ctx.h (ctx.buf.take (inp.length % 16)) else ctx.y) = y ∧ y.length = 16 ∧
      block y = Gf128.ghash (hashKey E) 0 (blocks aad ++ blocks (encrypted E iv e 0 inp)) := by
    rw [Gf128.ghash_append, Gcm.ghash_blocks, ← h.hashed]
    split
    · have hgh := gh_eq h.toKeyed h.y (ctx.buf.take (inp.length % 16))
      refine ⟨_, rfl, hgh.1, ?_⟩
      rw [hgh.2, (h.buffered (by omega)).front]
    · have hnil : leftover 16 (encrypted E iv e 0 inp) = [] :=
        List.eq_nil_of_length_eq_zero (by rw [length_leftover, length_encrypted]; omega)
      refine ⟨_, rfl, h.y, ?_⟩
      rw [hnil, Gcm.blocks_nil]
      rfl
  obtain ⟨y, hy, hylen, hyblock⟩ := hhash
  have hj02 : ctx.j02 = (j0 E iv).2 := congrArg Prod.snd h.nonce
  have hcounts : brEnc64be (ctx.countAad <<< 3) ++ brEnc64be (ctx.countCtr <<< 3) =
      beBytes (BitVec.ofNat 64 (8 * aad.length)) ++ beBytes (BitVec.ofNat 64 (8 * (encrypted E iv e 0 inp).length)) := by
    rw [h.countAad, h.countCtr, lengths_eq, length_encrypted]
  have hlast := gh_eq h.toKeyed hylen (brEnc64be (ctx.countAad <<< 3) ++ brEnc64be (ctx.countCtr <<< 3))
  have hbytes : ctx.gh y ctx.h (brEnc64be (ctx.countAad <<< 3) ++ brEnc64be (ctx.countCtr <<< 3)) =
      blockBytes (Gf128.ghash (hashKey E) 0 (blocks aad ++ blocks (encrypted E iv e 0 inp) ++ [Gcm.lengths aad (encrypted E iv e 0 inp)])) := by
    have hone : blocks (beBytes (BitVec.ofNat 64 (8 * aad.length)) ++ beBytes (BitVec.ofNat 64 (8 * (encrypted E iv e 0 inp).length))) =
        [Gcm.lengths aad (encrypted E iv e 0 inp)] := Gcm.blocks_one (by simp)
    rw [← Gcm.blockBytes_block hlast.1, hlast.2, hyblock, ← Gf128.ghash_append, hcounts, hone]
  rw [brGcmGetTag, hptr, hy, run_eq h.toKeyed, hj02, hbytes, Gcm.tag]

/-! ## A key and a nonce -/

theorem block_zeros : block (List.replicate 16 0) = 0 := by decide

/-- The hash key is the block of zeros, encrypted. -/
theorem init_hashKey {run : (iv : List Byte) → (cc : BitVec 32) → (data : List Byte) → BitVec 32 × List Byte}
    {gh : (y h data : List Byte) → List Byte} (hc : Computes E run gh) :
    (run (List.replicate 12 0) 0 (List.replicate 16 0)).2.length = 16 ∧
    block (run (List.replicate 12 0) 0 (List.replicate 16 0)).2 = hashKey E := by
  have hrun : (run (List.replicate 12 0) 0 (List.replicate 16 0)).2 = E (counterBlock (List.replicate 12 0) 0) := by
    rw [hc.run _ _ _ (List.length_replicate ..)]
    exact Gcm.ctr_zeros hc.cipher ..
  rw [hrun]
  exact ⟨hc.cipher _, rfl⟩

theorem resetJ0_eq (hc : Computes E ctx.run ctx.gh) (hh : ctx.h.length = 16 ∧ block ctx.h = hashKey E) (iv : List Byte) :
    ((resetJ0 ctx iv).j01, (resetJ0 ctx iv).j02) = j0 E iv := by
  rw [resetJ0, j0]
  split
  · rfl
  · -- the nonce is hashed, with its length behind it
    have hfirst := hc.gh (List.replicate 16 0) ctx.h iv (List.length_replicate ..) hh.1
    have hlast := hc.gh _ ctx.h (List.replicate 8 (0 : Byte) ++ brEnc64be (BitVec.ofNat 64 iv.length <<< 3)) hfirst.1 hh.1
    simp only []
    generalize ctx.gh (ctx.gh (List.replicate 16 0) ctx.h iv) ctx.h
      (List.replicate 8 (0 : Byte) ++ brEnc64be (BitVec.ofNat 64 iv.length <<< 3)) = ty at hlast ⊢
    have hone : blocks (List.replicate 8 (0 : Byte) ++ beBytes (BitVec.ofNat 64 (8 * iv.length))) =
        [block (List.replicate 8 (0 : Byte) ++ beBytes (BitVec.ofNat 64 (8 * iv.length)))] := Gcm.blocks_one (by simp)
    have hty : ty = blockBytes (Gf128.ghash (hashKey E) 0
        (blocks iv ++ [block (List.replicate 8 (0 : Byte) ++ beBytes (BitVec.ofNat 64 (8 * iv.length)))])) := by
      rw [← Gcm.blockBytes_block hlast.1, hlast.2, hfirst.2, hh.2, block_zeros, Sha256.brEnc64be_eq, ofNat_shiftLeft_three, hone,
        ← Gf128.ghash_append]
    have hword : brDec32be ty 12 = BitVec.ofNat 32 (beNat (ty.drop 12)) := by
      rw [Sha256.brDec32be_eq (by omega), Sha2.beWord, List.take_of_length_le (by rw [List.length_drop]; omega)]
    rw [hword, hty]

/-- `br_gcm_init` and `br_gcm_reset`: nothing was injected. -/
theorem reset_injected {gcmCtx : GcmContext} {run : (iv : List Byte) → (cc : BitVec 32) → (data : List Byte) → BitVec 32 × List Byte}
    {gh : (y h data : List Byte) → List Byte} (hc : Computes E run gh) (hbuf : gcmCtx.buf.length = 16) (iv : List Byte) :
    Injected E iv [] (brGcmReset (brGcmInit gcmCtx run gh) iv) := by
  have hh := init_hashKey hc
  have hnonce := @resetJ0_eq E (brGcmInit gcmCtx run gh) hc hh iv
  have hsame : (resetJ0 (brGcmInit gcmCtx run gh) iv).run = run ∧ (resetJ0 (brGcmInit gcmCtx run gh) iv).gh = gh ∧
      (resetJ0 (brGcmInit gcmCtx run gh) iv).h = (run (List.replicate 12 0) 0 (List.replicate 16 0)).2 ∧
      (resetJ0 (brGcmInit gcmCtx run gh) iv).buf = gcmCtx.buf := by
    rw [resetJ0]
    split <;> exact ⟨rfl, rfl, rfl, rfl⟩
  obtain ⟨hrun, hgh, hkey, hbuf'⟩ := hsame
  refine ⟨⟨?_, ?_, hnonce, ?_, List.length_replicate ..⟩, rfl, rfl, rfl, ?_, ?_⟩
  · show Computes E (resetJ0 _ iv).run (resetJ0 _ iv).gh
    rw [hrun, hgh]
    exact hc
  · show (resetJ0 _ iv).h.length = 16 ∧ block (resetJ0 _ iv).h = _
    rw [hkey]
    exact hh
  · show (resetJ0 _ iv).buf.length = 16
    rw [hbuf', hbuf]
  · show block (List.replicate 16 0) = _
    rw [absorb_of_lt (by decide), block_zeros]
  · exact (leftover_of_lt (show ([] : List Byte).length < 16 by decide)).symm

/-! ## Pieces -/

/-- Pieces of any lengths. -/
def runAll (e : Bool) (ctx : GcmContext) : (pieces : List (List Byte)) → GcmContext × List (List Byte)
  | [] => (ctx, [])
  | data :: pieces =>
    let (ctx, out) := brGcmRun ctx e data
    let (ctx, outs) := runAll e ctx pieces
    (ctx, out :: outs)

theorem injectAll_injected {aad : List Byte} (pieces : List (List Byte)) (h : Injected E iv aad ctx) :
    Injected E iv (aad ++ pieces.flatten) (pieces.foldl brGcmAadInject ctx) := by
  induction pieces generalizing aad ctx with
  | nil => rwa [List.flatten_nil, List.append_nil]
  | cons data pieces ih =>
    rw [List.flatten_cons, ← List.append_assoc]
    exact ih (aadInject_injected h data)

theorem runAll_crypted {aad inp : List Byte} {e : Bool} (pieces : List (List Byte)) (h : Crypted E iv aad e inp ctx) :
    (runAll e ctx pieces).2.flatten = xorFrom (keyBytes E iv) inp.length pieces.flatten ∧
    Crypted E iv aad e (inp ++ pieces.flatten) (runAll e ctx pieces).1 := by
  induction pieces generalizing inp ctx with
  | nil =>
    rw [List.flatten_nil, List.append_nil]
    exact ⟨rfl, h⟩
  | cons data pieces ih =>
    obtain ⟨hout, hnext⟩ := run_crypted h data
    obtain ⟨houts, hall⟩ := ih hnext
    rw [List.append_assoc, ← List.flatten_cons] at hall
    refine ⟨?_, hall⟩
    rw [List.flatten_cons, Gcm.xorFrom_append, ← hout, ← List.length_append, ← houts]
    rfl

end Context

theorem computes_aesNi (aesCtx : AesNi.CtrKeys) (key : Key) :
    Computes (Aes.cipher key.1) (AesNi.brAesX86niCtrRun (AesNi.brAesX86niCtrInit aesCtx key.1)) Ghash.brGhashPclmul where
  cipher := AesNi.length_cipher key.1
  run := fun _ cc data hiv => AesNi.brAesX86niCtrRun_eq (.inr (.inr key.2)) aesCtx hiv cc data
  gh := fun _ _ data hy hh => Ghash.brGhashPclmul_eq hy hh data

def blankContext : GcmContext := ⟨fun _ cc data => (cc, data), fun y _ _ => y, [], [], 0, List.replicate 16 0, [], 0, 0, 0⟩

/-- Pieces of the associated data and of the data, of any number and lengths: the outputs are the standard's for all of
it at once, and so is the tag. -/
theorem pieces_standard {E : List Byte → List Byte} {run : (iv : List Byte) → (cc : BitVec 32) → (data : List Byte) → BitVec 32 × List Byte}
    {gh : (y h data : List Byte) → List Byte} (hc : Computes E run gh) {gcmCtx : GcmContext} (hbuf : gcmCtx.buf.length = 16)
    (iv : List Byte) (aads pieces : List (List Byte)) (encrypt : Bool) :
    let ctx := brGcmFlip (aads.foldl brGcmAadInject (brGcmReset (brGcmInit gcmCtx run gh) iv))
    (runAll encrypt ctx pieces).2.flatten = Gcm.crypt E iv pieces.flatten ∧
    brGcmGetTag (runAll encrypt ctx pieces).1 =
      Gcm.tag E iv aads.flatten (if encrypt then Gcm.crypt E iv pieces.flatten else pieces.flatten) := by
  have hinjected := injectAll_injected aads (reset_injected hc hbuf iv)
  obtain ⟨hout, hall⟩ := runAll_crypted pieces (flip_crypted hinjected encrypt)
  exact ⟨hout, getTag_eq hall⟩

/-- Three bytes in two pieces, and two of associated data. -/
theorem pieces_standard_two :
    let E := Aes.cipher (List.replicate 32 7)
    let iv : List Byte := List.replicate 12 5
    let ctx := brGcmInit blankContext (AesNi.brAesX86niCtrRun (AesNi.brAesX86niCtrInit ⟨0, []⟩ (List.replicate 32 7)))
      Ghash.brGhashPclmul
    let done := runAll true (brGcmFlip (brGcmAadInject (brGcmAadInject (brGcmReset ctx iv) [8]) [9])) [[1], [2, 3]]
    done.2.flatten = Gcm.crypt E iv [1, 2, 3] ∧ brGcmGetTag done.1 = Gcm.tag E iv [8, 9] (Gcm.crypt E iv [1, 2, 3]) :=
  @pieces_standard _ _ _ (computes_aesNi ⟨0, []⟩ ⟨List.replicate 32 7, rfl⟩) blankContext rfl (List.replicate 12 5) [[8], [9]]
    [[1], [2, 3]] true

/-! ## The enclave's functions -/

theorem eq0_ne_zero (q : BitVec 32) : eq0 q ≠ 0 ↔ q = 0 := by
  constructor
  · intro h
    by_contra hq
    have hq : q ≠ 0#32 := hq
    -- one of a number and its negative has the top bit
    have hmsb : (q ||| -q).msb = true := by
      rw [BitVec.msb_or, BitVec.msb_neg]
      cases hm : q.msb
      · have hmin : q ≠ BitVec.intMin 32 := by
          rintro rfl
          exact absurd hm (by decide)
        simp [hq, hmin]
      · rfl
    apply h
    have htop := BitVec.msb_eq_true_iff_two_mul_ge.mp hmsb
    apply BitVec.eq_of_toNat_eq
    rw [eq0, BitVec.toNat_ushiftRight, BitVec.toNat_not, Nat.shiftRight_eq_div_pow]
    have hlt := (q ||| -q).isLt
    show _ = 0
    omega
  · rintro rfl
    decide

theorem foldl_or_eq_zero (f : Nat → BitVec 32) (us : List Nat) (x : BitVec 32) :
    us.foldl (fun x u => x ||| f u) x = 0 ↔ x = 0 ∧ ∀ u ∈ us, f u = 0 := by
  induction us generalizing x with
  | nil => simp
  | cons u us ih =>
    rw [List.foldl_cons, ih, List.forall_mem_cons, ← and_assoc]
    exact and_congr_left fun _ => BitVec.or_eq_zero_iff

theorem checkTag_eq {ctx : GcmContext} (hlen : (brGcmGetTag ctx).length = 16) {mac : List Byte} (hmac : mac.length = 16) :
    brGcmCheckTag ctx mac ≠ 0 ↔ brGcmGetTag ctx = mac := by
  have hbyte : ∀ a b : Byte, (a ^^^ b).setWidth 32 = 0 ↔ a = b := by
    intro a b
    have hxor : a ^^^ b = 0#8 ↔ a = b := BitVec.xor_eq_zero_iff
    rw [← hxor]
    refine ⟨fun h => BitVec.eq_of_toNat_eq ?_, fun h => by rw [h]; rfl⟩
    have hnat := congrArg BitVec.toNat h
    rwa [BitVec.toNat_setWidth, Nat.mod_eq_of_lt (Nat.lt_of_lt_of_le (a ^^^ b).isLt (by decide))] at hnat
  rw [brGcmCheckTag, brGcmCheckTagTrunc, eq0_ne_zero, foldl_or_eq_zero]
  constructor
  · rintro ⟨-, hall⟩
    apply List.ext_getElem (by rw [hlen, hmac])
    intro i hi hi'
    have heq := (hbyte _ _).mp (hall i (List.mem_range.mpr (by omega)))
    rwa [List.getD_eq_getElem _ _ hi, List.getD_eq_getElem _ _ hi'] at heq
  · intro heq
    rw [heq]
    exact ⟨rfl, fun u _ => (hbyte _ _).mpr rfl⟩

/-- AES-256-GCM, as the standards have it. -/
def aesGcm : Aead Key Iv Mac := Gcm.aead (fun key => Aes.cipher key.1) (fun iv => iv.1)

theorem start_crypted (aesCtx : AesNi.CtrKeys) {gcmCtx : GcmContext} (hbuf : gcmCtx.buf.length = 16) (key : Key) (iv : Iv)
    (aad : List Byte) (encrypt : Bool) :
    Crypted (Aes.cipher key.1) iv.1 aad encrypt [] (sgxsdAesGcmStart aesCtx gcmCtx key iv aad aad.length) := by
  have hreset := reset_injected (computes_aesNi aesCtx key) hbuf iv.1
  apply flip_crypted
  split
  · exact aadInject_injected hreset aad
  · rename_i hzero
    rw [List.eq_nil_of_length_eq_zero (not_not.mp hzero)]
    exact hreset

/-- The context when the data is in, and the output. Without data there is no run. -/
theorem data_crypted {E : List Byte → List Byte} {iv aad : List Byte} {encrypt : Bool} {ctx : GcmContext}
    (h : Crypted E iv aad encrypt [] ctx) (src : List Byte) {pDst : Option (List Byte)} (hdst : ∀ dst ∈ pDst, dst.length = src.length)
    (hnull : pDst = none → src = []) :
    ∃ ctx', (if src.length ≠ 0 then ((brGcmRun ctx encrypt src).1, some (brGcmRun ctx encrypt src).2) else (ctx, pDst)) =
      (ctx', pDst.map fun _ => Gcm.crypt E iv src) ∧ Crypted E iv aad encrypt src ctx' := by
  split
  · rename_i hne
    obtain ⟨hout, hall⟩ := run_crypted h src
    refine ⟨_, ?_, hall⟩
    cases pDst with
    | none => exact absurd (by rw [hnull rfl]; rfl) hne
    | some dst =>
      rw [hout]
      rfl
  · rename_i hzero
    have hnil := List.eq_nil_of_length_eq_zero (not_not.mp hzero)
    subst hnil
    refine ⟨ctx, ?_, h⟩
    cases pDst with
    | none => rfl
    | some dst =>
      rw [List.eq_nil_of_length_eq_zero (hdst dst rfl)]
      rfl

/-- With its pointers in place `sgxsd_aes_gcm_run` encrypts as the standards have it, and decrypts what has the tag. Where
the tag is another one, the output is zeros. -/
theorem sgxsdAesGcmRun_standard (aesCtx : AesNi.CtrKeys) {gcmCtx : GcmContext} (hbuf : gcmCtx.buf.length = 16) (key : Key) (iv : Iv)
    (pSrc pDst pAad : Option (List Byte)) (mac : Mac) (hdst : ∀ dst ∈ pDst, dst.length = (pSrc.getD []).length)
    (hnull : pDst = none → pSrc.getD [] = []) :
    let run := fun encrypt => sgxsdAesGcmRun aesCtx gcmCtx encrypt (some key) pSrc (pSrc.getD []).length pDst (some iv) pAad
      (pAad.getD []).length (some mac.1)
    run true =
      (let (data, mac) := aesGcm.encrypt key iv (pAad.getD []) (pSrc.getD [])
       ⟨.ok (), pDst.map fun _ => data, some mac.1⟩) ∧
    run false =
      (match aesGcm.decrypt key iv (pAad.getD []) (pSrc.getD []) mac with
       | some data => ⟨.ok (), pDst.map fun _ => data, some mac.1⟩
       | none => ⟨.error .macMismatch, pDst.map fun _ => List.replicate (pSrc.getD []).length 0, some mac.1⟩) := by
  have hvalid : ¬(((pSrc.isNone ∨ pDst.isNone) ∧ (pSrc.getD []).length ≠ 0) ∨ (pAad.isNone ∧ (pAad.getD []).length ≠ 0)) := by
    rintro (⟨hsrc | hd, hne⟩ | ⟨haad, hne⟩)
    · rw [Option.isNone_iff_eq_none.mp hsrc] at hne
      exact hne rfl
    · rw [hnull (Option.isNone_iff_eq_none.mp hd)] at hne
      exact hne rfl
    · rw [Option.isNone_iff_eq_none.mp haad] at hne
      exact hne rfl
  intro run
  refine ⟨?_, ?_⟩
  · obtain ⟨ctx, hdata, hall⟩ := data_crypted (start_crypted aesCtx hbuf key iv (pAad.getD []) true) _ hdst hnull
    have htag := getTag_eq hall
    show sgxsdAesGcmRun aesCtx gcmCtx true (some key) pSrc _ pDst (some iv) pAad _ (some mac.1) = _
    simp only [sgxsdAesGcmRun, if_neg hvalid, hdata, htag]
    rfl
  · obtain ⟨ctx, hdata, hall⟩ := data_crypted (start_crypted aesCtx hbuf key iv (pAad.getD []) false) _ hdst hnull
    have htag := getTag_eq hall
    have hcheck := checkTag_eq (by rw [htag, Gcm.length_tag]) mac.2
    show sgxsdAesGcmRun aesCtx gcmCtx false (some key) pSrc _ pDst (some iv) pAad _ (some mac.1) = _
    simp only [sgxsdAesGcmRun, if_neg hvalid, hdata]
    by_cases heq : brGcmGetTag ctx = mac.1
    · have hdecrypt : aesGcm.decrypt key iv (pAad.getD []) (pSrc.getD []) mac = some (Gcm.crypt (Aes.cipher key.1) iv.1 (pSrc.getD [])) :=
        if_pos (htag.symm.trans heq)
      rw [if_pos (hcheck.mpr heq), hdecrypt]
      rfl
    · have hdecrypt : aesGcm.decrypt key iv (pAad.getD []) (pSrc.getD []) mac = none := if_neg fun h => heq (htag.trans h)
      rw [if_neg fun h => heq (hcheck.mp h), hdecrypt, Option.map_map]
      rfl

/-- Three bytes, with no associated data, are encrypted, and what comes out is decrypted to them. -/
theorem sgxsdAesGcmRun_standard_three :
    let key : Key := ⟨List.replicate 32 7, rfl⟩
    let iv : Iv := ⟨List.replicate 12 5, rfl⟩
    let (data, mac) := aesGcm.encrypt key iv [] [1, 2, 3]
    sgxsdAesGcmRun ⟨0, []⟩ blankContext true (some key) (some [1, 2, 3]) 3 (some [0, 0, 0]) (some iv) none 0
        (some (List.replicate 16 0)) = ⟨.ok (), some data, some mac.1⟩ ∧
      sgxsdAesGcmRun ⟨0, []⟩ blankContext false (some key) (some data) data.length (some [0, 0, 0]) (some iv) none 0
        (some mac.1) = ⟨.ok (), some [1, 2, 3], some mac.1⟩ := by
  intro key iv
  have hlength : (aesGcm.encrypt key iv [] [1, 2, 3]).1.length = 3 := aesGcm.length_encrypt _ _ _ _
  have hencrypt := (@sgxsdAesGcmRun_standard ⟨0, []⟩ blankContext rfl key iv (some [1, 2, 3]) (some [0, 0, 0]) none
    ⟨List.replicate 16 0, rfl⟩ (by simp) (by simp)).1
  have hdecrypt := (@sgxsdAesGcmRun_standard ⟨0, []⟩ blankContext rfl key iv
    (some (aesGcm.encrypt key iv [] [1, 2, 3]).1) (some [0, 0, 0]) none (aesGcm.encrypt key iv [] [1, 2, 3]).2
    (by rintro _ ⟨⟩; exact hlength.symm) (by simp)).2
  simp only [Option.getD_some, Option.getD_none, aesGcm.decrypt_encrypt] at hdecrypt
  exact ⟨hencrypt, hdecrypt⟩

end ContactDiscovery.Enclave.AesGcm
