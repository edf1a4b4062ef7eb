/-
  ContactDiscovery.Enclave.RequestKeys — the enclave's key derivation (`sgxsd_enclave_sha256`,
  `_hmac_sha256`, `_ra_hkdf_round`, `_derive_request_keys` in `sgxsd-enclave.c`).

  The C functions take pointers, and a round of the derivation has its HMAC write over the buffer
  that it reads. So a buffer is here a function that reads a memory `μ`, and the place of a result
  (`HashCell`) one to read and write in it: each hash reads its buffers in the memory it finds, then
  writes. SHA-256 is a parameter, of the bytes of all buffers in turn.

  Proved: the overwriting does no harm, each function computes HMAC and HKDF as `Lib.Crypt` has them
  (`enclaveHmacSha256_eq`, `deriveRequestKeys_eq`, `requestPrk_eq`).
-/

import ContactDiscovery.Enclave.PendingRequests
import ContactDiscovery.Lib.Crypt

namespace ContactDiscovery.Enclave

open Lib Lib.Crypt
open PendingRequests (Prk PendingRequest)

/-- `sgxsd_aes_gcm_key_t`. -/
abbrev Key := Bytes 32

/-- `sgxsd_sha256_hash_t.data`. -/
def hashBytes (h : Prk) : Bytes 32 := ⟨(List.range 32).map fun i => h.extractLsb' (8 * i) 8, by simp⟩

namespace RequestKeys

structure HashCell (μ : Type) where
  get : μ → Prk
  set : Prk → μ → μ
  get_set : ∀ h m, get (set h m) = h
  set_set : ∀ h h' m, set h (set h' m) = set h m

/-- `sgxsd_sha256_buf_t`: the bytes it points to. -/
abbrev Buf (μ : Type) := μ → List Byte

def HashCell.var : HashCell Prk := ⟨id, fun h _ => h, fun _ _ => rfl, fun _ _ _ => rfl⟩

structure RaHkdfBuf where
  tN : Prk
  n : Byte

def RaHkdfBuf.cell : HashCell RaHkdfBuf :=
  ⟨RaHkdfBuf.tN, fun h buf => { buf with tN := h }, fun _ _ => rfl, fun _ _ _ => rfl⟩

section Derivation

variable (sha256 : List Byte → Prk) {μ : Type}

def enclaveSha256 (hash : HashCell μ) (bufs : List (Buf μ)) (m : μ) : μ :=
  hash.set (sha256 (bufs.foldl (fun context buf => context ++ buf m) [])) m

/-- `keyBuf` is `bufs[0]`. -/
def enclaveHmacSha256 (hash : HashCell μ) (keyBuf : Buf μ) (bufs : List (Buf μ)) (m : μ) : μ :=
  let key := if (keyBuf m).length > 64 then (hashBytes (sha256 (keyBuf m))).1 else keyBuf m
  let iKeyPad := xorPad (List.replicate 64 0x36) key
  let oKeyPad := xorPad (List.replicate 64 0x5c) key
  -- the first hash may overwrite a buffer of `bufs`, the second overwrites one of its own
  let m := enclaveSha256 sha256 hash ((fun _ => iKeyPad) :: bufs) m
  enclaveSha256 sha256 hash [fun _ => oKeyPad, fun m => (hashBytes (hash.get m)).1] m

def raHkdfRound (prk : Prk) (buf : RaHkdfBuf) : RaHkdfBuf :=
  let buf := { buf with n := buf.n + 1 }
  let hmacDataBuf : Buf RaHkdfBuf := if buf.n = 1 then fun b => [b.n] else fun b => (hashBytes b.tN).1 ++ [b.n]
  enclaveHmacSha256 sha256 RaHkdfBuf.cell (fun _ => (hashBytes prk).1) [hmacDataBuf] buf

/-- The client's key and the server's. -/
def deriveRequestKeys (r : PendingRequest) : Key × Key :=
  let buf := raHkdfRound sha256 r.hkdfPrk ⟨0, 0⟩
  let clientKey := hashBytes buf.tN
  let buf := raHkdfRound sha256 r.hkdfPrk buf
  (clientKey, hashBytes buf.tN)

/-- The key that `sgxsd_enclave_negotiate_request` keeps: the salt is hashed first, and is then the
    key of an HMAC of the shared secrets. -/
def requestPrk (clientPubkey ephemeralPubkey staticPubkey ephemeralDhKey staticDhKey : Bytes 32) : Prk :=
  let hkdfSalt := enclaveSha256 sha256 .var [fun _ => clientPubkey.1, fun _ => ephemeralPubkey.1, fun _ => staticPubkey.1] 0
  enclaveHmacSha256 sha256 .var (fun _ => (hashBytes hkdfSalt).1) [fun _ => ephemeralDhKey.1, fun _ => staticDhKey.1] 0

/-! ## What it computes -/

def shaBytes (d : List Byte) : List Byte := (hashBytes (sha256 d)).1

variable {sha256}

@[simp] theorem length_shaBytes (d : List Byte) : (shaBytes sha256 d).length = 32 := (hashBytes (sha256 d)).2

theorem enclaveSha256_eq (hash : HashCell μ) (bufs : List (Buf μ)) (m : μ) :
    enclaveSha256 sha256 hash bufs m = hash.set (sha256 (bufs.flatMap fun buf => buf m)) m := by
  have hfold : ∀ (bufs : List (Buf μ)) (context : List Byte),
      bufs.foldl (fun context buf => context ++ buf m) context = context ++ bufs.flatMap fun buf => buf m := by
    intro bufs
    induction bufs with
    | nil => intro context; simp
    | cons buf bufs ih => intro context; rw [List.foldl_cons, ih, List.flatMap_cons, List.append_assoc]
  rw [enclaveSha256, hfold, List.nil_append]

/-- Wherever the result is written, it is the HMAC of what the buffers had before. -/
theorem enclaveHmacSha256_eq (hash : HashCell μ) (keyBuf : Buf μ) (bufs : List (Buf μ)) (m : μ) :
    ∃ h, enclaveHmacSha256 sha256 hash keyBuf bufs m = hash.set h m ∧
      (hashBytes h).1 = hmac (shaBytes sha256) 64 (keyBuf m) (bufs.flatMap fun buf => buf m) := by
  have hkey : (if (keyBuf m).length > 64 then (hashBytes (sha256 (keyBuf m))).1 else keyBuf m) =
      shortKey (shaBytes sha256) 64 (keyBuf m) := rfl
  have hlen : (shortKey (shaBytes sha256) 64 (keyBuf m)).length ≤ 64 := by
    rw [shortKey]
    split
    · rw [length_shaBytes]; omega
    · omega
  simp only [enclaveHmacSha256, hkey, xorPad_eq _ hlen, enclaveSha256_eq, List.flatMap_cons, List.flatMap_nil,
    List.append_nil, hash.get_set, hash.set_set]
  exact ⟨_, rfl, rfl⟩

/-- The data of the first round is the counter, that of a later one the last block and the counter. -/
theorem raHkdfRound_eq (prk : Prk) (buf : RaHkdfBuf) :
    ∃ h, raHkdfRound sha256 prk buf = ⟨h, buf.n + 1⟩ ∧
      (hashBytes h).1 = hmac (shaBytes sha256) 64 (hashBytes prk).1
        ((if buf.n + 1 = 1 then [] else (hashBytes buf.tN).1) ++ [buf.n + 1]) := by
  obtain ⟨h, hset, hbytes⟩ := @enclaveHmacSha256_eq sha256 _ RaHkdfBuf.cell (fun _ => (hashBytes prk).1)
    [if buf.n + 1 = 1 then fun b => [b.n] else fun b => (hashBytes b.tN).1 ++ [b.n]] { buf with n := buf.n + 1 }
  refine ⟨h, hset, ?_⟩
  rw [hbytes, List.flatMap_cons, List.flatMap_nil, List.append_nil]
  split <;> rfl

/-- The keys are the first two blocks of HKDF's output, with no info. -/
theorem deriveRequestKeys_eq (r : PendingRequest) :
    (deriveRequestKeys sha256 r).1.1 = okmBlock (shaBytes sha256) 64 (hashBytes r.hkdfPrk).1 [] 1 ∧
    (deriveRequestKeys sha256 r).2.1 = okmBlock (shaBytes sha256) 64 (hashBytes r.hkdfPrk).1 [] 2 := by
  obtain ⟨h₁, hround₁, hbytes₁⟩ := @raHkdfRound_eq sha256 r.hkdfPrk ⟨0, 0⟩
  obtain ⟨h₂, hround₂, hbytes₂⟩ := @raHkdfRound_eq sha256 r.hkdfPrk ⟨h₁, 1⟩
  have hone : (0 : Byte) + 1 = 1 := by decide
  have htwo : ((1 : Byte) + 1 = 1) = False := by decide
  simp only [hone, if_true, List.nil_append] at hround₁ hbytes₁
  simp only [htwo, if_false, hbytes₁] at hbytes₂
  simp only [deriveRequestKeys, hround₁, hround₂, hbytes₁, hbytes₂, okmBlock, List.nil_append, List.append_nil]
  exact ⟨rfl, rfl⟩

/-- Hashing the salt beforehand changes nothing: it is longer than a block. -/
theorem requestPrk_eq (clientPubkey ephemeralPubkey staticPubkey ephemeralDhKey staticDhKey : Bytes 32) :
    (hashBytes (requestPrk sha256 clientPubkey ephemeralPubkey staticPubkey ephemeralDhKey staticDhKey)).1 =
      extract (shaBytes sha256) 64 (clientPubkey.1 ++ ephemeralPubkey.1 ++ staticPubkey.1)
        (ephemeralDhKey.1 ++ staticDhKey.1) := by
  obtain ⟨salt, hsalt⟩ : ∃ salt, salt = clientPubkey.1 ++ ephemeralPubkey.1 ++ staticPubkey.1 := ⟨_, rfl⟩
  have hlen : 64 < salt.length := by
    rw [hsalt, List.length_append, List.length_append, clientPubkey.2, ephemeralPubkey.2, staticPubkey.2]
    omega
  obtain ⟨h, hset, hbytes⟩ := @enclaveHmacSha256_eq sha256 _ .var (fun _ => shaBytes sha256 salt)
    [fun _ => ephemeralDhKey.1, fun _ => staticDhKey.1] 0
  have hprk : requestPrk sha256 clientPubkey ephemeralPubkey staticPubkey ephemeralDhKey staticDhKey = h := by
    rw [requestPrk]
    simp only [enclaveSha256_eq, List.flatMap_cons, List.flatMap_nil, List.append_nil, ← List.append_assoc, ← hsalt]
    exact hset
  rw [hprk, hbytes, ← hsalt, extract, hmac_hashed_key _ hlen (by rw [length_shaBytes]; omega)]
  simp only [List.flatMap_cons, List.flatMap_nil, List.append_nil]

end Derivation

end RequestKeys

end ContactDiscovery.Enclave
