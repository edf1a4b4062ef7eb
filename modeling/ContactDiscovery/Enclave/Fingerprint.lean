/-
  ContactDiscovery.Enclave.Fingerprint — the rate limit fingerprint as the enclave computes it
  (`sgxsd_enclave_create_ratelimit_fingerprint`, with the `SHA256HMACContext` of `sgxsd_ffi`).

  One HMAC context gets the key and serves all phones of the request: it takes a phone, the first byte of
  its code goes to the caller's buffer, and it is reset. The size of the buffer is compared inside the
  loop, so that a buffer that is too small is full when the call fails.

  Proved: `ratelimitFingerprint_written`, the status is that of `Sgxsd.createRatelimitFingerprint`, and the
  buffer has one byte of HMAC-SHA256 for each phone that it has room for, nothing of a phone in the byte of
  another, and behind them what it had.
-/

import ContactDiscovery.Enclave.Node

namespace ContactDiscovery.Enclave.Fingerprint

open Lib
open Server (CallArgs Crypto decodePhoneList phonesOf)
open Sha256 (Sha256Context HmacContext HmacKeyContext brHmacInit brHmacKeyInit brHmacOut brHmacUpdate digestSize sha256
  brHmac_eq brHmac_absorbed length_sha256 shaBytes_sha256Hash)

/-- A context that a function of BearSSL has on its stack, with what was there. -/
abbrev Local := { hc : Sha256Context // hc.buf.length = 64 }

/-! ## The code -/

structure SHA256HMACContext where
  keyContext : HmacKeyContext
  context : HmacContext

namespace SHA256HMACContext

def reset (self : SHA256HMACContext) : SHA256HMACContext :=
  { self with context := brHmacInit self.context self.keyContext digestSize }

/-- `hc` is a local variable of `br_hmac_key_init`. -/
def new (hc : Local) (key : Bytes 32) : SHA256HMACContext :=
  reset ⟨brHmacKeyInit hc.1 key.1, ⟨⟨List.replicate 64 0, 0, ⟨0, 0, 0, 0, 0, 0, 0, 0⟩⟩, List.replicate 64 0, 0⟩⟩

def update (self : SHA256HMACContext) (data : List Byte) : SHA256HMACContext :=
  { self with context := brHmacUpdate self.context data }

/-- `hc` is a local variable of `br_hmac_out`. -/
def result (hc : Local) (self : SHA256HMACContext) : List Byte := brHmacOut hc.1 self.context

end SHA256HMACContext

/-- The loop over the phones from the `i`th on, with the status and the buffer that it leaves. -/
def fingerprintLoop (hcs : Nat → Local) : (i : Nat) → SHA256HMACContext → (fingerprint : List Byte) → List Phone →
    Except SgxStatus Unit × List Byte
  | _, _, fingerprint, [] => (.ok (), fingerprint)
  | i, ctx, fingerprint, phone :: phones =>
    if i ≥ fingerprint.length then (.error .invalidParameter, fingerprint)
    else
      let ctx := ctx.update (leBytes phone)
      let phoneOut := ctx.result (hcs i)
      fingerprintLoop hcs (i + 1) ctx.reset (fingerprint.set i (phoneOut.headD 0)) phones

/-- `sgxsd_enclave_create_ratelimit_fingerprint`; the size of the buffer is the length of `fingerprint`. -/
def sgxsdEnclaveCreateRatelimitFingerprint (S : Crypto) (outside : Ptr → Usize → BitVec 32) (hc : Local) (hcs : Nat → Local)
    (fingerprintKey : Bytes 32) (args : CallArgs) (msg : List Byte) (mem : Ptr → Byte) (fingerprint : List Byte) :
    Except SgxStatus Unit × List Byte :=
  match decodePhoneList S outside mem args msg with
  | .error e => (.error e, fingerprint)
  | .ok data => fingerprintLoop hcs 0 (.new hc fingerprintKey) fingerprint (phonesOf data)

/-! ## What it writes -/

def fingerprintByte (key : Bytes 32) (phone : Phone) : Byte := (Crypt.hmac sha256 64 key.1 (leBytes phone)).headD 0

/-- A context that was reset, whatever it was used for. -/
def Fresh (key : Bytes 32) (c : SHA256HMACContext) : Prop :=
  ∃ (hc : Local) (ctx : HmacContext), ctx.dig.buf.length = 64 ∧
    c = ⟨brHmacKeyInit hc.1 key.1, brHmacInit ctx (brHmacKeyInit hc.1 key.1) digestSize⟩

theorem new_fresh (hc : Local) (key : Bytes 32) : Fresh key (.new hc key) := ⟨hc, _, rfl, rfl⟩

/-- A reset leaves nothing of the message before. -/
theorem reset_fresh {key : Bytes 32} {c : SHA256HMACContext} (h : Fresh key c) (data : List Byte) : Fresh key (c.update data).reset := by
  obtain ⟨hc, ctx, hlen, rfl⟩ := h
  exact ⟨hc, _, (brHmac_absorbed hc.2 hlen key.1 digestSize [data]).length, rfl⟩

theorem result_fresh {key : Bytes 32} {c : SHA256HMACContext} (h : Fresh key c) (hc : Local) (phone : Phone) :
    ((c.update (leBytes phone)).result hc).headD 0 = fingerprintByte key phone := by
  obtain ⟨hc', ctx, hlen, rfl⟩ := h
  have hcode : brHmacOut hc.1 (brHmacUpdate (brHmacInit ctx (brHmacKeyInit hc'.1 key.1) digestSize) (leBytes phone)) = _ :=
    brHmac_eq hc'.2 hc.2 hlen key.1 digestSize [leBytes phone]
  have hlen : (Crypt.hmac sha256 64 key.1 (leBytes phone)).length = digestSize := length_sha256 _
  rw [List.flatten_singleton, ite_self, ← hlen, List.take_length] at hcode
  exact congrArg (·.headD 0) hcode

theorem fingerprintLoop_eq (hcs : Nat → Local) {key : Bytes 32} (phones : List Phone) : ∀ {c : SHA256HMACContext}
    (done rest : List Byte), Fresh key c →
    fingerprintLoop hcs done.length c (done ++ rest) phones =
      (if phones.length > rest.length then .error .invalidParameter else .ok (),
        done ++ ((phones.take rest.length).map (fingerprintByte key) ++ rest.drop phones.length)) := by
  -- `done` is what the loop has written, `rest` what the buffer still has of the caller's
  induction phones with
  | nil => intro c done rest _; simp [fingerprintLoop]
  | cons phone phones ih =>
    intro c done rest hc
    cases rest with
    | nil => simp [fingerprintLoop]
    | cons b rest =>
      have hroom : ¬done.length ≥ (done ++ b :: rest).length := by
        rw [List.length_append, List.length_cons]
        omega
      have hset : (done ++ b :: rest).set done.length (fingerprintByte key phone) = (done ++ [fingerprintByte key phone]) ++ rest := by
        simp
      have hnext := ih (done ++ [fingerprintByte key phone]) rest (reset_fresh hc (leBytes phone))
      rw [List.length_append, List.length_singleton] at hnext
      rw [fingerprintLoop, if_neg hroom]
      simp only
      rw [result_fresh hc, hset, hnext]
      simp

section Written

variable (aesGcm : Aead Key Iv Mac) (S : Crypto) (outside : Ptr → Usize → BitVec 32) (hc : Local) (hcs : Nat → Local)

/-- The status is that of the model that has each HMAC at once, and so are the bytes. Where the request decodes, its bytes are in
the buffer as far as that goes, also when the call fails. -/
theorem ratelimitFingerprint_written (fingerprintKey : Bytes 32) (args : CallArgs) (msg : List Byte) (mem : Ptr → Byte)
    (fingerprint : List Byte) :
    let r := sgxsdEnclaveCreateRatelimitFingerprint S outside hc hcs fingerprintKey args msg mem fingerprint
    (match Sgxsd.createRatelimitFingerprint (Node.primitives aesGcm) S outside fingerprintKey args msg mem fingerprint.length with
      | .error e => r.1 = .error e
      | .ok bytes => r = (.ok (), bytes ++ fingerprint.drop bytes.length)) ∧
    (match decodePhoneList S outside mem args msg with
      | .error _ => r.2 = fingerprint
      | .ok data => r.2 = ((phonesOf data).take fingerprint.length).map (fingerprintByte fingerprintKey) ++
          fingerprint.drop (phonesOf data).length) := by
  intro r
  have hr : r = sgxsdEnclaveCreateRatelimitFingerprint S outside hc hcs fingerprintKey args msg mem fingerprint := rfl
  rw [sgxsdEnclaveCreateRatelimitFingerprint] at hr
  rw [Sgxsd.createRatelimitFingerprint]
  cases hdecode : decodePhoneList S outside mem args msg with
  | error e =>
    rw [hdecode] at hr
    rw [hr]
    exact ⟨rfl, rfl⟩
  | ok data =>
    rw [hdecode] at hr
    have hloop := fingerprintLoop_eq hcs (phonesOf data) [] fingerprint (new_fresh hc fingerprintKey)
    rw [List.nil_append, List.nil_append] at hloop
    have hr := hr.trans hloop
    refine ⟨?_, by rw [hr]⟩
    simp only
    by_cases hroom : (phonesOf data).length > fingerprint.length
    · rw [if_pos hroom] at hr ⊢
      rw [hr]
    · rw [if_neg hroom] at hr ⊢
      rw [hr, List.take_of_length_le (by omega)]
      simp only [List.length_map]
      rw [show RequestKeys.shaBytes (Node.primitives aesGcm).sha256 = sha256 from shaBytes_sha256Hash]
      rfl

end Written

end ContactDiscovery.Enclave.Fingerprint
