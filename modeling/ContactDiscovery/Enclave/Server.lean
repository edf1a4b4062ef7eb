/-
  ContactDiscovery.Enclave.Server — the batch server of the enclave (`service/main.rs`), with
  the reply side of `sgxsd_ffi/ecalls.rs`.

  A server collects the phones of the requests it accepts in one list and keeps, per request,
  whom to answer and how many phones it asked for. `terminate` looks the list up in chunks of
  8192 and splits the result buffer again by request. What it does to the outside is a trace
  (`Ev`): the lookups it calls, with the pointers it passes, the replies, and the `noreply` of
  each request dropped unanswered.

  Parameters: the crypto (`Crypto`), the host's memory, `sgx_is_outside_enclave`, the lookup
  (`ffi::hash_lookup`, taking the directory's pointers and count), and what the `i`-th call of
  `sgxsd_enclave_server_reply` returns.
-/

import ContactDiscovery.Enclave.HashLookup
import ContactDiscovery.Enclave.UntrustedSlice

namespace ContactDiscovery.Enclave.Server

open Lib
open HashLookup (MAX_HASH_TABLE_SIZE)

def COMMITMENT_NONCE_SIZE : Nat := 32
def AES_GCM_KEY_LEN : Nat := 32

/-! ## Arguments -/

structure EncryptedMessage where
  iv : List Byte
  mac : List Byte
  size : BitVec 32
  data : Ptr

/-- `cds_call_args_t`, without the rate limit state that no modelled function reads. -/
structure CallArgs where
  queryPhoneCount : BitVec 32
  query : EncryptedMessage
  queryCommitment : List Byte

structure StopArgs where
  inPhones : Ptr
  inPhoneCount : Usize
  inUuids : Ptr

/-- AES-GCM in place under a 32-byte key, so that a decrypted buffer keeps its length, and
    SHA-256. -/
structure Crypto where
  decrypt : (key data iv mac : List Byte) → Except SgxStatus { d : List Byte // d.length = data.length }
  sha256 : List Byte → List Byte

/-! ## Requests -/

/-- `u64::from_ne_bytes` on a little-endian machine. -/
def decodePhone (data : List Byte) : Phone :=
  data.foldr (fun b w => (w <<< 8) ||| b.setWidth 64) 0

/-- The phones after the nonce: `chunks_exact` leaves out what does not fill a phone. -/
def phonesOf (data : List Byte) : List Phone :=
  (List.range ((data.length - COMMITMENT_NONCE_SIZE) / BYTES_PER_PHONE)).map fun i =>
    decodePhone (block BYTES_PER_PHONE i (data.drop COMMITMENT_NONCE_SIZE))

section Decode

variable (C : Crypto) (outside : Ptr → Usize → BitVec 32) (mem : Ptr → Byte)

def verifyCommitment (data expectedCommitment : List Byte) : Except SgxStatus Unit :=
  if C.sha256 data = expectedCommitment then .ok () else .error .queryCommitmentMismatch

/-- `decode_phone_list` past the read. -/
def decodeQuery (args : CallArgs) (requestData data : List Byte) : Except SgxStatus (List Byte) :=
  if data.length < COMMITMENT_NONCE_SIZE then .error .invalidRequestSize
  else if requestData.length ≠ AES_GCM_KEY_LEN ∨ (data.length - COMMITMENT_NONCE_SIZE) % BYTES_PER_PHONE ≠ 0 ∨
      (data.length - COMMITMENT_NONCE_SIZE) / BYTES_PER_PHONE ≠ args.queryPhoneCount.toNat then
    .error .invalidRequestSize
  else
    match C.decrypt requestData data args.query.iv args.query.mac with
    | .error e => .error e
    | .ok plain =>
      match verifyCommitment C plain.1 args.queryCommitment with
      | .error e => .error e
      | .ok () => .ok plain.1

def decodePhoneList (args : CallArgs) (requestData : List Byte) : Except SgxStatus (List Byte) :=
  match UntrustedSlice.new outside args.query.data (args.query.size.setWidth 64) with
  | .error _ => .error .invalidParameter
  | .ok slice =>
    match slice.readBytes mem (args.query.size.setWidth 64) with
    | .error _ => .error .invalidParameter
    | .ok data => decodeQuery C args requestData data

end Decode

/-! ## The server -/

structure PendingRequest (F : Type) where
  sender : F
  requestPhoneCount : Nat

/-- `capacity` is the phone list's, reserved at the start. -/
structure SgxsdServerState (F : Type) where
  requests : List (PendingRequest F)
  queryPhones : List Phone
  capacity : Nat

def init {F : Type} (maxQueryPhones : BitVec 32) : SgxsdServerState F := ⟨[], [], maxQueryPhones.toNat⟩

/-- One `handle_call`: its arguments, the host's memory at the time, and the sender. -/
structure Call (F : Type) where
  args : Option CallArgs
  requestData : List Byte
  mem : Ptr → Byte
  sender : F

section Server

variable {F : Type} (C : Crypto) (outside : Ptr → Usize → BitVec 32)

def decodeRequest (s : SgxsdServerState F) (args : CallArgs) (requestData : List Byte) (mem : Ptr → Byte) :
    Except SgxStatus (List Byte) :=
  if args.queryPhoneCount = 0 ∨ args.queryPhoneCount.toNat > s.capacity - s.queryPhones.length then
    .error .invalidParameter
  else decodePhoneList C outside mem args requestData

def handleCall (s : SgxsdServerState F) (c : Call F) : Except SgxStatus Unit × SgxsdServerState F :=
  match c.args with
  | none => (.error .invalidParameter, s)
  | some args =>
    match decodeRequest C outside s args c.requestData c.mem with
    | .error e => (.error e, s)
    | .ok data =>
      if (phonesOf data).length < 2 ^ 32 then
        (.ok (), { s with
          queryPhones := s.queryPhones ++ phonesOf data
          requests := s.requests ++ [⟨c.sender, (phonesOf data).length⟩] })
      else (.error .invalidParameter, s)

/-! ## Termination -/

inductive Ev (F : Type) where
  | lookup (inPhones inUuids : Ptr) (inPhoneCount : Usize) (queryPhones : List Phone)
  | reply (sender : F) (msg : List Byte)
  | noreply (sender : F)

inductive Outcome where
  | returned (r : Except SgxStatus Unit)
  | panicked

def checkedMul (a : Usize) (n : Nat) : Option Usize := if a.toNat * n < 2 ^ 64 then some (a * BitVec.ofNat 64 n) else none

def dropAll (requests : List (PendingRequest F)) : List (Ev F) := requests.map fun r => .noreply r.sender

/-- `SgxsdMsgFrom::reply`: a message whose length is no `u32` is not sent, and the sender is
    dropped; else the sender is used up whatever the call returns. -/
def reply (replyResult : Nat → Except SgxStatus Unit) (i : Nat) (sender : F) (msg : List Byte) :
    List (Ev F) × Except SgxStatus Unit :=
  if msg.length < 2 ^ 32 then ([.reply sender msg], replyResult i) else ([.noreply sender], .error .unexpected)

/-- The replies, from the `i`-th on, over the rest of the result buffer. -/
def replyLoop (replyResult : Nat → Except SgxStatus Unit) :
    Nat → List (PendingRequest F) → List Byte → List (Ev F) × Outcome
  | _, [], _ => ([], .returned (.ok ()))
  | i, r :: requests, remaining =>
    let n := r.requestPhoneCount * BYTES_PER_UUID
    -- `split_at_mut` past the end: a panic aborts the enclave, nothing is dropped
    if remaining.length < n then ([], .panicked)
    else
      match reply replyResult i r.sender (remaining.take n) with
      | (ev, .error e) => (ev ++ dropAll requests, .returned (.error e))
      | (ev, .ok ()) =>
        let rest := replyLoop replyResult (i + 1) requests (remaining.drop n)
        (ev ++ rest.1, rest.2)

variable (hashLookup : Ptr → Ptr → Usize → List Phone → List Byte → Except SgxStatus Unit × List Byte)

/-- The lookups over the chunks and their parts of the result buffer: the calls made, the
    first error, and the buffer. -/
def lookupLoop (inPhones inUuids : Ptr) (inPhoneCount : Usize) :
    List (List Phone × List Byte) → List (Ev F) × Except SgxStatus Unit × List Byte
  | [] => ([], .ok (), [])
  | (chunk, resultChunk) :: rest =>
    match hashLookup inPhones inUuids inPhoneCount chunk resultChunk with
    | (.error e, out) => ([.lookup inPhones inUuids inPhoneCount chunk], .error e, out ++ (rest.map (·.2)).flatten)
    | (.ok (), out) =>
      let r := lookupLoop inPhones inUuids inPhoneCount rest
      (.lookup inPhones inUuids inPhoneCount chunk :: r.1, r.2.1, out ++ r.2.2)

/-- Each chunk of the query with the part of the zeroed result buffer it writes. -/
def chunkPairs (queryPhones : List Phone) : List (List Phone × List Byte) :=
  (chunks MAX_HASH_TABLE_SIZE queryPhones).zip
    (chunks (MAX_HASH_TABLE_SIZE * BYTES_PER_UUID) (List.replicate (queryPhones.length * BYTES_PER_UUID) (0 : Byte)))

/-- Every early return drops the requests. -/
def terminate (replyResult : Nat → Except SgxStatus Unit) (s : SgxsdServerState F) (args : Option StopArgs) :
    List (Ev F) × Outcome :=
  let fail := fun e => (dropAll s.requests, Outcome.returned (.error e))
  match args with
  | none => fail .invalidParameter
  | some args =>
    match checkedMul args.inPhoneCount BYTES_PER_PHONE, checkedMul args.inPhoneCount BYTES_PER_UUID with
    | some inPhonesSize, some inUuidsSize =>
      match UntrustedSlice.new outside args.inPhones inPhonesSize, UntrustedSlice.new outside args.inUuids inUuidsSize with
      | .ok inPhones, .ok inUuids =>
        if s.queryPhones.length * BYTES_PER_UUID < 2 ^ 64 then
          match lookupLoop hashLookup inPhones.asPtr inUuids.asPtr args.inPhoneCount (chunkPairs s.queryPhones) with
          | (ev, .error e, _) => (ev ++ dropAll s.requests, .returned (.error e))
          | (ev, .ok (), results) =>
            let r := replyLoop replyResult 0 s.requests results
            (ev ++ r.1, r.2)
        else fail .invalidParameter
      | _, _ => fail .invalidParameter
    | _, _ => fail .invalidParameter

end Server

end ContactDiscovery.Enclave.Server
