/-
  ContactDiscovery.Enclave.Sgxsd — the calls into the enclave and back (`sgxsd-enclave.c`, with the
  senders of `sgxsd_ffi/ecalls.rs` and the host's side in `enclave-ffi-rust`): negotiation of a
  request, start, call and stop of a server, the rate limit fingerprint, and the reply.

  A client negotiates: both sides derive a key for each direction, and the enclave sends the id of
  the pending request, encrypted under the server's key with an IV of zeros. A call takes the
  pending request of its id out of the table, decrypts its data under the client's key with the id
  as associated data, and hands it to the server, with a sender. The host gives each call a tag, a
  box with the callback, which it takes back (`MessageTag::from_tag`) when the call fails, or when
  the enclave replies or drops the sender (`sgxsd_ocall_reply`). A stop replies to the senders or
  drops them, and each reply is encrypted under the server's key with a random IV whose lowest bit
  is set.

  The machine (`step`) is a node that is initialised, with any number of servers, one thread at a
  time. It keeps a trace of encryptions and of what became of each tag (`Act`), and the history of
  the table. What may fail is input: the random source, an encryption, the calls in and out. A
  sender's `valid` flag is that the sender is there; null pointers are left out.
-/

import ContactDiscovery.Enclave.RequestKeys
import ContactDiscovery.Enclave.Server

namespace ContactDiscovery.Enclave

open Lib

/-- `sgxsd_aes_gcm_iv_t` and `sgxsd_aes_gcm_mac_t`. -/
abbrev Iv := Bytes 12
abbrev Mac := Bytes 16

structure PendingRequestId where
  data : Bytes 8
  iv : Iv
  mac : Mac
  deriving DecidableEq

def PendingRequestId.bytes (id : PendingRequestId) : List Byte := id.data.1 ++ id.iv.1 ++ id.mac.1

theorem PendingRequestId.length_bytes (id : PendingRequestId) : id.bytes.length = 36 := by
  rw [PendingRequestId.bytes, List.length_append, List.length_append, id.data.2, id.iv.2, id.mac.2]

/-- The id of these bytes, as the host's `server_call` takes them apart. -/
def PendingRequestId.ofBytes (b : Bytes 36) : PendingRequestId where
  data := ⟨b.1.take 8, by rw [List.length_take, b.2]; rfl⟩
  iv := ⟨(b.1.drop 8).take 12, by rw [List.length_take, List.length_drop, b.2]; rfl⟩
  mac := ⟨b.1.drop 20, by rw [List.length_drop, b.2]⟩

theorem PendingRequestId.ofBytes_bytes (id : PendingRequestId) : ofBytes ⟨id.bytes, id.length_bytes⟩ = id := by
  rcases id with ⟨⟨data, hdata⟩, ⟨iv, hiv⟩, ⟨mac, hmac⟩⟩
  simp only [ofBytes, bytes, PendingRequestId.mk.injEq, Subtype.mk.injEq]
  refine ⟨?_, ?_, ?_⟩
  · rw [List.append_assoc, ← hdata, List.take_left]
  · rw [List.append_assoc, ← hdata, List.drop_left, ← hiv, List.take_left]
  · exact List.drop_left' (by rw [List.length_append, hdata, hiv])

theorem PendingRequestId.bytes_ofBytes (b : Bytes 36) : (ofBytes b).bytes = b.1 := by
  have hrest : (b.1.drop 8).take 12 ++ b.1.drop 20 = b.1.drop 8 := by
    rw [show b.1.drop 20 = (b.1.drop 8).drop 12 by rw [List.drop_drop], List.take_append_drop]
  simp only [ofBytes, bytes]
  rw [List.append_assoc, hrest, List.take_append_drop]

structure MsgHeader where
  iv : Iv
  mac : Mac
  pendingRequestId : PendingRequestId

structure KeyPair where
  privkey : Bytes 32
  pubkey : Bytes 32

structure EncryptedBytes where
  data : List Byte
  iv : Iv
  mac : Mac
  deriving DecidableEq

structure NegotiationResponse where
  serverStaticPubkey : Bytes 32
  serverEphemeralPubkey : Bytes 32
  encryptedPendingRequestId : EncryptedBytes

structure Primitives where
  sha256 : List Byte → PendingRequests.Prk
  x25519 : (privkey pubkey : Bytes 32) → Bytes 32
  aesGcm : Aead Key Iv Mac

namespace Sgxsd

open PendingRequests (Prk IdCipher addPendingRequest getPendingRequest removePendingRequest)
open RequestKeys (deriveRequestKeys requestPrk shaBytes)
open Server (SgxsdServerState Crypto CallArgs StopArgs Ev handleCall terminate decodePhoneList phonesOf)

/-- The id of a request: its number under the id key. -/
def pendingRequestId (aesGcm : Aead Key Iv Mac) (idKey : Key) (idVal : BitVec 64) (iv : Iv) : PendingRequestId :=
  ⟨⟨(aesGcm.encrypt idKey iv [] (leBytes idVal)).1, by rw [aesGcm.length_encrypt, length_leBytes]⟩, iv,
    (aesGcm.encrypt idKey iv [] (leBytes idVal)).2⟩

def idCipher (aesGcm : Aead Key Iv Mac) (idKey : Key) : IdCipher Iv PendingRequestId where
  encrypt := fun idVal iv => .ok (pendingRequestId aesGcm idKey idVal iv)
  decrypt := fun id =>
    match aesGcm.decrypt idKey id.iv [] id.data.1 id.mac with
    | none => .error .macMismatch
    | some data => .ok (leWord data)
  decrypt_encrypt := by
    intro idVal iv id h
    cases h
    simp only [pendingRequestId, aesGcm.decrypt_encrypt, leWord_leBytes]

/-- The server's cipher and hash (`AesGcmKey`, `SHA256Context`). -/
def serverCrypto (P : Primitives) : Crypto where
  decrypt := fun key data iv mac =>
    if h : key.length = 32 ∧ iv.length = 12 ∧ mac.length = 16 then
      match hplain : P.aesGcm.decrypt ⟨key, h.1⟩ ⟨iv, h.2.1⟩ [] data ⟨mac, h.2.2⟩ with
      | none => .error .macMismatch
      | some plain => .ok ⟨plain, P.aesGcm.length_decrypt _ _ _ _ _ _ hplain⟩
    else .error .invalidParameter
  sha256 := shaBytes P.sha256

/-! ## What is done -/

/-- `sgxsd_msg_from_t`, with the number of its pending request, which no code reads. -/
structure Sender where
  tag : Nat
  serverKey : Key
  idVal : BitVec 64

/-- What became of a call's tag. -/
inductive Fate where
  /-- Taken back by `sgxsd_server_call`, whose ecall failed. -/
  | callError
  /-- Taken back by `sgxsd_ocall_reply` with a reply, which the callback gets. -/
  | replied (reply : EncryptedBytes)
  /-- Taken back by `sgxsd_ocall_reply` without one. -/
  | dropped
  /-- The sender was used up, and the host never got the tag. -/
  | lost
  deriving DecidableEq

def Fate.taken : Fate → Bool
  | .lost => false
  | _ => true

inductive Act where
  /-- A request's number is encrypted under the id key. -/
  | sealNumber (iv : Iv)
  /-- A request's id is encrypted under its server key. -/
  | sealId (idVal : BitVec 64) (key : Key) (iv : Iv)
  /-- A reply is encrypted under the server key of its sender. -/
  | sealReply (idVal : BitVec 64) (key : Key) (iv : Iv)
  | tag (tag : Nat) (fate : Fate)
  deriving DecidableEq

/-- How an ocall went: the host's function ran and the call returned, or ran and the call failed
    nevertheless, or did not run. -/
inductive Ocall where
  | returned
  | failed (e : SgxStatus)
  | notMade (e : SgxStatus)

/-- What a reply meets: `sgx_read_rand`, `sgxsd_aes_gcm_encrypt`, `sgxsd_ocall_reply`. -/
structure ReplyEnv where
  iv : Except SgxStatus Iv
  encrypt : Except SgxStatus Unit
  ocall : Ocall

/-- What the `i`-th reply of a stop meets, and the `i`-th ocall without a reply. -/
structure StopEnv where
  reply : Nat → ReplyEnv
  noreply : Nat → Ocall

structure NegotiateEnv where
  ephemeralKeypair : Except SgxStatus KeyPair
  staticKeypair : KeyPair
  idIv : Except SgxStatus Iv
  encrypt : Except SgxStatus Unit

def zeroIv : Iv := ⟨List.replicate 12 0, by simp⟩

/-- `iv.data[0] |= 1`. -/
def Iv.setLowBit (iv : Iv) : Iv := ⟨iv.1.set 0 (iv.1.getD 0 0 ||| 1), by rw [List.length_set, iv.2]⟩

section Calls

variable (P : Primitives) (C : IdCipher Iv PendingRequestId) (tableOrder : Nat)

/-! ## Negotiation -/

def negotiatedPrk (clientPubkey : Bytes 32) (ephemeral static : KeyPair) : Prk :=
  requestPrk P.sha256 clientPubkey ephemeral.pubkey static.pubkey (P.x25519 ephemeral.privkey clientPubkey)
    (P.x25519 static.privkey clientPubkey)

def serverKey (prk : Prk) : Key := (deriveRequestKeys P.sha256 ⟨0, prk⟩).2

def sealNumber (iv : Except SgxStatus Iv) : List Act :=
  match iv with
  | .error _ => []
  | .ok iv => [.sealNumber iv]

def negotiateRequest (p : PendingRequests.St) (clientPubkey : Bytes 32) (env : NegotiateEnv) :
    Except SgxStatus NegotiationResponse × PendingRequests.St × List Act :=
  match env.ephemeralKeypair with
  | .error e => (.error e, p, [])
  | .ok ephemeral =>
    let prk := negotiatedPrk P clientPubkey ephemeral env.staticKeypair
    match addPendingRequest C tableOrder p prk env.idIv with
    | (.error e, p') => (.error e, p', sealNumber env.idIv)
    | (.ok id, p') =>
      let encrypted := P.aesGcm.encrypt (serverKey P prk) zeroIv [] id.bytes
      let acts := sealNumber env.idIv ++ [.sealId p'.lastPendingRequestIdVal (serverKey P prk) zeroIv]
      match env.encrypt with
      | .error _ => (.error .unexpected, p', acts)
      | .ok () => (.ok ⟨env.staticKeypair.pubkey, ephemeral.pubkey, ⟨encrypted.1, zeroIv, encrypted.2⟩⟩, p', acts)

/-! ## Answers -/

def serverReply (env : ReplyEnv) (sender : Sender) (msg : List Byte) : Except SgxStatus Unit × List Act :=
  match env.iv with
  | .error e => (.error e, [.tag sender.tag .lost])
  | .ok iv =>
    let iv := Iv.setLowBit iv
    let sealing := Act.sealReply sender.idVal sender.serverKey iv
    match env.encrypt with
    | .error _ => (.error .unexpected, [sealing, .tag sender.tag .lost])
    | .ok () =>
      let encrypted := P.aesGcm.encrypt sender.serverKey iv [] msg
      match env.ocall with
      | .returned => (.ok (), [sealing, .tag sender.tag (.replied ⟨encrypted.1, iv, encrypted.2⟩)])
      | .failed e => (.error e, [sealing, .tag sender.tag (.replied ⟨encrypted.1, iv, encrypted.2⟩)])
      | .notMade e => (.error e, [sealing, .tag sender.tag .lost])

/-- What a reply call returns does not depend on the message. -/
def replyResult (env : ReplyEnv) : Except SgxStatus Unit :=
  match env.iv, env.encrypt, env.ocall with
  | .error e, _, _ => .error e
  | .ok _, .error _, _ => .error .unexpected
  | .ok _, .ok (), .returned => .ok ()
  | .ok _, .ok (), .failed e | .ok _, .ok (), .notMade e => .error e

theorem serverReply_result (env : ReplyEnv) (sender : Sender) (msg : List Byte) :
    (serverReply P env sender msg).1 = replyResult env := by
  unfold serverReply replyResult
  rcases env with ⟨_ | _, _ | _, _ | _ | _⟩ <;> rfl

def serverNoreply (ocall : Ocall) (sender : Sender) : List Act :=
  match ocall with
  | .returned | .failed _ => [.tag sender.tag .dropped]
  | .notMade _ => [.tag sender.tag .lost]

/-- The answers of a stop, from the `i`-th reply and the `j`-th ocall without one on. -/
def answers (env : StopEnv) : (i j : Nat) → List (Ev Sender) → List Act
  | _, _, [] => []
  | i, j, .lookup _ _ _ _ :: evs => answers env i j evs
  | i, j, .reply sender msg :: evs => (serverReply P (env.reply i) sender msg).2 ++ answers env (i + 1) j evs
  | i, j, .noreply sender :: evs => serverNoreply (env.noreply j) sender ++ answers env i (j + 1) evs

/-! ## Calls -/

/-- The message of a call, decrypted, and its sender. -/
def decryptMessage (r : PendingRequests.PendingRequest) (header : MsgHeader) (msgData : List Byte) (tag : Nat) :
    Except SgxStatus (List Byte × Sender) :=
  let keys := deriveRequestKeys P.sha256 r
  match P.aesGcm.decrypt keys.1 header.iv header.pendingRequestId.bytes msgData header.mac with
  | none => .error .macMismatch
  | some plain => .ok (plain, ⟨tag, keys.2, r.idVal⟩)

/-- A call up to the server: its pending request is gone whether or not its data decrypts. -/
def openRequest (p : PendingRequests.St) (header : MsgHeader) (msgData : List Byte) (tag : Nat) :
    Except SgxStatus (List Byte × Sender) × PendingRequests.St :=
  match removePendingRequest C tableOrder p header.pendingRequestId with
  | (.error e, p') => (.error e, p')
  | (.ok r, p') => (decryptMessage P r header msgData tag, p')

variable (S : Crypto) (outside : Ptr → Usize → BitVec 32)

/-- `none` is a descriptor that is not valid. -/
def serverStartLocked (server : Option (SgxsdServerState Sender)) (maxQueryPhones : Option (BitVec 32)) :
    Except SgxStatus Unit × Option (SgxsdServerState Sender) :=
  match server, maxQueryPhones with
  | some s, _ => (.error .invalidState, some s)
  | none, none => (.error .invalidParameter, none)
  | none, some n => (.ok (), some (Server.init n))

/-- One call of `sgxsd_server_call`: `ecall` is the error of a call that did not get into the
    enclave. -/
structure CallIn where
  ecall : Option SgxStatus
  args : Option CallArgs
  header : MsgHeader
  msgData : List Byte
  mem : Ptr → Byte

def serverCallLocked (server : Option (SgxsdServerState Sender)) (p : PendingRequests.St) (c : CallIn) (tag : Nat) :
    Except SgxStatus Unit × Option (SgxsdServerState Sender) × PendingRequests.St :=
  match server with
  | none => (.error .invalidState, none, p)
  | some s =>
    if c.msgData = [] then (.error .invalidParameter, some s, p)
    else
      match openRequest P C tableOrder p c.header c.msgData tag with
      | (.error e, p') => (.error e, some s, p')
      | (.ok (plain, sender), p') =>
        let r := handleCall S outside s ⟨c.args, plain, c.mem, sender⟩
        (r.1, some r.2, p')

def sgxsdServerCall (server : Option (SgxsdServerState Sender)) (p : PendingRequests.St) (c : CallIn) (tag : Nat) :
    Except SgxStatus Unit × Option (SgxsdServerState Sender) × PendingRequests.St × List Act :=
  match c.ecall with
  | some e => (.error e, server, p, [.tag tag .callError])
  | none =>
    match serverCallLocked P C tableOrder S outside server p c tag with
    | (.error e, server', p') => (.error e, server', p', [.tag tag .callError])
    | (.ok (), server', p') => (.ok (), server', p', [])

variable (hashLookup : Ptr → Ptr → Usize → List Phone → List Byte → Except SgxStatus Unit × List Byte)

/-- `none` if the enclave panics; the descriptor is zeroed. -/
def serverStopLocked (server : Option (SgxsdServerState Sender)) (args : Option StopArgs) (env : StopEnv) :
    Option (Except SgxStatus Unit × List Act) :=
  match server with
  | none => some (.error .invalidState, [])
  | some s =>
    match terminate outside hashLookup (fun i => replyResult (env.reply i)) s args with
    | (_, .panicked) => none
    | (evs, .returned r) => some (r, answers P env 0 0 evs)

/-! ## The rate limit fingerprint -/

/-- One byte for each phone of the request: the first of its HMAC. -/
def createRatelimitFingerprint (fingerprintKey : Bytes 32) (args : CallArgs) (msg : List Byte) (mem : Ptr → Byte)
    (fingerprintSize : Nat) : Except SgxStatus (List Byte) :=
  match decodePhoneList S outside mem args msg with
  | .error e => .error e
  | .ok data =>
    if (phonesOf data).length > fingerprintSize then .error .invalidParameter
    else .ok ((phonesOf data).map fun phone => (Crypt.hmac (shaBytes P.sha256) 64 fingerprintKey.1 (leBytes phone)).headD 0)

/-- The pending request stays in the table. -/
def ratelimitFingerprintLocked (server : Option (SgxsdServerState Sender)) (p : PendingRequests.St)
    (fingerprintKey : Bytes 32) (args : CallArgs) (header : MsgHeader) (msgData : List Byte) (mem : Ptr → Byte)
    (tag fingerprintSize : Nat) : Except SgxStatus (List Byte) × PendingRequests.St :=
  match server with
  | none => (.error .invalidState, p)
  | some _ =>
    if msgData = [] then (.error .invalidParameter, p)
    else
      match getPendingRequest C tableOrder p header.pendingRequestId with
      | (.error e, p') => (.error e, p')
      | (.ok r, p') =>
        match decryptMessage P r header msgData tag with
        | .error e => (.error e, p')
        | .ok (plain, _) => (createRatelimitFingerprint P S outside fingerprintKey args plain mem fingerprintSize, p')

end Calls

def senders (server : Option (SgxsdServerState Sender)) : List Sender :=
  match server with
  | none => []
  | some s => s.requests.map (·.sender)

/-! ## The machine -/

structure St (ι : Type) where
  pending : PendingRequests.St × PendingRequests.History Iv PendingRequestId
  servers : ι → Option (SgxsdServerState Sender)
  /-- How many tags were made; they are numbered. -/
  tags : Nat
  trace : List Act

inductive Event (ι : Type) where
  | negotiate (clientPubkey : Bytes 32) (env : NegotiateEnv)
  | start (handle : ι) (maxQueryPhones : Option (BitVec 32))
  | call (handle : ι) (c : CallIn)
  | fingerprint (handle : ι) (key : Bytes 32) (args : CallArgs) (header : MsgHeader) (msgData : List Byte)
      (mem : Ptr → Byte) (tag size : Nat)
  | stop (handle : ι) (args : Option StopArgs) (env : StopEnv)

/-- No server is up, and no tag was made. -/
def idle (ι : Type) (pending : PendingRequests.St × PendingRequests.History Iv PendingRequestId) : St ι :=
  ⟨pending, fun _ => none, 0, []⟩

def init (ι : Type) : St ι := idle ι (PendingRequests.init, [])

section Machine

variable {ι : Type} [DecidableEq ι] (P : Primitives) (C : IdCipher Iv PendingRequestId) (tableOrder : Nat) (S : Crypto)
  (outside : Ptr → Usize → BitVec 32)
  (hashLookup : Ptr → Ptr → Usize → List Phone → List Byte → Except SgxStatus Unit × List Byte)

/-- The operation on the table that an event comes to. -/
def tableOp (s : St ι) : Event ι → Option (PendingRequests.Op Iv PendingRequestId)
  | .negotiate clientPubkey env =>
    match env.ephemeralKeypair with
    | .error _ => none
    | .ok ephemeral => some (.add (negotiatedPrk P clientPubkey ephemeral env.staticKeypair) env.idIv)
  | .call handle c =>
    if c.ecall = none ∧ (s.servers handle).isSome ∧ c.msgData ≠ [] then some (.remove c.header.pendingRequestId) else none
  | .fingerprint handle _ _ header msgData _ _ _ =>
    if (s.servers handle).isSome ∧ msgData ≠ [] then some (.get header.pendingRequestId) else none
  | .start _ _ | .stop _ _ _ => none

def history (s : St ι) (e : Event ι) : PendingRequests.History Iv PendingRequestId :=
  match tableOp P s e with
  | none => s.pending.2
  | some op => s.pending.2 ++ [(op, (PendingRequests.exec C tableOrder s.pending.1 op).1)]

def step (s : St ι) (e : Event ι) : Option (St ι) :=
  match e with
  | .negotiate clientPubkey env =>
    let r := negotiateRequest P C tableOrder s.pending.1 clientPubkey env
    some { s with pending := (r.2.1, history P C tableOrder s e), trace := s.trace ++ r.2.2 }
  | .start handle maxQueryPhones =>
    some { s with servers := Function.update s.servers handle (serverStartLocked (s.servers handle) maxQueryPhones).2 }
  | .call handle c =>
    let r := sgxsdServerCall P C tableOrder S outside (s.servers handle) s.pending.1 c s.tags
    some ⟨(r.2.2.1, history P C tableOrder s e), Function.update s.servers handle r.2.1, s.tags + 1, s.trace ++ r.2.2.2⟩
  | .fingerprint handle key args header msgData mem tag size =>
    let r := ratelimitFingerprintLocked P C tableOrder S outside (s.servers handle) s.pending.1 key args header msgData mem
      tag size
    some { s with pending := (r.2, history P C tableOrder s e) }
  | .stop handle args env =>
    match serverStopLocked P outside hashLookup (s.servers handle) args env with
    | none => none
    | some (_, acts) => some { s with servers := Function.update s.servers handle none, trace := s.trace ++ acts }

end Machine

end Sgxsd

end ContactDiscovery.Enclave
