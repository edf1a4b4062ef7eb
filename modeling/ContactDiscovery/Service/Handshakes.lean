/-
  ContactDiscovery.Service.Handshakes — the quote a client is given and the key it stands for
  (`SgxHandshakeManager.java`, `SgxEnclave.java`, `sgxsd_enclave_get_next_report` and
  `sgxsd_enclave_set_current_quote` in `sgxsd-enclave.c`).

  An enclave has a key pair for its negotiations, and a new one that is to replace it. A refresh lets
  the enclave draw a new pair and report on it, has the quote of the report signed, and then, with the
  quotes locked, puts the signed quote and lets the enclave take the new pair. A handshake reads the
  quote and negotiates, with the quotes locked. The lock does not hold the enclave: it may be killed at
  any time, and its thread then destroys it and starts another, with key pairs of its own. A thread
  reads the number of the enclave and then calls it; if that one is destroyed the call fails, and kills
  the enclave that runs by then.

  One thread refreshes, one enclave after another. The SGX runtime does not use a number again, and
  key pairs are drawn fresh. Whether the service is stopping is left out: an enclave may be started
  whenever it does not run. So are the revocation lists: where one is stale, the refresh starts over.
-/

import ContactDiscovery.Enclave.Sgxsd
import ContactDiscovery.Service.SgxException

namespace ContactDiscovery.Service.Handshakes

open Lib
open Enclave (SgxStatus Key Iv Mac KeyPair NegotiationResponse Primitives PendingRequests.St PendingRequests.init)
open Enclave.Sgxsd (idCipher)

/-! ## The enclave -/

/-- A quote, with the data of the report it is for. -/
structure Quote where
  reportData : Bytes 64

/-- The report data of a public key: the key, and zeros. -/
def reportData (pubkey : Bytes 32) : Bytes 64 := ⟨pubkey.1 ++ List.replicate 32 0, by simp [pubkey.2]⟩

/-- An enclave that was created, under the number of the SGX runtime. -/
structure Instance where
  number : Nat
  dhKeypair : KeyPair
  newDhKeypair : KeyPair
  pendingRequestIdKey : Key
  pendingRequests : PendingRequests.St

namespace Instance

variable (i : Instance)

/-- `sgxsd_get_next_quote`: the report over a new key pair, and the quote of the report. -/
def getNextQuote (keypair : Except SgxStatus KeyPair) (quoted : Except SgxStatus Unit) : Except SgxStatus Quote × Instance :=
  match keypair with
  | .error e => (.error e, i)
  | .ok newDhKeypair => (quoted.map fun _ => ⟨reportData newDhKeypair.pubkey⟩, { i with newDhKeypair })

def setCurrentQuote (result : Except SgxStatus Unit) : Except SgxStatus Unit × Instance :=
  match result with
  | .error e => (.error e, i)
  | .ok () => (.ok (), { i with dhKeypair := i.newDhKeypair })

variable (P : Primitives) (tableOrder : Nat)

/-- A call that does not get into the enclave fails as one that draws no ephemeral pair. -/
def negotiateRequest (clientPublicKey : Bytes 32) (ephemeral : Except SgxStatus KeyPair) (idIv : Except SgxStatus Iv)
    (encrypt : Except SgxStatus Unit) : Except SgxStatus NegotiationResponse × Instance :=
  match Enclave.Sgxsd.negotiateRequest P (idCipher P.aesGcm i.pendingRequestIdKey) tableOrder i.pendingRequests clientPublicKey
      ⟨ephemeral, i.dhKeypair, idIv, encrypt⟩ with
  | (result, pendingRequests, _) => (result, { i with pendingRequests })

end Instance

/-- The enclave that is there, and the number that calls are to use. -/
structure SgxEnclave where
  running : Option Instance
  enclaveState : Option Nat
  next : Nat

namespace SgxEnclave

variable (e : SgxEnclave)

def killEnclave : SgxEnclave := { e with enclaveState := none }

/-- What it throws fails the call, as the status does. -/
def handleSgxException (status : SgxStatus) : SgxEnclave :=
  match sgxCase (some status) with
  | .killEnclave => e.killEnclave
  | _ => e

def call {α : Type} (number : Nat) (native : Instance → Except SgxStatus α × Instance) : Except SgxStatus α × SgxEnclave :=
  match e.running.filter (·.number = number) with
  | none => (.error (.other SGX_ERROR_INVALID_ENCLAVE_ID), e.handleSgxException (.other SGX_ERROR_INVALID_ENCLAVE_ID))
  | some i =>
    match native i with
    | (.ok a, i) => (.ok a, { e with running := some i })
    | (.error status, i) => (.error status, { e with running := some i }.handleSgxException status)

/-- `nativeEnclaveStart`, up to its callback. -/
def start (dhKeypair newDhKeypair : KeyPair) (pendingRequestIdKey : Key) : SgxEnclave :=
  ⟨some ⟨e.next, dhKeypair, newDhKeypair, pendingRequestIdKey, PendingRequests.init⟩, some e.next, e.next + 1⟩

end SgxEnclave

/-! ## The manager -/

structure SgxSignedQuote where
  quote : Quote
  signature : List Byte

structure RemoteAttestationResponse where
  serverEphemeralPublic : Bytes 32
  serverStaticPublic : Bytes 32
  iv : Iv
  ciphertext : List Byte
  tag : Mac
  quote : Quote
  signature : List Byte

/-- Where the refreshing thread is, and what it has: the number it read, its quote, and the number of
    the enclave that made the quote, which no code reads. -/
inductive Refresh (ι : Type) where
  | idle
  | asking (id : ι) (number : Nat)
  | quoted (id : ι) (quote : Quote) (madeBy : Nat)
  | signed (id : ι) (quote : SgxSignedQuote) (madeBy : Nat)
  | setting (id : ι) (quote : SgxSignedQuote) (madeBy number : Nat)

/-- The handshake that has the lock, with the quote and the number it read. -/
structure Handshake (ι : Type) where
  id : ι
  clientPublic : Bytes 32
  signedQuote : SgxSignedQuote
  number : Nat

structure St (ι : Type) where
  enclaves : ι → SgxEnclave
  quotes : ι → Option SgxSignedQuote
  refresh : Refresh ι
  handshake : Option (Handshake ι)
  returned : List RemoteAttestationResponse
  /-- The static public keys drawn so far. -/
  drawn : List (Bytes 32)
  /-- The number of the enclave that made the quote and took its new pair when it was put. -/
  set : ι → Option Nat

inductive Event (ι : Type) where
  | start (id : ι) (dhKeypair newDhKeypair : KeyPair) (pendingRequestIdKey : Key)
  | killEnclave (id : ι)
  | destroy (id : ι)
  | refreshQuote (id : ι)
  | getNextQuote (keypair : Except SgxStatus KeyPair) (quoted : Except SgxStatus Unit)
  | getQuoteSignature (signature : Option (List Byte))
  | putQuote
  | setCurrentQuote (result : Except SgxStatus Unit)
  | getHandshake (id : ι) (clientPublic : Bytes 32)
  | negotiateRequest (ephemeral : Except SgxStatus KeyPair) (idIv : Except SgxStatus Iv) (encrypt : Except SgxStatus Unit)

def Refresh.locks {ι : Type} : Refresh ι → Bool
  | .setting .. => true
  | _ => false

def drawnKey : Except SgxStatus KeyPair → List (Bytes 32)
  | .error _ => []
  | .ok keypair => [keypair.pubkey]

def Handshake.response {ι : Type} (h : Handshake ι) (r : NegotiationResponse) : RemoteAttestationResponse :=
  ⟨r.serverEphemeralPubkey, r.serverStaticPubkey, r.encryptedPendingRequestId.iv, r.encryptedPendingRequestId.data,
    r.encryptedPendingRequestId.mac, h.signedQuote.quote, h.signedQuote.signature⟩

section Machine

variable {ι : Type} [DecidableEq ι] (P : Primitives) (tableOrder : Nat)

def initial (ι : Type) : St ι := ⟨fun _ => ⟨none, none, 0⟩, fun _ => none, .idle, none, [], [], fun _ => none⟩

def St.setEnclave (s : St ι) (id : ι) (e : SgxEnclave) : St ι := { s with enclaves := Function.update s.enclaves id e }

def negotiation (s : St ι) (h : Handshake ι) (ephemeral : Except SgxStatus KeyPair) (idIv : Except SgxStatus Iv)
    (encrypt : Except SgxStatus Unit) : Except SgxStatus NegotiationResponse × SgxEnclave :=
  (s.enclaves h.id).call h.number fun i => i.negotiateRequest P tableOrder h.clientPublic ephemeral idIv encrypt

def step (s : St ι) : Event ι → Option (St ι)
  | .start id dhKeypair newDhKeypair pendingRequestIdKey =>
    if (s.enclaves id).running.isNone ∧ dhKeypair.pubkey ∉ s.drawn ∧ newDhKeypair.pubkey ∉ s.drawn then
      some { s.setEnclave id ((s.enclaves id).start dhKeypair newDhKeypair pendingRequestIdKey) with
        drawn := newDhKeypair.pubkey :: dhKeypair.pubkey :: s.drawn }
    else none
  | .killEnclave id => some (s.setEnclave id (s.enclaves id).killEnclave)
  | .destroy id =>
    match (s.enclaves id).running with
    | none => none
    | some i =>
      -- The thread waits in its callback until the state is another.
      if (s.enclaves id).enclaveState = some i.number then none
      else some (s.setEnclave id { s.enclaves id with running := none })
  | .refreshQuote id =>
    match s.refresh, (s.enclaves id).enclaveState with
    | .idle, none => some s
    | .idle, some number => some { s with refresh := .asking id number }
    | _, _ => none
  | .getNextQuote keypair quoted =>
    match s.refresh with
    | .asking id number =>
      if ∀ k ∈ drawnKey keypair, k ∉ s.drawn then
        match (s.enclaves id).call number fun i => i.getNextQuote keypair quoted with
        | (.ok quote, e) =>
          some { s.setEnclave id e with refresh := .quoted id quote number, drawn := drawnKey keypair ++ s.drawn }
        | (.error _, e) => some { s.setEnclave id e with refresh := .idle, drawn := drawnKey keypair ++ s.drawn }
      else none
    | _ => none
  | .getQuoteSignature signature =>
    match s.refresh, signature with
    | .quoted id quote madeBy, some signature => some { s with refresh := .signed id ⟨quote, signature⟩ madeBy }
    | .quoted .., none => some { s with refresh := .idle }
    | _, _ => none
  | .putQuote =>
    match s.refresh, s.handshake with
    | .signed id quote madeBy, none =>
      let put := { s with quotes := Function.update s.quotes id (some quote), set := Function.update s.set id none }
      match (s.enclaves id).enclaveState with
      -- The quote is put, and `setCurrentQuote` throws.
      | none => some { put with refresh := .idle }
      | some number => some { put with refresh := .setting id quote madeBy number }
    | _, _ => none
  | .setCurrentQuote result =>
    match s.refresh with
    | .setting id _ madeBy number =>
      match (s.enclaves id).call number fun i => i.setCurrentQuote result with
      | (.ok (), e) =>
        some { s.setEnclave id e with
          refresh := .idle, set := Function.update s.set id (if madeBy = number then some number else none) }
      | (.error _, e) => some { s.setEnclave id e with refresh := .idle }
    | _ => none
  | .getHandshake id clientPublic =>
    if s.handshake.isSome ∨ s.refresh.locks then none
    else
      match s.quotes id, (s.enclaves id).enclaveState with
      | some signedQuote, some number => some { s with handshake := some ⟨id, clientPublic, signedQuote, number⟩ }
      | _, _ => some s
  | .negotiateRequest ephemeral idIv encrypt =>
    match s.handshake with
    | none => none
    | some h =>
      match negotiation P tableOrder s h ephemeral idIv encrypt with
      | (.ok r, e) => some { s.setEnclave h.id e with handshake := none, returned := s.returned ++ [h.response r] }
      | (.error _, e) => some { s.setEnclave h.id e with handshake := none }

/-- The quote is for a report over the key. -/
def Attested (r : RemoteAttestationResponse) : Prop := r.quote.reportData = reportData r.serverStaticPublic

instance (r : RemoteAttestationResponse) : Decidable (Attested r) := inferInstanceAs (Decidable (_ = _))

/-- A negotiation that answers is with the enclave that made the quote and took its new pair when the
    quote was put. -/
def QuoteSet (s : St ι) : Event ι → Prop
  | .negotiateRequest ephemeral idIv encrypt =>
    ∀ h r e, s.handshake = some h → negotiation P tableOrder s h ephemeral idIv encrypt = (.ok r, e) →
      s.set h.id = some h.number
  | _ => True

end Machine

end ContactDiscovery.Service.Handshakes
