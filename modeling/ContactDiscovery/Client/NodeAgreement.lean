/-
  ContactDiscovery.Client.NodeAgreement — a client and a node agree, with the cryptography of the enclave's
  own code.

  `Client.Agreement` has the agreement for a Diffie-Hellman function that commutes on the keys at hand. Here
  that function is `curve25519_donna`, which commutes on all keys, and the hash is the SHA-256 of
  `sha2small.c`; the pairs are those that a node has drawn. `negotiation_agrees`: whatever the node's threads
  did before and since, a client can use each response that it was given.
-/

import ContactDiscovery.Client.Agreement

namespace ContactDiscovery.Client

open Lib
open Enclave (SgxStatus Key Iv Mac KeyPair NegotiationResponse PendingRequestId)
open Enclave.PendingRequests (PendingRequest slot)
open Enclave.RequestKeys (deriveRequestKeys)
open Enclave.Sgxsd (idCipher pendingRequestId openRequest zeroIv)
open Enclave.Node (Honest primitives Made loaded)
open Enclave.Sha256 (sha256Hash)

/-- The client gets both keys of the request, reads its id, and as long as the request is in its slot, the enclave opens what
    the client seals for it. -/
structure Usable (aesGcm : Aead Key Iv Mac) (idKey : Key) (tableOrder : Nat) (client : KeyPair) (response : NegotiationResponse)
    (r : PendingRequest) : Prop where
  keys : keyAgreement (primitives aesGcm) client.privkey client.pubkey response.serverEphemeralPubkey response.serverStaticPubkey =
    deriveRequestKeys sha256Hash r
  opens : ∃ id : Bytes 36,
    decryptData (primitives aesGcm) (deriveRequestKeys sha256Hash r).2 response.encryptedPendingRequestId = .ok id.1 ∧
    ∀ q : Enclave.PendingRequests.St, q.pendingRequests (slot tableOrder r.idVal) = r → ∀ (iv : Iv) (data : List Byte) (tag : Nat),
      let envelope := encryptData (primitives aesGcm) iv (deriveRequestKeys sha256Hash r).1 data id.1
      (openRequest (primitives aesGcm) (idCipher aesGcm idKey) tableOrder q ⟨iv, envelope.mac, .ofBytes id⟩ envelope.data tag).1 =
        .ok (data, ⟨tag, (deriveRequestKeys sha256Hash r).2, r.idVal⟩)

theorem made_usable {aesGcm : Aead Key Iv Mac} {idKey : Key} {tableOrder : Nat} {client : KeyPair} {response : NegotiationResponse}
    {r : PendingRequest} (hclient : Honest client) (h : Made aesGcm idKey tableOrder client.pubkey response r) :
    Usable aesGcm idKey tableOrder client response r := by
  obtain ⟨ephemeral, static, idIv, encrypt, p, p', acts, hephemeral, hstatic, hnegotiate, hr⟩ := h
  have hcommutes := honest_commutes aesGcm hclient hephemeral hstatic
  -- a negotiation that answers had an IV and encrypted
  cases idIv with
  | error e => cases hnegotiate
  | ok idIv =>
    cases encrypt with
    | error e => cases hnegotiate
    | ok u =>
      obtain ⟨acts', hok⟩ := @negotiateRequest_ok (primitives aesGcm) idKey tableOrder p client.pubkey ephemeral static idIv
      cases hnegotiate.symm.trans hok
      subst hr
      refine ⟨keyAgreement_eq hcommutes _,
        ⟨⟨(pendingRequestId aesGcm idKey (p.lastPendingRequestIdVal + 1) idIv).bytes, PendingRequestId.length_bytes _⟩, ?_, ?_⟩⟩
      · exact decryptData_encryptData _ _ _
      · intro q hq iv data tag
        simp only [PendingRequestId.ofBytes_bytes]
        exact openRequest_sealed idKey hq idIv iv data tag

variable {T : Type} [DecidableEq T]

/-- In every state of a node, of any number of threads, every response that was given to a client. -/
theorem negotiation_agrees (aesGcm : Aead Key Iv Mac) {es : List (Enclave.Node.Ev T)} {s : Enclave.Node.St T}
    (hr : Runs.run (Enclave.Node.step aesGcm) loaded es = some s) {client : KeyPair} (hclient : Honest client)
    {response : NegotiationResponse} {r : PendingRequest} (hmem : (client.pubkey, response, r) ∈ s.responses) :
    Usable aesGcm s.pendingRequestIdKey s.pendingRequestsTableOrder client response r := by
  have hinv := Enclave.Node.run_inv hr
  have hmade := hinv.made _ hmem
  exact made_usable hclient hmade

/-- A node that is initialised and negotiates once, on one thread. -/
def negotiateOnce (pubkey : Bytes 32) : List (Enclave.Node.Ev Unit) :=
  [.nodeInit ⟨true, true, some 4, .ok (honestPair 2).privkey, .ok (honestPair 3).privkey, .ok (honestPair 4).privkey, true⟩,
    .negotiateRequest () pubkey (.ok (honestPair 5).privkey), .copyKeypair (), .addRequest () (.ok zeroIv) (.ok ())]

theorem negotiation_agrees_first :
    ∃ (s : Enclave.Node.St Unit) (response : NegotiationResponse) (r : PendingRequest),
      Runs.run (Enclave.Node.step Enclave.AesGcm.aesGcm) loaded (negotiateOnce (honestPair 1).pubkey) = some s ∧
      ((honestPair 1).pubkey, response, r) ∈ s.responses ∧
      Usable Enclave.AesGcm.aesGcm s.pendingRequestIdKey s.pendingRequestsTableOrder (honestPair 1) response r := by
  obtain ⟨s, response, r, hrun, hmem⟩ : ∃ (s : Enclave.Node.St Unit) (response : NegotiationResponse) (r : PendingRequest),
      Runs.run (Enclave.Node.step Enclave.AesGcm.aesGcm) loaded (negotiateOnce (honestPair 1).pubkey) = some s ∧
      ((honestPair 1).pubkey, response, r) ∈ s.responses := by
    generalize Enclave.AesGcm.aesGcm = aesGcm
    generalize (honestPair 1).pubkey = pub
    exact ⟨_, _, _, rfl, List.mem_cons_self⟩
  have hclient : Honest (honestPair 1) := rfl
  exact ⟨s, response, r, hrun, hmem, negotiation_agrees _ hrun hclient hmem⟩

end ContactDiscovery.Client
