/-
  ContactDiscovery.Client.Agreement — a client and the enclave agree: on the two keys of a request,
  on its id, and on the envelope.

  The enclave hashes the salt of the key derivation beforehand and runs HKDF in its own rounds; the
  client hands both to a library. `keyAgreement_eq`: whenever the Diffie-Hellman function commutes on
  the keys at hand, both get the same pair. `client_enclave_agree`: the client then reads the id of
  its pending request in the response, and, as long as the request is in its slot of the table, the
  enclave takes that id, and opens what the client sealed for it.
-/

import ContactDiscovery.Client.Client
import ContactDiscovery.Enclave.AesGcm
import ContactDiscovery.Enclave.Node

namespace ContactDiscovery.Client

open Lib Lib.Crypt
open Enclave (SgxStatus Primitives Key Iv Mac KeyPair EncryptedBytes NegotiationResponse PendingRequestId MsgHeader hashBytes)
open Enclave.PendingRequests (Prk PendingRequest addPendingRequest removePendingRequest slot)
open Enclave.RequestKeys (shaBytes length_shaBytes deriveRequestKeys deriveRequestKeys_eq requestPrk_eq)
open Enclave.Sgxsd (idCipher pendingRequestId negotiatedPrk serverKey zeroIv negotiateRequest openRequest decryptMessage)
open Enclave.Node (Honest primitives x25519 basepoint)

variable {P : Primitives}

/-- The secrets a client shares with the two keys of the enclave are those the enclave computes. -/
structure Commutes (P : Primitives) (client ephemeral static : KeyPair) : Prop where
  ephemeral : P.x25519 client.privkey ephemeral.pubkey = P.x25519 ephemeral.privkey client.pubkey
  static : P.x25519 client.privkey static.pubkey = P.x25519 static.privkey client.pubkey

theorem x25519_comm {a b : KeyPair} (ha : Honest a) (hb : Honest b) : x25519 a.privkey b.pubkey = x25519 b.privkey a.pubkey := by
  rw [ha, hb]
  exact Subtype.ext (Enclave.Curve25519.curve25519Donna_comm a.privkey b.privkey _)

theorem honest_commutes (aesGcm : Aead Key Iv Mac) {client ephemeral static : KeyPair} (hclient : Honest client)
    (hephemeral : Honest ephemeral) (hstatic : Honest static) : Commutes (primitives aesGcm) client ephemeral static :=
  ⟨x25519_comm hclient hephemeral, x25519_comm hclient hstatic⟩

/-! ## The keys -/

theorem keyAgreement_eq {client ephemeral static : KeyPair} (h : Commutes P client ephemeral static) (idVal : BitVec 64) :
    keyAgreement P client.privkey client.pubkey ephemeral.pubkey static.pubkey =
      deriveRequestKeys P.sha256 ⟨idVal, negotiatedPrk P client.pubkey ephemeral static⟩ := by
  obtain ⟨hclient, hserver⟩ := @deriveRequestKeys_eq P.sha256 ⟨idVal, negotiatedPrk P client.pubkey ephemeral static⟩
  obtain ⟨prk, hprk⟩ : ∃ prk, prk = (hashBytes (negotiatedPrk P client.pubkey ephemeral static)).1 := ⟨_, rfl⟩
  have hextract : extract (shaBytes P.sha256) 64 (client.pubkey.1 ++ ephemeral.pubkey.1 ++ static.pubkey.1)
      ((P.x25519 client.privkey ephemeral.pubkey).1 ++ (P.x25519 client.privkey static.pubkey).1) = prk := by
    rw [hprk, negotiatedPrk, requestPrk_eq, h.ephemeral, h.static]
  have hexpand : expand (shaBytes P.sha256) 64 32 prk [] 64 =
      okmBlock (shaBytes P.sha256) 64 prk [] 1 ++ okmBlock (shaBytes P.sha256) 64 prk [] 2 :=
    expand_two (fun _ => length_shaBytes _) (by decide) prk []
  have hlen : ∀ i, (okmBlock (shaBytes P.sha256) 64 prk [] (i + 1)).length = 32 := fun i => length_shaBytes _
  apply Prod.ext
  · apply Subtype.ext
    rw [hclient, ← hprk]
    simp only [keyAgreement, hextract, hexpand]
    exact List.take_left' (hlen 0)
  · apply Subtype.ext
    rw [hserver, ← hprk]
    simp only [keyAgreement, hextract, hexpand]
    rw [List.drop_left' (hlen 0), List.take_of_length_le (Nat.le_of_eq (hlen 1))]

/-! ## The id -/

def added (tableOrder : Nat) (p : Enclave.PendingRequests.St) (prk : Prk) : Enclave.PendingRequests.St :=
  ⟨Function.update p.pendingRequests (slot tableOrder (p.lastPendingRequestIdVal + 1)) ⟨p.lastPendingRequestIdVal + 1, prk⟩,
    p.lastPendingRequestIdVal + 1⟩

theorem addPendingRequest_ok (idKey : Key) (tableOrder : Nat) (p : Enclave.PendingRequests.St) (prk : Prk) (idIv : Iv) :
    addPendingRequest (idCipher P.aesGcm idKey) tableOrder p prk (.ok idIv) =
      (.ok (pendingRequestId P.aesGcm idKey (p.lastPendingRequestIdVal + 1) idIv), added tableOrder p prk) := rfl

theorem negotiateRequest_ok (idKey : Key) (tableOrder : Nat) (p : Enclave.PendingRequests.St) (clientPubkey : Bytes 32)
    (ephemeral static : KeyPair) (idIv : Iv) :
    ∃ acts, negotiateRequest P (idCipher P.aesGcm idKey) tableOrder p clientPubkey ⟨.ok ephemeral, static, .ok idIv, .ok ()⟩ =
      (.ok ⟨static.pubkey, ephemeral.pubkey, encryptData P zeroIv (serverKey P (negotiatedPrk P clientPubkey ephemeral static))
          (pendingRequestId P.aesGcm idKey (p.lastPendingRequestIdVal + 1) idIv).bytes []⟩,
        added tableOrder p (negotiatedPrk P clientPubkey ephemeral static), acts) := by
  simp only [negotiateRequest, addPendingRequest_ok, encryptData]
  exact ⟨_, rfl⟩

/-! ## The envelope -/

/-- A request that is in its slot is found by its id, and opens what was sealed under its client's
    key. -/
theorem openRequest_sealed (idKey : Key) {tableOrder : Nat} {q : Enclave.PendingRequests.St} {r : PendingRequest}
    (hr : q.pendingRequests (slot tableOrder r.idVal) = r) (idIv iv : Iv) (data : List Byte) (tag : Nat) :
    (openRequest P (idCipher P.aesGcm idKey) tableOrder q
      ⟨iv, (encryptData P iv (deriveRequestKeys P.sha256 r).1 data (pendingRequestId P.aesGcm idKey r.idVal idIv).bytes).mac,
        pendingRequestId P.aesGcm idKey r.idVal idIv⟩
      (encryptData P iv (deriveRequestKeys P.sha256 r).1 data (pendingRequestId P.aesGcm idKey r.idVal idIv).bytes).data tag).1 =
      .ok (data, ⟨tag, (deriveRequestKeys P.sha256 r).2, r.idVal⟩) := by
  have hnumber : (idCipher P.aesGcm idKey).decrypt (pendingRequestId P.aesGcm idKey r.idVal idIv) = .ok r.idVal :=
    (idCipher P.aesGcm idKey).decrypt_encrypt r.idVal idIv _ rfl
  simp only [openRequest, removePendingRequest, hnumber, hr, if_true, decryptMessage, encryptData,
    P.aesGcm.decrypt_encrypt]

/-- The keys agree; and after every negotiation the client reads the id in the response, and as long
    as the request is in its slot, the enclave takes the id and opens what the client sealed with it. -/
theorem client_enclave_agree (client ephemeral static : KeyPair) (h : Commutes P client ephemeral static) :
    (∀ idVal, keyAgreement P client.privkey client.pubkey ephemeral.pubkey static.pubkey =
      deriveRequestKeys P.sha256 ⟨idVal, negotiatedPrk P client.pubkey ephemeral static⟩) ∧
    ∀ (idKey : Key) (tableOrder : Nat) (p : Enclave.PendingRequests.St) (idIv : Iv),
      ∃ response p' acts, ∃ id : Bytes 36,
        negotiateRequest P (idCipher P.aesGcm idKey) tableOrder p client.pubkey ⟨.ok ephemeral, static, .ok idIv, .ok ()⟩ =
          (.ok response, p', acts) ∧
        let keys := keyAgreement P client.privkey client.pubkey response.serverEphemeralPubkey response.serverStaticPubkey
        let r : PendingRequest := ⟨p'.lastPendingRequestIdVal, negotiatedPrk P client.pubkey ephemeral static⟩
        decryptData P keys.2 response.encryptedPendingRequestId = .ok id.1 ∧
        p'.pendingRequests (slot tableOrder r.idVal) = r ∧
        ∀ q : Enclave.PendingRequests.St, q.pendingRequests (slot tableOrder r.idVal) = r →
          ∀ (iv : Iv) (data : List Byte) (tag : Nat),
            let envelope := encryptData P iv keys.1 data id.1
            (openRequest P (idCipher P.aesGcm idKey) tableOrder q ⟨iv, envelope.mac, .ofBytes id⟩ envelope.data tag).1 =
              .ok (data, ⟨tag, keys.2, r.idVal⟩) := by
  refine ⟨keyAgreement_eq h, fun idKey tableOrder p idIv => ?_⟩
  obtain ⟨acts, hok⟩ := @negotiateRequest_ok P idKey tableOrder p client.pubkey ephemeral static idIv
  have hkeys := keyAgreement_eq h (p.lastPendingRequestIdVal + 1)
  refine ⟨_, _, acts, ⟨(pendingRequestId P.aesGcm idKey (p.lastPendingRequestIdVal + 1) idIv).bytes, PendingRequestId.length_bytes _⟩, hok,
    ?_, Function.update_self _ _ _, fun q hq iv data tag => ?_⟩
  · simp only [hkeys]
    exact decryptData_encryptData _ _ _
  · simp only [hkeys, PendingRequestId.ofBytes_bytes]
    exact openRequest_sealed idKey hq idIv iv data tag

/-- The pair of the private key that is this byte 32 times. -/
def honestPair (b : Byte) : KeyPair := ⟨repeated 32 b, x25519 (repeated 32 b) basepoint⟩

/-- Three pairs of `curve25519_donna`, with the enclave's SHA-256 and AES-GCM. -/
theorem client_enclave_agree_honest :
    (honestPair 1).privkey ≠ (honestPair 2).privkey ∧ (honestPair 1).privkey ≠ (honestPair 3).privkey ∧
    (honestPair 2).privkey ≠ (honestPair 3).privkey ∧
    let P := primitives Enclave.AesGcm.aesGcm
    Commutes P (honestPair 1) (honestPair 2) (honestPair 3) ∧
    (∀ idVal, keyAgreement P (honestPair 1).privkey (honestPair 1).pubkey (honestPair 2).pubkey (honestPair 3).pubkey =
      deriveRequestKeys P.sha256 ⟨idVal, negotiatedPrk P (honestPair 1).pubkey (honestPair 2) (honestPair 3)⟩) ∧
    ∀ (idKey : Key) (tableOrder : Nat) (p : Enclave.PendingRequests.St) (idIv : Iv),
      ∃ response p' acts, ∃ id : Bytes 36,
        negotiateRequest P (idCipher P.aesGcm idKey) tableOrder p (honestPair 1).pubkey
            ⟨.ok (honestPair 2), honestPair 3, .ok idIv, .ok ()⟩ = (.ok response, p', acts) ∧
        let keys := keyAgreement P (honestPair 1).privkey (honestPair 1).pubkey response.serverEphemeralPubkey
          response.serverStaticPubkey
        let r : PendingRequest := ⟨p'.lastPendingRequestIdVal, negotiatedPrk P (honestPair 1).pubkey (honestPair 2) (honestPair 3)⟩
        decryptData P keys.2 response.encryptedPendingRequestId = .ok id.1 ∧
        p'.pendingRequests (slot tableOrder r.idVal) = r ∧
        ∀ q : Enclave.PendingRequests.St, q.pendingRequests (slot tableOrder r.idVal) = r →
          ∀ (iv : Iv) (data : List Byte) (tag : Nat),
            let envelope := encryptData P iv keys.1 data id.1
            (openRequest P (idCipher P.aesGcm idKey) tableOrder q ⟨iv, envelope.mac, .ofBytes id⟩ envelope.data tag).1 =
              .ok (data, ⟨tag, keys.2, r.idVal⟩) := by
  have hcommutes : Commutes (primitives Enclave.AesGcm.aesGcm) (honestPair 1) (honestPair 2) (honestPair 3) :=
    honest_commutes _ rfl rfl rfl
  exact ⟨by decide, by decide, by decide, hcommutes, client_enclave_agree _ _ _ hcommutes⟩

end ContactDiscovery.Client
