/-
  ContactDiscovery.Client.Client — the client library (`cds_client/src/lib.rs`): the key agreement of a
  negotiation, the request, and the uuids of the response.

  The client's ciphers, hash and curve are the enclave's (`Primitives`); its HKDF is that of
  `Lib.Crypt`. What it draws at random is input (`ClientRandom`, in the order drawn). A uuid is its
  sixteen bytes.
-/

import ContactDiscovery.Enclave.Sgxsd

namespace ContactDiscovery.Client

open Lib Lib.Crypt
open Enclave (Phone Primitives Key Iv Mac KeyPair EncryptedBytes NegotiationResponse hashBytes)
open Enclave.RequestKeys (shaBytes length_shaBytes)

inductive CdsClientError where
  | decryptionError
  deriving DecidableEq, Repr

structure DiscoveryRequestEnvelope where
  requestId : List Byte
  envelope : EncryptedBytes

structure DiscoveryRequest where
  addressCount : BitVec 32
  commitment : Bytes 32
  query : EncryptedBytes
  envelopes : List (String × DiscoveryRequestEnvelope)

structure ClientRandom where
  queryNonce : Bytes 32
  queryDataKey : Bytes 32
  envelopeIv : Iv
  queryIv : Iv

section Client

variable (P : Primitives)

/-- The client's key and the server's. -/
def keyAgreement (clientPrivkey clientPubkey serverEphemeralPubkey serverStaticPubkey : Bytes 32) : Key × Key :=
  let hkdfSecret := (P.x25519 clientPrivkey serverEphemeralPubkey).1 ++ (P.x25519 clientPrivkey serverStaticPubkey).1
  let hkdfSalt := clientPubkey.1 ++ serverEphemeralPubkey.1 ++ serverStaticPubkey.1
  let prk := extract (shaBytes P.sha256) 64 hkdfSalt hkdfSecret
  let keys := expand (shaBytes P.sha256) 64 32 prk [] 64
  have hkeys : keys.length = 64 := length_expand_two (fun _ => length_shaBytes _) (by decide) prk []
  (⟨keys.take 32, by rw [List.length_take, hkeys]; rfl⟩, ⟨(keys.drop 32).take 32, by
    rw [List.length_take, List.length_drop, hkeys]; rfl⟩)

/-- `FixedSealingKey::seal_in_place`, under an IV of its own. -/
def encryptData (iv : Iv) (key : Key) (data aad : List Byte) : EncryptedBytes :=
  let encrypted := P.aesGcm.encrypt key iv aad data
  ⟨encrypted.1, iv, encrypted.2⟩

theorem length_drop_mac {buf : List Byte} (h : ¬buf.length < 16) : (buf.drop (buf.length - 16)).length = 16 := by
  rw [List.length_drop]; omega

/-- `FixedOpeningKey::open_in_place`: the buffer ends with the MAC, which stays there. -/
def openInPlace (key : Key) (iv : Iv) (aad buf : List Byte) : Except CdsClientError (List Byte) :=
  if h : buf.length < 16 then .error .decryptionError
  else
    match P.aesGcm.decrypt key iv aad (buf.take (buf.length - 16))
        ⟨buf.drop (buf.length - 16), length_drop_mac h⟩ with
    | none => .error .decryptionError
    | some plain => .ok (plain ++ buf.drop (buf.length - 16))

/-- What both of the client's decryptions do: the MAC is appended, and cut off again. -/
def decryptData (key : Key) (message : EncryptedBytes) : Except CdsClientError (List Byte) :=
  match openInPlace P key message.iv [] (message.data ++ message.mac.1) with
  | .error e => .error e
  | .ok buf => .ok (buf.take message.data.length)

def queryData (queryNonce : Bytes 32) (phoneList : List Phone) : List Byte := queryNonce.1 ++ phoneList.flatMap beBytes

/-- The server's key and the request. -/
def discoveryRequest (client : KeyPair) (random : ClientRandom) (attestationKey : String) (negotiation : NegotiationResponse)
    (phoneList : List Phone) : Except CdsClientError (Key × DiscoveryRequest) :=
  let keys := keyAgreement P client.privkey client.pubkey negotiation.serverEphemeralPubkey negotiation.serverStaticPubkey
  match decryptData P keys.2 negotiation.encryptedPendingRequestId with
  | .error e => .error e
  | .ok pendingRequestId =>
    let query := queryData random.queryNonce phoneList
    let envelope := encryptData P random.envelopeIv keys.1 random.queryDataKey.1 pendingRequestId
    .ok (keys.2,
      { addressCount := BitVec.ofNat 32 phoneList.length
        commitment := hashBytes (P.sha256 query)
        query := encryptData P random.queryIv random.queryDataKey query []
        envelopes := [(attestationKey, ⟨pendingRequestId, envelope⟩)] })

/-- The uuids of a response: what does not fill one is left out. -/
def decodeDiscoveryResponse (serverKey : Key) (response : EncryptedBytes) : Except CdsClientError (List (List Byte)) :=
  match decryptData P serverKey response with
  | .error e => .error e
  | .ok uuidArray => .ok ((List.range (uuidArray.length / 16)).map fun i => block 16 i uuidArray)

variable {P}

/-- What is encrypted under a key is read back with it. -/
theorem decryptData_encryptData (iv : Iv) (key : Key) (data : List Byte) :
    decryptData P key (encryptData P iv key data []) = .ok data := by
  obtain ⟨encrypted, hencrypted⟩ : ∃ encrypted, encrypted = P.aesGcm.encrypt key iv [] data := ⟨_, rfl⟩
  have hlen : encrypted.1.length = data.length := by rw [hencrypted, P.aesGcm.length_encrypt]
  have hdecrypt : P.aesGcm.decrypt key iv [] encrypted.1 encrypted.2 = some data := by
    rw [hencrypted, P.aesGcm.decrypt_encrypt]
  have hmac := encrypted.2.2
  have hbuf : (encrypted.1 ++ encrypted.2.1).length - 16 = encrypted.1.length := by rw [List.length_append, hmac]; omega
  unfold decryptData encryptData
  simp only [← hencrypted]
  unfold openInPlace
  rw [dif_neg (by rw [List.length_append, hmac]; omega)]
  simp only [hbuf, List.take_left, List.drop_left, hdecrypt]
  rw [hlen, List.take_left]

end Client

end ContactDiscovery.Client
