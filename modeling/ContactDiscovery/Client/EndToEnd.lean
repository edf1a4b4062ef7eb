/-
  ContactDiscovery.Client.EndToEnd — the formats of a discovery fit, from the insert of a uuid in the
  directory to the uuids a client reads in its response.

  A number is big-endian in the client's query, and the enclave reads it as a little-endian word; the
  directory has its numbers and the halves of its uuids as such words, so a search compares like with
  like, and the bytes of the uuid it finds are those the client expects. A client's request passes
  `decode_phone_list`; `discovery_end_to_end` has the whole way. The lookup is a plain search of the
  serving buffers (`plainSearch`), and the reply goes out unless its size is no `u32`, at `2 ^ 28`
  numbers.
-/

import ContactDiscovery.Client.Agreement
import ContactDiscovery.Directory.ServingBuffers
import ContactDiscovery.Enclave.Replies
import ContactDiscovery.Enclave.RequestDecoding
import ContactDiscovery.Service.ServerCall

namespace ContactDiscovery.Client

open Lib Lib.Assoc
open Directory (InternalBuffers DirectoryMap LoadFactor ValidE164 validE164_bswap swapUuid swapUuid_swapUuid mem_contents
  plainLookup_slots lookup)
open Enclave (SgxStatus Phone Uuid Ptr Usize UntrustedSlice Primitives Key Iv KeyPair NegotiationResponse hashBytes
  BYTES_PER_PHONE BYTES_PER_UUID)
open Enclave.HashLookup (plainLookup)
open Enclave.RequestKeys (shaBytes)
open Enclave.Server
open Enclave.Sgxsd
open Service (Hosted placed requestArgs decodePhoneList_placed)

/-! ## Numbers -/

theorem decodePhone_beBytes (n : Phone) : decodePhone (beBytes n) = bswap n := by
  rw [decodePhone_eq, beBytes, ← leBytes_bswap, leWord_leBytes]

theorem length_queryData (queryNonce : Bytes 32) (numbers : List Phone) :
    (queryData queryNonce numbers).length = 32 + 8 * numbers.length := by
  unfold queryData
  rw [List.length_append, queryNonce.2, List.length_flatMap]
  simp only [length_beBytes, List.map_const', List.sum_replicate, smul_eq_mul]
  omega

/-- The enclave's words of a query are the client's numbers the other way round. -/
theorem phonesOf_queryData (queryNonce : Bytes 32) (numbers : List Phone) :
    phonesOf (queryData queryNonce numbers) = numbers.map bswap := by
  have hdrop : (queryData queryNonce numbers).drop COMMITMENT_NONCE_SIZE = numbers.flatMap beBytes :=
    List.drop_left' queryNonce.2
  have hcount : ((queryData queryNonce numbers).length - COMMITMENT_NONCE_SIZE) / BYTES_PER_PHONE = numbers.length := by
    rw [length_queryData]; simp only [COMMITMENT_NONCE_SIZE, BYTES_PER_PHONE]; omega
  unfold phonesOf
  rw [hdrop, hcount]
  apply List.ext_getElem (by simp)
  intro i h₁ h₂
  have hi : i < numbers.length := by simpa using h₁
  rw [List.getElem_map, List.getElem_map, List.getElem_range,
    show BYTES_PER_PHONE = 8 from rfl, block_flatMap beBytes length_beBytes numbers i hi, decodePhone_beBytes]

/-! ## The request -/

section Request

variable {P : Primitives} {client : KeyPair} {random : ClientRandom} {host : String} {negotiation : NegotiationResponse}
  {numbers : List Phone} {serverKey : Key} {request : DiscoveryRequest}

theorem discoveryRequest_query (h : discoveryRequest P client random host negotiation numbers = .ok (serverKey, request)) :
    request.addressCount = BitVec.ofNat 32 numbers.length ∧
    request.commitment = hashBytes (P.sha256 (queryData random.queryNonce numbers)) ∧
    request.query = encryptData P random.queryIv random.queryDataKey (queryData random.queryNonce numbers) [] := by
  unfold discoveryRequest at h
  simp only at h
  split at h
  · cases h
  · cases h
    exact ⟨rfl, rfl, rfl⟩

theorem serverCrypto_decrypt (key : Key) (iv : Iv) (data : List Byte) :
    ∃ h, (serverCrypto P).decrypt key.1 (encryptData P iv key data []).data (encryptData P iv key data []).iv.1
      (encryptData P iv key data []).mac.1 = .ok ⟨data, h⟩ := by
  refine ⟨(P.aesGcm.length_encrypt key iv [] data).symm, ?_⟩
  simp only [serverCrypto, encryptData]
  rw [dif_pos ⟨key.2, iv.2, (P.aesGcm.encrypt key iv [] data).2.2⟩]
  split
  · rename_i hplain
    cases hplain.symm.trans (P.aesGcm.decrypt_encrypt key iv [] data)
  · rename_i plain hplain
    cases hplain.symm.trans (P.aesGcm.decrypt_encrypt key iv [] data)
    rfl

theorem length_query (h : discoveryRequest P client random host negotiation numbers = .ok (serverKey, request)) :
    request.query.data.length = 32 + 8 * numbers.length := by
  obtain ⟨-, -, hquery⟩ := discoveryRequest_query h
  rw [hquery, ← length_queryData random.queryNonce]
  exact P.aesGcm.length_encrypt _ _ _ _

/-- The request passes the checks of size, MAC and commitment. -/
theorem decodePhoneList_request (h : discoveryRequest P client random host negotiation numbers = .ok (serverKey, request))
    (hsize : 32 + 8 * numbers.length < 2 ^ 32) {outside : Ptr → Usize → BitVec 32} {ptr : Ptr}
    (hhost : Hosted outside ptr request.query.data) :
    decodePhoneList (serverCrypto P) outside (placed ptr request.query.data) (requestArgs ptr request) random.queryDataKey.1 =
      .ok (queryData random.queryNonce numbers) := by
  have hlen := length_query h
  obtain ⟨hcount, hcommitment, hquery⟩ := discoveryRequest_query h
  have hne : request.query.data ≠ [] := fun h0 => by rw [h0] at hlen; simp at hlen; omega
  rw [decodePhoneList_placed hhost hne]
  have hsize : request.query.data.length =
      COMMITMENT_NONCE_SIZE + BYTES_PER_PHONE * (requestArgs ptr request).queryPhoneCount.toNat := by
    simp only [requestArgs, hcount, hlen, COMMITMENT_NONCE_SIZE, BYTES_PER_PHONE, BitVec.toNat_ofNat]
    omega
  have hdecrypt : ∃ h, (serverCrypto P).decrypt random.queryDataKey.1 request.query.data
      (requestArgs ptr request).query.iv (requestArgs ptr request).query.mac = .ok ⟨queryData random.queryNonce numbers, h⟩ := by
    unfold requestArgs
    rw [hquery]
    exact serverCrypto_decrypt _ _ _
  exact decodeQuery_ok_iff.mpr ⟨random.queryDataKey.2, hsize, hdecrypt, congrArg Subtype.val hcommitment.symm⟩

end Request

/-! ## The response -/

/-- A uuid as its sixteen bytes, as Java's most and least significant halves have it. -/
def uuidBytes (uuid : Uuid) : List Byte := beBytes (uuid.data64 0) ++ beBytes (uuid.data64 1)

theorem bytes_swapUuid (uuid : Uuid) : (swapUuid uuid).bytes = uuidBytes uuid := by
  simp only [Uuid.bytes, swapUuid, uuidBytes, leBytes_bswap, beBytes]

/-- What the client reads in a reply with a block for each of its words. -/
theorem decodeDiscoveryResponse_reply {P : Primitives} (key : Key) (iv : Iv) {f : Phone → List Byte} {phones : List Phone}
    {msg : List Byte} (h : Answers (fun p b => b = f p) phones msg) :
    decodeDiscoveryResponse P key (sealedReply P key iv msg) = .ok (phones.map f) := by
  have hmsg : decryptData P key (sealedReply P key iv msg) = .ok msg := decryptData_encryptData iv key msg
  have hcount : msg.length / 16 = phones.length := by rw [h.length]; simp only [BYTES_PER_UUID]; omega
  unfold decodeDiscoveryResponse
  simp only [hmsg, hcount]
  congr 1
  apply List.ext_getElem (by simp)
  intro i h₁ h₂
  rw [List.getElem_map, List.getElem_map, List.getElem_range]
  exact h.block i (by simpa using h₂)

/-! ## The search -/

def searched (slots : List (Phone × Uuid)) (phones : List Phone) : List Byte :=
  phones.flatMap fun p => (plainLookup slots p).bytes

def plainSearch (slots : List (Phone × Uuid)) (_ _ : Ptr) (_ : Usize) (phones : List Phone) (_ : List Byte) :
    Except SgxStatus Unit × List Byte := (.ok (), searched slots phones)

theorem answers_searched (slots : List (Phone × Uuid)) (phones : List Phone) :
    Answers (fun p b => b = (plainLookup slots p).bytes) phones (searched slots phones) := by
  refine ⟨?_, fun i hi => block_flatMap (fun p => (plainLookup slots p).bytes) (fun p => Uuid.length_bytes _) phones i hi⟩
  unfold searched
  rw [List.length_flatMap]
  simp only [Uuid.length_bytes, List.map_const', List.sum_replicate, smul_eq_mul, BYTES_PER_UUID]
  omega

theorem plainSearch_correct (slots : List (Phone × Uuid)) (p u : Ptr) (n : Usize) :
    LookupCorrect (fun p b => b = (plainLookup slots p).bytes) (plainSearch slots p u n) :=
  fun chunk _ _ _ _ => ⟨_, rfl, answers_searched slots chunk⟩

section Directory

variable {φ : Type} [LoadFactor φ] {entries : List (Phone × Uuid)} {serving : InternalBuffers φ}

def servingSlots (serving : InternalBuffers φ) : List (Phone × Uuid) := serving.e164sBuffer.zip serving.uuidsBuffer

/-- The uuid that was inserted for a number, or the nil uuid. -/
def insertedUuid (entries : List (Phone × Uuid)) (n : Phone) : List Byte := uuidBytes ((last? n entries).getD Uuid.zero)

theorem plainLookup_serving (h : DirectoryMap.Committed entries serving) (hvalid : ∀ e ∈ entries, ValidE164 e.1)
    (hdistinct : (entries.map (·.1)).Nodup) (n : Phone) :
    (plainLookup (servingSlots serving) (bswap n)).bytes = insertedUuid entries n := by
  obtain ⟨hrefines, hnil⟩ := h.serving hvalid hdistinct
  have hmap : lookup serving.e164sBuffer serving.uuidsBuffer n = last? n entries := congrFun hrefines.map n
  rw [servingSlots, plainLookup_slots hnil, bytes_swapUuid, hmap, insertedUuid]

/-- The words of the directory that are no mark are those of the entries, and the words of a query
    match them exactly where the numbers are equal. -/
def WordsMatch (e164s : List Phone) (entries : List (Phone × Uuid)) (numbers phones : List Phone) : Prop :=
  (∀ e ∈ entries, ∃ word ∈ e164s, ValidE164 word ∧ ∀ i : Nat, phones[i]? = some word ↔ numbers[i]? = some e.1) ∧
  ∀ word ∈ e164s, ValidE164 word → ∃ e ∈ entries, ∀ i : Nat, phones[i]? = some word ↔ numbers[i]? = some e.1

theorem getElem?_map_bswap (numbers : List Phone) (n : Phone) (i : Nat) :
    (numbers.map bswap)[i]? = some (bswap n) ↔ numbers[i]? = some n := by
  rw [List.getElem?_map, Option.map_eq_some_iff]
  constructor
  · intro ⟨n', hn', heq⟩
    rw [hn', bswap_inj.mp heq]
  · intro h
    exact ⟨n, h, rfl⟩

theorem wordsMatch_serving (h : DirectoryMap.Committed entries serving) (hvalid : ∀ e ∈ entries, ValidE164 e.1)
    (hdistinct : (entries.map (·.1)).Nodup) (numbers : List Phone) :
    WordsMatch serving.e164sBuffer entries numbers (numbers.map bswap) := by
  obtain ⟨hrefines, -⟩ := h.serving hvalid hdistinct
  have hpairs := hrefines.represents.pairs
  refine ⟨fun e he => ?_, fun word hword hv => ?_⟩
  · have hmem := (hpairs e.1 e.2).mpr (last?_of_nodup hdistinct he)
    obtain ⟨-, i, hx, -⟩ := mem_contents.mp hmem
    exact ⟨bswap e.1, List.mem_of_getElem? hx, validE164_bswap.mpr (hvalid e he), getElem?_map_bswap numbers e.1⟩
  · obtain ⟨i, hi, hx⟩ := List.mem_iff_getElem.mp hword
    have hu : i < serving.uuidsBuffer.length := hrefines.wf.length ▸ hi
    have hmem := (hpairs (bswap word) (swapUuid serving.uuidsBuffer[i])).mp (mem_contents.mpr
      ⟨validE164_bswap.mpr hv, i, by rw [bswap_bswap, List.getElem?_eq_getElem hi, hx],
        by rw [swapUuid_swapUuid, List.getElem?_eq_getElem hu]⟩)
    refine ⟨_, mem_of_last? hmem, fun j => ?_⟩
    have hnumber := getElem?_map_bswap numbers (bswap word) j
    rwa [bswap_bswap] at hnumber

/-- From the insert to the response. The request passes `decode_phone_list`, its words match those of
    the directory exactly where the numbers are equal, and the client reads the uuids of its numbers
    in a reply with the results of the search. Such a reply goes out: on every server that has room
    for the request, whatever other requests it has, the request is taken, and a stop in which
    nothing fails replies to it. -/
theorem discovery_end_to_end (P : Primitives) (client : KeyPair) (random : ClientRandom) (host : String)
    (negotiation : NegotiationResponse) (numbers : List Phone) (serverKey : Key) (request : DiscoveryRequest)
    (hrequest : discoveryRequest P client random host negotiation numbers = .ok (serverKey, request))
    (hne : numbers ≠ []) (hsize : 32 + 8 * numbers.length < 2 ^ 32)
    (hcommitted : DirectoryMap.Committed entries serving) (hvalid : ∀ e ∈ entries, ValidE164 e.1)
    (hdistinct : (entries.map (·.1)).Nodup)
    (outside : Ptr → Usize → BitVec 32) (ptr : Ptr) (hhost : Hosted outside ptr request.query.data) :
    ∃ data,
      decodePhoneList (serverCrypto P) outside (placed ptr request.query.data) (requestArgs ptr request)
        random.queryDataKey.1 = .ok data ∧
      (phonesOf data).length = numbers.length ∧ WordsMatch serving.e164sBuffer entries numbers (phonesOf data) ∧
      (∀ iv, decodeDiscoveryResponse P serverKey
        (sealedReply P serverKey iv (searched (servingSlots serving) (phonesOf data))) =
          .ok (numbers.map (insertedUuid entries))) ∧
      ∀ (s : SgxsdServerState Sender) (others : List (Sender × List Phone)) (sender : Sender) (stopArgs : StopArgs)
        (a b : UntrustedSlice) (env : StopEnv),
        Collected s others → (∀ x ∈ others, x.2.length < 2 ^ 28) → s.capacity < 2 ^ 32 →
        s.queryPhones.length + numbers.length ≤ s.capacity → numbers.length < 2 ^ 28 → sender.serverKey = serverKey →
        directorySlices outside stopArgs = some (a, b) → (∀ i, (env.reply i).Works) →
        ∃ s' r acts reply,
          handleCall (serverCrypto P) outside s
            ⟨some (requestArgs ptr request), random.queryDataKey.1, placed ptr request.query.data, sender⟩ = (.ok (), s') ∧
          serverStopLocked P outside (plainSearch (servingSlots serving)) (some s') (some stopArgs) env = some (r, acts) ∧
          Act.tag sender.tag (.replied reply) ∈ acts ∧
          decodeDiscoveryResponse P serverKey reply = .ok (numbers.map (insertedUuid entries)) := by
  have hdecode := decodePhoneList_request hrequest hsize hhost
  have hphones := phonesOf_queryData random.queryNonce numbers
  have hread : ∀ iv msg, Answers (fun p b => b = (plainLookup (servingSlots serving) p).bytes)
      (phonesOf (queryData random.queryNonce numbers)) msg →
      decodeDiscoveryResponse P serverKey (sealedReply P serverKey iv msg) = .ok (numbers.map (insertedUuid entries)) := by
    intro iv msg h
    rw [decodeDiscoveryResponse_reply serverKey iv h, hphones, List.map_map]
    congr 1
    exact List.map_congr_left fun n _ => plainLookup_serving hcommitted hvalid hdistinct n
  refine ⟨_, hdecode, by rw [hphones, List.length_map], ?_, fun iv => hread iv _ (answers_searched _ _), ?_⟩
  · rw [hphones]
    exact wordsMatch_serving hcommitted hvalid hdistinct numbers
  intro s others sender stopArgs a b env hs hothers hcapacity hroom hsmall hkey hd hw
  have hpos := List.length_pos_of_ne_nil hne
  obtain ⟨hcount, -, -⟩ := discoveryRequest_query hrequest
  have hcountNat : (requestArgs ptr request).queryPhoneCount.toNat = numbers.length := by
    simp only [requestArgs, hcount, BitVec.toNat_ofNat]
    omega
  have hlen : (phonesOf (queryData random.queryNonce numbers)).length = numbers.length := by rw [hphones, List.length_map]
  have hcall := @handleCall_ok Sender (serverCrypto P) outside s (requestArgs ptr request) random.queryDataKey.1 _ _ hdecode
    (fun h0 => by rw [h0] at hcountNat; simp at hcountNat; omega) (by omega) (by omega) sender
  obtain ⟨r, acts, hstop, hreplies⟩ := @serverStopLocked_replies P outside (plainSearch (servingSlots serving))
    (fun p b => b = (plainLookup (servingSlots serving) p).bytes) _ _ (hs.accept sender (phonesOf _))
    (fun x hx => by
      rcases List.mem_append.mp hx with hx | hx
      · exact hothers x hx
      · rw [List.mem_singleton.mp hx, hlen]; exact hsmall)
    (by simp only [List.length_append, hlen, BYTES_PER_UUID]; omega) stopArgs a b hd (plainSearch_correct _ _ _ _) env hw
  obtain ⟨iv, msg, hmsg, hreply⟩ := hreplies _ (List.mem_append_right _ (List.mem_singleton.mpr rfl))
  refine ⟨_, r, acts, _, hcall, hstop, hreply, ?_⟩
  rw [hkey]
  exact hread iv msg hmsg

end Directory

/-- One entry, and a client that asks for its number and for another. -/
theorem discovery_end_to_end_plain :
    ∃ (serving : InternalBuffers ℚ) (serverKey : Key) (request : DiscoveryRequest) (data : List Byte),
      DirectoryMap.Committed [(5, ⟨fun _ => 1⟩)] serving ∧
      discoveryRequest plainPrimitives ⟨zeroKey, zeroKey⟩ ⟨zeroKey, zeroKey, zeroIv, zeroIv⟩ "host"
        ⟨zeroKey, zeroKey, ⟨List.replicate 36 0, zeroIv, zeroMac⟩⟩ [5, 7] = .ok (serverKey, request) ∧
      decodePhoneList (serverCrypto plainPrimitives) (fun _ _ => 1) (placed 1 request.query.data) (requestArgs 1 request)
        zeroKey.1 = .ok data ∧
      decodeDiscoveryResponse plainPrimitives serverKey
        (sealedReply plainPrimitives serverKey zeroIv (searched (servingSlots serving) (phonesOf data))) =
          .ok [uuidBytes ⟨fun _ => 1⟩, List.replicate 16 0] := by
  have hrun : ((Runs.run DirectoryMap.step .eightSlots [.insert 5 ⟨fun _ => 1⟩]).bind DirectoryMap.commit).isSome := by
    decide +kernel
  obtain ⟨⟨r, d'⟩, hbind⟩ := Option.isSome_iff_exists.mp hrun
  obtain ⟨d, hinsert, hcommit⟩ := Option.bind_eq_some_iff.mp hbind
  have hcommitted : DirectoryMap.Committed [(5, ⟨fun _ => 1⟩)] d'.serving :=
    ⟨8, 1 / 4, 3 / 4, _, d, d', r, DirectoryMap.new_eightSlots, hinsert, hcommit, rfl⟩
  obtain ⟨serverKey, request, hrequest⟩ : ∃ serverKey request,
      discoveryRequest plainPrimitives ⟨zeroKey, zeroKey⟩ ⟨zeroKey, zeroKey, zeroIv, zeroIv⟩ "host"
        ⟨zeroKey, zeroKey, ⟨List.replicate 36 0, zeroIv, zeroMac⟩⟩ [5, 7] = .ok (serverKey, request) := ⟨_, _, rfl⟩
  have hlen : request.query.data.length = 48 := length_query hrequest
  obtain ⟨data, hdecode, -, -, hread, -⟩ := discovery_end_to_end plainPrimitives _ _ _ _ _ serverKey request hrequest
    (by decide) (by decide) hcommitted (by decide) (by decide) (fun _ _ => 1) 1
    ⟨by decide, rfl, by rw [hlen]; decide, by rw [hlen]; decide⟩
  refine ⟨d'.serving, serverKey, request, data, hcommitted, hrequest, hdecode, (hread zeroIv).trans ?_⟩
  decide

end ContactDiscovery.Client
