/-
  ContactDiscovery.Service.BatchProofs — every request of a batch gets its response completed, and
  normally only with what the stop with the directory replied to it (`batch_completes`), however the
  native code fails. And the worker's server is given up exactly if it was not started, or the stop
  that the batch ends with gets to the enclave (`server_released_iff`): a directory without slots
  makes the stop panic before that, and the server stays started for ever (`empty_directory_leaks`).

  What a slot can be is said for the slot (`Slot.Inv`): its response is what its stage completed with,
  a stage completed normally only with a reply that was delivered, and once the batch's future failed
  no stage waits. So a delivery after that changes no response.
-/

import ContactDiscovery.Directory.InternalBuffers
import ContactDiscovery.Service.Batch

namespace ContactDiscovery.Service.Batch

open Lib
open Lib.Futures (Thrown Completion whenComplete)
open Client (DiscoveryRequest DiscoveryRequestEnvelope)
open Discovery (DiscoveryResponse)
open Enclave (EncryptedBytes)

abbrev Delivered := List (Nat × Completion Throwable EncryptedBytes)

/-! ## A slot -/

/-- The `i`-th slot, with the ids of the requests, what was delivered, and whether the batch's future
    failed. -/
structure Slot.Inv (ids : Nat → Option (List Byte)) (D : Delivered) (failed : Bool) (i : Nat) (s : Slot) : Prop where
  unadded : s.stage = none → s.response = none
  requestId : ∀ st, s.stage = some st → ids i = some st.requestId
  response : ∀ st, s.stage = some st → s.response = st.either.map (respond st.requestId)
  normal : ∀ st reply, s.stage = some st → st.either = some (.normal reply) → (i, .normal reply) ∈ D
  settled : failed = true → ∀ st, s.stage = some st → st.either ≠ none

namespace Slot

variable {ids : Nat → Option (List Byte)} {D : Delivered} {failed : Bool} {i : Nat} {s : Slot}

theorem Inv.settle (h : s.Inv ids D failed i) {st : Stage} (hst : s.stage = some st) {c : Completion Throwable EncryptedBytes}
    (hc : ∀ reply, st.either = none → c = .normal reply → (i, .normal reply) ∈ D) (future : Futures.Future Throwable EncryptedBytes)
    (failed' : Bool) : (s.withStage { st with future, either := st.either.complete c }).Inv ids D failed' i := by
  have hresponse := h.response st hst
  refine ⟨fun hnone => (by cases hnone), fun st' hst' => ?_, fun st' hst' => ?_, fun st' reply hst' hnormal => ?_,
    fun _ st' hst' => ?_⟩ <;> cases hst'
  · exact h.requestId st hst
  · cases heither : st.either with
    | none => simp [withStage, hresponse, heither, Futures.Future.complete]
    | some x => simp [withStage, hresponse, heither, Futures.Future.complete]
  · cases heither : st.either with
    | none =>
      rw [heither] at hnormal
      exact hc reply heither (Option.some.inj hnormal)
    | some x =>
      rw [heither] at hnormal
      exact h.normal st reply hst (by rw [heither]; exact hnormal)
  · cases heither : st.either with
    | none => simp [Futures.Future.complete]
    | some x => simp [Futures.Future.complete]

theorem Inv.onBatch (h : s.Inv ids D failed i) (t : Thrown Throwable) : (s.onBatch (.exceptional t)).Inv ids D true i := by
  unfold Slot.onBatch
  split
  · rename_i hst
    exact ⟨h.unadded, h.requestId, h.response, h.normal, fun _ st hst' => absurd (hst.symm.trans hst') (by simp)⟩
  · rename_i st hst
    exact h.settle hst (fun reply _ hc => by cases hc) st.future true

/-- A delivery that counts, or one that is late. -/
theorem Inv.onFuture (h : s.Inv ids D failed i) {c : Completion Throwable EncryptedBytes} (hc : (i, c) ∈ D ∨ failed = true) :
    (s.onFuture c).Inv ids D failed i := by
  unfold Slot.onFuture
  split
  · exact h
  · rename_i st hst
    split
    · exact h
    · refine h.settle hst (fun reply hnone hreply => ?_) (some c) failed
      rcases hc with hc | hfailed
      · cases c with
        | normal r => cases hreply; exact hc
        | exceptional t => cases hreply
      · exact absurd hnone (h.settled hfailed st hst)

@[simp] theorem isSome_stage_onBatch (c : Completion Throwable EncryptedBytes) (s : Slot) :
    (s.onBatch c).stage.isSome = s.stage.isSome := by
  unfold Slot.onBatch
  split
  · rfl
  · rename_i st hst
    rw [hst]
    rfl

@[simp] theorem isSome_stage_onFuture (c : Completion Throwable EncryptedBytes) (s : Slot) :
    (s.onFuture c).stage.isSome = s.stage.isSome := by
  unfold Slot.onFuture
  split
  · rfl
  · rename_i st hst
    split
    · rfl
    · rw [hst]
      rfl

theorem Inv.mono (h : s.Inv ids [] failed i) (D : Delivered) : s.Inv ids D failed i :=
  ⟨h.unadded, h.requestId, h.response, fun st reply hst hnormal => absurd (h.normal st reply hst hnormal) List.not_mem_nil,
    h.settled⟩

/-- A request that is added, whose future waits or has failed. -/
theorem Inv.attach (h : s.Inv ids D false i) (hstage : s.stage = none) {requestId : List Byte} (hid : ids i = some requestId)
    {future : Futures.Future Throwable EncryptedBytes} (hfuture : ∀ reply, future ≠ some (.normal reply)) :
    (s.withStage ⟨requestId, future, future.map fun c => whenComplete (failedStage c)⟩).Inv ids D false i := by
  have hresponse := h.unadded hstage
  refine ⟨fun hnone => (by cases hnone), fun st hst => ?_, fun st hst => ?_, fun st reply hst hnormal => ?_, fun hf => (by cases hf)⟩ <;>
    cases hst
  · exact hid
  · cases future with
    | none => simp [withStage, hresponse]
    | some c => simp [withStage, hresponse, Futures.Future.complete]
  · cases future with
    | none => cases hnormal
    | some c =>
      cases c with
      | normal r => exact absurd rfl (hfuture r)
      | exceptional t => cases hnormal

end Slot

/-! ## The slots of a batch -/

structure Inv (ids : Nat → Option (List Byte)) (D : Delivered) (b : SgxsdBatch) : Prop where
  slot : ∀ (i : Nat) (s : Slot), b.slots[i]? = some s → s.Inv ids D b.batchFuture.isSome i

/-- The first `n` requests were added, and no others. -/
def Added (n : Nat) (b : SgxsdBatch) : Prop := ∀ i s, b.slots[i]? = some s → (s.stage.isSome = true ↔ i < n)

/-- What the futures leave alone. -/
structure Same (b b' : SgxsdBatch) : Prop where
  valid : b'.valid = b.valid
  processed : b'.processed = b.processed
  length : b'.slots.length = b.slots.length

theorem Same.refl (b : SgxsdBatch) : Same b b := ⟨rfl, rfl, rfl⟩

theorem Same.trans {b b' b'' : SgxsdBatch} (h : Same b b') (h' : Same b' b'') : Same b b'' :=
  ⟨h'.valid.trans h.valid, h'.processed.trans h.processed, h'.length.trans h.length⟩

section Steps

variable {ids : Nat → Option (List Byte)} {D : Delivered} {b : SgxsdBatch}

theorem Inv.completeExceptionally (h : Inv ids D b) (t : Throwable) :
    Inv ids D (b.completeExceptionally t) ∧ (b.completeExceptionally t).batchFuture.isSome = true := by
  unfold SgxsdBatch.completeExceptionally
  split
  · exact ⟨h, ‹_›⟩
  · refine ⟨⟨fun i s hs => ?_⟩, rfl⟩
    rw [List.getElem?_map, Option.map_eq_some_iff] at hs
    obtain ⟨s', hs', rfl⟩ := hs
    exact (h.slot i s' hs').onBatch _

theorem added_completeExceptionally {n : Nat} (h : Added n b) (t : Throwable) : Added n (b.completeExceptionally t) := by
  unfold SgxsdBatch.completeExceptionally
  split
  · exact h
  · intro i s hs
    rw [List.getElem?_map, Option.map_eq_some_iff] at hs
    obtain ⟨s', hs', rfl⟩ := hs
    rw [Slot.isSome_stage_onBatch]
    exact h i s' hs'

theorem getElem?_deliver {r : Nat × Completion Throwable EncryptedBytes} {i : Nat} {s : Slot}
    (h : (b.deliver r).slots[i]? = some s) : b.slots[i]? = some s ∨ r.1 = i ∧ ∃ s', b.slots[i]? = some s' ∧ s = s'.onFuture r.2 := by
  rw [SgxsdBatch.deliver, List.getElem?_modify] at h
  split at h
  · rename_i hi
    rw [Option.map_eq_map, Option.map_eq_some_iff] at h
    obtain ⟨s', hs', rfl⟩ := h
    exact .inr ⟨hi, s', hs', rfl⟩
  · rw [id_map'] at h
    exact .inl h

theorem Inv.deliverAll {l : Delivered} (h : Inv ids D b) (hl : ∀ r ∈ l, r ∈ D ∨ b.batchFuture.isSome = true) :
    Inv ids D (l.foldl SgxsdBatch.deliver b) ∧ (l.foldl SgxsdBatch.deliver b).batchFuture = b.batchFuture := by
  induction l generalizing b with
  | nil => exact ⟨h, rfl⟩
  | cons r l ih =>
    refine ih ⟨fun i s hs => ?_⟩ fun r' hr' => hl r' (List.mem_cons_of_mem _ hr')
    rcases getElem?_deliver hs with hs | ⟨rfl, s', hs', rfl⟩
    · exact h.slot i s hs
    · exact (h.slot r.1 s' hs').onFuture (hl r List.mem_cons_self)

theorem added_deliverAll {n : Nat} {l : Delivered} (h : Added n b) : Added n (l.foldl SgxsdBatch.deliver b) := by
  induction l generalizing b with
  | nil => exact h
  | cons r l ih =>
    refine ih fun i s hs => ?_
    rcases getElem?_deliver hs with hs | ⟨rfl, s', hs', rfl⟩
    · exact h i s hs
    · rw [Slot.isSome_stage_onFuture]
      exact h r.1 s' hs'

theorem same_completeExceptionally (b : SgxsdBatch) (t : Throwable) : Same b (b.completeExceptionally t) := by
  unfold SgxsdBatch.completeExceptionally
  split
  · exact .refl b
  · exact ⟨rfl, rfl, List.length_map _⟩

theorem same_deliverAll (l : Delivered) (b : SgxsdBatch) : Same b (l.foldl SgxsdBatch.deliver b) := by
  induction l generalizing b with
  | nil => exact .refl b
  | cons r l ih =>
    have hdeliver : Same b (b.deliver r) := ⟨rfl, rfl, List.length_modify _ _ _⟩
    exact hdeliver.trans (ih (b.deliver r))

theorem Inv.mono (h : Inv ids [] b) (D : Delivered) : Inv ids D b := ⟨fun i s hs => (h.slot i s hs).mono D⟩

end Steps

/-! ## The loop -/

variable (o : Outcomes) (host : String)

def idOf (requests : List DiscoveryRequest) (i : Nat) : Option (List Byte) :=
  requests[i]?.bind fun request => (request.envelopes.lookup host).map (·.requestId)

/-- A batch in the loop, with `n` requests added. -/
structure Looping (ids : Nat → Option (List Byte)) (n : Nat) (b : SgxsdBatch) : Prop where
  inv : Inv ids [] b
  added : Added n b
  waiting : b.batchFuture = none
  unprocessed : b.processed = false

variable {o host}

theorem attach_looping {ids : Nat → Option (List Byte)} {n : Nat} {b : SgxsdBatch} (h : Looping ids n b) {requestId : List Byte}
    (hid : ids n = some requestId) {future : Futures.Future Throwable EncryptedBytes}
    (hfuture : ∀ reply, future ≠ some (.normal reply)) (count : BitVec 32) :
    Looping ids (n + 1) (b.attach n requestId future count) := by
  have hslot : ∀ i s, (b.attach n requestId future count).slots[i]? = some s →
      (n = i ∧ ∃ s', b.slots[i]? = some s' ∧
        s = s'.withStage ⟨requestId, future, future.map fun c => whenComplete (failedStage c)⟩) ∨
      n ≠ i ∧ b.slots[i]? = some s := by
    intro i s hs
    rw [SgxsdBatch.attach, List.getElem?_modify] at hs
    split at hs
    · rename_i hi
      rw [Option.map_eq_map, Option.map_eq_some_iff] at hs
      obtain ⟨s', hs', rfl⟩ := hs
      rw [h.waiting]
      exact .inl ⟨hi, s', hs', rfl⟩
    · rename_i hi
      rw [id_map'] at hs
      exact .inr ⟨hi, hs⟩
  refine ⟨⟨fun i s hs => ?_⟩, fun i s hs => ?_, h.waiting, h.unprocessed⟩
  · have hfuture' : (b.attach n requestId future count).batchFuture.isSome = b.batchFuture.isSome := rfl
    rw [hfuture']
    rcases hslot i s hs with ⟨rfl, s', hs', rfl⟩ | ⟨-, hs'⟩
    · have hinv := h.inv.slot n s' hs'
      rw [h.waiting] at hinv ⊢
      refine hinv.attach ?_ hid hfuture
      have hnot : ¬s'.stage.isSome = true := fun hsome => absurd ((h.added n s' hs').mp hsome) (Nat.lt_irrefl n)
      exact Option.not_isSome_iff_eq_none.mp hnot
    · exact h.inv.slot i s hs'
  · rcases hslot i s hs with ⟨rfl, s', hs', rfl⟩ | ⟨hne, hs'⟩
    · exact iff_of_true rfl (Nat.lt_succ_self n)
    · rw [h.added i s hs']
      omega

theorem add_looping {ids : Nat → Option (List Byte)} {n : Nat} {b : SgxsdBatch} (h : Looping ids n b) {requestId : List Byte}
    (hid : ids n = some requestId) (count : BitVec 32) :
    ((b.add o n requestId count).1 = .ok () → Looping ids (n + 1) (b.add o n requestId count).2) ∧
      (∀ t, (b.add o n requestId count).1 = .error t → (b.add o n requestId count).2 = b) ∧
      Same b (b.add o n requestId count).2 := by
  have hsame := Same.refl b
  have hattach : ∀ future, Same b (b.attach n requestId future count) := fun future =>
    ⟨rfl, rfl, List.length_modify _ _ _⟩
  unfold SgxsdBatch.add
  rw [if_neg (by rw [h.unprocessed]; exact Bool.false_ne_true)]
  split
  · exact ⟨fun hok => (by cases hok), fun _ _ => rfl, hsame⟩
  split
  · exact ⟨fun _ => attach_looping h hid (fun _ hf => by cases hf) count, fun t ht => (by cases ht), hattach _⟩
  · rename_i reported name code _
    simp only
    split
    · exact ⟨fun hok => (by cases hok), fun _ _ => rfl, hsame⟩
    · refine ⟨fun _ => attach_looping h hid (fun reply hf => ?_) count, fun t ht => (by cases ht), hattach _⟩
      cases reported <;> cases hf
  · exact ⟨fun hok => (by cases hok), fun _ _ => rfl, hsame⟩

/-- After the loop the batch waits, with all requests added if it threw nothing. -/
theorem addAll_looping {all : List DiscoveryRequest} :
    ∀ {requests : List DiscoveryRequest} {n : Nat} {b : SgxsdBatch}, all.drop n = requests → Looping (idOf host all) n b →
      (∃ m, Looping (idOf host all) m (addAll o host b n requests).2 ∧
        ((addAll o host b n requests).1 = .ok () → m = n + requests.length)) ∧
      Same b (addAll o host b n requests).2 := by
  intro requests
  induction requests with
  | nil => exact fun _ h => ⟨⟨_, h, fun _ => rfl⟩, .refl _⟩
  | cons request requests ih =>
    intro n b hdrop h
    have hget : all[n]? = some request := by
      rw [← List.head?_drop, hdrop]
      rfl
    have hdrop' : all.drop (n + 1) = requests := by
      rw [← List.tail_drop, hdrop]
      rfl
    unfold addAll
    cases henv : request.envelopes.lookup host with
    | none => exact ⟨⟨n, h, fun hok => (by cases hok)⟩, .refl b⟩
    | some envelope =>
      have hid : idOf host all n = some envelope.requestId := by
        rw [idOf, hget, Option.bind_some, henv]
        rfl
      obtain ⟨hok, herror, hsame⟩ := add_looping (o := o) h hid request.addressCount
      simp only
      split
      · rename_i t b' hadd
        rw [hadd] at herror
        rw [show b' = b from herror t rfl]
        exact ⟨⟨n, h, fun hok => (by cases hok)⟩, .refl b⟩
      · rename_i b' hadd
        rw [hadd] at hok hsame
        obtain ⟨⟨m, hm, hlen⟩, hrest⟩ := ih hdrop' (hok rfl)
        refine ⟨⟨m, hm, fun hr => ?_⟩, hsame.trans hrest⟩
        rw [hlen hr, List.length_cons]
        omega

/-! ## The stop -/

section Stop

variable {ids : Nat → Option (List Byte)} {D : Delivered} {b : SgxsdBatch}

/-- A batch after its stop, or its close. -/
structure Stopped (ids : Nat → Option (List Byte)) (D : Delivered) (e : Ecall) (b b' : SgxsdBatch) : Prop where
  inv : Inv ids D b'
  added : ∀ n, Added n b → Added n b'
  processed : b'.processed = true
  valid : b'.valid = (b.valid && !e.entered)
  length : b'.slots.length = b.slots.length

theorem process_stopped (h : Inv ids D b) (hprocessed : b.processed = false) (directoryMap : Option ServingBuffers)
    (hdelivered : ∀ r ∈ (nativeServerStop o directoryMap).delivered, r ∈ D ∨ b.batchFuture.isSome = true) :
    Stopped ids D (nativeServerStop o directoryMap) b (b.process o directoryMap).2 ∧
      ((b.process o directoryMap).1 = .ok () → (b.process o directoryMap).2.batchFuture.isSome = true) := by
  unfold SgxsdBatch.process
  rw [if_neg (by rw [hprocessed]; exact Bool.false_ne_true)]
  simp only
  generalize nativeServerStop o directoryMap = e at *
  have hstart : Inv ids D { b with processed := true, valid := b.valid && !e.entered } := ⟨h.slot⟩
  have hadded : ∀ n, Added n b → Added n { b with processed := true, valid := b.valid && !e.entered } := fun _ hn => hn
  have hinv := (hstart.deliverAll hdelivered).1
  have hsame := same_deliverAll e.delivered { b with processed := true, valid := b.valid && !e.entered }
  replace hadded := fun n hn => added_deliverAll (l := e.delivered) (hadded n hn)
  generalize e.delivered.foldl SgxsdBatch.deliver { b with processed := true, valid := b.valid && !e.entered } = b' at *
  have hfailed : ∀ t, Stopped ids D e b (b'.completeExceptionally t) := fun t =>
    have hsame' := hsame.trans (same_completeExceptionally b' t)
    ⟨(hinv.completeExceptionally t).1, fun n hn => added_completeExceptionally (hadded n hn) t, hsame'.processed, hsame'.valid,
      hsame'.length⟩
  split
  · exact ⟨hfailed _, fun _ => (hinv.completeExceptionally _).2⟩
  · exact ⟨hfailed _, fun hok => (by cases hok)⟩
  · exact ⟨⟨hinv, hadded, hsame.processed, hsame.valid, hsame.length⟩, fun hok => (by cases hok)⟩

/-- A batch that is closed without being processed: the replies of its stop are late. -/
theorem close_stopped {n : Nat} (h : Looping ids n b) : Stopped ids [] (nativeServerStop o none) b (b.close o) := by
  unfold SgxsdBatch.close
  rw [if_neg (by rw [h.unprocessed]; exact Bool.false_ne_true)]
  obtain ⟨hinv, hfailed⟩ := h.inv.completeExceptionally (.sgxException "batch_closed" none)
  have hsame := same_completeExceptionally b (.sgxException "batch_closed" none)
  have hstop := (process_stopped (o := o) hinv (hsame.processed.trans h.unprocessed) none fun _ _ => .inr hfailed).1
  exact ⟨hstop.inv, fun m hm => hstop.added m (added_completeExceptionally hm _), hstop.processed,
    by rw [hstop.valid, hsame.valid], hstop.length.trans hsame.length⟩

end Stop

/-! ## The batch -/

section Batch

variable {valid : Bool} {requests : List DiscoveryRequest}

/-- The batch gets to its stop with the directory. -/
def Processes (o : Outcomes) (host : String) (valid : Bool) (requests : List DiscoveryRequest) (d : ServingBuffers) : Prop :=
  ∃ b b', newBatch o valid requests = .ok b ∧ addAll o host b 0 requests = (.ok (), b') ∧ o.borrow = .ok d

theorem newBatch_looping (host : String) {b : SgxsdBatch} (h : newBatch o valid requests = .ok b) :
    Looping (idOf host requests) 0 b ∧ b.valid = true ∧ b.slots.length = requests.length := by
  unfold newBatch at h
  split at h
  · cases h
  · cases h
  · cases h
    have hslot : ∀ (i : Nat) (s : Slot), (requests.map fun _ => (⟨none, none⟩ : Slot))[i]? = some s → s = ⟨none, none⟩ := by
      intro i s hs
      rw [List.getElem?_map, Option.map_eq_some_iff] at hs
      obtain ⟨_, -, rfl⟩ := hs
      rfl
    refine ⟨⟨⟨fun i s hs => ?_⟩, fun i s hs => ?_, rfl, rfl⟩, rfl, List.length_map _⟩
    · rw [hslot i s hs]
      exact ⟨fun _ => rfl, fun st hst => (by cases hst), fun st hst => (by cases hst), fun st _ hst => (by cases hst),
        fun _ st hst => (by cases hst)⟩
    · rw [hslot i s hs]
      exact iff_of_false Bool.false_ne_true (Nat.not_lt_zero i)

/-- A batch after its close, whose stop was `e`. -/
structure Ended (host : String) (requests : List DiscoveryRequest) (e : Ecall) (D : Delivered) (b : SgxsdBatch) : Prop where
  inv : Inv (idOf host requests) D b
  valid : b.valid = !e.entered
  length : b.slots.length = requests.length

/-- A batch ends with the stop of its close, or the one with the directory. -/
theorem runBatch_ended (host : String) {b : SgxsdBatch} (hb : newBatch o valid requests = .ok b) :
    ((∀ d, ¬Processes o host valid requests d) ∧ (∃ t, (runBatch o host b requests).1 = .error t) ∧
      Ended host requests (nativeServerStop o none) [] ((runBatch o host b requests).2.close o)) ∨
    ∃ d, Processes o host valid requests d ∧
      Ended host requests (nativeServerStop o (some d)) (nativeServerStop o (some d)).delivered
        ((runBatch o host b requests).2.close o) ∧
      ((runBatch o host b requests).1 = .ok () → ((runBatch o host b requests).2.close o).batchFuture.isSome = true ∧
        Added requests.length ((runBatch o host b requests).2.close o)) := by
  obtain ⟨hloop, hvalid, hlength⟩ := newBatch_looping host hb
  have hdrop : requests.drop 0 = requests := rfl
  obtain ⟨⟨m, hm, hall⟩, hsame⟩ := addAll_looping (o := o) hdrop hloop
  have hended : ∀ {e : Ecall} {D : Delivered} {b' : SgxsdBatch},
      Stopped (idOf host requests) D e (addAll o host b 0 requests).2 b' → Ended host requests e D b' := fun hs =>
    ⟨hs.inv, by rw [hs.valid, hsame.valid, hvalid, Bool.true_and], hs.length.trans (hsame.length.trans hlength)⟩
  unfold runBatch
  cases hadd : addAll o host b 0 requests with
  | mk r b₁ =>
  rw [hadd] at hm hall hended
  have hprocesses : ∀ d, Processes o host valid requests d ↔ r = .ok () ∧ o.borrow = .ok d := by
    intro d
    constructor
    · rintro ⟨b', b'', hb', hadd', hborrow⟩
      cases hb.symm.trans hb'
      cases hadd.symm.trans hadd'
      exact ⟨rfl, hborrow⟩
    · rintro ⟨rfl, hborrow⟩
      exact ⟨b, b₁, hb, hadd, hborrow⟩
  simp only [hprocesses]
  cases r with
  | error t => exact .inl ⟨fun d hd => (by cases hd.1), ⟨t, rfl⟩, hended (close_stopped hm)⟩
  | ok u =>
    cases hborrow : o.borrow with
    | error t => exact .inl ⟨fun d hd => (by cases hd.2), ⟨t, rfl⟩, hended (close_stopped hm)⟩
    | ok d =>
      obtain ⟨hstopped, hdone⟩ := process_stopped (o := o) (hm.inv.mono _) hm.unprocessed (some d) fun r hr => .inl hr
      have hclose : (b₁.process o (some d)).2.close o = (b₁.process o (some d)).2 := by
        unfold SgxsdBatch.close
        rw [if_pos hstopped.processed]
      refine .inr ⟨d, ⟨rfl, rfl⟩, ?_⟩
      simp only [hclose]
      refine ⟨hended hstopped, fun hok => ⟨hdone hok, hstopped.added _ ?_⟩⟩
      have hm' := hall rfl
      rw [Nat.zero_add] at hm'
      exact hm' ▸ hm.added

/-- A response that is complete, and normally only with a reply that was delivered. -/
def Finished (ids : Nat → Option (List Byte)) (D : Delivered) (i : Nat) (s : Slot) : Prop :=
  s.response ≠ none ∧ ∀ r, s.response = some (.normal r) → ids i = some r.requestId ∧ (i, .normal r.reply) ∈ D

namespace Slot.Inv

variable {ids : Nat → Option (List Byte)} {D : Delivered} {failed : Bool} {i : Nat} {s : Slot}

theorem normal_delivered (h : s.Inv ids D failed i) {r : DiscoveryResponse} (hr : s.response = some (.normal r)) :
    ids i = some r.requestId ∧ (i, .normal r.reply) ∈ D := by
  cases hst : s.stage with
  | none => cases (h.unadded hst).symm.trans hr
  | some st =>
    rw [h.response st hst, Option.map_eq_some_iff] at hr
    obtain ⟨c, heither, hc⟩ := hr
    cases c with
    | exceptional t => cases hc
    | normal reply =>
      cases hc
      exact ⟨h.requestId st hst, h.normal st reply hst heither⟩

theorem fail (h : s.Inv ids D failed i) (t : Throwable) : Finished ids D i (s.fail t) := by
  unfold Finished Slot.fail
  cases hresponse : s.response with
  | none => exact ⟨fun hnone => (by cases hnone), fun r hr => (by cases hr)⟩
  | some c => exact ⟨fun hnone => (by cases hnone), fun r hr => h.normal_delivered (hresponse.trans hr)⟩

theorem done (h : s.Inv ids D true i) (hstage : s.stage.isSome = true) : Finished ids D i s := by
  refine ⟨fun hnone => ?_, fun r hr => h.normal_delivered hr⟩
  obtain ⟨st, hst⟩ := Option.isSome_iff_exists.mp hstage
  rw [h.response st hst, Option.map_eq_none_iff] at hnone
  exact h.settled rfl st hst hnone

end Slot.Inv

theorem Ended.fail {e : Ecall} {D : Delivered} {b : SgxsdBatch} (h : Ended host requests e D b) (t : Throwable) {i : Nat} {s : Slot}
    (hs : (b.slots.map (Slot.fail t))[i]? = some s) : Finished (idOf host requests) D i s := by
  rw [List.getElem?_map, Option.map_eq_some_iff] at hs
  obtain ⟨s', hs', rfl⟩ := hs
  exact (h.inv.slot i s' hs').fail t

/-- Every response of a batch is complete, and normally only with what the enclave replied to the
    request in the stop with the directory. -/
theorem batch_completes (o : Outcomes) (host : String) (valid : Bool) (requests : List DiscoveryRequest) :
    (processBatch o host valid requests).1.length = requests.length ∧
      ∀ i s, (processBatch o host valid requests).1[i]? = some s →
        s.response ≠ none ∧
        ∀ r, s.response = some (.normal r) → ∃ d, Processes o host valid requests d ∧
          idOf host requests i = some r.requestId ∧ (i, .normal r.reply) ∈ (nativeServerStop o (some d)).delivered := by
  unfold processBatch
  cases hb : newBatch o valid requests with
  | error t =>
    refine ⟨List.length_map _, fun i s hs => ?_⟩
    rw [List.getElem?_map, Option.map_eq_some_iff] at hs
    obtain ⟨_, -, rfl⟩ := hs
    exact ⟨fun hnone => (by cases hnone), fun r hr => (by cases hr)⟩
  | ok b =>
    rcases runBatch_ended host hb with ⟨-, ⟨t, ht⟩, hended⟩ | ⟨d, hprocesses, hended, hdone⟩
    · simp only [ht]
      refine ⟨(List.length_map _).trans hended.length, fun i s hs => ?_⟩
      obtain ⟨hsome, hnormal⟩ := hended.fail t hs
      exact ⟨hsome, fun r hr => absurd (hnormal r hr).2 List.not_mem_nil⟩
    · simp only
      split
      · rename_i hok
        obtain ⟨hfailed, hadded⟩ := hdone hok
        refine ⟨hended.length, fun i s hs => ?_⟩
        have hinv := hended.inv.slot i s hs
        rw [hfailed] at hinv
        have hi : i < requests.length := by
          rw [← hended.length]
          exact (List.getElem?_eq_some_iff.mp hs).1
        obtain ⟨hsome, hnormal⟩ := hinv.done ((hadded i s hs).mpr hi)
        exact ⟨hsome, fun r hr => ⟨d, hprocesses, hnormal r hr⟩⟩
      · rename_i t _
        refine ⟨(List.length_map _).trans hended.length, fun i s hs => ?_⟩
        obtain ⟨hsome, hnormal⟩ := hended.fail t hs
        exact ⟨hsome, fun r hr => ⟨d, hprocesses, hnormal r hr⟩⟩

/-! ## The worker's server -/

def Reaches (o : Outcomes) (host : String) (requests : List DiscoveryRequest) : Prop :=
  (∀ d, Processes o host false requests d → d.e164s.length = d.uuids.length ∧ d.e164s ≠ [] ∧ (o.stop (some d)).entered = true) ∧
    ((∀ d, ¬Processes o host false requests d) → (o.stop none).entered = true)

theorem entered_some (d : ServingBuffers) : (nativeServerStop o (some d)).entered = true ↔
    d.e164s.length = d.uuids.length ∧ d.e164s ≠ [] ∧ (o.stop (some d)).entered = true := by
  unfold nativeServerStop
  by_cases hlen : d.e164s.length = d.uuids.length
  · by_cases hempty : d.e164s = []
    · simp [hempty] at hlen ⊢
      simp [← hlen]
    · simp [hlen, hempty]
  · simp [hlen]

theorem Processes.unique {d d' : ServingBuffers} (h : Processes o host valid requests d) (h' : Processes o host valid requests d') :
    d = d' := by
  obtain ⟨_, _, _, _, hd⟩ := h
  obtain ⟨_, _, _, _, hd'⟩ := h'
  exact Except.ok.inj (hd.symm.trans hd')

theorem newBatch_error {t : Throwable} (h : o.start = .error t) (valid : Bool) (requests : List DiscoveryRequest) :
    ∃ t, newBatch o valid requests = .error t := by
  unfold newBatch nativeServerStart
  rw [h]
  cases t <;> exact ⟨_, rfl⟩

theorem newBatch_ok (h : o.start = .ok ()) (requests : List DiscoveryRequest) : ∃ b, newBatch o false requests = .ok b := by
  unfold newBatch nativeServerStart
  rw [h]
  exact ⟨_, rfl⟩

theorem processBatch_valid {b : SgxsdBatch} (h : newBatch o valid requests = .ok b) :
    (processBatch o host valid requests).2 = ((runBatch o host b requests).2.close o).valid := by
  unfold processBatch
  rw [h]
  simp only
  split <;> rfl

/-- A batch gives its server up exactly if it did not start it, or its stop gets to the enclave. -/
theorem server_released_iff (o : Outcomes) (host : String) (requests : List DiscoveryRequest) :
    (processBatch o host false requests).2 = false ↔ (o.start = .ok () → Reaches o host requests) := by
  cases hstart : o.start with
  | error t =>
    obtain ⟨t', hb⟩ := newBatch_error hstart false requests
    refine iff_of_true ?_ fun h => (by cases h)
    unfold processBatch
    rw [hb]
  | ok u =>
    obtain ⟨b, hb⟩ := newBatch_ok hstart requests
    rw [processBatch_valid hb]
    rcases runBatch_ended host hb with ⟨hnone, -, hended⟩ | ⟨d, hprocesses, hended, -⟩
    · rw [hended.valid, Bool.not_eq_false']
      exact ⟨fun h _ => ⟨fun d hd => absurd hd (hnone d), fun _ => h⟩, fun h => (h rfl).2 hnone⟩
    · rw [hended.valid, Bool.not_eq_false', entered_some]
      exact ⟨fun h _ => ⟨fun d' hd' => hprocesses.unique hd' ▸ h, fun hnone => absurd hprocesses (hnone d)⟩,
        fun h => (h rfl).1 d hprocesses⟩

end Batch

/-! ## Batches -/

def plainReply : EncryptedBytes := ⟨[7], ⟨List.replicate 12 0, rfl⟩, ⟨List.replicate 16 0, rfl⟩⟩

def plainRequest : DiscoveryRequest :=
  ⟨1, ⟨List.replicate 32 0, rfl⟩, ⟨[1], ⟨List.replicate 12 0, rfl⟩, ⟨List.replicate 16 0, rfl⟩⟩, [("h", ⟨[5], plainReply⟩)]⟩

/-- Native code that fails nowhere, and answers the first request. -/
def plainOutcomes (d : ServingBuffers) : Outcomes :=
  ⟨.ok (), fun _ => .returned, .ok d, fun _ => ⟨true, [(0, .normal plainReply)], .ok ()⟩⟩

theorem batch_completes_one_reply :
    (processBatch (plainOutcomes ⟨[0], [⟨fun _ => 0⟩]⟩) "h" false [plainRequest, plainRequest]).1.map (·.response) =
        [some (.normal ⟨[5], plainReply⟩), some (.exceptional (.completion (.raw (.sgxException "reply_missing" none))))] ∧
      ∀ (i : Nat) (s : Slot),
        (processBatch (plainOutcomes ⟨[0], [⟨fun _ => 0⟩]⟩) "h" false [plainRequest, plainRequest]).1[i]? = some s →
        s.response ≠ none :=
  ⟨by decide +kernel, fun i s hs => ((batch_completes _ _ _ _).2 i s hs).1⟩

/-- The serving buffers of a directory that is made with no slots. The first batch is processed, its
    stop panics, and its server stays started: the worker's next batch is refused. -/
theorem empty_directory_leaks :
    Directory.InternalBuffers.new 0 (1 / 4 : ℚ) (3 / 4) = some (.ok ⟨1 / 4, 3 / 4, 0, 0, [], []⟩) ∧
      (processBatch (plainOutcomes ⟨[], []⟩) "h" false [plainRequest]).1.map (·.response) =
        [some (.exceptional (.raw (.native "java/lang/RuntimeException" "rust panicked")))] ∧
      (processBatch (plainOutcomes ⟨[], []⟩) "h" false [plainRequest]).2 = true ∧
      (processBatch (plainOutcomes ⟨[0], [⟨fun _ => 0⟩]⟩) "h" true [plainRequest]).1.map (·.response) =
        [some (.exceptional (.raw (.illegalState "sgxsd_enclave_server_start")))] ∧
      (processBatch (plainOutcomes ⟨[0], [⟨fun _ => 0⟩]⟩) "h" true [plainRequest]).2 = true := by
  refine ⟨?_, by decide +kernel, by decide +kernel, by decide +kernel, by decide +kernel⟩
  exact Directory.InternalBuffers.new_ok (by decide +kernel) (by decide +kernel) (by decide +kernel) (by decide +kernel)

end ContactDiscovery.Service.Batch
