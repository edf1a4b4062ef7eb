/-
  ContactDiscovery.Service.NodeBatch — the batch of a node (`Service.RequestManager`) is the batch of
  futures (`Service.Batch`), with the native code that the node has.

  A node says what each native call of a batch does (`outcomes`): a call throws what `server_call` makes
  of the enclave's status, and a stop delivers the enclave's replies to the futures of their tags. With
  these, the responses of the batch of futures complete with the node's answers (`processBatch_answers`).
  The stop of a batch that is closed stays input (`late`): its replies are late whatever they are.

  The loops go together: after each request the slots of the one are as the futures of the other
  (`Waiting`), and what comes after leaves a response that is complete.
-/

import ContactDiscovery.Service.BatchProofs
import ContactDiscovery.Service.RequestManager

namespace ContactDiscovery.Service

open Lib
open Lib.Futures (Thrown Completion whenComplete)
open Client (DiscoveryRequest)
open Discovery (DiscoveryResponse)
open Enclave (Ptr EncryptedBytes)
open Enclave.Sgxsd
open Batch (Slot Outcomes CallOutcome Ecall ServingBuffers)

namespace Node

variable (n : Node)

/-! ## What the native code does -/

def callOutcome (b : SgxsdBatch) (ptr : Ptr) (args : NativeServerCallArgs) : CallOutcome :=
  match serverCall ptr args with
  | .error (.generic cls msg) => .threw none (.native cls msg)
  | .error (.sgxError name code) => .threw none (.sgxException name code)
  | .ok c =>
    match sgxsdServerCall n.P n.idCipher n.tableOrder (serverCrypto n.P) n.outside b.server b.pending c b.tags with
    | (.error e, _, _, _) =>
      .threw (some (.sgxException "server_stop" (some e))) (.sgxException "sgxsd_enclave_server_call" (some e))
    | (.ok (), _, _, _) => .returned

/-- The call of the `k`-th of these requests. -/
def callAt (place : Nat → Ptr) : SgxsdBatch → Nat → List DiscoveryRequest → Nat → CallOutcome
  | _, _, [], _ => .returned
  | b, i, request :: requests, k =>
    match n.envelope request with
    | none => .returned
    | some envelope =>
      match k with
      | 0 => n.callOutcome b (place i) (nativeServerCallArgs request envelope)
      | k + 1 => callAt place (n.add b (place i) (nativeServerCallArgs request envelope)).2 (i + 1) requests k

/-- What an act of the stop delivers to a future. -/
def reply (act : Act) : Future → Option EncryptedBytes
  | .failed _ => none
  | .called _ tag => replyTo tag act

def deliveries (futures : List Future) (acts : List Act) : Batch.Delivered :=
  acts.flatMap fun act => futures.zipIdx.filterMap fun x => (reply act x.1).map fun r => (x.2, .normal r)

def stopOutcome (futures : List Future) (b : SgxsdBatch) (env : StopEnv) : Ecall :=
  match serverStopLocked n.P n.outside n.hashLookup b.server (some n.stopArgs) env with
  | none => ⟨true, [], .error (.sgxException "sgxsd_enclave_server_stop" (some .unexpected))⟩
  | some (.error e, acts) => ⟨true, deliveries futures acts, .error (.sgxException "sgxsd_enclave_server_stop" (some e))⟩
  | some (.ok (), acts) => ⟨true, deliveries futures acts, .ok ()⟩

def startOutcome (requests : List DiscoveryRequest) : Except Throwable Unit :=
  match n.reserves (batchSize requests) with
  | .error e => .error (.sgxException "sgxsd_enclave_server_start" (some e))
  | .ok () => .ok ()

def outcomes (env : BatchEnv) (p : Enclave.PendingRequests.St) (requests : List DiscoveryRequest) (d : ServingBuffers)
    (late : Ecall) : Outcomes :=
  let b := newBatch p (batchSize requests)
  let r := n.addAll env.place b 0 requests
  ⟨n.startOutcome requests, n.callAt env.place b 0 requests, .ok d, fun
    | none => late
    | some _ => n.stopOutcome r.2.1 r.2.2 env.stop⟩

def answerOf : Completion Throwable DiscoveryResponse → Answer
  | .normal r => .response r.requestId r.reply
  | .exceptional t => .failed t.root

end Node

/-! ## A response that is complete stays so -/

namespace Batch.Slot

variable {s : Slot} {x : Completion Throwable DiscoveryResponse}

theorem response_withStage (h : s.response = some x) (st : Stage) : (s.withStage st).response = some x := by
  unfold withStage
  cases st.either with
  | none => exact h
  | some c => exact Futures.complete_some h _

theorem response_onFuture (h : s.response = some x) (c : Completion Throwable EncryptedBytes) :
    (s.onFuture c).response = some x := by
  unfold onFuture
  split
  · exact h
  · split
    · exact h
    · exact response_withStage h _

theorem response_onBatch (h : s.response = some x) (c : Completion Throwable EncryptedBytes) :
    (s.onBatch c).response = some x := by
  unfold onBatch
  split
  · exact h
  · exact response_withStage h _

theorem response_fail (h : s.response = some x) (t : Throwable) : (s.fail t).response = some x := Futures.complete_some h _

def receive (l : List (Completion Throwable EncryptedBytes)) (s : Slot) : Slot := l.foldl (fun s c => onFuture c s) s

theorem response_receive (h : s.response = some x) (l : List (Completion Throwable EncryptedBytes)) :
    (s.receive l).response = some x := by
  induction l generalizing s with
  | nil => exact h
  | cons c l ih => exact ih (response_onFuture h c)

theorem receive_unadded (l : List (Completion Throwable EncryptedBytes)) : receive l ⟨none, none⟩ = ⟨none, none⟩ := by
  induction l with
  | nil => rfl
  | cons c l ih => exact ih

end Batch.Slot

namespace Batch.SgxsdBatch

theorem getElem?_deliverAll (l : Delivered) (b : Batch.SgxsdBatch) (j : Nat) :
    (l.foldl deliver b).slots[j]? = b.slots[j]?.map (Slot.receive ((l.filter (·.1 = j)).map (·.2))) := by
  induction l generalizing b with
  | nil => cases h : b.slots[j]? <;> simp [h, Slot.receive]
  | cons r l ih =>
    rw [List.foldl_cons, ih, deliver, List.getElem?_modify]
    by_cases hj : r.1 = j
    · cases h : b.slots[j]? <;> simp [hj, Slot.receive]
    · simp [hj]

theorem batchFuture_deliverAll (l : Delivered) (b : Batch.SgxsdBatch) : (l.foldl deliver b).batchFuture = b.batchFuture := by
  induction l generalizing b with
  | nil => rfl
  | cons r l ih => exact ih (b.deliver r)

def deliveredTo (e : Ecall) (j : Nat) : List (Completion Throwable EncryptedBytes) :=
  (e.delivered.filter (·.1 = j)).map (·.2)

/-- What the batch's future fails with, if a stop returns this. -/
def missing : Except Throwable Unit → Option Throwable
  | .ok () => some (.sgxException "reply_missing" none)
  | .error (.sgxException name code) => some (convertSgxException name code)
  | .error _ => none

variable (o : Outcomes) {b : Batch.SgxsdBatch} {directoryMap : Option ServingBuffers}

/-- A stop delivers, and then the batch's future fails. -/
theorem process_snd (hprocessed : b.processed = false) :
    ∃ b', (∀ j, b'.slots[j]? = b.slots[j]?.map (Slot.receive (deliveredTo (nativeServerStop o directoryMap) j))) ∧
      b'.batchFuture = b.batchFuture ∧ b'.processed = true ∧
      (b.process o directoryMap).2 =
        (missing (nativeServerStop o directoryMap).result).elim b' fun t => b'.completeExceptionally t := by
  unfold process
  rw [if_neg (by rw [hprocessed]; exact Bool.false_ne_true)]
  simp only
  generalize nativeServerStop o directoryMap = e
  let b₀ : Batch.SgxsdBatch := { b with processed := true, valid := b.valid && !e.entered }
  refine ⟨e.delivered.foldl deliver b₀, fun j => getElem?_deliverAll _ b₀ j, batchFuture_deliverAll _ b₀,
    (same_deliverAll e.delivered b₀).processed, ?_⟩
  split
  · rename_i hok
    rw [hok]
    rfl
  · rename_i hsgx
    rw [hsgx]
    rfl
  · rename_i t hnot herror
    rw [herror]
    cases t with
    | sgxException name code => exact absurd rfl (hnot name code)
    | _ => rfl

theorem processed_process (hprocessed : b.processed = false) : (b.process o directoryMap).2.processed = true := by
  obtain ⟨b', -, -, hb', hp⟩ := @process_snd o b directoryMap hprocessed
  rw [hp]
  cases missing (nativeServerStop o directoryMap).result with
  | none => exact hb'
  | some t => exact (same_completeExceptionally b' t).processed.trans hb'

/-- If the batch's future failed before, only deliveries come to a slot. -/
theorem getElem?_process_late (hprocessed : b.processed = false) (hfailed : b.batchFuture.isSome = true) (j : Nat) :
    (b.process o directoryMap).2.slots[j]? =
      b.slots[j]?.map (Slot.receive (deliveredTo (nativeServerStop o directoryMap) j)) := by
  obtain ⟨b', hslots, hfuture, -, hp⟩ := @process_snd o b directoryMap hprocessed
  have hlate : ∀ t, b'.completeExceptionally t = b' := fun t => if_pos (by rw [hfuture]; exact hfailed)
  rw [hp, ← hslots]
  cases missing (nativeServerStop o directoryMap).result with
  | none => rfl
  | some t => rw [Option.elim_some, hlate]

theorem getElem?_process (hprocessed : b.processed = false) (hwaits : b.batchFuture = none) {t : Throwable}
    (ht : missing (nativeServerStop o directoryMap).result = some t) (j : Nat) :
    (b.process o directoryMap).2.slots[j]? =
      b.slots[j]?.map fun s => (s.receive (deliveredTo (nativeServerStop o directoryMap) j)).onBatch (.exceptional (.raw t)) := by
  obtain ⟨b', hslots, hfuture, -, hp⟩ := @process_snd o b directoryMap hprocessed
  rw [hp, ht, Option.elim_some, completeExceptionally, if_neg (by rw [hfuture, hwaits]; exact Bool.false_ne_true)]
  simp only [List.getElem?_map, hslots, Option.map_map]
  rfl

end Batch.SgxsdBatch

/-! ## The loop -/

namespace Node

/-- A slot is as the future of its request, and before the request was added as it was. -/
def Fits : Option Future → Slot → Prop
  | none, s => s = ⟨none, none⟩
  | some (.called requestId _), s => s = ⟨some ⟨requestId, none, none⟩, none⟩
  | some (.failed t), s => ∃ x, s.response = some x ∧ answerOf x = .failed t

/-- A batch in the loop, with the futures of the requests that were added. -/
structure Waiting (futures : List Future) (size : Nat) (B : Batch.SgxsdBatch) : Prop where
  processed : B.processed = false
  waits : B.batchFuture = none
  length : B.slots.length = size
  slot : ∀ (j : Nat) (s : Slot), B.slots[j]? = some s → Fits futures[j]? s

variable {n : Node} {o : Outcomes} {futures : List Future} {size : Nat} {b : SgxsdBatch} {B : Batch.SgxsdBatch}

theorem attach_waiting (h : Waiting futures size B) {f : Future} {requestId : List Byte}
    {future : Futures.Future Throwable EncryptedBytes} (count : BitVec 32)
    (hf : Fits (some f) (Slot.withStage ⟨none, none⟩
      ⟨requestId, future, future.map fun c => whenComplete (Batch.failedStage c)⟩)) :
    Waiting (futures ++ [f]) size (B.attach futures.length requestId future count) := by
  refine ⟨h.processed, h.waits, (List.length_modify _ _ _).trans h.length, fun j s hs => ?_⟩
  rw [Batch.SgxsdBatch.attach, List.getElem?_modify, h.waits, Option.map_eq_map, Option.map_eq_some_iff] at hs
  obtain ⟨s', hs', rfl⟩ := hs
  have hfits := h.slot j s' hs'
  by_cases hj : futures.length = j
  · subst hj
    rw [List.getElem?_eq_none (Nat.le_refl _)] at hfits
    rw [if_pos rfl, List.getElem?_concat_length, show s' = ⟨none, none⟩ from hfits]
    exact hf
  · have hsame : (futures ++ [f])[j]? = futures[j]? := by
      rcases Nat.lt_or_gt_of_ne hj with hlt | hlt
      · rw [List.getElem?_eq_none (by simpa using hlt), List.getElem?_eq_none (Nat.le_of_lt hlt)]
      · rw [List.getElem?_append_left hlt]
    rw [if_neg hj, hsame]
    exact hfits

/-- A future that failed with what `exceptionally` makes of it. -/
theorem fits_failed (requestId : List Byte) (name : String) (code : Option Enclave.SgxStatus) :
    Fits (some (.failed (convertSgxException name code)))
      (Slot.withStage ⟨none, none⟩ ⟨requestId, some (.exceptional (.raw (.sgxException name code))),
        some (whenComplete (Batch.failedStage (.exceptional (.raw (.sgxException name code)))))⟩) := by
  refine ⟨_, rfl, ?_⟩
  simp only [Batch.respond, whenComplete, Batch.failedStage, answerOf, Batch.translate, Thrown.getCause, Option.getD_none,
    Thrown.root_relay]
  split
  · rename_i heq
    rw [Thrown.root_relay, heq]
    rfl
  · rfl

theorem add_waiting (h : Waiting futures size B) (hmax : B.maxPhoneCount = b.maxPhoneCount) (hcount : B.phoneCount = b.phoneCount)
    {ptr : Ptr} {args : NativeServerCallArgs} (hcall : o.call futures.length = n.callOutcome b ptr args) :
    match n.add b ptr args with
    | (.error t, _) => B.add o futures.length args.pendingRequestId args.queryPhoneCount = (.error t, B)
    | (.ok f, b') => ∃ B', B.add o futures.length args.pendingRequestId args.queryPhoneCount = (.ok (), B') ∧
        Waiting (futures ++ [f]) size B' ∧ B'.maxPhoneCount = b'.maxPhoneCount ∧ B'.phoneCount = b'.phoneCount := by
  unfold Batch.SgxsdBatch.add
  rw [if_neg (by rw [h.processed]; exact Bool.false_ne_true), hmax, hcount, hcall]
  unfold add callOutcome
  by_cases hfull : (b.maxPhoneCount - b.phoneCount).slt args.queryPhoneCount = true
  · simp only [hfull, if_true]
  simp only [hfull]
  have hadded : ∀ {f : Future} (future : Futures.Future Throwable EncryptedBytes),
      Fits (some f) (Slot.withStage ⟨none, none⟩
        ⟨args.pendingRequestId, future, future.map fun c => whenComplete (Batch.failedStage c)⟩) →
      ∃ B', (Except.ok (), B.attach futures.length args.pendingRequestId future args.queryPhoneCount) =
          ((Except.ok (), B') : Except Throwable Unit × Batch.SgxsdBatch) ∧
        Waiting (futures ++ [f]) size B' ∧ B'.maxPhoneCount = b.maxPhoneCount ∧
        B'.phoneCount = b.phoneCount + args.queryPhoneCount := fun future hf =>
    ⟨_, rfl, attach_waiting h _ hf, hmax, congrArg (· + args.queryPhoneCount) hcount⟩
  rcases serverCall ptr args with (⟨cls, msg⟩ | ⟨name, code⟩) | c
  · trivial
  · simp only [callFailed]
    cases handleSgxException name code with
    | some t => rfl
    | none => exact hadded _ (fits_failed _ name code)
  · simp only
    rcases sgxsdServerCall n.P n.idCipher n.tableOrder (serverCrypto n.P) n.outside b.server b.pending c b.tags with
      ⟨e | ⟨⟩, server, pending, acts⟩
    · simp only [callFailed]
      cases handleSgxException "sgxsd_enclave_server_call" (some e) with
      | some t => rfl
      | none => exact hadded _ (fits_failed _ "server_stop" (some e))
    · exact hadded none rfl

/-- The loops throw alike, and leave slots that are as the futures. -/
theorem addAll_waiting {place : Nat → Ptr} :
    ∀ {requests : List DiscoveryRequest} {b : SgxsdBatch} {B : Batch.SgxsdBatch} {futures : List Future},
      Waiting futures size B → B.maxPhoneCount = b.maxPhoneCount → B.phoneCount = b.phoneCount →
      (∀ k, o.call (futures.length + k) = n.callAt place b futures.length requests k) →
      ∃ B', Batch.addAll o n.host B futures.length requests =
          ((n.addAll place b futures.length requests).1.elim (.ok ()) .error, B') ∧
        Waiting (futures ++ (n.addAll place b futures.length requests).2.1) size B' ∧
        ((n.addAll place b futures.length requests).1 = none →
          (n.addAll place b futures.length requests).2.1.length = requests.length) := by
  intro requests
  induction requests with
  | nil =>
    intro b B futures h _ _ _
    exact ⟨B, rfl, by simpa [addAll] using h, fun _ => rfl⟩
  | cons request requests ih =>
    intro b B futures h hmax hcount hcall
    unfold addAll Batch.addAll
    cases henv : n.envelope request with
    | none =>
      have hlookup : request.envelopes.lookup n.host = none := henv
      exact ⟨B, by rw [hlookup]; rfl, by simpa using h, fun hnone => (by cases hnone)⟩
    | some envelope =>
      have hlookup : request.envelopes.lookup n.host = some envelope := henv
      simp only [callAt, henv] at hcall
      simp only [hlookup]
      have hadd := add_waiting h hmax hcount (hcall 0)
      rcases hn : n.add b (place futures.length) (nativeServerCallArgs request envelope) with ⟨t | f, b'⟩
      · rw [hn] at hadd
        have hB : B.add o futures.length envelope.requestId request.addressCount = (.error t, B) := hadd
        exact ⟨B, by rw [hB]; rfl, by simpa using h, fun hnone => (by cases hnone)⟩
      · rw [hn] at hadd
        obtain ⟨B', hadd', hwaiting, hmax', hcount'⟩ := hadd
        have hB : B.add o futures.length envelope.requestId request.addressCount = (.ok (), B') := hadd'
        have hlen : (futures ++ [f]).length = futures.length + 1 := List.length_append
        have hrest := ih hwaiting hmax' hcount' fun k => by
          rw [hlen, Nat.add_assoc, Nat.add_comm 1 k]
          simpa only [hn] using hcall (k + 1)
        rw [hlen] at hrest
        obtain ⟨B'', hall, hwaiting', hlength⟩ := hrest
        refine ⟨B'', ?_, ?_, fun hnone => congrArg (· + 1) (hlength hnone)⟩
        · rw [hB]
          exact hall
        · rwa [List.append_assoc] at hwaiting'

/-! ## The stop -/

/-- Of what goes to all futures, this goes to the `j`-th. -/
theorem filter_zipIdx (g : Future → Option EncryptedBytes) (j : Nat) : ∀ (futures : List Future) (k : Nat),
    ((((futures.zipIdx k).filterMap fun x => (g x.1).map fun r => (x.2, (Completion.normal r : Completion Throwable EncryptedBytes)))
      ).filter (·.1 = j)).map (·.2) = (if k ≤ j then futures[j - k]?.bind g else none).toList.map .normal := by
  intro futures
  induction futures with
  | nil => simp
  | cons f futures ih =>
    intro k
    have htail := ih (k + 1)
    rw [List.zipIdx_cons, List.filterMap_cons]
    rcases Nat.lt_trichotomy k j with hk | rfl | hk
    · have hnext : j - k = j - (k + 1) + 1 := by omega
      rw [if_pos (by omega : k + 1 ≤ j)] at htail
      rw [if_pos (Nat.le_of_lt hk), hnext, List.getElem?_cons_succ, ← htail]
      cases g f <;> simp [Nat.ne_of_lt hk]
    · rw [if_neg (by omega)] at htail
      simp only [Option.toList_none, List.map_nil, List.map_eq_nil_iff] at htail
      cases hg : g f <;> simp [hg, htail]
    · rw [if_neg (by omega)] at htail
      simp only [Option.toList_none, List.map_nil, List.map_eq_nil_iff] at htail
      cases g f <;> simp [htail, Nat.not_le_of_lt hk, Nat.ne_of_gt hk]

theorem deliveries_cons (futures : List Future) (act : Act) (acts : List Act) :
    deliveries futures (act :: acts) =
      (futures.zipIdx.filterMap fun x => (reply act x.1).map fun r => (x.2, .normal r)) ++ deliveries futures acts :=
  List.flatMap_cons

theorem deliveries_to {f : Future} {j : Nat} (h : futures[j]? = some f) (acts : List Act) :
    ((deliveries futures acts).filter (·.1 = j)).map (·.2) = (acts.filterMap fun act => reply act f).map .normal := by
  induction acts with
  | nil => rfl
  | cons act acts ih =>
    have hact := filter_zipIdx (reply act) j futures 0
    rw [if_pos (Nat.zero_le j), Nat.sub_zero, h, Option.bind_some] at hact
    rw [deliveries_cons, List.filter_append, List.map_append, hact, ih, List.filterMap_cons]
    cases reply act f <;> rfl

theorem receive_called {requestId : List Byte} {s : Slot} (hs : s = ⟨some ⟨requestId, none, none⟩, none⟩)
    (replies : List EncryptedBytes) (t : Throwable) :
    ((s.receive (replies.map .normal)).onBatch (.exceptional (.raw t))).response.map answerOf =
      some (replies.head?.elim (.failed t) (.response requestId)) := by
  subst hs
  cases replies with
  | nil => rfl
  | cons r replies =>
    -- the first reply completes the response, and the others leave it
    have hfirst : (Slot.onFuture (.normal r) ⟨some ⟨requestId, none, none⟩, none⟩).response =
        some (.normal ⟨requestId, r⟩) := rfl
    exact congrArg (Option.map answerOf) (Slot.response_onBatch (Slot.response_receive hfirst _) _)

theorem settle_eq (acts : List Act) (t : Throwable) (f : Future) :
    settle acts t f = match f with
      | .failed t' => .failed t'
      | .called requestId _ => (acts.filterMap fun act => reply act f).head?.elim (.failed t) (.response requestId) := by
  cases f with
  | failed t' => rfl
  | called requestId tag =>
    simp only [settle, reply, List.head?_filterMap]
    cases acts.findSome? (replyTo tag) <;> rfl

theorem settle_fits {f : Future} {s : Slot} (h : Fits (some f) s) (acts : List Act) (t : Throwable) :
    ((s.receive ((acts.filterMap fun act => reply act f).map .normal)).onBatch (.exceptional (.raw t))).response.map answerOf =
      some (settle acts t f) := by
  rw [settle_eq]
  cases f with
  | failed t' =>
    obtain ⟨x, hx, hanswer⟩ := h
    rw [Slot.response_onBatch (Slot.response_receive hx _), Option.map_some, hanswer]
  | called requestId tag => exact receive_called h _ t

/-- What the node's stop delivers, and what the batch's future fails with after it. -/
theorem stopOutcome_spec (futures : List Future) (b : SgxsdBatch) (env : StopEnv) :
    (n.stopOutcome futures b env).delivered = deliveries futures (n.process b env).1 ∧
      Batch.SgxsdBatch.missing (n.stopOutcome futures b env).result = some (n.process b env).2 := by
  unfold stopOutcome process
  rcases serverStopLocked n.P n.outside n.hashLookup b.server (some n.stopArgs) env with _ | ⟨e | ⟨⟩, acts⟩
  · exact ⟨rfl, rfl⟩
  · exact ⟨rfl, rfl⟩
  · exact ⟨rfl, rfl⟩

/-! ## The batch -/

def closedAnswer (t : Throwable) : Option Future → Answer
  | none => .failed t
  | some (.failed t') => .failed t'
  | some (.called _ _) => .failed (.sgxException "batch_closed" none)

theorem getElem?_closed (t : Throwable) : ∀ (requests : List DiscoveryRequest) (futures : List Future) (j : Nat),
    (closed t futures requests)[j]? = requests[j]?.map fun _ => closedAnswer t futures[j]? := by
  intro requests
  induction requests with
  | nil =>
    intro futures j
    cases futures with
    | nil => rfl
    | cons f futures => cases f <;> rfl
  | cons request requests ih =>
    intro futures j
    rcases futures with _ | ⟨⟨t'⟩ | ⟨requestId, tag⟩, futures⟩ <;> cases j <;> simp [closed, closedAnswer, ih]

theorem closed_fits {f : Option Future} {s : Slot} (h : Fits f s) (l : List (Completion Throwable EncryptedBytes)) (t : Throwable) :
    (((s.onBatch (.exceptional (.raw (.sgxException "batch_closed" none)))).receive l).fail t).response.map answerOf =
      some (closedAnswer t f) := by
  have hkept : ∀ {x}, (s.onBatch (.exceptional (.raw (.sgxException "batch_closed" none)))).response = some x →
      (((s.onBatch (.exceptional (.raw (.sgxException "batch_closed" none)))).receive l).fail t).response = some x :=
    fun hx => Slot.response_fail (Slot.response_receive hx l) t
  rcases f with _ | ⟨t'⟩ | ⟨requestId, tag⟩
  · rw [show s = ⟨none, none⟩ from h]
    change ((Slot.receive l ⟨none, none⟩).fail t).response.map answerOf = _
    rw [Slot.receive_unadded]
    rfl
  · obtain ⟨x, hx, hanswer⟩ := h
    rw [hkept (Slot.response_onBatch hx _), Option.map_some, hanswer]
    rfl
  · cases h
    rw [hkept rfl]
    rfl

def answersOf (slots : List Slot) : List (Option Answer) := slots.map fun s => s.response.map answerOf

theorem answersOf_fail {slots : List Slot} {answers : List Answer} (h : answersOf slots = answers.map some) (t : Throwable) :
    answersOf (slots.map (Slot.fail t)) = answers.map some := by
  rw [← h, answersOf, answersOf, List.map_map]
  refine List.map_congr_left fun s hs => ?_
  have hmem : s.response.map answerOf ∈ answers.map some := by
    rw [← h]
    exact List.mem_map_of_mem hs
  obtain ⟨a, -, ha⟩ := List.mem_map.mp hmem
  obtain ⟨x, hx, -⟩ := Option.map_eq_some_iff.mp ha.symm
  rw [Function.comp_apply, Slot.response_fail hx, hx]

theorem process_answers (h : Waiting futures futures.length B) {d : ServingBuffers} {env : StopEnv}
    (hstop : Batch.nativeServerStop o (some d) = n.stopOutcome futures b env) :
    answersOf (B.process o (some d)).2.slots = (futures.map (settle (n.process b env).1 (n.process b env).2)).map some := by
  obtain ⟨hdelivered, hmissing⟩ := n.stopOutcome_spec futures b env
  rw [← hstop] at hdelivered hmissing
  refine List.ext_getElem? fun j => ?_
  rw [answersOf, List.getElem?_map, Batch.SgxsdBatch.getElem?_process o h.processed h.waits hmissing, List.map_map,
    List.getElem?_map]
  cases hs : B.slots[j]? with
  | none =>
    rw [List.getElem?_eq_none_iff, h.length] at hs
    rw [List.getElem?_eq_none hs]
    rfl
  | some s =>
    have hj : j < futures.length := h.length ▸ (List.getElem?_eq_some_iff.mp hs).1
    have hf := List.getElem?_eq_getElem hj
    have hfits := h.slot j s hs
    rw [hf] at hfits ⊢
    rw [Batch.SgxsdBatch.deliveredTo, hdelivered, deliveries_to hf]
    exact congrArg some (settle_fits hfits _ _)

theorem close_answers {requests : List DiscoveryRequest} (h : Waiting futures requests.length B) (t : Throwable) :
    answersOf ((B.close o).slots.map (Slot.fail t)) = (closed t futures requests).map some := by
  have hopen : ¬B.batchFuture.isSome = true := by rw [h.waits]; exact Bool.false_ne_true
  have hprocessed : (B.completeExceptionally (.sgxException "batch_closed" none)).processed = false :=
    (Batch.same_completeExceptionally B _).processed.trans h.processed
  have hfailed : (B.completeExceptionally (.sgxException "batch_closed" none)).batchFuture.isSome = true := by
    rw [Batch.SgxsdBatch.completeExceptionally, if_neg hopen]
    rfl
  refine List.ext_getElem? fun j => ?_
  rw [answersOf, List.getElem?_map, List.getElem?_map, List.getElem?_map, getElem?_closed, Batch.SgxsdBatch.close,
    if_neg (by rw [h.processed]; exact Bool.false_ne_true), Batch.SgxsdBatch.getElem?_process_late o hprocessed hfailed,
    Batch.SgxsdBatch.completeExceptionally, if_neg hopen, List.getElem?_map]
  cases hs : B.slots[j]? with
  | none =>
    rw [List.getElem?_eq_none_iff, h.length] at hs
    rw [List.getElem?_eq_none hs]
    rfl
  | some s =>
    have hj : j < requests.length := h.length ▸ (List.getElem?_eq_some_iff.mp hs).1
    rw [List.getElem?_eq_getElem hj]
    exact congrArg some (closed_fits (h.slot j s hs) _ t)

/-- The responses of a batch, with the native code of the node, complete with the node's answers. -/
theorem processBatch_answers (n : Node) (env : BatchEnv) (p : Enclave.PendingRequests.St) (requests : List DiscoveryRequest)
    {d : ServingBuffers} (hlength : d.e164s.length = d.uuids.length) (hne : d.e164s ≠ []) (late : Ecall) :
    answersOf (Batch.processBatch (n.outcomes env p requests d late) n.host false requests).1 =
      (n.processBatch env p requests).1.map some := by
  set o := n.outcomes env p requests d late with ho
  have hstart : o.start = n.startOutcome requests := rfl
  unfold Batch.processBatch Batch.newBatch Batch.nativeServerStart processBatch
  rw [hstart, startOutcome]
  cases n.reserves (batchSize requests) with
  | error e =>
    simp only [answersOf, List.map_map]
    rfl
  | ok u =>
    simp only [Bool.false_eq_true, if_false]
    have hwaiting : Waiting [] requests.length
        ⟨true, (requests.map (·.addressCount)).sum, 0, false, none, requests.map fun _ => ⟨none, none⟩⟩ := by
      refine ⟨rfl, rfl, List.length_map _, fun j s hs => ?_⟩
      rw [List.getElem?_map, Option.map_eq_some_iff] at hs
      obtain ⟨_, -, rfl⟩ := hs
      exact rfl
    obtain ⟨B, hall, hadded, hcount⟩ := @addAll_waiting n o requests.length env.place requests
      (newBatch p (batchSize requests)) _ [] hwaiting rfl rfl fun k => by rw [List.length_nil, Nat.zero_add]; rfl
    rw [List.length_nil] at hall hadded hcount
    rw [List.nil_append] at hadded
    unfold Batch.runBatch
    rw [hall]
    rcases hn : n.addAll env.place (newBatch p (batchSize requests)) 0 requests with ⟨_ | t, futures, b⟩
    · rw [hn] at hadded hcount
      have hstop : Batch.nativeServerStop o (some d) = n.stopOutcome futures b env.stop := by
        rw [Batch.nativeServerStop, if_neg (not_not.mpr hlength), if_neg hne, ho]
        simp only [outcomes, hn]
      have hborrow : o.borrow = .ok d := rfl
      have hanswers := process_answers ((hcount rfl : futures.length = _) ▸ hadded) hstop
      have hclose : (B.process o (some d)).2.close o = (B.process o (some d)).2 :=
        if_pos (Batch.SgxsdBatch.processed_process o hadded.processed)
      simp only [Option.elim_none, hborrow, hclose]
      split
      · exact hanswers
      · exact answersOf_fail hanswers _
    · rw [hn] at hadded
      exact close_answers hadded t

end Node

end ContactDiscovery.Service
