/-
  ContactDiscovery.Service.Batch — the futures of a batch, with native code that may fail anywhere
  (`EnclaveThread.processBatch`, `SgxsdBatch`, `server_stop` in `sgx_enclave.rs`).

  A request that is added has a future, which the callback of its tag completes, and a stage that
  completes with the first of that future and the batch's own. The response completes with the stage.
  The batch's future only fails: with the exception of the stop, after the stop for requests without a
  reply, and before the stop of a batch that is closed without being processed. That stop is given no
  directory and its replies find nothing registered, but they come too late. Whatever leaves the batch
  fails the responses that are left.

  What the native code does is input (`Outcomes`), and so is what the code in between throws; an
  enclave that is dead throws where its native code would be called. A stop with a directory gets to
  the enclave only if the directory's buffers are of one length and not empty: their first elements
  are borrowed before the call. `valid` is the enclave's flag of the worker's server. For a node of
  `Service.RequestManager` the native code is that of `Service.NodeBatch`.
-/

import ContactDiscovery.Service.Discovery

namespace ContactDiscovery.Service.Batch

open Lib
open Lib.Futures (Thrown Completion whenComplete)
open Client (DiscoveryRequest DiscoveryRequestEnvelope)
open Discovery (DiscoveryResponse)
open Enclave (Phone Uuid EncryptedBytes SgxStatus)

/-! ## Native code -/

structure ServingBuffers where
  e164s : List Phone
  uuids : List Uuid

/-- A call of `sgxsd_enclave_server_stop`: whether it got to the server, and what its replies completed
    the requests' futures with until it returned or threw. -/
structure Ecall where
  entered : Bool
  delivered : List (Nat × Completion Throwable EncryptedBytes)
  result : Except Throwable Unit

/-- `nativeServerCall` throws after the tag's callback reported an error to the future, or did not. -/
inductive CallOutcome where
  | returned
  | threw (reported : Option Throwable) (t : Throwable)

structure Outcomes where
  start : Except Throwable Unit
  call : Nat → CallOutcome
  /-- The directory, or what was thrown after the loop and before the stop. -/
  borrow : Except Throwable ServingBuffers
  stop : Option ServingBuffers → Ecall

variable (o : Outcomes)

def nativeServerStop : Option ServingBuffers → Ecall
  | none => o.stop none
  | some d =>
    if d.e164s.length ≠ d.uuids.length then
      ⟨false, [], .error (.sgxException "e164s_and_uuids_buffer_length_mismatch" none)⟩
    else if d.e164s = [] then ⟨false, [], .error (.native "java/lang/RuntimeException" "rust panicked")⟩
    else o.stop (some d)

/-! ## Futures -/

structure Stage where
  requestId : List Byte
  future : Futures.Future Throwable EncryptedBytes
  either : Futures.Future Throwable EncryptedBytes

/-- A request of the batch. -/
structure Slot where
  stage : Option Stage
  response : Futures.Future Throwable DiscoveryResponse

/-- What the future's `exceptionally` throws. -/
def translate (throwable : Thrown Throwable) : Thrown Throwable :=
  match throwable.getCause.getD throwable with
  | .raw (.sgxException name code) =>
    if convertSgxException name code = .sgxException name code then throwable.relay
    else .completion (.raw (convertSgxException name code))
  | _ => throwable.relay

def failedStage : Completion Throwable EncryptedBytes → Completion Throwable EncryptedBytes
  | .normal reply => .normal reply
  | .exceptional t => .exceptional (translate t)

def respond (requestId : List Byte) : Completion Throwable EncryptedBytes → Completion Throwable DiscoveryResponse
  | .normal reply => .normal ⟨requestId, reply⟩
  | .exceptional t => .exceptional t.relay

namespace Slot

/-- The response completes with the stage. -/
def withStage (s : Slot) (st : Stage) : Slot :=
  ⟨some st, match st.either with
    | none => s.response
    | some c => s.response.complete (respond st.requestId c)⟩

def onFuture (c : Completion Throwable EncryptedBytes) (s : Slot) : Slot :=
  match s.stage with
  | none => s
  | some st =>
    if st.future.isSome then s
    else s.withStage { st with future := some c, either := st.either.complete (whenComplete (failedStage c)) }

def onBatch (c : Completion Throwable EncryptedBytes) (s : Slot) : Slot :=
  match s.stage with
  | none => s
  | some st => s.withStage { st with either := st.either.complete (whenComplete c) }

def fail (t : Throwable) (s : Slot) : Slot := { s with response := s.response.complete (.exceptional (.raw t)) }

end Slot

structure SgxsdBatch where
  valid : Bool
  maxPhoneCount : BitVec 32
  phoneCount : BitVec 32
  processed : Bool
  batchFuture : Futures.Future Throwable EncryptedBytes
  slots : List Slot

namespace SgxsdBatch

/-- The batch's future fails, if it has not. -/
def completeExceptionally (b : SgxsdBatch) (t : Throwable) : SgxsdBatch :=
  if b.batchFuture.isSome then b
  else { b with batchFuture := some (.exceptional (.raw t)), slots := b.slots.map (Slot.onBatch (.exceptional (.raw t))) }

def deliver (b : SgxsdBatch) (r : Nat × Completion Throwable EncryptedBytes) : SgxsdBatch :=
  { b with slots := b.slots.modify r.1 (Slot.onFuture r.2) }

/-- The stage of a request whose call is over. -/
def attach (b : SgxsdBatch) (i : Nat) (requestId : List Byte) (future : Futures.Future Throwable EncryptedBytes)
    (count : BitVec 32) : SgxsdBatch :=
  let either := (b.batchFuture.map whenComplete).or (future.map fun c => whenComplete (failedStage c))
  { b with
    phoneCount := b.phoneCount + count
    slots := b.slots.modify i fun s => s.withStage ⟨requestId, future, either⟩ }

def add (b : SgxsdBatch) (i : Nat) (requestId : List Byte) (queryPhoneCount : BitVec 32) :
    Except Throwable Unit × SgxsdBatch :=
  if b.processed then (.error (.illegalState "batch_already_processed"), b)
  else if (b.maxPhoneCount - b.phoneCount).slt queryPhoneCount then (.error (.illegalArgument "batch_full"), b)
  else
    match o.call i with
    | .returned => (.ok (), b.attach i requestId none queryPhoneCount)
    | .threw reported (.sgxException name code) =>
      let future := (reported.map fun t => Completion.exceptional (.raw t)).or (some (.exceptional (.raw (.sgxException name code))))
      match handleSgxException name code with
      | some t => (.error t, b)
      | none => (.ok (), b.attach i requestId future queryPhoneCount)
    | .threw _ t => (.error t, b)

def process (b : SgxsdBatch) (directoryMap : Option ServingBuffers) : Except Throwable Unit × SgxsdBatch :=
  if b.processed then (.error (.illegalState "batch_already_processed"), b)
  else
    let e := nativeServerStop o directoryMap
    let b' := e.delivered.foldl deliver { b with processed := true, valid := b.valid && !e.entered }
    match e.result with
    | .ok () => (.ok (), b'.completeExceptionally (.sgxException "reply_missing" none))
    | .error (.sgxException name code) =>
      (.error ((handleSgxException name code).getD (.sgxException name code)),
        b'.completeExceptionally (convertSgxException name code))
    | .error t => (.error t, b')

/-- What it throws is suppressed, or there is none. -/
def close (b : SgxsdBatch) : SgxsdBatch :=
  if b.processed then b else (process o (b.completeExceptionally (.sgxException "batch_closed" none)) none).2

end SgxsdBatch

/-! ## A batch -/

section Batch

variable (host : String)

def addAll : SgxsdBatch → Nat → List DiscoveryRequest → Except Throwable Unit × SgxsdBatch
  | b, _, [] => (.ok (), b)
  | b, i, request :: requests =>
    match request.envelopes.lookup host with
    | none => (.error .nullPointer, b)
    | some envelope =>
      match b.add o i envelope.requestId request.addressCount with
      | (.error t, b') => (.error t, b')
      | (.ok (), b') => addAll b' (i + 1) requests

/-- A server that is started is not started again. -/
def nativeServerStart (valid : Bool) : Except Throwable Unit :=
  match o.start with
  | .error t => .error t
  | .ok () => if valid then .error (.sgxException "sgxsd_enclave_server_start" (some .invalidState)) else .ok ()

/-- The constructor, with the server's flag before it. -/
def newBatch (valid : Bool) (requests : List DiscoveryRequest) : Except Throwable SgxsdBatch :=
  match nativeServerStart o valid with
  | .error (.sgxException name code) => .error ((handleSgxException name code).getD (.sgxException name code))
  | .error t => .error t
  | .ok () => .ok ⟨true, (requests.map (·.addressCount)).sum, 0, false, none, requests.map fun _ => ⟨none, none⟩⟩

/-- The block that has the batch as its resource, up to its close. -/
def runBatch (b : SgxsdBatch) (requests : List DiscoveryRequest) : Except Throwable Unit × SgxsdBatch :=
  match addAll o host b 0 requests with
  | (.error t, b') => (.error t, b')
  | (.ok (), b') =>
    match o.borrow with
    | .error t => (.error t, b')
    | .ok d => b'.process o (some d)

/-- The requests with their responses, and the server's flag. -/
def processBatch (valid : Bool) (requests : List DiscoveryRequest) : List Slot × Bool :=
  match newBatch o valid requests with
  | .error t => (requests.map fun _ => Slot.fail t ⟨none, none⟩, valid)
  | .ok b =>
    let r := runBatch o host b requests
    let b' := r.2.close o
    match r.1 with
    | .ok () => (b'.slots, b'.valid)
    | .error t => (b'.slots.map (Slot.fail t), b'.valid)

end Batch

end ContactDiscovery.Service.Batch
