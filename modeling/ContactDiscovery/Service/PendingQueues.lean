/-
  ContactDiscovery.Service.PendingQueues — the requests that wait for a worker
  (`PendingRequestQueue.java`, `PendingRequestQueueSet.java`).

  Each enclave has a queue, with a running count of the addresses in it. A worker takes from the queue
  it has left alone for too long, else from one that fills a batch, else from the largest; whether a
  queue is empty is read off the count. The worker holds the set's monitor then, and a queue's own
  `get` waits on the queue's: called on an empty one it waits for ever, and the set is never used
  again (`blocked`).

  A call is one step: `put`, `get` and `flushQueues` hold the set's monitor. A `get` that finds nothing
  waits and tries again, with the order it shuffled the queues into. The clock is input. A response is
  named by its place among those that were made (`responses`).
-/

import ContactDiscovery.Lib.Runs
import ContactDiscovery.Service.Discovery

namespace ContactDiscovery.Service.Queues

open Lib
open Lib.Futures (Thrown Completion)
open Client (DiscoveryRequest)
open Discovery (Failure DiscoveryResponse)

structure PendingRequest where
  request : DiscoveryRequest
  response : Nat

def PendingRequest.getAddressCount (p : PendingRequest) : BitVec 32 := p.request.addressCount

/-! ## A queue -/

/-- Of requests for an enclave of type `σ`. -/
structure PendingRequestQueue (σ : Type) where
  enclave : σ
  queue : List PendingRequest
  addressCount : BitVec 32
  lastGet : BitVec 64

namespace PendingRequestQueue

variable {σ : Type} (q : PendingRequestQueue σ)

def new (enclave : σ) : PendingRequestQueue σ := ⟨enclave, [], 0, 0⟩

def put (now : BitVec 64) (p : PendingRequest) : PendingRequestQueue σ :=
  { q with
    addressCount := q.addressCount + p.getAddressCount
    queue := q.queue ++ [p]
    lastGet := if q.lastGet = 0 then now else q.lastGet }

/-- The loop of `get`: what it returns, what it leaves, and the count it leaves. -/
def getLoop (maxAddressCount : BitVec 32) :
    BitVec 32 → BitVec 32 → List PendingRequest → List PendingRequest × List PendingRequest × BitVec 32
  | _, addressCount, [] => ([], [], addressCount)
  | resultAddressCount, addressCount, p :: rest =>
    if (p.getAddressCount + resultAddressCount).sle maxAddressCount then
      let r := getLoop maxAddressCount (resultAddressCount + p.getAddressCount) (addressCount - p.getAddressCount) rest
      (p :: r.1, r.2)
    else ([], p :: rest, addressCount)

/-- `none`: the call waits. -/
def get (maxAddressCount : BitVec 32) (now : BitVec 64) : Option (List PendingRequest × PendingRequestQueue σ) :=
  match q.queue with
  | [] => none
  | first :: rest =>
    let r := getLoop maxAddressCount first.getAddressCount (q.addressCount - first.getAddressCount) rest
    some (first :: r.1, { q with queue := r.2.1, addressCount := r.2.2, lastGet := now })

def getPendingAddresses : BitVec 32 := q.addressCount

def isEmpty : Bool := q.addressCount.sle 0

def getElapsedTimeMillis (currentTime : BitVec 64) : BitVec 64 := currentTime - q.lastGet

/-- With the count it returns, and the responses it fails. -/
def flush : (BitVec 32 × List Nat) × PendingRequestQueue σ :=
  ((q.addressCount, q.queue.map (·.response)), { q with queue := [], addressCount := 0, lastGet := 0 })

end PendingRequestQueue

/-! ## The queues of a node -/

/-- The map of the queues, whose keys do not change. -/
structure PendingRequestQueueSet (σ : Type) where
  enclaveIds : List String
  nodup : enclaveIds.Nodup
  queue : String → PendingRequestQueue σ
  maxWait : BitVec 64

/-- A stream's `reduce`. -/
def reduce {α : Type} (f : α → α → α) : List α → Option α
  | [] => none
  | a :: l => some (l.foldl f a)

structure GetResult (σ : Type) where
  enclaveId : String
  enclave : σ
  requests : List PendingRequest

namespace PendingRequestQueueSet

variable {σ : Type} (s : PendingRequestQueueSet σ)

def setQueue (enclaveId : String) (q : PendingRequestQueue σ) : PendingRequestQueueSet σ :=
  { s with queue := Function.update s.queue enclaveId q }

/-- `put`, for a request that has its response. -/
def put (enclaveId : String) (now : BitVec 64) (p : PendingRequest) : Except Failure (PendingRequestQueueSet σ) :=
  if enclaveId ∈ s.enclaveIds then .ok (s.setQueue enclaveId ((s.queue enclaveId).put now p))
  else .error (.noSuchEnclave enclaveId)

def oldestQueue (order : List String) (currentTime : BitVec 64) : Option String :=
  let elapsed := fun e => (s.queue e).getElapsedTimeMillis currentTime
  reduce (fun oldest candidate => if (elapsed candidate).slt (elapsed oldest) then oldest else candidate)
    ((order.filter fun e => !(s.queue e).isEmpty).filter fun e => s.maxWait.slt (elapsed e))

def batchSizeReadyQueue (order : List String) (maxAddressCount : BitVec 32) : Option String :=
  order.find? fun e => maxAddressCount.sle (s.queue e).getPendingAddresses

def largestQueue (order : List String) : Option String :=
  let pending := fun e => (s.queue e).getPendingAddresses
  reduce (fun first second => if (pending second).slt (pending first) then first else second)
    (order.filter fun e => !(s.queue e).isEmpty)

def chosenQueue (order : List String) (maxAddressCount : BitVec 32) (currentTime : BitVec 64) : Option String :=
  (s.oldestQueue order currentTime).or ((s.batchSizeReadyQueue order maxAddressCount).or (s.largestQueue order))

/-- One turn of the loop of `get`: `none`, it waits for a `put`; the `get` of the queue is `none` if it
    is the queue that waits. -/
def get (order : List String) (maxAddressCount : BitVec 32) (currentTime now : BitVec 64) :
    Option (Option (GetResult σ × PendingRequestQueueSet σ)) :=
  (s.chosenQueue order maxAddressCount currentTime).map fun e =>
    ((s.queue e).get maxAddressCount now).map fun r => (⟨e, (s.queue e).enclave, r.1⟩, s.setQueue e r.2)

/-- With the count it returns, and the responses it fails. -/
def flushQueues : (BitVec 32 × List Nat) × PendingRequestQueueSet σ :=
  (((s.enclaveIds.map fun e => (s.queue e).flush.1.1).foldl (· + ·) 0, s.enclaveIds.flatMap fun e => (s.queue e).flush.1.2),
    { s with queue := fun e => if e ∈ s.enclaveIds then (s.queue e).flush.2 else s.queue e })

end PendingRequestQueueSet

abbrev Responses := List (Futures.Future Failure DiscoveryResponse)

/-- `complete` or `completeExceptionally`. -/
def Responses.complete (rs : Responses) (c : Completion Failure DiscoveryResponse) (i : Nat) : Responses :=
  rs.modify i (·.complete c)

/-- What a response that is flushed completes with. -/
def flushed : Completion Failure DiscoveryResponse := .exceptional (.raw .pendingRequestFlush)

/-! ## Calls -/

/-- A set in use, with the requests that were put and what was returned. -/
structure St (σ : Type) where
  set : PendingRequestQueueSet σ
  responses : Responses
  /-- A worker waits in the queue's `get` and holds the set's monitor. -/
  blocked : Bool
  puts : List (String × PendingRequest)
  gets : List (GetResult σ)

inductive Event where
  | put (enclaveId : String) (request : DiscoveryRequest) (now : BitVec 64)
  | get (order : List String) (maxAddressCount : BitVec 32) (currentTime now : BitVec 64)
  | flushQueues

variable {σ : Type}

def step (s : St σ) (e : Event) : Option (St σ) :=
  if s.blocked then none
  else
    match e with
    | .put enclaveId request now =>
      let p : PendingRequest := ⟨request, s.responses.length⟩
      let s' := { s with responses := s.responses ++ [none] }
      match s.set.put enclaveId now p with
      | .error _ => some s'
      | .ok set => some { s' with set, puts := s.puts ++ [(enclaveId, p)] }
    | .get order maxAddressCount currentTime now =>
      if order.Perm s.set.enclaveIds then
        match s.set.get order maxAddressCount currentTime now with
        | none => some s
        | some none => some { s with blocked := true }
        | some (some (result, set)) => some { s with set, gets := s.gets ++ [result] }
      else none
    | .flushQueues =>
      let r := s.set.flushQueues
      some { s with set := r.2, responses := r.1.2.foldl (Responses.complete · flushed) s.responses }

def initial (enclaveIds : List String) (h : enclaveIds.Nodup) (enclave : String → σ) (maxWait : BitVec 64) : St σ :=
  ⟨⟨enclaveIds, h, fun e => .new (enclave e), maxWait⟩, [], false, [], []⟩

def sizedRequest (addressCount : BitVec 32) : DiscoveryRequest :=
  ⟨addressCount, zeros 32, ⟨[], zeros 12, zeros 16⟩, []⟩

end ContactDiscovery.Service.Queues
