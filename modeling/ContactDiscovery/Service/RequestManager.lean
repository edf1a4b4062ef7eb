/-
  ContactDiscovery.Service.RequestManager — a batch of requests (`EnclaveThread.processBatch` in
  `RequestManager.java`, `SgxsdBatch` in `SgxEnclave.java`).

  A batch starts a server with room for the sum of the counts its requests declare, a Java `int`.
  Each request is added: a native call into the enclave, whose `SgxException` fails the request's
  future, unless it is one that `handleSgxException` turns into another exception. That one leaves
  the loop, as does everything else the native call throws. Then the batch is closed, and all its
  futures fail. Else it is processed: the server is stopped with the directory, and its replies
  complete the futures of the requests; a future without a reply fails.

  A node (`Node`) is an enclave that is up, with a directory. What it can reserve for a server is
  input (`reserves`): the enclave allocates the room at the start, and the host sees an enclave that
  ran out of memory as an error. Where the native code puts a query, and what the stop meets, is
  input as well (`BatchEnv`). A request is as the client sends it, whose types have the lengths of
  IVs, MACs and commitments; the other annotations are `Validated`. An enclave that is lost is
  killed by `handleSgxException`, which is left out.
-/

import ContactDiscovery.Enclave.Replies
import ContactDiscovery.Service.ServerCall
import ContactDiscovery.Service.SgxException

namespace ContactDiscovery.Service

open Lib
open Client (DiscoveryRequest DiscoveryRequestEnvelope)
open Enclave (SgxStatus Phone Ptr Usize Primitives Key EncryptedBytes PendingRequestId)
open Enclave.PendingRequests (IdCipher)
open Enclave.Server (SgxsdServerState StopArgs Crypto)
open Enclave.Sgxsd

/-! ## Requests -/

/-- The annotations of `DiscoveryRequest` and `DiscoveryRequestEnvelope`, and the bound on a Java
    array. An id has none. -/
structure Validated (request : DiscoveryRequest) : Prop where
  addressCount : 1 ≤ request.addressCount.toInt
  envelopes : 1 ≤ request.envelopes.length ∧ request.envelopes.length ≤ 3
  data : ∀ e ∈ request.envelopes, e.2.envelope.data.length = 32
  query : request.query.data.length < 2 ^ 31

structure Node where
  P : Primitives
  idKey : Key
  tableOrder : Nat
  outside : Ptr → Usize → BitVec 32
  hashLookup : Ptr → Ptr → Usize → List Phone → List Byte → Except SgxStatus Unit × List Byte
  /-- The serving buffers of the directory. -/
  stopArgs : StopArgs
  reserves : BitVec 32 → Except SgxStatus Unit
  /-- `LOCAL_ENCLAVE_HOST_ID`. -/
  host : String

structure BatchEnv where
  /-- Where the native call of the `i`-th request puts its query. -/
  place : Nat → Ptr
  stop : StopEnv

/-- The future of a request that was added. -/
inductive Future where
  | failed (t : Throwable)
  | called (requestId : List Byte) (tag : Nat)

/-- What becomes of a request's response. -/
inductive Answer where
  | response (requestId : List Byte) (reply : EncryptedBytes)
  | failed (t : Throwable)
  deriving DecidableEq

structure SgxsdBatch where
  maxPhoneCount : BitVec 32
  phoneCount : BitVec 32
  server : Option (SgxsdServerState Sender)
  pending : Enclave.PendingRequests.St
  tags : Nat

theorem toInt_sub_of_le {left c : BitVec 32} (hpos : 1 ≤ c.toInt) (hle : c.toInt ≤ left.toInt) :
    (left - c).toInt = left.toInt - c.toInt := by
  rw [BitVec.toInt_sub]
  have := BitVec.toInt_lt (x := left)
  exact Int.bmod_eq_of_le (by omega) (by omega)

namespace Node

variable (n : Node)

def idCipher : IdCipher Enclave.Iv PendingRequestId := Enclave.Sgxsd.idCipher n.P.aesGcm n.idKey

def envelope (request : DiscoveryRequest) : Option DiscoveryRequestEnvelope := request.envelopes.lookup n.host

/-! ## A batch -/

/-- An `SgxException` of the native call: the future fails, unless another exception is thrown. The
    future has the name that was `reported` to it. -/
def callFailed (b : SgxsdBatch) (count : BitVec 32) (name reported : String) (code : Option SgxStatus) :
    Except Throwable Future × SgxsdBatch :=
  match handleSgxException name code with
  | some t => (.error t, b)
  | none => (.ok (.failed (convertSgxException reported code)), { b with phoneCount := b.phoneCount + count })

def add (b : SgxsdBatch) (ptr : Ptr) (args : NativeServerCallArgs) : Except Throwable Future × SgxsdBatch :=
  if (b.maxPhoneCount - b.phoneCount).slt args.queryPhoneCount then (.error (.illegalArgument "batch_full"), b)
  else
    match serverCall ptr args with
    | .error (.generic cls msg) => (.error (.native cls msg), b)
    | .error (.sgxError name code) => callFailed b args.queryPhoneCount name name code
    | .ok c =>
      match sgxsdServerCall n.P n.idCipher n.tableOrder (serverCrypto n.P) n.outside b.server b.pending c b.tags with
      | (.error e, server, pending, _) =>
        -- the tag's callback has completed the future by then, under the name of the stop
        callFailed { b with server, pending, tags := b.tags + 1 } args.queryPhoneCount "sgxsd_enclave_server_call"
          "server_stop" (some e)
      | (.ok (), server, pending, _) =>
        (.ok (.called args.pendingRequestId b.tags),
          { b with server, pending, tags := b.tags + 1, phoneCount := b.phoneCount + args.queryPhoneCount })

/-- The loop over the requests, from the `i`-th on: what it throws, and the futures until then. -/
def addAll (place : Nat → Ptr) : (b : SgxsdBatch) → (i : Nat) → List DiscoveryRequest →
    Option Throwable × List Future × SgxsdBatch
  | b, _, [] => (none, [], b)
  | b, i, request :: requests =>
    match n.envelope request with
    | none => (some .nullPointer, [], b)
    | some envelope =>
      match n.add b (place i) (nativeServerCallArgs request envelope) with
      | (.error t, b') => (some t, [], b')
      | (.ok future, b') =>
        let rest := addAll place b' (i + 1) requests
        (rest.1, future :: rest.2.1, rest.2.2)

/-- A batch that is closed: the futures that wait fail, and so do the requests left. -/
def closed (t : Throwable) : List Future → List DiscoveryRequest → List Answer
  | _, [] => []
  | [], _ :: requests => .failed t :: closed t [] requests
  | .failed t' :: futures, _ :: requests => .failed t' :: closed t futures requests
  | .called _ _ :: futures, _ :: requests => .failed (.sgxException "batch_closed" none) :: closed t futures requests

def replyTo (tag : Nat) : Act → Option EncryptedBytes
  | .tag t (.replied reply) => if t = tag then some reply else none
  | _ => none

/-- A future after the stop; `missing` is what the batch's own future fails with. -/
def settle (acts : List Act) (missing : Throwable) : Future → Answer
  | .failed t => .failed t
  | .called requestId tag =>
    match acts.findSome? (replyTo tag) with
    | some reply => .response requestId reply
    | none => .failed missing

/-- The stop of a batch, with the directory: what it did, and what the batch's own future fails with.
    An enclave that panics is an error of the call. -/
def process (b : SgxsdBatch) (env : StopEnv) : List Act × Throwable :=
  match serverStopLocked n.P n.outside n.hashLookup b.server (some n.stopArgs) env with
  | none => ([], .sgxException "sgxsd_enclave_server_stop" (some .unexpected))
  | some (.error e, acts) => (acts, convertSgxException "sgxsd_enclave_server_stop" (some e))
  | some (.ok (), acts) => (acts, .sgxException "reply_missing" none)

def batchSize (requests : List DiscoveryRequest) : BitVec 32 := (requests.map (·.addressCount)).sum

def newBatch (p : Enclave.PendingRequests.St) (maxPhoneCount : BitVec 32) : SgxsdBatch :=
  ⟨maxPhoneCount, 0, (serverStartLocked none (some maxPhoneCount)).2, p, 0⟩

/-- The answers to the requests, and the table of the enclave after the batch. -/
def processBatch (env : BatchEnv) (p : Enclave.PendingRequests.St) (requests : List DiscoveryRequest) :
    List Answer × Enclave.PendingRequests.St :=
  match n.reserves (batchSize requests) with
  | .error e =>
    let t := (handleSgxException "sgxsd_enclave_server_start" (some e)).getD
      (.sgxException "sgxsd_enclave_server_start" (some e))
    (requests.map fun _ => .failed t, p)
  | .ok () =>
    match n.addAll env.place (newBatch p (batchSize requests)) 0 requests with
    | (some t, futures, b) => (closed t futures requests, b.pending)
    | (none, futures, b) =>
      let r := n.process b env.stop
      (futures.map (settle r.1 r.2), b.pending)

end Node

end ContactDiscovery.Service
