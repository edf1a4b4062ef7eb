/-
  ContactDiscovery.Service.Discovery — a discovery call (`ContactDiscoveryResource`,
  `RateLimitServiceClient.discoveryAllowed` and `RequestManager.submit`).

  The call answers at once, throws, or asks the phone limiter. When the limiter's future completes, its
  dependent refuses the call or submits it; when the future of the submit completes, its dependents
  resume the call. The dependent of the limiter has no stage for an exception.

  Futures complete in any order, each as the event says. A host of the rate limit service completes
  its own future with the status of its response or with an exception, a timeout among them. The
  request manager (`Manager`) is what `submit` meets when it is called, and `unchecked` what it throws
  that it does not declare. The rate limiter's own check is input, and so is the serialization of a
  body. Metrics and logs are left out; a rate is an exact rational.
-/

import ContactDiscovery.Lib.Futures
import ContactDiscovery.Lib.Runs
import ContactDiscovery.Service.RequestManager

namespace ContactDiscovery.Service.Discovery

open Lib
open Lib.Futures (Thrown Completion Race whenComplete thenCompose thenAccept exceptionally)
open Client (DiscoveryRequest DiscoveryRequestEnvelope)
open Enclave (EncryptedBytes)

inductive Failure where
  | noSuchEnclave (enclaveId : String)
  | requestManagerFull
  | illegalArgument (message : String)
  | runtime (message : String)
  /-- Of the request's batch. -/
  | batch (t : Throwable)
  | pendingRequestFlush
  | other (name : String)
  deriving DecidableEq

structure DiscoveryResponse where
  requestId : List Byte
  reply : EncryptedBytes
  deriving DecidableEq

/-! ## The request manager -/

structure Manager where
  /-- The enclaves that have a queue. -/
  queues : List String
  pendingPhoneNumbers : Int
  oneMinuteRate : ℚ
  unchecked : Option Failure

def MIN_BACKLOG_SIZE_DEFAULT : Int := 10000
def MIN_BACKLOG_SIZE_PRIORITY : Int := 12000
/-- In seconds. -/
def MAX_BACKLOG_TIME : Int := 15
def MAX_BACKLOG_TIME_PRIORITY : Int := 20
def REQUEST_CONTEXT_INITIAL : String := "Initial"
def REQUEST_CONTEXT_INTERACTIVE : String := "Interactive"

/-- In seconds; the cast to `long` truncates. -/
def Manager.estimateTimeToProcessBacklog (m : Manager) (backlog : Int) : Int :=
  let seconds : ℚ := backlog / max m.oneMinuteRate 1000
  seconds.num.tdiv seconds.den

def Manager.shouldLoadShedRequest (m : Manager) (context : Option String) (addressCount : BitVec 32) : Bool :=
  let priorityContext := context = some REQUEST_CONTEXT_INITIAL ∨ context = some REQUEST_CONTEXT_INTERACTIVE
  let backlogSizeThreshold := if priorityContext then MIN_BACKLOG_SIZE_PRIORITY else MIN_BACKLOG_SIZE_DEFAULT
  let maxBacklogDuration := if priorityContext then MAX_BACKLOG_TIME_PRIORITY else MAX_BACKLOG_TIME
  let backlog := addressCount.toInt + m.pendingPhoneNumbers
  backlog ≥ backlogSizeThreshold ∧ m.estimateTimeToProcessBacklog backlog ≥ maxBacklogDuration

/-- Whether `submit` returns a future. -/
def Manager.submit (m : Manager) (enclaveId : String) (context : Option String) (request : DiscoveryRequest) :
    Except Failure Unit :=
  if m.shouldLoadShedRequest context request.addressCount then .error .requestManagerFull
  else
    match m.unchecked with
    | some t => .error t
    | none => if enclaveId ∈ m.queues then .ok () else .error (.noSuchEnclave enclaveId)

/-! ## The phone limiter -/

inductive PhoneRateLimiter where
  | alwaysSuccessful
  /-- The hosts for the user's number, and what the serialization of the body for a host throws. -/
  | service (hosts : List String) (body : DiscoveryRequestEnvelope → Option Failure)

/-- The hosts' futures, and the one that `firstNormalOf` makes of them. -/
def discoveryAllowed (request : DiscoveryRequest) : PhoneRateLimiter → Except Failure (Race Failure Bool)
  | .alwaysSuccessful => .ok ⟨[], some (.normal true)⟩
  | .service hosts body =>
    let entries := request.envelopes.filter fun e => e.1 ∈ hosts
    if entries.isEmpty then .error (.illegalArgument "No rate limit host IDs given.")
    else
      match entries.findSome? fun e => body e.2 with
      | some t => .ok ⟨[], some (.exceptional (.raw t))⟩
      | none => .ok (.start entries.length)

inductive HostOutcome where
  | response (statusCode : Nat)
  | failed (t : Failure)

def handleDiscoveryAllowedResponse (statusCode : Nat) : Completion Failure Bool :=
  if statusCode ≥ 500 then .exceptional (.raw (.runtime "internal server error response"))
  else .normal (statusCode = 200)

def hostCompletion : HostOutcome → Completion Failure Bool
  | .response statusCode => whenComplete (thenCompose handleDiscoveryAllowedResponse (.normal statusCode))
  | .failed t => whenComplete (.exceptional (.raw t))

/-! ## The call -/

/-- What the `AsyncResponse` is resumed with; an exception may be null. -/
inductive Resumed where
  | status (code : Nat)
  | response (r : DiscoveryResponse)
  | error (t : Option (Thrown Failure))
  deriving DecidableEq

structure Call where
  enclaves : List String
  enclaveId : String
  request : DiscoveryRequest
  context : Option String
  /-- `LOCAL_ENCLAVE_HOST_ID`. -/
  localHost : String
  /-- What `rateLimiter.validate` throws. -/
  validate : Option Failure
  limiter : PhoneRateLimiter

structure St where
  limiter : Option (Race Failure Bool)
  /-- What `submit` threw, or its future. -/
  submitted : Option (Except Failure (Futures.Future Failure DiscoveryResponse))
  /-- The limiter's dependent, which nothing depends on. -/
  dependent : Futures.Future Failure Unit
  resumed : List Resumed

def St.resume (s : St) (r : Resumed) : St := { s with resumed := s.resumed ++ [r] }

/-- The exceptions that the dependent of the limiter catches. -/
def Failure.caught : Failure → Bool
  | .noSuchEnclave _ => true
  | .requestManagerFull => true
  | _ => false

variable (call : Call)

def onAllowed (m : Manager) (allowed : Bool) (s : St) : Except Failure Unit × St :=
  if !allowed then (.ok (), s.resume (.status 429))
  else
    match m.submit call.enclaveId call.context call.request with
    | .ok () => (.ok (), { s with submitted := some (.ok none) })
    | .error t =>
      let s' := { s with submitted := some (.error t) }
      if t.caught then (.ok (), s'.resume (.error (some (.raw t)))) else (.error t, s')

def limiterDone (m : Manager) (c : Completion Failure Bool) (s : St) : St :=
  let r := thenAccept (onAllowed call m) c s
  { r.2 with dependent := some r.1 }

def submitDone (c : Completion Failure DiscoveryResponse) (s : St) : St :=
  let r := thenAccept (fun response s => (.ok (), s.resume (.response response))) (whenComplete c)
    { s with submitted := some (.ok (some c)) }
  exceptionally (fun t s => s.resume (.error t.getCause)) r.1 r.2

def getRegisteredContacts (m : Manager) : Except Failure St :=
  let s : St := ⟨none, none, none, []⟩
  if call.enclaveId ∉ call.enclaves then .ok (s.resume (.error (some (.raw (.noSuchEnclave call.enclaveId)))))
  else
    match call.validate with
    | some t => .error t
    | none =>
      if (call.request.envelopes.lookup call.localHost).isNone then .ok (s.resume (.status 400))
      else
        match discoveryAllowed call.request call.limiter with
        | .error t => .error t
        | .ok race =>
          let s' := { s with limiter := some race }
          match race.first with
          | none => .ok s'
          | some c => .ok (limiterDone call m c s')

/-- Completions of futures; the manager is the one a submit meets. -/
inductive Event where
  | host (i : Nat) (outcome : HostOutcome) (m : Manager)
  | response (c : Completion Failure DiscoveryResponse)

def step (s : St) : Event → Option St
  | .host i outcome m =>
    match s.limiter with
    | none => none
    | some race =>
      match race.complete i (hostCompletion outcome) with
      | none => none
      | some race' =>
        let s' := { s with limiter := some race' }
        match race.first, race'.first with
        | none, some c => some (limiterDone call m c s')
        | _, _ => some s'
  | .response c =>
    match s.submitted with
    | some (.ok none) => some (submitDone c s)
    | _ => none

end ContactDiscovery.Service.Discovery
