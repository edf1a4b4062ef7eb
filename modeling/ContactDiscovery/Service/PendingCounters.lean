/-
  ContactDiscovery.Service.PendingCounters — the counters of pending requests and phone numbers
  (`RequestManager.submit`, `shouldLoadShedRequest`, `flushPendingQueues`).

  `submit` counts a request, globally and for its enclave, before it puts it into the queue of its
  enclave, and takes it off when the response completes: by a worker that took it in a batch, or by a
  flush. The put throws if the enclave has no queue, and then nothing takes the request off again.

  Proved: the counters are those of the requests that were accepted and are not answered, all along a
  run, exactly if no submit that is not shed names an enclave without a queue (`counters_track_iff`).
  One such submit counts for ever, and enough of them shed every other (`unknown_enclave_leaks`).
  To the resource a submit is one of the manager that `Service.Discovery` gives it (`submit_manager`).

  A call is one step, and so is the completion of a response with what depends on it. Any response may
  complete at any time, with any result. The rate of processed numbers is input. A counter is made
  when its enclave is first named; before, it counts 0.
-/

import ContactDiscovery.Service.PendingQueues

namespace ContactDiscovery.Service.Counters

open Lib
open Lib.Futures (Completion)
open Client (DiscoveryRequest)
open Discovery (Failure DiscoveryResponse)
open Queues

/-! ## The counters -/

/-- A request that `submit` counts. -/
structure Submitted where
  enclaveId : String
  addressCount : BitVec 32
  response : Nat

structure PendingCounters where
  pendingRequests : Int
  pendingPhoneNumbers : Int
  perEnclavePendingRequests : String → Int
  perEnclavePendingPhoneNumbers : String → Int

namespace PendingCounters

def zero : PendingCounters := ⟨0, 0, fun _ => 0, fun _ => 0⟩

/-- `n` requests more, of the addresses and the enclave of `a`. -/
def add (c : PendingCounters) (n : Int) (a : Submitted) : PendingCounters where
  pendingRequests := c.pendingRequests + n
  pendingPhoneNumbers := c.pendingPhoneNumbers + n * a.addressCount.toInt
  perEnclavePendingRequests :=
    Function.update c.perEnclavePendingRequests a.enclaveId (c.perEnclavePendingRequests a.enclaveId + n)
  perEnclavePendingPhoneNumbers :=
    Function.update c.perEnclavePendingPhoneNumbers a.enclaveId
      (c.perEnclavePendingPhoneNumbers a.enclaveId + n * a.addressCount.toInt)

def inc (c : PendingCounters) (a : Submitted) : PendingCounters := c.add 1 a

def dec (c : PendingCounters) (a : Submitted) : PendingCounters := c.add (-1) a

end PendingCounters

/-! ## Calls -/

structure RequestManager (σ : Type) where
  pending : PendingRequestQueueSet σ
  responses : Responses
  counters : PendingCounters
  /-- What `submit` accepted: each has a callback on its response, which takes it off. -/
  accepted : List Submitted

namespace RequestManager

variable {σ : Type} (m : RequestManager σ)

/-- What a call of the resource meets of it. -/
def manager (oneMinuteRate : ℚ) : Discovery.Manager := ⟨m.pending.enclaveIds, m.counters.pendingPhoneNumbers, oneMinuteRate, none⟩

def shouldLoadShedRequest (oneMinuteRate : ℚ) (context : Option String) (addressCount : BitVec 32) : Bool :=
  (m.manager oneMinuteRate).shouldLoadShedRequest context addressCount

def submit (oneMinuteRate : ℚ) (enclaveId : String) (context : Option String) (request : DiscoveryRequest) (now : BitVec 64) :
    Except Failure Nat × RequestManager σ :=
  if m.shouldLoadShedRequest oneMinuteRate context request.addressCount then (.error .requestManagerFull, m)
  else
    let a : Submitted := ⟨enclaveId, request.addressCount, m.responses.length⟩
    let m' := { m with counters := m.counters.inc a, responses := m.responses ++ [none] }
    match m.pending.put enclaveId now ⟨request, a.response⟩ with
    | .error t => (.error t, m')
    | .ok pending => (.ok a.response, { m' with pending, accepted := m.accepted ++ [a] })

/-- The resource is given a future, or what is thrown, as by the manager it meets. -/
theorem submit_manager (oneMinuteRate : ℚ) (enclaveId : String) (context : Option String) (request : DiscoveryRequest)
    (now : BitVec 64) :
    (m.manager oneMinuteRate).submit enclaveId context request =
      (m.submit oneMinuteRate enclaveId context request now).1.map fun _ => () := by
  unfold submit Discovery.Manager.submit
  change (if m.shouldLoadShedRequest oneMinuteRate context request.addressCount then _ else _) = _
  by_cases hshed : m.shouldLoadShedRequest oneMinuteRate context request.addressCount = true
  · rw [if_pos hshed, if_pos hshed]
    rfl
  · rw [if_neg hshed, if_neg hshed]
    simp only [manager, PendingRequestQueueSet.put]
    by_cases he : enclaveId ∈ m.pending.enclaveIds
    · simp only [he, if_true]
      rfl
    · simp only [he, if_false]
      rfl

/-- A response completes, if it has not, and its callbacks run. -/
def complete (c : Completion Failure DiscoveryResponse) (response : Nat) : RequestManager σ :=
  if m.responses[response]? = some none then
    { m with
      responses := m.responses.set response (some c)
      counters := (m.accepted.filter fun a => a.response = response).foldl PendingCounters.dec m.counters }
  else m

def flushPendingQueues : BitVec 32 × RequestManager σ :=
  let r := m.pending.flushQueues
  (r.1.1, r.1.2.foldl (fun m i => m.complete flushed i) { m with pending := r.2 })

end RequestManager

inductive Event where
  | submit (oneMinuteRate : ℚ) (enclaveId : String) (context : Option String) (request : DiscoveryRequest) (now : BitVec 64)
  | get (order : List String) (maxAddressCount : BitVec 32) (currentTime now : BitVec 64)
  | complete (response : Nat) (c : Completion Failure DiscoveryResponse)
  | flush

variable {σ : Type}

def step (m : RequestManager σ) : Event → Option (RequestManager σ)
  | .submit oneMinuteRate enclaveId context request now => some (m.submit oneMinuteRate enclaveId context request now).2
  | .get order maxAddressCount currentTime now =>
    match m.pending.get order maxAddressCount currentTime now with
    | none => some m
    | some none => none
    | some (some (_, pending)) => some { m with pending }
  | .complete response c => some (m.complete c response)
  | .flush => some m.flushPendingQueues.2

def initial (pending : PendingRequestQueueSet σ) : RequestManager σ := ⟨pending, [], .zero, []⟩

/-! ## What the counters count -/

/-- The accepted requests whose responses are not complete. -/
def unanswered (m : RequestManager σ) : List Submitted := m.accepted.filter fun a => m.responses[a.response]? = some none

/-- The counters are those of these requests. -/
structure Tally (c : PendingCounters) (l : List Submitted) : Prop where
  requests : c.pendingRequests = l.length
  numbers : c.pendingPhoneNumbers = (l.map fun a => a.addressCount.toInt).sum
  requestsOf : ∀ e, c.perEnclavePendingRequests e = (l.filter fun a => a.enclaveId = e).length
  numbersOf : ∀ e, c.perEnclavePendingPhoneNumbers e = ((l.filter fun a => a.enclaveId = e).map fun a => a.addressCount.toInt).sum

def Balanced (m : RequestManager σ) : Prop := Tally m.counters (unanswered m)

/-- With nothing pending, nothing is in the way of a request but its own addresses. -/
theorem Balanced.idle {m : RequestManager σ} (h : Balanced m) (hidle : unanswered m = []) : m.counters.pendingPhoneNumbers = 0 := by
  rw [h.numbers, hidle]
  rfl

namespace Tally

variable {c : PendingCounters} {l : List Submitted} {a : Submitted}

theorem zero : Tally .zero [] := ⟨rfl, rfl, fun _ => rfl, fun _ => rfl⟩

theorem perm {l' : List Submitted} (h : Tally c l) (hl : l.Perm l') : Tally c l' where
  requests := by rw [h.requests, hl.length_eq]
  numbers := by rw [h.numbers, (hl.map _).sum_eq]
  requestsOf := fun e => by rw [h.requestsOf, (hl.filter _).length_eq]
  numbersOf := fun e => by rw [h.numbersOf, ((hl.filter _).map _).sum_eq]

theorem inc_cons : Tally (c.inc a) (a :: l) ↔ Tally c l := by
  have hrequests : (c.inc a).pendingRequests = (a :: l).length ↔ c.pendingRequests = l.length := by
    simp [PendingCounters.inc, PendingCounters.add]
  have hnumbers : (c.inc a).pendingPhoneNumbers = ((a :: l).map fun a => a.addressCount.toInt).sum ↔
      c.pendingPhoneNumbers = (l.map fun a => a.addressCount.toInt).sum := by
    simp only [PendingCounters.inc, PendingCounters.add, List.map_cons, List.sum_cons]
    omega
  have hrequestsOf : ∀ e, (c.inc a).perEnclavePendingRequests e = ((a :: l).filter fun a => a.enclaveId = e).length ↔
      c.perEnclavePendingRequests e = (l.filter fun a => a.enclaveId = e).length := by
    intro e
    by_cases he : e = a.enclaveId
    · simp [PendingCounters.inc, PendingCounters.add, he]
    · simp [PendingCounters.inc, PendingCounters.add, he, Ne.symm he]
  have hnumbersOf : ∀ e, (c.inc a).perEnclavePendingPhoneNumbers e =
        (((a :: l).filter fun a => a.enclaveId = e).map fun a => a.addressCount.toInt).sum ↔
      c.perEnclavePendingPhoneNumbers e = ((l.filter fun a => a.enclaveId = e).map fun a => a.addressCount.toInt).sum := by
    intro e
    by_cases he : e = a.enclaveId
    · simp only [PendingCounters.inc, PendingCounters.add, he, Function.update_self, List.filter_cons, decide_true, if_true,
        List.map_cons, List.sum_cons]
      omega
    · simp [PendingCounters.inc, PendingCounters.add, he, Ne.symm he]
  exact ⟨fun h => ⟨hrequests.mp h.requests, hnumbers.mp h.numbers, fun e => (hrequestsOf e).mp (h.requestsOf e),
      fun e => (hnumbersOf e).mp (h.numbersOf e)⟩,
    fun h => ⟨hrequests.mpr h.requests, hnumbers.mpr h.numbers, fun e => (hrequestsOf e).mpr (h.requestsOf e),
      fun e => (hnumbersOf e).mpr (h.numbersOf e)⟩⟩

theorem inc_dec (c : PendingCounters) (a : Submitted) : (c.dec a).inc a = c := by
  simp [PendingCounters.inc, PendingCounters.dec, PendingCounters.add]

theorem dec_of_cons (h : Tally c (a :: l)) : Tally (c.dec a) l := by
  rw [← inc_cons, inc_dec]
  exact h

theorem dec_of_append {l' : List Submitted} (h : Tally c (l ++ l')) : Tally (l.foldl PendingCounters.dec c) l' := by
  induction l generalizing c with
  | nil => exact h
  | cons a l ih => exact ih h.dec_of_cons

theorem not_inc (h : Tally c l) : ¬Tally (c.inc a) l := by
  intro h'
  have hinc : c.pendingRequests + 1 = l.length := h'.requests
  have hrequests := h.requests
  omega

end Tally

/-! ## Runs -/

variable {m : RequestManager σ}

def Made (m : RequestManager σ) : Prop := ∀ a ∈ m.accepted, a.response < m.responses.length

theorem Made.append (h : Made m) {a : Submitted} (ha : a ∈ m.accepted) : a.response < (m.responses ++ [none]).length := by
  rw [List.length_append]
  exact Nat.lt_add_right _ (h a ha)

theorem unanswered_append (h : Made m) :
    (m.accepted.filter fun a => (m.responses ++ [none])[a.response]? = some none) = unanswered m :=
  List.filter_congr fun a ha => by rw [List.getElem?_append_left (h a ha)]

/-- A submit that is accepted, or shed. -/
def Known (m : RequestManager σ) : Event → Prop
  | .submit oneMinuteRate enclaveId context request _ =>
    m.shouldLoadShedRequest oneMinuteRate context request.addressCount = false → enclaveId ∈ m.pending.enclaveIds
  | _ => True

section Submit

variable (oneMinuteRate : ℚ) (enclaveId : String) (context : Option String) (request : DiscoveryRequest) (now : BitVec 64)

theorem submit_made (h : Made m) : Made (m.submit oneMinuteRate enclaveId context request now).2 := by
  unfold RequestManager.submit
  split
  · exact h
  · simp only
    split
    · exact fun a ha => h.append ha
    · intro a ha
      rcases List.mem_append.mp ha with ha | ha
      · exact h.append ha
      · rw [List.mem_singleton.mp ha, List.length_append]
        exact Nat.lt_succ_self _

/-- A submit keeps the counters right, unless it is counted and refused. -/
theorem submit_balanced_iff (h : Made m) (hb : Balanced m) :
    Balanced (m.submit oneMinuteRate enclaveId context request now).2 ↔
      Known m (.submit oneMinuteRate enclaveId context request now) := by
  unfold RequestManager.submit Known
  by_cases hshed : m.shouldLoadShedRequest oneMinuteRate context request.addressCount = true
  · simp [hshed, hb]
  · rw [if_neg hshed]
    simp only [PendingRequestQueueSet.put, Bool.not_eq_true] at hshed ⊢
    by_cases he : enclaveId ∈ m.pending.enclaveIds
    · refine iff_of_true ?_ fun _ => he
      rw [if_pos he]
      have hlast : (m.responses ++ [none])[m.responses.length]? = some none := List.getElem?_concat_length
      unfold Balanced unanswered
      simp only [List.filter_append, unanswered_append h, List.filter_cons, hlast, List.filter_nil, decide_true, if_true]
      exact (Tally.inc_cons.mpr hb).perm (List.perm_append_singleton _ _).symm
    · refine iff_of_false ?_ fun hk => he (hk hshed)
      rw [if_neg he]
      unfold Balanced unanswered
      simp only [unanswered_append h]
      exact hb.not_inc

end Submit

section Complete

variable (c : Completion Failure DiscoveryResponse) (i : Nat)

theorem complete_made (h : Made m) : Made (m.complete c i) := by
  unfold RequestManager.complete
  split
  · intro a ha
    rw [List.length_set]
    exact h a ha
  · exact h

theorem complete_balanced (hb : Balanced m) : Balanced (m.complete c i) := by
  unfold RequestManager.complete
  split
  swap
  · exact hb
  rename_i hnone
  have hlt := (List.getElem?_eq_some_iff.mp hnone).1
  -- the requests with this response are taken off, and the others are unanswered still
  have hthese : (m.accepted.filter fun a => a.response = i) = (unanswered m).filter fun a => a.response = i := by
    rw [unanswered, List.filter_filter]
    refine List.filter_congr fun a _ => ?_
    by_cases ha : a.response = i
    · simp [ha, hnone]
    · simp [ha]
  have hothers : (m.accepted.filter fun a => (m.responses.set i (some c))[a.response]? = some none) =
      (unanswered m).filter fun a => !decide (a.response = i) := by
    rw [unanswered, List.filter_filter]
    refine List.filter_congr fun a _ => ?_
    by_cases ha : a.response = i
    · simp [ha, hlt]
    · simp [ha, Ne.symm ha]
  have hsplit := List.filter_append_perm (fun a : Submitted => decide (a.response = i)) (unanswered m)
  have htally := (hb.perm hsplit.symm).dec_of_append
  rw [← hthese, ← hothers] at htally
  exact htally

end Complete

theorem step_made {m' : RequestManager σ} {e : Event} (h : Made m) (hs : step m e = some m') : Made m' := by
  cases e with
  | submit oneMinuteRate enclaveId context request now => cases hs; exact submit_made _ _ _ _ _ h
  | get order maxAddressCount currentTime now =>
    simp only [step] at hs
    split at hs <;> cases hs <;> exact h
  | complete response c => cases hs; exact complete_made c response h
  | flush =>
    cases hs
    exact List.foldlRecOn (motive := Made) _ _ h fun m hm i _ => complete_made flushed i hm

/-- Only a submit that is counted and refused makes the counters wrong. -/
theorem step_balanced_iff {m' : RequestManager σ} {e : Event} (h : Made m) (hb : Balanced m) (hs : step m e = some m') :
    Balanced m' ↔ Known m e := by
  cases e with
  | submit oneMinuteRate enclaveId context request now => cases hs; exact submit_balanced_iff _ _ _ _ _ h hb
  | get order maxAddressCount currentTime now =>
    refine iff_of_true ?_ trivial
    simp only [step] at hs
    split at hs <;> cases hs <;> exact hb
  | complete response c => cases hs; exact iff_of_true (complete_balanced c response hb) trivial
  | flush =>
    cases hs
    refine iff_of_true ?_ trivial
    exact List.foldlRecOn (motive := Balanced) _ _ hb fun m hm i _ => complete_balanced flushed i hm

/-- The counters are those of the accepted requests that are not answered, at every point of a run,
    exactly if no submit of it is counted and then refused for its enclave. -/
theorem counters_track_iff (pending : PendingRequestQueueSet σ) (es : List Event) :
    Runs.Always step Balanced (initial pending) es ↔ Runs.Meets step Known (initial pending) es := by
  have hmade : Made (initial pending) := fun _ ha => absurd ha List.not_mem_nil
  exact Runs.always_iff_meets (P := Balanced) (Q := Made) (C := Known)
    (fun m e m' hb hm hs => ⟨step_balanced_iff hm hb hs, step_made hm hs⟩) es (initial pending) Tally.zero hmade

/-! ## A submit for an enclave without a queue -/

def plainPending : PendingRequestQueueSet Unit := ⟨["a"], List.nodup_singleton _, fun _ => .new (), 7000⟩

/-- Two submits for an enclave "b" are refused; then one of a single address for "a" is shed, with
    nothing pending. -/
theorem unknown_enclave_leaks :
    let m := ((initial plainPending).submit 0 "b" none (sizedRequest 9000) 1).2
    let m' := (m.submit 0 "b" none (sizedRequest 5999) 2).2
    ((initial plainPending).submit 0 "b" none (sizedRequest 9000) 1).1 = .error (.noSuchEnclave "b") ∧
      (m.submit 0 "b" none (sizedRequest 5999) 2).1 = .error (.noSuchEnclave "b") ∧
      m'.accepted = [] ∧ m'.counters.pendingRequests = 2 ∧ m'.counters.pendingPhoneNumbers = 14999 ∧
      m'.counters.perEnclavePendingRequests "b" = 2 ∧ m'.counters.perEnclavePendingPhoneNumbers "b" = 14999 ∧
      (m'.submit 0 "a" none (sizedRequest 1) 3).1 = .error .requestManagerFull ∧
      ¬Runs.Always step Balanced (initial plainPending) [.submit 0 "b" none (sizedRequest 9000) 1] := by
  refine ⟨by decide +kernel, by decide +kernel, by decide +kernel, by decide +kernel, by decide +kernel, by decide +kernel,
    by decide +kernel, by decide +kernel, fun h => ?_⟩
  have hrequests := (h.2 _ rfl).requests
  revert hrequests
  decide +kernel

end ContactDiscovery.Service.Counters
