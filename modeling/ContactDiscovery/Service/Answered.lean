/-
  ContactDiscovery.Service.Answered — how often a discovery call is resumed (`answered_once_iff`): in
  no state of a run more than once, and when the futures of the call are complete, once exactly if the
  limiter's future has no exception and `submit` threw nothing but what its caller catches. Else the
  call is never resumed: the exception is the one of a stage that nothing depends on.

  With the rate limit service, the limiter's future has an exception exactly if every host failed or
  answered with a status from 500 on (`limiter_fails_iff`).
-/

import ContactDiscovery.Service.Discovery

namespace ContactDiscovery.Service.Discovery

open Lib
open Lib.Futures (Thrown Completion Race whenComplete thenCompose)
open Enclave.Sgxsd (zeroKey zeroIv zeroMac)

def St.allowed (s : St) : Option (Futures.Future Failure Bool) := s.limiter.map (·.first)

/-- How far a call is, and how often it was resumed. -/
inductive Phase : St → Prop
  | atOnce {s : St} : s.allowed = none → s.submitted = none → s.resumed.length = 1 → Phase s
  | asked {s : St} : s.allowed = some none → s.submitted = none → s.resumed.length = 0 → Phase s
  | failed {s : St} {t : Thrown Failure} : s.allowed = some (some (.exceptional t)) → s.submitted = none →
      s.resumed.length = 0 → Phase s
  | refused {s : St} : s.allowed = some (some (.normal false)) → s.submitted = none → s.resumed.length = 1 → Phase s
  | threw {s : St} {t : Failure} : s.allowed = some (some (.normal true)) → s.submitted = some (.error t) →
      s.resumed.length = (if t.caught then 1 else 0) → Phase s
  | waiting {s : St} : s.allowed = some (some (.normal true)) → s.submitted = some (.ok none) →
      s.resumed.length = 0 → Phase s
  | answered {s : St} {c : Completion Failure DiscoveryResponse} : s.allowed = some (some (.normal true)) →
      s.submitted = some (.ok (some c)) → s.resumed.length = 1 → Phase s

variable {call : Call}

/-! ## Steps -/

theorem limiterDone_phase {s : St} {m : Manager} {c : Completion Failure Bool} (hallowed : s.allowed = some (some c))
    (hsubmitted : s.submitted = none) (hresumed : s.resumed = []) : Phase (limiterDone call m c s) := by
  match c with
  | .exceptional t => exact .failed hallowed hsubmitted (by simp [limiterDone, Futures.thenAccept, hresumed])
  | .normal false => exact .refused hallowed hsubmitted (by simp [limiterDone, Futures.thenAccept, onAllowed, St.resume, hresumed])
  | .normal true =>
    cases hsubmit : m.submit call.enclaveId call.context call.request with
    | ok u =>
      have hdone : limiterDone call m (.normal true) s =
          { s with submitted := some (.ok none), dependent := some (.normal ()) } := by
        simp [limiterDone, Futures.thenAccept, onAllowed, hsubmit]
      rw [hdone]
      exact .waiting hallowed rfl (by simp [hresumed])
    | error t =>
      by_cases hcaught : t.caught = true
      · have hdone : limiterDone call m (.normal true) s = { s with
            submitted := some (.error t), dependent := some (.normal ()), resumed := [.error (some (.raw t))] } := by
          simp [limiterDone, Futures.thenAccept, onAllowed, hsubmit, hcaught, St.resume, hresumed]
        rw [hdone]
        exact .threw hallowed rfl (by simp [hcaught])
      · have hdone : limiterDone call m (.normal true) s = { s with
            submitted := some (.error t), dependent := some (.exceptional (.completion (.raw t))) } := by
          simp [limiterDone, Futures.thenAccept, onAllowed, hsubmit, hcaught]
        rw [hdone]
        exact .threw hallowed rfl (by simp [hcaught, hresumed])

theorem getRegisteredContacts_phase {m : Manager} {s : St} (h : getRegisteredContacts call m = .ok s) : Phase s := by
  unfold getRegisteredContacts at h
  simp only at h
  split at h
  · cases h
    exact .atOnce rfl rfl rfl
  split at h
  · cases h
  split at h
  · cases h
    exact .atOnce rfl rfl rfl
  split at h
  · cases h
  rename_i race hrace
  split at h
  · rename_i hfirst
    cases h
    exact .asked (by simp [St.allowed, hfirst]) rfl rfl
  · rename_i c hfirst
    cases h
    exact limiterDone_phase (by simp [St.allowed, hfirst]) rfl rfl

/-- What the client gets when the submit's future completes: the response, or the exception itself. -/
theorem submitDone_resumed (c : Completion Failure DiscoveryResponse) (s : St) :
    (submitDone c s).resumed = s.resumed ++ [match c with
      | .normal response => .response response
      | .exceptional (.raw e) => .error (some (.raw e))
      | .exceptional (.completion cause) => .error (some cause)] := by
  match c with
  | .normal response => rfl
  | .exceptional (.raw e) => rfl
  | .exceptional (.completion cause) => rfl

theorem submitDone_phase {s : St} (hallowed : s.allowed = some (some (.normal true))) (hresumed : s.resumed.length = 0)
    (c : Completion Failure DiscoveryResponse) : Phase (submitDone c s) := by
  have hlen : (submitDone c s).resumed.length = 1 := by
    rw [submitDone_resumed, List.length_append, hresumed]
    rfl
  match c, hlen with
  | .normal response, hlen => exact .answered hallowed rfl hlen
  | .exceptional (.raw e), hlen => exact .answered hallowed rfl hlen
  | .exceptional (.completion cause), hlen => exact .answered hallowed rfl hlen

theorem Phase.congr {s s' : St} (h : Phase s) (hallowed : s'.allowed = s.allowed) (hsubmitted : s'.submitted = s.submitted)
    (hresumed : s'.resumed = s.resumed) : Phase s' := by
  cases h with
  | atOnce ha hs hr => exact .atOnce (hallowed.trans ha) (hsubmitted.trans hs) (hresumed ▸ hr)
  | asked ha hs hr => exact .asked (hallowed.trans ha) (hsubmitted.trans hs) (hresumed ▸ hr)
  | failed ha hs hr => exact .failed (hallowed.trans ha) (hsubmitted.trans hs) (hresumed ▸ hr)
  | refused ha hs hr => exact .refused (hallowed.trans ha) (hsubmitted.trans hs) (hresumed ▸ hr)
  | threw ha hs hr => exact .threw (hallowed.trans ha) (hsubmitted.trans hs) (hresumed ▸ hr)
  | waiting ha hs hr => exact .waiting (hallowed.trans ha) (hsubmitted.trans hs) (hresumed ▸ hr)
  | answered ha hs hr => exact .answered (hallowed.trans ha) (hsubmitted.trans hs) (hresumed ▸ hr)

theorem Phase.asked_inv {s : St} (h : Phase s) (ha : s.allowed = some none) : s.submitted = none ∧ s.resumed = [] := by
  cases h with
  | asked _ hs hr => exact ⟨hs, List.eq_nil_of_length_eq_zero hr⟩
  | atOnce ha' | failed ha' | refused ha' | threw ha' | waiting ha' | answered ha' => cases ha.symm.trans ha'

theorem Phase.waiting_inv {s : St} (h : Phase s) (hs : s.submitted = some (.ok none)) :
    s.allowed = some (some (.normal true)) ∧ s.resumed.length = 0 := by
  cases h with
  | waiting ha _ hr => exact ⟨ha, hr⟩
  | atOnce _ hs' | asked _ hs' | failed _ hs' | refused _ hs' | threw _ hs' | answered _ hs' => cases hs.symm.trans hs'

theorem step_phase (s : St) (e : Event) (s' : St) (h : Phase s) (hs : step call s e = some s') : Phase s' := by
  cases e with
  | host i outcome m =>
    simp only [step] at hs
    split at hs
    · cases hs
    rename_i race hrace
    split at hs
    · cases hs
    rename_i race' hcomplete
    split at hs
    · rename_i c hnone hsome
      cases hs
      obtain ⟨hsubmitted, hresumed⟩ := h.asked_inv (by rw [St.allowed, hrace, Option.map_some, hnone])
      exact limiterDone_phase (by simp [St.allowed, hsome]) hsubmitted hresumed
    · rename_i hnot
      cases hs
      refine h.congr ?_ rfl rfl
      -- either both futures wait, or the first was completed and is as it was
      simp only [St.allowed, hrace, Option.map_some, Option.some.injEq]
      cases hfirst : race.first with
      | some x => exact Race.complete_first hcomplete hfirst
      | none =>
        cases hfirst' : race'.first with
        | none => rfl
        | some c => exact absurd hfirst' (hnot c hfirst)
  | response c =>
    simp only [step] at hs
    split at hs
    · rename_i hsubmitted
      cases hs
      obtain ⟨hallowed, hresumed⟩ := h.waiting_inv hsubmitted
      exact submitDone_phase hallowed hresumed c
    · cases hs

theorem run_phase {m : Manager} {s₀ s : St} (h₀ : getRegisteredContacts call m = .ok s₀) {events : List Event}
    (hrun : Runs.run (step call) s₀ events = some s) : Phase s :=
  Runs.run_of_inv step_phase (getRegisteredContacts_phase h₀) hrun

/-! ## Answers -/

/-- The futures that the call depends on are complete. -/
def Completed (s : St) : Prop := s.allowed ≠ some none ∧ s.submitted ≠ some (.ok none)

/-- The limiter's future has no exception, and `submit` threw nothing but what is caught. -/
def Answerable (s : St) : Prop :=
  (∀ t, s.allowed ≠ some (some (.exceptional t))) ∧ ∀ t, s.submitted = some (.error t) → t.caught = true

theorem answered_once_iff (call : Call) {m : Manager} {s₀ s : St} (h₀ : getRegisteredContacts call m = .ok s₀)
    {events : List Event} (hrun : Runs.run (step call) s₀ events = some s) :
    s.resumed.length ≤ 1 ∧ (Completed s → (s.resumed.length = 1 ↔ Answerable s)) := by
  -- a call that was resumed once and had no exception is as it should be
  have honce : s.resumed.length = 1 → Answerable s →
      s.resumed.length ≤ 1 ∧ (Completed s → (s.resumed.length = 1 ↔ Answerable s)) :=
    fun hr ha => ⟨Nat.le_of_eq hr, fun _ => iff_of_true hr ha⟩
  have hnever : s.resumed.length = 0 → (Completed s → ¬Answerable s) →
      s.resumed.length ≤ 1 ∧ (Completed s → (s.resumed.length = 1 ↔ Answerable s)) :=
    fun hr ha => ⟨by omega, fun hc => iff_of_false (by omega) (ha hc)⟩
  cases run_phase h₀ hrun with
  | atOnce ha hs hr => exact honce hr ⟨fun t ht => (by cases ha.symm.trans ht), fun t ht => (by cases hs.symm.trans ht)⟩
  | asked ha hs hr => exact hnever hr fun hc => absurd ha hc.1
  | failed ha hs hr => exact hnever hr fun _ h => h.1 _ ha
  | refused ha hs hr => exact honce hr ⟨fun t ht => (by cases ha.symm.trans ht), fun t ht => (by cases hs.symm.trans ht)⟩
  | threw ha hs hr =>
    split at hr
    · rename_i hcaught
      exact honce hr ⟨fun t ht => (by cases ha.symm.trans ht), fun t ht => by cases hs.symm.trans ht; exact hcaught⟩
    · rename_i hcaught
      exact hnever hr fun _ h => hcaught (h.2 _ hs)
  | waiting ha hs hr => exact hnever hr fun hc => absurd hs hc.2
  | answered ha hs hr => exact honce hr ⟨fun t ht => (by cases ha.symm.trans ht), fun t ht => (by cases hs.symm.trans ht)⟩

/-! ## The rate limit service -/

/-- A host that does not say whether the call is allowed. -/
def HostOutcome.Fails : HostOutcome → Prop
  | .response statusCode => 500 ≤ statusCode
  | .failed _ => True

theorem hostCompletion_exceptional_iff (outcome : HostOutcome) :
    (∃ t, hostCompletion outcome = .exceptional t) ↔ outcome.Fails := by
  cases outcome with
  | failed t => exact iff_of_true ⟨_, rfl⟩ trivial
  | response statusCode =>
    simp only [hostCompletion, thenCompose, handleDiscoveryAllowedResponse, HostOutcome.Fails]
    by_cases h : statusCode ≥ 500
    · rw [if_pos h]
      exact iff_of_true ⟨_, rfl⟩ h
    · rw [if_neg h]
      refine iff_of_false ?_ h
      rintro ⟨t, ht⟩
      cases ht

/-- The hosts' futures, and the one of the limiter. -/
structure Hosts (race : Race Failure Bool) : Prop where
  inv : race.Inv
  some : race.stages ≠ []
  outcomes : ∀ f ∈ race.stages, f = none ∨ ∃ outcome, f = Option.some (hostCompletion outcome)

theorem Hosts.complete {race race' : Race Failure Bool} (h : Hosts race) {i : Nat} {outcome : HostOutcome}
    (hr : race.complete i (hostCompletion outcome) = .some race') : Hosts race' := by
  have hstages : race'.stages = race.stages.set i (.some (hostCompletion outcome)) := by
    unfold Race.complete at hr
    split at hr <;> cases hr
    rfl
  refine ⟨h.inv.complete hr, ?_, fun f hf => ?_⟩
  · rw [hstages, Ne, List.set_eq_nil_iff]
    exact h.some
  · rw [hstages] at hf
    rcases List.mem_or_eq_of_mem_set hf with hf | rfl
    · exact h.outcomes f hf
    · exact .inr ⟨outcome, rfl⟩

theorem limiterDone_limiter (m : Manager) (c : Completion Failure Bool) (s : St) :
    (limiterDone call m c s).limiter = s.limiter := by
  match c with
  | .exceptional t => rfl
  | .normal false => rfl
  | .normal true =>
    cases hsubmit : m.submit call.enclaveId call.context call.request with
    | ok u => simp [limiterDone, Futures.thenAccept, onAllowed, hsubmit]
    | error t => by_cases hcaught : t.caught = true <;>
        simp [limiterDone, Futures.thenAccept, onAllowed, hsubmit, hcaught, St.resume]

theorem submitDone_limiter (c : Completion Failure DiscoveryResponse) (s : St) : (submitDone c s).limiter = s.limiter := by
  match c with
  | .normal response => rfl
  | .exceptional (.raw e) => rfl
  | .exceptional (.completion cause) => rfl

theorem step_hosts (s : St) (e : Event) (s' : St) (h : ∀ race, s.limiter = some race → Hosts race)
    (hs : step call s e = some s') : ∀ race, s'.limiter = some race → Hosts race := by
  cases e with
  | host i outcome m =>
    simp only [step] at hs
    split at hs
    · cases hs
    rename_i race hrace
    split at hs
    · cases hs
    rename_i race' hcomplete
    have hlimiter : s'.limiter = some race' := by
      split at hs
      · cases hs; exact limiterDone_limiter m _ _
      · cases hs; rfl
    intro r hr
    cases hlimiter.symm.trans hr
    exact (h race hrace).complete hcomplete
  | response c =>
    simp only [step] at hs
    split at hs
    · cases hs
      rw [submitDone_limiter]
      exact h
    · cases hs

theorem getRegisteredContacts_hosts {hosts : List String} {body : Client.DiscoveryRequestEnvelope → Option Failure}
    (hl : call.limiter = .service hosts body) (hbody : ∀ e, body e = none) {m : Manager} {s : St}
    (h : getRegisteredContacts call m = .ok s) : ∀ race, s.limiter = some race → Hosts race := by
  intro race hrace
  unfold getRegisteredContacts at h
  simp only [hl] at h
  split at h
  · cases h; cases hrace
  split at h
  · cases h
  split at h
  · cases h; cases hrace
  split at h
  · cases h
  rename_i race' hallowed
  have hstart : Hosts race' ∧ race'.first = none := by
    unfold discoveryAllowed at hallowed
    simp only [hbody, List.findSome?_eq_none_iff.mpr fun _ _ => rfl] at hallowed
    split at hallowed
    · cases hallowed
    rename_i hentries
    cases hallowed
    refine ⟨⟨Race.start_inv _, ?_, fun f hf => .inl (List.mem_replicate.mp hf).2⟩, rfl⟩
    intro hnil
    rw [Race.start, List.replicate_eq_nil_iff, List.length_eq_zero_iff] at hnil
    exact hentries (by rw [hnil]; rfl)
  rw [hstart.2] at h
  cases h
  cases hrace
  exact hstart.1

/-- Once all hosts are done, so is the limiter, and it has an exception exactly if every host failed. -/
theorem limiter_fails_iff {hosts : List String} {body : Client.DiscoveryRequestEnvelope → Option Failure}
    (hl : call.limiter = .service hosts body) (hbody : ∀ e, body e = none) {m : Manager} {s₀ s : St}
    (h₀ : getRegisteredContacts call m = .ok s₀) {events : List Event} (hrun : Runs.run (step call) s₀ events = some s)
    {race : Race Failure Bool} (hrace : s.limiter = some race) (hdone : none ∉ race.stages) :
    s.allowed ≠ some none ∧
      ((∃ t, s.allowed = some (some (.exceptional t))) ↔
        ∀ f ∈ race.stages, ∃ outcome : HostOutcome, outcome.Fails ∧ f = some (hostCompletion outcome)) := by
  have hhosts := Runs.run_of_inv step_hosts (getRegisteredContacts_hosts hl hbody h₀) hrun race hrace
  obtain ⟨hfirst, hiff⟩ := hhosts.inv.done hhosts.some hdone
  simp only [St.allowed, hrace, Option.map_some, ne_eq, Option.some.injEq]
  refine ⟨hfirst, hiff.trans (forall₂_congr fun f hf => ?_)⟩
  constructor
  · rintro ⟨t, rfl⟩
    rcases hhosts.outcomes _ hf with h | ⟨outcome, h⟩
    · cases h
    · exact ⟨outcome, (hostCompletion_exceptional_iff outcome).mp ⟨t, (Option.some.inj h).symm⟩, h⟩
  · rintro ⟨outcome, hfails, rfl⟩
    obtain ⟨t, ht⟩ := (hostCompletion_exceptional_iff outcome).mpr hfails
    exact ⟨t, by rw [ht]⟩

/-! ## A call to run -/

def plainCall : Call where
  enclaves := ["enclave"]
  enclaveId := "enclave"
  request := ⟨1, zeroKey, ⟨List.replicate 40 0, zeroIv, zeroMac⟩,
    ["local", "limiter"].map fun host => (host, ⟨List.replicate 36 0, ⟨List.replicate 32 0, zeroIv, zeroMac⟩⟩)⟩
  context := none
  localHost := "local"
  validate := none
  limiter := .service ["limiter"] fun _ => none

def plainManager : Manager := ⟨["enclave"], 0, 0, none⟩

def plainResponse : DiscoveryResponse := ⟨List.replicate 36 0, ⟨[], zeroIv, zeroMac⟩⟩

/-- The host allows the call, and the batch answers it. -/
theorem answered_once_iff_plain :
    ∃ s₀ s, getRegisteredContacts plainCall plainManager = .ok s₀ ∧
      Runs.run (step plainCall) s₀ [.host 0 (.response 200) plainManager, .response (.normal plainResponse)] = some s ∧
      Completed s ∧ s.resumed.length = 1 := by
  obtain ⟨s₀, s, h₀, hrun, hallowed, hsubmitted⟩ : ∃ s₀ s, getRegisteredContacts plainCall plainManager = .ok s₀ ∧
      Runs.run (step plainCall) s₀ [.host 0 (.response 200) plainManager, .response (.normal plainResponse)] = some s ∧
      s.allowed = some (some (.normal true)) ∧ s.submitted = some (.ok (some (.normal plainResponse))) :=
    ⟨_, _, rfl, rfl, rfl, rfl⟩
  have hcompleted : Completed s :=
    ⟨fun h => (by cases hallowed.symm.trans h), fun h => (by cases hsubmitted.symm.trans h)⟩
  refine ⟨s₀, s, h₀, hrun, hcompleted, ((answered_once_iff plainCall h₀ hrun).2 hcompleted).mpr ?_⟩
  exact ⟨fun t h => (by cases hallowed.symm.trans h), fun t h => (by cases hsubmitted.symm.trans h)⟩

/-- The only host has an error of its own, and the call is never answered. -/
theorem failing_host_leaves_call :
    Validated plainCall.request ∧
      ∃ s₀ s, getRegisteredContacts plainCall plainManager = .ok s₀ ∧
        Runs.run (step plainCall) s₀ [.host 0 (.response 500) plainManager] = some s ∧
        Completed s ∧ s.resumed = [] :=
  ⟨⟨by decide, by decide, by decide, by decide⟩, _, _, rfl, rfl, ⟨fun h => (by cases h), fun h => (by cases h)⟩, rfl⟩

end ContactDiscovery.Service.Discovery
