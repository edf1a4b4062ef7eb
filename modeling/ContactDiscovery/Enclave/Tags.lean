/-
  ContactDiscovery.Enclave.Tags — the tags of calls are taken back once.

  Each tag is at every instant in one place: held by a server's sender, or in the trace with its
  fate (`Accounts`). So no tag is ever taken back twice; and when no server is up, all tags were
  taken back exactly if every answer got to the host (`tags_taken_once_iff`). A reply for which the
  IV or the encryption fails has used its sender up, and the tag is lost (`failed_iv_loses_tag`).
-/

import ContactDiscovery.Enclave.SgxsdProofs
import ContactDiscovery.Lib.Ledger

namespace ContactDiscovery.Enclave.Sgxsd

open Lib Lib.Ledger
open PendingRequests (IdCipher)
open Server (SgxsdServerState Crypto StopArgs Ev terminate)

section Tags

variable {ι : Type} [DecidableEq ι] {P : Primitives} {C : IdCipher Iv PendingRequestId} {tableOrder : Nat} {S : Crypto}
  {outside : Ptr → Usize → BitVec 32}
  {hashLookup : Ptr → Ptr → Usize → List Phone → List Byte → Except SgxStatus Unit × List Byte}

/-! ## Where the tags are -/

def heldTags (s : St ι) (handle : ι) : List Nat := (held s handle).map (·.tag)

def spentTags (s : St ι) : List Nat := s.trace.filterMap tagOf

/-- Every tag made is held by one server or in the trace, once. -/
structure Accounts (s : St ι) : Prop where
  separate : Separate (spentTags s) (heldTags s)
  made : ∀ t, t < s.tags ↔ t ∈ spentTags s ∨ ∃ handle, t ∈ heldTags s handle

omit [DecidableEq ι] in
theorem idle_accounts (pending : PendingRequests.St × PendingRequests.History Iv PendingRequestId) :
    Accounts (idle ι pending) :=
  ⟨Separate.empty, fun t => ⟨fun h => absurd h (Nat.not_lt_zero t), by rintro (h | ⟨_, h⟩) <;> cases h⟩⟩

omit [DecidableEq ι] in
theorem Accounts.fresh {s : St ι} (h : Accounts s) : Fresh s.tags (spentTags s) (heldTags s) :=
  ⟨fun hm => Nat.lt_irrefl _ ((h.made _).mpr (.inl hm)), fun i hm => Nat.lt_irrefl _ ((h.made _).mpr (.inr ⟨i, hm⟩))⟩

omit [DecidableEq ι] in
theorem Accounts.same {s s' : St ι} (h : Accounts s) (hheld : heldTags s' = heldTags s) (htags : s'.tags = s.tags)
    (hspent : spentTags s' = spentTags s) : Accounts s' :=
  ⟨by rw [hheld, hspent]; exact h.separate, by rw [hheld, hspent, htags]; exact h.made⟩

theorem step_accounts {s s' : St ι} {e : Event ι} (h : Accounts s)
    (hs : step P C tableOrder S outside hashLookup s e = some s') : Accounts s' := by
  rcases step_cases hs with ⟨-, hheld, htags, htrace⟩ | ⟨clientPubkey, env, -, hheld, htags, htrace⟩ |
    ⟨-, hheld, htags, htrace⟩ | ⟨handle, c, r, -, -, -, hheld, htags, htrace⟩ |
    ⟨handle, args, env, r, acts, -, hstop, hheld, htags, htrace⟩
  · exact h.same (by unfold heldTags; rw [hheld]) htags (by unfold spentTags; rw [htrace])
  · refine h.same (by unfold heldTags; rw [hheld]) htags ?_
    unfold spentTags
    rw [htrace, List.filterMap_append, negotiateRequest_tags, List.append_nil]
  · -- a tag is made and spent at once
    have hh : heldTags s' = heldTags s := by unfold heldTags; rw [hheld]
    have hsp : spentTags s' = spentTags s ++ [s.tags] := by
      unfold spentTags
      rw [htrace, List.filterMap_append]; rfl
    refine ⟨by rw [hh, hsp]; exact h.separate.pay h.fresh, fun t => ?_⟩
    rw [hh, hsp, htags, Nat.lt_succ_iff_lt_or_eq, h.made, List.mem_append, List.mem_singleton, or_right_comm]
  · -- a tag is made and goes to the server
    have hh : heldTags s' = Function.update (heldTags s) handle (heldTags s handle ++ [s.tags]) := by
      unfold heldTags
      rw [hheld, map_update, List.map_append]
      rfl
    have hsp : spentTags s' = spentTags s := by unfold spentTags; rw [htrace]
    refine ⟨by rw [hh, hsp]; exact h.separate.put h.fresh handle, fun t => ?_⟩
    rw [hh, hsp, htags, Nat.lt_succ_iff_lt_or_eq, h.made, or_assoc]
    refine or_congr_right ⟨?_, ?_⟩
    · rintro (⟨i, hi⟩ | rfl)
      · by_cases he : i = handle
        · exact ⟨handle, by rw [Function.update_self]; exact List.mem_append_left _ (he ▸ hi)⟩
        · exact ⟨i, by rw [Function.update_of_ne he]; exact hi⟩
      · exact ⟨handle, by rw [Function.update_self]; exact List.mem_append_right _ (List.mem_singleton.mpr rfl)⟩
    · rintro ⟨i, hi⟩
      by_cases he : i = handle
      · rw [he, Function.update_self] at hi
        rcases List.mem_append.mp hi with hi | hi
        · exact .inl ⟨handle, hi⟩
        · exact .inr (List.mem_singleton.mp hi)
      · rw [Function.update_of_ne he] at hi
        exact .inl ⟨i, hi⟩
  · -- the server's tags are spent
    obtain ⟨evs, rfl, hevs⟩ := serverStopLocked_answers hstop
    have hh : heldTags s' = Function.update (heldTags s) handle [] := by
      unfold heldTags
      rw [hheld, map_update]
      rfl
    have hsp : spentTags s' = spentTags s ++ heldTags s handle := by
      unfold spentTags
      rw [htrace, List.filterMap_append, answers_tags, hevs]; rfl
    refine ⟨by rw [hh, hsp]; exact h.separate.spend (List.Sublist.refl _), fun t => ?_⟩
    rw [hh, hsp, htags, h.made, List.mem_append, or_assoc]
    refine or_congr_right ⟨?_, ?_⟩
    · rintro ⟨i, hi⟩
      by_cases he : i = handle
      · exact .inl (he ▸ hi)
      · exact .inr ⟨i, by rw [Function.update_of_ne he]; exact hi⟩
    · rintro (hi | ⟨i, hi⟩)
      · exact ⟨handle, hi⟩
      · by_cases he : i = handle
        · rw [he, Function.update_self] at hi; cases hi
        · rw [Function.update_of_ne he] at hi; exact ⟨i, hi⟩

/-! ## Tags that are lost -/

def Ocall.made : Ocall → Bool
  | .notMade _ => false
  | _ => true

/-- The reply gets its IV and its encryption, and its ocall gets to the host. -/
def ReplyEnv.reaches (env : ReplyEnv) : Bool := env.iv.isOk && env.encrypt.isOk && env.ocall.made

def isReply : Ev Sender → Bool
  | .reply _ _ => true
  | _ => false

def isNoreply : Ev Sender → Bool
  | .noreply _ => true
  | _ => false

/-- No tag is lost among the acts. -/
def NoneLost (acts : List Act) : Prop := ∀ t, Act.tag t .lost ∉ acts

theorem noneLost_append {acts acts' : List Act} : NoneLost (acts ++ acts') ↔ NoneLost acts ∧ NoneLost acts' := by
  simp only [NoneLost, List.mem_append, not_or, forall_and]

theorem serverReply_noneLost (env : ReplyEnv) (sender : Sender) (msg : List Byte) :
    NoneLost (serverReply P env sender msg).2 ↔ env.reaches = true := by
  unfold serverReply NoneLost
  rcases env with ⟨_ | _, _ | _, _ | _ | _⟩ <;> simp [ReplyEnv.reaches, Ocall.made, Except.isOk, Except.toBool]

theorem serverNoreply_noneLost (ocall : Ocall) (sender : Sender) :
    NoneLost (serverNoreply ocall sender) ↔ ocall.made = true := by
  unfold serverNoreply NoneLost
  cases ocall <;> simp [Ocall.made]

theorem forall_lt_succ_add {p : Nat → Prop} {i n : Nat} :
    (∀ k < n + 1, p (i + k)) ↔ p i ∧ ∀ k < n, p (i + 1 + k) := by
  constructor
  · intro h
    refine ⟨h 0 (Nat.succ_pos n), fun k hk => ?_⟩
    rw [Nat.add_right_comm]
    exact h (k + 1) (Nat.succ_lt_succ hk)
  · intro ⟨h₀, h⟩ k hk
    cases k with
    | zero => exact h₀
    | succ k =>
      rw [← Nat.add_assoc, Nat.add_right_comm]
      exact h k (Nat.lt_of_succ_lt_succ hk)

theorem answers_noneLost (env : StopEnv) (evs : List (Ev Sender)) : ∀ i j,
    NoneLost (answers P env i j evs) ↔ (∀ k < evs.countP isReply, (env.reply (i + k)).reaches = true) ∧
      ∀ k < evs.countP isNoreply, (env.noreply (j + k)).made = true := by
  induction evs with
  | nil => intro i j; exact iff_of_true (fun _ h => (by cases h)) ⟨fun _ h => (by cases h), fun _ h => (by cases h)⟩
  | cons ev evs ih =>
    intro i j
    cases ev with
    | lookup p u n q =>
      rw [List.countP_cons_of_neg (by simp [isReply]), List.countP_cons_of_neg (by simp [isNoreply])]
      exact ih i j
    | reply sender msg =>
      rw [List.countP_cons_of_pos (by rfl), List.countP_cons_of_neg (by simp [isNoreply]), answers, noneLost_append,
        serverReply_noneLost, ih, forall_lt_succ_add (p := fun k => (env.reply k).reaches = true), and_assoc]
    | noreply sender =>
      rw [List.countP_cons_of_neg (by simp [isReply]), List.countP_cons_of_pos (by rfl), answers, noneLost_append,
        serverNoreply_noneLost, ih, forall_lt_succ_add (p := fun k => (env.noreply k).made = true), and_left_comm]

variable (outside hashLookup) in
/-- All answers of a stop get to the host. -/
def StopReaches (server : Option (SgxsdServerState Sender)) (args : Option StopArgs) (env : StopEnv) : Prop :=
  ∀ s ∈ server,
    (∀ i < (terminate outside hashLookup (fun i => replyResult (env.reply i)) s args).1.countP isReply,
      (env.reply i).reaches = true) ∧
    ∀ i < (terminate outside hashLookup (fun i => replyResult (env.reply i)) s args).1.countP isNoreply,
      (env.noreply i).made = true

variable (outside hashLookup) in
def Reaches (s : St ι) : Event ι → Prop
  | .stop handle args env => StopReaches outside hashLookup (s.servers handle) args env
  | _ => True

theorem serverStopLocked_noneLost {server : Option (SgxsdServerState Sender)} {args : Option StopArgs} {env : StopEnv}
    {r : Except SgxStatus Unit} {acts : List Act}
    (h : serverStopLocked P outside hashLookup server args env = some (r, acts)) :
    NoneLost acts ↔ StopReaches outside hashLookup server args env := by
  unfold serverStopLocked at h
  cases server with
  | none =>
    cases h
    exact iff_of_true (fun _ h => (by cases h)) fun _ h => (by cases h)
  | some s =>
    simp only at h
    split at h
    · cases h
    · rename_i evs r' hterm
      cases h
      rw [answers_noneLost]
      simp only [StopReaches, Option.mem_def, Option.some.injEq, forall_eq', hterm, Nat.zero_add]

theorem noneLost_of_tags {acts : List Act} (h : acts.filterMap tagOf = []) : NoneLost acts := by
  intro t ht
  have hm : t ∈ acts.filterMap tagOf := List.mem_filterMap.mpr ⟨_, ht, rfl⟩
  rw [h] at hm
  cases hm

theorem step_noneLost {s s' : St ι} {e : Event ι} (h : step P C tableOrder S outside hashLookup s e = some s') :
    NoneLost s'.trace ↔ NoneLost s.trace ∧ Reaches outside hashLookup s e := by
  rcases step_cases h with ⟨hstop, -, -, htrace⟩ | ⟨clientPubkey, env, rfl, -, -, htrace⟩ |
    ⟨hstop, -, -, htrace⟩ | ⟨handle, c, r, rfl, -, -, -, -, htrace⟩ | ⟨handle, args, env, r, acts, rfl, hacts, -, -, htrace⟩
  · rw [htrace, and_iff_left]
    cases e <;> first | trivial | exact absurd rfl (hstop _ _ _)
  · rw [htrace, noneLost_append, and_iff_left (noneLost_of_tags (negotiateRequest_tags ..)), and_iff_left]
    trivial
  · rw [htrace, noneLost_append]
    refine and_congr_right fun _ => iff_of_true (fun t ht => ?_) ?_
    · cases List.mem_singleton.mp ht
    · cases e <;> first | trivial | exact absurd rfl (hstop _ _ _)
  · rw [htrace, and_iff_left]
    trivial
  · rw [htrace, noneLost_append, serverStopLocked_noneLost hacts]
    rfl

theorem run_noneLost (events : List (Event ι)) : ∀ {s s' : St ι},
    Runs.run (step P C tableOrder S outside hashLookup) s events = some s' →
    (NoneLost s'.trace ↔ NoneLost s.trace ∧
      Runs.Meets (step P C tableOrder S outside hashLookup) (Reaches outside hashLookup) s events) := by
  induction events with
  | nil =>
    intro s s' h
    cases h
    exact (and_iff_left trivial).symm
  | cons e events ih =>
    intro s s' h
    rw [Runs.run, Option.bind_eq_some_iff] at h
    obtain ⟨t, ht, hrun⟩ := h
    rw [ih hrun, step_noneLost ht, and_assoc]
    refine and_congr_right fun _ => ⟨fun hm t' ht' => ?_, fun hm => hm t ht⟩
    cases ht.symm.trans ht'
    exact hm

def takes (t : Nat) : Act → Bool
  | .tag t' fate => t' == t && fate.taken
  | _ => false

def takings (s : St ι) (t : Nat) : Nat := s.trace.countP (takes t)

theorem count_tags (t : Nat) (trace : List Act) :
    (trace.filterMap tagOf).count t = trace.countP (takes t) + trace.count (.tag t .lost) := by
  induction trace with
  | nil => rfl
  | cons act trace ih =>
    cases act with
    | tag t' fate =>
      rw [List.filterMap_cons_some (by rfl), List.count_cons, List.countP_cons, List.count_cons, ih]
      by_cases ht : t' = t
      · subst ht
        cases fate <;> simp [takes, Fate.taken] <;> omega
      · simp [takes, ht]
    | sealNumber _ | sealId _ _ _ | sealReply _ _ _ =>
      rw [List.filterMap_cons_none (by rfl), ih, List.countP_cons_of_neg (by simp [takes]),
        List.count_cons_of_ne (by simp)]

/-- After any run, no tag was taken back twice; and if no server is up, every tag was taken back
    once exactly if all answers got to the host. -/
theorem takings_of_run {pending : PendingRequests.St × PendingRequests.History Iv PendingRequestId}
    {events : List (Event ι)} {s : St ι}
    (hrun : Runs.run (step P C tableOrder S outside hashLookup) (idle ι pending) events = some s) :
    (∀ t, takings s t ≤ 1) ∧ ((∀ handle, s.servers handle = none) →
      ((∀ t < s.tags, takings s t = 1) ↔
        Runs.Meets (step P C tableOrder S outside hashLookup) (Reaches outside hashLookup) (idle ι pending) events)) := by
  have hacc : Accounts s := Runs.run_of_inv (fun _ _ _ h hs => step_accounts h hs) (idle_accounts pending) hrun
  have hcount : ∀ t, (spentTags s).count t = takings s t + s.trace.count (.tag t .lost) := fun t => count_tags t s.trace
  have honce : ∀ t, (spentTags s).count t ≤ 1 := fun t => List.nodup_iff_count_le_one.mp hacc.separate.spent_nodup t
  refine ⟨fun t => by have := hcount t; have := honce t; omega, fun hdown => ?_⟩
  have hspent : ∀ t < s.tags, (spentTags s).count t = 1 := by
    intro t ht
    rcases (hacc.made t).mp ht with hm | ⟨handle, hm⟩
    · have := honce t
      have := List.count_pos_iff.mpr hm
      omega
    · unfold heldTags held at hm
      rw [hdown handle] at hm
      cases hm
  have hlost : NoneLost s.trace ↔ Runs.Meets (step P C tableOrder S outside hashLookup) (Reaches outside hashLookup)
      (idle ι pending) events := by
    rw [run_noneLost events hrun, and_iff_right]
    intro t ht
    cases ht
  rw [← hlost]
  constructor
  · intro hall t ht
    have hm : t ∈ spentTags s := List.mem_filterMap.mpr ⟨_, ht, rfl⟩
    have hlt := (hacc.made t).mpr (.inl hm)
    have := hall t hlt
    have := hcount t
    have := hspent t hlt
    have := List.count_pos_iff.mpr ht
    omega
  · intro hnone t ht
    have hzero : s.trace.count (.tag t .lost) = 0 := List.count_eq_zero.mpr (hnone t)
    have := hcount t
    have := hspent t ht
    omega

/-! ## Start, calls, stop -/

/-- A server is started, called and stopped. -/
def oneServer (handle : ι) (maxQueryPhones : Option (BitVec 32)) (calls : List CallIn) (args : Option StopArgs)
    (env : StopEnv) : List (Event ι) :=
  .start handle maxQueryPhones :: (calls.map (.call handle) ++ [.stop handle args env])

theorem run_calls (handle : ι) (calls : List CallIn) : ∀ {s s' : St ι},
    Runs.run (step P C tableOrder S outside hashLookup) s (calls.map (.call handle)) = some s' →
    s'.tags = s.tags + calls.length ∧ ∀ i ≠ handle, s'.servers i = s.servers i := by
  induction calls with
  | nil =>
    intro s s' h
    cases h
    exact ⟨rfl, fun _ _ => rfl⟩
  | cons c calls ih =>
    intro s s' h
    rw [List.map_cons, Runs.run, Option.bind_eq_some_iff] at h
    obtain ⟨t, ht, hrun⟩ := h
    obtain ⟨htags, hservers⟩ := ih hrun
    cases ht
    refine ⟨?_, fun i hi => (hservers i hi).trans (Function.update_of_ne hi _ _)⟩
    rw [htags, List.length_cons]
    simp only
    omega

/-- A server is started, called any number of times and stopped, with whatever failures. The stop
    returns; no tag is taken back twice; and the tag of every call is taken back exactly if all
    answers of the stop got to the host: each reply got its IV and its encryption, and each ocall,
    with a reply or without, was made. -/
theorem tags_taken_once_iff (hin : InPlace hashLookup)
    (pending : PendingRequests.St × PendingRequests.History Iv PendingRequestId) (handle : ι)
    (maxQueryPhones : Option (BitVec 32)) (calls : List CallIn) (args : Option StopArgs) (env : StopEnv) :
    ∃ s, Runs.run (step P C tableOrder S outside hashLookup) (idle ι pending)
        (oneServer handle maxQueryPhones calls args env) = some s ∧
      s.tags = calls.length ∧ (∀ t, takings s t ≤ 1) ∧
      ((∀ t < calls.length, takings s t = 1) ↔
        Runs.Meets (step P C tableOrder S outside hashLookup) (Reaches outside hashLookup) (idle ι pending)
          (oneServer handle maxQueryPhones calls args env)) := by
  obtain ⟨s, hrun⟩ := @run_some ι _ P C tableOrder S outside hashLookup hin
    (oneServer handle maxQueryPhones calls args env) (idle ι pending) fun _ _ h => (by cases h)
  obtain ⟨honce, htaken⟩ := takings_of_run hrun
  refine ⟨s, hrun, ?_⟩
  -- the calls' state, and the stop from there
  unfold oneServer at hrun
  rw [Runs.run, Option.bind_eq_some_iff] at hrun
  obtain ⟨s₁, hstart, hrun⟩ := hrun
  rw [Runs.run_append, Option.bind_eq_some_iff] at hrun
  obtain ⟨s₂, hcalls, hstop⟩ := hrun
  obtain ⟨htags, hservers⟩ := run_calls handle calls hcalls
  rw [Runs.run, Option.bind_eq_some_iff] at hstop
  obtain ⟨s₃, hstop, hend⟩ := hstop
  cases hend
  cases hstart
  unfold step at hstop
  simp only at hstop
  split at hstop
  · cases hstop
  cases hstop
  have hcount : s₂.tags = calls.length := by
    rw [htags]
    exact Nat.zero_add _
  refine ⟨hcount, honce, ?_⟩
  rw [← hcount]
  refine htaken fun i => ?_
  by_cases hi : i = handle
  · rw [hi]; exact Function.update_self ..
  · exact (Function.update_of_ne hi ..).trans ((hservers i hi).trans (Function.update_of_ne hi ..))

end Tags

instance (outside : Ptr → Usize → BitVec 32)
    (hashLookup : Ptr → Ptr → Usize → List Phone → List Byte → Except SgxStatus Unit × List Byte) {ι : Type} (s : St ι) :
    ∀ e, Decidable (Reaches outside hashLookup s e)
  | .stop handle _ _ => inferInstanceAs (Decidable (∀ server ∈ s.servers handle, _ ∧ _))
  | .negotiate _ _ | .start _ _ | .call _ _ | .fingerprint _ _ _ _ _ _ _ _ => .isTrue trivial

def oneRequest : PendingRequests.St × PendingRequests.History Iv PendingRequestId :=
  (⟨fun i => if i = 1 then ⟨1, 0⟩ else .zero, 1⟩, [])

/-- Two calls for one request, the second of which fails. -/
theorem tags_taken_once_two_calls :
    ∃ s, Runs.run plainStep (idle Unit oneRequest)
        (oneServer () (some 8) [plainCall 1, plainCall 1] (some ⟨0, 0, 0⟩) (plainEnv ⟨.ok zeroIv, .ok (), .returned⟩)) =
          some s ∧
      ∀ t < 2, takings s t = 1 := by
  obtain ⟨s, hrun, -, -, hiff⟩ := @tags_taken_once_iff Unit _ plainPrimitives (idCipher plainPrimitives.aesGcm zeroKey) 1
    Server.idleCrypto (fun _ _ => 1) nothingFound (fun _ _ _ _ _ => rfl) oneRequest () (some 8) [plainCall 1, plainCall 1]
    (some ⟨0, 0, 0⟩) (plainEnv ⟨.ok zeroIv, .ok (), .returned⟩)
  exact ⟨s, hrun, hiff.mpr (by decide +kernel)⟩

/-- A reply for which the random source fails, and one for which the encryption does: the call's tag is
    never taken back. -/
theorem failed_iv_loses_tag :
    (Runs.run plainStep (idle Unit oneRequest) (oneServer () (some 8) [plainCall 1] (some ⟨0, 0, 0⟩)
      (plainEnv ⟨.error (.other 1), .ok (), .returned⟩))).map (fun s => (s.tags, (s.servers ()).isNone, takings s 0)) =
      some (1, true, 0) ∧
    (Runs.run plainStep (idle Unit oneRequest) (oneServer () (some 8) [plainCall 1] (some ⟨0, 0, 0⟩)
      (plainEnv ⟨.ok zeroIv, .error .unexpected, .returned⟩))).map (fun s => (s.tags, (s.servers ()).isNone, takings s 0)) =
      some (1, true, 0) :=
  ⟨by decide +kernel, by decide +kernel⟩

end ContactDiscovery.Enclave.Sgxsd
