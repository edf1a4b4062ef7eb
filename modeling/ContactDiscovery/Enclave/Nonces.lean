/-
  ContactDiscovery.Enclave.Nonces — no nonce is used twice under a request's server key.

  A pending request is taken out of the table once, and the sender made from it replies at most
  once (`Nonces`). Its id is encrypted once, with an IV of zeros, and a reply's IV has a bit set. So
  at most two encryptions are made under the key, with different IVs (`server_key_nonces`).
-/

import ContactDiscovery.Enclave.SgxsdProofs
import ContactDiscovery.Lib.Ledger

namespace ContactDiscovery.Enclave.Sgxsd

open Lib Lib.Ledger
open PendingRequests (Prk IdCipher addsOf Issued Removed removePendingRequest)
open Server (Crypto)

section Nonces

variable {ι : Type} [DecidableEq ι] {P : Primitives} {C : IdCipher Iv PendingRequestId} {tableOrder : Nat} {S : Crypto}
  {outside : Ptr → Usize → BitVec 32}
  {hashLookup : Ptr → Ptr → Usize → List Phone → List Byte → Except SgxStatus Unit × List Byte}

/-! ## Requests and the uses of their keys -/

variable (P) in
/-- The number and the server key of request `j`. -/
def IsRequest (h : PendingRequests.History Iv PendingRequestId) (j : Nat) (idVal : BitVec 64) (key : Key) : Prop :=
  ∃ prk r, (addsOf h)[j]? = some (prk, r) ∧ idVal = BitVec.ofNat 64 (j + 1) ∧ key = serverKey P prk

variable (P) in
/-- The number and the server key of a request that was taken out of the table. -/
def IsTaken (h : PendingRequests.History Iv PendingRequestId) (idVal : BitVec 64) (key : Key) : Prop :=
  ∃ j, IsRequest P h j idVal key ∧ Removed h j

theorem IsRequest.mono {h : PendingRequests.History Iv PendingRequestId} {j : Nat} {idVal : BitVec 64} {key : Key}
    (hr : IsRequest P h j idVal key) (l : PendingRequests.History Iv PendingRequestId) : IsRequest P (h ++ l) j idVal key := by
  obtain ⟨prk, r, hj, hrest⟩ := hr
  obtain ⟨hlt, -⟩ := List.getElem?_eq_some_iff.mp hj
  refine ⟨prk, r, ?_, hrest⟩
  rw [show addsOf (h ++ l) = addsOf h ++ addsOf l from List.filterMap_append, List.getElem?_append_left hlt]
  exact hj

theorem IsTaken.mono {h : PendingRequests.History Iv PendingRequestId} {idVal : BitVec 64} {key : Key}
    (ht : IsTaken P h idVal key) (l : PendingRequests.History Iv PendingRequestId) : IsTaken P (h ++ l) idVal key := by
  obtain ⟨j, hr, prk, id, e, hi, hm⟩ := ht
  obtain ⟨hlt, -⟩ := List.getElem?_eq_some_iff.mp hi
  refine ⟨j, hr.mono l, prk, id, e, ?_, List.mem_append_left _ hm⟩
  rw [Issued, show addsOf (h ++ l) = addsOf h ++ addsOf l from List.filterMap_append, List.getElem?_append_left hlt]
  exact hi

theorem IsRequest.inj {h : PendingRequests.History Iv PendingRequestId} {i j : Nat} {idVal : BitVec 64} {key key' : Key}
    (hb : (addsOf h).length < 2 ^ 64) (hi : IsRequest P h i idVal key) (hj : IsRequest P h j idVal key') : i = j := by
  obtain ⟨prk, r, hi, rfl, -⟩ := hi
  obtain ⟨prk', r', hj, heq, -⟩ := hj
  obtain ⟨hilt, -⟩ := List.getElem?_eq_some_iff.mp hi
  obtain ⟨hjlt, -⟩ := List.getElem?_eq_some_iff.mp hj
  have h := congrArg BitVec.toNat heq
  rw [PendingRequests.toNat_number hb hilt, PendingRequests.toNat_number hb hjlt] at h
  omega

theorem found_live (hk : tableOrder ≤ 63) {p : PendingRequests.St × PendingRequests.History Iv PendingRequestId}
    (h : PendingRequests.Inv C tableOrder p) {id : PendingRequestId} {r : PendingRequests.PendingRequest}
    (hauth : PendingRequests.Authentic C p (.remove id)) (hr : (removePendingRequest C tableOrder p.1 id).1 = .ok r) :
    ∃ j prk, Issued p.2 j prk id ∧ ¬Removed p.2 j ∧ r = ⟨BitVec.ofNat 64 (j + 1), prk⟩ := by
  have hexact := h.exact hk
  cases hd : C.decrypt id with
  | error e =>
    rw [(hexact.forged id e hd).1] at hr
    cases hr
  | ok v =>
    obtain ⟨j, prk, hi⟩ := hauth v hd
    by_cases hl : PendingRequests.Live tableOrder p.2 j
    · rw [hexact.remove_live j prk id hi hl] at hr
      cases hr
      exact ⟨j, prk, hi, hl.2.2, rfl⟩
    · rw [(hexact.dead j prk id hi hl).1] at hr
      cases hr

/-- The uses a server's senders can still make of their keys. -/
def heldUses (s : St ι) (handle : ι) : List (BitVec 64 × Bool) := (held s handle).map fun x => (x.idVal, true)

def spentUses (s : St ι) : List (BitVec 64 × Bool) := s.trace.filterMap useOf

variable (P) in
/-- No use of a server key is made twice or made and still to come; what is used or to be used is
    the key of a request, of one taken out of the table if for a reply; and the IVs are as they
    should be. -/
structure Nonces (s : St ι) : Prop where
  separate : Separate (spentUses s) (heldUses s)
  ids : ∀ idVal key iv, Act.sealId idVal key iv ∈ s.trace → (∃ j, IsRequest P s.pending.2 j idVal key) ∧ iv = zeroIv
  replies : ∀ idVal key iv, Act.sealReply idVal key iv ∈ s.trace →
    IsTaken P s.pending.2 idVal key ∧ ∃ iv', iv = Iv.setLowBit iv'
  senders : ∀ handle, ∀ x ∈ held s handle, IsTaken P s.pending.2 x.idVal x.serverKey

omit [DecidableEq ι] in
theorem init_nonces : Nonces P (init ι) :=
  ⟨Separate.empty, fun _ _ _ h => (by cases h), fun _ _ _ h => (by cases h), fun _ _ h => (by cases h)⟩

theorem step_history {s s' : St ι} {e : Event ι} (h : step P C tableOrder S outside hashLookup s e = some s') :
    ∃ l, s'.pending.2 = s.pending.2 ++ l := by
  rcases step_pending h with ⟨-, hp⟩ | ⟨op, -, hstep⟩
  · exact ⟨[], by rw [hp, List.append_nil]⟩
  · simp only [PendingRequests.step, Option.some.injEq] at hstep
    exact ⟨_, by rw [← hstep]⟩

omit [DecidableEq ι] in
theorem Nonces.extend {s s' : St ι} (h : Nonces P s) {l : PendingRequests.History Iv PendingRequestId} {acts : List Act}
    (hl : s'.pending.2 = s.pending.2 ++ l) (htrace : s'.trace = s.trace ++ acts)
    (hseparate : Separate (spentUses s ++ acts.filterMap useOf) (heldUses s'))
    (hids : ∀ idVal key iv, Act.sealId idVal key iv ∈ acts → (∃ j, IsRequest P s'.pending.2 j idVal key) ∧ iv = zeroIv)
    (hreplies : ∀ idVal key iv, Act.sealReply idVal key iv ∈ acts →
      IsTaken P s'.pending.2 idVal key ∧ ∃ iv', iv = Iv.setLowBit iv')
    (hsenders : ∀ handle, ∀ x ∈ held s' handle, IsTaken P s'.pending.2 x.idVal x.serverKey) : Nonces P s' := by
  refine ⟨?_, fun idVal key iv hm => ?_, fun idVal key iv hm => ?_, hsenders⟩
  · unfold spentUses
    rw [htrace, List.filterMap_append]
    exact hseparate
  · rw [htrace] at hm
    rcases List.mem_append.mp hm with hm | hm
    · obtain ⟨⟨j, hj⟩, hiv⟩ := h.ids idVal key iv hm
      exact ⟨⟨j, hl ▸ hj.mono l⟩, hiv⟩
    · exact hids idVal key iv hm
  · rw [htrace] at hm
    rcases List.mem_append.mp hm with hm | hm
    · obtain ⟨ht, hiv⟩ := h.replies idVal key iv hm
      exact ⟨hl ▸ ht.mono l, hiv⟩
    · exact hreplies idVal key iv hm

omit [DecidableEq ι] in
theorem Nonces.fresh_id {s : St ι} (h : Nonces P s) {idVal : BitVec 64}
    (hnew : ∀ j key, ¬ IsRequest P s.pending.2 j idVal key) : Fresh (idVal, false) (spentUses s) (heldUses s) := by
  refine ⟨fun hm => ?_, fun handle hm => ?_⟩
  · obtain ⟨act, hact, huse⟩ := List.mem_filterMap.mp hm
    cases act with
    | sealId v key iv =>
      cases huse
      obtain ⟨⟨j, hj⟩, -⟩ := h.ids _ key iv hact
      exact hnew j key hj
    | sealNumber _ | sealReply _ _ _ | tag _ _ => cases huse
  · obtain ⟨x, -, hx⟩ := List.mem_map.mp hm
    cases hx

omit [DecidableEq ι] in
/-- The number of a request that is still in the table was not used for a reply, and is not held. -/
theorem Nonces.fresh_reply {s : St ι} (h : Nonces P s) {j : Nat} {idVal : BitVec 64} {key : Key}
    (hb : (addsOf s.pending.2).length < 2 ^ 64) (hj : IsRequest P s.pending.2 j idVal key)
    (hthere : ¬Removed s.pending.2 j) : Fresh (idVal, true) (spentUses s) (heldUses s) := by
  have hno : ∀ key', ¬ IsTaken P s.pending.2 idVal key' := by
    intro key' ⟨j', hj', hrem⟩
    rw [hj.inj hb hj'] at hthere
    exact hthere hrem
  refine ⟨fun hm => ?_, fun handle hm => ?_⟩
  · obtain ⟨act, hact, huse⟩ := List.mem_filterMap.mp hm
    cases act with
    | sealReply v key' iv =>
      cases huse
      exact hno key' (h.replies _ key' iv hact).1
    | sealNumber _ | sealId _ _ _ | tag _ _ => cases huse
  · obtain ⟨x, hx, heq⟩ := List.mem_map.mp hm
    cases heq
    exact hno _ (h.senders handle x hx)

/-- A negotiation uses the key of its new request once, for the id. -/
theorem negotiate_nonces {s s' : St ι} {clientPubkey : Bytes 32} {env : NegotiateEnv} (h : Nonces P s)
    (ht' : PendingRequests.Inv C tableOrder s'.pending)
    (hs : step P C tableOrder S outside hashLookup s (.negotiate clientPubkey env) = some s') (hheld : held s' = held s)
    (htrace : s'.trace = s.trace ++ (negotiateRequest P C tableOrder s.pending.1 clientPubkey env).2.2) : Nonces P s' := by
  obtain ⟨l, hl⟩ := step_history hs
  have hsenders : ∀ handle, ∀ x ∈ held s' handle, IsTaken P s'.pending.2 x.idVal x.serverKey := by
    intro handle x hx
    rw [hheld] at hx
    exact hl ▸ (h.senders handle x hx).mono l
  have huses : heldUses s' = heldUses s := by unfold heldUses; rw [hheld]
  have hnumber : (sealNumber env.idIv).filterMap useOf = [] ∧
      ∀ idVal key iv, Act.sealId idVal key iv ∉ sealNumber env.idIv ∧ Act.sealReply idVal key iv ∉ sealNumber env.idIv := by
    unfold sealNumber
    cases env.idIv <;> simp [useOf]
  rcases @negotiateRequest_cases P C tableOrder s.pending.1 clientPubkey env with ⟨e, -, hneg⟩ |
    ⟨ephemeral, added, p', r, heph, hadd, hneg⟩
  · rw [hneg] at htrace
    exact h.extend hl htrace (by rw [huses]; simpa using h.separate) (fun _ _ _ hm => (by cases hm))
      (fun _ _ _ hm => (by cases hm)) hsenders
  · rw [hneg] at htrace
    cases added with
    | error e =>
      rw [List.append_nil] at htrace
      exact h.extend hl htrace (by rw [huses, hnumber.1, List.append_nil]; exact h.separate)
        (fun _ _ _ hm => absurd hm (hnumber.2 ..).1) (fun _ _ _ hm => absurd hm (hnumber.2 ..).2) hsenders
    | ok id =>
      -- the new request is the last of the history, and its number the table's last
      obtain ⟨prk, hprk⟩ : ∃ prk, prk = negotiatedPrk P clientPubkey ephemeral env.staticKeypair := ⟨_, rfl⟩
      rw [← hprk] at hadd htrace
      obtain ⟨op, hop, hstep⟩ := (step_pending hs).resolve_left fun ⟨hnone, _⟩ => by
        simp only [tableOp, heph] at hnone
        cases hnone
      simp only [tableOp, heph, Option.some.injEq, ← hprk] at hop
      subst hop
      simp only [PendingRequests.step, PendingRequests.exec, hadd, Option.some.injEq] at hstep
      have hlast : p'.lastPendingRequestIdVal = BitVec.ofNat 64 ((addsOf s.pending.2).length + 1) := by
        have hcount := ht'.count
        rw [← hstep, PendingRequests.length_addsOf_add] at hcount
        apply BitVec.eq_of_toNat_eq
        have hbound := ht'.bound
        rw [← hstep, PendingRequests.length_addsOf_add] at hbound
        rw [hcount, BitVec.toNat_ofNat, Nat.mod_eq_of_lt hbound]
      have hreq : IsRequest P s'.pending.2 (addsOf s.pending.2).length p'.lastPendingRequestIdVal (serverKey P prk) := by
        refine ⟨prk, .ok id, ?_, hlast, rfl⟩
        rw [← hstep, PendingRequests.addsOf_add, List.getElem?_append_right (Nat.le_refl _), Nat.sub_self]
        rfl
      have hfresh : Fresh (p'.lastPendingRequestIdVal, false) (spentUses s) (heldUses s) := by
        refine h.fresh_id fun j key hj => ?_
        have heq := (hl ▸ hj.mono l : IsRequest P s'.pending.2 j _ _).inj ht'.bound hreq
        obtain ⟨_, _, hlt, -⟩ := hj
        obtain ⟨hlt, -⟩ := List.getElem?_eq_some_iff.mp hlt
        omega
      refine h.extend hl htrace ?_ (fun idVal key iv hm => ?_) (fun idVal key iv hm => ?_) hsenders
      · rw [huses, List.filterMap_append, hnumber.1, List.nil_append]
        exact h.separate.pay hfresh
      · rcases List.mem_append.mp hm with hm | hm
        · exact absurd hm (hnumber.2 ..).1
        · cases List.mem_singleton.mp hm
          exact ⟨⟨_, hreq⟩, rfl⟩
      · rcases List.mem_append.mp hm with hm | hm
        · exact absurd hm (hnumber.2 ..).2
        · cases List.mem_singleton.mp hm

/-- A call takes its pending request out of the table, and its sender holds the key. -/
theorem call_nonces (hk : tableOrder ≤ 63) {s s' : St ι} {handle : ι} {c : CallIn} {r : PendingRequests.PendingRequest}
    (h : Nonces P s) (ht : PendingRequests.Inv C tableOrder s.pending) (hc : Allowed P C s (.call handle c))
    (hs : step P C tableOrder S outside hashLookup s (.call handle c) = some s')
    (hop : tableOp P s (.call handle c) = some (.remove c.header.pendingRequestId))
    (hr : (removePendingRequest C tableOrder s.pending.1 c.header.pendingRequestId).1 = .ok r)
    (hheld : held s' = Function.update (held s) handle (held s handle ++ [⟨s.tags, serverKey P r.hkdfPrk, r.idVal⟩]))
    (htrace : s'.trace = s.trace) : Nonces P s' := by
  obtain ⟨l, hl⟩ := step_history hs
  obtain ⟨op, hop', hstep⟩ := (step_pending hs).resolve_left fun hnone => by
    rw [hop] at hnone
    cases hnone.1
  cases hop.symm.trans hop'
  -- the pending request was in the table, and is not now
  obtain ⟨j, prk, hi, hthere, rfl⟩ := found_live hk ht (hc _ hop).1 hr
  have hreq : IsRequest P s.pending.2 j (BitVec.ofNat 64 (j + 1)) (serverKey P prk) := ⟨prk, _, hi, rfl, rfl⟩
  have htaken : IsTaken P s'.pending.2 (BitVec.ofNat 64 (j + 1)) (serverKey P prk) := by
    refine ⟨j, hl ▸ hreq.mono l, prk, c.header.pendingRequestId, ⟨BitVec.ofNat 64 (j + 1), prk⟩, ?_, ?_⟩
    · simp only [PendingRequests.step, Option.some.injEq] at hstep
      rw [← hstep]
      exact hi.mono _
    · simp only [PendingRequests.step, PendingRequests.exec, Option.some.injEq] at hstep
      rw [← hstep, hr]
      exact List.mem_append_right _ (List.mem_singleton.mpr rfl)
  have huses : heldUses s' = Function.update (heldUses s) handle (heldUses s handle ++ [(BitVec.ofNat 64 (j + 1), true)]) := by
    unfold heldUses
    rw [hheld, map_update, List.map_append]
    rfl
  refine h.extend hl (show s'.trace = s.trace ++ [] by rw [htrace, List.append_nil]) ?_
    (fun _ _ _ hm => (by cases hm)) (fun _ _ _ hm => (by cases hm)) fun i x hx => ?_
  · rw [huses, List.filterMap_nil, List.append_nil]
    exact h.separate.put (h.fresh_reply ht.bound hreq hthere) handle
  · rw [hheld] at hx
    by_cases hi : i = handle
    · rw [hi, Function.update_self] at hx
      rcases List.mem_append.mp hx with hx | hx
      · exact hl ▸ (h.senders handle x hx).mono l
      · cases List.mem_singleton.mp hx
        exact htaken
    · rw [Function.update_of_ne hi] at hx
      exact hl ▸ (h.senders i x hx).mono l

/-- A stop uses the keys of the server's senders once each, for the replies. -/
theorem stop_nonces {s s' : St ι} {handle : ι} {args : Option Server.StopArgs} {env : StopEnv} {r : Except SgxStatus Unit} {acts : List Act}
    (h : Nonces P s) (hs : step P C tableOrder S outside hashLookup s (.stop handle args env) = some s')
    (hstop : serverStopLocked P outside hashLookup (s.servers handle) args env = some (r, acts))
    (hheld : held s' = Function.update (held s) handle []) (htrace : s'.trace = s.trace ++ acts) : Nonces P s' := by
  obtain ⟨l, hl⟩ := step_history hs
  obtain ⟨evs, rfl, hevs⟩ := serverStopLocked_answers hstop
  have huses : heldUses s' = Function.update (heldUses s) handle [] := by
    unfold heldUses
    rw [hheld, map_update]
    rfl
  refine h.extend hl htrace ?_ (fun idVal key iv hm => ?_) (fun idVal key iv hm => ?_) fun i x hx => ?_
  · rw [huses]
    refine h.separate.spend ?_
    have hsub := answers_uses P env evs 0 0
    rw [hevs] at hsub
    exact hsub
  · rcases mem_answers P hm with ⟨t, fate, hact⟩ | ⟨sender, -, iv', hact⟩ <;> cases hact
  · rcases mem_answers P hm with ⟨t, fate, hact⟩ | ⟨sender, hsender, iv', hact⟩
    · cases hact
    · cases hact
      rw [hevs] at hsender
      exact ⟨hl ▸ (h.senders handle sender hsender).mono l, iv', rfl⟩
  · rw [hheld] at hx
    by_cases hi : i = handle
    · rw [hi, Function.update_self] at hx; cases hx
    · rw [Function.update_of_ne hi] at hx
      exact hl ▸ (h.senders i x hx).mono l

theorem step_nonces (hk : tableOrder ≤ 63) {s s' : St ι} {e : Event ι} (h : Nonces P s)
    (ht : PendingRequests.Inv C tableOrder s.pending) (hc : Allowed P C s e)
    (hs : step P C tableOrder S outside hashLookup s e = some s') : Nonces P s' := by
  obtain ⟨l, hl⟩ := step_history hs
  have hkeep : held s' = held s → ∀ handle, ∀ x ∈ held s' handle, IsTaken P s'.pending.2 x.idVal x.serverKey :=
    fun hheld handle x hx => hl ▸ (h.senders handle x (hheld ▸ hx)).mono l
  have huses : held s' = held s → heldUses s' = heldUses s := fun hheld => by unfold heldUses; rw [hheld]
  rcases step_cases hs with ⟨-, hheld, -, htrace⟩ | ⟨clientPubkey, env, rfl, hheld, -, htrace⟩ |
    ⟨-, hheld, -, htrace⟩ | ⟨handle, c, r, rfl, hop, hr, hheld, -, htrace⟩ |
    ⟨handle, args, env, r, acts, rfl, hstop, hheld, -, htrace⟩
  · refine h.extend hl (show s'.trace = s.trace ++ [] by rw [htrace, List.append_nil]) ?_
      (fun _ _ _ hm => (by cases hm)) (fun _ _ _ hm => (by cases hm)) (hkeep hheld)
    rw [huses hheld]
    simpa using h.separate
  · exact negotiate_nonces h (step_table hk ht hc hs) hs hheld htrace
  · refine h.extend hl htrace ?_ (fun _ _ _ hm => by cases List.mem_singleton.mp hm)
      (fun _ _ _ hm => by cases List.mem_singleton.mp hm) (hkeep hheld)
    rw [huses hheld, List.filterMap_cons_none (by rfl), List.filterMap_nil, List.append_nil]
    exact h.separate
  · exact call_nonces hk h ht hc hs hop hr hheld htrace
  · exact stop_nonces h hs hstop hheld htrace

/-! ### The encryptions of a run -/

/-- An encryption: the number of the request for whose server key it is, if for one, the key and the
    IV. -/
structure Sealing where
  idVal : Option (BitVec 64)
  key : Key
  iv : Iv
  deriving DecidableEq

def sealingOf (idKey : Key) : Act → Option Sealing
  | .sealNumber iv => some ⟨none, idKey, iv⟩
  | .sealId idVal key iv | .sealReply idVal key iv => some ⟨some idVal, key, iv⟩
  | .tag _ _ => none

/-- All encryptions the enclave made, with `idKey` for the numbers. -/
def encryptions (idKey : Key) (s : St ι) : List Sealing := s.trace.filterMap (sealingOf idKey)

def lowBit (iv : Iv) : Bool := (iv.1.getD 0 0).getLsbD 0

theorem lowBit_setLowBit (iv : Iv) : lowBit (Iv.setLowBit iv) = true := by
  have hlen : 0 < iv.1.length := by rw [iv.2]; decide
  unfold lowBit Iv.setLowBit
  simp only [List.getD_eq_getElem?_getD, List.getElem?_set_self hlen, Option.getD_some, BitVec.getLsbD_or]
  exact Bool.or_true _

theorem lowBit_zeroIv : lowBit zeroIv = false := by decide

/-- The encryptions for one request are its uses, told apart by the bit. -/
theorem uses_of_sealings (idKey : Key) (idVal : BitVec 64) (trace : List Act)
    (hids : ∀ v key iv, Act.sealId v key iv ∈ trace → lowBit iv = false)
    (hreplies : ∀ v key iv, Act.sealReply v key iv ∈ trace → lowBit iv = true) :
    ((trace.filterMap (sealingOf idKey)).filter (·.idVal = some idVal)).map (fun x => (idVal, lowBit x.iv)) =
      (trace.filterMap useOf).filter (·.1 = idVal) := by
  induction trace with
  | nil => rfl
  | cons act trace ih =>
    have hrest := ih (fun v key iv hm => hids v key iv (List.mem_cons_of_mem _ hm))
      (fun v key iv hm => hreplies v key iv (List.mem_cons_of_mem _ hm))
    have hrequest : ∀ (v : BitVec 64) (key : Key) (iv : Iv),
        ((⟨some v, key, iv⟩ :: trace.filterMap (sealingOf idKey)).filter (·.idVal = some idVal)).map (fun x => (idVal, lowBit x.iv)) =
          ((v, lowBit iv) :: trace.filterMap useOf).filter (·.1 = idVal) := by
      intro v key iv
      by_cases hv : v = idVal
      · rw [List.filter_cons_of_pos (by simp [hv]), List.filter_cons_of_pos (by simp [hv]), List.map_cons, hrest, hv]
      · rw [List.filter_cons_of_neg (by simp [hv]), List.filter_cons_of_neg (by simp [hv]), hrest]
    cases act with
    | sealNumber iv =>
      rw [List.filterMap_cons_some (by rfl), List.filterMap_cons_none (by rfl), List.filter_cons_of_neg (by simp)]
      exact hrest
    | tag t fate =>
      rw [List.filterMap_cons_none (by rfl), List.filterMap_cons_none (by rfl)]
      exact hrest
    | sealId v key iv =>
      have hbit := hids v key iv List.mem_cons_self
      rw [List.filterMap_cons_some (by rfl), List.filterMap_cons_some (by rfl), hrequest, hbit]
    | sealReply v key iv =>
      have hbit := hreplies v key iv List.mem_cons_self
      rw [List.filterMap_cons_some (by rfl), List.filterMap_cons_some (by rfl), hrequest, hbit]

omit [DecidableEq ι] in
/-- An encryption is under the id key, or under the server key of a request. -/
theorem Nonces.sealing {s : St ι} (h : Nonces P s) {idKey : Key} {x : Sealing} (hx : x ∈ encryptions idKey s) :
    (x.idVal = none ∧ x.key = idKey) ∨ ∃ idVal j, x.idVal = some idVal ∧ IsRequest P s.pending.2 j idVal x.key ∧
      (x.iv = zeroIv ∨ lowBit x.iv = true) := by
  obtain ⟨act, hact, hseal⟩ := List.mem_filterMap.mp hx
  cases act with
  | sealNumber iv => cases hseal; exact .inl ⟨rfl, rfl⟩
  | tag t fate => cases hseal
  | sealId v key iv =>
    cases hseal
    obtain ⟨⟨j, hj⟩, hiv⟩ := h.ids v key iv hact
    exact .inr ⟨v, j, rfl, hj, .inl hiv⟩
  | sealReply v key iv =>
    cases hseal
    obtain ⟨⟨j, hj, -⟩, iv', rfl⟩ := h.replies v key iv hact
    exact .inr ⟨v, j, rfl, hj, .inr (lowBit_setLowBit iv')⟩

/-- For each request negotiated in a run, at most two encryptions are made under its server key, one
    with an IV of zeros and one with the lowest bit of its first byte set; and these are all under
    that key, if it is no other key. -/
theorem server_key_nonces (hk : tableOrder ≤ 63) {events : List (Event ι)} {s : St ι}
    (hm : Runs.Meets (step P C tableOrder S outside hashLookup) (Allowed P C) (init ι) events)
    (hrun : Runs.run (step P C tableOrder S outside hashLookup) (init ι) events = some s) (idKey : Key) (j : Nat) (prk : Prk)
    (r : Except SgxStatus PendingRequestId) (hj : (addsOf s.pending.2)[j]? = some (prk, r)) :
    ((encryptions idKey s).filter (·.idVal = some (BitVec.ofNat 64 (j + 1)))).length ≤ 2 ∧
    (((encryptions idKey s).filter (·.idVal = some (BitVec.ofNat 64 (j + 1)))).map (·.iv)).Nodup ∧
    (∀ x ∈ (encryptions idKey s).filter (·.idVal = some (BitVec.ofNat 64 (j + 1))),
      x.key = serverKey P prk ∧ (x.iv = zeroIv ∨ lowBit x.iv = true)) ∧
    (idKey ≠ serverKey P prk →
      (∀ (i : Nat) prk' r', (addsOf s.pending.2)[i]? = some (prk', r') → serverKey P prk' = serverKey P prk → i = j) →
      (encryptions idKey s).filter (·.key = serverKey P prk) =
        (encryptions idKey s).filter (·.idVal = some (BitVec.ofNat 64 (j + 1)))) := by
  obtain ⟨htable, h⟩ : PendingRequests.Inv C tableOrder s.pending ∧ Nonces P s := Runs.Always.run events (init ι) s
    (Runs.always_of_inv (P := fun s => PendingRequests.Inv C tableOrder s.pending ∧ Nonces P s)
      (fun _ _ _ h hc hs => ⟨step_table hk h.1 hc hs, step_nonces hk h.2 h.1 hc hs⟩) events _
      ⟨PendingRequests.init_inv C tableOrder, init_nonces⟩ hm) hrun
  have hreq : IsRequest P s.pending.2 j (BitVec.ofNat 64 (j + 1)) (serverKey P prk) := ⟨prk, r, hj, rfl, rfl⟩
  have huses := uses_of_sealings idKey (BitVec.ofNat 64 (j + 1)) s.trace
    (fun v key iv hact => by rw [(h.ids v key iv hact).2, lowBit_zeroIv])
    (fun v key iv hact => by obtain ⟨-, iv', rfl⟩ := h.replies v key iv hact; exact lowBit_setLowBit iv')
  have hnodup : (((encryptions idKey s).filter (·.idVal = some (BitVec.ofNat 64 (j + 1)))).map
      (fun x => (BitVec.ofNat 64 (j + 1), lowBit x.iv))).Nodup := by
    unfold encryptions
    rw [huses]
    exact h.separate.spent_nodup.filter _
  -- a request's own key, and only its own
  have hkey : ∀ {x : Sealing} {i : Nat} {v : BitVec 64}, IsRequest P s.pending.2 i v x.key → v = BitVec.ofNat 64 (j + 1) →
      x.key = serverKey P prk := by
    intro x i v hi hv
    subst hv
    obtain rfl := hi.inj htable.bound hreq
    obtain ⟨prk', r', hi, -, hx⟩ := hi
    rw [hj] at hi
    cases hi
    exact hx
  refine ⟨?_, ?_, fun x hx => ?_, fun hid hown => ?_⟩
  · have hbits : (((encryptions idKey s).filter (·.idVal = some (BitVec.ofNat 64 (j + 1)))).map (fun x => lowBit x.iv)).Nodup := by
      apply List.Nodup.of_map (fun b => (BitVec.ofNat 64 (j + 1), b))
      rw [List.map_map]
      exact hnodup
    have hle := hbits.length_le_card
    rw [List.length_map] at hle
    exact hle
  · apply List.Nodup.of_map (fun iv => (BitVec.ofNat 64 (j + 1), lowBit iv))
    rw [List.map_map]
    exact hnodup
  · obtain ⟨hx, hv⟩ := List.mem_filter.mp hx
    rw [decide_eq_true_eq] at hv
    rcases h.sealing hx with ⟨hnone, -⟩ | ⟨v, i, hsome, hi, hiv⟩
    · exact absurd (hnone.symm.trans hv) (Option.some_ne_none _).symm
    · exact ⟨hkey hi (Option.some.inj (hsome.symm.trans hv)), hiv⟩
  · apply List.filter_congr
    intro x hx
    rw [decide_eq_decide]
    rcases h.sealing hx with ⟨hnone, hkid⟩ | ⟨v, i, hsome, hi, -⟩
    · rw [hnone, hkid]
      exact iff_of_false hid (Option.some_ne_none _).symm
    · rw [hsome, Option.some.injEq]
      refine ⟨fun heq => ?_, hkey hi⟩
      obtain ⟨prk', r', hi, hv, hx⟩ := hi
      rw [hv, hown i prk' r' hi (hx.symm.trans heq)]

end Nonces

/-- A request is negotiated and answered, and a second one negotiated: the id and the reply of the
    first are encrypted with two IVs. -/
theorem server_key_nonces_answered :
    ∃ s, Runs.run plainStep (init Unit) [plainNegotiate, .start () (some 8), .call () (plainCall 1), plainNegotiate,
        .stop () (some ⟨0, 0, 0⟩) (plainEnv ⟨.ok zeroIv, .ok (), .returned⟩)] = some s ∧
      ((encryptions zeroKey s).filter (·.idVal = some 1)).length = 2 ∧
      (((encryptions zeroKey s).filter (·.idVal = some 1)).map (·.iv)).Nodup := by
  have hrun : (Runs.run plainStep (init Unit) [plainNegotiate, .start () (some 8), .call () (plainCall 1), plainNegotiate,
      .stop () (some ⟨0, 0, 0⟩) (plainEnv ⟨.ok zeroIv, .ok (), .returned⟩)]).map
      (fun s => (((encryptions zeroKey s).filter (·.idVal = some 1)).length, ((addsOf s.pending.2)[0]?).isSome)) =
      some (2, true) := by decide +kernel
  obtain ⟨s, hrun, heq⟩ := Option.map_eq_some_iff.mp hrun
  obtain ⟨hlen, hsome⟩ := Prod.mk.inj heq
  obtain ⟨⟨prk, r⟩, hj⟩ := Option.isSome_iff_exists.mp hsome
  refine ⟨s, hrun, hlen, (server_key_nonces (by decide) ?_ hrun zeroKey 0 prk r hj).2.1⟩
  -- every id that is used was issued
  intro s₁ h₁; cases h₁
  refine ⟨fun op hop => ?_, ?_⟩
  · cases hop; exact ⟨trivial, (by decide +kernel : _ + 1 < 2 ^ 64)⟩
  intro s₂ h₂; cases h₂
  refine ⟨fun op hop => (by cases hop), ?_⟩
  intro s₃ h₃; cases h₃
  refine ⟨fun op hop => ?_, ?_⟩
  · cases hop
    exact ⟨fun _ _ => ⟨0, _, rfl⟩, trivial⟩
  intro s₄ h₄; cases h₄
  refine ⟨fun op hop => ?_, ?_⟩
  · cases hop; exact ⟨trivial, (by decide +kernel : _ + 1 < 2 ^ 64)⟩
  intro s₅ h₅
  exact ⟨fun op hop => (by cases hop), trivial⟩

end ContactDiscovery.Enclave.Sgxsd
