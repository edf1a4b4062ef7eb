/-
  ContactDiscovery.Enclave.Locks — the enclave's key pairs and its table of pending requests, each behind
  a spin lock (`g_sgxsd_enclave_dh_keypair_lock` and `g_sgxsd_enclave_pending_requests_lock` in
  `sgxsd-enclave.c`).

  Ecalls come in on any number of threads, and the structs that they copy are not written at once: a key
  pair is its private key and then its public one, an entry of the table its number and then its key.

  Proved: `copied_whole`, a negotiation never gets the private key of one pair with the public key of
  another; each pair that it copies was drawn at the start or by a call that reported it.
  `table_linearizable`, the table goes through the states of `PendingRequests.exec`, the operations taken in
  the order of their unlocks.
-/

import ContactDiscovery.Enclave.Sgxsd
import ContactDiscovery.Lib.Locked

namespace ContactDiscovery.Enclave.Locks

open Lib Lib.Locked

/-! ## The key pairs -/

namespace DhKeypair

/-- `g_sgxsd_enclave_dh_keypair` and `g_sgxsd_enclave_new_dh_keypair`. -/
structure Pairs where
  dhKeypair : KeyPair
  newDhKeypair : KeyPair

/-- What ecalls do with the lock held. -/
inductive Op where
  /-- `sgxsd_enclave_get_next_report`, with the pair that it reported. -/
  | store (keypair : KeyPair)
  /-- `sgxsd_enclave_set_current_quote`. -/
  | setCurrent
  /-- `sgxsd_enclave_negotiate_request`. -/
  | copy

inductive Here where
  | storePrivkey (keypair : KeyPair)
  | storePubkey (keypair : KeyPair)
  | setPrivkey
  | setPubkey
  | copyPrivkey
  | copyPubkey (privkey : Bytes 32)
  | stored

def enter : Op → Here
  | .store keypair => .storePrivkey keypair
  | .setCurrent => .setPrivkey
  | .copy => .copyPrivkey

def access : Here → Pairs → Access Pairs Here (Option KeyPair)
  | .storePrivkey keypair, s => .next (.storePubkey keypair) { s with newDhKeypair.privkey := keypair.privkey }
  | .storePubkey keypair, s => .next .stored { s with newDhKeypair.pubkey := keypair.pubkey }
  | .setPrivkey, s => .next .setPubkey { s with dhKeypair.privkey := s.newDhKeypair.privkey }
  | .setPubkey, s => .next .stored { s with dhKeypair.pubkey := s.newDhKeypair.pubkey }
  | .copyPrivkey, s => .next (.copyPubkey s.dhKeypair.privkey) s
  | .copyPubkey privkey, s => .done (some ⟨privkey, s.dhKeypair.pubkey⟩)
  | .stored, _ => .done none

def body : Body Pairs Op Here (Option KeyPair) := ⟨enter, access⟩

/-- The same at once. -/
def exec (s : Pairs) : Op → Option KeyPair × Pairs
  | .store keypair => (none, { s with newDhKeypair := keypair })
  | .setCurrent => (none, { s with dhKeypair := s.newDhKeypair })
  | .copy => (some s.dhKeypair, s)

/-- Between two accesses, from the pairs that were found. -/
def Reached : Op → Pairs → Here → Pairs → Prop
  | .store keypair, found, .storePrivkey keypair', s => keypair' = keypair ∧ s = found
  | .store keypair, found, .storePubkey keypair', s =>
    keypair' = keypair ∧ s = { found with newDhKeypair.privkey := keypair.privkey }
  | .setCurrent, found, .setPrivkey, s => s = found
  | .setCurrent, found, .setPubkey, s => s = { found with dhKeypair.privkey := found.newDhKeypair.privkey }
  | .copy, found, .copyPrivkey, s => s = found
  | .copy, found, .copyPubkey privkey, s => privkey = found.dhKeypair.privkey ∧ s = found
  | op, found, .stored, s => (none, s) = exec found op
  | _, _, _, _ => False

theorem body_computes : body.Computes exec := by
  refine Body.computes_of_inv (P := Reached) ?_ ?_ ?_
  · intro op found
    cases op <;> first | exact ⟨rfl, rfl⟩ | rfl
  · intro op found here s after next hreached hacc
    cases op <;> cases here <;> first | exact hreached.elim | cases hacc
    · obtain ⟨hkeypair, hs⟩ := hreached
      subst hkeypair hs
      exact ⟨rfl, rfl⟩
    · obtain ⟨hkeypair, hs⟩ := hreached
      subst hkeypair hs
      rfl
    · subst hreached; rfl
    · subst hreached; rfl
    · subst hreached; exact ⟨rfl, rfl⟩
  · intro op found here s output hreached hacc
    cases op <;> cases here <;> first | exact hreached.elim | cases hacc
    · exact hreached
    · exact hreached
    · obtain ⟨hprivkey, hs⟩ := hreached
      subst hprivkey hs
      rfl
    · exact hreached

/-- The pairs of the start, and those that were stored. -/
def drawn {T : Type} (start : Pairs) (calls : List (T × Op × Option KeyPair)) : List KeyPair :=
  [start.dhKeypair, start.newDhKeypair] ++ calls.filterMap fun
    | (_, .store keypair, _) => some keypair
    | _ => none

theorem drawn_concat {T : Type} (start : Pairs) (calls : List (T × Op × Option KeyPair)) (call : T × Op × Option KeyPair) :
    drawn start calls ⊆ drawn start (calls ++ [call]) := by
  rw [drawn, drawn, List.filterMap_append, ← List.append_assoc]
  exact List.subset_append_left _ _

/-- The pairs that are there and the copies were drawn whole. -/
structure Whole {T : Type} (start : Pairs) (calls : List (T × Op × Option KeyPair)) (s : Pairs) : Prop where
  dh : s.dhKeypair ∈ drawn start calls
  new : s.newDhKeypair ∈ drawn start calls
  copies : ∀ before call after, calls = before ++ call :: after → ∀ keypair, call.2.2 = some keypair → keypair ∈ drawn start before

theorem seq_whole {T : Type} {start s : Pairs} {calls : List (T × Op × Option KeyPair)} (h : body.Seq start calls s) :
    Whole start calls s := by
  induction h with
  | nil => exact ⟨List.mem_cons_self, List.mem_cons_of_mem _ List.mem_cons_self, fun before _ _ h => by cases before <;> cases h⟩
  | @concat calls mid after t op output _ hrun ih =>
    have hexec := body_computes op mid output after hrun
    have hsub := drawn_concat start calls (t, op, output)
    cases op with
    | store keypair =>
      cases hexec
      refine ⟨hsub ih.dh, ?_, Runs.forall_split_concat.mpr ⟨ih.copies, nofun⟩⟩
      rw [drawn, List.filterMap_append]
      exact List.mem_append_right _ (List.mem_append_right _ List.mem_cons_self)
    | setCurrent =>
      cases hexec
      exact ⟨hsub ih.new, hsub ih.new, Runs.forall_split_concat.mpr ⟨ih.copies, nofun⟩⟩
    | copy =>
      cases hexec
      refine ⟨hsub ih.dh, hsub ih.new, Runs.forall_split_concat.mpr ⟨ih.copies, fun keypair hkeypair => ?_⟩⟩
      cases hkeypair
      exact ih.dh

variable {T : Type} [DecidableEq T]

/-- Each pair that a negotiation copies is one of the start, or one that was stored before. -/
theorem copied_whole {start : Pairs} {es : List (Ev T Op)} {s : St T Pairs Op Here (Option KeyPair)}
    (hr : Runs.run (step body) (init start) es = some s) {before after : List (T × Op × Option KeyPair)} {t : T} {op : Op}
    {keypair : KeyPair} (hcall : s.calls = before ++ (t, op, some keypair) :: after) : keypair ∈ drawn start before := by
  obtain ⟨_, hseq, -⟩ := linearizable hr
  exact (seq_whole hseq).copies before _ after hcall keypair rfl

def pairOf (privkey pubkey : Byte) : KeyPair := ⟨repeated 32 privkey, repeated 32 pubkey⟩

/-- A report is stored; then a negotiation waits while the pair in use is half replaced. -/
def waitingRun : List (Ev Bool Op) :=
  [.call false (.store (pairOf 5 6)), .acquire false, .access false, .access false, .access false, .release false,
    .leave false, .call false .setCurrent, .acquire false, .access false, .call true .copy, .access false, .access false,
    .release false, .acquire true, .access true, .access true, .release true]

theorem copied_whole_waiting :
    ∃ s : St Bool Pairs Op Here (Option KeyPair),
      Runs.run (step body) (init ⟨pairOf 1 2, pairOf 3 4⟩) waitingRun = some s ∧
      s.calls = [(false, .store (pairOf 5 6), none), (false, .setCurrent, none)] ++ (true, .copy, some (pairOf 5 6)) :: [] ∧
      pairOf 5 6 ∈ drawn ⟨pairOf 1 2, pairOf 3 4⟩
        [(false, .store (pairOf 5 6), none), (false, .setCurrent, (none : Option KeyPair))] := by
  obtain ⟨s, hrun, hcalls⟩ : ∃ s : St Bool Pairs Op Here (Option KeyPair),
      Runs.run (step body) (init ⟨pairOf 1 2, pairOf 3 4⟩) waitingRun = some s ∧
      s.calls = [(false, .store (pairOf 5 6), none), (false, .setCurrent, none)] ++ (true, .copy, some (pairOf 5 6)) :: [] :=
    ⟨_, rfl, rfl⟩
  exact ⟨s, hrun, hcalls, copied_whole hrun hcalls⟩

end DhKeypair

/-! ## The table -/

namespace Table

open PendingRequests (Prk PendingRequest IdCipher slot addPendingRequest getPendingRequest removePendingRequest)

/-- What ecalls do with the lock held: the number of an id was decrypted before. -/
inductive LockedOp where
  | add (hkdfPrk : Prk)
  | get (idVal : BitVec 64)
  | remove (idVal : BitVec 64)

inductive LockedOut where
  /-- The number that is encrypted afterwards. -/
  | added (idVal : BitVec 64)
  | got (r : Except SgxStatus PendingRequest)

inductive Here where
  | increment (hkdfPrk : Prk)
  | writeIdVal (hkdfPrk : Prk) (idVal : BitVec 64)
  | writePrk (hkdfPrk : Prk) (idVal : BitVec 64)
  | compare (idVal : BitVec 64) (remove : Bool)
  | copyIdVal (idVal : BitVec 64) (remove : Bool)
  | copyPrk (idVal : BitVec 64) (remove : Bool) (found : BitVec 64)
  | eraseIdVal (idVal : BitVec 64) (r : PendingRequest)
  | erasePrk (idVal : BitVec 64) (r : PendingRequest)
  | finished (out : LockedOut)

def enter : LockedOp → Here
  | .add hkdfPrk => .increment hkdfPrk
  | .get idVal => .compare idVal false
  | .remove idVal => .compare idVal true

section Access

variable (tableOrder : Nat)

/-- The entry of a number, changed. -/
def modifyEntry (s : PendingRequests.St) (idVal : BitVec 64) (f : PendingRequest → PendingRequest) : PendingRequests.St :=
  { s with pendingRequests :=
      Function.update s.pendingRequests (slot tableOrder idVal) (f (s.pendingRequests (slot tableOrder idVal))) }

def access : Here → PendingRequests.St → Access PendingRequests.St Here LockedOut
  | .increment hkdfPrk, s =>
    .next (.writeIdVal hkdfPrk (s.lastPendingRequestIdVal + 1)) { s with lastPendingRequestIdVal := s.lastPendingRequestIdVal + 1 }
  | .writeIdVal hkdfPrk idVal, s => .next (.writePrk hkdfPrk idVal) (modifyEntry tableOrder s idVal fun e => { e with idVal })
  | .writePrk hkdfPrk idVal, s => .next (.finished (.added idVal)) (modifyEntry tableOrder s idVal fun e => { e with hkdfPrk })
  | .compare idVal remove, s =>
    if (s.pendingRequests (slot tableOrder idVal)).idVal = idVal then .next (.copyIdVal idVal remove) s
    else .next (.finished (.got (.error .pendingRequestNotFound))) s
  | .copyIdVal idVal remove, s => .next (.copyPrk idVal remove (s.pendingRequests (slot tableOrder idVal)).idVal) s
  | .copyPrk idVal remove found, s =>
    let r : PendingRequest := ⟨found, (s.pendingRequests (slot tableOrder idVal)).hkdfPrk⟩
    .next (if remove then .eraseIdVal idVal r else .finished (.got (.ok r))) s
  | .eraseIdVal idVal r, s => .next (.erasePrk idVal r) (modifyEntry tableOrder s idVal fun e => { e with idVal := 0 })
  | .erasePrk idVal r, s => .next (.finished (.got (.ok r))) (modifyEntry tableOrder s idVal fun e => { e with hkdfPrk := 0 })
  | .finished out, _ => .done out

def body : Body PendingRequests.St LockedOp Here LockedOut := ⟨enter, access tableOrder⟩

def exec (s : PendingRequests.St) : LockedOp → LockedOut × PendingRequests.St
  | .add hkdfPrk =>
    let idVal := s.lastPendingRequestIdVal + 1
    (.added idVal, ⟨Function.update s.pendingRequests (slot tableOrder idVal) ⟨idVal, hkdfPrk⟩, idVal⟩)
  | .get idVal =>
    let found := s.pendingRequests (slot tableOrder idVal)
    (.got (if found.idVal = idVal then .ok found else .error .pendingRequestNotFound), s)
  | .remove idVal =>
    let found := s.pendingRequests (slot tableOrder idVal)
    if found.idVal = idVal then
      (.got (.ok found), { s with pendingRequests := Function.update s.pendingRequests (slot tableOrder idVal) .zero })
    else (.got (.error .pendingRequestNotFound), s)

def Reached (op : LockedOp) (found : PendingRequests.St) (here : Here) (s : PendingRequests.St) : Prop :=
  match here, op with
  | .increment hkdfPrk, .add hkdfPrk' => hkdfPrk = hkdfPrk' ∧ s = found
  | .writeIdVal hkdfPrk idVal, .add hkdfPrk' =>
    hkdfPrk = hkdfPrk' ∧ idVal = found.lastPendingRequestIdVal + 1 ∧ s = { found with lastPendingRequestIdVal := idVal }
  | .writePrk hkdfPrk idVal, .add hkdfPrk' =>
    hkdfPrk = hkdfPrk' ∧ idVal = found.lastPendingRequestIdVal + 1 ∧
      s = modifyEntry tableOrder { found with lastPendingRequestIdVal := idVal } idVal fun e => { e with idVal }
  | .compare idVal remove, op => op = (if remove then .remove idVal else .get idVal) ∧ s = found
  | .copyIdVal idVal remove, op =>
    op = (if remove then .remove idVal else .get idVal) ∧ (s.pendingRequests (slot tableOrder idVal)).idVal = idVal ∧ s = found
  | .copyPrk idVal remove foundIdVal, op =>
    op = (if remove then .remove idVal else .get idVal) ∧ (s.pendingRequests (slot tableOrder idVal)).idVal = idVal ∧
      foundIdVal = idVal ∧ s = found
  | .eraseIdVal idVal r, .remove idVal' =>
    idVal = idVal' ∧ r.idVal = idVal ∧ r = found.pendingRequests (slot tableOrder idVal) ∧ s = found
  | .erasePrk idVal r, .remove idVal' =>
    idVal = idVal' ∧ r.idVal = idVal ∧ r = found.pendingRequests (slot tableOrder idVal) ∧
      s = modifyEntry tableOrder found idVal fun e => { e with idVal := 0 }
  | .finished out, op => (out, s) = exec tableOrder found op
  | _, _ => False

variable {tableOrder}

theorem modifyEntry_twice (s : PendingRequests.St) (idVal : BitVec 64) (f g : PendingRequest → PendingRequest) :
    modifyEntry tableOrder (modifyEntry tableOrder s idVal f) idVal g = modifyEntry tableOrder s idVal (g ∘ f) := by
  simp only [modifyEntry, Function.update_self, Function.update_idem, Function.comp_apply]

theorem reached_next {op : LockedOp} {found s next : PendingRequests.St} {here after : Here} (h : Reached tableOrder op found here s)
    (hacc : access tableOrder here s = .next after next) : Reached tableOrder op found after next := by
  cases here with
  | increment hkdfPrk =>
    cases op <;> first | exact h.elim | skip
    cases hacc
    obtain ⟨hprk, hs⟩ := h
    subst hprk hs
    exact ⟨rfl, rfl, rfl⟩
  | writeIdVal hkdfPrk idVal =>
    cases op <;> first | exact h.elim | skip
    cases hacc
    obtain ⟨hprk, hid, hs⟩ := h
    subst hprk hid hs
    exact ⟨rfl, rfl, rfl⟩
  | writePrk hkdfPrk idVal =>
    cases op <;> first | exact h.elim | skip
    cases hacc
    obtain ⟨hprk, hid, hs⟩ := h
    subst hprk hid hs
    rw [modifyEntry_twice]
    rfl
  | compare idVal remove =>
    obtain ⟨hop, hs⟩ := h
    subst hs
    simp only [access] at hacc
    split at hacc
    · rename_i heq
      cases hacc
      exact ⟨hop, heq, rfl⟩
    · rename_i hne
      cases hacc
      cases remove <;> simp only [hop, Reached, exec, if_true, if_false, Bool.false_eq_true, if_neg hne]
  | copyIdVal idVal remove =>
    obtain ⟨hop, heq, hs⟩ := h
    cases hacc
    exact ⟨hop, heq, heq, hs⟩
  | copyPrk idVal remove foundIdVal =>
    obtain ⟨hop, heq, hfound, hs⟩ := h
    subst hs hfound
    have hr : (⟨foundIdVal, (s.pendingRequests (slot tableOrder foundIdVal)).hkdfPrk⟩ : PendingRequest) =
        s.pendingRequests (slot tableOrder foundIdVal) := by
      generalize s.pendingRequests (slot tableOrder foundIdVal) = entry at heq
      cases entry
      cases heq
      rfl
    simp only [access, hr] at hacc
    cases remove with
    | true =>
      cases hacc
      subst hop
      exact ⟨rfl, heq, rfl, rfl⟩
    | false =>
      cases hacc
      subst hop
      show _ = (LockedOut.got (if _ then _ else _), s)
      rw [if_pos heq]
  | eraseIdVal idVal r =>
    cases op <;> first | exact h.elim | skip
    cases hacc
    obtain ⟨hid, hr, hentry, hs⟩ := h
    subst hs
    exact ⟨hid, hr, hentry, rfl⟩
  | erasePrk idVal r =>
    cases op <;> first | exact h.elim | skip
    cases hacc
    obtain ⟨hid, hr, hentry, hs⟩ := h
    subst hs hid
    show _ = (if _ then _ else _)
    rw [if_pos (by rw [← hentry]; exact hr), modifyEntry_twice, hentry]
    rfl
  | finished out => cases hacc

theorem body_computes : (body tableOrder).Computes (exec tableOrder) := by
  refine Body.computes_of_inv (P := Reached tableOrder) ?_ (fun _ _ _ _ _ _ => reached_next) ?_
  · intro op found
    cases op <;> exact ⟨rfl, rfl⟩
  · intro op found here s out hreached hacc
    cases here with
    | finished out' =>
      cases hacc
      exact hreached
    | compare idVal remove =>
      simp only [body, access] at hacc
      split at hacc <;> cases hacc
    | _ => cases hacc

end Access

/-! ### Whole operations -/

section Operations

variable {Iv Id : Type} (C : IdCipher Iv Id) (tableOrder : Nat)

def prepare : PendingRequests.Op Iv Id → Except SgxStatus LockedOp
  | .add hkdfPrk _ => .ok (.add hkdfPrk)
  | .get id => (C.decrypt id).map .get
  | .remove id => (C.decrypt id).map .remove

def finish : PendingRequests.Op Iv Id → LockedOut → PendingRequests.Out Id
  | .add _ iv, .added idVal =>
    .added (match iv with
      | .error e => .error e
      | .ok iv =>
        match C.encrypt idVal iv with
        | .error _ => .error .unexpected
        | .ok id => .ok id)
  | _, .got r => .got r
  | _, .added _ => .got (.error .unexpected)

variable {C tableOrder}

/-- An operation is what it does with the lock held, between what it does before and after. -/
theorem exec_prepared {op : PendingRequests.Op Iv Id} {locked : LockedOp} (h : prepare C op = .ok locked) (s : PendingRequests.St) :
    PendingRequests.exec C tableOrder s op = (finish C op (exec tableOrder s locked).1, (exec tableOrder s locked).2) := by
  cases op with
  | add hkdfPrk iv =>
    cases h
    simp only [PendingRequests.exec, addPendingRequest, exec, finish]
    cases iv with
    | error e => rfl
    | ok iv =>
      simp only
      cases C.encrypt (s.lastPendingRequestIdVal + 1) iv <;> rfl
  | get id =>
    simp only [prepare] at h
    cases hid : C.decrypt id with
    | error e => rw [hid] at h; cases h
    | ok idVal =>
      rw [hid] at h
      cases h
      simp only [PendingRequests.exec, getPendingRequest, hid, exec, finish]
      split <;> rfl
  | remove id =>
    simp only [prepare] at h
    cases hid : C.decrypt id with
    | error e => rw [hid] at h; cases h
    | ok idVal =>
      rw [hid] at h
      cases h
      simp only [PendingRequests.exec, removePendingRequest, hid, exec]
      split <;> rfl

theorem run_prepared (ops : List (PendingRequests.Op Iv Id)) : ∀ (locked : List LockedOp) (start : PendingRequests.St)
    (history : PendingRequests.History Iv Id), ops.map (prepare C) = locked.map .ok →
    Runs.run (PendingRequests.step C tableOrder) (start, history) ops =
      some (Body.final (exec tableOrder) start locked,
        history ++ ops.zip (List.zipWith (finish C) ops (Body.outputs (exec tableOrder) start locked))) := by
  induction ops with
  | nil =>
    intro locked start history h
    cases locked with
    | nil => simp [Runs.run, Body.final]
    | cons op locked => cases h
  | cons op ops ih =>
    intro locked start history h
    cases locked with
    | nil => cases h
    | cons op' locked =>
      obtain ⟨hop, hops⟩ := List.cons.inj h
      rw [Runs.run, PendingRequests.step, Option.bind_some, exec_prepared hop, ih locked _ _ hops, Body.outputs]
      simp only [List.zipWith_cons_cons, List.zip_cons_cons, List.append_assoc, List.singleton_append]
      rfl

variable {T : Type} [DecidableEq T]

/-- In the order of their unlocks, operations on any number of threads are a run of the table, operation by operation. -/
theorem table_linearizable {start : PendingRequests.St} {es : List (Ev T LockedOp)} {s : St T PendingRequests.St LockedOp Here LockedOut}
    (hr : Runs.run (Locked.step (body tableOrder)) (init start) es = some s) {ops : List (PendingRequests.Op Iv Id)}
    (hops : ops.map (prepare C) = (s.calls.map (·.2.1)).map .ok) :
    ∃ after, Runs.run (PendingRequests.step C tableOrder) (start, []) ops =
        some (after, ops.zip (List.zipWith (finish C) ops (s.calls.map (·.2.2)))) ∧
      ((∀ t, (s.pc t).holds = false) → s.shared = after) := by
  obtain ⟨after, hseq, hshared⟩ := linearizable hr
  obtain ⟨hout, hafter⟩ := hseq.eq body_computes
  refine ⟨after, ?_, hshared⟩
  rw [run_prepared ops _ start [] hops, ← hout, ← hafter, List.nil_append]

/-- Two adds on two threads; the one that was called later is first at the lock. -/
theorem table_linearizable_two :
    ∃ s : St Bool PendingRequests.St LockedOp Here LockedOut,
      Runs.run (Locked.step (body 2)) (init PendingRequests.init)
        [.call false (.add 7), .call true (.add 8), .acquire true, .access true, .access true, .access true, .access true,
          .release true] = some s ∧
      ∃ after, Runs.run (PendingRequests.step PendingRequests.plainCipher 2) (PendingRequests.init, []) [.add 8 (.ok ())] =
          some (after, [(.add 8 (.ok ()), .added (.ok 1))]) ∧ s.shared = after := by
  refine ⟨_, rfl, ?_⟩
  obtain ⟨after, hrun, hshared⟩ := @table_linearizable _ _ PendingRequests.plainCipher 2 Bool _ PendingRequests.init
    [.call false (.add 7), .call true (.add 8), .acquire true, .access true, .access true, .access true, .access true,
      .release true] _ rfl [.add 8 (.ok ())] rfl
  refine ⟨after, hrun, hshared fun t => ?_⟩
  cases t <;> rfl

end Operations

end Table

end ContactDiscovery.Enclave.Locks
