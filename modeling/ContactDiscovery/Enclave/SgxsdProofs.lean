/-
  ContactDiscovery.Enclave.SgxsdProofs — what the calls of `Enclave.Sgxsd` do, and what a step of the
  machine does: to the senders, the tags and the trace (`step_cases`), and to the table
  (`step_pending`). A stop answers every sender of its server once, in order (`senders_terminate`).
-/

import ContactDiscovery.Enclave.Sgxsd
import ContactDiscovery.Enclave.ServerProofs

namespace ContactDiscovery.Enclave.Sgxsd

open Lib
open PendingRequests (Prk IdCipher addPendingRequest getPendingRequest removePendingRequest addsOf Issued Removed)
open RequestKeys (deriveRequestKeys)
open Server (SgxsdServerState Crypto CallArgs StopArgs Ev handleCall terminate replyLoop lookupLoop dropAll)

/-! ## The senders of a stop -/

def senderOf {F : Type} : Ev F → Option F
  | .lookup _ _ _ _ => none
  | .reply sender _ | .noreply sender => some sender

section Senders

variable {F : Type}

@[simp] theorem senders_dropAll (requests : List (Server.PendingRequest F)) :
    (dropAll requests).filterMap senderOf = requests.map (·.sender) := by
  unfold dropAll
  rw [List.filterMap_map]
  exact congrFun List.filterMap_eq_map requests

theorem senders_lookupLoop (hashLookup : Ptr → Ptr → Usize → List Phone → List Byte → Except SgxStatus Unit × List Byte)
    (p u : Ptr) (n : Usize) (pairs : List (List Phone × List Byte)) :
    (lookupLoop hashLookup p u n pairs (F := F)).1.filterMap senderOf = [] := by
  induction pairs with
  | nil => rfl
  | cons pair pairs ih =>
    obtain ⟨chunk, resultChunk⟩ := pair
    unfold lookupLoop
    split
    · rfl
    · simp only [List.filterMap_cons, senderOf]
      exact ih

/-- A run of the replies that does not panic answers every request, in order. -/
theorem senders_replyLoop {result : Nat → Except SgxStatus Unit} {r : Except SgxStatus Unit}
    {requests : List (Server.PendingRequest F)} : ∀ {i : Nat} {buf : List Byte} {evs : List (Ev F)},
    replyLoop result i requests buf = (evs, .returned r) → evs.filterMap senderOf = requests.map (·.sender) := by
  induction requests with
  | nil =>
    intro i buf evs h
    cases h; rfl
  | cons request requests ih =>
    intro i buf evs h
    unfold replyLoop at h
    simp only at h
    split at h
    · cases h
    have hreply : (Server.reply result i request.sender (buf.take (request.requestPhoneCount * BYTES_PER_UUID))).1.filterMap
        senderOf = [request.sender] := by
      unfold Server.reply
      split <;> rfl
    split at h
    · rename_i ev e hev
      cases h
      rw [hev] at hreply
      rw [List.filterMap_append, hreply, senders_dropAll]
      rfl
    · rename_i ev hev
      rw [hev] at hreply
      obtain ⟨rfl, hrest⟩ := Prod.mk.inj h
      rw [List.filterMap_append, hreply, ih (Prod.ext rfl hrest)]
      rfl

theorem senders_terminate {outside : Ptr → Usize → BitVec 32}
    {hashLookup : Ptr → Ptr → Usize → List Phone → List Byte → Except SgxStatus Unit × List Byte}
    {result : Nat → Except SgxStatus Unit} {s : SgxsdServerState F} {args : Option StopArgs} {evs : List (Ev F)}
    {r : Except SgxStatus Unit} (h : terminate outside hashLookup result s args = (evs, .returned r)) :
    evs.filterMap senderOf = s.requests.map (·.sender) := by
  unfold terminate at h
  simp only at h
  cases args with
  | none => cases h; exact senders_dropAll _
  | some args =>
    simp only at h
    split at h
    · split at h
      · split at h
        · split at h
          · rename_i ev e _ hloop
            cases h
            have hlookups := congrArg (fun x => x.1.filterMap senderOf) hloop
            rw [senders_lookupLoop] at hlookups
            rw [List.filterMap_append, senders_dropAll, ← hlookups, List.nil_append]
          · rename_i ev results hloop
            obtain ⟨rfl, hreplies⟩ := Prod.mk.inj h
            have hlookups := congrArg (fun x => x.1.filterMap senderOf) hloop
            rw [senders_lookupLoop] at hlookups
            rw [List.filterMap_append, ← hlookups, senders_replyLoop (Prod.ext rfl hreplies), List.nil_append]
        · cases h; exact senders_dropAll _
      · cases h; exact senders_dropAll _
    · cases h; exact senders_dropAll _

end Senders

/-! ## Stops return -/

section Returns

variable {F : Type} {outside : Ptr → Usize → BitVec 32}
  {hashLookup : Ptr → Ptr → Usize → List Phone → List Byte → Except SgxStatus Unit × List Byte}

variable (hashLookup) in
/-- The lookup writes its results into the buffer it is given. -/
def InPlace : Prop := ∀ inPhones inUuids inPhoneCount phones buf,
  (hashLookup inPhones inUuids inPhoneCount phones buf).2.length = buf.length

/-- The phones of the server are those of its requests. -/
def Filled (s : SgxsdServerState F) : Prop := (s.requests.map (·.requestPhoneCount)).sum = s.queryPhones.length

theorem length_lookupLoop (hin : InPlace hashLookup) (p u : Ptr) (n : Usize) (pairs : List (List Phone × List Byte)) :
    (lookupLoop hashLookup p u n pairs (F := F)).2.2.length = (pairs.map (·.2.length)).sum := by
  induction pairs with
  | nil => rfl
  | cons pair pairs ih =>
    obtain ⟨chunk, resultChunk⟩ := pair
    have hlen := hin p u n chunk resultChunk
    unfold lookupLoop
    split
    · rename_i e out hlookup
      rw [hlookup] at hlen
      simp only [List.length_append, List.length_flatten, List.map_cons, List.sum_cons, List.map_map] at hlen ⊢
      rw [hlen]
      rfl
    · rename_i out hlookup
      rw [hlookup] at hlen
      simp only [List.length_append, List.map_cons, List.sum_cons] at hlen ⊢
      rw [hlen, ih]

theorem length_chunkPairs (phones : List Phone) :
    ((Server.chunkPairs phones).map (·.2.length)).sum = phones.length * BYTES_PER_UUID := by
  induction hn : phones.length using Nat.strong_induction_on generalizing phones with
  | _ n ih =>
    by_cases hp : phones = []
    · rw [← hn, hp, Server.chunkPairs_nil]; rfl
    have hpos := List.length_pos_of_ne_nil hp
    have hmax : HashLookup.MAX_HASH_TABLE_SIZE = 8192 := by decide
    have hdrop : (phones.drop HashLookup.MAX_HASH_TABLE_SIZE).length < n := by rw [List.length_drop]; omega
    rw [Server.chunkPairs_ne_nil hp, List.map_cons, List.sum_cons, ih _ hdrop _ rfl, List.length_replicate, ← Nat.add_mul,
      ← List.length_append, List.take_append_drop, hn]

theorem replyLoop_returns {result : Nat → Except SgxStatus Unit} {requests : List (Server.PendingRequest F)} :
    ∀ {i : Nat} {buf : List Byte}, (requests.map (·.requestPhoneCount)).sum * BYTES_PER_UUID ≤ buf.length →
      ∃ evs r, replyLoop result i requests buf = (evs, .returned r) := by
  induction requests with
  | nil => intro i buf _; exact ⟨_, _, rfl⟩
  | cons request requests ih =>
    intro i buf hbuf
    rw [List.map_cons, List.sum_cons, Nat.add_mul] at hbuf
    unfold replyLoop
    simp only
    rw [if_neg (by omega)]
    split
    · exact ⟨_, _, rfl⟩
    · obtain ⟨evs, r, hrest⟩ := @ih (i + 1) (buf.drop (request.requestPhoneCount * BYTES_PER_UUID)) (by
        rw [List.length_drop]; omega)
      rw [hrest]
      exact ⟨_, _, rfl⟩

/-- The results of the lookups are as many as the requests' phones, so no split panics. -/
theorem terminate_returns (hin : InPlace hashLookup) {s : SgxsdServerState F} (hs : Filled s)
    (result : Nat → Except SgxStatus Unit) (args : Option StopArgs) :
    ∃ evs r, terminate outside hashLookup result s args = (evs, .returned r) := by
  unfold terminate
  simp only
  cases args with
  | none => exact ⟨_, _, rfl⟩
  | some args =>
    simp only
    split
    · split
      · rename_i inPhones inUuids _ _
        split
        · have hlen := @length_lookupLoop F hashLookup hin inPhones.asPtr inUuids.asPtr args.inPhoneCount
            (Server.chunkPairs s.queryPhones)
          rw [length_chunkPairs, ← hs] at hlen
          split
          · exact ⟨_, _, rfl⟩
          · rename_i ev results hloop
            rw [hloop] at hlen
            obtain ⟨evs, r, hreplies⟩ := @replyLoop_returns F result s.requests 0 results (Nat.le_of_eq hlen.symm)
            rw [hreplies]
            exact ⟨_, _, rfl⟩
        · exact ⟨_, _, rfl⟩
      · exact ⟨_, _, rfl⟩
    · exact ⟨_, _, rfl⟩

end Returns

/-! ## The acts of a stop -/

/-- The tag whose fate an act is. -/
def tagOf : Act → Option Nat
  | .tag tag _ => some tag
  | _ => none

/-- Which encryption under a request's server key an act is: the request, and whether it is of a
    reply. -/
def useOf : Act → Option (BitVec 64 × Bool)
  | .sealId idVal _ _ => some (idVal, false)
  | .sealReply idVal _ _ => some (idVal, true)
  | _ => none

section Answers

variable (P : Primitives)

theorem serverReply_tags (env : ReplyEnv) (sender : Sender) (msg : List Byte) :
    (serverReply P env sender msg).2.filterMap tagOf = [sender.tag] := by
  unfold serverReply
  rcases env with ⟨_ | _, _ | _, _ | _ | _⟩ <;> rfl

theorem serverReply_uses (env : ReplyEnv) (sender : Sender) (msg : List Byte) :
    ((serverReply P env sender msg).2.filterMap useOf).Sublist [(sender.idVal, true)] := by
  unfold serverReply
  rcases env with ⟨_ | _, _ | _, _ | _ | _⟩
  case error.error.returned | error.error.failed | error.error.notMade | error.ok.returned | error.ok.failed |
    error.ok.notMade => exact List.nil_sublist _
  all_goals exact List.Sublist.refl _

theorem serverNoreply_tags (ocall : Ocall) (sender : Sender) :
    (serverNoreply ocall sender).filterMap tagOf = [sender.tag] := by
  unfold serverNoreply
  cases ocall <;> rfl

theorem serverNoreply_uses (ocall : Ocall) (sender : Sender) : (serverNoreply ocall sender).filterMap useOf = [] := by
  unfold serverNoreply
  cases ocall <;> rfl

theorem answers_tags (env : StopEnv) (evs : List (Ev Sender)) : ∀ i j,
    (answers P env i j evs).filterMap tagOf = (evs.filterMap senderOf).map (·.tag) := by
  induction evs with
  | nil => intro i j; rfl
  | cons ev evs ih =>
    intro i j
    cases ev with
    | lookup p u n q => exact ih i j
    | reply sender msg =>
      unfold answers
      rw [List.filterMap_append, serverReply_tags, ih]
      rfl
    | noreply sender =>
      unfold answers
      rw [List.filterMap_append, serverNoreply_tags, ih]
      rfl

theorem answers_uses (env : StopEnv) (evs : List (Ev Sender)) : ∀ i j,
    ((answers P env i j evs).filterMap useOf).Sublist ((evs.filterMap senderOf).map fun sender => (sender.idVal, true)) := by
  induction evs with
  | nil => intro i j; exact List.Sublist.refl _
  | cons ev evs ih =>
    intro i j
    cases ev with
    | lookup p u n q => exact ih i j
    | reply sender msg =>
      unfold answers
      rw [List.filterMap_append]
      exact (serverReply_uses P (env.reply i) sender msg).append (ih (i + 1) j)
    | noreply sender =>
      unfold answers
      rw [List.filterMap_append, serverNoreply_uses, List.nil_append]
      exact (ih i (j + 1)).cons _

theorem mem_serverReply {env : ReplyEnv} {sender : Sender} {msg : List Byte} {act : Act}
    (h : act ∈ (serverReply P env sender msg).2) : (∃ t fate, act = .tag t fate) ∨
      ∃ iv, act = .sealReply sender.idVal sender.serverKey (Iv.setLowBit iv) := by
  unfold serverReply at h
  rcases env with ⟨_ | iv, _ | _, _ | _ | _⟩ <;> simp only [List.mem_cons, List.not_mem_nil, or_false] at h
  case error.error.returned | error.error.failed | error.error.notMade | error.ok.returned | error.ok.failed |
    error.ok.notMade => exact .inl ⟨_, _, h⟩
  all_goals
    rcases h with h | h
    · exact .inr ⟨iv, h⟩
    · exact .inl ⟨_, _, h⟩

/-- A stop encrypts replies only, each under its sender's key and with a bit set in the IV. -/
theorem mem_answers {env : StopEnv} {evs : List (Ev Sender)} {act : Act} : ∀ {i j},
    act ∈ answers P env i j evs → (∃ t fate, act = .tag t fate) ∨
      ∃ sender ∈ evs.filterMap senderOf, ∃ iv, act = .sealReply sender.idVal sender.serverKey (Iv.setLowBit iv) := by
  induction evs with
  | nil => intro i j h; cases h
  | cons ev evs ih =>
    intro i j h
    cases ev with
    | lookup p u n q => exact ih h
    | reply sender msg =>
      rcases List.mem_append.mp h with h | h
      · rcases mem_serverReply P h with htag | ⟨iv, hact⟩
        · exact .inl htag
        · exact .inr ⟨sender, List.mem_cons_self, iv, hact⟩
      · rcases ih h with htag | ⟨sender', hs, hact⟩
        · exact .inl htag
        · exact .inr ⟨sender', List.mem_cons_of_mem _ hs, hact⟩
    | noreply sender =>
      rcases List.mem_append.mp h with h | h
      · unfold serverNoreply at h
        split at h <;> exact .inl ⟨_, _, List.mem_singleton.mp h⟩
      · rcases ih h with htag | ⟨sender', hs, hact⟩
        · exact .inl htag
        · exact .inr ⟨sender', List.mem_cons_of_mem _ hs, hact⟩

end Answers

/-! ## What a call does -/

section Steps

variable {ι : Type} [DecidableEq ι] {P : Primitives} {C : IdCipher Iv PendingRequestId} {tableOrder : Nat} {S : Crypto}
  {outside : Ptr → Usize → BitVec 32}
  {hashLookup : Ptr → Ptr → Usize → List Phone → List Byte → Except SgxStatus Unit × List Byte}

theorem senders_start (server : Option (SgxsdServerState Sender)) (maxQueryPhones : Option (BitVec 32)) :
    senders (serverStartLocked server maxQueryPhones).2 = senders server := by
  unfold serverStartLocked
  rcases server with _ | server <;> rcases maxQueryPhones with _ | n <;> rfl

variable (P) in
/-- The server with a request of these phones, from the pending request. -/
def accept (s : SgxsdServerState Sender) (tag : Nat) (r : PendingRequests.PendingRequest) (phones : List Phone) :
    SgxsdServerState Sender :=
  { s with
    queryPhones := s.queryPhones ++ phones
    requests := s.requests ++ [⟨⟨tag, serverKey P r.hkdfPrk, r.idVal⟩, phones.length⟩] }

/-- A call fails and leaves the server, or the server has a request more, from the pending request the
    call took. -/
theorem serverCallLocked_cases (server : Option (SgxsdServerState Sender)) (p : PendingRequests.St) (c : CallIn) (tag : Nat) :
    (∃ e p', serverCallLocked P C tableOrder S outside server p c tag = (.error e, server, p')) ∨
    ∃ s r phones p', server = some s ∧ c.msgData ≠ [] ∧
      removePendingRequest C tableOrder p c.header.pendingRequestId = (.ok r, p') ∧
      serverCallLocked P C tableOrder S outside server p c tag = (.ok (), some (accept P s tag r phones), p') := by
  unfold serverCallLocked
  cases server with
  | none => exact .inl ⟨_, _, rfl⟩
  | some s =>
    simp only
    by_cases hdata : c.msgData = []
    · rw [if_pos hdata]
      exact .inl ⟨_, _, rfl⟩
    rw [if_neg hdata]
    unfold openRequest
    rcases hremove : removePendingRequest C tableOrder p c.header.pendingRequestId with ⟨e | r, p'⟩
    · exact .inl ⟨_, _, rfl⟩
    simp only
    unfold decryptMessage
    simp only
    cases P.aesGcm.decrypt (deriveRequestKeys P.sha256 r).1 c.header.iv c.header.pendingRequestId.bytes c.msgData
        c.header.mac with
    | none => exact .inl ⟨_, _, rfl⟩
    | some plain =>
      simp only
      rcases @Server.handleCall_cases _ S outside s
          ⟨c.args, plain, c.mem, ⟨tag, (deriveRequestKeys P.sha256 r).2, r.idVal⟩⟩ with ⟨e, h⟩ | ⟨h, -⟩
      · rw [h]
        exact .inl ⟨_, _, rfl⟩
      · rw [h]
        exact .inr ⟨s, r, _, p', rfl, hdata, rfl, rfl⟩

/-- As above, and the tag of a call that fails is taken back. -/
theorem sgxsdServerCall_cases (server : Option (SgxsdServerState Sender)) (p : PendingRequests.St) (c : CallIn) (tag : Nat) :
    (∃ e p', sgxsdServerCall P C tableOrder S outside server p c tag = (.error e, server, p', [.tag tag .callError])) ∨
    ∃ s r phones p', c.ecall = none ∧ server = some s ∧ c.msgData ≠ [] ∧
      removePendingRequest C tableOrder p c.header.pendingRequestId = (.ok r, p') ∧
      sgxsdServerCall P C tableOrder S outside server p c tag = (.ok (), some (accept P s tag r phones), p', []) := by
  unfold sgxsdServerCall
  cases c.ecall with
  | some e => exact .inl ⟨_, _, rfl⟩
  | none =>
    simp only
    rcases @serverCallLocked_cases P C tableOrder S outside server p c tag with ⟨e, p', h⟩ |
      ⟨s, r, phones, p', hserver, hdata, hremove, h⟩
    · rw [h]
      exact .inl ⟨e, p', rfl⟩
    · rw [h]
      exact .inr ⟨s, r, phones, p', trivial, hserver, hdata, hremove, rfl⟩

/-- A call leaves a server of the same capacity, with at most the phones it declares more. -/
theorem sgxsdServerCall_phones (s : SgxsdServerState Sender) (p : PendingRequests.St) {c : CallIn} {args : Server.CallArgs}
    (ha : c.args = some args) (tag : Nat) :
    ∃ s', (sgxsdServerCall P C tableOrder S outside (some s) p c tag).2.1 = some s' ∧ s'.capacity = s.capacity ∧
      s'.queryPhones.length ≤ s.queryPhones.length + args.queryPhoneCount.toNat := by
  have hsame : ∃ s', some s = some s' ∧ s'.capacity = s.capacity ∧
      s'.queryPhones.length ≤ s.queryPhones.length + args.queryPhoneCount.toNat := ⟨s, rfl, rfl, Nat.le_add_right _ _⟩
  have hlocked : ∃ s', (serverCallLocked P C tableOrder S outside (some s) p c tag).2.1 = some s' ∧
      s'.capacity = s.capacity ∧ s'.queryPhones.length ≤ s.queryPhones.length + args.queryPhoneCount.toNat := by
    unfold serverCallLocked
    simp only
    split
    · exact hsame
    split
    · exact hsame
    · rename_i plain sender p' hopen
      have hown := @Server.length_ownPhones_le _ S outside ⟨c.args, plain, c.mem, sender⟩ args ha
      rcases @Server.handleCall_cases _ S outside s ⟨c.args, plain, c.mem, sender⟩ with ⟨e, h⟩ | ⟨h, -⟩
      · rw [h]
        exact hsame
      · rw [h]
        refine ⟨_, rfl, rfl, ?_⟩
        rw [List.length_append]
        omega
  unfold sgxsdServerCall
  cases c.ecall with
  | some e => exact hsame
  | none =>
    obtain ⟨s', hs', hrest⟩ := hlocked
    rcases h : serverCallLocked P C tableOrder S outside (some s) p c tag with ⟨_ | _, server', p'⟩
    · rw [h] at hs'
      exact ⟨s', hs', hrest⟩
    · rw [h] at hs'
      exact ⟨s', hs', hrest⟩

theorem senders_accept (s : SgxsdServerState Sender) (tag : Nat) (r : PendingRequests.PendingRequest) (phones : List Phone) :
    senders (some (accept P s tag r phones)) = senders (some s) ++ [⟨tag, serverKey P r.hkdfPrk, r.idVal⟩] := by
  simp only [senders, accept, List.map_append, List.map_cons, List.map_nil]

theorem accept_filled {s : SgxsdServerState Sender} (h : Filled s) (tag : Nat) (r : PendingRequests.PendingRequest)
    (phones : List Phone) : Filled (accept P s tag r phones) := by
  unfold Filled at h ⊢
  simp only [accept, List.map_append, List.map_cons, List.map_nil, List.sum_append, List.sum_cons, List.sum_nil,
    List.length_append, Nat.add_zero, h]

/-- A negotiation without a key does nothing; with one it adds a request, and encrypts its id if one
    was issued. -/
theorem negotiateRequest_cases (p : PendingRequests.St) (clientPubkey : Bytes 32) (env : NegotiateEnv) :
    (∃ e, env.ephemeralKeypair = .error e ∧ negotiateRequest P C tableOrder p clientPubkey env = (.error e, p, [])) ∨
    ∃ ephemeral added p' r, env.ephemeralKeypair = .ok ephemeral ∧
      addPendingRequest C tableOrder p (negotiatedPrk P clientPubkey ephemeral env.staticKeypair) env.idIv = (added, p') ∧
      negotiateRequest P C tableOrder p clientPubkey env = (r, p', sealNumber env.idIv ++
        match added with
        | .error _ => []
        | .ok _ => [.sealId p'.lastPendingRequestIdVal
            (serverKey P (negotiatedPrk P clientPubkey ephemeral env.staticKeypair)) zeroIv]) := by
  unfold negotiateRequest
  cases env.ephemeralKeypair with
  | error e => exact .inl ⟨e, rfl, rfl⟩
  | ok ephemeral =>
    refine .inr ⟨ephemeral, ?_⟩
    simp only
    rcases addPendingRequest C tableOrder p (negotiatedPrk P clientPubkey ephemeral env.staticKeypair) env.idIv with
      ⟨e | id, p'⟩
    · exact ⟨_, _, _, trivial, rfl, by rw [List.append_nil]⟩
    · simp only
      cases env.encrypt <;> exact ⟨_, _, _, trivial, rfl, rfl⟩

theorem sealNumber_tags (iv : Except SgxStatus Iv) : (sealNumber iv).filterMap tagOf = [] := by
  unfold sealNumber
  cases iv <;> rfl

theorem negotiateRequest_tags (p : PendingRequests.St) (clientPubkey : Bytes 32) (env : NegotiateEnv) :
    (negotiateRequest P C tableOrder p clientPubkey env).2.2.filterMap tagOf = [] := by
  rcases @negotiateRequest_cases P C tableOrder p clientPubkey env with ⟨e, -, h⟩ | ⟨ephemeral, added, p', r, -, -, h⟩
  · rw [h]; rfl
  · rw [h, List.filterMap_append, sealNumber_tags]
    cases added <;> rfl

/-- A stop that returns answers all senders of the server. -/
theorem serverStopLocked_answers {server : Option (SgxsdServerState Sender)} {args : Option StopArgs} {env : StopEnv}
    {r : Except SgxStatus Unit} {acts : List Act}
    (h : serverStopLocked P outside hashLookup server args env = some (r, acts)) :
    ∃ evs, acts = answers P env 0 0 evs ∧ evs.filterMap senderOf = senders server := by
  unfold serverStopLocked at h
  cases server with
  | none => cases h; exact ⟨[], rfl, rfl⟩
  | some s =>
    simp only at h
    split at h
    · cases h
    · rename_i evs r' hterm
      cases h
      exact ⟨evs, rfl, senders_terminate hterm⟩

def held (s : St ι) (handle : ι) : List Sender := senders (s.servers handle)

theorem held_update (s : St ι) (handle : ι) (server : Option (SgxsdServerState Sender)) :
    (fun h => senders (Function.update s.servers handle server h)) = Function.update (held s) handle (senders server) := by
  funext h
  by_cases hh : h = handle
  · rw [hh, Function.update_self, Function.update_self]
  · rw [Function.update_of_ne hh, Function.update_of_ne hh]; rfl

theorem map_update {β : Type} (f : Sender → β) (g : ι → List Sender) (handle : ι) (l : List Sender) :
    (fun h => (Function.update g handle l h).map f) = Function.update (fun h => (g h).map f) handle (l.map f) := by
  funext h
  by_cases hh : h = handle
  · rw [hh, Function.update_self, Function.update_self]
  · rw [Function.update_of_ne hh, Function.update_of_ne hh]

/-- What a step does to senders, tags and trace, in five cases. -/
theorem step_cases {s s' : St ι} {e : Event ι} (h : step P C tableOrder S outside hashLookup s e = some s') :
    ((∀ handle args env, e ≠ .stop handle args env) ∧ held s' = held s ∧ s'.tags = s.tags ∧ s'.trace = s.trace) ∨
    (∃ clientPubkey env, e = .negotiate clientPubkey env ∧ held s' = held s ∧ s'.tags = s.tags ∧
      s'.trace = s.trace ++ (negotiateRequest P C tableOrder s.pending.1 clientPubkey env).2.2) ∨
    ((∀ handle args env, e ≠ .stop handle args env) ∧ held s' = held s ∧ s'.tags = s.tags + 1 ∧
      s'.trace = s.trace ++ [.tag s.tags .callError]) ∨
    (∃ handle c r, e = .call handle c ∧ tableOp P s e = some (.remove c.header.pendingRequestId) ∧
      (removePendingRequest C tableOrder s.pending.1 c.header.pendingRequestId).1 = .ok r ∧
      held s' = Function.update (held s) handle (held s handle ++ [⟨s.tags, serverKey P r.hkdfPrk, r.idVal⟩]) ∧
      s'.tags = s.tags + 1 ∧ s'.trace = s.trace) ∨
    (∃ handle args env r acts, e = .stop handle args env ∧
      serverStopLocked P outside hashLookup (s.servers handle) args env = some (r, acts) ∧
      held s' = Function.update (held s) handle [] ∧ s'.tags = s.tags ∧ s'.trace = s.trace ++ acts) := by
  cases e with
  | negotiate clientPubkey env =>
    cases h
    exact .inr (.inl ⟨clientPubkey, env, rfl, rfl, rfl, rfl⟩)
  | start handle maxQueryPhones =>
    cases h
    refine .inl ⟨fun _ _ _ h => (by cases h), ?_, rfl, rfl⟩
    show (fun h => senders (Function.update s.servers handle _ h)) = held s
    rw [held_update, senders_start]
    exact Function.update_eq_self handle (held s)
  | call handle c =>
    unfold step at h
    simp only at h
    rcases @sgxsdServerCall_cases P C tableOrder S outside (s.servers handle) s.pending.1 c s.tags with
      ⟨e, p', hcall⟩ | ⟨server, r, phones, p', hecall, hserver, hdata, hremove, hcall⟩
    · rw [hcall] at h
      cases h
      refine .inr (.inr (.inl ⟨fun _ _ _ h => (by cases h), ?_, rfl, rfl⟩))
      show (fun h => senders (Function.update s.servers handle _ h)) = held s
      rw [held_update]
      exact Function.update_eq_self handle (held s)
    · rw [hcall] at h
      cases h
      refine .inr (.inr (.inr (.inl ⟨handle, c, r, rfl, if_pos ⟨hecall, by rw [hserver]; rfl, hdata⟩, by rw [hremove], ?_,
        rfl, List.append_nil _⟩)))
      show (fun h => senders (Function.update s.servers handle _ h)) = _
      rw [held_update, senders_accept, ← hserver]
      rfl
  | fingerprint handle key args header msgData mem tag size =>
    cases h
    exact .inl ⟨fun _ _ _ h => (by cases h), rfl, rfl, rfl⟩
  | stop handle args env =>
    unfold step at h
    simp only at h
    split at h
    · cases h
    · rename_i r acts hstop
      cases h
      exact .inr (.inr (.inr (.inr ⟨handle, args, env, r, acts, rfl, hstop, held_update s handle none, rfl, rfl⟩)))

def AllFilled (s : St ι) : Prop := ∀ handle, ∀ server ∈ s.servers handle, Filled server

theorem AllFilled.update {s : St ι} (h : AllFilled s) (handle : ι) {server : Option (SgxsdServerState Sender)}
    (hserver : ∀ x ∈ server, Filled x) : ∀ i, ∀ x ∈ Function.update s.servers handle server i, Filled x := by
  intro i x hx
  by_cases hi : i = handle
  · rw [hi, Function.update_self] at hx; exact hserver x hx
  · rw [Function.update_of_ne hi] at hx; exact h i x hx

theorem step_filled {s s' : St ι} {e : Event ι} (h : AllFilled s)
    (hs : step P C tableOrder S outside hashLookup s e = some s') : AllFilled s' := by
  cases e with
  | negotiate clientPubkey env => cases hs; exact h
  | start handle maxQueryPhones =>
    cases hs
    refine h.update handle fun x hx => ?_
    unfold serverStartLocked at hx
    split at hx
    · rename_i hup; cases hx; exact h handle _ hup
    · cases hx
    · cases hx; rfl
  | call handle c =>
    unfold step at hs
    simp only at hs
    rcases @sgxsdServerCall_cases P C tableOrder S outside (s.servers handle) s.pending.1 c s.tags with
      ⟨e, p', hcall⟩ | ⟨server, r, phones, p', -, hserver, -, -, hcall⟩
    · rw [hcall] at hs
      cases hs
      exact h.update handle (h handle)
    · rw [hcall] at hs
      cases hs
      exact h.update handle fun x hx => by cases hx; exact accept_filled (h handle server hserver) _ _ _
  | fingerprint handle key args header msgData mem tag size => cases hs; exact h
  | stop handle args env =>
    unfold step at hs
    simp only at hs
    split at hs
    · cases hs
    · cases hs; exact h.update handle fun x hx => by cases hx

theorem step_some (hin : InPlace hashLookup) {s : St ι} (h : AllFilled s) (e : Event ι) :
    ∃ s', step P C tableOrder S outside hashLookup s e = some s' := by
  cases e with
  | negotiate _ _ | start _ _ | call _ _ | fingerprint _ _ _ _ _ _ _ _ => exact ⟨_, rfl⟩
  | stop handle args env =>
    unfold step
    simp only
    cases hserver : s.servers handle with
    | none => exact ⟨_, rfl⟩
    | some server =>
      obtain ⟨evs, r, hterm⟩ := @terminate_returns _ outside hashLookup hin server (h handle server hserver)
        (fun i => replyResult (env.reply i)) args
      unfold serverStopLocked
      simp only [hterm]
      exact ⟨_, rfl⟩

theorem run_some (hin : InPlace hashLookup) (events : List (Event ι)) : ∀ {s : St ι}, AllFilled s →
    ∃ s', Runs.run (step P C tableOrder S outside hashLookup) s events = some s' := by
  induction events with
  | nil => intro s _; exact ⟨s, rfl⟩
  | cons e events ih =>
    intro s h
    obtain ⟨t, ht⟩ := @step_some ι _ P C tableOrder S outside hashLookup hin s h e
    obtain ⟨s', hs'⟩ := ih (step_filled h ht)
    exact ⟨s', by rw [Runs.run, ht]; exact hs'⟩

/-! ## The table -/

variable (P C) in
/-- The ids that decrypt are issued ones, and fewer than `2 ^ 64` requests are negotiated. -/
def Allowed (s : St ι) (e : Event ι) : Prop :=
  ∀ op ∈ tableOp P s e, PendingRequests.Authentic C s.pending op ∧ PendingRequests.Numbered s.pending op

theorem sgxsdServerCall_pending (server : Option (SgxsdServerState Sender)) (p : PendingRequests.St) (c : CallIn) (tag : Nat) :
    (sgxsdServerCall P C tableOrder S outside server p c tag).2.2.1 =
      if c.ecall = none ∧ server.isSome ∧ c.msgData ≠ [] then
        (removePendingRequest C tableOrder p c.header.pendingRequestId).2
      else p := by
  have hlocked : (serverCallLocked P C tableOrder S outside server p c tag).2.2 =
      if server.isSome ∧ c.msgData ≠ [] then (removePendingRequest C tableOrder p c.header.pendingRequestId).2 else p := by
    unfold serverCallLocked
    cases server with
    | none => rfl
    | some s =>
      simp only
      by_cases hdata : c.msgData = []
      · rw [if_pos hdata, if_neg fun h => h.2 hdata]
      rw [if_neg hdata, if_pos ⟨rfl, hdata⟩]
      unfold openRequest
      rcases removePendingRequest C tableOrder p c.header.pendingRequestId with ⟨e | r, p'⟩
      · rfl
      · simp only
        rcases decryptMessage P r c.header c.msgData tag with e | ⟨plain, sender⟩ <;> rfl
  unfold sgxsdServerCall
  cases c.ecall with
  | some e => rfl
  | none =>
    simp only
    rcases hcall : serverCallLocked P C tableOrder S outside server p c tag with ⟨e | _, server', p'⟩ <;>
      rw [hcall] at hlocked <;> simpa using hlocked

theorem getPendingRequest_pending (p : PendingRequests.St) (id : PendingRequestId) :
    (getPendingRequest C tableOrder p id).2 = p := by
  unfold getPendingRequest
  split
  · rfl
  · simp only
    split <;> rfl

theorem ratelimitFingerprintLocked_pending (server : Option (SgxsdServerState Sender)) (p : PendingRequests.St)
    (key : Bytes 32) (args : CallArgs) (header : MsgHeader) (msgData : List Byte) (mem : Ptr → Byte) (tag size : Nat) :
    (ratelimitFingerprintLocked P C tableOrder S outside server p key args header msgData mem tag size).2 = p := by
  have hget := @getPendingRequest_pending C tableOrder p header.pendingRequestId
  unfold ratelimitFingerprintLocked
  cases server with
  | none => rfl
  | some s =>
    simp only
    split
    · rfl
    · rcases hgot : getPendingRequest C tableOrder p header.pendingRequestId with ⟨e | r, p'⟩ <;> rw [hgot] at hget
      · exact hget
      · simp only
        split <;> exact hget

/-- The table takes the step of the operation an event comes to, or none. -/
theorem step_pending {s s' : St ι} {e : Event ι} (h : step P C tableOrder S outside hashLookup s e = some s') :
    (tableOp P s e = none ∧ s'.pending = s.pending) ∨
    ∃ op, tableOp P s e = some op ∧ PendingRequests.step C tableOrder s.pending op = some s'.pending := by
  cases e with
  | negotiate clientPubkey env =>
    cases h
    simp only [history]
    unfold tableOp
    rcases @negotiateRequest_cases P C tableOrder s.pending.1 clientPubkey env with ⟨e, heph, hneg⟩ |
      ⟨ephemeral, added, p', r, heph, hadd, hneg⟩
    · simp only [heph, hneg]
      exact .inl ⟨trivial, trivial⟩
    · simp only [heph, hneg]
      refine .inr ⟨_, rfl, ?_⟩
      simp only [PendingRequests.step, PendingRequests.exec, hadd]
  | start handle maxQueryPhones => cases h; exact .inl ⟨rfl, rfl⟩
  | call handle c =>
    cases h
    simp only [sgxsdServerCall_pending, history]
    unfold tableOp
    by_cases hop : c.ecall = none ∧ (s.servers handle).isSome ∧ c.msgData ≠ []
    · simp only [if_pos hop]
      exact .inr ⟨_, rfl, rfl⟩
    · simp only [if_neg hop]
      exact .inl ⟨trivial, trivial⟩
  | fingerprint handle key args header msgData mem tag size =>
    cases h
    simp only [ratelimitFingerprintLocked_pending, history]
    unfold tableOp
    by_cases hop : (s.servers handle).isSome ∧ msgData ≠ []
    · simp only [if_pos hop]
      refine .inr ⟨_, rfl, ?_⟩
      simp only [PendingRequests.step, PendingRequests.exec, getPendingRequest_pending]
    · simp only [if_neg hop]
      exact .inl ⟨trivial, trivial⟩
  | stop handle args env =>
    unfold step at h
    simp only at h
    split at h
    · cases h
    · cases h; exact .inl ⟨rfl, rfl⟩

theorem step_table (hk : tableOrder ≤ 63) {s s' : St ι} {e : Event ι}
    (h : PendingRequests.Inv C tableOrder s.pending) (hc : Allowed P C s e)
    (hs : step P C tableOrder S outside hashLookup s e = some s') : PendingRequests.Inv C tableOrder s'.pending := by
  rcases step_pending hs with ⟨-, hp⟩ | ⟨op, hop, hstep⟩
  · rw [hp]; exact h
  · exact PendingRequests.step_inv hk _ op _ h (hc op hop) hstep

end Steps

/-! ## A node to run -/

def zeroMac : Mac := ⟨List.replicate 16 0, by simp⟩
def zeroKey : Key := ⟨List.replicate 32 0, by simp⟩

def plainPrimitives : Primitives where
  sha256 := fun _ => 0
  x25519 := fun _ _ => zeroKey
  aesGcm :=
    { encrypt := fun _ _ _ data => (data, zeroMac)
      decrypt := fun _ _ _ data _ => some data
      length_encrypt := fun _ _ _ _ => rfl
      length_decrypt := by intro _ _ _ _ _ _ h; cases h; rfl
      decrypt_encrypt := fun _ _ _ _ => rfl }

def nothingFound (_ _ : Ptr) (_ : Usize) (_ : List Phone) (buf : List Byte) : Except SgxStatus Unit × List Byte := (.ok (), buf)

/-- The step of a node with these, one server and a table of two slots. -/
def plainStep : St Unit → Event Unit → Option (St Unit) :=
  step plainPrimitives (idCipher plainPrimitives.aesGcm zeroKey) 1 Server.idleCrypto (fun _ _ => 1) nothingFound

def plainNegotiate : Event Unit := .negotiate zeroKey ⟨.ok ⟨zeroKey, zeroKey⟩, ⟨zeroKey, zeroKey⟩, .ok zeroIv, .ok ()⟩

def plainId (n : BitVec 64) : PendingRequestId := ⟨⟨leBytes n, length_leBytes n⟩, zeroIv, zeroMac⟩

def plainCall (n : BitVec 64) : CallIn :=
  ⟨none, some ⟨1, ⟨[], [], 40, 1⟩, []⟩, ⟨zeroIv, zeroMac, plainId n⟩, List.replicate 32 0, fun _ => 0⟩

def plainEnv (reply : ReplyEnv) : StopEnv := ⟨fun _ => reply, fun _ => .returned⟩

end ContactDiscovery.Enclave.Sgxsd
