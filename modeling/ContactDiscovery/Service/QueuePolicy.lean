/-
  ContactDiscovery.Service.QueuePolicy — what a worker takes off the queues, and that the enclave has
  room for it (`PendingRequestQueue.get`, `PendingRequestQueueSet.get`, `EnclaveThread.processBatch`).

  (1) Batches (`get_longest`). A `get` takes requests from the front as long as the running total,
  a Java `int`, stays within the bound. This is the longest such batch exactly if the total at which it
  should stop is an `int`; a larger one is negative, and the request is taken (`get_overflows`). A batch
  whose addresses add up to an `int` fits: of the three counters, the batch's own counts the requests
  the enclave refused and the enclave's does not, and neither passes the sum the server was started
  with.

  (2) The choice of the queue (`get_takes_from`). If the counts of the queues are those of their
  requests, a batch comes from the non-empty queue that waited longest, if one waited too long; else
  from one that fills a batch; else from one with the most addresses. The order of the shuffle decides
  between equals only. A count that overflows makes its queue look empty, and a worker waits
  (`get_waits_on_overflow`).
-/

import ContactDiscovery.Service.Isolation
import ContactDiscovery.Service.PendingQueuesProofs

namespace ContactDiscovery.Service

open Lib
open Client (DiscoveryRequest DiscoveryRequestEnvelope)
open Enclave (Ptr)
open Enclave.Server (SgxsdServerState)
open Enclave.Sgxsd

/-! ## Room for a batch -/

namespace Node

variable {n : Node}

theorem serverCall_args {ptr : Ptr} {args : NativeServerCallArgs} {c : CallIn} (h : serverCall ptr args = .ok c) :
    ∃ a, c.args = some a ∧ a.queryPhoneCount = args.queryPhoneCount := by
  unfold serverCall at h
  split at h
  · cases h
  split at h
  · cases h
  simp only [bind, Except.bind] at h
  repeat' split at h
  all_goals cases h
  exact ⟨_, rfl, rfl⟩

/-- A request that is added counts in the batch, and in the enclave at most as much. -/
theorem add_counts {b b' : SgxsdBatch} {ptr : Ptr} {args : NativeServerCallArgs} {future : Future} {s : SgxsdServerState Sender}
    (hs : b.server = some s) (h : n.add b ptr args = (.ok future, b')) :
    b'.maxPhoneCount = b.maxPhoneCount ∧ b'.phoneCount = b.phoneCount + args.queryPhoneCount ∧
    ∃ s', b'.server = some s' ∧ s'.capacity = s.capacity ∧
      s'.queryPhones.length ≤ s.queryPhones.length + args.queryPhoneCount.toNat := by
  have hfailed : ∀ {b₀ : SgxsdBatch} {name reported : String} {code : Option Enclave.SgxStatus},
      callFailed b₀ args.queryPhoneCount name reported code = (.ok future, b') →
      b' = { b₀ with phoneCount := b₀.phoneCount + args.queryPhoneCount } := by
    intro b₀ name reported code hf
    unfold callFailed at hf
    split at hf
    · cases hf
    · exact (Prod.mk.inj hf).2.symm
  unfold add at h
  split at h
  · cases h
  split at h
  · cases h
  · cases hfailed h
    exact ⟨rfl, rfl, s, hs, rfl, Nat.le_add_right _ _⟩
  · rename_i c hcall
    obtain ⟨a, ha, hcount⟩ := serverCall_args hcall
    obtain ⟨s', hs', hcapacity, hphones⟩ :=
      @sgxsdServerCall_phones n.P n.idCipher n.tableOrder (serverCrypto n.P) n.outside s b.pending c a ha b.tags
    rw [hcount] at hphones
    rw [hs] at h
    split at h
    · rename_i e server pending acts hserver
      rw [hserver] at hs'
      cases hfailed h
      exact ⟨rfl, rfl, s', hs', hcapacity, hphones⟩
    · rename_i server pending acts hserver
      rw [hserver] at hs'
      cases h
      exact ⟨rfl, rfl, s', hs', hcapacity, hphones⟩

/-- A batch in which `count` addresses were added. -/
structure Counts (b : SgxsdBatch) (max : BitVec 32) (count : Nat) : Prop where
  started : b.maxPhoneCount = max
  phoneCount : b.phoneCount.toNat = count
  server : ∃ s, b.server = some s ∧ s.capacity = max.toNat ∧ s.queryPhones.length ≤ count

theorem addAll_counts {place : Nat → Ptr} {max : BitVec 32} {requests : List DiscoveryRequest} :
    ∀ {b b' : SgxsdBatch} {i count : Nat} {futures : List Future}, Counts b max count → count + declared requests < 2 ^ 31 →
      n.addAll place b i requests = (none, futures, b') → Counts b' max (count + declared requests) := by
  induction requests with
  | nil =>
    intro b b' i count futures hb _ h
    cases h
    exact hb
  | cons r requests ih =>
    intro b b' i count futures hb hsmall h
    have hcons : declared (r :: requests) = r.addressCount.toNat + declared requests := List.sum_cons
    rw [hcons] at hsmall ⊢
    unfold addAll at h
    split at h
    · cases h
    rename_i envelope he
    split at h
    · cases h
    rename_i future b₁ hadd
    obtain ⟨s, hs, hcapacity, hphones⟩ := hb.server
    obtain ⟨hmax, hcount, s', hs', hcapacity', hphones'⟩ := add_counts hs hadd
    have hargs : (nativeServerCallArgs r envelope).queryPhoneCount = r.addressCount := rfl
    rw [hargs] at hcount hphones'
    have hone : Counts b₁ max (count + r.addressCount.toNat) := by
      refine ⟨hmax.trans hb.started, ?_, s', hs', hcapacity'.trans hcapacity, by omega⟩
      rw [hcount, BitVec.toNat_add, hb.phoneCount]
      omega
    have hloop : n.addAll place b₁ (i + 1) requests = (none, (n.addAll place b₁ (i + 1) requests).2.1, b') :=
      Prod.ext (congrArg (·.1) h) (Prod.ext rfl (congrArg (·.2.2) h))
    have hrest := ih hone (by omega) hloop
    rwa [Nat.add_assoc] at hrest

/-- The checks of `SgxsdBatch.add` and of `decode_request` on a request's count pass. -/
def HasRoom (b : SgxsdBatch) (request : DiscoveryRequest) : Prop :=
  (b.maxPhoneCount - b.phoneCount).slt request.addressCount = false ∧
  ∃ s, b.server = some s ∧
    ¬(request.addressCount = 0 ∨ request.addressCount.toNat > s.capacity - s.queryPhones.length)

theorem batch_hasRoom {place : Nat → Ptr} {p : Enclave.PendingRequests.St} {requests before after : List DiscoveryRequest}
    {r : DiscoveryRequest} {futures : List Future} {b : SgxsdBatch} (hsplit : requests = before ++ r :: after)
    (hpos : 1 ≤ r.addressCount.toNat) (hsmall : declared requests < 2 ^ 31)
    (h : n.addAll place (newBatch p (batchSize requests)) 0 before = (none, futures, b)) : HasRoom b r := by
  have hsize := toNat_batchSize hsmall
  have hdeclared : declared requests = declared before + (r.addressCount.toNat + declared after) := by
    rw [hsplit, declared, declared, declared, List.map_append, List.map_cons, List.sum_append, List.sum_cons]
  have hstart : Counts (newBatch p (batchSize requests)) (batchSize requests) 0 := ⟨rfl, rfl, _, rfl, rfl, Nat.le_refl _⟩
  have hb := addAll_counts hstart (by omega) h
  rw [Nat.zero_add] at hb
  obtain ⟨s, hs, hcapacity, hphones⟩ := hb.server
  have hcount := hb.phoneCount
  constructor
  · rw [hb.started]
    exact (fits_iff (by omega) (by omega) (by omega)).mpr (by omega)
  · refine ⟨s, hs, ?_⟩
    rw [not_or]
    refine ⟨fun h0 => ?_, by omega⟩
    rw [h0] at hpos
    exact absurd hpos (by decide)

end Node

namespace Queues

/-! ## (1) Batches -/

/-- Requests from the front of a queue, one at least, each of which after the first keeps the total
    within the bound. -/
structure Allowed (maxAddressCount : Int) (queue batch : List PendingRequest) : Prop where
  front : batch <+: queue
  nonempty : batch ≠ []
  within : ∀ l, l <+: batch → 2 ≤ l.length → total l ≤ maxAddressCount

def Longest (maxAddressCount : Int) (queue batch : List PendingRequest) : Prop :=
  Allowed maxAddressCount queue batch ∧ ∀ other, Allowed maxAddressCount queue other → other <+: batch

def following (maxAddressCount : Int) : Int → List PendingRequest → List PendingRequest
  | _, [] => []
  | count, p :: rest =>
    if count + p.getAddressCount.toInt ≤ maxAddressCount then
      p :: following maxAddressCount (count + p.getAddressCount.toInt) rest
    else []

def firstPast (maxAddressCount : Int) : Int → List PendingRequest → Option Int
  | _, [] => none
  | count, p :: rest =>
    if count + p.getAddressCount.toInt ≤ maxAddressCount then
      firstPast maxAddressCount (count + p.getAddressCount.toInt) rest
    else some (count + p.getAddressCount.toInt)

/-- The total at which a batch from the front of the queue should stop, if it does. -/
def stopTotal (maxAddressCount : Int) : List PendingRequest → Option Int
  | [] => none
  | first :: rest => firstPast maxAddressCount first.getAddressCount.toInt rest

section Batches

variable {maxAddressCount : Int}

theorem prefix_following (rest : List PendingRequest) :
    ∀ count, following maxAddressCount count rest <+: rest := by
  induction rest with
  | nil => intro count; exact List.prefix_refl _
  | cons p rest ih =>
    intro count
    rw [following]
    split
    · exact (List.prefix_cons_inj p).mpr (ih _)
    · exact List.nil_prefix

theorem following_within (rest : List PendingRequest) :
    ∀ count l, l <+: following maxAddressCount count rest → l ≠ [] → count + total l ≤ maxAddressCount := by
  induction rest with
  | nil =>
    intro count l hl hne
    exact absurd (List.prefix_nil.mp hl) hne
  | cons p rest ih =>
    intro count l hl hne
    rw [following] at hl
    split at hl
    · rename_i hp
      cases l with
      | nil => exact absurd rfl hne
      | cons p' l =>
        obtain ⟨rfl, hl⟩ := List.cons_prefix_cons.mp hl
        rw [total_cons, ← add_assoc]
        by_cases hnil : l = []
        · subst hnil
          rw [total_nil, add_zero]
          exact hp
        · exact ih _ l hl hnil
    · exact absurd (List.prefix_nil.mp hl) hne

theorem following_longest (rest : List PendingRequest) :
    ∀ count other, other <+: rest → (∀ l, l <+: other → l ≠ [] → count + total l ≤ maxAddressCount) →
      other <+: following maxAddressCount count rest := by
  induction rest with
  | nil => intro count other hother _; exact hother
  | cons p rest ih =>
    intro count other hother hwithin
    cases other with
    | nil => exact List.nil_prefix
    | cons p' other =>
      obtain ⟨rfl, hfront⟩ := List.cons_prefix_cons.mp hother
      have hp := hwithin [p'] ((List.prefix_cons_inj p').mpr List.nil_prefix) (List.cons_ne_nil _ _)
      rw [total_cons, total_nil, add_zero] at hp
      rw [following, if_pos hp]
      refine (List.prefix_cons_inj p').mpr (ih _ other hfront fun l hl hne => ?_)
      have := hwithin (p' :: l) ((List.prefix_cons_inj p').mpr hl) (List.cons_ne_nil _ _)
      rw [total_cons] at this
      omega

theorem longest_following (first : PendingRequest) (rest : List PendingRequest) :
    Longest maxAddressCount (first :: rest) (first :: following maxAddressCount first.getAddressCount.toInt rest) := by
  refine ⟨⟨(List.prefix_cons_inj first).mpr (prefix_following rest _), List.cons_ne_nil _ _, fun l hl hlen => ?_⟩,
    fun other hother => ?_⟩
  · cases l with
    | nil => exact absurd hlen (by decide)
    | cons p l =>
      obtain ⟨rfl, hl⟩ := List.cons_prefix_cons.mp hl
      rw [total_cons]
      refine following_within rest _ l hl fun hnil => ?_
      subst hnil
      exact absurd (show 2 ≤ 1 from hlen) (by decide)
  · cases other with
    | nil => exact absurd rfl hother.nonempty
    | cons p other =>
      obtain ⟨rfl, hfront⟩ := List.cons_prefix_cons.mp hother.front
      refine (List.prefix_cons_inj p).mpr (following_longest rest _ other hfront fun l hl hne => ?_)
      have hlen := List.length_pos_of_ne_nil hne
      have := hother.within (p :: l) ((List.prefix_cons_inj p).mpr hl) (by rw [List.length_cons]; omega)
      rwa [total_cons] at this

theorem Longest.unique {queue a b : List PendingRequest} (ha : Longest maxAddressCount queue a)
    (hb : Longest maxAddressCount queue b) : a = b :=
  (hb.2 a ha.1).eq_of_length (Nat.le_antisymm (hb.2 a ha.1).length_le (ha.2 b hb.1).length_le)

end Batches

/-- The loop adds with `int`s: it stops where it should unless the total there is none. -/
theorem getLoop_eq_following_iff {maxAddressCount : BitVec 32} (hmax : 1 ≤ maxAddressCount.toInt) (rest : List PendingRequest) :
    (∀ p ∈ rest, 1 ≤ p.getAddressCount.toInt) → ∀ result count : BitVec 32, 1 ≤ result.toInt →
      ((PendingRequestQueue.getLoop maxAddressCount result count rest).1 =
          following maxAddressCount.toInt result.toInt rest ↔
        ∀ t, firstPast maxAddressCount.toInt result.toInt rest = some t → t < 2 ^ 31) := by
  induction rest with
  | nil =>
    intro _ result count _
    exact iff_of_true rfl nofun
  | cons p rest ih =>
    intro hpos result count hresult
    have hp := hpos p List.mem_cons_self
    have hrest : ∀ p' ∈ rest, 1 ≤ p'.getAddressCount.toInt := fun p' hp' => hpos p' (List.mem_cons_of_mem _ hp')
    have hlt := @BitVec.toInt_lt 32 result
    have hplt := @BitVec.toInt_lt 32 p.getAddressCount
    have hmaxlt := @BitVec.toInt_lt 32 maxAddressCount
    rw [PendingRequestQueue.getLoop, following, firstPast, BitVec.add_comm p.getAddressCount, BitVec.sle]
    by_cases hsmall : result.toInt + p.getAddressCount.toInt < 2 ^ 31
    · -- no overflow: the two decide alike
      have hsum : (result + p.getAddressCount).toInt = result.toInt + p.getAddressCount.toInt := by
        rw [BitVec.toInt_add]
        exact Int.bmod_eq_of_le (by omega) (by omega)
      rw [hsum]
      by_cases hle : result.toInt + p.getAddressCount.toInt ≤ maxAddressCount.toInt
      · rw [if_pos (decide_eq_true hle), if_pos hle, if_pos hle]
        have := ih hrest (result + p.getAddressCount) (count - p.getAddressCount) (by rw [hsum]; omega)
        rw [hsum] at this
        rw [← this]
        exact ⟨fun h => (List.cons.inj h).2, fun h => congrArg (p :: ·) h⟩
      · rw [if_neg (by rw [decide_eq_true_iff]; exact hle), if_neg hle, if_neg hle]
        exact iff_of_true rfl fun t ht => by cases ht; exact hsmall
    · have hsum : (result + p.getAddressCount).toInt = result.toInt + p.getAddressCount.toInt - 2 ^ 32 := by
        rw [BitVec.toInt_add, Int.bmod_def]
        omega
      have hpast : ¬result.toInt + p.getAddressCount.toInt ≤ maxAddressCount.toInt := by omega
      rw [hsum, if_pos (decide_eq_true (by omega)), if_neg hpast, if_neg hpast]
      refine iff_of_false (List.cons_ne_nil _ _) fun h => ?_
      exact hsmall (h _ rfl)

theorem declared_eq_total {l : List PendingRequest} (hpos : ∀ p ∈ l, 1 ≤ p.getAddressCount.toInt) :
    (Node.declared (l.map (·.request)) : Int) = total l := by
  induction l with
  | nil => rfl
  | cons p l ih =>
    have hp := hpos p List.mem_cons_self
    have hnat : (p.request.addressCount.toNat : Int) = p.getAddressCount.toInt := by
      have := BitVec.toInt_eq_toNat_cond p.getAddressCount
      show (p.getAddressCount.toNat : Int) = _
      split at this <;> omega
    rw [total_cons, ← ih fun p' hp' => hpos p' (List.mem_cons_of_mem _ hp'), ← hnat]
    rfl

/-- Of a queue of requests that declare an address each at least, a `get` takes requests from the front
    and leaves the rest. They are the longest batch within the bound if and only if the total it should
    stop at is an `int`. If their addresses add up to an `int`, each of them has room in a batch
    started for that sum, in the batch and in the enclave, whatever became of those before it. -/
theorem get_longest {σ : Type} (q : PendingRequestQueue σ) (hne : q.queue ≠ [])
    (hpos : ∀ p ∈ q.queue, 1 ≤ p.getAddressCount.toInt) (maxAddressCount : BitVec 32) (hmax : 1 ≤ maxAddressCount.toInt)
    (now : BitVec 64) :
    ∃ batch q', q.get maxAddressCount now = some (batch, q') ∧ q.queue = batch ++ q'.queue ∧
      (Longest maxAddressCount.toInt q.queue batch ↔ ∀ t, stopTotal maxAddressCount.toInt q.queue = some t → t < 2 ^ 31) ∧
      (total batch < 2 ^ 31 → ∀ (n : Node) (place : Nat → Ptr) (table : Enclave.PendingRequests.St) before r after futures b,
        batch.map (·.request) = before ++ r :: after →
        n.addAll place (Node.newBatch table (Node.batchSize (batch.map (·.request)))) 0 before = (none, futures, b) →
        Node.HasRoom b r) := by
  cases hget : q.get maxAddressCount now with
  | none => exact absurd (PendingRequestQueue.get_eq_none hget) hne
  | some r =>
    obtain ⟨batch, q'⟩ := r
    have hcut : q.queue = batch ++ q'.queue := (PendingRequestQueue.get_spec hget).1
    have hbatch : ∀ p ∈ batch, 1 ≤ p.getAddressCount.toInt := fun p hp => hpos p (by
      rw [hcut]; exact List.mem_append_left _ hp)
    refine ⟨batch, q', rfl, hcut, ?_, ?_⟩
    · unfold PendingRequestQueue.get at hget
      split at hget
      · cases hget
      rename_i first rest hq
      have hfirst : batch = first :: (PendingRequestQueue.getLoop maxAddressCount first.getAddressCount
          (q.addressCount - first.getAddressCount) rest).1 := (Prod.mk.inj (Option.some.inj hget)).1.symm
      rw [hq] at hpos ⊢
      rw [stopTotal, ← getLoop_eq_following_iff hmax rest (fun p hp => hpos p (List.mem_cons_of_mem _ hp))
        first.getAddressCount (q.addressCount - first.getAddressCount) (hpos first List.mem_cons_self), hfirst]
      constructor
      · intro hlong
        exact (List.cons.inj (hlong.unique (longest_following first rest))).2
      · intro heq
        rw [heq]
        exact longest_following first rest
    · intro hsmall n place table before r after futures b hsplit hadd
      have hdeclared := declared_eq_total hbatch
      have hr : r ∈ batch.map (·.request) := by
        rw [hsplit]
        exact List.mem_append_right _ List.mem_cons_self
      obtain ⟨p, hp, rfl⟩ := List.mem_map.mp hr
      have hone : 1 ≤ p.request.addressCount.toNat := by
        have := hbatch p hp
        have hcond := BitVec.toInt_eq_toNat_cond p.getAddressCount
        show 1 ≤ p.getAddressCount.toNat
        split at hcond <;> omega
      exact Node.batch_hasRoom hsplit hone (by omega) hadd

/-- Of requests of 2, 3 and 4 addresses, with a bound of 5, the first two are taken. -/
theorem get_longest_two_of_three :
    let queue : List PendingRequest := [⟨sizedRequest 2, 0⟩, ⟨sizedRequest 3, 1⟩, ⟨sizedRequest 4, 2⟩]
    let q : PendingRequestQueue Unit := ⟨(), queue, 9, 1⟩
    ∃ batch q', q.get 5 7 = some (batch, q') ∧ queue = batch ++ q'.queue ∧ Longest 5 queue batch ∧ batch.length = 2 := by
  intro queue q
  obtain ⟨batch, q', hget, hcut, hlong, -⟩ := get_longest q (List.cons_ne_nil _ _) (by
    intro p hp
    fin_cases hp <;> decide) 5 (by decide) 7
  refine ⟨batch, q', hget, hcut, hlong.mpr fun t ht => ?_, ?_⟩
  · cases ht
    decide
  · have hlen : (q.get 5 7).map (·.1.length) = some 2 := rfl
    rw [hget] at hlen
    exact Option.some.inj hlen

/-- A request for `2 ^ 31 - 1` addresses and one for one more, with a bound of one: the total is
    negative as an `int`, and both are taken. -/
theorem get_overflows :
    let queue : List PendingRequest := [⟨sizedRequest 0x7fffffff, 0⟩, ⟨sizedRequest 1, 1⟩]
    let q : PendingRequestQueue Unit := ((PendingRequestQueue.new ()).put 1 ⟨sizedRequest 0x7fffffff, 0⟩).put 1 ⟨sizedRequest 1, 1⟩
    q.queue = queue ∧ (q.get 1 7).map (·.1) = some queue ∧ ¬Longest 1 queue queue := by
  refine ⟨rfl, rfl, fun h => ?_⟩
  exact absurd (h.1.within _ (List.prefix_refl _) (by decide)) (by decide)

/-! ## (2) The choice of the queue -/

/-- A reduction that keeps the larger of two, the second of equals, gives a largest element. -/
theorem reduce_largest {α : Type} (key : α → Int) {f : α → α → α} (hf : ∀ a b, f a b = if key b < key a then a else b)
    {l : List α} {a : α} (h : reduce f l = some a) : a ∈ l ∧ ∀ b ∈ l, key b ≤ key a := by
  have hpick : ∀ a b, (f a b = a ∨ f a b = b) ∧ key a ≤ key (f a b) ∧ key b ≤ key (f a b) := by
    intro a b
    rw [hf]
    split
    · rename_i hlt
      exact ⟨.inl rfl, le_rfl, hlt.le⟩
    · rename_i hge
      exact ⟨.inr rfl, not_lt.mp hge, le_rfl⟩
  have hfold : ∀ (l : List α) (a : α), ∀ b ∈ a :: l, key b ≤ key (l.foldl f a) := by
    intro l
    induction l with
    | nil =>
      intro a b hb
      rw [List.mem_singleton.mp hb]
      exact le_rfl
    | cons c l ih =>
      intro a b hb
      rw [List.foldl_cons]
      have hkeep := ih (f a c) (f a c) List.mem_cons_self
      rcases List.mem_cons.mp hb with rfl | hb
      · exact (hpick b c).2.1.trans hkeep
      · rcases List.mem_cons.mp hb with rfl | hb
        · exact (hpick a b).2.2.trans hkeep
        · exact ih (f a c) b (List.mem_cons_of_mem _ hb)
  refine ⟨reduce_mem (fun a b => (hpick a b).1) h, ?_⟩
  cases l with
  | nil => cases h
  | cons b l => cases h; exact hfold l b

theorem reduce_eq_none {α : Type} {f : α → α → α} {l : List α} (h : reduce f l = none) : l = [] := by
  cases l with
  | nil => rfl
  | cons a l => cases h

namespace PendingRequestQueueSet

variable {σ : Type} (s : PendingRequestQueueSet σ)

def elapsed (currentTime : BitVec 64) (enclaveId : String) : Int := ((s.queue enclaveId).getElapsedTimeMillis currentTime).toInt

def addresses (enclaveId : String) : Int := total (s.queue enclaveId).queue

def Overdue (currentTime : BitVec 64) (enclaveId : String) : Prop :=
  (s.queue enclaveId).queue ≠ [] ∧ s.maxWait.toInt < s.elapsed currentTime enclaveId

/-- The policy, for the queue that a batch is taken from. -/
structure TakenFrom (maxAddressCount : Int) (currentTime : BitVec 64) (enclaveId : String) : Prop where
  listed : enclaveId ∈ s.enclaveIds
  waiting : (s.queue enclaveId).queue ≠ []
  overdue : (∃ e ∈ s.enclaveIds, s.Overdue currentTime e) → s.Overdue currentTime enclaveId ∧
    ∀ e ∈ s.enclaveIds, (s.queue e).queue ≠ [] → s.elapsed currentTime e ≤ s.elapsed currentTime enclaveId
  ready : (¬∃ e ∈ s.enclaveIds, s.Overdue currentTime e) → (∃ e ∈ s.enclaveIds, maxAddressCount ≤ s.addresses e) →
    maxAddressCount ≤ s.addresses enclaveId
  largest : (¬∃ e ∈ s.enclaveIds, s.Overdue currentTime e) → (¬∃ e ∈ s.enclaveIds, maxAddressCount ≤ s.addresses e) →
    ∀ e ∈ s.enclaveIds, s.addresses e ≤ s.addresses enclaveId

variable {s} {order : List String} {currentTime : BitVec 64} {maxAddressCount : BitVec 32}

theorem not_isEmpty_iff {q : PendingRequestQueue σ} (h : q.Counted) : (!q.isEmpty) = true ↔ q.queue ≠ [] := by
  constructor
  · intro hne
    exact h.nonempty (PendingRequestQueue.one_le_of_not_isEmpty hne)
  · intro hne
    have hpos : 1 ≤ total q.queue := by
      obtain ⟨p, rest, hq⟩ := List.exists_cons_of_ne_nil hne
      have hp := h.positive p (by rw [hq]; exact List.mem_cons_self)
      have hrest := total_nonneg fun p' hp' => h.positive p' (by rw [hq]; exact List.mem_cons_of_mem _ hp')
      rw [hq, total_cons]
      omega
    rw [PendingRequestQueue.isEmpty, BitVec.sle, h.count, Bool.not_eq_true', decide_eq_false_iff_not]
    show ¬total q.queue ≤ 0
    omega

/-- The first choice: of the overdue queues one left alone longest, and none only if there are none. -/
theorem oldestQueue_spec (hcounted : ∀ e ∈ order, (s.queue e).Counted) :
    (∀ e, s.oldestQueue order currentTime = some e → e ∈ order ∧ s.Overdue currentTime e ∧
      ∀ e' ∈ order, s.Overdue currentTime e' → s.elapsed currentTime e' ≤ s.elapsed currentTime e) ∧
    (s.oldestQueue order currentTime = none → ∀ e ∈ order, ¬s.Overdue currentTime e) := by
  have hmem : ∀ e, e ∈ ((order.filter fun e => !(s.queue e).isEmpty).filter fun e =>
      s.maxWait.slt ((s.queue e).getElapsedTimeMillis currentTime)) ↔ e ∈ order ∧ s.Overdue currentTime e := by
    intro e
    rw [List.mem_filter, List.mem_filter, BitVec.slt, decide_eq_true_iff, and_assoc]
    refine and_congr_right fun he => ?_
    rw [not_isEmpty_iff (hcounted e he)]
    exact Iff.rfl
  unfold oldestQueue
  simp only
  constructor
  · intro e he
    obtain ⟨hin, hmax⟩ := reduce_largest (s.elapsed currentTime) (fun a b => if_congr decide_eq_true_iff rfl rfl) he
    obtain ⟨heo, hov⟩ := (hmem e).mp hin
    exact ⟨heo, hov, fun e' he' hov' => hmax e' ((hmem e').mpr ⟨he', hov'⟩)⟩
  · intro hnone e he hov
    have := (hmem e).mpr ⟨he, hov⟩
    rw [reduce_eq_none hnone] at this
    cases this

theorem batchSizeReadyQueue_spec (hcounted : ∀ e ∈ order, (s.queue e).Counted) :
    (∀ e, s.batchSizeReadyQueue order maxAddressCount = some e → e ∈ order ∧ maxAddressCount.toInt ≤ s.addresses e) ∧
    (s.batchSizeReadyQueue order maxAddressCount = none → ∀ e ∈ order, ¬maxAddressCount.toInt ≤ s.addresses e) := by
  have hready : ∀ e ∈ order, (maxAddressCount.sle (s.queue e).getPendingAddresses = true ↔
      maxAddressCount.toInt ≤ s.addresses e) := by
    intro e he
    rw [BitVec.sle, decide_eq_true_iff, PendingRequestQueue.getPendingAddresses, (hcounted e he).count]
    exact Iff.rfl
  unfold batchSizeReadyQueue
  constructor
  · intro e he
    have hin := List.mem_of_find?_eq_some he
    have hsle := List.find?_some he
    exact ⟨hin, (hready e hin).mp hsle⟩
  · intro hnone e he hle
    exact List.find?_eq_none.mp hnone e he ((hready e he).mpr hle)

theorem largestQueue_spec (hcounted : ∀ e ∈ order, (s.queue e).Counted) :
    (∀ e, s.largestQueue order = some e → e ∈ order ∧ (s.queue e).queue ≠ [] ∧ ∀ e' ∈ order, s.addresses e' ≤ s.addresses e) ∧
    (s.largestQueue order = none → ∀ e ∈ order, (s.queue e).queue = []) := by
  have hmem : ∀ e, e ∈ (order.filter fun e => !(s.queue e).isEmpty) ↔ e ∈ order ∧ (s.queue e).queue ≠ [] := by
    intro e
    rw [List.mem_filter]
    exact and_congr_right fun he => not_isEmpty_iff (hcounted e he)
  have hcount : ∀ e ∈ order, (s.queue e).getPendingAddresses.toInt = s.addresses e := fun e he => (hcounted e he).count
  unfold largestQueue
  simp only
  constructor
  · intro e he
    obtain ⟨hin, hmax⟩ := reduce_largest (fun e => (s.queue e).getPendingAddresses.toInt)
      (fun a b => if_congr decide_eq_true_iff rfl rfl) he
    obtain ⟨heo, hne⟩ := (hmem e).mp hin
    refine ⟨heo, hne, fun e' he' => ?_⟩
    by_cases hempty : (s.queue e').queue = []
    · -- an empty queue has no addresses
      have hnonneg := total_nonneg (hcounted e heo).positive
      show total (s.queue e').queue ≤ total (s.queue e).queue
      rw [hempty, total_nil]
      exact hnonneg
    · have := hmax e' ((hmem e').mpr ⟨he', hempty⟩)
      rwa [hcount e' he', hcount e heo] at this
  · intro hnone e he
    by_contra hne
    have := (hmem e).mpr ⟨he, hne⟩
    rw [reduce_eq_none hnone] at this
    cases this

/-- One of the three finds a queue, and it is one that the policy names. -/
theorem chosenQueue_takenFrom (horder : order.Perm s.enclaveIds) (hcounted : ∀ e ∈ s.enclaveIds, (s.queue e).Counted)
    (hmax : 1 ≤ maxAddressCount.toInt) (hwork : ∃ e ∈ s.enclaveIds, (s.queue e).queue ≠ []) :
    ∃ e, s.chosenQueue order maxAddressCount currentTime = some e ∧ s.TakenFrom maxAddressCount.toInt currentTime e := by
  have hin : ∀ e, e ∈ order ↔ e ∈ s.enclaveIds := fun e => horder.mem_iff
  have hco : ∀ e ∈ order, (s.queue e).Counted := fun e he => hcounted e ((hin e).mp he)
  obtain ⟨hold, holdNone⟩ := @oldestQueue_spec σ s order currentTime hco
  obtain ⟨hready, hreadyNone⟩ := @batchSizeReadyQueue_spec σ s order maxAddressCount hco
  obtain ⟨hlarge, hlargeNone⟩ := largestQueue_spec hco
  unfold chosenQueue
  cases ho : s.oldestQueue order currentTime with
  | some e =>
    obtain ⟨he, hov, hlongest⟩ := hold e ho
    refine ⟨e, rfl, (hin e).mp he, hov.1, fun _ => ⟨hov, fun e' he' hne' => ?_⟩, fun hno => ?_, fun hno => ?_⟩
    · -- a queue that is not overdue was left alone for a shorter time
      by_cases hov' : s.Overdue currentTime e'
      · exact hlongest e' ((hin e').mpr he') hov'
      · have := not_and.mp hov' hne'
        have := hov.2
        omega
    · exact absurd ⟨e, (hin e).mp he, hov⟩ hno
    · exact absurd ⟨e, (hin e).mp he, hov⟩ hno
  | none =>
    have hnone : ¬∃ e ∈ s.enclaveIds, s.Overdue currentTime e := by
      rintro ⟨e, he, hov⟩
      exact holdNone ho e ((hin e).mpr he) hov
    cases hr : s.batchSizeReadyQueue order maxAddressCount with
    | some e =>
      obtain ⟨he, hle⟩ := hready e hr
      refine ⟨e, rfl, (hin e).mp he, ?_, fun hov => absurd hov hnone, fun _ _ => hle, fun _ hno => ?_⟩
      · intro hempty
        have hzero : s.addresses e = 0 := by rw [addresses, hempty, total_nil]
        omega
      · exact absurd ⟨e, (hin e).mp he, hle⟩ hno
    | none =>
      have hnoReady : ¬∃ e ∈ s.enclaveIds, maxAddressCount.toInt ≤ s.addresses e := by
        rintro ⟨e, he, hle⟩
        exact hreadyNone hr e ((hin e).mpr he) hle
      cases hl : s.largestQueue order with
      | some e =>
        obtain ⟨he, hne, hmost⟩ := hlarge e hl
        exact ⟨e, rfl, (hin e).mp he, hne, fun hov => absurd hov hnone, fun _ hyes => absurd hyes hnoReady,
          fun _ _ e' he' => hmost e' ((hin e').mpr he')⟩
      | none =>
        obtain ⟨e, he, hne⟩ := hwork
        exact absurd (hlargeNone hl e ((hin e).mpr he)) hne

/-- Over queues whose counts are those of their requests, one of which has a request, a `get` takes a
    batch, in whatever order it looks at them, from the front of a queue that the policy names; the
    others are left as they are. -/
theorem get_takes_from (s : PendingRequestQueueSet σ) (order : List String) (horder : order.Perm s.enclaveIds)
    (hcounted : ∀ e ∈ s.enclaveIds, (s.queue e).Counted) (maxAddressCount : BitVec 32) (hmax : 1 ≤ maxAddressCount.toInt)
    (currentTime now : BitVec 64) (hwork : ∃ e ∈ s.enclaveIds, (s.queue e).queue ≠ []) :
    ∃ result s', s.get order maxAddressCount currentTime now = some (some (result, s')) ∧
      s.TakenFrom maxAddressCount.toInt currentTime result.enclaveId ∧ result.requests ≠ [] ∧
      (s.queue result.enclaveId).queue = result.requests ++ (s'.queue result.enclaveId).queue ∧
      ∀ e, e ≠ result.enclaveId → s'.queue e = s.queue e := by
  obtain ⟨e, hchosen, htaken⟩ := @chosenQueue_takenFrom σ s order currentTime maxAddressCount horder hcounted hmax hwork
  cases hget : (s.queue e).get maxAddressCount now with
  | none => exact absurd (PendingRequestQueue.get_eq_none hget) htaken.waiting
  | some r =>
    refine ⟨⟨e, (s.queue e).enclave, r.1⟩, s.setQueue e r.2, ?_, htaken, ?_, ?_, ?_⟩
    · unfold get
      rw [hchosen, Option.map_some, hget, Option.map_some]
    · unfold PendingRequestQueue.get at hget
      split at hget
      · cases hget
      · cases hget
        exact List.cons_ne_nil _ _
    · simp only [setQueue, Function.update_self]
      exact (PendingRequestQueue.get_spec hget).1
    · intro e' he'
      exact Function.update_of_ne he' _ _

/-- Two queues, both overdue at 20 milliseconds with a `maxWait` of 10; the batch is of the one put
    first, though the other has more addresses and comes first in the order. -/
theorem get_takes_from_oldest :
    let a := (PendingRequestQueue.new ()).put 1 ⟨sizedRequest 3, 0⟩
    let b := (PendingRequestQueue.new ()).put 5 ⟨sizedRequest 7, 1⟩
    let s : PendingRequestQueueSet Unit := ⟨["a", "b"], by decide, fun e => if e = "a" then a else b, 10⟩
    ∃ result s', s.get ["b", "a"] 5 20 20 = some (some (result, s')) ∧ s.TakenFrom 5 20 result.enclaveId ∧
      result.enclaveId = "a" := by
  intro a b s
  have hcounted : ∀ e ∈ s.enclaveIds, (s.queue e).Counted := by
    intro e he
    show (if e = "a" then a else b).Counted
    split
    · exact (PendingRequestQueue.new_counted ()).put (by decide) (by decide) 1
    · exact (PendingRequestQueue.new_counted ()).put (by decide) (by decide) 5
  obtain ⟨result, s', hget, htaken, -⟩ := get_takes_from s ["b", "a"] (List.Perm.swap "a" "b" []) hcounted 5 (by decide) 20 20
    ⟨"a", List.mem_cons_self, List.cons_ne_nil _ _⟩
  refine ⟨result, s', hget, htaken, ?_⟩
  have hid : (s.get ["b", "a"] 5 20 20).map (fun r => r.map (·.1.enclaveId)) = some (some "a") := by decide
  rw [hget] at hid
  exact Option.some.inj (Option.some.inj hid)

/-- A queue of a request for `2 ^ 31 - 1` addresses and one for one more has a negative count: a `get`
    takes it for empty, and waits. -/
theorem get_waits_on_overflow :
    let q := ((PendingRequestQueue.new ()).put 1 ⟨sizedRequest 0x7fffffff, 0⟩).put 1 ⟨sizedRequest 1, 1⟩
    let s : PendingRequestQueueSet Unit := ⟨["a"], by decide, fun _ => q, 10⟩
    (s.queue "a").queue.length = 2 ∧ (s.get ["a"] 5 20 20).isNone = true := by
  decide

end PendingRequestQueueSet

end Queues

end ContactDiscovery.Service
