/-
  ContactDiscovery.Service.PendingQueuesProofs — queued requests are neither lost, duplicated nor
  misrouted (`requests_accounted`).

  A queue's count is the sum over its requests, as long as this is an `int` and no request declares
  less than one address (`Counted`); so a queue that `isEmpty` calls non-empty has a request, and so
  has one that fills a batch of at least one address. The requests of an enclave leave its queue in
  the order they were put (`Fifo`): those that are gone were returned, or failed with a flush. What
  happens to one queue is said for the queue (`Lane`), and the others are as they were.
-/

import ContactDiscovery.Service.PendingQueues

namespace ContactDiscovery.Service.Queues

open Lib
open Lib.Futures (Completion)
open Client (DiscoveryRequest)

def total (l : List PendingRequest) : Int := (l.map fun p => p.getAddressCount.toInt).sum

@[simp] theorem total_nil : total [] = 0 := rfl

@[simp] theorem total_cons (p : PendingRequest) (l : List PendingRequest) :
    total (p :: l) = p.getAddressCount.toInt + total l := by
  simp [total]

@[simp] theorem total_append (l m : List PendingRequest) : total (l ++ m) = total l + total m := by
  simp [total]

theorem total_nonneg {l : List PendingRequest} (h : ∀ p ∈ l, 1 ≤ p.getAddressCount.toInt) : 0 ≤ total l := by
  induction l with
  | nil => exact Int.le_refl 0
  | cons p l ih =>
    have hp := h p List.mem_cons_self
    have hl := ih fun p' hp' => h p' (List.mem_cons_of_mem _ hp')
    rw [total_cons]
    omega

/-! ## A queue -/

namespace PendingRequestQueue

variable {σ : Type} {q : PendingRequestQueue σ}

structure Counted (q : PendingRequestQueue σ) : Prop where
  positive : ∀ p ∈ q.queue, 1 ≤ p.getAddressCount.toInt
  count : q.addressCount.toInt = total q.queue

theorem new_counted (enclave : σ) : (new enclave).Counted := ⟨fun _ hp => absurd hp List.not_mem_nil, rfl⟩

theorem Counted.put (h : q.Counted) {p : PendingRequest} (hp : 1 ≤ p.getAddressCount.toInt)
    (hsmall : total q.queue + p.getAddressCount.toInt < 2 ^ 31) (now : BitVec 64) : (q.put now p).Counted := by
  refine ⟨fun p' hp' => ?_, ?_⟩
  · rcases List.mem_append.mp hp' with hp' | hp'
    · exact h.positive p' hp'
    · rw [List.mem_singleton.mp hp']; exact hp
  · have hnonneg := total_nonneg h.positive
    simp only [PendingRequestQueue.put, total_append, total_cons, total_nil, BitVec.toInt_add, h.count]
    rw [Int.bmod_eq_of_le (by omega) (by omega)]
    omega

/-- The loop cuts the list, and counts what it leaves. -/
theorem getLoop_spec (maxAddressCount : BitVec 32) (l : List PendingRequest) (result count : BitVec 32) :
    (getLoop maxAddressCount result count l).1 ++ (getLoop maxAddressCount result count l).2.1 = l ∧
      ((∀ p ∈ l, 1 ≤ p.getAddressCount.toInt) → count.toInt = total l →
        (getLoop maxAddressCount result count l).2.2.toInt = total (getLoop maxAddressCount result count l).2.1) := by
  induction l generalizing result count with
  | nil => exact ⟨rfl, fun _ h => h⟩
  | cons p rest ih =>
    simp only [getLoop]
    split
    · obtain ⟨hcut, hcount⟩ := ih (result + p.getAddressCount) (count - p.getAddressCount)
      refine ⟨by rw [List.cons_append, hcut], fun hpos hall => hcount (fun p' hp' => hpos p' (List.mem_cons_of_mem _ hp')) ?_⟩
      have hrest := total_nonneg fun p' hp' => hpos p' (List.mem_cons_of_mem _ hp')
      rw [total_cons] at hall
      rw [toInt_sub_of_le (hpos p List.mem_cons_self) (by omega)]
      omega
    · exact ⟨rfl, fun _ h => h⟩

theorem get_spec {maxAddressCount : BitVec 32} {now : BitVec 64} {r : List PendingRequest × PendingRequestQueue σ}
    (h : q.get maxAddressCount now = some r) :
    q.queue = r.1 ++ r.2.queue ∧ r.2.enclave = q.enclave ∧ (q.Counted → r.2.Counted) := by
  unfold PendingRequestQueue.get at h
  split at h
  · cases h
  · rename_i first rest hq
    cases h
    obtain ⟨hcut, hcount⟩ := getLoop_spec maxAddressCount rest first.getAddressCount (q.addressCount - first.getAddressCount)
    refine ⟨by rw [hq, List.cons_append, hcut], rfl, fun hcounted => ?_⟩
    have hpos := hcounted.positive
    rw [hq] at hpos
    have hrestPos : ∀ p ∈ rest, 1 ≤ p.getAddressCount.toInt := fun p hp => hpos p (List.mem_cons_of_mem _ hp)
    have hrest := total_nonneg hrestPos
    have hall := hcounted.count
    rw [hq, total_cons] at hall
    refine ⟨fun p hp => hrestPos p (by rw [← hcut]; exact List.mem_append_right _ hp), hcount hrestPos ?_⟩
    rw [toInt_sub_of_le (hpos first List.mem_cons_self) (by omega)]
    omega

theorem get_eq_none {maxAddressCount : BitVec 32} {now : BitVec 64} (h : q.get maxAddressCount now = none) : q.queue = [] := by
  unfold PendingRequestQueue.get at h
  split at h
  · assumption
  · cases h

theorem Counted.nonempty (h : q.Counted) (hpos : 1 ≤ q.addressCount.toInt) : q.queue ≠ [] := by
  intro hq
  rw [h.count, hq, total_nil] at hpos
  omega

theorem one_le_of_not_isEmpty (h : (!q.isEmpty) = true) : 1 ≤ q.addressCount.toInt := by
  rw [Bool.not_eq_true', isEmpty, BitVec.sle, decide_eq_false_iff_not] at h
  exact Int.not_le.mp h

theorem flush_counted : q.flush.2.Counted := ⟨fun _ hp => absurd hp List.not_mem_nil, rfl⟩

end PendingRequestQueue

/-! ## The choice of a queue -/

theorem reduce_mem {α : Type} {f : α → α → α} (hf : ∀ a b, f a b = a ∨ f a b = b) :
    ∀ {l : List α} {a : α}, reduce f l = some a → a ∈ l := by
  have hfold : ∀ (l : List α) (a : α), l.foldl f a ∈ a :: l := by
    intro l
    induction l with
    | nil => intro a; exact List.mem_singleton.mpr rfl
    | cons b l ih =>
      intro a
      rcases hf a b with h | h
      · rw [List.foldl_cons, h]
        rcases List.mem_cons.mp (ih a) with h' | h'
        · rw [h']; exact List.mem_cons_self
        · exact List.mem_cons_of_mem _ (List.mem_cons_of_mem _ h')
      · rw [List.foldl_cons, h]
        exact List.mem_cons_of_mem _ (ih b)
  intro l a h
  cases l with
  | nil => cases h
  | cons b l => cases h; exact hfold l b

namespace PendingRequestQueueSet

variable {σ : Type} {s : PendingRequestQueueSet σ}

/-- A queue that is chosen counts an address at least. -/
theorem chosenQueue_spec {order : List String} {maxAddressCount : BitVec 32} (hmax : 1 ≤ maxAddressCount.toInt)
    {currentTime : BitVec 64} {e : String} (h : s.chosenQueue order maxAddressCount currentTime = some e) :
    e ∈ order ∧ 1 ≤ (s.queue e).addressCount.toInt := by
  have hpick : ∀ (c : Prop) [Decidable c] (a b : String), (if c then a else b) = a ∨ (if c then a else b) = b := by
    intro c _ a b
    by_cases hc : c
    · exact .inl (if_pos hc)
    · exact .inr (if_neg hc)
  rw [chosenQueue, Option.or_eq_some_iff, Option.or_eq_some_iff] at h
  rcases h with h | ⟨-, h | ⟨-, h⟩⟩
  · have hmem := reduce_mem (fun a b => hpick _ a b) h
    obtain ⟨hmem, hne⟩ := List.mem_filter.mp (List.mem_of_mem_filter hmem)
    exact ⟨hmem, PendingRequestQueue.one_le_of_not_isEmpty hne⟩
  · have hle := List.find?_some h
    rw [BitVec.sle, decide_eq_true_eq] at hle
    exact ⟨List.mem_of_find?_eq_some h, Int.le_trans hmax hle⟩
  · obtain ⟨hmem, hne⟩ := List.mem_filter.mp (reduce_mem (fun a b => hpick _ a b) h)
    exact ⟨hmem, PendingRequestQueue.one_le_of_not_isEmpty hne⟩

end PendingRequestQueueSet

/-! ## Responses -/

theorem getElem?_completeAll (c : Completion Discovery.Failure Discovery.DiscoveryResponse) (is : List Nat) (rs : Responses)
    (j : Nat) :
    (is.foldl (Responses.complete · c) rs)[j]? = if j ∈ is then rs[j]?.map (·.complete c) else rs[j]? := by
  induction is generalizing rs with
  | nil => simp
  | cons i is ih =>
    rw [List.foldl_cons, ih, Responses.complete, List.getElem?_modify]
    by_cases hji : j = i
    · subst hji
      simp only [if_pos, List.mem_cons_self]
      split
      · cases rs[j]? with
        | none => rfl
        | some f => cases f <;> rfl
      · rfl
    · simp only [if_neg (Ne.symm hji), List.mem_cons, hji, false_or, id_map']

/-! ## The requests of one enclave -/

section Lane

variable {σ : Type} {enclave : σ} {q : PendingRequestQueue σ} {puts returned : List PendingRequest} {rs : Responses}

/-- Requests leave in the order they came: what is `gone` was returned, or failed with a flush. -/
structure Fifo (puts returned queue gone : List PendingRequest) (rs : Responses) : Prop where
  cut : puts = gone ++ queue
  inOrder : returned.Sublist gone
  ways : ∀ p ∈ gone, p ∈ returned ∨ rs[p.response]? = some (some flushed)

/-- An enclave's queue, with the requests that were put for it and those that were returned. -/
structure Lane (enclave : σ) (q : PendingRequestQueue σ) (puts returned : List PendingRequest) (rs : Responses) : Prop where
  serves : q.enclave = enclave
  counted : q.Counted
  fifo : ∃ gone, Fifo puts returned q.queue gone rs
  waiting : ∀ p ∈ q.queue, rs[p.response]? = some none
  unanswered : ∀ p ∈ returned, rs[p.response]? = some none

namespace Lane

theorem queued_put (h : Lane enclave q puts returned rs) {p : PendingRequest} (hp : p ∈ q.queue) : p ∈ puts := by
  obtain ⟨gone, hfifo⟩ := h.fifo
  rw [hfifo.cut]
  exact List.mem_append_right _ hp

theorem returned_sublist (h : Lane enclave q puts returned rs) : returned.Sublist puts := by
  obtain ⟨gone, hfifo⟩ := h.fifo
  rw [hfifo.cut]
  exact hfifo.inOrder.trans (List.sublist_append_left gone q.queue)

theorem not_returned (h : Lane enclave q puts returned rs) (hputs : puts.Nodup) {p : PendingRequest} (hp : p ∈ q.queue) :
    p ∉ returned := by
  obtain ⟨gone, hfifo⟩ := h.fifo
  rw [hfifo.cut] at hputs
  exact fun hr => List.disjoint_of_nodup_append hputs (hfifo.inOrder.subset hr) hp

theorem frame (h : Lane enclave q puts returned rs) {rs' : Responses}
    (hrs : ∀ p ∈ puts, rs'[p.response]? = rs[p.response]?) : Lane enclave q puts returned rs' := by
  refine ⟨h.serves, h.counted, ?_, fun p hp => ?_, fun p hp => ?_⟩
  · obtain ⟨gone, hfifo⟩ := h.fifo
    refine ⟨gone, hfifo.cut, hfifo.inOrder, fun p hp => ?_⟩
    rw [hrs p (by rw [hfifo.cut]; exact List.mem_append_left _ hp)]
    exact hfifo.ways p hp
  · rw [hrs p (h.queued_put hp)]
    exact h.waiting p hp
  · rw [hrs p (h.returned_sublist.subset hp)]
    exact h.unanswered p hp

theorem put (h : Lane enclave q puts returned rs) {p : PendingRequest} (hresponse : rs[p.response]? = some none)
    (hpos : 1 ≤ p.getAddressCount.toInt) (hsmall : total q.queue + p.getAddressCount.toInt < 2 ^ 31) (now : BitVec 64) :
    Lane enclave (q.put now p) (puts ++ [p]) returned rs := by
  refine ⟨h.serves, h.counted.put hpos hsmall now, ?_, fun p' hp' => ?_, h.unanswered⟩
  · obtain ⟨gone, hfifo⟩ := h.fifo
    exact ⟨gone, by rw [hfifo.cut, List.append_assoc]; rfl, hfifo.inOrder, hfifo.ways⟩
  · rcases List.mem_append.mp hp' with hp' | hp'
    · exact h.waiting p' hp'
    · rw [List.mem_singleton.mp hp']
      exact hresponse

theorem take (h : Lane enclave q puts returned rs) {maxAddressCount : BitVec 32} {now : BitVec 64}
    {r : List PendingRequest × PendingRequestQueue σ} (hr : q.get maxAddressCount now = some r) :
    Lane enclave r.2 puts (returned ++ r.1) rs := by
  obtain ⟨hqueue, henclave, hcounted⟩ := PendingRequestQueue.get_spec hr
  have hwaiting := h.waiting
  rw [hqueue] at hwaiting
  refine ⟨henclave.trans h.serves, hcounted h.counted, ?_, fun p hp => hwaiting p (List.mem_append_right _ hp), fun p hp => ?_⟩
  · obtain ⟨gone, hfifo⟩ := h.fifo
    refine ⟨gone ++ r.1, by rw [hfifo.cut, hqueue, List.append_assoc], hfifo.inOrder.append (List.Sublist.refl r.1),
      fun p hp => ?_⟩
    rcases List.mem_append.mp hp with hp | hp
    · exact (hfifo.ways p hp).imp_left (List.mem_append_left r.1)
    · exact .inl (List.mem_append_right returned hp)
  · rcases List.mem_append.mp hp with hp | hp
    · exact h.unanswered p hp
    · exact hwaiting p (List.mem_append_left _ hp)

theorem flush (h : Lane enclave q puts returned rs) (hputs : puts.Nodup) {rs' : Responses}
    (hfailed : ∀ p ∈ q.queue, rs'[p.response]? = some (some flushed))
    (hrs : ∀ p ∈ puts, p ∉ q.queue → rs'[p.response]? = rs[p.response]?) :
    Lane enclave q.flush.2 puts returned rs' := by
  have hreturned : ∀ p ∈ returned, rs'[p.response]? = some none := by
    intro p hp
    rw [hrs p (h.returned_sublist.subset hp) fun hq => h.not_returned hputs hq hp]
    exact h.unanswered p hp
  refine ⟨h.serves, PendingRequestQueue.flush_counted, ?_, fun _ hp => absurd hp List.not_mem_nil, hreturned⟩
  obtain ⟨gone, hfifo⟩ := h.fifo
  refine ⟨puts, (List.append_nil puts).symm, h.returned_sublist, fun p hp => ?_⟩
  by_cases hq : p ∈ q.queue
  · exact .inr (hfailed p hq)
  · have hgone : p ∈ gone := by
      rw [hfifo.cut] at hp
      exact (List.mem_append.mp hp).resolve_right hq
    rw [hrs p hp hq]
    exact hfifo.ways p hgone

end Lane

end Lane

/-! ## Runs -/

section Runs

variable {σ : Type}

def putsOf (s : St σ) (e : String) : List PendingRequest := (s.puts.filter fun x => x.1 = e).map (·.2)

def returnedTo (s : St σ) (e : String) : List PendingRequest := (s.gets.filter fun r => r.enclaveId = e).flatMap (·.requests)

structure Inv (enclave : String → σ) (s : St σ) : Prop where
  distinct : (s.puts.map (·.2.response)).Nodup
  made : ∀ x ∈ s.puts, x.2.response < s.responses.length
  known : ∀ x ∈ s.puts, x.1 ∈ s.set.enclaveIds
  lanes : ∀ e, Lane (enclave e) (s.set.queue e) (putsOf s e) (returnedTo s e) s.responses
  routed : ∀ r ∈ s.gets, r.enclave = enclave r.enclaveId
  free : s.blocked = false

variable {enclave : String → σ} {s : St σ}

theorem mem_putsOf {e : String} {p : PendingRequest} : p ∈ putsOf s e ↔ (e, p) ∈ s.puts := by
  simp [putsOf]

theorem initial_inv (enclaveIds : List String) (hn : enclaveIds.Nodup) (enclave : String → σ) (maxWait : BitVec 64) :
    Inv enclave (initial enclaveIds hn enclave maxWait) where
  distinct := List.nodup_nil
  made := fun _ hx => absurd hx List.not_mem_nil
  known := fun _ hx => absurd hx List.not_mem_nil
  lanes := fun e => ⟨rfl, PendingRequestQueue.new_counted (enclave e),
    ⟨[], rfl, List.Sublist.refl _, fun _ hp => absurd hp List.not_mem_nil⟩,
    fun _ hp => absurd hp List.not_mem_nil, fun _ hp => absurd hp List.not_mem_nil⟩
  routed := fun _ hr => absurd hr List.not_mem_nil
  free := rfl

namespace Inv

theorem eq_of_response (h : Inv enclave s) {x y : String × PendingRequest} (hx : x ∈ s.puts) (hy : y ∈ s.puts)
    (hxy : x.2.response = y.2.response) : x = y :=
  List.inj_on_of_nodup_map h.distinct hx hy hxy

theorem nodup_putsOf (h : Inv enclave s) (e : String) : (putsOf s e).Nodup := by
  have hsub : ((putsOf s e).map (·.response)).Sublist (s.puts.map (·.2.response)) := by
    rw [putsOf, List.map_map]
    exact List.Sublist.map _ List.filter_sublist
  exact List.Nodup.of_map _ (hsub.nodup h.distinct)

/-- A response that is in no queue is not flushed. -/
theorem response_not_flushed (h : Inv enclave s) {e : String} {p : PendingRequest} (hput : (e, p) ∈ s.puts)
    (hp : p ∉ (s.set.queue e).queue) : p.response ∉ s.set.flushQueues.1.2 := by
  intro hmem
  obtain ⟨e', -, hmem⟩ := List.mem_flatMap.mp hmem
  obtain ⟨p', hp', heq⟩ := List.mem_map.mp hmem
  cases h.eq_of_response hput (mem_putsOf.mp ((h.lanes e').queued_put hp')) heq.symm
  exact hp hp'

theorem alloc (h : Inv enclave s) : Inv enclave { s with responses := s.responses ++ [none] } where
  distinct := h.distinct
  made := fun x hx => by
    rw [List.length_append]
    exact Nat.lt_add_right _ (h.made x hx)
  known := h.known
  lanes := fun e => (h.lanes e).frame fun p hp => List.getElem?_append_left (h.made _ (mem_putsOf.mp hp))
  routed := h.routed
  free := h.free

theorem put (h : Inv enclave s) {p : PendingRequest} (hnew : ∀ x ∈ s.puts, x.2.response ≠ p.response)
    (hresponse : s.responses[p.response]? = some none) {e : String} (he : e ∈ s.set.enclaveIds) (hpos : 1 ≤ p.getAddressCount.toInt)
    (hsmall : total (s.set.queue e).queue + p.getAddressCount.toInt < 2 ^ 31) (now : BitVec 64) :
    Inv enclave { s with
      set := s.set.setQueue e ((s.set.queue e).put now p)
      puts := s.puts ++ [(e, p)] } := by
  refine ⟨?_, ?_, ?_, fun e' => ?_, h.routed, h.free⟩
  · rw [List.map_append, List.map_singleton]
    refine List.Nodup.append h.distinct (List.nodup_singleton _) (List.disjoint_singleton.mpr fun hmem => ?_)
    obtain ⟨x, hx, heq⟩ := List.mem_map.mp hmem
    exact hnew x hx heq
  · intro x hx
    rcases List.mem_append.mp hx with hx | hx
    · exact h.made x hx
    · rw [List.mem_singleton.mp hx]
      exact (List.getElem?_eq_some_iff.mp hresponse).1
  · intro x hx
    rcases List.mem_append.mp hx with hx | hx
    · exact h.known x hx
    · rw [List.mem_singleton.mp hx]
      exact he
  · by_cases he : e' = e
    · subst he
      simpa [putsOf, returnedTo, PendingRequestQueueSet.setQueue] using (h.lanes e').put hresponse hpos hsmall now
    · simpa [putsOf, returnedTo, PendingRequestQueueSet.setQueue, he, Ne.symm he] using h.lanes e'

theorem take (h : Inv enclave s) {e : String} {maxAddressCount : BitVec 32} {now : BitVec 64}
    {r : List PendingRequest × PendingRequestQueue σ} (hr : (s.set.queue e).get maxAddressCount now = some r) :
    Inv enclave { s with
      set := s.set.setQueue e r.2
      gets := s.gets ++ [⟨e, (s.set.queue e).enclave, r.1⟩] } := by
  refine ⟨h.distinct, h.made, h.known, fun e' => ?_, fun r' hr' => ?_, h.free⟩
  · by_cases he : e' = e
    · subst he
      simpa [putsOf, returnedTo, PendingRequestQueueSet.setQueue] using (h.lanes e').take hr
    · simpa [putsOf, returnedTo, PendingRequestQueueSet.setQueue, he, Ne.symm he] using h.lanes e'
  · rcases List.mem_append.mp hr' with hr' | hr'
    · exact h.routed r' hr'
    · rw [List.mem_singleton.mp hr']
      exact (h.lanes e).serves

theorem flush (h : Inv enclave s) :
    Inv enclave { s with
      set := s.set.flushQueues.2
      responses := s.set.flushQueues.1.2.foldl (Responses.complete · flushed) s.responses } := by
  have hother : ∀ e, ∀ p ∈ putsOf s e, p ∉ (s.set.queue e).queue →
      (s.set.flushQueues.1.2.foldl (Responses.complete · flushed) s.responses)[p.response]? = s.responses[p.response]? := by
    intro e p hp hq
    rw [getElem?_completeAll, if_neg (h.response_not_flushed (mem_putsOf.mp hp) hq)]
  refine ⟨h.distinct, ?_, h.known, fun e => ?_, h.routed, h.free⟩
  · intro x hx
    have hlen : ∀ (is : List Nat) (rs : Responses), (is.foldl (Responses.complete · flushed) rs).length = rs.length := by
      intro is
      induction is with
      | nil => intro rs; rfl
      | cons i is ih => intro rs; rw [List.foldl_cons, ih, Responses.complete, List.length_modify]
    rw [hlen]
    exact h.made x hx
  · have hqueue : s.set.flushQueues.2.queue e = if e ∈ s.set.enclaveIds then (s.set.queue e).flush.2 else s.set.queue e := rfl
    change Lane _ (s.set.flushQueues.2.queue e) _ _ _
    rw [hqueue]
    by_cases he : e ∈ s.set.enclaveIds
    · rw [if_pos he]
      refine (h.lanes e).flush (h.nodup_putsOf e) (fun p hp => ?_) (hother e)
      have hmem : p.response ∈ s.set.flushQueues.1.2 :=
        List.mem_flatMap.mpr ⟨e, he, List.mem_map.mpr ⟨p, hp, rfl⟩⟩
      rw [getElem?_completeAll, if_pos hmem, (h.lanes e).waiting p hp]
      rfl
    · rw [if_neg he]
      exact (h.lanes e).frame fun p hp => absurd (h.known _ (mem_putsOf.mp hp)) he

end Inv

/-- Requests of one address at least, whose sum in their queue is an `int`, and batches that are not empty. -/
def Within (s : St σ) : Event → Prop
  | .put e request _ =>
    1 ≤ request.addressCount.toInt ∧ total (s.set.queue e).queue + request.addressCount.toInt < 2 ^ 31
  | .get _ maxAddressCount _ _ => 1 ≤ maxAddressCount.toInt
  | .flushQueues => True

instance (s : St σ) (e : Event) : Decidable (Within s e) :=
  match e with
  | .put .. => inferInstanceAs (Decidable (_ ∧ _))
  | .get .. => inferInstanceAs (Decidable (_ ≤ _))
  | .flushQueues => inferInstanceAs (Decidable True)

theorem step_inv {s' : St σ} {e : Event} (h : Inv enclave s) (hw : Within s e) (hs : step s e = some s') : Inv enclave s' := by
  unfold step at hs
  rw [if_neg (by rw [h.free]; exact Bool.false_ne_true)] at hs
  cases e with
  | put e request now =>
    simp only [PendingRequestQueueSet.put] at hs
    by_cases he : e ∈ s.set.enclaveIds
    · rw [if_pos he] at hs
      cases hs
      refine h.alloc.put (p := ⟨request, s.responses.length⟩) (fun x hx => Nat.ne_of_lt (h.made x hx)) ?_ he hw.1 hw.2 now
      exact List.getElem?_concat_length
    · rw [if_neg he] at hs
      cases hs
      exact h.alloc
  | get order maxAddressCount currentTime now =>
    simp only [PendingRequestQueueSet.get] at hs
    split at hs
    · cases hchosen : s.set.chosenQueue order maxAddressCount currentTime with
      | none =>
        rw [hchosen] at hs
        cases hs
        exact h
      | some e =>
        -- the queue has a request, so its `get` returns
        have hcount := (PendingRequestQueueSet.chosenQueue_spec hw hchosen).2
        cases hget : (s.set.queue e).get maxAddressCount now with
        | none => exact absurd (PendingRequestQueue.get_eq_none hget) ((h.lanes e).counted.nonempty hcount)
        | some r =>
          rw [hchosen] at hs
          simp only [hget, Option.map_some] at hs
          cases hs
          exact h.take hget
    · cases hs
  | flushQueues =>
    cases hs
    exact h.flush

/-! ## Every request is in one place -/

inductive Place where
  | queued
  | returned
  | flushed

/-- Where a request that was put for `e` can be. -/
def At (enclave : String → σ) (s : St σ) (e : String) (p : PendingRequest) : Place → Prop
  | .queued => p ∈ (s.set.queue e).queue
  | .returned => ∃ r ∈ s.gets, r.enclaveId = e ∧ r.enclave = enclave e ∧ p ∈ r.requests
  | .flushed => s.responses[p.response]? = some (some flushed)

structure Accounted (enclave : String → σ) (s : St σ) : Prop where
  distinct : (s.puts.map (·.2.response)).Nodup
  place : ∀ e p, (e, p) ∈ s.puts → ∃! place, At enclave s e p place
  once : (s.gets.flatMap (·.requests)).Nodup
  routed : ∀ r ∈ s.gets, r.enclave = enclave r.enclaveId ∧ ∀ p ∈ r.requests, (r.enclaveId, p) ∈ s.puts
  inOrder : ∀ e, (returnedTo s e).Sublist (putsOf s e)
  queued : ∀ e, (s.set.queue e).queue <:+ putsOf s e
  counted : ∀ e, (s.set.queue e).addressCount.toInt = total (s.set.queue e).queue
  free : s.blocked = false

theorem mem_returnedTo {e : String} {p : PendingRequest} :
    p ∈ returnedTo s e ↔ ∃ r ∈ s.gets, r.enclaveId = e ∧ p ∈ r.requests := by
  simp [returnedTo, and_assoc]

theorem Inv.at_returned (h : Inv enclave s) {e : String} {p : PendingRequest} :
    At enclave s e p .returned ↔ p ∈ returnedTo s e := by
  rw [mem_returnedTo]
  constructor
  · rintro ⟨r, hr, he, -, hp⟩
    exact ⟨r, hr, he, hp⟩
  · rintro ⟨r, hr, he, hp⟩
    exact ⟨r, hr, he, he ▸ h.routed r hr, hp⟩

theorem Inv.place (h : Inv enclave s) {e : String} {p : PendingRequest} (hput : (e, p) ∈ s.puts) :
    ∃! place, At enclave s e p place := by
  have hlane := h.lanes e
  have hqueued : p ∈ (s.set.queue e).queue → s.responses[p.response]? = some none := hlane.waiting p
  have hreturned : At enclave s e p .returned → p ∉ (s.set.queue e).queue ∧ s.responses[p.response]? = some none := by
    intro hr
    rw [h.at_returned] at hr
    exact ⟨fun hq => hlane.not_returned (h.nodup_putsOf e) hq hr, hlane.unanswered p hr⟩
  have hsome : ∃ place, At enclave s e p place := by
    obtain ⟨gone, hfifo⟩ := hlane.fifo
    have hp := mem_putsOf.mpr hput
    rw [hfifo.cut] at hp
    rcases List.mem_append.mp hp with hp | hp
    · rcases hfifo.ways p hp with hr | hf
      · exact ⟨.returned, h.at_returned.mpr hr⟩
      · exact ⟨.flushed, hf⟩
    · exact ⟨.queued, hp⟩
  obtain ⟨place, hplace⟩ := hsome
  refine ⟨place, hplace, fun place' hplace' => ?_⟩
  -- a response tells a flushed request from the others, and a returned one has left the queue
  cases place <;> cases place' <;> first
    | rfl
    | exact absurd hplace (hreturned hplace').1
    | exact absurd hplace' (hreturned hplace).1
    | (cases (hqueued hplace).symm.trans hplace')
    | (cases (hqueued hplace').symm.trans hplace)
    | (cases (hreturned hplace).2.symm.trans hplace')
    | (cases (hreturned hplace').2.symm.trans hplace)

theorem nodup_flatMap_of_keys {α β κ : Type} [DecidableEq κ] (key : α → κ) {f : α → List β} {l : List α}
    (hkey : ∀ k, ((l.filter fun a => key a = k).flatMap f).Nodup)
    (hapart : ∀ a ∈ l, ∀ b ∈ l, ∀ x ∈ f a, x ∈ f b → key a = key b) : (l.flatMap f).Nodup := by
  induction l with
  | nil => exact List.nodup_nil
  | cons a l ih =>
    have hhead := hkey (key a)
    simp only [List.filter_cons, decide_true, if_true, List.flatMap_cons] at hhead
    rw [List.flatMap_cons]
    refine List.Nodup.append (List.Nodup.of_append_left hhead) (ih (fun k => ?_) fun a ha b hb =>
      hapart a (List.mem_cons_of_mem _ ha) b (List.mem_cons_of_mem _ hb)) fun x hx hx' => ?_
    · have hk := hkey k
      rw [List.filter_cons] at hk
      split at hk
      · exact List.Nodup.of_append_right hk
      · exact hk
    · obtain ⟨b, hb, hxb⟩ := List.mem_flatMap.mp hx'
      have hab := hapart a List.mem_cons_self b (List.mem_cons_of_mem _ hb) x hx hxb
      refine List.disjoint_of_nodup_append hhead hx (List.mem_flatMap.mpr ⟨b, List.mem_filter.mpr ⟨hb, ?_⟩, hxb⟩)
      exact decide_eq_true hab.symm

theorem Inv.accounted (h : Inv enclave s) : Accounted enclave s := by
  have hput : ∀ r ∈ s.gets, ∀ p ∈ r.requests, (r.enclaveId, p) ∈ s.puts := by
    intro r hr p hp
    exact mem_putsOf.mp ((h.lanes r.enclaveId).returned_sublist.subset (mem_returnedTo.mpr ⟨r, hr, rfl, hp⟩))
  refine ⟨h.distinct, fun e p => h.place, ?_, fun r hr => ⟨h.routed r hr, hput r hr⟩,
    fun e => (h.lanes e).returned_sublist, fun e => ?_, fun e => (h.lanes e).counted.count, h.free⟩
  · refine nodup_flatMap_of_keys GetResult.enclaveId
      (fun e => (h.lanes e).returned_sublist.nodup (h.nodup_putsOf e)) fun r hr r' hr' p hp hp' => ?_
    exact congrArg Prod.fst (h.eq_of_response (hput r hr p hp) (hput r' hr' p hp') rfl)
  · obtain ⟨gone, hfifo⟩ := (h.lanes e).fifo
    exact ⟨gone, hfifo.cut.symm⟩

/-- Queued requests are neither lost, duplicated nor misrouted, and no worker blocks the others. -/
theorem requests_accounted (enclaveIds : List String) (hn : enclaveIds.Nodup) (enclave : String → σ) (maxWait : BitVec 64)
    (es : List Event) (hw : Runs.Meets step Within (initial enclaveIds hn enclave maxWait) es) :
    Runs.Always step (Accounted enclave) (initial enclaveIds hn enclave maxWait) es :=
  Runs.Always.mono (fun _ h => h.accounted) es _
    (Runs.always_of_inv (P := Inv enclave) (fun _ _ _ h hw hs => step_inv h hw hs) es _
      (initial_inv enclaveIds hn enclave maxWait) hw)

end Runs

def plainEvents : List Event :=
  [.put "a" (sizedRequest 2) 5, .put "b" (sizedRequest 1) 5, .put "c" (sizedRequest 1) 6, .put "a" (sizedRequest 3) 6,
    .get ["b", "a"] 4 7 7, .flushQueues, .get ["a", "b"] 4 8 8, .put "b" (sizedRequest 9) 9, .get ["a", "b"] 4 9 9]

theorem requests_accounted_two_enclaves :
    Runs.Meets step Within (initial ["a", "b"] (by decide) (fun e => e.length) 7000) plainEvents ∧
      Runs.Always step (Accounted fun e => e.length) (initial ["a", "b"] (by decide) (fun e => e.length) 7000) plainEvents ∧
      (Runs.run step (initial ["a", "b"] (by decide) (fun e => e.length) 7000) plainEvents).map (fun s =>
        (s.gets.map fun r => (r.enclaveId, r.requests.map (·.response)), s.responses)) =
        some ([("a", [0]), ("b", [4])], [none, some flushed, none, some flushed, none]) :=
  ⟨by decide +kernel, requests_accounted _ _ _ _ _ (by decide +kernel), by decide +kernel⟩

end ContactDiscovery.Service.Queues
