/-
  ContactDiscovery.Service.FirstNormal — the first normal answer of the rate limit hosts
  (`RateLimitServiceClient.firstNormalOf`).

  The call takes the stages one after another and hangs a `thenAccept` on each, which completes the
  result if the stage completes normally; a stage that is complete already has it run at once. Then it
  hangs a handler on the `allOf` of these, which completes the result with their exception once they
  are all complete, if there is one, and returns. Stages complete at any time, before, during and after
  the call. What depends on a stage runs in the step that completes it.

  Proved: `first_normal_wins`. The result is incomplete while no stage is normal and one is pending.
  It is that of the first stage to be both normal and taken by the call, from that step on, and never
  changes. It is exceptional if and only if all stages are. So it is that of the first stage to
  complete normally, if the stages do so after they were taken; of those that are complete before the
  call it is the first in the list, whichever completed first (`list_order_wins`).

  `race_complete` and `call_race` tie the steps after the call to the race of
  `ContactDiscovery.Lib.Futures`, by which a discovery call is modelled.
-/

import ContactDiscovery.Lib.Futures
import ContactDiscovery.Lib.Runs
import Mathlib.Data.List.Induction

namespace ContactDiscovery.Service.FirstNormal

open Lib
open Lib.Futures (Thrown Completion Future Race)

inductive Event (ε α : Type) where
  /-- A stage completes. -/
  | complete (i : Nat) (c : Completion ε α)
  /-- The call takes the next stage. -/
  | thenAccept
  /-- The call has taken all stages, and returns. -/
  | allOf

structure St (ε α : Type) where
  stages : List (Future ε α)
  /-- The stages that `thenAccept` returned. -/
  accepts : List (Future ε Unit)
  returned : Bool
  f : Future ε α

section Model

variable {ε α : Type}

def start (n : Nat) : St ε α := ⟨List.replicate n none, [], false, none⟩

/-- `thenAccept(f::complete)` on a stage that is complete. -/
def accept (c : Completion ε α) (f : Future ε α) : Completion ε Unit × Future ε α :=
  Futures.thenAccept (fun a f => (.ok (), Future.complete f (.normal a))) c f

/-- The handler of `allOf`, once it is there. -/
def St.handled (s : St ε α) : St ε α :=
  if s.returned then
    match Futures.allOf s.accepts with
    | some ex => { s with f := Future.complete s.f (.exceptional ex) }
    | none => s
  else s

def step (s : St ε α) : Event ε α → Option (St ε α)
  | .complete i c =>
    match s.stages[i]? with
    | some none =>
      let s := { s with stages := s.stages.set i (some c) }
      if i < s.accepts.length then
        let r := accept c s.f
        some { s with accepts := s.accepts.set i (some r.1), f := r.2 }.handled
      else some s
    | _ => none
  | .thenAccept =>
    match s.stages[s.accepts.length]? with
    | none => none
    | some none => some { s with accepts := s.accepts ++ [none] }
    | some (some c) =>
      let r := accept c s.f
      some { s with accepts := s.accepts ++ [some r.1], f := r.2 }
  | .allOf =>
    if s.accepts.length = s.stages.length ∧ s.returned = false then some { s with returned := true }.handled else none

/-! ## Histories -/

def Event.isThenAccept : Event ε α → Bool
  | .thenAccept => true
  | _ => false

def reached (es : List (Event ε α)) : Nat := es.countP Event.isThenAccept

/-- A stage has completed with this value and been taken by the call. -/
def Seen (es : List (Event ε α)) (a : α) : Prop := ∃ i < reached es, .complete i (.normal a) ∈ es

/-- The value of the first stage that was seen. -/
def First (es : List (Event ε α)) (a : α) : Prop :=
  ∃ before e after, es = before ++ e :: after ∧ (∀ a', ¬Seen before a') ∧ Seen (before ++ [e]) a

def Event.value : Event ε α → Option α
  | .complete _ (.normal a) => some a
  | _ => none

/-- The value of the first stage to complete normally. -/
def earliest (es : List (Event ε α)) : Option α := es.findSome? Event.value

/-- Stages that complete normally do so after the call has taken them. -/
def Late (es : List (Event ε α)) : Prop :=
  ∀ before i a after, es = before ++ .complete i (.normal a) :: after → i < reached before

end Model

/-! ## What was seen -/

section Histories

variable {ε α : Type} {es : List (Event ε α)} {e : Event ε α} {a : α}

theorem reached_concat : reached (es ++ [e]) = reached es + if e.isThenAccept then 1 else 0 := by
  rw [reached, List.countP_append, List.countP_singleton]
  rfl

theorem Seen.append (h : Seen es a) (es' : List (Event ε α)) : Seen (es ++ es') a := by
  obtain ⟨i, hi, hmem⟩ := h
  exact ⟨i, by rw [reached, List.countP_append]; exact Nat.lt_of_lt_of_le hi (Nat.le_add_right _ _), List.mem_append_left _ hmem⟩

theorem seen_complete {i : Nat} {c : Completion ε α} :
    Seen (es ++ [.complete i c]) a ↔ Seen es a ∨ i < reached es ∧ c = .normal a := by
  have hreached : reached (es ++ [.complete i c]) = reached es := reached_concat
  simp only [Seen, hreached, List.mem_append, List.mem_singleton, Event.complete.injEq, and_or_left, exists_or]
  refine or_congr_right ⟨?_, ?_⟩
  · intro h
    obtain ⟨j, hj, hij, hc⟩ := h
    exact ⟨hij ▸ hj, hc.symm⟩
  · intro h
    exact ⟨i, h.1, rfl, h.2.symm⟩

theorem seen_thenAccept : Seen (es ++ [.thenAccept]) a ↔ Seen es a ∨ .complete (reached es) (.normal a) ∈ es := by
  have hreached : reached (es ++ [.thenAccept]) = reached es + 1 := reached_concat
  simp only [Seen, hreached, List.mem_append, List.mem_singleton, reduceCtorEq, or_false, Nat.lt_succ_iff_lt_or_eq, or_and_right, exists_or,
    exists_eq_left]

theorem seen_allOf : Seen (es ++ [.allOf]) a ↔ Seen es a := by
  have hreached : reached (es ++ [.allOf]) = reached es := reached_concat
  simp only [Seen, hreached, List.mem_append, List.mem_singleton, reduceCtorEq, or_false]

theorem first_concat : First (es ++ [e]) a ↔ First es a ∨ (∀ a', ¬Seen es a') ∧ Seen (es ++ [e]) a := by
  constructor
  · intro h
    obtain ⟨before, e', after, hsplit, hnone, hseen⟩ := h
    rcases Runs.concat_eq_split.mp hsplit with ⟨hes, he, -⟩ | ⟨rest, -, hes⟩
    · rw [hes, he]
      exact .inr ⟨hnone, hseen⟩
    · exact .inl ⟨before, e', rest, hes, hnone, hseen⟩
  · intro h
    rcases h with ⟨before, e', after, hes, hnone, hseen⟩ | ⟨hnone, hseen⟩
    · exact ⟨before, e', after ++ [e], Runs.concat_eq_split.mpr (.inr ⟨after, rfl, hes⟩), hnone, hseen⟩
    · exact ⟨es, e, [], rfl, hnone, hseen⟩

theorem First.seen (h : First es a) : Seen es a := by
  obtain ⟨before, e, after, rfl, -, hseen⟩ := h
  have hall := hseen.append after
  rwa [List.append_assoc, List.singleton_append] at hall

theorem not_seen_nil : ¬Seen ([] : List (Event ε α)) a := by
  intro h
  obtain ⟨i, -, hmem⟩ := h
  cases hmem

theorem exists_first (h : Seen es a) : ∃ a', First es a' := by
  induction es using List.reverseRecOn generalizing a with
  | nil => exact absurd h not_seen_nil
  | append_singleton es e ih =>
    by_cases hold : ∃ a', Seen es a'
    · obtain ⟨a', ha'⟩ := hold
      obtain ⟨a'', hfirst⟩ := ih ha'
      exact ⟨a'', first_concat.mpr (.inl hfirst)⟩
    · exact ⟨a, first_concat.mpr (.inr ⟨not_exists.mp hold, h⟩)⟩

theorem Late.before (h : Late (es ++ [e])) : Late es := by
  intro before i a after hes
  exact h before i a (after ++ [e]) (Runs.concat_eq_split.mpr (.inr ⟨after, rfl, hes⟩))

theorem Late.seen (h : Late es) {i : Nat} (hmem : .complete i (.normal a) ∈ es) : Seen es a := by
  obtain ⟨before, after, rfl⟩ := List.append_of_mem hmem
  have hi := h before i a after rfl
  exact ⟨i, by rw [reached, List.countP_append]; exact Nat.lt_of_lt_of_le hi (Nat.le_add_right _ _), hmem⟩

theorem value_eq_some : e.value = some a ↔ ∃ i, e = .complete i (.normal a) := by
  unfold Event.value
  split <;> simp_all

/-- With all of them late, what is seen at once completes at once. -/
theorem Late.seen_concat (h : Late (es ++ [e])) (hnot : ∀ a, ¬Seen es a) : Seen (es ++ [e]) a ↔ e.value = some a := by
  rw [value_eq_some]
  constructor
  · intro hseen
    obtain ⟨i, -, hmem⟩ := hseen
    rcases List.mem_append.mp hmem with hold | hnew
    · exact absurd (h.before.seen hold) (hnot a)
    · exact ⟨i, (List.mem_singleton.mp hnew).symm⟩
  · intro hvalue
    obtain ⟨i, he⟩ := hvalue
    subst he
    exact h.seen (List.mem_append_right _ (List.mem_singleton.mpr rfl))

theorem Late.first_iff (h : Late es) : First es a ↔ earliest es = some a := by
  induction es using List.reverseRecOn generalizing a with
  | nil => exact iff_of_false (fun hf => not_seen_nil hf.seen) nofun
  | append_singleton es e ih =>
    have ih := fun a => @ih a h.before
    rw [first_concat, earliest, List.findSome?_append, ← earliest]
    cases hold : earliest es with
    | some b =>
      have hb := (ih b).mpr hold
      rw [ih, hold]
      exact ⟨fun hor => hor.resolve_right fun hnew => hnew.1 b hb.seen, .inl⟩
    | none =>
      have hnot : ∀ a, ¬Seen es a := by
        intro a ha
        obtain ⟨a', ha'⟩ := exists_first ha
        cases hold.symm.trans ((ih a').mp ha')
      rw [ih, hold, h.seen_concat hnot]
      simp [hnot]

end Histories

/-! ## The result by the history -/

/-- What a stage of `thenAccept` completes with. -/
def outcome {ε α : Type} : Completion ε α → Completion ε Unit
  | .normal _ => .normal ()
  | .exceptional t => .exceptional t.relay

structure Shape {ε α : Type} (n : Nat) (es : List (Event ε α)) (s : St ε α) : Prop where
  count : s.stages.length = n
  completed : ∀ i c, s.stages[i]? = some (some c) ↔ .complete i c ∈ es
  taken : s.accepts.length = reached es
  accepts : s.accepts = (s.stages.take s.accepts.length).map (Option.map outcome)
  returned : s.returned = true ↔ .allOf ∈ es
  all : s.returned = true → s.accepts.length = n

/-- The result, by which value has won. -/
structure Result {ε α : Type} (n : Nat) (won : α → Prop) (s : St ε α) : Prop where
  waiting : s.returned = true → s.f = none → Futures.allOf s.accepts = none
  normal : ∀ a, s.f = some (.normal a) ↔ won a
  exceptional : ∀ t, s.f = some (.exceptional t) →
    s.returned = true ∧ ∀ i < n, ∃ t', s.stages[i]? = some (some (.exceptional t'))

structure Inv {ε α : Type} (n : Nat) (es : List (Event ε α)) (s : St ε α) : Prop extends Shape n es s, Result n (First es) s

section Shape

variable {ε α : Type} {n : Nat} {es : List (Event ε α)} {s s' : St ε α} {e : Event ε α}

/-- The handler changes nothing but the result, and this only if it is not there. -/
theorem handled_frame (s : St ε α) : ∃ f, s.handled = { s with f := f } ∧ ∀ c, s.f = some c → f = some c := by
  unfold St.handled
  split
  · split
    · exact ⟨_, rfl, fun c hc => Futures.complete_some hc _⟩
    · exact ⟨s.f, rfl, fun _ => id⟩
  · exact ⟨s.f, rfl, fun _ => id⟩

theorem handled_f {c : Completion ε α} (h : s.f = some c) : s.handled.f = some c := by
  obtain ⟨f, hframe, hkeep⟩ := handled_frame s
  rw [hframe]
  exact hkeep c h

theorem accept_fst (c : Completion ε α) (f : Future ε α) : (accept c f).1 = outcome c := by
  cases c <;> rfl

theorem accept_none {f : Future ε α} (h : f = none) (a : α) : (accept (.normal a) f).2 = some (.normal a) := by
  rw [h]
  rfl

/-- The result after `thenAccept` was hung on a stage, complete or not. -/
def accepted (stage f : Future ε α) : Future ε α :=
  match stage with
  | none => f
  | some c => (accept c f).2

theorem accepted_some {stage f : Future ε α} {c : Completion ε α} (h : f = some c) : accepted stage f = some c := by
  rcases stage with - | - | -
  · exact h
  · exact Futures.complete_some h _
  · exact h

/-! ## What a step does -/

theorem step_complete {i : Nat} {c : Completion ε α} (hs : step s (.complete i c) = some s') :
    s.stages[i]? = some none ∧
      (i < s.accepts.length ∧
          s' = St.handled ⟨s.stages.set i (some c), s.accepts.set i (some (outcome c)), s.returned, accepted (some c) s.f⟩ ∨
        s.accepts.length ≤ i ∧ s' = { s with stages := s.stages.set i (some c) }) := by
  simp only [step] at hs
  split at hs
  swap
  · cases hs
  rename_i hi
  refine ⟨hi, ?_⟩
  split at hs
  · rename_i hlt
    cases hs
    rw [accept_fst]
    exact .inl ⟨hlt, rfl⟩
  · rename_i hlt
    cases hs
    exact .inr ⟨Nat.le_of_not_lt hlt, rfl⟩

theorem step_thenAccept (hs : step s .thenAccept = some s') :
    ∃ stage, s.stages[s.accepts.length]? = some stage ∧
      s' = { s with accepts := s.accepts ++ [stage.map outcome], f := accepted stage s.f } := by
  simp only [step] at hs
  split at hs
  · cases hs
  · rename_i hstage
    cases hs
    exact ⟨none, hstage, rfl⟩
  · rename_i c hstage
    cases hs
    rw [accept_fst]
    exact ⟨some c, hstage, rfl⟩

theorem step_allOf (hs : step s .allOf = some s') :
    s.accepts.length = s.stages.length ∧ s.returned = false ∧ s' = St.handled { s with returned := true } := by
  simp only [step] at hs
  split at hs
  · rename_i hall
    cases hs
    exact ⟨hall.1, hall.2, rfl⟩
  · cases hs

/-! ## The stages -/

theorem start_shape (n : Nat) : Shape n [] (start n : St ε α) where
  count := List.length_replicate
  completed i c := by simp [start, List.getElem?_replicate]
  taken := rfl
  accepts := rfl
  returned := by simp [start]
  all := nofun

theorem shape_handled : Shape n es s.handled ↔ Shape n es s := by
  obtain ⟨f, hframe, -⟩ := handled_frame s
  rw [hframe]
  exact ⟨fun h => ⟨h.count, h.completed, h.taken, h.accepts, h.returned, h.all⟩,
    fun h => ⟨h.count, h.completed, h.taken, h.accepts, h.returned, h.all⟩⟩

theorem Shape.not_returned (h : Shape n es s) (hlt : s.accepts.length < n) : s.returned = false := by
  cases hr : s.returned with
  | false => rfl
  | true => exact absurd (h.all hr) (Nat.ne_of_lt hlt)

theorem Shape.completed_set (h : Shape n es s) {i : Nat} (hi : s.stages[i]? = some none) (c : Completion ε α) (j : Nat)
    (c' : Completion ε α) : (s.stages.set i (some c))[j]? = some (some c') ↔ .complete j c' ∈ es ++ [.complete i c] := by
  rw [List.mem_append, List.mem_singleton, ← h.completed]
  by_cases hj : i = j
  · subst hj
    obtain ⟨hlt, -⟩ := List.getElem?_eq_some_iff.mp hi
    rw [List.getElem?_set_self hlt, hi]
    simp [eq_comm]
  · rw [List.getElem?_set_ne hj]
    simp [Ne.symm hj]

theorem step_shape (h : Shape n es s) (hs : step s e = some s') : Shape n (es ++ [e]) s' := by
  cases e with
  | complete i c =>
    have htaken : s.accepts.length = reached (es ++ [.complete i c]) := by
      rw [reached_concat, h.taken]
      rfl
    have hreturned : s.returned = true ↔ .allOf ∈ es ++ [.complete i c] := by
      rw [h.returned]
      simp
    have hcount : (s.stages.set i (some c)).length = n := by
      rw [List.length_set]
      exact h.count
    obtain ⟨hi, ⟨hlt, hs'⟩ | ⟨hle, hs'⟩⟩ := step_complete hs
    · subst hs'
      refine shape_handled.mpr ⟨hcount, h.completed_set hi c, ?_, ?_, hreturned, ?_⟩
      · rw [List.length_set]
        exact htaken
      · rw [List.length_set, List.take_set, List.map_set, ← h.accepts]
        rfl
      · rw [List.length_set]
        exact h.all
    · subst hs'
      refine ⟨hcount, h.completed_set hi c, htaken, ?_, hreturned, h.all⟩
      rw [List.take_set_of_le hle]
      exact h.accepts
  | thenAccept =>
    obtain ⟨stage, hstage, hs'⟩ := step_thenAccept hs
    obtain ⟨hlt, -⟩ := List.getElem?_eq_some_iff.mp hstage
    have hr := h.not_returned (h.count ▸ hlt)
    subst hs'
    refine ⟨h.count, fun i c => ?_, ?_, ?_, ?_, fun ht => absurd ht (by simp [hr])⟩
    · rw [h.completed]
      simp
    · rw [List.length_append, reached_concat, h.taken]
      rfl
    · rw [List.length_append, List.length_singleton, List.take_add_one, hstage, List.map_append, ← h.accepts]
      rfl
    · rw [h.returned]
      simp
  | allOf =>
    obtain ⟨hall, -, hs'⟩ := step_allOf hs
    subst hs'
    refine shape_handled.mpr ⟨h.count, fun i c => ?_, ?_, h.accepts, by simp, fun _ => hall.trans h.count⟩
    · rw [h.completed]
      simp
    · rw [reached_concat]
      exact h.taken

/-- What was seen, by the state. -/
theorem Shape.seen_iff (h : Shape n es s) (a : α) : Seen es a ↔ ∃ i < s.accepts.length, s.stages[i]? = some (some (.normal a)) := by
  rw [h.taken]
  exact exists_congr fun i => and_congr_right fun _ => (h.completed i _).symm

/-- If `allOf` has an exception and nothing normal was seen, all stages are exceptional. -/
theorem Shape.all_exceptional (h : Shape n es s) (hr : s.returned = true) (hnot : ∀ a, ¬Seen es a) {t : Thrown ε}
    (ht : Futures.allOf s.accepts = some t) : ∀ i < n, ∃ t', s.stages[i]? = some (some (.exceptional t')) := by
  intro i hi
  have hacc : s.accepts = s.stages.map (Option.map outcome) := by
    rw [h.accepts, h.all hr, ← h.count, List.take_length]
  rw [← h.count] at hi
  have hx := List.getElem?_eq_getElem hi
  cases hc : s.stages[i] with
  | none =>
    refine absurd ?_ (Futures.allOf_eq_some ht)
    rw [hacc]
    exact List.mem_map.mpr ⟨none, hc ▸ List.getElem_mem hi, rfl⟩
  | some c =>
    rw [hc] at hx
    cases c with
    | normal a =>
      exact absurd ((h.seen_iff a).mpr ⟨i, by rw [h.all hr, ← h.count]; exact hi, hx⟩) (hnot a)
    | exceptional t' => exact ⟨t', hx⟩

end Shape

section Result

variable {ε α : Type} {n : Nat} {es : List (Event ε α)} {s s' : St ε α} {e : Event ε α}

theorem step_f {c : Completion ε α} (hf : s.f = some c) (hs : step s e = some s') : s'.f = some c := by
  cases e with
  | complete i c' =>
    obtain ⟨-, ⟨-, hs'⟩ | ⟨-, hs'⟩⟩ := step_complete hs
    · have hkept : accepted (some c') s.f = some c := accepted_some hf
      rw [hs']
      exact handled_f hkept
    · rw [hs']
      exact hf
  | thenAccept =>
    obtain ⟨stage, -, hs'⟩ := step_thenAccept hs
    rw [hs']
    exact accepted_some hf
  | allOf =>
    obtain ⟨-, -, hs'⟩ := step_allOf hs
    rw [hs']
    exact handled_f hf

theorem Result.of_normal {a : α} {won : α → Prop} (hf : s.f = some (.normal a)) (hwon : ∀ b, won b ↔ b = a) : Result n won s where
  waiting := fun _ hnone => by cases hf.symm.trans hnone
  normal := fun b => by
    rw [hf, hwon]
    simp [eq_comm]
  exceptional := fun t ht => by cases hf.symm.trans ht

theorem Result.of_none {won : α → Prop} (hf : s.f = none) (hr : s.returned = false) (hnot : ∀ a, ¬won a) : Result n won s where
  waiting := fun ht => absurd ht (by simp [hr])
  normal := fun a => iff_of_false (by simp [hf]) (hnot a)
  exceptional := fun t ht => by cases hf.symm.trans ht

theorem Result.of_handled (h : Shape n es s) (hf : s.f = none) (hnot : ∀ a, ¬Seen es a) : Result n (Seen es) s.handled := by
  cases hr : s.returned with
  | false =>
    have hsame : s.handled = s := by simp [St.handled, hr]
    rw [hsame]
    exact .of_none hf hr hnot
  | true =>
    cases hall : Futures.allOf s.accepts with
    | none =>
      have hsame : s.handled = s := by simp [St.handled, hall]
      rw [hsame]
      exact ⟨fun _ _ => hall, fun a => iff_of_false (by simp [hf]) (hnot a), fun t ht => by cases hf.symm.trans ht⟩
    | some t =>
      have hf' : s.handled.f = some (.exceptional t) := by simp [St.handled, hr, hall, hf, Future.complete]
      refine ⟨fun _ hnone => ?_, fun a => iff_of_false (by simp [hf']) (hnot a), fun _ _ => ?_⟩
      · cases hf'.symm.trans hnone
      · obtain ⟨f, hframe, -⟩ := handled_frame s
        rw [hframe]
        exact ⟨hr, h.all_exceptional hr hnot hall⟩

/-- What a step makes of a result that is not there. -/
theorem step_result (h : Shape n es s) (hf : s.f = none) (hnot : ∀ a, ¬Seen es a) (hs : step s e = some s') :
    Result n (Seen (es ++ [e])) s' := by
  have hshape := step_shape h hs
  cases e with
  | complete i c =>
    obtain ⟨hi, ⟨hlt, hs'⟩ | ⟨hle, hs'⟩⟩ := step_complete hs
    · subst hs'
      cases c with
      | normal a =>
        refine .of_normal (handled_f (accept_none hf a)) fun b => ?_
        rw [seen_complete, ← h.taken]
        simp [hnot, hlt, eq_comm]
      | exceptional t =>
        refine .of_handled (shape_handled.mp hshape) hf fun b => ?_
        rw [seen_complete]
        simp [hnot]
    · subst hs'
      obtain ⟨hi, -⟩ := List.getElem?_eq_some_iff.mp hi
      refine .of_none hf (h.not_returned (Nat.lt_of_le_of_lt hle (h.count ▸ hi))) fun b => ?_
      rw [seen_complete, ← h.taken]
      simp [hnot, Nat.not_lt.mpr hle]
  | thenAccept =>
    obtain ⟨stage, hstage, hs'⟩ := step_thenAccept hs
    obtain ⟨hlt, -⟩ := List.getElem?_eq_some_iff.mp hstage
    have hr := h.not_returned (h.count ▸ hlt)
    -- the stage that is taken may be complete already
    have hseen : ∀ b, Seen (es ++ [.thenAccept]) b ↔ stage = some (.normal b) := by
      intro b
      rw [seen_thenAccept, or_iff_right (hnot b), ← h.completed, ← h.taken, hstage, Option.some.injEq]
    subst hs'
    rcases stage with - | a | t
    · exact .of_none hf hr fun b hb => by cases (hseen b).mp hb
    · refine .of_normal (accept_none hf a) fun b => ?_
      rw [hseen]
      simp [eq_comm]
    · exact .of_none hf hr fun b hb => by cases (hseen b).mp hb
  | allOf =>
    obtain ⟨-, -, hs'⟩ := step_allOf hs
    subst hs'
    exact .of_handled (shape_handled.mp hshape) hf fun b => by rw [seen_allOf]; exact hnot b

/-- After an exceptional result nothing more happens. -/
theorem Inv.ended {t : Thrown ε} (h : Inv n es s) (hf : s.f = some (.exceptional t)) : step s e = none := by
  obtain ⟨hr, hall⟩ := h.exceptional t hf
  cases e with
  | complete i c =>
    simp only [step]
    split
    · rename_i hi
      obtain ⟨hlt, -⟩ := List.getElem?_eq_some_iff.mp hi
      obtain ⟨t', ht'⟩ := hall i (h.count ▸ hlt)
      cases hi.symm.trans ht'
    · rfl
  | thenAccept =>
    have htaken : s.stages[s.accepts.length]? = none := by
      rw [h.all hr, ← h.count]
      exact List.getElem?_eq_none (Nat.le_refl _)
    simp only [step, htaken]
  | allOf => simp [step, hr]

theorem Inv.not_seen (h : Inv n es s) (hf : s.f = none) (a : α) : ¬Seen es a := by
  intro hseen
  obtain ⟨a', hfirst⟩ := exists_first hseen
  cases hf.symm.trans ((h.normal a').mpr hfirst)

theorem start_inv (n : Nat) : Inv n [] (start n : St ε α) where
  toShape := start_shape n
  toResult := by
    refine .of_none rfl rfl fun a ha => not_seen_nil ha.seen

theorem step_inv (h : Inv n es s) (hs : step s e = some s') : Inv n (es ++ [e]) s' where
  toShape := step_shape h.toShape hs
  toResult := by
    cases hf : s.f with
    | none =>
      have hnot := h.not_seen hf
      have hfirst : First (es ++ [e]) = Seen (es ++ [e]) := by
        funext a
        refine propext (first_concat.trans ⟨?_, fun hseen => .inr ⟨hnot, hseen⟩⟩)
        intro hor
        rcases hor with hold | ⟨-, hseen⟩
        · exact absurd hold.seen (hnot a)
        · exact hseen
      rw [hfirst]
      exact step_result h.toShape hf hnot hs
    | some c =>
      cases c with
      | exceptional t => cases (h.ended hf).symm.trans hs
      | normal a =>
        -- the value that was first stays so
        have ha := (h.normal a).mp hf
        refine .of_normal (step_f hf hs) fun b => first_concat.trans ⟨?_, fun hb => .inl (hb ▸ ha)⟩
        intro hor
        rcases hor with hb | ⟨hnot, -⟩
        · cases hf.symm.trans ((h.normal b).mpr hb)
          rfl
        · exact absurd ha.seen (hnot a)

end Result

section Runs

variable {ε α : Type} {n : Nat} {es : List (Event ε α)} {s : St ε α}

theorem run_inv (hr : Runs.run step (start n) es = some s) : Inv n es s :=
  Runs.run_history (start_inv n) (fun _ _ _ _ h hs => step_inv h hs) hr

theorem Shape.complete_once (h : Shape n es s) {i : Nat} {c c' : Completion ε α} (hc : .complete i c ∈ es) (hc' : .complete i c' ∈ es) :
    c = c' := by
  cases ((h.completed i c).mpr hc).symm.trans ((h.completed i c').mpr hc')
  rfl

theorem Inv.pending (h : Inv n es s) (hnormal : ∀ i a, .complete i (.normal a) ∉ es) {i : Nat} (hi : i < n)
    (hpending : ∀ c, .complete i c ∉ es) : s.f = none := by
  cases hf : s.f with
  | none => rfl
  | some c =>
    cases c with
    | normal a =>
      obtain ⟨j, -, hmem⟩ := ((h.normal a).mp hf).seen
      exact absurd hmem (hnormal j a)
    | exceptional t =>
      obtain ⟨t', ht'⟩ := (h.exceptional t hf).2 i hi
      exact absurd ((h.completed i _).mp ht') (hpending _)

theorem Inv.exceptional_iff (h : Inv n es s) (hn : 0 < n) (hr : s.returned = true) :
    (∃ t, s.f = some (.exceptional t)) ↔ ∀ i < n, ∃ t, .complete i (.exceptional t) ∈ es := by
  constructor
  · intro hf i hi
    obtain ⟨t, ht⟩ := hf
    obtain ⟨t', ht'⟩ := (h.exceptional t ht).2 i hi
    exact ⟨t', (h.completed i _).mp ht'⟩
  · intro hall
    cases hf : s.f with
    | some c =>
      cases c with
      | exceptional t => exact ⟨t, rfl⟩
      | normal a =>
        obtain ⟨i, hi, hmem⟩ := ((h.normal a).mp hf).seen
        rw [← h.taken, h.all hr] at hi
        obtain ⟨t, ht⟩ := hall i hi
        cases h.complete_once hmem ht
    | none =>
      -- `allOf` would have had the exception of the first stage
      exfalso
      have hstage : ∀ i, i < n → ∃ t, s.accepts[i]? = some (some (.exceptional t)) := by
        intro i hi
        obtain ⟨t, ht⟩ := hall i hi
        refine ⟨t.relay, ?_⟩
        rw [h.accepts, List.getElem?_map, List.getElem?_take_of_lt (h.all hr ▸ hi), (h.completed i _).mpr ht]
        rfl
      obtain ⟨t, ht⟩ := hstage 0 hn
      have hnone := Futures.allOf_eq_none (h.waiting hr hf) (List.mem_of_getElem? ht)
      obtain ⟨i, hi, heq⟩ := List.mem_iff_getElem.mp hnone
      obtain ⟨t', ht'⟩ := hstage i (h.all hr ▸ hi)
      rw [List.getElem?_eq_getElem hi, heq] at ht'
      cases ht'

/-- The result of a run: none while no stage is normal and one is pending; the value of the first stage
    that is normal and taken, for good; that of the first to complete normally if they do so once
    taken; and, once the call has returned, an exception exactly if all stages have one. -/
theorem first_normal_wins (hn : 0 < n) (hr : Runs.run step (start n) es = some s) :
    ((∀ i a, .complete i (.normal a) ∉ es) → (∃ i < n, ∀ c, .complete i c ∉ es) → s.f = none) ∧
      (∀ a, s.f = some (.normal a) ↔ First es a) ∧
      (Late es → ∀ a, s.f = some (.normal a) ↔ earliest es = some a) ∧
      (∀ es' s' c, Runs.run step s es' = some s' → s.f = some c → s'.f = some c) ∧
      (.allOf ∈ es → ((∃ t, s.f = some (.exceptional t)) ↔ ∀ i < n, ∃ t, .complete i (.exceptional t) ∈ es)) := by
  have h := run_inv hr
  refine ⟨?_, h.normal, ?_, ?_, ?_⟩
  · intro hnormal hex
    obtain ⟨i, hi, hpending⟩ := hex
    exact h.pending hnormal hi hpending
  · intro hlate a
    rw [h.normal, hlate.first_iff]
  · intro es' s' c hrun hf
    exact Runs.run_of_inv (P := fun s => s.f = some c) (fun _ _ _ => step_f) hf hrun
  · intro hall
    exact h.exceptional_iff hn (h.returned.mpr hall)

end Runs

/-- One of two hosts fails, and the other answers. -/
def oneFailingHost : List (Event Unit Bool) :=
  [.thenAccept, .thenAccept, .allOf, .complete 1 (.exceptional (.raw ())), .complete 0 (.normal true)]

theorem first_normal_wins_one_failing_host : First oneFailingHost true ∧ ¬∀ i < 2, ∃ t, .complete i (.exceptional t) ∈ oneFailingHost := by
  have hrun : Runs.run step (start 2) oneFailingHost =
      some ⟨[some (.normal true), some (.exceptional (.raw ()))],
        [some (.normal ()), some (.exceptional (.completion (.raw ())))], true, some (.normal true)⟩ := rfl
  obtain ⟨-, hnormal, -, -, hexceptional⟩ := first_normal_wins (by decide) hrun
  refine ⟨(hnormal true).mp rfl, fun hall => ?_⟩
  obtain ⟨t, ht⟩ := (hexceptional (by simp [oneFailingHost])).mpr hall
  cases ht

/-- The second host answers first, and the first one before the call looks. -/
def answeredBeforehand : List (Event Unit Bool) :=
  [.complete 1 (.normal false), .complete 0 (.normal true), .thenAccept, .thenAccept, .allOf]

theorem list_order_wins :
    (Runs.run step (start 2) answeredBeforehand).map St.f = some (some (.normal true)) ∧ earliest answeredBeforehand = some false :=
  ⟨rfl, rfl⟩

/-! ## After the call -/

section Race

variable {ε α : Type} {n : Nat} {es : List (Event ε α)} {s : St ε α}

def St.race (s : St ε α) : Race ε α := ⟨s.stages, s.f⟩

theorem relay_relay (t : Thrown ε) : t.relay.relay = t.relay := by
  cases t <;> rfl

/-- The stages of `thenAccept` have the exceptions of those they depend on. -/
theorem allOf_outcome (stages : List (Future ε α)) : Futures.allOf (stages.map (Option.map outcome)) = Futures.allOf stages := by
  have hexception : ∀ f : Future ε α, Futures.exceptionOf (f.map outcome) = (Futures.exceptionOf f).map Thrown.relay := by
    rintro (- | - | t) <;> rfl
  have hfind : (stages.map (Option.map outcome)).findSome? Futures.exceptionOf =
      (stages.findSome? Futures.exceptionOf).map Thrown.relay := by
    induction stages with
    | nil => rfl
    | cons f stages ih =>
      rw [List.map_cons, List.findSome?_cons, List.findSome?_cons, hexception]
      cases Futures.exceptionOf f with
      | none => exact ih
      | some t => rfl
  have hall : (stages.map (Option.map outcome)).all Option.isSome = stages.all Option.isSome := by
    simp [List.all_map, Function.comp_def]
  unfold Futures.allOf
  rw [hall, hfind, Option.map_map]
  have hrelay : (Thrown.relay ∘ Thrown.relay : Thrown ε → Thrown ε) = Thrown.relay := funext relay_relay
  rw [hrelay]

/-- A stage that completes after the call is one that completes in the race. -/
theorem race_complete (h : Shape n es s) (hr : s.returned = true) (i : Nat) (c : Completion ε α) :
    (step s (.complete i c)).map St.race = s.race.complete i c := by
  rcases hi : s.stages[i]? with - | - | c'
  · simp [step, Race.complete, St.race, hi]
  · obtain ⟨hlt, -⟩ := List.getElem?_eq_some_iff.mp hi
    have htaken : s.accepts.length = s.stages.length := (h.all hr).trans h.count.symm
    have haccepts : s.accepts.set i (some (accept c s.f).1) = (s.stages.set i (some c)).map (Option.map outcome) := by
      have hold : s.accepts = s.stages.map (Option.map outcome) := by
        rw [h.accepts, htaken, List.take_length]
      rw [accept_fst, List.map_set, ← hold]
      rfl
    simp only [step, Race.complete, St.race, hi, htaken, hlt, if_true, haccepts, St.handled, hr, allOf_outcome, Option.map_some]
    cases c with
    | normal a => cases Futures.allOf (s.stages.set i (some (.normal a))) <;> rfl
    | exceptional t => cases Futures.allOf (s.stages.set i (some (.exceptional t))) <;> rfl
  · simp [step, Race.complete, St.race, hi]

/-- A call that takes its stages before any of them completes starts a race. -/
theorem call_race (n : Nat) :
    (Runs.run step (start n : St ε α) (List.replicate n .thenAccept ++ [.allOf])).map St.race = some (Race.start n) := by
  have htake : ∀ k ≤ n, Runs.run step (start n : St ε α) (List.replicate k .thenAccept) =
      some ⟨List.replicate n none, List.replicate k none, false, none⟩ := by
    intro k
    induction k with
    | zero => intro _; rfl
    | succ k ih =>
      intro hk
      rw [List.replicate_succ', Runs.run_append, ih (by omega)]
      simp [Runs.run, step, show k < n by omega, List.replicate_succ']
  have hall : Futures.allOf (List.replicate n none : List (Future ε Unit)) = none := by
    unfold Futures.allOf
    split
    · rw [List.findSome?_eq_none_iff.mpr fun f hf => by rw [List.eq_of_mem_replicate hf]; rfl]
      rfl
    · rfl
  rw [Runs.run_append, htake n (Nat.le_refl n)]
  simp [Runs.run, step, St.handled, St.race, Race.start, hall]

end Race

end ContactDiscovery.Service.FirstNormal
