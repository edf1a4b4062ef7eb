/-
  ContactDiscovery.Lib.Futures — completable futures, as in Java: how a stage completes, what its
  dependents make of that, and the first normal result of several stages (`Race`).

  A future completes once. A dependent stage completes with its source's exception in a
  `CompletionException`, unless it is one already, and an exception of its own function fails no one
  else. The functions of dependents pass a state.
-/

import Mathlib.Data.List.Basic

namespace ContactDiscovery.Lib.Futures

/-- An exception, or a `CompletionException` with its cause. -/
inductive Thrown (ε : Type) where
  | raw (e : ε)
  | completion (cause : Thrown ε)
  deriving DecidableEq

/-- The exception of a dependent stage. -/
def Thrown.relay {ε : Type} : Thrown ε → Thrown ε
  | .completion cause => .completion cause
  | .raw e => .completion (.raw e)

def Thrown.getCause {ε : Type} : Thrown ε → Option (Thrown ε)
  | .completion cause => some cause
  | .raw _ => none

/-- The exception itself. -/
def Thrown.root {ε : Type} : Thrown ε → ε
  | .raw e => e
  | .completion cause => cause.root

@[simp] theorem Thrown.root_relay {ε : Type} (t : Thrown ε) : t.relay.root = t.root := by
  cases t <;> rfl

inductive Completion (ε α : Type) where
  | normal (a : α)
  | exceptional (t : Thrown ε)
  deriving DecidableEq

/-- `none` is a future that is not completed. -/
abbrev Future (ε α : Type) := Option (Completion ε α)

section Stages

variable {ε α β σ : Type}

/-- Nothing, if it is completed. -/
def Future.complete (f : Future ε α) (c : Completion ε α) : Future ε α := f.or (some c)

def whenComplete : Completion ε α → Completion ε α
  | .normal a => .normal a
  | .exceptional t => .exceptional t.relay

def thenCompose (f : α → Completion ε β) : Completion ε α → Completion ε β
  | .normal a => whenComplete (f a)
  | .exceptional t => .exceptional t.relay

def thenAccept (f : α → σ → Except ε Unit × σ) (c : Completion ε α) (s : σ) : Completion ε Unit × σ :=
  match c with
  | .exceptional t => (.exceptional t.relay, s)
  | .normal a =>
    match f a s with
    | (.ok (), s') => (.normal (), s')
    | (.error e, s') => (.exceptional (.completion (.raw e)), s')

def exceptionally (f : Thrown ε → σ → σ) (c : Completion ε Unit) (s : σ) : σ :=
  match c with
  | .normal () => s
  | .exceptional t => f t s

end Stages

/-! ## The first normal result -/

section Race

variable {ε α : Type}

/-- Stages, and the future of their first normal result. -/
structure Race (ε α : Type) where
  stages : List (Future ε α)
  first : Future ε α

def exceptionOf : Future ε α → Option (Thrown ε)
  | some (.exceptional t) => some t
  | _ => none

/-- `allOf`, with the stages that complete the future if they are normal: its exception, once they are
    all complete, is the first of theirs. -/
def allOf (stages : List (Future ε α)) : Option (Thrown ε) :=
  if stages.all Option.isSome then (stages.findSome? exceptionOf).map Thrown.relay else none

def Race.start (n : Nat) : Race ε α := ⟨List.replicate n none, none⟩

def Race.complete (r : Race ε α) (i : Nat) (c : Completion ε α) : Option (Race ε α) :=
  match r.stages[i]? with
  | some none =>
    let stages := r.stages.set i (some c)
    let first := match c with
      | .normal a => Future.complete r.first (.normal a)
      | .exceptional _ => r.first
    some ⟨stages, match allOf stages with
      | some t => Future.complete first (.exceptional t)
      | none => first⟩
  | _ => none

theorem complete_some {f : Future ε α} {x : Completion ε α} (h : f = some x) (c : Completion ε α) : f.complete c = some x := by
  rw [h]
  rfl

theorem Race.complete_first {r r' : Race ε α} {i : Nat} {c x : Completion ε α} (h : r.complete i c = some r')
    (hx : r.first = some x) : r'.first = some x := by
  unfold Race.complete at h
  split at h
  · cases h
    have hfirst : (match c with
        | .normal a => Future.complete r.first (.normal a)
        | .exceptional _ => r.first) = some x := by
      cases c with
      | normal a => exact complete_some hx _
      | exceptional t => exact hx
    simp only
    split
    · exact complete_some hfirst _
    · exact hfirst
  · cases h

structure Race.Inv (r : Race ε α) : Prop where
  normal : ∀ a, r.first = some (.normal a) → some (.normal a) ∈ r.stages
  exceptional : ∀ t, r.first = some (.exceptional t) → ∀ f ∈ r.stages, ∃ t', f = some (.exceptional t')
  pending : r.first = none → r.stages ≠ [] → none ∈ r.stages ∧ ∀ a, some (.normal a) ∉ r.stages

theorem Race.start_inv (n : Nat) : (Race.start n : Race ε α).Inv where
  normal := fun a h => by cases h
  exceptional := fun t h => by cases h
  pending := fun _ hne => by
    refine ⟨List.mem_replicate.mpr ⟨?_, rfl⟩, fun a ha => by cases (List.mem_replicate.mp ha).2⟩
    rintro rfl
    exact hne rfl

theorem mem_set_of_ne {β : Type} {l : List β} {i : Nat} {x y : β} (hx : x ∈ l) (hne : l[i]? ≠ some x) : x ∈ l.set i y := by
  obtain ⟨j, hj, rfl⟩ := List.mem_iff_getElem.mp hx
  have hij : i ≠ j := fun h => hne (by rw [h, List.getElem?_eq_getElem hj])
  exact List.mem_iff_getElem.mpr ⟨j, by rw [List.length_set]; exact hj, List.getElem_set_ne hij _⟩

theorem allOf_eq_some {stages : List (Future ε α)} {t : Thrown ε} (h : allOf stages = some t) : none ∉ stages := by
  unfold allOf at h
  split at h
  · rename_i hall
    intro hnone
    exact absurd (List.all_eq_true.mp hall none hnone) Bool.false_ne_true
  · cases h

theorem allOf_eq_none {stages : List (Future ε α)} (h : allOf stages = none) {t : Thrown ε}
    (ht : some (.exceptional t) ∈ stages) : none ∈ stages := by
  unfold allOf at h
  split at h
  · rename_i hall
    rw [Option.map_eq_none_iff, List.findSome?_eq_none_iff] at h
    cases h _ ht
  · rename_i hall
    rw [List.all_eq_true] at hall
    push Not at hall
    obtain ⟨f, hf, hsome⟩ := hall
    cases f with
    | none => exact hf
    | some c => exact absurd rfl hsome

theorem Race.Inv.of_normal {r : Race ε α} {a : α} (hfirst : r.first = some (.normal a)) (ha : some (.normal a) ∈ r.stages) :
    r.Inv := by
  refine ⟨fun a' ha' => ?_, fun t ht => ?_, fun hnone => ?_⟩
  · cases hfirst.symm.trans ha'
    exact ha
  · cases hfirst.symm.trans ht
  · cases hfirst.symm.trans hnone

theorem Race.Inv.complete {r r' : Race ε α} (h : r.Inv) {i : Nat} {c : Completion ε α} (hr : r.complete i c = some r') :
    r'.Inv := by
  have hkeep := fun x => @Race.complete_first ε α r r' i c x hr
  unfold Race.complete at hr
  split at hr
  swap
  · cases hr
  rename_i hi
  have hold : none ∈ r.stages := List.mem_of_getElem? hi
  have hnew : some c ∈ r.stages.set i (some c) := by
    obtain ⟨hlt, -⟩ := List.getElem?_eq_some_iff.mp hi
    exact List.mem_iff_getElem.mpr ⟨i, by rw [List.length_set]; exact hlt, List.getElem_set_self _⟩
  have hstages : r'.stages = r.stages.set i (some c) := by cases hr; rfl
  rw [← hstages] at hnew
  cases hfirst : r.first with
  | some x =>
    have hx := hkeep x hfirst
    cases x with
    | exceptional t => obtain ⟨t', ht'⟩ := h.exceptional t hfirst none hold; cases ht'
    | normal a =>
      refine .of_normal hx ?_
      rw [hstages]
      exact mem_set_of_ne (h.normal a hfirst) (by rw [hi]; exact fun h => by cases h)
  | none =>
    obtain ⟨-, hnormal⟩ := h.pending hfirst (List.ne_nil_of_mem hold)
    cases c with
    | normal a =>
      have ha : r'.first = some (.normal a) := by
        cases hr
        simp only [hfirst]
        split <;> rfl
      exact .of_normal ha hnew
    | exceptional t =>
      have hnot : ∀ a, some (.normal a) ∉ r'.stages := by
        intro a ha
        rw [hstages] at ha
        rcases List.mem_or_eq_of_mem_set ha with ha | ha
        · exact hnormal a ha
        · cases ha
      cases hall : allOf r'.stages with
      | some t' =>
        have ht' : r'.first = some (.exceptional t') := by
          rw [hstages] at hall
          cases hr
          simp only [hall, hfirst]
          rfl
        refine ⟨fun a ha => ?_, fun t₂ _ f hf => ?_, fun hnone => ?_⟩
        · cases ht'.symm.trans ha
        · match f, hf with
          | none, hf => exact absurd hf (allOf_eq_some hall)
          | some (.normal a), hf => exact absurd hf (hnot a)
          | some (.exceptional t₃), _ => exact ⟨t₃, rfl⟩
        · cases ht'.symm.trans hnone
      | none =>
        have hnone : r'.first = none := by
          rw [hstages] at hall
          cases hr
          simp only [hall, hfirst]
        refine ⟨fun a ha => ?_, fun t₂ ht₂ => ?_, fun _ _ => ⟨allOf_eq_none hall hnew, hnot⟩⟩
        · cases hnone.symm.trans ha
        · cases hnone.symm.trans ht₂

/-- With all stages complete, so is the future: with an exception exactly if all have one. -/
theorem Race.Inv.done {r : Race ε α} (h : r.Inv) (hne : r.stages ≠ []) (hdone : none ∉ r.stages) :
    r.first ≠ none ∧
      ((∃ t, r.first = some (.exceptional t)) ↔ ∀ f ∈ r.stages, ∃ t, f = some (.exceptional t)) := by
  refine ⟨fun hnone => hdone (h.pending hnone hne).1, fun ⟨t, ht⟩ => h.exceptional t ht, fun hall => ?_⟩
  cases hfirst : r.first with
  | none => exact absurd (h.pending hfirst hne).1 hdone
  | some x =>
    cases x with
    | exceptional t => exact ⟨t, rfl⟩
    | normal a =>
      obtain ⟨t, ht⟩ := hall _ (h.normal a hfirst)
      cases ht

end Race

end ContactDiscovery.Lib.Futures
