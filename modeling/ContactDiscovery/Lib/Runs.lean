/-
  ContactDiscovery.Lib.Runs — runs of a machine given by a partial step function. An event that
  is not enabled ends the run. `Always P` is that every state the run visits has `P`, `Meets C`
  that every step of it is taken in a state and by an event that `C` allows.

  Proved: `run_map`, runs of one machine are runs of another that can do its steps; `always_of_inv`,
  the invariant rule for runs whose steps meet a condition;
  `meets_of_always`, its converse when breaking the condition breaks the property;
  `always_iff_meets`, both at once where one step keeps the property exactly if it meets the
  condition; `meets_of_inv`, the rule for the condition where the invariant gives it; `Always.run`, a
  property of all visited states is one of the last; `run_of_inv`, the rule for the last state when
  every step keeps the property; `run_history`, the same for a property of the events too, with
  `concat_eq_split` and `forall_split_concat` for histories that are taken apart at an event.
-/

import Mathlib.Data.List.Basic

namespace ContactDiscovery.Lib.Runs

variable {σ ε : Type} (step : σ → ε → Option σ)

/-- The state after the events, if all of them were enabled. -/
def run : σ → List ε → Option σ
  | s, [] => some s
  | s, e :: es => (step s e).bind fun s' => run s' es

/-- Every state visited has `P`. -/
def Always (P : σ → Prop) : σ → List ε → Prop
  | s, [] => P s
  | s, e :: es => P s ∧ ∀ s', step s e = some s' → Always P s' es

/-- Every step taken meets `C`. -/
def Meets (C : σ → ε → Prop) : σ → List ε → Prop
  | _, [] => True
  | s, e :: es => ∀ s', step s e = some s' → C s e ∧ Meets C s' es

instance decidableMeets (C : σ → ε → Prop) [∀ s e, Decidable (C s e)] :
    ∀ (es : List ε) (s : σ), Decidable (Meets step C s es)
  | [], _ => isTrue trivial
  | e :: es, s =>
    match h : step s e with
    | none => isTrue fun _ hs => absurd (h.symm.trans hs) (by simp)
    | some t =>
      have := decidableMeets C es t
      decidable_of_iff (C s e ∧ Meets step C t es)
        ⟨fun hc _ hs => Option.some.inj (h.symm.trans hs) ▸ hc, fun hm => hm t h⟩

theorem run_append (es es' : List ε) (s : σ) : run step s (es ++ es') = (run step s es).bind fun t => run step t es' := by
  induction es generalizing s with
  | nil => rfl
  | cons e es ih =>
    simp only [List.cons_append, run]
    cases step s e with
    | none => rfl
    | some t => exact ih t

variable {step} in
/-- A machine that takes each step of another, on its own states and events, takes its runs. -/
theorem run_map {τ δ : Type} {step' : τ → δ → Option τ} {f : σ → τ} {g : ε → δ}
    (hstep : ∀ s e s', step s e = some s' → step' (f s) (g e) = some (f s')) {es : List ε} {s s' : σ}
    (h : run step s es = some s') : run step' (f s) (es.map g) = some (f s') := by
  induction es generalizing s with
  | nil => cases h; rfl
  | cons e es ih =>
    obtain ⟨t, ht, hrest⟩ := Option.bind_eq_some_iff.mp h
    rw [List.map_cons, run, hstep s e t ht]
    exact ih hrest

variable {step} in
theorem meets_of_step {C : σ → ε → Prop} (h : ∀ s e s', step s e = some s' → C s e) (s : σ) (es : List ε) :
    Meets step C s es := by
  induction es generalizing s with
  | nil => trivial
  | cons e es ih => exact fun s' hs => ⟨h s e s' hs, ih s'⟩

theorem meets_true (s : σ) (es : List ε) : Meets step (fun _ _ => True) s es := meets_of_step (fun _ _ _ _ => trivial) s es

variable {step}

/-- A property that steps meeting `C` keep holds all along a run whose steps meet it. -/
theorem always_of_inv {P : σ → Prop} {C : σ → ε → Prop}
    (hstep : ∀ s e s', P s → C s e → step s e = some s' → P s') :
    ∀ (es : List ε) (s : σ), P s → Meets step C s es → Always step P s es := by
  intro es
  induction es with
  | nil => intro s hs _; exact hs
  | cons e es ih =>
    intro s hs hm
    refine ⟨hs, fun s' h => ?_⟩
    obtain ⟨hc, hm'⟩ := hm s' h
    exact ih s' (hstep s e s' hs hc h) hm'

theorem Always.mono {P Q : σ → Prop} (hPQ : ∀ s, P s → Q s) :
    ∀ (es : List ε) (s : σ), Always step P s es → Always step Q s es := by
  intro es
  induction es with
  | nil => intro s h; exact hPQ s h
  | cons e es ih => intro s h; exact ⟨hPQ s h.1, fun s' hs => ih s' (h.2 s' hs)⟩

theorem Always.head {P : σ → Prop} {s : σ} {es : List ε} (h : Always step P s es) : P s := by
  cases es with
  | nil => exact h
  | cons e es => exact h.1

/-- A step that breaks `C` and leads to a state without `P` keeps a run from having `P`
    always. -/
theorem meets_of_always {P : σ → Prop} {C : σ → ε → Prop}
    (hbreak : ∀ s e s', P s → step s e = some s' → ¬C s e → ¬P s') :
    ∀ (es : List ε) (s : σ), Always step P s es → Meets step C s es := by
  intro es
  induction es with
  | nil => intro s _; trivial
  | cons e es ih =>
    intro s h s' hs
    have hrest := h.2 s' hs
    refine ⟨?_, ih s' hrest⟩
    by_contra hc
    exact hbreak s e s' h.1 hs hc hrest.head

/-- Where, beside a property that steps keep as long as `P` holds, a step keeps `P` exactly if it meets
    `C`, the runs that always have `P` are those whose steps meet `C`. -/
theorem always_iff_meets {P Q : σ → Prop} {C : σ → ε → Prop}
    (hstep : ∀ s e s', P s → Q s → step s e = some s' → (P s' ↔ C s e) ∧ Q s') :
    ∀ (es : List ε) (s : σ), P s → Q s → (Always step P s es ↔ Meets step C s es) := by
  intro es
  induction es with
  | nil => intro s hp _; exact iff_of_true hp trivial
  | cons e es ih =>
    intro s hp hq
    constructor
    · rintro ⟨-, h⟩ s' hs
      obtain ⟨hiff, hq'⟩ := hstep s e s' hp hq hs
      have hp' := (h s' hs).head
      exact ⟨hiff.mp hp', (ih s' hp' hq').mp (h s' hs)⟩
    · intro h
      refine ⟨hp, fun s' hs => ?_⟩
      obtain ⟨hiff, hq'⟩ := hstep s e s' hp hq hs
      obtain ⟨hc, h⟩ := h s' hs
      exact (ih s' (hiff.mpr hc) hq').mpr h

theorem meets_of_inv {P : σ → Prop} {C : σ → ε → Prop} (hstep : ∀ s e s', P s → step s e = some s' → C s e ∧ P s') :
    ∀ (es : List ε) (s : σ), P s → Meets step C s es := by
  intro es
  induction es with
  | nil => intro s _; trivial
  | cons e es ih =>
    intro s hs s' h
    obtain ⟨hc, hs'⟩ := hstep s e s' hs h
    exact ⟨hc, ih s' hs'⟩

theorem Meets.after {C : σ → ε → Prop} {es es' : List ε} {s t : σ} (h : Meets step C s (es ++ es'))
    (hr : run step s es = some t) : Meets step C t es' := by
  induction es generalizing s with
  | nil => cases hr; exact h
  | cons e es ih =>
    rw [run, Option.bind_eq_some_iff] at hr
    obtain ⟨s', hs, hr⟩ := hr
    exact ih (h s' hs).2 hr

/-- A property of the events so far and the state they led to, which every step keeps. -/
theorem run_history {P : List ε → σ → Prop} {s₀ : σ} (hstart : P [] s₀)
    (hstep : ∀ es s e s', P es s → step s e = some s' → P (es ++ [e]) s') {es : List ε} {s : σ} (hr : run step s₀ es = some s) :
    P es s := by
  suffices hrest : ∀ (es before : List ε) (s₀ : σ), P before s₀ → run step s₀ es = some s → P (before ++ es) s from
    hrest es [] s₀ hstart hr
  intro es
  induction es with
  | nil =>
    intro before s₀ hp hr
    cases hr
    rwa [List.append_nil]
  | cons e es ih =>
    intro before s₀ hp hr
    rw [run, Option.bind_eq_some_iff] at hr
    obtain ⟨t, ht, hr⟩ := hr
    rw [← List.singleton_append, ← List.append_assoc]
    exact ih (before ++ [e]) t (hstep before s₀ e t hp ht) hr

theorem concat_eq_split {es before after : List ε} {e x : ε} :
    es ++ [e] = before ++ x :: after ↔
      (es = before ∧ e = x ∧ after = []) ∨ ∃ rest, after = rest ++ [e] ∧ es = before ++ x :: rest := by
  constructor
  · intro h
    rcases List.eq_nil_or_concat' after with hnil | ⟨rest, x', hrest⟩
    · subst hnil
      obtain ⟨hes, he⟩ := List.append_inj' h rfl
      cases he
      exact .inl ⟨hes, rfl, rfl⟩
    · subst hrest
      rw [← List.cons_append, ← List.append_assoc] at h
      obtain ⟨hes, he⟩ := List.append_inj' h rfl
      cases he
      exact .inr ⟨rest, rfl, hes⟩
  · intro h
    rcases h with ⟨hes, he, hafter⟩ | ⟨rest, hafter, hes⟩
    · rw [hes, he, hafter]
    · rw [hes, hafter, List.append_assoc, List.cons_append]

theorem forall_split_concat {P : List ε → ε → Prop} {es : List ε} {e : ε} :
    (∀ before x after, es ++ [e] = before ++ x :: after → P before x) ↔
      (∀ before x after, es = before ++ x :: after → P before x) ∧ P es e := by
  constructor
  · intro h
    refine ⟨fun before x after hes => h before x (after ++ [e]) ?_, h es e [] rfl⟩
    exact concat_eq_split.mpr (.inr ⟨after, rfl, hes⟩)
  · intro hboth before x after h
    obtain ⟨hold, hnew⟩ := hboth
    rcases concat_eq_split.mp h with ⟨hes, he, -⟩ | ⟨rest, -, hes⟩
    · rw [← hes, ← he]
      exact hnew
    · exact hold before x rest hes

theorem Always.run {P : σ → Prop} :
    ∀ (es : List ε) (s s' : σ), Always step P s es → run step s es = some s' → P s' := by
  intro es
  induction es with
  | nil => intro s s' h hr; cases hr; exact h
  | cons e es ih =>
    intro s s' h hr
    rw [Runs.run, Option.bind_eq_some_iff] at hr
    obtain ⟨t, ht, hr⟩ := hr
    exact ih t s' (h.2 t ht) hr

theorem run_of_inv {P : σ → Prop} (hstep : ∀ s e s', P s → step s e = some s' → P s') {es : List ε} {s s' : σ} (hs : P s)
    (hr : run step s es = some s') : P s' :=
  Always.run es s s' (always_of_inv (C := fun _ _ => True) (fun s e s' h _ => hstep s e s' h) es s hs (meets_true step s es)) hr

end ContactDiscovery.Lib.Runs
