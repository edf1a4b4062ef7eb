/-
  ContactDiscovery.Lib.Replay — a map that follows a log of messages, each of which sets or clears
  at most one key. After a log a key has the value the last message about it gave it, whatever
  the map was before, or, if no message was about it, the value it had (`replay_cases`); so writing
  a key before the log is replayed adds at most that value (`replay_update_present`).
-/

import Mathlib.Logic.Function.Basic

namespace ContactDiscovery.Lib.Replay

variable {κ ν μ : Type} [DecidableEq κ] (effect : μ → Option (κ × Option ν))

def apply (f : κ → Option ν) (message : μ) : κ → Option ν :=
  match effect message with
  | none => f
  | some (k, v) => Function.update f k v

def replay (f : κ → Option ν) (log : List μ) : κ → Option ν := log.foldl (apply effect) f

theorem replay_cons (f : κ → Option ν) (message : μ) (log : List μ) :
    replay effect f (message :: log) = replay effect (apply effect f message) log := rfl

theorem replay_concat (f : κ → Option ν) (log : List μ) (message : μ) :
    replay effect f (log ++ [message]) = apply effect (replay effect f log) message := by
  rw [replay, List.foldl_append]; rfl

/-- The log leaves the key alone, or gives it a value that does not depend on the map. -/
theorem replay_cases (log : List μ) (k : κ) :
    (∀ f, replay effect f log k = f k) ∨ ∃ v, ∀ f, replay effect f log k = v := by
  induction log with
  | nil => exact Or.inl fun f => rfl
  | cons message log ih =>
    rcases ih with hkeep | ⟨v, hset⟩
    · have happly : ∀ f, replay effect f (message :: log) k = apply effect f message k := fun f => hkeep _
      cases hm : effect message with
      | none => exact Or.inl fun f => by rw [happly, apply, hm]
      | some e =>
        by_cases hk : k = e.1
        · exact Or.inr ⟨e.2, fun f => by rw [happly, apply, hm, hk]; exact Function.update_self _ _ _⟩
        · exact Or.inl fun f => by rw [happly, apply, hm]; exact Function.update_of_ne hk _ _
    · exact Or.inr ⟨v, fun f => hset _⟩

theorem replay_of_noEffect {effect : μ → Option (κ × Option ν)} {log : List μ} {k : κ}
    (h : ∀ m ∈ log, (effect m).map Prod.fst ≠ some k) (f : κ → Option ν) : replay effect f log k = f k := by
  induction log generalizing f with
  | nil => rfl
  | cons m log ih =>
    rw [replay_cons, ih fun m' hm' => h m' (List.mem_cons_of_mem _ hm'), apply]
    cases hm : effect m with
    | none => rfl
    | some e =>
      have hne : k ≠ e.1 := fun he => h m List.mem_cons_self (by rw [hm, he]; rfl)
      exact Function.update_of_ne hne _ _

/-- A value written before the log is replayed is either the key's last one or is written over. -/
theorem replay_update_present {effect : μ → Option (κ × Option ν)} {log : List μ} {m : κ → Option ν} {k q : κ}
    {v : Option ν} {P : Prop} (h : replay effect m log q ≠ none ↔ P) (hv : q = k → (v ≠ none ↔ P)) :
    replay effect (Function.update m k v) log q ≠ none ↔ P := by
  rcases replay_cases effect log q with hkeep | ⟨w, hset⟩
  · rw [hkeep]
    by_cases hq : q = k
    · subst hq
      rw [Function.update_self]; exact hv rfl
    · rw [Function.update_of_ne hq, ← hkeep m]; exact h
  · rw [hset, ← hset m]; exact h

end ContactDiscovery.Lib.Replay
