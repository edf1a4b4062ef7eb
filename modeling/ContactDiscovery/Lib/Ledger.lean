/-
  ContactDiscovery.Lib.Ledger — things that are each in one place: in one of several pots, or spent.
  A new thing goes into a pot or is spent at once; a pot is emptied, and what was in it is spent or
  forgotten.

  Proved: these operations keep the places apart (`Separate.put`, `Separate.pay`, `Separate.spend`).
-/

import Mathlib.Data.List.Nodup
import Mathlib.Logic.Function.Basic

namespace ContactDiscovery.Lib.Ledger

variable {α ι : Type} [DecidableEq ι]

/-- Nothing is in two places, or twice in one. -/
structure Separate (spent : List α) (pots : ι → List α) : Prop where
  spent_nodup : spent.Nodup
  pot_nodup : ∀ i, (pots i).Nodup
  apart : ∀ i j, i ≠ j → List.Disjoint (pots i) (pots j)
  unspent : ∀ i, List.Disjoint spent (pots i)

def Fresh (a : α) (spent : List α) (pots : ι → List α) : Prop := a ∉ spent ∧ ∀ i, a ∉ pots i

variable {spent : List α} {pots : ι → List α}

omit [DecidableEq ι] in
theorem Separate.empty : Separate ([] : List α) (fun _ : ι => []) :=
  ⟨List.nodup_nil, fun _ => List.nodup_nil, fun _ _ _ => List.disjoint_nil_left _, fun _ => List.disjoint_nil_left _⟩

theorem Separate.put {a : α} (h : Separate spent pots) (ha : Fresh a spent pots) (i : ι) :
    Separate spent (Function.update pots i (pots i ++ [a])) := by
  have hdisjoint : ∀ {l : List α}, List.Disjoint l (pots i) → a ∉ l → List.Disjoint l (pots i ++ [a]) := by
    intro l hl hal
    rw [List.disjoint_append_right]
    exact ⟨hl, List.disjoint_singleton.mpr hal⟩
  refine ⟨h.spent_nodup, fun j => ?_, fun j k hjk => ?_, fun j => ?_⟩
  · by_cases hj : j = i
    · rw [hj, Function.update_self]
      exact List.Nodup.append (h.pot_nodup i) (List.nodup_singleton a) (List.disjoint_singleton.mpr (ha.2 i))
    · rw [Function.update_of_ne hj]; exact h.pot_nodup j
  · by_cases hj : j = i
    · rw [hj, Function.update_self, Function.update_of_ne (hj ▸ hjk.symm)]
      exact List.disjoint_symm (hdisjoint (h.apart k i (hj ▸ hjk.symm)) (ha.2 k))
    · by_cases hk : k = i
      · rw [hk, Function.update_self, Function.update_of_ne hj]
        exact hdisjoint (h.apart j i hj) (ha.2 j)
      · rw [Function.update_of_ne hj, Function.update_of_ne hk]; exact h.apart j k hjk
  · by_cases hj : j = i
    · rw [hj, Function.update_self]; exact hdisjoint (h.unspent i) ha.1
    · rw [Function.update_of_ne hj]; exact h.unspent j

omit [DecidableEq ι] in
theorem Separate.pay {a : α} (h : Separate spent pots) (ha : Fresh a spent pots) : Separate (spent ++ [a]) pots := by
  refine ⟨List.Nodup.append h.spent_nodup (List.nodup_singleton a) (List.disjoint_singleton.mpr ha.1), h.pot_nodup,
    h.apart, fun i => ?_⟩
  rw [List.disjoint_append_left]
  exact ⟨h.unspent i, List.singleton_disjoint.mpr (ha.2 i)⟩

/-- A pot is emptied; some of it, or all, is spent. -/
theorem Separate.spend {i : ι} {l : List α} (h : Separate spent pots) (hl : l.Sublist (pots i)) :
    Separate (spent ++ l) (Function.update pots i []) := by
  have hsub : ∀ {j : ι} {m : List α}, List.Disjoint m (pots j) → List.Disjoint m (Function.update pots i [] j) := by
    intro j m hm
    by_cases hj : j = i
    · rw [hj, Function.update_self]; exact List.disjoint_nil_right m
    · rw [Function.update_of_ne hj]; exact hm
  refine ⟨List.Nodup.append h.spent_nodup (hl.nodup (h.pot_nodup i)) ?_, fun j => ?_, fun j k hjk => ?_, fun j => ?_⟩
  · exact List.disjoint_of_subset_right hl.subset (h.unspent i)
  · by_cases hj : j = i
    · rw [hj, Function.update_self]; exact List.nodup_nil
    · rw [Function.update_of_ne hj]; exact h.pot_nodup j
  · exact List.disjoint_symm (hsub (List.disjoint_symm (hsub (h.apart j k hjk))))
  · rw [List.disjoint_append_left]
    refine ⟨hsub (h.unspent j), ?_⟩
    by_cases hj : j = i
    · rw [hj, Function.update_self]; exact List.disjoint_nil_right l
    · rw [Function.update_of_ne hj]
      exact List.disjoint_of_subset_left hl.subset (h.apart i j (Ne.symm hj))

end ContactDiscovery.Lib.Ledger
