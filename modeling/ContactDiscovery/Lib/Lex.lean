/-
  ContactDiscovery.Lib.Lex — the order of texts, which compares them at their first difference.

  Proved: of texts that start with parts of one length, the first parts decide, and the rest if they
  are equal (`append_lt_append_iff`).
-/

import Mathlib

namespace ContactDiscovery.Lib.Lex

variable {α : Type} [LinearOrder α]

theorem append_lt_append_iff {a b x y : List α} (h : a.length = b.length) : a ++ x < b ++ y ↔ a < b ∨ a = b ∧ x < y := by
  induction a generalizing b with
  | nil =>
    cases b with
    | nil => simp
    | cons c b => cases h
  | cons c a ih =>
    cases b with
    | nil => cases h
    | cons d b =>
      simp only [List.length_cons, Nat.add_right_cancel_iff] at h
      simp only [List.cons_append, List.cons_lt_cons_iff, ih h, List.cons.injEq]
      tauto

end ContactDiscovery.Lib.Lex
