/-
  ContactDiscovery.Lib.Probe — linear probing with tombstones, over any keys.

  A loop walks the slots from a start, one after the other and from the last to the first,
  until a test of the slot answers or it is back at the start (`probe`). A slot is free, deleted
  or live with a key. In a well-formed table (`WF`) no key is in two slots, and no slot walked
  from a key's hash before reaching its slot is free.

  Proved: `probe_some` / `probe_none`, a walk answers at the first slot where the test does, and
  gives up exactly when none of the slots does; `WF.find`, a walk for a key that stops at free
  slots finds it exactly when it is there, from its hash or from any slot on the way to it;
  `WF.fill` and `WF.bury`, filling the first vacant slot of a walk and leaving a tombstone keep
  the table well formed.
-/

import Mathlib.Tactic

namespace ContactDiscovery.Lib.Probe

/-! ## Walks -/

def next (n i : Nat) : Nat := if i + 1 = n then 0 else i + 1

/-- Walk from `i` until the test answers, or the next slot is `start`. -/
def probe {α : Type} (n : Nat) (test : Nat → Option α) (start : Nat) : Nat → Nat → Option α
  | 0, _ => none
  | fuel + 1, i =>
    match test i with
    | some r => some r
    | none => if next n i = start then none else probe n test start fuel (next n i)

theorem next_mod {n s d : Nat} (hn : 0 < n) : next n ((s + d) % n) = (s + (d + 1)) % n := by
  have hlt := Nat.mod_lt (s + d) hn
  have hstep : (s + (d + 1)) % n = ((s + d) % n + 1) % n := by rw [Nat.mod_add_mod, Nat.add_assoc]
  rw [hstep]
  generalize (s + d) % n = i at hlt
  unfold next
  by_cases he : i + 1 = n
  · rw [if_pos he, he, Nat.mod_self]
  · rw [if_neg he, Nat.mod_eq_of_lt (by omega)]

theorem walk_ne_start {n s d : Nat} (hs : s < n) (hd : 0 < d) (hdn : d < n) : (s + d) % n ≠ s := by
  intro h
  by_cases hlt : s + d < n
  · rw [Nat.mod_eq_of_lt hlt] at h; omega
  · rw [Nat.mod_eq_sub_mod (by omega), Nat.mod_eq_of_lt (by omega)] at h; omega

/-- The walk from the `d`-th slot on, with fuel for the rest of the circle. -/
theorem probe_from {α : Type} {n s : Nat} (test : Nat → Option α) (hs : s < n) :
    ∀ (fuel d : Nat), d + fuel = n → 0 < fuel →
      (∀ r, probe n test s fuel ((s + d) % n) = some r →
        ∃ d', d ≤ d' ∧ d' < n ∧ test ((s + d') % n) = some r ∧ ∀ x, d ≤ x → x < d' → test ((s + x) % n) = none) ∧
      (probe n test s fuel ((s + d) % n) = none → ∀ x, d ≤ x → x < n → test ((s + x) % n) = none) := by
  intro fuel
  induction fuel with
  | zero => intro d _ h0; omega
  | succ fuel ih =>
    intro d hd _
    rw [probe]
    cases ht : test ((s + d) % n) with
    | some r =>
      refine ⟨fun r' hr => ?_, fun hc => by cases hc⟩
      cases hr
      exact ⟨d, Nat.le_refl d, by omega, ht, fun x h1 h2 => by omega⟩
    | none =>
      simp only [next_mod (s := s) (d := d) (by omega : 0 < n)]
      by_cases hlast : fuel = 0
      · -- the circle is closed
        have hback : (s + (d + 1)) % n = s := by
          rw [show s + (d + 1) = s + n by omega, Nat.add_mod_right, Nat.mod_eq_of_lt hs]
        rw [if_pos hback]
        refine ⟨fun r hr => (by cases hr), fun _ x h1 h2 => ?_⟩
        rw [show x = d by omega]; exact ht
      · rw [if_neg (walk_ne_start hs (by omega) (by omega))]
        obtain ⟨hsome, hnone⟩ := ih (d + 1) (by omega) (by omega)
        refine ⟨fun r hr => ?_, fun hr x h1 h2 => ?_⟩
        · obtain ⟨d', h1, h2, h3, h4⟩ := hsome r hr
          refine ⟨d', by omega, h2, h3, fun x hx1 hx2 => ?_⟩
          by_cases e : x = d
          · subst e; exact ht
          · exact h4 x (by omega) hx2
        · by_cases e : x = d
          · subst e; exact ht
          · exact hnone hr x (by omega) h2

/-- A walk answers at the first slot where the test does. -/
theorem probe_some {α : Type} {n s : Nat} {test : Nat → Option α} (hs : s < n) {r : α}
    (h : probe n test s n s = some r) :
    ∃ d < n, test ((s + d) % n) = some r ∧ ∀ x < d, test ((s + x) % n) = none := by
  have hz : (s + 0) % n = s := Nat.mod_eq_of_lt hs
  obtain ⟨hsome, -⟩ := probe_from test hs n 0 (by omega) (by omega)
  rw [hz] at hsome
  obtain ⟨d, -, h2, h3, h4⟩ := hsome r h
  exact ⟨d, h2, h3, fun x hx => h4 x (Nat.zero_le x) hx⟩

/-- A walk that gives up has tested every slot. -/
theorem probe_none {α : Type} {n s : Nat} {test : Nat → Option α} (hs : s < n) (h : probe n test s n s = none) :
    ∀ x < n, test ((s + x) % n) = none := by
  have hz : (s + 0) % n = s := Nat.mod_eq_of_lt hs
  obtain ⟨-, hnone⟩ := probe_from test hs n 0 (by omega) (by omega)
  rw [hz] at hnone
  exact fun x hx => hnone h x (Nat.zero_le x) hx

/-! ## Tables -/

inductive Cell (κ : Type) where
  | free
  | deleted
  | live (k : κ)
  deriving DecidableEq

variable {κ : Type}

structure WF (n : Nat) (hash : κ → Nat) (cell : Nat → Cell κ) : Prop where
  unique : ∀ i j k, i < n → j < n → cell i = .live k → cell j = .live k → i = j
  path : ∀ i k, i < n → cell i = .live k →
    ∃ d < n, (hash k + d) % n = i ∧ ∀ x < d, cell ((hash k + x) % n) ≠ .free

variable {n : Nat} {hash : κ → Nat} {cell : Nat → Cell κ}

/-- Filling a slot that no free slot comes before, with a key that is nowhere. -/
theorem WF.fill (h : WF n hash cell) {k : κ} {d : Nat} (hd : d < n)
    (habsent : ∀ i < n, cell i ≠ .live k) (hpath : ∀ x < d, cell ((hash k + x) % n) ≠ .free) :
    WF n hash (Function.update cell ((hash k + d) % n) (.live k)) := by
  have hstill : ∀ i, cell i ≠ .free → Function.update cell ((hash k + d) % n) (.live k) i ≠ .free := by
    intro i hi
    by_cases e : i = (hash k + d) % n
    · subst e; rw [Function.update_self]; exact fun hc => by cases hc
    · rw [Function.update_of_ne e]; exact hi
  refine ⟨fun i j k' hi hj hci hcj => ?_, fun i k' hi hci => ?_⟩
  · by_cases ei : i = (hash k + d) % n
    · by_cases ej : j = (hash k + d) % n
      · rw [ei, ej]
      · rw [ei, Function.update_self] at hci
        cases hci
        rw [Function.update_of_ne ej] at hcj
        exact absurd hcj (habsent j hj)
    · rw [Function.update_of_ne ei] at hci
      by_cases ej : j = (hash k + d) % n
      · rw [ej, Function.update_self] at hcj
        cases hcj
        exact absurd hci (habsent i hi)
      · rw [Function.update_of_ne ej] at hcj
        exact h.unique i j k' hi hj hci hcj
  · by_cases ei : i = (hash k + d) % n
    · rw [ei, Function.update_self] at hci
      cases hci
      exact ⟨d, hd, ei.symm, fun x hx => hstill _ (hpath x hx)⟩
    · rw [Function.update_of_ne ei] at hci
      obtain ⟨e, he, hei, hp⟩ := h.path i k' hi hci
      exact ⟨e, he, hei, fun x hx => hstill _ (hp x hx)⟩

theorem WF.bury (h : WF n hash cell) (i0 : Nat) : WF n hash (Function.update cell i0 .deleted) := by
  have hlive : ∀ i k, Function.update cell i0 .deleted i = .live k → cell i = .live k := by
    intro i k hc
    by_cases e : i = i0
    · subst e; rw [Function.update_self] at hc; cases hc
    · rwa [Function.update_of_ne e] at hc
  refine ⟨fun i j k hi hj hci hcj => h.unique i j k hi hj (hlive i k hci) (hlive j k hcj), fun i k hi hci => ?_⟩
  obtain ⟨e, he, hei, hp⟩ := h.path i k hi (hlive i k hci)
  refine ⟨e, he, hei, fun x hx => ?_⟩
  by_cases e0 : (hash k + x) % n = i0
  · rw [e0, Function.update_self]; exact fun hc => by cases hc
  · rw [Function.update_of_ne e0]; exact hp x hx

/-! ## Finding a key -/

variable [DecidableEq κ]

/-- The test of a walk for a key: free slots end it, the key's slot is the answer. -/
def keyTest (cell : Nat → Cell κ) (k : κ) (i : Nat) : Option (Option Nat) :=
  match cell i with
  | .free => some none
  | .deleted => none
  | .live k' => if k' = k then some (some i) else none

theorem keyTest_found {cell : Nat → Cell κ} {k : κ} {i j : Nat} (h : keyTest cell k i = some (some j)) :
    j = i ∧ cell i = .live k := by
  unfold keyTest at h
  split at h
  · cases h
  · cases h
  · rename_i k' hc
    split at h
    · rename_i hk
      cases h
      exact ⟨rfl, hk ▸ hc⟩
    · cases h

theorem keyTest_none {cell : Nat → Cell κ} {k : κ} {i : Nat} (hf : cell i ≠ .free) (hk : cell i ≠ .live k) :
    keyTest cell k i = none := by
  unfold keyTest
  split
  · rename_i hc; exact absurd hc hf
  · rfl
  · rename_i k' hc
    rw [if_neg (fun e : k' = k => hk (e ▸ hc))]

theorem keyTest_live {cell : Nat → Cell κ} {k : κ} {i : Nat} (hk : cell i = .live k) :
    keyTest cell k i = some (some i) := by
  unfold keyTest
  simp only [hk, if_true]

/-- A walk for a key, from a slot `d` after its hash such that the key is not before it: what it
    finds is the key's slot, and if it finds nothing the key is nowhere. -/
theorem WF.find (h : WF n hash cell) {k : κ} {s d : Nat} (hs : s < n) (hsd : (hash k + d) % n = s)
    (hbefore : ∀ x < d, cell ((hash k + x) % n) ≠ .live k) :
    (∀ j, probe n (keyTest cell k) s n s = some (some j) → j < n ∧ cell j = .live k) ∧
    ((∀ j, probe n (keyTest cell k) s n s ≠ some (some j)) → ∀ i < n, cell i ≠ .live k) := by
  constructor
  · intro j hj
    obtain ⟨y, -, hy, -⟩ := probe_some hs hj
    obtain ⟨rfl, hc⟩ := keyTest_found hy
    exact ⟨Nat.mod_lt _ (by omega), hc⟩
  · intro hno i hi hc
    obtain ⟨e, he, hei, hpath⟩ := h.path i k hi hc
    -- the key is at distance `e` of its hash, not before `d`
    have hde : d ≤ e := by
      by_contra hlt
      exact hbefore e (by omega) (hei ▸ hc)
    have hwalk : ∀ x, (s + x) % n = (hash k + (d + x)) % n := by
      intro x; rw [← hsd, Nat.mod_add_mod, Nat.add_assoc]
    have hat : keyTest cell k ((s + (e - d)) % n) = some (some i) := by
      rw [hwalk, show d + (e - d) = e by omega, hei]; exact keyTest_live hc
    have hfirst : ∀ x < e - d, keyTest cell k ((s + x) % n) = none := by
      intro x hx
      rw [hwalk]
      refine keyTest_none (hpath (d + x) (by omega)) fun hl => ?_
      have hsame := h.unique _ i k (Nat.mod_lt _ (by omega)) hi hl hc
      -- two slots of one walk at different distances below `n` differ
      have hne := walk_ne_start (n := n) (s := (hash k + (d + x)) % n) (d := e - (d + x))
        (Nat.mod_lt _ (by omega)) (by omega) (by omega)
      rw [Nat.mod_add_mod, show hash k + (d + x) + (e - (d + x)) = hash k + e by omega, hei] at hne
      exact hne hsame.symm
    cases hp : probe n (keyTest cell k) s n s with
    | none =>
      have := probe_none hs hp (e - d) (by omega)
      rw [hat] at this; cases this
    | some r =>
      obtain ⟨y, hy, hty, hymin⟩ := probe_some hs hp
      rcases Nat.lt_trichotomy y (e - d) with hlt | heq | hgt
      · rw [hfirst y hlt] at hty; cases hty
      · rw [heq, hat] at hty; cases hty; exact hno i hp
      · have := hymin (e - d) hgt
        rw [hat] at this; cases this

end ContactDiscovery.Lib.Probe
