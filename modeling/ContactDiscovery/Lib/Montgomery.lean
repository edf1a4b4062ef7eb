/-
  ContactDiscovery.Lib.Montgomery — a curve `y² = x³ + a x² + x`, and multiples of its points by their
  x-coordinates alone.

  A pair `(X, Z)` stands for the x-coordinate `X / Z` of a point, and for the point at infinity where
  `Z = 0` (`Represents`). Such pairs are doubled (`double_represents`), and two are added whose
  difference is a point with a known x-coordinate `u`, not 0 (`diffAdd_represents`). The Montgomery
  ladder has a multiple and the next one at every time, and takes one bit of the scalar in each step;
  so at its end it has the multiple (`ladder_represents`). Where `u` is 0, the ladder loses the point,
  but then every even multiple is the point at infinity, and the result 0 is what is wanted
  (`ladder_zero`, `mulX_eq`).

  `mulX_comm`: over an algebraically closed field every `u` is an x-coordinate, so multiples by two even
  scalars in turn do not depend on their order.
-/

import Mathlib

namespace ContactDiscovery.Lib

open WeierstrassCurve.Affine

/-- `y² = x³ + a x² + x`. -/
def montgomery {F : Type} [CommRing F] (a : F) : WeierstrassCurve.Affine F :=
  { a₁ := 0, a₂ := a, a₃ := 0, a₄ := 1, a₆ := 0 }

namespace Montgomery

structure Pair (F : Type) where
  x : F
  z : F

def Pair.map {F K : Type} (f : F → K) (q : Pair F) : Pair K := ⟨f q.x, f q.z⟩

section Ring

variable {F : Type} [CommRing F]

/-- `2Q`, with `a24 = (a - 2) / 4`. -/
def double (a24 : F) (q : Pair F) : Pair F :=
  let aa := (q.x + q.z) ^ 2
  let bb := (q.x - q.z) ^ 2
  let e := aa - bb
  ⟨aa * bb, e * (aa + a24 * e)⟩

/-- `Q + Q'`, where `Q' - Q` has x-coordinate `u`. -/
def diffAdd (u : F) (q q' : Pair F) : Pair F :=
  let da := (q'.x - q'.z) * (q.x + q.z)
  let cb := (q'.x + q'.z) * (q.x - q.z)
  ⟨(da + cb) ^ 2, u * (da - cb) ^ 2⟩

/-- From a multiple and the next to twice the multiple, plus the bit, and the next. -/
def ladderStep (a24 u : F) (q : Pair F × Pair F) (bit : Bool) : Pair F × Pair F :=
  if bit then (diffAdd u q.2 q.1, double a24 q.2) else (double a24 q.1, diffAdd u q.1 q.2)

/-- The ladder over the bits of a scalar, highest first. -/
def ladder (a24 u : F) (bits : List Bool) : Pair F × Pair F :=
  bits.foldl (ladderStep a24 u) (⟨1, 0⟩, ⟨u, 1⟩)

def scalar (bits : List Bool) : Nat := bits.foldl (fun n bit => 2 * n + bit.toNat) 0

theorem scalar_concat (bits : List Bool) (bit : Bool) : scalar (bits ++ [bit]) = 2 * scalar bits + bit.toNat := by
  rw [scalar, List.foldl_concat, scalar]

theorem scalar_append (a b : List Bool) : scalar (a ++ b) = scalar a * 2 ^ b.length + scalar b := by
  induction b using List.reverseRecOn with
  | nil => simp [scalar]
  | append_singleton b bit ih =>
    rw [← List.append_assoc, scalar_concat, ih, scalar_concat, List.length_append, List.length_singleton, pow_succ]
    ring

end Ring

section Field

variable {F : Type} [Field F]

/-- The x-coordinate of a multiple: 0 for the point at infinity. -/
def mulX (a24 u : F) (bits : List Bool) : F :=
  let q := (ladder a24 u bits).1
  q.x * q.z⁻¹

variable {a : F}

theorem equation_iff (x y : F) : (montgomery a).Equation x y ↔ y ^ 2 = x ^ 3 + a * x ^ 2 + x := by
  rw [WeierstrassCurve.Affine.equation_iff]
  simp [montgomery]

@[simp] theorem negY_eq (x y : F) : (montgomery a).negY x y = -y := by simp [montgomery, negY]

@[simp] theorem addX_eq (x x' l : F) : (montgomery a).addX x x' l = l ^ 2 - a - x - x' := by simp [montgomery, addX]

theorem nonsingular_of_equation (h2 : (2 : F) ≠ 0) (ha : a ^ 2 ≠ 4) {x y : F} (h : y ^ 2 = x ^ 3 + a * x ^ 2 + x) :
    (montgomery a).Nonsingular x y := by
  have hdelta : (montgomery a).Δ ≠ 0 := by
    have heq : (montgomery a).Δ = 2 ^ 4 * (a ^ 2 - 4) := by
      simp only [montgomery, WeierstrassCurve.Δ, WeierstrassCurve.b₂, WeierstrassCurve.b₄, WeierstrassCurve.b₆,
        WeierstrassCurve.b₈]
      ring
    rw [heq]
    exact mul_ne_zero (pow_ne_zero 4 h2) (sub_ne_zero.mpr ha)
  exact (WeierstrassCurve.Affine.equation_iff_nonsingular_of_Δ_ne_zero hdelta).mp ((equation_iff x y).mpr h)

/-- The pair stands for the x-coordinate of the point. -/
def Represents (Q : (montgomery a).Point) (q : Pair F) : Prop :=
  ∃ c : F, c ≠ 0 ∧ q.x = c * Matrix.vecHead Q.xRep ∧ q.z = c * Matrix.vecHead (Matrix.vecTail Q.xRep)

theorem represents_zero {q : Pair F} : Represents (0 : (montgomery a).Point) q ↔ q.x ≠ 0 ∧ q.z = 0 := by
  simp only [Represents, Point.xRep_zero, Matrix.tail_cons, Matrix.head_cons, mul_one, mul_zero]
  exact ⟨fun ⟨c, hc, hx, hz⟩ => ⟨by rw [hx]; exact hc, hz⟩, fun ⟨hx, hz⟩ => ⟨q.x, hx, rfl, hz⟩⟩

theorem represents_some {x y : F} (h : (montgomery a).Nonsingular x y) {q : Pair F} :
    Represents (Point.some x y h) q ↔ q.z ≠ 0 ∧ q.x = q.z * x := by
  simp only [Represents, Point.xRep_some, Matrix.tail_cons, Matrix.head_cons, mul_one]
  constructor
  · intro ⟨c, hc, hx, hz⟩
    exact ⟨by rw [hz]; exact hc, by rw [hx, hz]⟩
  · intro ⟨hz, hx⟩
    exact ⟨q.z, hz, hx, rfl⟩

theorem represents_neg {Q : (montgomery a).Point} {q : Pair F} : Represents (-Q) q ↔ Represents Q q := by
  rw [Represents, Represents, Point.xRep_neg]

/-! ## Doubling and adding -/

theorem double_some (a24 : F) (ha24 : 4 * a24 = a - 2) {x y : F} (h : y ^ 2 = x ^ 3 + a * x ^ 2 + x) (z : F) :
    (double a24 ⟨z * x, z⟩).x = z ^ 4 * (x ^ 2 - 1) ^ 2 ∧ (double a24 ⟨z * x, z⟩).z = z ^ 4 * (2 * y) ^ 2 := by
  have hx : (double a24 ⟨z * x, z⟩).x = z ^ 4 * (x ^ 2 - 1) ^ 2 := by
    simp only [double]; ring
  refine ⟨hx, ?_⟩
  simp only [double]
  linear_combination z ^ 4 * 4 * x ^ 2 * ha24 - 4 * z ^ 4 * h

/-- A point whose double is known to be at infinity has none of the x-coordinates that doubling takes
    to 0. -/
theorem sq_ne_one (ha : a ^ 2 ≠ 4) {x : F} (h : x ^ 3 + a * x ^ 2 + x = 0) : x ^ 2 ≠ 1 := by
  intro hx
  have hax : a + 2 * x = 0 := by linear_combination h - (x + a) * hx
  have ha2 : a ^ 2 = 4 := by linear_combination (a - 2 * x) * hax + 4 * hx
  exact ha ha2

theorem point_cases (Q : (montgomery a).Point) : Q = 0 ∨ ∃ x y h, Q = Point.some x y h := by
  cases Q with
  | zero => exact .inl rfl
  | some x y h => exact .inr ⟨x, y, h, rfl⟩

theorem diffAdd_x (u : F) (q q' : Pair F) : (diffAdd u q q').x = 4 * (q.x * q'.x - q.z * q'.z) ^ 2 := by
  simp only [diffAdd]; ring

theorem diffAdd_z (u : F) (q q' : Pair F) : (diffAdd u q q').z = 4 * u * (q'.x * q.z - q'.z * q.x) ^ 2 := by
  simp only [diffAdd]; ring

variable [DecidableEq F]

/-- The sum and the difference of two points: the product of their x-coordinates. -/
theorem add_mul_sub {x y x' y' s t u v : F} {h : (montgomery a).Nonsingular x y} {h' : (montgomery a).Nonsingular x' y'}
    {hs : (montgomery a).Nonsingular s t} {hu : (montgomery a).Nonsingular u v} (hne : x ≠ x')
    (hadd : Point.some x y h + Point.some x' y' h' = Point.some s t hs)
    (hsub : Point.some x' y' h' - Point.some x y h = Point.some u v hu) :
    s * u * (x - x') ^ 2 = (x * x' - 1) ^ 2 := by
  have hcurve := (equation_iff x y).mp h.1
  have hcurve' := (equation_iff x' y').mp h'.1
  have hd : x - x' ≠ 0 := sub_ne_zero.mpr hne
  have hd' : x' - x ≠ 0 := sub_ne_zero.mpr hne.symm
  rw [Point.add_of_X_ne hne, Point.some.injEq, addX_eq, slope_of_X_ne hne] at hadd
  rw [sub_eq_add_neg, Point.neg_some, Point.add_of_X_ne hne.symm, Point.some.injEq, addX_eq, slope_of_X_ne hne.symm,
    negY_eq] at hsub
  have hs' : s * (x - x') ^ 2 = (y - y') ^ 2 - (a + x + x') * (x - x') ^ 2 := by
    rw [← hadd.1]; field_simp; ring
  have hu' : u * (x - x') ^ 2 = (y + y') ^ 2 - (a + x + x') * (x - x') ^ 2 := by
    have hpow : (x - x') ^ 2 = (x' - x) ^ 2 := by ring
    rw [← hsub.1, hpow]; field_simp; ring
  have hprod : s * u * (x - x') ^ 2 * (x - x') ^ 2 = (x * x' - 1) ^ 2 * (x - x') ^ 2 := by
    linear_combination (u * (x - x') ^ 2) * hs' + ((y - y') ^ 2 - (a + x + x') * (x - x') ^ 2) * hu' +
      (y ^ 2 + (x ^ 3 + a * x ^ 2 + x) - 2 * y' ^ 2 - 2 * ((a + x + x') * (x - x') ^ 2)) * hcurve +
      (y' ^ 2 + (x' ^ 3 + a * x' ^ 2 + x') - 2 * (x ^ 3 + a * x ^ 2 + x) - 2 * ((a + x + x') * (x - x') ^ 2)) * hcurve'
  exact mul_right_cancel₀ (pow_ne_zero 2 hd) hprod

section

variable (h2 : (2 : F) ≠ 0) (ha : a ^ 2 ≠ 4)

include h2 ha

theorem double_represents {a24 : F} (ha24 : 4 * a24 = a - 2) {Q : (montgomery a).Point} {q : Pair F} (h : Represents Q q) :
    Represents (Q + Q) (double a24 q) := by
  cases Q with
  | zero =>
    obtain ⟨hx, hz⟩ := represents_zero.mp h
    refine represents_zero.mpr ⟨?_, ?_⟩
    · simp only [double, hz]
      ring_nf
      exact pow_ne_zero 4 hx
    · simp only [double, hz]
      ring
  | some x y hQ =>
    obtain ⟨hz, hx⟩ := (represents_some hQ).mp h
    obtain ⟨qx, qz⟩ := q
    simp only at hz hx
    subst hx
    have hcurve := (equation_iff x y).mp hQ.1
    obtain ⟨hdx, hdz⟩ := double_some a24 ha24 hcurve qz
    by_cases hy : y = 0
    · -- a point of order two
      have hroot : x ^ 3 + a * x ^ 2 + x = 0 := by rw [← hcurve, hy]; ring
      have hsum : Point.some x y hQ + Point.some x y hQ = 0 :=
        Point.add_self_of_Y_eq (by rw [negY_eq, hy, neg_zero])
      rw [hsum, represents_zero, hdx, hdz]
      refine ⟨mul_ne_zero (pow_ne_zero 4 hz) (pow_ne_zero 2 (sub_ne_zero.mpr (sq_ne_one ha hroot))), ?_⟩
      rw [hy]; ring
    · have h2y : 2 * y ≠ 0 := mul_ne_zero h2 hy
      have hne : y ≠ (montgomery a).negY x y := by
        rw [negY_eq]
        intro h
        exact h2y (by linear_combination h)
      rw [Point.add_self_of_Y_ne hne, represents_some, hdx, hdz]
      refine ⟨mul_ne_zero (pow_ne_zero 4 hz) (pow_ne_zero 2 h2y), ?_⟩
      have hslope : (montgomery a).slope x x y y = (3 * x ^ 2 + 2 * a * x + 1) / (2 * y) := by
        rw [slope_of_Y_ne rfl hne, negY_eq]
        simp only [montgomery]
        ring
      rw [addX_eq, hslope]
      field_simp
      linear_combination (4 * (a + 2 * x)) * hcurve

theorem diffAdd_represents {a24 : F} (ha24 : 4 * a24 = a - 2) {u v : F} (hu : u ≠ 0) {hP : (montgomery a).Nonsingular u v}
    {Q Q' : (montgomery a).Point} {q q' : Pair F} (hQ : Represents Q q) (hQ' : Represents Q' q')
    (hsub : Q' - Q = Point.some u v hP) : Represents (Q + Q') (diffAdd u q q') := by
  have h4 : (4 : F) ≠ 0 := by
    have h22 : (4 : F) = 2 * 2 := by norm_num
    rw [h22]; exact mul_ne_zero h2 h2
  obtain rfl | ⟨x, y, hns, rfl⟩ := point_cases Q
  · -- the sum is the difference
    rw [sub_zero] at hsub
    subst hsub
    obtain ⟨hx, hz⟩ := represents_zero.mp hQ
    obtain ⟨hz', hx'⟩ := (represents_some hP).mp hQ'
    rw [zero_add, represents_some, diffAdd_x, diffAdd_z, hx', hz]
    refine ⟨?_, by ring⟩
    rw [mul_zero, zero_sub, neg_sq]
    exact mul_ne_zero (mul_ne_zero h4 hu) (pow_ne_zero 2 (mul_ne_zero hz' hx))
  obtain ⟨hz, hx⟩ := (represents_some hns).mp hQ
  obtain rfl | ⟨x', y', hns', rfl⟩ := point_cases Q'
  · -- the sum is the opposite of the difference
    rw [zero_sub] at hsub
    obtain ⟨rfl, -⟩ := (Point.some.injEq ..).mp hsub
    obtain ⟨hx', hz'⟩ := represents_zero.mp hQ'
    rw [add_zero, represents_some, diffAdd_x, diffAdd_z, hx, hz']
    refine ⟨?_, by ring⟩
    rw [zero_mul, sub_zero]
    exact mul_ne_zero (mul_ne_zero h4 hu) (pow_ne_zero 2 (mul_ne_zero hx' hz))
  obtain ⟨hz', hx'⟩ := (represents_some hns').mp hQ'
  by_cases hne : x = x'
  · -- the points are opposite, and the difference is twice one of them
    subst hne
    have hopp : Point.some x y' hns' = -Point.some x y hns := by
      rcases Point.X_eq_iff.mp (rfl : x = x) with heq | heq
      · rw [heq, sub_self] at hsub
        exact absurd hsub.symm (Point.some_ne_zero _)
      · exact heq
    have hdouble : Point.some x y hns + Point.some x y hns = -Point.some u v hP := by
      rw [← hsub, hopp]; abel
    have hrep := double_represents h2 ha ha24 hQ
    rw [hdouble, represents_neg, represents_some] at hrep
    obtain ⟨hdz, hdx⟩ := hrep
    have hq : q = ⟨q.z * x, q.z⟩ := by rw [← hx]
    have hsq : q.z ^ 4 * (x ^ 2 - 1) ^ 2 ≠ 0 := by
      rw [← (double_some a24 ha24 ((equation_iff x y).mp hns.1) q.z).1, ← hq, hdx]
      exact mul_ne_zero hdz hu
    rw [hopp, add_neg_cancel, represents_zero, diffAdd_x, diffAdd_z, hx, hx']
    refine ⟨?_, by ring⟩
    have hx2 : q.z * x * (q'.z * x) - q.z * q'.z = q.z * q'.z * (x ^ 2 - 1) := by ring
    rw [hx2, mul_pow]
    exact mul_ne_zero h4 (mul_ne_zero (pow_ne_zero 2 (mul_ne_zero hz hz')) (right_ne_zero_of_mul hsq))
  · obtain hsum | ⟨s, t, hs, hsum⟩ := point_cases (Point.some x y hns + Point.some x' y' hns')
    · rw [Point.add_of_X_ne hne] at hsum
      exact absurd hsum (Point.some_ne_zero _)
    · have hprod := add_mul_sub hne hsum hsub
      rw [hsum, represents_some, diffAdd_x, diffAdd_z, hx, hx']
      have hz2 : q'.z * x' * q.z - q'.z * (q.z * x) = -(q.z * q'.z * (x - x')) := by ring
      rw [hz2, neg_sq]
      refine ⟨mul_ne_zero (mul_ne_zero h4 hu) (pow_ne_zero 2 (mul_ne_zero (mul_ne_zero hz hz') (sub_ne_zero.mpr hne))), ?_⟩
      linear_combination -(4 * q.z ^ 2 * q'.z ^ 2) * hprod

/-! ## The ladder -/

omit [DecidableEq F] h2 ha in
theorem ladder_concat (a24 u : F) (bits : List Bool) (bit : Bool) :
    ladder a24 u (bits ++ [bit]) = ladderStep a24 u (ladder a24 u bits) bit := by
  rw [ladder, List.foldl_concat, ladder]

/-- A step of the ladder: a point and that plus `P`, to the double, or the double plus `P`, and that
    plus `P`. -/
theorem ladderStep_represents {a24 : F} (ha24 : 4 * a24 = a - 2) {u v : F} (hu : u ≠ 0) (hP : (montgomery a).Nonsingular u v)
    {Q : (montgomery a).Point} {q : Pair F × Pair F} (hQ : Represents Q q.1) (hQ' : Represents (Q + Point.some u v hP) q.2)
    (bit : Bool) :
    Represents (Q + Q + bit.toNat • Point.some u v hP) (ladderStep a24 u q bit).1 ∧
    Represents (Q + Q + bit.toNat • Point.some u v hP + Point.some u v hP) (ladderStep a24 u q bit).2 := by
  cases bit with
  | false =>
    have hadd := diffAdd_represents h2 ha ha24 hu hQ hQ' (add_sub_cancel_left Q _)
    rw [Bool.toNat_false, zero_smul, add_zero, add_assoc Q Q]
    exact ⟨double_represents h2 ha ha24 hQ, hadd⟩
  | true =>
    -- the pairs are swapped, so the known difference is `-P`
    have hsub : Q - (Q + Point.some u v hP) = -Point.some u v hP := by abel
    have hadd := diffAdd_represents h2 ha ha24 hu hQ' hQ hsub
    have hdouble := double_represents h2 ha ha24 hQ'
    have hsum : Q + Point.some u v hP + Q = Q + Q + Point.some u v hP := by abel
    have hsum' : Q + Point.some u v hP + (Q + Point.some u v hP) = Q + Q + Point.some u v hP + Point.some u v hP := by abel
    rw [hsum] at hadd
    rw [hsum'] at hdouble
    rw [Bool.toNat_true, one_smul]
    exact ⟨hadd, hdouble⟩

theorem ladder_represents {a24 : F} (ha24 : 4 * a24 = a - 2) {u v : F} (hu : u ≠ 0) (hP : (montgomery a).Nonsingular u v)
    (bits : List Bool) :
    Represents (scalar bits • Point.some u v hP) (ladder a24 u bits).1 ∧
    Represents (scalar bits • Point.some u v hP + Point.some u v hP) (ladder a24 u bits).2 := by
  induction bits using List.reverseRecOn with
  | nil =>
    refine ⟨?_, ?_⟩
    · rw [scalar, List.foldl_nil, zero_smul]
      exact represents_zero.mpr ⟨one_ne_zero, rfl⟩
    · rw [scalar, List.foldl_nil, zero_smul, zero_add]
      exact (represents_some hP).mpr ⟨one_ne_zero, (one_mul u).symm⟩
  | append_singleton bits bit ih =>
    have hscalar : scalar (bits ++ [bit]) • Point.some u v hP =
        scalar bits • Point.some u v hP + scalar bits • Point.some u v hP + bit.toNat • Point.some u v hP := by
      rw [scalar_concat, add_smul, two_mul, add_smul]
    rw [ladder_concat, hscalar]
    exact ladderStep_represents h2 ha ha24 hu hP ih.1 ih.2 bit

end

omit [DecidableEq F] in
/-- At `u = 0` a coordinate of each pair is 0, and no even multiple has a `z` that is not. -/
theorem ladder_zero (a24 : F) (bits : List Bool) :
    (ladder a24 0 bits).1.x * (ladder a24 0 bits).1.z = 0 ∧ (ladder a24 0 bits).2.x * (ladder a24 0 bits).2.z = 0 := by
  have hadd : ∀ q q' : Pair F, (diffAdd 0 q q').x * (diffAdd 0 q q').z = 0 := by
    intro q q'
    rw [diffAdd_z]; ring
  have hdouble : ∀ q : Pair F, q.x * q.z = 0 → (double a24 q).x * (double a24 q).z = 0 := by
    intro q hq
    simp only [double]
    linear_combination (((q.x + q.z) ^ 2 * (q.x - q.z) ^ 2) * (4 * ((q.x + q.z) ^ 2 + 4 * a24 * q.x * q.z))) * hq
  induction bits using List.reverseRecOn with
  | nil => simp [ladder]
  | append_singleton bits bit ih =>
    rw [ladder_concat]
    cases bit with
    | false => exact ⟨hdouble _ ih.1, hadd _ _⟩
    | true => exact ⟨hadd _ _, hdouble _ ih.2⟩

omit [DecidableEq F] in
theorem mulX_zero (a24 : F) {bits : List Bool} (heven : Even (scalar bits)) : mulX a24 0 bits = 0 := by
  have hz : (ladder a24 0 bits).1.z = 0 := by
    induction bits using List.reverseRecOn with
    | nil => rfl
    | append_singleton bits bit _ =>
      rw [scalar_concat] at heven
      cases bit with
      | true =>
        rw [Bool.toNat_true] at heven
        exact absurd heven (Nat.not_even_iff_odd.mpr (odd_two_mul_add_one _))
      | false =>
        have hq := (ladder_zero a24 bits).1
        rw [ladder_concat]
        simp only [ladderStep, Bool.false_eq_true, if_false, double]
        linear_combination (4 * (((ladder a24 0 bits).1.x + (ladder a24 0 bits).1.z) ^ 2 +
          4 * a24 * (ladder a24 0 bits).1.x * (ladder a24 0 bits).1.z)) * hq
  rw [mulX, hz, inv_zero, mul_zero]

/-! ## Multiples by their x-coordinates -/

/-- The x-coordinate, 0 for the point at infinity. -/
def xCoord : (montgomery a).Point → F
  | .zero => 0
  | .some x _ _ => x

omit [DecidableEq F] in
theorem Represents.xCoord_eq {Q : (montgomery a).Point} {q : Pair F} (h : Represents Q q) : q.x * q.z⁻¹ = xCoord Q := by
  obtain rfl | ⟨x, y, hns, rfl⟩ := point_cases Q
  · rw [(represents_zero.mp h).2, inv_zero, mul_zero]
    rfl
  · obtain ⟨hz, hx⟩ := (represents_some hns).mp h
    rw [hx, mul_comm q.z, mul_assoc, mul_inv_cancel₀ hz, mul_one]
    rfl

section

variable (h2 : (2 : F) ≠ 0) (ha : a ^ 2 ≠ 4)

include h2 ha

theorem mulX_eq {a24 : F} (ha24 : 4 * a24 = a - 2) {u v : F} (hP : (montgomery a).Nonsingular u v) {bits : List Bool}
    (heven : Even (scalar bits)) : mulX a24 u bits = xCoord (scalar bits • Point.some u v hP) := by
  by_cases hu : u = 0
  · subst hu
    -- a point of order two
    have hv : v ^ 2 = 0 := by rw [(equation_iff 0 v).mp hP.1]; ring
    have hself : Point.some 0 v hP + Point.some 0 v hP = 0 :=
      Point.add_self_of_Y_eq (by rw [negY_eq, pow_eq_zero_iff (two_ne_zero) |>.mp hv, neg_zero])
    obtain ⟨n, hn⟩ := heven
    rw [mulX_zero a24 ⟨n, hn⟩, hn, ← two_mul, mul_comm, mul_smul, two_smul, hself, smul_zero]
    rfl
  · exact (ladder_represents h2 ha ha24 hu hP bits).1.xCoord_eq

/-- The same of every point: an even multiple is at infinity where `u` is 0 for a point at infinity. -/
theorem mulX_xCoord {a24 : F} (ha24 : 4 * a24 = a - 2) (Q : (montgomery a).Point) {bits : List Bool}
    (heven : Even (scalar bits)) : mulX a24 (xCoord Q) bits = xCoord (scalar bits • Q) := by
  obtain rfl | ⟨x, y, h, rfl⟩ := point_cases Q
  · rw [smul_zero]
    exact mulX_zero a24 heven
  · exact mulX_eq h2 ha ha24 h heven

end

end Field

theorem exists_point {K : Type} [Field K] [IsAlgClosed K] {a : K} (h2 : (2 : K) ≠ 0) (ha : a ^ 2 ≠ 4) (u : K) :
    ∃ v, (montgomery a).Nonsingular u v := by
  obtain ⟨v, hv⟩ := IsAlgClosed.exists_pow_nat_eq (u ^ 3 + a * u ^ 2 + u) (n := 2) (by decide)
  exact ⟨v, nonsingular_of_equation h2 ha hv⟩

/-! ## Extensions of the field -/

section Map

variable {F K : Type} [Field F] [Field K] (f : F →+* K)

theorem map_ladderStep (a24 u : F) (q : Pair F × Pair F) (bit : Bool) :
    Prod.map (Pair.map f) (Pair.map f) (ladderStep a24 u q bit) =
      ladderStep (f a24) (f u) (Prod.map (Pair.map f) (Pair.map f) q) bit := by
  cases bit <;> simp [ladderStep, double, diffAdd, Pair.map]

theorem map_ladder (a24 u : F) (bits : List Bool) :
    Prod.map (Pair.map f) (Pair.map f) (ladder a24 u bits) = ladder (f a24) (f u) bits := by
  induction bits using List.reverseRecOn with
  | nil => simp [ladder, Pair.map]
  | append_singleton bits bit ih => rw [ladder_concat, ladder_concat, map_ladderStep, ih]

theorem map_mulX (a24 u : F) (bits : List Bool) : f (mulX a24 u bits) = mulX (f a24) (f u) bits := by
  rw [mulX, mulX, ← map_ladder, map_mul, map_inv₀]
  rfl

end Map

/-- Multiples by two even scalars can be taken in either order. -/
theorem mulX_comm {F : Type} [Field F] {a a24 : F} (h2 : (2 : F) ≠ 0) (ha : a ^ 2 ≠ 4) (ha24 : 4 * a24 = a - 2) (u : F)
    {bits bits' : List Bool} (heven : Even (scalar bits)) (heven' : Even (scalar bits')) :
    mulX a24 (mulX a24 u bits) bits' = mulX a24 (mulX a24 u bits') bits := by
  classical
  let f := algebraMap F (AlgebraicClosure F)
  have h2' : (2 : AlgebraicClosure F) ≠ 0 := by
    rw [← map_ofNat f 2]
    exact (map_ne_zero f).mpr h2
  have ha' : f a ^ 2 ≠ 4 := by
    rw [← map_pow, ← map_ofNat f 4]
    exact f.injective.ne ha
  have ha24' : 4 * f a24 = f a - 2 := by
    rw [← map_ofNat f 4, ← map_ofNat f 2, ← map_mul, ← map_sub, ha24]
  obtain ⟨v, hP⟩ := exists_point h2' ha' (f u)
  have hu : f u = xCoord (Point.some (f u) v hP) := rfl
  apply f.injective
  rw [map_mulX, map_mulX, map_mulX, map_mulX, hu, mulX_xCoord h2' ha' ha24' _ heven, mulX_xCoord h2' ha' ha24' _ heven',
    mulX_xCoord h2' ha' ha24' _ heven', mulX_xCoord h2' ha' ha24' _ heven, smul_comm]

end Montgomery

end ContactDiscovery.Lib
