import Mathlib.Tactic

/-!
# Ratios compared by cross-multiplication

A ratio is a pair of a part and a total, and ratios are compared by their cross products, so
that nothing is divided. For totals that are not zero this is the order of the quotients. The
pair of two zeros has only zero products: it is the same as every other pair, and it is the
only one behind which the comparison loses its laws.
-/
namespace BitBay.CrossRatio

variable {R : Type*} [CommRing R]

def Same (a b : R × R) : Prop := a.1 * b.2 = b.1 * a.2

def Below [LinearOrder R] (a b : R × R) : Prop := a.1 * b.2 < b.1 * a.2

variable {a b c : R × R}

theorem Same.symm (h : Same a b) : Same b a := Eq.symm h

theorem same_zero (a : R × R) : Same a (0, 0) := by simp [Same]

/-- Two ratios are the same as a third one only if they are the same, unless the third one
is empty. -/
theorem Same.trans [IsDomain R] (hb : b ≠ (0, 0)) (hab : Same a b) (hbc : Same b c) : Same a c := by
  unfold Same at *
  by_cases htotal : b.2 = 0
  · have hpart : b.1 ≠ 0 := fun hpart => hb (Prod.ext hpart htotal)
    have hmul : b.1 * (a.1 * c.2) = b.1 * (c.1 * a.2) := by
      calc b.1 * (a.1 * c.2) = a.1 * (b.1 * c.2) := by ring
        _ = c.1 * (a.1 * b.2) := by rw [hbc]; ring
        _ = b.1 * (c.1 * a.2) := by rw [hab]; ring
    exact mul_left_cancel₀ hpart hmul
  · have hmul : b.2 * (a.1 * c.2) = b.2 * (c.1 * a.2) := by
      calc b.2 * (a.1 * c.2) = (a.1 * b.2) * c.2 := by ring
        _ = (b.1 * c.2) * a.2 := by rw [hab]; ring
        _ = b.2 * (c.1 * a.2) := by rw [hbc]; ring
    exact mul_left_cancel₀ htotal hmul

section Order

variable [LinearOrder R]

/-- Of two ratios one is below the other, or they are the same. -/
theorem same_iff_incomparable : Same a b ↔ ¬ Below a b ∧ ¬ Below b a := by
  unfold Same Below
  constructor
  · intro h
    exact ⟨h.not_lt, h.not_gt⟩
  · rintro ⟨hab, hba⟩
    exact le_antisymm (not_lt.mp hba) (not_lt.mp hab)

/-- An empty ratio is below no other and above none, so it never stands in the middle. -/
theorem Below.trans [IsStrictOrderedRing R] (ha : 0 ≤ a.1) (ha' : 0 ≤ a.2) (hb : 0 ≤ b.1)
    (hb' : 0 ≤ b.2) (hc' : 0 ≤ c.2) (hab : Below a b) (hbc : Below b c) : Below a c := by
  unfold Below at *
  have htotal : 0 < b.2 := by
    refine lt_of_le_of_ne hb' fun hzero => ?_
    rw [← hzero, mul_zero] at hbc
    exact absurd hbc (mul_nonneg hb hc').not_gt
  have hpart : 0 < a.2 := by
    refine lt_of_le_of_ne ha' fun hzero => ?_
    rw [← hzero, mul_zero] at hab
    exact absurd hab (mul_nonneg ha hb').not_gt
  have hmul : b.2 * (a.1 * c.2) < b.2 * (c.1 * a.2) := by
    calc b.2 * (a.1 * c.2) = (a.1 * b.2) * c.2 := by ring
      _ ≤ (b.1 * a.2) * c.2 := mul_le_mul_of_nonneg_right hab.le hc'
      _ = (b.1 * c.2) * a.2 := by ring
      _ < (c.1 * b.2) * a.2 := mul_lt_mul_of_pos_right hbc hpart
      _ = b.2 * (c.1 * a.2) := by ring
  exact lt_of_mul_lt_mul_left hmul htotal.le

end Order

/-- Ratios that are the same take the same part of an integer. -/
theorem Same.tdiv_eq {a b : ℤ × ℤ} (ha : 0 < a.2) (hb : 0 < b.2) (h : Same a b) (v : ℤ) :
    (v * a.1).tdiv a.2 = (v * b.1).tdiv b.2 := by
  have hcross : b.2 * (v * a.1) = a.2 * (v * b.1) := by
    calc b.2 * (v * a.1) = v * (a.1 * b.2) := by ring
      _ = a.2 * (v * b.1) := by rw [h]; ring
  calc (v * a.1).tdiv a.2 = (b.2 * (v * a.1)).tdiv (b.2 * a.2) :=
        (Int.mul_tdiv_mul_of_pos _ _ hb).symm
    _ = (a.2 * (v * b.1)).tdiv (a.2 * b.2) := by rw [hcross, mul_comm b.2]
    _ = (v * b.1).tdiv b.2 := Int.mul_tdiv_mul_of_pos _ _ ha

end BitBay.CrossRatio
