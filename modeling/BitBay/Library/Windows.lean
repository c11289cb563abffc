import Mathlib.Algebra.BigOperators.Fin
import Mathlib.Algebra.BigOperators.Intervals
import Mathlib.Algebra.Order.BigOperators.Group.Finset

/-!
# Windows of a family

A finite family is read at any index, as zero behind its end, so that the sums over
its windows are sums over intervals. Windows of one length in a row add up to the
window that they make up.
-/
namespace BitBay.Windows

open Finset

section Monoid

variable {M : Type*} [AddCommMonoid M] {n : ℕ} (f g : Fin n → M) {a b c : ℕ}

/-- A family, zero behind its end. -/
def valueAt (i : ℕ) : M := if h : i < n then f ⟨i, h⟩ else 0

def window (a b : ℕ) : M := ∑ i ∈ Ico a b, valueAt f i

@[simp] theorem valueAt_coe (i : Fin n) : valueAt f i = f i := by simp [valueAt]

theorem valueAt_of_le {i : ℕ} (h : n ≤ i) : valueAt f i = 0 := dif_neg (not_lt.mpr h)

theorem window_univ : window f 0 n = ∑ i, f i := by
  rw [window, ← range_eq_Ico, ← Fin.sum_univ_eq_sum_range]
  simp

theorem window_empty (h : b ≤ a) : window f a b = 0 := by
  rw [window, Ico_eq_empty_of_le h, sum_empty]

theorem window_consecutive (hab : a ≤ b) (hbc : b ≤ c) :
    window f a b + window f b c = window f a c := sum_Ico_consecutive _ hab hbc

/-- Windows of one length in a row. -/
theorem window_blocks (a s k : ℕ) :
    ∑ j ∈ range k, window f (a + j * s) (a + j * s + s) = window f a (a + k * s) := by
  induction k with
  | zero => simp [window_empty]
  | succ k ih =>
    have hnext : a + (k + 1) * s = a + k * s + s := by rw [Nat.add_mul, Nat.one_mul, Nat.add_assoc]
    rw [sum_range_succ, ih, hnext]
    exact window_consecutive f (Nat.le_add_right _ _) (Nat.le_add_right _ _)

variable {f g} in
theorem window_congr (h : ∀ i : Fin n, a ≤ i → (i : ℕ) < b → f i = g i) :
    window f a b = window g a b := by
  apply sum_congr rfl
  intro i hi
  obtain ⟨hai, hib⟩ := mem_Ico.mp hi
  unfold valueAt
  split_ifs with hn
  · exact h ⟨i, hn⟩ hai hib
  · rfl

variable {f} in
theorem window_eq_zero (h : ∀ i : Fin n, a ≤ i → (i : ℕ) < b → f i = 0) : window f a b = 0 := by
  rw [window_congr (g := 0) h]
  apply sum_eq_zero
  intro i _
  simp [valueAt]

/-- A window as a sum over the whole family. -/
theorem window_eq_sum (a b : ℕ) :
    window f a b = ∑ i : Fin n, if a ≤ (i : ℕ) ∧ (i : ℕ) < b then f i else 0 := by
  rw [← window_univ, window, window]
  have hterm : ∀ i, valueAt (fun i : Fin n => if a ≤ (i : ℕ) ∧ (i : ℕ) < b then f i else 0) i =
      if i ∈ Ico a b then valueAt f i else 0 := by
    intro i
    unfold valueAt
    by_cases hi : a ≤ i ∧ i < b <;> by_cases hn : i < n <;> simp [hi, hn]
  rw [sum_congr rfl fun i _ => hterm i, ← sum_filter]
  apply (sum_subset ?_ ?_).symm
  · intro i hi
    exact (mem_filter.mp hi).2
  · intro i hi hout
    apply valueAt_of_le
    by_contra hn
    exact hout (mem_filter.mpr ⟨mem_Ico.mpr ⟨Nat.zero_le i, not_le.mp hn⟩, hi⟩)

variable {f} in
/-- The values of a window that are given by their place in it. -/
theorem window_eq_sum_range {s : ℕ} {v : ℕ → M} (hs : a + s ≤ n)
    (h : ∀ j, (hj : j < s) → f ⟨a + j, by omega⟩ = v j) :
    window f a (a + s) = ∑ j ∈ range s, v j := by
  rw [window, sum_Ico_eq_sum_range, Nat.add_sub_cancel_left]
  apply sum_congr rfl
  intro j hj
  have hlt := mem_range.mp hj
  rw [valueAt, dif_pos (by omega), h j hlt]

/-- A family that is nothing but in one place. -/
theorem window_single (i : Fin n) (v : M) :
    window (fun j => if j = i then v else 0) a b = if a ≤ (i : ℕ) ∧ (i : ℕ) < b then v else 0 := by
  rw [window_eq_sum, sum_eq_single i]
  · simp
  · intro j _ hj
    simp [hj]
  · intro hi
    exact absurd (mem_univ i) hi

theorem window_add : window (f + g) a b = window f a b + window g a b := by
  rw [window, window, window, ← sum_add_distrib]
  apply sum_congr rfl
  intro i _
  unfold valueAt
  split_ifs <;> simp

end Monoid

section Ordered

variable {n : ℕ} {f g : Fin n → ℤ} {a b : ℕ}

theorem window_nonneg (h : ∀ i, 0 ≤ f i) : 0 ≤ window f a b := by
  apply sum_nonneg
  intro i _
  unfold valueAt
  split_ifs
  · exact h _
  · exact le_rfl

theorem window_mono (h : ∀ i, f i ≤ g i) : window f a b ≤ window g a b := by
  apply sum_le_sum
  intro i _
  unfold valueAt
  split_ifs
  · exact h _
  · exact le_rfl

end Ordered

end BitBay.Windows
