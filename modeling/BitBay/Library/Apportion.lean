import Mathlib.Algebra.BigOperators.Fin
import Mathlib.Algebra.Order.BigOperators.Group.Finset
import Mathlib.Tactic

/-!
# Apportioning a value over the columns of a vector

`topUp cap start` hands out the units that rounding left over: it walks round
the columns from `start`, gives one unit to every column still below its cap,
and stops when no unit is left. `moveUnits` is the same walk performed on a
source and a destination in place.

Both walks carry fuel. `topUp_complete` shows that the fuel `left * n` is always
enough when the columns have room for `left` units, so the walk ends.
-/
namespace BitBay.Apportion

variable {n : ℕ}

/-- Position after `idx` on a walk that wraps round to `start`. -/
def wrap (n start idx : ℕ) : ℕ := if n ≤ idx + 1 then start else idx + 1

/-- Give one unit to each column below its cap until `left` units are handed out. -/
def topUp (cap : Fin n → ℤ) (start : ℕ) : ℕ → ℕ → ℤ → (Fin n → ℤ) → ℤ × (Fin n → ℤ)
  | 0, _, left, q => (left, q)
  | fuel + 1, idx, left, q =>
    if left ≤ 0 then (left, q)
    else if h : idx < n then
      if q ⟨idx, h⟩ < cap ⟨idx, h⟩ then
        topUp cap start fuel (wrap n start idx) (left - 1)
          (Function.update q ⟨idx, h⟩ (q ⟨idx, h⟩ + 1))
      else topUp cap start fuel (wrap n start idx) left q
    else (left, q)

def moveUnits (start : ℕ) :
    ℕ → ℕ → ℤ → (Fin n → ℤ) → (Fin n → ℤ) → ℤ × (Fin n → ℤ) × (Fin n → ℤ)
  | 0, _, left, src, dst => (left, src, dst)
  | fuel + 1, idx, left, src, dst =>
    if left ≤ 0 then (left, src, dst)
    else if h : idx < n then
      if 0 < src ⟨idx, h⟩ then
        moveUnits start fuel (wrap n start idx) (left - 1)
          (Function.update src ⟨idx, h⟩ (src ⟨idx, h⟩ - 1))
          (Function.update dst ⟨idx, h⟩ (dst ⟨idx, h⟩ + 1))
      else moveUnits start fuel (wrap n start idx) left src dst
    else (left, src, dst)

theorem wrap_lt {start idx : ℕ} (hs : start < n) : wrap n start idx < n := by
  unfold wrap; split_ifs <;> omega

theorem start_le_wrap {start idx : ℕ} (h : start ≤ idx) : start ≤ wrap n start idx := by
  unfold wrap; split_ifs <;> omega

theorem topUp_zero (cap q : Fin n → ℤ) (start fuel idx : ℕ) :
    topUp cap start fuel idx 0 q = (0, q) := by
  cases fuel <;> simp [topUp]

theorem topUp_give {cap q : Fin n → ℤ} {left : ℤ} {idx : ℕ} (start fuel : ℕ) (hl : 0 < left)
    (h : idx < n) (hq : q ⟨idx, h⟩ < cap ⟨idx, h⟩) :
    topUp cap start (fuel + 1) idx left q =
      topUp cap start fuel (wrap n start idx) (left - 1)
        (Function.update q ⟨idx, h⟩ (q ⟨idx, h⟩ + 1)) := by
  simp [topUp, h, hq, not_le.mpr hl]

theorem topUp_skip {cap q : Fin n → ℤ} {left : ℤ} {idx : ℕ} (start fuel : ℕ) (hl : 0 < left)
    (h : idx < n) (hq : ¬ q ⟨idx, h⟩ < cap ⟨idx, h⟩) :
    topUp cap start (fuel + 1) idx left q = topUp cap start fuel (wrap n start idx) left q := by
  simp [topUp, h, hq, not_le.mpr hl]

theorem sum_update_add (q : Fin n → ℤ) (i : Fin n) (c : ℤ) :
    ∑ j, Function.update q i (q i + c) j = ∑ j, q j + c := by
  have h := Finset.sum_update_of_mem (Finset.mem_univ i) q (q i + c)
  have h' := Finset.add_sum_erase Finset.univ q (Finset.mem_univ i)
  rw [h, ← h', Finset.sdiff_singleton_eq_erase]
  ring

/-- Every unit handed out is a unit of the result. -/
theorem topUp_sum (cap : Fin n → ℤ) (start fuel idx : ℕ) (left : ℤ) (q : Fin n → ℤ) :
    ∑ i, (topUp cap start fuel idx left q).2 i + (topUp cap start fuel idx left q).1 =
      ∑ i, q i + left := by
  induction fuel generalizing idx left q with
  | zero => rfl
  | succ fuel ih =>
    unfold topUp
    split_ifs with hl h hq
    · rfl
    · rw [ih, sum_update_add]; ring
    · exact ih _ _ _
    · rfl

/-- The walk never takes from a column and never passes a cap. -/
theorem topUp_bounds {cap q : Fin n → ℤ} (hq : ∀ i, q i ≤ cap i) (start fuel idx : ℕ) (left : ℤ)
    (i : Fin n) :
    q i ≤ (topUp cap start fuel idx left q).2 i ∧
      (topUp cap start fuel idx left q).2 i ≤ cap i := by
  induction fuel generalizing idx left q with
  | zero => exact ⟨le_rfl, hq i⟩
  | succ fuel ih =>
    unfold topUp
    split_ifs with hl h hlt
    · exact ⟨le_rfl, hq i⟩
    · have hq' : ∀ j, Function.update q ⟨idx, h⟩ (q ⟨idx, h⟩ + 1) j ≤ cap j := by
        intro j
        rcases eq_or_ne j ⟨idx, h⟩ with rfl | hj
        · simpa [Int.add_one_le_iff] using hlt
        · simpa [hj] using hq j
      have hstep := ih hq' (wrap n start idx) (left - 1)
      refine ⟨le_trans ?_ hstep.1, hstep.2⟩
      rcases eq_or_ne i ⟨idx, h⟩ with rfl | hi <;> simp [*]
    · exact ih hq _ _
    · exact ⟨le_rfl, hq i⟩

/-- A column that is full already gets nothing. -/
theorem topUp_of_full {cap q : Fin n → ℤ} {i : Fin n} (hi : cap i ≤ q i) (start fuel idx : ℕ)
    (left : ℤ) : (topUp cap start fuel idx left q).2 i = q i := by
  induction fuel generalizing idx left q with
  | zero => rfl
  | succ fuel ih =>
    unfold topUp
    split_ifs with hl h hlt
    · rfl
    · have hne : i ≠ ⟨idx, h⟩ := by
        rintro rfl
        exact absurd hlt hi.not_gt
      rw [ih] <;> simp [hne, hi]
    · exact ih hi _ _
    · rfl

/-- A walk that has handed out everything does not use more fuel. -/
theorem topUp_add_fuel {cap q : Fin n → ℤ} {start fuel idx : ℕ} {left : ℤ}
    (hdone : (topUp cap start fuel idx left q).1 ≤ 0) (more : ℕ) :
    topUp cap start (fuel + more) idx left q = topUp cap start fuel idx left q := by
  induction fuel generalizing idx left q with
  | zero =>
    have hleft : left ≤ 0 := hdone
    cases more <;> simp [topUp, hleft]
  | succ fuel ih =>
    rw [Nat.add_right_comm]
    unfold topUp at hdone ⊢
    split_ifs at hdone ⊢ with hleft h hq
    · rfl
    · exact ih hdone
    · exact ih hdone
    · rfl

/-- Walking upwards, the next unit is given no later than at a column `j` with room. -/
private theorem topUp_reach_up {cap q : Fin n → ℤ} {left : ℤ} (start : ℕ) (hl : 0 < left)
    {j : Fin n} (hs : start ≤ j) (hj : q j < cap j) (d idx : ℕ) (hd : idx + d = j)
    (hidx : start ≤ idx) :
    ∃ m ≤ d + 1, ∃ idx' < n, start ≤ idx' ∧ ∃ i, q i < cap i ∧ ∀ fuel,
      topUp cap start (fuel + m) idx left q =
        topUp cap start fuel idx' (left - 1) (Function.update q i (q i + 1)) := by
  induction d generalizing idx with
  | zero =>
    obtain rfl : idx = j := by omega
    exact ⟨1, by omega, _, wrap_lt (by omega), start_le_wrap hidx, j, hj,
      fun fuel => topUp_give start fuel hl j.2 hj⟩
  | succ d ih =>
    have h : idx < n := by omega
    by_cases hq : q ⟨idx, h⟩ < cap ⟨idx, h⟩
    · exact ⟨1, by omega, _, wrap_lt (by omega), start_le_wrap hidx, _, hq,
        fun fuel => topUp_give start fuel hl h hq⟩
    · obtain ⟨m, hm, idx', hidx', hs', i, hi, hrun⟩ := ih (idx + 1) (by omega) (by omega)
      have hw : wrap n start idx = idx + 1 := by unfold wrap; split_ifs <;> omega
      refine ⟨m + 1, by omega, idx', hidx', hs', i, hi, fun fuel => ?_⟩
      rw [← Nat.add_assoc, topUp_skip start (fuel + m) hl h hq, hw, hrun]

/-- Wherever the walk stands, a column with room is reached within one round. -/
private theorem topUp_reach {cap q : Fin n → ℤ} {left : ℤ} (start : ℕ) (hl : 0 < left)
    {j : Fin n} (hs : start ≤ j) (hj : q j < cap j) (d idx : ℕ) (hd : idx + d = n) (hlt : idx < n)
    (hidx : start ≤ idx) :
    ∃ m ≤ n, ∃ idx' < n, start ≤ idx' ∧ ∃ i, q i < cap i ∧ ∀ fuel,
      topUp cap start (fuel + m) idx left q =
        topUp cap start fuel idx' (left - 1) (Function.update q i (q i + 1)) := by
  rcases Nat.lt_or_ge j idx with hji | hij
  · suffices hgoal : ∃ m ≤ d + (j - start) + 1, ∃ idx' < n, start ≤ idx' ∧ ∃ i, q i < cap i ∧
        ∀ fuel, topUp cap start (fuel + m) idx left q =
          topUp cap start fuel idx' (left - 1) (Function.update q i (q i + 1)) by
      obtain ⟨m, hm, hrest⟩ := hgoal
      exact ⟨m, by omega, hrest⟩
    induction d generalizing idx with
    | zero => omega
    | succ d ih =>
      by_cases hq : q ⟨idx, hlt⟩ < cap ⟨idx, hlt⟩
      · exact ⟨1, by omega, _, wrap_lt (by omega), start_le_wrap hidx, _, hq,
          fun fuel => topUp_give start fuel hl hlt hq⟩
      · -- The walk either goes one column up or wraps to `start`, below `j`.
        obtain ⟨m, hm, idx', hidx', hs', i, hi, hrun⟩ : ∃ m ≤ d + (j - start) + 1,
            ∃ idx' < n, start ≤ idx' ∧ ∃ i, q i < cap i ∧ ∀ fuel,
              topUp cap start (fuel + m) (wrap n start idx) left q =
                topUp cap start fuel idx' (left - 1) (Function.update q i (q i + 1)) := by
          by_cases hend : idx + 1 < n
          · have hw : wrap n start idx = idx + 1 := by unfold wrap; split_ifs <;> omega
            rw [hw]
            exact ih (idx + 1) (by omega) hend (by omega) (by omega)
          · have hw : wrap n start idx = start := by unfold wrap; split_ifs <;> omega
            rw [hw]
            obtain ⟨m, hm, hrest⟩ :=
              topUp_reach_up start hl hs hj (j - start) start (by omega) le_rfl
            exact ⟨m, by omega, hrest⟩
        refine ⟨m + 1, by omega, idx', hidx', hs', i, hi, fun fuel => ?_⟩
        rw [← Nat.add_assoc, topUp_skip start (fuel + m) hl hlt hq, hrun]
  · obtain ⟨m, hm, hrest⟩ := topUp_reach_up start hl hs hj (j - idx) idx (by omega) hidx
    exact ⟨m, by omega, hrest⟩

/-- With room for `left` units above `start`, the walk hands out all of them. -/
theorem topUp_complete {cap : Fin n → ℤ} (start : ℕ) (left : ℕ) (q : Fin n → ℤ)
    (hbelow : ∀ i : Fin n, (i : ℕ) < start → cap i ≤ q i)
    (hroom : (left : ℤ) ≤ ∑ i, (cap i - q i)) (fuel idx : ℕ) (hfuel : left * n ≤ fuel)
    (hidx : start ≤ idx) (hlt : idx < n) :
    (topUp cap start fuel idx left q).1 = 0 := by
  induction left generalizing q fuel idx with
  | zero => simp [topUp_zero]
  | succ left ih =>
    obtain ⟨j, -, hj⟩ : ∃ j ∈ Finset.univ, 0 < cap j - q j := by
      by_contra hnone
      push Not at hnone
      have := Finset.sum_nonpos hnone
      push_cast at hroom
      omega
    have hs : start ≤ j := by
      by_contra hlow
      have := hbelow j (by omega)
      omega
    have hroomj : q j < cap j := by omega
    have hpos : 0 < ((left + 1 : ℕ) : ℤ) := by positivity
    obtain ⟨m, hm, idx', hidx', hs', i, hi, hrun⟩ :=
      topUp_reach start hpos hs hroomj (n - idx) idx (by omega) hlt hidx
    have hn : left * n + n = (left + 1) * n := by ring
    obtain ⟨fuel, rfl⟩ : ∃ k, fuel = k + m := ⟨fuel - m, by omega⟩
    rw [hrun]
    have hcast : ((left + 1 : ℕ) : ℤ) - 1 = left := by push_cast; ring
    rw [hcast]
    refine ih _ ?_ ?_ _ _ (by omega) hs' hidx'
    · intro k hk
      have := hbelow k hk
      rcases eq_or_ne k i with rfl | hki
      · simp; omega
      · simpa [hki] using this
    · have hsum := sum_update_add q i 1
      simp only [Finset.sum_sub_distrib] at hroom ⊢
      push_cast at hroom
      omega

/-- Moving units in place is topping up the amount already taken. -/
theorem moveUnits_eq (cap base : Fin n → ℤ) (start fuel idx : ℕ) (left : ℤ) (q : Fin n → ℤ) :
    moveUnits start fuel idx left (cap - q) (base + q) =
      ((topUp cap start fuel idx left q).1, cap - (topUp cap start fuel idx left q).2,
        base + (topUp cap start fuel idx left q).2) := by
  induction fuel generalizing idx left q with
  | zero => rfl
  | succ fuel ih =>
    unfold moveUnits topUp
    have hlt : ∀ h : idx < n, 0 < (cap - q) ⟨idx, h⟩ ↔ q ⟨idx, h⟩ < cap ⟨idx, h⟩ :=
      fun h => by simp
    simp only [hlt]
    split_ifs with hl h hq
    · rfl
    · rw [← ih]
      congr 1 <;> funext i <;> rcases eq_or_ne i ⟨idx, h⟩ with rfl | hi <;> simp [*] <;> ring
    · exact ih _ _ _
    · rfl

end BitBay.Apportion
