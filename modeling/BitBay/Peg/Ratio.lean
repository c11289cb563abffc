import BitBay.Library.Shares
import BitBay.Peg.Fractions

/-!
# Ratio parts

`RatioPart` takes a part of fractions that has a given value, in proportion to
the columns; `MoveRatioPartTo` takes it out of one object and adds it to another.
Both round the columns down and hand out the remainder one unit at a time.

For non-negative fractions and a part of at most their total, the part has
exactly the value asked for and takes from no column more than is there.
-/
namespace BitBay

open Apportion Shares

/-- `(v * part) / total`. The source takes the product over 128 bits where 64
would overflow, so it is exact for amounts that are not negative. -/
def mulDiv (v part total : ℤ) : ℤ := (v * part).tdiv total

def ratioPart (nValue nPartValue nTotalValue : ℤ) : ℤ :=
  if nPartValue = 0 ∨ nTotalValue = 0 then 0 else mulDiv nValue nPartValue nTotalValue

theorem mulDiv_nonneg {v part total : ℤ} (hv : 0 ≤ v) (hp : 0 ≤ part) (ht : 0 ≤ total) :
    0 ≤ mulDiv v part total := Int.tdiv_nonneg (mul_nonneg hv hp) ht

theorem mulDiv_eq_ediv {v part total : ℤ} (hv : 0 ≤ v) (hp : 0 ≤ part) :
    mulDiv v part total = v * part / total :=
  Int.tdiv_eq_ediv_of_nonneg (mul_nonneg hv hp)

theorem mulDiv_mul_le {v part total : ℤ} (hv : 0 ≤ v) (hp : 0 ≤ part) (ht : 0 < total) :
    mulDiv v part total * total ≤ v * part := by
  rw [mulDiv_eq_ediv hv hp]
  exact Int.ediv_mul_le _ ht.ne'

theorem mulDiv_le {v part total : ℤ} (hv : 0 ≤ v) (hp : 0 ≤ part) (hpt : part ≤ total)
    (ht : 0 < total) : mulDiv v part total ≤ v := by
  have hmul : mulDiv v part total * total ≤ v * total :=
    (mulDiv_mul_le hv hp ht).trans (mul_le_mul_of_nonneg_left hpt hv)
  exact le_of_mul_le_mul_right hmul ht

@[simp] theorem mulDiv_zero_left (part total : ℤ) : mulDiv 0 part total = 0 := by simp [mulDiv]

theorem ratioPart_le {v part total : ℤ} (hv : 0 ≤ v) (hp : 0 ≤ part) (hpt : part ≤ total)
    (ht : 0 < total) : ratioPart v part total ≤ v := by
  unfold ratioPart
  split_ifs with hzero
  · exact hv
  · exact mulDiv_le hv hp hpt ht

/-- The part of a value in a total that contains both is at most either. -/
theorem ratioPart_le_both {v part total : ℤ} (hv : 0 ≤ v) (hvt : v ≤ total) (hp : 0 ≤ part)
    (hpt : part ≤ total) :
    0 ≤ ratioPart v part total ∧ ratioPart v part total ≤ v ∧ ratioPart v part total ≤ part := by
  unfold ratioPart
  split_ifs with hzero
  · exact ⟨le_rfl, hv, hp⟩
  · have ht : 0 < total := by omega
    have hcomm : mulDiv v part total = mulDiv part v total := by rw [mulDiv, mulDiv, mul_comm]
    exact ⟨mulDiv_nonneg hv hp ht.le, mulDiv_le hv hp hpt ht, hcomm ▸ mulDiv_le hp hv hvt ht⟩

namespace CFractions

/-- First column that is not zero: the `adjust_from` of the source. -/
def adjustFrom (c : Columns) : ℕ := (List.finRange PEG_SIZE).findIdx fun i => c i ≠ 0

def ratioParts (a : CFractions) (nPartValue : ℤ) : Columns :=
  fun i => mulDiv (a.cols i) nPartValue a.total

/-- The rounded parts after the remainder is handed out from the first column on. -/
def adjustedParts (a : CFractions) (nPartValue : ℤ) : ℤ × Columns :=
  let nAdjustValue := nPartValue - ∑ i, a.ratioParts nPartValue i
  topUp a.cols (adjustFrom a.cols) (nAdjustValue.toNat * PEG_SIZE) (adjustFrom a.cols)
    nAdjustValue (a.ratioParts nPartValue)

def ratioPart (a : CFractions) (nPartValue : ℤ) : CFractions :=
  if nPartValue = 0 then zeroStd
  else if a.total < nPartValue then a.toStd
  else
    let fPart := a.ratioParts nPartValue
    if nPartValue ≤ ∑ i, fPart i then zeroStd.withCols fPart
    else zeroStd.withCols (a.adjustedParts nPartValue).2

/-- Move a part of the given value from `a` to `b`. The first component is the
amount that `a` did not have. -/
def moveRatioPartTo (a b : CFractions) (nValueToMove : ℤ) : ℤ × CFractions × CFractions :=
  if a.total = 0 then (nValueToMove, a, b)
  else if nValueToMove = 0 then (0, a, b)
  else if a.total ≤ nValueToMove then (nValueToMove - a.total, a.withCols 0, b.toStd + a)
  else
    let vp := a.ratioParts nValueToMove
    let nPartValueSum := ∑ i, vp i
    if nValueToMove ≤ nPartValueSum then (0, a.withCols (a.cols - vp), b.withCols (b.cols + vp))
    else
      let nAdjustValue := nValueToMove - nPartValueSum
      let start := adjustFrom a.cols
      let moved := moveUnits start (nAdjustValue.toNat * PEG_SIZE) start nAdjustValue
        (a.cols - vp) (b.cols + vp)
      (0, a.withCols moved.2.1, b.withCols moved.2.2)

/-! ## The first column -/

theorem adjustFrom_lt {c : Columns} (h : ∃ i, c i ≠ 0) : adjustFrom c < PEG_SIZE := by
  obtain ⟨i, hi⟩ := h
  have hlt := List.findIdx_lt_length_of_exists (p := fun i => decide (c i ≠ 0))
    ⟨i, List.mem_finRange i, by simpa using hi⟩
  simpa [adjustFrom] using hlt

theorem eq_zero_of_lt_adjustFrom {c : Columns} {i : Fin PEG_SIZE}
    (h : (i : ℕ) < adjustFrom c) : c i = 0 := by
  have hnot := List.not_of_lt_findIdx h
  simpa using hnot

theorem exists_ne_zero_of_total {a : CFractions} (h : a.total ≠ 0) : ∃ i, a.cols i ≠ 0 := by
  by_contra hnone
  push Not at hnone
  exact h (by rw [total_eq_sum, Finset.sum_eq_zero fun i _ => hnone i])

/-! ## Rounded parts -/

section Parts

variable {a : CFractions} {p : ℤ}

theorem ratioParts_of_zero {i : Fin PEG_SIZE} (h : a.cols i = 0) : a.ratioParts p i = 0 := by
  simp [ratioParts, h]

theorem ratioParts_nonneg (ha : a.Nonneg) (hp : 0 ≤ p) (i : Fin PEG_SIZE) :
    0 ≤ a.ratioParts p i := mulDiv_nonneg (ha i) hp ha.total

theorem ratioParts_le (ha : a.Nonneg) (hp : 0 ≤ p) (hpt : p ≤ a.total) (ht : 0 < a.total)
    (i : Fin PEG_SIZE) : a.ratioParts p i ≤ a.cols i := mulDiv_le (ha i) hp hpt ht

/-- Rounding every column down leaves a remainder, never an excess. -/
theorem sum_ratioParts_le (ha : a.Nonneg) (hp : 0 ≤ p) (ht : 0 < a.total) :
    ∑ i, a.ratioParts p i ≤ p := by
  have hmul : (∑ i, a.ratioParts p i) * a.total ≤ p * a.total := by
    calc (∑ i, a.ratioParts p i) * a.total = ∑ i, a.ratioParts p i * a.total :=
          Finset.sum_mul _ _ _
      _ ≤ ∑ i, a.cols i * p := Finset.sum_le_sum fun i _ => mulDiv_mul_le (ha i) hp ht
      _ = (∑ i, a.cols i) * p := (Finset.sum_mul _ _ _).symm
      _ = p * a.total := by rw [← total_eq_sum, mul_comm]
  exact le_of_mul_le_mul_right hmul ht

theorem adjustedParts_of_zero {i : Fin PEG_SIZE} (h : a.cols i = 0) :
    (a.adjustedParts p).2 i = 0 := by
  have hpart := ratioParts_of_zero (p := p) h
  rw [adjustedParts, topUp_of_full (by rw [h, hpart]), hpart]

theorem adjustedParts_bounds (ha : a.Nonneg) (hp : 0 ≤ p) (hpt : p ≤ a.total) (ht : 0 < a.total)
    (i : Fin PEG_SIZE) : 0 ≤ (a.adjustedParts p).2 i ∧ (a.adjustedParts p).2 i ≤ a.cols i := by
  have hle := ratioParts_le ha hp hpt ht
  obtain ⟨hlow, hhigh⟩ := topUp_bounds hle (adjustFrom a.cols)
    ((p - ∑ i, a.ratioParts p i).toNat * PEG_SIZE) (adjustFrom a.cols)
    (p - ∑ i, a.ratioParts p i) i
  exact ⟨(ratioParts_nonneg ha hp i).trans hlow, hhigh⟩

/-- The remainder fits into the columns, so the walk hands out all of it. -/
theorem sum_adjustedParts (ha : a.Nonneg) (hp : 0 ≤ p) (hpt : p ≤ a.total) (ht : 0 < a.total) :
    ∑ i, (a.adjustedParts p).2 i = p := by
  have hsum := sum_ratioParts_le ha hp ht
  obtain ⟨left, hleft⟩ := Int.eq_ofNat_of_zero_le (sub_nonneg.mpr hsum)
  have hdone : (a.adjustedParts p).1 = 0 := by
    simp only [adjustedParts, hleft]
    refine topUp_complete _ left _ (fun i hi => ?_) ?_ _ _ le_rfl le_rfl
      (adjustFrom_lt (exists_ne_zero_of_total ht.ne'))
    · have hzero := eq_zero_of_lt_adjustFrom hi
      rw [hzero, ratioParts_of_zero hzero]
    · rw [Finset.sum_sub_distrib, ← total_eq_sum]
      omega
  have hwalk : ∑ i, (a.adjustedParts p).2 i + (a.adjustedParts p).1 = _ := topUp_sum _ _ _ _ _ _
  rw [hdone] at hwalk
  omega

end Parts

/-! ## The part taken -/

section RatioPart

variable {a : CFractions} {p : ℤ}

/-- The part has the value asked for. -/
theorem ratioPart_total (ha : a.Nonneg) (hp : 0 ≤ p) (hpt : p ≤ a.total) :
    (a.ratioPart p).total = p := by
  simp only [ratioPart]
  split_ifs with hzero hlt hle
  · simp [hzero, total_eq_sum]
  · exact absurd hlt hpt.not_gt
  · have ht : 0 < a.total := lt_of_lt_of_le (lt_of_le_of_ne hp (Ne.symm hzero)) hpt
    rw [total_withCols]
    exact le_antisymm (sum_ratioParts_le ha hp ht) hle
  · have ht : 0 < a.total := lt_of_lt_of_le (lt_of_le_of_ne hp (Ne.symm hzero)) hpt
    rw [total_withCols]
    exact sum_adjustedParts ha hp hpt ht

/-- The part takes from each column at most what is there. -/
theorem ratioPart_bounds (ha : a.Nonneg) (hp : 0 ≤ p) (i : Fin PEG_SIZE) :
    0 ≤ (a.ratioPart p).cols i ∧ (a.ratioPart p).cols i ≤ a.cols i := by
  simp only [ratioPart]
  split_ifs with hzero hlt hle
  · simpa using ha i
  · simpa using ha i
  · have ht : 0 < a.total := lt_of_lt_of_le (lt_of_le_of_ne hp (Ne.symm hzero)) (not_lt.mp hlt)
    rw [cols_withCols]
    exact ⟨ratioParts_nonneg ha hp i, ratioParts_le ha hp (not_lt.mp hlt) ht i⟩
  · have ht : 0 < a.total := lt_of_lt_of_le (lt_of_le_of_ne hp (Ne.symm hzero)) (not_lt.mp hlt)
    rw [cols_withCols]
    exact adjustedParts_bounds ha hp (not_lt.mp hlt) ht i

theorem Nonneg.ratioPart (ha : a.Nonneg) (hp : 0 ≤ p) : (a.ratioPart p).Nonneg :=
  fun i => (ratioPart_bounds ha hp i).1

theorem ratioPart_std (a : CFractions) (p : ℤ) : (a.ratioPart p).nFlags.std = true := by
  simp only [CFractions.ratioPart]
  split_ifs <;> rfl

end RatioPart

/-! ## The part moved -/

/-- What one call of `moveRatioPartTo` did: `q` went from `a` to `b`. -/
structure Moved (a b : CFractions) (p : ℤ) (r : ℤ × CFractions × CFractions) (q : Columns) :
    Prop where
  src : r.2.1.cols = a.cols - q
  dst : r.2.2.cols = b.cols + q
  dstMarks : r.2.2.marks = b.marks
  dstFilled : b.Filled → r.2.2.Filled
  support : ∀ i, a.cols i = 0 → q i = 0
  bounds : a.Nonneg → 0 ≤ p → ∀ i, 0 ≤ q i ∧ q i ≤ a.cols i
  amount : a.Nonneg → 0 ≤ p → ∑ i, q i + r.1 = p

/-- The source is emptied, or nothing is moved. -/
theorem moved_whole {a b : CFractions} {p : ℤ} :
    Moved a b p (p - a.total, a.withCols 0, b.toStd + a) a.cols where
  src := by simp
  dst := by simp
  dstMarks := rfl
  dstFilled := fun _ => Or.inl rfl
  support := fun i hi => hi
  bounds := fun ha _ i => ⟨ha i, le_rfl⟩
  amount := fun _ _ => by rw [← total_eq_sum]; ring

theorem moved_none {a b : CFractions} {p r : ℤ} (hr : r = p) : Moved a b p (r, a, b) 0 where
  src := by simp
  dst := by simp
  dstMarks := rfl
  dstFilled := id
  support := fun _ _ => rfl
  bounds := fun ha _ i => ⟨le_rfl, ha i⟩
  amount := fun _ _ => by simp [hr]

theorem moveUnits_adjusted (a b : CFractions) (p : ℤ) :
    moveUnits (adjustFrom a.cols) ((p - ∑ i, a.ratioParts p i).toNat * PEG_SIZE)
      (adjustFrom a.cols) (p - ∑ i, a.ratioParts p i) (a.cols - a.ratioParts p)
      (b.cols + a.ratioParts p) =
    ((a.adjustedParts p).1, a.cols - (a.adjustedParts p).2, b.cols + (a.adjustedParts p).2) :=
  moveUnits_eq a.cols b.cols _ _ _ _ _

theorem moveRatioPartTo_moved (a b : CFractions) (p : ℤ) :
    ∃ q, Moved a b p (a.moveRatioPartTo b p) q := by
  simp only [moveRatioPartTo]
  split_ifs with hzero hp hle hsum
  · exact ⟨0, moved_none rfl⟩
  · exact ⟨0, moved_none hp.symm⟩
  · exact ⟨a.cols, moved_whole⟩
  · refine ⟨a.ratioParts p, by simp, by simp, rfl, fun _ => Or.inl rfl,
      fun i hi => ratioParts_of_zero hi, fun ha hp0 i => ?_, fun ha hp0 => ?_⟩
    · have ht : 0 < a.total := lt_of_le_of_ne ha.total (Ne.symm hzero)
      exact ⟨ratioParts_nonneg ha hp0 i, ratioParts_le ha hp0 (not_le.mp hle).le ht i⟩
    · have ht : 0 < a.total := lt_of_le_of_ne ha.total (Ne.symm hzero)
      have hround := sum_ratioParts_le ha hp0 ht
      omega
  · rw [moveUnits_adjusted]
    refine ⟨(a.adjustedParts p).2, by simp, by simp, rfl, fun _ => Or.inl rfl,
      fun i hi => adjustedParts_of_zero hi, fun ha hp0 i => ?_, fun ha hp0 => ?_⟩
    · have ht : 0 < a.total := lt_of_le_of_ne ha.total (Ne.symm hzero)
      exact adjustedParts_bounds ha hp0 (not_le.mp hle).le ht i
    · have ht : 0 < a.total := lt_of_le_of_ne ha.total (Ne.symm hzero)
      rw [sum_adjustedParts ha hp0 (not_le.mp hle).le ht, add_zero]

/-- A part has nothing where the fractions have nothing. -/
theorem ratioPart_of_zero {a : CFractions} {p : ℤ} {x : Fin PEG_SIZE}
    (h : a.cols x = 0) : (a.ratioPart p).cols x = 0 := by
  simp only [CFractions.ratioPart]
  split_ifs
  · rfl
  · exact h
  · rw [cols_withCols]
    exact ratioParts_of_zero h
  · rw [cols_withCols]
    exact adjustedParts_of_zero h

/-- A part that is covered is the share of each column. -/
theorem ratioPart_cols {a : CFractions} {p : ℤ} (ha : a.Nonneg) (hp : 0 ≤ p)
    (hle : p ≤ a.total) : (a.ratioPart p).cols = share a.cols p := by
  rcases hp.eq_or_lt with rfl | hpos
  · rw [share_zero]
    rfl
  have hfloor : a.ratioParts p = fun x => a.cols x * p / ∑ y, a.cols y := by
    funext x
    rw [ratioParts, mulDiv_eq_ediv (ha x) hp, total_eq_sum]
  have hleftover : p - ∑ x, a.ratioParts p x = leftover a.cols p := by rw [hfloor, leftover]
  simp only [CFractions.ratioPart, if_neg hpos.ne', if_neg hle.not_gt]
  split_ifs with hround
  · rw [cols_withCols, hfloor, share_of_leftover (by omega)]
  · have hlt : p < ∑ y, a.cols y := by
      rw [total_eq_sum] at hle
      refine hle.lt_of_ne ?_
      intro hall
      have hnone := leftover_all hpos hall
      omega
    rw [cols_withCols, adjustedParts, hleftover, hfloor]
    refine topUp_share ha hpos hlt (fun y hy => eq_zero_of_lt_adjustFrom hy) ?_
    have hone : 1 ≤ (leftover a.cols p).toNat := by omega
    have := Nat.mul_le_mul_right PEG_SIZE hone
    omega

section Moved

variable {a b : CFractions}

/-- All that `a` has is moved before anything is left over. -/
theorem moveRatioPartTo_left {p : ℤ} (hp : 0 ≤ p) (ha : a.Nonneg) :
    (a.moveRatioPartTo b p).1 = max 0 (p - a.total) := by
  have htotal := ha.total
  simp only [moveRatioPartTo]
  split_ifs with hzero hpart hall hsum <;> simp only <;> omega

theorem moveRatioPartTo_std (ha : a.nFlags.std = true) (hb : b.nFlags.std = true) (p : ℤ) :
    (a.moveRatioPartTo b p).2.1.nFlags.std = true ∧
      (a.moveRatioPartTo b p).2.2.nFlags.std = true := by
  simp only [moveRatioPartTo]
  split_ifs <;> first | exact ⟨ha, hb⟩ | exact ⟨rfl, rfl⟩

/-- What was moved to is non-negative when it passes the check on positive columns. -/
theorem moveRatioPartTo_nonneg {p : ℤ} (hb : b.Nonneg)
    (h : (a.moveRatioPartTo b p).2.2.isPositive = true) : (a.moveRatioPartTo b p).2.2.Nonneg := by
  simp only [moveRatioPartTo] at h ⊢
  split_ifs at h ⊢
  · exact hb
  · exact hb
  all_goals
    refine Filled.nonneg (Or.inl ?_) h
    rfl

end Moved

end CFractions

end BitBay
