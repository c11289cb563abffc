import BitBay.Peg.Cycle
import BitBay.Peg.LevelOrder

/-!
# Fractions split at peg levels

`Low`, `High`, `LowPart` and `HighPart` split fractions at a peg level, and `MidPart` is what
lies between two levels. All of them take a share of the column that the level splits. A valid
level may ask for more than the whole column, and then what is left of it is negative.

`MidPart` has a branch of its own for levels in one column. It leaves out the rounding that
`LowPart` does, and reads the columns of fractions that are not in standard form.
-/
namespace BitBay

open scoped BigOperators

def INT64_MAX : ℤ := 2 ^ 63 - 1

/-- `RatioPart` on single values. A quotient that needs 128 bits is converted to the largest
value of 64 bits. -/
def ratioShare (nValue nPartValue nTotalValue : ℤ) : ℤ :=
  min (ratioPart nValue nPartValue nTotalValue) INT64_MAX

namespace CPegLevel

def ratioOf (level : CPegLevel) (v : ℤ) : ℤ :=
  ratioShare v level.nShiftLastPart level.nShiftLastTotal

/-- The reserve of an amount in the split column, with better rounding. -/
def share (level : CPegLevel) (v : ℤ) : ℤ :=
  let vpart := level.ratioOf v
  if vpart < v then vpart + 1 else vpart

/-- The column that is not all reserve is outside of the array. -/
def outside (level : CPegLevel) : Prop :=
  level.nSupply + level.nShift < 0 ∨ PEG_SIZE ≤ level.nSupply + level.nShift

instance (level : CPegLevel) : Decidable level.outside := inferInstanceAs (Decidable (_ ∨ _))

end CPegLevel

namespace CFractions

variable (a : CFractions) (peglevel : CPegLevel)

def levelLow : ℤ :=
  if peglevel.outside then 0
  else (if peglevel.fPartial then peglevel.share (a.cols peglevel.nLastIdx) else 0) +
    a.low peglevel.nSupplyEffective

def levelHigh : ℤ :=
  if peglevel.outside then 0
  else if peglevel.fPartial then
    a.cols peglevel.nLastIdx - peglevel.share (a.cols peglevel.nLastIdx) +
      a.high (peglevel.nSupplyEffective + 1)
  else a.high peglevel.nSupplyEffective

def levelLowPart : CFractions :=
  zeroStd.withCols fun i =>
    if (i : ℕ) < peglevel.nSupplyEffective then a.cols i
    else if i = peglevel.nLastIdx ∧ ¬ peglevel.outside ∧ peglevel.fPartial then
      peglevel.share (a.cols i)
    else 0

def levelHighPart : CFractions :=
  zeroStd.withCols fun i =>
    if (i : ℕ) < peglevel.nSupplyEffective then 0
    else if i = peglevel.nLastIdx ∧ ¬ peglevel.outside ∧ peglevel.fPartial then
      a.cols i - peglevel.share (a.cols i)
    else a.cols i

/-- What `MidPart` leaves of a column that both levels reach. The share of the lower level is
not rounded up. -/
def midShare (peglevel_low peglevel_high : CPegLevel) (vone : ℤ) : ℤ :=
  let v := if peglevel_low.fPartial then vone - peglevel_low.ratioOf vone else vone
  if peglevel_high.fPartial then v - (vone - peglevel_high.share vone) else v

/-- `MidPart` of two peg levels. Levels of one column read the array as it is stored. -/
def levelMidPart (peglevel_low peglevel_high : CPegLevel) : CFractions :=
  if peglevel_low.column ≠ peglevel_high.column then
    (a.levelHighPart peglevel_low).levelLowPart peglevel_high
  else zeroStd.withCols (Pi.single peglevel_low.nLastIdx
    (midShare peglevel_low peglevel_high (a.f peglevel_low.nLastIdx)))

/-- Columns of `int64_t` that are not negative. -/
structure Amounts : Prop where
  nonneg : a.Nonneg
  le : ∀ i, a.cols i ≤ INT64_MAX

structure SplitBy : Prop where
  cols : (a.levelLowPart peglevel + a.levelHighPart peglevel).cols = a.toStd.cols
  low_nonneg : (a.levelLowPart peglevel).Nonneg
  high_nonneg : (a.levelHighPart peglevel).Nonneg
  low : a.levelLow peglevel = (a.levelLowPart peglevel).total
  high : a.levelHigh peglevel = (a.levelHighPart peglevel).total
  total : a.levelLow peglevel + a.levelHigh peglevel = a.total

/-- In this column the middle part of a stored amount is what the split of the amount `v` leaves
between the levels. -/
def MidAlike (peglevel_low peglevel_high : CPegLevel) (stored v : ℤ) : Prop :=
  (peglevel_high.share stored - if peglevel_low.fPartial then peglevel_low.ratioOf stored else 0) =
    peglevel_high.share v - if peglevel_low.fPartial then peglevel_low.share v else 0

/-- Objects of the same fractions. A plain value is in the first word of the array, and the
others are as they were allocated. -/
def SameValue (a b : CFractions) : Prop :=
  a.nFlags = b.nFlags ∧ if a.nFlags.std then a.f = b.f else a.f 0 = b.f 0

/-- Two levels split the fractions into three parts, whatever memory holds past a plain value. -/
structure SplitByTwo (peglevel_low peglevel_high : CPegLevel) : Prop where
  cols : ∀ b : CFractions, a.SameValue b →
    (a.levelLowPart peglevel_low + b.levelMidPart peglevel_low peglevel_high +
      a.levelHighPart peglevel_high).cols = a.toStd.cols
  mid_nonneg : ∀ b : CFractions, a.SameValue b →
    (b.levelMidPart peglevel_low peglevel_high).Nonneg

end CFractions

/-! ## The share of a column -/

namespace CPegLevel

variable {level : CPegLevel} {v : ℤ}

theorem IsValid.not_outside (h : level.IsValid) : ¬ level.outside := by
  obtain ⟨-, hsupply, -, -, -, -, -, hshift, hrange, -, -⟩ := h
  unfold outside
  omega

theorem ratioOf_nonneg (h : level.IsValid) (hv : 0 ≤ v) : 0 ≤ level.ratioOf v := by
  have hratio : 0 ≤ ratioPart v level.nShiftLastPart level.nShiftLastTotal := by
    unfold ratioPart
    split_ifs
    · exact le_rfl
    · exact mulDiv_nonneg hv h.part_nonneg h.total_nonneg
  exact le_min hratio (by decide)

theorem share_nonneg (h : level.IsValid) (hv : 0 ≤ v) : 0 ≤ level.share v := by
  have hratio := ratioOf_nonneg h hv
  unfold share
  dsimp only
  split_ifs <;> omega

/-- The share is at most the amount if the ratio part is. -/
theorem share_le_iff : level.share v ≤ v ↔ level.ratioOf v ≤ v := by
  unfold share
  dsimp only
  split_ifs <;> omega

/-- The level does not ask for more than there is in the column. -/
def Covered (level : CPegLevel) (v : ℤ) : Prop :=
  level.fPartial = true →
    v * level.nShiftLastPart < (v + 1) * level.nShiftLastTotal ∨ v = INT64_MAX

theorem ratioOf_le_iff (hpart : level.fPartial = true) (hv : 0 ≤ v) (hmax : v ≤ INT64_MAX) :
    level.ratioOf v ≤ v ↔
      v * level.nShiftLastPart < (v + 1) * level.nShiftLastTotal ∨ v = INT64_MAX := by
  obtain ⟨hp, ht⟩ := fPartial_iff.mp hpart
  have hratio : ratioPart v level.nShiftLastPart level.nShiftLastTotal =
      v * level.nShiftLastPart / level.nShiftLastTotal := by
    rw [ratioPart, if_neg (by omega), mulDiv_eq_ediv hv hp.le]
  have hquotient : v * level.nShiftLastPart / level.nShiftLastTotal ≤ v ↔
      v * level.nShiftLastPart < (v + 1) * level.nShiftLastTotal := by
    rw [← Int.lt_add_one_iff, Int.ediv_lt_iff_lt_mul ht]
  rw [ratioOf, ratioShare, min_le_iff, hratio, hquotient]
  exact or_congr_right ⟨fun hle => le_antisymm hmax hle, fun heq => heq.ge⟩

theorem covered_of_le (hle : level.nShiftLastPart ≤ level.nShiftLastTotal) (hv : 0 ≤ v) :
    level.Covered v := by
  intro hpart
  have ht := (fPartial_iff.mp hpart).2
  refine Or.inl ?_
  calc v * level.nShiftLastPart ≤ v * level.nShiftLastTotal := mul_le_mul_of_nonneg_left hle hv
    _ < (v + 1) * level.nShiftLastTotal := mul_lt_mul_of_pos_right (by omega) ht

end CPegLevel

/-! ## One level -/

namespace CFractions

variable {a : CFractions} {level : CPegLevel}

theorem cols_levelLowPart (h : level.IsValid) : (a.levelLowPart level).cols =
    (a.lowPart level.nSupplyEffective).cols + Pi.single level.nLastIdx
      (if level.fPartial then level.share (a.cols level.nLastIdx) else 0) := by
  funext i
  have hlast := h.nLastIdx
  rw [levelLowPart, cols_withCols, Pi.add_apply, cols_lowPart]
  rcases eq_or_ne i level.nLastIdx with rfl | hi
  · simp [hlast, h.not_outside]
  · simp [hi]

theorem cols_levelHighPart (h : level.IsValid) : (a.levelHighPart level).cols =
    (a.highPart level.nSupplyEffective).cols - Pi.single level.nLastIdx
      (if level.fPartial then level.share (a.cols level.nLastIdx) else 0) := by
  funext i
  have hlast := h.nLastIdx
  rw [levelHighPart, cols_withCols, Pi.sub_apply, cols_highPart]
  rcases eq_or_ne i level.nLastIdx with rfl | hi
  · simp only [hlast, lt_irrefl, if_false, h.not_outside, not_false_eq_true, true_and,
      Pi.single_eq_same]
    split_ifs <;> simp
  · simp [hi]

/-- The parts add up, whatever the share is. -/
theorem levelLowPart_add_levelHighPart (h : level.IsValid) :
    (a.levelLowPart level + a.levelHighPart level).cols = a.toStd.cols := by
  rw [cols_add, cols_levelLowPart h, cols_levelHighPart h, cols_toStd,
    ← lowPart_add_highPart a level.nSupplyEffective]
  abel

theorem levelLow_eq (h : level.IsValid) : a.levelLow level = (a.levelLowPart level).total := by
  rw [levelLow, if_neg h.not_outside, total_eq_sum, cols_levelLowPart h]
  simp only [Pi.add_apply, Finset.sum_add_distrib, sum_single]
  rw [← total_eq_sum, total_lowPart, add_comm]

theorem levelHigh_eq (h : level.IsValid) : a.levelHigh level = (a.levelHighPart level).total := by
  have hsucc := a.high_succ level.nLastIdx
  rw [h.nLastIdx] at hsucc
  rw [levelHigh, if_neg h.not_outside, total_eq_sum, cols_levelHighPart h]
  simp only [Pi.sub_apply, Finset.sum_sub_distrib, sum_single]
  rw [← total_eq_sum, total_highPart, hsucc]
  split_ifs <;> ring

theorem Nonneg.levelLowPart (ha : a.Nonneg) (h : level.IsValid) :
    (a.levelLowPart level).Nonneg := by
  intro i
  rw [CFractions.levelLowPart, cols_withCols]
  split_ifs
  · exact ha i
  · exact CPegLevel.share_nonneg h (ha i)
  · exact le_rfl

theorem levelHighPart_last (h : level.IsValid) :
    (a.levelHighPart level).cols level.nLastIdx = a.cols level.nLastIdx -
      if level.fPartial then level.share (a.cols level.nLastIdx) else 0 := by
  rw [cols_levelHighPart h, Pi.sub_apply, cols_highPart, h.nLastIdx, if_neg (lt_irrefl _),
    Pi.single_eq_same]

theorem levelHighPart_nonneg (h : level.IsValid) (ha : a.Amounts)
    (hcovered : level.Covered (a.cols level.nLastIdx)) : (a.levelHighPart level).Nonneg := by
  intro i
  rcases eq_or_ne i level.nLastIdx with rfl | hi
  · rw [levelHighPart_last h]
    split_ifs with hpart
    · rw [sub_nonneg, CPegLevel.share_le_iff]
      exact (CPegLevel.ratioOf_le_iff hpart (ha.nonneg _) (ha.le _)).mpr (hcovered hpart)
    · rw [sub_zero]
      exact ha.nonneg _
  · rw [cols_levelHighPart h, Pi.sub_apply, Pi.single_eq_of_ne hi, sub_zero]
    exact ha.nonneg.highPart _ i

/-- A valid level splits fractions into two parts that are not negative if and only if it does
not ask for more than the split column has. -/
theorem splitBy_iff (h : level.IsValid) (ha : a.Amounts) :
    a.SplitBy level ↔ level.Covered (a.cols level.nLastIdx) := by
  constructor
  · intro hsplit hpart
    have hle := hsplit.high_nonneg level.nLastIdx
    rw [levelHighPart_last h, if_pos hpart, sub_nonneg, CPegLevel.share_le_iff] at hle
    exact (CPegLevel.ratioOf_le_iff hpart (ha.nonneg _) (ha.le _)).mp hle
  · intro hcovered
    have htotal : a.levelLow level + a.levelHigh level = a.total := by
      rw [levelLow_eq h, levelHigh_eq h, ← total_add, total_eq_sum,
        levelLowPart_add_levelHighPart h, ← total_eq_sum, total_toStd]
    exact ⟨levelLowPart_add_levelHighPart h, ha.nonneg.levelLowPart h,
      levelHighPart_nonneg h ha hcovered, levelLow_eq h, levelHigh_eq h, htotal⟩

theorem singleColumn_amounts {v : ℤ} (hv : 0 ≤ v) (hmax : v ≤ INT64_MAX) (c : Fin PEG_SIZE) :
    (singleColumn c v).Amounts := by
  refine ⟨singleColumn_nonneg hv c, fun i => ?_⟩
  rw [singleColumn, cols_withCols]
  split_ifs
  · exact hmax
  · exact hv.trans hmax

/-- A level that asks for three times the column takes more out of it than there is. -/
theorem level_above_total_splits_badly :
    (CPegLevel.sampleRatio 3 1).IsValid ∧ (singleColumn 3 1).Amounts ∧
      ((singleColumn 3 1).levelHighPart (CPegLevel.sampleRatio 3 1)).cols 3 = -2 ∧
      ¬ (singleColumn 3 1).SplitBy (CPegLevel.sampleRatio 3 1) := by
  have hcol : ((singleColumn 3 1).levelHighPart (CPegLevel.sampleRatio 3 1)).cols 3 = -2 := by
    decide
  refine ⟨by decide, singleColumn_amounts zero_le_one (by decide) 3, hcol, fun hsplit => ?_⟩
  have hnonneg := hsplit.high_nonneg 3
  omega

/-- A unit that is split in halves is reserve. -/
theorem half_level_splits : (singleColumn 3 1).SplitBy (CPegLevel.sampleRatio 1 2) := by
  have hamounts := singleColumn_amounts zero_le_one (by decide) 3
  exact (splitBy_iff (by decide) hamounts).mpr fun _ => Or.inl (by decide)

end CFractions

/-! ## Two levels -/

namespace CPegLevel

variable {level low high : CPegLevel} {v : ℤ}

theorem ratioOf_zero (level : CPegLevel) : level.ratioOf 0 = 0 := by
  simp [ratioOf, ratioShare, ratioPart, INT64_MAX]

theorem share_zero (level : CPegLevel) : level.share 0 = 0 := by
  simp [share, ratioOf_zero]

theorem ratioOf_eq (hpart : level.fPartial = true)
    (hle : level.nShiftLastPart ≤ level.nShiftLastTotal) (hv : 0 ≤ v) (hmax : v ≤ INT64_MAX) :
    level.ratioOf v = v * level.nShiftLastPart / level.nShiftLastTotal := by
  obtain ⟨hp, ht⟩ := fPartial_iff.mp hpart
  have hratio := ratioPart_le hv hp.le hle ht
  rw [ratioOf, ratioShare, min_eq_left (hratio.trans hmax), ratioPart, if_neg (by omega),
    mulDiv_eq_ediv hv hp.le]

structure BelowInColumn (low high : CPegLevel) : Prop where
  column : low.column = high.column
  cross : low.nShiftLastPart * high.nShiftLastTotal < high.nShiftLastPart * low.nShiftLastTotal
  part_nonneg : 0 ≤ low.nShiftLastPart
  total_pos : 0 < low.nShiftLastTotal
  part_lt : low.nShiftLastPart < low.nShiftLastTotal
  fPartial : high.fPartial = true
  le : high.nShiftLastPart ≤ high.nShiftLastTotal

theorem belowInColumn (hlow : low.IsValid) (hhigh : high.IsValid) (hbelow : low.below high = true)
    (hle : high.nShiftLastPart ≤ high.nShiftLastTotal) (hcolumn : low.column = high.column) :
    BelowInColumn low high := by
  have hcross : low.nShiftLastPart * high.nShiftLastTotal <
      high.nShiftLastPart * low.nShiftLastTotal := by
    rcases (below_iff hlow hhigh).mp hbelow with hlt | ⟨-, hcross⟩
    · exact absurd hcolumn hlt.ne
    · exact hcross
  have hp := hlow.part_nonneg
  have hproduct : 0 < high.nShiftLastPart * low.nShiftLastTotal :=
    (mul_nonneg hp hhigh.total_nonneg).trans_lt hcross
  have htotal : 0 < low.nShiftLastTotal :=
    hlow.total_nonneg.lt_of_ne' (right_ne_zero_of_mul hproduct.ne')
  have hpart : 0 < high.nShiftLastPart :=
    hhigh.part_nonneg.lt_of_ne' (left_ne_zero_of_mul hproduct.ne')
  have hhightotal : 0 < high.nShiftLastTotal := hpart.trans_le hle
  refine ⟨hcolumn, hcross, hp, htotal, ?_, fPartial_iff.mpr ⟨hpart, hhightotal⟩, hle⟩
  have hlt : low.nShiftLastPart * high.nShiftLastTotal <
      low.nShiftLastTotal * high.nShiftLastTotal := by
    calc _ < high.nShiftLastPart * low.nShiftLastTotal := hcross
      _ ≤ high.nShiftLastTotal * low.nShiftLastTotal :=
        mul_le_mul_of_nonneg_right hle htotal.le
      _ = low.nShiftLastTotal * high.nShiftLastTotal := mul_comm _ _
  exact lt_of_mul_lt_mul_right hlt hhightotal.le

namespace BelowInColumn

variable (h : BelowInColumn low high)
include h

/-- The lower level leaves something of every amount. -/
theorem ratioOf_lt (hpart : low.fPartial = true) (hv : 0 < v) (hmax : v ≤ INT64_MAX) :
    low.ratioOf v < v := by
  rw [ratioOf_eq hpart h.part_lt.le hv.le hmax, Int.ediv_lt_iff_lt_mul h.total_pos]
  exact mul_lt_mul_of_pos_left h.part_lt hv

theorem ratioOf_le_ratioOf (hpart : low.fPartial = true) (hv : 0 ≤ v) (hmax : v ≤ INT64_MAX) :
    low.ratioOf v ≤ high.ratioOf v := by
  obtain ⟨-, ht⟩ := fPartial_iff.mp h.fPartial
  rw [ratioOf_eq hpart h.part_lt.le hv hmax, ratioOf_eq h.fPartial h.le hv hmax,
    Int.le_ediv_iff_mul_le ht]
  have hfloor := Int.ediv_mul_le (v * low.nShiftLastPart) h.total_pos.ne'
  refine le_of_mul_le_mul_right ?_ h.total_pos
  calc v * low.nShiftLastPart / low.nShiftLastTotal * high.nShiftLastTotal * low.nShiftLastTotal
      = v * low.nShiftLastPart / low.nShiftLastTotal * low.nShiftLastTotal *
          high.nShiftLastTotal := by ring
    _ ≤ v * low.nShiftLastPart * high.nShiftLastTotal := mul_le_mul_of_nonneg_right hfloor ht.le
    _ = v * (low.nShiftLastPart * high.nShiftLastTotal) := by ring
    _ ≤ v * (high.nShiftLastPart * low.nShiftLastTotal) :=
        mul_le_mul_of_nonneg_left h.cross.le hv
    _ = v * high.nShiftLastPart * low.nShiftLastTotal := by ring

theorem share_le_share (hpart : low.fPartial = true) (hv : 0 ≤ v) (hmax : v ≤ INT64_MAX) :
    low.share v ≤ high.share v := by
  have hle := h.ratioOf_le_ratioOf hpart hv hmax
  have htop : high.ratioOf v ≤ v := by
    obtain ⟨hp, ht⟩ := fPartial_iff.mp h.fPartial
    exact (min_le_left _ _).trans (ratioPart_le hv hp.le h.le ht)
  unfold share
  dsimp only
  split_ifs <;> omega

/-- A unit is reserve of the higher level. -/
theorem share_one : high.share 1 = 1 := by
  obtain ⟨hp, ht⟩ := fPartial_iff.mp h.fPartial
  have hle : high.ratioOf 1 ≤ 1 :=
    (min_le_left _ _).trans (ratioPart_le zero_le_one hp.le h.le ht)
  have hnonneg : 0 ≤ high.ratioOf 1 := by
    rw [ratioOf_eq h.fPartial h.le zero_le_one (by decide)]
    exact Int.ediv_nonneg (by omega) ht.le
  unfold share
  dsimp only
  split_ifs <;> omega

end BelowInColumn

end CPegLevel

namespace CFractions

variable {a b : CFractions} {low high : CPegLevel}

theorem midShare_eq (hpart : high.fPartial = true) (v : ℤ) :
    midShare low high v = high.share v - if low.fPartial then low.ratioOf v else 0 := by
  unfold midShare
  rw [if_pos hpart]
  split_ifs <;> omega

theorem nLastIdx_of_column (hcolumn : low.column = high.column) :
    low.nSupplyEffective = high.nSupplyEffective ∧ low.nLastIdx = high.nLastIdx := by
  have heffective : low.nSupplyEffective = high.nSupplyEffective := congrArg Int.toNat hcolumn
  exact ⟨heffective, congrArg (Fin.ofNat PEG_SIZE) heffective⟩

/-- In one column the parts add up exactly where the middle part is the right one. -/
theorem parts_of_column (hlow : low.IsValid) (hhigh : high.IsValid)
    (h : low.BelowInColumn high) :
    (a.levelLowPart low + b.levelMidPart low high + a.levelHighPart high).cols = a.toStd.cols ↔
      MidAlike low high (b.f low.nLastIdx) (a.cols low.nLastIdx) := by
  obtain ⟨heffective, hlast⟩ := nLastIdx_of_column h.column
  have hmid : (b.levelMidPart low high).cols =
      Pi.single low.nLastIdx (midShare low high (b.f low.nLastIdx)) := by
    rw [levelMidPart, if_neg (not_not.mpr h.column), cols_withCols]
  have hsum : (a.levelLowPart low + b.levelMidPart low high + a.levelHighPart high).cols =
      a.cols + Pi.single low.nLastIdx
        ((if low.fPartial then low.share (a.cols low.nLastIdx) else 0) +
          midShare low high (b.f low.nLastIdx) - high.share (a.cols low.nLastIdx)) := by
    rw [cols_add, cols_add, cols_levelLowPart hlow, cols_levelHighPart hhigh, hmid, ← heffective,
      ← hlast, if_pos h.fPartial, Pi.single_sub, Pi.single_add,
      ← lowPart_add_highPart a low.nSupplyEffective]
    abel
  rw [hsum, cols_toStd, add_eq_left, Pi.single_eq_zero_iff, midShare_eq h.fPartial, MidAlike]
  constructor <;> intro heq <;> linarith

/-- Levels of different columns leave the columns between them and their own rests. -/
theorem parts_of_columns (hlow : low.IsValid) (hhigh : high.IsValid)
    (hlt : low.column < high.column) :
    (a.levelLowPart low + a.levelMidPart low high + a.levelHighPart high).cols = a.toStd.cols := by
  have hcut : low.nSupplyEffective < high.nSupplyEffective := by
    obtain ⟨-, hsupply, -, -, -, -, -, hshift, -⟩ := hlow
    unfold CPegLevel.column at hlt
    unfold CPegLevel.nSupplyEffective
    omega
  have hlowIdx := hlow.nLastIdx
  have hhighIdx := hhigh.nLastIdx
  have hrest : (a.levelHighPart low).cols high.nLastIdx = a.cols high.nLastIdx := by
    have hne : high.nLastIdx ≠ low.nLastIdx := fun heq => by
      rw [heq] at hhighIdx
      omega
    rw [cols_levelHighPart hlow, Pi.sub_apply, Pi.single_eq_of_ne hne, sub_zero, cols_highPart,
      if_neg (by omega)]
  rw [levelMidPart, if_pos hlt.ne]
  funext i
  simp only [cols_add, cols_toStd, Pi.add_apply, cols_levelLowPart hlow, cols_levelLowPart hhigh,
    cols_levelHighPart hhigh, Pi.sub_apply, cols_lowPart, cols_highPart, hrest,
    cols_levelHighPart hlow]
  rcases eq_or_ne i low.nLastIdx with rfl | hi
  · simp [hlowIdx, hcut]
    ring
  · rw [Pi.single_eq_of_ne hi]
    split_ifs <;> omega

namespace SameValue

variable (h : a.SameValue b)
include h

theorem cols_eq : b.cols = a.cols := by
  obtain ⟨hflags, hf⟩ := h
  unfold cols
  rw [← hflags]
  split_ifs with hstd
  · rw [if_pos hstd] at hf
    exact hf.symm
  · rw [if_neg hstd] at hf
    rw [hf]

theorem levelMidPart_eq (hcolumn : low.column ≠ high.column) :
    b.levelMidPart low high = a.levelMidPart low high := by
  have hpart : b.levelHighPart low = a.levelHighPart low := by
    unfold levelHighPart
    rw [h.cols_eq]
  rw [levelMidPart, levelMidPart, if_pos hcolumn, if_pos hcolumn, hpart]

end SameValue

theorem SameValue.refl (a : CFractions) : a.SameValue a := ⟨rfl, by split_ifs <;> rfl⟩

/-- Memory past a plain value may hold anything. -/
theorem sameValue_update (hstd : a.nFlags.std = false) {c : Fin PEG_SIZE} (hc : c ≠ 0) (v : ℤ) :
    a.SameValue { a with f := Function.update a.f c v } := by
  refine ⟨rfl, ?_⟩
  rw [hstd, if_neg Bool.false_ne_true]
  exact (Function.update_of_ne hc.symm v a.f).symm

/-- The middle part of a column keeps its sign where it is the right one. -/
theorem MidAlike.nonneg {stored v : ℤ} (h : low.BelowInColumn high)
    (halike : MidAlike low high stored v) (hv : 0 ≤ v) (hmax : v ≤ INT64_MAX)
    (hhigh : high.IsValid) : 0 ≤ midShare low high stored := by
  rw [midShare_eq h.fPartial, halike, sub_nonneg]
  split_ifs with hpart
  · exact h.share_le_share hpart hv hmax
  · exact CPegLevel.share_nonneg hhigh hv

/-- Without a share of the lower level, or with nothing to share, there is nothing to round. -/
theorem midAlike_self {v : ℤ} (h : low.BelowInColumn high) (hv : 0 ≤ v) (hmax : v ≤ INT64_MAX) :
    MidAlike low high v v ↔ low.nShiftLastPart = 0 ∨ v = 0 := by
  have hsplit : low.fPartial = true ↔ low.nShiftLastPart ≠ 0 := by
    rw [CPegLevel.fPartial_iff]
    exact ⟨fun hpart => hpart.1.ne', fun hne => ⟨h.part_nonneg.lt_of_ne' hne, h.total_pos⟩⟩
  unfold MidAlike
  split_ifs with hpart
  · have hne := hsplit.mp hpart
    rw [sub_right_inj]
    constructor
    · intro heq
      refine Or.inr (by_contra fun hpos => ?_)
      have hlt := h.ratioOf_lt hpart (hv.lt_of_ne' hpos) hmax
      simp [CPegLevel.share, hlt] at heq
    · rintro (hzero | rfl)
      · exact absurd hzero hne
      · rw [CPegLevel.ratioOf_zero, CPegLevel.share_zero]
  · simp [not_not.mp (mt hsplit.mpr hpart)]

/-- No memory past a plain value gives the middle part for all that may be there. -/
theorem not_midAlike_all {v : ℤ} (h : low.BelowInColumn high) :
    ¬ (MidAlike low high 0 v ∧ MidAlike low high 1 v) := by
  rintro ⟨hzero, hone⟩
  have hunit : (if low.fPartial then low.ratioOf 1 else 0) < 1 := by
    split_ifs with hpart
    · exact h.ratioOf_lt hpart one_pos (by decide)
    · exact one_pos
  unfold MidAlike at hzero hone
  rw [CPegLevel.ratioOf_zero, CPegLevel.share_zero, ite_self] at hzero
  rw [h.share_one] at hone
  omega

def MidRight (a : CFractions) (low high : CPegLevel) : Prop :=
  if a.nFlags.std then low.nShiftLastPart = 0 ∨ a.cols low.nLastIdx = 0
  else low.column = 0 ∧ MidAlike low high (a.f 0) (a.cols 0)

theorem midAlike_all_iff (hlow : low.IsValid) (h : low.BelowInColumn high) (ha : a.Amounts) :
    (∀ b, a.SameValue b → MidAlike low high (b.f low.nLastIdx) (a.cols low.nLastIdx)) ↔
      a.MidRight low high := by
  have hlast := hlow.nLastIdx
  unfold MidRight
  split_ifs with hstd
  · have hself : ∀ b, a.SameValue b → b.f = a.cols := fun b hb => by
      rw [← hb.cols_eq]
      exact (cols_of_std (hb.1 ▸ hstd)).symm
    rw [← midAlike_self h (ha.nonneg _) (ha.le _)]
    constructor
    · intro hall
      have hthis := hall a (SameValue.refl a)
      rwa [hself a (SameValue.refl a)] at hthis
    · intro halike b hb
      rwa [hself b hb]
  · have hvalue : a.nFlags.std = false := Bool.not_eq_true _ ▸ hstd
    have hzero : low.nLastIdx = 0 ↔ low.column = 0 := by
      obtain ⟨-, hsupply, -, -, -, -, -, hshift, -⟩ := hlow
      rw [Fin.ext_iff, hlast, CPegLevel.nSupplyEffective, CPegLevel.column, Fin.val_zero]
      omega
    constructor
    · intro hall
      have hcolumn : low.nLastIdx = 0 := by
        by_contra hne
        have hone := hall _ (sameValue_update hvalue hne 1)
        have hnone := hall _ (sameValue_update hvalue hne 0)
        simp only [Function.update_self] at hone hnone
        exact not_midAlike_all h ⟨hnone, hone⟩
      refine ⟨hzero.mp hcolumn, ?_⟩
      have hthis := hall a (SameValue.refl a)
      rwa [hcolumn] at hthis
    · rintro ⟨hcolumn, halike⟩ b hb
      have hf : a.f 0 = b.f 0 := by simpa [hstd] using hb.2
      rw [hzero.mpr hcolumn, ← hf]
      exact halike

/-- Two levels split fractions into three parts exactly if they reach different columns, or the
lower level has no part of its column, or there is nothing in it. -/
theorem splitByTwo_iff (hlow : low.IsValid) (hhigh : high.IsValid) (hbelow : low.below high = true)
    (hlowPart : low.nShiftLastPart ≤ low.nShiftLastTotal)
    (hhighPart : high.nShiftLastPart ≤ high.nShiftLastTotal) (ha : a.Amounts) :
    a.SplitByTwo low high ↔ low.column ≠ high.column ∨ a.MidRight low high := by
  by_cases hcolumn : low.column = high.column
  · have h := CPegLevel.belowInColumn hlow hhigh hbelow hhighPart hcolumn
    rw [← midAlike_all_iff hlow h ha]
    constructor
    · exact fun hsplit => Or.inr fun b hb => (parts_of_column hlow hhigh h).mp (hsplit.cols b hb)
    · rintro (hne | hall)
      · exact absurd hcolumn hne
      · refine ⟨fun b hb => (parts_of_column hlow hhigh h).mpr (hall b hb), fun b hb i => ?_⟩
        rw [levelMidPart, if_neg (not_not.mpr hcolumn), cols_withCols, Pi.single_apply]
        split_ifs
        · exact (hall b hb).nonneg h (ha.nonneg _) (ha.le _) hhigh
        · exact le_rfl
  · have hlt : low.column < high.column := by
      rcases (CPegLevel.below_iff hlow hhigh).mp hbelow with hlt | ⟨heq, -⟩
      · exact hlt
      · exact absurd heq hcolumn
    refine iff_of_true ⟨fun b hb => ?_, fun b hb => ?_⟩ (Or.inl hcolumn)
    · have hparts := parts_of_columns (a := a) hlow hhigh hlt
      rw [cols_add, cols_add, hb.levelMidPart_eq hcolumn, ← cols_add, ← cols_add]
      exact hparts
    · rw [hb.levelMidPart_eq hcolumn, levelMidPart, if_pos hcolumn]
      exact (levelHighPart_nonneg hlow ha (CPegLevel.covered_of_le hlowPart
        (ha.nonneg _))).levelLowPart hhigh

/-- Of two units a third and a half are one and two: the unit between them is counted as two. -/
theorem middle_of_column_counts_twice :
    (CPegLevel.sampleRatio 1 3).IsValid ∧ (CPegLevel.sampleRatio 1 2).IsValid ∧
      (CPegLevel.sampleRatio 1 3).below (CPegLevel.sampleRatio 1 2) = true ∧
      (singleColumn 3 2).Amounts ∧
      ((singleColumn 3 2).levelLowPart (CPegLevel.sampleRatio 1 3) +
        (singleColumn 3 2).levelMidPart (CPegLevel.sampleRatio 1 3) (CPegLevel.sampleRatio 1 2) +
        (singleColumn 3 2).levelHighPart (CPegLevel.sampleRatio 1 2)).cols 3 = 3 ∧
      ¬ (singleColumn 3 2).SplitByTwo (CPegLevel.sampleRatio 1 3) (CPegLevel.sampleRatio 1 2) := by
  have hsum : ((singleColumn 3 2).levelLowPart (CPegLevel.sampleRatio 1 3) +
      (singleColumn 3 2).levelMidPart (CPegLevel.sampleRatio 1 3) (CPegLevel.sampleRatio 1 2) +
      (singleColumn 3 2).levelHighPart (CPegLevel.sampleRatio 1 2)).cols 3 = 3 := by decide
  have hamounts := singleColumn_amounts zero_le_two (by decide) 3
  refine ⟨by decide, by decide, by decide, hamounts, hsum, fun hsplit => ?_⟩
  have hcols := congrFun (hsplit.cols _ (SameValue.refl _)) 3
  rw [hsum] at hcols
  exact absurd hcols (by decide)

/-- Levels that split an empty column leave the fractions as they are. -/
theorem empty_column_splits :
    (singleColumn 4 2).SplitByTwo (CPegLevel.sampleRatio 1 3) (CPegLevel.sampleRatio 1 2) := by
  have hamounts := singleColumn_amounts zero_le_two (by decide) 4
  have hempty : (singleColumn 4 2).MidRight (CPegLevel.sampleRatio 1 3)
      (CPegLevel.sampleRatio 1 2) := Or.inr (by decide)
  exact (splitByTwo_iff (by decide) (by decide) (by decide) (by decide) (by decide)
    hamounts).mpr (Or.inr hempty)

end CFractions

end BitBay
