import BitBay.Peg.Ratio

/-!
# Peg levels

A peg level says which columns are reserve and which are liquid. The level of an
exchange is shifted up from the level of the network as far as its trades moved
liquidity to reserve, so its last column can be split: `nShiftLastPart` of
`nShiftLastTotal` of this column is reserve, the rest is liquid.
-/
namespace BitBay

open scoped BigOperators

def int16 (v : ℤ) : ℤ := v.bmod 65536

structure CPegLevel where
  nCycle : ℤ := 0
  nCyclePrev : ℤ := 0
  nBuffer : ℤ := 3
  nSupply : ℤ := 0
  nSupplyNext : ℤ := 0
  nSupplyNextNext : ℤ := 0
  nShift : ℤ := 0
  nShiftLastPart : ℤ := 0
  nShiftLastTotal : ℤ := 0
  deriving DecidableEq, Inhabited

namespace CPegLevel

/-- Walk up the columns that turn to reserve, until `nLiquidDiffLeft` is used up. The
result is the shift, the part left over and the total of the column it is a part of. -/
def shiftLoop (f : Columns) : List (Fin PEG_SIZE) → ℤ → ℤ → ℤ × ℤ × ℤ
  | [], nLiquidDiffLeft, nShift => (nShift, nLiquidDiffLeft, 0)
  | i :: rest, nLiquidDiffLeft, nShift =>
    if nLiquidDiffLeft ≤ 0 then (nShift, nLiquidDiffLeft, 0)
    else if nLiquidDiffLeft < f i then (nShift, nLiquidDiffLeft, f i)
    else shiftLoop f rest (nLiquidDiffLeft - f i) (nShift + 1)

/-- The constructor without fractions. -/
def ofSupply (cycle cycle_prev buffer supply supply_next supply_next_next : ℤ) : CPegLevel where
  nCycle := cycle
  nCyclePrev := cycle_prev
  nBuffer := int16 buffer
  nSupply := int16 (min (supply + buffer) (PEG_SIZE - 1))
  nSupplyNext := int16 (min (supply_next + buffer) (PEG_SIZE - 1))
  nSupplyNextNext := int16 (min (supply_next_next + buffer) (PEG_SIZE - 1))

/-- A level after the walk: its shift, the part left over and the total. -/
def withShift (level : CPegLevel) (r : ℤ × ℤ × ℤ) : CPegLevel :=
  { level with nShift := r.1, nShiftLastPart := r.2.1, nShiftLastTotal := r.2.2 }

end CPegLevel

namespace CFractions

def low (a : CFractions) (supply : ℕ) : ℤ := ∑ i : Fin PEG_SIZE, if (i : ℕ) < supply then a.cols i else 0

def high (a : CFractions) (supply : ℕ) : ℤ := ∑ i : Fin PEG_SIZE, if (i : ℕ) < supply then 0 else a.cols i

theorem total_lowPart (a : CFractions) (supply : ℕ) : (a.lowPart supply).total = a.low supply := by
  rw [total_eq_sum]
  exact Finset.sum_congr rfl fun i _ => cols_lowPart a supply i

theorem total_highPart (a : CFractions) (supply : ℕ) :
    (a.highPart supply).total = a.high supply := by
  rw [total_eq_sum]
  exact Finset.sum_congr rfl fun i _ => cols_highPart a supply i

theorem low_add_high (a : CFractions) (supply : ℕ) : a.low supply + a.high supply = a.total := by
  rw [← total_lowPart, ← total_highPart, total_eq_sum, total_eq_sum, ← Finset.sum_add_distrib,
    total_eq_sum]
  exact Finset.sum_congr rfl fun i _ => congrFun (lowPart_add_highPart a supply) i

theorem high_succ (a : CFractions) (i : Fin PEG_SIZE) : a.high i = a.cols i + a.high (i + 1) := by
  have hsingle : ∑ j, (Pi.single i (a.cols i) : Columns) j = a.cols i :=
    Fintype.sum_pi_single' i _
  rw [high, high, ← hsingle, ← Finset.sum_add_distrib]
  refine Finset.sum_congr rfl fun j _ => ?_
  rcases eq_or_ne j i with rfl | hj
  · simp
  · have hne : (j : ℕ) ≠ i := fun heq => hj (Fin.ext heq)
    have hlt : (j : ℕ) < i + 1 ↔ (j : ℕ) < i := by omega
    simp [hj, hlt]

theorem Nonneg.high {a : CFractions} (ha : a.Nonneg) (supply : ℕ) : 0 ≤ a.high supply :=
  total_highPart a supply ▸ (ha.highPart supply).total

end CFractions

namespace CPegLevel

/-- The constructor with the fractions of an exchange and the shift of its trades. A
supply index below zero is not valid, the source reads outside of the array there. -/
def ofFractions (cycle cycle_prev buffer supply supply_next supply_next_next : ℤ)
    (frInput frDistortion : CFractions) : CPegLevel :=
  let level := ofSupply cycle cycle_prev buffer supply supply_next supply_next_next
  let frOutput := frInput + frDistortion
  let nInputLiquid := frInput.high level.nSupply.toNat
  let nOutputLiquid := frOutput.high level.nSupply.toNat
  if nOutputLiquid < nInputLiquid then
    level.withShift (shiftLoop frInput.f ((List.finRange PEG_SIZE).drop level.nSupply.toNat)
      (nInputLiquid - nOutputLiquid) 0)
  else level

def IsValid (level : CPegLevel) : Prop :=
  0 ≤ level.nBuffer ∧ 0 ≤ level.nSupply ∧ level.nSupply < PEG_SIZE ∧
  0 ≤ level.nSupplyNext ∧ level.nSupplyNext < PEG_SIZE ∧
  0 ≤ level.nSupplyNextNext ∧ level.nSupplyNextNext < PEG_SIZE ∧
  0 ≤ level.nShift ∧ level.nSupply + level.nShift < PEG_SIZE ∧
  0 ≤ level.nShiftLastPart ∧ 0 ≤ level.nShiftLastTotal

instance (level : CPegLevel) : Decidable level.IsValid := by unfold IsValid; infer_instance

/-- The first column that is not all reserve. -/
def nSupplyEffective (level : CPegLevel) : ℕ := (level.nSupply + level.nShift).toNat

def nLastIdx (level : CPegLevel) : Fin PEG_SIZE := Fin.ofNat PEG_SIZE level.nSupplyEffective

def fPartial (level : CPegLevel) : Bool :=
  decide (0 < level.nShiftLastPart) && decide (0 < level.nShiftLastTotal)

def vpart (level : CPegLevel) (v : ℤ) : ℤ :=
  let vpart := ratioPart v level.nShiftLastPart level.nShiftLastTotal
  if vpart < v then vpart + 1 else vpart

end CPegLevel

/-- `LowPart` of a peg level: the reserve. -/
def CFractions.lowPartOf (a : CFractions) (peglevel : CPegLevel) : CFractions :=
  zeroStd.withCols fun i =>
    if (i : ℕ) < peglevel.nSupplyEffective then a.cols i
    else if i = peglevel.nLastIdx ∧ peglevel.fPartial then peglevel.vpart (a.cols i)
    else 0

def CFractions.lowPartTotal (a : CFractions) (peglevel : CPegLevel) : ℤ :=
  (if peglevel.fPartial then peglevel.vpart (a.cols peglevel.nLastIdx) else 0) +
    a.low peglevel.nSupplyEffective

/-! ## The split column -/

namespace CPegLevel

variable {level : CPegLevel}

theorem coe_nLastIdx (h : level.nSupplyEffective < PEG_SIZE) :
    (level.nLastIdx : ℕ) = level.nSupplyEffective := Nat.mod_eq_of_lt h

theorem vpart_zero (level : CPegLevel) : level.vpart 0 = 0 := by
  simp [vpart, ratioPart]

section Rounding

variable {v : ℤ} (hv : 0 ≤ v) (hp : 0 < level.nShiftLastPart)
  (ht : level.nShiftLastPart < level.nShiftLastTotal)
include hv hp ht

theorem vpart_bounds : 0 ≤ level.vpart v ∧ level.vpart v ≤ v := by
  have htotal : 0 < level.nShiftLastTotal := hp.trans ht
  have hle := ratioPart_le hv hp.le ht.le htotal
  have hnonneg : 0 ≤ ratioPart v level.nShiftLastPart level.nShiftLastTotal := by
    rw [ratioPart, if_neg (by omega)]
    exact mulDiv_nonneg hv hp.le htotal.le
  simp only [vpart]
  split_ifs <;> omega

/-- The rounding is never in favour of the liquid part. -/
theorem mul_le_vpart : v * level.nShiftLastPart ≤ level.vpart v * level.nShiftLastTotal := by
  have htotal : 0 < level.nShiftLastTotal := hp.trans ht
  have hratio : ratioPart v level.nShiftLastPart level.nShiftLastTotal =
      v * level.nShiftLastPart / level.nShiftLastTotal := by
    rw [ratioPart, if_neg (by omega), mulDiv_eq_ediv hv hp.le]
  simp only [vpart, hratio]
  split_ifs with hlt
  · exact (Int.lt_ediv_add_one_mul_self _ htotal).le
  · calc v * level.nShiftLastPart ≤ v * level.nShiftLastTotal := mul_le_mul_of_nonneg_left ht.le hv
      _ ≤ _ := mul_le_mul_of_nonneg_right (not_lt.mp hlt) htotal.le

end Rounding

/-! ## Levels of an exchange -/

/-- Where the walk stops: at the end, with nothing left, or in a column that is larger
than what is left. -/
theorem shiftLoop_spec (f : Columns) (l : List (Fin PEG_SIZE)) {left : ℤ} (hleft : 0 ≤ left)
    (nShift : ℤ) : ∃ m : ℕ, (shiftLoop f l left nShift).1 = nShift + m ∧
      (m = l.length ∨ (shiftLoop f l left nShift).2 = (0, 0) ∨
        ∃ i p, l[m]? = some i ∧ 0 < p ∧ p < f i ∧ (shiftLoop f l left nShift).2 = (p, f i)) := by
  induction l generalizing left nShift with
  | nil => exact ⟨0, by simp [shiftLoop], Or.inl rfl⟩
  | cons i rest ih =>
    simp only [shiftLoop]
    split_ifs with hdone hlt
    · obtain rfl : left = 0 := le_antisymm hdone hleft
      exact ⟨0, by simp, Or.inr (Or.inl rfl)⟩
    · exact ⟨0, by simp, Or.inr (Or.inr ⟨i, left, rfl, not_le.mp hdone, hlt, rfl⟩)⟩
    · obtain ⟨m, hshift, hstop⟩ := ih (sub_nonneg.mpr (not_lt.mp hlt)) (nShift + 1)
      refine ⟨m + 1, by rw [hshift]; push_cast; ring, ?_⟩
      rcases hstop with hend | hrest
      · exact Or.inl (by simp [hend])
      · exact Or.inr (by simpa using hrest)

/-- The shape of a valid level of an exchange with the columns `f`: no column is split,
or the part is a proper part of the exchange's amount in the split column. -/
structure FitsTo (level : CPegLevel) (f : Columns) : Prop where
  inRange : level.nSupplyEffective < PEG_SIZE
  split : level.nShiftLastPart = 0 ∧ level.nShiftLastTotal = 0 ∨
    0 < level.nShiftLastPart ∧ level.nShiftLastPart < level.nShiftLastTotal ∧
      level.nShiftLastTotal = f level.nLastIdx

theorem withShift_fits {base : CPegLevel} {f : Columns} {left : ℤ} (hleft : 0 ≤ left)
    (h : (base.withShift
      (shiftLoop f ((List.finRange PEG_SIZE).drop base.nSupply.toNat) left 0)).IsValid) :
    (base.withShift
      (shiftLoop f ((List.finRange PEG_SIZE).drop base.nSupply.toNat) left 0)).FitsTo f := by
  obtain ⟨m, hm, hstop⟩ :=
    shiftLoop_spec f ((List.finRange PEG_SIZE).drop base.nSupply.toNat) hleft 0
  generalize shiftLoop f ((List.finRange PEG_SIZE).drop base.nSupply.toNat) left 0 = r at *
  obtain ⟨nShift, part, total⟩ := r
  obtain ⟨-, hsupply, -, -, -, -, -, -, hrange, -, -⟩ := h
  simp only [withShift] at hsupply hrange hm hstop
  have heffective : (base.withShift (nShift, part, total)).nSupplyEffective =
      base.nSupply.toNat + m := by
    simp only [nSupplyEffective, withShift]
    omega
  have hlt : (base.withShift (nShift, part, total)).nSupplyEffective < PEG_SIZE := by
    simp only [nSupplyEffective, withShift]
    omega
  refine ⟨hlt, ?_⟩
  rcases hstop with hend | hzero | ⟨i, p, hi, hp, hpi, hsplit⟩
  · rw [List.length_drop, List.length_finRange] at hend
    omega
  · cases hzero
    exact Or.inl ⟨rfl, rfl⟩
  · cases hsplit
    rw [List.getElem?_drop, List.getElem?_eq_some_iff] at hi
    obtain ⟨hlen, hi⟩ := hi
    have hlast : i = (base.withShift (nShift, part, f i)).nLastIdx := by
      refine Fin.ext ?_
      rw [coe_nLastIdx hlt, heffective, ← hi]
      simp
    exact Or.inr ⟨hp, hpi, congrArg f hlast⟩

theorem ofFractions_cycles (cycle cycle_prev buffer supply supply_next supply_next_next : ℤ)
    (frInput frDistortion : CFractions) :
    (ofFractions cycle cycle_prev buffer supply supply_next supply_next_next frInput
      frDistortion).nCycle = cycle ∧
    (ofFractions cycle cycle_prev buffer supply supply_next supply_next_next frInput
      frDistortion).nCyclePrev = cycle_prev := by
  simp only [ofFractions]
  split_ifs <;> exact ⟨rfl, rfl⟩

theorem ofFractions_fits {cycle cycle_prev buffer supply supply_next supply_next_next : ℤ}
    {frInput frDistortion : CFractions}
    (h : (ofFractions cycle cycle_prev buffer supply supply_next supply_next_next frInput
      frDistortion).IsValid) :
    (ofFractions cycle cycle_prev buffer supply supply_next supply_next_next frInput
      frDistortion).FitsTo frInput.f := by
  simp only [ofFractions] at h ⊢
  split_ifs at h ⊢ with hliquid
  · exact withShift_fits (sub_pos.mpr hliquid).le h
  · obtain ⟨-, hsupply, -, -, -, -, -, -, hrange, -, -⟩ := h
    have hsize : 0 < PEG_SIZE := by decide
    exact ⟨by unfold nSupplyEffective; omega, Or.inl ⟨rfl, rfl⟩⟩

end CPegLevel

end BitBay
