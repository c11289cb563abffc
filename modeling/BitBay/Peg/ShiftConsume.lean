import BitBay.Peg.Cycle
import BitBay.Peg.LevelOrder

/-!
# Consuming the pegshift

The outputs of a withdrawal have other fractions than the balance gave up for it. The difference
is the pegshift of the exchange, and its total is zero. On its own side of the supply a balance
then exchanges columns that the pegshift lacks for columns that it has too many of.

What is taken out of a column is limited by the balance there, and in total by what the pegshift
can give in return.
-/
namespace BitBay

open Finset Shares

namespace CFractions

/-- `Positive`. What it adds to `*total` is the total of the part. -/
def positive (a : CFractions) : CFractions :=
  zeroStd.withCols fun i => if a.cols i ≤ 0 then 0 else a.cols i

def negative (a : CFractions) : CFractions :=
  zeroStd.withCols fun i => if 0 ≤ a.cols i then 0 else a.cols i

/-- `operator-` negates the array as it is stored. -/
instance : Neg CFractions := ⟨fun a => { a with f := fun i => -a.f i }⟩

def commonAmount (va vb : ℤ) : ℤ :=
  if 0 ≤ va ∧ 0 ≤ vb then min va vb
  else if 0 ≤ va ∧ vb < 0 then 0
  else if va < 0 ∧ 0 ≤ vb then 0
  else max va vb

def common (a b : CFractions) : CFractions := { a with f := fun i => commonAmount (a.f i) (b.f i) }

end CFractions

structure ShiftState where
  frBalance : CFractions
  frExchange : CFractions
  frPegShift : CFractions

namespace ShiftState

variable (st : ShiftState)

/-- What is taken out of the balance: the part of the input that the balance has, scaled down to
what the positive part gives in return. -/
def negativeConsume (frPegShiftInput : CFractions) : CFractions :=
  let frPegShiftNegativeConsume := frPegShiftInput.negative.common (-st.frBalance)
  let nPegShiftPositiveConsume := frPegShiftInput.positive.total
  if nPegShiftPositiveConsume < -frPegShiftNegativeConsume.total then
    -((-frPegShiftNegativeConsume).ratioPart nPegShiftPositiveConsume)
  else frPegShiftNegativeConsume

def pegShiftConsume (frPegShiftInput : CFractions) : CFractions :=
  let frPegShiftNegativeConsume := st.negativeConsume frPegShiftInput
  let nPegShiftPositiveConsume := -frPegShiftNegativeConsume.total
  frPegShiftNegativeConsume + frPegShiftInput.positive.ratioPart nPegShiftPositiveConsume

def consumepegshift (frPegShiftInput : CFractions) : ShiftState where
  frBalance := st.frBalance + st.pegShiftConsume frPegShiftInput
  frExchange := st.frExchange + st.pegShiftConsume frPegShiftInput
  frPegShift := st.frPegShift - st.pegShiftConsume frPegShiftInput

def checkParts : Except String ShiftState :=
  let nPositive := st.frPegShift.positive.total
  let nNegative := st.frPegShift.negative.total
  if nPositive ≠ -nNegative then
    .error ("Mismatch pegshift parts (" ++ toString nPositive ++ " - " ++ toString nNegative ++ ")")
  else .ok st

def consumereservepegshift (peglevel_exchange : CPegLevel) : Except String ShiftState :=
  let nSupplyEffective := peglevel_exchange.nSupply + peglevel_exchange.nShift
  (st.consumepegshift (st.frPegShift.lowPart nSupplyEffective.toNat)).checkParts

def consumeliquidpegshift (peglevel_exchange : CPegLevel) : Except String ShiftState :=
  let nSupplyEffective := peglevel_exchange.nSupply + peglevel_exchange.nShift
  let nSupplyEffective :=
    if peglevel_exchange.fPartial then nSupplyEffective + 1 else nSupplyEffective
  (st.consumepegshift (st.frPegShift.highPart nSupplyEffective.toNat)).checkParts

structure Neutral (before after : ShiftState) : Prop where
  balance : after.frBalance.cols + after.frPegShift.cols =
    before.frBalance.cols + before.frPegShift.cols
  exchange : after.frExchange.cols + after.frPegShift.cols =
    before.frExchange.cols + before.frPegShift.cols
  balance_total : after.frBalance.total = before.frBalance.total
  exchange_total : after.frExchange.total = before.frExchange.total
  pegShift_total : after.frPegShift.total = before.frPegShift.total
  balance_nonneg : after.frBalance.Nonneg
  exchange_nonneg : after.frExchange.Nonneg
  surplus : ∀ i, 0 ≤ before.frPegShift.cols i →
    0 ≤ after.frPegShift.cols i ∧ after.frPegShift.cols i ≤ before.frPegShift.cols i
  deficit : ∀ i, before.frPegShift.cols i ≤ 0 →
    before.frPegShift.cols i ≤ after.frPegShift.cols i ∧ after.frPegShift.cols i ≤ 0

/-- What the pegshift lacks on a side of the supply, as far as the balance and the exchange have
it. -/
def wanted (side : Finset (Fin PEG_SIZE)) : Columns := fun i =>
  if i ∈ side then
    min (max (-st.frPegShift.cols i) 0) (min (st.frBalance.cols i) (st.frExchange.cols i))
  else 0

def offered (side : Finset (Fin PEG_SIZE)) : Columns := fun i =>
  if i ∈ side then max (st.frPegShift.cols i) 0 else 0

def exchanged (side : Finset (Fin PEG_SIZE)) : ℤ :=
  min (∑ i, st.wanted side i) (∑ i, st.offered side i)

/-- The lesser of what is wanted and what is offered on a side has changed hands, each in
proportion to its columns. -/
structure Exchanged (side : Finset (Fin PEG_SIZE)) (before after : ShiftState) : Prop where
  balance : ∀ i, after.frBalance.cols i = before.frBalance.cols i -
    share (before.wanted side) (before.exchanged side) i +
    share (before.offered side) (before.exchanged side) i
  given : ∑ i, share (before.wanted side) (before.exchanged side) i = before.exchanged side
  taken : ∑ i, share (before.offered side) (before.exchanged side) i = before.exchanged side

structure Untouched (before after : ShiftState) (i : Fin PEG_SIZE) : Prop where
  balance : after.frBalance.cols i = before.frBalance.cols i
  exchange : after.frExchange.cols i = before.frExchange.cols i
  pegShift : after.frPegShift.cols i = before.frPegShift.cols i

/-- The columns from the effective supply on, without the one that the level splits. -/
def liquidSide (level : CPegLevel) : Finset (Fin PEG_SIZE) :=
  {i | level.column < (i : ℤ) ∨ level.fPartial = false ∧ (i : ℤ) = level.column}

def reserveSide (level : CPegLevel) : Finset (Fin PEG_SIZE) := {i | (i : ℤ) < level.column}

end ShiftState

/-! ## Parts by sign -/

namespace CFractions

variable {a b : CFractions}

theorem cols_positive (a : CFractions) (i : Fin PEG_SIZE) :
    a.positive.cols i = max (a.cols i) 0 := by
  rw [positive, cols_withCols]
  split_ifs <;> omega

theorem cols_negative (a : CFractions) (i : Fin PEG_SIZE) :
    a.negative.cols i = min (a.cols i) 0 := by
  rw [negative, cols_withCols]
  split_ifs <;> omega

theorem positive_nonneg (a : CFractions) : a.positive.Nonneg := fun i => by
  rw [cols_positive]
  exact le_max_right _ _

/-- The parts of one size are those of fractions without a total. -/
theorem positive_add_negative (a : CFractions) : a.positive.total + a.negative.total = a.total := by
  rw [total_eq_sum, total_eq_sum, total_eq_sum, ← Finset.sum_add_distrib]
  refine Finset.sum_congr rfl fun i _ => ?_
  rw [cols_positive, cols_negative]
  omega

theorem std_neg (ha : a.nFlags.std = true) : (-a).nFlags.std = true := ha

theorem cols_neg (ha : a.nFlags.std = true) : (-a).cols = -a.cols := by
  rw [cols_of_std ha, cols_of_std (std_neg ha)]
  rfl

theorem total_neg (ha : a.nFlags.std = true) : (-a).total = -a.total := by
  rw [total_eq_sum, total_eq_sum, cols_neg ha]
  exact Finset.sum_neg_distrib _

theorem cols_common (ha : a.nFlags.std = true) (hb : b.nFlags.std = true) (i : Fin PEG_SIZE) :
    (a.common b).cols i = commonAmount (a.cols i) (b.cols i) := by
  have hcommon : (a.common b).nFlags.std = true := ha
  rw [cols_of_std ha, cols_of_std hb, cols_of_std hcommon]
  rfl

theorem commonAmount_nonpos {va vb : ℤ} (ha : va ≤ 0) (hb : vb ≤ 0) :
    commonAmount va vb = max va vb := by
  unfold commonAmount
  split_ifs <;> omega

end CFractions

namespace ShiftState

variable {st : ShiftState} {input : CFractions} {side : Finset (Fin PEG_SIZE)}

def lacked (st : ShiftState) (input : CFractions) : Columns := fun i =>
  min (max (-input.cols i) 0) (st.frBalance.cols i)

theorem lacked_nonneg (hbalance : st.frBalance.Nonneg) (i : Fin PEG_SIZE) :
    0 ≤ st.lacked input i := le_min (le_max_right _ _) (hbalance i)

theorem cols_capped (hstd : st.frBalance.nFlags.std = true) (hbalance : st.frBalance.Nonneg)
    (i : Fin PEG_SIZE) :
    (input.negative.common (-st.frBalance)).cols i = -st.lacked input i := by
  have hneg := CFractions.std_neg hstd
  have hcol := hbalance i
  rw [CFractions.cols_common rfl hneg, CFractions.cols_neg hstd, Pi.neg_apply,
    CFractions.cols_negative, CFractions.commonAmount_nonpos (min_le_right _ _)
      (neg_nonpos.mpr hcol), lacked]
  omega

theorem cols_uncapped (hstd : st.frBalance.nFlags.std = true) (hbalance : st.frBalance.Nonneg) :
    (-(input.negative.common (-st.frBalance))).cols = st.lacked input := by
  funext i
  rw [CFractions.cols_neg rfl, Pi.neg_apply, cols_capped hstd hbalance, neg_neg]

theorem positive_total : input.positive.total = ∑ i, max (input.cols i) 0 := by
  rw [CFractions.total_eq_sum]
  exact sum_congr rfl fun i _ => input.cols_positive i

/-- What is taken out of the balance is the share of the deficit in what can be exchanged. -/
theorem negativeConsume_cols (hstd : st.frBalance.nFlags.std = true)
    (hbalance : st.frBalance.Nonneg) : (st.negativeConsume input).cols =
      -share (st.lacked input) (min (∑ i, st.lacked input i) (∑ i, max (input.cols i) 0)) := by
  have huncapped := @cols_uncapped st input hstd hbalance
  have htotal : -(input.negative.common (-st.frBalance)).total = ∑ i, st.lacked input i := by
    rw [← CFractions.total_neg rfl, CFractions.total_eq_sum, huncapped]
  unfold negativeConsume
  dsimp only
  rw [htotal, positive_total]
  split_ifs with hlt
  · have hfull : (-(input.negative.common (-st.frBalance))).Nonneg := fun i => by
      rw [huncapped]
      exact lacked_nonneg hbalance i
    have hle : ∑ i, max (input.cols i) 0 ≤ (-(input.negative.common (-st.frBalance))).total := by
      rw [CFractions.total_eq_sum, huncapped]
      exact hlt.le
    rw [CFractions.cols_neg (CFractions.ratioPart_std _ _),
      CFractions.ratioPart_cols hfull (sum_nonneg fun i _ => le_max_right _ _) hle, huncapped,
      min_eq_right hlt.le]
  · rw [min_eq_left (not_lt.mp hlt), share_all (lacked_nonneg hbalance)]
    funext i
    exact cols_capped hstd hbalance i

/-- Both parts of what is consumed are shares of what can be exchanged. -/
theorem pegShiftConsume_cols (hstd : st.frBalance.nFlags.std = true)
    (hbalance : st.frBalance.Nonneg) {amount : ℤ}
    (hamount : amount = min (∑ i, st.lacked input i) (∑ i, max (input.cols i) 0)) :
    (st.pegShiftConsume input).cols =
      -share (st.lacked input) amount + share (fun i => max (input.cols i) 0) amount := by
  have hlacked : ∀ i, 0 ≤ st.lacked input i := lacked_nonneg hbalance
  have htaken := @negativeConsume_cols st input hstd hbalance
  rw [← hamount] at htaken
  have hnonneg : 0 ≤ amount := by
    rw [hamount]
    exact le_min (sum_nonneg fun i _ => hlacked i) (sum_nonneg fun i _ => le_max_right _ _)
  have htotal : -(st.negativeConsume input).total = amount := by
    rw [CFractions.total_eq_sum, htaken]
    simp only [Pi.neg_apply, sum_neg_distrib, neg_neg]
    exact sum_share_of_le hlacked hnonneg (hamount.trans_le (min_le_left _ _))
  have hpositive : input.positive.cols = fun i => max (input.cols i) 0 :=
    funext input.cols_positive
  unfold pegShiftConsume
  dsimp only
  rw [CFractions.cols_add, htaken, htotal,
    CFractions.ratioPart_cols input.positive_nonneg hnonneg
      (positive_total ▸ hamount.trans_le (min_le_right _ _)), hpositive]

/-- What is taken: of each column no more than the pegshift lacks and the balance has, and in
total no more than the pegshift gives in return. -/
structure Taken (st : ShiftState) (input taken : CFractions) : Prop where
  std : taken.nFlags.std = true
  nonpos : ∀ i, taken.cols i ≤ 0
  lacked : ∀ i, min (input.cols i) 0 ≤ taken.cols i
  owned : ∀ i, -st.frBalance.cols i ≤ taken.cols i
  returned : -taken.total ≤ input.positive.total

theorem negativeConsume_taken (hstd : st.frBalance.nFlags.std = true)
    (hbalance : st.frBalance.Nonneg) : st.Taken input (st.negativeConsume input) := by
  have hcapped : ∀ i, (input.negative.common (-st.frBalance)).cols i =
      max (min (input.cols i) 0) (-st.frBalance.cols i) := fun i => by
    rw [cols_capped hstd hbalance, lacked]
    omega
  have hcappedNonpos : ∀ i, (input.negative.common (-st.frBalance)).cols i ≤ 0 := fun i => by
    rw [hcapped]
    exact max_le (min_le_right _ _) (neg_nonpos.mpr (hbalance i))
  generalize hc : input.negative.common (-st.frBalance) = capped at hcapped hcappedNonpos
  have hcappedStd : capped.nFlags.std = true := by
    rw [← hc]
    rfl
  unfold negativeConsume
  rw [hc]
  dsimp only
  split_ifs with hlt
  · have hfull : (-capped).Nonneg := fun i => by
      rw [CFractions.cols_neg hcappedStd, Pi.neg_apply, neg_nonneg]
      exact hcappedNonpos i
    have hgive := input.positive_nonneg.total
    have hpart := CFractions.ratioPart_bounds hfull hgive
    have hpartStd := CFractions.ratioPart_std (-capped) input.positive.total
    have hpartTotal := CFractions.ratioPart_total hfull hgive
      (by rw [CFractions.total_neg hcappedStd]; exact hlt.le)
    have hle : ∀ i, capped.cols i ≤ (-(-capped).ratioPart input.positive.total).cols i :=
      fun i => by
        have hbound := (hpart i).2
        rw [CFractions.cols_neg hcappedStd, Pi.neg_apply] at hbound
        rw [CFractions.cols_neg hpartStd, Pi.neg_apply]
        omega
    refine ⟨CFractions.std_neg hpartStd, fun i => ?_, fun i => ?_, fun i => ?_, ?_⟩
    · rw [CFractions.cols_neg hpartStd, Pi.neg_apply, neg_nonpos]
      exact (hpart i).1
    · exact ((le_max_left _ _).trans (hcapped i).ge).trans (hle i)
    · exact ((le_max_right _ _).trans (hcapped i).ge).trans (hle i)
    · rw [CFractions.total_neg hpartStd, neg_neg, hpartTotal]
  · exact ⟨hcappedStd, hcappedNonpos, fun i => (le_max_left _ _).trans (hcapped i).ge,
      fun i => (le_max_right _ _).trans (hcapped i).ge, not_lt.mp hlt⟩

/-- What is consumed: an exchange of columns without a total, toward the input. -/
structure Consumed (st : ShiftState) (input consume : CFractions) : Prop where
  total : consume.total = 0
  surplus : ∀ i, 0 ≤ input.cols i → 0 ≤ consume.cols i ∧ consume.cols i ≤ input.cols i
  deficit : ∀ i, input.cols i ≤ 0 → input.cols i ≤ consume.cols i ∧ consume.cols i ≤ 0
  owned : ∀ i, 0 ≤ st.frBalance.cols i + consume.cols i

theorem pegShiftConsume_consumed (hstd : st.frBalance.nFlags.std = true)
    (hbalance : st.frBalance.Nonneg) : st.Consumed input (st.pegShiftConsume input) := by
  have htaken := @negativeConsume_taken st input hstd hbalance
  unfold pegShiftConsume
  dsimp only
  generalize st.negativeConsume input = taken at htaken
  have hamount : 0 ≤ -taken.total := by
    rw [neg_nonneg, CFractions.total_eq_sum]
    exact Finset.sum_nonpos fun i _ => htaken.nonpos i
  have hgiven := CFractions.ratioPart_bounds input.positive_nonneg hamount
  have hgivenTotal := CFractions.ratioPart_total input.positive_nonneg hamount htaken.returned
  generalize input.positive.ratioPart (-taken.total) = given at hgiven hgivenTotal
  have hgivenLe : ∀ i, 0 ≤ given.cols i ∧ given.cols i ≤ max (input.cols i) 0 := fun i => by
    rw [← CFractions.cols_positive]
    exact hgiven i
  refine ⟨by rw [CFractions.total_add, hgivenTotal]; omega, fun i hi => ?_, fun i hi => ?_,
    fun i => ?_⟩
  all_goals
    have hnonpos := htaken.nonpos i
    have hlacked := htaken.lacked i
    have howned := htaken.owned i
    obtain ⟨hgivenNonneg, hgivenMax⟩ := hgivenLe i
    rw [CFractions.cols_add, Pi.add_apply]
    omega

/-- Consuming a part of the pegshift changes nothing outside of it, and exchanges in it. -/
theorem consumepegshift_neutral (hstd : st.frBalance.nFlags.std = true)
    (hbalance : st.frBalance.Nonneg)
    (hexchange : ∀ i, st.frBalance.cols i ≤ st.frExchange.cols i)
    (hinput : ∀ i, input.cols i = st.frPegShift.cols i ∨ input.cols i = 0) :
    Neutral st (st.consumepegshift input) ∧
      ∀ i, input.cols i = 0 → Untouched st (st.consumepegshift input) i := by
  have hconsumed := @pegShiftConsume_consumed st input hstd hbalance
  unfold consumepegshift
  generalize st.pegShiftConsume input = consume at hconsumed
  have hzero : ∀ i, input.cols i = 0 → consume.cols i = 0 := fun i hi => by
    have hsurplus := hconsumed.surplus i hi.ge
    omega
  refine ⟨⟨?_, ?_, ?_, ?_, ?_, fun i => ?_, fun i => ?_, fun i hi => ?_, fun i hi => ?_⟩,
    fun i hi => ?_⟩
  · simp only [CFractions.cols_add, CFractions.cols_sub]
    abel
  · simp only [CFractions.cols_add, CFractions.cols_sub]
    abel
  · rw [CFractions.total_add, hconsumed.total, add_zero]
  · rw [CFractions.total_add, hconsumed.total, add_zero]
  · rw [CFractions.total_sub, hconsumed.total, sub_zero]
  · rw [CFractions.cols_add, Pi.add_apply]
    exact hconsumed.owned i
  · have howned := hconsumed.owned i
    have hle := hexchange i
    rw [CFractions.cols_add, Pi.add_apply]
    omega
  · rw [CFractions.cols_sub, Pi.sub_apply]
    rcases hinput i with heq | hnone
    · have hsurplus := hconsumed.surplus i (heq ▸ hi)
      omega
    · have hnothing := hzero i hnone
      omega
  · rw [CFractions.cols_sub, Pi.sub_apply]
    rcases hinput i with heq | hnone
    · have hdeficit := hconsumed.deficit i (heq ▸ hi)
      omega
    · have hnothing := hzero i hnone
      omega
  · have hnothing := hzero i hi
    refine ⟨?_, ?_, ?_⟩
    · rw [CFractions.cols_add, Pi.add_apply, hnothing, add_zero]
    · rw [CFractions.cols_add, Pi.add_apply, hnothing, add_zero]
    · rw [CFractions.cols_sub, Pi.sub_apply, hnothing, sub_zero]

theorem exchanged_of_side (hstd : st.frBalance.nFlags.std = true) (hbalance : st.frBalance.Nonneg)
    (hexchange : ∀ i, st.frBalance.cols i ≤ st.frExchange.cols i)
    (hinput : ∀ i, input.cols i = if i ∈ side then st.frPegShift.cols i else 0) :
    Exchanged side st (st.consumepegshift input) := by
  have hlacked : st.lacked input = st.wanted side := by
    funext i
    have hcol := hbalance i
    rw [lacked, wanted, hinput, min_eq_left (hexchange i)]
    split_ifs
    · rfl
    · omega
  have hoffered : (fun i => max (input.cols i) 0) = st.offered side := by
    funext i
    rw [offered, hinput]
    split_ifs <;> simp
  have hcols := @pegShiftConsume_cols st input hstd hbalance (st.exchanged side)
    (by rw [exchanged, hlacked, ← hoffered])
  rw [hlacked, hoffered] at hcols
  have hwanted : ∀ i, 0 ≤ st.wanted side i := fun i => hlacked ▸ lacked_nonneg hbalance i
  have hsurplus : ∀ i, 0 ≤ st.offered side i := fun i => by
    rw [← hoffered]
    exact le_max_right _ _
  have hnonneg : 0 ≤ st.exchanged side :=
    le_min (sum_nonneg fun i _ => hwanted i) (sum_nonneg fun i _ => hsurplus i)
  refine ⟨fun i => ?_, sum_share_of_le hwanted hnonneg (min_le_left _ _),
    sum_share_of_le hsurplus hnonneg (min_le_right _ _)⟩
  rw [consumepegshift, CFractions.cols_add, hcols, Pi.add_apply, Pi.add_apply, Pi.neg_apply,
    ← add_assoc, ← sub_eq_add_neg]

/-- The parts of a pegshift without a total are of one size. -/
theorem checkParts_ok (h : st.frPegShift.total = 0) : st.checkParts = .ok st := by
  have hparts := st.frPegShift.positive_add_negative
  unfold checkParts
  exact if_neg (by omega)

theorem mem_liquidSide {level : CPegLevel} {i : Fin PEG_SIZE} : i ∈ liquidSide level ↔
    level.column < (i : ℤ) ∨ level.fPartial = false ∧ (i : ℤ) = level.column := mem_filter_univ i

theorem mem_reserveSide {level : CPegLevel} {i : Fin PEG_SIZE} :
    i ∈ reserveSide level ↔ (i : ℤ) < level.column := mem_filter_univ i

/-- The input of the liquid side. -/
theorem cols_liquidInput (fr : CFractions) (level : CPegLevel) (i : Fin PEG_SIZE) :
    (fr.highPart (if level.fPartial then level.nSupply + level.nShift + 1
      else level.nSupply + level.nShift).toNat).cols i =
        if i ∈ liquidSide level then fr.cols i else 0 := by
  have hside : i ∈ liquidSide level ↔ ¬ (i : ℕ) < (if level.fPartial then
      level.nSupply + level.nShift + 1 else level.nSupply + level.nShift).toNat := by
    rw [mem_liquidSide, CPegLevel.column]
    cases hpart : level.fPartial with
    | true =>
      simp only [if_true, Bool.true_eq_false, false_and, or_false]
      omega
    | false =>
      simp only [Bool.false_eq_true, if_false, true_and]
      omega
  simp only [CFractions.cols_highPart, hside, ite_not]

theorem cols_reserveInput (fr : CFractions) (level : CPegLevel) (i : Fin PEG_SIZE) :
    (fr.lowPart (level.nSupply + level.nShift).toNat).cols i =
      if i ∈ reserveSide level then fr.cols i else 0 := by
  have hside : i ∈ reserveSide level ↔ (i : ℕ) < (level.nSupply + level.nShift).toNat := by
    rw [mem_reserveSide, CPegLevel.column]
    omega
  simp only [CFractions.cols_lowPart, hside]

/-- A balance of five in column 3, and a pegshift that has two too many in column 4 and lacks
them in column 3. -/
def swapState : ShiftState where
  frBalance := .singleColumn 3 5
  frExchange := .singleColumn 3 5
  frPegShift := .singleColumn 4 2 - .singleColumn 3 2

def swapLevel : CPegLevel := .ofSupply 1 0 0 3 3 3

theorem cols_singleColumn (c : Fin PEG_SIZE) (v : ℤ) :
    (CFractions.singleColumn c v).cols = fun i => if i = c then v else 0 := by
  rw [CFractions.singleColumn, CFractions.cols_withCols]

theorem swapState_pegShift (i : Fin PEG_SIZE) :
    swapState.frPegShift.cols i = (if i = 4 then 2 else 0) - if i = 3 then 2 else 0 := by
  rw [swapState, CFractions.cols_sub, cols_singleColumn, cols_singleColumn, Pi.sub_apply]

theorem swapState_wanted :
    swapState.wanted (liquidSide swapLevel) = fun i => if i = 3 then 2 else 0 := by
  have hside : (3 : Fin PEG_SIZE) ∈ liquidSide swapLevel := mem_liquidSide.mpr (by decide)
  have hother : (3 : Fin PEG_SIZE) ≠ 4 := by decide
  funext i
  rw [wanted, swapState_pegShift, swapState, cols_singleColumn]
  by_cases hi : i = 3
  · subst hi
    simp [hside, hother]
  · simp only [if_neg hi, min_self, sub_zero]
    split_ifs <;> simp

theorem swapState_offered :
    swapState.offered (liquidSide swapLevel) = fun i => if i = 4 then 2 else 0 := by
  have hside : (4 : Fin PEG_SIZE) ∈ liquidSide swapLevel := mem_liquidSide.mpr (by decide)
  have hother : (4 : Fin PEG_SIZE) ≠ 3 := by decide
  funext i
  rw [offered, swapState_pegShift]
  by_cases hi : i = 4
  · subst hi
    simp [hside, hother]
  · simp only [if_neg hi]
    split_ifs <;> simp

theorem swapState_exchanged : swapState.exchanged (liquidSide swapLevel) = 2 := by
  simp [exchanged, swapState_wanted, swapState_offered]

end ShiftState

end BitBay
