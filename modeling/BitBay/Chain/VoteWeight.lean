import BitBay.Chain.SupplyIndex
import BitBay.Peg.LevelSplit
import BitBay.Peg.RatioLoops

/-!
# Vote weight in 64 bits

The weight of a vote compares the liquid part of the staked fractions, reduced with the supply
index, with multiples of the reserve. The product with the index is computed in 128 bits where it
could leave `int64_t`. The multiples of the reserve are not. Here every sum and product of
`int64_t` is computed only if it fits.
-/
namespace BitBay

open scoped BigOperators

/-- A result of `int64_t` arithmetic, which has none where it overflows. -/
def checked64 (v : ℤ) : Option ℤ := if FitsInt64 v then some v else none

def sum64 (f : Columns) (l : List (Fin PEG_SIZE)) : Option ℤ :=
  l.foldlM (fun nValue i => checked64 (nValue + f i)) 0

def columnsBelow (supply : ℕ) : List (Fin PEG_SIZE) :=
  (List.finRange PEG_SIZE).filter fun i => (i : ℕ) < supply

def columnsFrom (supply : ℕ) : List (Fin PEG_SIZE) :=
  (List.finRange PEG_SIZE).filter fun i => ¬ (i : ℕ) < supply

/-- The liquid weight after the reduction, in 128 bits if the product may not fit. -/
def reducedWeight64 (nLiquidWeight nPegSupplyIndex : ℤ) : Option ℤ :=
  if INT64_MAX / (nPegSupplyIndex + 2) < nLiquidWeight then
    let f128 := nLiquidWeight * nPegSupplyIndex / nPegMaxSupplyIndex
    checked64 (nLiquidWeight - min f128 INT64_MAX)
  else do
    let nProduct ← checked64 (nLiquidWeight * nPegSupplyIndex)
    checked64 (nLiquidWeight - nProduct.tdiv nPegMaxSupplyIndex)

def calculatePegVotes64 (fractions : CFractions) (nPegSupplyIndex : ℤ) : Option ℤ := do
  let nReserveWeight ← sum64 fractions.cols (columnsBelow nPegSupplyIndex.toNat)
  let nLiquidPart ← sum64 fractions.cols (columnsFrom nPegSupplyIndex.toNat)
  let nLiquidWeight ← reducedWeight64 nLiquidPart nPegSupplyIndex
  let nWeightMultiplier := nPegSupplyIndex.tdiv 120 + 1
  let n4 ← checked64 (nReserveWeight * 4)
  if n4 < nLiquidWeight then return 4 * nWeightMultiplier
  else do
    let n3 ← checked64 (nReserveWeight * 3)
    if n3 < nLiquidWeight then return 3 * nWeightMultiplier
    else do
      let n2 ← checked64 (nReserveWeight * 2)
      if n2 < nLiquidWeight then return 2 * nWeightMultiplier else return 1

def CFractions.movedBetween (a : CFractions) (i j : Fin PEG_SIZE) (v : ℤ) : CFractions :=
  a - singleColumn i v + singleColumn j v

/-- The votes are those of the formula, without an overflow, and no fewer after an amount has been
moved from the reserve to the liquid part. -/
structure ExactVotes (fractions : CFractions) (nPegSupplyIndex : ℤ) : Prop where
  exact : calculatePegVotes64 fractions nPegSupplyIndex =
    some (calculatePegVotes fractions nPegSupplyIndex)
  mono : ∀ (i j : Fin PEG_SIZE) (v : ℤ), (i : ℤ) < nPegSupplyIndex → nPegSupplyIndex ≤ j → 0 ≤ v →
    v ≤ fractions.cols i → ∃ nVotes,
      calculatePegVotes64 (fractions.movedBetween i j v) nPegSupplyIndex = some nVotes ∧
        calculatePegVotes fractions nPegSupplyIndex ≤ nVotes

/-! ## Sums -/

section Sums

variable {f : Columns} {l : List (Fin PEG_SIZE)} {v : ℤ}

theorem checked64_eq (h0 : 0 ≤ v) (h : v ≤ INT64_MAX) : checked64 v = some v := by
  refine if_pos ?_
  unfold INT64_MAX at h
  unfold FitsInt64
  omega

theorem checked64_none (h : INT64_MAX < v) : checked64 v = none := by
  refine if_neg fun hfits => ?_
  unfold INT64_MAX at h
  unfold FitsInt64 at hfits
  omega

/-- Sums of amounts fit if the last of them does. -/
theorem foldlM_checked64 (hf : ∀ i, 0 ≤ f i) (h0 : 0 ≤ v) (h : v + (l.map f).sum ≤ INT64_MAX) :
    l.foldlM (fun nValue i => checked64 (nValue + f i)) v = some (v + (l.map f).sum) := by
  induction l generalizing v with
  | nil => simp
  | cons i rest ih =>
    have hrest : 0 ≤ (rest.map f).sum := List.sum_nonneg fun x hx => by
      obtain ⟨j, -, rfl⟩ := List.mem_map.mp hx
      exact hf j
    have hi := hf i
    rw [List.map_cons, List.sum_cons] at h ⊢
    rw [List.foldlM_cons, checked64_eq (by omega) (by omega), Option.bind_eq_bind, Option.bind_some,
      ih (by omega) (by omega), add_assoc]

theorem sum64_eq (hf : ∀ i, 0 ≤ f i) (h : (l.map f).sum ≤ INT64_MAX) :
    sum64 f l = some (l.map f).sum := by
  have hsum := foldlM_checked64 (l := l) hf le_rfl (by rwa [zero_add])
  rwa [zero_add] at hsum

theorem sum_map_filter (p : Fin PEG_SIZE → Bool) :
    ((l.filter p).map f).sum = (l.map fun i => if p i then f i else 0).sum := by
  induction l with
  | nil => rfl
  | cons i rest ih =>
    rw [List.filter_cons, List.map_cons, List.sum_cons, ← ih]
    split_ifs
    · rw [List.map_cons, List.sum_cons]
    · rw [zero_add]

variable {a : CFractions}

theorem sum_columnsBelow (n : ℕ) : ((columnsBelow n).map a.cols).sum = a.low n := by
  rw [columnsBelow, sum_map_filter, CFractions.low, Fin.sum_univ_def]
  simp

theorem sum_columnsFrom (n : ℕ) : ((columnsFrom n).map a.cols).sum = a.high n := by
  rw [columnsFrom, sum_map_filter, CFractions.high, Fin.sum_univ_def]
  simp only [decide_not, Bool.not_eq_true', decide_eq_false_iff_not, ite_not]

end Sums

/-! ## The weight -/

section Weight

variable {nLiquid nReserve nIndex : ℤ}

def reducedWeight (nLiquid nIndex : ℤ) : ℤ := nLiquid - (nLiquid * nIndex).tdiv nPegMaxSupplyIndex

/-- What is taken off the weight is at most the weight. -/
theorem reduction_bounds (hl : 0 ≤ nLiquid) (hi : 0 ≤ nIndex) (hmax : nIndex ≤ nPegMaxSupplyIndex) :
    0 ≤ nLiquid * nIndex / nPegMaxSupplyIndex ∧
      nLiquid * nIndex / nPegMaxSupplyIndex ≤ nLiquid := by
  have hpos : 0 < nPegMaxSupplyIndex := by decide
  refine ⟨Int.ediv_nonneg (mul_nonneg hl hi) hpos.le, ?_⟩
  rw [Int.ediv_le_iff_le_mul hpos]
  have hle := mul_le_mul_of_nonneg_left hmax hl
  omega

theorem reducedWeight_eq (hl : 0 ≤ nLiquid) (hi : 0 ≤ nIndex) :
    reducedWeight nLiquid nIndex = nLiquid - nLiquid * nIndex / nPegMaxSupplyIndex := by
  rw [reducedWeight, Int.tdiv_eq_ediv_of_nonneg (mul_nonneg hl hi)]

/-- Both ways of computing it are exact. -/
theorem reducedWeight64_eq (hl : 0 ≤ nLiquid) (hfit : nLiquid ≤ INT64_MAX) (hi : 0 ≤ nIndex)
    (hmax : nIndex ≤ nPegMaxSupplyIndex) :
    reducedWeight64 nLiquid nIndex = some (reducedWeight nLiquid nIndex) := by
  obtain ⟨hlow, hhigh⟩ := reduction_bounds hl hi hmax
  rw [reducedWeight_eq hl hi]
  unfold reducedWeight64
  split_ifs with hwide
  · dsimp only
    rw [min_eq_left (hhigh.trans hfit)]
    exact checked64_eq (by omega) (by omega)
  · have hproduct : nLiquid * nIndex ≤ INT64_MAX := by
      have hle := (Int.le_ediv_iff_mul_le (by omega)).mp (not_lt.mp hwide)
      linarith [mul_add nLiquid nIndex 2]
    rw [checked64_eq (mul_nonneg hl hi) hproduct, Option.bind_eq_bind, Option.bind_some,
      Int.tdiv_eq_ediv_of_nonneg (mul_nonneg hl hi)]
    exact checked64_eq (by omega) (by omega)

/-- More liquid has no lower weight. -/
theorem reducedWeight_mono {nLiquid' : ℤ} (hl : 0 ≤ nLiquid) (hle : nLiquid ≤ nLiquid')
    (hi : 0 ≤ nIndex) (hmax : nIndex ≤ nPegMaxSupplyIndex) :
    reducedWeight nLiquid nIndex ≤ reducedWeight nLiquid' nIndex := by
  have hpos : 0 < nPegMaxSupplyIndex := by decide
  rw [reducedWeight_eq hl hi, reducedWeight_eq (hl.trans hle) hi]
  have hmore : nLiquid' * nIndex / nPegMaxSupplyIndex ≤
      nLiquid * nIndex / nPegMaxSupplyIndex + (nLiquid' - nLiquid) := by
    rw [← Int.add_mul_ediv_right _ _ hpos.ne']
    refine Int.ediv_le_ediv hpos ?_
    have hstep := mul_le_mul_of_nonneg_left hmax (sub_nonneg.mpr hle)
    linarith [sub_mul nLiquid' nLiquid nIndex]
  omega

def votesOf (nReserve nWeight nMultiplier : ℤ) : ℤ :=
  if nReserve * 4 < nWeight then 4 * nMultiplier
  else if nReserve * 3 < nWeight then 3 * nMultiplier
  else if nReserve * 2 < nWeight then 2 * nMultiplier
  else 1

theorem calculatePegVotes_eq (a : CFractions) (nIndex : ℤ) :
    calculatePegVotes a nIndex =
      votesOf (a.low nIndex.toNat) (reducedWeight (a.high nIndex.toNat) nIndex)
        (nIndex.tdiv 120 + 1) := by
  rw [calculatePegVotes, CFractions.total_lowPart, CFractions.total_highPart]
  rfl

theorem votesOf_mono {nReserve' nWeight nWeight' nMultiplier : ℤ}
    (hreserve : nReserve' ≤ nReserve) (hweight : nWeight ≤ nWeight') (hm : 1 ≤ nMultiplier) :
    votesOf nReserve nWeight nMultiplier ≤ votesOf nReserve' nWeight' nMultiplier := by
  unfold votesOf
  split_ifs <;> omega

/-- The code computes the votes if and only if the reserve is small enough. -/
theorem calculatePegVotes64_eq {a : CFractions} (ha : a.Nonneg) (hfit : a.total ≤ INT64_MAX)
    (hi : 0 ≤ nIndex) (hmax : nIndex ≤ nPegMaxSupplyIndex) :
    calculatePegVotes64 a nIndex =
      if a.low nIndex.toNat * 4 ≤ INT64_MAX then some (calculatePegVotes a nIndex) else none := by
  have hlow : 0 ≤ a.low nIndex.toNat := ha.low
  have hhigh := ha.high nIndex.toNat
  have hsum := a.low_add_high nIndex.toNat
  have hreserve := sum64_eq (l := columnsBelow nIndex.toNat) ha
    (by rw [sum_columnsBelow]; omega)
  have hliquid := sum64_eq (l := columnsFrom nIndex.toNat) ha
    (by rw [sum_columnsFrom]; omega)
  rw [sum_columnsBelow] at hreserve
  rw [sum_columnsFrom] at hliquid
  simp only [calculatePegVotes64, hreserve, hliquid, Option.bind_eq_bind, Option.bind_some,
    reducedWeight64_eq hhigh (by omega) hi hmax]
  split_ifs with hsmall
  · rw [checked64_eq (by omega) hsmall, checked64_eq (by omega) (by omega),
      checked64_eq (by omega) (by omega), calculatePegVotes_eq, votesOf]
    simp only [Option.bind_some]
    split_ifs <;> rfl
  · rw [checked64_none (not_le.mp hsmall), Option.bind_none]

end Weight

/-! ## Moving an amount -/

section Moving

variable {a : CFractions} {i j : Fin PEG_SIZE} {v nIndex : ℤ}

theorem low_singleColumn (c : Fin PEG_SIZE) (v : ℤ) (n : ℕ) :
    (CFractions.singleColumn c v).low n = if (c : ℕ) < n then v else 0 := by
  rw [CFractions.low, Finset.sum_eq_single c]
  · simp [CFractions.singleColumn]
  · intro b _ hb
    simp [CFractions.singleColumn, hb]
  · simp

theorem total_singleColumn (c : Fin PEG_SIZE) (v : ℤ) : (CFractions.singleColumn c v).total = v := by
  rw [CFractions.singleColumn, CFractions.total_withCols]
  simp

theorem movedBetween_total : (a.movedBetween i j v).total = a.total := by
  rw [CFractions.movedBetween, CFractions.total_add, CFractions.total_sub, total_singleColumn,
    total_singleColumn]
  ring

theorem movedBetween_low {n : ℕ} (hi : (i : ℕ) < n) (hj : n ≤ (j : ℕ)) :
    (a.movedBetween i j v).low n = a.low n - v := by
  rw [CFractions.movedBetween, CFractions.low_add, CFractions.low_sub, low_singleColumn,
    low_singleColumn, if_pos hi, if_neg (not_lt.mpr hj), add_zero]

theorem movedBetween_nonneg (ha : a.Nonneg) (hv : 0 ≤ v) (hle : v ≤ a.cols i) :
    (a.movedBetween i j v).Nonneg := by
  intro c
  have hc := ha c
  rw [CFractions.movedBetween, CFractions.cols_add, CFractions.cols_sub, Pi.add_apply,
    Pi.sub_apply, CFractions.singleColumn, CFractions.singleColumn, CFractions.cols_withCols,
    CFractions.cols_withCols]
  split_ifs with hi hj hj <;> first | omega | (subst hi; omega)

/-- The votes are exact, with no overflow, and monotone if and only if four times the reserve fits
into 64 bits. -/
theorem exactVotes_iff (ha : a.Nonneg) (hfit : a.total ≤ INT64_MAX) (h0 : 0 ≤ nIndex)
    (hmax : nIndex ≤ nPegMaxSupplyIndex) :
    ExactVotes a nIndex ↔ a.low nIndex.toNat * 4 ≤ INT64_MAX := by
  constructor
  · intro hexact
    have hvotes := hexact.exact
    rw [calculatePegVotes64_eq ha hfit h0 hmax] at hvotes
    by_contra hlarge
    rw [if_neg hlarge] at hvotes
    cases hvotes
  · intro hsmall
    refine ⟨?_, fun i j v hi hj hv hle => ?_⟩
    · rw [calculatePegVotes64_eq ha hfit h0 hmax, if_pos hsmall]
    · have hmoved : (a.movedBetween i j v).Nonneg := movedBetween_nonneg ha hv hle
      have hlow : (a.movedBetween i j v).low nIndex.toNat = a.low nIndex.toNat - v :=
        movedBetween_low (by omega) (by omega)
      have htotal : (a.movedBetween i j v).total = a.total := movedBetween_total
      have hhigh : (a.movedBetween i j v).high nIndex.toNat = a.high nIndex.toNat + v := by
        have hsum := a.low_add_high nIndex.toNat
        have hsum' := (a.movedBetween i j v).low_add_high nIndex.toNat
        omega
      refine ⟨calculatePegVotes (a.movedBetween i j v) nIndex, ?_, ?_⟩
      · rw [calculatePegVotes64_eq hmoved (by omega) h0 hmax, if_pos (by omega)]
      · have hmultiplier : 0 ≤ nIndex.tdiv 120 := Int.tdiv_nonneg h0 (by decide)
        rw [calculatePegVotes_eq, calculatePegVotes_eq]
        refine votesOf_mono (by omega) ?_ (by omega)
        exact reducedWeight_mono (ha.high _) (by omega) h0 hmax

end Moving

/-- A reserve of a quarter of the values of `int64_t` overflows when it is multiplied. -/
theorem large_reserve_overflows :
    (CFractions.singleColumn 0 (2 ^ 61)).Nonneg ∧
      (CFractions.singleColumn 0 (2 ^ 61)).total ≤ INT64_MAX ∧
      calculatePegVotes64 (CFractions.singleColumn 0 (2 ^ 61)) 1 = none ∧
      ¬ ExactVotes (CFractions.singleColumn 0 (2 ^ 61)) 1 := by
  have hnonneg : (CFractions.singleColumn 0 (2 ^ 61)).Nonneg :=
    CFractions.singleColumn_nonneg (by decide) 0
  have hfit : (CFractions.singleColumn 0 (2 ^ 61)).total ≤ INT64_MAX := by
    rw [total_singleColumn]
    decide
  have hnone : calculatePegVotes64 (CFractions.singleColumn 0 (2 ^ 61)) 1 = none := by
    rw [calculatePegVotes64_eq hnonneg hfit (by decide) (by decide), low_singleColumn]
    decide
  refine ⟨hnonneg, hfit, hnone, fun hexact => ?_⟩
  have hvotes := hexact.exact
  rw [hnone] at hvotes
  cases hvotes

/-- A thousand in the reserve. -/
theorem small_reserve_exact : ExactVotes (CFractions.singleColumn 0 1000) 1 := by
  have hnonneg : (CFractions.singleColumn 0 1000).Nonneg :=
    CFractions.singleColumn_nonneg (by decide) 0
  have hfit : (CFractions.singleColumn 0 1000).total ≤ INT64_MAX := by
    rw [total_singleColumn]
    decide
  refine (exactVotes_iff hnonneg hfit (by decide) (by decide)).mpr ?_
  rw [low_singleColumn]
  decide

end BitBay
