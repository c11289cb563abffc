import BitBay.Peg.LevelSplit
import BitBay.Peg.RatioLoops

/-!
# The standard expansion as it is computed

`Std` writes the columns of an amount into a new object and `ToStd` into the object itself. Both
take a hundredth of what is left 1199 times, in `int64_t`, and leave the rest in the last column.
`Low` adds columns up. What is left grows with the amount, but not faster than the amount does,
so every `Low` grows with it as well.

`RatioPart` on single values multiplies in 64 bits, or in 128 bits where that overflows.
-/
namespace BitBay

open scoped BigOperators

namespace CFractions

/-- `CFractions(value, VALUE)`: the first word of an array that is not initialised. -/
def newValue (memory : Columns) (value : ℤ) : CFractions := { f := Function.update memory 0 value }

structure StdLoop where
  v : ℤ
  f : Columns

def StdLoop.column (s : StdLoop) (i : Fin PEG_SIZE) : StdLoop :=
  if (i : ℕ) = PEG_SIZE - 1 then { s with f := Function.update s.f i s.v }
  else
    let frac := s.v.tdiv PEG_RATE
    { v := wrap64 (s.v - frac), f := Function.update s.f i frac }

def expand (v : ℤ) (f : Columns) : Columns :=
  ((List.finRange PEG_SIZE).foldl StdLoop.column { v, f }).f

def std (memory : Columns) (a : CFractions) : CFractions :=
  if a.nFlags.std then a
  else { a with nFlags := { a.nFlags with std := true }, f := expand (a.f 0) memory }

def toStdInPlace (a : CFractions) : CFractions :=
  if a.nFlags.std then a
  else { a with nFlags := { a.nFlags with std := true }, f := expand (a.f 0) a.f }

/-- `Low(int supply)`. The loop does not stop at the last column. -/
def low64 (memory : Columns) (a : CFractions) (supply : ℤ) : Option ℤ :=
  if PEG_SIZE < supply then none
  else some (((List.finRange PEG_SIZE).take supply.toNat).foldl
    (fun nValue i => wrap64 (nValue + (a.std memory).f i)) 0)

end CFractions

/-! ## What is left -/

section Rest

variable {v w : ℤ} {i : ℕ}

theorem stdRest_le (hv : 0 ≤ v) (i : ℕ) : stdRest v i ≤ v := by
  induction i with
  | zero => exact le_rfl
  | succ i ih =>
    have hrest := stdRest_nonneg hv i
    rw [stdRest_succ, Int.tdiv_eq_ediv_of_nonneg hrest]
    unfold PEG_RATE
    omega

/-- A larger amount leaves more, and the difference does not grow. -/
theorem stdRest_mono (hv : 0 ≤ v) (hvw : v ≤ w) (i : ℕ) :
    stdRest v i ≤ stdRest w i ∧ stdRest w i - stdRest v i ≤ w - v := by
  induction i with
  | zero => exact ⟨hvw, le_rfl⟩
  | succ i ih =>
    have hrest := stdRest_nonneg hv i
    rw [stdRest_succ, stdRest_succ, Int.tdiv_eq_ediv_of_nonneg hrest,
      Int.tdiv_eq_ediv_of_nonneg (hrest.trans ih.1)]
    unfold PEG_RATE
    omega

end Rest

namespace CFractions

variable {v w : ℤ} {memory memory' f : Columns} {a : CFractions} {n : ℕ}

/-! ## The loops -/

theorem take_finRange_succ (hn : n < PEG_SIZE) :
    (List.finRange PEG_SIZE).take (n + 1) = (List.finRange PEG_SIZE).take n ++ [⟨n, hn⟩] := by
  have hlength : n < (List.finRange PEG_SIZE).length := by rwa [List.length_finRange]
  rw [List.take_add_one, List.getElem?_eq_getElem hlength]
  simp

theorem update_column (hn : n < PEG_SIZE) (c : Columns) :
    Function.update (fun i : Fin PEG_SIZE => if (i : ℕ) < n then c i else f i) ⟨n, hn⟩ (c ⟨n, hn⟩) =
      fun i : Fin PEG_SIZE => if (i : ℕ) < n + 1 then c i else f i := by
  funext i
  by_cases hi : i = ⟨n, hn⟩
  · simp [hi]
  · have hne : (i : ℕ) ≠ n := fun h => hi (Fin.ext h)
    have hlt : (i : ℕ) < n + 1 ↔ (i : ℕ) < n := by omega
    simp [hi, hlt]

/-- The loop after `n` columns. -/
theorem foldl_expand (hv : 0 ≤ v) (hmax : v ≤ INT64_MAX) (hn : n ≤ PEG_SIZE) :
    ((List.finRange PEG_SIZE).take n).foldl StdLoop.column { v, f } =
      { v := stdRest v (min n (PEG_SIZE - 1))
        f := fun i => if (i : ℕ) < n then stdColumns v i else f i } := by
  induction n with
  | zero => simp [stdRest]
  | succ n ih =>
    have hfits : FitsInt64 (stdRest v n - (stdRest v n).tdiv PEG_RATE) := by
      rw [← stdRest_succ]
      exact .of_le (stdRest_nonneg hv _) (stdRest_le hv _) (by unfold INT64_MAX at hmax; omega)
    rw [take_finRange_succ hn, List.foldl_append, ih (by omega), ← update_column hn]
    simp only [List.foldl_cons, List.foldl_nil, StdLoop.column]
    by_cases hlast : n = PEG_SIZE - 1
    · have hcolumn : stdColumns v ⟨n, hn⟩ = stdRest v n := by simp [stdColumns, hlast]
      rw [if_pos hlast, hcolumn]
      simp [hlast]
    · have hcolumn : stdColumns v ⟨n, hn⟩ = (stdRest v n).tdiv PEG_RATE := by
        simp [stdColumns, hlast]
      have hmin : min n (PEG_SIZE - 1) = n := by omega
      have hmin' : min (n + 1) (PEG_SIZE - 1) = n + 1 := by omega
      rw [if_neg hlast, hcolumn, hmin, hmin', stdRest_succ, wrap64_of_fits hfits]

theorem expand_eq (hv : 0 ≤ v) (hmax : v ≤ INT64_MAX) (f : Columns) :
    expand v f = stdColumns v := by
  have hloop := foldl_expand (f := f) hv hmax le_rfl
  rw [List.take_of_length_le (by simp)] at hloop
  unfold expand
  rw [hloop]
  simp

/-- Both write the standard form. -/
theorem std_eq (h0 : 0 ≤ a.f 0) (hmax : a.f 0 ≤ INT64_MAX) : a.std memory = a.toStd := by
  unfold std toStd cols
  split_ifs with hstd
  · rw [← hstd]
  · rw [expand_eq h0 hmax]

theorem toStdInPlace_eq (h0 : 0 ≤ a.f 0) (hmax : a.f 0 ≤ INT64_MAX) :
    a.toStdInPlace = a.toStd := std_eq h0 hmax

/-! ## Sums of columns -/

theorem low_succ (a : CFractions) (i : Fin PEG_SIZE) : a.low (i + 1) = a.low i + a.cols i := by
  have hall := a.low_add_high i
  have hnext := a.low_add_high (i + 1)
  have hhigh := a.high_succ i
  omega

theorem low_zero (a : CFractions) : a.low 0 = 0 := by simp [low]

theorem sum_take (a : CFractions) (hn : n ≤ PEG_SIZE) :
    (((List.finRange PEG_SIZE).take n).map a.cols).sum = a.low n := by
  induction n with
  | zero => simp [low_zero]
  | succ n ih =>
    rw [take_finRange_succ hn, List.map_append, List.sum_append, ih (by omega)]
    simpa using (a.low_succ ⟨n, hn⟩).symm

theorem Nonneg.low_le_total (ha : a.Nonneg) (n : ℕ) : 0 ≤ a.low n ∧ a.low n ≤ a.total := by
  have hall := a.low_add_high n
  have hhigh := ha.high n
  have hlow : 0 ≤ a.low n := total_lowPart a n ▸ (ha.lowPart n).total
  omega

/-- The loop of `Low` adds up without overflow. -/
theorem low64_eq {supply : ℤ} (hstd : a.std memory = a.toStd) (ha : a.Nonneg)
    (hmax : a.total ≤ INT64_MAX) (hsupply : supply ≤ PEG_SIZE) :
    a.low64 memory supply = some (a.low supply.toNat) := by
  have hlow := ha.low_le_total supply.toNat
  have hfits : FitsInt64 (a.low supply.toNat) :=
    .of_le hlow.1 hlow.2 (by unfold INT64_MAX at hmax; omega)
  unfold low64
  rw [if_neg hsupply.not_gt, hstd, foldl_wrap64 a.toStd.f _ (by decide), zero_add]
  change some (wrap64 (((List.finRange PEG_SIZE).take supply.toNat).map a.cols).sum) = _
  rw [sum_take a (by omega), wrap64_of_fits hfits]

/-- Below the last column `Low` is what is not left over. -/
theorem low_of_stdColumns (hcols : a.cols = stdColumns v) (hn : n < PEG_SIZE) :
    a.low n = v - stdRest v n := by
  induction n with
  | zero => simp [low_zero, stdRest]
  | succ n ih =>
    have hcolumn : stdColumns v ⟨n, by omega⟩ = (stdRest v n).tdiv PEG_RATE := by
      have hne : n ≠ PEG_SIZE - 1 := by omega
      simp [stdColumns, hne]
    have hnext := a.low_succ ⟨n, by omega⟩
    rw [hcols, hcolumn, ih (by omega)] at hnext
    rw [hnext, stdRest_succ]
    ring

theorem low_all (a : CFractions) : a.low PEG_SIZE = a.total := by
  rw [total_eq_sum]
  exact Finset.sum_congr rfl fun i _ => if_pos i.isLt

theorem low_mono_supply (ha : a.Nonneg) {m n : ℕ} (hmn : m ≤ n) : a.low m ≤ a.low n := by
  refine Finset.sum_le_sum fun i _ => ?_
  have hi := ha i
  split_ifs <;> omega

/-- `Low` grows with the amount. -/
theorem low_mono_value {b : CFractions} (hv : 0 ≤ v) (hvw : v ≤ w) (ha : a.cols = stdColumns v)
    (hb : b.cols = stdColumns w) (hn : n ≤ PEG_SIZE) : a.low n ≤ b.low n := by
  rcases hn.lt_or_eq with hlt | rfl
  · have hrest := stdRest_mono hv hvw n
    rw [low_of_stdColumns ha hlt, low_of_stdColumns hb hlt]
    omega
  · rwa [low_all, low_all, total_eq_sum, total_eq_sum, ha, hb, sum_stdColumns, sum_stdColumns]

end CFractions

/-! ## Ratios -/

section Ratio

def narrowRatio (nValue nPartValue nTotalValue : ℤ) : ℤ :=
  wrap64 ((nValue * nPartValue).tdiv nTotalValue)

/-- The path over `uint128_t`, for a positive total. A quotient above the largest `int64_t` is
converted to that. -/
def wideRatio (nValue nPartValue nTotalValue : ℤ) : ℤ :=
  let v128 := nValue % 2 ^ 128
  let part128 := nPartValue % 2 ^ 128
  let f128 := v128 * part128 % 2 ^ 128 / nTotalValue
  min f128 INT64_MAX

/-- `RatioPart` on single values, with its overflow test. -/
def ratioPartInt64 (nValue nPartValue nTotalValue : ℤ) : ℤ :=
  if nPartValue = 0 ∨ nTotalValue = 0 then 0
  else if mulOverflows nValue nPartValue then wideRatio nValue nPartValue nTotalValue
  else narrowRatio nValue nPartValue nTotalValue

variable {v p t : ℤ}

/-- The wide path is exact up to the conversion, also where it is not needed. -/
theorem wideRatio_eq (hv : 0 ≤ v) (hmax : v ≤ INT64_MAX) (hp : 0 ≤ p) (hpmax : p ≤ INT64_MAX) :
    wideRatio v p t = min (v * p / t) INT64_MAX := by
  have hprod : v * p < 2 ^ 128 := by
    calc v * p ≤ INT64_MAX * INT64_MAX := mul_le_mul hmax hpmax hp (by decide)
      _ < 2 ^ 128 := by decide
  unfold INT64_MAX at hmax hpmax
  unfold wideRatio
  dsimp only
  rw [Int.emod_eq_of_lt hv (by omega), Int.emod_eq_of_lt hp (by omega),
    Int.emod_eq_of_lt (mul_nonneg hv hp) hprod]

theorem narrowRatio_eq (hv : 0 ≤ v) (hp : 0 ≤ p) (ht : 0 < t)
    (hfits : FitsInt64 (v * p)) : narrowRatio v p t = v * p / t := by
  have hprod := mul_nonneg hv hp
  have hquot : v * p / t ≤ v * p := Int.ediv_le_self _ hprod
  unfold FitsInt64 at hfits
  unfold narrowRatio
  rw [Int.tdiv_eq_ediv_of_nonneg hprod]
  exact wrap64_of_fits (.of_le (Int.ediv_nonneg hprod ht.le) hquot (by omega))

/-- A share of at most the whole is the exact quotient rounded down, whichever path is taken. -/
theorem ratioPartInt64_floor (hv : 0 ≤ v) (hmax : v ≤ INT64_MAX) (hp : 0 ≤ p) (hpt : p ≤ t)
    (ht : 0 < t) (htmax : t ≤ INT64_MAX) :
    ratioPartInt64 v p t = ⌊(v * p / t : ℚ)⌋ ∧
      (0 ≤ ratioPartInt64 v p t ∧ ratioPartInt64 v p t ≤ v) ∧
      (mulOverflows v p = false → narrowRatio v p t = ⌊(v * p / t : ℚ)⌋) ∧
      wideRatio v p t = ⌊(v * p / t : ℚ)⌋ := by
  have hfloor : ⌊(v * p / t : ℚ)⌋ = v * p / t := by
    have hcast := Rat.floor_intCast_div_natCast (v * p) t.toNat
    rw [Int.toNat_of_nonneg ht.le] at hcast
    rw [← hcast]
    congr 1
    rw [← Int.cast_natCast t.toNat, Int.toNat_of_nonneg ht.le]
    push_cast
    rfl
  have hle : v * p / t ≤ v := mulDiv_eq_ediv hv hp ▸ mulDiv_le hv hp hpt ht
  have hnonneg : 0 ≤ v * p / t := Int.ediv_nonneg (mul_nonneg hv hp) ht.le
  have hwide : wideRatio v p t = v * p / t := by
    rw [wideRatio_eq hv hmax hp (hpt.trans htmax), min_eq_left (hle.trans hmax)]
  have hnarrow (hfits : mulOverflows v p = false) : narrowRatio v p t = v * p / t :=
    narrowRatio_eq hv hp ht (by simpa [mulOverflows] using hfits)
  have hratio : ratioPartInt64 v p t = v * p / t := by
    unfold ratioPartInt64
    split_ifs with hzero hover
    · rcases hzero with rfl | rfl
      · simp
      · exact absurd ht (lt_irrefl _)
    · exact hwide
    · exact hnarrow (by simpa using hover)
  rw [hfloor, hratio]
  exact ⟨rfl, ⟨hnonneg, hle⟩, hnarrow, hwide⟩

end Ratio

/-! ## An amount and its expansion -/

namespace CFractions

variable {v w : ℤ} {memory memory' : Columns}

theorem newValue_zero (memory : Columns) (v : ℤ) : (newValue memory v).f 0 = v := by
  simp [newValue]

theorem cols_newValue (memory : Columns) (v : ℤ) : (newValue memory v).cols = stdColumns v := by
  unfold cols
  rw [if_neg (by simp [newValue]), newValue_zero]

theorem std_newValue (hv : 0 ≤ v) (hmax : v ≤ INT64_MAX) :
    (newValue memory v).std memory' = (newValue memory v).toStd :=
  std_eq (by rwa [newValue_zero]) (by rwa [newValue_zero])

/-- The columns that both functions write, whatever the memory held. -/
theorem std_exact (hv : 0 ≤ v) (hmax : v ≤ INT64_MAX) :
    (∀ i, 0 ≤ ((newValue memory v).std memory').f i) ∧
      ∑ i, ((newValue memory v).std memory').f i = v ∧
      ((newValue memory v).std memory').f = (newValue memory v).toStdInPlace.f := by
  have hcols : ((newValue memory v).std memory').f = stdColumns v := by
    rw [std_newValue hv hmax]
    exact cols_newValue memory v
  have hplace : (newValue memory v).toStdInPlace.f = stdColumns v := by
    rw [toStdInPlace_eq (by rwa [newValue_zero]) (by rwa [newValue_zero])]
    exact cols_newValue memory v
  rw [hcols, hplace]
  exact ⟨stdColumns_nonneg hv, sum_stdColumns v, rfl⟩

theorem low64_std (hv : 0 ≤ v) (hmax : v ≤ INT64_MAX) {supply : ℤ} (hsupply : supply ≤ PEG_SIZE) :
    ((newValue memory v).std memory').low64 memory' supply =
      some ((newValue memory v).low supply.toNat) := by
  have hnonneg : (newValue memory v).toStd.Nonneg := fun i => by
    rw [cols_toStd, cols_newValue]
    exact stdColumns_nonneg hv i
  have htotal : (newValue memory v).toStd.total = v := by
    rw [total_eq_sum, cols_toStd, cols_newValue, sum_stdColumns]
  rw [std_newValue hv hmax]
  exact low64_eq rfl hnonneg (htotal.trans_le hmax) hsupply

/-- `Low` of the expansion does not decrease when the amount or the supply index grows. -/
theorem low64_mono (hv : 0 ≤ v) (hvw : v ≤ w) (hmax : w ≤ INT64_MAX) {s s' : ℤ} (hs : s ≤ s')
    (hsize : s' ≤ PEG_SIZE) :
    ∃ nLow nLow', ((newValue memory v).std memory').low64 memory' s = some nLow ∧
      ((newValue memory w).std memory').low64 memory' s' = some nLow' ∧ nLow ≤ nLow' := by
  refine ⟨_, _, low64_std hv (hvw.trans hmax) (hs.trans hsize),
    low64_std (hv.trans hvw) hmax hsize, ?_⟩
  have hnonneg : (newValue memory w).Nonneg := fun i => by
    rw [cols_newValue]
    exact stdColumns_nonneg (hv.trans hvw) i
  calc (newValue memory v).low s.toNat ≤ (newValue memory w).low s.toNat :=
        low_mono_value hv hvw (cols_newValue memory v) (cols_newValue memory w) (by omega)
    _ ≤ (newValue memory w).low s'.toNat := low_mono_supply hnonneg (by omega)

/-- The expansion is exact and monotone, and the share of a value is rounded down. -/
theorem expansion_and_ratio_exact :
    (∀ (v : ℤ) (memory memory' : Columns), 0 ≤ v → v ≤ INT64_MAX →
      (∀ i, 0 ≤ ((newValue memory v).std memory').f i) ∧
      ∑ i, ((newValue memory v).std memory').f i = v ∧
      ((newValue memory v).std memory').f = (newValue memory v).toStdInPlace.f) ∧
    (∀ (v w s s' : ℤ) (memory memory' : Columns), 0 ≤ v → v ≤ w → w ≤ INT64_MAX → s ≤ s' →
      s' ≤ PEG_SIZE →
      ∃ nLow nLow', ((newValue memory v).std memory').low64 memory' s = some nLow ∧
        ((newValue memory w).std memory').low64 memory' s' = some nLow' ∧ nLow ≤ nLow') ∧
    (∀ v p t : ℤ, 0 ≤ v → v ≤ INT64_MAX → 0 ≤ p → p ≤ t → 0 < t → t ≤ INT64_MAX →
      ratioPartInt64 v p t = ⌊(v * p / t : ℚ)⌋ ∧
      (0 ≤ ratioPartInt64 v p t ∧ ratioPartInt64 v p t ≤ v) ∧
      (mulOverflows v p = false → narrowRatio v p t = ⌊(v * p / t : ℚ)⌋) ∧
      wideRatio v p t = ⌊(v * p / t : ℚ)⌋) := by
  refine ⟨fun v memory memory' hv hmax => std_exact hv hmax, ?_, ?_⟩
  · intro v w s s' memory memory' hv hvw hmax hs hsize
    exact low64_mono hv hvw hmax hs hsize
  · intro v p t hv hmax hp hpt ht htmax
    exact ratioPartInt64_floor hv hmax hp hpt ht htmax

/-- Ten coins of reserve and liquidity, and a share whose product needs 128 bits. -/
theorem ten_coins_exact :
    (∑ i, ((newValue 7 1000000000).std 5).f i = 1000000000) ∧
    (∃ nLow nLow', ((newValue 7 1000000000).std 5).low64 5 600 = some nLow ∧
      ((newValue 7 1000000001).std 5).low64 5 601 = some nLow' ∧ nLow ≤ nLow') ∧
    mulOverflows (2 ^ 62 + 1) (2 ^ 61) = true ∧
    ratioPartInt64 (2 ^ 62 + 1) (2 ^ 61) (2 ^ 62) =
      ⌊(((2 ^ 62 + 1 : ℤ) : ℚ) * ((2 ^ 61 : ℤ) : ℚ) / ((2 ^ 62 : ℤ) : ℚ))⌋ :=
  ⟨(expansion_and_ratio_exact.1 1000000000 7 5 (by decide) (by decide)).2.1,
    expansion_and_ratio_exact.2.1 1000000000 1000000001 600 601 7 5 (by decide) (by decide)
      (by decide) (by decide) (by decide),
    by decide,
    (expansion_and_ratio_exact.2.2 (2 ^ 62 + 1) (2 ^ 61) (2 ^ 62) (by decide) (by decide)
      (by decide) (by decide) (by decide) (by decide)).1⟩

end CFractions

end BitBay
