import BitBay.Peg.Exchange

/-!
# The level and the pool of a cycle

`getpeglevel` walks up the columns of the exchange until the liquidity that the trades
turned to reserve is used up. Where it stops is the level, and the pool is what the
exchange has from there on.

The walk keeps one number: the liquidity above the column it has reached, less what is
still to be used up, is the liquidity of the exchange after the trades.
-/
namespace BitBay

open scoped BigOperators

namespace CFractions

def lowOf (a : CFractions) (peglevel : CPegLevel) : ℤ :=
  if peglevel.nSupply + peglevel.nShift < 0 ∨ PEG_SIZE ≤ peglevel.nSupply + peglevel.nShift then 0
  else a.lowPartTotal peglevel

def highOf (a : CFractions) (peglevel : CPegLevel) : ℤ :=
  if peglevel.nSupply + peglevel.nShift < 0 ∨ PEG_SIZE ≤ peglevel.nSupply + peglevel.nShift then 0
  else if peglevel.fPartial then
    a.cols peglevel.nLastIdx - peglevel.vpart (a.cols peglevel.nLastIdx) +
      a.high (peglevel.nSupplyEffective + 1)
  else a.high peglevel.nSupplyEffective

theorem high_size (a : CFractions) : a.high PEG_SIZE = 0 :=
  Finset.sum_eq_zero fun i _ => if_pos i.isLt

theorem high_highPart (a : CFractions) {s n : ℕ} (h : s ≤ n) : (a.highPart s).high n = a.high n := by
  refine Finset.sum_congr rfl fun i _ => ?_
  rw [cols_highPart]
  split_ifs <;> first | rfl | omega

theorem low_highPart (a : CFractions) (s : ℕ) : (a.highPart s).low s = 0 := by
  refine Finset.sum_eq_zero fun i _ => ?_
  rw [cols_highPart]
  split_ifs <;> rfl

end CFractions

/-- `getpeglevel` on texts: the pegdatas that the texts decode to are checked before the
call, and the pool after it. -/
def getpeglevelText (nCycleNow nCyclePrev nBuffer nPegNow nPegNext nPegNextNext : ℤ)
    (pdExchange pdPegShift : CPegData) : Except String (CPegLevel × CPegData) :=
  if ¬ pdExchange.IsValid then .error "Can not unpack 'exchange' pegdata"
  else if ¬ pdPegShift.IsValid then .error "Can not unpack 'pegshift' pegdata"
  else
    let r := getpeglevel nCycleNow nCyclePrev nBuffer nPegNow nPegNext nPegNextNext
      pdExchange pdPegShift
    if ¬ r.2.IsValid then .error "Returned invalid 'pegpool' pegdata" else .ok r

/-- What a text decodes to: the columns are stored as a vector, or there is no amount. -/
def CPegData.Decoded (pd : CPegData) : Prop := pd.fractions.f = pd.fractions.cols

/-- An exchange and the shift of its trades, which move amounts that the exchange has. -/
structure ShiftedExchange (pdExchange pdPegShift : CPegData) : Prop where
  exchange : pdExchange.IsValid
  shift : pdPegShift.IsValid
  decoded : pdExchange.Decoded
  nonneg : pdExchange.fractions.Nonneg
  total : pdPegShift.fractions.total = 0
  sum : (pdExchange.fractions + pdPegShift.fractions).Nonneg

/-! ## Where the walk stops -/

section Walk

variable {a : CFractions}

/-- The walk from a column below the end stops below the end, unless it has to use up all
that the exchange has and the last column is not empty. -/
theorem shiftLoop_stop {s : ℕ} (hs : s < PEG_SIZE) {left : ℤ} (hleft : 0 ≤ left)
    (hout : 0 ≤ a.high s - left)
    (hlast : 0 < a.high s - left ∨ a.cols (Fin.last (PEG_SIZE - 1)) = 0) (nShift : ℤ) :
    ∃ (m : ℕ) (i : Fin PEG_SIZE) (part total : ℤ), (i : ℕ) = s + m ∧
      CPegLevel.shiftLoop a.cols ((List.finRange PEG_SIZE).drop s) left nShift =
        (nShift + m, part, total) ∧
      a.high i - part = a.high s - left ∧
      (part = 0 ∧ total = 0 ∨ 0 < part ∧ part < total ∧ total = a.cols i) := by
  induction hn : PEG_SIZE - s generalizing s left nShift with
  | zero => omega
  | succ n ih =>
    have hdrop : (List.finRange PEG_SIZE).drop s =
        ⟨s, hs⟩ :: (List.finRange PEG_SIZE).drop (s + 1) := by
      rw [List.drop_eq_getElem_cons (by rwa [List.length_finRange])]
      simp
    have hhigh := a.high_succ ⟨s, hs⟩
    simp only at hhigh
    rw [hdrop, CPegLevel.shiftLoop]
    split_ifs with hdone hlt
    · exact ⟨0, ⟨s, hs⟩, left, 0, rfl, by simp, rfl, Or.inl ⟨le_antisymm hdone hleft, rfl⟩⟩
    · exact ⟨0, ⟨s, hs⟩, left, _, rfl, by simp, rfl, Or.inr ⟨not_le.mp hdone, hlt, rfl⟩⟩
    · have hnext : s + 1 < PEG_SIZE := by
        by_contra hend
        have hsize : s + 1 = PEG_SIZE := by omega
        have hcol : a.cols (Fin.last (PEG_SIZE - 1)) = a.cols ⟨s, hs⟩ :=
          congrArg a.cols (Fin.ext (by simp [← hsize]))
        rw [hsize, a.high_size] at hhigh
        omega
      obtain ⟨m, i, part, total, hi, hr, hpart, hstop⟩ := ih hnext (sub_nonneg.mpr (not_lt.mp hlt))
        (by omega) (by omega) (nShift + 1) (by omega)
      refine ⟨m + 1, i, part, total, by omega, ?_, by omega, hstop⟩
      rw [hr]
      push_cast
      ring_nf

/-- Where a level of an exchange stops: at column `i`, of which a part can be reserve. -/
structure CPegLevel.StopsAt (level : CPegLevel) (a : CFractions) (nLiquid : ℤ)
    (i : Fin PEG_SIZE) : Prop where
  isValid : level.IsValid
  effective : level.nSupplyEffective = i
  range : level.nSupply + level.nShift = (i : ℕ)
  liquid : a.high i - level.nShiftLastPart = nLiquid
  split : level.nShiftLastPart = 0 ∧ level.nShiftLastTotal = 0 ∨
    0 < level.nShiftLastPart ∧ level.nShiftLastPart < level.nShiftLastTotal ∧
      level.nShiftLastTotal = a.cols i

theorem ofFractions_stops {cycle cycle_prev buffer supply supply_next supply_next_next : ℤ}
    {base level : CPegLevel} {d : CFractions}
    (hbase_eq : base = .ofSupply cycle cycle_prev buffer supply supply_next supply_next_next)
    (hlevel : level = .ofFractions cycle cycle_prev buffer supply supply_next supply_next_next a d)
    (hbase : base.IsValid) (hf : a.f = a.cols) (hsum : (a + d).Nonneg)
    (hlast : 0 < (a + d).high base.nSupply.toNat ∨ a.cols (Fin.last (PEG_SIZE - 1)) = 0) :
    ∃ i, level.StopsAt a (min (a.high base.nSupply.toNat) ((a + d).high base.nSupply.toNat)) i := by
  have hs : base.nSupply.toNat < PEG_SIZE := by
    obtain ⟨-, hlow, hhigh, -⟩ := hbase
    omega
  rw [CPegLevel.ofFractions, ← hbase_eq] at hlevel
  have hout := hsum.high base.nSupply.toNat
  split_ifs at hlevel with hliquid
  · obtain ⟨m, i, part, total, hi, hr, hpart, hsplit⟩ := shiftLoop_stop (a := a) hs
      (sub_pos.mpr hliquid).le (by omega) (by omega) 0
    rw [hf, hr] at hlevel
    subst hlevel
    obtain ⟨hbuffer, hlow, hhigh, hnext, hnext', hnextnext, hnextnext', hrest⟩ := hbase
    have hsplit_nonneg : 0 ≤ part ∧ 0 ≤ total := by omega
    have hrange : base.nSupply + (0 + (m : ℤ)) = (i : ℕ) := by omega
    refine ⟨i, ⟨hbuffer, hlow, hhigh, hnext, hnext', hnextnext, hnextnext', ?_, ?_, hsplit_nonneg⟩,
      ?_, hrange, ?_, hsplit⟩
    · simp only [CPegLevel.withShift]
      omega
    · simp only [CPegLevel.withShift, hrange]
      exact_mod_cast i.isLt
    · simp only [CPegLevel.nSupplyEffective, CPegLevel.withShift, hrange, Int.toNat_natCast]
    · rw [min_eq_right hliquid.le]
      simp only [CPegLevel.withShift]
      omega
  · subst hlevel
    have hshift : level.nShift = 0 := by rw [hbase_eq]; rfl
    have hpart : level.nShiftLastPart = 0 := by rw [hbase_eq]; rfl
    have htotal : level.nShiftLastTotal = 0 := by rw [hbase_eq]; rfl
    have hrange : level.nSupply + level.nShift = (level.nSupply.toNat : ℤ) := by
      obtain ⟨-, hlow, -⟩ := hbase
      omega
    refine ⟨⟨level.nSupply.toNat, hs⟩, hbase, ?_, hrange, ?_, Or.inl ⟨hpart, htotal⟩⟩
    · rw [CPegLevel.nSupplyEffective, hrange, Int.toNat_natCast]
    · rw [min_eq_left (not_lt.mp hliquid), hpart, sub_zero]

end Walk

/-! ## The pool -/

/-- How a level and a pool belong to the fractions of an exchange and their shift. The
rounding of `High` is in favour of the reserve, by one unit where a column is split. -/
structure PoolFits (pdExchange pdPegShift : CPegData) (peglevel : CPegLevel) (pdPegPool : CPegData) :
    Prop where
  level_valid : peglevel.IsValid
  pool_valid : pdPegPool.IsValid
  nonneg : pdPegPool.fractions.Nonneg
  cols : ∀ c : Fin PEG_SIZE, pdPegPool.fractions.cols c =
    if (c : ℕ) < peglevel.nSupplyEffective then 0 else pdExchange.fractions.cols c
  nLiquid : pdPegPool.nLiquid =
    pdExchange.fractions.highOf peglevel + if peglevel.fPartial then 1 else 0
  nReserve : pdPegPool.nReserve = if peglevel.fPartial then
    ratioPart (pdPegPool.fractions.cols peglevel.nLastIdx) peglevel.nShiftLastPart
      peglevel.nShiftLastTotal else 0
  shifted : pdPegPool.nLiquid = min (pdExchange.fractions.high peglevel.nSupply.toNat)
    ((pdExchange.fractions + pdPegShift.fractions).high peglevel.nSupply.toNat)
  range : 0 ≤ peglevel.nSupply + peglevel.nShift ∧ peglevel.nSupply + peglevel.nShift ≤ 1199

section Pool

variable {a : CFractions} {level : CPegLevel} {nLiquid : ℤ} {i : Fin PEG_SIZE}

/-- A column that the level splits at its own total: the part is the reserve, and `High`
leaves one unit more to it. -/
theorem CPegLevel.StopsAt.vpart (h : level.StopsAt a nLiquid i) (hcut : level.fPartial = true) :
    level.vpart (a.cols i) = level.nShiftLastPart + 1 ∧
      ratioPart (a.cols i) level.nShiftLastPart level.nShiftLastTotal = level.nShiftLastPart := by
  have hsplit := h.split
  simp only [CPegLevel.fPartial, Bool.and_eq_true, decide_eq_true_eq] at hcut
  obtain ⟨hzero, -⟩ | ⟨hpos, hlt, htotal⟩ := hsplit
  · omega
  · have hratio : ratioPart (a.cols i) level.nShiftLastPart level.nShiftLastTotal =
        level.nShiftLastPart := by
      rw [ratioPart, if_neg (by omega), htotal, mulDiv, mul_comm, Int.mul_tdiv_cancel _ (by omega)]
    refine ⟨?_, hratio⟩
    simp only [CPegLevel.vpart, hratio]
    rw [if_pos (htotal ▸ hlt)]

theorem CPegLevel.StopsAt.nLastIdx (h : level.StopsAt a nLiquid i) : level.nLastIdx = i := by
  refine Fin.ext ?_
  rw [CPegLevel.coe_nLastIdx (h.effective ▸ i.isLt), h.effective]

theorem CPegLevel.StopsAt.highOf (h : level.StopsAt a nLiquid i) :
    a.highOf level + (if level.fPartial then 1 else 0) = nLiquid := by
  have hrange := h.range
  have hlt := i.isLt
  have hhigh := a.high_succ i
  have hliquid := h.liquid
  rw [CFractions.highOf, if_neg (by omega), h.nLastIdx, h.effective]
  split_ifs with hcut
  · rw [(h.vpart hcut).1]
    omega
  · have hsplit := h.split
    simp only [CPegLevel.fPartial, Bool.and_eq_true, decide_eq_true_eq] at hcut
    omega

/-- The pool of a level that stops in the exchange. -/
theorem CPegLevel.StopsAt.pool_valid {pdExchange : CPegData}
    (h : level.StopsAt pdExchange.fractions nLiquid i) (ha : pdExchange.fractions.Nonneg) :
    (pegPool level pdExchange).IsValid := by
  have hhigh := pdExchange.fractions.high_highPart (le_refl (i : ℕ))
  have hnext := pdExchange.fractions.high_highPart (Nat.le_succ (i : ℕ))
  have hcols := pdExchange.fractions.high_succ i
  have htotal := pdExchange.fractions.total_highPart i
  have hlow := pdExchange.fractions.low_highPart i
  have hsplit := h.split
  refine ⟨h.isValid, by simp only [pegPool]; ring, ?_⟩
  simp only [pegPool, h.effective, hlow, htotal, hhigh]
  split_ifs with hcut
  · rw [Nat.succ_eq_add_one] at hnext
    rw [hnext]
    have hcol := ha i
    simp only [CPegLevel.fPartial, Bool.and_eq_true, decide_eq_true_eq] at hcut
    omega
  · simp only [CPegLevel.fPartial, Bool.and_eq_true, decide_eq_true_eq] at hcut
    omega

theorem CPegLevel.StopsAt.pool_fits {pdExchange pdPegShift : CPegData}
    (h : level.StopsAt pdExchange.fractions nLiquid i) (ha : pdExchange.fractions.Nonneg)
    (hliquid : nLiquid = min (pdExchange.fractions.high level.nSupply.toNat)
      ((pdExchange.fractions + pdPegShift.fractions).high level.nSupply.toNat)) :
    PoolFits pdExchange pdPegShift level (pegPool level pdExchange) := by
  have hrange := h.range
  have hlt := i.isLt
  have htotal := pdExchange.fractions.total_highPart i
  have hpool_liquid : (pegPool level pdExchange).nLiquid = nLiquid := by
    simp only [pegPool, h.effective, htotal]
    exact h.liquid
  have hsize : PEG_SIZE = 1200 := rfl
  refine ⟨h.isValid, h.pool_valid ha, ha.highPart _, ?_, ?_, ?_, ?_, by omega, by omega⟩
  · exact fun c => pdExchange.fractions.cols_highPart _ c
  · rw [hpool_liquid, h.highOf]
  · have hcol : (pegPool level pdExchange).fractions.cols i = pdExchange.fractions.cols i := by
      simp only [pegPool, CFractions.cols_highPart, h.effective, lt_irrefl, if_false]
    rw [h.nLastIdx, hcol]
    simp only [pegPool]
    split_ifs with hcut
    · exact (h.vpart hcut).2.symm
    · have hsplit := h.split
      simp only [CPegLevel.fPartial, Bool.and_eq_true, decide_eq_true_eq] at hcut
      omega
  · rw [hpool_liquid, hliquid]

end Pool

def sampleColumn (c : Fin PEG_SIZE) : CPegData where
  fractions := .singleColumn c 10
  peglevel := .ofSupply 1 0 0 3 3 3
  nLiquid := 10

def sampleColumnShift (c : Fin PEG_SIZE) (v : ℤ) : CPegData where
  fractions := .singleColumn 1 v - .singleColumn c v
  peglevel := .ofSupply 1 0 0 3 3 3
  nLiquid := -v
  nReserve := v

theorem sampleColumn_decoded (c : Fin PEG_SIZE) : (sampleColumn c).Decoded :=
  (CFractions.cols_withCols _ _).symm

theorem sampleColumn_shifted : ShiftedExchange (sampleColumn 5) (sampleColumnShift 5 4) where
  exchange := by decide +kernel
  shift := by decide +kernel
  decoded := sampleColumn_decoded 5
  nonneg := CFractions.singleColumn_nonneg (by decide) 5
  total := by decide +kernel
  sum := by unfold CFractions.Nonneg; decide +kernel

end BitBay
