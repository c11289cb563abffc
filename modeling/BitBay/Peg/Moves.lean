import BitBay.Peg.PoolLevel

/-!
# Moves between accounts

The accounts of an exchange are pegdatas at the level of the current cycle. `moveliquid`
takes an amount in proportion from the liquid part of an account, `movereserve` from the
reserve, `movecoins` from both. A split column belongs to both parts: the liquid in it is
what the account has beyond its columns above, the reserve what it has beyond those below.

On texts a move is refused when its result is not valid, and then nothing is handed back.
-/
namespace BitBay

open scoped BigOperators

def CPegLevel.same (a b : CPegLevel) : Bool :=
  int16 (a.nSupply + a.nShift) = int16 (b.nSupply + b.nShift) ∧
    a.nShiftLastPart * b.nShiftLastTotal = b.nShiftLastPart * a.nShiftLastTotal

/-- What a move leaves in its arguments; without an error it succeeded. -/
structure MoveResult where
  sErr : Option String
  pdSrc : CPegData
  pdDst : CPegData

def sameUser (pdSrc pdDst : CPegData) : Bool :=
  pdSrc.nId ≠ 0 ∧ pdDst.nId ≠ 0 ∧ pdSrc.nId = pdDst.nId

def CFractions.setAt (a : CFractions) (i : Fin PEG_SIZE) (v : ℤ) : CFractions :=
  { a with f := Function.update a.f i v }

section Model

variable (nMoveAmount : ℤ) (pdSrc pdDst : CPegData) (peglevel : CPegLevel)

def outdated (which : String) (pd : CPegData) : String :=
  "Outdated '" ++ which ++ "' of cycle of " ++ toString pd.peglevel.nCycle ++ ", current " ++
    toString peglevel.nCycle

/-- The checks of a move of liquid or reserve, of which the source has `nHave`. The source
also checks the range of the level, with a condition that no level meets. -/
def moveRefused (what : String) (nHave : ℤ) : Option String :=
  if ¬ peglevel.same pdSrc.peglevel then some (outdated peglevel "src" pdSrc)
  else if nMoveAmount < 0 then some ("Requested to move negative " ++ toString nMoveAmount)
  else if nHave < nMoveAmount then
    some ("Not enough " ++ what ++ " " ++ toString nHave ++ " on 'src' to move " ++
      toString nMoveAmount)
  else if ¬ peglevel.same pdDst.peglevel then some (outdated peglevel "dst" pdDst)
  else if sameUser pdSrc pdDst then
    some ("Detected move between same user src id:" ++ toString pdSrc.nId ++ " vs dst id:" ++
      toString pdDst.nId)
  else none

def mismatchedTotal (which : String) (pd : CPegData) : Option String :=
  if pd.fractions.total ≠ pd.nLiquid + pd.nReserve then
    some ("Mismatch total " ++ toString pd.fractions.total ++ " vs liquid/reserve '" ++ which ++
      "' values  L:" ++ toString pd.nLiquid ++ " R:" ++ toString pd.nReserve)
  else none

/-- The checks after a move. The text about the target names the source, too. -/
def moveMismatched (nIn : ℤ) (checkPositive : Bool) (pdSrc pdDst : CPegData) : Option String :=
  let nOut := pdSrc.fractions.total + pdDst.fractions.total
  if nIn ≠ nOut then
    some ("Mismatch in and out values " ++ toString nIn ++ " vs " ++ toString nOut)
  else if checkPositive ∧ ¬ pdSrc.fractions.isPositive then some "Negative detected in 'src"
  else
    match mismatchedTotal "src" pdSrc with
    | some sErr => some sErr
    | none => mismatchedTotal "src" pdDst

def movecoins (fCrossCycles : Bool) : MoveResult :=
  let refuse (sErr : String) : MoveResult := { sErr := some sErr, pdSrc, pdDst }
  if ¬ fCrossCycles ∧ ¬ peglevel.same pdSrc.peglevel then refuse (outdated peglevel "src" pdSrc)
  else if nMoveAmount < 0 then refuse ("Requested to move negative " ++ toString nMoveAmount)
  else if pdSrc.fractions.total < nMoveAmount then
    refuse ("Not enough amount " ++ toString pdSrc.fractions.total ++ " on 'src' to move " ++
      toString nMoveAmount)
  else if ¬ fCrossCycles ∧ ¬ peglevel.same pdDst.peglevel then
    refuse (outdated peglevel "dst" pdDst)
  else
    let frMove := pdSrc.fractions.ratioPart nMoveAmount
    let frSrc := pdSrc.fractions - frMove
    let frDst := pdDst.fractions + frMove
    let src := { pdSrc with
      fractions := frSrc, nLiquid := frSrc.highOf peglevel, nReserve := frSrc.lowOf peglevel }
    let dst := { pdDst with
      fractions := frDst, nLiquid := frDst.highOf peglevel, nReserve := frDst.lowOf peglevel }
    match moveMismatched (pdSrc.fractions.total + pdDst.fractions.total) false src dst with
    | some sErr => { sErr := some sErr, pdSrc := src, pdDst := dst }
    | none => {
        sErr := none
        pdSrc := if peglevel.same src.peglevel then src else { src with peglevel }
        pdDst := if peglevel.same dst.peglevel then dst else { dst with peglevel } }

def liquidPart (pd : CPegData) : Except String CFractions :=
  if peglevel.fPartial then
    let frLiquid := pd.fractions.highPart (peglevel.nSupplyEffective + 1)
    let nPartialLiquid := pd.nLiquid - frLiquid.total
    if nPartialLiquid < 0 then
      .error ("Mismatch on nPartialLiquid " ++ toString nPartialLiquid)
    else .ok (frLiquid.setAt peglevel.nLastIdx nPartialLiquid)
  else .ok (pd.fractions.highPart peglevel.nSupplyEffective)

def reservePart (pd : CPegData) : Except String CFractions :=
  let frReserve := pd.fractions.lowPart peglevel.nSupplyEffective
  if peglevel.fPartial then
    let nPartialReserve := pd.nReserve - frReserve.total
    if nPartialReserve < 0 then
      .error ("Mismatch on nPartialReserve " ++ toString nPartialReserve)
    else .ok (frReserve.setAt peglevel.nLastIdx nPartialReserve)
  else .ok frReserve

def moveliquid : MoveResult :=
  let refuse (sErr : String) : MoveResult := { sErr := some sErr, pdSrc, pdDst }
  match moveRefused nMoveAmount pdSrc pdDst peglevel "liquid" pdSrc.nLiquid with
  | some sErr => refuse sErr
  | none =>
    match liquidPart peglevel pdSrc with
    | .error sErr => refuse sErr
    | .ok frLiquid =>
      if frLiquid.total < nMoveAmount then
        refuse ("Not enough liquid(1) " ++ toString frLiquid.total ++ " on 'src' to move " ++
          toString nMoveAmount)
      else
        let frMove := frLiquid.ratioPart nMoveAmount
        let src := { pdSrc with
          fractions := pdSrc.fractions - frMove, nLiquid := pdSrc.nLiquid - nMoveAmount }
        let dst := { pdDst with
          fractions := pdDst.fractions + frMove, nLiquid := pdDst.nLiquid + nMoveAmount }
        { sErr := moveMismatched (pdSrc.fractions.total + pdDst.fractions.total) true src dst
          pdSrc := src
          pdDst := dst }

def movereserve : MoveResult :=
  let refuse (sErr : String) : MoveResult := { sErr := some sErr, pdSrc, pdDst }
  match moveRefused nMoveAmount pdSrc pdDst peglevel "reserve" pdSrc.nReserve with
  | some sErr => refuse sErr
  | none =>
    match reservePart peglevel pdSrc with
    | .error sErr => refuse sErr
    | .ok frReserve =>
      let frMove := frReserve.ratioPart nMoveAmount
      let src := { pdSrc with
        fractions := pdSrc.fractions - frMove, nReserve := pdSrc.nReserve - nMoveAmount }
      let dst := { pdDst with
        fractions := pdDst.fractions + frMove, nReserve := pdDst.nReserve + nMoveAmount }
      { sErr := moveMismatched (pdSrc.fractions.total + pdDst.fractions.total) true src dst
        pdSrc := src
        pdDst := dst }

/-- A move on texts: what they decode to is checked before, and the result after it. -/
def moveText (move : MoveResult) : Except String (CPegData × CPegData) :=
  if ¬ peglevel.IsValid then .error "Can not unpack peglevel"
  else if ¬ pdSrc.IsValid then .error "Can not unpack 'src' pegdata"
  else if ¬ pdDst.IsValid then .error "Can not unpack 'dst' pegdata"
  else
    match move.sErr with
    | some sErr => .error sErr
    | none =>
      if ¬ move.pdSrc.IsValid then .error "Returned invalid 'src' pegdata"
      else if ¬ move.pdDst.IsValid then .error "Returned invalid 'dst' pegdata"
      else .ok (move.pdSrc, move.pdDst)

end Model

/-! ## Low and high parts of a move -/

namespace CFractions

variable (a b : CFractions) (n : ℕ)

theorem low_sub : (a - b).low n = a.low n - b.low n := by
  rw [low, low, low, ← Finset.sum_sub_distrib]
  refine Finset.sum_congr rfl fun i _ => ?_
  rw [cols_sub, Pi.sub_apply]
  split_ifs <;> simp

theorem low_add : (a + b).low n = a.low n + b.low n := by
  rw [low, low, low, ← Finset.sum_add_distrib]
  refine Finset.sum_congr rfl fun i _ => ?_
  rw [cols_add, Pi.add_apply]
  split_ifs <;> simp

variable {a n}

theorem low_eq_zero (h : ∀ i : Fin PEG_SIZE, (i : ℕ) < n → a.cols i = 0) : a.low n = 0 := by
  refine Finset.sum_eq_zero fun i _ => ?_
  split_ifs with hi
  · exact h i hi
  · rfl

theorem high_eq_zero (h : ∀ i : Fin PEG_SIZE, n ≤ (i : ℕ) → a.cols i = 0) : a.high n = 0 := by
  refine Finset.sum_eq_zero fun i _ => ?_
  split_ifs with hi
  · rfl
  · exact h i (not_lt.mp hi)

theorem cols_setAt (ha : a.nFlags.std = true) (i : Fin PEG_SIZE) (v : ℤ) :
    (a.setAt i v).cols = Function.update a.cols i v := by
  simp only [cols, setAt, ha, if_true]

theorem total_setAt (ha : a.nFlags.std = true) (i : Fin PEG_SIZE) (v : ℤ) :
    (a.setAt i v).total = a.total - a.cols i + v := by
  rw [total_eq_sum, total_eq_sum, cols_setAt ha, Finset.sum_update_of_mem (Finset.mem_univ i),
    Finset.sum_eq_add_sum_sdiff_singleton_of_mem (Finset.mem_univ i)]
  ring

theorem Nonneg.setAt (ha : a.Nonneg) (hstd : a.nFlags.std = true) (i : Fin PEG_SIZE) {v : ℤ}
    (hv : 0 ≤ v) : (a.setAt i v).Nonneg := by
  intro c
  rw [cols_setAt hstd, Function.update_apply]
  split_ifs
  · exact hv
  · exact ha c

theorem Nonneg.low (ha : a.Nonneg) : 0 ≤ a.low n := total_lowPart a n ▸ (ha.lowPart n).total

end CFractions

structure MovedPart (part frMove : CFractions) (nMoveAmount : ℤ) : Prop where
  nonneg : frMove.Nonneg
  le : ∀ c, frMove.cols c ≤ part.cols c
  total : frMove.total = nMoveAmount

theorem MovedPart.eq_zero {part frMove : CFractions} {nMoveAmount : ℤ}
    (h : MovedPart part frMove nMoveAmount) {c : Fin PEG_SIZE} (hc : part.cols c = 0) :
    frMove.cols c = 0 := le_antisymm (hc ▸ h.le c) (h.nonneg c)

theorem ratioPart_moved {part : CFractions} {nMoveAmount : ℤ} (hpart : part.Nonneg)
    (hamount : 0 ≤ nMoveAmount) (hle : nMoveAmount ≤ part.total) :
    MovedPart part (part.ratioPart nMoveAmount) nMoveAmount where
  nonneg := hpart.ratioPart hamount
  le := fun c => (CFractions.ratioPart_bounds hpart hamount c).2
  total := CFractions.ratioPart_total hpart hamount hle

structure CPegData.AtLevel (peglevel : CPegLevel) (pd : CPegData) : Prop where
  isValid : pd.IsValid
  nonneg : pd.fractions.Nonneg
  level : pd.peglevel = peglevel

section Parts

variable {peglevel : CPegLevel} {pd : CPegData}

theorem CPegLevel.IsValid.effective_lt (h : peglevel.IsValid) : peglevel.nSupplyEffective < PEG_SIZE := by
  obtain ⟨-, hlow, -, -, -, -, -, hshift, hhigh, -⟩ := h
  unfold CPegLevel.nSupplyEffective
  omega

theorem CPegLevel.IsValid.nLastIdx (h : peglevel.IsValid) :
    (peglevel.nLastIdx : ℕ) = peglevel.nSupplyEffective := CPegLevel.coe_nLastIdx h.effective_lt

/-- The liquid of an account and its reserve: they meet in the column that the level
splits, and nowhere without one. -/
structure CPegData.Splits (peglevel : CPegLevel) (pd : CPegData) (liquid reserve : CFractions) :
    Prop where
  liquid_nonneg : liquid.Nonneg
  reserve_nonneg : reserve.Nonneg
  liquid_low : ∀ c : Fin PEG_SIZE, (c : ℕ) < peglevel.nSupplyEffective → liquid.cols c = 0
  reserve_high : ∀ c : Fin PEG_SIZE, peglevel.nSupplyEffective < (c : ℕ) → reserve.cols c = 0
  unsplit : peglevel.fPartial = false → reserve.cols peglevel.nLastIdx = 0
  cols : liquid.cols + reserve.cols = pd.fractions.cols
  liquid_total : liquid.total = pd.nLiquid
  reserve_total : reserve.total = pd.nReserve

variable {liquid reserve : CFractions}

theorem CPegData.Splits.low (h : pd.Splits peglevel liquid reserve) :
    pd.fractions.low peglevel.nSupplyEffective = reserve.low peglevel.nSupplyEffective := by
  refine Finset.sum_congr rfl fun c _ => ?_
  rw [← h.cols, Pi.add_apply]
  split_ifs with hc
  · rw [h.liquid_low c hc, zero_add]
  · rfl

theorem CPegData.Splits.high (h : pd.Splits peglevel liquid reserve) :
    pd.fractions.high (peglevel.nSupplyEffective + 1) =
      liquid.high (peglevel.nSupplyEffective + 1) := by
  refine Finset.sum_congr rfl fun c _ => ?_
  rw [← h.cols, Pi.add_apply]
  split_ifs with hc
  · rfl
  · rw [h.reserve_high c (by omega), add_zero]

theorem CPegData.Splits.total (h : pd.Splits peglevel liquid reserve) :
    pd.nReserve + pd.nLiquid = pd.fractions.total := by
  rw [← h.reserve_total, ← h.liquid_total, CFractions.total_eq_sum pd.fractions, ← h.cols]
  simp only [Pi.add_apply, Finset.sum_add_distrib, ← CFractions.total_eq_sum]
  exact add_comm _ _

/-- Without a split column the low part of the account is its reserve. -/
theorem CPegData.Splits.reserve_eq_low (h : pd.Splits peglevel liquid reserve)
    (hvalid : peglevel.IsValid) (hcut : peglevel.fPartial = false) :
    pd.nReserve = pd.fractions.low peglevel.nSupplyEffective := by
  have hhigh : reserve.high peglevel.nSupplyEffective = 0 := by
    refine CFractions.high_eq_zero fun c hc => ?_
    rcases hc.lt_or_eq with hlt | heq
    · exact h.reserve_high c hlt
    · have hlast : c = peglevel.nLastIdx := Fin.ext (by rw [hvalid.nLastIdx, heq])
      rw [hlast, h.unsplit hcut]
  have hsum := reserve.low_add_high peglevel.nSupplyEffective
  rw [h.low, ← h.reserve_total]
  omega

/-- A split account is valid. -/
theorem CPegData.Splits.isValid (h : pd.Splits peglevel liquid reserve)
    (hvalid : peglevel.IsValid) (hlevel : pd.peglevel = peglevel) : pd.IsValid := by
  have htotal := h.total
  subst hlevel
  refine ⟨hvalid, htotal, ?_⟩
  split_ifs with hcut
  · have hliquid := liquid.low_add_high (pd.peglevel.nSupplyEffective + 1)
    have hreserve := reserve.low_add_high pd.peglevel.nSupplyEffective
    have hlow : 0 ≤ liquid.low (pd.peglevel.nSupplyEffective + 1) := h.liquid_nonneg.low
    have hhigh := h.reserve_nonneg.high pd.peglevel.nSupplyEffective
    rw [h.high, h.low, ← h.liquid_total, ← h.reserve_total]
    omega
  · have hreserve := h.reserve_eq_low hvalid (Bool.eq_false_iff.mpr hcut)
    have hsum := pd.fractions.low_add_high pd.peglevel.nSupplyEffective
    omega

theorem CPegData.AtLevel.peglevel_valid (h : pd.AtLevel peglevel) : peglevel.IsValid :=
  h.level ▸ h.isValid.1

/-- The parts of an account without a split column. -/
theorem CPegData.AtLevel.splits_whole (h : pd.AtLevel peglevel) (hcut : peglevel.fPartial = false) :
    pd.Splits peglevel (pd.fractions.highPart peglevel.nSupplyEffective)
      (pd.fractions.lowPart peglevel.nSupplyEffective) := by
  obtain ⟨-, -, hparts⟩ := h.isValid
  rw [h.level, if_neg (by simp [hcut])] at hparts
  refine ⟨h.nonneg.highPart _, h.nonneg.lowPart _, ?_, ?_, ?_, ?_, ?_, ?_⟩
  · intro c hc
    rw [CFractions.cols_highPart, if_pos hc]
  · intro c hc
    rw [CFractions.cols_lowPart, if_neg (by omega)]
  · intro _
    rw [CFractions.cols_lowPart, h.peglevel_valid.nLastIdx, if_neg (lt_irrefl _)]
  · rw [add_comm]
    exact pd.fractions.lowPart_add_highPart _
  · rw [CFractions.total_highPart, hparts.1]
  · rw [CFractions.total_lowPart, hparts.2]

/-- The parts of an account with a split column. -/
theorem CPegData.AtLevel.splits_partial (h : pd.AtLevel peglevel) (hcut : peglevel.fPartial = true) :
    pd.fractions.high (peglevel.nSupplyEffective + 1) ≤ pd.nLiquid ∧
    pd.fractions.low peglevel.nSupplyEffective ≤ pd.nReserve ∧
    pd.Splits peglevel
      ((pd.fractions.highPart (peglevel.nSupplyEffective + 1)).setAt peglevel.nLastIdx
        (pd.nLiquid - pd.fractions.high (peglevel.nSupplyEffective + 1)))
      ((pd.fractions.lowPart peglevel.nSupplyEffective).setAt peglevel.nLastIdx
        (pd.nReserve - pd.fractions.low peglevel.nSupplyEffective)) := by
  obtain ⟨-, htotal, hparts⟩ := h.isValid
  rw [h.level, if_pos hcut] at hparts
  have hlast := h.peglevel_valid.nLastIdx
  have hliquid_last : (pd.fractions.highPart (peglevel.nSupplyEffective + 1)).cols
      peglevel.nLastIdx = 0 := by
    rw [CFractions.cols_highPart, if_pos (by omega)]
  have hreserve_last : (pd.fractions.lowPart peglevel.nSupplyEffective).cols
      peglevel.nLastIdx = 0 := by
    rw [CFractions.cols_lowPart, if_neg (by omega)]
  refine ⟨hparts.1, hparts.2, (h.nonneg.highPart _).setAt rfl _ (by omega),
    (h.nonneg.lowPart _).setAt rfl _ (by omega), ?_, ?_, ?_, ?_, ?_, ?_⟩
  · intro c hc
    have hne : c ≠ peglevel.nLastIdx := fun heq => by rw [heq, hlast] at hc; exact lt_irrefl _ hc
    rw [CFractions.cols_setAt rfl, Function.update_of_ne hne, CFractions.cols_highPart,
      if_pos (by omega)]
  · intro c hc
    have hne : c ≠ peglevel.nLastIdx := fun heq => by rw [heq, hlast] at hc; exact lt_irrefl _ hc
    rw [CFractions.cols_setAt rfl, Function.update_of_ne hne, CFractions.cols_lowPart,
      if_neg (by omega)]
  · intro hnot
    rw [hcut] at hnot
    cases hnot
  · funext c
    rw [Pi.add_apply, CFractions.cols_setAt rfl, CFractions.cols_setAt rfl]
    rcases eq_or_ne c peglevel.nLastIdx with rfl | hne
    · have hsum := pd.fractions.low_add_high peglevel.nSupplyEffective
      have hnext := pd.fractions.high_succ peglevel.nLastIdx
      rw [hlast] at hnext
      rw [Function.update_self, Function.update_self]
      omega
    · have hne' : (c : ℕ) ≠ peglevel.nSupplyEffective := fun heq => hne (Fin.ext (heq.trans hlast.symm))
      rw [Function.update_of_ne hne, Function.update_of_ne hne, CFractions.cols_highPart,
        CFractions.cols_lowPart]
      split_ifs <;> omega
  · rw [CFractions.total_setAt rfl, hliquid_last, CFractions.total_highPart]
    ring
  · rw [CFractions.total_setAt rfl, hreserve_last, CFractions.total_lowPart]
    ring

/-- The parts that the moves take from. -/
theorem CPegData.AtLevel.splits (h : pd.AtLevel peglevel) : ∃ liquid reserve,
    liquidPart peglevel pd = .ok liquid ∧ reservePart peglevel pd = .ok reserve ∧
      pd.Splits peglevel liquid reserve := by
  by_cases hcut : peglevel.fPartial = true
  · obtain ⟨hliquid, hreserve, hsplits⟩ := h.splits_partial hcut
    refine ⟨_, _, ?_, ?_, hsplits⟩
    · rw [liquidPart, if_pos hcut]
      simp only [CFractions.total_highPart]
      rw [if_neg (by omega)]
    · rw [reservePart, if_pos hcut]
      simp only [CFractions.total_lowPart]
      rw [if_neg (by omega)]
  · rw [Bool.not_eq_true] at hcut
    refine ⟨_, _, ?_, ?_, h.splits_whole hcut⟩
    · rw [liquidPart, if_neg (by simp [hcut])]
    · rw [reservePart, if_neg (by simp [hcut])]

end Parts

/-! ## One move -/

section Move

variable {peglevel : CPegLevel} {pdSrc pdDst : CPegData} {nMoveAmount : ℤ} {frMove : CFractions}
  {liquid reserve : CFractions}

theorem CPegLevel.same_self (peglevel : CPegLevel) : peglevel.same peglevel = true := by
  simp [CPegLevel.same]

/-- Liquid that is given to an account. -/
theorem CPegData.Splits.add_liquid (h : pdDst.Splits peglevel liquid reserve)
    (hmove : frMove.Nonneg) (htotal : frMove.total = nMoveAmount)
    (hlow : ∀ c : Fin PEG_SIZE, (c : ℕ) < peglevel.nSupplyEffective → frMove.cols c = 0) :
    CPegData.Splits peglevel
      { pdDst with
        fractions := pdDst.fractions + frMove
        nLiquid := pdDst.nLiquid + nMoveAmount }
      (liquid + frMove) reserve where
  liquid_nonneg := h.liquid_nonneg.add hmove
  reserve_nonneg := h.reserve_nonneg
  liquid_low := by
    intro c hc
    rw [CFractions.cols_add, Pi.add_apply, h.liquid_low c hc, hlow c hc, add_zero]
  reserve_high := h.reserve_high
  unsplit := h.unsplit
  cols := by
    rw [CFractions.cols_add, CFractions.cols_add, ← h.cols]
    abel
  liquid_total := by rw [CFractions.total_add, h.liquid_total, htotal]
  reserve_total := h.reserve_total

/-- Liquid that is taken from an account. -/
theorem CPegData.Splits.sub_liquid (h : pdSrc.Splits peglevel liquid reserve)
    (hmove : MovedPart liquid frMove nMoveAmount) :
    CPegData.Splits peglevel
      { pdSrc with
        fractions := pdSrc.fractions - frMove
        nLiquid := pdSrc.nLiquid - nMoveAmount }
      (liquid - frMove) reserve where
  liquid_nonneg := by
    intro c
    rw [CFractions.cols_sub, Pi.sub_apply]
    exact sub_nonneg.mpr (hmove.le c)
  reserve_nonneg := h.reserve_nonneg
  liquid_low := by
    intro c hc
    rw [CFractions.cols_sub, Pi.sub_apply, h.liquid_low c hc, hmove.eq_zero (h.liquid_low c hc),
      sub_zero]
  reserve_high := h.reserve_high
  unsplit := h.unsplit
  cols := by
    rw [CFractions.cols_sub, CFractions.cols_sub, ← h.cols]
    abel
  liquid_total := by rw [CFractions.total_sub, h.liquid_total, hmove.total]
  reserve_total := h.reserve_total

/-- Reserve that is given to an account. -/
theorem CPegData.Splits.add_reserve (h : pdDst.Splits peglevel liquid reserve)
    (hmove : frMove.Nonneg) (htotal : frMove.total = nMoveAmount)
    (hhigh : ∀ c : Fin PEG_SIZE, peglevel.nSupplyEffective < (c : ℕ) → frMove.cols c = 0)
    (hunsplit : peglevel.fPartial = false → frMove.cols peglevel.nLastIdx = 0) :
    CPegData.Splits peglevel
      { pdDst with
        fractions := pdDst.fractions + frMove
        nReserve := pdDst.nReserve + nMoveAmount }
      liquid (reserve + frMove) where
  liquid_nonneg := h.liquid_nonneg
  reserve_nonneg := h.reserve_nonneg.add hmove
  liquid_low := h.liquid_low
  reserve_high := by
    intro c hc
    rw [CFractions.cols_add, Pi.add_apply, h.reserve_high c hc, hhigh c hc, add_zero]
  unsplit := by
    intro hcut
    rw [CFractions.cols_add, Pi.add_apply, h.unsplit hcut, hunsplit hcut, add_zero]
  cols := by
    rw [CFractions.cols_add, CFractions.cols_add, ← h.cols]
    abel
  liquid_total := h.liquid_total
  reserve_total := by rw [CFractions.total_add, h.reserve_total, htotal]

/-- Reserve that is taken from an account. -/
theorem CPegData.Splits.sub_reserve (h : pdSrc.Splits peglevel liquid reserve)
    (hmove : MovedPart reserve frMove nMoveAmount) :
    CPegData.Splits peglevel
      { pdSrc with
        fractions := pdSrc.fractions - frMove
        nReserve := pdSrc.nReserve - nMoveAmount }
      liquid (reserve - frMove) where
  liquid_nonneg := h.liquid_nonneg
  reserve_nonneg := by
    intro c
    rw [CFractions.cols_sub, Pi.sub_apply]
    exact sub_nonneg.mpr (hmove.le c)
  liquid_low := h.liquid_low
  reserve_high := by
    intro c hc
    rw [CFractions.cols_sub, Pi.sub_apply, h.reserve_high c hc, hmove.eq_zero (h.reserve_high c hc),
      sub_zero]
  unsplit := by
    intro hcut
    rw [CFractions.cols_sub, Pi.sub_apply, h.unsplit hcut, hmove.eq_zero (h.unsplit hcut),
      sub_zero]
  cols := by
    rw [CFractions.cols_sub, CFractions.cols_sub, ← h.cols]
    abel
  liquid_total := h.liquid_total
  reserve_total := by rw [CFractions.total_sub, h.reserve_total, hmove.total]

/-- The checks after a move hold for accounts whose values add up. -/
theorem moveMismatched_none {src dst : CPegData} (nIn : ℤ) (checkPositive : Bool)
    (hin : nIn = src.fractions.total + dst.fractions.total) (hpositive : src.fractions.isPositive)
    (hsrc : src.nReserve + src.nLiquid = src.fractions.total)
    (hdst : dst.nReserve + dst.nLiquid = dst.fractions.total) :
    moveMismatched nIn checkPositive src dst = none := by
  have htotals : ∀ pd : CPegData, pd.nReserve + pd.nLiquid = pd.fractions.total →
      ∀ which, mismatchedTotal which pd = none := by
    intro pd h which
    exact if_neg (by omega)
  simp only [moveMismatched, htotals src hsrc, htotals dst hdst, if_neg (not_not.mpr hin),
    hpositive, not_true_eq_false, and_false, if_false]

/-- A move is refused for the reasons that the source checks first. -/
theorem moveRefused_none {what : String} {nHave : ℤ} (hsrc : pdSrc.peglevel = peglevel)
    (hdst : pdDst.peglevel = peglevel) (hamount : 0 ≤ nMoveAmount) (hle : nMoveAmount ≤ nHave)
    (hids : sameUser pdSrc pdDst = false) :
    moveRefused nMoveAmount pdSrc pdDst peglevel what nHave = none := by
  rw [moveRefused, hsrc, hdst]
  simp [CPegLevel.same_self, hids, hamount.not_gt, hle.not_gt]

theorem CPegData.Splits.fractions_nonneg (h : pdSrc.Splits peglevel liquid reserve) :
    pdSrc.fractions.Nonneg := by
  intro c
  rw [← h.cols]
  exact add_nonneg (h.liquid_nonneg c) (h.reserve_nonneg c)

/-- What a move that succeeds does: both accounts stay at the level, and their sum stays. -/
structure AccountsMoved (peglevel : CPegLevel) (pdSrc pdDst src dst : CPegData) : Prop where
  src_atLevel : src.AtLevel peglevel
  dst_atLevel : dst.AtLevel peglevel
  sum : src.fractions.cols + dst.fractions.cols = pdSrc.fractions.cols + pdDst.fractions.cols

/-- Nothing is taken from columns below the effective supply, or from the reserve. -/
def ReserveKept (peglevel : CPegLevel) (before after : CPegData) : Prop :=
  after.nReserve = before.nReserve ∧
    ∀ c : Fin PEG_SIZE, (c : ℕ) < peglevel.nSupplyEffective →
      after.fractions.cols c = before.fractions.cols c

/-- Nothing is taken from columns above the reserve, or from the liquid. -/
def LiquidKept (peglevel : CPegLevel) (before after : CPegData) : Prop :=
  after.nLiquid = before.nLiquid ∧
    ∀ c : Fin PEG_SIZE, peglevel.nSupplyEffective < (c : ℕ) ∨
        peglevel.fPartial = false ∧ (c : ℕ) = peglevel.nSupplyEffective →
      after.fractions.cols c = before.fractions.cols c

/-- A move of liquid that is there between two users. -/
theorem moveliquid_ok (hsrc : pdSrc.AtLevel peglevel) (hdst : pdDst.AtLevel peglevel)
    (hamount : 0 ≤ nMoveAmount) (hle : nMoveAmount ≤ pdSrc.nLiquid)
    (hids : sameUser pdSrc pdDst = false) :
    ∃ src dst, moveliquid nMoveAmount pdSrc pdDst peglevel =
        { sErr := none, pdSrc := src, pdDst := dst } ∧
      AccountsMoved peglevel pdSrc pdDst src dst ∧
      ReserveKept peglevel pdSrc src ∧ ReserveKept peglevel pdDst dst := by
  obtain ⟨liquid, reserve, hliquid, -, hsplit⟩ := hsrc.splits
  obtain ⟨liquid', reserve', -, -, hsplit'⟩ := hdst.splits
  have hmove := ratioPart_moved hsplit.liquid_nonneg hamount (hsplit.liquid_total ▸ hle)
  have hlow : ∀ c : Fin PEG_SIZE, (c : ℕ) < peglevel.nSupplyEffective →
      (liquid.ratioPart nMoveAmount).cols c = 0 :=
    fun c hc => hmove.eq_zero (hsplit.liquid_low c hc)
  have hsrc' := hsplit.sub_liquid hmove
  have hdst' := hsplit'.add_liquid hmove.nonneg hmove.total hlow
  have hvalid := hsrc.peglevel_valid
  have hmismatched := moveMismatched_none (pdSrc.fractions.total + pdDst.fractions.total) true
    (by rw [CFractions.total_sub, CFractions.total_add]; ring)
    hsrc'.fractions_nonneg.isPositive hsrc'.total hdst'.total
  refine ⟨_, _, ?_, ⟨⟨hsrc'.isValid hvalid hsrc.level, hsrc'.fractions_nonneg, hsrc.level⟩,
    ⟨hdst'.isValid hvalid hdst.level, hdst'.fractions_nonneg, hdst.level⟩, ?_⟩,
    ⟨rfl, ?_⟩, ⟨rfl, ?_⟩⟩
  · simp only [moveliquid, moveRefused_none hsrc.level hdst.level hamount hle hids, hliquid,
      hmismatched, if_neg (hsplit.liquid_total ▸ hle).not_gt]
  · rw [CFractions.cols_sub, CFractions.cols_add]
    abel
  · intro c hc
    rw [CFractions.cols_sub, Pi.sub_apply, hlow c hc, sub_zero]
  · intro c hc
    rw [CFractions.cols_add, Pi.add_apply, hlow c hc, add_zero]

/-- A move of reserve that is there between two users. -/
theorem movereserve_ok (hsrc : pdSrc.AtLevel peglevel) (hdst : pdDst.AtLevel peglevel)
    (hamount : 0 ≤ nMoveAmount) (hle : nMoveAmount ≤ pdSrc.nReserve)
    (hids : sameUser pdSrc pdDst = false) :
    ∃ src dst, movereserve nMoveAmount pdSrc pdDst peglevel =
        { sErr := none, pdSrc := src, pdDst := dst } ∧
      AccountsMoved peglevel pdSrc pdDst src dst ∧
      LiquidKept peglevel pdSrc src ∧ LiquidKept peglevel pdDst dst := by
  obtain ⟨liquid, reserve, -, hreserve, hsplit⟩ := hsrc.splits
  obtain ⟨liquid', reserve', -, -, hsplit'⟩ := hdst.splits
  have hvalid := hsrc.peglevel_valid
  have hmove := ratioPart_moved hsplit.reserve_nonneg hamount (hsplit.reserve_total ▸ hle)
  have hunsplit : peglevel.fPartial = false →
      (reserve.ratioPart nMoveAmount).cols peglevel.nLastIdx = 0 :=
    fun hcut => hmove.eq_zero (hsplit.unsplit hcut)
  have hhigh : ∀ c : Fin PEG_SIZE, peglevel.nSupplyEffective < (c : ℕ) →
      (reserve.ratioPart nMoveAmount).cols c = 0 :=
    fun c hc => hmove.eq_zero (hsplit.reserve_high c hc)
  have hkept : ∀ c : Fin PEG_SIZE, peglevel.nSupplyEffective < (c : ℕ) ∨
      peglevel.fPartial = false ∧ (c : ℕ) = peglevel.nSupplyEffective →
      (reserve.ratioPart nMoveAmount).cols c = 0 := by
    rintro c (hc | ⟨hcut, hc⟩)
    · exact hhigh c hc
    · have hlast : c = peglevel.nLastIdx := Fin.ext (hc.trans hvalid.nLastIdx.symm)
      exact hlast ▸ hunsplit hcut
  have hsrc' := hsplit.sub_reserve hmove
  have hdst' := hsplit'.add_reserve hmove.nonneg hmove.total hhigh hunsplit
  have hmismatched := moveMismatched_none (pdSrc.fractions.total + pdDst.fractions.total) true
    (by rw [CFractions.total_sub, CFractions.total_add]; ring)
    hsrc'.fractions_nonneg.isPositive hsrc'.total hdst'.total
  refine ⟨_, _, ?_, ⟨⟨hsrc'.isValid hvalid hsrc.level, hsrc'.fractions_nonneg, hsrc.level⟩,
    ⟨hdst'.isValid hvalid hdst.level, hdst'.fractions_nonneg, hdst.level⟩, ?_⟩,
    ⟨rfl, ?_⟩, ⟨rfl, ?_⟩⟩
  · simp only [movereserve, moveRefused_none hsrc.level hdst.level hamount hle hids, hreserve,
      hmismatched]
  · rw [CFractions.cols_sub, CFractions.cols_add]
    abel
  · intro c hc
    rw [CFractions.cols_sub, Pi.sub_apply, hkept c hc, sub_zero]
  · intro c hc
    rw [CFractions.cols_add, Pi.add_apply, hkept c hc, add_zero]

/-- A move that asks for more than there is, or between balances of one user, is refused. -/
theorem moveRefused_isSome (peglevel : CPegLevel) (what : String) {nHave : ℤ}
    (h : ¬ (0 ≤ nMoveAmount ∧ nMoveAmount ≤ nHave ∧ sameUser pdSrc pdDst = false)) :
    ∃ sErr, moveRefused nMoveAmount pdSrc pdDst peglevel what nHave = some sErr := by
  rw [not_and_or, not_and_or, not_le, not_le, Bool.not_eq_false] at h
  unfold moveRefused
  split_ifs with hsrc hnegative hless hdst hids
  all_goals first | exact ⟨_, rfl⟩ | skip
  rcases h with h | h | h
  · exact absurd h hnegative
  · exact absurd h hless
  · exact absurd h hids

theorem lowOf_of_valid (a : CFractions) (hvalid : peglevel.IsValid) :
    a.lowOf peglevel = a.lowPartTotal peglevel := by
  obtain ⟨-, hlow, -, -, -, -, -, hshift, hhigh, -⟩ := hvalid
  exact if_neg (by omega)

theorem highOf_of_valid (a : CFractions) (hvalid : peglevel.IsValid) :
    a.highOf peglevel = if peglevel.fPartial then
      a.cols peglevel.nLastIdx - peglevel.vpart (a.cols peglevel.nLastIdx) +
        a.high (peglevel.nSupplyEffective + 1)
    else a.high peglevel.nSupplyEffective := by
  obtain ⟨-, hlow, -, -, -, -, -, hshift, hhigh, -⟩ := hvalid
  exact if_neg (by omega)

/-- What a level rounds to the reserve is not liquid. -/
theorem lowOf_add_highOf (a : CFractions) (hvalid : peglevel.IsValid) :
    a.lowOf peglevel + a.highOf peglevel = a.total := by
  have hsum := a.low_add_high peglevel.nSupplyEffective
  have hnext := a.high_succ peglevel.nLastIdx
  rw [hvalid.nLastIdx] at hnext
  rw [lowOf_of_valid a hvalid, highOf_of_valid a hvalid, CFractions.lowPartTotal]
  split_ifs <;> omega

theorem vpart_le {v : ℤ} (hv : 0 ≤ v) (hcut : peglevel.fPartial = true)
    (hpart : peglevel.nShiftLastPart ≤ peglevel.nShiftLastTotal) :
    0 ≤ peglevel.vpart v ∧ peglevel.vpart v ≤ v := by
  simp only [CPegLevel.fPartial, Bool.and_eq_true, decide_eq_true_eq] at hcut
  have hle := ratioPart_le hv hcut.1.le hpart hcut.2
  have hnonneg : 0 ≤ ratioPart v peglevel.nShiftLastPart peglevel.nShiftLastTotal := by
    rw [ratioPart, if_neg (by omega)]
    exact mulDiv_nonneg hv hcut.1.le hcut.2.le
  simp only [CPegLevel.vpart]
  split_ifs <;> omega

/-- An account whose parts are computed from the level is valid, unless the level asks for
more of a column than there is. -/
theorem isValid_of_parts {pd : CPegData} (hlevel : pd.peglevel = peglevel) (hvalid : peglevel.IsValid)
    (hpart : peglevel.nShiftLastPart ≤ peglevel.nShiftLastTotal) (hnonneg : pd.fractions.Nonneg)
    (hliquid : pd.nLiquid = pd.fractions.highOf peglevel)
    (hreserve : pd.nReserve = pd.fractions.lowOf peglevel) : pd.IsValid := by
  subst hlevel
  rw [lowOf_of_valid _ hvalid] at hreserve
  rw [highOf_of_valid _ hvalid] at hliquid
  have hsum := lowOf_add_highOf pd.fractions hvalid
  rw [lowOf_of_valid _ hvalid, highOf_of_valid _ hvalid] at hsum
  refine ⟨hvalid, by rw [hliquid, hreserve, hsum], ?_⟩
  · rw [hliquid, hreserve, CFractions.lowPartTotal]
    split_ifs with hcut
    · have hcol := vpart_le (hnonneg pd.peglevel.nLastIdx) hcut hpart
      omega
    · exact ⟨rfl, zero_add _⟩

/-- A move of coins that are there. -/
theorem movecoins_eq {fCrossCycles : Bool} (hsrc : pdSrc.AtLevel peglevel)
    (hdst : pdDst.AtLevel peglevel) (hamount : 0 ≤ nMoveAmount)
    (hle : nMoveAmount ≤ pdSrc.fractions.total) :
    movecoins nMoveAmount pdSrc pdDst peglevel fCrossCycles =
      { sErr := none
        pdSrc := { pdSrc with
          fractions := pdSrc.fractions - pdSrc.fractions.ratioPart nMoveAmount
          nLiquid := (pdSrc.fractions - pdSrc.fractions.ratioPart nMoveAmount).highOf peglevel
          nReserve := (pdSrc.fractions - pdSrc.fractions.ratioPart nMoveAmount).lowOf peglevel }
        pdDst := { pdDst with
          fractions := pdDst.fractions + pdSrc.fractions.ratioPart nMoveAmount
          nLiquid := (pdDst.fractions + pdSrc.fractions.ratioPart nMoveAmount).highOf peglevel
          nReserve := (pdDst.fractions + pdSrc.fractions.ratioPart nMoveAmount).lowOf peglevel } } := by
  have hsame : peglevel.same pdSrc.peglevel = true := hsrc.level ▸ peglevel.same_self
  have hsame' : peglevel.same pdDst.peglevel = true := hdst.level ▸ peglevel.same_self
  have hmove := ratioPart_moved hsrc.nonneg hamount hle
  have hparts : ∀ a : CFractions, a.lowOf peglevel + a.highOf peglevel = a.total :=
    fun a => lowOf_add_highOf a hsrc.peglevel_valid
  unfold movecoins
  simp only [hsame, hsame', not_true_eq_false, and_false, if_false, hamount.not_gt, hle.not_gt,
    if_true]
  rw [moveMismatched_none]
  · rw [CFractions.total_sub, CFractions.total_add]
    ring
  · refine CFractions.Nonneg.isPositive fun c => ?_
    rw [CFractions.cols_sub, Pi.sub_apply]
    exact sub_nonneg.mpr (hmove.le c)
  · exact hparts _
  · exact hparts _

theorem moveliquid_none (h : (moveliquid nMoveAmount pdSrc pdDst peglevel).sErr = none) :
    0 ≤ nMoveAmount ∧ nMoveAmount ≤ pdSrc.nLiquid ∧ sameUser pdSrc pdDst = false := by
  by_contra hnot
  obtain ⟨sErr, hrefused⟩ := moveRefused_isSome peglevel "liquid" hnot
  simp only [moveliquid, hrefused, reduceCtorEq] at h

theorem movereserve_none (h : (movereserve nMoveAmount pdSrc pdDst peglevel).sErr = none) :
    0 ≤ nMoveAmount ∧ nMoveAmount ≤ pdSrc.nReserve ∧ sameUser pdSrc pdDst = false := by
  by_contra hnot
  obtain ⟨sErr, hrefused⟩ := moveRefused_isSome peglevel "reserve" hnot
  simp only [movereserve, hrefused, reduceCtorEq] at h

theorem movecoins_none {fCrossCycles : Bool}
    (h : (movecoins nMoveAmount pdSrc pdDst peglevel fCrossCycles).sErr = none) :
    0 ≤ nMoveAmount ∧ nMoveAmount ≤ pdSrc.fractions.total := by
  unfold movecoins at h
  by_contra hnot
  rw [not_and_or, not_le, not_le] at hnot
  by_cases hsrc : ¬ fCrossCycles = true ∧ ¬ peglevel.same pdSrc.peglevel = true
  · simp only [if_pos hsrc, reduceCtorEq] at h
  · rcases hnot with hnegative | hless
    · simp only [if_neg hsrc, if_pos hnegative, reduceCtorEq] at h
    · by_cases hnegative : nMoveAmount < 0
      · simp only [if_neg hsrc, if_pos hnegative, reduceCtorEq] at h
      · simp only [if_neg hsrc, if_neg hnegative, if_pos hless, reduceCtorEq] at h

/-- A move of coins whose results are valid. -/
theorem movecoins_moved {fCrossCycles : Bool} {src dst : CPegData} (hsrc : pdSrc.AtLevel peglevel)
    (hdst : pdDst.AtLevel peglevel) (hamount : 0 ≤ nMoveAmount)
    (hle : nMoveAmount ≤ pdSrc.fractions.total)
    (hmove_src : (movecoins nMoveAmount pdSrc pdDst peglevel fCrossCycles).pdSrc = src)
    (hmove_dst : (movecoins nMoveAmount pdSrc pdDst peglevel fCrossCycles).pdDst = dst)
    (hvalid : src.IsValid) (hvalid' : dst.IsValid) :
    AccountsMoved peglevel pdSrc pdDst src dst := by
  have hmove := ratioPart_moved hsrc.nonneg hamount hle
  rw [movecoins_eq hsrc hdst hamount hle] at hmove_src hmove_dst
  subst hmove_src hmove_dst
  refine ⟨⟨hvalid, fun c => ?_, hsrc.level⟩, ⟨hvalid', hdst.nonneg.add hmove.nonneg, hdst.level⟩, ?_⟩
  · rw [CFractions.cols_sub, Pi.sub_apply]
    exact sub_nonneg.mpr (hmove.le c)
  · rw [CFractions.cols_sub, CFractions.cols_add]
    abel

/-- A call on the texts of two accounts with the move that it makes. -/
theorem moveText_ok {move : MoveResult} {src dst : CPegData} (hsrc : pdSrc.AtLevel peglevel)
    (hdst : pdDst.AtLevel peglevel) (hmove : move = { sErr := none, pdSrc := src, pdDst := dst })
    (hsrc' : src.IsValid) (hdst' : dst.IsValid) :
    moveText pdSrc pdDst peglevel move = .ok (src, dst) := by
  subst hmove
  rw [moveText, if_neg (not_not.mpr hsrc.peglevel_valid), if_neg (not_not.mpr hsrc.isValid),
    if_neg (not_not.mpr hdst.isValid)]
  simp only [if_neg (not_not.mpr hsrc'), if_neg (not_not.mpr hdst')]

theorem of_moveText_ok {move : MoveResult} {src dst : CPegData}
    (h : moveText pdSrc pdDst peglevel move = .ok (src, dst)) :
    move.sErr = none ∧ move.pdSrc = src ∧ move.pdDst = dst ∧ src.IsValid ∧ dst.IsValid := by
  unfold moveText at h
  cases hnone : move.sErr with
  | some sErr =>
    simp only [hnone] at h
    split_ifs at h
  | none =>
    simp only [hnone] at h
    split_ifs at h with hlevel hsrc hdst hsrc' hdst'
    obtain ⟨rfl, rfl⟩ := Prod.mk.inj (Except.ok.inj h)
    exact ⟨rfl, rfl, rfl, hsrc', hdst'⟩

end Move

/-! ## Runs of moves -/

inductive MoveKind
  | coins (fCrossCycles : Bool)
  | liquid
  | reserve
  deriving DecidableEq

/-- One call: an amount goes from one account to another one. -/
structure AccountMove (ι : Type) where
  kind : MoveKind
  nMoveAmount : ℤ
  src : ι
  dst : ι
  distinct : src ≠ dst

section Ledger

variable {ι : Type} (peglevel : CPegLevel)

def AccountMove.move (m : AccountMove ι) (accounts : ι → CPegData) : MoveResult :=
  match m.kind with
  | .coins fCrossCycles =>
    movecoins m.nMoveAmount (accounts m.src) (accounts m.dst) peglevel fCrossCycles
  | .liquid => moveliquid m.nMoveAmount (accounts m.src) (accounts m.dst) peglevel
  | .reserve => movereserve m.nMoveAmount (accounts m.src) (accounts m.dst) peglevel

def AccountMove.call (m : AccountMove ι) (accounts : ι → CPegData) :
    Except String (CPegData × CPegData) :=
  moveText (accounts m.src) (accounts m.dst) peglevel (m.move peglevel accounts)

def AccountMove.nHave (m : AccountMove ι) (accounts : ι → CPegData) : ℤ :=
  match m.kind with
  | .coins _ => (accounts m.src).fractions.total
  | .liquid => (accounts m.src).nLiquid
  | .reserve => (accounts m.src).nReserve

/-- A move that the code makes: the balances are not of one user, and the level does not ask
for more of a column than there is. -/
def AccountMove.Allowed (m : AccountMove ι) (accounts : ι → CPegData) : Prop :=
  match m.kind with
  | .coins _ => peglevel.nShiftLastPart ≤ peglevel.nShiftLastTotal
  | .liquid => sameUser (accounts m.src) (accounts m.dst) = false
  | .reserve => sameUser (accounts m.src) (accounts m.dst) = false

variable [DecidableEq ι]

def AccountMove.apply (m : AccountMove ι) (accounts : ι → CPegData) : ι → CPegData :=
  match m.call peglevel accounts with
  | .error _ => accounts
  | .ok (src, dst) => Function.update (Function.update accounts m.src src) m.dst dst

def applyMoves (accounts : ι → CPegData) (moves : List (AccountMove ι)) : ι → CPegData :=
  moves.foldl (fun accounts m => m.apply peglevel accounts) accounts

/-! ### One step -/

variable {peglevel} {accounts : ι → CPegData} {m : AccountMove ι} {src dst : CPegData}

def MoveKind.Kept (kind : MoveKind) (peglevel : CPegLevel) (before after : CPegData) : Prop :=
  match kind with
  | .coins _ => True
  | .liquid => ReserveKept peglevel before after
  | .reserve => LiquidKept peglevel before after

omit [DecidableEq ι] in
/-- A call that succeeds between accounts at the level. -/
theorem AccountMove.call_spec (hall : ∀ i, (accounts i).AtLevel peglevel)
    (hcall : m.call peglevel accounts = .ok (src, dst)) :
    AccountsMoved peglevel (accounts m.src) (accounts m.dst) src dst ∧
      m.kind.Kept peglevel (accounts m.src) src ∧ m.kind.Kept peglevel (accounts m.dst) dst := by
  obtain ⟨hnone, hsrc, hdst, hvalid, hvalid'⟩ := of_moveText_ok hcall
  unfold AccountMove.move at hnone hsrc hdst
  unfold MoveKind.Kept
  cases hkind : m.kind with
  | coins fCrossCycles =>
    simp only [hkind] at hnone hsrc hdst ⊢
    obtain ⟨hamount, hle⟩ := movecoins_none hnone
    exact ⟨movecoins_moved (hall m.src) (hall m.dst) hamount hle hsrc hdst hvalid hvalid',
      trivial, trivial⟩
  | liquid =>
    simp only [hkind] at hnone hsrc hdst ⊢
    obtain ⟨hamount, hle, hids⟩ := moveliquid_none hnone
    obtain ⟨src', dst', hmove, hmoved⟩ := moveliquid_ok (hall m.src) (hall m.dst) hamount hle hids
    rw [hmove] at hsrc hdst
    subst hsrc hdst
    exact hmoved
  | reserve =>
    simp only [hkind] at hnone hsrc hdst ⊢
    obtain ⟨hamount, hle, hids⟩ := movereserve_none hnone
    obtain ⟨src', dst', hmove, hmoved⟩ := movereserve_ok (hall m.src) (hall m.dst) hamount hle hids
    rw [hmove] at hsrc hdst
    subst hsrc hdst
    exact hmoved

omit [DecidableEq ι] in
/-- A call for a positive amount that is there succeeds where the code makes the move. -/
theorem AccountMove.call_ok (hall : ∀ i, (accounts i).AtLevel peglevel)
    (hamount : 0 < m.nMoveAmount) (hhave : m.nMoveAmount ≤ m.nHave accounts)
    (hallowed : m.Allowed peglevel accounts) : ∃ r, m.call peglevel accounts = .ok r := by
  have hsrc := hall m.src
  have hdst := hall m.dst
  unfold AccountMove.Allowed at hallowed
  unfold AccountMove.nHave at hhave
  unfold AccountMove.call AccountMove.move
  cases hkind : m.kind with
  | coins fCrossCycles =>
    simp only [hkind] at hallowed hhave ⊢
    have hmove := ratioPart_moved hsrc.nonneg hamount.le hhave
    refine ⟨_, moveText_ok hsrc hdst (movecoins_eq hsrc hdst hamount.le hhave) ?_ ?_⟩
    · refine isValid_of_parts hsrc.level hsrc.peglevel_valid hallowed (fun c => ?_) rfl rfl
      rw [CFractions.cols_sub, Pi.sub_apply]
      exact sub_nonneg.mpr (hmove.le c)
    · exact isValid_of_parts hdst.level hsrc.peglevel_valid hallowed
        (hdst.nonneg.add hmove.nonneg) rfl rfl
  | liquid =>
    simp only [hkind] at hallowed hhave ⊢
    obtain ⟨src', dst', hmove, hmoved, -⟩ := moveliquid_ok hsrc hdst hamount.le hhave hallowed
    exact ⟨_, moveText_ok hsrc hdst hmove hmoved.src_atLevel.isValid hmoved.dst_atLevel.isValid⟩
  | reserve =>
    simp only [hkind] at hallowed hhave ⊢
    obtain ⟨src', dst', hmove, hmoved, -⟩ := movereserve_ok hsrc hdst hamount.le hhave hallowed
    exact ⟨_, moveText_ok hsrc hdst hmove hmoved.src_atLevel.isValid hmoved.dst_atLevel.isValid⟩

theorem MoveKind.kept_refl (kind : MoveKind) (pd : CPegData) : kind.Kept peglevel pd pd := by
  cases kind
  · trivial
  · exact ⟨rfl, fun _ _ => rfl⟩
  · exact ⟨rfl, fun _ _ => rfl⟩

theorem AccountMove.apply_error {sErr : String} (h : m.call peglevel accounts = .error sErr) :
    m.apply peglevel accounts = accounts := by
  simp only [AccountMove.apply, h]

theorem AccountMove.apply_ok (h : m.call peglevel accounts = .ok (src, dst)) :
    m.apply peglevel accounts =
      Function.update (Function.update accounts m.src src) m.dst dst := by
  simp only [AccountMove.apply, h]

variable [Fintype ι]

/-- Replacing two accounts by others with the same sum. -/
theorem sum_update_pair {M : Type} [AddCommGroup M] {i j : ι} (hij : i ≠ j) (f : ι → M) {x y : M}
    (h : x + y = f i + f j) :
    ∑ k, Function.update (Function.update f i x) j y k = ∑ k, f k := by
  have hi : i ∈ Finset.univ \ {j} := by simp [hij]
  rw [Finset.sum_update_of_mem (Finset.mem_univ j), Finset.sum_update_of_mem hi,
    Finset.sum_eq_add_sum_sdiff_singleton_of_mem (Finset.mem_univ j) f,
    Finset.sum_eq_add_sum_sdiff_singleton_of_mem hi f, ← add_assoc, ← add_assoc, add_comm y x, h,
    add_comm (f i)]

structure LedgerStep (peglevel : CPegLevel) (m : AccountMove ι) (before after : ι → CPegData) :
    Prop where
  succeeds : 0 < m.nMoveAmount → m.nMoveAmount ≤ m.nHave before → m.Allowed peglevel before →
    ∃ r, m.call peglevel before = .ok r
  atLevel : ∀ i, (after i).AtLevel peglevel
  sum : ∑ i, (after i).fractions.cols = ∑ i, (before i).fractions.cols
  kept_src : m.kind.Kept peglevel (before m.src) (after m.src)
  kept_dst : m.kind.Kept peglevel (before m.dst) (after m.dst)
  failed : ∀ sErr, m.call peglevel before = .error sErr → after = before

theorem AccountMove.apply_step (hall : ∀ i, (accounts i).AtLevel peglevel) :
    LedgerStep peglevel m accounts (m.apply peglevel accounts) := by
  have hfailed : ∀ sErr, m.call peglevel accounts = .error sErr →
      m.apply peglevel accounts = accounts := fun _ h => AccountMove.apply_error h
  cases hcall : m.call peglevel accounts with
  | error sErr =>
    rw [AccountMove.apply_error hcall]
    exact ⟨AccountMove.call_ok hall, hall, rfl, MoveKind.kept_refl _ _, MoveKind.kept_refl _ _,
      fun _ _ => rfl⟩
  | ok r =>
    obtain ⟨src, dst⟩ := r
    obtain ⟨hmoved, hkept, hkept'⟩ := AccountMove.call_spec hall hcall
    have happly := AccountMove.apply_ok hcall
    have hsrc : m.apply peglevel accounts m.src = src := by
      rw [happly, Function.update_of_ne m.distinct, Function.update_self]
    have hdst : m.apply peglevel accounts m.dst = dst := by
      rw [happly, Function.update_self]
    have hcols : ∀ i, (m.apply peglevel accounts i).fractions.cols =
        Function.update (Function.update (fun i => (accounts i).fractions.cols) m.src
          src.fractions.cols) m.dst dst.fractions.cols i := by
      intro i
      rw [happly]
      simp only [Function.update_apply]
      split_ifs <;> rfl
    refine ⟨AccountMove.call_ok hall, fun i => ?_, ?_, hsrc ▸ hkept, hdst ▸ hkept', hfailed⟩
    · rw [happly, Function.update_apply, Function.update_apply]
      split_ifs
      · exact hmoved.dst_atLevel
      · exact hmoved.src_atLevel
      · exact hall i
    · simp only [hcols]
      exact sum_update_pair m.distinct _ hmoved.sum

/-- A run of moves keeps all accounts at the level and their sum. -/
theorem applyMoves_keeps (moves : List (AccountMove ι)) (hall : ∀ i, (accounts i).AtLevel peglevel) :
    (∀ i, (applyMoves peglevel accounts moves i).AtLevel peglevel) ∧
      ∑ i, (applyMoves peglevel accounts moves i).fractions.cols =
        ∑ i, (accounts i).fractions.cols := by
  induction moves generalizing accounts with
  | nil => exact ⟨hall, rfl⟩
  | cons m moves ih =>
    have hstep := m.apply_step hall
    obtain ⟨hlevel, hsum⟩ := ih hstep.atLevel
    exact ⟨hlevel, hsum.trans hstep.sum⟩

end Ledger

/-! ## Two accounts -/

/-- Two accounts with 10 in column 5, of one user or of none. -/
def sampleAccounts (nId : ℤ) : Bool → CPegData := fun _ => { sampleColumn 5 with nId }

theorem sampleAccounts_atLevel (nId : ℤ) :
    ∀ i, (sampleAccounts nId i).AtLevel (.ofSupply 1 0 0 3 3 3) := by
  intro i
  have hvalid : (sampleColumn 5).IsValid := by decide +kernel
  exact ⟨hvalid, CFractions.singleColumn_nonneg (by decide) 5, rfl⟩

def sampleMove (kind : MoveKind) (nMoveAmount : ℤ) : AccountMove Bool where
  kind
  nMoveAmount
  src := true
  dst := false
  distinct := by decide

def excessLevel : CPegLevel :=
  { CPegLevel.ofSupply 1 0 0 3 3 3 with nShiftLastPart := 3, nShiftLastTotal := 2 }

def excessAccounts : Bool → CPegData := fun _ =>
  { fractions := .singleColumn 3 10, peglevel := excessLevel, nLiquid := 4, nReserve := 6 }

theorem excessAccounts_atLevel : ∀ i, (excessAccounts i).AtLevel excessLevel := by
  intro i
  have hvalid : (excessAccounts true).IsValid := by decide +kernel
  exact ⟨by cases i <;> exact hvalid, CFractions.singleColumn_nonneg (by decide) 3, rfl⟩

end BitBay
