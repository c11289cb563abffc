import BitBay.Peg.Level

/-!
# Peg cycles of an exchange

At a new cycle an exchange computes its level and a pool with the liquidity of all
users, and then updates the balance of each user: what is reserve at the new level stays,
the rest is replaced by an equal share of the pool.
-/
namespace BitBay

open scoped BigOperators

structure CPegData where
  fractions : CFractions := {}
  peglevel : CPegLevel := {}
  nLiquid : ℤ := 0
  nReserve : ℤ := 0
  nId : ℤ := 0
  deriving Inhabited

/-- The value is the sum of the liquid and the reserve, which agree with the level. -/
def CPegData.IsValid (pd : CPegData) : Prop :=
  pd.peglevel.IsValid ∧ pd.nReserve + pd.nLiquid = pd.fractions.total ∧
  if pd.peglevel.fPartial then
    pd.fractions.high (pd.peglevel.nSupplyEffective + 1) ≤ pd.nLiquid ∧
      pd.fractions.low pd.peglevel.nSupplyEffective ≤ pd.nReserve
  else
    pd.nLiquid = pd.fractions.high pd.peglevel.nSupplyEffective ∧
      pd.nReserve = pd.fractions.low pd.peglevel.nSupplyEffective

instance (pd : CPegData) : Decidable pd.IsValid := by unfold CPegData.IsValid; infer_instance

/-- The pool of a cycle: the liquidity, and the split column with its reserve. -/
def pegPool (peglevel : CPegLevel) (pdExchange : CPegData) : CPegData :=
  let fractions := pdExchange.fractions.highPart peglevel.nSupplyEffective
  { fractions, peglevel
    nReserve := peglevel.nShiftLastPart
    nLiquid := fractions.total - peglevel.nShiftLastPart }

def getpeglevel (nCycleNow nCyclePrev nBuffer nPegNow nPegNext nPegNextNext : ℤ)
    (pdExchange pdPegShift : CPegData) : CPegLevel × CPegData :=
  let peglevel := CPegLevel.ofFractions nCycleNow nCyclePrev nBuffer nPegNow nPegNext nPegNextNext
    pdExchange.fractions pdPegShift.fractions
  (peglevel, pegPool peglevel pdExchange)

namespace CFractions

def addAt (a : CFractions) (i : Fin PEG_SIZE) (v : ℤ) : CFractions :=
  { a with f := Function.update a.f i (a.f i + v) }

end CFractions

structure UpdateState where
  pdPegPool : CPegData
  frReserve : CFractions
  frLiquid : CFractions := .zeroStd
  nReserve : ℤ

namespace UpdateState

def nLiquidPool (st : UpdateState) : ℤ := st.pdPegPool.fractions.total - st.pdPegPool.nReserve

def takeFromPool (st : UpdateState) (i : Fin PEG_SIZE) (n : ℤ) : UpdateState :=
  { st with
    pdPegPool := { st.pdPegPool with fractions := st.pdPegPool.fractions.addAt i (-n) } }

/-- The reserve in the split column comes from the reserve of the pool; where this is
used up, the balance has less reserve. -/
def takeLastReserve (st : UpdateState) (i : Fin PEG_SIZE) : UpdateState :=
  let nLastReserve := st.frReserve.f i
  let nTakeReserve :=
    min (min nLastReserve (st.pdPegPool.fractions.f i)) st.pdPegPool.nReserve
  let st := st.takeFromPool i nTakeReserve
  let pdPegPool := { st.pdPegPool with nReserve := st.pdPegPool.nReserve - nTakeReserve }
  if nTakeReserve < nLastReserve then
    let nDiff := nLastReserve - nTakeReserve
    { st with pdPegPool, frReserve := st.frReserve.addAt i (-nDiff), nReserve := st.nReserve - nDiff }
  else { st with pdPegPool }

/-- The liquid in the split column, in proportion to the liquid of the balance. -/
def takeLastLiquid (st : UpdateState) (i : Fin PEG_SIZE) (nValue : ℤ) : UpdateState :=
  let nLastTotal := st.pdPegPool.fractions.f i
  let nPoolReserve := min st.pdPegPool.nReserve nLastTotal
  let nTakeLiquid := min (ratioPart (nLastTotal - nPoolReserve) (nValue - st.nReserve)
    (st.pdPegPool.fractions.total - nPoolReserve)) nLastTotal
  let st := { st with
    pdPegPool := { st.pdPegPool with nReserve := nPoolReserve }
    frLiquid := st.frLiquid.addAt i nTakeLiquid }
  st.takeFromPool i nTakeLiquid

def takeLast (st : UpdateState) (peglevelNew : CPegLevel) (nValue : ℤ) : UpdateState :=
  if peglevelNew.fPartial then
    (st.takeLastReserve peglevelNew.nLastIdx).takeLastLiquid peglevelNew.nLastIdx nValue
  else st

def nLiquidTodo (st : UpdateState) (nValue : ℤ) : ℤ := nValue - st.nReserve - st.frLiquid.total

/-- Take the rest of the liquid from the pool. The split column is held back while it has
reserve of other users, unless the other columns are not enough. -/
def takeLiquid (st : UpdateState) (i : Fin PEG_SIZE) (nValue : ℤ) : Except String UpdateState :=
  if st.nLiquidPool < st.nLiquidTodo nValue then
    .error ("Not enough liquid " ++ toString st.nLiquidPool ++ " on 'pool' to balance " ++
      toString (st.nLiquidTodo nValue))
  else
    let nHoldLastPart := if 0 < st.pdPegPool.nReserve then st.pdPegPool.fractions.f i else 0
    let frPool := st.pdPegPool.fractions.addAt i (-nHoldLastPart)
    let moved := frPool.moveRatioPartTo st.frLiquid (st.nLiquidTodo nValue)
    let nFromHold := if 0 < moved.1 ∧ moved.1 ≤ nHoldLastPart then moved.1 else 0
    if 0 < moved.1 - nFromHold then
      .error ("Liquid not enough after MoveRatioPartTo " ++ toString (moved.1 - nFromHold))
    else .ok { st with
      pdPegPool := { st.pdPegPool with
        fractions := if 0 < nHoldLastPart - nFromHold then
            { moved.2.1 with f := Function.update moved.2.1.f i (nHoldLastPart - nFromHold) }
          else moved.2.1 }
      frLiquid := moved.2.2.addAt i nFromHold }

end UpdateState

/-- The checks of an updated balance, with the text of the first that fails. -/
def updateErr (pdBalance : CPegData) (nValue : ℤ) (level : CPegLevel) : Option String :=
  if nValue ≠ pdBalance.fractions.total then
    some ("Balance mimatch after update " ++ toString pdBalance.fractions.total ++ " vs " ++
      toString nValue)
  else if pdBalance.nReserve + pdBalance.nLiquid ≠ pdBalance.fractions.total then
    some ("Balance mimatch liquid+reserve after update " ++ toString pdBalance.nLiquid ++ "+" ++
      toString pdBalance.nReserve ++ " vs " ++ toString pdBalance.fractions.total)
  else if level.fPartial then
    let nLiquidWithoutPartial := pdBalance.fractions.high (level.nSupplyEffective + 1)
    let nReserveWithoutPartial := pdBalance.fractions.low level.nSupplyEffective
    if pdBalance.nLiquid < nLiquidWithoutPartial then
      some ("Balance liquid less than without partial after update " ++
        toString pdBalance.nLiquid ++ " vs " ++ toString nLiquidWithoutPartial)
    else if pdBalance.nReserve < nReserveWithoutPartial then
      some ("Balance reserve less than without partial after update " ++
        toString pdBalance.nReserve ++ " vs " ++ toString nReserveWithoutPartial)
    else none
  else
    let nLiquidCalc := pdBalance.fractions.high level.nSupplyEffective
    let nReserveCalc := pdBalance.fractions.low level.nSupplyEffective
    if pdBalance.nLiquid ≠ nLiquidCalc then
      some ("Balance liquid mismatch calculated after update " ++ toString pdBalance.nLiquid ++
        " vs " ++ toString nLiquidCalc)
    else if pdBalance.nReserve ≠ nReserveCalc then
      some ("Balance reserve mismatch calculated after update " ++ toString pdBalance.nReserve ++
        " vs " ++ toString nReserveCalc)
    else none

structure UpdateResult where
  sErr : String := ""
  pdBalance : CPegData
  pdPegPool : CPegData

/-- The update of a balance of the previous cycle. The source also has a check of the
range of the level, which no level fails. -/
def updateBalance (pdBalance pdPegPool : CPegData) (peglevelNew : CPegLevel) :
    Except String UpdateResult :=
  let nValue := pdBalance.fractions.total
  let frReserve := pdBalance.fractions.lowPartOf peglevelNew
  let nReserve := pdBalance.fractions.lowPartTotal peglevelNew
  if nReserve ≠ frReserve.total then
    .error ("Reserve mimatch on LowPart " ++ toString frReserve.total ++ " vs " ++ toString nValue)
  else
    let st : UpdateState := { pdPegPool, frReserve, nReserve }
    match (st.takeLast peglevelNew nValue).takeLiquid peglevelNew.nLastIdx nValue with
    | .error sErr => .error sErr
    | .ok st =>
      let pdBalance := { pdBalance with
        fractions := st.frReserve + st.frLiquid
        peglevel := peglevelNew
        nReserve := st.nReserve
        nLiquid := nValue - st.nReserve
        nId := st.pdPegPool.nId + 1 }
      match updateErr pdBalance nValue peglevelNew with
      | some sErr => .error sErr
      | none => .ok {
          pdBalance
          pdPegPool := { st.pdPegPool with
            nLiquid := st.pdPegPool.fractions.total - st.pdPegPool.nReserve
            nId := st.pdPegPool.nId + 1 } }

def updatepegbalances (pdBalance pdPegPool : CPegData) (peglevelNew : CPegLevel) :
    Except String UpdateResult :=
  if pdPegPool.peglevel.nCycle ≠ peglevelNew.nCycle then
    .error "PegPool has other cycle than peglevel"
  else if pdBalance.peglevel.nCycle = peglevelNew.nCycle then
    .ok { sErr := "Already up-to-dated", pdBalance, pdPegPool }
  else if peglevelNew.nCycle < pdBalance.peglevel.nCycle then
    .error "Balance has greater cycle than peglevel"
  else if pdBalance.fractions.total ≠ 0 ∧ pdBalance.peglevel.nCycle ≠ 0 ∧
      pdBalance.peglevel.nCycle ≠ peglevelNew.nCyclePrev then
    .error ("Mismatch for peglevel_new.nCyclePrev " ++ toString peglevelNew.nCyclePrev ++
      " vs peglevel_old.nCycle " ++ toString pdBalance.peglevel.nCycle)
  else updateBalance pdBalance pdPegPool peglevelNew

/-- Update the users of an exchange one after the other, with the pool that the update
before left. -/
def updateUsers (peglevelNew : CPegLevel) :
    List CPegData → CPegData → Except String (List CPegData × CPegData)
  | [], pdPegPool => .ok ([], pdPegPool)
  | pdBalance :: rest, pdPegPool =>
    (updatepegbalances pdBalance pdPegPool peglevelNew).bind fun r =>
      (updateUsers peglevelNew rest r.pdPegPool).bind fun rs => .ok (r.pdBalance :: rs.1, rs.2)

end BitBay
