import BitBay.Library.Run
import BitBay.Library.SortedMap
import BitBay.Peg.Ratio
import Mathlib.Data.Char
import Mathlib.Data.List.Lex

/-!
# Standard transactions

`calculateStandardFractions` distributes the fractions of the inputs of a
transaction over its outputs. The inputs fill one reserve and one liquidity pool
for each address and prepare the outputs that notaries freeze; the outputs then
take from these pools in their order, and what is left are the fees.

A failure carries the cause the source reports. What a failed call leaves in its
maps is not part of the result.
-/
namespace BitBay

open CScript

def sBurnAddress : String := "bJnV8J5v74MGctMyVSVPfGu1mGQ9nMTiB3"

structure FrozenTxOut where
  nValue : ℤ := 0
  fIsColdOutput : Bool := false
  nFairWithdrawFromEscrowIndex1 : ℤ := -1
  nFairWithdrawFromEscrowIndex2 : ℤ := -1
  sAddress : CString := []
  fractions : CFractions := {}

instance : Inhabited FrozenTxOut := ⟨{}⟩

abbrev PoolMap := SortedMap CString CFractions

/-- Frozen outputs by index. The indices of the source are `long`, but only
checked output indices are used as keys. -/
abbrev FrozenMap := SortedMap ℕ FrozenTxOut

structure StandardCall where
  tx : CTransaction
  nSupply : ℕ
  nBlockTime : ℕ
  mapInputs : MapPrevOut
  mapInputsFractions : MapFractions
  setTimeLockPass : Finset ℕ := ∅
  mapTestFractionsPool : MapFractions := fun _ => none
  feesFractions : CFractions := {}

structure StandardResult where
  mapInputsFractions : MapFractions
  mapTestFractionsPool : MapFractions
  feesFractions : CFractions

structure PoolState where
  nValueIn : ℤ := 0
  nLiquidityTotal : ℤ := 0
  poolReserves : PoolMap := ∅
  poolLiquidity : PoolMap := ∅
  poolFrozen : FrozenMap := ∅
  frColdFees : CFractions := {}
  fFreezeAll : Bool := false

namespace StandardCall

/-- The inputs that are looked at: a coin base has none. -/
def inputs (call : StandardCall) : List (CTxIn × ℕ) :=
  if call.tx.isCoinBase then [] else call.tx.vin.zipIdx

def outputs (call : StandardCall) : List (CTxOut × ℕ) := call.tx.vout.zipIdx

def nVout (call : StandardCall) : ℕ := call.tx.vout.length

def outValue (call : StandardCall) (i : ℕ) : ℤ := (call.tx.vout.getD i default).nValue

end StandardCall

variable (net : Params) (call : StandardCall)

/-! ## Inputs -/

def readInput (i : ℕ) (inp : CTxIn) : Except String (CTxOut × CFractions) :=
  match call.mapInputs inp.prevout.fkey with
  | none => .error "P-I-1: Refered output is not found"
  | some prevtxout =>
    match call.mapInputsFractions inp.prevout.fkey with
    | none => .error "P-I-2: No input fractions found"
    | some fr =>
      let frInp := fr.toStd
      if frInp.total ≠ prevtxout.nValue then
        .error ("P-I-3: Input fraction " ++ inp.prevout.hash.toHex ++ ":" ++
          toString inp.prevout.n ++ " total " ++ toString frInp.total ++
          " mismatches prevout value " ++ toString prevtxout.nValue)
      else if frInp.nFlags.notaryF ∧ call.nBlockTime < frInp.nLockTime ∧
          i ∉ call.setTimeLockPass then
        .error "P-I-4: Frozen input used before time expired"
      else if frInp.nFlags.notaryV ∧ call.nBlockTime < frInp.nLockTime then
        .error "P-I-5: Voluntary frozen input used before time expired"
      else .ok (prevtxout, frInp)

def poolInput (st : PoolState) (nValue : ℤ) (sAddress : CString) (frInp : CFractions) :
    PoolState :=
  { st with
    nValueIn := st.nValueIn + nValue
    poolReserves := st.poolReserves.modify sAddress (· + frInp.lowPart call.nSupply)
    poolLiquidity := st.poolLiquidity.modify sAddress (· + frInp.highPart call.nSupply) }

/-- A cold input goes to the output at its own index. The pools give back the whole
input; what the output does not take can only become fees. -/
def coldInput (st : PoolState) (i : ℕ) (out : CTxOut) (sAddress : CString) (frInp : CFractions) :
    Except String PoolState :=
  let frozenTxOut := st.poolFrozen.get i
  if 0 < frozenTxOut.nValue ∨ frozenTxOut.fractions.total ≠ 0 then
    .error "P-I-C-1: Cold notary output has already assigned value"
  else
    let frOut := frInp.ratioPart out.nValue
    let fractions := { frozenTxOut.fractions + frOut with nLockTime := 0 }
    let marked :=
      if frInp.sReturnAddr = out.scriptPubKey.toAddress net then some fractions
      else fractions.setMark net .markColdToFrozen .notaryF call.nBlockTime
    match marked with
    | none => .error "P-I-C-2: Crossing marks are detected"
    | some fractions =>
      .ok { st with
        poolFrozen := st.poolFrozen.insert i
          { frozenTxOut with nValue := out.nValue, fractions, fIsColdOutput := true }
        poolReserves := st.poolReserves.modify sAddress (· - frInp.lowPart call.nSupply)
        poolLiquidity := st.poolLiquidity.modify sAddress (· - frInp.highPart call.nSupply)
        frColdFees := st.frColdFees + (frInp - frOut) }

def notaryMark (sNotary : CString) : Option NotaryMark :=
  if sNotary.startsWith "**F**" then some .notaryF
  else if sNotary.startsWith "**V**" then some .notaryV
  else if sNotary.startsWith "**L**" then some .notaryL
  else if sNotary.startsWith "**C**" then some .notaryC
  else none

def frozenIndex (i : ℕ) (sOutputArg : CString) : Except String ℕ :=
  match sOutputArg.strtol with
  | none => .error "P-I-N-3: Freeze notary: not convertible to output index"
  | some nFrozenIndex =>
    if nFrozenIndex < 0 ∨ (call.nVout : ℤ) ≤ nFrozenIndex then
      .error "P-I-N-3: Freeze notary: not convertible to output index"
    else if nFrozenIndex = i then .error "P-I-N-4: Freeze notary: output refers itself"
    else .ok nFrozenIndex.toNat

def markOutput (nMark : NotaryMark) (sAddress : CString) (poolFrozen : FrozenMap)
    (nFrozenIndex : ℕ) : Except String FrozenMap :=
  let frozenTxOut := poolFrozen.get nFrozenIndex
  if frozenTxOut.fIsColdOutput then .error "P-I-N-5: Output already referenced as cold"
  else
    match frozenTxOut.fractions.setMark net .markSet nMark call.nBlockTime with
    | none => .error "P-I-N-6: Crossing marks are detected"
    | some fractions =>
      .ok (poolFrozen.insert nFrozenIndex
        { frozenTxOut with nValue := call.outValue nFrozenIndex, sAddress, fractions })

def markOutputs (i : ℕ) (nMark : NotaryMark) (sAddress : CString) :
    List CString → FrozenMap → Except String (FrozenMap × List ℕ)
  | [], poolFrozen => .ok (poolFrozen, [])
  | sOutputArg :: rest, poolFrozen => do
    let nFrozenIndex ← frozenIndex call i sOutputArg
    let poolFrozen ← markOutput net call nMark sAddress poolFrozen nFrozenIndex
    let r ← markOutputs i nMark sAddress rest poolFrozen
    .ok (r.1, nFrozenIndex :: r.2)

def setFairWithdraw (poolFrozen : FrozenMap) : List ℕ → FrozenMap
  | [nFrozenIndex1, nFrozenIndex2] =>
    poolFrozen.modify (min nFrozenIndex1 nFrozenIndex2) fun frozenTxOut =>
      { frozenTxOut with
        nFairWithdrawFromEscrowIndex1 := (min nFrozenIndex1 nFrozenIndex2 : ℕ)
        nFairWithdrawFromEscrowIndex2 := (max nFrozenIndex1 nFrozenIndex2 : ℕ) }
  | _ => poolFrozen

def depositFrozen (nMark : NotaryMark) (poolFrozen : FrozenMap) (nFrozenIndex : ℕ)
    (frozenOut : CFractions) (sCrossing : String) : Except String FrozenMap :=
  let frozenTxOut := poolFrozen.get nFrozenIndex
  match (frozenTxOut.fractions + frozenOut).setMark net .markSet nMark call.nBlockTime with
  | none => .error sCrossing
  | some fractions => .ok (poolFrozen.insert nFrozenIndex { frozenTxOut with fractions })

def freezeReserve (st : PoolState) (sAddress : CString) (nFrozenIndex : ℕ) (sCrossing : String) :
    Except String PoolState := do
  let moved := (st.poolReserves.get sAddress).moveRatioPartTo .zeroStd (call.outValue nFrozenIndex)
  let poolFrozen ←
    depositFrozen net call .notaryF st.poolFrozen nFrozenIndex moved.2.2 sCrossing
  .ok { st with poolReserves := st.poolReserves.insert sAddress moved.2.1, poolFrozen }

def freezeLiquidity (nMark : NotaryMark) (st : PoolState) (sAddress : CString)
    (nFrozenIndex : ℕ) (sCrossing : String) : Except String PoolState := do
  let moved := (st.poolLiquidity.get sAddress).moveRatioPartTo .zeroStd (call.outValue nFrozenIndex)
  let poolFrozen ← depositFrozen net call nMark st.poolFrozen nFrozenIndex moved.2.2 sCrossing
  .ok { st with poolLiquidity := st.poolLiquidity.insert sAddress moved.2.1, poolFrozen }

def freezeCold (st : PoolState) (sAddress : CString) (frInp : CFractions) (nFrozenIndex : ℕ) :
    Except String PoolState :=
  if (st.poolFrozen.get nFrozenIndex).fractions.total ≠ 0 then
    .error "P-I-N-12: Cold notary output has already assigned value"
  else if !net.isValidAddress sAddress then
    .error "P-I-N-13: Cold notary: input address is not valid"
  else do
    let frozenOut := frInp.ratioPart (call.outValue nFrozenIndex)
    let poolFrozen ← depositFrozen net call .notaryC st.poolFrozen nFrozenIndex frozenOut
      "P-I-N-14: Crossing marks are detected"
    .ok { st with
      poolFrozen := poolFrozen.modify nFrozenIndex fun frozenTxOut =>
        { frozenTxOut with fractions := { frozenTxOut.fractions with sReturnAddr := sAddress } }
      poolReserves := st.poolReserves.modify sAddress (· - frozenOut.lowPart call.nSupply)
      poolLiquidity := st.poolLiquidity.modify sAddress (· - frozenOut.highPart call.nSupply) }

/-- A notary that refers to one output fills it at once, unless the amount calls for
a shared freeze. The second component is what stays of the input's liquidity. -/
def freezeOutput (nMark : NotaryMark) (st : PoolState) (sAddress : CString) (frInp : CFractions)
    (nFrozenIndex : ℕ) : Except String (PoolState × ℤ) :=
  let nFrozenValueOut := call.outValue nFrozenIndex
  let nReserveIn := (frInp.lowPart call.nSupply).total
  let nLiquidityIn := (frInp.highPart call.nSupply).total
  match nMark with
  | .notaryF =>
    if nReserveIn < nFrozenValueOut then .ok ({ st with fFreezeAll := true }, nLiquidityIn)
    else do
      let st ← freezeReserve net call st sAddress nFrozenIndex
        "P-I-N-9: Crossing marks are detected"
      .ok (st, nLiquidityIn)
  | .notaryV =>
    if nLiquidityIn < nFrozenValueOut then .ok ({ st with fFreezeAll := true }, nLiquidityIn)
    else do
      let st ← freezeLiquidity net call .notaryV st sAddress nFrozenIndex
        "P-I-N-10: Crossing marks are detected"
      .ok (st, nLiquidityIn - nFrozenValueOut)
  | .notaryL =>
    if nLiquidityIn < nFrozenValueOut then
      .error "P-I-N-7: Freeze notary: not enough input liquidity"
    else do
      let st ← freezeLiquidity net call .notaryL st sAddress nFrozenIndex
        "P-I-N-11: Crossing marks are detected"
      .ok (st, nLiquidityIn - nFrozenValueOut)
  | .notaryC =>
    if frInp.total < nFrozenValueOut then
      .error "P-I-N-8: Cold notary: not enough input value"
    else do
      let st ← freezeCold net call st sAddress frInp nFrozenIndex
      let frozenOut := frInp.ratioPart nFrozenValueOut
      .ok (st, nLiquidityIn - (frozenOut.highPart call.nSupply).total)

def notaryInput (st : PoolState) (i : ℕ) (sNotary : CString) (nMark : NotaryMark)
    (sAddress : CString) (frInp : CFractions) : Except String (PoolState × ℤ) :=
  let vOutputArgs := CString.split ':' (sNotary.drop 5)
  if nMark = .notaryC ∧ vOutputArgs.length ≠ 1 then
    .error "P-I-N-2: Cold notary: refer more than one output"
  else do
    let r ← markOutputs net call i nMark sAddress vOutputArgs st.poolFrozen
    let st := { st with poolFrozen := setFairWithdraw r.1 r.2 }
    match r.2 with
    | [nFrozenIndex] => freezeOutput net call nMark st sAddress frInp nFrozenIndex
    | _ =>
      .ok ({ st with fFreezeAll := st.fFreezeAll || decide (1 < vOutputArgs.length) },
        (frInp.highPart call.nSupply).total)

/-- What the output at the index of an input asks for. The second component is what
the input adds to the liquidity that outputs can take. -/
def applyInput (st : PoolState) (i : ℕ) (sAddress : CString) (frInp : CFractions) :
    Except String (PoolState × ℤ) :=
  let nLiquidityIn := (frInp.highPart call.nSupply).total
  match call.tx.vout[i]? with
  | none => .ok (st, nLiquidityIn)
  | some out =>
    match out.scriptPubKey.toNotary with
    | none =>
      if frInp.nFlags.notaryC then do
        let st ← coldInput net call st i out sAddress frInp
        .ok (st, nLiquidityIn - (frInp.highPart call.nSupply).total)
      else .ok (st, nLiquidityIn)
    | some sNotary =>
      if frInp.nFlags.notaryC then .error "P-I-N-1: Can not notary for input cold coins"
      else
        match notaryMark sNotary with
        | none => .ok (st, nLiquidityIn)
        | some nMark => notaryInput net call st i sNotary nMark sAddress frInp

def scanInput (st : PoolState) (inp : CTxIn × ℕ) : Except String PoolState := do
  let r ← readInput call inp.2 inp.1
  let sAddress := r.1.scriptPubKey.toAddress net
  let st := poolInput call st r.1.nValue sAddress r.2
  let applied ← applyInput net call st inp.2 sAddress r.2
  .ok { applied.1 with nLiquidityTotal := applied.1.nLiquidityTotal + applied.2 }

def scanInputs : Except String PoolState := call.inputs.foldlM (scanInput net call) {}

/-! ## Outputs -/

/-- The variables that the output loop carries. `sFailCause` is set when the loop was
left with a failure. -/
structure OutputState where
  nValueOut : ℤ := 0
  frCommonLiquidity : CFractions
  nCommonLiquidity : ℤ
  poolReserves : PoolMap
  mapTestFractionsPool : MapFractions
  sFailCause : Option String := none

def commonLiquidity (poolLiquidity : PoolMap) : CFractions :=
  poolLiquidity.entries.foldl (fun frCommonLiquidity item => frCommonLiquidity + item.2) .zeroStd

/-- Take up to `nValueToTake` from the reserves of the addresses, in their order. The
last component is what is left to take. -/
def takeReserves : List CString → PoolMap → CFractions → ℤ → PoolMap × CFractions × ℤ
  | [], poolReserves, frOut, nValueToTake => (poolReserves, frOut, nValueToTake)
  | sAddress :: rest, poolReserves, frOut, nValueToTake =>
    let frReserve := poolReserves.get sAddress
    let nReserve := frReserve.total
    if sAddress ∉ poolReserves ∨ nReserve = 0 then
      takeReserves rest poolReserves frOut nValueToTake
    else
      let nTake := min nValueToTake nReserve
      let moved := frReserve.moveRatioPartTo frOut nTake
      let poolReserves := poolReserves.insert sAddress moved.2.1
      if nValueToTake - nTake = 0 then (poolReserves, moved.2.2, 0)
      else takeReserves rest poolReserves moved.2.2 (nValueToTake - nTake)

/-- Take from the common liquidity; the loop is left when there is not enough. -/
def takeLiquidity (st : OutputState) (frOut : CFractions) (nValueLeft : ℤ) (sFailCause : String) :
    OutputState × CFractions :=
  if st.nCommonLiquidity < nValueLeft then ({ st with sFailCause := some sFailCause }, frOut)
  else
    let moved := st.frCommonLiquidity.moveRatioPartTo frOut nValueLeft
    ({ st with
      frCommonLiquidity := moved.2.1
      nCommonLiquidity := st.nCommonLiquidity - nValueLeft }, moved.2.2)

/-- Take what the reserves did not cover. -/
def takeLeft (st : OutputState) (frOut : CFractions) (nValueLeft : ℤ) (sFailCause : String) :
    OutputState × CFractions :=
  if 0 < nValueLeft then takeLiquidity st frOut nValueLeft sFailCause else (st, frOut)

/-- How much of a frozen output reserves may cover: for the first of two outputs that
share an escrow, its fair share. `none` when an index is out of range. -/
def fairWithdraw (poolFrozen : FrozenMap) (poolReserves : PoolMap) (i : ℕ) (nValue : ℤ) :
    Option ℤ :=
  let frozenTxOut := poolFrozen.get i
  if frozenTxOut.nFairWithdrawFromEscrowIndex1 = i ∧ poolFrozen.count = 2 then
    let nIndex1 := frozenTxOut.nFairWithdrawFromEscrowIndex1
    let nIndex2 := frozenTxOut.nFairWithdrawFromEscrowIndex2
    if nIndex1 < 0 ∨ nIndex2 < 0 ∨ (call.nVout : ℤ) ≤ nIndex1 ∨ (call.nVout : ℤ) ≤ nIndex2 then none
    else if frozenTxOut.sAddress ∈ poolReserves then
      let nValue1 := (poolFrozen.get nIndex1.toNat).nValue
      let nValue2 := (poolFrozen.get nIndex2.toNat).nValue
      let nReserve := (poolReserves.get frozenTxOut.sAddress).total
      if nReserve ≤ nValue1 + nValue2 ∧ 0 < nValue1 + nValue2 then
        let nScaledValue1 := ratioPart nReserve nValue1 (nValue1 + nValue2)
        let nScaledValue2 := ratioPart nReserve nValue2 (nValue1 + nValue2)
        some (nScaledValue1 + (nReserve - nScaledValue1 - nScaledValue2))
      else some nValue
    else some nValue
  else some nValue

/-- A frozen output of a shared freeze. One that was filled by its input stays as it
is; the others take from the pools of all inputs. -/
def freezeAllOutput (pools : PoolState) (st : OutputState) (i : ℕ) (nValue : ℤ)
    (frOut : CFractions) : Except String (OutputState × CFractions) :=
  let frozenTxOut := pools.poolFrozen.get i
  if 0 < frozenTxOut.fractions.total then .ok (st, frozenTxOut.fractions)
  else if frozenTxOut.fractions.nFlags.notaryV then
    match frOut.setMark net .markSet .notaryV call.nBlockTime with
    | none => .error "P-O-N-1: Crossing marks are detected"
    | some frOut =>
      let moved := st.frCommonLiquidity.moveRatioPartTo frOut nValue
      .ok ({ st with
        frCommonLiquidity := moved.2.1
        nCommonLiquidity := st.nCommonLiquidity - nValue }, moved.2.2)
  else if frozenTxOut.fractions.nFlags.notaryF then
    match frOut.setMark net .markSet .notaryF call.nBlockTime with
    | none => .error "P-O-N-2: Crossing marks are detected"
    | some frOut =>
      match fairWithdraw call pools.poolFrozen st.poolReserves i nValue with
      | none =>
        let sFailCause := "P-O-N-3: Wrong refering output for fair withdraw from escrow"
        .ok ({ st with sFailCause := some sFailCause }, frOut)
      | some nValueToTakeReserves =>
        -- The address that asked for the freeze comes first.
        let vAddresses := frozenTxOut.sAddress ::
          st.poolReserves.keys.filter (· ≠ frozenTxOut.sAddress)
        let taken := takeReserves vAddresses st.poolReserves frOut nValueToTakeReserves
        let nValueLeft := nValue - (nValueToTakeReserves - taken.2.2)
        .ok (takeLeft { st with poolReserves := taken.1 } taken.2.1 nValueLeft
          "P-O-1: No liquidity left")
  else .ok (st, frOut)

def backToReserve (st : OutputState) (sAddress : CString) (nValue : ℤ) (frOut : CFractions) :
    OutputState × CFractions :=
  let frReserve := st.poolReserves.get sAddress
  let nReserve := frReserve.total
  if 0 < nReserve then
    let nValueToTake := min nValue nReserve
    let moved := frReserve.moveRatioPartTo frOut nValueToTake
    takeLeft { st with poolReserves := st.poolReserves.insert sAddress moved.2.1 } moved.2.2
      (nValue - nValueToTake) "P-O-2: No liquidity left"
  else takeLeft st frOut nValue "P-O-2: No liquidity left"

def takesReserves (out : CTxOut) : Bool :=
  out.scriptPubKey.toAddress net = sBurnAddress.toList ∨
    (out.scriptPubKey.addressNotary net).any fun sNotary => !sNotary.startsWith "**Z**"

/-- An output that no notary froze. -/
def plainOutput (st : OutputState) (out : CTxOut) (frOut : CFractions) : OutputState × CFractions :=
  let sAddress := out.scriptPubKey.toAddress net
  if sAddress ∈ st.poolReserves then backToReserve st sAddress out.nValue frOut
  else if takesReserves net out then
    let taken := takeReserves st.poolReserves.keys st.poolReserves frOut out.nValue
    takeLeft { st with poolReserves := taken.1 } taken.2.1 taken.2.2 "P-O-3: No liquidity left"
  else takeLiquidity st frOut out.nValue "P-O-4: No liquidity left"

def StandardCall.outKey (i : ℕ) : UInt320 := ⟨net.getHash call.tx, i⟩

/-- The fractions of an output: prepared by an input, or taken from the pools. -/
def chooseOutput (pools : PoolState) (st : OutputState) (out : CTxOut × ℕ) (frOut : CFractions) :
    Except String (OutputState × CFractions) :=
  if out.2 ∈ pools.poolFrozen then
    if pools.fFreezeAll then freezeAllOutput net call pools st out.2 out.1.nValue frOut
    else .ok (st, (pools.poolFrozen.get out.2).fractions)
  else .ok (plainOutput net st out.1 frOut)

def fillOutput (pools : PoolState) (st : OutputState) (out : CTxOut × ℕ) :
    Except String OutputState :=
  if st.sFailCause.isSome then .ok st
  else do
    let st := { st with nValueOut := st.nValueOut + out.1.nValue }
    let fkey := call.outKey net out.2
    let r ← chooseOutput net call pools st out ((st.mapTestFractionsPool fkey).getD default)
    .ok { r.1 with
      mapTestFractionsPool := Function.update r.1.mapTestFractionsPool fkey (some r.2) }

def fillOutputs (pools : PoolState) : Except String OutputState :=
  call.outputs.foldlM (fillOutput net call pools)
    { frCommonLiquidity := commonLiquidity pools.poolLiquidity
      nCommonLiquidity := pools.nLiquidityTotal
      poolReserves := pools.poolReserves
      mapTestFractionsPool := call.mapTestFractionsPool }

/-! ## Checks on the whole -/

/-- First output whose fractions do not have its value. -/
def mismatchedOutput (pool : MapFractions) : Option ℕ :=
  (call.outputs.find? fun out =>
    let f := (pool (call.outKey net out.2)).getD default
    out.1.nValue ≠ f.total ∨ f.isPositive = false).map (·.2)

def txFeeFractions (pools : PoolState) (st : OutputState) : CFractions :=
  st.poolReserves.entries.foldl (fun fees item => fees + item.2)
    (.zeroStd + st.frCommonLiquidity + pools.frColdFees)

/-- The failure that is reported in the end, later checks over earlier ones. -/
def failCause (pools : PoolState) (st : OutputState) : Option String :=
  let nFee := pools.nValueIn - st.nValueOut
  let fees := txFeeFractions pools st
  if fees.isPositive = false then some "P-G-4: Non-positive fee fractions"
  else if nFee ≠ fees.total then
    some ("P-G-3: Total mismatch on fee fractions " ++ toString nFee ++ " vs " ++
      toString fees.total)
  else if st.sFailCause.isSome then st.sFailCause
  else
    (mismatchedOutput net call st.mapTestFractionsPool).map fun i =>
      "P-G-2: Total mismatch on output " ++ toString i

def placeOutputs (pool : MapFractions) : MapFractions := fun fkey =>
  if fkey.hash = net.getHash call.tx ∧ fkey.n < call.nVout then
    some ((pool fkey).getD default)
  else call.mapInputsFractions fkey

def calculateStandardFractions : Except String StandardResult := do
  let pools ← scanInputs net call
  let st ← fillOutputs net call pools
  match failCause net call pools st with
  | some sFailCause => .error sFailCause
  | none =>
    .ok {
      mapInputsFractions := placeOutputs net call st.mapTestFractionsPool
      mapTestFractionsPool := st.mapTestFractionsPool
      feesFractions := call.feesFractions + txFeeFractions pools st }

end BitBay
