import BitBay.Chain.FetchInputs
import BitBay.Peg.Staking

/-!
# Connecting a transaction

`ConnectInputs` checks the fetched inputs of a transaction, distributes their fractions and
marks the spent outputs in the index. The fractions of a mint are calculated before the
signatures, those of a standard transaction after them, since a signature of a pass lifts
the time lock of its input. The fractions of a coinstake are left to the block.
-/
namespace BitBay

def MAX_MONEY : ℤ := 2000000000 * 100000000

def moneyRange (nValue : ℤ) : Bool := 0 ≤ nValue ∧ nValue ≤ MAX_MONEY

namespace CTransaction

/-- `GetValueOut`; `none` when it throws. -/
def getValueOut (tx : CTransaction) : Option ℤ :=
  tx.vout.foldlM (fun nValueOut txout =>
    if moneyRange txout.nValue ∧ moneyRange (nValueOut + txout.nValue) then
      some (nValueOut + txout.nValue) else none) 0

def getOutputFor (inputs : MapPrevTx) (input : CTxIn) : Option CTxOut :=
  (inputs input.prevout.hash).bind fun prev => prev.tx.vout[input.prevout.n]?

/-- `GetValueIn`; `none` when it throws. -/
def getValueIn (tx : CTransaction) (inputs : MapPrevTx) : Option ℤ :=
  if tx.isCoinBase then some 0
  else tx.vin.foldlM (fun nResult input =>
    (getOutputFor inputs input).map fun txout => nResult + txout.nValue) 0

end CTransaction

def mapPrevOut (tx : CTransaction) (inputs : MapPrevTx) : MapPrevOut := fun fkey =>
  if tx.isCoinBase = false ∧ fkey ∈ tx.vin.map fun inp => inp.prevout.fkey then
    (inputs fkey.hash).bind fun prev => prev.tx.vout[fkey.n]?
  else none

structure ScriptRules where
  /-- `VerifySignature(txPrev, tx, nIn, flags)` with the public keys that signed. -/
  verifySignature : CTransaction → CTransaction → ℕ → ℕ → Option (Finset CString)
  isProtocolV3 : ℕ → Bool
  coinbaseMaturity : ℕ

structure BlockPlace where
  nHeight : ℕ
  nPegSupplyIndex : ℤ
  nTime : ℕ
  /-- Files and positions of this block and of those below it, from the top down. -/
  positions : List (ℕ × ℕ)

structure ConnectCall where
  tx : CTransaction
  nTimeFetched : ℕ
  inputs : MapPrevTx
  finputs : MapFractions
  mapTestPool : TxIndexMap
  mapTestFractionsPool : MapFractions
  nBridgePoolNout : ℕ
  bridges : CString → Option CBridgeInfo
  fnMerkleIn : CString → Option CMerkleInfo
  timelockpasses : Finset CString
  feesFractions : CFractions
  posThisTx : CDiskTxPos
  pindexBlock : BlockPlace
  fBlock : Bool
  fMiner : Bool
  /-- Whether the best chain is below the last checkpoint. -/
  fBelowCheckpoint : Bool
  flags : ℕ

structure ConnectResult where
  finputs : MapFractions
  mapTestPool : TxIndexMap
  mapTestFractionsPool : MapFractions
  feesFractions : CFractions

structure SignState where
  inputs : MapPrevTx
  mapTestPool : TxIndexMap
  sTimeLockPassInputs : Finset ℕ := ∅

def isConfirmedInNPrevBlocks (txindex : CTxIndex) (positions : List (ℕ × ℕ)) (nMaxDepth : ℕ) :
    Bool :=
  (positions.take nMaxDepth).any fun pos => pos = (txindex.pos.nFile, txindex.pos.nBlockPos)

section Model

variable (net : Params) (votes : VoteParams) (bp : BridgeParams) (rules : ScriptRules)
  (call : ConnectCall)

/-- The checks on one input before the signatures, with the value it adds. -/
def checkInput (nValueIn : ℤ) (inp : CTxIn) : Option ℤ :=
  match call.inputs inp.prevout.hash with
  | none => none
  | some prev =>
    match prev.tx.vout[inp.prevout.n]? with
    | none => none
    | some txout =>
      if prev.txindex.vSpent.length ≤ inp.prevout.n then none
      else if (prev.tx.isCoinBase ∨ prev.tx.isCoinStake) ∧
          isConfirmedInNPrevBlocks prev.txindex call.pindexBlock.positions
            rules.coinbaseMaturity then none
      else if call.nTimeFetched < prev.nTimeFetched then none
      else if rules.isProtocolV3 call.pindexBlock.nTime ∧ txout.isEmpty then none
      else if moneyRange txout.nValue ∧ moneyRange (nValueIn + txout.nValue) then
        some (nValueIn + txout.nValue)
      else none

def checkInputs : Option ℤ := call.tx.vin.foldlM (checkInput rules call) 0

def ConnectCall.mintCall : MintCall where
  tx := call.tx
  bridges := call.bridges
  fnMerkleIn := call.fnMerkleIn
  nBridgePoolNout := call.nBridgePoolNout
  mapInputs := mapPrevOut call.tx call.inputs
  mapInputsFractions := call.finputs
  mapTestFractionsPool := call.mapTestFractionsPool
  feesFractions := call.feesFractions

def connectMint (r : ConnectResult) : Option ConnectResult :=
  if call.tx.isCoinMint ∧ votes.nPegStartHeight ≤ call.pindexBlock.nHeight then
    match calculateCoinMintFractions net bp call.mintCall with
    | none => none
    | some m =>
      if m.sFailCause.isSome then none
      else some { r with
        finputs := m.mapInputsFractions
        mapTestFractionsPool := m.mapTestFractionsPool
        feesFractions := m.feesFractions }
  else some r

/-- The public keys that signed an input. A mint has no signatures; below the checkpoints of
a block none is verified and every time lock is lifted. -/
def signInput (prev : PrevTx) (i : ℕ) : Option (Finset CString × Bool) :=
  if call.tx.isCoinMint then some (∅, false)
  else if call.fBlock ∧ call.fBelowCheckpoint then some (∅, true)
  else (rules.verifySignature prev.tx call.tx i call.flags).map fun pubkeys => (pubkeys, false)

/-- One round of the second loop: the output must be unspent, and is marked as spent. -/
def spendInput (st : SignState) (inp : CTxIn × ℕ) : Option SignState :=
  let hash := inp.1.prevout.hash
  match st.inputs hash with
  | none => none
  | some prev =>
    if prev.txindex.vSpent[inp.1.prevout.n]?.any (·.isNull) = false then none
    else
      match signInput rules call prev inp.2 with
      | none => none
      | some (sSignedPubks, fPassed) =>
        let txindex := { prev.txindex with
          vSpent := prev.txindex.vSpent.set inp.1.prevout.n call.posThisTx }
        let fPass : Bool := fPassed ∨ (sSignedPubks ∩ call.timelockpasses).Nonempty
        some {
          inputs := Function.update st.inputs hash (some { prev with txindex })
          mapTestPool := if call.fBlock ∨ call.fMiner then
              Function.update st.mapTestPool hash (some txindex)
            else st.mapTestPool
          sTimeLockPassInputs := if fPass then insert inp.2 st.sTimeLockPassInputs
            else st.sTimeLockPassInputs }

def spendInputs : Option SignState :=
  call.tx.vin.zipIdx.foldlM (spendInput rules call)
    { inputs := call.inputs, mapTestPool := call.mapTestPool }

def ConnectCall.standardCall (sTimeLockPassInputs : Finset ℕ) : StandardCall where
  tx := call.tx
  nSupply := call.pindexBlock.nPegSupplyIndex.toNat
  nBlockTime := call.pindexBlock.nTime
  mapInputs := mapPrevOut call.tx call.inputs
  mapInputsFractions := call.finputs
  setTimeLockPass := sTimeLockPassInputs
  mapTestFractionsPool := call.mapTestFractionsPool
  feesFractions := call.feesFractions

def connectStandard (sTimeLockPassInputs : Finset ℕ) (r : ConnectResult) : Option ConnectResult :=
  if !call.tx.isCoinStake ∧ !call.tx.isCoinMint ∧
      votes.nPegStartHeight ≤ call.pindexBlock.nHeight then
    match calculateStandardFractions net (call.standardCall sTimeLockPassInputs) with
    | .error _ => none
    | .ok s => some { r with
        finputs := s.mapInputsFractions
        mapTestFractionsPool := s.mapTestFractionsPool
        feesFractions := s.feesFractions }
  else some r

/-- The checks on the fee; a coinstake has none. -/
def checkFee (nValueIn : ℤ) : Bool :=
  call.tx.isCoinStake ∨
    call.tx.getValueOut.any fun nValueOut => nValueOut ≤ nValueIn ∧ moneyRange (nValueIn - nValueOut)

/-- `ConnectInputs`; `none` when it fails. -/
def connectInputs : Option ConnectResult :=
  let start : ConnectResult :=
    { finputs := call.finputs
      mapTestPool := call.mapTestPool
      mapTestFractionsPool := call.mapTestFractionsPool
      feesFractions := call.feesFractions }
  if call.tx.isCoinBase then some start
  else do
    let nValueIn ← checkInputs rules call
    let minted ← connectMint net votes bp call start
    let signed ← spendInputs rules call
    let r ← connectStandard net votes call signed.sTimeLockPassInputs
      { minted with mapTestPool := signed.mapTestPool }
    if checkFee call nValueIn then some r else none

end Model

end BitBay
