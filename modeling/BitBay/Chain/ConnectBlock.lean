import BitBay.Chain.BridgePools
import BitBay.Chain.ConnectInputs

/-!
# Connecting a block

`ConnectBlock` checks a block against the state of the chain below it: it fetches and
connects every transaction, pays the stake, and writes the changed index entries and
fractions. A node that prunes erases the fractions that an old block has spent.
`DisconnectBlock` takes a block back.

What the governance of the branch decided by then is given as a `BlockContext`.
-/
namespace BitBay

def PEG_PRUNE_INTERVAL : ℕ := 10000

namespace CTransaction

/-- `GetValueBurn`: what the outputs that start with `OP_RETURN` hold. -/
def getValueBurn (tx : CTransaction) : ℤ :=
  ((tx.vout.filter fun txout =>
    (CScript.getOp txout.scriptPubKey).any fun op => op.1 = CScript.OP_RETURN).map (·.nValue)).sum

def checkTransaction (tx : CTransaction) : Bool :=
  tx.vin ≠ [] ∧ tx.vout ≠ [] ∧
    (∀ txout ∈ tx.vout, txout.isEmpty → tx.isCoinBase ∨ tx.isCoinStake ∨ tx.isCoinMint) ∧
    tx.getValueOut.isSome ∧ (tx.vin.map (·.prevout)).Nodup ∧
    if tx.isCoinBase then
      ∀ inp ∈ tx.vin, 2 ≤ inp.scriptSig.length ∧ inp.scriptSig.length ≤ 100
    else tx.isCoinMint ∨ ∀ inp ∈ tx.vin, inp.prevout.isNull = false

end CTransaction

structure BlockRules extends ScriptRules, TxSource where
  /-- Limits, proof of work, time, signature and merkle root of `CheckBlock`. -/
  checkBlock : CBlock → Bool
  maxBlockSigOps : ℕ
  legacySigOps : CTransaction → ℕ
  p2shSigOps : CTransaction → MapPrevTx → ℕ
  /-- Bytes of a block before its transactions, by their number, and bytes of one. -/
  headerSize : ℕ → ℕ
  txSize : CTransaction → ℕ
  headerSize_gt : ∀ n, 80 < headerSize n
  proofOfWorkReward : ℤ → ℤ
  /-- `GetProofOfStakeReward` by the indices below the block, the places of transactions, the
  coinstake, the fees and the fractions of the stake. -/
  proofOfStakeReward : List CBlockIndex → (UInt256 → Option CDiskTxPos) → CTransaction → ℤ →
    CFractions → Option ℤ

structure DiskBlock where
  block : CBlock
  nFile : ℕ
  nBlockPos : ℕ

structure BlockContext where
  bridges : CString → Option CBridgeInfo
  fnMerkleIn : CString → Option CMerkleInfo
  timelockpasses : Finset CString
  /-- The bridges of the peg cycle. -/
  poolBridges : List UInt256
  /-- The blocks of the bridge cycle whose burns the block adds. -/
  burnCycle : List BurnBlock
  fBelowCheckpoint : Bool
  /-- The best block of the node, which a reorganisation keeps to its end, and what is below. -/
  pindexBest : List CBlockIndex

structure ChainEntry where
  disk : DiskBlock
  pindex : CBlockIndex
  nMint : ℤ
  nMoneySupply : ℤ

structure Stores where
  txdb : TxIndexMap
  pegdb : MapFractions
  fPegPruneEnabled : Bool := true

structure BlockState where
  mapInputs : ℕ → MapPrevTx := fun _ _ => none
  mapInputsFractions : ℕ → MapFractions := fun _ _ => none
  mapQueuedChanges : TxIndexMap := fun _ => none
  mapQueuedFractionsChanges : MapFractions
  feesFractions : CFractions := {}
  nFees : ℤ := 0
  nValueIn : ℤ := 0
  nValueOut : ℤ := 0
  nValueBurn : ℤ := 0
  nStakeReward : ℤ := 0
  nSigOps : ℕ := 0
  nTxPos : ℕ

def overlay {κ ν : Type} (store changes : κ → Option ν) : κ → Option ν := fun k =>
  (changes k).or (store k)

section Model

variable (net : Params) (votes : VoteParams) (bp : BridgeParams) (rules : BlockRules)
  (nBridgeInterval : ℕ)

def checkBlock (block : CBlock) : Bool :=
  rules.checkBlock block ∧
    (block.vtx.head?.any CTransaction.isCoinBase) ∧
    (∀ tx ∈ block.vtx.tail, tx.isCoinBase = false) ∧
    (block.isProofOfStake →
      ((block.vtx.head?.any fun tx => tx.vout.length = 1 ∧ tx.vout.all CTxOut.isEmpty) ∧
        ∀ tx ∈ block.vtx.drop 2, tx.isCoinStake = false)) ∧
    (∀ tx ∈ block.vtx, tx.checkTransaction ∧ tx.nTime ≤ block.nTime) ∧
    (block.vtx.map net.getHash).Nodup

def blockFlags (nTime : ℕ) : ℕ := if rules.isProtocolV3 nTime then 0b1111011 else 0b0000001

section Transactions

variable (ctx : BlockContext) (st : Stores) (place : BlockPlace) (disk : DiskBlock)

/-- A block must not overwrite a transaction that has an unspent output. -/
def overwrites (tx : CTransaction) : Bool :=
  (st.txdb (net.getHash tx)).any fun txindexOld => txindexOld.vSpent.any (·.isNull)

def blockFetch (s : BlockState) (tx : CTransaction) (nBridgePoolNout : ℕ) : FetchCall where
  tx
  txdb := st.txdb
  pegdb := st.pegdb
  nBridgePoolNout
  fBridgePoolMustInTestPool := true
  bridges := ctx.bridges
  fnMerkleIn := ctx.fnMerkleIn
  mapTestPool := s.mapQueuedChanges
  mapTestFractionsPool := s.mapQueuedFractionsChanges
  fBlock := true
  fMiner := false
  nBlockTime := disk.block.nTime
  fSkipPruned := false
  pindexBest := ctx.pindexBest

def blockConnect (s : BlockState) (tx : CTransaction) (maps : MapPrevTx × MapFractions) :
    ConnectCall where
  tx
  nTimeFetched := tx.fetchedTime disk.block.nTime
  inputs := maps.1
  finputs := maps.2
  mapTestPool := s.mapQueuedChanges
  mapTestFractionsPool := s.mapQueuedFractionsChanges
  nBridgePoolNout := place.nHeight
  bridges := ctx.bridges
  fnMerkleIn := ctx.fnMerkleIn
  timelockpasses := ctx.timelockpasses
  feesFractions := s.feesFractions
  posThisTx := ⟨disk.nFile, disk.nBlockPos, s.nTxPos⟩
  pindexBlock := place
  fBlock := true
  fMiner := false
  fBelowCheckpoint := ctx.fBelowCheckpoint
  flags := blockFlags rules disk.block.nTime

def BlockState.addValues (s : BlockState) (tx : CTransaction)
    (nTxValueIn nTxValueOut : ℤ) : BlockState :=
  { s with
    nValueIn := s.nValueIn + nTxValueIn
    nValueOut := s.nValueOut + nTxValueOut
    nValueBurn := s.nValueBurn + tx.getValueBurn
    nFees := if tx.isCoinStake then s.nFees else s.nFees + (nTxValueIn - nTxValueOut)
    nStakeReward := if tx.isCoinStake then nTxValueOut - nTxValueIn else s.nStakeReward }

def BlockState.addConnected (s : BlockState) (i : ℕ) (inputs : MapPrevTx) (r : ConnectResult) :
    BlockState :=
  { s with
    mapInputs := Function.update s.mapInputs i inputs
    mapInputsFractions := Function.update s.mapInputsFractions i r.finputs
    mapQueuedChanges := r.mapTestPool
    mapQueuedFractionsChanges := r.mapTestFractionsPool
    feesFractions := r.feesFractions }

/-- Fetch and connect a transaction that is no coinbase. -/
def connectTxInputs (s : BlockState) (tx : CTransaction) (i : ℕ) : Option BlockState :=
  match fetchInputs votes bp rules.toTxSource (blockFetch ctx st disk s tx place.nHeight)
      (fun _ => none) (fun _ => none) with
  | .error _ => none
  | .ok maps =>
    if rules.maxBlockSigOps < s.nSigOps + rules.p2shSigOps tx maps.1 then none
    else do
      let nTxValueIn ← tx.getValueIn maps.1
      let nTxValueOut ← tx.getValueOut
      let s := ({ s with nSigOps := s.nSigOps + rules.p2shSigOps tx maps.1 }).addValues tx
        nTxValueIn nTxValueOut
      let r ← connectInputs net votes bp rules.toScriptRules
        (blockConnect rules ctx place disk s tx maps)
      return s.addConnected i maps.1 r

/-- The transaction enters the index, and the next one starts behind it. -/
def BlockState.addIndex (s : BlockState) (tx : CTransaction) (i : ℕ) : BlockState :=
  { s with
    mapQueuedChanges := Function.update s.mapQueuedChanges (net.getHash tx)
      (some (.ofTx ⟨disk.nFile, disk.nBlockPos, s.nTxPos⟩ tx.vout.length place.nHeight i))
    nTxPos := s.nTxPos + rules.txSize tx }

def connectTx (s : BlockState) (tx : CTransaction × ℕ) : Option BlockState :=
  if overwrites net st tx.1 ∨ rules.maxBlockSigOps < s.nSigOps + rules.legacySigOps tx.1 then none
  else do
    let s := { s with nSigOps := s.nSigOps + rules.legacySigOps tx.1 }
    let s ← if tx.1.isCoinBase then
        (tx.1.getValueOut).map fun nTxValueOut => { s with nValueOut := s.nValueOut + nTxValueOut }
      else connectTxInputs net votes bp rules ctx st place disk s tx.1 tx.2
    return s.addIndex net rules place disk tx.1 tx.2

def connectTxs (queue : MapFractions) : Option BlockState :=
  disk.block.vtx.zipIdx.foldlM (connectTx net votes bp rules ctx st place disk)
    { mapQueuedFractionsChanges := queue
      nTxPos := disk.nBlockPos + rules.headerSize disk.block.vtx.length }

def stakingCall (s : BlockState) (tx : CTransaction) (maps : MapPrevTx × MapFractions)
    (nReward : ℤ) : StakingCall where
  tx
  mapInputs := mapPrevOut tx maps.1
  fInputs := maps.2
  mapTestFractionsPool := s.mapQueuedFractionsChanges
  feesFractions := s.feesFractions
  nCalculatedStakeRewardWithoutFees := nReward

def connectStake (indices : List CBlockIndex) (s : BlockState) (tx : CTransaction) :
    Option BlockState :=
  match tx.vin.head?, fetchInputs votes bp rules.toTxSource (blockFetch ctx st disk s tx 0)
      (s.mapInputs 1) (s.mapInputsFractions 1) with
  | some inp, .ok maps => do
    let frStake ← maps.2 inp.prevout.fkey
    let places : UInt256 → Option CDiskTxPos := fun hash => (st.txdb hash).map (·.pos)
    let nCalculatedStakeReward ← rules.proofOfStakeReward indices places tx s.nFees frStake
    let nWithoutFee ← rules.proofOfStakeReward indices places tx 0 frStake
    if nCalculatedStakeReward < s.nStakeReward then none
    else if place.nHeight < votes.nPegStartHeight then return s
    else
      let r := calculateStakingFractions_v2 net (stakingCall s tx maps nWithoutFee)
      if r.sFailCause.isSome then none
      else return { s with mapQueuedFractionsChanges := r.mapTestFractionsPool }
  | _, _ => none

/-- The reward: a coinbase must not exceed it, a coinstake is paid with it. -/
def connectReward (indices : List CBlockIndex) (s : BlockState) : Option BlockState :=
  match disk.block.vtx[1]? with
  | some tx =>
    if disk.block.isProofOfStake then
      connectStake net votes bp rules ctx st place disk indices s tx
    else checkWork s
  | none => checkWork s
where
  checkWork (s : BlockState) : Option BlockState :=
    match disk.block.vtx.head?.bind CTransaction.getValueOut with
    | none => none
    | some nValueOut => if rules.proofOfWorkReward s.nFees < nValueOut then none else some s

end Transactions

/-! ## Pruning -/

/-- The outputs of a coinstake that are erased with its block: those without value, notaries
and votes. -/
def prunesOutput (out : CTxOut) : Bool :=
  out.nValue = 0 ∨
    if net.destinations out.scriptPubKey = [] then out.scriptPubKey.toNotary.isSome
    else (net.destinations out.scriptPubKey).any fun str_addr =>
      str_addr = votes.pegInflateAddr ∨ str_addr = votes.pegDeflateAddr ∨
        str_addr = votes.pegNochangeAddr

def pruneErases (block : CBlock) (fkey : UInt320) : Bool :=
  block.vtx.any fun tx =>
    (tx.vin.any fun inp => inp.prevout.fkey = fkey) ∨
      tx.isCoinStake ∧ fkey.hash = net.getHash tx ∧
        tx.vout[fkey.n]?.any (prunesOutput net votes)

def prunePegForBlock (block : CBlock) (pegdb : MapFractions) : MapFractions := fun fkey =>
  if pruneErases net votes block fkey then none else pegdb fkey

def blockToPrune (chain : List ChainEntry) (nHeight : ℕ) : Option CBlock :=
  if nHeight ≤ PEG_PRUNE_INTERVAL ∨ nHeight - PEG_PRUNE_INTERVAL < votes.nPegStartHeight then none
  else ((chain.dropWhile fun e => nHeight - PEG_PRUNE_INTERVAL < e.pindex.nHeight).head?).map
    fun e => e.disk.block

def prunePeg (fPegPruneEnabled : Bool) (chain : List ChainEntry) (nHeight : ℕ)
    (pegdb : MapFractions) : MapFractions :=
  if fPegPruneEnabled then
    ((blockToPrune votes chain nHeight).map fun block => prunePegForBlock net votes block pegdb).getD
      pegdb
  else pegdb

/-! ## Blocks -/

def nextPlace (chain : List ChainEntry) (disk : DiskBlock) (nPegSupplyIndex : ℤ) : BlockPlace where
  nHeight := nextHeight (chain.map (·.pindex))
  nPegSupplyIndex
  nTime := disk.block.nTime
  positions := (disk.nFile, disk.nBlockPos) :: chain.map fun e => (e.disk.nFile, e.disk.nBlockPos)

def bridgePools (ctx : BlockContext) (pegdb : MapFractions) (nHeight : ℕ) : Option MapFractions := do
  let queue ← fetchBridgePoolsFractions votes pegdb nHeight ctx.poolBridges fun _ => none
  connectBridgeCycleBurns votes nBridgeInterval pegdb nHeight ctx.burnCycle queue

def connectBody (ctx : BlockContext) (st : Stores) (chain : List ChainEntry)
    (disk : DiskBlock) (nPegSupplyIndex : ℤ) : Option BlockState := do
  let place := nextPlace chain disk nPegSupplyIndex
  let queue ← bridgePools votes nBridgeInterval ctx st.pegdb place.nHeight
  let s ← connectTxs net votes bp rules ctx st place disk queue
  connectReward net votes bp rules ctx st place disk (chain.map (·.pindex)) s

/-- `ConnectBlock` for the block behind the chain; `none` when it fails. -/
def connectBlockState (ctx : BlockContext) (st : Stores) (chain : List ChainEntry)
    (disk : DiskBlock) : Option (Stores × ChainEntry) :=
  if checkBlock net rules disk.block = false then none
  else do
    let indices := chain.map (·.pindex)
    let nPegSupplyIndex ← calculateBlockPegIndex votes indices
    let nHeight := nextHeight indices
    let s ← connectBody net votes bp rules nBridgeInterval ctx st chain disk nPegSupplyIndex
    let nPegVotes ← calculateBlockPegVotes net votes disk.block st.pegdb nHeight nPegSupplyIndex
      indices
    let entry : ChainEntry := {
      disk
      pindex := { nHeight, nPegSupplyIndex, nPegVotes }
      nMint := s.nValueOut - s.nValueIn + s.nFees
      nMoneySupply :=
        ((chain.head?).map (·.nMoneySupply)).getD 0 + s.nValueOut - s.nValueIn - s.nValueBurn }
    return ({ st with
      txdb := overlay st.txdb s.mapQueuedChanges
      pegdb := prunePeg net votes st.fPegPruneEnabled (entry :: chain) nHeight
        (overlay st.pegdb s.mapQueuedFractionsChanges) }, entry)

/-! ## Disconnecting -/

def unspendInput (txdb : TxIndexMap) (inp : CTxIn) : Option TxIndexMap :=
  match txdb inp.prevout.hash with
  | none => none
  | some txindex =>
    if (rules.readTx txindex.pos).isNone ∨ txindex.vSpent.length ≤ inp.prevout.n then none
    else some (Function.update txdb inp.prevout.hash
      (some { txindex with vSpent := txindex.vSpent.set inp.prevout.n .null }))

def disconnectTx (st : Stores) (tx : CTransaction) : Option Stores := do
  let txdb ← if tx.isCoinBase ∨ tx.isCoinMint then some st.txdb
    else tx.vin.foldlM (unspendInput rules) st.txdb
  return { st with
    txdb := Function.update txdb (net.getHash tx) none
    pegdb := fun fkey =>
      if fkey.hash = net.getHash tx ∧ fkey.n < tx.vout.length then none else st.pegdb fkey }

/-- `DisconnectBlock`: the transactions from the last one to the first one. -/
def disconnectBlockState (st : Stores) (block : CBlock) : Option Stores :=
  block.vtx.reverse.foldlM (disconnectTx net rules) st

end Model

end BitBay
