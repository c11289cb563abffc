import BitBay.Base.Types
import BitBay.Library.MapEntries
import BitBay.Library.SortedMultimap
import BitBay.Library.WorkQueue

/-!
# Orphan blocks

`ProcessBlock` keeps a block whose parent it does not have, until the parent is accepted. The
orphans are found by their hash in `mapOrphanBlocks` and by their parent in
`mapOrphanBlocksByPrev`, and `setStakeSeenOrphan` has their proofs of stake. A full pool loses an
orphan that no other orphan waits for. An accepted block brings in the orphans that wait for it,
and those that wait for them.

What the checks of a block say is part of the call: they read the clock and the chain. What the
node asks its peer for is left out.
-/
namespace BitBay

@[reducible] def UInt256.linearOrder : LinearOrder UInt256 where
  le_refl _ := BitVec.le_refl _
  le_trans _ _ _ := BitVec.le_trans
  le_antisymm _ _ := BitVec.le_antisymm
  le_total := BitVec.le_total
  lt_iff_le_not_ge a b := by
    rw [BitVec.lt_def, BitVec.le_def, BitVec.le_def]
    omega
  toDecidableLE := inferInstance
  toDecidableLT := inferInstance
  toDecidableEq := inferInstance

attribute [local instance] UInt256.linearOrder

structure CBlockHeader where
  nVersion : ℤ
  hashPrevBlock : UInt256
  hashMerkleRoot : UInt256
  nTime : ℕ
  nBits : ℕ
  nNonce : ℕ
  deriving DecidableEq

/-- A block with the rest of its header and its signature, as a peer sends it. -/
structure CNetworkBlock extends CBlock where
  nVersion : ℤ := 8
  hashMerkleRoot : UInt256 := 0
  nBits : ℕ := 0
  nNonce : ℕ := 0
  vchBlockSig : List UInt8 := []
  deriving DecidableEq

structure BlockCoding where
  hashHeader : CBlockHeader → UInt256
  isDERSignature : List UInt8 → Bool
  /-- What `CKey::ReserealizeSignature` leaves as the signature. -/
  reserealizeSignature : List UInt8 → List UInt8

/-- The stake of a block without a coinstake: `COutPoint()` and no time. -/
def noStake : COutPoint × ℕ := (⟨0, 2 ^ 32 - 1⟩, 0)

def CNetworkBlock.getProofOfStake (block : CNetworkBlock) : COutPoint × ℕ :=
  match block.vtx[1]? with
  | none => noStake
  | some tx =>
    match tx.isCoinStake, tx.vin with
    | true, txin :: _ => (txin.prevout, tx.nTime)
    | _, _ => noStake

def CNetworkBlock.header (block : CNetworkBlock) : CBlockHeader :=
  ⟨block.nVersion, block.hashPrevBlock, block.hashMerkleRoot, block.nTime, block.nBits,
    block.nNonce⟩

/-- An orphan; the bytes of a block stand for the block that is read from them. -/
structure COrphanBlock where
  hashBlock : UInt256
  hashPrev : UInt256
  stake : COutPoint × ℕ
  vchBlock : CNetworkBlock
  deriving DecidableEq

structure OrphanPool where
  mapOrphanBlocks : SortedMap UInt256 COrphanBlock := ∅
  mapOrphanBlocksByPrev : SortedMultimap UInt256 COrphanBlock := ∅
  setStakeSeenOrphan : Finset (COutPoint × ℕ) := ∅

/-- The index of blocks: their hashes, the stakes of those of proof of stake, and the best one. -/
structure BlockIndex where
  mapBlockIndex : Finset UInt256
  setStakeSeen : Finset (COutPoint × ℕ) := ∅
  hashBestChain : UInt256 := 0

structure ProcessState where
  index : BlockIndex
  orphans : OrphanPool := {}

/-- What `AcceptBlock` comes to, once a block is new and its parent is in the index. -/
inductive AcceptVerdict
  | refused
  /-- The block is in the index, as the best block or not. A failure after that is returned. -/
  | indexed (fBest fAccepted : Bool)

def AcceptVerdict.fAccepted : AcceptVerdict → Bool
  | refused => false
  | indexed _ fAccepted => fAccepted

/-- A call of `ProcessBlock`, with what it reads besides the blocks that the node has. -/
structure BlockCall where
  pblock : CNetworkBlock
  /-- The version of the peer that the block is from, if it is from one. -/
  pfrom : Option ℤ
  fReindex : Bool := false
  fImporting : Bool := false
  /-- The time of the block that `AutoSelectSyncCheckpoint` gives. -/
  nCheckpointTime : ℕ := 0
  checkBlock : CNetworkBlock → Bool
  /-- The setting `-maxorphanblocks`. -/
  nMaxOrphanBlocks : ℤ := 3000
  nRand : ℕ := 0
  acceptVerdict : CNetworkBlock → AcceptVerdict

inductive ProcessError
  | alreadyHave
  | alreadyHaveOrphan
  | duplicateStake
  | beforeCheckpoint
  | badSignature
  | checkBlock
  | duplicateOrphanStake
  | acceptBlock
  deriving DecidableEq

def canonicalBlockSigVersion : ℤ := 60016

section Model

variable (coding : BlockCoding)

def CNetworkBlock.getHash (block : CNetworkBlock) : UInt256 := coding.hashHeader block.header

def isCanonicalBlockSignature (block : CNetworkBlock) : Bool :=
  if block.isProofOfStake then coding.isDERSignature block.vchBlockSig
  else block.vchBlockSig.isEmpty

def reserealizeBlockSignature (block : CNetworkBlock) : CNetworkBlock where
  toCBlock := block.toCBlock
  nVersion := block.nVersion
  hashMerkleRoot := block.hashMerkleRoot
  nBits := block.nBits
  nNonce := block.nNonce
  vchBlockSig :=
    if block.isProofOfStake then coding.reserealizeSignature block.vchBlockSig else []

/-- `AddToBlockIndex`; `hashBestChain` changes when `SetBestChain` succeeds. -/
def BlockIndex.addToBlockIndex (block : CNetworkBlock) (fBest : Bool) (index : BlockIndex) :
    BlockIndex where
  mapBlockIndex := insert (block.getHash coding) index.mapBlockIndex
  setStakeSeen := if block.isProofOfStake then insert block.getProofOfStake index.setStakeSeen
    else index.setStakeSeen
  hashBestChain := if fBest then block.getHash coding else index.hashBestChain

/-- `AcceptBlock`. A block gets into the index only once, and only above a block that is there. -/
def acceptBlock (acceptVerdict : CNetworkBlock → AcceptVerdict) (block : CNetworkBlock)
    (index : BlockIndex) : Bool × BlockIndex :=
  if block.getHash coding ∈ index.mapBlockIndex then (false, index)
  else if block.hashPrevBlock ∉ index.mapBlockIndex then (false, index)
  else
    match acceptVerdict block with
    | .refused => (false, index)
    | .indexed fBest fAccepted => (fAccepted, index.addToBlockIndex coding block fBest)

/-- The place of the first orphan that waits for the orphan at `it`. -/
def OrphanPool.firstDependent (pool : OrphanPool) (it : ℕ) : Option ℕ :=
  pool.mapOrphanBlocksByPrev.entries[it]?.bind fun e =>
    pool.mapOrphanBlocksByPrev.find e.2.hashBlock

/-- `PruneOrphanBlocks`; `none` when the walk to a dependent does not end. -/
def pruneOrphanBlocks (nMaxOrphanBlocks : ℤ) (nRand : ℕ) (pool : OrphanPool) :
    Option OrphanPool := do
  let size := pool.mapOrphanBlocksByPrev.size
  if size ≤ (max 0 nMaxOrphanBlocks).toNat then some pool
  else
    let it ← WorkQueue.follow pool.firstDependent size (nRand % size)
    let e ← pool.mapOrphanBlocksByPrev.entries[it]?
    some {
      mapOrphanBlocks := pool.mapOrphanBlocks.erase e.2.hashBlock
      mapOrphanBlocksByPrev := pool.mapOrphanBlocksByPrev.eraseAt it
      setStakeSeenOrphan := pool.setStakeSeenOrphan.erase e.2.stake }

def COrphanBlock.ofBlock (block : CNetworkBlock) : COrphanBlock where
  hashBlock := block.getHash coding
  hashPrev := block.hashPrevBlock
  stake := block.getProofOfStake
  vchBlock := block

/-- Enter a new orphan. An entry that `mapOrphanBlocks` has for the hash stays. -/
def OrphanPool.insertOrphan (orphan : COrphanBlock) (pool : OrphanPool) : OrphanPool where
  mapOrphanBlocks := if (pool.mapOrphanBlocks.lookup orphan.hashBlock).isSome then
      pool.mapOrphanBlocks else pool.mapOrphanBlocks.insert orphan.hashBlock orphan
  mapOrphanBlocksByPrev := pool.mapOrphanBlocksByPrev.insert orphan.hashPrev orphan
  setStakeSeenOrphan := if orphan.vchBlock.isProofOfStake then
      insert orphan.stake pool.setStakeSeenOrphan else pool.setStakeSeenOrphan

/-- A duplicate stake is allowed only when there is an orphan child block. -/
def OrphanPool.duplicateStake (seen : Finset (COutPoint × ℕ)) (block : CNetworkBlock)
    (pool : OrphanPool) : Bool :=
  block.isProofOfStake ∧ block.getProofOfStake ∈ seen ∧
    pool.mapOrphanBlocksByPrev.count (block.getHash coding) = 0

/-- A block without its parent. It is kept when there is a peer to ask for the parent. -/
def holdOrphan (call : BlockCall) (block : CNetworkBlock) (pool : OrphanPool) :
    Option (Except ProcessError (List UInt256) × OrphanPool) :=
  match call.pfrom with
  | none => some (.ok [], pool)
  | some _ =>
    if pool.duplicateStake coding pool.setStakeSeenOrphan block then
      some (.error .duplicateOrphanStake, pool)
    else
      (pruneOrphanBlocks call.nMaxOrphanBlocks call.nRand pool).map fun pruned =>
        (.ok [], pruned.insertOrphan (.ofBlock coding block))

def connectOrphan (acceptVerdict : CNetworkBlock → AcceptVerdict) :
    ProcessState × List UInt256 → COrphanBlock → ProcessState × List UInt256
  | (st, vWorkQueue), orphan =>
    let block := orphan.vchBlock
    let (fAccepted, index) := acceptBlock coding acceptVerdict block st.index
    ({ index
       orphans := { st.orphans with
         mapOrphanBlocks := st.orphans.mapOrphanBlocks.erase orphan.hashBlock
         setStakeSeenOrphan := st.orphans.setStakeSeenOrphan.erase block.getProofOfStake } },
      if fAccepted then vWorkQueue ++ [orphan.hashBlock] else vWorkQueue)

/-- A turn of the loop over `vWorkQueue`: the orphans of a parent are connected and deleted. -/
def connectBelow (acceptVerdict : CNetworkBlock → AcceptVerdict) (hashPrev : UInt256)
    (st : ProcessState) (vWorkQueue : List UInt256) : ProcessState × List UInt256 :=
  let below := st.orphans.mapOrphanBlocksByPrev.equalRange hashPrev
  let (st, vWorkQueue) := below.foldl (connectOrphan coding acceptVerdict) (st, vWorkQueue)
  ({ st with orphans := { st.orphans with
      mapOrphanBlocksByPrev := st.orphans.mapOrphanBlocksByPrev.eraseKey hashPrev } }, vWorkQueue)

def connectOrphans (acceptVerdict : CNetworkBlock → AcceptVerdict) :
    ℕ → ProcessState → List UInt256 → Option (ProcessState × List UInt256)
  | _, st, [] => some (st, [])
  | 0, _, _ :: _ => none
  | fuel + 1, st, hashPrev :: rest =>
    let (st, vWorkQueue) := connectBelow coding acceptVerdict hashPrev st rest
    (connectOrphans acceptVerdict fuel st vWorkQueue).map fun (st, keys) => (st, hashPrev :: keys)

/-- The checks of `ProcessBlock` before it looks for the parent. The signature of the block that
they leave is canonical, as far as `ReserealizeBlockSignature` could make it so. -/
def preliminaryChecks (call : BlockCall) (st : ProcessState) : Except ProcessError CNetworkBlock :=
  let hash := call.pblock.getHash coding
  if hash ∈ st.index.mapBlockIndex then .error .alreadyHave
  else if (st.orphans.mapOrphanBlocks.lookup hash).isSome then .error .alreadyHaveOrphan
  else if !call.fReindex && !call.fImporting &&
      st.orphans.duplicateStake coding st.index.setStakeSeen call.pblock then
    .error .duplicateStake
  else if call.pblock.hashPrevBlock ≠ st.index.hashBestChain ∧
      (call.pblock.nTime : ℤ) - call.nCheckpointTime < 0 then
    .error .beforeCheckpoint
  else if !isCanonicalBlockSignature coding call.pblock &&
      call.pfrom.any (fun nVersion => canonicalBlockSigVersion ≤ nVersion) then
    .error .badSignature
  else
    let block := if isCanonicalBlockSignature coding call.pblock then call.pblock
      else reserealizeBlockSignature coding call.pblock
    if call.checkBlock block then .ok block else .error .checkBlock

/-- `ProcessBlock`, with the hashes of the blocks that it accepts; `none` when it does not end. -/
def processBlock (call : BlockCall) (st : ProcessState) :
    Option (Except ProcessError (List UInt256) × ProcessState) :=
  match preliminaryChecks coding call st with
  | .error e => some (.error e, st)
  | .ok block =>
    if block.hashPrevBlock ∉ st.index.mapBlockIndex then
      (holdOrphan coding call block st.orphans).map fun (result, orphans) =>
        (result, { st with orphans })
    else
      match acceptBlock coding call.acceptVerdict block st.index with
      | (false, index) => some (.error .acceptBlock, { st with index })
      | (true, index) =>
        -- every turn takes a hash that was pushed for the block or for an orphan
        (connectOrphans coding call.acceptVerdict (st.orphans.mapOrphanBlocksByPrev.size + 1)
          { st with index } [block.getHash coding]).map fun (st, vWorkQueue) => (.ok vWorkQueue, st)

/-- A sequence of calls, with the hashes of all blocks that they accept. -/
def processBlocks (st : ProcessState) : List BlockCall → Option (ProcessState × List UInt256)
  | [] => some (st, [])
  | call :: calls => do
    let (result, mid) ← processBlock coding call st
    let (last, accepted) ← processBlocks mid calls
    some (last, result.toOption.getD [] ++ accepted)

end Model
end BitBay
