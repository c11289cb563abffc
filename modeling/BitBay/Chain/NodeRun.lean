import BitBay.Chain.IndexEntries
import Mathlib.Logic.Relation

/-!
# Runs of a node

A node holds its chain from the tip down and its stores. It starts with genesis and an empty
index, connects blocks to the chain and takes them back. A `BlockRun` connects blocks to a given
chain and keeps what every one was connected to.
-/
namespace BitBay

open Run

structure Node where
  chain : List ChainEntry
  stores : Stores

section Model

variable (net : Params) (votes : VoteParams) (bp : BridgeParams) (rules : BlockRules)
  (nBridgeInterval : ℕ)

/-- One step of a node. The governance of the branch is any that the blocks decided on. -/
inductive NodeStep : Node → Node → Prop
  | connect (ctx : BlockContext) (disk : DiskBlock) {chain : List ChainEntry}
    {st st' : Stores} {entry : ChainEntry}
    (h : connectBlockState net votes bp rules nBridgeInterval ctx st chain disk =
      some (st', entry)) : NodeStep ⟨chain, st⟩ ⟨entry :: chain, st'⟩
  | disconnect {chain : List ChainEntry} {st st' : Stores} {entry : ChainEntry}
    (hchain : chain ≠ [])
    (h : disconnectBlockState net rules st entry.disk.block = some st') :
    NodeStep ⟨entry :: chain, st⟩ ⟨chain, st'⟩

def Node.Started (genesis : ChainEntry) (node : Node) : Prop :=
  node.chain = [genesis] ∧ node.stores.txdb = fun _ => none

def NodeRun (genesis : ChainEntry) (node : Node) : Prop :=
  ∃ start : Node, start.Started genesis ∧
    Relation.ReflTransGen (NodeStep net votes bp rules nBridgeInterval) start node

structure BlockStep where
  ctx : BlockContext
  before : Stores
  chain : List ChainEntry
  disk : DiskBlock
  after : Stores
  entry : ChainEntry

def emptyStores (fPegPruneEnabled : Bool) : Stores where
  txdb := fun _ => none
  pegdb := fun _ => none
  fPegPruneEnabled

/-- Blocks that were connected to the chain `below` one by one, the last one first. -/
inductive BlockRun (below : List ChainEntry) (start : Stores) : List BlockStep → Stores → Prop
  | nil : BlockRun below start [] start
  | connect (ctx : BlockContext) (disk : DiskBlock) {steps : List BlockStep} {st st' : Stores}
    {entry : ChainEntry} (hrun : BlockRun below start steps st)
    (h : connectBlockState net votes bp rules nBridgeInterval ctx st
      (steps.map (·.entry) ++ below) disk = some (st', entry)) :
    BlockRun below start (⟨ctx, st, steps.map (·.entry) ++ below, disk, st', entry⟩ :: steps) st'

def loopStart (disk : DiskBlock) (queue : MapFractions) : BlockState where
  mapQueuedFractionsChanges := queue
  nTxPos := disk.nBlockPos + rules.headerSize disk.block.vtx.length

structure ConnectedBy (ctx : BlockContext) (st : Stores) (chain : List ChainEntry)
    (disk : DiskBlock) (place : BlockPlace) (queue : MapFractions) (s done : BlockState)
    (st' : Stores) (entry : ChainEntry) : Prop where
  checked : checkBlock net rules disk.block = true
  place_eq : ∃ nPegSupplyIndex, calculateBlockPegIndex votes (chain.map (·.pindex)) =
    some nPegSupplyIndex ∧ place = nextPlace chain disk nPegSupplyIndex
  pools : bridgePools votes nBridgeInterval ctx st.pegdb place.nHeight = some queue
  txs : disk.block.vtx.zipIdx.foldlM (connectTx net votes bp rules ctx st place disk)
    (loopStart rules disk queue) = some s
  reward : connectReward net votes bp rules ctx st place disk (chain.map (·.pindex)) s = some done
  disk_eq : entry.disk = disk
  height : entry.pindex.nHeight = place.nHeight
  txdb : st'.txdb = overlay st.txdb done.mapQueuedChanges
  prune : st'.fPegPruneEnabled = st.fPegPruneEnabled
  pegdb : st'.pegdb = prunePeg net votes st.fPegPruneEnabled (entry :: chain) place.nHeight
    (overlay st.pegdb done.mapQueuedFractionsChanges)

def BlockPoint (ctx : BlockContext) (st : Stores) (place : BlockPlace) (disk : DiskBlock)
    (queue : MapFractions) (s : BlockState) (tx : CTransaction) (i : ℕ) : Prop :=
  ∃ done rest, disk.block.vtx.zipIdx = done ++ (tx, i) :: rest ∧
    done.foldlM (connectTx net votes bp rules ctx st place disk) (loopStart rules disk queue) =
      some s

end Model

section Runs

variable {net : Params} {votes : VoteParams} {bp : BridgeParams} {rules : BlockRules}
  {nBridgeInterval : ℕ} {ctx : BlockContext} {st st' : Stores} {place : BlockPlace}
  {disk : DiskBlock} {chain : List ChainEntry} {entry genesis : ChainEntry} {node : Node}
  {queue : MapFractions} {s s' : BlockState} {tx : CTransaction} {i : ℕ}

theorem connectBlockState_ok (h : connectBlockState net votes bp rules nBridgeInterval ctx st chain
      disk = some (st', entry)) :
    ∃ place queue s done, ConnectedBy net votes bp rules nBridgeInterval ctx st chain disk place
      queue s done st' entry := by
  unfold connectBlockState at h
  split_ifs at h with hcheck
  simp only [connectBody, Option.bind_eq_bind, Option.bind_eq_some_iff] at h
  obtain ⟨nPegSupplyIndex, hindex, done, ⟨queue, hpools, s, hs, hdone⟩, nPegVotes, -, h⟩ := h
  cases h
  exact ⟨_, queue, s, done, {
    checked := by simpa using hcheck
    place_eq := ⟨nPegSupplyIndex, hindex, rfl⟩
    pools := hpools
    txs := hs
    reward := hdone
    disk_eq := rfl
    height := rfl
    txdb := rfl
    prune := rfl
    pegdb := rfl }⟩

/-- The result of a step that is made of a computed pair. -/
theorem BlockStep.result_eq {step : BlockStep} {r : Stores × ChainEntry}
    (h : step = { step with after := r.1, entry := r.2 }) : (step.after, step.entry) = r :=
  Prod.ext (congrArg BlockStep.after h) (congrArg BlockStep.entry h)

/-- One block as a run. -/
theorem BlockRun.single {step : BlockStep} (h : connectBlockState net votes bp rules
      nBridgeInterval step.ctx step.before step.chain step.disk = some (step.after, step.entry)) :
    BlockRun net votes bp rules nBridgeInterval step.chain step.before [step] step.after :=
  BlockRun.connect step.ctx step.disk BlockRun.nil h

theorem checkBlock_tx {block : CBlock} (h : checkBlock net rules block = true) :
    (∀ tx ∈ block.vtx, tx.vout ≠ []) ∧ (block.vtx.map net.getHash).Nodup := by
  simp only [checkBlock, Bool.decide_and, Bool.and_eq_true, decide_eq_true_eq] at h
  obtain ⟨-, -, -, -, hall, hnodup⟩ := h
  refine ⟨fun tx htx => ?_, hnodup⟩
  have hcheck := (hall tx htx).1
  simp only [CTransaction.checkTransaction, Bool.decide_and, Bool.and_eq_true,
    decide_eq_true_eq] at hcheck
  exact hcheck.2.1

theorem checkBlock_inputs {block : CBlock} (h : checkBlock net rules block = true) :
    ∀ tx ∈ block.vtx, (tx.vin.map (·.prevout)).Nodup := by
  simp only [checkBlock, Bool.decide_and, Bool.and_eq_true, decide_eq_true_eq] at h
  obtain ⟨-, -, -, -, hall, -⟩ := h
  intro tx htx
  have hcheck := (hall tx htx).1
  simp only [CTransaction.checkTransaction, Bool.decide_and, Bool.and_eq_true,
    decide_eq_true_eq] at hcheck
  exact hcheck.2.2.2.2.1

/-! ## Invariants of the index -/

structure EntryInvariant (net : Params) (P : UInt256 → CTxIndex → Prop) : Prop where
  created : ∀ tx pos nHeight i, 80 < pos.nTxPos →
    P (net.getHash tx) (.ofTx pos tx.vout.length nHeight i)
  spent : ∀ hash txindex pos ns, P hash txindex → P hash (txindex.spent pos ns)
  madeUp : ∀ hash txindex, txindex.MadeUp 2 → P hash txindex

def TxIndexMap.All (index : TxIndexMap) (P : UInt256 → CTxIndex → Prop) : Prop :=
  ∀ hash txindex, index hash = some txindex → P hash txindex

variable {P : UInt256 → CTxIndex → Prop}

theorem EntryStep.keeps (hP : EntryInvariant net P) {pos : CDiskTxPos} {hash : UInt256}
    {old new : Option CTxIndex} (hpos : 80 < pos.nTxPos) (h : EntryStep net tx pos hash old new)
    (hold : ∀ txindex, old = some txindex → P hash txindex) :
    ∀ txindex, new = some txindex → P hash txindex := by
  intro txindex hnew
  cases h with
  | created _ nHeight i hash_eq =>
    cases hnew
    rw [hash_eq]
    exact hP.created tx pos nHeight i hpos
  | kept _ _ _ => exact hold txindex hnew
  | spent before _ _ _ _ =>
    cases hnew
    exact hP.spent _ _ _ _ (hold before rfl)
  | minted _ made _ _ _ hmade =>
    cases hnew
    exact hP.spent _ _ _ _ (hP.madeUp _ _ hmade)

/-- The loop over the transactions keeps the property, and no transaction starts at the
beginning of the block. -/
theorem connectTxs_all (hP : EntryInvariant net P) (hst : st.txdb.All P)
    {l : List (CTransaction × ℕ)}
    (h : l.foldlM (connectTx net votes bp rules ctx st place disk) (loopStart rules disk queue) =
      some s) :
    TxIndexMap.All (overlay st.txdb s.mapQueuedChanges) P ∧ 80 < s.nTxPos := by
  refine foldlM_some_invariant
    (P := fun s => TxIndexMap.All (overlay st.txdb s.mapQueuedChanges) P ∧ 80 < s.nTxPos) ?_ ?_ h
  · rintro ⟨tx, i⟩ - mid next ⟨hmid, hpos⟩ hstep
    refine ⟨fun hash => (connectTx_entry hstep hash).keeps hP hpos (hmid hash), ?_⟩
    rw [connectTx_nTxPos hstep]
    omega
  · refine ⟨hst, ?_⟩
    have hsize := rules.headerSize_gt disk.block.vtx.length
    simp only [loopStart]
    omega

theorem connectBlockState_all (hP : EntryInvariant net P) (hst : st.txdb.All P)
    (h : connectBlockState net votes bp rules nBridgeInterval ctx st chain disk =
      some (st', entry)) : st'.txdb.All P := by
  obtain ⟨place, queue, s, done, hsteps⟩ := connectBlockState_ok h
  rw [hsteps.txdb, connectReward_index hsteps.reward]
  exact (connectTxs_all hP hst hsteps.txs).1

theorem unspendInput_all {index index' : TxIndexMap} {inp : CTxIn}
    (hP : ∀ hash txindex n, P hash txindex →
      P hash { txindex with vSpent := txindex.vSpent.set n .null })
    (hindex : index.All P) (h : unspendInput rules index inp = some index') : index'.All P := by
  unfold unspendInput at h
  split at h
  · cases h
  · rename_i txindex hfound
    split_ifs at h
    cases h
    intro hash found hentry
    by_cases hsame : hash = inp.prevout.hash
    · subst hsame
      rw [Function.update_self] at hentry
      cases hentry
      exact hP _ _ _ (hindex _ _ hfound)
    · rw [Function.update_of_ne hsame] at hentry
      exact hindex hash found hentry

/-- The steps of disconnecting a transaction. -/
theorem disconnectTx_ok (h : disconnectTx net rules st tx = some st') :
    ∃ index, ((tx.isCoinBase = true ∨ tx.isCoinMint = true) ∧ index = st.txdb ∨
        (tx.isCoinBase = false ∧ tx.isCoinMint = false) ∧
          tx.vin.foldlM (unspendInput rules) st.txdb = some index) ∧
      st' = { st with
        txdb := Function.update index (net.getHash tx) none
        pegdb := fun fkey =>
          if fkey.hash = net.getHash tx ∧ fkey.n < tx.vout.length then none else st.pegdb fkey } := by
  unfold disconnectTx at h
  simp only at h
  split_ifs at h with hnone
  · exact ⟨st.txdb, Or.inl ⟨hnone, rfl⟩, (Option.some.inj h).symm⟩
  · obtain ⟨index, hindex, h⟩ := Option.bind_eq_some_iff.mp h
    refine ⟨index, Or.inr ⟨?_, hindex⟩, (Option.some.inj h).symm⟩
    simpa only [not_or, Bool.not_eq_true] using hnone

theorem disconnectBlockState_all {block : CBlock}
    (hP : ∀ hash txindex n, P hash txindex →
      P hash { txindex with vSpent := txindex.vSpent.set n .null })
    (hst : st.txdb.All P) (h : disconnectBlockState net rules st block = some st') :
    st'.txdb.All P := by
  refine foldlM_some_invariant (P := fun st : Stores => st.txdb.All P) ?_ hst h
  intro tx _ mid next hmid hstep
  obtain ⟨index, hindex, rfl⟩ := disconnectTx_ok hstep
  have hall : index.All P := by
    rcases hindex with ⟨-, rfl⟩ | ⟨-, hindex⟩
    · exact hmid
    · exact foldlM_some_invariant (P := fun index : TxIndexMap => index.All P)
        (fun inp _ index index' hold hstep => unspendInput_all hP hold hstep) hmid hindex
  intro hash txindex hentry
  dsimp only at hentry
  by_cases hsame : hash = net.getHash tx
  · subst hsame
    rw [Function.update_self] at hentry
    cases hentry
  · rw [Function.update_of_ne hsame] at hentry
    exact hall hash txindex hentry

/-- Connecting and disconnecting blocks keep a property of the entries. -/
theorem NodeRun.all (hP : EntryInvariant net P)
    (hunspent : ∀ hash txindex n, P hash txindex →
      P hash { txindex with vSpent := txindex.vSpent.set n .null })
    (h : NodeRun net votes bp rules nBridgeInterval genesis node) : node.stores.txdb.All P := by
  obtain ⟨start, ⟨-, hempty⟩, hsteps⟩ := h
  induction hsteps with
  | refl =>
    intro hash txindex hfound
    rw [hempty] at hfound
    cases hfound
  | tail _ hstep ih =>
    cases hstep with
    | connect ctx disk h => exact connectBlockState_all hP ih h
    | disconnect _ h => exact disconnectBlockState_all hunspent ih h

end Runs

/-! ## Rules for small chains -/

def firstBlockVotes : VoteParams where
  nPegInterval := 10
  nPegStartHeight := 1
  pegInflateAddr := ['i']
  pegDeflateAddr := ['d']
  pegNochangeAddr := ['n']
  interval_pos := by decide

/-- Rules without limits on a block, without signatures, and with a reward of 50 for work. -/
def sampleRules (readTx : CDiskTxPos → Option CTransaction) : BlockRules where
  verifySignature := fun _ _ _ _ => some ∅
  isProtocolV3 := fun _ => true
  coinbaseMaturity := 0
  readTx
  readBlockTime := fun _ _ => none
  lookup := fun _ => none
  checkBlock := fun _ => true
  maxBlockSigOps := 100
  legacySigOps := fun _ => 1
  p2shSigOps := fun _ _ => 0
  headerSize := fun _ => 81
  txSize := fun _ => 100
  headerSize_gt := by simp
  proofOfWorkReward := fun nFees => nFees + 50
  proofOfStakeReward := fun _ _ _ nFees _ => some nFees

def sampleGenesis : ChainEntry where
  disk := { block := { vtx := [] }, nFile := 1, nBlockPos := 8 }
  pindex := { nHeight := 0, nPegSupplyIndex := 0, nPegVotes := 0 }
  nMint := 0
  nMoneySupply := 0

/-- What the governance of a branch without bridges says. -/
def emptyContext : BlockContext where
  bridges := fun _ => none
  fnMerkleIn := fun _ => none
  timelockpasses := ∅
  poolBridges := []
  burnCycle := []
  fBelowCheckpoint := false
  pindexBest := [sampleGenesis.pindex]

def sampleCoinBase (nTime : ℕ) : CTransaction where
  nTime
  vin := [{ prevout := ⟨0, 2 ^ 32 - 1⟩, scriptSig := [1, 1] }]
  vout := [⟨50, [0x42]⟩]

end BitBay
