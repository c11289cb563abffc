import BitBay.Chain.NodeRun

/-!
# Missing fractions

From the start of the peg on, an output without fractions must not be spent: `FetchInputs`
compares the height in the index entry of the previous transaction with the start. The
entries do not have the height of their block, since the constructor that `ConnectBlock`
calls drops it, so the guard does nothing and the output's plain value is used.
-/
namespace BitBay

/-- The stores of a node whose peg database holds other records by now. -/
def Stores.withPegdb (st : Stores) (pegdb : MapFractions) : Stores := { st with pegdb }

/-- The output that an input spends is found: the index entry of its transaction, with the
changes of the block, leads to a transaction that has the output. -/
def Stores.HasPrevout (src : TxSource) (st : Stores) (s : BlockState) (prevout : COutPoint) :
    Prop :=
  ∃ txindex txPrev, overlay st.txdb s.mapQueuedChanges prevout.hash = some txindex ∧
    src.readTx txindex.pos = some txPrev ∧
    (txPrev.nTime ≠ 0 ∨ (src.readBlockTime txindex.pos.nFile txindex.pos.nBlockPos).isSome) ∧
    prevout.n < txPrev.vout.length ∧ prevout.n < txindex.vSpent.length

section Model

variable (net : Params) (votes : VoteParams)

def CreatedSinceStart (chain : List ChainEntry) (prevout : COutPoint) : Prop :=
  ∃ e ∈ chain, votes.nPegStartHeight ≤ e.pindex.nHeight ∧
    ∃ tx ∈ e.disk.block.vtx, net.getHash tx = prevout.hash ∧ prevout.n < tx.vout.length

/-- A transaction spends an output that must have fractions and has none, neither in the
store nor among the changes of the block. -/
def LacksFractions (chain : List ChainEntry) (st : Stores) (s : BlockState) (tx : CTransaction) :
    Prop :=
  tx.isCoinBase = false ∧ tx.isCoinMint = false ∧
    ∃ inp ∈ tx.vin, CreatedSinceStart net votes chain inp.prevout ∧
      st.pegdb inp.prevout.fkey = none ∧ s.mapQueuedFractionsChanges inp.prevout.fkey = none

end Model

section Missing

variable {net : Params} {votes : VoteParams} {bp : BridgeParams} {rules : BlockRules}
  {nBridgeInterval : ℕ} {ctx : BlockContext} {st : Stores} {place : BlockPlace}
  {disk : DiskBlock} {genesis : ChainEntry} {node : Node} {queue : MapFractions}
  {s : BlockState} {tx : CTransaction} {i : ℕ} {hash : UInt256}

/-- No entry has a height, and none is one of the memory pool. -/
def Unheighted (_hash : UInt256) (txindex : CTxIndex) : Prop :=
  txindex.nHeight = 0 ∧ txindex.pos ≠ .mempool

theorem unheighted_invariant : EntryInvariant net Unheighted where
  created := by
    rintro tx pos nHeight i hpos
    refine ⟨rfl, ?_⟩
    rintro hpool
    have hone : pos.nTxPos = 1 := congrArg CDiskTxPos.nTxPos hpool
    omega
  spent := fun _ _ _ _ h => h
  madeUp := by
    rintro hash txindex ⟨hpos, hheight, -⟩
    refine ⟨hheight, ?_⟩
    rw [hpos]
    decide

/-- The entries that a transaction of a block finds have no height. -/
theorem BlockPoint.unheighted
    (hpoint : BlockPoint net votes bp rules ctx st place disk queue s tx i)
    (hst : st.txdb.All Unheighted) :
    TxIndexMap.All (overlay st.txdb s.mapQueuedChanges) Unheighted := by
  obtain ⟨done, rest, -, hdone⟩ := hpoint
  exact (connectTxs_all unheighted_invariant hst hdone).1

theorem readDisk_isOk {src : TxSource} {txindex : CTxIndex} {prev : PrevTx} :
    readDisk src txindex = .ok prev ↔ prev.txindex = txindex ∧
      src.readTx txindex.pos = some prev.tx ∧
      (prev.tx.nTime ≠ 0 ∧ prev.nTimeFetched = prev.tx.nTime ∨ prev.tx.nTime = 0 ∧
        src.readBlockTime txindex.pos.nFile txindex.pos.nBlockPos = some prev.nTimeFetched) := by
  unfold readDisk
  cases hread : src.readTx txindex.pos with
  | none => simp
  | some txPrev =>
    dsimp only
    by_cases htime : txPrev.nTime ≠ 0
    · rw [if_pos htime]
      constructor
      · rintro ⟨⟩
        exact ⟨rfl, rfl, Or.inl ⟨htime, rfl⟩⟩
      · obtain ⟨index, tx, time⟩ := prev
        dsimp only
        rintro ⟨rfl, ⟨⟩, ⟨-, rfl⟩ | ⟨hzero, -⟩⟩
        · rfl
        · exact absurd hzero htime
    · rw [if_neg htime]
      have hzero := not_not.mp htime
      obtain ⟨index, tx, time⟩ := prev
      cases src.readBlockTime txindex.pos.nFile txindex.pos.nBlockPos <;> grind

/-- In a block the output is found when its transaction is read. -/
theorem exists_spends_iff {n : ℕ} {inp : CTxIn}
    (hdisk : (blockFetch ctx st disk s tx n).OnDisk) :
    (∃ prev, (blockFetch ctx st disk s tx n).Spends rules.toTxSource inp prev) ↔
      st.HasPrevout rules.toTxSource s inp.prevout := by
  unfold FetchCall.Spends Stores.HasPrevout CTxIn.InRange readPrev
  rw [findTxIndex_blockFetch]
  cases hfound : overlay st.txdb s.mapQueuedChanges inp.prevout.hash with
  | none => simp [blockFetch]
  | some txindex =>
    have hpos : txindex.pos ≠ .mempool :=
      hdisk inp.prevout.hash txindex (by rw [findTxIndex_blockFetch, hfound])
    simp only [if_neg hpos]
    constructor
    · rintro ⟨prev, hread, hrange⟩
      have hread : readDisk rules.toTxSource txindex = .ok prev := by
        cases hdisk : readDisk rules.toTxSource txindex with
        | error e =>
          rw [hdisk] at hread
          cases hread
        | ok read =>
          rw [hdisk] at hread
          exact congrArg Except.ok (Prod.mk.inj (Except.ok.inj hread)).1
      obtain ⟨rfl, htx, htime⟩ := readDisk_isOk.mp hread
      refine ⟨_, prev.tx, rfl, htx, ?_, hrange⟩
      exact htime.imp (fun h => h.1) fun h => by simp [h.2]
    · rintro ⟨_, txPrev, ⟨⟩, htx, htime, hrange⟩
      obtain ⟨time, htime⟩ : ∃ time, txPrev.nTime ≠ 0 ∧ time = txPrev.nTime ∨ txPrev.nTime = 0 ∧
          rules.readBlockTime txindex.pos.nFile txindex.pos.nBlockPos = some time := by
        by_cases hzero : txPrev.nTime = 0
        · obtain ⟨time, htime⟩ := Option.isSome_iff_exists.mp (htime.resolve_left (not_not.mpr hzero))
          exact ⟨time, Or.inr ⟨hzero, htime⟩⟩
        · exact ⟨_, Or.inl ⟨hzero, rfl⟩⟩
      have hread : readDisk rules.toTxSource txindex = .ok ⟨txindex, txPrev, time⟩ :=
        readDisk_isOk.mpr ⟨rfl, htx, htime⟩
      exact ⟨_, by rw [hread]; rfl, hrange⟩

theorem readInputFractions_isSome {call : FetchCall} {fkey : UInt320} {prev : PrevTx}
    (hheight : prev.txindex.nHeight = 0) :
    (readInputFractions votes call fkey prev).isSome ↔
      votes.nPegStartHeight ≠ 0 ∨ (call.pegdb fkey).isSome := by
  unfold readInputFractions readFractions
  rw [hheight]
  cases call.pegdb fkey with
  | some fr => simp
  | none => simp

/-- When the inputs of a transaction in a block can be fetched: the start of the peg plays
no part, unless it is genesis. -/
theorem BlockPoint.fetchInputs_isOk
    (hpoint : BlockPoint net votes bp rules ctx st place disk queue s tx i)
    (hst : st.txdb.All Unheighted) (hbase : tx.isCoinBase = false) (hmint : tx.isCoinMint = false)
    {n : ℕ} :
    (fetchInputs votes bp rules.toTxSource (blockFetch ctx st disk s tx n)
      (fun _ => none) (fun _ => none)).isOk ↔
      ∀ inp ∈ tx.vin, st.HasPrevout rules.toTxSource s inp.prevout ∧
        (votes.nPegStartHeight ≠ 0 ∨ (st.pegdb inp.prevout.fkey).isSome ∨
          (s.mapQueuedFractionsChanges inp.prevout.fkey).isSome) := by
  have hall := hpoint.unheighted hst
  have hdisk : (blockFetch ctx st disk s tx n).OnDisk := by
    intro hash txindex hfound
    rw [findTxIndex_blockFetch] at hfound
    exact (hall hash txindex hfound).2
  rw [BitBay.fetchInputs_isOk rfl rfl hdisk hbase hmint]
  refine forall₂_congr fun inp _ => ?_
  rw [← exists_spends_iff hdisk]
  have hfractions : ∀ prev, (blockFetch ctx st disk s tx n).Spends rules.toTxSource inp prev →
      ((inputFractions votes (blockFetch ctx st disk s tx n) inp.prevout.fkey prev).isSome ↔
        votes.nPegStartHeight ≠ 0 ∨ (st.pegdb inp.prevout.fkey).isSome ∨
          (s.mapQueuedFractionsChanges inp.prevout.fkey).isSome) := by
    rintro prev ⟨hread, -⟩
    have hfound := readPrev_index rfl hread
    rw [findTxIndex_blockFetch] at hfound
    have hheight := (hall _ _ hfound).1
    unfold inputFractions
    rw [Option.isSome_or, Bool.or_eq_true, readInputFractions_isSome hheight]
    exact or_rotate
  constructor
  · rintro ⟨prev, hspends, hsome⟩
    exact ⟨⟨prev, hspends⟩, (hfractions prev hspends).mp hsome⟩
  · rintro ⟨⟨prev, hspends⟩, hsome⟩
    exact ⟨prev, hspends, (hfractions prev hspends).mpr hsome⟩

/-- In every run of a node, whatever its peg database holds, at every transaction of a
block: missing fractions make `FetchInputs` fail exactly when the peg starts with genesis, no
fractions are missing, or a previous transaction or its output cannot be found either. -/
theorem missing_fractions_refused_iff
    (hrun : NodeRun net votes bp rules nBridgeInterval genesis node) (pegdb : MapFractions)
    (hpoint : BlockPoint net votes bp rules ctx (node.stores.withPegdb pegdb) place disk queue s
      tx i) :
    (LacksFractions net votes node.chain (node.stores.withPegdb pegdb) s tx →
      (fetchInputs votes bp rules.toTxSource
        (blockFetch ctx (node.stores.withPegdb pegdb) disk s tx place.nHeight)
        (fun _ => none) (fun _ => none)).isOk = false) ↔
    (votes.nPegStartHeight = 0 ∨
      ¬ LacksFractions net votes node.chain (node.stores.withPegdb pegdb) s tx ∨
      ∃ inp ∈ tx.vin, ¬ (node.stores.withPegdb pegdb).HasPrevout rules.toTxSource s
        inp.prevout) := by
  have hst : (node.stores.withPegdb pegdb).txdb.All Unheighted :=
    hrun.all unheighted_invariant fun _ _ _ h => h
  by_cases hlacks : LacksFractions net votes node.chain (node.stores.withPegdb pegdb) s tx
  · have hok := hpoint.fetchInputs_isOk hst hlacks.1 hlacks.2.1 (n := place.nHeight)
    rw [← Bool.not_eq_true, hok]
    have hmissing := hlacks
    obtain ⟨-, -, inp, hinp, -, hstore, hqueue⟩ := hmissing
    constructor
    · intro hfails
      by_contra hcond
      push Not at hcond
      obtain ⟨hstart, -, hspends⟩ := hcond
      exact hfails hlacks fun inp hinp => ⟨hspends inp hinp, Or.inl hstart⟩
    · rintro (hstart | hnot | ⟨other, hother, hnone⟩) -
      · intro hall
        rcases (hall inp hinp).2 with h | h | h
        · exact h hstart
        · rw [hstore] at h
          cases h
        · rw [hqueue] at h
          cases h
      · exact absurd hlacks hnot
      · intro hall
        exact hnone (hall other hother).1
  · exact ⟨fun _ => Or.inr (Or.inl hlacks), fun _ h => absurd h hlacks⟩

end Missing

/-! ## A run in which a coinbase is spent -/

def spendNet : Params where
  pegFrozenTime := 10
  pegVFrozenTime := 20
  getHash := fun tx => if tx = sampleCoinBase 1 then 11 else if tx = sampleCoinBase 2 then 12 else 13
  destinations := fun _ => []
  isValidAddress := fun _ => true

def spendRules : BlockRules :=
  sampleRules fun pos => if pos = ⟨1, 100, 181⟩ then some (sampleCoinBase 1) else none

def spendTx : CTransaction where
  nTime := 2
  vin := [{ prevout := ⟨11, 0⟩ }]
  vout := [⟨50, [0x43]⟩]

def firstBlock : DiskBlock where
  block := { nTime := 1, vtx := [sampleCoinBase 1] }
  nFile := 1
  nBlockPos := 100

def secondBlock : DiskBlock where
  block := { nTime := 2, vtx := [sampleCoinBase 2, spendTx] }
  nFile := 1
  nBlockPos := 400

def connectFirst : Option (Stores × ChainEntry) :=
  connectBlockState spendNet firstBlockVotes sampleBridgeParams spendRules 10 emptyContext
    (emptyStores true) [sampleGenesis] firstBlock

theorem connectFirst_isSome : connectFirst.isSome = true := by decide

def spendNode : Node where
  chain := [(connectFirst.get connectFirst_isSome).2, sampleGenesis]
  stores := (connectFirst.get connectFirst_isSome).1

theorem spendNode_run :
    NodeRun spendNet firstBlockVotes sampleBridgeParams spendRules 10 sampleGenesis spendNode := by
  refine ⟨⟨[sampleGenesis], emptyStores true⟩, ⟨rfl, rfl⟩, Relation.ReflTransGen.single ?_⟩
  exact NodeStep.connect emptyContext firstBlock (Option.some_get connectFirst_isSome).symm

def spendState : Option BlockState :=
  connectTx spendNet firstBlockVotes sampleBridgeParams spendRules emptyContext spendNode.stores
    (nextPlace spendNode.chain secondBlock 0) secondBlock
    (loopStart spendRules secondBlock fun _ => none) (sampleCoinBase 2, 0)

theorem spendState_isSome : spendState.isSome = true := by decide

theorem spendNode_point : BlockPoint spendNet firstBlockVotes sampleBridgeParams spendRules
    emptyContext spendNode.stores (nextPlace spendNode.chain secondBlock 0) secondBlock
    (fun _ => none) (spendState.get spendState_isSome) spendTx 1 := by
  refine ⟨[(sampleCoinBase 2, 0)], [], rfl, ?_⟩
  simp only [List.foldlM_cons, List.foldlM_nil, bind_pure]
  exact (Option.some_get spendState_isSome).symm

theorem spendNode_lacks : LacksFractions spendNet firstBlockVotes spendNode.chain spendNode.stores
    (spendState.get spendState_isSome) spendTx := by
  refine ⟨by decide, by decide, _, List.mem_cons_self, ?_, ?_, ?_⟩
  · exact ⟨(connectFirst.get connectFirst_isSome).2, List.mem_cons_self, by decide,
      sampleCoinBase 1, by decide, by decide, by decide⟩
  · decide
  · decide

theorem spendNode_refused_iff :
    (LacksFractions spendNet firstBlockVotes spendNode.chain
        (spendNode.stores.withPegdb spendNode.stores.pegdb) (spendState.get spendState_isSome)
        spendTx →
      (fetchInputs firstBlockVotes sampleBridgeParams spendRules.toTxSource
        (blockFetch emptyContext (spendNode.stores.withPegdb spendNode.stores.pegdb) secondBlock
          (spendState.get spendState_isSome) spendTx (nextPlace spendNode.chain secondBlock 0).nHeight)
        (fun _ => none) (fun _ => none)).isOk = false) ↔
    (firstBlockVotes.nPegStartHeight = 0 ∨
      ¬ LacksFractions spendNet firstBlockVotes spendNode.chain
        (spendNode.stores.withPegdb spendNode.stores.pegdb) (spendState.get spendState_isSome)
        spendTx ∨
      ∃ inp ∈ spendTx.vin, ¬ (spendNode.stores.withPegdb spendNode.stores.pegdb).HasPrevout
        spendRules.toTxSource (spendState.get spendState_isSome) inp.prevout) :=
  missing_fractions_refused_iff spendNode_run spendNode.stores.pegdb spendNode_point

/-- The coinbase has no fractions, and the second block spends it with its plain value. -/
theorem coinbase_spent_without_fractions :
    NodeRun spendNet firstBlockVotes sampleBridgeParams spendRules 10 sampleGenesis spendNode ∧
    ∃ s, BlockPoint spendNet firstBlockVotes sampleBridgeParams spendRules emptyContext
      spendNode.stores (nextPlace spendNode.chain secondBlock 0) secondBlock (fun _ => none) s
      spendTx 1 ∧
    firstBlockVotes.nPegStartHeight ≤ (nextPlace spendNode.chain secondBlock 0).nHeight ∧
    LacksFractions spendNet firstBlockVotes spendNode.chain spendNode.stores s spendTx ∧
    ∃ maps fr, fetchInputs firstBlockVotes sampleBridgeParams spendRules.toTxSource
        (blockFetch emptyContext spendNode.stores secondBlock s spendTx
          (nextPlace spendNode.chain secondBlock 0).nHeight)
        (fun _ => none) (fun _ => none) = .ok maps ∧
      maps.2 ⟨11, 0⟩ = some fr ∧ fr.nFlags.std = false ∧ fr.f 0 = 50 := by
  refine ⟨spendNode_run, _, spendNode_point, by decide, spendNode_lacks, ?_⟩
  have hok : ((fetchInputs firstBlockVotes sampleBridgeParams spendRules.toTxSource
      (blockFetch emptyContext spendNode.stores secondBlock (spendState.get spendState_isSome) spendTx
        (nextPlace spendNode.chain secondBlock 0).nHeight)
      (fun _ => none) (fun _ => none)).toOption.bind fun maps => maps.2 ⟨11, 0⟩).map
        (fun fr => (fr.nFlags.std, fr.f 0)) = some (false, 50) := by decide
  obtain ⟨fr, hfr, hpair⟩ := Option.map_eq_some_iff.mp hok
  obtain ⟨maps, hmaps, hfr⟩ := Option.bind_eq_some_iff.mp hfr
  obtain ⟨hstd, hvalue⟩ := Prod.mk.inj hpair
  exact ⟨maps, fr, Run.eq_ok_of_toOption hmaps, hfr, hstd, hvalue⟩

end BitBay
