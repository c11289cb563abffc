import BitBay.Chain.NodeRun

/-!
# Mints of one leaf

A mint makes up the transaction of its leaf, so whether the leaf was minted before is not
looked up. Blocks are offered to a node one by one. What refuses a second mint of a leaf is
that its transaction has the id of an earlier one of the block, or of one in the chain with
an unspent output, and the script of its first input is free.
-/
namespace BitBay

open Run

def CTransaction.mintLeaf (tx : CTransaction) : Option UInt256 :=
  if tx.isCoinMint then tx.vin[1]?.map (·.prevout.hash) else none

def chainTxs (chain : List ChainEntry) : List CTransaction :=
  chain.flatMap fun e => e.disk.block.vtx.reverse

def mintedLeaves (txs : List CTransaction) : List UInt256 := txs.filterMap CTransaction.mintLeaf

section Model

variable (net : Params)

/-- Output 0 of a transaction was created and not spent since, by transactions from the last
one on. -/
def unspentOutput (hash : UInt256) : List CTransaction → Bool
  | [] => false
  | tx :: txs =>
    if net.getHash tx = hash then true
    else if tx.isCoinBase = false ∧ ⟨hash, 0⟩ ∈ tx.vin.map (·.prevout) then false
    else unspentOutput hash txs

def Remints (chain : List ChainEntry) (done : List CTransaction) (tx : CTransaction) : Prop :=
  ∃ leaf ∈ tx.mintLeaf, leaf ∈ mintedLeaves (done.reverse ++ chainTxs chain)

instance (chain : List ChainEntry) (done : List CTransaction) (tx : CTransaction) :
    Decidable (Remints chain done tx) :=
  decidable_of_iff (tx.mintLeaf.any fun leaf =>
    decide (leaf ∈ mintedLeaves (done.reverse ++ chainTxs chain)) = true) (by
      simp [Remints, Option.any_eq_true])

/-- Every mint of a block whose leaf was minted before, in the chain or in the block, has the
id of an earlier transaction of the block or of one in the chain whose output is unspent. -/
def RemintsClash (chain : List ChainEntry) (block : CBlock) : Prop :=
  ∀ o ∈ block.vtx.zipIdx, Remints chain (block.vtx.take o.2) o.1 →
    net.getHash o.1 ∈ (block.vtx.take o.2).map net.getHash ∨
      unspentOutput net (net.getHash o.1) (chainTxs chain) = true

/-- A block that comes to a node, with what the governance says at that time. -/
structure Offer where
  ctx : BlockContext
  disk : DiskBlock

variable (votes : VoteParams) (bp : BridgeParams) (rules : BlockRules) (nBridgeInterval : ℕ)
  (below : List ChainEntry) (start : Stores)

/-- The blocks on top of `below` and the stores after blocks were offered, the last one first.
A block that is refused changes neither. -/
def afterOffers : List Offer → List ChainEntry × Stores
  | [] => ([], start)
  | offer :: offers =>
    let node := afterOffers offers
    match connectBlockState net votes bp rules nBridgeInterval offer.ctx node.2
      (node.1 ++ below) offer.disk with
    | some (st', entry) => (entry :: node.1, st')
    | none => node

/-- A node that has taken the offers refuses the next one. -/
def Refused (offers : List Offer) (offer : Offer) : Prop :=
  connectBlockState net votes bp rules nBridgeInterval offer.ctx
    (afterOffers net votes bp rules nBridgeInterval below start offers).2
    ((afterOffers net votes bp rules nBridgeInterval below start offers).1 ++ below) offer.disk =
      none

/-- The offered blocks meet the condition, each on the chain that it comes to. -/
def AllRemintsClash : List Offer → Prop
  | [] => True
  | offer :: offers => RemintsClash net
      (afterOffers net votes bp rules nBridgeInterval below start offers).1 offer.disk.block ∧
    AllRemintsClash offers

end Model

section Unspent

variable {net : Params} {votes : VoteParams} {bp : BridgeParams} {rules : BlockRules}
  {nBridgeInterval : ℕ} {ctx : BlockContext} {st st' start : Stores} {place : BlockPlace}
  {disk : DiskBlock} {chain below : List ChainEntry} {entry : ChainEntry} {queue : MapFractions}
  {s s' : BlockState} {tx : CTransaction} {txs : List CTransaction} {hash : UInt256}
  {pos : CDiskTxPos}

/-- The first output of the entry is not marked as spent. -/
def FirstUnspent (entry : Option CTxIndex) : Prop :=
  ∃ txindex, entry = some txindex ∧ txindex.vSpent[0]? = some .null

/-- An output that is unspent is unspent in the index, over one transaction. -/
theorem EntryStep.firstUnspent {old new : Option CTxIndex} (h : EntryStep net tx pos hash old new)
    (hvout : tx.vout ≠ []) (hold : unspentOutput net hash txs = true → FirstUnspent old)
    (hunspent : unspentOutput net hash (tx :: txs) = true) : FirstUnspent new := by
  cases h with
  | created _ nHeight i hash_eq =>
    refine ⟨_, rfl, ?_⟩
    have hlength : 0 < tx.vout.length := List.length_pos_iff.mpr hvout
    simp [CTxIndex.ofTx, hlength]
  | kept _ hash_ne hnot =>
    apply hold
    rw [unspentOutput, if_neg (Ne.symm hash_ne), if_neg] at hunspent
    · exact hunspent
    · rintro ⟨hbase, hmem⟩
      rcases hnot with hnot | hnot
      · rw [hnot] at hbase
        cases hbase
      · obtain ⟨inp, hinp, hprevout⟩ := List.mem_map.mp hmem
        exact hnot (List.mem_map.mpr ⟨inp, hinp, by rw [hprevout]⟩)
  | spent txindex hash_ne hbase hmint hmem =>
    rw [unspentOutput, if_neg (Ne.symm hash_ne)] at hunspent
    split_ifs at hunspent with hspent
    obtain ⟨_, ⟨⟩, hnull⟩ := hold hunspent
    refine ⟨_, rfl, ?_⟩
    have hfirst : (0 : ℕ) ∉ spentOutputs tx.vin hash := by
      rw [mem_spentOutputs]
      intro hmem
      exact hspent ⟨hbase, hmem⟩
    rw [CTxIndex.spent, getElem?_foldl_set hfirst, hnull]
  | minted _ txindex hash_ne hmint hmem hmade =>
    rw [unspentOutput, if_neg (Ne.symm hash_ne), if_pos] at hunspent
    · cases hunspent
    · obtain ⟨inp, hinp, rfl⟩ := List.mem_map.mp hmem
      refine ⟨?_, List.mem_map.mpr ⟨inp, hinp, ?_⟩⟩
      · exact isCoinMint_isCoinBase hmint
      · rw [← isCoinMint_prevout hmint hinp]

def TxIndexMap.Tracks (net : Params) (index : TxIndexMap) (txs : List CTransaction) : Prop :=
  ∀ hash, unspentOutput net hash txs = true → FirstUnspent (index hash)

/-- The loop over the transactions keeps track of what is unspent. -/
theorem connectTxs_tracks (hst : st.txdb.Tracks net txs) {l : List (CTransaction × ℕ)}
    (hvout : ∀ a ∈ l, a.1.vout ≠ [])
    (h : l.foldlM (connectTx net votes bp rules ctx st place disk) (loopStart rules disk queue) =
      some s) :
    TxIndexMap.Tracks net (overlay st.txdb s.mapQueuedChanges)
      ((l.map Prod.fst).reverse ++ txs) := by
  let P : List (CTransaction × ℕ) → BlockState → Prop := fun rest s => ∃ done, l = done ++ rest ∧
    TxIndexMap.Tracks net (overlay st.txdb s.mapQueuedChanges) ((done.map Prod.fst).reverse ++ txs)
  have hstart : P l (loopStart rules disk queue) := ⟨[], rfl, hst⟩
  have hnext : ∀ a rest mid next, P (a :: rest) mid →
      connectTx net votes bp rules ctx st place disk mid a = some next → P rest next := by
    rintro ⟨tx, i⟩ rest mid next ⟨done, hl, hmid⟩ hstep
    refine ⟨done ++ [(tx, i)], by rw [hl, List.append_assoc]; rfl, ?_⟩
    intro hash hunspent
    rw [List.map_append, List.reverse_append] at hunspent
    have hmem : (tx, i) ∈ l := by
      rw [hl]
      exact List.mem_append_right _ List.mem_cons_self
    exact (connectTx_entry hstep hash).firstUnspent (hvout _ hmem) (hmid hash) hunspent
  obtain ⟨done, hl, htracks⟩ := foldlM_some_rule hnext hstart h
  rw [List.append_nil] at hl
  rwa [hl]

/-- A connected block keeps track of what is unspent. -/
theorem connectBlockState_tracks (hst : st.txdb.Tracks net (chainTxs chain))
    (h : connectBlockState net votes bp rules nBridgeInterval ctx st (chain ++ below) disk =
      some (st', entry)) :
    st'.txdb.Tracks net (chainTxs (entry :: chain)) := by
  obtain ⟨place, queue, s, done, hsteps⟩ := connectBlockState_ok h
  have hvout : ∀ a ∈ disk.block.vtx.zipIdx, a.1.vout ≠ [] := fun a ha =>
    (checkBlock_tx hsteps.checked).1 a.1 (List.fst_mem_of_mem_zipIdx ha)
  have htracks := connectTxs_tracks hst hvout hsteps.txs
  rw [List.zipIdx_map_fst] at htracks
  rw [hsteps.txdb, connectReward_index hsteps.reward]
  simpa only [chainTxs, List.flatMap_cons, hsteps.disk_eq] using htracks

theorem BlockRun.tracks {steps : List BlockStep}
    (h : BlockRun net votes bp rules nBridgeInterval below start steps st) :
    st.txdb.Tracks net (chainTxs (steps.map (·.entry))) := by
  induction h with
  | nil => exact fun hash hunspent => by cases hunspent
  | connect ctx disk _ h ih => exact connectBlockState_tracks ih h

/-- No transaction of a connected block has the id of one that is unspent. -/
theorem ConnectedBy.not_unspent (hst : st.txdb.Tracks net (chainTxs chain))
    (h : ConnectedBy net votes bp rules nBridgeInterval ctx st (chain ++ below) disk place queue s s'
      st' entry) (htx : tx ∈ disk.block.vtx) :
    unspentOutput net (net.getHash tx) (chainTxs chain) = false := by
  by_contra hunspent
  obtain ⟨txindex, hfound, hnull⟩ := hst _ (by simpa using hunspent)
  obtain ⟨i, hi⟩ := List.getElem?_of_mem htx
  obtain ⟨mid, next, hstep⟩ := foldlM_some_mem
    ((List.mem_zipIdx_iff_getElem? (x := (tx, i))).mpr hi) h.txs
  have hover := (connectTx_ok hstep).1
  have hsome : overwrites net st tx = true := by
    rw [overwrites, hfound]
    exact List.any_eq_true.mpr ⟨.null, List.mem_of_getElem? hnull, rfl⟩
  rw [hsome] at hover
  cases hover

end Unspent

/-! ## Leaves -/

section Script

variable {net : Params} {votes : VoteParams} {bp : BridgeParams} {rules : BlockRules}
  {ctx : BlockContext} {st : Stores} {place : BlockPlace} {disk : DiskBlock} {s s' : BlockState}
  {tx : CTransaction} {i : ℕ}

end Script

section Leaves

variable {net : Params} {votes : VoteParams} {bp : BridgeParams} {rules : BlockRules}
  {nBridgeInterval : ℕ} {ctx : BlockContext} {st st' start : Stores} {place : BlockPlace}
  {disk : DiskBlock} {chain below : List ChainEntry} {entry : ChainEntry} {queue : MapFractions}
  {s s' : BlockState}

theorem mintedLeaves_cons_none {tx : CTransaction} {txs : List CTransaction}
    (h : tx.mintLeaf = none) : mintedLeaves (tx :: txs) = mintedLeaves txs :=
  List.filterMap_cons_none h

theorem mintedLeaves_cons_some {tx : CTransaction} {txs : List CTransaction} {leaf : UInt256}
    (h : tx.mintLeaf = some leaf) : mintedLeaves (tx :: txs) = leaf :: mintedLeaves txs :=
  List.filterMap_cons_some h

/-- Leaves are distinct when none is among those minted before it. -/
theorem nodup_mintedLeaves_iff {l txs : List CTransaction} :
    (mintedLeaves (l.reverse ++ txs)).Nodup ↔ (mintedLeaves txs).Nodup ∧
      ∀ done tx rest leaf, l = done ++ tx :: rest → tx.mintLeaf = some leaf →
        leaf ∉ mintedLeaves (done.reverse ++ txs) := by
  induction l using List.reverseRecOn with
  | nil => simp
  | append_singleton l tx ih =>
    -- The last transaction comes after all others; the splits of the rest are those of `l`.
    have hsplit : (∀ done t rest leaf, l ++ [tx] = done ++ t :: rest → t.mintLeaf = some leaf →
        leaf ∉ mintedLeaves (done.reverse ++ txs)) ↔
        (∀ done t rest leaf, l = done ++ t :: rest → t.mintLeaf = some leaf →
          leaf ∉ mintedLeaves (done.reverse ++ txs)) ∧
        ∀ leaf, tx.mintLeaf = some leaf → leaf ∉ mintedLeaves (l.reverse ++ txs) := by
      constructor
      · intro hall
        refine ⟨fun done t rest leaf hl => hall done t (rest ++ [tx]) leaf ?_,
          fun leaf => hall l tx [] leaf rfl⟩
        rw [hl, List.append_assoc, List.cons_append]
      · rintro ⟨hall, hlast⟩ done t rest leaf hl hleaf
        rcases List.eq_nil_or_concat rest with rfl | ⟨rest', last, rfl⟩
        · obtain ⟨rfl, htx⟩ := List.append_inj' hl rfl
          cases htx
          exact hlast leaf hleaf
        · rw [List.concat_eq_append, ← List.cons_append, ← List.append_assoc] at hl
          obtain ⟨rfl, -⟩ := List.append_inj' hl rfl
          exact hall done t rest' leaf rfl hleaf
    rw [hsplit, ← and_assoc, ← ih, List.reverse_append, List.reverse_singleton, List.append_assoc,
      List.singleton_append]
    cases hleaf : tx.mintLeaf with
    | none => simp [mintedLeaves_cons_none hleaf]
    | some leaf =>
      rw [mintedLeaves_cons_some hleaf, List.nodup_cons, and_comm]
      simp

variable (net votes bp rules nBridgeInterval below start) in
/-- The blocks that were connected among those offered. -/
theorem afterOffers_run (offers : List Offer) : ∃ steps : List BlockStep,
    (afterOffers net votes bp rules nBridgeInterval below start offers).1 =
        steps.map (·.entry) ∧
      BlockRun net votes bp rules nBridgeInterval below start steps
        (afterOffers net votes bp rules nBridgeInterval below start offers).2 := by
  induction offers with
  | nil => exact ⟨[], rfl, .nil⟩
  | cons offer offers ih =>
    obtain ⟨steps, hchain, hrun⟩ := ih
    rw [afterOffers]
    split
    · rename_i st' entry hconnected
      rw [hchain] at hconnected
      exact ⟨_, by rw [hchain, List.map_cons], hrun.connect offer.ctx offer.disk hconnected⟩
    · exact ⟨steps, hchain, hrun⟩

/-- A connected block has no transaction that clashes, so of one that meets the condition
no leaf was minted before. -/
theorem ConnectedBy.mints_fresh (hst : st.txdb.Tracks net (chainTxs chain))
    (h : ConnectedBy net votes bp rules nBridgeInterval ctx st (chain ++ below) disk place queue s s'
      st' entry) (hclash : RemintsClash net chain disk.block) {o : CTransaction × ℕ}
    (ho : o ∈ disk.block.vtx.zipIdx) : ¬ Remints chain (disk.block.vtx.take o.2) o.1 := by
  intro hremints
  have hget := List.mem_zipIdx_iff_getElem?.mp ho
  rcases hclash o ho hremints with hsame | hunspent
  · have hnodup := (checkBlock_tx h.checked).2
    have hsplit : disk.block.vtx =
        disk.block.vtx.take o.2 ++ o.1 :: disk.block.vtx.drop (o.2 + 1) := by
      obtain ⟨hlt, hval⟩ := List.getElem?_eq_some_iff.mp hget
      rw [← hval, List.getElem_cons_drop hlt, List.take_append_drop]
    rw [hsplit, List.map_append, List.map_cons] at hnodup
    exact List.disjoint_of_nodup_append hnodup hsame List.mem_cons_self
  · rw [h.not_unspent hst (List.fst_mem_of_mem_zipIdx ho)] at hunspent
    cases hunspent

/-- One offer: a block that meets the condition and mints a leaf again is refused. -/
theorem refused_of_remints {offers : List Offer} {offer : Offer}
    (hclash : RemintsClash net
      (afterOffers net votes bp rules nBridgeInterval below start offers).1 offer.disk.block)
    {o : CTransaction × ℕ} (ho : o ∈ offer.disk.block.vtx.zipIdx)
    (hremints : Remints (afterOffers net votes bp rules nBridgeInterval below start offers).1
      (offer.disk.block.vtx.take o.2) o.1) :
    Refused net votes bp rules nBridgeInterval below start offers offer := by
  obtain ⟨steps, hchain, hrun⟩ :=
    afterOffers_run net votes bp rules nBridgeInterval start below offers
  by_contra haccepted
  obtain ⟨⟨st', entry⟩, hconnected⟩ := Option.ne_none_iff_exists'.mp haccepted
  obtain ⟨place, queue, s, done, hsteps⟩ := connectBlockState_ok hconnected
  exact hsteps.mints_fresh (hchain ▸ hrun.tracks) hclash ho hremints

/-- One offer keeps the leaves of the chain distinct. -/
theorem afterOffers_nodup {offers : List Offer} {offer : Offer}
    (hclash : RemintsClash net
      (afterOffers net votes bp rules nBridgeInterval below start offers).1 offer.disk.block)
    (hnodup : (mintedLeaves (chainTxs
      (afterOffers net votes bp rules nBridgeInterval below start offers).1)).Nodup) :
    (mintedLeaves (chainTxs
      (afterOffers net votes bp rules nBridgeInterval below start (offer :: offers)).1)).Nodup := by
  obtain ⟨steps, hchain, hrun⟩ :=
    afterOffers_run net votes bp rules nBridgeInterval start below offers
  rw [afterOffers]
  split
  · rename_i st' entry hconnected
    obtain ⟨place, queue, s, done, hsteps⟩ := connectBlockState_ok hconnected
    rw [chainTxs, List.flatMap_cons, hsteps.disk_eq, nodup_mintedLeaves_iff]
    refine ⟨hnodup, fun done tx rest leaf hvtx hleaf hbefore => ?_⟩
    have hget : offer.disk.block.vtx[done.length]? = some tx := by
      rw [hvtx, List.getElem?_append_right (le_refl _), Nat.sub_self]
      rfl
    refine hsteps.mints_fresh (hchain ▸ hrun.tracks) hclash
      (o := (tx, done.length)) (List.mem_zipIdx_iff_getElem?.mpr hget) ⟨leaf, hleaf, ?_⟩
    rw [hvtx, List.take_left]
    exact hbefore
  · exact hnodup

/-- Whatever blocks are offered: when every mint of a leaf that was minted before clashes with
another transaction, every block with such a mint is refused and no leaf is minted twice. -/
theorem offers_mint_once (offers : List Offer)
    (hclash : AllRemintsClash net votes bp rules nBridgeInterval below start offers) :
    (mintedLeaves (chainTxs
        (afterOffers net votes bp rules nBridgeInterval below start offers).1)).Nodup ∧
      ∀ later offer earlier, offers = later ++ offer :: earlier →
        (∃ o ∈ offer.disk.block.vtx.zipIdx,
          Remints (afterOffers net votes bp rules nBridgeInterval below start earlier).1
            (offer.disk.block.vtx.take o.2) o.1) →
        Refused net votes bp rules nBridgeInterval below start earlier offer := by
  induction offers with
  | nil =>
    refine ⟨List.nodup_nil, fun later offer earlier hoffers => ?_⟩
    simp at hoffers
  | cons last offers ih =>
    obtain ⟨hlast, hrest⟩ := hclash
    obtain ⟨hnodup, hrefused⟩ := ih hrest
    refine ⟨afterOffers_nodup hlast hnodup, fun later offer earlier hoffers => ?_⟩
    rcases later with _ | ⟨_, later⟩
    · cases hoffers
      rintro ⟨o, ho, hremints⟩
      exact refused_of_remints hlast ho hremints
    · exact hrefused later offer earlier (List.cons.inj hoffers).2

end Leaves

/-! ## A block that mints a leaf twice -/

def mintContext : BlockContext where
  bridges := fun brhash => if brhash = sampleBridge.hash then some sampleBridge else none
  fnMerkleIn := fun root =>
    if root = hexStr sampleLeaf then
      some { bridge := "B".toList, brhash := sampleBridge.hash, ntime := 1000 }
    else none
  timelockpasses := ∅
  poolBridges := [setHex sampleBridge.hash]
  burnCycle := []
  fBelowCheckpoint := false
  pindexBest := [sampleGenesis.pindex]

def mintStores : Stores where
  txdb := fun _ => none
  pegdb := fun fkey =>
    if fkey = ⟨setHex sampleBridge.hash, 0⟩ then some (CFractions.singleColumn 5 1000000) else none

/-- Two mints of the sample leaf that differ in the script of the first input. -/
def doubleMintBlock : DiskBlock where
  block := {
    nTime := 2000
    vtx := [sampleCoinBase 1, sampleMintTx [] 200000, sampleMintTx [0] 200000] }
  nFile := 1
  nBlockPos := 100

@[irreducible] def doubleMint : Option (Stores × ChainEntry) :=
  connectBlockState sampleMintNet firstBlockVotes sampleBridgeParams (sampleRules fun _ => none) 10
    mintContext mintStores [sampleGenesis] doubleMintBlock

theorem doubleMint_isSome : doubleMint.isSome = true := by decide +kernel

def doubleMintStep : BlockStep where
  ctx := mintContext
  before := mintStores
  chain := [sampleGenesis]
  disk := doubleMintBlock
  after := (doubleMint.get doubleMint_isSome).1
  entry := (doubleMint.get doubleMint_isSome).2

theorem doubleMint_connected : connectBlockState sampleMintNet firstBlockVotes sampleBridgeParams
    (sampleRules fun _ => none) 10 mintContext mintStores [sampleGenesis] doubleMintBlock =
      some (doubleMintStep.after, doubleMintStep.entry) := by
  have hblock : doubleMint = connectBlockState sampleMintNet firstBlockVotes sampleBridgeParams
      (sampleRules fun _ => none) 10 mintContext mintStores [sampleGenesis] doubleMintBlock := by
    unfold doubleMint
    rfl
  have hresult : (doubleMintStep.after, doubleMintStep.entry) = doubleMint.get doubleMint_isSome :=
    BlockStep.result_eq rfl
  rw [hresult, Option.some_get, hblock]

theorem doubleMint_run : BlockRun sampleMintNet firstBlockVotes sampleBridgeParams
    (sampleRules fun _ => none) 10 [sampleGenesis] mintStores [doubleMintStep]
    doubleMintStep.after :=
  @BlockRun.single _ _ _ _ _ doubleMintStep doubleMint_connected

/-- The block is connected with both mints. -/
theorem leaf_minted_twice : ∃ step st, BlockRun sampleMintNet firstBlockVotes sampleBridgeParams
      (sampleRules fun _ => none) 10 [sampleGenesis] mintStores [step] st ∧
    ¬ (mintedLeaves (chainTxs ([step].map (·.entry)))).Nodup := by
  refine ⟨_, _, doubleMint_run, ?_⟩
  obtain ⟨place, queue, s, done, hsteps⟩ :=
    connectBlockState_ok doubleMint_connected
  have htxs : chainTxs ([doubleMintStep].map (·.entry)) = doubleMintBlock.block.vtx.reverse := by
    rw [List.map_singleton, chainTxs, List.flatMap_cons, hsteps.disk_eq]
    exact List.append_nil _
  rw [htxs]
  decide +kernel

def offerNet : Params :=
  { sampleMintNet with
    getHash := fun tx => if tx = sampleCoinBase 2 then 2 else sampleMintNet.getHash tx }

def mintOffer (nTime : ℕ) : Offer where
  ctx := mintContext
  disk := {
    block := { nTime := 2000, vtx := [sampleCoinBase nTime, sampleMintTx [] 200000] }
    nFile := 1
    nBlockPos := 100 }

@[irreducible] def afterMint : List ChainEntry × Stores :=
  afterOffers offerNet firstBlockVotes sampleBridgeParams (sampleRules fun _ => none) 10
    [sampleGenesis] mintStores [mintOffer 1]

/-- The second block mints the leaf of the first by a transaction whose output is unspent. -/
theorem mintOffers_clash :
    (mintedLeaves (chainTxs afterMint.1)).length = 1 ∧
      RemintsClash offerNet afterMint.1 (mintOffer 2).disk.block ∧
      ∃ o ∈ (mintOffer 2).disk.block.vtx.zipIdx,
        Remints afterMint.1 ((mintOffer 2).disk.block.vtx.take o.2) o.1 := by
  unfold RemintsClash
  decide +kernel

theorem mintOffer_fresh : RemintsClash offerNet [] (mintOffer 1).disk.block := by
  unfold RemintsClash
  decide +kernel

theorem mintOffers_once :
    (mintedLeaves (chainTxs afterMint.1)).length = 1 ∧
      Refused offerNet firstBlockVotes sampleBridgeParams (sampleRules fun _ => none) 10
        [sampleGenesis] mintStores [mintOffer 1] (mintOffer 2) ∧
      (mintedLeaves (chainTxs (afterOffers offerNet firstBlockVotes sampleBridgeParams
        (sampleRules fun _ => none) 10 [sampleGenesis] mintStores
        [mintOffer 2, mintOffer 1]).1)).Nodup := by
  have hafter : afterMint = afterOffers offerNet firstBlockVotes sampleBridgeParams
      (sampleRules fun _ => none) 10 [sampleGenesis] mintStores [mintOffer 1] := by
    unfold afterMint
    rfl
  obtain ⟨hlength, hclash, hremints⟩ := mintOffers_clash
  rw [hafter] at hclash hremints
  have honce := offers_mint_once [mintOffer 2, mintOffer 1]
    ⟨hclash, mintOffer_fresh, trivial⟩
  exact ⟨hlength, honce.2 [] (mintOffer 2) [mintOffer 1] rfl hremints, honce.1⟩

end BitBay
