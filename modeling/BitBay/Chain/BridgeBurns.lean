import BitBay.Chain.PoolRecords
import BitBay.Bridge.HexText

/-!
# Burns of a bridge

An output whose notary is `**Z**` with the hash of a bridge and an address burns its coins for
the address on the other side of the bridge. A block records its burns. The block that starts
a bridge cycle reads the ones of the cycle before the last: their fractions go to the pools of
their bridges, and each becomes a leaf of the merkle tree of that cycle.
-/
namespace BitBay

open Run

/-! ## Records of a block -/

def burnOfNotary (notary : CString) : Option (CString × CString) :=
  let brdata := notary.drop 5
  let dst_addr := (brdata.drop 64).take 42
  if CString.startsWith notary "**Z**" ∧ brdata.length = 64 + 42 ∧
      CString.startsWith dst_addr "0x" ∧ isHex (dst_addr.drop 2) then
    some (brdata.take 64, dst_addr)
  else none

structure BurnTxout where
  txout : UInt320
  dst_addr : CString
  deriving DecidableEq

section Records

variable (net : Params)

def burnTxout (br_hash : CString) (tx : CTransaction) (out : CTxOut × ℕ) : Option BurnTxout :=
  match out.1.scriptPubKey.toNotary.bind burnOfNotary with
  | none => none
  | some (hash, dst_addr) =>
    if hash = br_hash then some ⟨⟨net.getHash tx, out.2⟩, dst_addr⟩ else none

/-- `ReadBlockBurnsToBridge`: the set that `CalculateBlockBridgeVotes` records of a block. -/
def blockBurnsToBridge (block : CBlock) (br_hash : CString) : List BurnTxout :=
  (block.vtx.flatMap fun tx => tx.vout.zipIdx.filterMap (burnTxout net br_hash tx)).dedup

end Records

/-! ## Leaves -/

/-- `txid:nout:addr:leaf` with the steps that the leaf was made of. -/
structure BurnLeaf where
  burn : BurnTxout
  leaf : CString
  fc1 : CCompressedFractions
  deriving DecidableEq

/-- The encoded call: the address, the steps and the offset of the bytes of the output, and
behind them these bytes, padded to whole words. -/
def abiBurn (dst_addr : CString) (steps : List ℤ) (txoutid : List UInt8) : List UInt8 :=
  let head := abiAddress (dst_addr.drop 2) ++
    (steps.map fun v => abiWord (v % 2 ^ 64).toNat).flatten
  head ++ abiWord (head.length + 32) ++ abiWord txoutid.length ++ txoutid ++
    List.replicate ((32 - txoutid.length % 32) % 32) 0

def burnLeaf (bp : BridgeParams) (burn : BurnTxout) (fc1 : CCompressedFractions) : BurnLeaf :=
  let txoutid := getHex burn.txout.hash ++ [':'] ++ (toString burn.txout.n).toList
  let bytes := txoutid.map fun c => UInt8.ofNat c.toNat
  { burn, fc1
    leaf := hexStr (bp.eth_keccak256 (abiBurn burn.dst_addr (fc1.fps ++ fc1.fms) bytes)) }

/-! ## The loop over a cycle -/

structure CycleBlock where
  /-- The map of bridges, when the block starts a peg cycle and the map is there. -/
  bridges : Option (List BridgeEntry)
  burns : CString → List BurnTxout

def CycleBlock.toBurnBlock (block : CycleBlock) : BurnBlock where
  bridges := block.bridges
  burns := fun brhash => some ((block.burns (getHex brhash)).map (·.txout))

structure CycleState extends BurnState where
  bridge_cycle_burn_txouts : UInt256 → List BurnLeaf := fun _ => []

def CycleState.leaves_sorted (st : CycleState) (brhash : UInt256) : Finset CString :=
  ((st.bridge_cycle_burn_txouts brhash).map (·.leaf)).toFinset

section Model

variable (bp : BridgeParams) (pegdb : MapFractions) (nPegSupplyIndex : ℤ) (nHeight : ℕ)

/-- The leaf of a burned output, whose fractions the store must have. -/
def cycleLeaf (bridge : BridgeEntry) (burn : BurnTxout) : Option BurnLeaf := do
  let fractions ← readFractions pegdb burn.txout {} true
  let nSection := (nPegSupplyIndex * bridge.pegSteps).tdiv PEG_SIZE
  let fc1 ← CCompressedFractions.ofFractions fractions.toStd nSection bridge.pegSteps
    bridge.microSteps
  return burnLeaf bp burn fc1

def addCycleBurn (bridge : BridgeEntry) (st : CycleState) (burn : BurnTxout) :
    Option CycleState := do
  let added ← addBurn pegdb bridge.hash st.toBurnState burn.txout
  let leaf ← cycleLeaf bp pegdb nPegSupplyIndex bridge burn
  return {
    toBurnState := added
    bridge_cycle_burn_txouts := Function.update st.bridge_cycle_burn_txouts bridge.hash
      ((st.bridge_cycle_burn_txouts bridge.hash).insert leaf) }

def addCycleBridge (block : CycleBlock) (st : CycleState) (bridge : BridgeEntry) :
    Option CycleState :=
  if bridge.pegSteps < 1 ∨ bridge.microSteps < 1 then some st
  else (block.burns (getHex bridge.hash)).foldlM (addCycleBurn bp pegdb nPegSupplyIndex bridge) st

def refreshBridges (block : CycleBlock) (st : CycleState) : CycleState where
  toBurnState := (block.bridges.map (readBridges nHeight st.toBurnState)).getD st.toBurnState
  bridge_cycle_burn_txouts := st.bridge_cycle_burn_txouts

def addCycleBlock (st : CycleState) (block : CycleBlock) : Option CycleState :=
  (refreshBridges nHeight block st).bridges.foldlM (addCycleBridge bp pegdb nPegSupplyIndex block)
    (refreshBridges nHeight block st)

/-- The loop of `ConnectBridgeCycleBurns` over the blocks of a cycle, leaves included. -/
def collectCycle (cycle : List CycleBlock) (queue : MapFractions) : Option CycleState :=
  cycle.foldlM (addCycleBlock bp pegdb nPegSupplyIndex nHeight)
    { mapQueuedFractionsChanges := queue }

end Model

def mergeBridges (bridges new : List BridgeEntry) : List BridgeEntry :=
  new ++ bridges.filter fun old => ∀ entry ∈ new, entry.hash ≠ old.hash

def BridgeEntry.hasSteps (bridge : BridgeEntry) : Bool := 1 ≤ bridge.pegSteps ∧ 1 ≤ bridge.microSteps

def CycleBlock.added (bridges : List BridgeEntry) (block : CycleBlock) :
    List (BridgeEntry × BurnTxout) :=
  (bridges.filter (·.hasSteps)).flatMap fun bridge =>
    (block.burns (getHex bridge.hash)).map fun burn => (bridge, burn)

/-- All burns of a cycle that are added, from the bridges that are known before it. -/
def cycleAdded (bridges : List BridgeEntry) : List CycleBlock → List (BridgeEntry × BurnTxout)
  | [] => []
  | block :: rest =>
    let bridges := (block.bridges.map (mergeBridges bridges)).getD bridges
    block.added bridges ++ cycleAdded bridges rest

/-! ## What the loop adds -/

section Loop

variable {bp : BridgeParams} {pegdb : MapFractions} {nPegSupplyIndex : ℤ} {nHeight : ℕ}
  {st st' : CycleState} {bridge : BridgeEntry} {burn : BurnTxout} {block : CycleBlock}
  {cycle : List CycleBlock} {queue : MapFractions} {done : List (BridgeEntry × BurnTxout)}

def storedColumns (pegdb : MapFractions) (fkey : UInt320) : Columns :=
  (pegdb fkey).elim 0 CFractions.cols

def addedColumns (pegdb : MapFractions) (brhash : UInt256)
    (done : List (BridgeEntry × BurnTxout)) : Columns :=
  ((done.filter (·.1.hash = brhash)).map fun a => storedColumns pegdb a.2.txout).sum

theorem addedColumns_append (brhash : UInt256) (more : List (BridgeEntry × BurnTxout)) :
    addedColumns pegdb brhash (done ++ more) =
      addedColumns pegdb brhash done + addedColumns pegdb brhash more := by
  simp [addedColumns, List.filter_append, List.map_append, List.sum_append]

theorem cycleLeaf_burn {leaf : BurnLeaf}
    (h : cycleLeaf bp pegdb nPegSupplyIndex bridge burn = some leaf) : leaf.burn = burn := by
  simp only [cycleLeaf, Option.bind_eq_bind, Option.bind_eq_some_iff] at h
  obtain ⟨fractions, -, fc1, -, h⟩ := h
  obtain rfl := Option.some.inj h
  rfl

structure CycleAdds (bp : BridgeParams) (pegdb : MapFractions) (nPegSupplyIndex : ℤ)
    (st : CycleState) (done : List (BridgeEntry × BurnTxout)) : Prop where
  fractions : ∀ brhash,
    (st.bridges_burn_fractions brhash).elim 0 CFractions.cols = addedColumns pegdb brhash done
  stored : ∀ a ∈ done, (pegdb a.2.txout).isSome
  leaves : ∀ brhash leaf, leaf ∈ st.bridge_cycle_burn_txouts brhash ↔
    ∃ a ∈ done, a.1.hash = brhash ∧ cycleLeaf bp pegdb nPegSupplyIndex a.1 a.2 = some leaf
  made : ∀ a ∈ done, (cycleLeaf bp pegdb nPegSupplyIndex a.1 a.2).isSome

theorem addBurn_ok {brhash : UInt256} {fkey : UInt320} {st st' : BurnState}
    (h : addBurn pegdb brhash st fkey = some st') :
    ∃ fractions, pegdb fkey = some fractions ∧ st' = { st with
      bridges_burn_fractions := Function.update st.bridges_burn_fractions brhash
        (some ((st.bridges_burn_fractions brhash).getD {} + fractions.toStd)) } := by
  unfold addBurn at h
  split at h
  · cases h
  · rename_i fractions hread
    refine ⟨fractions, ?_, (Option.some.inj h).symm⟩
    unfold readFractions at hread
    cases hfound : pegdb fkey with
    | none => simp [hfound] at hread
    | some fr => simpa [hfound] using hread

theorem addCycleBurn_ok (h : addCycleBurn bp pegdb nPegSupplyIndex bridge st burn = some st') :
    ∃ leaf, addBurn pegdb bridge.hash st.toBurnState burn.txout = some st'.toBurnState ∧
      cycleLeaf bp pegdb nPegSupplyIndex bridge burn = some leaf ∧
      st'.bridge_cycle_burn_txouts = Function.update st.bridge_cycle_burn_txouts bridge.hash
        ((st.bridge_cycle_burn_txouts bridge.hash).insert leaf) := by
  simp only [addCycleBurn, Option.bind_eq_bind, Option.bind_eq_some_iff] at h
  obtain ⟨added, hadded, leaf, hleaf, h⟩ := h
  obtain rfl := Option.some.inj h
  exact ⟨leaf, hadded, hleaf, rfl⟩

/-- One burn. -/
theorem CycleAdds.addCycleBurn (hst : CycleAdds bp pegdb nPegSupplyIndex st done)
    (h : addCycleBurn bp pegdb nPegSupplyIndex bridge st burn = some st') :
    CycleAdds bp pegdb nPegSupplyIndex st' (done ++ [(bridge, burn)]) := by
  obtain ⟨leaf, hadded, hleaf, htxouts⟩ := addCycleBurn_ok h
  obtain ⟨fractions, hfound, hstate⟩ := addBurn_ok hadded
  have hone : ∀ brhash, addedColumns pegdb brhash [(bridge, burn)] =
      if bridge.hash = brhash then fractions.cols else 0 := by
    intro brhash
    by_cases hsame : bridge.hash = brhash
    · simp [addedColumns, storedColumns, hsame, hfound]
    · simp [addedColumns, hsame]
  constructor
  · intro brhash
    rw [addedColumns_append, hone, ← hst.fractions, hstate]
    dsimp only
    by_cases hsame : bridge.hash = brhash
    · subst hsame
      rw [Function.update_self, if_pos rfl, Option.elim_some, CFractions.cols_add,
        CFractions.cols_toStd]
      cases st.bridges_burn_fractions bridge.hash with
      | none => exact congrArg (· + fractions.cols) CFractions.cols_default
      | some b => rfl
    · rw [Function.update_of_ne (Ne.symm hsame), if_neg hsame, add_zero]
  · intro a ha
    rcases List.mem_append.mp ha with ha | ha
    · exact hst.stored a ha
    · rw [List.mem_singleton.mp ha, hfound]
      rfl
  · intro brhash entry
    rw [htxouts]
    simp only [List.mem_append, List.mem_singleton, or_and_right, exists_or, exists_eq_left]
    rw [← hst.leaves]
    by_cases hsame : brhash = bridge.hash
    · subst hsame
      rw [Function.update_self, List.mem_insert_iff, hleaf]
      grind
    · rw [Function.update_of_ne hsame]
      grind
  · intro a ha
    rcases List.mem_append.mp ha with ha | ha
    · exact hst.made a ha
    · rw [List.mem_singleton.mp ha, hleaf]
      rfl

/-- The burns of a block for one bridge. -/
theorem CycleAdds.addCycleBridge (hst : CycleAdds bp pegdb nPegSupplyIndex st done)
    (h : addCycleBridge bp pegdb nPegSupplyIndex block st bridge = some st') :
    CycleAdds bp pegdb nPegSupplyIndex st' (done ++ block.added [bridge]) := by
  unfold BitBay.addCycleBridge at h
  split_ifs at h with hsteps
  · cases h
    have hnone : bridge.hasSteps = false := by
      simp only [BridgeEntry.hasSteps, decide_eq_false_iff_not]
      omega
    simpa [CycleBlock.added, hnone] using hst
  · have hsome : bridge.hasSteps = true := by
      simp only [BridgeEntry.hasSteps, decide_eq_true_eq]
      omega
    have hall := foldlM_some_append (fun burn => [(bridge, burn)])
      (P := CycleAdds bp pegdb nPegSupplyIndex)
      (fun burn _ st st' done hst h => hst.addCycleBurn h) hst h
    simpa [CycleBlock.added, hsome, List.flatMap_singleton', ← List.map_eq_flatMap] using hall

theorem readBridges_bridges {st : BurnState} (bridges : List BridgeEntry) :
    (readBridges nHeight st bridges).bridges = mergeBridges st.bridges bridges := by
  have hloop : ∀ (l : List BridgeEntry) (st : BurnState),
      (l.foldl (openBridgePool nHeight) st).bridges = st.bridges := by
    intro l
    induction l with
    | nil => exact fun _ => rfl
    | cons bridge rest ih =>
      intro st
      rw [List.foldl_cons, ih]
      unfold openBridgePool
      split_ifs <;> rfl
  unfold readBridges
  rw [hloop]
  rfl

theorem refreshBridges_bridges : (refreshBridges nHeight block st).bridges =
    (block.bridges.map (mergeBridges st.bridges)).getD st.bridges := by
  unfold refreshBridges
  cases block.bridges with
  | none => rfl
  | some bridges => exact readBridges_bridges bridges

theorem CycleAdds.refreshBridges (hst : CycleAdds bp pegdb nPegSupplyIndex st done) :
    CycleAdds bp pegdb nPegSupplyIndex (refreshBridges nHeight block st) done := by
  refine ⟨?_, hst.stored, hst.leaves, hst.made⟩
  have hburned : (BitBay.refreshBridges nHeight block st).bridges_burn_fractions =
      st.bridges_burn_fractions := by
    unfold BitBay.refreshBridges
    cases block.bridges with
    | none => rfl
    | some bridges => exact readBridges_burned bridges
  rw [hburned]
  exact hst.fractions

theorem addCycleBridge_bridges (h : addCycleBridge bp pegdb nPegSupplyIndex block st bridge =
      some st') : st'.bridges = st.bridges := by
  unfold addCycleBridge at h
  split_ifs at h
  · cases h
    rfl
  · refine foldlM_some_invariant (P := fun s : CycleState => s.bridges = st.bridges) ?_ rfl h
    intro burn _ s s' hs hstep
    obtain ⟨leaf, hadded, -, -⟩ := addCycleBurn_ok hstep
    obtain ⟨fractions, -, hstate⟩ := addBurn_ok hadded
    rw [hstate]
    exact hs

/-- The loop over a cycle adds its burns. -/
theorem collectCycle_adds (hst : CycleAdds bp pegdb nPegSupplyIndex st done)
    (h : cycle.foldlM (addCycleBlock bp pegdb nPegSupplyIndex nHeight) st = some st') :
    CycleAdds bp pegdb nPegSupplyIndex st' (done ++ cycleAdded st.bridges cycle) := by
  induction cycle generalizing st done with
  | nil =>
    cases h
    simpa [cycleAdded] using hst
  | cons block rest ih =>
    rw [List.foldlM_cons, Option.bind_eq_bind, Option.bind_eq_some_iff] at h
    obtain ⟨mid, hfirst, hrest⟩ := h
    unfold addCycleBlock at hfirst
    have hread : CycleAdds bp pegdb nPegSupplyIndex (refreshBridges nHeight block st) done :=
      hst.refreshBridges
    have hmid := foldlM_some_append (fun bridge => block.added [bridge])
      (P := CycleAdds bp pegdb nPegSupplyIndex)
      (fun bridge _ st st' done hst h => hst.addCycleBridge h) hread hfirst
    have hbridges : mid.bridges = (refreshBridges nHeight block st).bridges :=
      foldlM_some_invariant
        (P := fun s : CycleState => s.bridges = (refreshBridges nHeight block st).bridges)
        (fun bridge _ s s' hs hstep => (addCycleBridge_bridges hstep).trans hs) rfl hfirst
    have hflat : (refreshBridges nHeight block st).bridges.flatMap (fun bridge => block.added [bridge]) =
        block.added (refreshBridges nHeight block st).bridges := by
      generalize (refreshBridges nHeight block st).bridges = l
      induction l with
      | nil => rfl
      | cons bridge l ihl =>
        rw [List.flatMap_cons, ihl]
        unfold CycleBlock.added
        rw [← List.flatMap_append, ← List.filter_append, List.singleton_append]
    have hdone := ih hmid hrest
    rw [hflat, hbridges, refreshBridges_bridges, List.append_assoc] at hdone
    exact hdone

theorem collectCycle_added (h : collectCycle bp pegdb nPegSupplyIndex nHeight cycle queue = some st) :
    CycleAdds bp pegdb nPegSupplyIndex st (cycleAdded [] cycle) := by
  have hempty : CycleAdds bp pegdb nPegSupplyIndex { mapQueuedFractionsChanges := queue } [] := by
    refine ⟨fun _ => rfl, ?_, ?_, ?_⟩
    · intro a ha
      cases ha
    · intro brhash leaf
      simp
    · intro a ha
      cases ha
  exact collectCycle_adds hempty h

/-- Without the leaves it is the loop that a block runs. -/
theorem collectCycle_collectBurns
    (h : collectCycle bp pegdb nPegSupplyIndex nHeight cycle queue = some st) :
    collectBurns pegdb nHeight (cycle.map (·.toBurnBlock)) queue = some st.toBurnState := by
  refine foldlM_some_map CycleState.toBurnState CycleBlock.toBurnBlock ?_ h
  intro block _ s s' hblock
  unfold addCycleBlock at hblock
  unfold addBlockBurns
  have hloop := foldlM_some_map CycleState.toBurnState id
    (g := addBridgeBurns pegdb block.toBurnBlock) (fun bridge _ s s' hbridge => ?_) hblock
  · rw [List.map_id] at hloop
    exact hloop
  · unfold addCycleBridge at hbridge
    unfold addBridgeBurns
    split_ifs at hbridge with hsteps
    · rw [id, if_pos hsteps]
      exact congrArg _ (congrArg _ (Option.some.inj hbridge))
    · rw [id, if_neg hsteps]
      refine foldlM_some_map CycleState.toBurnState BurnTxout.txout ?_ hbridge
      intro burn _ s s' hburn
      obtain ⟨leaf, hadded, -, -⟩ := addCycleBurn_ok hburn
      exact hadded

end Loop

/-! ## Burns are added once -/

section Once

variable {net : Params} {block : CBlock} {h h' : CString} {burn burn' : BurnTxout}

/-- A record is an output of the block whose notary burns for the bridge. -/
theorem mem_blockBurnsToBridge : burn ∈ blockBurnsToBridge net block h ↔
    ∃ tx ∈ block.vtx, burn.txout.hash = net.getHash tx ∧ ∃ out, tx.vout[burn.txout.n]? = some out ∧
      out.scriptPubKey.toNotary.bind burnOfNotary = some (h, burn.dst_addr) := by
  rw [blockBurnsToBridge, List.mem_dedup, List.mem_flatMap]
  refine exists_congr fun tx => and_congr_right fun _ => ?_
  rw [List.mem_filterMap]
  constructor
  · rintro ⟨⟨out, n⟩, hout, hburn⟩
    unfold burnTxout at hburn
    split at hburn
    · cases hburn
    · rename_i hash dst_addr hnotary
      split_ifs at hburn with hsame
      cases hburn
      exact ⟨rfl, out, List.mem_zipIdx_iff_getElem?.mp hout, hsame ▸ hnotary⟩
  · rintro ⟨hhash, out, hout, hnotary⟩
    refine ⟨(out, burn.txout.n), List.mem_zipIdx_iff_getElem?.mpr hout, ?_⟩
    simp only [burnTxout, hnotary, if_true, ← hhash]

/-- An output of a block is one record, for one bridge. -/
theorem blockBurns_inj (hids : (block.vtx.map net.getHash).Nodup)
    (hburn : burn ∈ blockBurnsToBridge net block h)
    (hburn' : burn' ∈ blockBurnsToBridge net block h') (hsame : burn.txout = burn'.txout) :
    burn = burn' ∧ h = h' := by
  obtain ⟨tx, htx, hhash, out, hout, hnotary⟩ := mem_blockBurnsToBridge.mp hburn
  obtain ⟨tx', htx', hhash', out', hout', hnotary'⟩ := mem_blockBurnsToBridge.mp hburn'
  have htxs : tx = tx' :=
    List.inj_on_of_nodup_map hids htx htx' (hhash.symm.trans ((congrArg _ hsame).trans hhash'))
  subst htxs
  rw [← hsame, hout] at hout'
  obtain rfl := Option.some.inj hout'
  rw [hnotary] at hnotary'
  obtain ⟨rfl, haddr⟩ := Prod.mk.inj (Option.some.inj hnotary')
  refine ⟨?_, rfl⟩
  obtain ⟨txout, dst_addr⟩ := burn
  obtain ⟨txout', dst_addr'⟩ := burn'
  dsimp only at hsame haddr
  rw [hsame, haddr]

/-- The records that a cycle reads of a block: an output is one of them, for one bridge. -/
structure CycleBlock.OwnBurns (x : CycleBlock) : Prop where
  nodup : ∀ h, (x.burns h).Nodup
  inj : ∀ h h' burn burn', burn ∈ x.burns h → burn' ∈ x.burns h' → burn.txout = burn'.txout →
    burn = burn' ∧ h = h'

theorem blockBurns_own (hids : (block.vtx.map net.getHash).Nodup)
    (bridges : Option (List BridgeEntry)) :
    CycleBlock.OwnBurns ⟨bridges, blockBurnsToBridge net block⟩ where
  nodup := fun _ => List.nodup_dedup _
  inj := fun _ _ _ _ hburn hburn' hsame => blockBurns_inj hids hburn hburn' hsame

variable {x : CycleBlock} {cycle : List CycleBlock} {bridges table : List BridgeEntry}
  {a : BridgeEntry × BurnTxout} {entry : BridgeEntry}

theorem CycleBlock.mem_added : a ∈ x.added bridges ↔
    a.1 ∈ bridges ∧ a.1.hasSteps = true ∧ a.2 ∈ x.burns (getHex a.1.hash) := by
  obtain ⟨bridge, burn⟩ := a
  simp only [CycleBlock.added, List.mem_flatMap, List.mem_filter, List.mem_map, Prod.mk.injEq]
  constructor
  · rintro ⟨bridge, ⟨hmem, hsteps⟩, burn, hburn, rfl, rfl⟩
    exact ⟨hmem, hsteps, hburn⟩
  · rintro ⟨hmem, hsteps, hburn⟩
    exact ⟨bridge, ⟨hmem, hsteps⟩, burn, hburn, rfl, rfl⟩

/-- What is added are burns of blocks of the cycle. -/
theorem mem_cycleAdded (h : a ∈ cycleAdded bridges cycle) :
    ∃ x ∈ cycle, a.2 ∈ x.burns (getHex a.1.hash) := by
  induction cycle generalizing bridges with
  | nil => cases h
  | cons x rest ih =>
    rcases List.mem_append.mp h with h | h
    · exact ⟨x, List.mem_cons_self, (CycleBlock.mem_added.mp h).2.2⟩
    · obtain ⟨y, hy, hburn⟩ := ih h
      exact ⟨y, List.mem_cons_of_mem x hy, hburn⟩

/-- As long as the bridges are not read again, the burns for a known one are added. -/
theorem mem_cycleAdded_known {i : ℕ} (hentry : entry ∈ bridges) (hsteps : entry.hasSteps = true)
    (hx : cycle[i]? = some x)
    (hnone : ∀ j y, j ≤ i → cycle[j]? = some y → y.bridges = none)
    (hburn : burn ∈ x.burns (getHex entry.hash)) : (entry, burn) ∈ cycleAdded bridges cycle := by
  induction cycle generalizing i with
  | nil => cases hx
  | cons y rest ih =>
    have hy : y.bridges = none := hnone 0 y (Nat.zero_le i) rfl
    rw [cycleAdded, hy, Option.map_none, Option.getD_none, List.mem_append]
    cases i with
    | zero =>
      obtain rfl := Option.some.inj hx
      exact Or.inl (CycleBlock.mem_added.mpr ⟨hentry, hsteps, hburn⟩)
    | succ i => exact Or.inr (ih hx fun j z hj hz => hnone (j + 1) z (Nat.succ_le_succ hj) hz)

/-- The burns for a bridge of the map that was read last are added. -/
theorem mem_cycleAdded_read {i₀ i : ℕ} {x₀ : CycleBlock} (hx₀ : cycle[i₀]? = some x₀)
    (htable : x₀.bridges = some table) (hentry : entry ∈ table) (hsteps : entry.hasSteps = true)
    (hle : i₀ ≤ i) (hx : cycle[i]? = some x)
    (hnone : ∀ j y, i₀ < j → j ≤ i → cycle[j]? = some y → y.bridges = none)
    (hburn : burn ∈ x.burns (getHex entry.hash)) : (entry, burn) ∈ cycleAdded bridges cycle := by
  induction cycle generalizing bridges i₀ i with
  | nil => cases hx
  | cons y rest ih =>
    rw [cycleAdded, List.mem_append]
    cases i₀ with
    | succ i₀ =>
      obtain ⟨i, rfl⟩ := Nat.exists_eq_add_of_le' (Nat.le_trans (Nat.le_add_left 1 i₀) hle)
      exact Or.inr (ih hx₀ (Nat.le_of_succ_le_succ hle) hx fun j z hlt hj hz =>
        hnone (j + 1) z (Nat.succ_lt_succ hlt) (Nat.succ_le_succ hj) hz)
    | zero =>
      obtain rfl := Option.some.inj hx₀
      rw [htable, Option.map_some, Option.getD_some]
      have hmerged : entry ∈ mergeBridges bridges table := List.mem_append_left _ hentry
      cases i with
      | zero =>
        obtain rfl := Option.some.inj hx
        exact Or.inl (CycleBlock.mem_added.mpr ⟨hmerged, hsteps, hburn⟩)
      | succ i =>
        exact Or.inr (mem_cycleAdded_known hmerged hsteps hx (fun j z hj hz =>
          hnone (j + 1) z (Nat.succ_pos j) (Nat.succ_le_succ hj) hz) hburn)

theorem mergeBridges_nodup (hold : (bridges.map (·.hash)).Nodup)
    (hnew : (table.map (·.hash)).Nodup) : ((mergeBridges bridges table).map (·.hash)).Nodup := by
  rw [mergeBridges, List.map_append, List.nodup_append]
  refine ⟨hnew, hold.sublist (List.filter_sublist.map _), ?_⟩
  rintro a ha b hb rfl
  obtain ⟨new, hmem, rfl⟩ := List.mem_map.mp ha
  obtain ⟨old, hkept, heq⟩ := List.mem_map.mp hb
  have hne : ∀ entry ∈ table, entry.hash ≠ old.hash := by
    simpa using (List.mem_filter.mp hkept).2
  exact hne new hmem heq.symm

theorem CycleBlock.added_nodup (hx : x.OwnBurns) (hbridges : (bridges.map (·.hash)).Nodup) :
    ((x.added bridges).map (·.2.txout)).Nodup := by
  rw [CycleBlock.added, List.map_flatMap, List.nodup_flatMap]
  constructor
  · intro bridge _
    rw [List.map_map]
    exact (hx.nodup _).map_on fun burn hburn burn' hburn' hsame =>
      (hx.inj _ _ _ _ hburn hburn' hsame).1
  · have hdistinct : (bridges.filter (·.hasSteps)).Pairwise fun a b => a.hash ≠ b.hash :=
      (List.pairwise_map.mp hbridges).sublist List.filter_sublist
    refine hdistinct.imp fun {b b'} hne => ?_
    intro fkey hmem hmem'
    simp only [List.map_map, List.mem_map, Function.comp_apply] at hmem hmem'
    obtain ⟨burn, hburn, rfl⟩ := hmem
    obtain ⟨burn', hburn', hsame⟩ := hmem'
    exact hne (getHex_injective (hx.inj _ _ _ _ hburn hburn' hsame.symm).2)

/-- No output is added twice in a cycle whose blocks have different outputs. -/
theorem cycleAdded_nodup (hown : ∀ x ∈ cycle, x.OwnBurns)
    (hother : cycle.Pairwise fun x y => ∀ h h' burn burn', burn ∈ x.burns h → burn' ∈ y.burns h' →
      burn.txout ≠ burn'.txout)
    (htables : ∀ x ∈ cycle, ∀ table, x.bridges = some table → (table.map (·.hash)).Nodup)
    (hbridges : (bridges.map (·.hash)).Nodup) :
    ((cycleAdded bridges cycle).map (·.2.txout)).Nodup := by
  induction cycle generalizing bridges with
  | nil => exact List.nodup_nil
  | cons x rest ih =>
    obtain ⟨hfirst, hother⟩ := List.pairwise_cons.mp hother
    have hread : (((x.bridges.map (mergeBridges bridges)).getD bridges).map (·.hash)).Nodup := by
      cases htable : x.bridges with
      | none => exact hbridges
      | some table => exact mergeBridges_nodup hbridges (htables x List.mem_cons_self table htable)
    rw [cycleAdded, List.map_append, List.nodup_append]
    refine ⟨CycleBlock.added_nodup (hown x List.mem_cons_self) hread,
      ih (fun y hy => hown y (List.mem_cons_of_mem x hy)) hother
        (fun y hy => htables y (List.mem_cons_of_mem x hy)) hread, ?_⟩
    rintro fkey hmem fkey' hmem' rfl
    obtain ⟨a, ha, rfl⟩ := List.mem_map.mp hmem
    obtain ⟨b, hb, hsame⟩ := List.mem_map.mp hmem'
    obtain ⟨y, hy, hburn⟩ := mem_cycleAdded hb
    exact hfirst y hy _ _ _ _ (CycleBlock.mem_added.mp ha).2.2 hburn hsame.symm

end Once

/-! ## The pools that a cycle reaches -/

section Reached

variable {votes : VoteParams} {nBridgeInterval : ℕ} {ctx : BlockContext} {pegdb : MapFractions}
  {nHeight : ℕ} {st st' : BurnState} {cycle : List BurnBlock} {queue queue' : MapFractions}
  {hashes : Set UInt256}

def namedBridges (cycle : List BurnBlock) : Set UInt256 :=
  { brhash | ∃ block ∈ cycle, ∃ bridges, block.bridges = some bridges ∧
    brhash ∈ bridges.map (·.hash) }

/-- Only known bridges get burns and pools, and these are named somewhere. -/
structure BurnState.Named (st : BurnState) (queue : MapFractions) (hashes : Set UInt256) : Prop where
  named : ∀ brhash ∈ st.bridge_hashes, brhash ∈ hashes
  burned : ∀ brhash, (st.bridges_burn_fractions brhash).isSome → brhash ∈ st.bridge_hashes
  keys : ∀ fkey, (st.mapQueuedFractionsChanges fkey).isSome → (queue fkey).isSome ∨
    fkey.hash ∈ st.bridge_hashes

structure BurnState.Knows (st : BurnState) (queue : MapFractions) (hashes : Set UInt256) : Prop
    extends st.Named queue hashes where
  bridges : ∀ bridge ∈ st.bridges, bridge.hash ∈ st.bridge_hashes

theorem openBridgePool_named {bridge : BridgeEntry} (h : st.Named queue hashes)
    (hbridge : bridge.hash ∈ hashes) (nHeight : ℕ) :
    (openBridgePool nHeight st bridge).Named queue hashes ∧
      bridge.hash ∈ (openBridgePool nHeight st bridge).bridge_hashes ∧
      ∀ brhash ∈ st.bridge_hashes, brhash ∈ (openBridgePool nHeight st bridge).bridge_hashes := by
  have hgrown : ∀ brhash ∈ st.bridge_hashes ++ [bridge.hash], brhash ∈ hashes := by
    intro brhash hmem
    rcases List.mem_append.mp hmem with hmem | hmem
    · exact h.named brhash hmem
    · exact List.mem_singleton.mp hmem ▸ hbridge
  unfold openBridgePool
  split_ifs with hthere hqueued
  · exact ⟨h, hthere, fun _ hmem => hmem⟩
  · refine ⟨⟨hgrown, ?_, ?_⟩, List.mem_append_right _ (List.mem_singleton_self _),
      fun _ hmem => List.mem_append_left _ hmem⟩
    · exact fun brhash hsome => List.mem_append_left _ (h.burned brhash hsome)
    · exact fun fkey hsome => (h.keys fkey hsome).imp_right fun hmem => List.mem_append_left _ hmem
  · refine ⟨⟨hgrown, ?_, ?_⟩, List.mem_append_right _ (List.mem_singleton_self _),
      fun _ hmem => List.mem_append_left _ hmem⟩
    · exact fun brhash hsome => List.mem_append_left _ (h.burned brhash hsome)
    · intro fkey hsome
      dsimp only at hsome ⊢
      by_cases hsame : fkey = ⟨bridge.hash, nHeight⟩
      · exact Or.inr (by simp [hsame])
      · rw [Function.update_of_ne hsame] at hsome
        exact (h.keys fkey hsome).imp_right fun hmem => List.mem_append_left _ hmem

theorem openBridgePools_named {l : List BridgeEntry} (h : st.Named queue hashes)
    (hl : ∀ bridge ∈ l, bridge.hash ∈ hashes) (nHeight : ℕ) :
    (l.foldl (openBridgePool nHeight) st).Named queue hashes ∧
      (∀ bridge ∈ l, bridge.hash ∈ (l.foldl (openBridgePool nHeight) st).bridge_hashes) ∧
      ∀ brhash ∈ st.bridge_hashes, brhash ∈ (l.foldl (openBridgePool nHeight) st).bridge_hashes := by
  induction l generalizing st with
  | nil => exact ⟨h, fun bridge hmem => (List.not_mem_nil hmem).elim, fun _ hmem => hmem⟩
  | cons bridge rest ih =>
    obtain ⟨hfirst, hthere, hgrows⟩ := openBridgePool_named h (hl bridge List.mem_cons_self) nHeight
    obtain ⟨hrest, hknown, hmore⟩ := ih hfirst fun b hb => hl b (List.mem_cons_of_mem _ hb)
    rw [List.foldl_cons]
    refine ⟨hrest, fun b hb => ?_, fun brhash hmem => hmore brhash (hgrows brhash hmem)⟩
    rcases List.mem_cons.mp hb with rfl | hb
    · exact hmore _ hthere
    · exact hknown b hb

theorem BurnState.Knows.readBridges {bridges : List BridgeEntry} (h : st.Knows queue hashes)
    (hbridges : ∀ bridge ∈ bridges, bridge.hash ∈ hashes) :
    (readBridges nHeight st bridges).Knows queue hashes := by
  have hmerged : ∀ bridge ∈ mergeBridges st.bridges bridges, bridge.hash ∈ hashes := by
    intro bridge hmem
    rcases List.mem_append.mp hmem with hmem | hmem
    · exact hbridges bridge hmem
    · exact h.named _ (h.bridges bridge (List.mem_filter.mp hmem).1)
  have hstart : BurnState.Named { st with bridges := mergeBridges st.bridges bridges } queue hashes :=
    ⟨h.named, h.burned, h.keys⟩
  obtain ⟨hnamed, hknown, -⟩ := openBridgePools_named hstart hmerged nHeight
  refine ⟨hnamed, ?_⟩
  rw [readBridges_bridges]
  exact hknown

theorem collectBurns_knows (h : collectBurns pegdb nHeight cycle queue = some st) :
    st.Knows queue (namedBridges cycle) := by
  refine foldlM_some_invariant (P := fun st : BurnState => st.Knows queue (namedBridges cycle))
    ?_ ?_ h
  · intro block hblock mid next hmid hstep
    unfold addBlockBurns at hstep
    have hread : BurnState.Knows ((block.bridges.map (readBridges nHeight mid)).getD mid) queue
        (namedBridges cycle) := by
      cases hbridges : block.bridges with
      | none => exact hmid
      | some bridges =>
        exact hmid.readBridges fun bridge hmem =>
          ⟨block, hblock, bridges, hbridges, List.mem_map.mpr ⟨bridge, hmem, rfl⟩⟩
    have hloop := foldlM_some_invariant
      (P := fun st : BurnState => st.Knows queue (namedBridges cycle) ∧ st.bridges =
        ((block.bridges.map (readBridges nHeight mid)).getD mid).bridges) ?_ ⟨hread, rfl⟩ hstep
    · exact hloop.1
    rintro bridge hbridge s s' ⟨hs, hbridges⟩ hadd
    unfold addBridgeBurns at hadd
    split_ifs at hadd
    · cases hadd
      exact ⟨hs, hbridges⟩
    split at hadd
    · cases hadd
    refine foldlM_some_invariant (P := fun st : BurnState => st.Knows queue (namedBridges cycle) ∧
      st.bridges = ((block.bridges.map (readBridges nHeight mid)).getD mid).bridges) ?_
      ⟨hs, hbridges⟩ hadd
    rintro fkey - s s' ⟨hs, hbridges⟩ hburn
    obtain ⟨fractions, -, rfl⟩ := addBurn_ok hburn
    refine ⟨⟨⟨hs.named, ?_, hs.keys⟩, hs.bridges⟩, hbridges⟩
    intro brhash hsome
    dsimp only at hsome ⊢
    by_cases hsame : brhash = bridge.hash
    · exact hsame ▸ hs.bridges bridge (hbridges ▸ hbridge)
    · rw [Function.update_of_ne hsame] at hsome
      exact hs.burned brhash hsome
  · refine ⟨⟨?_, ?_, fun fkey hsome => Or.inl hsome⟩, ?_⟩
    · intro brhash hmem
      cases hmem
    · intro brhash hsome
      cases hsome
    · intro bridge hmem
      cases hmem

/-- What a known bridge gets from the burns. -/
theorem BurnState.Knows.added (h : st.Knows queue hashes) (brhash : UInt256) :
    st.added brhash = (st.bridges_burn_fractions brhash).elim 0 CFractions.cols := by
  unfold BurnState.added
  split_ifs with hthere
  · rfl
  · cases hburned : st.bridges_burn_fractions brhash with
    | none => rfl
    | some fr => exact absurd (h.burned brhash (by rw [hburned]; rfl)) hthere

theorem transitBurns_keys {burned : UInt256 → Option CFractions} {l : List UInt256} {fkey : UInt320}
    (h : l.foldlM (transitBurns nHeight burned) queue = some queue')
    (hsome : (queue' fkey).isSome) : (queue fkey).isSome := by
  by_contra hnone
  have hkept := foldlM_some_invariant
    (P := fun q : MapFractions => (q fkey).isSome = false) ?_ (by simpa using hnone) h
  · rw [hkept] at hsome
    cases hsome
  · intro brhash _ q q' hq hstep
    obtain ⟨fr, pool, hfr, rfl, -⟩ := transitBurns_ok hstep
    by_cases hsame : fkey = ⟨brhash, nHeight⟩
    · subst hsame
      rw [hfr] at hq
      cases hq
    · rw [Function.update_of_ne hsame]
      exact hq

/-- The pools that a block begins with are pools of bridges that its maps name. -/
theorem bridgePools_keys (h : bridgePools votes nBridgeInterval ctx pegdb nHeight = some queue)
    {fkey : UInt320} (hsome : (queue fkey).isSome) :
    fkey.hash ∈ ctx.poolBridges ∨ (votes.nPegStartHeight ≤ nHeight + 1 ∧
      nHeight % nBridgeInterval = 0) ∧ fkey.hash ∈ namedBridges ctx.burnCycle := by
  unfold bridgePools at h
  obtain ⟨taken, htaken, h⟩ := Option.bind_eq_some_iff.mp h
  have hfirst : (taken fkey).isSome → fkey.hash ∈ ctx.poolBridges := by
    intro htaken_some
    unfold fetchBridgePoolsFractions at htaken
    split_ifs at htaken
    · cases htaken
      cases htaken_some
    · rw [fetchBridgePools_ok htaken] at htaken_some
      split_ifs at htaken_some with hmem
      · exact hmem.2
      · cases htaken_some
  unfold connectBridgeCycleBurns at h
  split_ifs at h with hidle
  · cases h
    exact Or.inl (hfirst hsome)
  · obtain ⟨st, hst, h⟩ := Option.bind_eq_some_iff.mp h
    have hknows := collectBurns_knows hst
    rw [not_or, not_lt, not_not] at hidle
    rcases hknows.keys fkey (transitBurns_keys h hsome) with htaken_some | hmem
    · exact Or.inl (hfirst htaken_some)
    · exact Or.inr ⟨hidle, hknows.named _ hmem⟩

end Reached

end BitBay
