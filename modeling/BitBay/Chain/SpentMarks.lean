import BitBay.Chain.DoubleMint

/-!
# Marks of the spent outputs

The entry of a transaction in the index has a mark for every output: the place of the
transaction that spends it. Connecting a transaction sets the marks of what it spends, and
taking it back clears them. As long as no transaction is connected that is on the chain
already, the marks say what the chain spends, and it spends every output at most once. The
inputs of mints refer to leaves and not to outputs.
-/
namespace BitBay

open Run

section Places

variable (net : Params) (rules : BlockRules)

/-- The transactions of a block with their places, the first one at `nTxPos`. -/
def placesFrom (disk : DiskBlock) (nTxPos : ℕ) :
    List CTransaction → List (CTransaction × CDiskTxPos)
  | [] => []
  | tx :: rest => (tx, ⟨disk.nFile, disk.nBlockPos, nTxPos⟩) ::
      placesFrom disk (nTxPos + rules.txSize tx) rest

def DiskBlock.placed (disk : DiskBlock) : List (CTransaction × CDiskTxPos) :=
  placesFrom rules disk (disk.nBlockPos + rules.headerSize disk.block.vtx.length) disk.block.vtx

/-- The transactions of a chain with their places, the last one first. -/
def placedTxs (chain : List ChainEntry) : List (CTransaction × CDiskTxPos) :=
  chain.flatMap fun e => (e.disk.placed rules).reverse

def CTransaction.spendsOutputs (tx : CTransaction) : Bool := !tx.isCoinBase ∧ !tx.isCoinMint

/-- The place of a transaction, once for every input that spends the output. -/
def ownSpends (t : CTransaction × CDiskTxPos) (prevout : COutPoint) : List CDiskTxPos :=
  if t.1.spendsOutputs then (t.1.vin.filter (·.prevout = prevout)).map fun _ => t.2 else []

def spenders (txs : List (CTransaction × CDiskTxPos)) (prevout : COutPoint) : List CDiskTxPos :=
  txs.flatMap (ownSpends · prevout)

/-- The mark of an output: null while nothing spends it, and the place of the one input that
does after that. -/
def CDiskTxPos.Marks (mark : CDiskTxPos) (places : List CDiskTxPos) : Prop :=
  mark.isNull = true ∧ places = [] ∨ mark.isNull = false ∧ places = [mark]

structure CTxIndex.MarkedBy (txindex : CTxIndex) (t : CTransaction × CDiskTxPos)
    (txs : List (CTransaction × CDiskTxPos)) : Prop where
  pos : txindex.pos = t.2
  length : txindex.vSpent.length = t.1.vout.length
  marks : ∀ n < t.1.vout.length, ∃ mark, txindex.vSpent[n]? = some mark ∧
    mark.Marks (spenders txs ⟨net.getHash t.1, n⟩)

/-- What the node's chain spends: every output of a connected transaction at most once, and
the index says where. -/
def Node.SpentOnce (node : Node) : Prop :=
  ∀ t ∈ placedTxs rules node.chain.dropLast, ∃ txindex,
    node.stores.txdb (net.getHash t.1) = some txindex ∧
    txindex.MarkedBy net t (placedTxs rules node.chain.dropLast)

def txIds (txs : List (CTransaction × CDiskTxPos)) : List UInt256 := txs.map fun t => net.getHash t.1

def SpendsEarlier : List (CTransaction × CDiskTxPos) → Prop
  | [] => True
  | t :: txs => (t.1.spendsOutputs → ∀ inp ∈ t.1.vin, inp.prevout.hash ∈ txIds net txs) ∧
      SpendsEarlier txs

structure TxIndexMap.Follows (index : TxIndexMap) (txs : List (CTransaction × CDiskTxPos)) :
    Prop where
  nodup : (txIds net txs).Nodup
  earlier : SpendsEarlier net txs
  inputs : ∀ t ∈ txs, (t.1.vin.map (·.prevout)).Nodup
  entries : ∀ t ∈ txs, ∃ txindex, index (net.getHash t.1) = some txindex ∧
    txindex.MarkedBy net t txs
  known : ∀ hash txindex, index hash = some txindex → txindex.pos.isNull = false →
    hash ∈ txIds net txs

/-- No transaction of the block is on the chain already, and the leaves of its mints are not
the ids of transactions. The block is in a file: the number 2³² - 1 stands for none. -/
structure FreshBlock (chain : List ChainEntry) (disk : DiskBlock) : Prop where
  stored : disk.nFile ≠ 2 ^ 32 - 1
  txs : ∀ tx ∈ disk.block.vtx, net.getHash tx ∉ txIds net (placedTxs rules chain)
  leaves : ∀ tx ∈ disk.block.vtx, tx.isCoinMint → ∀ inp ∈ tx.vin,
    inp.prevout.hash ∉ txIds net (placedTxs rules chain) ∧
    inp.prevout.hash ∉ disk.block.vtx.map net.getHash

def Node.ConnectsFresh (before after : Node) : Prop :=
  ∀ entry, after.chain = entry :: before.chain →
    FreshBlock net rules before.chain.dropLast entry.disk

end Places

/-! ## One transaction -/

section Spends

variable {net : Params} {tx : CTransaction} {pos : CDiskTxPos} {hash : UInt256} {n : ℕ}
  {txs : List (CTransaction × CDiskTxPos)} {t : CTransaction × CDiskTxPos}

theorem spenders_cons (prevout : COutPoint) :
    spenders (t :: txs) prevout = ownSpends t prevout ++ spenders txs prevout := by
  rw [spenders, List.flatMap_cons]
  rfl

theorem ownSpends_of_not (h : tx.spendsOutputs = false) (prevout : COutPoint) :
    ownSpends (tx, pos) prevout = [] := by
  simp [ownSpends, h]

theorem ownSpends_of_not_mem (h : n ∉ spentOutputs tx.vin hash) :
    ownSpends (tx, pos) ⟨hash, n⟩ = [] := by
  rw [mem_spentOutputs] at h
  simp only [ownSpends]
  split_ifs
  · rw [List.map_eq_nil_iff, List.filter_eq_nil_iff]
    intro inp hinp heq
    exact h (List.mem_map.mpr ⟨inp, hinp, by simpa using heq⟩)
  · rfl

/-- An output that is spent is spent by one input. -/
theorem ownSpends_of_mem (hspends : tx.spendsOutputs = true)
    (hnodup : (tx.vin.map (·.prevout)).Nodup) (h : n ∈ spentOutputs tx.vin hash) :
    ownSpends (tx, pos) ⟨hash, n⟩ = [pos] := by
  rw [mem_spentOutputs] at h
  have hcount : ((tx.vin.map (·.prevout)).count ⟨hash, n⟩) = 1 := List.count_eq_one_of_mem hnodup h
  have hlength : (tx.vin.filter (·.prevout = ⟨hash, n⟩)).length = 1 := by
    rw [← hcount, List.count_eq_countP, List.countP_map, List.countP_eq_length_filter]
    congr 1
  obtain ⟨inp, hinp⟩ := List.length_eq_one_iff.mp hlength
  simp [ownSpends, hspends, hinp]

/-- An output of no transaction that came before is spent by none of them. -/
theorem SpendsEarlier.spenders_eq_nil (h : SpendsEarlier net txs) (hnot : hash ∉ txIds net txs) :
    spenders txs ⟨hash, n⟩ = [] := by
  induction txs with
  | nil => rfl
  | cons t txs ih =>
    obtain ⟨hfirst, hrest⟩ := h
    have hnot : hash ≠ net.getHash t.1 ∧ hash ∉ txIds net txs := by
      simpa [txIds, not_or] using hnot
    rw [spenders_cons, ih hrest hnot.2, List.append_nil]
    cases hspends : t.1.spendsOutputs with
    | false => exact ownSpends_of_not hspends _
    | true =>
      apply ownSpends_of_not_mem
      rw [mem_spentOutputs]
      intro hmem
      obtain ⟨inp, hinp, hprevout⟩ := List.mem_map.mp hmem
      have hid := hfirst hspends inp hinp
      rw [hprevout] at hid
      exact hnot.2 hid

theorem marks_null : CDiskTxPos.null.Marks [] := Or.inl ⟨rfl, rfl⟩

/-- The marks of an entry after its outputs are spent by one more transaction. -/
theorem CTxIndex.MarkedBy.spend {txindex : CTxIndex} (h : txindex.MarkedBy net t txs)
    (hpos : pos.isNull = false) (hspends : tx.spendsOutputs = true)
    (hnodup : (tx.vin.map (·.prevout)).Nodup)
    (hnull : ∀ n ∈ spentOutputs tx.vin (net.getHash t.1),
      (txindex.vSpent[n]?.any (·.isNull)) = true) :
    (txindex.spent pos (spentOutputs tx.vin (net.getHash t.1))).MarkedBy net t
      ((tx, pos) :: txs) where
  pos := h.pos
  length := by
    rw [CTxIndex.spent, length_foldl_set]
    exact h.length
  marks := by
    intro n hn
    obtain ⟨mark, hmark, hmarks⟩ := h.marks n hn
    rw [spenders_cons]
    by_cases hspent : n ∈ spentOutputs tx.vin (net.getHash t.1)
    · have hold : mark.isNull = true := by simpa [hmark] using hnull n hspent
      have hnone : spenders txs ⟨net.getHash t.1, n⟩ = [] := by
        rcases hmarks with ⟨-, hnone⟩ | ⟨hfalse, -⟩
        · exact hnone
        · rw [hold] at hfalse
          cases hfalse
      rw [ownSpends_of_mem hspends hnodup hspent, hnone]
      exact ⟨pos, getElem?_foldl_set_mem hspent (h.length ▸ hn), Or.inr ⟨hpos, rfl⟩⟩
    · rw [ownSpends_of_not_mem hspent, List.nil_append]
      exact ⟨mark, (getElem?_foldl_set hspent).trans hmark, hmarks⟩

/-- The marks of an entry that one more transaction leaves alone. -/
theorem CTxIndex.MarkedBy.keep {txindex : CTxIndex} (h : txindex.MarkedBy net t txs)
    (hnot : tx.spendsOutputs = false ∨ net.getHash t.1 ∉ tx.vin.map (·.prevout.hash)) :
    txindex.MarkedBy net t ((tx, pos) :: txs) where
  pos := h.pos
  length := h.length
  marks := by
    intro n hn
    have hown : ownSpends (tx, pos) ⟨net.getHash t.1, n⟩ = [] := by
      rcases hnot with hnot | hnot
      · exact ownSpends_of_not hnot _
      · apply ownSpends_of_not_mem
        rw [spentOutputs_eq_nil hnot]
        exact List.not_mem_nil
    rw [spenders_cons, hown, List.nil_append]
    exact h.marks n hn

/-- The marks of an entry before a transaction that is taken back. -/
theorem CTxIndex.MarkedBy.unspend {txindex : CTxIndex}
    (h : txindex.MarkedBy net t ((tx, pos) :: txs)) (hspends : tx.spendsOutputs = true)
    (hnodup : (tx.vin.map (·.prevout)).Nodup) :
    (txindex.spent .null (spentOutputs tx.vin (net.getHash t.1))).MarkedBy net t txs where
  pos := h.pos
  length := by
    rw [CTxIndex.spent, length_foldl_set]
    exact h.length
  marks := by
    intro n hn
    obtain ⟨mark, hmark, hmarks⟩ := h.marks n hn
    rw [spenders_cons] at hmarks
    by_cases hspent : n ∈ spentOutputs tx.vin (net.getHash t.1)
    · rw [ownSpends_of_mem hspends hnodup hspent] at hmarks
      refine ⟨.null, getElem?_foldl_set_mem hspent (h.length ▸ hn), Or.inl ⟨rfl, ?_⟩⟩
      rcases hmarks with ⟨-, hnil⟩ | ⟨-, hone⟩
      · cases hnil
      · exact (List.cons.inj hone).2
    · rw [ownSpends_of_not_mem hspent, List.nil_append] at hmarks
      exact ⟨mark, (getElem?_foldl_set hspent).trans hmark, hmarks⟩

theorem CTxIndex.MarkedBy.unkeep {txindex : CTxIndex}
    (h : txindex.MarkedBy net t ((tx, pos) :: txs)) (hspends : tx.spendsOutputs = false) :
    txindex.MarkedBy net t txs where
  pos := h.pos
  length := h.length
  marks := by
    intro n hn
    have hmarks := h.marks n hn
    rwa [spenders_cons, ownSpends_of_not hspends, List.nil_append] at hmarks

end Spends

/-! ## Connecting -/

section Connect

variable {net : Params} {votes : VoteParams} {bp : BridgeParams} {rules : BlockRules}
  {nBridgeInterval : ℕ} {ctx : BlockContext} {st st' : Stores} {place : BlockPlace}
  {disk : DiskBlock} {s s' : BlockState} {tx : CTransaction} {i : ℕ} {pos : CDiskTxPos}
  {txs : List (CTransaction × CDiskTxPos)}

theorem spendsOutputs_iff :
    tx.spendsOutputs = true ↔ tx.isCoinBase = false ∧ tx.isCoinMint = false := by
  simp [CTransaction.spendsOutputs]

/-- A previous transaction is read where its entry says, which is not nowhere. -/
theorem readPrev_pos {src : TxSource} {call : FetchCall} {hash : UInt256} {prev : PrevTx}
    {fractions : List CFractions} (hread : ∀ pos, pos.isNull = true → src.readTx pos = none)
    (hblock : call.fBlock = true) (h : readPrev src call hash = .ok (prev, fractions)) :
    prev.txindex.pos.isNull = false := by
  have hfound := readPrev_index hblock h
  simp only [readPrev, hfound] at h
  split_ifs at h with hpos
  · rw [hpos]
    rfl
  · by_contra hnull
    simp only [readDisk, hread _ (by simpa using hnull)] at h
    cases h

/-- What a transaction spends is in the index, with a place and unspent. -/
theorem connectTx_spends_null (hread : ∀ pos, pos.isNull = true → rules.readTx pos = none)
    (hspends : tx.spendsOutputs = true) (hnodup : (tx.vin.map (·.prevout)).Nodup)
    (h : connectTx net votes bp rules ctx st place disk s (tx, i) = some s') {inp : CTxIn}
    (hinp : inp ∈ tx.vin) :
    ∃ txindex, overlay st.txdb s.mapQueuedChanges inp.prevout.hash = some txindex ∧
      txindex.pos.isNull = false ∧ txindex.vSpent[inp.prevout.n]?.any (·.isNull) = true := by
  obtain ⟨hbase, hmint⟩ := spendsOutputs_iff.mp hspends
  obtain ⟨-, s₁, s₂, rfl, -, ⟨hcoin, -⟩ | ⟨-, hinputs⟩⟩ := connectTx_ok h
  · rw [hbase] at hcoin
    cases hcoin
  obtain ⟨maps, s₃, r, hmaps, -, -, -, -, -, -, hr, -⟩ := connectTxInputs_ok hinputs
  obtain ⟨-, -, signed, -, -, hsigned, -, -⟩ := connectInputs_ok hbase hr
  obtain ⟨k, hk⟩ := List.getElem?_of_mem hinp
  have hmem : (inp, k) ∈ tx.vin.zipIdx := (List.mem_zipIdx_iff_getElem? (x := (inp, k))).mpr hk
  obtain ⟨done, rest, mid, next, hvin, hdone, hstep⟩ := foldlM_some_at hmem hsigned
  -- The inputs before this one spend other outputs.
  have hother : inp.prevout.n ∉ spentOutputs (done.map Prod.fst) inp.prevout.hash := by
    rw [mem_spentOutputs]
    intro hbefore
    have hvin' := congrArg (fun l => (l.map Prod.fst).map CTxIn.prevout) hvin
    simp only [List.zipIdx_map_fst, List.map_append, List.map_cons] at hvin'
    rw [hvin'] at hnodup
    exact List.disjoint_of_nodup_append hnodup hbefore List.mem_cons_self
  obtain ⟨prev, hprev, hnull, -⟩ := spendInput_ok rfl hstep
  obtain ⟨hinputs, -⟩ := spendLoop_ok rfl hdone inp.prevout.hash
  rw [hprev] at hinputs
  obtain ⟨prev₀, hprev₀, rfl⟩ := Option.map_eq_some_iff.mp hinputs.symm
  have hprev₀ : maps.1 inp.prevout.hash = some prev₀ := hprev₀
  obtain ⟨fractions, hok⟩ := fetchInputs_readPrev hbase hmint hmaps hprev₀
  refine ⟨prev₀.txindex, ?_, readPrev_pos hread rfl hok, ?_⟩
  · have hfound := readPrev_index rfl hok
    rwa [findTxIndex_blockFetch] at hfound
  · exact (congrArg (Option.any fun mark => CDiskTxPos.isNull mark)
      (getElem?_foldl_set hother)).symm.trans hnull

/-- One transaction. Its entry is new, and nothing before it spends from it. -/
theorem connectTx_follows (hread : ∀ pos, pos.isNull = true → rules.readTx pos = none)
    (hstored : disk.nFile ≠ 2 ^ 32 - 1)
    (hindex : TxIndexMap.Follows net (overlay st.txdb s.mapQueuedChanges) txs)
    (hfresh : net.getHash tx ∉ txIds net txs)
    (hleaves : tx.isCoinMint = true → ∀ inp ∈ tx.vin, inp.prevout.hash ∉ txIds net txs)
    (hnodup : (tx.vin.map (·.prevout)).Nodup)
    (h : connectTx net votes bp rules ctx st place disk s (tx, i) = some s') :
    TxIndexMap.Follows net (overlay st.txdb s'.mapQueuedChanges)
      ((tx, ⟨disk.nFile, disk.nBlockPos, s.nTxPos⟩) :: txs) := by
  have hpos : CDiskTxPos.isNull ⟨disk.nFile, disk.nBlockPos, s.nTxPos⟩ = false := by
    simpa [CDiskTxPos.isNull] using hstored
  have hearlier : tx.spendsOutputs = true → ∀ inp ∈ tx.vin, inp.prevout.hash ∈ txIds net txs := by
    intro hspends inp hinp
    obtain ⟨txindex, hfound, hplace, -⟩ := connectTx_spends_null hread hspends hnodup h hinp
    exact hindex.known _ _ hfound hplace
  have hids : ∀ hash, hash ∈ txIds net ((tx, ⟨disk.nFile, disk.nBlockPos, s.nTxPos⟩) :: txs) ↔
      hash = net.getHash tx ∨ hash ∈ txIds net txs := fun hash => List.mem_cons
  refine ⟨List.nodup_cons.mpr ⟨hfresh, hindex.nodup⟩, ⟨hearlier, hindex.earlier⟩,
    List.forall_mem_cons.mpr ⟨hnodup, hindex.inputs⟩, ?_, ?_⟩
  · intro t ht
    rcases List.mem_cons.mp ht with rfl | ht
    · have hentry := connectTx_entry h (net.getHash tx)
      generalize overlay st.txdb s.mapQueuedChanges (net.getHash tx) = old at hentry
      generalize overlay st.txdb s'.mapQueuedChanges (net.getHash tx) = new at hentry ⊢
      cases hentry with
      | created _ nHeight i _ =>
        refine ⟨_, rfl, rfl, List.length_replicate, ?_⟩
        intro n hn
        refine ⟨.null, by simp [CTxIndex.ofTx, hn], ?_⟩
        have hown : ownSpends (tx, ⟨disk.nFile, disk.nBlockPos, s.nTxPos⟩) ⟨net.getHash tx, n⟩ =
            [] := by
          cases hspends : tx.spendsOutputs with
          | false => exact ownSpends_of_not hspends _
          | true =>
            apply ownSpends_of_not_mem
            rw [mem_spentOutputs]
            intro hmem
            obtain ⟨inp, hinp, hprevout⟩ := List.mem_map.mp hmem
            have hid := hearlier hspends inp hinp
            rw [hprevout] at hid
            exact hfresh hid
        rw [spenders_cons, hown, hindex.earlier.spenders_eq_nil hfresh]
        exact marks_null
      | kept _ hne _ => exact absurd rfl hne
      | spent _ hne _ _ _ => exact absurd rfl hne
      | minted _ _ hne _ _ _ => exact absurd rfl hne
    · have hid : net.getHash t.1 ∈ txIds net txs := List.mem_map.mpr ⟨t, ht, rfl⟩
      obtain ⟨txindex, hfound, hmarked⟩ := hindex.entries t ht
      have hentry := connectTx_entry h (net.getHash t.1)
      rw [hfound] at hentry
      generalize overlay st.txdb s'.mapQueuedChanges (net.getHash t.1) = new at hentry ⊢
      cases hentry with
      | created _ nHeight i heq =>
        rw [heq] at hid
        exact absurd hid hfresh
      | kept _ hne hnot =>
        refine ⟨txindex, rfl, hmarked.keep (hnot.imp_left fun hbase => ?_)⟩
        simp [CTransaction.spendsOutputs, hbase]
      | spent _ hne hbase hmint hmem =>
        have hspends : tx.spendsOutputs = true := spendsOutputs_iff.mpr ⟨hbase, hmint⟩
        refine ⟨_, rfl, hmarked.spend hpos hspends hnodup fun n hn => ?_⟩
        obtain ⟨inp, hinp, hprevout⟩ := List.mem_map.mp (mem_spentOutputs.mp hn)
        obtain ⟨txindex', hfound', -, hnull⟩ := connectTx_spends_null hread hspends hnodup h hinp
        rw [hprevout, hfound] at hfound'
        cases hfound'
        rwa [hprevout] at hnull
      | minted _ made hne hmint hmem hmade =>
        obtain ⟨inp, hinp, heq⟩ := List.mem_map.mp hmem
        rw [← heq] at hid
        exact absurd hid (hleaves hmint inp hinp)
  · intro hash txindex hfound hplace
    rw [hids]
    have hentry := connectTx_entry h hash
    rw [hfound] at hentry
    generalize hold : overlay st.txdb s.mapQueuedChanges hash = old at hentry
    cases hentry with
    | created _ nHeight i heq => exact Or.inl heq
    | kept _ _ _ => exact Or.inr (hindex.known hash txindex hold hplace)
    | spent before _ _ _ _ => exact Or.inr (hindex.known hash before hold hplace)
    | minted _ made _ _ _ hmade =>
      have hnull : (CTxIndex.spent made ⟨disk.nFile, disk.nBlockPos, s.nTxPos⟩
          (spentOutputs tx.vin hash)).pos = .null := hmade.1
      rw [hnull] at hplace
      cases hplace

/-- The loop over the transactions. -/
theorem connectTxs_follows (hread : ∀ pos, pos.isNull = true → rules.readTx pos = none)
    (hstored : disk.nFile ≠ 2 ^ 32 - 1) {l : List (CTransaction × ℕ)}
    (hids : (l.map fun a => net.getHash a.1).Nodup)
    (hfresh : ∀ a ∈ l, net.getHash a.1 ∉ txIds net txs)
    (hleaves : ∀ a ∈ l, a.1.isCoinMint = true → ∀ inp ∈ a.1.vin,
      inp.prevout.hash ∉ txIds net txs ∧ inp.prevout.hash ∉ l.map fun a => net.getHash a.1)
    (hnodup : ∀ a ∈ l, (a.1.vin.map (·.prevout)).Nodup)
    (hindex : TxIndexMap.Follows net (overlay st.txdb s.mapQueuedChanges) txs)
    (h : l.foldlM (connectTx net votes bp rules ctx st place disk) s = some s') :
    TxIndexMap.Follows net (overlay st.txdb s'.mapQueuedChanges)
      ((placesFrom rules disk s.nTxPos (l.map Prod.fst)).reverse ++ txs) := by
  induction l generalizing s txs with
  | nil =>
    cases h
    exact hindex
  | cons a rest ih =>
    obtain ⟨tx, i⟩ := a
    rw [List.foldlM_cons, Option.bind_eq_bind, Option.bind_eq_some_iff] at h
    obtain ⟨mid, hfirst, hrest⟩ := h
    rw [List.map_cons, List.nodup_cons] at hids
    have hmid := connectTx_follows hread hstored hindex (hfresh _ List.mem_cons_self)
      (fun hmint inp hinp => (hleaves _ List.mem_cons_self hmint inp hinp).1)
      (hnodup _ List.mem_cons_self) hfirst
    have hdone := ih hids.2 ?_ ?_ (fun b hb => hnodup b (List.mem_cons_of_mem _ hb)) hmid hrest
    · rw [connectTx_nTxPos hfirst] at hdone
      rw [List.map_cons, placesFrom, List.reverse_cons, List.append_assoc]
      exact hdone
    · intro b hb hmem
      rcases List.mem_cons.mp hmem with heq | hmem
      · exact hids.1 (List.mem_map.mpr ⟨b, hb, heq⟩)
      · exact hfresh b (List.mem_cons_of_mem _ hb) hmem
    · intro b hb hmint inp hinp
      obtain ⟨hbefore, hblock⟩ := hleaves b (List.mem_cons_of_mem _ hb) hmint inp hinp
      rw [List.map_cons, List.mem_cons, not_or] at hblock
      exact ⟨fun hmem => (List.mem_cons.mp hmem).elim hblock.1 hbefore, hblock.2⟩

theorem connectBlockState_follows {chain connected : List ChainEntry} {entry : ChainEntry}
    (hread : ∀ pos, pos.isNull = true → rules.readTx pos = none)
    (hindex : st.txdb.Follows net (placedTxs rules connected))
    (hfresh : FreshBlock net rules connected disk)
    (h : connectBlockState net votes bp rules nBridgeInterval ctx st chain disk =
      some (st', entry)) :
    st'.txdb.Follows net (placedTxs rules (entry :: connected)) := by
  obtain ⟨place, queue, s, done, hsteps⟩ := connectBlockState_ok h
  have hvtx : disk.block.vtx.zipIdx.map (fun a => net.getHash a.1) =
      disk.block.vtx.map net.getHash := by
    rw [← Function.comp_def, ← List.map_map, List.zipIdx_map_fst]
  have hfollows := connectTxs_follows (s := loopStart rules disk queue) hread hfresh.stored
    (hvtx ▸ (checkBlock_tx hsteps.checked).2)
    (fun a ha => hfresh.txs a.1 (List.fst_mem_of_mem_zipIdx ha))
    (fun a ha hmint => hvtx ▸ hfresh.leaves a.1 (List.fst_mem_of_mem_zipIdx ha) hmint)
    (fun a ha => checkBlock_inputs hsteps.checked a.1 (List.fst_mem_of_mem_zipIdx ha))
    hindex hsteps.txs
  rw [hsteps.txdb, connectReward_index hsteps.reward, placedTxs, List.flatMap_cons, hsteps.disk_eq,
    DiskBlock.placed]
  rwa [List.zipIdx_map_fst] at hfollows

end Connect

/-! ## Disconnecting -/

section Disconnect

variable {net : Params} {rules : BlockRules} {st st' : Stores} {tx : CTransaction}
  {pos : CDiskTxPos} {txs : List (CTransaction × CDiskTxPos)}

/-- The loop that gives the outputs back clears their marks. -/
theorem unspendLoop_ok {l : List CTxIn} {index index' : TxIndexMap}
    (h : l.foldlM (unspendInput rules) index = some index') (hash : UInt256) :
    index' hash = (index hash).map (·.spent .null (spentOutputs l hash)) := by
  induction l generalizing index with
  | nil =>
    cases h
    cases index' hash <;> rfl
  | cons inp rest ih =>
    rw [List.foldlM_cons, Option.bind_eq_bind, Option.bind_eq_some_iff] at h
    obtain ⟨mid, hfirst, hrest⟩ := h
    rw [ih hrest, spentOutputs_cons]
    unfold unspendInput at hfirst
    split at hfirst
    · cases hfirst
    · rename_i txindex hfound
      split_ifs at hfirst
      cases hfirst
      split_ifs with hsame
      · rw [← hsame, Function.update_self, hfound]
        rfl
      · rw [Function.update_of_ne (Ne.symm hsame)]

/-- One transaction, which is the last one. -/
theorem disconnectTx_follows (hindex : st.txdb.Follows net ((tx, pos) :: txs))
    (h : disconnectTx net rules st tx = some st') : st'.txdb.Follows net txs := by
  obtain ⟨index, hcases, rfl⟩ := disconnectTx_ok h
  obtain ⟨hnot, hnodup⟩ := List.nodup_cons.mp hindex.nodup
  have hnot : net.getHash tx ∉ txIds net txs := hnot
  refine ⟨hnodup, hindex.earlier.2, fun t ht => hindex.inputs t (List.mem_cons_of_mem _ ht), ?_, ?_⟩
  · intro t ht
    have hne : net.getHash t.1 ≠ net.getHash tx := by
      intro heq
      exact hnot (heq ▸ List.mem_map.mpr ⟨t, ht, rfl⟩)
    obtain ⟨txindex, hfound, hmarked⟩ := hindex.entries t (List.mem_cons_of_mem _ ht)
    dsimp only
    rw [Function.update_of_ne hne]
    rcases hcases with ⟨hskip, rfl⟩ | ⟨hspends, hloop⟩
    · refine ⟨txindex, hfound, hmarked.unkeep ?_⟩
      simp only [CTransaction.spendsOutputs]
      rcases hskip with hbase | hmint <;> simp [*]
    · rw [unspendLoop_ok hloop, hfound]
      exact ⟨_, rfl, hmarked.unspend (spendsOutputs_iff.mpr hspends)
        (hindex.inputs _ List.mem_cons_self)⟩
  · intro hash txindex hfound hplace
    dsimp only at hfound
    have hne : hash ≠ net.getHash tx := by
      rintro rfl
      rw [Function.update_self] at hfound
      cases hfound
    rw [Function.update_of_ne hne] at hfound
    have hid : hash ∈ txIds net ((tx, pos) :: txs) := by
      rcases hcases with ⟨-, rfl⟩ | ⟨-, hloop⟩
      · exact hindex.known hash txindex hfound hplace
      · rw [unspendLoop_ok hloop] at hfound
        obtain ⟨old, hold, rfl⟩ := Option.map_eq_some_iff.mp hfound
        exact hindex.known hash old hold hplace
    exact (List.mem_cons.mp hid).resolve_left hne

theorem disconnectTxs_follows {l : List (CTransaction × CDiskTxPos)}
    (hindex : st.txdb.Follows net (l ++ txs))
    (h : (l.map Prod.fst).foldlM (disconnectTx net rules) st = some st') :
    st'.txdb.Follows net txs := by
  induction l generalizing st with
  | nil =>
    cases h
    exact hindex
  | cons t rest ih =>
    rw [List.map_cons, List.foldlM_cons, Option.bind_eq_bind, Option.bind_eq_some_iff] at h
    obtain ⟨mid, hfirst, hrest⟩ := h
    exact ih (disconnectTx_follows hindex hfirst) hrest

theorem placesFrom_map_fst (disk : DiskBlock) (nTxPos : ℕ) (l : List CTransaction) :
    (placesFrom rules disk nTxPos l).map Prod.fst = l := by
  induction l generalizing nTxPos with
  | nil => rfl
  | cons tx rest ih => rw [placesFrom, List.map_cons, ih]

theorem disconnectBlockState_follows {connected : List ChainEntry} {entry : ChainEntry}
    (hindex : st.txdb.Follows net (placedTxs rules (entry :: connected)))
    (h : disconnectBlockState net rules st entry.disk.block = some st') :
    st'.txdb.Follows net (placedTxs rules connected) := by
  rw [placedTxs, List.flatMap_cons] at hindex
  have htxs : ((entry.disk.placed rules).reverse.map Prod.fst) = entry.disk.block.vtx.reverse := by
    rw [List.map_reverse, DiskBlock.placed, placesFrom_map_fst]
  rw [disconnectBlockState, ← htxs] at h
  exact disconnectTxs_follows hindex h

end Disconnect

/-! ## Runs -/

section Runs

variable {net : Params} {votes : VoteParams} {bp : BridgeParams} {rules : BlockRules}
  {nBridgeInterval : ℕ} {genesis : ChainEntry} {node after : Node}

def FreshRun (net : Params) (votes : VoteParams) (bp : BridgeParams) (rules : BlockRules)
    (nBridgeInterval : ℕ) (genesis : ChainEntry) (node : Node) : Prop :=
  ∃ start : Node, start.Started genesis ∧ Relation.ReflTransGen
    (fun before after => NodeStep net votes bp rules nBridgeInterval before after ∧
      before.ConnectsFresh net rules after) start node

/-- One step of a node. -/
theorem NodeStep.follows (hread : ∀ pos, pos.isNull = true → rules.readTx pos = none)
    (hchain : node.chain ≠ [])
    (hindex : node.stores.txdb.Follows net (placedTxs rules node.chain.dropLast))
    (hstep : NodeStep net votes bp rules nBridgeInterval node after)
    (hfresh : node.ConnectsFresh net rules after) :
    after.chain ≠ [] ∧ after.stores.txdb.Follows net (placedTxs rules after.chain.dropLast) := by
  cases hstep with
  | @connect ctx disk chain st st' entry h =>
    obtain ⟨place, queue, s, done, hsteps⟩ := connectBlockState_ok h
    have hblock := hfresh entry rfl
    rw [hsteps.disk_eq] at hblock
    refine ⟨List.cons_ne_nil _ _, ?_⟩
    rw [List.dropLast_cons_of_ne_nil hchain]
    exact connectBlockState_follows hread hindex hblock h
  | @disconnect chain st st' entry hbelow h =>
    refine ⟨hbelow, ?_⟩
    rw [List.dropLast_cons_of_ne_nil hbelow] at hindex
    exact disconnectBlockState_follows hindex h

theorem Node.Started.follows (h : node.Started genesis) : node.chain ≠ [] ∧
    node.stores.txdb.Follows net (placedTxs rules node.chain.dropLast) := by
  obtain ⟨hchain, hempty⟩ := h
  rw [hchain, hempty]
  refine ⟨List.cons_ne_nil _ _, List.nodup_nil, trivial, ?_, ?_, ?_⟩
  · exact fun t ht => by cases ht
  · exact fun t ht => by cases ht
  · exact fun hash txindex hfound => by cases hfound

/-- In every state of a node that connected fresh blocks only, the chain spends every output
at most once and the index marks where. -/
theorem outputs_spent_once (hread : ∀ pos, pos.isNull = true → rules.readTx pos = none)
    (hrun : FreshRun net votes bp rules nBridgeInterval genesis node) :
    node.SpentOnce net rules := by
  obtain ⟨start, hstarted, hsteps⟩ := hrun
  have hall : node.chain ≠ [] ∧
      node.stores.txdb.Follows net (placedTxs rules node.chain.dropLast) := by
    induction hsteps with
    | refl => exact hstarted.follows
    | tail _ hstep ih => exact hstep.1.follows hread ih.1 ih.2 hstep.2
  exact hall.2.entries

end Runs

/-! ## A mint that is connected again -/

def remintNet : Params where
  pegFrozenTime := 10
  pegVFrozenTime := 20
  getHash := fun tx =>
    if tx = sampleMintTx [] 200000 then 11
    else if tx = sampleCoinBase 1 then 12
    else if tx = sampleCoinBase 2 then 13
    else 14
  destinations := fun _ => []
  isValidAddress := fun _ => true

def secondBlockVotes : VoteParams where
  nPegInterval := 10
  nPegStartHeight := 2
  pegInflateAddr := ['i']
  pegDeflateAddr := ['d']
  pegNochangeAddr := ['n']
  interval_pos := firstBlockVotes.interval_pos

def remintRules : BlockRules :=
  sampleRules fun pos => if pos = ⟨1, 100, 281⟩ then some (sampleMintTx [] 200000) else none

def mintSpend : CTransaction where
  nTime := 1500
  vin := [{ prevout := ⟨11, 0⟩ }]
  vout := [⟨200000, [0x43]⟩]

def mintAndSpendBlock : DiskBlock where
  block := {
    nTime := 2000
    vtx := [sampleCoinBase 1, sampleMintTx [] 200000, mintSpend] }
  nFile := 1
  nBlockPos := 100

def remintBlock : DiskBlock where
  block := {
    nTime := 2100
    vtx := [sampleCoinBase 2, sampleMintTx [] 200000] }
  nFile := 1
  nBlockPos := 500

@[irreducible] def mintAndSpend : Option (Stores × ChainEntry) :=
  connectBlockState remintNet secondBlockVotes sampleBridgeParams remintRules 10 mintContext
    mintStores [sampleGenesis] mintAndSpendBlock

theorem mintAndSpend_isSome : mintAndSpend.isSome = true := by decide +kernel

def mintedNode : Node where
  chain := [(mintAndSpend.get mintAndSpend_isSome).2, sampleGenesis]
  stores := (mintAndSpend.get mintAndSpend_isSome).1

theorem mintAndSpend_connected : connectBlockState remintNet secondBlockVotes sampleBridgeParams
    remintRules 10 mintContext mintStores [sampleGenesis] mintAndSpendBlock =
      some ((mintAndSpend.get mintAndSpend_isSome).1, (mintAndSpend.get mintAndSpend_isSome).2) := by
  have hblock : mintAndSpend = connectBlockState remintNet secondBlockVotes sampleBridgeParams
      remintRules 10 mintContext mintStores [sampleGenesis] mintAndSpendBlock := by
    unfold mintAndSpend
    rfl
  exact hblock.symm.trans (eq_some_get mintAndSpend_isSome)

theorem mintedNode_disk :
    (mintAndSpend.get mintAndSpend_isSome).2.disk = mintAndSpendBlock := by
  obtain ⟨place, queue, s, done, hsteps⟩ := connectBlockState_ok mintAndSpend_connected
  exact hsteps.disk_eq

theorem remintRules_null (pos : CDiskTxPos) (h : pos.isNull = true) :
    remintRules.readTx pos = none := by
  simp only [remintRules, sampleRules]
  rw [if_neg]
  rintro rfl
  cases h

theorem mintedNode_step : NodeStep remintNet secondBlockVotes sampleBridgeParams remintRules 10
    ⟨[sampleGenesis], mintStores⟩ mintedNode :=
  NodeStep.connect mintContext mintAndSpendBlock mintAndSpend_connected

theorem mintedNode_fresh : FreshRun remintNet secondBlockVotes sampleBridgeParams remintRules 10
    sampleGenesis mintedNode := by
  refine ⟨⟨[sampleGenesis], mintStores⟩, ⟨rfl, rfl⟩, Relation.ReflTransGen.single ⟨mintedNode_step, ?_⟩⟩
  intro entry hentry
  obtain ⟨rfl, -⟩ := List.cons.inj hentry
  rw [mintedNode_disk]
  refine ⟨by decide, ?_, ?_⟩
  · intro tx _ hmem
    cases hmem
  · decide +kernel

theorem mintedNode_spentOnce : mintedNode.SpentOnce remintNet remintRules :=
  outputs_spent_once remintRules_null mintedNode_fresh

def remintContext : BlockContext :=
  { mintContext with pindexBest := mintedNode.chain.map ChainEntry.pindex }

@[irreducible] def remint : Option (Stores × ChainEntry) :=
  connectBlockState remintNet secondBlockVotes sampleBridgeParams remintRules 10 remintContext
    mintedNode.stores mintedNode.chain remintBlock

/-- The block is connected, and the output of the mint is unspent again. -/
theorem remint_entry : (remint.bind fun r => r.1.txdb 11).map CTxIndex.vSpent =
    some [CDiskTxPos.null] := by decide +kernel

/-- The chain spends the output of the mint, and its entry does not say so. -/
theorem remint_unmarked : ∃ node, NodeRun remintNet secondBlockVotes sampleBridgeParams remintRules
      10 sampleGenesis node ∧ ¬ node.SpentOnce remintNet remintRules := by
  obtain ⟨txindex, hfound, hspent⟩ := Option.map_eq_some_iff.mp remint_entry
  obtain ⟨⟨st, entry⟩, hremint, hfound⟩ := Option.bind_eq_some_iff.mp hfound
  have hconnected : connectBlockState remintNet secondBlockVotes sampleBridgeParams remintRules 10
      remintContext mintedNode.stores mintedNode.chain remintBlock = some (st, entry) := by
    rw [← hremint]
    unfold remint
    rfl
  obtain ⟨place, queue, s, done, hsteps⟩ := connectBlockState_ok hconnected
  refine ⟨⟨entry :: mintedNode.chain, st⟩, ⟨⟨[sampleGenesis], mintStores⟩, ⟨rfl, rfl⟩, ?_⟩, ?_⟩
  · exact (Relation.ReflTransGen.single mintedNode_step).tail
      (NodeStep.connect remintContext remintBlock hconnected)
  · have htxs : placedTxs remintRules (entry :: mintedNode.chain).dropLast =
        (remintBlock.placed remintRules).reverse ++
          (mintAndSpendBlock.placed remintRules).reverse := by
      simp [mintedNode, placedTxs, hsteps.disk_eq, mintedNode_disk]
    intro hspentOnce
    rw [Node.SpentOnce, htxs] at hspentOnce
    obtain ⟨txindex', hfound', hmarked⟩ := hspentOnce
      (sampleMintTx [] 200000, ⟨1, 500, 681⟩) (by decide +kernel)
    have hid : remintNet.getHash (sampleMintTx [] 200000) = 11 := by decide +kernel
    rw [hid, hfound] at hfound'
    cases hfound'
    obtain ⟨mark, hmark, hmarks⟩ := hmarked.marks 0 (by decide)
    have hspenders : spenders ((remintBlock.placed remintRules).reverse ++
        (mintAndSpendBlock.placed remintRules).reverse) ⟨11, 0⟩ = [⟨1, 100, 381⟩] := by
      decide
    rw [hspent] at hmark
    cases hmark
    rw [hid, hspenders] at hmarks
    rcases hmarks with ⟨-, hnil⟩ | ⟨hnull, -⟩
    · cases hnil
    · cases hnull

end BitBay
