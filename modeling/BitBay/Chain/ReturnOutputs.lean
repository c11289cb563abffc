import BitBay.Chain.MissingFractions
import BitBay.Chain.SpentMarks

/-!
# Outputs that nothing can spend

An output that starts with `OP_RETURN` is in the index for good: no signature opens it, so its
mark stays null, and a block must not overwrite a transaction with an unspent output. So a
transaction with such an output is on the chain once.
-/
namespace BitBay

open Run

def CTxOut.isReturn (out : CTxOut) : Bool :=
  (CScript.getOp out.scriptPubKey).any fun op => op.1 = CScript.OP_RETURN

def CTransaction.hasReturn (tx : CTransaction) : Bool := tx.vout.any (·.isReturn)

theorem isReturn_of_toNotary {out : CTxOut} {notary : CString}
    (h : out.scriptPubKey.toNotary = some notary) : out.isReturn = true := by
  unfold CScript.toNotary at h
  split at h
  · cases h
  · rename_i opcode vch rest hop
    split_ifs at h with hreturn <;> simp_all [CTxOut.isReturn]

section Model

variable (net : Params) (bp : BridgeParams) (rules : BlockRules)

/-- Scripts that return are never satisfied; hashes of transactions are neither zero nor the
leaf of a mint. -/
structure ReturnRules : Prop where
  unspendable : ∀ (txPrev tx : CTransaction) (i flags : ℕ) (inp : CTxIn) (out : CTxOut),
    tx.vin[i]? = some inp → txPrev.vout[inp.prevout.n]? = some out → out.isReturn = true →
    rules.verifySignature txPrev tx i flags = none
  leaf_ne : ∀ dest_addr sections section_peg nonce from_addr tx,
    setHex (computeMintMerkleLeaf bp dest_addr sections section_peg nonce from_addr) ≠
      net.getHash tx
  ne_zero : ∀ tx, net.getHash tx ≠ 0

/-- A block that was stored, behind given transactions. Below a checkpoint, where signatures are
not verified, it is one whose inputs spend no output that returns. -/
structure SoundBlock (ctx : BlockContext) (txs : List (CTransaction × CDiskTxPos))
    (disk : DiskBlock) : Prop where
  stored : ∀ t ∈ disk.placed rules, rules.readTx t.2 = some t.1
  checkpoint : ctx.fBelowCheckpoint = true → ∀ tx ∈ disk.block.vtx, ∀ inp ∈ tx.vin,
    ∀ t ∈ disk.placed rules ++ txs, net.getHash t.1 = inp.prevout.hash →
    t.1.vout[inp.prevout.n]?.any (·.isReturn) = false

/-- The outputs that return of a list of transactions, the last one first: they are in the
index, unspent, and their transactions do not occur again. -/
structure ReturnsKept (index : TxIndexMap) (txs : List (CTransaction × CDiskTxPos)) : Prop where
  unrepeated : txs.Pairwise fun newer older =>
    older.1.hasReturn = true → net.getHash newer.1 ≠ net.getHash older.1
  entries : ∀ t ∈ txs, ∀ n : ℕ, t.1.vout[n]?.any CTxOut.isReturn = true →
    rules.readTx t.2 = some t.1 ∧ t.2 ≠ .mempool ∧
    ∃ txindex, index (net.getHash t.1) = some txindex ∧ txindex.pos = t.2 ∧
      txindex.vSpent[n]?.any CDiskTxPos.isNull = true

end Model

section Connect

variable {net : Params} {votes : VoteParams} {bp : BridgeParams} {rules : BlockRules}
  {nBridgeInterval : ℕ} {ctx : BlockContext} {st st' : Stores} {place : BlockPlace}
  {disk : DiskBlock} {s s' : BlockState} {tx : CTransaction} {i : ℕ} {pos : CDiskTxPos}
  {txs : List (CTransaction × CDiskTxPos)} {t : CTransaction × CDiskTxPos}

theorem hasReturn_of_output {n : ℕ} (h : tx.vout[n]?.any CTxOut.isReturn = true) :
    tx.hasReturn = true := by
  cases hout : tx.vout[n]? with
  | none =>
    rw [hout] at h
    cases h
  | some out =>
    rw [hout] at h
    exact List.any_eq_true.mpr ⟨out, List.mem_of_getElem? hout, h⟩

theorem spendInput_signed {rules : ScriptRules} {call : ConnectCall} {st st' : SignState}
    {inp : CTxIn × ℕ} (h : spendInput rules call st inp = some st') :
    ∃ prev, st.inputs inp.1.prevout.hash = some prev ∧
      (signInput rules call prev inp.2).isSome = true := by
  simp only [spendInput] at h
  split at h
  · cases h
  · rename_i prev hprev
    split_ifs at h
    all_goals
      split at h
      · cases h
      · rename_i hsigned
        exact ⟨prev, hprev, by rw [hsigned]; rfl⟩

/-- A transaction that is spent from in a block is read where its entry says, and the input is
signed unless signatures are not verified. -/
theorem connectTx_signed (hspends : tx.spendsOutputs = true)
    (h : connectTx net votes bp rules ctx st place disk s (tx, i) = some s') {inp : CTxIn}
    (hinp : inp ∈ tx.vin) :
    ∃ txindex, overlay st.txdb s.mapQueuedChanges inp.prevout.hash = some txindex ∧
      (txindex.pos ≠ .mempool → ∃ txPrev, rules.readTx txindex.pos = some txPrev ∧
        (ctx.fBelowCheckpoint = true ∨ ∃ k flags, tx.vin[k]? = some inp ∧
          (rules.verifySignature txPrev tx k flags).isSome = true)) := by
  obtain ⟨hbase, hmint⟩ := spendsOutputs_iff.mp hspends
  obtain ⟨-, s₁, s₂, rfl, -, ⟨hcoin, -⟩ | ⟨-, hinputs⟩⟩ := connectTx_ok h
  · rw [hbase] at hcoin
    cases hcoin
  obtain ⟨maps, s₃, r, hmaps, -, -, -, -, -, -, hr, -⟩ := connectTxInputs_ok hinputs
  obtain ⟨-, -, signed, -, -, hsigned, -, -⟩ := connectInputs_ok hbase hr
  obtain ⟨k, hk⟩ := List.getElem?_of_mem hinp
  have hmem : (inp, k) ∈ tx.vin.zipIdx := (List.mem_zipIdx_iff_getElem? (x := (inp, k))).mpr hk
  obtain ⟨done, rest, mid, next, -, hdone, hstep⟩ := foldlM_some_at hmem hsigned
  obtain ⟨prev, hprev, hsign⟩ := spendInput_signed hstep
  obtain ⟨hinputs, -⟩ := spendLoop_ok rfl hdone inp.prevout.hash
  rw [hprev] at hinputs
  obtain ⟨prev₀, hprev₀, rfl⟩ := Option.map_eq_some_iff.mp hinputs.symm
  have hprev₀ : maps.1 inp.prevout.hash = some prev₀ := hprev₀
  obtain ⟨fractions, hok⟩ := fetchInputs_readPrev hbase hmint hmaps hprev₀
  have hfound := readPrev_index rfl hok
  have hoverlay := hfound
  rw [findTxIndex_blockFetch] at hoverlay
  refine ⟨prev₀.txindex, hoverlay, fun hpos => ?_⟩
  simp only [readPrev, hfound, if_neg hpos] at hok
  have hread : readDisk rules.toTxSource prev₀.txindex = .ok prev₀ := by
    cases hdisk : readDisk rules.toTxSource prev₀.txindex with
    | error e =>
      rw [hdisk] at hok
      cases hok
    | ok read =>
      rw [hdisk] at hok
      exact congrArg Except.ok (Prod.mk.inj (Except.ok.inj hok)).1
  refine ⟨prev₀.tx, (readDisk_isOk.mp hread).2.1, ?_⟩
  simp only [signInput, blockConnect, hmint, Bool.false_eq_true, if_false, true_and] at hsign
  split_ifs at hsign with hcheckpoint
  · exact Or.inl hcheckpoint
  · rw [Option.isSome_map] at hsign
    exact Or.inr ⟨k, _, hk, hsign⟩

/-- The prevouts of a mint are zero and its leaf. -/
theorem connectTx_mint_prevout (hrules : ReturnRules net bp rules) (hmint : tx.isCoinMint = true)
    (hnodup : (tx.vin.map (·.prevout)).Nodup)
    (h : connectTx net votes bp rules ctx st place disk s (tx, i) = some s') {hash : UInt256}
    (hmem : hash ∈ tx.vin.map (·.prevout.hash)) (other : CTransaction) :
    hash ≠ net.getHash other := by
  obtain ⟨inputsRet, base, leafIn, out, req, frBridgePool, frDeduct, hfetched, hleaf, -⟩ :=
    connectTx_mint hmint hnodup h
  have hvin : tx.vin = [base, leafIn] := hfetched.vin
  have hzero : base.prevout = ⟨0, 0⟩ := by
    unfold CTransaction.isCoinMint at hmint
    split at hmint
    · rename_i inp0 inp1 out' hvin' hvout
      simp only [Bool.decide_and, Bool.and_eq_true, decide_eq_true_eq] at hmint
      rw [hvin] at hvin'
      rw [(List.cons.inj hvin').1]
      exact hmint.2.2.1
    · cases hmint
  rw [hvin] at hmem
  rcases List.mem_pair.mp hmem with rfl | rfl
  · dsimp only
    rw [hzero]
    exact (hrules.ne_zero other).symm
  · dsimp only
    rw [hleaf, readMintRequest_leaf hfetched.request]
    exact hrules.leaf_ne _ _ _ _ _ other

/-- One transaction: the outputs that return stay unspent. -/
theorem connectTx_returnsKept (hrules : ReturnRules net bp rules)
    (hindex : ReturnsKept net rules (overlay st.txdb s.mapQueuedChanges) txs)
    (hfresh : ∀ t ∈ txs, t.1.hasReturn = true → net.getHash tx ≠ net.getHash t.1)
    (hstored : rules.readTx ⟨disk.nFile, disk.nBlockPos, s.nTxPos⟩ = some tx)
    (hplace : 80 < s.nTxPos) (hnodup : (tx.vin.map (·.prevout)).Nodup)
    (hcheckpoint : ctx.fBelowCheckpoint = true → ∀ inp ∈ tx.vin, ∀ t ∈ txs,
      net.getHash t.1 = inp.prevout.hash → t.1.vout[inp.prevout.n]?.any (·.isReturn) = false)
    (h : connectTx net votes bp rules ctx st place disk s (tx, i) = some s') :
    ReturnsKept net rules (overlay st.txdb s'.mapQueuedChanges)
      ((tx, ⟨disk.nFile, disk.nBlockPos, s.nTxPos⟩) :: txs) := by
  refine ⟨List.pairwise_cons.mpr ⟨fun t ht => hfresh t ht, hindex.unrepeated⟩, ?_⟩
  intro t ht n hreturn
  rcases List.mem_cons.mp ht with rfl | ht
  · refine ⟨hstored, ?_, ?_⟩
    · intro hpool
      have hone : s.nTxPos = 1 := congrArg CDiskTxPos.nTxPos hpool
      omega
    · have hentry := connectTx_entry h (net.getHash tx)
      generalize overlay st.txdb s.mapQueuedChanges (net.getHash tx) = old at hentry
      generalize overlay st.txdb s'.mapQueuedChanges (net.getHash tx) = new at hentry ⊢
      cases hentry with
      | created _ nHeight i _ =>
        refine ⟨_, rfl, rfl, ?_⟩
        have hlt : n < tx.vout.length := by
          by_contra hge
          rw [List.getElem?_eq_none (not_lt.mp hge)] at hreturn
          cases hreturn
        simp [CTxIndex.ofTx, hlt, CDiskTxPos.null, CDiskTxPos.isNull]
      | kept _ hne _ => exact absurd rfl hne
      | spent _ hne _ _ _ => exact absurd rfl hne
      | minted _ _ hne _ _ _ => exact absurd rfl hne
  · obtain ⟨hread, hpool, txindex, hfound, hpos, hnull⟩ := hindex.entries t ht n hreturn
    refine ⟨hread, hpool, ?_⟩
    have hentry := connectTx_entry h (net.getHash t.1)
    rw [hfound] at hentry
    generalize overlay st.txdb s'.mapQueuedChanges (net.getHash t.1) = new at hentry ⊢
    cases hentry with
    | created _ nHeight i heq => exact absurd heq.symm (hfresh t ht (hasReturn_of_output hreturn))
    | kept _ _ _ => exact ⟨txindex, rfl, hpos, hnull⟩
    | minted _ made _ hmint hmem hmade =>
      exact absurd rfl (connectTx_mint_prevout hrules hmint hnodup h hmem t.1)
    | spent _ _ hbase hmint hmem =>
      -- An input that spends the output would have a signature for it.
      have hspent : n ∉ spentOutputs tx.vin (net.getHash t.1) := by
        intro hn
        obtain ⟨inp, hinp, hprevout⟩ := List.mem_map.mp (mem_spentOutputs.mp hn)
        obtain ⟨txindex', hfound', hsigned⟩ := connectTx_signed
          (spendsOutputs_iff.mpr ⟨hbase, hmint⟩) h hinp
        rw [hprevout, hfound] at hfound'
        obtain rfl := Option.some.inj hfound'
        obtain ⟨txPrev, hreadPrev, hcases⟩ := hsigned (hpos ▸ hpool)
        rw [hpos, hread] at hreadPrev
        obtain rfl := Option.some.inj hreadPrev
        rcases hcases with hbelow | ⟨k, flags, hk, hsigned⟩
        · have hnot := hcheckpoint hbelow inp hinp t ht (by rw [hprevout])
          rw [hprevout, hreturn] at hnot
          cases hnot
        · cases hout : t.1.vout[n]? with
          | none =>
            rw [hout] at hreturn
            cases hreturn
          | some out =>
            rw [hout] at hreturn
            rw [hrules.unspendable t.1 tx k flags inp out hk (by rw [hprevout]; exact hout)
              hreturn] at hsigned
            cases hsigned
      refine ⟨_, rfl, hpos, ?_⟩
      rw [CTxIndex.spent, getElem?_foldl_set hspent]
      exact hnull

/-- The loop over the transactions. -/
theorem connectTxs_returnsKept (hrules : ReturnRules net bp rules)
    {l : List (CTransaction × ℕ)} (hids : (l.map fun a => net.getHash a.1).Nodup)
    (hfresh : ∀ a ∈ l, ∀ t ∈ txs, t.1.hasReturn = true → net.getHash a.1 ≠ net.getHash t.1)
    (hstored : ∀ t ∈ placesFrom rules disk s.nTxPos (l.map Prod.fst), rules.readTx t.2 = some t.1)
    (hplace : 80 < s.nTxPos) (hnodup : ∀ a ∈ l, (a.1.vin.map (·.prevout)).Nodup)
    (hcheckpoint : ctx.fBelowCheckpoint = true → ∀ a ∈ l, ∀ inp ∈ a.1.vin,
      ∀ t ∈ placesFrom rules disk s.nTxPos (l.map Prod.fst) ++ txs,
      net.getHash t.1 = inp.prevout.hash → t.1.vout[inp.prevout.n]?.any (·.isReturn) = false)
    (hindex : ReturnsKept net rules (overlay st.txdb s.mapQueuedChanges) txs)
    (h : l.foldlM (connectTx net votes bp rules ctx st place disk) s = some s') :
    ReturnsKept net rules (overlay st.txdb s'.mapQueuedChanges)
      ((placesFrom rules disk s.nTxPos (l.map Prod.fst)).reverse ++ txs) := by
  induction l generalizing s txs with
  | nil =>
    cases h
    exact hindex
  | cons a rest ih =>
    obtain ⟨tx, i⟩ := a
    rw [List.foldlM_cons, Option.bind_eq_bind, Option.bind_eq_some_iff] at h
    obtain ⟨mid, hfirst, hrest⟩ := h
    rw [List.map_cons, List.nodup_cons] at hids
    rw [List.map_cons, placesFrom] at hstored hcheckpoint ⊢
    have hmid := connectTx_returnsKept hrules hindex (hfresh _ List.mem_cons_self)
      (hstored _ List.mem_cons_self) hplace (hnodup _ List.mem_cons_self)
      (fun hbelow inp hinp t ht => hcheckpoint hbelow _ List.mem_cons_self inp hinp t
        (List.mem_append_right _ ht)) hfirst
    have hpos := connectTx_nTxPos hfirst
    rw [← hpos] at hstored hcheckpoint ⊢
    rw [List.reverse_cons, List.append_assoc]
    refine ih hids.2 ?_ (fun t ht => hstored t (List.mem_cons_of_mem _ ht)) (by omega)
      (fun b hb => hnodup b (List.mem_cons_of_mem _ hb)) ?_ hmid hrest
    · intro b hb t ht hreturn
      rcases List.mem_cons.mp ht with rfl | ht
      · intro heq
        exact hids.1 (List.mem_map.mpr ⟨b, hb, heq⟩)
      · exact hfresh b (List.mem_cons_of_mem _ hb) t ht hreturn
    · intro hbelow b hb inp hinp t ht
      refine hcheckpoint hbelow b (List.mem_cons_of_mem _ hb) inp hinp t ?_
      rcases List.mem_append.mp ht with ht | ht
      · exact List.mem_append_left _ (List.mem_cons_of_mem _ ht)
      · rcases List.mem_cons.mp ht with rfl | ht
        · exact List.mem_append_left _ List.mem_cons_self
        · exact List.mem_append_right _ ht

/-- A connected block. It repeats no transaction with an output that returns, since the index
has that output unspent. -/
theorem connectBlockState_returnsKept (hrules : ReturnRules net bp rules)
    {chain connected : List ChainEntry} {entry : ChainEntry}
    (hindex : ReturnsKept net rules st.txdb (placedTxs rules connected))
    (hsound : SoundBlock net rules ctx (placedTxs rules connected) disk)
    (h : connectBlockState net votes bp rules nBridgeInterval ctx st chain disk =
      some (st', entry)) :
    ReturnsKept net rules st'.txdb (placedTxs rules (entry :: connected)) := by
  obtain ⟨place, queue, s, done, hsteps⟩ := connectBlockState_ok h
  have hvtx : disk.block.vtx.zipIdx.map (fun a => net.getHash a.1) =
      disk.block.vtx.map net.getHash := by
    rw [← Function.comp_def, ← List.map_map, List.zipIdx_map_fst]
  have hfst : disk.block.vtx.zipIdx.map Prod.fst = disk.block.vtx := List.zipIdx_map_fst 0 _
  have hsize := rules.headerSize_gt disk.block.vtx.length
  have hplaced : disk.placed rules = placesFrom rules disk (loopStart rules disk queue).nTxPos
      (disk.block.vtx.zipIdx.map Prod.fst) := by
    rw [hfst]
    rfl
  have hkept := connectTxs_returnsKept (s := loopStart rules disk queue) hrules
    (hvtx ▸ (checkBlock_tx hsteps.checked).2) ?_
    (fun t ht => hsound.stored t (hplaced ▸ ht))
    (by simp only [loopStart]; omega)
    (fun a ha => checkBlock_inputs hsteps.checked a.1 (List.fst_mem_of_mem_zipIdx ha))
    (fun hbelow a ha inp hinp t ht => hsound.checkpoint hbelow a.1
      (List.fst_mem_of_mem_zipIdx ha) inp hinp t (hplaced ▸ ht)) hindex hsteps.txs
  · rw [hsteps.txdb, connectReward_index hsteps.reward, placedTxs, List.flatMap_cons,
      hsteps.disk_eq, hplaced]
    exact hkept
  · rintro ⟨tx, i⟩ ha t ht hreturn heq
    obtain ⟨before, rest, mid, next, -, -, hstep⟩ := foldlM_some_at ha hsteps.txs
    obtain ⟨hover, -⟩ := connectTx_ok hstep
    obtain ⟨out, hout, hout_return⟩ := List.any_eq_true.mp hreturn
    obtain ⟨n, hn⟩ := List.getElem?_of_mem hout
    obtain ⟨-, -, txindex, hfound, -, hnull⟩ := hindex.entries t ht n (by rw [hn]; exact hout_return)
    have hany : txindex.vSpent.any (·.isNull) = true := by
      cases hmark : txindex.vSpent[n]? with
      | none =>
        rw [hmark] at hnull
        cases hnull
      | some mark =>
        rw [hmark] at hnull
        exact List.any_eq_true.mpr ⟨mark, List.mem_of_getElem? hmark, hnull⟩
    rw [overwrites, heq, hfound, Option.any_some, hany] at hover
    cases hover

end Connect

section Disconnect

variable {net : Params} {rules : BlockRules} {st st' : Stores} {tx : CTransaction}
  {pos : CDiskTxPos} {txs : List (CTransaction × CDiskTxPos)}

/-- One transaction, which is the last one. -/
theorem disconnectTx_returnsKept (hindex : ReturnsKept net rules st.txdb ((tx, pos) :: txs))
    (h : disconnectTx net rules st tx = some st') : ReturnsKept net rules st'.txdb txs := by
  obtain ⟨index, hcases, rfl⟩ := disconnectTx_ok h
  obtain ⟨hfirst, hrest⟩ := List.pairwise_cons.mp hindex.unrepeated
  refine ⟨hrest, fun t ht n hreturn => ?_⟩
  obtain ⟨hread, hpool, txindex, hfound, hpos, hnull⟩ :=
    hindex.entries t (List.mem_cons_of_mem _ ht) n hreturn
  have hne : net.getHash t.1 ≠ net.getHash tx :=
    (hfirst t ht (hasReturn_of_output hreturn)).symm
  refine ⟨hread, hpool, ?_⟩
  dsimp only
  rw [Function.update_of_ne hne]
  rcases hcases with ⟨-, rfl⟩ | ⟨-, hloop⟩
  · exact ⟨txindex, hfound, hpos, hnull⟩
  · rw [unspendLoop_ok hloop, hfound]
    refine ⟨txindex.spent .null (spentOutputs tx.vin (net.getHash t.1)), rfl, hpos, ?_⟩
    by_cases hspent : n ∈ spentOutputs tx.vin (net.getHash t.1)
    · have hlt : n < txindex.vSpent.length := by
        by_contra hge
        rw [List.getElem?_eq_none (not_lt.mp hge)] at hnull
        cases hnull
      rw [CTxIndex.spent, getElem?_foldl_set_mem hspent hlt]
      rfl
    · rw [CTxIndex.spent, getElem?_foldl_set hspent]
      exact hnull

theorem disconnectTxs_returnsKept {l : List (CTransaction × CDiskTxPos)}
    (hindex : ReturnsKept net rules st.txdb (l ++ txs))
    (h : (l.map Prod.fst).foldlM (disconnectTx net rules) st = some st') :
    ReturnsKept net rules st'.txdb txs := by
  induction l generalizing st with
  | nil =>
    cases h
    exact hindex
  | cons t rest ih =>
    rw [List.map_cons, List.foldlM_cons, Option.bind_eq_bind, Option.bind_eq_some_iff] at h
    obtain ⟨mid, hfirst, hrest⟩ := h
    exact ih (disconnectTx_returnsKept hindex hfirst) hrest

theorem disconnectBlockState_returnsKept {connected : List ChainEntry} {entry : ChainEntry}
    (hindex : ReturnsKept net rules st.txdb (placedTxs rules (entry :: connected)))
    (h : disconnectBlockState net rules st entry.disk.block = some st') :
    ReturnsKept net rules st'.txdb (placedTxs rules connected) := by
  rw [placedTxs, List.flatMap_cons] at hindex
  have htxs : ((entry.disk.placed rules).reverse.map Prod.fst) = entry.disk.block.vtx.reverse := by
    rw [List.map_reverse, DiskBlock.placed, placesFrom_map_fst]
  rw [disconnectBlockState, ← htxs] at h
  exact disconnectTxs_returnsKept hindex h

end Disconnect

section Chain

variable {net : Params} {rules : BlockRules} {index : TxIndexMap} {chain : List ChainEntry}

theorem mem_placed {disk : DiskBlock} {tx : CTransaction} (htx : tx ∈ disk.block.vtx) :
    ∃ t ∈ (disk.placed rules).reverse, t.1 = tx := by
  have hmem : tx ∈ (disk.placed rules).map Prod.fst := by
    rw [DiskBlock.placed, placesFrom_map_fst]
    exact htx
  obtain ⟨t, ht, rfl⟩ := List.mem_map.mp hmem
  exact ⟨t, List.mem_reverse.mpr ht, rfl⟩

/-- A transaction with an output that returns does not come again in a later block. -/
theorem ReturnsKept.newer_ne (h : ReturnsKept net rules index (placedTxs rules chain))
    {k k' : ℕ} {e e' : ChainEntry} (hlt : k < k') (he : chain[k]? = some e)
    (he' : chain[k']? = some e') {tx tx' : CTransaction} (htx : tx ∈ e.disk.block.vtx)
    (htx' : tx' ∈ e'.disk.block.vtx) (hreturn : tx'.hasReturn = true) :
    net.getHash tx ≠ net.getHash tx' := by
  have hplaced := @mem_placed rules
  obtain ⟨t, ht, rfl⟩ := hplaced htx
  obtain ⟨t', ht', rfl⟩ := hplaced htx'
  obtain ⟨-, hblocks⟩ := List.pairwise_flatMap.mp h.unrepeated
  obtain ⟨hk, rfl⟩ := List.getElem?_eq_some_iff.mp he
  obtain ⟨hk', rfl⟩ := List.getElem?_eq_some_iff.mp he'
  exact List.pairwise_iff_getElem.mp hblocks k k' hk hk' hlt t ht t' ht' hreturn

/-- A transaction with an output that returns is in one block. -/
theorem ReturnsKept.block_unique (h : ReturnsKept net rules index (placedTxs rules chain))
    {k k' : ℕ} {e e' : ChainEntry} (he : chain[k]? = some e) (he' : chain[k']? = some e')
    {tx tx' : CTransaction} (htx : tx ∈ e.disk.block.vtx) (htx' : tx' ∈ e'.disk.block.vtx)
    (hreturn : tx.hasReturn = true) (hreturn' : tx'.hasReturn = true)
    (hsame : net.getHash tx = net.getHash tx') : k = k' := by
  rcases lt_trichotomy k k' with hlt | heq | hlt
  · exact absurd hsame (h.newer_ne hlt he he' htx htx' hreturn')
  · exact heq
  · exact absurd hsame.symm (h.newer_ne hlt he' he htx' htx hreturn)

end Chain

end BitBay
