import BitBay.Chain.MissingFractions
import BitBay.Chain.SpentMarks
import BitBay.Library.Ledger

/-!
# The money supply

`ConnectBlock` adds up the values that go out of the transactions of a block and takes off those
that come in and those that are burned. The sum follows the unspent outputs of the chain as long
as every value that comes in was counted before: the inputs of a mint were not, nor is the
output of a coinbase that is burned.
-/
namespace BitBay

open Run

/-! ## Unspent outputs -/

def CTxOut.isBurn (out : CTxOut) : Bool :=
  out.scriptPubKey.head?.any fun b => b.toNat = CScript.OP_RETURN

def CTxOut.unburned (out : CTxOut) : ℤ := if out.isBurn then 0 else out.nValue

def createdOutputs (net : Params) (txs : List CTransaction) : List (COutPoint × CTxOut) :=
  txs.flatMap fun tx => tx.vout.zipIdx.map fun out => (⟨net.getHash tx, out.2⟩, out.1)

def spentOutPoints (txs : List CTransaction) : List COutPoint :=
  txs.flatMap fun tx => if tx.spendsOutputs then tx.vin.map (·.prevout) else []

/-- The value of the outputs that are no `OP_RETURN` and that none of the transactions spends. -/
def unspentValue (net : Params) (txs : List CTransaction) : ℤ :=
  (((createdOutputs net txs).filter fun c =>
    c.2.isBurn = false ∧ c.1 ∉ spentOutPoints txs).map fun c => c.2.nValue).sum

/-- The transactions of the blocks that were connected on the genesis block, the last one first. -/
def connectedTxs (chain : List ChainEntry) : List CTransaction :=
  chain.dropLast.flatMap fun e => e.disk.block.vtx.reverse

/-- The block has no mint, its coinbase burns nothing, and nothing burned is spent. -/
structure PlainBlock (net : Params) (before vtx : List CTransaction) : Prop where
  mint : ∀ tx ∈ vtx, tx.isCoinMint = false
  coinBase : ∀ tx ∈ vtx, tx.isCoinBase = true → ∀ out ∈ tx.vout, out.isBurn = true →
    out.nValue = 0
  spends : ∀ tx ∈ vtx, tx.isCoinBase = false → ∀ inp ∈ tx.vin, ∀ out,
    (inp.prevout, out) ∈ createdOutputs net (vtx ++ before) → out.isBurn = true → out.nValue = 0

/-- A step that connects a block connects a plain one, which the block files hold. -/
def Node.ConnectsPlain (net : Params) (rules : BlockRules) (before after : Node) : Prop :=
  ∀ entry, after.chain = entry :: before.chain →
    PlainBlock net (connectedTxs before.chain) entry.disk.block.vtx ∧
      ∀ t ∈ entry.disk.placed rules, rules.readTx t.2 = some t.1

def PlainRun (net : Params) (votes : VoteParams) (bp : BridgeParams) (rules : BlockRules)
    (nBridgeInterval : ℕ) (genesis : ChainEntry) (node : Node) : Prop :=
  genesis.nMoneySupply = 0 ∧ ∃ start : Node, start.Started genesis ∧ Relation.ReflTransGen
    (fun before after => NodeStep net votes bp rules nBridgeInterval before after ∧
      before.ConnectsFresh net rules after ∧ before.ConnectsPlain net rules after) start node

section Outputs

variable {net : Params} {tx : CTransaction} {txs : List CTransaction} {o : COutPoint} {out : CTxOut}

theorem mem_createdOutputs : (o, out) ∈ createdOutputs net txs ↔
    ∃ tx ∈ txs, net.getHash tx = o.hash ∧ tx.vout[o.n]? = some out := by
  simp only [createdOutputs, List.mem_flatMap, List.mem_map]
  constructor
  · rintro ⟨tx, htx, ⟨out', n⟩, hout, heq⟩
    obtain ⟨rfl, rfl⟩ := Prod.mk.inj heq
    exact ⟨tx, htx, rfl, List.mem_zipIdx_iff_getElem?.mp hout⟩
  · rintro ⟨tx, htx, hhash, hout⟩
    refine ⟨tx, htx, (out, o.n), List.mem_zipIdx_iff_getElem?.mpr hout, ?_⟩
    rw [hhash]

theorem createdOutputs_cons : createdOutputs net (tx :: txs) =
    (tx.vout.zipIdx.map fun out => (⟨net.getHash tx, out.2⟩, out.1)) ++ createdOutputs net txs :=
  List.flatMap_cons

theorem spentOutPoints_cons : spentOutPoints (tx :: txs) =
    (if tx.spendsOutputs then tx.vin.map (·.prevout) else []) ++ spentOutPoints txs :=
  List.flatMap_cons

theorem nodup_createdOutputs (h : (txs.map net.getHash).Nodup) :
    ((createdOutputs net txs).map Prod.fst).Nodup := by
  induction txs with
  | nil => exact List.nodup_nil
  | cons tx txs ih =>
    rw [List.map_cons, List.nodup_cons] at h
    rw [createdOutputs_cons, List.map_append, List.nodup_append]
    refine ⟨?_, ih h.2, ?_⟩
    · rw [List.map_map]
      have hindex : (tx.vout.zipIdx.map Prod.snd).Nodup := by
        simp [List.zipIdx_map_snd, List.nodup_range']
      rw [show (Prod.fst ∘ fun out : CTxOut × ℕ => (⟨net.getHash tx, out.2⟩, out.1)) =
        (fun n : ℕ => (⟨net.getHash tx, n⟩ : COutPoint)) ∘ Prod.snd from rfl, ← List.map_map]
      exact hindex.map fun a b hab => (COutPoint.mk.inj hab).2
    · rintro a ha b hb rfl
      obtain ⟨⟨o, out⟩, hout, rfl⟩ := List.mem_map.mp ha
      obtain ⟨⟨out', n⟩, -, heq⟩ := List.mem_map.mp hout
      obtain ⟨⟨o', out''⟩, hcreated, hsame⟩ := List.mem_map.mp hb
      obtain ⟨tx', htx', hhash, -⟩ := mem_createdOutputs.mp hcreated
      apply h.1
      obtain ⟨rfl, -⟩ := Prod.mk.inj heq
      dsimp only at hsame
      subst hsame
      exact List.mem_map.mpr ⟨tx', htx', hhash⟩

theorem unspentValue_eq_worth : unspentValue net txs =
    Ledger.worth CTxOut.unburned (createdOutputs net txs) (spentOutPoints txs) := by
  unfold unspentValue Ledger.worth
  induction createdOutputs net txs with
  | nil => rfl
  | cons c l ih =>
    by_cases hspent : c.1 ∈ spentOutPoints txs
    · simpa [hspent] using ih
    · cases hreturn : c.2.isBurn
      · simpa [hspent, hreturn, CTxOut.unburned] using ih
      · simpa [hspent, hreturn, CTxOut.unburned] using ih

/-- A transaction whose outputs nothing spends yet takes away what it spends. -/
theorem unspentValue_cons {entry : COutPoint → CTxOut} (hids : ((tx :: txs).map net.getHash).Nodup)
    (hnew : ∀ n, (⟨net.getHash tx, n⟩ : COutPoint) ∉ spentOutPoints (tx :: txs))
    (hinputs : (tx.vin.map (·.prevout)).Nodup)
    (hcreated : tx.spendsOutputs = true → ∀ inp ∈ tx.vin,
      (inp.prevout, entry inp.prevout) ∈ createdOutputs net txs)
    (hunspent : tx.spendsOutputs = true → ∀ inp ∈ tx.vin, inp.prevout ∉ spentOutPoints txs) :
    unspentValue net (tx :: txs) = unspentValue net txs + (tx.vout.map CTxOut.unburned).sum -
      if tx.spendsOutputs then (tx.vin.map fun inp => (entry inp.prevout).unburned).sum else 0 := by
  rw [List.map_cons, List.nodup_cons] at hids
  have hkeys := nodup_createdOutputs hids.2
  have hvout : ((tx.vout.zipIdx.map fun out => ((⟨net.getHash tx, out.2⟩ : COutPoint), out.1)).map
      fun c => CTxOut.unburned c.2) = tx.vout.map CTxOut.unburned := by
    calc ((tx.vout.zipIdx.map fun out => ((⟨net.getHash tx, out.2⟩ : COutPoint), out.1)).map
          fun c => CTxOut.unburned c.2)
        = (tx.vout.zipIdx.map Prod.fst).map CTxOut.unburned := by
          rw [List.map_map, List.map_map]
          rfl
      _ = tx.vout.map CTxOut.unburned := by rw [List.zipIdx_map_fst]
  have hfresh : ∀ c ∈ tx.vout.zipIdx.map fun out => ((⟨net.getHash tx, out.2⟩ : COutPoint), out.1),
      c.1 ∉ spentOutPoints (tx :: txs) := by
    intro c hc
    obtain ⟨out, -, rfl⟩ := List.mem_map.mp hc
    exact hnew out.2
  rw [unspentValue_eq_worth, unspentValue_eq_worth, createdOutputs_cons,
    Ledger.worth_create hfresh, hvout, spentOutPoints_cons]
  split_ifs with hspends
  · have htaken : ∀ k ∈ tx.vin.map (·.prevout), (k, entry k) ∈ createdOutputs net txs := by
      intro k hk
      obtain ⟨inp, hinp, rfl⟩ := List.mem_map.mp hk
      exact hcreated hspends inp hinp
    have hnone : ∀ k ∈ tx.vin.map (·.prevout), k ∉ spentOutPoints txs := by
      intro k hk
      obtain ⟨inp, hinp, rfl⟩ := List.mem_map.mp hk
      exact hunspent hspends inp hinp
    rw [Ledger.worth_spend hkeys hinputs htaken hnone, List.map_map]
    simp only [Function.comp_def]
    ring
  · rw [List.nil_append]
    ring

end Outputs

/-! ## Sums of values -/

section Values

variable {tx : CTransaction} {maps : MapPrevTx}

/-- The first operation of a script is `OP_RETURN` exactly if its first byte is. -/
theorem getOp_return (scriptPubKey : CScript) :
    ((CScript.getOp scriptPubKey).any fun op => op.1 = CScript.OP_RETURN) =
      scriptPubKey.head?.any fun b => b.toNat = CScript.OP_RETURN := by
  cases scriptPubKey with
  | nil => rfl
  | cons b rest =>
    by_cases hbig : CScript.OP_PUSHDATA4 < b.toNat
    · simp [CScript.getOp, hbig]
    · have hne : b.toNat ≠ CScript.OP_RETURN := by
        intro heq
        rw [heq] at hbig
        exact hbig (by decide)
      have hhead : ((b :: rest).head?.any fun b => b.toNat = CScript.OP_RETURN) = false := by
        simp [hne]
      rw [hhead]
      simp only [CScript.getOp, hbig, if_false]
      split_ifs <;> simp [hne]

theorem getValueBurn_eq :
    tx.getValueBurn = ((tx.vout.filter CTxOut.isBurn).map (·.nValue)).sum := by
  simp only [CTransaction.getValueBurn, getOp_return]
  rfl

/-- What goes out and is not burned. -/
theorem sum_unburned (vout : List CTxOut) : (vout.map CTxOut.unburned).sum =
    (vout.map (·.nValue)).sum - ((vout.filter CTxOut.isBurn).map (·.nValue)).sum := by
  induction vout with
  | nil => rfl
  | cons out vout ih =>
    cases hreturn : out.isBurn
    · simp [hreturn, CTxOut.unburned, ih]
      ring
    · simp [hreturn, CTxOut.unburned, ih]

theorem getValueOut_eq {v : ℤ} (h : tx.getValueOut = some v) : v = (tx.vout.map (·.nValue)).sum := by
  have hloop : ∀ (vout : List CTxOut) (acc v : ℤ), vout.foldlM (fun nValueOut txout =>
      if moneyRange txout.nValue ∧ moneyRange (nValueOut + txout.nValue) then
        some (nValueOut + txout.nValue) else none) acc = some v →
      v = acc + (vout.map (·.nValue)).sum := by
    intro vout
    induction vout with
    | nil =>
      intro acc v hv
      cases hv
      simp
    | cons out vout ih =>
      intro acc v hv
      rw [List.foldlM_cons, Option.bind_eq_bind, Option.bind_eq_some_iff] at hv
      obtain ⟨mid, hmid, hrest⟩ := hv
      split_ifs at hmid
      cases hmid
      rw [ih _ _ hrest, List.map_cons, List.sum_cons]
      ring
  simpa using hloop tx.vout 0 v h

def fetchedOutput (maps : MapPrevTx) (o : COutPoint) : CTxOut :=
  ((maps o.hash).bind fun prev => prev.tx.vout[o.n]?).getD default

theorem getValueIn_eq {v : ℤ} (hbase : tx.isCoinBase = false) (h : tx.getValueIn maps = some v) :
    (∀ inp ∈ tx.vin, CTransaction.getOutputFor maps inp =
      some (fetchedOutput maps inp.prevout)) ∧
      v = (tx.vin.map fun inp => (fetchedOutput maps inp.prevout).nValue).sum := by
  have hloop : ∀ (vin : List CTxIn) (acc v : ℤ), vin.foldlM (fun nResult input =>
      (CTransaction.getOutputFor maps input).map fun txout => nResult + txout.nValue) acc =
        some v →
      (∀ inp ∈ vin, CTransaction.getOutputFor maps inp =
        some (fetchedOutput maps inp.prevout)) ∧
        v = acc + (vin.map fun inp => (fetchedOutput maps inp.prevout).nValue).sum := by
    intro vin
    induction vin with
    | nil =>
      intro acc v hv
      cases hv
      simp
    | cons inp vin ih =>
      intro acc v hv
      rw [List.foldlM_cons, Option.bind_eq_bind, Option.bind_eq_some_iff] at hv
      obtain ⟨mid, hmid, hrest⟩ := hv
      obtain ⟨out, hout, rfl⟩ := Option.map_eq_some_iff.mp hmid
      have hfetched : fetchedOutput maps inp.prevout = out := by
        rw [CTransaction.getOutputFor] at hout
        rw [fetchedOutput, hout]
        rfl
      obtain ⟨hall, hsum⟩ := ih _ _ hrest
      refine ⟨List.forall_mem_cons.mpr ⟨hfetched ▸ hout, hall⟩, ?_⟩
      rw [hsum, List.map_cons, List.sum_cons, hfetched]
      ring
  rw [CTransaction.getValueIn, hbase] at h
  simpa using hloop tx.vin 0 v h

end Values

/-! ## Connecting -/

def BlockState.supplyChange (s : BlockState) : ℤ := s.nValueOut - s.nValueIn - s.nValueBurn

section Connect

variable {net : Params} {votes : VoteParams} {bp : BridgeParams} {rules : BlockRules}
  {nBridgeInterval : ℕ} {ctx : BlockContext} {st st' : Stores} {place : BlockPlace}
  {disk : DiskBlock} {s s' : BlockState} {tx : CTransaction} {i : ℕ} {pos : CDiskTxPos}
  {txs : List (CTransaction × CDiskTxPos)} {o : COutPoint}

theorem ownSpends_eq_nil_iff :
    ownSpends (tx, pos) o = [] ↔ o ∉ if tx.spendsOutputs then tx.vin.map (·.prevout) else [] := by
  dsimp only [ownSpends]
  split_ifs
  · rw [List.map_eq_nil_iff, List.filter_eq_nil_iff, List.mem_map]
    simp
  · simp

theorem spenders_eq_nil_iff :
    spenders txs o = [] ↔ o ∉ spentOutPoints (txs.map Prod.fst) := by
  induction txs with
  | nil => simp [spenders, spentOutPoints]
  | cons t txs ih =>
    rw [spenders_cons, List.append_eq_nil_iff, ownSpends_eq_nil_iff, ih, List.map_cons,
      spentOutPoints_cons, List.mem_append, not_or]

/-- What one transaction adds. -/
theorem connectTx_values (h : connectTx net votes bp rules ctx st place disk s (tx, i) = some s') :
    ∃ nValueOut, tx.getValueOut = some nValueOut ∧
      (tx.isCoinBase = true ∧ s'.supplyChange = s.supplyChange + nValueOut ∨
        tx.isCoinBase = false ∧ ∃ maps nValueIn,
          fetchInputs votes bp rules.toTxSource (blockFetch ctx st disk s tx place.nHeight)
            (fun _ => none) (fun _ => none) = .ok maps ∧
          tx.getValueIn maps.1 = some nValueIn ∧
          s'.supplyChange = s.supplyChange + (nValueOut - nValueIn - tx.getValueBurn)) := by
  unfold connectTx at h
  split_ifs at h with hrefuse hbase
  · obtain ⟨s₂, hs₂, h⟩ := Option.bind_eq_some_iff.mp h
    obtain ⟨nValueOut, hout, rfl⟩ := Option.map_eq_some_iff.mp hs₂
    obtain rfl := Option.some.inj h
    refine ⟨nValueOut, hout, Or.inl ⟨hbase, ?_⟩⟩
    simp only [BlockState.supplyChange, BlockState.addIndex]
    ring
  · obtain ⟨s₂, hs₂, h⟩ := Option.bind_eq_some_iff.mp h
    obtain rfl := Option.some.inj h
    unfold connectTxInputs at hs₂
    split at hs₂
    · cases hs₂
    · rename_i maps hmaps
      split_ifs at hs₂
      simp only [Option.bind_eq_bind, Option.bind_eq_some_iff] at hs₂
      obtain ⟨nValueIn, hin, nValueOut, hout, r, -, hadd⟩ := hs₂
      obtain rfl := Option.some.inj hadd
      refine ⟨nValueOut, hout, Or.inr ⟨by simpa using hbase, maps, nValueIn, hmaps, hin, ?_⟩⟩
      simp only [BlockState.supplyChange, BlockState.addIndex, BlockState.addConnected,
        BlockState.addValues]
      ring

/-- A fetched output is the one of the transaction in the block files. -/
theorem fetched_created (hread : ∀ pos, pos.isNull = true → rules.readTx pos = none)
    (hindex : TxIndexMap.Follows net (overlay st.txdb s.mapQueuedChanges) txs)
    (hfiles : ∀ t ∈ txs, rules.readTx t.2 = some t.1 ∧ t.2 ≠ .mempool)
    (hbase : tx.isCoinBase = false) (hmint : tx.isCoinMint = false)
    {maps : MapPrevTx × MapFractions} {n : ℕ} (hmaps : fetchInputs votes bp rules.toTxSource
      (blockFetch ctx st disk s tx n) (fun _ => none) (fun _ => none) = .ok maps)
    {inp : CTxIn} {out : CTxOut} (hout : CTransaction.getOutputFor maps.1 inp = some out) :
    (inp.prevout, out) ∈ createdOutputs net (txs.map Prod.fst) := by
  obtain ⟨prev, hprev, hat⟩ := Option.bind_eq_some_iff.mp hout
  obtain ⟨fractions, hok⟩ := fetchInputs_readPrev hbase hmint hmaps hprev
  have hfound := readPrev_index rfl hok
  have hplace := readPrev_pos hread rfl hok
  rw [findTxIndex_blockFetch] at hfound
  obtain ⟨t, ht, hhash⟩ := List.mem_map.mp (hindex.known _ _ hfound hplace)
  obtain ⟨txindex, hentry, hmarked⟩ := hindex.entries t ht
  rw [hhash, hfound] at hentry
  obtain rfl := Option.some.inj hentry
  obtain ⟨hfile, hpool⟩ := hfiles t ht
  have htx : prev.tx = t.1 := by
    have hfound' : findTxIndex (blockFetch ctx st disk s tx n) inp.prevout.hash =
        some prev.txindex := readPrev_index rfl hok
    simp only [readPrev, hfound', hmarked.pos, if_neg hpool] at hok
    cases hdisk : readDisk rules.toTxSource prev.txindex with
    | error e =>
      rw [hdisk] at hok
      cases hok
    | ok read =>
      rw [hdisk] at hok
      obtain ⟨rfl, -⟩ := Prod.mk.inj (Except.ok.inj hok)
      have htx := (readDisk_isOk.mp hdisk).2.1
      rw [hmarked.pos, hfile] at htx
      exact (Option.some.inj htx).symm
  exact mem_createdOutputs.mpr ⟨t.1, List.mem_map.mpr ⟨t, ht, rfl⟩, hhash, htx ▸ hat⟩

theorem txIds_map : (txs.map Prod.fst).map net.getHash = txIds net txs := List.map_map

/-- One transaction that is no mint adds the value of its outputs and takes away what it spends. -/
theorem connectTx_supply (hread : ∀ pos, pos.isNull = true → rules.readTx pos = none)
    (hindex : TxIndexMap.Follows net (overlay st.txdb s.mapQueuedChanges) txs)
    (hfiles : ∀ t ∈ txs, rules.readTx t.2 = some t.1 ∧ t.2 ≠ .mempool)
    (hfresh : net.getHash tx ∉ txIds net txs) (hinputs : (tx.vin.map (·.prevout)).Nodup)
    (hmint : tx.isCoinMint = false)
    (hcoin : tx.isCoinBase = true → ∀ out ∈ tx.vout, out.isBurn = true → out.nValue = 0)
    (hspent : tx.isCoinBase = false → ∀ inp ∈ tx.vin, ∀ out,
      (inp.prevout, out) ∈ createdOutputs net (txs.map Prod.fst) → out.isBurn = true →
        out.nValue = 0)
    (h : connectTx net votes bp rules ctx st place disk s (tx, i) = some s') :
    s'.supplyChange = s.supplyChange + (unspentValue net (tx :: txs.map Prod.fst) -
      unspentValue net (txs.map Prod.fst)) := by
  have hids : ((tx :: txs.map Prod.fst).map net.getHash).Nodup := by
    rw [List.map_cons, txIds_map, List.nodup_cons]
    exact ⟨hfresh, hindex.nodup⟩
  have hbefore : ∀ n, (⟨net.getHash tx, n⟩ : COutPoint) ∉ spentOutPoints (txs.map Prod.fst) :=
    fun n => spenders_eq_nil_iff.mp (hindex.earlier.spenders_eq_nil hfresh)
  obtain ⟨nValueOut, hout, ⟨hbase, hchange⟩ | ⟨hbase, maps, nValueIn, hmaps, hin, hchange⟩⟩ :=
    connectTx_values h
  · have hnot : tx.spendsOutputs = false := by simp [CTransaction.spendsOutputs, hbase]
    have hnew : ∀ n, (⟨net.getHash tx, n⟩ : COutPoint) ∉
        spentOutPoints (tx :: txs.map Prod.fst) := by
      simpa [spentOutPoints_cons, hnot] using hbefore
    have hburned : (tx.vout.map CTxOut.unburned).sum = (tx.vout.map (·.nValue)).sum := by
      refine congrArg List.sum (List.map_congr_left fun out hmem => ?_)
      unfold CTxOut.unburned
      split_ifs with hreturn
      · exact (hcoin hbase out hmem hreturn).symm
      · rfl
    have hcons := @unspentValue_cons net tx _ (fun _ => default) hids hnew hinputs
      (by simp [hnot]) (by simp [hnot])
    rw [hchange, getValueOut_eq hout, hcons, hburned, if_neg (by simp [hnot])]
    ring
  · have hspends : tx.spendsOutputs = true := spendsOutputs_iff.mpr ⟨hbase, hmint⟩
    obtain ⟨hfetched, hsum⟩ := getValueIn_eq hbase hin
    have hcreated : ∀ inp ∈ tx.vin, (inp.prevout, fetchedOutput maps.1 inp.prevout) ∈
        createdOutputs net (txs.map Prod.fst) := fun inp hinp =>
      fetched_created hread hindex hfiles hbase hmint hmaps (hfetched inp hinp)
    have hunspent : ∀ inp ∈ tx.vin, inp.prevout ∉ spentOutPoints (txs.map Prod.fst) := by
      intro inp hinp
      obtain ⟨txindex, hfound, hplace, hnull⟩ := connectTx_spends_null hread hspends hinputs h hinp
      obtain ⟨t, ht, hhash⟩ := List.mem_map.mp (hindex.known _ _ hfound hplace)
      obtain ⟨txindex', hentry, hmarked⟩ := hindex.entries t ht
      rw [hhash, hfound] at hentry
      obtain rfl := Option.some.inj hentry
      obtain ⟨mark, hmark, hmarknull⟩ : ∃ mark, txindex.vSpent[inp.prevout.n]? = some mark ∧
          mark.isNull = true := by
        simpa [Option.any_eq_true] using hnull
      have hlt : inp.prevout.n < t.1.vout.length :=
        hmarked.length ▸ (List.getElem?_eq_some_iff.mp hmark).1
      obtain ⟨mark', hmark', hmarks⟩ := hmarked.marks _ hlt
      obtain rfl := Option.some.inj (hmark.symm.trans hmark')
      rw [hhash] at hmarks
      rcases hmarks with ⟨-, hnone⟩ | ⟨hfalse, -⟩
      · exact spenders_eq_nil_iff.mp hnone
      · rw [hmarknull] at hfalse
        cases hfalse
    have hnew : ∀ n, (⟨net.getHash tx, n⟩ : COutPoint) ∉
        spentOutPoints (tx :: txs.map Prod.fst) := by
      intro n hmem
      rw [spentOutPoints_cons, if_pos hspends] at hmem
      rcases List.mem_append.mp hmem with hown | hold
      · obtain ⟨inp, hinp, hprevout⟩ := List.mem_map.mp hown
        obtain ⟨tx', htx', hhash, -⟩ := mem_createdOutputs.mp (hcreated inp hinp)
        rw [hprevout] at hhash
        apply hfresh
        rw [← txIds_map]
        exact List.mem_map.mpr ⟨tx', htx', hhash⟩
      · exact hbefore n hold
    have hvalue : (tx.vin.map fun inp => (fetchedOutput maps.1 inp.prevout).unburned).sum =
        (tx.vin.map fun inp => (fetchedOutput maps.1 inp.prevout).nValue).sum := by
      refine congrArg List.sum (List.map_congr_left fun inp hinp => ?_)
      unfold CTxOut.unburned
      split_ifs with hreturn
      · exact (hspent hbase inp hinp _ (hcreated inp hinp) hreturn).symm
      · rfl
    rw [hchange, getValueOut_eq hout, hsum, getValueBurn_eq, unspentValue_cons hids hnew hinputs
      (fun _ => hcreated) (fun _ => hunspent), if_pos hspends, sum_unburned, hvalue]
    ring

/-- The loop over the transactions. -/
theorem connectTxs_supply (hread : ∀ pos, pos.isNull = true → rules.readTx pos = none)
    (hstored : disk.nFile ≠ 2 ^ 32 - 1) {l : List (CTransaction × ℕ)}
    (hindex : TxIndexMap.Follows net (overlay st.txdb s.mapQueuedChanges) txs)
    (hfiles : ∀ t ∈ (placesFrom rules disk s.nTxPos (l.map Prod.fst)).reverse ++ txs,
      rules.readTx t.2 = some t.1 ∧ t.2 ≠ .mempool)
    (hids : (l.map fun a => net.getHash a.1).Nodup)
    (hfresh : ∀ a ∈ l, net.getHash a.1 ∉ txIds net txs)
    (hinputs : ∀ a ∈ l, (a.1.vin.map (·.prevout)).Nodup)
    (hmint : ∀ a ∈ l, a.1.isCoinMint = false)
    (hcoin : ∀ a ∈ l, a.1.isCoinBase = true → ∀ out ∈ a.1.vout, out.isBurn = true →
      out.nValue = 0)
    (hspent : ∀ a ∈ l, a.1.isCoinBase = false → ∀ inp ∈ a.1.vin, ∀ out,
      (inp.prevout, out) ∈ createdOutputs net (l.map Prod.fst ++ txs.map Prod.fst) →
        out.isBurn = true → out.nValue = 0)
    (h : l.foldlM (connectTx net votes bp rules ctx st place disk) s = some s') :
    s'.supplyChange = s.supplyChange +
      (unspentValue net ((l.map Prod.fst).reverse ++ txs.map Prod.fst) -
        unspentValue net (txs.map Prod.fst)) := by
  induction l generalizing s txs with
  | nil =>
    obtain rfl := Option.some.inj h
    simp
  | cons a rest ih =>
    obtain ⟨tx, i⟩ := a
    rw [List.foldlM_cons, Option.bind_eq_bind, Option.bind_eq_some_iff] at h
    obtain ⟨mid, hfirst, hrest⟩ := h
    rw [List.map_cons, List.nodup_cons] at hids
    rw [List.map_cons, placesFrom, List.reverse_cons, List.append_assoc] at hfiles
    have hold : ∀ t ∈ txs, rules.readTx t.2 = some t.1 ∧ t.2 ≠ .mempool := fun t ht =>
      hfiles t (List.mem_append_right _ (List.mem_append_right _ ht))
    have hmore : ∀ {o out}, (o, out) ∈ createdOutputs net (txs.map Prod.fst) →
        (o, out) ∈ createdOutputs net (((tx, i) :: rest).map Prod.fst ++ txs.map Prod.fst) := by
      intro o out hmem
      obtain ⟨tx', htx', hat⟩ := mem_createdOutputs.mp hmem
      exact mem_createdOutputs.mpr ⟨tx', List.mem_append_right _ htx', hat⟩
    have hstep := connectTx_supply hread hindex hold (hfresh _ List.mem_cons_self)
      (hinputs _ List.mem_cons_self) (hmint _ List.mem_cons_self) (hcoin _ List.mem_cons_self)
      (fun hbase inp hinp out hmem => hspent _ List.mem_cons_self hbase inp hinp out (hmore hmem))
      hfirst
    have hmid := connectTx_follows hread hstored hindex (hfresh _ List.mem_cons_self)
      (fun hm => by rw [hmint _ List.mem_cons_self] at hm; cases hm)
      (hinputs _ List.mem_cons_self) hfirst
    have hdone := ih hmid ?_ hids.2 ?_ (fun b hb => hinputs b (List.mem_cons_of_mem _ hb))
      (fun b hb => hmint b (List.mem_cons_of_mem _ hb))
      (fun b hb => hcoin b (List.mem_cons_of_mem _ hb)) ?_ hrest
    · rw [hdone, hstep, List.map_cons, List.map_cons, List.reverse_cons, List.append_assoc,
        List.singleton_append]
      ring
    · rw [connectTx_nTxPos hfirst]
      exact hfiles
    · intro b hb hmem
      rcases List.mem_cons.mp hmem with heq | hmem
      · exact hids.1 (List.mem_map.mpr ⟨b, hb, heq⟩)
      · exact hfresh b (List.mem_cons_of_mem _ hb) hmem
    · intro b hb hbase inp hinp out hmem
      refine hspent b (List.mem_cons_of_mem _ hb) hbase inp hinp out ?_
      obtain ⟨tx', htx', hat⟩ := mem_createdOutputs.mp hmem
      refine mem_createdOutputs.mpr ⟨tx', ?_, hat⟩
      simp only [List.map_cons, List.mem_append, List.mem_cons] at htx' ⊢
      tauto

theorem connectReward_supply {indices : List CBlockIndex}
    (h : connectReward net votes bp rules ctx st place disk indices s = some s') :
    s'.supplyChange = s.supplyChange := by
  rcases connectReward_ok h with rfl | ⟨tx, -, -, hstake⟩
  · rfl
  · obtain ⟨inp, maps, nReward, -, -, rfl | ⟨-, rfl⟩⟩ := connectStake_ok hstake
    · rfl
    · rfl

theorem connectBlockState_supply {chain : List ChainEntry} {entry : ChainEntry}
    (h : connectBlockState net votes bp rules nBridgeInterval ctx st chain disk =
      some (st', entry)) :
    ∃ place queue s, checkBlock net rules disk.block = true ∧ entry.disk = disk ∧
      disk.block.vtx.zipIdx.foldlM (connectTx net votes bp rules ctx st place disk)
        (loopStart rules disk queue) = some s ∧
      entry.nMoneySupply = ((chain.head?).map (·.nMoneySupply)).getD 0 + s.supplyChange := by
  unfold connectBlockState at h
  split_ifs at h with hcheck
  simp only [connectBody, Option.bind_eq_bind, Option.bind_eq_some_iff] at h
  obtain ⟨nPegSupplyIndex, -, done, ⟨queue, -, s, hs, hdone⟩, nPegVotes, -, h⟩ := h
  obtain ⟨-, rfl⟩ := Prod.mk.inj (Option.some.inj h)
  refine ⟨_, queue, s, by simpa using hcheck, rfl, hs, ?_⟩
  have hsame := connectReward_supply hdone
  simp only [BlockState.supplyChange] at hsame ⊢
  linarith

theorem placesFrom_place {l : List CTransaction} {nTxPos : ℕ} {t : CTransaction × CDiskTxPos}
    (ht : t ∈ placesFrom rules disk nTxPos l) : nTxPos ≤ t.2.nTxPos := by
  induction l generalizing nTxPos with
  | nil => cases ht
  | cons tx rest ih =>
    rcases List.mem_cons.mp ht with rfl | hrest
    · exact le_rfl
    · exact (Nat.le_add_right _ _).trans (ih hrest)

/-- No transaction of a block is at the place that stands for the memory pool. -/
theorem placed_ne_mempool {t : CTransaction × CDiskTxPos} (ht : t ∈ disk.placed rules) :
    t.2 ≠ .mempool := by
  have hplace := placesFrom_place ht
  have hheader := rules.headerSize_gt disk.block.vtx.length
  intro heq
  rw [heq] at hplace
  have hone : disk.nBlockPos + rules.headerSize disk.block.vtx.length ≤ 1 := hplace
  omega

theorem placedTxs_map_fst (chain : List ChainEntry) :
    (placedTxs rules chain).map Prod.fst = chain.flatMap fun e => e.disk.block.vtx.reverse := by
  simp only [placedTxs, List.map_flatMap, List.map_reverse, DiskBlock.placed, placesFrom_map_fst]

end Connect

/-! ## Runs -/

section Runs

variable {net : Params} {votes : VoteParams} {bp : BridgeParams} {rules : BlockRules}
  {nBridgeInterval : ℕ} {genesis entry : ChainEntry} {node after : Node}
  {chain rest : List ChainEntry}

/-- The supply in the index of every block of the chain is the value of the unspent outputs up
to it. -/
def Tracks (net : Params) (chain : List ChainEntry) : Prop :=
  ∀ entry rest, (entry :: rest).IsSuffix chain →
    entry.nMoneySupply = unspentValue net (connectedTxs (entry :: rest))

theorem tracks_cons : Tracks net (entry :: rest) ↔
    entry.nMoneySupply = unspentValue net (connectedTxs (entry :: rest)) ∧ Tracks net rest := by
  constructor
  · intro h
    exact ⟨h entry rest List.suffix_rfl, fun e l hl => h e l (hl.trans (List.suffix_cons _ _))⟩
  · rintro ⟨hfirst, hrest⟩ e l hl
    rcases List.suffix_cons_iff.mp hl with heq | hl
    · obtain ⟨rfl, rfl⟩ := List.cons.inj heq
      exact hfirst
    · exact hrest e l hl

structure Node.Accounted (net : Params) (rules : BlockRules) (node : Node) : Prop where
  chain_ne : node.chain ≠ []
  follows : node.stores.txdb.Follows net (placedTxs rules node.chain.dropLast)
  files : ∀ t ∈ placedTxs rules node.chain.dropLast, rules.readTx t.2 = some t.1 ∧ t.2 ≠ .mempool
  tracks : Tracks net node.chain

theorem NodeStep.accounted (hread : ∀ pos, pos.isNull = true → rules.readTx pos = none)
    (hnode : node.Accounted net rules)
    (hstep : NodeStep net votes bp rules nBridgeInterval node after)
    (hfresh : node.ConnectsFresh net rules after) (hplain : node.ConnectsPlain net rules after) :
    after.Accounted net rules := by
  obtain ⟨hne, hfollows⟩ := hstep.follows hread hnode.chain_ne hnode.follows hfresh
  cases hstep with
  | @connect ctx disk chain st st' entry h =>
    obtain ⟨hchain, hindex, hfiles, htracks⟩ := hnode
    dsimp only at hchain hindex hfiles htracks hne hfollows ⊢
    obtain ⟨place, queue, s, hchecked, rfl, hloop, hsupply⟩ := connectBlockState_supply h
    obtain ⟨hblock, hstored⟩ := hplain entry rfl
    have hnew := hfresh entry rfl
    have hplaced : placedTxs rules (entry :: chain).dropLast =
        (entry.disk.placed rules).reverse ++ placedTxs rules chain.dropLast := by
      rw [List.dropLast_cons_of_ne_nil hchain, placedTxs, List.flatMap_cons]
      rfl
    have hfiles' : ∀ t ∈ (entry.disk.placed rules).reverse ++ placedTxs rules chain.dropLast,
        rules.readTx t.2 = some t.1 ∧ t.2 ≠ .mempool := by
      intro t ht
      rcases List.mem_append.mp ht with hown | hold
      · exact ⟨hstored t (List.mem_reverse.mp hown), placed_ne_mempool (List.mem_reverse.mp hown)⟩
      · exact hfiles t hold
    refine ⟨hne, hfollows, hplaced ▸ hfiles', tracks_cons.mpr ⟨?_, htracks⟩⟩
    have hvtx : entry.disk.block.vtx.zipIdx.map (fun a => net.getHash a.1) =
        entry.disk.block.vtx.map net.getHash := by
      rw [← Function.comp_def, ← List.map_map, List.zipIdx_map_fst]
    have htxs := connectTxs_supply (s := loopStart rules entry.disk queue) hread hnew.stored hindex
      (by rw [List.zipIdx_map_fst]; exact hfiles') (hvtx ▸ (checkBlock_tx hchecked).2)
      (fun a ha => hnew.txs a.1 (List.fst_mem_of_mem_zipIdx ha))
      (fun a ha => checkBlock_inputs hchecked a.1 (List.fst_mem_of_mem_zipIdx ha))
      (fun a ha => hblock.mint a.1 (List.fst_mem_of_mem_zipIdx ha))
      (fun a ha => hblock.coinBase a.1 (List.fst_mem_of_mem_zipIdx ha))
      (fun a ha hbase inp hinp out hmem => hblock.spends a.1 (List.fst_mem_of_mem_zipIdx ha) hbase
        inp hinp out (by rw [List.zipIdx_map_fst, placedTxs_map_fst] at hmem; exact hmem)) hloop
    obtain ⟨last, below, rfl⟩ := List.exists_cons_of_ne_nil hchain
    have hlast := (tracks_cons.mp htracks).1
    have hzero : (loopStart rules entry.disk queue).supplyChange = 0 := rfl
    rw [hzero, List.zipIdx_map_fst, placedTxs_map_fst] at htxs
    rw [hsupply, htxs, List.head?_cons, Option.map_some, Option.getD_some, hlast, connectedTxs,
      connectedTxs, List.dropLast_cons_of_ne_nil hchain, List.flatMap_cons]
    ring
  | @disconnect chain st st' entry hbelow h =>
    refine ⟨hne, hfollows, fun t ht => hnode.files t ?_, (tracks_cons.mp hnode.tracks).2⟩
    dsimp only at ht ⊢
    rw [List.dropLast_cons_of_ne_nil hbelow, placedTxs, List.flatMap_cons]
    exact List.mem_append_right _ ht

/-- In every state of a run that connects plain blocks, the supply in the index of the last
block is the value of the unspent outputs of the chain. -/
theorem moneySupply_tracks (hread : ∀ pos, pos.isNull = true → rules.readTx pos = none)
    (hrun : PlainRun net votes bp rules nBridgeInterval genesis node) :
    ∀ entry rest, node.chain = entry :: rest →
      entry.nMoneySupply = unspentValue net (connectedTxs node.chain) := by
  obtain ⟨hzero, start, hstarted, hsteps⟩ := hrun
  have hall : node.Accounted net rules := by
    induction hsteps with
    | refl =>
      obtain ⟨hne, hfollows⟩ := hstarted.follows
      have hchain := hstarted.1
      refine ⟨hne, hfollows, fun t ht => ?_, ?_⟩
      · rw [hchain] at ht
        cases ht
      · rw [hchain, tracks_cons]
        exact ⟨hzero, fun _ _ h => by simp at h⟩
    | tail _ hstep ih => exact hstep.1.accounted hread ih hstep.2.1 hstep.2.2
  intro entry rest hcons
  rw [hcons]
  exact (tracks_cons.mp (hcons ▸ hall.tracks)).1

end Runs

/-! ## A block that burns and a block that mints -/

def burnSpend : CTransaction where
  nTime := 1500
  vin := [{ prevout := ⟨12, 0⟩ }]
  vout := [⟨30, [0x43]⟩, ⟨15, [0x6a]⟩]

def burnSpendBlock : DiskBlock where
  block := {
    nTime := 2000
    vtx := [sampleCoinBase 1, burnSpend] }
  nFile := 1
  nBlockPos := 100

def burnSpendRules : BlockRules :=
  sampleRules fun pos => if pos = ⟨1, 100, 181⟩ then some (sampleCoinBase 1)
    else if pos = ⟨1, 100, 281⟩ then some burnSpend else none

@[irreducible] def burnSpent : Option (Stores × ChainEntry) :=
  connectBlockState remintNet secondBlockVotes sampleBridgeParams burnSpendRules 10 mintContext
    mintStores [sampleGenesis] burnSpendBlock

theorem burnSpent_isSome : burnSpent.isSome = true := by decide +kernel

def burnSpentNode : Node where
  chain := [(burnSpent.get burnSpent_isSome).2, sampleGenesis]
  stores := (burnSpent.get burnSpent_isSome).1

theorem burnSpent_connected : connectBlockState remintNet secondBlockVotes sampleBridgeParams
    burnSpendRules 10 mintContext mintStores [sampleGenesis] burnSpendBlock =
      some ((burnSpent.get burnSpent_isSome).1, (burnSpent.get burnSpent_isSome).2) := by
  have hblock : burnSpent = connectBlockState remintNet secondBlockVotes sampleBridgeParams
      burnSpendRules 10 mintContext mintStores [sampleGenesis] burnSpendBlock := by
    unfold burnSpent
    rfl
  exact hblock.symm.trans (eq_some_get burnSpent_isSome)

theorem burnSpend_plain : PlainBlock remintNet [] burnSpendBlock.block.vtx := by
  refine ⟨by decide, by decide, fun tx htx hbase inp hinp out hcreated hreturn => ?_⟩
  have hall : ∀ tx ∈ burnSpendBlock.block.vtx, tx.isCoinBase = false → ∀ inp ∈ tx.vin,
      ∀ c ∈ createdOutputs remintNet burnSpendBlock.block.vtx, c.1 = inp.prevout →
        c.2.isBurn = true → c.2.nValue = 0 := by
    decide
  rw [List.append_nil] at hcreated
  exact hall tx htx hbase inp hinp _ hcreated rfl hreturn

theorem burnSpent_run : PlainRun remintNet secondBlockVotes sampleBridgeParams burnSpendRules 10
    sampleGenesis burnSpentNode := by
  obtain ⟨place, queue, s, -, hdisk, -⟩ := connectBlockState_supply burnSpent_connected
  refine ⟨rfl, ⟨[sampleGenesis], mintStores⟩, ⟨rfl, rfl⟩, Relation.ReflTransGen.single
    ⟨NodeStep.connect mintContext burnSpendBlock burnSpent_connected, ?_, ?_⟩⟩
  · intro entry hentry
    obtain ⟨rfl, -⟩ := List.cons.inj hentry
    rw [hdisk]
    refine ⟨by decide, fun tx _ hmem => (by cases hmem), ?_⟩
    decide
  · intro entry hentry
    obtain ⟨rfl, -⟩ := List.cons.inj hentry
    rw [hdisk]
    exact ⟨burnSpend_plain, by decide⟩

theorem burnSpent_tracks : ∃ entry rest, burnSpentNode.chain = entry :: rest ∧
    entry.nMoneySupply = unspentValue remintNet (connectedTxs burnSpentNode.chain) := by
  refine ⟨_, _, rfl, moneySupply_tracks (fun pos hnull => ?_) burnSpent_run _ _ rfl⟩
  simp only [burnSpendRules, sampleRules]
  have hfirst : pos ≠ ⟨1, 100, 181⟩ := by
    rintro rfl
    cases hnull
  have hsecond : pos ≠ ⟨1, 100, 281⟩ := by
    rintro rfl
    cases hnull
  rw [if_neg hfirst, if_neg hsecond]

theorem mintAndSpend_supply : mintAndSpend.map (fun r => r.2.nMoneySupply) = some (-99950) := by
  decide +kernel

/-- What a mint takes in leaves the supply and was never in it. -/
theorem minted_not_tracked :
    FreshRun remintNet secondBlockVotes sampleBridgeParams remintRules 10 sampleGenesis
      mintedNode ∧
    mintedNode.chain.head?.map (·.nMoneySupply) = some (-99950) ∧
    unspentValue remintNet (connectedTxs mintedNode.chain) = 200050 := by
  refine ⟨mintedNode_fresh, ?_, ?_⟩
  · have hsupply := mintAndSpend_supply
    rw [eq_some_get mintAndSpend_isSome] at hsupply
    exact hsupply
  · have htxs : connectedTxs mintedNode.chain = mintAndSpendBlock.block.vtx.reverse := by
      simp [connectedTxs, mintedNode, mintedNode_disk]
    rw [htxs]
    decide +kernel

end BitBay
