import BitBay.Bridge.RepeatedDraw
import BitBay.Chain.PoolRecords
import BitBay.Script.Checks

/-!
# Mints in the memory pool

`AcceptToMemoryPool` connects a transaction twice, with the flags of scripts that are relayed and
with those that are mandatory. The fractions of the inputs are passed by reference, and the
calculation of a mint hands the pool of the bridge back without what was drawn. So the second
call draws from less than the first one. A block draws once.
-/
namespace BitBay

open Run

section Model

variable (net : Params) (votes : VoteParams) (bp : BridgeParams) (rules : ScriptRules)
  (ctx : BlockContext) (best : ChainEntry) (below : List ChainEntry) (st : Stores)
  (tx : CTransaction) (nVirtBlockTime : ℕ)

def bestPlace : BlockPlace where
  nHeight := best.pindex.nHeight
  nPegSupplyIndex := best.pindex.nPegSupplyIndex
  nTime := best.disk.block.nTime
  positions := (best :: below).map fun e => (e.disk.nFile, e.disk.nBlockPos)

/-- The call that fetches the inputs of a transaction; the pool of a bridge is read from disk. -/
def acceptFetch : FetchCall where
  tx
  txdb := st.txdb
  pegdb := st.pegdb
  nBridgePoolNout := best.pindex.nHeight
  fBridgePoolMustInTestPool := false
  bridges := ctx.bridges
  fnMerkleIn := ctx.fnMerkleIn
  mapTestPool := fun _ => none
  mapTestFractionsPool := fun _ => none
  fBlock := false
  fMiner := false
  nBlockTime := nVirtBlockTime
  fSkipPruned := false
  pindexBest := (best :: below).map ChainEntry.pindex

def acceptConnect (maps : MapPrevTx × MapFractions) : ConnectCall where
  tx
  nTimeFetched := tx.fetchedTime nVirtBlockTime
  inputs := maps.1
  finputs := maps.2
  mapTestPool := fun _ => none
  mapTestFractionsPool := fun _ => none
  nBridgePoolNout := best.pindex.nHeight
  bridges := ctx.bridges
  fnMerkleIn := ctx.fnMerkleIn
  timelockpasses := ctx.timelockpasses
  feesFractions := {}
  posThisTx := .mempool
  pindexBlock := bestPlace best below
  fBlock := false
  fMiner := false
  fBelowCheckpoint := ctx.fBelowCheckpoint
  flags := STANDARD_SCRIPT_VERIFY_FLAGS

/-- The call with the mandatory flags. It has its own map for the outputs; the fractions of the
inputs and the fees are what the first call has left. -/
def acceptConnectAgain (maps : MapPrevTx × MapFractions) (standard : ConnectResult) : ConnectCall :=
  { acceptConnect ctx best below tx nVirtBlockTime maps with
    finputs := standard.finputs
    mapTestPool := standard.mapTestPool
    feesFractions := standard.feesFractions
    flags := MANDATORY_SCRIPT_VERIFY_FLAGS }

/-- What `AcceptToMemoryPool` does with the inputs that it has fetched, up to the checks of the
policy and of the fee. -/
def acceptInputs (maps : MapPrevTx × MapFractions) : Option (ConnectResult × ConnectResult) := do
  let standard ← connectInputs net votes bp rules
    (acceptConnect ctx best below tx nVirtBlockTime maps)
  let mandatory ← connectInputs net votes bp rules
    (acceptConnectAgain ctx best below tx nVirtBlockTime maps standard)
  return (standard, mandatory)

/-- Both calls succeed, and the second one calculates what the first one did: the same outputs,
and the same fee once more. -/
def EvaluatedOnce (result : Option (ConnectResult × ConnectResult)) : Prop :=
  ∃ standard mandatory, result = some (standard, mandatory) ∧
    mandatory.mapTestFractionsPool = standard.mapTestFractionsPool ∧
    mandatory.feesFractions.cols = standard.feesFractions.cols + standard.feesFractions.cols

/-- The leaf of a mint, in the steps of its bridge, and the pool of the bridge at a height. -/
def MintSource (nHeight : ℕ) (c : CCompressedFractions) (frBridgePool : CFractions) : Prop :=
  ∃ m bridge, mintBridge bp ctx tx = some (m, bridge) ∧
    CCompressedFractions.ofSections m.sections m.section_peg bridge.pegSteps bridge.microSteps =
      some c ∧
    st.pegdb (bridge.fkey nHeight) = some frBridgePool

/-- The hashes that the inputs of a mint name, zero and the leaf, are no hash of the mint or of
a bridge. -/
structure MintHashes : Prop where
  tx_ne : ∀ inp ∈ tx.vin, inp.prevout.hash ≠ net.getHash tx
  bridge_ne : ∀ inp ∈ tx.vin, ∀ brhash bridge, ctx.bridges brhash = some bridge →
    inp.prevout.hash ≠ setHex bridge.hash

end Model

/-! ## Made up inputs -/

def madeUpPrev (nTime : ℕ) (out : CTxOut) : PrevTx where
  txindex := { vSpent := [.null] }
  tx := { nTime, vin := [], vout := [out] }

theorem pushPrev_none {inputsRet : MapPrevTx} {hash : UInt256} {nTime : ℕ} {out : CTxOut}
    (h : inputsRet hash = none) :
    pushPrev inputsRet hash nTime out = Function.update inputsRet hash (some (madeUpPrev nTime out)) := by
  rw [pushPrev, h]
  rfl

theorem pushVch_ne_nil (vch : List UInt8) : pushVch vch ≠ [] := by
  unfold pushVch
  grind

theorem pushNotaryText_ne_nil (notary : CString) : pushNotaryText notary ≠ [] :=
  List.cons_ne_nil _ _

/-- A mint whose made up previous transactions are among the inputs. The leaf has a value. -/
structure MadeUpInputs (call : ConnectCall) (base leafIn : CTxIn) (out : CTxOut) (nValue : ℤ) :
    Prop where
  vin : call.tx.vin = [base, leafIn]
  vout : call.tx.vout = [out]
  mint : call.tx.isCoinMint = true
  ne : base.prevout.hash ≠ leafIn.prevout.hash
  base_prev : ∃ o : CTxOut, call.inputs base.prevout.hash = some (madeUpPrev 0 o) ∧ o.nValue = 0 ∧
    o.scriptPubKey ≠ []
  leaf_prev : ∃ nTime, ∃ o : CTxOut, call.inputs leafIn.prevout.hash = some (madeUpPrev nTime o) ∧
    o.nValue = nValue ∧ o.scriptPubKey ≠ []

section Connect

variable {net : Params} {votes : VoteParams} {bp : BridgeParams} {rules : ScriptRules}
  {call : ConnectCall} {base leafIn : CTxIn} {out : CTxOut} {nValue : ℤ}

theorem MadeUpInputs.prevout_n (h : MadeUpInputs call base leafIn out nValue) :
    base.prevout.n = 0 ∧ leafIn.prevout.n = 0 := by
  constructor <;>
    exact isCoinMint_prevout h.mint (by simp [h.vin])

theorem checkInput_madeUp {inp : CTxIn} {nTime : ℕ} {o : CTxOut} {nValueIn : ℤ}
    (hprev : call.inputs inp.prevout.hash = some (madeUpPrev nTime o)) (hn : inp.prevout.n = 0)
    (hscript : o.scriptPubKey ≠ []) :
    checkInput rules call nValueIn inp =
      if moneyRange o.nValue ∧ moneyRange (nValueIn + o.nValue) then some (nValueIn + o.nValue)
      else none := by
  simp [checkInput, hprev, hn, madeUpPrev, CTransaction.isCoinBase, CTransaction.isCoinStake,
    CTxOut.isEmpty, hscript]

/-- Of a mint only the value of the leaf is checked. -/
theorem MadeUpInputs.checkInputs_eq (h : MadeUpInputs call base leafIn out nValue) :
    checkInputs rules call = if moneyRange nValue then some nValue else none := by
  obtain ⟨hbase, hleaf⟩ := h.prevout_n
  obtain ⟨o, hprev, hzero, hscript⟩ := h.base_prev
  obtain ⟨nTime, o', hprev', rfl, hscript'⟩ := h.leaf_prev
  have hrange : moneyRange 0 = true := by decide
  rw [checkInputs, h.vin, List.foldlM_cons, checkInput_madeUp hprev hbase hscript, hzero]
  simp only [hrange, zero_add, and_self, if_true, Option.bind_eq_bind, Option.bind_some,
    List.foldlM_cons, checkInput_madeUp hprev' hleaf hscript', List.foldlM_nil]
  split_ifs <;> rfl

variable (rules) in
theorem spendInput_madeUp {s : SignState} {inp : CTxIn} {nTime : ℕ} {o : CTxOut} (i : ℕ)
    (hmint : call.tx.isCoinMint = true)
    (hprev : s.inputs inp.prevout.hash = some (madeUpPrev nTime o)) (hn : inp.prevout.n = 0) :
    ∃ s', spendInput rules call s (inp, i) = some s' ∧
      (∀ hash, hash ≠ inp.prevout.hash → s'.inputs hash = s.inputs hash) ∧
      (call.fBlock = false → call.fMiner = false → s'.mapTestPool = s.mapTestPool) := by
  have hnull : CDiskTxPos.null.isNull = true := by decide
  have hsign : signInput rules call (madeUpPrev nTime o) i = some (∅, false) := by
    rw [signInput, if_pos hmint]
  have hunspent : (madeUpPrev nTime o).txindex.vSpent[inp.prevout.n]?.any (·.isNull) = true := by
    simp [hn, madeUpPrev, hnull]
  simp only [spendInput, hprev, hunspent, hsign, Bool.true_eq_false, if_false]
  refine ⟨_, rfl, ?_, ?_⟩
  · intro hash hne
    exact Function.update_of_ne hne ..
  · intro hblock hminer
    simp [hblock, hminer]

variable (rules) in
/-- The made up outputs of a mint are unspent. -/
theorem MadeUpInputs.spendInputs_some (h : MadeUpInputs call base leafIn out nValue) :
    ∃ signed, spendInputs rules call = some signed ∧
      (call.fBlock = false → call.fMiner = false → signed.mapTestPool = call.mapTestPool) := by
  obtain ⟨hbase, hleaf⟩ := h.prevout_n
  obtain ⟨o, hprev, -, -⟩ := h.base_prev
  obtain ⟨nTime, o', hprev', -, -⟩ := h.leaf_prev
  have hfirst : (⟨call.inputs, call.mapTestPool, ∅⟩ : SignState).inputs base.prevout.hash =
      some (madeUpPrev 0 o) := hprev
  obtain ⟨mid, hmid, hkept, hpool⟩ := spendInput_madeUp rules 0 h.mint hfirst hbase
  have hleaf_prev : mid.inputs leafIn.prevout.hash = some (madeUpPrev nTime o') := by
    rw [hkept _ h.ne.symm]
    exact hprev'
  obtain ⟨signed, hsigned, -, hpool'⟩ := spendInput_madeUp rules 1 h.mint hleaf_prev hleaf
  refine ⟨signed, ?_, ?_⟩
  · rw [spendInputs, h.vin, List.zipIdx_cons, List.zipIdx_cons, List.zipIdx_nil, List.foldlM_cons,
      hmid, Option.bind_eq_bind, Option.bind_some, List.foldlM_cons, hsigned]
    rfl
  · intro hblock hminer
    rw [hpool' hblock hminer, hpool hblock hminer]

def ConnectCall.start (call : ConnectCall) : ConnectResult where
  finputs := call.finputs
  mapTestPool := call.mapTestPool
  mapTestFractionsPool := call.mapTestFractionsPool
  feesFractions := call.feesFractions

/-- Beside a block, connecting a mint whose values are fine is calculating its fractions. -/
theorem MadeUpInputs.connectInputs_eq (h : MadeUpInputs call base leafIn out nValue)
    (hblock : call.fBlock = false) (hminer : call.fMiner = false) (hrange : moneyRange nValue = true)
    (hfee : checkFee call nValue = true) :
    connectInputs net votes bp rules call = connectMint net votes bp call call.start := by
  obtain ⟨signed, hsigned, hpool⟩ := h.spendInputs_some rules
  have hstandard : ∀ passes r, connectStandard net votes call passes r = some r := by
    intro passes r
    simp [connectStandard, h.mint]
  have hsame : ∀ minted, connectMint net votes bp call call.start = some minted →
      { minted with mapTestPool := signed.mapTestPool } = minted := by
    intro minted hminted
    rw [hpool hblock hminer]
    have := connectMint_mapTestPool hminted
    cases minted
    simp_all [ConnectCall.start]
  simp only [connectInputs, isCoinMint_isCoinBase h.mint, Bool.false_eq_true, if_false,
    h.checkInputs_eq, hsigned, hstandard, Option.bind_eq_bind]
  rw [← ConnectCall.start]
  rw [if_pos hrange, Option.bind_some]
  cases hminted : connectMint net votes bp call call.start with
  | none => rfl
  | some minted =>
    rw [Option.bind_some, Option.bind_some, hsame minted hminted, Option.bind_some, if_pos hfee]

end Connect

/-! ## The calculation -/

section Calculate

variable {net : Params} {votes : VoteParams} {bp : BridgeParams} {call : ConnectCall}
  {base leafIn : CTxIn} {out : CTxOut} {nValue : ℤ} {m : MintSigScript} {bridge : CBridgeInfo}
  {frBridgePool frInpLeaf : CFractions} {r : ConnectResult}

structure MintEntries (bp : BridgeParams) (call : ConnectCall) (base leafIn : CTxIn) (nValue : ℤ)
    (m : MintSigScript) (bridge : CBridgeInfo) (frBridgePool : CFractions) : Prop where
  base : ∃ fr, call.finputs base.prevout.fkey = some fr ∧ fr.total = 0
  leaf : ∃ fr, call.finputs leafIn.prevout.fkey = some fr ∧ fr.total = nValue
  named : mintBridgeInfo bp call.mintCall leafIn.scriptSig = .ok (m, bridge)
  pool : call.finputs (bridge.fkey call.nBridgePoolNout) = some frBridgePool

theorem MadeUpInputs.mapPrevOut_eq (h : MadeUpInputs call base leafIn out nValue) :
    (∃ o, mapPrevOut call.tx call.inputs base.prevout.fkey = some o ∧ o.nValue = 0) ∧
      ∃ o, mapPrevOut call.tx call.inputs leafIn.prevout.fkey = some o ∧ o.nValue = nValue := by
  obtain ⟨hbase, hleaf⟩ := h.prevout_n
  obtain ⟨o, hprev, hzero, -⟩ := h.base_prev
  obtain ⟨nTime, o', hprev', hvalue, -⟩ := h.leaf_prev
  have hread : ∀ inp : CTxIn, inp ∈ call.tx.vin → inp.prevout.n = 0 → ∀ t o,
      call.inputs inp.prevout.hash = some (madeUpPrev t o) →
      mapPrevOut call.tx call.inputs inp.prevout.fkey = some o := by
    intro inp hinp hn t o hprev
    rw [mapPrevOut, if_pos ⟨isCoinMint_isCoinBase h.mint, List.mem_map_of_mem hinp⟩]
    simp [COutPoint.fkey, hprev, hn, madeUpPrev]
  exact ⟨⟨o, hread base (by simp [h.vin]) hbase 0 o hprev, hzero⟩,
    ⟨o', hread leafIn (by simp [h.vin]) hleaf nTime o' hprev', hvalue⟩⟩

theorem mintInput_eq {call : MintCall} {inp : CTxIn} {o : CTxOut} {fr : CFractions}
    (hprev : call.mapInputs inp.prevout.fkey = some o)
    (hfr : call.mapInputsFractions inp.prevout.fkey = some fr) (htotal : fr.total = o.nValue) :
    mintInput call inp = .ok (o.nValue, fr.toStd) := by
  simp [mintInput, hprev, hfr, htotal]

theorem mintInput_value {call : MintCall} {inp : CTxIn} {o : CTxOut} {p : ℤ × CFractions}
    (hprev : call.mapInputs inp.prevout.fkey = some o) (h : mintInput call inp = .ok p) :
    p.1 = o.nValue := by
  simp only [mintInput, hprev] at h
  split at h
  · cases h
  · split_ifs at h
    cases h
    rfl

theorem mintLeafInput_value {call : MintCall} {inp : CTxIn} {draw : MintDraw}
    (h : mintLeafInput bp call inp nValue = .ok draw) : draw.nValueIn = nValue := by
  unfold mintLeafInput at h
  split at h
  · cases h
  · dsimp only at h
    split at h
    · cases h
    · split at h
      · cases h
      · split_ifs at h
        cases h
        rfl

/-- The inputs of a mint bring the value of the leaf. -/
theorem MadeUpInputs.mintInputs_eq (h : MadeUpInputs call base leafIn out nValue)
    (he : MintEntries bp call base leafIn nValue m bridge frBridgePool) :
    mintInputs bp call.mintCall = mintLeafInput bp call.mintCall leafIn nValue := by
  obtain ⟨⟨o, ho, hzero⟩, o', ho', hvalue⟩ := h.mapPrevOut_eq
  obtain ⟨fr, hfr, htotal⟩ := he.base
  obtain ⟨fr', hfr', htotal'⟩ := he.leaf
  have hvin : call.mintCall.tx.vin = [base, leafIn] := h.vin
  have hvout : call.mintCall.tx.vout = [out] := h.vout
  have hfirst : mintInput call.mintCall base = .ok (o.nValue, fr.toStd) :=
    mintInput_eq ho hfr (htotal.trans hzero.symm)
  have hsecond : mintInput call.mintCall leafIn = .ok (o'.nValue, fr'.toStd) :=
    mintInput_eq ho' hfr' (htotal'.trans hvalue.symm)
  simp only [mintInputs, hvin, hvout, hfirst, hsecond, bind, Except.bind, hzero, hvalue, zero_add]

theorem MadeUpInputs.nValueIn_eq (h : MadeUpInputs call base leafIn out nValue) {draw : MintDraw}
    (hdraw : mintInputs bp call.mintCall = .ok draw) : draw.nValueIn = nValue := by
  obtain ⟨⟨o, ho, hzero⟩, o', ho', hvalue⟩ := h.mapPrevOut_eq
  have hvin : call.mintCall.tx.vin = [base, leafIn] := h.vin
  have hvout : call.mintCall.tx.vout = [out] := h.vout
  simp only [mintInputs, hvin, hvout] at hdraw
  obtain ⟨first, hfirst, hdraw⟩ := bind_eq_ok.mp hdraw
  obtain ⟨leaf, hleaf, hdraw⟩ := bind_eq_ok.mp hdraw
  rw [mintLeafInput_value hdraw, mintInput_value ho hfirst, mintInput_value ho' hleaf, hzero, hvalue,
    zero_add]

theorem mintOutput_fee {call : MintCall} {draw : MintDraw}
    (h : (mintOutput net call draw).sFailCause = none) :
    draw.nValueIn - call.outValue = MINT_TX_FEE := by
  unfold mintOutput mintPay at h
  split at h
  · cases h
  · rename_i hnone
    simp only [mintFailCause] at hnone
    split_ifs at hnone with _ _ hfee
    exact not_not.mp hfee

theorem MadeUpInputs.outValue_eq (h : MadeUpInputs call base leafIn out nValue) :
    call.mintCall.outValue = out.nValue := by
  change (call.tx.vout.headD default).nValue = out.nValue
  rw [h.vout]
  rfl

/-- A mint that is connected pays the fee of a mint. -/
theorem MadeUpInputs.fee_eq (h : MadeUpInputs call base leafIn out nValue)
    (hstart : votes.nPegStartHeight ≤ call.pindexBlock.nHeight)
    (hr : connectMint net votes bp call call.start = some r) : nValue = out.nValue + MINT_TX_FEE := by
  unfold connectMint at hr
  rw [if_pos ⟨h.mint, hstart⟩] at hr
  split at hr
  · cases hr
  · rename_i minted hminted
    split_ifs at hr with hcause
    have hok : minted.sFailCause = none := by simpa using hcause
    unfold calculateCoinMintFractions at hminted
    split at hminted
    · cases hminted
    · obtain rfl := Option.some.inj hminted
      cases hok
    · rename_i draw hdraw
      obtain rfl := Option.some.inj hminted
      have hfee := mintOutput_fee hok
      rw [h.nValueIn_eq hdraw, h.outValue_eq] at hfee
      omega

theorem ratioPart_congr {a b : CFractions} (h : a.cols = b.cols) {p : ℤ} (hp : p ≤ a.total) :
    a.ratioPart p = b.ratioPart p := by
  have htotal : a.total = b.total := by rw [CFractions.total_eq_sum, CFractions.total_eq_sum, h]
  have hparts : a.ratioParts p = b.ratioParts p := by
    unfold CFractions.ratioParts
    rw [h, htotal]
  have hadjusted : a.adjustedParts p = b.adjustedParts p := by
    unfold CFractions.adjustedParts
    rw [h, hparts]
  simp only [CFractions.ratioPart, if_neg (not_lt.mpr hp), if_neg (not_lt.mpr (htotal ▸ hp)), hparts,
    hadjusted]

theorem mintFailCause_eq_none {call : MintCall} {draw : MintDraw} {frOut fee : CFractions}
    (hout : frOut.isPositive = true) (hfee : fee.isPositive = true)
    (htotal : frOut.total = call.outValue) (hfees : fee.total = MINT_TX_FEE)
    (hvalue : draw.nValueIn = call.outValue + MINT_TX_FEE) :
    mintFailCause call draw frOut fee = none := by
  have hdiff : draw.nValueIn - call.outValue = MINT_TX_FEE := by omega
  simp only [mintFailCause]
  rw [if_neg (by simp [hfee]), hdiff, if_neg (not_not.mpr hfees.symm), if_neg (not_not.mpr rfl),
    if_neg (by simp [hout, htotal])]

variable (net) in
/-- A draw without negative columns is accepted if and only if it has the value of the leaf. -/
theorem mintOutput_eq (call : MintCall) (draw : MintDraw) (hdraw : draw.frInpLeaf.Nonneg)
    (hvalue : draw.nValueIn = call.outValue + MINT_TX_FEE) (hout : 0 ≤ call.outValue) :
    ((mintOutput net call draw).sFailCause = none → draw.frInpLeaf.total = draw.nValueIn) ∧
      (draw.frInpLeaf.total = draw.nValueIn → mintOutput net call draw =
        call.accepted net draw (draw.frInpLeaf.ratioPart call.outValue)
          (draw.frInpLeaf - draw.frInpLeaf.ratioPart call.outValue)) := by
  have hstd := CFractions.ratioPart_std draw.frInpLeaf call.outValue
  constructor
  · intro hok
    rcases @mintPay_cases net call draw _ hstd with ⟨sFailCause, hr⟩ | ⟨fee, hpaid, hr⟩
    · rw [mintOutput, hr] at hok
      cases hok
    · have hsum := congrArg (fun f : Columns => ∑ i, f i) hpaid.split
      simp only [Pi.add_apply, Finset.sum_add_distrib, ← CFractions.total_eq_sum] at hsum
      rw [hsum, hpaid.out_total, hpaid.fee_total, hvalue]
  · intro htotal
    have hfee : (0 : ℤ) < MINT_TX_FEE := by decide
    have hle : call.outValue ≤ draw.frInpLeaf.total := by omega
    have hpart := CFractions.ratioPart_total hdraw hout hle
    have hbounds := CFractions.ratioPart_bounds hdraw hout
    have hrest : (draw.frInpLeaf - draw.frInpLeaf.ratioPart call.outValue).Nonneg := by
      intro i
      have := (hbounds i).2
      simp only [CFractions.cols_sub, Pi.sub_apply]
      omega
    have hfees : (draw.frInpLeaf - draw.frInpLeaf.ratioPart call.outValue).total = MINT_TX_FEE := by
      rw [CFractions.total_sub]
      omega
    have hpositive := CFractions.Nonneg.isPositive fun i => (hbounds i).1
    have hnone := mintFailCause_eq_none hpositive hrest.isPositive hpart hfees hvalue
    unfold mintOutput mintPay
    rw [hnone]

def ConnectCall.minted (net : Params) (call : ConnectCall) (bridge_fkey : UInt320)
    (frBridgePool frInpLeaf : CFractions) : ConnectResult :=
  let frOut := frInpLeaf.ratioPart call.mintCall.outValue
  { call.start with
    finputs := Function.update
      (Function.update call.finputs (call.mintCall.outKey net) (some frOut))
      bridge_fkey (some (frBridgePool - frInpLeaf))
    mapTestFractionsPool :=
      Function.update call.mapTestFractionsPool (call.mintCall.outKey net) (some frOut)
    feesFractions := call.feesFractions + (frInpLeaf - frOut) }

/-- The calculation of a mint, by the draw from the pool that is among the inputs. -/
theorem MadeUpInputs.connectMint_eq (h : MadeUpInputs call base leafIn out nValue)
    (he : MintEntries bp call base leafIn nValue m bridge frBridgePool)
    (hdraw : bridge.decompress m frBridgePool = some frInpLeaf) (hnonneg : frInpLeaf.Nonneg)
    (hstart : votes.nPegStartHeight ≤ call.pindexBlock.nHeight)
    (hvalue : nValue = out.nValue + MINT_TX_FEE) (hout : 0 ≤ out.nValue) :
    connectMint net votes bp call call.start =
      if frInpLeaf.total = nValue then
        some (call.minted net (bridge.fkey call.nBridgePoolNout) frBridgePool frInpLeaf)
      else none := by
  have hpool : call.mintCall.mapInputsFractions (bridge.fkey call.mintCall.nBridgePoolNout) =
      some frBridgePool := he.pool
  have hinputs := h.mintInputs_eq he
  have hfee : (0 : ℤ) < MINT_TX_FEE := by decide
  rw [← h.outValue_eq] at hvalue hout
  simp only [mintLeafInput, he.named, hpool, hdraw] at hinputs
  unfold connectMint calculateCoinMintFractions
  rw [if_pos ⟨h.mint, hstart⟩]
  by_cases hzero : frInpLeaf.total = 0
  · have hne : frInpLeaf.total ≠ nValue := by omega
    rw [if_pos hzero] at hinputs
    rw [hinputs, if_neg hne]
    rfl
  · rw [if_neg hzero] at hinputs
    rw [hinputs]
    dsimp only
    have houtput := mintOutput_eq net call.mintCall
      ⟨nValue, bridge.fkey call.mintCall.nBridgePoolNout, frBridgePool, frInpLeaf⟩ hnonneg
      hvalue hout
    by_cases htotal : frInpLeaf.total = nValue
    · rw [houtput.2 htotal, if_pos htotal]
      rfl
    · rw [if_neg htotal, if_pos]
      rw [Option.isSome_iff_ne_none]
      exact fun hok => htotal (houtput.1 hok)

end Calculate

/-! ## Fetched mints -/

section Fetch

variable {net : Params} {votes : VoteParams} {bp : BridgeParams} {call : FetchCall}
  {maps : MapPrevTx × MapFractions} {base leafIn : CTxIn} {out : CTxOut} {req : MintRequest}
  {frBridgePool frDeduct : CFractions}

structure MintMaps (bp : BridgeParams) (call : FetchCall) (maps : MapPrevTx × MapFractions)
    (base leafIn : CTxIn) (out : CTxOut) (req : MintRequest) (frBridgePool frDeduct : CFractions) :
    Prop extends FetchedMint bp call maps.1 base leafIn out req frBridgePool frDeduct where
  made : ∃ baseOut leafOut : CTxOut, baseOut.nValue = 0 ∧ baseOut.scriptPubKey ≠ [] ∧
    leafOut.nValue = req.frLeafFromBridge.total ∧ leafOut.scriptPubKey ≠ [] ∧
    maps.1 = pushPrev (pushPrev (fun _ => none) base.prevout.hash 0 baseOut) (setHex req.m.leaf)
      req.merkle.ntime leafOut
  fractions : maps.2 = Function.update (Function.update (Function.update (fun _ => none)
    ⟨base.prevout.hash, 0⟩ (some {})) (req.bridge.fkey call.nBridgePoolNout) (some frBridgePool))
    ⟨setHex req.m.leaf, 0⟩ (some req.frLeafFromBridge)

theorem fetchMint_maps (h : fetchMint votes bp call (fun _ => none) (fun _ => none) = .ok maps) :
    ∃ base leafIn out req frBridgePool frDeduct,
      MintMaps bp call maps base leafIn out req frBridgePool frDeduct := by
  have hfetch := h
  unfold fetchMint at h
  split at h
  · rename_i base leafIn out hvin hvout
    obtain ⟨req, hreq, h⟩ := bind_eq_ok.mp h
    obtain ⟨-, -, h⟩ := bind_eq_ok.mp h
    obtain ⟨frBridgePool, hpool, h⟩ := bind_eq_ok.mp h
    split at h
    · cases h
    · rename_i frDeduct hdraw
      split_ifs at h with htotal
      push Not at htotal
      cases h
      refine ⟨base, leafIn, out, req, frBridgePool, frDeduct, ⟨hvin, hvout, hreq, hpool, hdraw,
        htotal.1, htotal.2, _, _, ?_, rfl⟩, ⟨_, _, ?_, ?_, ?_, ?_, rfl⟩, rfl⟩
      · rfl
      · rfl
      · exact pushVch_ne_nil (hashBytes leafIn.prevout.hash)
      · rfl
      · exact pushNotaryText_ne_nil ("**Z**".toList ++ req.bridge.hash ++ "0x".toList ++ req.m.from_addr)
  · cases h

theorem MintMaps.madeUp {connect : ConnectCall}
    (h : MintMaps bp call maps base leafIn out req frBridgePool frDeduct)
    (htx : connect.tx = call.tx) (hinputs : connect.inputs = maps.1)
    (hmint : call.tx.isCoinMint = true) (hne : base.prevout.hash ≠ leafIn.prevout.hash)
    (hleaf : leafIn.prevout.hash = setHex req.m.leaf) :
    MadeUpInputs connect base leafIn out req.frLeafFromBridge.total where
  vin := htx ▸ h.vin
  vout := htx ▸ h.vout
  mint := htx ▸ hmint
  ne := hne
  base_prev := by
    obtain ⟨baseOut, leafOut, hzero, hscript, -, -, hmade⟩ := h.made
    refine ⟨baseOut, ?_, hzero, hscript⟩
    rw [hinputs, hmade, pushPrev, Function.update_of_ne (hleaf ▸ hne), pushPrev_none rfl,
      Function.update_self]
  leaf_prev := by
    obtain ⟨baseOut, leafOut, -, -, hvalue, hscript, hmade⟩ := h.made
    refine ⟨req.merkle.ntime, leafOut, ?_, hvalue, hscript⟩
    have hnone : pushPrev (fun _ => none) base.prevout.hash 0 baseOut (setHex req.m.leaf) = none := by
      rw [pushPrev_none rfl, Function.update_of_ne (hleaf ▸ hne.symm)]
    rw [hinputs, hmade, hleaf, pushPrev_none hnone, Function.update_self]

/-- The script of the leaf names the bridge to the calculation as it did to the fetch. -/
theorem mintBridgeInfo_of_request {mint : MintCall}
    (h : readMintRequest bp call leafIn out = .ok req) (hmerkle : mint.fnMerkleIn = call.fnMerkleIn)
    (hbridges : mint.bridges = call.bridges) :
    mintBridgeInfo bp mint leafIn.scriptSig = .ok (req.m, req.bridge) := by
  obtain ⟨hm, merkle_root, hroot, hfound, hbridge⟩ := readMintRequest_ok h
  simp only [mintBridgeInfo, hm, hroot, hmerkle, hfound, hbridges, hbridge]

end Fetch

/-! ## Mints that a block connects -/

section Block

variable {net : Params} {votes : VoteParams} {bp : BridgeParams} {rules : BlockRules}
  {nBridgeInterval : ℕ} {ctx : BlockContext} {st st' : Stores} {place : BlockPlace}
  {disk : DiskBlock} {s s' : BlockState} {tx : CTransaction} {i : ℕ}

/-- What connecting a mint has checked: its leaf, the value of it and the fee. -/
structure ConnectableMint (votes : VoteParams) (bp : BridgeParams) (ctx : BlockContext)
    (nHeight : ℕ) (tx : CTransaction) (base leafIn : CTxIn) (out : CTxOut) (req : MintRequest) :
    Prop where
  vin : tx.vin = [base, leafIn]
  vout : tx.vout = [out]
  ne : base.prevout.hash ≠ leafIn.prevout.hash
  leaf : leafIn.prevout.hash = setHex req.m.leaf
  request : ∀ call : FetchCall, call.tx = tx → call.bridges = ctx.bridges →
    call.fnMerkleIn = ctx.fnMerkleIn → readMintRequest bp call leafIn out = .ok req
  range : moneyRange req.frLeafFromBridge.total = true
  nonneg : 0 ≤ out.nValue
  checkedFee : ∀ call : ConnectCall, call.tx = tx → checkFee call req.frLeafFromBridge.total = true
  fee : votes.nPegStartHeight ≤ nHeight → req.frLeafFromBridge.total = out.nValue + MINT_TX_FEE

theorem readMintRequest_congr {call call' : FetchCall} {leafIn : CTxIn} {out : CTxOut}
    (htx : call.tx = call'.tx) (hbridges : call.bridges = call'.bridges)
    (hmerkle : call.fnMerkleIn = call'.fnMerkleIn) :
    readMintRequest bp call leafIn out = readMintRequest bp call' leafIn out := by
  unfold readMintRequest
  rw [htx, hbridges, hmerkle]

theorem getValueOut_singleton {out : CTxOut} {v : ℤ} (hvout : tx.vout = [out])
    (h : tx.getValueOut = some v) : 0 ≤ out.nValue := by
  rw [CTransaction.getValueOut, hvout, List.foldlM_cons] at h
  obtain ⟨mid, hmid, -⟩ := Option.bind_eq_some_iff.mp h
  split_ifs at hmid with hrange
  have hrange := hrange.1
  simp only [moneyRange, decide_eq_true_eq] at hrange
  exact hrange.1

theorem connectTx_connectable (hmint : tx.isCoinMint = true)
    (hnodup : (tx.vin.map (·.prevout)).Nodup)
    (h : connectTx net votes bp rules ctx st place disk s (tx, i) = some s') :
    ∃ base leafIn out req, ConnectableMint votes bp ctx place.nHeight tx base leafIn out req := by
  have hbase := isCoinMint_isCoinBase hmint
  obtain ⟨_, _, _, _, req', _, _, hfetched, hleaf, -⟩ := connectTx_mint hmint hnodup h
  obtain ⟨-, s₁, s₂, rfl, -, ⟨hcoin, -⟩ | ⟨-, hinputs⟩⟩ := connectTx_ok h
  · rw [hbase] at hcoin
    cases hcoin
  obtain ⟨maps, s₃, r, hmaps, -, -, -, -, -, -, hr, -⟩ := connectTxInputs_ok hinputs
  have hfetch : fetchMint votes bp (blockFetch ctx st disk
      { s with nSigOps := s.nSigOps + rules.legacySigOps tx } tx place.nHeight) (fun _ => none)
      (fun _ => none) = .ok maps := by
    simpa [fetchInputs, blockFetch, hbase, hmint] using hmaps
  obtain ⟨base, leafIn, out, req, frBridgePool, frDeduct, hmint_maps⟩ := fetchMint_maps hfetch
  have hvin : tx.vin = [base, leafIn] := hmint_maps.vin
  have hvout : tx.vout = [out] := hmint_maps.vout
  have hrequest : ∀ call : FetchCall, call.tx = tx → call.bridges = ctx.bridges →
      call.fnMerkleIn = ctx.fnMerkleIn → readMintRequest bp call leafIn out = .ok req := by
    intro call htx hbridges hmerkle
    exact (readMintRequest_congr htx hbridges hmerkle).trans hmint_maps.request
  -- Both fetches have read the same inputs and the same script.
  have hsame : leafIn.prevout.hash = setHex req.m.leaf := by
    obtain ⟨rfl, hrest⟩ := List.cons.inj (hfetched.vin.symm.trans hvin)
    obtain ⟨rfl, -⟩ := List.cons.inj hrest
    obtain ⟨rfl, -⟩ := List.cons.inj (hfetched.vout.symm.trans hvout)
    have hread := hrequest (blockFetch ctx st disk s tx place.nHeight) rfl rfl rfl
    obtain rfl := Except.ok.inj (hread.symm.trans hfetched.request)
    exact hleaf
  have hne : base.prevout.hash ≠ leafIn.prevout.hash := by
    intro heq
    have hprevout : base.prevout = leafIn.prevout := by
      have hn : base.prevout.n = leafIn.prevout.n := by
        rw [isCoinMint_prevout hmint (by simp [hvin] : base ∈ tx.vin),
          isCoinMint_prevout hmint (by simp [hvin] : leafIn ∈ tx.vin)]
      cases hb : base.prevout
      cases hl : leafIn.prevout
      simp_all
    rw [hvin] at hnodup
    simp [hprevout] at hnodup
  have hmade : MadeUpInputs (blockConnect rules ctx place disk s₃ tx maps) base leafIn out
      req.frLeafFromBridge.total := hmint_maps.madeUp rfl rfl hmint hne hsame
  obtain ⟨nValueIn, minted, signed, hcheck, hminted, -, -, hfee⟩ := connectInputs_ok hbase hr
  rw [hmade.checkInputs_eq] at hcheck
  split_ifs at hcheck with hrange
  obtain rfl := Option.some.inj hcheck
  have hstake : tx.isCoinStake = false := by
    simp [CTransaction.isCoinStake, hvout]
  have hvalue : tx.getValueOut.any fun nValueOut => nValueOut ≤ req.frLeafFromBridge.total ∧
      moneyRange (req.frLeafFromBridge.total - nValueOut) := by
    simpa [checkFee, blockConnect, hstake] using hfee
  obtain ⟨nValueOut, hvalueOut, -⟩ := (Option.any_eq_true _ _).mp hvalue
  refine ⟨base, leafIn, out, req, hvin, hvout, hne, hsame, hrequest, hrange,
    getValueOut_singleton hvout hvalueOut, ?_, fun hstart => hmade.fee_eq hstart hminted⟩
  intro call htx
  rw [checkFee, htx]
  simpa [hstake] using hvalue

end Block

/-! ## Steps of a requested leaf -/

section Steps

variable {bp : BridgeParams} {call : FetchCall} {leafIn : CTxIn} {out : CTxOut} {req : MintRequest}
  {m : MintSigScript} {bridge : CBridgeInfo} {c : CCompressedFractions}

theorem readMintRequest_requested (h : readMintRequest bp call leafIn out = .ok req) :
    ∃ c, CCompressedFractions.ofSections req.m.sections req.m.section_peg req.bridge.pegSteps
      req.bridge.microSteps = some c ∧ c.requested = some req.frLeafFromBridge := by
  unfold readMintRequest at h
  split at h
  · cases h
  split_ifs at h
  split at h
  · cases h
  split at h
  · cases h
  split at h
  · cases h
  split_ifs at h
  split at h
  · cases h
  rename_i c hc
  split at h
  · cases h
  rename_i frLeafFromBridge hrequested
  obtain rfl := Except.ok.inj h
  exact ⟨c, hc, hrequested⟩

/-- The steps of a leaf that was requested have values, and none is negative. -/
theorem steps_of_requested {scriptSig : CScript} (hc : CCompressedFractions.ofSections m.sections
      m.section_peg bridge.pegSteps bridge.microSteps = some c) (hrequested : c.requested.isSome)
    (hm : decodeAndValidateMintSigScript bp scriptSig = some m) :
    c.Counted ∧ c.NonnegValues := by
  obtain ⟨hpeg, hmicro, -⟩ := (requested_isSome_iff c).mp hrequested
  obtain ⟨hle, hvalue⟩ := ofSections_eq_some.mp hc
  have hnonneg := sections_nonneg hm
  refine ⟨⟨hpeg, hmicro, ?_, ?_⟩, ⟨fun v hv => hnonneg v ?_, fun v hv => hnonneg v ?_⟩⟩
  · rw [hvalue] at hle ⊢
    dsimp only at hle ⊢
    grind
  · rw [hvalue] at hle ⊢
    dsimp only at hle ⊢
    grind
  · rw [hvalue] at hv
    exact List.mem_of_mem_take hv
  · rw [hvalue] at hv
    exact List.mem_of_mem_drop (List.mem_of_mem_take hv)

theorem CCompressedFractions.NonnegValues.positive (h : c.NonnegValues) : c.Positive :=
  ⟨fun i _ _ => getD_nonneg h.fps i, fun j _ => getD_nonneg h.fms j⟩

end Steps

/-! ## Admission -/

section Admission

variable {net : Params} {votes : VoteParams} {bp : BridgeParams} {rules : BlockRules}
  {nBridgeInterval : ℕ} {ctx : BlockContext} {st st' : Stores} {disk : DiskBlock}
  {best entry : ChainEntry} {below : List ChainEntry} {tx : CTransaction} {nVirtBlockTime : ℕ}
  {maps : MapPrevTx × MapFractions} {base leafIn : CTxIn} {out : CTxOut} {req : MintRequest}
  {frBridgePool frDeduct again : CFractions}

/-- No step of a node stores negative columns. -/
theorem NodeStep.pegdb_nonneg {node node' : Node}
    (h : NodeStep net votes bp rules nBridgeInterval node node') (hst : node.stores.pegdb.Nonneg) :
    node'.stores.pegdb.Nonneg := by
  cases h with
  | connect ctx disk h =>
    obtain ⟨place, queue, s, done, hsteps⟩ := connectBlockState_ok h
    exact hsteps.pegdb_nonneg hst
  | disconnect _ h =>
    refine foldlM_some_invariant (P := fun st : Stores => st.pegdb.Nonneg) ?_ hst h
    intro tx _ mid next hmid hstep
    obtain ⟨index, -, rfl⟩ := disconnectTx_ok hstep
    intro fkey fr hfr
    dsimp only at hfr
    split_ifs at hfr
    exact hmid fkey fr hfr

theorem NodeStep.run_pegdb_nonneg {node node' : Node}
    (h : Relation.ReflTransGen (NodeStep net votes bp rules nBridgeInterval) node node')
    (hst : node.stores.pegdb.Nonneg) : node'.stores.pegdb.Nonneg := by
  induction h with
  | refl => exact hst
  | tail _ hstep ih => exact hstep.pegdb_nonneg ih

structure AdmittedMint (net : Params) (votes : VoteParams) (bp : BridgeParams) (ctx : BlockContext)
    (best : ChainEntry) (below : List ChainEntry) (st : Stores) (tx : CTransaction)
    (nVirtBlockTime : ℕ)
    (maps : MapPrevTx × MapFractions) (base leafIn : CTxIn) (out : CTxOut) (req : MintRequest)
    (frBridgePool frDeduct : CFractions) : Prop where
  mint : tx.isCoinMint = true
  hashes : MintHashes net ctx tx
  fetched : MintMaps bp (acceptFetch ctx best below st tx nVirtBlockTime) maps base leafIn out req
    frBridgePool frDeduct
  connectable : ConnectableMint votes bp ctx (best.pindex.nHeight + 1) tx base leafIn out req

section Mint

variable (h : AdmittedMint net votes bp ctx best below st tx nVirtBlockTime maps base leafIn out req
  frBridgePool frDeduct)

include h

theorem AdmittedMint.bridge_mem : ctx.bridges req.merkle.brhash = some req.bridge := by
  obtain ⟨-, merkle_root, -, -, hbridge⟩ := readMintRequest_ok h.fetched.request
  exact hbridge

/-- The keys that the calculation reads do not meet. -/
theorem AdmittedMint.keys : (∀ inp ∈ tx.vin, inp.prevout.fkey ≠ ⟨net.getHash tx, 0⟩) ∧
    (∀ inp ∈ tx.vin, ∀ n, inp.prevout.fkey ≠ req.bridge.fkey n) ∧
    base.prevout.fkey ≠ leafIn.prevout.fkey := by
  refine ⟨fun inp hinp hsame => ?_, fun inp hinp n hsame => ?_, fun hsame => ?_⟩
  · exact h.hashes.tx_ne inp hinp (congrArg UInt320.hash hsame)
  · exact h.hashes.bridge_ne inp hinp _ _ h.bridge_mem (congrArg UInt320.hash hsame)
  · exact h.connectable.ne (congrArg UInt320.hash hsame)

theorem AdmittedMint.mem_vin : base ∈ tx.vin ∧ leafIn ∈ tx.vin := by
  simp [h.connectable.vin]

theorem AdmittedMint.madeUp {call : ConnectCall} (htx : call.tx = tx) (hinputs : call.inputs = maps.1) :
    MadeUpInputs call base leafIn out req.frLeafFromBridge.total :=
  h.fetched.madeUp htx hinputs h.mint h.connectable.ne h.connectable.leaf

/-- The entries of the first call are those that were fetched. -/
theorem AdmittedMint.entries : MintEntries bp (acceptConnect ctx best below tx nVirtBlockTime maps)
    base leafIn req.frLeafFromBridge.total req.m req.bridge frBridgePool := by
  obtain ⟨hbase, hleaf⟩ := h.mem_vin
  obtain ⟨-, hpool, hne⟩ := h.keys
  have hbase_key : base.prevout.fkey = ⟨base.prevout.hash, 0⟩ := by
    rw [COutPoint.fkey, isCoinMint_prevout h.mint hbase]
  have hleaf_key : leafIn.prevout.fkey = ⟨setHex req.m.leaf, 0⟩ := by
    rw [COutPoint.fkey, isCoinMint_prevout h.mint hleaf, h.connectable.leaf]
  have hfractions : (acceptConnect ctx best below tx nVirtBlockTime maps).finputs = _ :=
    h.fetched.fractions
  rw [← hbase_key, ← hleaf_key] at hfractions
  refine ⟨⟨{}, ?_, ?_⟩, ⟨_, ?_, rfl⟩, mintBridgeInfo_of_request h.fetched.request rfl rfl, ?_⟩
  · rw [hfractions, Function.update_of_ne hne, Function.update_of_ne (hpool _ hbase _),
      Function.update_self]
  · change (default : CFractions).total = 0
    simp [CFractions.total_eq_sum]
  · rw [hfractions, Function.update_self]
  · rw [hfractions]
    change Function.update _ _ _ (req.bridge.fkey best.pindex.nHeight) = _
    rw [Function.update_of_ne (hpool _ hleaf _).symm]
    exact Function.update_self ..

/-- The second call finds the pool as the first one has handed it back. -/
theorem AdmittedMint.entries_again : MintEntries bp
    (acceptConnectAgain ctx best below tx nVirtBlockTime maps
      ((acceptConnect ctx best below tx nVirtBlockTime maps).minted net
        (req.bridge.fkey best.pindex.nHeight) frBridgePool frDeduct))
    base leafIn req.frLeafFromBridge.total req.m req.bridge (frBridgePool - frDeduct) := by
  obtain ⟨hbase, hleaf⟩ := h.mem_vin
  obtain ⟨hout, hpool, -⟩ := h.keys
  have hentries : MintEntries bp (acceptConnect ctx best below tx nVirtBlockTime maps)
    base leafIn req.frLeafFromBridge.total req.m req.bridge frBridgePool := h.entries
  obtain ⟨⟨fr, hfr, hzero⟩, ⟨fr', hfr', htotal⟩, -, -⟩ := hentries
  have hkept : ∀ inp ∈ tx.vin, ((acceptConnect ctx best below tx nVirtBlockTime maps).minted net
      (req.bridge.fkey best.pindex.nHeight) frBridgePool frDeduct).finputs inp.prevout.fkey =
      maps.2 inp.prevout.fkey := by
    intro inp hinp
    refine (Function.update_of_ne (hpool inp hinp _) ..).trans ?_
    exact Function.update_of_ne (hout inp hinp) ..
  refine ⟨⟨fr, ?_, hzero⟩, ⟨fr', ?_, htotal⟩, mintBridgeInfo_of_request h.fetched.request rfl rfl, ?_⟩
  · exact (hkept base hbase).trans hfr
  · exact (hkept leafIn hleaf).trans hfr'
  · exact Function.update_self ..

variable (rules below) in
/-- The two calls from the start of the peg on: the second one draws from what the first one
has left. -/
theorem AdmittedMint.acceptInputs_eq (hstart : votes.nPegStartHeight ≤ best.pindex.nHeight)
    (hnonneg : frDeduct.Nonneg)
    (hagain : req.bridge.decompress req.m (frBridgePool - frDeduct) = some again)
    (hagain_nonneg : again.Nonneg) :
    ∃ standard mandatory : ConnectResult,
      acceptInputs net votes bp rules.toScriptRules ctx best below tx nVirtBlockTime maps =
        (if again.total = frDeduct.total then some (standard, mandatory) else none) ∧
      standard.mapTestFractionsPool = Function.update (fun _ => none) ⟨net.getHash tx, 0⟩
        (some (frDeduct.ratioPart out.nValue)) ∧
      mandatory.mapTestFractionsPool = Function.update (fun _ => none) ⟨net.getHash tx, 0⟩
        (some (again.ratioPart out.nValue)) ∧
      standard.feesFractions.cols = (frDeduct - frDeduct.ratioPart out.nValue).cols ∧
      mandatory.feesFractions.cols =
        standard.feesFractions.cols + (again - again.ratioPart out.nValue).cols := by
  let first := acceptConnect ctx best below tx nVirtBlockTime maps
  let standard := first.minted net (req.bridge.fkey best.pindex.nHeight) frBridgePool frDeduct
  let second := acceptConnectAgain ctx best below tx nVirtBlockTime maps standard
  let mandatory := second.minted net (req.bridge.fkey best.pindex.nHeight) (frBridgePool - frDeduct)
    again
  have hmade : MadeUpInputs first base leafIn out req.frLeafFromBridge.total := h.madeUp rfl rfl
  have hmade' : MadeUpInputs second base leafIn out req.frLeafFromBridge.total := h.madeUp rfl rfl
  have hfee := h.connectable.fee (hstart.trans (Nat.le_succ _))
  have htotal : frDeduct.total = req.frLeafFromBridge.total := h.fetched.total_eq
  have hfirst : connectInputs net votes bp rules.toScriptRules first = some standard := by
    rw [hmade.connectInputs_eq rfl rfl h.connectable.range (h.connectable.checkedFee _ rfl),
      hmade.connectMint_eq h.entries h.fetched.draw hnonneg hstart hfee h.connectable.nonneg,
      if_pos htotal]
    rfl
  have hsecond : connectInputs net votes bp rules.toScriptRules second =
      if again.total = frDeduct.total then some mandatory else none := by
    rw [hmade'.connectInputs_eq rfl rfl h.connectable.range (h.connectable.checkedFee _ rfl),
      hmade'.connectMint_eq h.entries_again hagain hagain_nonneg hstart hfee h.connectable.nonneg,
      htotal]
    rfl
  have hvalue : first.mintCall.outValue = out.nValue := hmade.outValue_eq
  have hvalue' : second.mintCall.outValue = out.nValue := hmade'.outValue_eq
  refine ⟨standard, mandatory, ?_, ?_, ?_, ?_, ?_⟩
  · unfold acceptInputs
    rw [hfirst, Option.bind_eq_bind, Option.bind_some, hsecond]
    split_ifs <;> rfl
  · rw [← hvalue]
    rfl
  · rw [← hvalue']
    rfl
  · rw [← hvalue]
    change ((default : CFractions) + _).cols = _
    rw [CFractions.cols_add, CFractions.cols_default, zero_add]
  · rw [← hvalue']
    exact CFractions.cols_add _ _

/-- Below the start of the peg nothing is calculated. -/
theorem AdmittedMint.acceptInputs_below (hstart : best.pindex.nHeight < votes.nPegStartHeight) :
    EvaluatedOnce
      (acceptInputs net votes bp rules.toScriptRules ctx best below tx nVirtBlockTime maps) := by
  let first := acceptConnect ctx best below tx nVirtBlockTime maps
  let second := acceptConnectAgain ctx best below tx nVirtBlockTime maps first.start
  have hmade : MadeUpInputs first base leafIn out req.frLeafFromBridge.total := h.madeUp rfl rfl
  have hmade' : MadeUpInputs second base leafIn out req.frLeafFromBridge.total := h.madeUp rfl rfl
  have hnone : ∀ call : ConnectCall, call.pindexBlock = bestPlace best below →
      connectMint net votes bp call call.start = some call.start := by
    intro call hplace
    rw [connectMint, if_neg]
    rw [hplace]
    exact fun hboth => absurd hboth.2 (not_le.mpr hstart)
  have hfirst : connectInputs net votes bp rules.toScriptRules first = some first.start := by
    rw [hmade.connectInputs_eq rfl rfl h.connectable.range (h.connectable.checkedFee _ rfl),
      hnone _ rfl]
  have hsecond : connectInputs net votes bp rules.toScriptRules second = some second.start := by
    rw [hmade'.connectInputs_eq rfl rfl h.connectable.range (h.connectable.checkedFee _ rfl),
      hnone _ rfl]
  refine ⟨first.start, second.start, ?_, rfl, ?_⟩
  · unfold acceptInputs
    rw [hfirst, Option.bind_eq_bind, Option.bind_some, hsecond]
    rfl
  · change (default : CFractions).cols = (default : CFractions).cols + (default : CFractions).cols
    simp

/-- The leaf and the pool of the mint are the ones that the fetch has drawn from. -/
theorem AdmittedMint.source : st.pegdb (req.bridge.fkey best.pindex.nHeight) = some frBridgePool ∧
    ∃ c, c.Counted ∧ c.NonnegValues ∧ c.Countable ∧
      (∀ pool, req.bridge.decompress req.m pool = c.decompress pool) ∧
      ∀ c' pool, MintSource bp ctx st tx best.pindex.nHeight c' pool ↔ c' = c ∧ pool = frBridgePool := by
  obtain ⟨hm, merkle_root, hroot, hmerkle, hbridge⟩ := readMintRequest_ok h.fetched.request
  obtain ⟨c, hc, hrequested⟩ := readMintRequest_requested h.fetched.request
  obtain ⟨hcounted, hvalues⟩ := steps_of_requested hc (hrequested ▸ rfl) hm
  have hcount : c.Countable := by
    have hrange := h.connectable.range
    simp only [moneyRange, decide_eq_true_eq] at hrange
    exact CCompressedFractions.countable_of_requested hcounted hvalues hrequested
      (hrange.2.trans_lt (by decide))
  have hpool : st.pegdb (req.bridge.fkey best.pindex.nHeight) = some frBridgePool := by
    rcases readBridgePool_ok h.fetched.pool with htest | ⟨-, -, hdisk⟩
    · cases htest
    · exact hdisk
  have hnamed : mintBridge bp ctx tx = some (req.m, req.bridge) := by
    have hmerkle : ctx.fnMerkleIn merkle_root = some req.merkle := hmerkle
    have hbridge : ctx.bridges req.merkle.brhash = some req.bridge := hbridge
    simp only [mintBridge, h.connectable.vin, hm, hroot, hmerkle, hbridge, Option.bind_eq_bind,
      Option.bind_some, pure]
  refine ⟨hpool, c, hcounted, hvalues, hcount, fun pool => by rw [CBridgeInfo.decompress, hc],
    fun c' pool => ?_⟩
  constructor
  · rintro ⟨m, bridge, hsame, hc', hpool'⟩
    obtain ⟨rfl, rfl⟩ := Prod.mk.inj (Option.some.inj (hnamed.symm.trans hsame))
    exact ⟨Option.some.inj (hc'.symm.trans hc), Option.some.inj (hpool'.symm.trans hpool)⟩
  · rintro ⟨rfl, rfl⟩
    exact ⟨req.m, req.bridge, hnamed, hc, hpool⟩

theorem AdmittedMint.admission_iff (hst : st.pegdb.Nonneg) :
    ((acceptInputs net votes bp rules.toScriptRules ctx best below tx nVirtBlockTime maps).isSome ↔
      best.pindex.nHeight < votes.nPegStartHeight ∨
        ∃ c pool, MintSource bp ctx st tx best.pindex.nHeight c pool ∧
          ∀ i < c.nPegSteps, 2 * c.stepValue i ≤ c.pegSum pool.cols i) ∧
    (EvaluatedOnce
        (acceptInputs net votes bp rules.toScriptRules ctx best below tx nVirtBlockTime maps) ↔
      best.pindex.nHeight < votes.nPegStartHeight ∨
        ∃ c pool, MintSource bp ctx st tx best.pindex.nHeight c pool ∧ c.DrawsTwice pool) := by
  rcases lt_or_ge best.pindex.nHeight votes.nPegStartHeight with hbelow | hstart
  · have honce : EvaluatedOnce (acceptInputs net votes bp rules.toScriptRules ctx best below tx
        nVirtBlockTime maps) := h.acceptInputs_below hbelow
    have hsome := honce
    obtain ⟨standard, mandatory, hboth, -⟩ := hsome
    exact ⟨iff_of_true (by rw [hboth]; rfl) (Or.inl hbelow), iff_of_true honce (Or.inl hbelow)⟩
  obtain ⟨hpool, c, hcounted, hvalues, hcount, hdecompress, hsource⟩ := h.source
  have hnonneg : frBridgePool.Nonneg := hst _ _ hpool
  have hdraw : c.decompress frBridgePool = some frDeduct := by
    rw [← hdecompress]
    exact h.fetched.draw
  have hleft := CCompressedFractions.sub_nonneg_of_decompress hnonneg hdraw
  obtain ⟨fr, hfr, hdeduct⟩ := CCompressedFractions.decompress_nonneg hvalues hnonneg
    hcounted.nPegSteps hcounted.nMicroSteps
  obtain rfl := Option.some.inj (hdraw.symm.trans hfr)
  obtain ⟨again, hagain, hagain_nonneg⟩ := CCompressedFractions.decompress_nonneg hvalues hleft
    hcounted.nPegSteps hcounted.nMicroSteps
  have htotal := CCompressedFractions.total_again_iff hcounted hvalues.positive hcount hnonneg
    hdraw h.fetched.total_ne hagain
  have hcols := CCompressedFractions.drawsTwice_iff hcounted hvalues.positive hcount hnonneg hdraw
    h.fetched.total_ne hagain
  obtain ⟨standard, mandatory, haccept, hout, hout', hfees, hfees'⟩ := h.acceptInputs_eq
    rules below hstart hdeduct ((hdecompress _).trans hagain) hagain_nonneg
  have hsource_iff : ∀ P : CCompressedFractions → CFractions → Prop,
      (∃ c' pool, MintSource bp ctx st tx best.pindex.nHeight c' pool ∧ P c' pool) ↔
        P c frBridgePool := by
    intro P
    constructor
    · rintro ⟨c', pool, hnamed, hP⟩
      obtain ⟨rfl, rfl⟩ := (hsource c' pool).mp hnamed
      exact hP
    · exact fun hP => ⟨c, frBridgePool, (hsource _ _).mpr ⟨rfl, rfl⟩, hP⟩
  rw [or_iff_right (not_lt.mpr hstart), or_iff_right (not_lt.mpr hstart), hsource_iff, hsource_iff,
    haccept, ← htotal]
  constructor
  · split_ifs with hsame
    · simp [hsame]
    · simp [hsame]
  constructor
  · rintro ⟨standard', mandatory', hboth, hpools, hfees''⟩
    split_ifs at hboth with hsame
    obtain ⟨rfl, rfl⟩ := Prod.mk.inj (Option.some.inj hboth)
    refine hcols.mp ?_
    have hpart : again.ratioPart out.nValue = frDeduct.ratioPart out.nValue := by
      have hentry := congrFun hpools ⟨net.getHash tx, 0⟩
      rw [hout, hout', Function.update_self, Function.update_self] at hentry
      exact Option.some.inj hentry
    rw [hfees'', add_right_inj, hfees, hpart, CFractions.cols_sub, CFractions.cols_sub,
      sub_left_inj] at hfees'
    exact hfees'.symm
  · intro htwice
    have hsame := htotal.mpr htwice.covers
    have hcols := hcols.mpr htwice
    have hfee := h.connectable.fee (hstart.trans (Nat.le_succ _))
    have hvalue : frDeduct.total = req.frLeafFromBridge.total := h.fetched.total_eq
    have hpositive : (0 : ℤ) < MINT_TX_FEE := by decide
    have hpart : again.ratioPart out.nValue = frDeduct.ratioPart out.nValue :=
      ratioPart_congr hcols (by omega)
    refine ⟨standard, mandatory, if_pos hsame, ?_, ?_⟩
    · rw [hout, hout', hpart]
    · rw [hfees', hfees, hpart, CFractions.cols_sub, CFractions.cols_sub, hcols]

end Mint

end Admission

/-! ## A mint against two pools -/

def shortEntry (nHeight : ℕ) : ChainEntry :=
  { sampleGenesis with
    disk := { sampleGenesis.disk with nBlockPos := 8 + 100 * nHeight }
    pindex := { sampleGenesis.pindex with nHeight } }

/-- Four blocks above genesis: the peg starts with the last one, which can predict the index. -/
def shortBelow : List ChainEntry := [3, 2, 1, 0].map shortEntry

def poolStores (v : ℤ) : Stores where
  txdb := fun _ => none
  pegdb := fun fkey =>
    if fkey = ⟨setHex sampleBridge.hash, 4⟩ then some (CFractions.singleColumn 5 v) else none

theorem poolStores_nonneg {v : ℤ} (hv : 0 ≤ v) : (poolStores v).pegdb.Nonneg := by
  intro fkey fr hfr
  simp only [poolStores] at hfr
  split_ifs at hfr
  obtain rfl := Option.some.inj hfr
  exact CFractions.singleColumn_nonneg hv 5

def poolContext : BlockContext :=
  { mintContext with pindexBest := (shortEntry 4 :: shortBelow).map ChainEntry.pindex }

def poolMintBlock : DiskBlock where
  block := { nTime := 2000, vtx := [sampleCoinBase 1, sampleMintTx [] 200000] }
  nFile := 1
  nBlockPos := 508

@[irreducible] def poolMint (v : ℤ) : Option (Stores × ChainEntry) :=
  connectBlockState sampleMintNet sampleVotes sampleBridgeParams (sampleRules fun _ => none) 10
    poolContext (poolStores v) (shortEntry 4 :: shortBelow) poolMintBlock

@[irreducible] def poolFetch (v : ℤ) : Except FetchFailure (MapPrevTx × MapFractions) :=
  fetchInputs sampleVotes sampleBridgeParams (sampleRules fun _ => none).toTxSource
    (acceptFetch poolContext (shortEntry 4) shortBelow (poolStores v) (sampleMintTx [] 200000) 2000)
    (fun _ => none) (fun _ => none)

theorem poolMint_isSome : (poolMint 300000).isSome = true ∧ (poolMint 600000).isSome = true := by
  decide +kernel

theorem poolFetch_isOk : (poolFetch 300000).isOk = true ∧ (poolFetch 600000).isOk = true := by
  decide +kernel

theorem poolMint_hashes : MintHashes sampleMintNet poolContext (sampleMintTx [] 200000) where
  tx_ne := by decide
  bridge_ne := by
    intro inp hinp brhash bridge hbridge
    simp only [poolContext, mintContext] at hbridge
    split_ifs at hbridge
    obtain rfl := Option.some.inj hbridge
    revert inp
    decide

/-- The leaf of the sample mint: one step, which is the section, with one micro step. -/
def sampleMintLeaf : CCompressedFractions where
  nPegSteps := 1
  nMicroSteps := 1
  nSection := 0
  fps := [0]
  fms := [300000]

theorem sampleMint_source (v : ℤ) : MintSource sampleBridgeParams poolContext (poolStores v)
    (sampleMintTx [] 200000) (shortEntry 4).pindex.nHeight sampleMintLeaf
    (CFractions.singleColumn 5 v) := by
  have hleaf : ((mintBridge sampleBridgeParams poolContext (sampleMintTx [] 200000)).bind fun r =>
      (CCompressedFractions.ofSections r.1.sections r.1.section_peg r.2.pegSteps
        r.2.microSteps).map fun c => (r.2.hash, c)) = some (sampleBridge.hash, sampleMintLeaf) := by
    decide +kernel
  obtain ⟨⟨m, bridge⟩, hbridge, hsections⟩ := Option.bind_eq_some_iff.mp hleaf
  obtain ⟨c, hc, hpair⟩ := Option.map_eq_some_iff.mp hsections
  obtain ⟨hhash, rfl⟩ := Prod.mk.inj hpair
  refine ⟨m, bridge, hbridge, hc, ?_⟩
  have hkey : bridge.fkey (shortEntry 4).pindex.nHeight = ⟨setHex sampleBridge.hash, 4⟩ := by
    rw [CBridgeInfo.fkey, hhash]
    rfl
  simp [hkey, poolStores]

theorem sampleMintLeaf_window {v : ℤ} :
    Windows.window (CFractions.singleColumn 5 v).cols 0 PEG_SIZE = v := by
  have hcols : (CFractions.singleColumn 5 v).cols = fun x => if x = 5 then v else 0 :=
    CFractions.cols_withCols _ _
  rw [hcols, Windows.window_single, if_pos (by decide)]

/-- Twice the leaf in one column can be drawn twice. -/
theorem largePool_drawsTwice : sampleMintLeaf.DrawsTwice (CFractions.singleColumn 5 600000) := by
  have hcols : sampleMintLeaf.microCols (CFractions.singleColumn 5 600000).cols 0 0 =
      fun x => if x = 5 then 600000 else 0 := by
    rw [CFractions.singleColumn, CFractions.cols_withCols]
    funext x
    exact if_pos ⟨Nat.zero_le _, x.isLt⟩
  have hvalue : ∑ x, sampleMintLeaf.microCols (CFractions.singleColumn 5 600000).cols 0 0 x = 600000 := by
    rw [hcols]
    simp
  have hshort : sampleMintLeaf.shortfall (CFractions.singleColumn 5 600000).cols 0 1 = 0 := by
    refine CCompressedFractions.shortfall_eq_zero_iff.mpr fun j hj => ?_
    obtain rfl : j = 0 := Nat.lt_one_iff.mp hj
    rw [hvalue]
    decide
  have hmicro : sampleMintLeaf.fms.getD 0 0 = 300000 := by decide
  have hrounds : Shares.RoundsTwice (fun x : Fin PEG_SIZE => if x = 5 then 600000 else 0)
      300000 := Shares.roundsTwice_single (by norm_num) (by norm_num)
  refine ⟨?_, ?_, ?_, ?_⟩
  · intro i hi
    obtain rfl : i = 0 := Nat.lt_one_iff.mp hi
    have hall : sampleMintLeaf.pegSum (CFractions.singleColumn 5 600000).cols 0 = 600000 :=
      sampleMintLeaf_window
    rw [hall]
    decide
  · intro i hi hne
    obtain rfl : i = 0 := Nat.lt_one_iff.mp hi
    exact (hne rfl).elim
  · intro i hi _ _ j hj
    obtain rfl : i = 0 := Nat.lt_one_iff.mp hi
    obtain rfl : j = 0 := Nat.lt_one_iff.mp hj
    rw [Nat.zero_mul, hvalue, hcols, hmicro]
    exact ⟨by norm_num, hrounds⟩
  · intro i hi _ hne
    obtain rfl : i = 0 := Nat.lt_one_iff.mp hi
    rw [Nat.zero_mul] at hne
    exact absurd hshort hne

end BitBay
