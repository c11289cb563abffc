import BitBay.Bridge.Compressed
import BitBay.Bridge.MintScript
import BitBay.Library.Run

/-!
# Fractions of a mint

A mint draws the fractions that its leaf asks for from the pool of a bridge. The
first input stands for no coins, the second one for the leaf; the pool is passed
among the fractions of the inputs. `calculateCoinMintFractions` decompresses the
draw, gives the part of the output's value to the output and takes the rest as
the fee.

An accepted mint splits the pool, column by column, into the pool it hands back,
the output and the fee. A refused one changes nothing but the entry of its own
output.
-/
namespace BitBay

def MINT_TX_FEE : ℤ := 100000

structure CBridgeInfo where
  hash : CString
  pegSteps : ℤ
  microSteps : ℤ

structure CMerkleInfo where
  bridge : CString
  brhash : CString
  ntime : ℕ

/-- The arguments of a call. A merkle without a hash is none. -/
structure MintCall where
  tx : CTransaction
  bridges : CString → Option CBridgeInfo
  fnMerkleIn : CString → Option CMerkleInfo
  nBridgePoolNout : ℕ
  mapInputs : MapPrevOut
  mapInputsFractions : MapFractions
  mapTestFractionsPool : MapFractions
  feesFractions : CFractions

/-- What a call leaves in its reference arguments; without a cause it succeeded. -/
structure MintResult where
  sFailCause : Option String
  mapInputsFractions : MapFractions
  mapTestFractionsPool : MapFractions
  feesFractions : CFractions

/-- `refused` is a failure that the source reports, `undefined` one that it does not
survive: a division by zero or a read behind the sections. -/
inductive MintFailure
  | refused (sFailCause : String)
  | undefined

variable (net : Params) (bp : BridgeParams) (call : MintCall)

def mintInput (inp : CTxIn) : Except MintFailure (ℤ × CFractions) :=
  match call.mapInputs inp.prevout.fkey with
  | none => .error (.refused "P-MI-3: Refered output is not found")
  | some prevtxout =>
    match call.mapInputsFractions inp.prevout.fkey with
    | none => .error (.refused "P-MI-4: No input fractions found")
    | some fr =>
      let frInp := fr.toStd
      if frInp.total ≠ prevtxout.nValue then
        .error (.refused ("P-MI-5: Input fraction " ++ inp.prevout.hash.toHex ++ ":" ++
          toString inp.prevout.n ++ " total " ++ toString frInp.total ++
          " mismatches prevout value " ++ toString prevtxout.nValue))
      else .ok (prevtxout.nValue, frInp)

def mintBridgeInfo (scriptSig : CScript) : Except MintFailure (MintSigScript × CBridgeInfo) :=
  match decodeAndValidateMintSigScript bp scriptSig with
  | none => .error (.refused ("P-MI-5: CoinMint DecodeAndValidateMintSigScript err " ++
      bp.scriptToString scriptSig))
  | some m =>
    match computeMintMerkleRoot bp m.leaf m.proofs with
    | none => .error (.refused ("P-MI-6: CoinMint ComputeMintMerkleRoot err " ++
        bp.scriptToString scriptSig))
    | some merkle_root =>
      match call.fnMerkleIn merkle_root with
      | none => .error (.refused ("P-MI-7: CoinMint merkle not found " ++
          String.ofList merkle_root))
      | some merkle =>
        match call.bridges merkle.brhash with
        | none => .error (.refused ("P-MI-8: CoinMint bridge not found " ++
            String.ofList merkle.bridge ++ " hash " ++ String.ofList merkle.brhash))
        | some bridge => .ok (m, bridge)

def CBridgeInfo.fkey (bridge : CBridgeInfo) (nBridgePoolNout : ℕ) : UInt320 :=
  ⟨setHex bridge.hash, nBridgePoolNout⟩

def CBridgeInfo.decompress (bridge : CBridgeInfo) (m : MintSigScript) (frBridgePool : CFractions) :
    Option CFractions :=
  match CCompressedFractions.ofSections m.sections m.section_peg bridge.pegSteps
      bridge.microSteps with
  | none => none
  | some cfrLeafFromBridge => cfrLeafFromBridge.decompress frBridgePool

/-- What the inputs of a mint bring: their value, the key of the pool, the pool and the
fractions drawn from it. -/
structure MintDraw where
  nValueIn : ℤ
  bridge_fkey : UInt320
  frBridgePool : CFractions
  frInpLeaf : CFractions

def mintLeafInput (inp : CTxIn) (nValueIn : ℤ) : Except MintFailure MintDraw :=
  match mintBridgeInfo bp call inp.scriptSig with
  | .error e => .error e
  | .ok (m, bridge) =>
    let bridge_fkey := bridge.fkey call.nBridgePoolNout
    match call.mapInputsFractions bridge_fkey with
    | none => .error (.refused ("P-MI-9: CoinMint no input bridge fractions " ++
        String.ofList bridge.hash ++ ":" ++ toString call.nBridgePoolNout))
    | some frBridgePool =>
      match bridge.decompress m frBridgePool with
      | none => .error .undefined
      | some frInpLeaf =>
        if frInpLeaf.total = 0 then
          .error (.refused ("P-MI-10: CoinMint fail to decompress fractions " ++
            inp.prevout.hash.toHex ++ ":" ++ toString inp.prevout.n))
        else .ok { nValueIn, bridge_fkey, frBridgePool, frInpLeaf }

def mintInputs : Except MintFailure MintDraw :=
  match call.tx.vin, call.tx.vout with
  | [inp0, inp1], [_] => do
    let first ← mintInput call inp0
    let leaf ← mintInput call inp1
    mintLeafInput bp call inp1 (first.1 + leaf.1)
  | [_, _], _ => .error (.refused "P-MI-2: Not one output")
  | _, _ => .error (.refused "P-MI-1: Not two inputs")

def MintCall.outKey : UInt320 := ⟨net.getHash call.tx, 0⟩

def MintCall.outValue : ℤ := (call.tx.vout.headD default).nValue

/-- The checks on the output and the fee, later ones over earlier ones. -/
def mintFailCause (draw : MintDraw) (frOut txFeeFractions : CFractions) : Option String :=
  let nFee := draw.nValueIn - call.outValue
  if txFeeFractions.isPositive = false then some "P-MO-4: Non-positive fee fractions"
  else if nFee ≠ txFeeFractions.total then
    some ("P-MO-3: Total mismatch on fee fractions " ++ toString nFee ++ " vs " ++
      toString txFeeFractions.total)
  else if nFee ≠ MINT_TX_FEE then
    some ("P-MO-2: MINT_TX_FEE mismatch on fee " ++ toString nFee ++ " vs " ++
      toString MINT_TX_FEE)
  else if call.outValue ≠ frOut.total ∨ frOut.isPositive = false then
    some "P-MO-1: Total mismatch on output 0"
  else none

/-- A refused call leaves its arguments, up to the entries of the pool given here. -/
def MintCall.failed (sFailCause : String) (mapTestFractionsPool : MapFractions) : MintResult :=
  { sFailCause := some sFailCause
    mapInputsFractions := call.mapInputsFractions
    mapTestFractionsPool
    feesFractions := call.feesFractions }

/-- An accepted call writes the output, hands back the deducted pool among the inputs and
collects the fee. -/
def MintCall.accepted (draw : MintDraw) (frOut txFeeFractions : CFractions) : MintResult :=
  { sFailCause := none
    mapInputsFractions := Function.update
      (Function.update call.mapInputsFractions (call.outKey net) (some frOut))
      draw.bridge_fkey (some (draw.frBridgePool - draw.frInpLeaf))
    mapTestFractionsPool :=
      Function.update call.mapTestFractionsPool (call.outKey net) (some frOut)
    feesFractions := call.feesFractions + txFeeFractions }

def mintPay (draw : MintDraw) (frOut : CFractions) : MintResult :=
  match mintFailCause call draw frOut (draw.frInpLeaf - frOut) with
  | some sFailCause =>
    call.failed sFailCause (Function.update call.mapTestFractionsPool (call.outKey net) none)
  | none => call.accepted net draw frOut (draw.frInpLeaf - frOut)

def mintOutput (draw : MintDraw) : MintResult :=
  mintPay net call draw (draw.frInpLeaf.ratioPart call.outValue)

/-- `none` when the call does not return. -/
def calculateCoinMintFractions : Option MintResult :=
  match mintInputs bp call with
  | .error .undefined => none
  | .error (.refused sFailCause) => some (call.failed sFailCause call.mapTestFractionsPool)
  | .ok draw => some (mintOutput net call draw)

def mintPoolKey : Option UInt320 :=
  match call.tx.vin with
  | [_, inp1] =>
    match mintBridgeInfo bp call inp1.scriptSig with
    | .ok (_, bridge) => some (bridge.fkey call.nBridgePoolNout)
    | .error _ => none
  | _ => none

/-! ## What a mint draws -/

variable {net bp call} {draw : MintDraw} {r : MintResult}

structure MintDraw.From (bp : BridgeParams) (call : MintCall) (draw : MintDraw) : Prop where
  pool : call.mapInputsFractions draw.bridge_fkey = some draw.frBridgePool
  leaf : ∃ inp0 inp1 m bridge, call.tx.vin = [inp0, inp1] ∧
    mintBridgeInfo bp call inp1.scriptSig = .ok (m, bridge) ∧
    draw.bridge_fkey = bridge.fkey call.nBridgePoolNout ∧
    bridge.decompress m draw.frBridgePool = some draw.frInpLeaf
  total : draw.frInpLeaf.total ≠ 0

theorem mintLeafInput_ok {inp : CTxIn} {nValueIn : ℤ}
    (h : mintLeafInput bp call inp nValueIn = .ok draw) :
    call.mapInputsFractions draw.bridge_fkey = some draw.frBridgePool ∧
    draw.frInpLeaf.total ≠ 0 ∧
    ∃ m bridge, mintBridgeInfo bp call inp.scriptSig = .ok (m, bridge) ∧
      draw.bridge_fkey = bridge.fkey call.nBridgePoolNout ∧
      bridge.decompress m draw.frBridgePool = some draw.frInpLeaf := by
  unfold mintLeafInput at h
  cases hbridge : mintBridgeInfo bp call inp.scriptSig with
  | error e =>
    rw [hbridge] at h
    cases h
  | ok found =>
    obtain ⟨m, bridge⟩ := found
    simp only [hbridge] at h
    split at h
    · cases h
    · rename_i frBridgePool hpool
      split at h
      · cases h
      · rename_i frInpLeaf hdraw
        split_ifs at h with htotal
        cases h
        exact ⟨hpool, htotal, m, bridge, rfl, rfl, hdraw⟩

theorem mintInputs_ok (h : mintInputs bp call = .ok draw) : draw.From bp call := by
  unfold mintInputs at h
  split at h
  · rename_i inp0 inp1 out hvin hvout
    obtain ⟨first, -, h⟩ := Run.bind_eq_ok.mp h
    obtain ⟨leaf, -, h⟩ := Run.bind_eq_ok.mp h
    obtain ⟨hpool, htotal, m, bridge, hrest⟩ := mintLeafInput_ok h
    exact ⟨hpool, ⟨inp0, inp1, m, bridge, hvin, hrest⟩, htotal⟩
  · cases h
  · cases h

theorem MintDraw.From.le (h : draw.From bp call) (hpool : draw.frBridgePool.Nonneg)
    (i : Fin PEG_SIZE) : draw.frInpLeaf.cols i ≤ draw.frBridgePool.cols i := by
  obtain ⟨inp0, inp1, m, bridge, -, -, -, hdraw⟩ := h.leaf
  unfold CBridgeInfo.decompress at hdraw
  split at hdraw
  · cases hdraw
  · exact CCompressedFractions.decompress_le hpool hdraw i

theorem MintDraw.From.poolKey (h : draw.From bp call) :
    mintPoolKey bp call = some draw.bridge_fkey := by
  obtain ⟨inp0, inp1, m, bridge, hvin, hbridge, hkey, -⟩ := h.leaf
  simp only [mintPoolKey, hvin, hbridge, hkey]

/-! ## Conservation -/

structure MintDraw.Paid (call : MintCall) (draw : MintDraw) (out fee : CFractions) : Prop where
  split : draw.frInpLeaf.cols = out.cols + fee.cols
  out_nonneg : out.Nonneg
  fee_nonneg : fee.Nonneg
  out_total : out.total = call.outValue
  fee_total : fee.total = MINT_TX_FEE

theorem mintFailCause_none {frOut : CFractions} (hstd : frOut.nFlags.std = true)
    (h : mintFailCause call draw frOut (draw.frInpLeaf - frOut) = none) :
    draw.Paid call frOut (draw.frInpLeaf - frOut) := by
  simp only [mintFailCause] at h
  split_ifs at h with hfee htotal hvalue hout
  push Not at htotal hvalue hout
  have hpositive : frOut.isPositive = true := by simpa using hout.2
  have hfees : (draw.frInpLeaf - frOut).isPositive = true := by simpa using hfee
  have hfilled : (draw.frInpLeaf - frOut).Filled := Or.inl rfl
  refine ⟨?_, ?_, hfilled.nonneg hfees, hout.1.symm, htotal.symm.trans hvalue⟩
  · rw [CFractions.cols_sub]
    abel
  · have hfilled : frOut.Filled := Or.inl hstd
    exact hfilled.nonneg hpositive

variable (net) in
/-- Either a check fails and the entry of the output is erased, or the draw is paid. -/
theorem mintPay_cases {out : CFractions} (hstd : out.nFlags.std = true) :
    (∃ sFailCause, mintPay net call draw out =
      call.failed sFailCause (Function.update call.mapTestFractionsPool (call.outKey net) none)) ∨
    ∃ fee, draw.Paid call out fee ∧ mintPay net call draw out = call.accepted net draw out fee := by
  unfold mintPay
  cases hcause : mintFailCause call draw out (draw.frInpLeaf - out) with
  | some sFailCause =>
    left
    exact ⟨sFailCause, by with_reducible rfl⟩
  | none =>
    right
    exact ⟨_, mintFailCause_none hstd hcause, by with_reducible rfl⟩

/-- What an accepted mint has moved: the old pool is the new one, the output and the fee. -/
structure MintResult.Conserves (net : Params) (bp : BridgeParams) (call : MintCall)
    (r : MintResult) (fkey : UInt320) (old new out fee : CFractions) : Prop where
  poolKey : mintPoolKey bp call = some fkey
  old_pool : call.mapInputsFractions fkey = some old
  new_pool : r.mapInputsFractions fkey = some new
  output : r.mapTestFractionsPool (call.outKey net) = some out
  fees : r.feesFractions = call.feesFractions + fee
  split : old.cols = new.cols + out.cols + fee.cols
  new_nonneg : new.Nonneg
  out_nonneg : out.Nonneg
  fee_nonneg : fee.Nonneg
  out_total : out.total = call.outValue
  fee_total : fee.total = MINT_TX_FEE

/-- What a refused mint has changed: at most the entry of its own output. -/
structure MintResult.Unchanged (net : Params) (call : MintCall) (r : MintResult) : Prop where
  inputs : r.mapInputsFractions = call.mapInputsFractions
  fees : r.feesFractions = call.feesFractions
  pool : r.mapTestFractionsPool = call.mapTestFractionsPool ∨
    r.mapTestFractionsPool = Function.update call.mapTestFractionsPool (call.outKey net) none

theorem MintDraw.Paid.conserves {out fee : CFractions} (hpaid : draw.Paid call out fee)
    (hfrom : draw.From bp call) (hpool : draw.frBridgePool.Nonneg) :
    (call.accepted net draw out fee).Conserves net bp call draw.bridge_fkey draw.frBridgePool
      (draw.frBridgePool - draw.frInpLeaf) out fee where
  poolKey := hfrom.poolKey
  old_pool := hfrom.pool
  new_pool := Function.update_self _ _ _
  output := Function.update_self _ _ _
  fees := rfl
  split := by
    rw [CFractions.cols_sub, hpaid.split]
    abel
  new_nonneg := by
    intro i
    have hle := hfrom.le hpool i
    simp only [CFractions.cols_sub, Pi.sub_apply]
    omega
  out_nonneg := hpaid.out_nonneg
  fee_nonneg := hpaid.fee_nonneg
  out_total := hpaid.out_total
  fee_total := hpaid.fee_total

/-- A mint that succeeds splits a non-negative pool into the new pool, the output and the
fee of `MINT_TX_FEE`, all without negative columns. A mint that fails changes nothing,
except that it may erase the entry of its own output. -/
theorem calculateCoinMintFractions_conserves
    (hpool : ∀ fkey ∈ mintPoolKey bp call, ∀ fr ∈ call.mapInputsFractions fkey, fr.Nonneg)
    (h : calculateCoinMintFractions net bp call = some r) :
    (r.sFailCause = none → ∃ fkey old new out fee,
      r.Conserves net bp call fkey old new out fee) ∧
    (r.sFailCause ≠ none → r.Unchanged net call) := by
  unfold calculateCoinMintFractions at h
  split at h
  · cases h
  · cases h
    constructor
    · intro hok
      cases hok
    · intro _
      exact ⟨rfl, rfl, Or.inl rfl⟩
  · rename_i draw hdraw
    obtain rfl := Option.some.inj h
    have hfrom := mintInputs_ok hdraw
    have hold := hpool _ hfrom.poolKey _ hfrom.pool
    rcases mintPay_cases net (CFractions.ratioPart_std draw.frInpLeaf call.outValue) with
      ⟨sFailCause, hr⟩ | ⟨fee, hpaid, hr⟩
    · rw [mintOutput, hr]
      constructor
      · intro hok
        cases hok
      · intro _
        exact ⟨rfl, rfl, Or.inr rfl⟩
    · rw [mintOutput, hr]
      constructor
      · intro _
        exact ⟨_, _, _, _, fee, hpaid.conserves hfrom hold⟩
      · intro hfail
        simp only [MintCall.accepted, ne_eq, not_true_eq_false] at hfail

/-! ## A mint -/

def sampleLeaf : List UInt8 :=
  [0x5f, 0x83, 0x1b, 0xfc, 0x45, 0x1c, 0x79, 0x32, 0xc4, 0x9d, 0x37, 0x53, 0x61, 0xf3, 0x66, 0xe3,
    0x44, 0xae, 0xd5, 0xd6, 0x5a, 0x78, 0x97, 0xed, 0xd3, 0x3e, 0x79, 0xd1, 0xc8, 0x37, 0xff, 0x46]

def sampleBridgeParams : BridgeParams where
  pubkeyAddress := [25]
  scriptAddress := [85]
  encodeBase58Check := fun _ => "B56EmLLQ8LdvAApx1jBracJJhRsZRCWtwF".toList
  eth_keccak256 := fun _ => sampleLeaf
  scriptToString := fun _ => ""

/-- Sections 0 and 300000 in one peg step with one micro step, nonce 1, no proofs. -/
def sampleMintScript : CScript :=
  [21, 25] ++ List.replicate 20 7 ++ [0x52, 0, 3, 0xe0, 0x93, 0x04, 0, 0x51, 20] ++
    List.replicate 20 0x11 ++ [32] ++ sampleLeaf ++ [0]

def sampleMintTx (scriptSig : CScript) (nValue : ℤ) : CTransaction where
  nTime := 1001
  vin := [{ prevout := ⟨0, 0⟩, scriptSig },
    { prevout := ⟨setHex (hexStr sampleLeaf), 0⟩, scriptSig := sampleMintScript }]
  vout := [⟨nValue, [0x76, 0xa9, 0x14] ++ List.replicate 20 7 ++ [0x88, 0xac]⟩]

def sampleMintNet : Params where
  pegFrozenTime := 10
  pegVFrozenTime := 20
  getHash := fun tx =>
    if tx = sampleMintTx [] 200000 then
      0xd27f00b0fe4e18ceef4280d34560e68c727b49752d52cb5f94c865b0cda89eb2
    else if tx = sampleMintTx [0] 200000 then
      0xaf7848eb9505416c0064986428b3aec22c5dac839577df67b1e4f3be3c102173
    else 0xe16a311c5493139c6327ab34d5e411191b268e6467eecb8f39f31b8307a16ed4
  destinations := fun _ => []
  isValidAddress := fun _ => true

def sampleBridge : CBridgeInfo where
  hash := "79278a6fa368400fcb217bc4191a86f3043980a7ead72ee965cdf99ed807af9b".toList
  pegSteps := 1
  microSteps := 1

def sampleMint (nValue : ℤ) (mapTestFractionsPool : MapFractions) : MintCall where
  tx := sampleMintTx [] nValue
  bridges := fun brhash => if brhash = sampleBridge.hash then some sampleBridge else none
  fnMerkleIn := fun root =>
    if root = hexStr sampleLeaf then
      some { bridge := "B".toList, brhash := sampleBridge.hash, ntime := 1000 }
    else none
  nBridgePoolNout := 5000
  mapInputs := fun fkey =>
    if fkey = ⟨0, 0⟩ then some ⟨0, []⟩
    else if fkey = ⟨setHex (hexStr sampleLeaf), 0⟩ then some ⟨300000, []⟩
    else none
  mapInputsFractions := fun fkey =>
    if fkey = ⟨0, 0⟩ then some default
    else if fkey = ⟨setHex (hexStr sampleLeaf), 0⟩ then some (CFractions.singleColumn 3 300000)
    else if fkey = sampleBridge.fkey 5000 then some (CFractions.singleColumn 5 1000000)
    else none
  mapTestFractionsPool
  feesFractions := {}

theorem sampleMint_pool (nValue : ℤ) (pool : MapFractions) :
    ∀ fkey ∈ mintPoolKey sampleBridgeParams (sampleMint nValue pool),
    ∀ fr ∈ (sampleMint nValue pool).mapInputsFractions fkey, fr.Nonneg := by
  intro fkey _ fr hfr
  simp only [sampleMint, Option.mem_def] at hfr
  split_ifs at hfr <;> cases hfr
  · exact CFractions.nonneg_default
  · exact CFractions.singleColumn_nonneg (by decide) 3
  · exact CFractions.singleColumn_nonneg (by decide) 5

theorem sampleMint_conserves : ∃ r,
    calculateCoinMintFractions sampleMintNet sampleBridgeParams (sampleMint 200000 fun _ => none) =
      some r ∧
    ∃ fkey old new out fee, r.Conserves sampleMintNet sampleBridgeParams
      (sampleMint 200000 fun _ => none) fkey old new out fee := by
  have hok : (calculateCoinMintFractions sampleMintNet sampleBridgeParams
      (sampleMint 200000 fun _ => none)).map (fun r => r.sFailCause) = some none := by decide +kernel
  obtain ⟨r, hr, hcause⟩ := Option.map_eq_some_iff.mp hok
  have hconserves := calculateCoinMintFractions_conserves (sampleMint_pool _ _) hr
  exact ⟨r, hr, hconserves.1 hcause⟩

/-- A mint whose fee is wrong, of which the pool has an output already. -/
def refusedMint : MintCall :=
  sampleMint 250000 (Function.update (fun _ => none)
    ⟨0xe16a311c5493139c6327ab34d5e411191b268e6467eecb8f39f31b8307a16ed4, 0⟩ (some default))

/-- The call fails and the entry that its output had before is gone. -/
theorem refused_mint_erases_output : ∃ r,
    calculateCoinMintFractions sampleMintNet sampleBridgeParams refusedMint = some r ∧
    r.sFailCause.isSome ∧ r.mapTestFractionsPool ≠ refusedMint.mapTestFractionsPool := by
  have hfail : (calculateCoinMintFractions sampleMintNet sampleBridgeParams refusedMint).map
      (fun r => (r.sFailCause.isSome,
        (r.mapTestFractionsPool (refusedMint.outKey sampleMintNet)).isSome)) =
      some (true, false) := by decide +kernel
  have hbefore : (refusedMint.mapTestFractionsPool (refusedMint.outKey sampleMintNet)).isSome := by
    decide +kernel
  obtain ⟨r, hr, hpair⟩ := Option.map_eq_some_iff.mp hfail
  obtain ⟨hcause, hgone⟩ := Prod.mk.inj hpair
  refine ⟨r, hr, hcause, ?_⟩
  intro hsame
  rw [hsame, hbefore] at hgone
  cases hgone

end BitBay
