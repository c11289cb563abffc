import BitBay.Bridge.Mint
import BitBay.Chain.SupplyIndex
import BitBay.Peg.Standard

/-!
# Inputs of a transaction

`FetchInputs` collects what a transaction spends: for every input the previous transaction
with its index entry, and the fractions of the output. In a block both are looked up among
the changes of the block first and on disk after that. A mint has no previous transactions;
the ones that its two inputs would spend are made up from its script.
-/
namespace BitBay

/-! ## The transaction index -/

structure CDiskTxPos where
  nFile : ℕ
  nBlockPos : ℕ
  nTxPos : ℕ
  deriving DecidableEq

namespace CDiskTxPos

def null : CDiskTxPos := ⟨2 ^ 32 - 1, 0, 0⟩

def isNull (pos : CDiskTxPos) : Bool := pos.nFile = 2 ^ 32 - 1

def mempool : CDiskTxPos := ⟨1, 1, 1⟩

end CDiskTxPos

/-- A transaction in the index: where it is, and who spends its outputs. -/
structure CTxIndex where
  pos : CDiskTxPos := .null
  vSpent : List CDiskTxPos := []
  nHeight : ℤ := 0
  nIndex : ℕ := 0
  deriving DecidableEq

/-- The constructor. Its last two arguments are the height and the index of the
transaction, and it keeps neither. -/
def CTxIndex.ofTx (posIn : CDiskTxPos) (nOutputs : ℕ) (_nHeight : ℤ) (_nTxIndex : ℕ) : CTxIndex :=
  { pos := posIn, vSpent := List.replicate nOutputs .null }

abbrev TxIndexMap := UInt256 → Option CTxIndex

structure PrevTx where
  txindex : CTxIndex := {}
  tx : CTransaction := { vin := [], vout := [] }
  nTimeFetched : ℕ := 0

abbrev MapPrevTx := UInt256 → Option PrevTx

/-! ## Fetching -/

/-- The reads that fetching needs: block files and the memory pool. -/
structure TxSource where
  /-- `CTransaction::ReadFromDisk`. -/
  readTx : CDiskTxPos → Option CTransaction
  /-- Time of the block header at a file and a position. -/
  readBlockTime : ℕ → ℕ → Option ℕ
  /-- `CTxMemPool::lookup`, with the fractions of the outputs in their order. -/
  lookup : UInt256 → Option (CTransaction × List CFractions)

structure FetchCall where
  tx : CTransaction
  txdb : TxIndexMap
  pegdb : MapFractions
  nBridgePoolNout : ℕ
  fBridgePoolMustInTestPool : Bool
  bridges : CString → Option CBridgeInfo
  fnMerkleIn : CString → Option CMerkleInfo
  mapTestPool : TxIndexMap
  mapTestFractionsPool : MapFractions
  fBlock : Bool
  fMiner : Bool
  nBlockTime : ℕ
  fSkipPruned : Bool
  /-- The best block and what is below it. -/
  pindexBest : List CBlockIndex

/-- Why a call fails. `invalid` is the failure that sets `fInvalid`, `undefined` one that the
source does not survive. -/
inductive FetchFailure
  | mint
  | noIndex
  | noTransaction
  | invalid
  | noFractions
  | undefined
  deriving DecidableEq

def CFractions.value (v : ℤ) : CFractions := { f := fun i => if i = 0 then v else 0 }

/-- `PushNotary` for a text of any length. From 255 bytes on the length is pushed as a
number. -/
def pushNotaryText (notary : CString) : CScript :=
  let bytes := notary.map fun c => UInt8.ofNat c.toNat
  let len := bytes.length
  let size : CScript :=
    if len < CScript.OP_PUSHDATA1 then [UInt8.ofNat len]
    else if len < 255 then [UInt8.ofNat CScript.OP_PUSHDATA1, UInt8.ofNat len]
    else if len < 65535 then UInt8.ofNat CScript.OP_PUSHDATA2 :: pushInt64 len
    else UInt8.ofNat CScript.OP_PUSHDATA4 :: pushInt64 len
  UInt8.ofNat CScript.OP_RETURN :: (size ++ bytes)

/-- The bytes of a hash, the least significant one first. -/
def hashBytes (hash : UInt256) : List UInt8 :=
  (List.range 32).map fun i => UInt8.ofNat (hash.toNat / 256 ^ i)

def pushPrev (inputsRet : MapPrevTx) (hash : UInt256) (nTime : ℕ) (out : CTxOut) : MapPrevTx :=
  let prev := (inputsRet hash).getD {}
  Function.update inputsRet hash (some
    { prev with
      txindex := { prev.txindex with vSpent := prev.txindex.vSpent ++ [.null] }
      tx := { prev.tx with nTime, vout := prev.tx.vout ++ [out] } })

section Model

variable (votes : VoteParams) (bp : BridgeParams) (src : TxSource) (call : FetchCall)

structure MintRequest where
  m : MintSigScript
  merkle : CMerkleInfo
  bridge : CBridgeInfo
  frLeafFromBridge : CFractions

/-- Read the script of the leaf and check it against the output, the merkle and the bridge. -/
def readMintRequest (leafIn : CTxIn) (out : CTxOut) : Except FetchFailure MintRequest :=
  match decodeAndValidateMintSigScript bp leafIn.scriptSig with
  | none => .error .mint
  | some m =>
    if m.addr_dest.destinationScript bp ≠ out.scriptPubKey then .error .mint
    else if m.leaf ≠ computeMintMerkleLeaf bp (bp.encodeBase58Check m.addr_dest.getData) m.sections
        m.section_peg m.nonce m.from_addr then .error .mint
    else
      match computeMintMerkleRoot bp m.leaf m.proofs with
      | none => .error .mint
      | some merkle_root =>
        match call.fnMerkleIn merkle_root with
        | none => .error .mint
        | some merkle =>
          match call.bridges merkle.brhash with
          | none => .error .mint
          | some bridge =>
            if bridge.pegSteps + bridge.microSteps ≠ m.sections.length then .error .mint
            else if call.tx.nTime ≠ merkle.ntime + 1 then .error .mint
            else
              match CCompressedFractions.ofSections m.sections m.section_peg bridge.pegSteps
                  bridge.microSteps with
              | none => .error .undefined
              | some cfrLeafFromBridge =>
                match cfrLeafFromBridge.requested with
                | none => .error .undefined
                | some frLeafFromBridge => .ok { m, merkle, bridge, frLeafFromBridge }

/-- The pool of the bridge: from the changes of the block, or from disk. -/
def readBridgePool (bridge_fkey : UInt320) : Except FetchFailure CFractions :=
  match call.mapTestFractionsPool bridge_fkey with
  | some frBridgePool => .ok frBridgePool
  | none =>
    if call.fBridgePoolMustInTestPool then .error .mint
    else
      match readFractions call.pegdb bridge_fkey {} true with
      | none => .error .mint
      | some frBridgePool => .ok frBridgePool

/-- The predictions of the best block, which go into the levels of a mint. -/
def bestPredictions : Except FetchFailure (ℤ × ℤ) :=
  match getNextIntervalPegSupplyIndex votes call.pindexBest,
      getNextNextIntervalPegSupplyIndex votes call.pindexBest with
  | some nSupplyNext, some nSupplyNextNext => .ok (nSupplyNext, nSupplyNextNext)
  | _, _ => .error .undefined

def fetchMint (inputsRet : MapPrevTx) (finputsRet : MapFractions) :
    Except FetchFailure (MapPrevTx × MapFractions) :=
  match call.tx.vin, call.tx.vout with
  | [base, leafIn], [out] => do
    let finputsRet := Function.update finputsRet ⟨base.prevout.hash, 0⟩ (some {})
    let inputsRet := pushPrev inputsRet base.prevout.hash 0
      ⟨0, pushVch (hashBytes leafIn.prevout.hash)⟩
    let req ← readMintRequest bp call leafIn out
    -- The levels are read nowhere, but a short chain has no predictions.
    let _ ← bestPredictions votes call
    let bridge_fkey := req.bridge.fkey call.nBridgePoolNout
    let frBridgePool ← readBridgePool call bridge_fkey
    match req.bridge.decompress req.m frBridgePool with
    | none => .error .undefined
    | some frDeduct =>
      if frDeduct.total = 0 ∨ frDeduct.total ≠ req.frLeafFromBridge.total then .error .mint
      else
        -- The pool is passed among the inputs, to be deducted by `ConnectInputs`.
        let leaf := setHex req.m.leaf
        let finputsRet := Function.update (Function.update finputsRet bridge_fkey
          (some frBridgePool)) ⟨leaf, 0⟩ (some req.frLeafFromBridge)
        let notary := "**Z**".toList ++ req.bridge.hash ++ "0x".toList ++ req.m.from_addr
        .ok (pushPrev inputsRet leaf req.merkle.ntime
          ⟨req.frLeafFromBridge.total, pushNotaryText notary⟩, finputsRet)
  | _, _ => .error .undefined

def findTxIndex (hash : UInt256) : Option CTxIndex :=
  if call.fBlock ∨ call.fMiner then
    match call.mapTestPool hash with
    | some txindex => some txindex
    | none => call.txdb hash
  else call.txdb hash

/-- The time of a previous transaction, which is the given one when it has none itself. -/
def CTransaction.fetchedTime (txPrev : CTransaction) (nBlockTime : ℕ) : ℕ :=
  if txPrev.nTime ≠ 0 then txPrev.nTime else nBlockTime

/-- A previous transaction of the memory pool, with the fractions of its outputs. -/
def readMempool (hash : UInt256) (txindex : Option CTxIndex) :
    Except FetchFailure (PrevTx × List CFractions) :=
  match src.lookup hash with
  | none => .error .noTransaction
  | some (txPrev, fractions) =>
    .ok ({
      txindex := txindex.getD { vSpent := List.replicate txPrev.vout.length .null }
      tx := txPrev
      nTimeFetched := txPrev.fetchedTime call.nBlockTime }, fractions)

def readDisk (txindex : CTxIndex) : Except FetchFailure PrevTx :=
  match src.readTx txindex.pos with
  | none => .error .noTransaction
  | some txPrev =>
    if txPrev.nTime ≠ 0 then .ok { txindex, tx := txPrev, nTimeFetched := txPrev.nTime }
    else
      match src.readBlockTime txindex.pos.nFile txindex.pos.nBlockPos with
      | none => .error .noTransaction
      | some nTime => .ok { txindex, tx := txPrev, nTimeFetched := nTime }

/-- A previous transaction with its index entry, and the fractions that come with it. -/
def readPrev (hash : UInt256) : Except FetchFailure (PrevTx × List CFractions) :=
  match findTxIndex call hash with
  | none =>
    if call.fBlock ∨ call.fMiner then .error .noIndex else readMempool src call hash none
  | some txindex =>
    if txindex.pos = .mempool then readMempool src call hash (some txindex)
    else (readDisk src txindex).map fun prev => (prev, [])

/-- One round of the first loop: the previous transactions. -/
def fetchPrev (maps : MapPrevTx × MapFractions) (inp : CTxIn) :
    Except FetchFailure (MapPrevTx × MapFractions) :=
  let hash := inp.prevout.hash
  if (maps.1 hash).isSome then .ok maps
  else do
    let r ← readPrev src call hash
    .ok (Function.update maps.1 hash (some r.1),
      r.2.zipIdx.foldl (fun finputsRet fr =>
        Function.update finputsRet ⟨hash, fr.2⟩ (some fr.1)) maps.2)

/-- The fractions of an output that is not among the changes of a block. The height in the
index entry tells whether the store must have them. -/
def readInputFractions (fkey : UInt320) (prev : PrevTx) : Option CFractions :=
  let nValue := (prev.tx.vout.getD fkey.n default).nValue
  readFractions call.pegdb fkey (CFractions.value nValue)
    (votes.nPegStartHeight ≤ prev.txindex.nHeight)

/-- One round of the second loop: the fractions of the spent outputs. -/
def fetchFractions (inputsRet : MapPrevTx) (finputsRet : MapFractions) (inp : CTxIn) :
    Except FetchFailure MapFractions :=
  let fkey := inp.prevout.fkey
  match inputsRet inp.prevout.hash with
  | none => .error .undefined
  | some prev =>
    if prev.tx.vout.length ≤ inp.prevout.n ∨ prev.txindex.vSpent.length ≤ inp.prevout.n then
      .error .invalid
    else if (finputsRet fkey).isSome then .ok finputsRet
    else
      let queued := if call.fBlock ∨ call.fMiner then call.mapTestFractionsPool fkey else none
      match queued.or (readInputFractions votes call fkey prev) with
      | some fractions => .ok (Function.update finputsRet fkey (some fractions))
      | none => if call.fSkipPruned then .ok finputsRet else .error .noFractions

def fetchInputs (inputsRet : MapPrevTx) (finputsRet : MapFractions) :
    Except FetchFailure (MapPrevTx × MapFractions) :=
  if call.tx.isCoinBase then .ok (inputsRet, finputsRet)
  else if call.tx.isCoinMint then fetchMint votes bp call inputsRet finputsRet
  else do
    let maps ← call.tx.vin.foldlM (fetchPrev src call) (inputsRet, finputsRet)
    let finputsRet ← call.tx.vin.foldlM (fetchFractions votes call maps.1) maps.2
    .ok (maps.1, finputsRet)

end Model

/-! ## The inputs of a block's transaction -/

section Block

variable {votes : VoteParams} {bp : BridgeParams} {src : TxSource} {call : FetchCall}
  {hash : UInt256} {prev : PrevTx} {inp : CTxIn} {maps maps' : MapPrevTx × MapFractions}

/-- In a block the index entry of a previous transaction is the one that was found. -/
theorem readPrev_index {fractions : List CFractions} (hblock : call.fBlock = true)
    (h : readPrev src call hash = .ok (prev, fractions)) :
    findTxIndex call hash = some prev.txindex := by
  unfold readPrev at h
  cases hfound : findTxIndex call hash with
  | none => simp [hfound, hblock] at h
  | some txindex =>
    simp only [hfound] at h
    split_ifs at h with hpos
    · unfold readMempool at h
      split at h
      · cases h
      · cases h
        rfl
    · cases hdisk : readDisk src txindex with
      | error e =>
        rw [hdisk] at h
        cases h
      | ok read =>
        rw [hdisk] at h
        obtain ⟨rfl, -⟩ := Prod.mk.inj (Except.ok.inj h)
        unfold readDisk at hdisk
        split at hdisk
        · cases hdisk
        · split_ifs at hdisk
          · cases hdisk
            rfl
          · split at hdisk
            · cases hdisk
            · cases hdisk
              rfl

/-- What the script of a leaf names, when it can be read. -/
theorem readMintRequest_ok {leafIn : CTxIn} {out : CTxOut} {req : MintRequest}
    (h : readMintRequest bp call leafIn out = .ok req) :
    decodeAndValidateMintSigScript bp leafIn.scriptSig = some req.m ∧
      ∃ merkle_root, computeMintMerkleRoot bp req.m.leaf req.m.proofs = some merkle_root ∧
        call.fnMerkleIn merkle_root = some req.merkle ∧
        call.bridges req.merkle.brhash = some req.bridge := by
  unfold readMintRequest at h
  split at h
  · cases h
  rename_i m hm
  split_ifs at h
  split at h
  · cases h
  rename_i merkle_root hroot
  split at h
  · cases h
  rename_i merkle hmerkle
  split at h
  · cases h
  rename_i bridge hbridge
  split_ifs at h
  split at h
  · cases h
  split at h
  · cases h
  obtain rfl := Except.ok.inj h
  exact ⟨hm, merkle_root, hroot, hmerkle, hbridge⟩

/-- The leaf is the one of the draw that the script names. -/
theorem readMintRequest_leaf {leafIn : CTxIn} {out : CTxOut} {req : MintRequest}
    (h : readMintRequest bp call leafIn out = .ok req) :
    req.m.leaf = computeMintMerkleLeaf bp (bp.encodeBase58Check req.m.addr_dest.getData)
      req.m.sections req.m.section_peg req.m.nonce req.m.from_addr := by
  have hm := (readMintRequest_ok h).1
  unfold readMintRequest at h
  rw [hm] at h
  dsimp only at h
  split_ifs at h with hout hleaf
  exact not_not.mp hleaf

/-- A pool that is read was changed by the block, or is the one on disk. -/
theorem readBridgePool_ok {bridge_fkey : UInt320} {frBridgePool : CFractions}
    (h : readBridgePool call bridge_fkey = .ok frBridgePool) :
    call.mapTestFractionsPool bridge_fkey = some frBridgePool ∨
      call.fBridgePoolMustInTestPool = false ∧ call.mapTestFractionsPool bridge_fkey = none ∧
        call.pegdb bridge_fkey = some frBridgePool := by
  unfold readBridgePool at h
  cases htest : call.mapTestFractionsPool bridge_fkey with
  | some fr =>
    rw [htest] at h
    exact .inl (congrArg some (Except.ok.inj h))
  | none =>
    simp only [htest] at h
    split_ifs at h with hmust
    cases hdisk : call.pegdb bridge_fkey with
    | none => simp [readFractions, hdisk] at h
    | some fr =>
      simp only [readFractions, hdisk] at h
      exact .inr ⟨Bool.eq_false_iff.mpr hmust, rfl, congrArg some (Except.ok.inj h)⟩

/-- A mint that was fetched: its request, and the draw that was tried on the pool. -/
structure FetchedMint (bp : BridgeParams) (call : FetchCall) (inputsRet : MapPrevTx)
    (base leafIn : CTxIn) (out : CTxOut) (req : MintRequest) (frBridgePool frDeduct : CFractions) :
    Prop where
  vin : call.tx.vin = [base, leafIn]
  vout : call.tx.vout = [out]
  request : readMintRequest bp call leafIn out = .ok req
  pool : readBridgePool call (req.bridge.fkey call.nBridgePoolNout) = .ok frBridgePool
  draw : req.bridge.decompress req.m frBridgePool = some frDeduct
  total_ne : frDeduct.total ≠ 0
  total_eq : frDeduct.total = req.frLeafFromBridge.total
  prevs : ∃ baseOut leafOut, leafOut.nValue = req.frLeafFromBridge.total ∧
    inputsRet = pushPrev (pushPrev (fun _ => none) base.prevout.hash 0 baseOut) (setHex req.m.leaf)
      req.merkle.ntime leafOut

theorem fetchMint_ok (h : fetchMint votes bp call (fun _ => none) (fun _ => none) = .ok maps) :
    ∃ base leafIn out req frBridgePool frDeduct,
      FetchedMint bp call maps.1 base leafIn out req frBridgePool frDeduct := by
  unfold fetchMint at h
  split at h
  · rename_i base leafIn out hvin hvout
    obtain ⟨req, hreq, h⟩ := Run.bind_eq_ok.mp h
    obtain ⟨-, -, h⟩ := Run.bind_eq_ok.mp h
    obtain ⟨frBridgePool, hpool, h⟩ := Run.bind_eq_ok.mp h
    split at h
    · cases h
    · rename_i frDeduct hdraw
      split_ifs at h with htotal
      push Not at htotal
      cases h
      exact ⟨base, leafIn, out, req, frBridgePool, frDeduct, hvin, hvout, hreq, hpool, hdraw,
        htotal.1, htotal.2, _, _, rfl, rfl⟩
  · cases h

/-- No entry of the index stands for the memory pool. -/
def FetchCall.OnDisk (call : FetchCall) : Prop :=
  ∀ hash txindex, findTxIndex call hash = some txindex → txindex.pos ≠ .mempool

/-- A transaction of the block files brings no fractions. -/
theorem readPrev_disk {fractions : List CFractions} (hblock : call.fBlock = true)
    (hdisk : call.OnDisk) (h : readPrev src call hash = .ok (prev, fractions)) :
    fractions = [] := by
  have hfound := readPrev_index hblock h
  simp only [readPrev, hfound, if_neg (hdisk _ _ hfound)] at h
  cases hread : readDisk src prev.txindex with
  | error e =>
    rw [hread] at h
    cases h
  | ok read =>
    rw [hread] at h
    exact (Prod.mk.inj (Except.ok.inj h)).2.symm

/-- One round of the first loop. -/
theorem fetchPrev_ok (h : fetchPrev src call maps inp = .ok maps') :
    (∃ prev, maps.1 inp.prevout.hash = some prev) ∧ maps' = maps ∨
    maps.1 inp.prevout.hash = none ∧ ∃ prev fractions,
      readPrev src call inp.prevout.hash = .ok (prev, fractions) ∧
      maps'.1 = Function.update maps.1 inp.prevout.hash (some prev) ∧
      (fractions = [] → maps'.2 = maps.2) := by
  simp only [fetchPrev] at h
  split_ifs at h with hthere
  · cases h
    exact Or.inl ⟨Option.isSome_iff_exists.mp hthere, rfl⟩
  · obtain ⟨⟨prev, fractions⟩, hread, hmaps⟩ := Run.bind_eq_ok.mp h
    cases hmaps
    refine Or.inr ⟨Option.not_isSome_iff_eq_none.mp hthere, prev, fractions, hread, rfl, ?_⟩
    rintro rfl
    rfl

/-- Previous transactions are read once; entries that are there are kept. -/
theorem fetchPrevs_ok {l : List CTxIn} (h : l.foldlM (fetchPrev src call) maps = .ok maps') :
    (∀ hash prev, maps.1 hash = some prev → maps'.1 hash = some prev) ∧
    (∀ hash prev, maps'.1 hash = some prev → maps.1 hash = some prev ∨
      hash ∈ l.map (·.prevout.hash) ∧
        ∃ fractions, readPrev src call hash = .ok (prev, fractions)) ∧
    ∀ inp ∈ l, ∃ prev, maps'.1 inp.prevout.hash = some prev := by
  induction l generalizing maps with
  | nil =>
    cases h
    exact ⟨fun _ _ hprev => hprev, fun _ _ hprev => Or.inl hprev, fun _ hinp => by cases hinp⟩
  | cons a rest ih =>
    rw [List.foldlM_cons, Run.bind_eq_ok] at h
    obtain ⟨mid, hfirst, hrest⟩ := h
    obtain ⟨hkept, hread, hall⟩ := ih hrest
    rcases fetchPrev_ok hfirst with ⟨⟨prev, hprev⟩, rfl⟩ | ⟨hnone, prev, fractions, hok, hmid, -⟩
    · refine ⟨hkept, ?_, ?_⟩
      · intro hash prev hprev
        refine (hread hash prev hprev).imp_right fun hnew => ⟨?_, hnew.2⟩
        exact List.mem_cons_of_mem _ hnew.1
      · intro inp hinp
        rcases List.mem_cons.mp hinp with rfl | hinp
        · exact ⟨prev, hkept _ _ hprev⟩
        · exact hall inp hinp
    · have hnew : mid.1 a.prevout.hash = some prev := by rw [hmid, Function.update_self]
      refine ⟨?_, ?_, ?_⟩
      · intro hash old hold
        apply hkept
        have hne : hash ≠ a.prevout.hash := by
          rintro rfl
          rw [hnone] at hold
          cases hold
        rw [hmid, Function.update_of_ne hne, hold]
      · intro hash found hfound
        rcases hread hash found hfound with hbefore | ⟨hmem, hlater⟩
        · by_cases hash_eq : hash = a.prevout.hash
          · subst hash_eq
            obtain rfl := Option.some.inj (hnew.symm.trans hbefore)
            exact Or.inr ⟨List.mem_cons_self, fractions, hok⟩
          · rw [hmid, Function.update_of_ne hash_eq] at hbefore
            exact Or.inl hbefore
        · exact Or.inr ⟨List.mem_cons_of_mem _ hmem, hlater⟩
      · intro inp hinp
        rcases List.mem_cons.mp hinp with rfl | hinp
        · exact ⟨prev, hkept _ _ hnew⟩
        · exact hall inp hinp

/-- In a block only the second loop adds fractions. -/
theorem fetchPrevs_disk {l : List CTxIn} (hblock : call.fBlock = true) (hdisk : call.OnDisk)
    (h : l.foldlM (fetchPrev src call) maps = .ok maps') : maps'.2 = maps.2 := by
  refine Run.foldlM_invariant (P := fun m => m.2 = maps.2) ?_ rfl h
  intro a _ mid next hmid hstep
  rcases fetchPrev_ok hstep with ⟨-, rfl⟩ | ⟨-, prev, fractions, hread, -, hsame⟩
  · exact hmid
  · rw [hsame (readPrev_disk hblock hdisk hread), hmid]

/-- The first loop succeeds when every previous transaction can be read. -/
theorem fetchPrevs_isOk {l : List CTxIn}
    (h : ∀ inp ∈ l, (readPrev src call inp.prevout.hash).isOk) :
    (l.foldlM (fetchPrev src call) maps).isOk := by
  induction l generalizing maps with
  | nil => rfl
  | cons a rest ih =>
    obtain ⟨r, hr⟩ := Run.exists_of_isOk (h a List.mem_cons_self)
    have hstep : ∃ mid, fetchPrev src call maps a = .ok mid := by
      simp only [fetchPrev]
      split_ifs
      · exact ⟨_, rfl⟩
      · rw [hr]
        exact ⟨_, rfl⟩
    obtain ⟨mid, hmid⟩ := hstep
    rw [List.foldlM_cons, hmid]
    exact ih fun inp hinp => h inp (List.mem_cons_of_mem a hinp)

/-- The fractions of an input: among the changes of the block, or in the store. -/
def inputFractions (votes : VoteParams) (call : FetchCall) (fkey : UInt320) (prev : PrevTx) :
    Option CFractions :=
  (call.mapTestFractionsPool fkey).or (readInputFractions votes call fkey prev)

def CTxIn.InRange (inp : CTxIn) (prev : PrevTx) : Prop :=
  inp.prevout.n < prev.tx.vout.length ∧ inp.prevout.n < prev.txindex.vSpent.length

/-- One round of the second loop. -/
theorem fetchFractions_iff {inputsRet : MapPrevTx} {finputsRet finputsRet' : MapFractions}
    (hblock : call.fBlock = true) (hskip : call.fSkipPruned = false) :
    fetchFractions votes call inputsRet finputsRet inp = .ok finputsRet' ↔
      ∃ prev, inputsRet inp.prevout.hash = some prev ∧ inp.InRange prev ∧
        ((finputsRet inp.prevout.fkey).isSome ∧ finputsRet' = finputsRet ∨
        finputsRet inp.prevout.fkey = none ∧
          ∃ fr, inputFractions votes call inp.prevout.fkey prev = some fr ∧
            finputsRet' = Function.update finputsRet inp.prevout.fkey (some fr)) := by
  simp only [fetchFractions, hblock, true_or, if_true, hskip, Bool.false_eq_true, if_false]
  cases hprev : inputsRet inp.prevout.hash with
  | none => simp
  | some prev =>
    simp only [Option.some.injEq, exists_eq_left', CTxIn.InRange, ← not_le, ← not_or]
    split_ifs with hrange hthere
    · simp [hrange]
    · obtain ⟨fr, hfr⟩ := Option.isSome_iff_exists.mp hthere
      simp [hrange, hfr, eq_comm]
    · have hnone := Option.not_isSome_iff_eq_none.mp hthere
      rw [← inputFractions]
      cases hfr : inputFractions votes call inp.prevout.fkey prev with
      | none => simp [hrange, hnone]
      | some fr => simp [hrange, hnone, eq_comm]

def FetchCall.Readable (votes : VoteParams) (call : FetchCall) (inputsRet : MapPrevTx)
    (inp : CTxIn) : Prop :=
  ∃ prev, inputsRet inp.prevout.hash = some prev ∧ inp.InRange prev ∧
    (inputFractions votes call inp.prevout.fkey prev).isSome

theorem FetchCall.Readable.congr {inputsRet : MapPrevTx} {inp' : CTxIn}
    (h : call.Readable votes inputsRet inp) (hsame : inp'.prevout.fkey = inp.prevout.fkey) :
    call.Readable votes inputsRet inp' := by
  have hash_eq : inp'.prevout.hash = inp.prevout.hash := congrArg UInt320.hash hsame
  have hn : inp'.prevout.n = inp.prevout.n := congrArg UInt320.n hsame
  unfold Readable CTxIn.InRange at h ⊢
  rwa [hash_eq, hn, hsame]

/-- The second loop succeeds when the fractions of every input can be read. What is there
already was read by it. -/
theorem fetchFractions_isOk {l : List CTxIn} {inputsRet : MapPrevTx} {finputsRet : MapFractions}
    (hblock : call.fBlock = true) (hskip : call.fSkipPruned = false)
    (hthere : ∀ inp : CTxIn, (finputsRet inp.prevout.fkey).isSome → inp ∈ l →
      call.Readable votes inputsRet inp) :
    (l.foldlM (fetchFractions votes call inputsRet) finputsRet).isOk ↔
      ∀ inp ∈ l, call.Readable votes inputsRet inp := by
  induction l generalizing finputsRet with
  | nil => simp [List.foldlM, Except.isOk, pure, Except.pure, Except.toBool]
  | cons a rest ih =>
    rw [List.foldlM_cons]
    cases hfirst : fetchFractions votes call inputsRet finputsRet a with
    | error e =>
      constructor
      · intro hok
        cases hok
      · intro hall
        obtain ⟨prev, hprev, hrange, hfr⟩ := hall a List.mem_cons_self
        obtain ⟨fr, hfr⟩ := Option.isSome_iff_exists.mp hfr
        have hok : ∃ next, fetchFractions votes call inputsRet finputsRet a = .ok next := by
          simp only [fetchFractions_iff hblock hskip]
          cases hnone : finputsRet a.prevout.fkey with
          | none => exact ⟨_, prev, hprev, hrange, Or.inr ⟨rfl, fr, hfr, rfl⟩⟩
          | some old => exact ⟨_, prev, hprev, hrange, Or.inl ⟨rfl, rfl⟩⟩
        obtain ⟨next, hnext⟩ := hok
        rw [hfirst] at hnext
        cases hnext
    | ok mid =>
      obtain ⟨prev, hprev, hrange, hcases⟩ := (fetchFractions_iff hblock hskip).mp hfirst
      have ha : call.Readable votes inputsRet a := by
        rcases hcases with ⟨hold, -⟩ | ⟨-, fr, hfr, -⟩
        · exact hthere a hold List.mem_cons_self
        · exact ⟨prev, hprev, hrange, hfr ▸ rfl⟩
      have hmid : ∀ inp : CTxIn, (mid inp.prevout.fkey).isSome → inp ∈ rest →
          call.Readable votes inputsRet inp := by
        intro inp hsome hinp
        by_cases hsame : inp.prevout.fkey = a.prevout.fkey
        · exact ha.congr hsame
        · refine hthere inp ?_ (List.mem_cons_of_mem a hinp)
          rcases hcases with ⟨-, rfl⟩ | ⟨-, fr, -, rfl⟩
          · exact hsome
          · rwa [Function.update_of_ne hsame] at hsome
      have hrest := ih hmid
      constructor
      · intro hok inp hinp
        rcases List.mem_cons.mp hinp with rfl | hinp
        · exact ha
        · exact hrest.mp hok inp hinp
      · intro hall
        exact hrest.mpr fun inp hinp => hall inp (List.mem_cons_of_mem a hinp)

/-- A previous transaction that can be read, with an output that the input refers to. -/
def FetchCall.Spends (src : TxSource) (call : FetchCall) (inp : CTxIn) (prev : PrevTx) : Prop :=
  readPrev src call inp.prevout.hash = .ok (prev, []) ∧ inp.InRange prev

/-- When the inputs of a block's transaction can be fetched. -/
theorem fetchInputs_isOk (hblock : call.fBlock = true) (hskip : call.fSkipPruned = false)
    (hdisk : call.OnDisk) (hbase : call.tx.isCoinBase = false) (hmint : call.tx.isCoinMint = false) :
    (fetchInputs votes bp src call (fun _ => none) (fun _ => none)).isOk ↔
      ∀ inp ∈ call.tx.vin, ∃ prev, call.Spends src inp prev ∧
        (inputFractions votes call inp.prevout.fkey prev).isSome := by
  simp only [fetchInputs, hbase, hmint, Bool.false_eq_true, if_false]
  cases hprevs : call.tx.vin.foldlM (fetchPrev src call) (fun _ => none, fun _ => none) with
  | error e =>
    constructor
    · intro hok
      cases hok
    · intro hall
      have hok : (call.tx.vin.foldlM (fetchPrev src call)
          (fun _ => none, fun _ => none)).isOk := by
        apply fetchPrevs_isOk
        intro inp hinp
        obtain ⟨prev, ⟨hread, -⟩, -⟩ := hall inp hinp
        rw [hread]
        rfl
      rw [hprevs] at hok
      cases hok
  | ok maps =>
    obtain ⟨-, hread, hall⟩ := fetchPrevs_ok hprevs
    have hempty := fetchPrevs_disk hblock hdisk hprevs
    have hprev : ∀ hash prev, maps.1 hash = some prev →
        readPrev src call hash = .ok (prev, []) := by
      intro hash prev hfound
      rcases hread hash prev hfound with hbefore | ⟨-, fractions, hok⟩
      · cases hbefore
      · rw [hok, readPrev_disk hblock hdisk hok]
    have hloop : (call.tx.vin.foldlM (fetchFractions votes call maps.1) maps.2).isOk ↔
        ∀ inp ∈ call.tx.vin, call.Readable votes maps.1 inp := by
      apply fetchFractions_isOk hblock hskip
      intro inp hsome
      simp [hempty] at hsome
    have hsplit : ((.ok maps : Except FetchFailure _) >>= fun maps => do
        let finputsRet ← call.tx.vin.foldlM (fetchFractions votes call maps.1) maps.2
        (.ok (maps.1, finputsRet) : Except FetchFailure _)).isOk =
          (call.tx.vin.foldlM (fetchFractions votes call maps.1) maps.2).isOk := by
      change (call.tx.vin.foldlM (fetchFractions votes call maps.1) maps.2 >>= _).isOk = _
      cases call.tx.vin.foldlM (fetchFractions votes call maps.1) maps.2 <;> rfl
    rw [hsplit, hloop]
    refine forall₂_congr fun inp hinp => ?_
    obtain ⟨prev, hfound⟩ := hall inp hinp
    have hok := hprev _ _ hfound
    simp only [FetchCall.Readable, FetchCall.Spends, hfound, hok, Option.some.injEq,
      Except.ok.injEq, Prod.mk.injEq, and_true]
    constructor
    · rintro ⟨_, rfl, hrange, hfr⟩
      exact ⟨prev, ⟨rfl, hrange⟩, hfr⟩
    · rintro ⟨_, ⟨rfl, hrange⟩, hfr⟩
      exact ⟨prev, rfl, hrange, hfr⟩

end Block

end BitBay
