import BitBay.Chain.FractionEntries

/-!
# Review of the memory pool

When a peg interval starts the pool calculates the fractions of its transactions for the new
supply index. It starts with the transactions that depend on no other one and goes on to the
dependents of every output, so a transaction with several parents is calculated several times,
also while some of them have their old fractions. Transactions that fail once are removed with
everything that depends on them. The review passes no time-lock passes on, unlike `ConnectInputs`.
-/
namespace BitBay

open Run

/-- The maps of the pool; transactions in the order of their hashes. -/
structure CTxMemPool where
  mapTx : List CTransaction
  /-- The input that spends an output: hash of its transaction and index. -/
  mapNextTx : COutPoint → Option (UInt256 × ℕ)
  /-- The fractions of the outputs. What is packed is unpacked as it was. -/
  mapPackedFractions : MapFractions

/-- What the review reads of the chain; the numbers are of the best block. -/
structure ReviewContext where
  src : TxSource
  txdb : TxIndexMap
  pegdb : MapFractions
  nHeight : ℕ
  nPegSupplyIndex : ℤ
  nTime : ℕ
  /-- `GetAdjustedTime()` -/
  nVirtBlockTime : ℕ
  /-- `ReadBridges`, which may fail. -/
  bridges : Option (CString → Option CBridgeInfo)
  fnMerkleIn : CString → Option CMerkleInfo
  pindexBest : List CBlockIndex

/-- Fractions of the outputs of a transaction, as far as they are there. -/
abbrev OutFractions := List (Option CFractions)

namespace CTxMemPool

variable (net : Params) (votes : VoteParams) (pool : CTxMemPool)

def find (hash : UInt256) : Option CTransaction :=
  pool.mapTx.find? fun tx => net.getHash tx = hash

def packed (hash : UInt256) : OutFractions :=
  (pool.find net hash).elim [] fun tx =>
    (List.range tx.vout.length).map fun i => pool.mapPackedFractions ⟨hash, i⟩

def lookup (nHeight : ℕ) (hash : UInt256) : Option (CTransaction × List CFractions) := do
  let tx ← pool.find net hash
  if nHeight < votes.nPegStartHeight then some (tx, [])
  else ((pool.packed net hash).mapM id).map fun fractions => (tx, fractions)

def dependents (hash : UInt256) : List UInt256 :=
  (pool.find net hash).elim [] fun tx =>
    (List.range tx.vout.length).filterMap fun i => (pool.mapNextTx ⟨hash, i⟩).map Prod.fst

def fDependent (tx : CTransaction) : Bool :=
  pool.mapTx.any fun txPrev => (List.range txPrev.vout.length).any fun n =>
    (pool.mapNextTx ⟨net.getHash txPrev, n⟩).any fun next =>
      next.1 = net.getHash tx ∧ next.2 < tx.vin.length

def roots : List UInt256 :=
  (pool.mapTx.filter fun tx => !pool.fDependent net tx).map net.getHash

def erase (tx : CTransaction) : CTxMemPool where
  mapTx := pool.mapTx.filter fun other => net.getHash other ≠ net.getHash tx
  mapNextTx := fun o => if o ∈ tx.vin.map (·.prevout) then none else pool.mapNextTx o
  mapPackedFractions := fun fkey =>
    if fkey.hash = net.getHash tx ∧ fkey.n < tx.vout.length then none
    else pool.mapPackedFractions fkey

/-- `remove` with everything that depends on the transaction; `none` when the rounds are used
up. -/
def remove : ℕ → UInt256 → CTxMemPool → Option CTxMemPool
  | 0, _, _ => none
  | k + 1, hash, pool =>
    match pool.find net hash with
    | none => some pool
    | some tx => do
      let pool ← (List.range tx.vout.length).foldlM (fun pool i =>
        match pool.mapNextTx ⟨hash, i⟩ with
        | none => some pool
        | some next => remove k next.1 pool) pool
      return pool.erase net tx

end CTxMemPool

section Calculate

variable (net : Params) (votes : VoteParams) (bp : BridgeParams) (ctx : ReviewContext)

def ReviewContext.fetchCall (bridges : CString → Option CBridgeInfo) (tx : CTransaction) :
    FetchCall where
  tx
  txdb := ctx.txdb
  pegdb := ctx.pegdb
  nBridgePoolNout := ctx.nHeight
  fBridgePoolMustInTestPool := false
  bridges
  fnMerkleIn := ctx.fnMerkleIn
  mapTestPool := fun _ => none
  mapTestFractionsPool := fun _ => none
  fBlock := false
  fMiner := false
  nBlockTime := ctx.nVirtBlockTime
  fSkipPruned := false
  pindexBest := ctx.pindexBest

/-- The second loop of `FetchInputs`. The review goes on when the store misses fractions; then
the loop has left the plain value. An index out of range is a failure. -/
def reviewFractions (call : FetchCall) (inputsRet : MapPrevTx) :
    List CTxIn → MapFractions → Option MapFractions
  | [], finputsRet => some finputsRet
  | inp :: rest, finputsRet =>
    match fetchFractions votes call inputsRet finputsRet inp with
    | .ok finputsRet => reviewFractions call inputsRet rest finputsRet
    | .error .noFractions =>
      let txout := (inputsRet inp.prevout.hash).bind fun prev => prev.tx.vout[inp.prevout.n]?
      some (Function.update finputsRet inp.prevout.fkey
        (some (CFractions.value ((txout.getD default).nValue))))
    | .error _ => none

def ReviewContext.source (lookup : UInt256 → Option (CTransaction × List CFractions)) : TxSource where
  readTx := ctx.src.readTx
  readBlockTime := ctx.src.readBlockTime
  lookup

/-- The inputs of a review. Without a previous transaction, or without the leaf of a mint, the
calculation that follows fails. -/
def reviewInputs (call : FetchCall) (lookup : UInt256 → Option (CTransaction × List CFractions)) :
    Option (MapPrevTx × MapFractions) :=
  if call.tx.isCoinBase then some (fun _ => none, fun _ => none)
  else if call.tx.isCoinMint then (fetchMint votes bp call (fun _ => none) (fun _ => none)).toOption
  else do
    let maps ← (call.tx.vin.foldlM (fetchPrev (ctx.source lookup) call)
      ((fun _ => none, fun _ => none) : MapPrevTx × MapFractions)).toOption
    let finputsRet ← reviewFractions votes call maps.1 call.tx.vin maps.2
    return (maps.1, finputsRet)

/-- The calls that calculate the fractions, with the inputs that a time-lock pass unlocks. -/
def ReviewContext.mintCall (bridges : CString → Option CBridgeInfo) (tx : CTransaction)
    (maps : MapPrevTx × MapFractions) : MintCall where
  tx
  bridges
  fnMerkleIn := ctx.fnMerkleIn
  nBridgePoolNout := ctx.nHeight
  mapInputs := mapPrevOut tx maps.1
  mapInputsFractions := maps.2
  mapTestFractionsPool := fun _ => none
  feesFractions := {}

def ReviewContext.standardCall (tx : CTransaction) (maps : MapPrevTx × MapFractions)
    (setTimeLockPass : Finset ℕ) : StandardCall where
  tx
  nSupply := ctx.nPegSupplyIndex.toNat
  nBlockTime := ctx.nTime
  mapInputs := mapPrevOut tx maps.1
  mapInputsFractions := maps.2
  setTimeLockPass

/-- The fractions of the outputs under the new index, when the calculation passes. -/
def calculate (bridges : CString → Option CBridgeInfo) (tx : CTransaction)
    (maps : MapPrevTx × MapFractions) (setTimeLockPass : Finset ℕ) : Option MapFractions :=
  if tx.isCoinMint then do
    let r ← calculateCoinMintFractions net bp (ctx.mintCall bridges tx maps)
    if r.sFailCause.isSome then none else some r.mapTestFractionsPool
  else (calculateStandardFractions net (ctx.standardCall tx maps setTimeLockPass)).toOption.map
    (·.mapTestFractionsPool)

variable (lookup : UInt256 → Option (CTransaction × List CFractions))

/-- What a review calculates for a transaction: it has no time-lock passes. -/
def reviewed (tx : CTransaction) : Option MapFractions := do
  let bridges ← ctx.bridges
  let maps ← reviewInputs votes bp ctx (ctx.fetchCall bridges tx) lookup
  calculate net bp ctx bridges tx maps ∅

end Calculate

section Review

variable (net : Params) (votes : VoteParams) (bp : BridgeParams) (ctx : ReviewContext)

structure ReviewState where
  mapPackedFractions : MapFractions
  vRemove : List UInt256 := []

def CTxMemPool.withPacked (pool : CTxMemPool) (mapPackedFractions : MapFractions) : CTxMemPool :=
  { pool with mapPackedFractions }

/-- `reviewOnPegChange` of one transaction; `none` when the rounds are used up. -/
def reviewTx (pool : CTxMemPool) : ℕ → UInt256 → ReviewState → Option ReviewState
  | 0, _, _ => none
  | k + 1, hash, st => do
    let tx ← pool.find net hash
    match reviewed net votes bp ctx
        ((pool.withPacked st.mapPackedFractions).lookup net votes ctx.nHeight) tx with
    | none => some { st with vRemove := st.vRemove ++ [hash] }
    | some mapOutputsFractions =>
      (pool.dependents net hash).foldlM (fun st next => reviewTx pool k next st)
        { st with mapPackedFractions := fun fkey =>
            (mapOutputsFractions fkey).or (st.mapPackedFractions fkey) }

def reviewOnPegChange (pool : CTxMemPool) : Option CTxMemPool := do
  let n := pool.mapTx.length
  let st ← (pool.roots net).foldlM (fun st hash => reviewTx net votes bp ctx pool n hash st)
    { mapPackedFractions := pool.mapPackedFractions }
  st.vRemove.foldlM (fun pool hash => CTxMemPool.remove net (n + 1) hash pool)
    (pool.withPacked st.mapPackedFractions)

end Review

namespace CTxMemPool

variable {net : Params} {pool : CTxMemPool} {tx : CTransaction} {hash : UInt256}

theorem find_mem (h : pool.find net hash = some tx) : tx ∈ pool.mapTx ∧ net.getHash tx = hash :=
  ⟨List.mem_of_find?_eq_some h, by simpa using List.find?_some h⟩

end CTxMemPool

end BitBay
