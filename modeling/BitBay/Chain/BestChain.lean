import BitBay.Library.Forest
import BitBay.Library.Run

/-!
# Switching to a new best chain

`SetBestChain` attaches a block to the best chain, if need be by a reorganisation. The
tx database works in a transaction that is committed or aborted; the peg database is
written at once. Pointers between block indices change after a commit only.

What a block does to the data of both databases is a parameter, as is whether reading,
connecting, disconnecting and committing succeed. A call reads, connects, disconnects and
commits each block at most once, so one flag for each block covers every outcome.
-/
namespace BitBay

open Run

/-- The block index. Blocks are known by their hashes, so `ι` is the type of hashes
and of pointers into the index. -/
structure BlockTree (ι : Type) extends Forest ι where
  nChainTrust : ι → ℕ
  hashGenesisBlock : ι
  prev_eq_none : ∀ {i}, prev i = none ↔ i = hashGenesisBlock

/-- The contents of the tx database: the best block, and what `ConnectBlock` wrote. The
blocks that were connected are listed, the last one first. -/
structure TxData (ι Tx : Type) where
  hashBestChain : Option ι
  connected : List ι
  data : Tx

structure CTxDB (ι Tx : Type) where
  disk : TxData ι Tx
  activeBatch : Option (TxData ι Tx) := none

namespace CTxDB

variable {ι Tx : Type}

/-- What reads see: the batch, where there is one. -/
def view (txdb : CTxDB ι Tx) : TxData ι Tx := txdb.activeBatch.getD txdb.disk

def write (txdb : CTxDB ι Tx) (f : TxData ι Tx → TxData ι Tx) : CTxDB ι Tx :=
  match txdb.activeBatch with
  | some batch => { txdb with activeBatch := some (f batch) }
  | none => { txdb with disk := f txdb.disk }

def txnBegin (txdb : CTxDB ι Tx) : CTxDB ι Tx := { txdb with activeBatch := some txdb.disk }

/-- A commit that fails leaves the disk as it was. The batch is gone in both cases. -/
def txnCommit (txdb : CTxDB ι Tx) (written : Bool) : CTxDB ι Tx :=
  { disk := if written then txdb.view else txdb.disk }

def txnAbort (txdb : CTxDB ι Tx) : CTxDB ι Tx := { disk := txdb.disk }

end CTxDB

structure ChainMemory (ι : Type) where
  pindexGenesisBlock : Option ι := none
  pindexBest : Option ι := none
  hashBestChain : Option ι := none
  nBestHeight : ℤ := -1
  nBestChainTrust : ℕ := 0
  next : ι → Option ι := fun _ => none

structure ChainState (ι Tx Peg : Type) where
  mem : ChainMemory ι
  txdb : CTxDB ι Tx
  pegdb : Peg

/-- What the blocks do: which steps succeed, and what connecting or disconnecting writes.
The flag of the writers says whether the step succeeds, as one that fails has written too. -/
structure ChainEnv (ι Tx Peg : Type) where
  readFromDisk : ι → Bool
  disconnectBlock : ι → Bool
  connectBlock : ι → Bool
  txnCommit : ι → Bool
  disconnectData : ι → Bool → ChainMemory ι → Tx × Peg → Tx × Peg
  connectData : ι → Bool → ChainMemory ι → Tx × Peg → Tx × Peg

section Model

variable {ι Tx Peg : Type} [DecidableEq ι] (tree : BlockTree ι) (env : ChainEnv ι Tx Peg)

def disconnectBlock (pindex : ι) (st : ChainState ι Tx Peg) : Bool × ChainState ι Tx Peg :=
  let ok := env.disconnectBlock pindex
  let r := env.disconnectData pindex ok st.mem (st.txdb.view.data, st.pegdb)
  (ok, { st with
    txdb := st.txdb.write fun v => { v with
      data := r.1, connected := if ok then v.connected.erase pindex else v.connected }
    pegdb := r.2 })

def connectBlock (pindex : ι) (st : ChainState ι Tx Peg) : Bool × ChainState ι Tx Peg :=
  let ok := env.connectBlock pindex
  let r := env.connectData pindex ok st.mem (st.txdb.view.data, st.pegdb)
  (ok, { st with
    txdb := st.txdb.write fun v => { v with
      data := r.1, connected := if ok then pindex :: v.connected else v.connected }
    pegdb := r.2 })

/-- `WriteHashBestChain`, which is always called in a transaction and succeeds there. -/
def ChainState.writeHashBestChain (st : ChainState ι Tx Peg) (hash : ι) : ChainState ι Tx Peg :=
  { st with txdb := st.txdb.write fun v => { v with hashBestChain := some hash } }

def setNext (pindex : ι) (value : Option ι) (next : ι → Option ι) : ι → Option ι :=
  match tree.prev pindex with
  | none => next
  | some pprev => Function.update next pprev value

def disconnectStep (pindex : ι) (st : ChainState ι Tx Peg) : Bool × ChainState ι Tx Peg :=
  if env.readFromDisk pindex then disconnectBlock env pindex st else (false, st)

def connectStep (pindex : ι) (st : ChainState ι Tx Peg) : Bool × ChainState ι Tx Peg :=
  if env.readFromDisk pindex then connectBlock env pindex st else (false, st)

/-- The pointers of the shorter branch are cleared, then those of the longer one set. -/
def relink (vDisconnect vConnect : List ι) (next : ι → Option ι) : ι → Option ι :=
  vConnect.foldl (fun next pindex => setNext tree pindex (some pindex) next)
    (vDisconnect.foldl (fun next pindex => setNext tree pindex none next) next)

def reorganizeFrom (pfork pindexBest pindexNew : ι) (st : ChainState ι Tx Peg) :
    Bool × ChainState ι Tx Peg :=
  let vDisconnect := tree.above pfork pindexBest
  let vConnect := (tree.above pfork pindexNew).reverse
  match allOk (disconnectStep env) vDisconnect st with
  | (false, st) => (false, st)
  | (true, st) =>
    match allOk (connectStep env) vConnect st with
    | (false, st) => (false, st)
    | (true, st) =>
      let st := st.writeHashBestChain pindexNew
      let st := { st with txdb := st.txdb.txnCommit (env.txnCommit pindexNew) }
      if env.txnCommit pindexNew then
        (true, { st with mem := { st.mem with next := relink tree vDisconnect vConnect st.mem.next } })
      else (false, st)

/-- `Reorganize`. Without a fork a null pointer of the index is met. -/
def reorganize (pindexBest pindexNew : ι) (st : ChainState ι Tx Peg) :
    Bool × ChainState ι Tx Peg :=
  match tree.findFork pindexBest pindexNew with
  | none => (false, st)
  | some pfork => reorganizeFrom tree env pfork pindexBest pindexNew st

def setBestChainInner (pindexNew : ι) (st : ChainState ι Tx Peg) : Bool × ChainState ι Tx Peg :=
  match connectBlock env pindexNew st with
  | (false, st) => (false, { st with txdb := st.txdb.txnAbort })
  | (true, st) =>
    let st := st.writeHashBestChain pindexNew
    let st := { st with txdb := st.txdb.txnCommit (env.txnCommit pindexNew) }
    if env.txnCommit pindexNew then
      (true, { st with mem := { st.mem with
        next := setNext tree pindexNew (some pindexNew) st.mem.next } })
    else (false, st)

/-- The blocks that are postponed, the newest first, and the block to reorganise to. The
first argument bounds the blocks before `pindexIntermediate`. -/
def postponeAux (nBestTrust : ℕ) : ℕ → ι → List ι × ι
  | 0, pindexIntermediate => ([], pindexIntermediate)
  | n + 1, pindexIntermediate =>
    match tree.prev pindexIntermediate with
    | none => ([], pindexIntermediate)
    | some pprev =>
      if nBestTrust < tree.nChainTrust pprev then
        let r := postponeAux nBestTrust n pprev
        (pindexIntermediate :: r.1, r.2)
      else ([], pindexIntermediate)

def postpone (pindexBest pindexNew : ι) : List ι × ι :=
  postponeAux tree (tree.nChainTrust pindexBest) (tree.height pindexNew) pindexNew

/-- One round of the loop over the postponed blocks, which ends at the first failure. -/
def connectSecondary (pindex : ι) (st : ChainState ι Tx Peg) : Bool × ChainState ι Tx Peg :=
  if env.readFromDisk pindex then
    setBestChainInner tree env pindex { st with txdb := st.txdb.txnBegin }
  else (false, st)

def ChainMemory.publish (mem : ChainMemory ι) (pindexNew : ι) : ChainMemory ι :=
  { mem with
    hashBestChain := some pindexNew
    pindexBest := some pindexNew
    nBestHeight := tree.height pindexNew
    nBestChainTrust := tree.nChainTrust pindexNew }

/-- The three ways to attach a block, up to the point where the new best block is published. -/
def attachBlock (pindexNew : ι) (st : ChainState ι Tx Peg) : Bool × ChainState ι Tx Peg :=
  if st.mem.pindexGenesisBlock = none ∧ pindexNew = tree.hashGenesisBlock then
    let txdb := (st.txdb.write fun v => { v with
      hashBestChain := some pindexNew, connected := [pindexNew] }).txnCommit (env.txnCommit pindexNew)
    if env.txnCommit pindexNew then
      (true, { st with txdb, mem := { st.mem with pindexGenesisBlock := some pindexNew } })
    else (false, { st with txdb })
  else if tree.prev pindexNew = st.mem.hashBestChain then setBestChainInner tree env pindexNew st
  else
    match st.mem.pindexBest with
    | none => (false, st)
    | some pindexBest =>
      let r := postpone tree pindexBest pindexNew
      match reorganize tree env pindexBest r.2 st with
      | (false, st) => (false, { st with txdb := st.txdb.txnAbort })
      | (true, st) => (true, (allOk (connectSecondary tree env) r.1.reverse st).2)

def setBestChain (pindexNew : ι) (st : ChainState ι Tx Peg) : Bool × ChainState ι Tx Peg :=
  match attachBlock tree env pindexNew { st with txdb := st.txdb.txnBegin } with
  | (false, st) => (false, st)
  | (true, st) => (true, { st with mem := st.mem.publish tree pindexNew })

end Model

end BitBay
