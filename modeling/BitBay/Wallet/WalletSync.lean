import BitBay.Library.Run
import BitBay.Wallet.WalletTx

/-!
# Notifications of the wallet

The node tells the wallet of every transaction that enters the memory pool or a block, and of
the transactions of a disconnected block. The wallet keeps those that involve it, merges what
it is told again, and keeps the spent flags: a transaction marks the own outputs that it
spends, and a transaction in a block clears the flags of its own outputs.

Here are the calls on `mapWallet`; `none` is an exception. Times, the order of transactions,
merkle branches and the file of the wallet are left out.
-/
namespace BitBay

/-- What the wallet calls that is not its own: hashes, keys and the dust limit. -/
structure WalletParams where
  getHash : CTransaction → UInt256
  isMine : CTxOut → Bool
  nMinimumInputValue : ℤ := 0

abbrev MapWallet := UInt256 → Option CWalletTx

namespace CWalletTx

def merge (wtx wtxIn : CWalletTx) : CWalletTx :=
  let wtx := if wtxIn.hashBlock ≠ 0 ∧ wtxIn.hashBlock ≠ wtx.hashBlock then
    { wtx with hashBlock := wtxIn.hashBlock } else wtx
  let wtx := if wtxIn.fFromMe then { wtx with fFromMe := true } else wtx
  (wtx.updateSpent wtxIn.vfSpent).1

end CWalletTx

namespace MapWallet

variable (net : WalletParams) (mapWallet : MapWallet)

def put (hash : UInt256) (wtx : CWalletTx) : MapWallet := Function.update mapWallet hash (some wtx)

/-- The output that an input spends, if the wallet has its transaction and it is own. -/
def ownOutput (txin : CTxIn) : Option CTxOut := do
  let prev ← mapWallet txin.prevout.hash
  let txout ← prev.tx.vout[txin.prevout.n]?
  if net.isMine txout then some txout else none

/-- `GetDebit` of a transaction. Its values are in the money range. -/
def getDebit (tx : CTransaction) : ℤ :=
  (tx.vin.map fun txin => ((mapWallet.ownOutput net txin).map CTxOut.nValue).getD 0).sum

def isFromMe (tx : CTransaction) : Bool := 0 < mapWallet.getDebit net tx

def isMineTx (tx : CTransaction) : Bool :=
  tx.vout.any fun txout => net.isMine txout && decide (net.nMinimumInputValue ≤ txout.nValue)

def markInput (mapWallet : MapWallet) (txin : CTxIn) : Option MapWallet :=
  match mapWallet txin.prevout.hash with
  | none => some mapWallet
  | some wtx =>
    match wtx.tx.vout[txin.prevout.n]? with
    | none => some mapWallet
    | some txout =>
      if wtx.isSpent txin.prevout.n = false ∧ net.isMine txout then
        (wtx.markSpent txin.prevout.n).map (mapWallet.put txin.prevout.hash)
      else some mapWallet

/-- Clear the flags of the own outputs of a transaction, which the wallet has. -/
def unmarkOutputs (tx : CTransaction) : Option MapWallet := do
  let wtx ← mapWallet (net.getHash tx)
  let wtx ← tx.vout.zipIdx.foldlM (fun wtx txout =>
    if net.isMine txout.1 then wtx.markUnspent txout.2 else some wtx) wtx
  some (mapWallet.put (net.getHash tx) wtx)

def walletUpdateSpent (tx : CTransaction) (fBlock : Bool) : Option MapWallet := do
  let mapWallet ← tx.vin.foldlM (markInput net) mapWallet
  if fBlock then mapWallet.unmarkOutputs net tx else some mapWallet

def addToWallet (wtxIn : CWalletTx) : Option MapWallet :=
  let hash := net.getHash wtxIn.tx
  let wtx := match mapWallet hash with
    | none => wtxIn.copied.markDirty
    | some wtx => wtx.markDirty.merge wtxIn
  (mapWallet.put hash wtx).walletUpdateSpent net wtx.tx (wtxIn.hashBlock ≠ 0)

/-- The transaction as a notification passes it on, with the fractions of its outputs. -/
def notified (tx : CTransaction) (hashBlock : UInt256) (mapOutputFractions : MapFractions) :
    CWalletTx where
  tx
  hashBlock
  vOutFractions := tx.vout.zipIdx.map fun txout =>
    { nValue := txout.1.nValue, ptr := mapOutputFractions ⟨net.getHash tx, txout.2⟩ }

/-- `AddToWalletIfInvolvingMe`, which updates what is there. Without a block the hash is zero. -/
def addIfInvolvingMe (tx : CTransaction) (hashBlock : UInt256)
    (mapOutputFractions : MapFractions) : Option MapWallet :=
  if (mapWallet (net.getHash tx)).isSome ∨ isMineTx net tx ∨ mapWallet.isFromMe net tx then
    mapWallet.addToWallet net (notified net tx hashBlock mapOutputFractions)
  else mapWallet.walletUpdateSpent net tx false

def unRefInput (mapWallet : MapWallet) (txin : CTxIn) : MapWallet :=
  match mapWallet txin.prevout.hash with
  | none => mapWallet
  | some wtx =>
    if wtx.vfSpent.length ≤ txin.prevout.n then mapWallet
    else mapWallet.put txin.prevout.hash
      { wtx with vOutFractions := wtx.vOutFractions.modify txin.prevout.n CFractionsRef.unRef }

/-- `CleanFractionsOfSpentTxouts`, for the block that is `MaxReorganizationDepth` below. -/
def cleanFractions (oldBlock : List CTransaction) : MapWallet :=
  oldBlock.foldl (fun mapWallet tx => tx.vin.foldl unRefInput mapWallet) mapWallet

def unmarkInput (mapWallet : MapWallet) (txin : CTxIn) : Option MapWallet :=
  match mapWallet txin.prevout.hash with
  | none => some mapWallet
  | some prev =>
    match prev.tx.vout[txin.prevout.n]? with
    | none => some mapWallet
    | some txout =>
      if net.isMine txout then
        (prev.markUnspent txin.prevout.n).map (mapWallet.put txin.prevout.hash)
      else some mapWallet

def disableTransaction (tx : CTransaction) : Option MapWallet :=
  if tx.isCoinStake ∧ mapWallet.isFromMe net tx then tx.vin.foldlM (unmarkInput net) mapWallet
  else some mapWallet

/-- `SyncTransaction` of a transaction that is connected, or accepted to the pool without a
block. `oldBlock` is the block whose spent outputs are cleaned. -/
def syncConnected (tx : CTransaction) (hashBlock : UInt256) (mapOutputFractions : MapFractions)
    (oldBlock : List CTransaction) : Option MapWallet := do
  let mapWallet ← mapWallet.addIfInvolvingMe net tx hashBlock mapOutputFractions
  some (if tx.isCoinStake then mapWallet.cleanFractions oldBlock else mapWallet)

def syncDisconnected (tx : CTransaction) : Option MapWallet :=
  if tx.isCoinStake ∧ mapWallet.isFromMe net tx then mapWallet.disableTransaction net tx
  else some mapWallet

/-- Mark what a new transaction of the wallet spends. A transaction that is missing is put into
the wallet without outputs, so that the mark throws. -/
def markCommitted (mapWallet : MapWallet) (txin : CTxIn) : Option MapWallet :=
  let coin := (mapWallet txin.prevout.hash).getD { tx := { vin := [], vout := [] } }
  (coin.markDirty.markSpent txin.prevout.n).map (mapWallet.put txin.prevout.hash)

/-- `CommitTransaction`, until the transaction is broadcast. -/
def commitTransaction (wtxNew : CWalletTx) : Option MapWallet := do
  let mapWallet ← mapWallet.addToWallet net wtxNew
  wtxNew.tx.vin.foldlM markCommitted mapWallet

end MapWallet

end BitBay
