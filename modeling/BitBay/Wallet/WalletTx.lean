import BitBay.Chain.ConnectInputs
import BitBay.Chain.SupplyIndex

/-!
# Transactions of the wallet

The wallet keeps every transaction that involves it, which of its outputs are spent, their
fractions, and sums of its coins that are calculated once and kept until something marks them
dirty. A cached sum is `none` while its flag is down.
-/
namespace BitBay

/-- Fractions of an output, or its value until they are read. Reading allocates them, which
nothing tells from reading the value. -/
structure CFractionsRef where
  nValue : ℤ := 0
  ptr : Option CFractions := none

namespace CFractionsRef

/-- The copy constructor. It leaves `nValue` behind. -/
def copy (cp : CFractionsRef) : CFractionsRef := { ptr := cp.ptr }

def ref (r : CFractionsRef) : CFractions :=
  r.ptr.getD (CFractions.toStd { f := Function.update 0 0 r.nValue })

def unRef (r : CFractionsRef) : CFractionsRef := { r with ptr := none }

def nFlags (r : CFractionsRef) : Flags := r.ptr.elim {} (·.nFlags)

def nLockTime (r : CFractionsRef) : ℕ := r.ptr.elim 0 (·.nLockTime)

/-- Frozen, voluntarily or not, at the time of a block. -/
def isFrozen (r : CFractionsRef) (nLastBlockTime : ℕ) : Bool :=
  (r.nFlags.notaryF || r.nFlags.notaryV) && decide (nLastBlockTime ≤ r.nLockTime)

end CFractionsRef

structure CFrozenCoinInfo where
  txhash : UInt256
  n : ℕ
  nValue : ℤ
  nFlags : Flags
  nLockTime : ℕ
  deriving DecidableEq

structure CWalletTx where
  tx : CTransaction
  /-- The block of the transaction, zero for none. -/
  hashBlock : UInt256 := 0
  fFromMe : Bool := false
  vfSpent : List Bool := []
  vOutFractions : List CFractionsRef := []
  nAvailableCreditCached : Option ℤ := none
  nLastTimeAvailableFrozenCached : ℕ := 0
  nAvailableFrozenCached : ℤ := 0
  vFrozenCoinInfoCached : List CFrozenCoinInfo := []
  nAvailableReserveCached : Option ℤ := none
  nAvailableLiquidityCached : Option ℤ := none

namespace CWalletTx

def dropCaches (wtx : CWalletTx) : CWalletTx :=
  { wtx with
    nAvailableCreditCached := none
    nLastTimeAvailableFrozenCached := 0
    nAvailableReserveCached := none
    nAvailableLiquidityCached := none }

def markDirty (wtx : CWalletTx) : CWalletTx := wtx.dropCaches

def resizedSpent (wtx : CWalletTx) : List Bool :=
  (List.range wtx.tx.vout.length).map fun i => wtx.vfSpent.getD i false

def isSpent (wtx : CWalletTx) (nOut : ℕ) : Bool := wtx.vfSpent.getD nOut false

/-- Set the spent flag of an output to a value; `none` when it throws. -/
def setSpent (wtx : CWalletTx) (nOut : ℕ) (fSpent : Bool) : Option CWalletTx :=
  if wtx.tx.vout.length ≤ nOut then none
  else
    let wtx := { wtx with vfSpent := wtx.resizedSpent }
    if wtx.isSpent nOut = fSpent then some wtx
    else some ({ wtx with vfSpent := wtx.vfSpent.set nOut fSpent }).dropCaches

def markSpent (wtx : CWalletTx) (nOut : ℕ) : Option CWalletTx := wtx.setSpent nOut true

def markUnspent (wtx : CWalletTx) (nOut : ℕ) : Option CWalletTx := wtx.setSpent nOut false

def updateSpent (wtx : CWalletTx) (vfNewSpent : List Bool) : CWalletTx × Bool :=
  let merged := wtx.vfSpent.zipIdx.map fun f => f.1 || vfNewSpent.getD f.2 false
  if merged = wtx.vfSpent then (wtx, false)
  else (({ wtx with vfSpent := merged }).dropCaches, true)

def copied (wtx : CWalletTx) : CWalletTx :=
  { wtx with vOutFractions := wtx.vOutFractions.map CFractionsRef.copy }

def fractionsAt (wtx : CWalletTx) (n : ℤ) : Option CFractionsRef :=
  if 0 ≤ n then wtx.vOutFractions[n.toNat]? else none

end CWalletTx

end BitBay
