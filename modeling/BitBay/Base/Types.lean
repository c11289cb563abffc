import BitBay.Base.Text

/-!
# Transactions

The data of a transaction that the peg code reads. Amounts are unbounded
integers: the code keeps them in `int64_t`, and every statement is about amounts
whose sums do not wrap.
-/
namespace BitBay

abbrev UInt256 := BitVec 256

instance instLawfulBEqUInt256 : LawfulBEq UInt256 := inferInstance

/-- `uint320(hash, n)`, the key of an output in the fraction maps. -/
structure UInt320 where
  hash : UInt256
  n : ℕ
  deriving DecidableEq

abbrev CScript := List UInt8

structure COutPoint where
  hash : UInt256
  n : ℕ
  deriving DecidableEq

namespace COutPoint

def isNull (o : COutPoint) : Bool := o.hash = 0 ∧ o.n = 2 ^ 32 - 1

def fkey (o : COutPoint) : UInt320 := ⟨o.hash, o.n⟩

end COutPoint

structure CTxIn where
  prevout : COutPoint
  scriptSig : CScript := []
  nSequence : ℕ := 2 ^ 32 - 1
  deriving DecidableEq

structure CTxOut where
  nValue : ℤ
  scriptPubKey : CScript
  deriving DecidableEq

instance : Inhabited CTxOut := ⟨⟨-1, []⟩⟩

def CTxOut.isEmpty (o : CTxOut) : Bool := o.nValue = 0 ∧ o.scriptPubKey = []

structure CTransaction where
  nVersion : ℤ := 1
  nTime : ℕ := 0
  vin : List CTxIn
  vout : List CTxOut
  nLockTime : ℕ := 0
  deriving DecidableEq

namespace CTransaction

def isCoinBase (tx : CTransaction) : Bool :=
  tx.vin.length = 1 ∧ (tx.vin.head?.any fun i => i.prevout.isNull) ∧ tx.vout.length ≥ 1

def isCoinStake (tx : CTransaction) : Bool :=
  (tx.vin.head?.any fun i => !i.prevout.isNull) ∧ tx.vout.length ≥ 2 ∧
    (tx.vout.head?.any CTxOut.isEmpty)

/-- A mint has the two inputs `(0, 0)` and `(leaf, 0)`, and one output. -/
def isCoinMint (tx : CTransaction) : Bool :=
  match tx.vin, tx.vout with
  | [inp0, inp1], [_] =>
    tx.nVersion = 1 ∧ tx.nLockTime = 0 ∧ inp0.prevout = ⟨0, 0⟩ ∧ inp0.nSequence = 2 ^ 32 - 1 ∧
      inp1.prevout.n = 0 ∧ inp1.nSequence = 2 ^ 32 - 1
  | _, _ => false

end CTransaction

structure CBlock where
  hashPrevBlock : UInt256 := 0
  nTime : ℕ := 0
  vtx : List CTransaction
  deriving DecidableEq

def CBlock.isProofOfStake (block : CBlock) : Bool := block.vtx[1]?.any CTransaction.isCoinStake

abbrev MapPrevOut := UInt320 → Option CTxOut

end BitBay
