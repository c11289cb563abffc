import BitBay.Wallet.Destination

/-!
# Coins to use

The coins that a transaction is to spend, sorted by address, and what the transaction has at
each address: the value that comes in and the liquid value that is taken of it. Withdraws of
an exchange and account maintenance are built from them alike.
-/
namespace BitBay

structure CCoinToUse where
  txhash : UInt256
  i : ℕ
  nValue : ℤ
  nAvailableValue : ℤ := 0
  scriptPubKey : CScript
  nCycle : ℤ := 0
  deriving DecidableEq

namespace CCoinToUse

def fkey (coin : CCoinToUse) : UInt320 := ⟨coin.txhash, coin.i⟩

def before (a b : CCoinToUse) : Bool :=
  a.txhash < b.txhash ∨
  a.txhash = b.txhash ∧ a.i < b.i ∨
  a.txhash = b.txhash ∧ a.i = b.i ∧ a.nValue < b.nValue ∨
  a.txhash = b.txhash ∧ a.i = b.i ∧ a.nValue = b.nValue ∧ a.nAvailableValue < b.nAvailableValue ∨
  a.txhash = b.txhash ∧ a.i = b.i ∧ a.nValue = b.nValue ∧ a.nAvailableValue = b.nAvailableValue ∧
    a.scriptPubKey < b.scriptPubKey ∨
  a.txhash = b.txhash ∧ a.i = b.i ∧ a.nValue = b.nValue ∧ a.nAvailableValue = b.nAvailableValue ∧
    a.scriptPubKey = b.scriptPubKey ∧ a.nCycle < b.nCycle

def setOf (coins : List CCoinToUse) : List CCoinToUse :=
  coins.dedup.mergeSort fun a b => !b.before a

/-- The input that spends the coin. Its index is stored in 32 bits. -/
def txIn (coin : CCoinToUse) : CTxIn := { prevout := ⟨coin.txhash, coin.i % 2 ^ 32⟩ }

end CCoinToUse

abbrev ValuesAt := CTxDestination → ℤ

def ValuesAt.add (values : ValuesAt) (dest : CTxDestination) (v : ℤ) : ValuesAt :=
  Function.update values dest (values dest + v)

section Coins

variable (ap : AddressParams)

/-- `sortByAddress`: coins without an address are first, by their scripts. -/
def sortByAddress (lhs rhs : CCoinToUse) : Bool :=
  match ap.extractDestination lhs.scriptPubKey, ap.extractDestination rhs.scriptPubKey with
  | some lhs_dst, some rhs_dst => ap.toString lhs_dst < ap.toString rhs_dst
  | none, none => lhs.scriptPubKey < rhs.scriptPubKey
  | none, some _ => true
  | some _, none => false

def sortByDestination (lhs rhs : CTxDestination) : Bool := ap.toString lhs < ap.toString rhs

def inputAddresses (vCoins : List CCoinToUse) : List CTxDestination :=
  (vCoins.filterMap fun coin => ap.extractDestination coin.scriptPubKey).dedup.mergeSort
    fun a b => !sortByDestination ap b a

def valuesAt (value : CCoinToUse → ℤ) (vCoins : List CCoinToUse) : ValuesAt :=
  vCoins.foldl (fun values coin =>
    match ap.extractDestination coin.scriptPubKey with
    | none => values
    | some address => values.add address (value coin)) 0

def inputValuesAt (vCoins : List CCoinToUse) : ValuesAt := valuesAt ap (·.nValue) vCoins

def availableValuesAt (vCoins : List CCoinToUse) : ValuesAt :=
  valuesAt ap (·.nAvailableValue) vCoins

/-- The values to take from each address, where liquidity is common, with what is left. -/
def takeLiquidAt (vCoins : List CCoinToUse) (nValue : ℤ) : ValuesAt × ℤ :=
  vCoins.foldl (fun s coin =>
    match ap.extractDestination coin.scriptPubKey with
    | none => s
    | some address =>
      let nValueTake := if s.2 < coin.nAvailableValue then s.2 else coin.nAvailableValue
      (s.1.add address nValueTake, s.2 - nValueTake))
    (0, nValue)

end Coins

end BitBay
