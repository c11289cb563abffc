import BitBay.Bridge.Mint
import BitBay.Chain.SupplyIndex
import Mathlib.Data.FinEnum

/-!
# Pools of the bridges in a block

Before the transactions of a block, the pool of every registered bridge is taken over from
the record of the block below, and at the start of a bridge cycle the coins that were burned
for it are added. The pools are kept among the changes of the block, under the hash of the
bridge and the height.
-/
namespace BitBay

structure BridgeEntry where
  hash : UInt256
  pegSteps : ℤ
  microSteps : ℤ
  deriving DecidableEq

structure BurnBlock where
  /-- The map of bridges, when the block starts a peg cycle. -/
  bridges : Option (List BridgeEntry)
  /-- `ReadBlockBurnsToBridge`: the outputs that were burned for a bridge; `none` when a
  record does not have three parts. -/
  burns : UInt256 → Option (List UInt320)

structure BurnState where
  bridges : List BridgeEntry := []
  bridge_hashes : List UInt256 := []
  bridges_burn_fractions : UInt256 → Option CFractions := fun _ => none
  mapQueuedFractionsChanges : MapFractions

section Model

variable (votes : VoteParams) (nBridgeInterval : ℕ) (pegdb : MapFractions) (nHeight : ℕ)

def fetchBridgePool (queue : MapFractions) (brhash : UInt256) : Option MapFractions :=
  match readFractions pegdb ⟨brhash, nHeight - 1⟩ {} false with
  | none => none
  | some fractions => some (Function.update queue ⟨brhash, nHeight⟩ (some fractions.toStd))

def fetchBridgePoolsFractions (bridges : List UInt256) (queue : MapFractions) :
    Option MapFractions :=
  if nHeight + 1 < votes.nPegStartHeight then some queue
  else bridges.foldlM (fetchBridgePool pegdb nHeight) queue

/-- A bridge that the cycle did not have yet starts with an empty pool. -/
def openBridgePool (st : BurnState) (bridge : BridgeEntry) : BurnState :=
  if bridge.hash ∈ st.bridge_hashes then st
  else
    { st with
      bridge_hashes := st.bridge_hashes ++ [bridge.hash]
      mapQueuedFractionsChanges :=
        if (st.mapQueuedFractionsChanges ⟨bridge.hash, nHeight⟩).isSome then
          st.mapQueuedFractionsChanges
        else Function.update st.mapQueuedFractionsChanges ⟨bridge.hash, nHeight⟩ (some {}) }

def readBridges (st : BurnState) (bridges : List BridgeEntry) : BurnState :=
  let merged := bridges ++ st.bridges.filter fun old => ∀ new ∈ bridges, new.hash ≠ old.hash
  merged.foldl (openBridgePool nHeight) { st with bridges := merged }

def addBurn (brhash : UInt256) (st : BurnState) (fkey : UInt320) : Option BurnState :=
  match readFractions pegdb fkey {} true with
  | none => none
  | some fractions => some { st with
      bridges_burn_fractions := Function.update st.bridges_burn_fractions brhash
        (some ((st.bridges_burn_fractions brhash).getD {} + fractions.toStd)) }

/-- The burns of a block for one bridge; wrong steps are passed over. -/
def addBridgeBurns (block : BurnBlock) (st : BurnState) (bridge : BridgeEntry) : Option BurnState :=
  if bridge.pegSteps < 1 ∨ bridge.microSteps < 1 then some st
  else
    match block.burns bridge.hash with
    | none => none
    | some txoutids => txoutids.foldlM (addBurn pegdb bridge.hash) st

def addBlockBurns (st : BurnState) (block : BurnBlock) : Option BurnState :=
  let st := (block.bridges.map (readBridges nHeight st)).getD st
  st.bridges.foldlM (addBridgeBurns pegdb block) st

def transitBurns (burned : UInt256 → Option CFractions) (queue : MapFractions) (brhash : UInt256) :
    Option MapFractions :=
  match queue ⟨brhash, nHeight⟩ with
  | none => none
  | some fractions =>
    let pool := (burned brhash).elim fractions.toStd (fractions.toStd + ·)
    some (Function.update queue ⟨brhash, nHeight⟩ (some pool))

def collectBurns (cycle : List BurnBlock) (queue : MapFractions) : Option BurnState :=
  cycle.foldlM (addBlockBurns pegdb nHeight) { mapQueuedFractionsChanges := queue }

/-- `ConnectBridgeCycleBurns`, up to the leaves and receipts that it writes for the other
side. -/
def connectBridgeCycleBurns (cycle : List BurnBlock) (queue : MapFractions) :
    Option MapFractions :=
  if nHeight + 1 < votes.nPegStartHeight ∨ nHeight % nBridgeInterval ≠ 0 then some queue
  else do
    let st ← collectBurns pegdb nHeight cycle queue
    st.bridge_hashes.foldlM (transitBurns nHeight st.bridges_burn_fractions)
      st.mapQueuedFractionsChanges

end Model

end BitBay
