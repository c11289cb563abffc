import BitBay.Chain.ExchangeTx
import BitBay.Chain.FetchInputs
import BitBay.Peg.RatioLoops
import BitBay.Wallet.CoinsToUse

/-!
# Account maintenance

`accountmaintenance` joins the coins whose liquid columns are the most distorted, up to fifty of
them, into the four least distorted ones. Both are taken from one rated list, from its two ends.

The loop of the base coins counts down the variable of the other loop and asks for its own, so it
ends with the list only: every rated coin is a base coin, and a coin that is joined is spent a
second time.
-/
namespace BitBay

/-- What account maintenance takes from the node. Ratings are floating point numbers there, and the
fee fractions those of the next cycle. -/
structure MaintenanceEnv (R : Type) where
  ap : AddressParams
  getHash : CTransaction → UInt256
  pegdb : MapFractions
  nSupply : ℤ
  distortion : CFractions → CFractions → R
  feesTotal : CTransaction → ℤ
  nTime : ℕ

/-- The transaction that is reported, with the coins that it has been built from. -/
structure MaintenanceTx where
  vBaseCoins : List CCoinToUse
  vCoins : List CCoinToUse
  rawTx : CTransaction
  txhash : UInt256
  fee : ℤ

inductive MaintenanceResult
  | nothingTodo
  | failed
  | processed (m : MaintenanceTx)

section Maintenance

variable {R : Type} (env : MaintenanceEnv R)

def sortedCoins (coins : List CCoinToUse) : List CCoinToUse :=
  (CCoinToUse.setOf coins).mergeSort fun a b => !sortByAddress env.ap b a

/-- The liquid part of a coin, where the database has its fractions. -/
def coinLiquid (coin : CCoinToUse) : Option CFractions :=
  (readFractions env.pegdb coin.fkey (.value 0) true).map (·.highPart env.nSupply.toNat)

def availableLiquid (coin : CCoinToUse) : ℤ := ((coinLiquid env coin).map (·.total)).getD 0

def withAvailable (coin : CCoinToUse) : CCoinToUse :=
  { coin with nAvailableValue := availableLiquid env coin }

def frAllLiquid (coins : List CCoinToUse) : CFractions :=
  (coins.filterMap (coinLiquid env)).foldl (· + ·) .zeroStd

/-- The coins by their distortion, the less distorted ones first. Coins of one rating stay in the
order in which they are inserted. -/
def ratedOutputs [LinearOrder R] (coins : List CCoinToUse) : List CCoinToUse :=
  let rated := coins.filterMap fun coin => (coinLiquid env coin).map fun frOut =>
    (env.distortion frOut (frAllLiquid env coins), coin)
  (rated.mergeSort fun a b => decide (a.1 ≤ b.1)).map (·.2)

/-- The loop over the most distorted coins: the counter behind it, and the coins. -/
def joinLoop : ℤ → List CCoinToUse → ℤ × List CCoinToUse
  | nCountInputs, [] => (nCountInputs, [])
  | nCountInputs, out :: rest =>
    if nCountInputs - 1 = 0 then (0, [withAvailable env out])
    else
      let r := joinLoop (nCountInputs - 1) rest
      (r.1, withAvailable env out :: r.2)

/-- The loop over the less distorted coins. It decrements the counter of the other loop. -/
def baseLoop (nCountOutputs : ℤ) : ℤ → List CCoinToUse → List CCoinToUse
  | _, [] => []
  | nCountInputs, out :: rest =>
    withAvailable env out ::
      if nCountOutputs = 0 then [] else baseLoop nCountOutputs (nCountInputs - 1) rest

def changeOutputs (vCoins : List CCoinToUse) (nLiquidToJoin : ℤ) : List CTxOut :=
  (inputAddresses env.ap vCoins).filterMap fun address =>
    let nValueChange :=
      inputValuesAt env.ap vCoins address - (takeLiquidAt env.ap vCoins nLiquidToJoin).1 address
    if nValueChange = 0 then none else some ⟨nValueChange, CScript.setDestination address⟩

/-- The output of a base coin. The division is one of unsigned 64 bit numbers. -/
def baseOutput (nLiquidToJoin : ℤ) (nBaseCoins : ℕ) (baseCoin : CCoinToUse) : CTxOut where
  nValue := wrap64 (baseCoin.nValue + nLiquidToJoin % 2 ^ 64 / nBaseCoins)
  scriptPubKey := baseCoin.scriptPubKey

def takeFee (nFeeNetwork : ℤ) : List CTxOut → List CTxOut
  | [] => []
  | out :: rest => { out with nValue := out.nValue - nFeeNetwork } :: rest

def buildMaintenance (vBaseCoins vCoins : List CCoinToUse) (nLiquidToJoin : ℤ) : CTransaction :=
  let vout := vBaseCoins.map (baseOutput nLiquidToJoin vBaseCoins.length) ++
    (changeOutputs env vCoins nLiquidToJoin ++
      [⟨1, pushNotaryText (maintenanceNotary env.ap.Hash [])⟩])
  let vin := vBaseCoins.map CCoinToUse.txIn ++ vCoins.map CCoinToUse.txIn
  let nFeeNetwork := 10000 * (vin.length + vout.length)
  { nTime := env.nTime, vin, vout := takeFee nFeeNetwork vout }

/-- `accountmaintenance` on the available coins, in the order of the map that has them. -/
def accountmaintenance [LinearOrder R] (coins : List CCoinToUse) : MaintenanceResult :=
  let mapAllOutputs := coins.filter fun coin => 1000000 ≤ coin.nValue
  if mapAllOutputs.length < 5 then .nothingTodo
  else
    let rated := ratedOutputs env mapAllOutputs
    let (nCountInputs, joined) := joinLoop env (min 50 ((rated.length : ℤ) - 4)) rated.reverse
    let nLiquidToJoin := (joined.map (·.nAvailableValue)).sum
    let base := baseLoop env 4 nCountInputs rated
    if joined = [] then .failed
    else
      let vBaseCoins := sortedCoins env base
      let vCoins := sortedCoins env joined
      let rawTx := buildMaintenance env vBaseCoins vCoins nLiquidToJoin
      .processed { vBaseCoins, vCoins, rawTx, txhash := env.getHash rawTx, fee := env.feesTotal rawTx }

/-- The transaction can be spent: the outpoints are distinct, the base coins few and not joined,
the outputs positive, and the fee is what the outputs leave of the inputs. -/
structure MaintenanceTx.Spendable (m : MaintenanceTx) : Prop where
  distinct : (m.rawTx.vin.map (·.prevout)).Nodup
  few : m.vBaseCoins.length ≤ 4
  apart : ∀ base ∈ m.vBaseCoins, ∀ coin ∈ m.vCoins, base.fkey ≠ coin.fkey
  positive : ∀ out ∈ m.rawTx.vout, 0 < out.nValue
  fee : ((m.vBaseCoins ++ m.vCoins).map (·.nValue)).sum -
    (m.rawTx.vout.map (·.nValue)).sum = m.fee

/-! ## The loops -/

variable {env}

/-- The loop of the base coins takes all of the list. -/
theorem baseLoop_eq {nCountOutputs : ℤ} (h : nCountOutputs ≠ 0) (nCountInputs : ℤ)
    (l : List CCoinToUse) : baseLoop env nCountOutputs nCountInputs l = l.map (withAvailable env) := by
  induction l generalizing nCountInputs with
  | nil => rfl
  | cons out rest ih => rw [baseLoop, if_neg h, ih, List.map_cons]

theorem joinLoop_subset (n : ℤ) (l : List CCoinToUse) :
    (joinLoop env n l).2 ⊆ l.map (withAvailable env) := by
  induction l generalizing n with
  | nil => exact List.Subset.refl _
  | cons out rest ih =>
    rw [joinLoop, List.map_cons]
    split_ifs
    · exact List.cons_subset_cons _ (List.nil_subset _)
    · exact List.cons_subset_cons _ (ih _)

/-- The loop takes at least one coin of a list that has some. -/
theorem joinLoop_ne_nil {l : List CCoinToUse} (h : l ≠ []) (n : ℤ) : (joinLoop env n l).2 ≠ [] := by
  cases l with
  | nil => exact absurd rfl h
  | cons out rest =>
    rw [joinLoop]
    split_ifs <;> exact List.cons_ne_nil _ _

theorem mem_sortedCoins {coins : List CCoinToUse} {coin : CCoinToUse} :
    coin ∈ sortedCoins env coins ↔ coin ∈ coins := by
  rw [sortedCoins, CCoinToUse.setOf, List.mem_mergeSort, List.mem_mergeSort, List.mem_dedup]

/-- The rated coins are the ones with fractions in the database. -/
theorem mem_ratedOutputs [LinearOrder R] {coins : List CCoinToUse} {coin : CCoinToUse} :
    coin ∈ ratedOutputs env coins ↔ coin ∈ coins ∧ (coinLiquid env coin).isSome := by
  simp only [ratedOutputs, List.mem_map, List.mem_mergeSort, List.mem_filterMap,
    Option.map_eq_some_iff]
  constructor
  · rintro ⟨_, ⟨out, hout, frOut, hliquid, rfl⟩, rfl⟩
    exact ⟨hout, by simp [hliquid]⟩
  · rintro ⟨hcoin, hsome⟩
    obtain ⟨frOut, hliquid⟩ := Option.isSome_iff_exists.mp hsome
    exact ⟨_, ⟨coin, hcoin, frOut, hliquid, rfl⟩, rfl⟩

/-! ## The transaction -/

theorem buildMaintenance_prevouts (vBaseCoins vCoins : List CCoinToUse) (nLiquidToJoin : ℤ) :
    (buildMaintenance env vBaseCoins vCoins nLiquidToJoin).vin.map (·.prevout) =
      vBaseCoins.map (·.txIn.prevout) ++ vCoins.map (·.txIn.prevout) := by
  simp [buildMaintenance, Function.comp_def]

structure MaintenanceBuilt [LinearOrder R] (env : MaintenanceEnv R) (m : MaintenanceTx) : Prop where
  joined_ne_nil : m.vCoins ≠ []
  joined_base : ∀ coin ∈ m.vCoins, coin ∈ m.vBaseCoins
  prevouts : m.rawTx.vin.map (·.prevout) =
    m.vBaseCoins.map (·.txIn.prevout) ++ m.vCoins.map (·.txIn.prevout)

variable [LinearOrder R]

/-- Every joined coin is a base coin too. -/
theorem accountmaintenance_built {coins : List CCoinToUse} {m : MaintenanceTx}
    (h : accountmaintenance env coins = .processed m) : MaintenanceBuilt env m := by
  simp only [accountmaintenance] at h
  split at h
  · cases h
  · set rated := ratedOutputs env (coins.filter fun coin => 1000000 ≤ coin.nValue)
    set joined := joinLoop env (min 50 ((rated.length : ℤ) - 4)) rated.reverse with hjoined
    split at h
    · cases h
    · rename_i hne
      obtain rfl := MaintenanceResult.processed.inj h
      refine ⟨?_, ?_, buildMaintenance_prevouts _ _ _⟩
      · obtain ⟨coin, hcoin⟩ := List.exists_mem_of_ne_nil _ hne
        exact List.ne_nil_of_mem (mem_sortedCoins.mpr hcoin)
      · intro coin hcoin
        have htaken : coin ∈ rated.reverse.map (withAvailable env) :=
          joinLoop_subset _ _ (mem_sortedCoins.mp hcoin)
        have hrated : coin ∈ rated.map (withAvailable env) := by simpa using htaken
        have hbase : baseLoop env 4 joined.1 rated = rated.map (withAvailable env) :=
          baseLoop_eq (by decide) _ _
        exact mem_sortedCoins.mpr (hbase ▸ hrated)

/-- The outpoint of a joined coin stands in the transaction twice. -/
theorem MaintenanceBuilt.spends_twice {m : MaintenanceTx} (h : MaintenanceBuilt env m) :
    ¬ (m.rawTx.vin.map (·.prevout)).Nodup := by
  intro hdistinct
  obtain ⟨coin, hcoin⟩ := List.exists_mem_of_ne_nil _ h.joined_ne_nil
  rw [h.prevouts, List.nodup_append] at hdistinct
  have hbase : coin.txIn.prevout ∈ m.vBaseCoins.map (·.txIn.prevout) :=
    List.mem_map_of_mem (h.joined_base coin hcoin)
  exact hdistinct.2.2 _ hbase _ (List.mem_map_of_mem hcoin) rfl

/-- Maintenance is processed for five coins of a million, one of them with fractions. -/
theorem accountmaintenance_processed {coins : List CCoinToUse} {coin : CCoinToUse}
    (hfive : 5 ≤ (coins.filter fun coin => 1000000 ≤ coin.nValue).length)
    (hcoin : coin ∈ coins) (hvalue : 1000000 ≤ coin.nValue)
    (hliquid : (coinLiquid env coin).isSome) :
    ∃ m, accountmaintenance env coins = .processed m := by
  have hmem : coin ∈ ratedOutputs env (coins.filter fun coin => 1000000 ≤ coin.nValue) := by
    refine mem_ratedOutputs.mpr ⟨List.mem_filter.mpr ⟨hcoin, ?_⟩, hliquid⟩
    simpa using hvalue
  simp only [accountmaintenance]
  rw [if_neg (by omega), if_neg (joinLoop_ne_nil
    (List.reverse_ne_nil_iff.mpr (List.ne_nil_of_mem hmem)) _)]
  exact ⟨_, rfl⟩

/-- No transaction of account maintenance can be spent. -/
theorem maintenance_never_spendable {coins : List CCoinToUse} {m : MaintenanceTx}
    (h : accountmaintenance env coins = .processed m) : ¬ m.Spendable :=
  fun hspendable => (accountmaintenance_built h).spends_twice hspendable.distinct

end Maintenance

theorem evenPrefixes_ne : (25 : UInt8) ≠ 85 := by decide

/-- A wallet whose coins all have the fractions of a million, so that they are rated the same. -/
def evenWallet : MaintenanceEnv ℤ where
  ap := {
    pubkeyAddress := 25
    scriptAddress := 85
    Hash _ := 0
    Hash160 _ := 0
    prefixes_ne := evenPrefixes_ne }
  getHash _ := 0
  pegdb _ := some (.value 1000000)
  nSupply := 0
  distortion _ _ := 0
  feesTotal tx := 10000 * (tx.vin.length + tx.vout.length)
  nTime := 0

def millionCoin (i : ℕ) : CCoinToUse where
  txhash := 1
  i := i
  nValue := 1000000
  scriptPubKey := CScript.setDestination (.keyID 1)

def fiveCoins : List CCoinToUse := (List.range 5).map millionCoin

theorem fiveCoins_processed : ∃ m, accountmaintenance evenWallet fiveCoins = .processed m := by
  have hcoin : millionCoin 0 ∈ fiveCoins := List.mem_map_of_mem (by decide)
  exact accountmaintenance_processed (by decide) hcoin (by decide) (by rfl)

theorem fiveCoins_unspendable :
    ∃ m, accountmaintenance evenWallet fiveCoins = .processed m ∧ ¬ m.Spendable := by
  obtain ⟨m, hm⟩ := fiveCoins_processed
  exact ⟨m, hm, maintenance_never_spendable hm⟩

/-- Maintenance of five coins is processed, and spends an outpoint twice. -/
theorem joined_coin_spent_twice :
    ¬ ∀ m, accountmaintenance evenWallet fiveCoins = .processed m → m.Spendable := by
  intro hspendable
  obtain ⟨m, hm⟩ := fiveCoins_processed
  exact (accountmaintenance_built hm).spends_twice (hspendable m hm).distinct

end BitBay
