import BitBay.Peg.RatioLoops
import BitBay.Wallet.WalletTx

/-!
# Coin selection

`SelectCoinsMinConf` looks for coins whose reserve or liquid parts add up to a target. An exact
coin ends the search. Of the others it keeps those below the target and a margin, and the
smallest of the rest; a randomised search then looks for a subset of the former that passes
the target by little.

What is left to chance is in `Draws`: the order after the shuffle, the order that the sort
gives to coins of one value, and the random bits. A pointer to a transaction of the wallet is
its hash. Sums of amounts wrap as `int64_t` does.
-/
namespace BitBay

inductive PegTxType
  | sendReserve
  | sendLiquidity
  | freezeReserve
  | freezeLiquidity
  deriving DecidableEq

structure COutput where
  tx : UInt256
  i : ℕ
  nDepth : ℤ
  fSpendable : Bool
  deriving DecidableEq

structure CSelectedCoin where
  tx : UInt256
  i : ℕ
  nAvailableValue : ℤ
  deriving DecidableEq

def CENT : ℤ := 1000000

def int64Max : ℤ := 2 ^ 63 - 1

structure CoinView where
  mapWallet : UInt256 → CWalletTx
  isFromMe : CWalletTx → Bool
  nPegSupplyIndex : ℕ

structure CoinRequest where
  txType : PegTxType
  nTargetValue : ℤ
  nSpendTime : ℕ
  nConfMine : ℤ
  nConfTheirs : ℤ

/-- Every outcome of the shuffle, of the sort and of the random bits. Bits are told apart by
the call, the repetition and the coin they are drawn for. -/
structure Draws where
  shuffle : List COutput → List COutput
  shuffle_perm : ∀ vCoins, (shuffle vCoins).Perm vCoins
  sort : List (ℤ × CSelectedCoin) → List (ℤ × CSelectedCoin)
  sort_perm : ∀ vValue, (sort vValue).Perm vValue
  sort_descending : ∀ vValue, (sort vValue).Pairwise fun t1 t2 => t2.1 ≤ t1.1
  insecure_rand : ℕ → ℕ → ℕ → Bool

/-! ## The subset search -/

structure SubsetSearch (n : ℕ) where
  vfIncluded : Fin n → Bool
  nTotal : ℤ
  fReachedTarget : Bool
  vfBest : Fin n → Bool
  nBest : ℤ

namespace SubsetSearch

variable {n : ℕ} (vValue : Fin n → ℤ) (nTargetValue : ℤ)

/-- One coin of a pass. A subset that reaches the target is compared with the best one, then
the coin is taken out again. -/
def visit (s : SubsetSearch n) (take : Bool) (i : Fin n) : SubsetSearch n :=
  if take then
    let nTotal := wrap64 (s.nTotal + vValue i)
    let vfIncluded := Function.update s.vfIncluded i true
    if nTargetValue ≤ nTotal then
      { vfIncluded := Function.update vfIncluded i false
        nTotal := wrap64 (nTotal - vValue i)
        fReachedTarget := true
        vfBest := if nTotal < s.nBest then vfIncluded else s.vfBest
        nBest := if nTotal < s.nBest then nTotal else s.nBest }
    else { s with nTotal, vfIncluded }
  else s

def randomPass (bits : ℕ → Bool) (s : SubsetSearch n) : SubsetSearch n :=
  (List.finRange n).foldl (fun s (i : Fin n) => s.visit vValue nTargetValue (bits i) i) s

/-- The second pass tries every coin that is not included. -/
def fillPass (s : SubsetSearch n) : SubsetSearch n :=
  (List.finRange n).foldl (fun s i => s.visit vValue nTargetValue (!s.vfIncluded i) i) s

def repetition (bits : ℕ → Bool) (s : SubsetSearch n) : SubsetSearch n :=
  let s := { s with vfIncluded := fun _ => false, nTotal := 0, fReachedTarget := false }
  let s := s.randomPass vValue nTargetValue bits
  if s.fReachedTarget then s else s.fillPass vValue nTargetValue

def repetitions (bits : ℕ → ℕ → Bool) : ℕ → ℕ → SubsetSearch n → SubsetSearch n
  | 0, _, s => s
  | left + 1, nRep, s =>
    if s.nBest = nTargetValue then s
    else repetitions bits left (nRep + 1) (s.repetition vValue nTargetValue (bits nRep))

end SubsetSearch

/-- `ApproximateBestSubset`: the coins of the best subset and their sum. -/
def approximateBestSubset {n : ℕ} (vValue : Fin n → ℤ) (nTotalLower nTargetValue : ℤ)
    (bits : ℕ → ℕ → Bool) (iterations : ℕ) : (Fin n → Bool) × ℤ :=
  let s := SubsetSearch.repetitions vValue nTargetValue bits iterations 0
    { vfIncluded := fun _ => false, nTotal := 0, fReachedTarget := false
      vfBest := fun _ => true, nBest := nTotalLower }
  (s.vfBest, s.nBest)

/-! ## The selection -/

namespace CoinView

variable (w : CoinView)

/-- The coin may be taken: it is spendable, deep enough and not younger than the transaction. -/
def eligible (r : CoinRequest) (output : COutput) : Bool :=
  let pcoin := w.mapWallet output.tx
  let nConf := if w.isFromMe pcoin then r.nConfMine else r.nConfTheirs
  output.fSpendable && decide (nConf ≤ output.nDepth) && decide (pcoin.tx.nTime ≤ r.nSpendTime)

def part (r : CoinRequest) (output : COutput) : ℤ :=
  let fractions := ((w.mapWallet output.tx).vOutFractions.getD output.i {}).ref
  match r.txType with
  | .sendReserve | .freezeReserve => (fractions.lowPart w.nPegSupplyIndex).total
  | .sendLiquidity | .freezeLiquidity => (fractions.highPart w.nPegSupplyIndex).total

end CoinView

structure CoinScan where
  coinLowestLarger : ℤ × Option CSelectedCoin := (int64Max, none)
  vValue : List (ℤ × CSelectedCoin) := []
  nTotalLower : ℤ := 0

/-- The loop over the coins, which ends at a coin of the target's value. -/
def scanCoins (w : CoinView) (r : CoinRequest) : List COutput → CoinScan → CSelectedCoin ⊕ CoinScan
  | [], s => .inr s
  | output :: vCoins, s =>
    if w.eligible r output then
      let nValue := w.part r output
      let coin : CSelectedCoin := { tx := output.tx, i := output.i, nAvailableValue := nValue }
      if nValue = 0 then scanCoins w r vCoins s
      else if nValue = r.nTargetValue then .inl coin
      else if nValue < wrap64 (r.nTargetValue + CENT) then
        scanCoins w r vCoins { s with
          vValue := s.vValue ++ [(nValue, coin)]
          nTotalLower := wrap64 (s.nTotalLower + nValue) }
      else if nValue < s.coinLowestLarger.1 then
        scanCoins w r vCoins { s with coinLowestLarger := (nValue, some coin) }
      else scanCoins w r vCoins s
    else scanCoins w r vCoins s

structure Selection where
  found : Bool
  setCoinsRet : Finset CSelectedCoin := ∅
  nValueRet : ℤ := 0

namespace Selection

def take (r : Selection) (coin : ℤ × CSelectedCoin) : Selection :=
  { r with
    setCoinsRet := insert coin.2 r.setCoinsRet
    nValueRet := wrap64 (r.nValueRet + coin.1) }

def takeAll (vValue : List (ℤ × CSelectedCoin)) : Selection := vValue.foldl take { found := true }

def takeSubset (vValue : List (ℤ × CSelectedCoin)) (vfBest : Fin vValue.length → Bool) :
    Selection :=
  (List.finRange vValue.length).foldl (fun r i => if vfBest i then r.take (vValue.get i) else r)
    { found := true }

end Selection

def bestSubset (draws : Draws) (vValue : List (ℤ × CSelectedCoin)) (nTotalLower nTargetValue : ℤ) :
    (Fin vValue.length → Bool) × ℤ :=
  let values := fun i => (vValue.get i).1
  let best := approximateBestSubset values nTotalLower nTargetValue (draws.insecure_rand 0) 1000
  if best.2 ≠ nTargetValue ∧ wrap64 (nTargetValue + CENT) ≤ nTotalLower then
    approximateBestSubset values nTotalLower (wrap64 (nTargetValue + CENT))
      (draws.insecure_rand 1) 1000
  else best

def selectScanned (draws : Draws) (nTargetValue : ℤ) (s : CoinScan) : Selection :=
  if s.nTotalLower = nTargetValue then .takeAll s.vValue
  else if s.nTotalLower < nTargetValue then
    match s.coinLowestLarger.2 with
    | none => { found := false }
    | some coin => Selection.take { found := true } (s.coinLowestLarger.1, coin)
  else
    let vValue := draws.sort s.vValue
    let best := bestSubset draws vValue s.nTotalLower nTargetValue
    match s.coinLowestLarger.2 with
    | none => .takeSubset vValue best.1
    | some coin =>
      if (best.2 ≠ nTargetValue ∧ best.2 < wrap64 (nTargetValue + CENT)) ∨
          s.coinLowestLarger.1 ≤ best.2 then
        Selection.take { found := true } (s.coinLowestLarger.1, coin)
      else .takeSubset vValue best.1

def selectCoinsMinConf (w : CoinView) (draws : Draws) (r : CoinRequest) (vCoins : List COutput) :
    Selection :=
  match scanCoins w r (draws.shuffle vCoins) {} with
  | .inl coin => Selection.take { found := true } (coin.nAvailableValue, coin)
  | .inr s => selectScanned draws r.nTargetValue s

/-! ## What the search keeps -/

def subsetSum {n : ℕ} (vValue : Fin n → ℤ) (subset : Fin n → Bool) : ℤ :=
  ∑ i, if subset i then vValue i else 0

theorem subsetSum_insert {n : ℕ} (vValue : Fin n → ℤ) {subset : Fin n → Bool} {i : Fin n}
    (hi : subset i = false) :
    subsetSum vValue (Function.update subset i true) = subsetSum vValue subset + vValue i := by
  unfold subsetSum
  have hcoin : ∀ j, (if Function.update subset i true j then vValue j else 0) =
      (if subset j then vValue j else 0) + if j = i then vValue i else 0 := by
    intro j
    rcases eq_or_ne j i with rfl | hj
    · simp [hi]
    · simp [hj]
  simp only [hcoin, Finset.sum_add_distrib, Finset.sum_ite_eq', Finset.mem_univ, if_true]

theorem wrap64_of_le {v : ℤ} (hv : 0 ≤ v) (hmax : v ≤ int64Max) : wrap64 v = v := by
  unfold int64Max at hmax
  exact wrap64_of_fits ⟨by omega, by omega⟩

structure Summable64 {n : ℕ} (vValue : Fin n → ℤ) : Prop where
  nonneg : ∀ i, 0 ≤ vValue i
  total : ∑ i, vValue i ≤ int64Max

theorem Summable64.wrap_subsetSum {n : ℕ} {vValue : Fin n → ℤ} (h : Summable64 vValue)
    (subset : Fin n → Bool) : wrap64 (subsetSum vValue subset) = subsetSum vValue subset := by
  refine wrap64_of_le (Finset.sum_nonneg fun i _ => ?_)
    ((Finset.sum_le_sum fun i _ => ?_).trans h.total)
  · split_ifs
    · exact h.nonneg i
    · exact le_rfl
  · split_ifs
    · exact le_rfl
    · exact h.nonneg i

namespace SubsetSearch

variable {n : ℕ} {vValue : Fin n → ℤ} {nTargetValue : ℤ}

/-- The sums are those of the subsets, and the best one reaches the bound. -/
structure Valid (vValue : Fin n → ℤ) (bound : ℤ) (s : SubsetSearch n) : Prop where
  total : s.nTotal = subsetSum vValue s.vfIncluded
  best : s.nBest = subsetSum vValue s.vfBest
  reached : bound ≤ s.nBest

theorem visit_valid (hvalues : Summable64 vValue) {s : SubsetSearch n} {take : Bool} {i : Fin n}
    (h : s.Valid vValue nTargetValue) (hi : take = true → s.vfIncluded i = false) :
    (s.visit vValue nTargetValue take i).Valid vValue nTargetValue := by
  unfold visit
  split_ifs with htake
  · have hsum := subsetSum_insert vValue (hi htake)
    rw [← h.total] at hsum
    have hin : wrap64 (s.nTotal + vValue i) = s.nTotal + vValue i := by
      rw [← hsum]
      exact hvalues.wrap_subsetSum _
    have hout : wrap64 (s.nTotal + vValue i - vValue i) = s.nTotal := by
      rw [add_sub_cancel_right, h.total]
      exact hvalues.wrap_subsetSum _
    have hback : Function.update (Function.update s.vfIncluded i true) i false = s.vfIncluded := by
      rw [Function.update_idem, ← hi htake, Function.update_eq_self]
    dsimp only
    rw [hin, hout]
    split_ifs with htarget hless
    · exact ⟨by simp only [hback, h.total], hsum.symm, htarget⟩
    · exact ⟨by simp only [hback, h.total], h.best, h.reached⟩
    · exact ⟨hsum.symm, h.best, h.reached⟩
  · exact h

theorem visit_included_of_ne {s : SubsetSearch n} {take : Bool} {i j : Fin n} (hij : j ≠ i) :
    (s.visit vValue nTargetValue take i).vfIncluded j = s.vfIncluded j := by
  unfold visit
  split_ifs
  · dsimp only
    split_ifs <;> simp [hij]
  · rfl

/-- A pass takes each coin at most once, and only coins that are not included. -/
theorem pass_valid (hvalues : Summable64 vValue) (take : SubsetSearch n → Fin n → Bool)
    {l : List (Fin n)} (hl : l.Nodup) {s : SubsetSearch n} (h : s.Valid vValue nTargetValue)
    (hin : ∀ s' : SubsetSearch n, ∀ i ∈ l, s'.vfIncluded i = s.vfIncluded i → take s' i = true →
      s'.vfIncluded i = false) :
    (l.foldl (fun s i => s.visit vValue nTargetValue (take s i) i) s).Valid vValue
      nTargetValue := by
  induction l generalizing s with
  | nil => exact h
  | cons i l ih =>
    obtain ⟨hi, hl⟩ := List.nodup_cons.mp hl
    have hstep := visit_valid hvalues h (hin s i List.mem_cons_self rfl)
    refine ih hl hstep fun s' j hj hsame => hin s' j (List.mem_cons_of_mem _ hj) ?_
    have hne : j ≠ i := fun heq => hi (heq ▸ hj)
    rw [hsame, visit_included_of_ne hne]

theorem repetition_valid (hvalues : Summable64 vValue) {s : SubsetSearch n} (bits : ℕ → Bool)
    (h : s.Valid vValue nTargetValue) :
    (s.repetition vValue nTargetValue bits).Valid vValue nTargetValue := by
  have hstart : ({ s with vfIncluded := fun _ => false, nTotal := 0, fReachedTarget := false } :
      SubsetSearch n).Valid vValue nTargetValue := ⟨by simp [subsetSum], h.best, h.reached⟩
  have hrandom := pass_valid hvalues (fun _ (i : Fin n) => bits i) (List.nodup_finRange n) hstart
    fun _ _ _ hsame _ => hsame
  unfold repetition
  dsimp only
  split_ifs
  · exact hrandom
  · refine pass_valid hvalues (fun s (i : Fin n) => !s.vfIncluded i) (List.nodup_finRange n) hrandom
      fun _ _ _ _ htake => ?_
    simpa using htake

theorem repetitions_valid (hvalues : Summable64 vValue) {s : SubsetSearch n}
    (bits : ℕ → ℕ → Bool) (left nRep : ℕ) (h : s.Valid vValue nTargetValue) :
    (repetitions vValue nTargetValue bits left nRep s).Valid vValue nTargetValue := by
  induction left generalizing nRep s with
  | zero => exact h
  | succ left ih =>
    unfold repetitions
    split_ifs
    · exact h
    · exact ih _ (repetition_valid hvalues _ h)

end SubsetSearch

/-- The search ends with a subset that reaches its target, and with the sum of that subset. -/
theorem approximateBestSubset_valid {n : ℕ} {vValue : Fin n → ℤ} {nTotalLower nTargetValue : ℤ}
    (hvalues : Summable64 vValue) (htotal : nTotalLower = ∑ i, vValue i)
    (htarget : nTargetValue ≤ nTotalLower) (bits : ℕ → ℕ → Bool) (iterations : ℕ) :
    let best := approximateBestSubset vValue nTotalLower nTargetValue bits iterations
    best.2 = subsetSum vValue best.1 ∧ nTargetValue ≤ best.2 := by
  have hstart : SubsetSearch.Valid vValue nTargetValue
      { vfIncluded := fun _ => false, nTotal := 0, fReachedTarget := false
        vfBest := fun _ => true, nBest := nTotalLower } :=
    ⟨by simp [subsetSum], by simp [subsetSum, htotal], htarget⟩
  have hvalid := SubsetSearch.repetitions_valid hvalues bits iterations 0 hstart
  exact ⟨hvalid.best, hvalid.reached⟩

/-! ## What the loop over the coins leaves -/

section Scan

variable {w : CoinView} {r : CoinRequest} {vCoins : List COutput}

def CoinView.coinOf (w : CoinView) (r : CoinRequest) (output : COutput) : CSelectedCoin where
  tx := output.tx
  i := output.i
  nAvailableValue := w.part r output

def CoinView.eligibleTotal (w : CoinView) (r : CoinRequest) (vCoins : List COutput) : ℤ :=
  ((vCoins.filter (w.eligible r)).map (w.part r)).sum

def CoinView.smaller (w : CoinView) (r : CoinRequest) (output : COutput) : Bool :=
  w.eligible r output && decide (w.part r output ≠ 0) &&
    decide (w.part r output < r.nTargetValue + CENT)

/-- The parts are not negative, and neither they nor the target with the margin leave
`int64_t`. -/
structure CoinView.InRange (w : CoinView) (r : CoinRequest) (vCoins : List COutput) : Prop where
  target : 0 < r.nTargetValue
  margin : r.nTargetValue + CENT ≤ int64Max
  parts : ∀ output ∈ vCoins, 0 ≤ w.part r output ∧ w.part r output < int64Max
  total : w.eligibleTotal r vCoins ≤ int64Max

theorem CoinView.InRange.wrap_margin (h : w.InRange r vCoins) :
    wrap64 (r.nTargetValue + CENT) = r.nTargetValue + CENT := by
  have htarget := h.target
  have hcent : 0 < CENT := by decide
  exact wrap64_of_le (by omega) h.margin

theorem eligibleTotal_perm {vCoins' : List COutput} (h : vCoins'.Perm vCoins) :
    w.eligibleTotal r vCoins' = w.eligibleTotal r vCoins :=
  ((h.filter _).map _).sum_eq

theorem CoinView.InRange.perm {vCoins' : List COutput} (h : w.InRange r vCoins)
    (hperm : vCoins'.Perm vCoins) : w.InRange r vCoins' where
  target := h.target
  margin := h.margin
  parts output hout := h.parts output (hperm.mem_iff.mp hout)
  total := (eligibleTotal_perm hperm).trans_le h.total

/-- Fewer coins are worth no more. -/
theorem CoinView.InRange.eligibleTotal_le {seen : List COutput} (h : w.InRange r vCoins)
    (hsub : seen.Sublist vCoins) : w.eligibleTotal r seen ≤ w.eligibleTotal r vCoins := by
  refine List.Sublist.sum_le_sum ((hsub.filter _).map _) fun value hvalue => ?_
  obtain ⟨output, hout, rfl⟩ := List.mem_map.mp hvalue
  exact (h.parts output (List.mem_filter.mp hout).1).1

structure Scanned (w : CoinView) (r : CoinRequest) (seen : List COutput) (s : CoinScan) : Prop where
  values : s.vValue =
    (seen.filter (w.smaller r)).map fun output => (w.part r output, w.coinOf r output)
  total : s.nTotalLower = (s.vValue.map Prod.fst).sum
  none_larger : s.coinLowestLarger.2 = none → s.coinLowestLarger.1 = int64Max ∧
    ∀ output ∈ seen, w.eligible r output = true →
      w.part r output < r.nTargetValue + CENT
  larger : ∀ coin, s.coinLowestLarger.2 = some coin → ∃ output ∈ seen,
    w.eligible r output = true ∧ coin = w.coinOf r output ∧
      s.coinLowestLarger.1 = w.part r output ∧
      r.nTargetValue + CENT ≤ w.part r output

namespace Scanned

variable {seen : List COutput} {s : CoinScan} {output : COutput}

theorem start : Scanned w r [] {} where
  values := rfl
  total := rfl
  none_larger := fun _ => ⟨rfl, fun _ h => absurd h List.not_mem_nil⟩
  larger := fun _ h => (by cases h)

/-- A coin that is passed over, because it is not eligible or without value or no better. -/
theorem skip (h : Scanned w r seen s)
    (hsmall : w.smaller r output = false)
    (hlarge : s.coinLowestLarger.2 = none →
      w.eligible r output = true →
      w.part r output < r.nTargetValue + CENT) :
    Scanned w r (seen ++ [output]) s where
  values := by simp [h.values, List.filter_append, hsmall]
  total := h.total
  none_larger := fun hnone => ⟨(h.none_larger hnone).1, fun o ho => by
    rcases List.mem_append.mp ho with ho | ho
    · exact (h.none_larger hnone).2 o ho
    · rw [List.mem_singleton.mp ho]
      exact hlarge hnone⟩
  larger := fun coin hcoin => by
    obtain ⟨o, ho, hrest⟩ := h.larger coin hcoin
    exact ⟨o, List.mem_append_left _ ho, hrest⟩

theorem collect (h : Scanned w r seen s)
    (hsmall : w.smaller r output = true) :
    Scanned w r (seen ++ [output])
      { s with
        vValue := s.vValue ++ [(w.part r output, w.coinOf r output)]
        nTotalLower := s.nTotalLower + w.part r output } where
  values := by simp [h.values, List.filter_append, hsmall]
  total := by simp [h.total]
  none_larger := fun hnone => ⟨(h.none_larger hnone).1, fun o ho => by
    rcases List.mem_append.mp ho with ho | ho
    · exact (h.none_larger hnone).2 o ho
    · rw [List.mem_singleton.mp ho]
      simp only [CoinView.smaller, Bool.and_eq_true, decide_eq_true_eq] at hsmall
      exact fun _ => hsmall.2⟩
  larger := fun coin hcoin => by
    obtain ⟨o, ho, hrest⟩ := h.larger coin hcoin
    exact ⟨o, List.mem_append_left _ ho, hrest⟩

theorem lower (h : Scanned w r seen s)
    (heligible : w.eligible r output = true)
    (hlarge : r.nTargetValue + CENT ≤ w.part r output) :
    Scanned w r (seen ++ [output])
      { s with coinLowestLarger :=
          (w.part r output, some (w.coinOf r output)) } where
  values := by
    have hsmall : w.smaller r output = false := by
      simp [CoinView.smaller, hlarge.not_gt]
    simp [h.values, List.filter_append, hsmall]
  total := h.total
  none_larger := fun hnone => (by cases hnone)
  larger := fun coin hcoin => by
    obtain rfl := Option.some.inj hcoin
    exact ⟨output, by simp, heligible, rfl, rfl, hlarge⟩

end Scanned

/-- Smaller coins alone never exceed the eligible ones. -/
theorem Scanned.total_le {seen : List COutput} {s : CoinScan} (h : Scanned w r seen s)
    (hparts : ∀ output ∈ seen, 0 ≤ w.part r output) : s.nTotalLower ≤ w.eligibleTotal r seen := by
  have hsub : (seen.filter (w.smaller r)).Sublist (seen.filter (w.eligible r)) :=
    List.monotone_filter_right seen fun output hsmall => by
      simp only [CoinView.smaller, Bool.and_eq_true] at hsmall
      exact hsmall.1.1
  have htotal : s.nTotalLower = ((seen.filter (w.smaller r)).map (w.part r)).sum := by
    rw [h.total, h.values, List.map_map]
    rfl
  rw [htotal]
  refine List.Sublist.sum_le_sum (hsub.map _) fun value hvalue => ?_
  obtain ⟨output, hout, rfl⟩ := List.mem_map.mp hvalue
  exact hparts output (List.mem_filter.mp hout).1

/-- The sum of the smaller coins does not wrap. -/
theorem Scanned.wrap_total {seen : List COutput} {s : CoinScan} {output : COutput}
    (h : Scanned w r seen s) (hrange : w.InRange r (seen ++ output :: vCoins))
    (hsmall : w.smaller r output = true) :
    wrap64 (s.nTotalLower + w.part r output) = s.nTotalLower + w.part r output := by
  have hsub : (seen ++ [output]).Sublist (seen ++ output :: vCoins) := by simp
  have hparts : ∀ o ∈ seen ++ [output], 0 ≤ w.part r o :=
    fun o ho => (hrange.parts o (hsub.subset ho)).1
  have hle : s.nTotalLower + w.part r output ≤ w.eligibleTotal r (seen ++ [output]) :=
    (h.collect hsmall).total_le hparts
  have htotal : 0 ≤ s.nTotalLower := by
    rw [h.total, h.values, List.map_map]
    refine List.sum_nonneg fun value hvalue => ?_
    obtain ⟨o, ho, rfl⟩ := List.mem_map.mp hvalue
    exact hparts o (List.mem_append_left _ (List.mem_filter.mp ho).1)
  exact wrap64_of_le (Int.add_nonneg htotal (hparts output (by simp)))
    (hle.trans ((hrange.eligibleTotal_le hsub).trans hrange.total))

/-- The loop stops at an exact coin, or it has gone over every coin. -/
theorem scanCoins_spec {seen : List COutput} {s : CoinScan}
    (hrange : w.InRange r (seen ++ vCoins)) (h : Scanned w r seen s) :
    (∃ output ∈ vCoins, w.eligible r output = true ∧ w.part r output = r.nTargetValue ∧
      scanCoins w r vCoins s = .inl (w.coinOf r output)) ∨
    ∃ s', Scanned w r (seen ++ vCoins) s' ∧ scanCoins w r vCoins s = .inr s' := by
  induction vCoins generalizing seen s with
  | nil => exact Or.inr ⟨s, by simpa using h, rfl⟩
  | cons output vCoins ih =>
    have hrest : ∀ s', Scanned w r (seen ++ [output]) s' →
        scanCoins w r (output :: vCoins) s = scanCoins w r vCoins s' →
        (∃ o ∈ output :: vCoins, w.eligible r o = true ∧ w.part r o = r.nTargetValue ∧
          scanCoins w r (output :: vCoins) s = .inl (w.coinOf r o)) ∨
        ∃ s'', Scanned w r (seen ++ output :: vCoins) s'' ∧
          scanCoins w r (output :: vCoins) s = .inr s'' := by
      intro s' hs' heq
      rw [heq]
      rcases ih (by simpa using hrange) hs' with
        ⟨o, ho, hexact⟩ | ⟨s'', hs'', hrun⟩
      · exact Or.inl ⟨o, List.mem_cons_of_mem _ ho, hexact⟩
      · exact Or.inr ⟨s'', by simpa using hs'', hrun⟩
    have htarget := hrange.target
    by_cases heligible : w.eligible r output = true
    swap
    · refine hrest s (h.skip (by simp [CoinView.smaller, heligible]) fun _ he => ?_) ?_
      · exact absurd he heligible
      · simp [scanCoins, heligible]
    by_cases hzero : w.part r output = 0
    · refine hrest s (h.skip (by simp [CoinView.smaller, hzero]) fun _ _ => ?_) ?_
      · unfold CENT
        omega
      · simp [scanCoins, heligible, hzero]
    by_cases hexact : w.part r output = r.nTargetValue
    · exact Or.inl ⟨output, List.mem_cons_self, heligible, hexact, by
        simp [scanCoins, heligible, hexact, htarget.ne', CoinView.coinOf]⟩
    by_cases hsmall : w.part r output < r.nTargetValue + CENT
    · have hcollect : w.smaller r output = true := by
        simp [CoinView.smaller, heligible, hzero, hsmall]
      refine hrest _ (h.collect hcollect) ?_
      simp [scanCoins, heligible, hzero, hexact, hrange.wrap_margin, hsmall, CoinView.coinOf,
        h.wrap_total hrange hcollect]
    by_cases hlower : w.part r output < s.coinLowestLarger.1
    · refine hrest _ (h.lower heligible (not_lt.mp hsmall)) ?_
      simp [scanCoins, heligible, hzero, hexact, hrange.wrap_margin, hsmall, hlower,
        CoinView.coinOf]
    · refine hrest s (h.skip (by simp [CoinView.smaller, hsmall]) fun hnone _ => ?_) ?_
      · have hfirst := (h.none_larger hnone).1
        have hlt := (hrange.parts output (by simp)).2
        omega
      · simp [scanCoins, heligible, hzero, hexact, hrange.wrap_margin, hsmall, hlower]

/-- Without a larger coin the smaller ones are all there is. -/
theorem Scanned.total_eq {seen : List COutput} {s : CoinScan} (h : Scanned w r seen s)
    (hnone : s.coinLowestLarger.2 = none) : s.nTotalLower = w.eligibleTotal r seen := by
  have htotal : s.nTotalLower = ((seen.filter (w.smaller r)).map (w.part r)).sum := by
    rw [h.total, h.values, List.map_map]
    rfl
  have hsmall := (h.none_larger hnone).2
  rw [htotal, CoinView.eligibleTotal]
  clear h htotal hnone
  induction seen with
  | nil => rfl
  | cons output seen ih =>
    have hrest := ih fun o ho => hsmall o (List.mem_cons_of_mem _ ho)
    have hlt := hsmall output List.mem_cons_self
    by_cases he : w.eligible r output = true
    · by_cases hzero : w.part r output = 0
      · simpa [List.filter_cons, CoinView.smaller, he, hzero] using hrest
      · simpa [List.filter_cons, CoinView.smaller, he, hzero, hlt he] using hrest
    · simpa [List.filter_cons, CoinView.smaller, he] using hrest

/-- One eligible coin is worth at most all of them. -/
theorem part_le_eligibleTotal (hparts : ∀ output ∈ vCoins, 0 ≤ w.part r output) {output : COutput}
    (hout : output ∈ vCoins) (he : w.eligible r output = true) :
    w.part r output ≤ w.eligibleTotal r vCoins := by
  refine List.single_le_sum (fun value hvalue => ?_) _
    (List.mem_map_of_mem (List.mem_filter.mpr ⟨hout, he⟩))
  obtain ⟨o, ho, rfl⟩ := List.mem_map.mp hvalue
  exact hparts o (List.mem_filter.mp ho).1

/-! ## Coins taken -/

/-- Taking coins one by one, each one new, adds their values. -/
theorem foldl_take {coins : List (ℤ × CSelectedCoin)} (result : Selection)
    (hvalues : ∀ coin ∈ coins, coin.2.nAvailableValue = coin.1 ∧ 0 ≤ coin.1)
    (hfirst : 0 ≤ result.nValueRet)
    (hmax : result.nValueRet + (coins.map Prod.fst).sum ≤ int64Max)
    (hnodup : (coins.map Prod.snd).Nodup) (hnew : ∀ coin ∈ coins, coin.2 ∉ result.setCoinsRet)
    (hsum : ∑ c ∈ result.setCoinsRet, c.nAvailableValue = result.nValueRet) :
    let all := coins.foldl Selection.take result
    all.found = result.found ∧ all.nValueRet = result.nValueRet + (coins.map Prod.fst).sum ∧
      ∑ c ∈ all.setCoinsRet, c.nAvailableValue = all.nValueRet ∧
      ∀ c ∈ all.setCoinsRet, c ∈ result.setCoinsRet ∨ c ∈ coins.map Prod.snd := by
  induction coins generalizing result with
  | nil => simp [hsum]
  | cons coin coins ih =>
    obtain ⟨hother, hnodup⟩ := List.nodup_cons.mp (List.map_cons ▸ hnodup)
    have hin := hnew coin List.mem_cons_self
    obtain ⟨hcoin, hpos⟩ := hvalues coin List.mem_cons_self
    rw [List.map_cons, List.sum_cons, ← add_assoc] at hmax
    have hlater : 0 ≤ (coins.map Prod.fst).sum := List.sum_nonneg fun value hvalue => by
      obtain ⟨c, hc, rfl⟩ := List.mem_map.mp hvalue
      exact (hvalues c (List.mem_cons_of_mem _ hc)).2
    have hadd : (result.take coin).nValueRet = result.nValueRet + coin.1 :=
      wrap64_of_le (Int.add_nonneg hfirst hpos) (by omega)
    have htake : ∑ c ∈ (result.take coin).setCoinsRet, c.nAvailableValue =
        (result.take coin).nValueRet := by
      rw [hadd, Selection.take, Finset.sum_insert hin, hsum, hcoin, add_comm]
    have hrest : ∀ c ∈ coins, c.2 ∉ (result.take coin).setCoinsRet := by
      intro c hc hmem
      rcases Finset.mem_insert.mp hmem with heq | hmem
      · exact hother (heq ▸ List.mem_map_of_mem hc)
      · exact hnew c (List.mem_cons_of_mem _ hc) hmem
    obtain ⟨hfound, hvalue, hset, hmem⟩ :=
      ih (result.take coin) (fun c hc => hvalues c (List.mem_cons_of_mem _ hc))
        (hadd ▸ Int.add_nonneg hfirst hpos) (hadd ▸ hmax) hnodup hrest htake
    refine ⟨hfound, ?_, hset, fun c hc => ?_⟩
    · rw [List.foldl_cons, hvalue, List.map_cons, List.sum_cons, hadd, add_assoc]
    · rcases hmem c hc with htaken | hlist
      · rcases Finset.mem_insert.mp htaken with rfl | hold
        · exact Or.inr List.mem_cons_self
        · exact Or.inl hold
      · exact Or.inr (List.mem_cons_of_mem _ hlist)

def subsetCoins (vValue : List (ℤ × CSelectedCoin)) (vfBest : Fin vValue.length → Bool) :
    List (ℤ × CSelectedCoin) :=
  ((List.finRange vValue.length).filter vfBest).map vValue.get

theorem takeSubset_eq (vValue : List (ℤ × CSelectedCoin)) (vfBest : Fin vValue.length → Bool) :
    Selection.takeSubset vValue vfBest = Selection.takeAll (subsetCoins vValue vfBest) := by
  unfold Selection.takeSubset Selection.takeAll subsetCoins
  rw [List.foldl_map, List.foldl_filter]

theorem subsetCoins_sublist (vValue : List (ℤ × CSelectedCoin))
    (vfBest : Fin vValue.length → Bool) : (subsetCoins vValue vfBest).Sublist vValue := by
  have hsub := (List.filter_sublist (p := vfBest) (l := List.finRange vValue.length)).map vValue.get
  have hall : (List.finRange vValue.length).map vValue.get = vValue := List.map_get_finRange vValue
  rwa [hall] at hsub

theorem subsetCoins_sum (vValue : List (ℤ × CSelectedCoin)) (vfBest : Fin vValue.length → Bool) :
    ((subsetCoins vValue vfBest).map Prod.fst).sum =
      subsetSum (fun i => (vValue.get i).1) vfBest := by
  unfold subsetCoins subsetSum
  rw [Fin.sum_univ_def, List.map_map]
  induction List.finRange vValue.length with
  | nil => rfl
  | cons i l ih =>
    by_cases hi : vfBest i = true
    · simpa [List.filter_cons, hi] using ih
    · simpa [List.filter_cons, hi] using ih

/-- The coins of the selection are distinct eligible ones, and add up to what it returns. -/
structure Selection.Sound (w : CoinView) (r : CoinRequest) (vCoins : List COutput)
    (result : Selection) : Prop where
  eligible : ∀ coin ∈ result.setCoinsRet, ∃ output ∈ vCoins,
    w.eligible r output = true ∧ coin = w.coinOf r output
  distinct : Set.InjOn (fun coin : CSelectedCoin => (coin.tx, coin.i)) result.setCoinsRet
  sum : ∑ coin ∈ result.setCoinsRet, coin.nAvailableValue = result.nValueRet
  reached : r.nTargetValue ≤ result.nValueRet

/-- The part of a coin depends on the output only. -/
theorem coinOf_injOn {coins : Finset CSelectedCoin}
    (h : ∀ coin ∈ coins, ∃ output ∈ vCoins, w.eligible r output = true ∧
      coin = w.coinOf r output) :
    Set.InjOn (fun coin : CSelectedCoin => (coin.tx, coin.i)) coins := by
  intro a ha b hb hab
  obtain ⟨oa, -, -, rfl⟩ := h a ha
  obtain ⟨ob, -, -, rfl⟩ := h b hb
  obtain ⟨htx, hi⟩ := Prod.mk.inj hab
  simp only [CoinView.coinOf] at htx hi
  simp only [CoinView.coinOf, CoinView.part, htx, hi]

theorem takeAll_sound {coins : List (ℤ × CSelectedCoin)} (hrange : w.InRange r vCoins)
    (hcoins : ∀ coin ∈ coins, ∃ output ∈ vCoins, w.eligible r output = true ∧
      coin = (w.part r output, w.coinOf r output))
    (hmax : (coins.map Prod.fst).sum ≤ int64Max) (hnodup : (coins.map Prod.snd).Nodup)
    (hsum : r.nTargetValue ≤ (coins.map Prod.fst).sum) :
    (Selection.takeAll coins).found = true ∧ (Selection.takeAll coins).Sound w r vCoins := by
  have hvalues : ∀ coin ∈ coins, coin.2.nAvailableValue = coin.1 ∧ 0 ≤ coin.1 := by
    intro coin hcoin
    obtain ⟨output, hout, -, rfl⟩ := hcoins coin hcoin
    exact ⟨rfl, (hrange.parts output hout).1⟩
  obtain ⟨hfound, hvalue, hset, hmem⟩ := foldl_take { found := true } hvalues le_rfl
    ((zero_add _).trans_le hmax) hnodup (fun _ _ => Finset.notMem_empty _) rfl
  have heligible : ∀ coin ∈ (Selection.takeAll coins).setCoinsRet, ∃ output ∈ vCoins,
      w.eligible r output = true ∧ coin = w.coinOf r output := by
    intro coin hcoin
    rcases hmem coin hcoin with hnone | hin
    · exact absurd hnone (Finset.notMem_empty _)
    · obtain ⟨pair, hpair, rfl⟩ := List.mem_map.mp hin
      obtain ⟨output, hout, he, rfl⟩ := hcoins pair hpair
      exact ⟨output, hout, he, rfl⟩
  refine ⟨hfound, heligible, coinOf_injOn heligible, hset, ?_⟩
  rw [Selection.takeAll, hvalue, zero_add]
  exact hsum

theorem takeOne_sound {output : COutput} (hrange : w.InRange r vCoins) (hout : output ∈ vCoins)
    (he : w.eligible r output = true) (hpart : r.nTargetValue ≤ w.part r output) :
    (Selection.take { found := true } (w.part r output, w.coinOf r output)).Sound w r vCoins := by
  have hcoins : ∀ coin ∈ [(w.part r output, w.coinOf r output)], ∃ output ∈ vCoins,
      w.eligible r output = true ∧ coin = (w.part r output, w.coinOf r output) :=
    fun coin hcoin => ⟨output, hout, he, List.mem_singleton.mp hcoin⟩
  have hmax := (hrange.parts output hout).2.le
  exact (takeAll_sound hrange hcoins (by simpa using hmax) (List.nodup_singleton _)
    (by simpa using hpart)).2

theorem bestSubset_spec {draws : Draws} {vValue : List (ℤ × CSelectedCoin)} {nTotalLower : ℤ}
    (hrange : w.InRange r vCoins) (hpos : ∀ coin ∈ vValue, 0 ≤ coin.1)
    (hmax : nTotalLower ≤ int64Max) (htotal : nTotalLower = (vValue.map Prod.fst).sum)
    (hreached : r.nTargetValue ≤ nTotalLower) :
    r.nTargetValue ≤ ((subsetCoins vValue
      (bestSubset draws vValue nTotalLower r.nTargetValue).1).map Prod.fst).sum := by
  have hsum : nTotalLower = ∑ i, (vValue.get i).1 := by
    calc nTotalLower = (vValue.map Prod.fst).sum := htotal
      _ = (((List.finRange vValue.length).map vValue.get).map Prod.fst).sum :=
        (congrArg (fun l => (l.map Prod.fst).sum) (List.map_get_finRange vValue)).symm
      _ = ∑ i, (vValue.get i).1 := by
        rw [List.map_map, Fin.sum_univ_def]
        rfl
  have hvalues : Summable64 fun i => (vValue.get i).1 :=
    ⟨fun i => hpos _ (List.get_mem vValue i), hsum ▸ hmax⟩
  have hcent : 0 < CENT := by decide
  rw [subsetCoins_sum]
  unfold bestSubset
  dsimp only
  rw [hrange.wrap_margin]
  split_ifs with hsecond
  · obtain ⟨hbest, hle⟩ :=
      approximateBestSubset_valid hvalues hsum hsecond.2 (draws.insecure_rand 1) 1000
    rw [← hbest]
    omega
  · obtain ⟨hbest, hle⟩ :=
      approximateBestSubset_valid hvalues hsum hreached (draws.insecure_rand 0) 1000
    exact hle.trans_eq hbest

section Selected

variable {seen : List COutput} {s : CoinScan}

theorem Scanned.mem_values (h : Scanned w r seen s) :
    ∀ coin ∈ s.vValue, ∃ output ∈ seen, w.eligible r output = true ∧
      coin = (w.part r output, w.coinOf r output) := by
  intro coin hcoin
  rw [h.values] at hcoin
  obtain ⟨output, hout, rfl⟩ := List.mem_map.mp hcoin
  obtain ⟨hseen, hsmall⟩ := List.mem_filter.mp hout
  simp only [CoinView.smaller, Bool.and_eq_true] at hsmall
  exact ⟨output, hseen, hsmall.1.1, rfl⟩

theorem Scanned.nodup_values (h : Scanned w r seen s)
    (hdistinct : (seen.map fun output => (output.tx, output.i)).Nodup) :
    (s.vValue.map Prod.snd).Nodup := by
  rw [h.values, List.map_map]
  refine List.Nodup.of_map (fun coin : CSelectedCoin => (coin.tx, coin.i)) ?_
  rw [List.map_map]
  exact (hdistinct.sublist (List.filter_sublist.map _))

/-- From what the loop left, coins are found exactly when there are enough of them. -/
theorem selectScanned_spec (draws : Draws) (hrange : w.InRange r seen) (h : Scanned w r seen s)
    (hdistinct : (seen.map fun output => (output.tx, output.i)).Nodup) :
    ((selectScanned draws r.nTargetValue s).found = true ↔
      r.nTargetValue ≤ w.eligibleTotal r seen) ∧
    ((selectScanned draws r.nTargetValue s).found = true →
      (selectScanned draws r.nTargetValue s).Sound w r seen) := by
  -- Coins that were taken decide both halves.
  suffices hcases : (selectScanned draws r.nTargetValue s).found = false ∧
      w.eligibleTotal r seen < r.nTargetValue ∨
      (selectScanned draws r.nTargetValue s).found = true ∧
        r.nTargetValue ≤ w.eligibleTotal r seen ∧
        (selectScanned draws r.nTargetValue s).Sound w r seen by
    rcases hcases with ⟨hfound, hlt⟩ | ⟨hfound, hle, hsound⟩
    · exact ⟨by simp [hfound, hlt.not_ge], by simp [hfound]⟩
    · exact ⟨iff_of_true hfound hle, fun _ => hsound⟩
  have hparts : ∀ output ∈ seen, 0 ≤ w.part r output := fun output hout =>
    (hrange.parts output hout).1
  have hle := h.total_le hparts
  have hmax : s.nTotalLower ≤ int64Max := hle.trans hrange.total
  have hlarger : ∀ coin, s.coinLowestLarger.2 = some coin →
      (Selection.take { found := true } (s.coinLowestLarger.1, coin)).Sound w r seen ∧
        r.nTargetValue ≤ w.eligibleTotal r seen := by
    intro coin hcoin
    obtain ⟨output, hout, he, rfl, hfirst, hpart⟩ := h.larger coin hcoin
    have hreach : r.nTargetValue ≤ w.part r output := by
      unfold CENT at hpart
      omega
    rw [hfirst]
    exact ⟨takeOne_sound hrange hout he hreach, hreach.trans (part_le_eligibleTotal hparts hout he)⟩
  unfold selectScanned
  split_ifs with hexact hlt
  · obtain ⟨hfound, hsound⟩ := takeAll_sound hrange h.mem_values (h.total ▸ hmax)
      (h.nodup_values hdistinct) (hexact.symm.trans h.total).le
    exact Or.inr ⟨hfound, by omega, hsound⟩
  · cases hcoin : s.coinLowestLarger.2 with
    | none =>
      refine Or.inl ⟨rfl, ?_⟩
      rw [← h.total_eq hcoin]
      exact hlt
    | some coin => exact Or.inr ⟨rfl, (hlarger coin hcoin).2, (hlarger coin hcoin).1⟩
  · have hperm := draws.sort_perm s.vValue
    have hsub := subsetCoins_sublist (draws.sort s.vValue)
      (bestSubset draws (draws.sort s.vValue) s.nTotalLower r.nTargetValue).1
    have hreached : r.nTargetValue ≤ s.nTotalLower := not_lt.mp hlt
    have htotal : s.nTotalLower = ((draws.sort s.vValue).map Prod.fst).sum :=
      h.total.trans (hperm.map Prod.fst).sum_eq.symm
    have hnodup := ((hperm.map Prod.snd).nodup_iff.mpr (h.nodup_values hdistinct)).sublist
      (hsub.map Prod.snd)
    have hmem : ∀ coin ∈ draws.sort s.vValue, ∃ output ∈ seen, w.eligible r output = true ∧
        coin = (w.part r output, w.coinOf r output) :=
      fun coin hcoin => h.mem_values coin (hperm.mem_iff.mp hcoin)
    have hpos : ∀ coin ∈ draws.sort s.vValue, 0 ≤ coin.1 := by
      intro coin hcoin
      obtain ⟨output, hout, -, rfl⟩ := hmem coin hcoin
      exact hparts output hout
    have hfew : ((subsetCoins (draws.sort s.vValue) (bestSubset draws (draws.sort s.vValue)
        s.nTotalLower r.nTargetValue).1).map Prod.fst).sum ≤ s.nTotalLower := by
      refine (List.Sublist.sum_le_sum (hsub.map _) fun value hvalue => ?_).trans_eq htotal.symm
      obtain ⟨coin, hcoin, rfl⟩ := List.mem_map.mp hvalue
      exact hpos coin hcoin
    obtain ⟨hfound, hsound⟩ := takeAll_sound hrange
      (fun coin hcoin => hmem coin (hsub.subset hcoin)) (hfew.trans hmax) hnodup
      (bestSubset_spec hrange hpos hmax htotal hreached)
    rw [← takeSubset_eq] at hfound hsound
    have hsubset := And.intro hfound (And.intro (hreached.trans hle) hsound)
    cases hcoin : s.coinLowestLarger.2 with
    | none => exact Or.inr hsubset
    | some coin =>
      dsimp only
      split_ifs with hbigger
      · exact Or.inr ⟨rfl, (hlarger coin hcoin).2, (hlarger coin hcoin).1⟩
      · exact Or.inr hsubset

end Selected

end Scan

/-- Where the amounts fit, the selection succeeds exactly when the eligible coins reach the
target, and then its coins are distinct eligible ones that reach it. -/
theorem selectCoinsMinConf_found_iff (w : CoinView) (draws : Draws) {r : CoinRequest}
    {vCoins : List COutput} (hrange : w.InRange r vCoins)
    (hdistinct : (vCoins.map fun output => (output.tx, output.i)).Nodup) :
    ((selectCoinsMinConf w draws r vCoins).found = true ↔
      r.nTargetValue ≤ w.eligibleTotal r vCoins) ∧
    ((selectCoinsMinConf w draws r vCoins).found = true →
      (selectCoinsMinConf w draws r vCoins).Sound w r vCoins) := by
  have hperm := draws.shuffle_perm vCoins
  have hrange' := hrange.perm hperm
  have hdistinct' : ((draws.shuffle vCoins).map fun output => (output.tx, output.i)).Nodup :=
    (hperm.map _).nodup_iff.mpr hdistinct
  have hback : ∀ {result : Selection}, result.Sound w r (draws.shuffle vCoins) →
      result.Sound w r vCoins := fun hsound =>
    ⟨fun coin hcoin => by
      obtain ⟨output, hout, hrest⟩ := hsound.eligible coin hcoin
      exact ⟨output, hperm.mem_iff.mp hout, hrest⟩, hsound.distinct, hsound.sum, hsound.reached⟩
  rw [← eligibleTotal_perm hperm]
  unfold selectCoinsMinConf
  rcases scanCoins_spec hrange' Scanned.start with
    ⟨output, hout, he, hexact, hrun⟩ | ⟨s, hs, hrun⟩
  · rw [hrun]
    have hsound := takeOne_sound hrange' hout he hexact.ge
    have hle := part_le_eligibleTotal (fun o ho => (hrange'.parts o ho).1) hout he
    exact ⟨iff_of_true rfl (by omega), fun _ => hback hsound⟩
  · rw [hrun]
    obtain ⟨hfound, hsound⟩ := selectScanned_spec draws hrange' hs hdistinct'
    exact ⟨hfound, fun h => hback (hsound h)⟩

/-- A run in which nothing is shuffled and every bit is zero. -/
def plainDraws : Draws where
  shuffle := id
  shuffle_perm := fun _ => .refl _
  sort := fun vValue => vValue.mergeSort fun t1 t2 => decide (t2.1 ≤ t1.1)
  sort_perm := fun vValue => List.mergeSort_perm vValue _
  sort_descending := fun vValue => by
    have hsorted := @List.pairwise_mergeSort _ (fun t1 t2 : ℤ × CSelectedCoin =>
      decide (t2.1 ≤ t1.1)) (fun a b c hab hbc => by
        simp only [decide_eq_true_eq] at *
        omega) (fun a b => by
        simp only [Bool.or_eq_true, decide_eq_true_eq]
        omega) vValue
    exact hsorted.imp fun h => of_decide_eq_true h
  insecure_rand := fun _ _ _ => false

/-- A wallet whose transactions have outputs of these values, all of them liquid. -/
def coinsWorth (values : List ℤ) : CoinView where
  mapWallet := fun _ =>
    { tx := { vin := [], vout := [] }, vOutFractions := values.map fun nValue => { nValue } }
  isFromMe := fun _ => true
  nPegSupplyIndex := 0

def liquidRequest (nTargetValue : ℤ) : CoinRequest where
  txType := .sendLiquidity
  nTargetValue := nTargetValue
  nSpendTime := 0
  nConfMine := 1
  nConfTheirs := 10

def outputAt (i : ℕ) : COutput := { tx := 7, i := i, nDepth := 6, fSpendable := true }

theorem coinsWorth_part (values : List ℤ) (nTargetValue : ℤ) {i : ℕ} (hi : i < values.length) :
    (coinsWorth values).part (liquidRequest nTargetValue) (outputAt i) = values[i] := by
  have hhigh : ∀ a : CFractions, (a.highPart 0).total = a.total := fun a => by
    simp [CFractions.total_eq_sum, CFractions.cols_highPart]
  have hcoin : ((coinsWorth values).mapWallet 7).vOutFractions.getD i {} =
      { nValue := values[i] } := by
    simp [coinsWorth, hi]
  have hpart : (coinsWorth values).part (liquidRequest nTargetValue) (outputAt i) =
      ((((coinsWorth values).mapWallet 7).vOutFractions.getD i {}).ref.highPart 0).total := rfl
  rw [hpart, hcoin]
  exact (hhigh _).trans (CFractions.total_toStd _)

theorem coinsWorth_eligible (values : List ℤ) (nTargetValue : ℤ) (i : ℕ) :
    (coinsWorth values).eligible (liquidRequest nTargetValue) (outputAt i) = true := rfl

/-- The margin of the largest target wraps, so a coin of 10 counts as larger and is returned. -/
theorem large_target_found :
    (selectCoinsMinConf (coinsWorth [10]) plainDraws (liquidRequest int64Max)
        [outputAt 0]).found = true ∧
      (coinsWorth [10]).part (liquidRequest int64Max) (outputAt 0) = 10 ∧
      (coinsWorth [10]).eligibleTotal (liquidRequest int64Max) [outputAt 0] = 10 := by
  have hpart : (coinsWorth [10]).part (liquidRequest int64Max) (outputAt 0) = 10 :=
    coinsWorth_part [10] int64Max (by decide)
  have hmargin : wrap64 (int64Max + CENT) < 0 := by decide
  have htotal : (coinsWorth [10]).eligibleTotal (liquidRequest int64Max) [outputAt 0] = 10 := by
    have hall : [outputAt 0].filter ((coinsWorth [10]).eligible (liquidRequest int64Max)) =
        [outputAt 0] := rfl
    rw [CoinView.eligibleTotal, hall, List.map_singleton, hpart, List.sum_singleton]
  have hlarger : ¬ 10 < wrap64 (int64Max + CENT) := by omega
  have hexact : (10 : ℤ) ≠ int64Max := by decide
  have hmax : (10 : ℤ) < int64Max := by decide
  have hscan : scanCoins (coinsWorth [10]) (liquidRequest int64Max) [outputAt 0] {} =
      .inr { coinLowestLarger := (10, some { tx := 7, i := 0, nAvailableValue := 10 }) } := by
    rw [scanCoins, coinsWorth_eligible, hpart]
    simp [liquidRequest, hlarger, hexact, hmax, scanCoins, outputAt]
  refine ⟨?_, hpart, htotal⟩
  have hbelow : (0 : ℤ) < int64Max := by decide
  have hrun : plainDraws.shuffle [outputAt 0] = [outputAt 0] := rfl
  rw [selectCoinsMinConf, hrun, hscan]
  simp [selectScanned, liquidRequest, hbelow, hbelow.ne, Selection.take]

def sampleValues : List ℤ := [5, 7, 3000000]

def walletOutputs : List COutput := [outputAt 0, outputAt 1, outputAt 2]

theorem sampleOutputs_part (nTargetValue : ℤ) :
    walletOutputs.map ((coinsWorth sampleValues).part (liquidRequest nTargetValue)) =
      sampleValues := by
  simp only [walletOutputs, List.map_cons, List.map_nil]
  rw [coinsWorth_part _ _ (by decide), coinsWorth_part _ _ (by decide),
    coinsWorth_part _ _ (by decide)]
  rfl

theorem sampleOutputs_total (nTargetValue : ℤ) :
    (coinsWorth sampleValues).eligibleTotal (liquidRequest nTargetValue) walletOutputs =
      3000012 := by
  have hall : walletOutputs.filter ((coinsWorth sampleValues).eligible
      (liquidRequest nTargetValue)) = walletOutputs := rfl
  rw [CoinView.eligibleTotal, hall, sampleOutputs_part]
  rfl

theorem sampleOutputs_inRange {nTargetValue : ℤ} (hpos : 0 < nTargetValue)
    (hmargin : nTargetValue + CENT ≤ int64Max) :
    (coinsWorth sampleValues).InRange (liquidRequest nTargetValue) walletOutputs where
  target := hpos
  margin := hmargin
  parts output hout := by
    have hvalue := List.mem_map_of_mem
      (f := (coinsWorth sampleValues).part (liquidRequest nTargetValue)) hout
    rw [sampleOutputs_part] at hvalue
    have hall : ∀ value ∈ sampleValues, 0 ≤ value ∧ value < int64Max := by decide
    exact hall _ hvalue
  total := by
    rw [sampleOutputs_total]
    decide

/-- A target of 11 is found among three coins, one of 4000000 is not. -/
theorem walletOutputs_selected :
    (selectCoinsMinConf (coinsWorth sampleValues) plainDraws (liquidRequest 11)
        walletOutputs).found = true ∧
      (selectCoinsMinConf (coinsWorth sampleValues) plainDraws (liquidRequest 11)
        walletOutputs).Sound (coinsWorth sampleValues) (liquidRequest 11) walletOutputs ∧
      (selectCoinsMinConf (coinsWorth sampleValues) plainDraws (liquidRequest 4000000)
        walletOutputs).found = false := by
  have hlow : (coinsWorth sampleValues).InRange (liquidRequest 11) walletOutputs :=
    sampleOutputs_inRange (by decide) (by decide)
  have hhigh : (coinsWorth sampleValues).InRange (liquidRequest 4000000) walletOutputs :=
    sampleOutputs_inRange (by decide) (by decide)
  obtain ⟨hfound, hsound⟩ := selectCoinsMinConf_found_iff _ plainDraws hlow (by decide)
  obtain ⟨hmissing, -⟩ := selectCoinsMinConf_found_iff _ plainDraws hhigh (by decide)
  rw [sampleOutputs_total] at hfound hmissing
  have hyes := hfound.mpr (by decide)
  have hno : ¬ (liquidRequest 4000000).nTargetValue ≤ 3000012 := by decide
  exact ⟨hyes, hsound hyes, Bool.eq_false_iff.mpr fun h => hno (hmissing.mp h)⟩

end BitBay
