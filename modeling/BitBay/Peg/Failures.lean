import BitBay.Peg.Conservation
import BitBay.Peg.Staking

/-!
# What failed calculations leave

The calculations write the fractions of outputs to the pool while they go through the outputs,
and a failure takes back only some of it. A standard call takes back the entry of the latest
output, and nothing where marks cross; a coinstake takes back the entries of all outputs, and
nothing where the output of the stake cannot be paid.
-/
namespace BitBay

variable (net : Params)

/-! ## Standard transactions -/

section Standard

variable (call : StandardCall)

def StandardCall.before : StandardResult where
  mapInputsFractions := call.mapInputsFractions
  mapTestFractionsPool := call.mapTestFractionsPool
  feesFractions := call.feesFractions

/-- What a call leaves in these arguments; without a cause it succeeded. -/
structure StandardOutcome extends StandardResult where
  sFailCause : Option String

def startOutputs (pools : PoolState) : OutputState where
  frCommonLiquidity := commonLiquidity pools.poolLiquidity
  nCommonLiquidity := pools.nLiquidityTotal
  poolReserves := pools.poolReserves
  mapTestFractionsPool := call.mapTestFractionsPool

/-- The output loop with the index of the latest output. Crossing marks end the call at once,
when the entry of the output has been opened. -/
def visitOutputs (pools : PoolState) :
    List (CTxOut × ℕ) → OutputState → ℕ → Option String × OutputState × ℕ
  | [], st, nLatestPegOut => (none, st, nLatestPegOut)
  | out :: rest, st, _ =>
    match fillOutput net call pools st out with
    | .error sFailCause =>
      let pool := openEntry st.mapTestFractionsPool (call.outKey net out.2)
      (some sFailCause, { st with mapTestFractionsPool := pool }, out.2)
    | .ok st =>
      if st.sFailCause.isSome then (none, st, out.2) else visitOutputs pools rest st out.2

/-- The checks on the whole. A failure erases the entry of the latest output. -/
def finishOutputs (pools : PoolState) (st : OutputState) (nLatestPegOut : ℕ) : StandardOutcome :=
  match failCause net call pools st with
  | some sFailCause =>
    { call.before with
      mapTestFractionsPool :=
        Function.update st.mapTestFractionsPool (call.outKey net nLatestPegOut) none
      sFailCause := some sFailCause }
  | none =>
    { mapInputsFractions := placeOutputs net call st.mapTestFractionsPool
      mapTestFractionsPool := st.mapTestFractionsPool
      feesFractions := call.feesFractions + txFeeFractions pools st
      sFailCause := none }

/-- `CalculateStandardFractions` with what a failure leaves. -/
def standardOutcome : StandardOutcome :=
  match scanInputs net call with
  | .error sFailCause => { call.before with sFailCause := some sFailCause }
  | .ok pools =>
    match visitOutputs net call pools call.outputs (startOutputs call pools) 0 with
    | (some sFailCause, st, _) =>
      { call.before with
        mapTestFractionsPool := st.mapTestFractionsPool, sFailCause := some sFailCause }
    | (none, st, nLatestPegOut) => finishOutputs net call pools st nLatestPegOut

variable {net call} {pools : PoolState} {st st' : OutputState}

/-- A loop that was left does nothing more. -/
theorem foldlM_fillOutput_of_failed {l : List (CTxOut × ℕ)} (h : st.sFailCause.isSome = true) :
    l.foldlM (fillOutput net call pools) st = .ok st := by
  induction l with
  | nil => rfl
  | cons out rest ih =>
    have hround : fillOutput net call pools st out = .ok st := by
      rw [fillOutput, if_pos h]
    rw [List.foldlM_cons, hround]
    exact ih

/-- The loop with its index is the loop. -/
theorem foldlM_fillOutput (l : List (CTxOut × ℕ)) (st : OutputState) (nLatestPegOut : ℕ) :
    l.foldlM (fillOutput net call pools) st =
      match visitOutputs net call pools l st nLatestPegOut with
      | (some sFailCause, _, _) => .error sFailCause
      | (none, st, _) => .ok st := by
  induction l generalizing st nLatestPegOut with
  | nil => rfl
  | cons out rest ih =>
    rw [List.foldlM_cons, visitOutputs]
    cases hround : fillOutput net call pools st out with
    | error sFailCause => rfl
    | ok st' =>
      dsimp only
      cases hfail : st'.sFailCause.isSome with
      | true => exact foldlM_fillOutput_of_failed hfail
      | false => exact ih st' out.2

section Outcome

variable {sFailCause : String} {nLatestPegOut : ℕ}

theorem standardOutcome_of_input (h : scanInputs net call = .error sFailCause) :
    standardOutcome net call = { call.before with sFailCause := some sFailCause } := by
  rw [standardOutcome, h]

theorem standardOutcome_of_crossing (hscan : scanInputs net call = .ok pools)
    (hvisit : visitOutputs net call pools call.outputs (startOutputs call pools) 0 =
      (some sFailCause, st, nLatestPegOut)) :
    standardOutcome net call =
      { call.before with
        mapTestFractionsPool := st.mapTestFractionsPool, sFailCause := some sFailCause } := by
  rw [standardOutcome, hscan]
  dsimp only
  rw [hvisit]

theorem standardOutcome_of_visited (hscan : scanInputs net call = .ok pools)
    (hvisit : visitOutputs net call pools call.outputs (startOutputs call pools) 0 =
      (none, st, nLatestPegOut)) :
    standardOutcome net call = finishOutputs net call pools st nLatestPegOut := by
  rw [standardOutcome, hscan]
  dsimp only
  rw [hvisit]

/-- The cause of the outcome is the cause that the call reports, and the maps of a call that
succeeds are its result. -/
theorem standardOutcome_cases :
    (∃ sFailCause, calculateStandardFractions net call = .error sFailCause ∧
      (standardOutcome net call).sFailCause = some sFailCause) ∨
    ∃ r, calculateStandardFractions net call = .ok r ∧
      standardOutcome net call = { r with sFailCause := none } := by
  cases hscan : scanInputs net call with
  | error sFailCause =>
    refine .inl ⟨sFailCause, ?_, ?_⟩
    · rw [calculateStandardFractions, hscan]
      rfl
    · rw [standardOutcome_of_input hscan]
  | ok pools =>
    have hcalc : calculateStandardFractions net call = (fillOutputs net call pools >>= fun st =>
        match failCause net call pools st with
        | some sFailCause => .error sFailCause
        | none => .ok {
            mapInputsFractions := placeOutputs net call st.mapTestFractionsPool
            mapTestFractionsPool := st.mapTestFractionsPool
            feesFractions := call.feesFractions + txFeeFractions pools st }) := by
      rw [calculateStandardFractions, hscan]
      rfl
    have hloop : fillOutputs net call pools = _ :=
      foldlM_fillOutput call.outputs (startOutputs call pools) 0
    rcases hvisit : visitOutputs net call pools call.outputs (startOutputs call pools) 0
      with ⟨cause, st, latest⟩
    rw [hvisit] at hloop
    cases cause with
    | some sFailCause =>
      refine .inl ⟨sFailCause, ?_, ?_⟩
      · rw [hcalc, hloop]
        rfl
      · rw [standardOutcome_of_crossing hscan hvisit]
    | none =>
      rw [hcalc, hloop, standardOutcome_of_visited hscan hvisit, finishOutputs]
      cases hcause : failCause net call pools st with
      | some sFailCause => exact .inl ⟨sFailCause, by simp [bind, Except.bind, hcause], rfl⟩
      | none => exact .inr ⟨_, by simp [bind, Except.bind, hcause], rfl⟩

theorem standardOutcome_of_error (h : calculateStandardFractions net call = .error sFailCause) :
    (standardOutcome net call).sFailCause = some sFailCause := by
  rcases @standardOutcome_cases net call with ⟨cause, herror, hfail⟩ | ⟨r, hok, -⟩
  · rw [hfail, Except.error.inj (herror.symm.trans h)]
  · rw [hok] at h
    cases h

end Outcome

/-- A round writes the entry of its output. -/
theorem fillOutput_pool {out : CTxOut × ℕ} (hrun : st.sFailCause = none)
    (h : fillOutput net call pools st out = .ok st') :
    ∃ fr, st'.mapTestFractionsPool =
      Function.update st.mapTestFractionsPool (call.outKey net out.2) (some fr) := by
  obtain ⟨r, hstep, rfl⟩ := fillOutput_ok hrun h
  refine ⟨r.2, ?_⟩
  dsimp only
  rw [hstep.pool]

theorem isSome_openEntry {pool : MapFractions} {fkey fkey' : UInt320}
    (h : (pool fkey').isSome = true) : (openEntry pool fkey fkey').isSome = true := by
  unfold openEntry
  split_ifs with hsome
  · exact h
  · rw [Function.update_apply]
    split_ifs
    · rfl
    · exact h

theorem isSome_openEntry_self (pool : MapFractions) (fkey : UInt320) :
    (openEntry pool fkey fkey).isSome = true := by
  unfold openEntry
  split_ifs with hsome
  · exact hsome
  · rw [Function.update_self]
    rfl

/-- The loop keeps the entries that are there. -/
theorem visitOutputs_isSome {l : List (CTxOut × ℕ)} {n : ℕ} {fkey : UInt320}
    (hrun : st.sFailCause = none) (h : (st.mapTestFractionsPool fkey).isSome = true) :
    ((visitOutputs net call pools l st n).2.1.mapTestFractionsPool fkey).isSome = true := by
  induction l generalizing st n with
  | nil => exact h
  | cons out rest ih =>
    rw [visitOutputs]
    cases hround : fillOutput net call pools st out with
    | error sFailCause => exact isSome_openEntry h
    | ok st' =>
      obtain ⟨fr, hpool⟩ := fillOutput_pool hrun hround
      have hkeep : (st'.mapTestFractionsPool fkey).isSome = true := by
        rw [hpool, Function.update_apply]
        split_ifs
        · rfl
        · exact h
      dsimp only
      split_ifs with hfail
      · exact hkeep
      · exact ih (by simpa using hfail) hkeep

/-- The loop ends at one of its outputs. -/
theorem visitOutputs_latest {l : List (CTxOut × ℕ)} {n : ℕ} (h : l ≠ []) :
    (visitOutputs net call pools l st n).2.2 ∈ l.map Prod.snd := by
  induction l generalizing st n with
  | nil => exact (h rfl).elim
  | cons out rest ih =>
    rw [visitOutputs, List.map_cons]
    cases hround : fillOutput net call pools st out with
    | error sFailCause => exact List.mem_cons_self
    | ok st' =>
      dsimp only
      split_ifs with hfail
      · exact List.mem_cons_self
      · by_cases hrest : rest = []
        · subst hrest
          exact List.mem_cons_self
        · exact List.mem_cons_of_mem _ (ih hrest)

/-! ## The first output -/

/-- What is left of an amount when reserves have paid what they hold, one after another. -/
def leftToTake : List ℤ → ℤ → ℤ
  | [], nValueToTake => nValueToTake
  | nReserve :: rest, nValueToTake =>
    if nReserve = 0 then leftToTake rest nValueToTake
    else if nValueToTake ≤ nReserve then 0
    else leftToTake rest (nValueToTake - nReserve)

def reserveTotals (poolReserves : PoolMap) (vAddresses : List CString) : List ℤ :=
  (vAddresses.filter (· ∈ poolReserves)).map fun sAddress => (poolReserves.get sAddress).total

def leftOfFreeze (pools : PoolState) (nValue nValueToTakeReserves : ℤ) : ℤ :=
  let sAddress := (pools.poolFrozen.get 0).sAddress
  nValue - (nValueToTakeReserves - leftToTake (reserveTotals pools.poolReserves
    (sAddress :: pools.poolReserves.keys.filter (· ≠ sAddress))) nValueToTakeReserves)

variable (net) in
/-- What an output that no notary froze leaves to the common liquidity. -/
def leftOfPlain (pools : PoolState) (out : CTxOut) : ℤ :=
  let sAddress := out.scriptPubKey.toAddress net
  let nReserve := (pools.poolReserves.get sAddress).total
  if sAddress ∈ pools.poolReserves then
    out.nValue - if 0 < nReserve then min out.nValue nReserve else 0
  else if takesReserves net out then
    leftToTake (reserveTotals pools.poolReserves pools.poolReserves.keys) out.nValue
  else out.nValue

variable (net call) in
/-- The amount of the first output is more than the pools behind the inputs can pay, or it asks
for a fair share and refers to no output. -/
def StandardCall.FirstUnpaid (pools : PoolState) (out : CTxOut) : Prop :=
  let fractions := (pools.poolFrozen.get 0).fractions
  if 0 ∈ pools.poolFrozen then
    pools.fFreezeAll = true ∧ fractions.total ≤ 0 ∧ fractions.nFlags.notaryV = false ∧
      fractions.nFlags.notaryF = true ∧ ∀ nValueToTakeReserves,
        fairWithdraw call pools.poolFrozen pools.poolReserves 0 out.nValue =
          some nValueToTakeReserves →
        0 < leftOfFreeze pools out.nValue nValueToTakeReserves ∧
          pools.nLiquidityTotal < leftOfFreeze pools out.nValue nValueToTakeReserves
  else if out.scriptPubKey.toAddress net ∈ pools.poolReserves ∨ takesReserves net out = true then
    0 < leftOfPlain net pools out ∧ pools.nLiquidityTotal < leftOfPlain net pools out
  else pools.nLiquidityTotal < out.nValue

variable (net call) in
/-- Behind the inputs the call fails at its first output, which is the only one or is more than
the pools can pay, and the entry that is erased was not there before. -/
def StandardCall.FailsFirst : Prop :=
  ∀ pools, scanInputs net call = .ok pools →
    call.mapTestFractionsPool (call.outKey net 0) = none ∧
    ∀ out rest, call.tx.vout = out :: rest → rest = [] ∨ call.FirstUnpaid net pools out

theorem takeReserves_left {vAddresses : List CString} (hnodup : vAddresses.Nodup)
    (poolReserves : PoolMap) (frOut : CFractions) (nValueToTake : ℤ) :
    (takeReserves vAddresses poolReserves frOut nValueToTake).2.2 =
      leftToTake (reserveTotals poolReserves vAddresses) nValueToTake := by
  induction vAddresses generalizing poolReserves frOut nValueToTake with
  | nil => rfl
  | cons sAddress rest ih =>
    obtain ⟨hnot, hrest⟩ := List.nodup_cons.mp hnodup
    rw [takeReserves]
    dsimp only
    by_cases hmem : sAddress ∈ poolReserves
    · have htotals : reserveTotals poolReserves (sAddress :: rest) =
          (poolReserves.get sAddress).total :: reserveTotals poolReserves rest := by
        simp [reserveTotals, hmem]
      rw [htotals, leftToTake]
      by_cases hzero : (poolReserves.get sAddress).total = 0
      · rw [if_pos (Or.inr hzero), if_pos hzero, ih hrest]
      · rw [if_neg (by simp [hmem, hzero]), if_neg hzero]
        by_cases hcovered : nValueToTake ≤ (poolReserves.get sAddress).total
        · rw [if_pos hcovered, min_eq_left hcovered, sub_self, if_pos rfl]
        · have hrest_pos : nValueToTake - (poolReserves.get sAddress).total ≠ 0 := by omega
          rw [if_neg hcovered, min_eq_right (by omega), if_neg hrest_pos, ih hrest]
          -- The reserves of the other addresses are as before.
          congr 1
          refine (congrArg _ (List.filter_congr fun other hother => ?_)).trans
            (List.map_congr_left fun other hother => ?_)
          · have hne : other ≠ sAddress := fun h => hnot (h ▸ hother)
            simp [SortedMap.mem_insert, hne]
          · have hne : other ≠ sAddress := fun h =>
              hnot (h ▸ (List.mem_filter.mp hother).1)
            rw [SortedMap.get_insert, if_neg hne]
    · have htotals : reserveTotals poolReserves (sAddress :: rest) =
          reserveTotals poolReserves rest := by simp [reserveTotals, hmem]
      rw [if_pos (Or.inl hmem), htotals, ih hrest]

theorem takeLiquidity_failed {frOut : CFractions} {nValueLeft : ℤ} {sFailCause : String}
    (hst : st.sFailCause = none) :
    (takeLiquidity st frOut nValueLeft sFailCause).1.sFailCause.isSome = true ↔
      st.nCommonLiquidity < nValueLeft := by
  unfold takeLiquidity
  split_ifs with hshort
  · simp [hshort]
  · simp [hshort, hst]

theorem takeLeft_failed {frOut : CFractions} {nValueLeft nLiquidityTotal : ℤ}
    {sFailCause : String} (hst : st.sFailCause = none)
    (hliquidity : st.nCommonLiquidity = nLiquidityTotal) :
    (takeLeft st frOut nValueLeft sFailCause).1.sFailCause.isSome = true ↔
      0 < nValueLeft ∧ nLiquidityTotal < nValueLeft := by
  unfold takeLeft
  split_ifs with hpos
  · rw [takeLiquidity_failed hst, hliquidity]
    exact (and_iff_right hpos).symm
  · simp [hpos, hst]

theorem keys_nodup (m : PoolMap) : m.keys.Nodup :=
  m.sorted.imp fun h => h.ne

theorem plainOutput_failed {out : CTxOut} {frOut : CFractions} (hst : st.sFailCause = none)
    (hreserves : st.poolReserves = pools.poolReserves)
    (hliquidity : st.nCommonLiquidity = pools.nLiquidityTotal) :
    (plainOutput net st out frOut).1.sFailCause.isSome = true ↔
      if out.scriptPubKey.toAddress net ∈ pools.poolReserves ∨ takesReserves net out = true then
        0 < leftOfPlain net pools out ∧ pools.nLiquidityTotal < leftOfPlain net pools out
      else pools.nLiquidityTotal < out.nValue := by
  unfold plainOutput leftOfPlain
  dsimp only
  rw [hreserves]
  by_cases haddr : out.scriptPubKey.toAddress net ∈ pools.poolReserves
  · rw [if_pos haddr, if_pos (Or.inl haddr), if_pos haddr]
    unfold backToReserve
    dsimp only
    rw [hreserves]
    split_ifs with hpos
    · exact takeLeft_failed hst hliquidity
    · rw [sub_zero]
      exact takeLeft_failed hst hliquidity
  · rw [if_neg haddr, if_neg haddr]
    by_cases htakes : takesReserves net out = true
    · rw [if_pos htakes, if_pos (Or.inr htakes), if_pos htakes,
        takeReserves_left (keys_nodup _)]
      exact takeLeft_failed hst hliquidity
    · rw [if_neg htakes, if_neg (by simp [haddr, htakes]), takeLiquidity_failed hst, hliquidity]

theorem setMark_default (nMark : NotaryMark) (nTime : ℕ) :
    ∃ frMarked, (default : CFractions).setMark net .markSet nMark nTime = some frMarked := by
  cases nMark <;> exact ⟨_, rfl⟩

/-- An output without an entry crosses no mark, and an amount above the pools is a failure. -/
theorem freezeAllOutput_failed {nValue : ℤ} (hst : st.sFailCause = none)
    (hreserves : st.poolReserves = pools.poolReserves)
    (hliquidity : st.nCommonLiquidity = pools.nLiquidityTotal) :
    ∃ r, freezeAllOutput net call pools st 0 nValue default = .ok r ∧
      (r.1.sFailCause.isSome = true ↔ (pools.poolFrozen.get 0).fractions.total ≤ 0 ∧
        (pools.poolFrozen.get 0).fractions.nFlags.notaryV = false ∧
        (pools.poolFrozen.get 0).fractions.nFlags.notaryF = true ∧ ∀ nValueToTakeReserves,
          fairWithdraw call pools.poolFrozen pools.poolReserves 0 nValue =
            some nValueToTakeReserves →
          0 < leftOfFreeze pools nValue nValueToTakeReserves ∧
            pools.nLiquidityTotal < leftOfFreeze pools nValue nValueToTakeReserves) := by
  unfold freezeAllOutput
  dsimp only
  split_ifs with htotal hV hF
  · refine ⟨_, rfl, ?_⟩
    simp [hst, not_le.mpr htotal]
  · obtain ⟨frMarked, hmark⟩ : ∃ frMarked, (default : CFractions).setMark net .markSet .notaryV
        call.nBlockTime = some frMarked := setMark_default _ _
    rw [hmark]
    exact ⟨_, rfl, by simp [hst, hV]⟩
  · obtain ⟨frMarked, hmark⟩ : ∃ frMarked, (default : CFractions).setMark net .markSet .notaryF
        call.nBlockTime = some frMarked := setMark_default _ _
    rw [hmark, hreserves]
    dsimp only
    cases hfair : fairWithdraw call pools.poolFrozen pools.poolReserves 0 nValue with
    | none => exact ⟨_, rfl, by simp [hV, hF, not_lt.mp htotal]⟩
    | some nValueToTakeReserves =>
      refine ⟨_, rfl, ?_⟩
      have hnodup : ((pools.poolFrozen.get 0).sAddress ::
          pools.poolReserves.keys.filter (· ≠ (pools.poolFrozen.get 0).sAddress)).Nodup :=
        List.nodup_cons.mpr ⟨by simp, (keys_nodup _).filter _⟩
      rw [takeReserves_left hnodup]
      refine Iff.trans (takeLeft_failed hst hliquidity) ?_
      simp [leftOfFreeze, hV, hF, not_lt.mp htotal]
  · exact ⟨_, rfl, by simp [hst, hF]⟩

/-- The first round goes through, and leaves the loop where the amount cannot be paid. -/
theorem fillOutput_first {out : CTxOut}
    (hnone : call.mapTestFractionsPool (call.outKey net 0) = none) :
    ∃ st, fillOutput net call pools (startOutputs call pools) (out, 0) = .ok st ∧
      (st.sFailCause.isSome = true ↔ call.FirstUnpaid net pools out) := by
  have hentry : ((startOutputs call pools).mapTestFractionsPool (call.outKey net 0)).getD default =
      default := by
    rw [startOutputs]
    dsimp only
    rw [hnone]
    rfl
  unfold fillOutput
  rw [if_neg (by simp [startOutputs])]
  dsimp only
  rw [hentry]
  unfold chooseOutput StandardCall.FirstUnpaid
  dsimp only
  by_cases hfrozen : 0 ∈ pools.poolFrozen
  · rw [if_pos hfrozen, if_pos hfrozen]
    by_cases hall : pools.fFreezeAll = true
    · obtain ⟨r, hr, hfailed⟩ := @freezeAllOutput_failed net call pools
        { startOutputs call pools with
          nValueOut := (startOutputs call pools).nValueOut + out.nValue } out.nValue rfl rfl rfl
      rw [if_pos hall, hr]
      exact ⟨_, rfl, hfailed.trans (by rw [and_iff_right hall])⟩
    · rw [if_neg hall]
      exact ⟨_, rfl, by simp [hall, startOutputs]⟩
  · rw [if_neg hfrozen, if_neg hfrozen]
    exact ⟨_, rfl, plainOutput_failed rfl rfl rfl⟩

/-- The condition by the first round of the loop. -/
theorem StandardCall.failsFirst_iff : call.FailsFirst net ↔
    ∀ pools, scanInputs net call = .ok pools →
      call.mapTestFractionsPool (call.outKey net 0) = none ∧
      ∀ out rest, call.outputs = out :: rest →
        ∃ st, fillOutput net call pools (startOutputs call pools) out = .ok st ∧
          (rest = [] ∨ st.sFailCause.isSome = true) := by
  refine forall₂_congr fun pools _ => and_congr_right fun hnone => ?_
  unfold StandardCall.outputs
  cases hvout : call.tx.vout with
  | nil => simp
  | cons first others =>
    obtain ⟨st, hround, hfailed⟩ := @fillOutput_first net call pools first hnone
    have hrest : others.zipIdx 1 = [] ↔ others = [] := by simp
    constructor
    · intro h out rest hcons
      obtain ⟨rfl, rfl⟩ := List.cons.inj hcons
      refine ⟨st, hround, ?_⟩
      rw [hfailed]
      exact (h first others rfl).imp_left hrest.mpr
    · intro h out rest hcons
      obtain ⟨rfl, rfl⟩ := List.cons.inj hcons
      obtain ⟨st', hround', hend⟩ := h _ _ rfl
      obtain rfl := Except.ok.inj (hround.symm.trans hround')
      rw [hfailed] at hend
      exact hend.imp_left hrest.mp

theorem finishOutputs_failed {n : ℕ} {sFailCause : String}
    (h : (finishOutputs net call pools st n).sFailCause = some sFailCause) :
    finishOutputs net call pools st n =
      { call.before with
        mapTestFractionsPool := Function.update st.mapTestFractionsPool (call.outKey net n) none
        sFailCause := some sFailCause } := by
  unfold finishOutputs at h ⊢
  cases hcause : failCause net call pools st with
  | some cause =>
    rw [hcause] at h
    cases h
    rfl
  | none =>
    rw [hcause] at h
    cases h

/-- The first output has the index 0, and the others do not. -/
theorem outputs_cons {out : CTxOut × ℕ} {rest : List (CTxOut × ℕ)}
    (h : call.outputs = out :: rest) : out.2 = 0 ∧ 0 ∉ rest.map Prod.snd := by
  have hindices : (out :: rest).map Prod.snd = List.range call.nVout := h ▸ outputs_indices
  have hnodup : ((out :: rest).map Prod.snd).Nodup := hindices ▸ List.nodup_range
  have hzero : out.2 = 0 := by
    have hhead := congrArg List.head? hindices
    cases hn : call.nVout with
    | zero => simp [hn] at hhead
    | succ n => simpa [hn, List.range_succ_eq_map] using hhead
  rw [List.map_cons, List.nodup_cons, hzero] at hnodup
  exact ⟨hzero, hnodup.1⟩

/-- A call that fails at its first output leaves its arguments as they were. -/
theorem unchanged_of_failsFirst {sFailCause : String}
    (hfail : (standardOutcome net call).sFailCause = some sFailCause) (h : call.FailsFirst net) :
    (standardOutcome net call).toStandardResult = call.before := by
  cases hscan : scanInputs net call with
  | error cause => rw [standardOutcome_of_input hscan]
  | ok pools =>
    obtain ⟨hnone, hfirst⟩ := StandardCall.failsFirst_iff.mp h pools hscan
    have herase (fr : Option CFractions) : Function.update
        (Function.update call.mapTestFractionsPool (call.outKey net 0) fr) (call.outKey net 0) none =
        call.mapTestFractionsPool := by
      rw [Function.update_idem, ← hnone, Function.update_eq_self]
    cases houtputs : call.outputs with
    | nil =>
      have hvisit : visitOutputs net call pools call.outputs (startOutputs call pools) 0 =
          (none, startOutputs call pools, 0) := by rw [houtputs, visitOutputs]
      rw [standardOutcome_of_visited hscan hvisit] at hfail ⊢
      have hpool := herase (call.mapTestFractionsPool (call.outKey net 0))
      rw [Function.update_eq_self] at hpool
      rw [finishOutputs_failed hfail, StandardCall.before, startOutputs, hpool]
    | cons out rest =>
      obtain ⟨st, hround, hend⟩ := hfirst out rest houtputs
      have hzero : out.2 = 0 := (outputs_cons houtputs).1
      have hvisit : visitOutputs net call pools call.outputs (startOutputs call pools) 0 =
          (none, st, 0) := by
        rw [houtputs, visitOutputs, hround]
        dsimp only
        split_ifs with hleft
        · rw [hzero]
        · obtain rfl : rest = [] := hend.resolve_right hleft
          rw [visitOutputs, hzero]
      obtain ⟨fr, hpool⟩ := fillOutput_pool rfl hround
      rw [standardOutcome_of_visited hscan hvisit] at hfail ⊢
      rw [finishOutputs_failed hfail, StandardCall.before, hpool, hzero, startOutputs, herase]

/-- An entry of the first output shows that the call has changed its arguments. -/
theorem ne_before_of_isSome {r : StandardResult}
    (hnone : call.mapTestFractionsPool (call.outKey net 0) = none)
    (h : (r.mapTestFractionsPool (call.outKey net 0)).isSome = true) : r ≠ call.before := by
  rintro rfl
  simp only [StandardCall.before, hnone, Option.isSome_none, Bool.false_eq_true] at h

/-- Where the loop goes on behind the first output, the entry of that output stays and the
latest output is another one. -/
theorem visitOutputs_behind {out : CTxOut × ℕ} {rest : List (CTxOut × ℕ)} {st₀ : OutputState}
    (houtputs : call.outputs = out :: rest)
    (hround : fillOutput net call pools (startOutputs call pools) out = .ok st₀)
    (hmore : rest ≠ []) (hleft : st₀.sFailCause = none) :
    ∃ cause st latest, visitOutputs net call pools call.outputs (startOutputs call pools) 0 =
        (cause, st, latest) ∧
      (st.mapTestFractionsPool (call.outKey net 0)).isSome = true ∧ latest ≠ 0 := by
  obtain ⟨hzero, hrest⟩ := outputs_cons houtputs
  obtain ⟨fr, hpool⟩ := fillOutput_pool rfl hround
  have hvisit : visitOutputs net call pools call.outputs (startOutputs call pools) 0 =
      visitOutputs net call pools rest st₀ out.2 := by
    rw [houtputs, visitOutputs, hround]
    simp [hleft]
  have hfirst : (st₀.mapTestFractionsPool (call.outKey net 0)).isSome = true := by
    rw [hpool, hzero, Function.update_self]
    rfl
  have hlatest : (visitOutputs net call pools rest st₀ out.2).2.2 ∈ rest.map Prod.snd :=
    visitOutputs_latest hmore
  exact ⟨_, _, _, hvisit, visitOutputs_isSome hleft hfirst, fun heq => hrest (heq ▸ hlatest)⟩

/-- A call that leaves its arguments as they were fails at its first output. -/
theorem failsFirst_of_unchanged {sFailCause : String} (hfresh : call.Fresh net)
    (hfail : (standardOutcome net call).sFailCause = some sFailCause)
    (h : (standardOutcome net call).toStandardResult = call.before) : call.FailsFirst net := by
  refine StandardCall.failsFirst_iff.mpr fun pools hscan => ?_
  cases houtputs : call.outputs with
  | nil =>
    have hvisit : visitOutputs net call pools call.outputs (startOutputs call pools) 0 =
        (none, startOutputs call pools, 0) := by rw [houtputs, visitOutputs]
    rw [standardOutcome_of_visited hscan hvisit] at hfail h
    rw [finishOutputs_failed hfail] at h
    have hpool := congrFun (congrArg StandardResult.mapTestFractionsPool h) (call.outKey net 0)
    dsimp only [StandardCall.before] at hpool
    rw [Function.update_self] at hpool
    exact ⟨hpool.symm, fun out rest hcons => by cases hcons⟩
  | cons out rest =>
    have hzero : out.2 = 0 := (outputs_cons houtputs).1
    have hmem : out ∈ call.outputs := houtputs ▸ List.mem_cons_self
    have hnone : call.mapTestFractionsPool (call.outKey net 0) = none :=
      hfresh 0 (hzero ▸ lt_of_mem_outputs hmem)
    refine ⟨hnone, fun out' rest' hcons => ?_⟩
    cases hcons
    cases hround : fillOutput net call pools (startOutputs call pools) out with
    | error crossing =>
      have hvisit : visitOutputs net call pools call.outputs (startOutputs call pools) 0 =
          (some crossing, { startOutputs call pools with
            mapTestFractionsPool :=
              openEntry call.mapTestFractionsPool (call.outKey net 0) }, 0) := by
        rw [houtputs, visitOutputs, hround, hzero]
        rfl
      rw [standardOutcome_of_crossing hscan hvisit] at h
      exact (ne_before_of_isSome hnone (isSome_openEntry_self _ _) h).elim
    | ok st₀ =>
      refine ⟨st₀, rfl, ?_⟩
      by_contra! hgoes
      obtain ⟨hmore, hleft⟩ := hgoes
      obtain ⟨cause, st, latest, hvisit, hentry, hlatest⟩ :=
        visitOutputs_behind houtputs hround hmore (by simpa using hleft)
      cases cause with
      | some crossing =>
        rw [standardOutcome_of_crossing hscan hvisit] at h
        exact ne_before_of_isSome hnone hentry h
      | none =>
        rw [standardOutcome_of_visited hscan hvisit] at hfail h
        rw [finishOutputs_failed hfail] at h
        refine ne_before_of_isSome hnone ?_ h
        dsimp only
        rwa [Function.update_of_ne (fun heq => hlatest (outKey_inj.mp heq).symm)]

end Standard

/-! ## Coinstakes -/

section Staking

variable (call : StakingCall)

/-- No fractions are recorded yet for the outputs of the coinstake. -/
def StakingCall.Fresh : Prop :=
  ∀ i < call.tx.vout.length, call.mapTestFractionsPool (call.outKey net i) = none

/-- Where the stake can be read, it has one mark at most and its amount with the reward and the
fees covers the output that returns it, and the entries that are erased were not there before. -/
def StakingCall.PaysStake : Prop :=
  ∀ stake frStake, readStake net call = .ok (stake, frStake) → call.Fresh net ∧
    ∀ out, (call.outputs.find? fun out => isStakeOutput net stake out.1) = some out →
      frStake.nFlags.nMarks ≤ 1 ∧ out.1.nValue ≤
        stake.nValue + (call.nCalculatedStakeRewardWithoutFees + call.feesFractions.total)

variable {net call} {stake : CTxOut} {frStake : CFractions} {st : StakeState} {sFailCause : String}

theorem startStake_value : (startStake net call stake).nValueRewardLeft =
    call.nCalculatedStakeRewardWithoutFees + call.feesFractions.total := by
  rw [startStake_left, CFractions.total_eq_sum, startStake_reward, CFractions.total_eq_sum]
  simp only [Pi.add_apply, Finset.sum_add_distrib, sum_stdColumns]

/-- Marks cross when the stake has several. -/
theorem transferMarks_isOk {frOut : CFractions} (hmarks : frOut.marks = frStake.marks) :
    (∃ fr, transferMarks net frStake frOut = .ok fr) ↔ frStake.nFlags.nMarks ≤ 1 := by
  obtain ⟨hflags, -⟩ := Prod.ext_iff.mp hmarks
  simp only [CFractions.marks, Flags.mk.injEq, true_and] at hflags
  obtain ⟨hF, hL, hV, hC⟩ := hflags
  unfold transferMarks CFractions.setMark Flags.nMarks Flags.set
  cases hf : frStake.nFlags.notaryF <;> cases hl : frStake.nFlags.notaryL <;>
    cases hv : frStake.nFlags.notaryV <;> cases hc : frStake.nFlags.notaryC <;>
    simp_all

theorem payStake_paid (out : CTxOut × ℕ) :
    (payStake net call stake frStake (startStake net call stake) out).1 = none ↔
      frStake.nFlags.nMarks ≤ 1 ∧ out.1.nValue ≤
        stake.nValue + (call.nCalculatedStakeRewardWithoutFees + call.feesFractions.total) := by
  have hmarks : (if 0 < out.1.nValue - stake.nValue then
      ((startStake net call stake).frReward.moveRatioPartTo frStake
        (out.1.nValue - stake.nValue)).2.2 else frStake).marks = frStake.marks := by
    obtain ⟨q, hq⟩ := CFractions.moveRatioPartTo_moved (startStake net call stake).frReward frStake
      (out.1.nValue - stake.nValue)
    split_ifs
    · exact hq.dstMarks
    · rfl
  have hcross : (∃ fr, transferMarks net frStake _ = .ok fr) ↔ _ := transferMarks_isOk hmarks
  have hvalue : (startStake net call stake).nValueRewardLeft = _ := startStake_value
  rw [← hcross, ← not_lt, ← hvalue]
  unfold payStake
  dsimp only
  cases htransfer : transferMarks net frStake _ with
  | error cause => simp
  | ok fr =>
    by_cases hshort : stake.nValue + (startStake net call stake).nValueRewardLeft < out.1.nValue
    · simp [hshort]
    · simp [hshort]

theorem payStake_pool (out : CTxOut × ℕ) :
    ∃ fr, (payStake net call stake frStake st out).2.mapTestFractionsPool =
      Function.update st.mapTestFractionsPool (call.outKey net out.2) (some fr) := by
  unfold payStake
  dsimp only
  split
  · exact ⟨_, rfl⟩
  · split_ifs <;> exact ⟨_, rfl⟩

theorem payOthers_failed {nStakeOut : ℕ}
    (h : (payOthers net call nStakeOut st).sFailCause = some sFailCause) :
    payOthers net call nStakeOut st = call.erased net sFailCause := by
  unfold payOthers at h ⊢
  cases hrewards : payRewards net call nStakeOut st with
  | error cause =>
    rw [hrewards] at h
    cases h
    rfl
  | ok st' =>
    rw [hrewards] at h
    dsimp only at h ⊢
    split_ifs at h ⊢ with hzero
    · cases h
      rfl
    · cases hmismatch : mismatchedStakeOutput net call st'.mapTestFractionsPool with
      | some i =>
        rw [hmismatch] at h
        cases h
        rfl
      | none =>
        rw [hmismatch] at h
        cases h

/-- Entries that were not there are not missed. -/
theorem StakingCall.erased_pool (hfresh : call.Fresh net) :
    (call.erased net sFailCause).mapTestFractionsPool = call.mapTestFractionsPool := by
  funext fkey
  dsimp only [StakingCall.erased]
  split_ifs with hkey
  · have hsame : fkey = call.outKey net fkey.n := by
      obtain ⟨hash, n⟩ := fkey
      obtain rfl : hash = net.getHash call.tx := hkey.1
      rfl
    rw [hsame, hfresh fkey.n hkey.2]
  · rfl

/-- A coinstake whose stake can be paid leaves the pool as it was when it fails. -/
theorem unchanged_of_paysStake
    (hfail : (calculateStakingFractions_v2 net call).sFailCause = some sFailCause)
    (h : call.PaysStake net) :
    (calculateStakingFractions_v2 net call).mapTestFractionsPool = call.mapTestFractionsPool := by
  unfold calculateStakingFractions_v2 at hfail ⊢
  cases hread : readStake net call with
  | error cause => rfl
  | ok p =>
    obtain ⟨stake, frStake⟩ := p
    obtain ⟨hfresh, hpays⟩ := h stake frStake hread
    rw [hread] at hfail
    dsimp only at hfail ⊢
    cases hfind : call.outputs.find? fun out => isStakeOutput net stake out.1 with
    | none =>
      rw [hfind] at hfail
      dsimp only at hfail ⊢
      rw [payOthers_failed hfail, StakingCall.erased_pool hfresh]
    | some out =>
      rw [hfind] at hfail
      dsimp only at hfail ⊢
      rcases hpay : payStake net call stake frStake (startStake net call stake) out with ⟨cause, st⟩
      obtain rfl : cause = none := by
        have hnone : (payStake net call stake frStake (startStake net call stake) out).1 = none :=
          (payStake_paid out).mpr (hpays out hfind)
        rwa [hpay] at hnone
      rw [hpay] at hfail
      dsimp only at hfail ⊢
      rw [payOthers_failed hfail, StakingCall.erased_pool hfresh]

/-- A coinstake that leaves the pool as it was when it fails could pay its stake. -/
theorem paysStake_of_unchanged (hfresh : call.Fresh net)
    (h : (calculateStakingFractions_v2 net call).mapTestFractionsPool = call.mapTestFractionsPool) :
    call.PaysStake net := by
  intro stake frStake hread
  refine ⟨hfresh, fun out hfind => (@payStake_paid net _ _ _ out).mp ?_⟩
  rcases hpay : payStake net call stake frStake (startStake net call stake) out with ⟨cause, st⟩
  cases cause with
  | none => rfl
  | some cause =>
    obtain ⟨fr, hpool⟩ : ∃ fr,
        (payStake net call stake frStake (startStake net call stake) out).2.mapTestFractionsPool =
          Function.update _ (call.outKey net out.2) (some fr) := payStake_pool out
    have hlength : out.2 < call.tx.vout.length :=
      (List.getElem?_eq_some_iff.mp (StakingCall.mem_outputs.mp (List.mem_of_find?_eq_some hfind))).1
    have hentry := congrFun h (call.outKey net out.2)
    rw [calculateStakingFractions_v2, hread] at hentry
    dsimp only at hentry
    rw [hfind] at hentry
    dsimp only at hentry
    rw [hpay] at hpool hentry
    dsimp only at hpool hentry
    rw [hpool, Function.update_self, hfresh out.2 hlength] at hentry
    cases hentry

end Staking

/-! ## Both calculations -/

/-- A failed calculation leaves its arguments as they were exactly where a standard call fails
with its inputs or at its first output, and a coinstake fails with its input or behind the
output that returns the stake. That these are all such calls is said for pools that have no
entries for the outputs yet. -/
theorem failed_calculations_unchanged (call : StandardCall) (stake : StakingCall) :
    (∀ sFailCause, calculateStandardFractions net call = .error sFailCause →
      (call.FailsFirst net → (standardOutcome net call).toStandardResult = call.before) ∧
      (call.Fresh net → (standardOutcome net call).toStandardResult = call.before →
        call.FailsFirst net)) ∧
    (∀ sFailCause, (calculateStakingFractions_v2 net stake).sFailCause = some sFailCause →
      (stake.PaysStake net → (calculateStakingFractions_v2 net stake).mapTestFractionsPool =
        stake.mapTestFractionsPool) ∧
      (stake.Fresh net → (calculateStakingFractions_v2 net stake).mapTestFractionsPool =
        stake.mapTestFractionsPool → stake.PaysStake net)) :=
  ⟨fun _ herror =>
      have hfail := standardOutcome_of_error herror
      ⟨unchanged_of_failsFirst hfail, fun hfresh => failsFirst_of_unchanged hfresh hfail⟩,
    fun _ hfail => ⟨unchanged_of_paysStake hfail, fun hfresh => paysStake_of_unchanged hfresh⟩⟩

/-- 10 in reserve and a payment of 4 to an address that has no liquidity to take from. -/
def shortCall : StandardCall :=
  { sampleCall with tx := { sampleCall.tx with vout := [⟨4, [0x43]⟩] } }

/-- The only output is the one whose entry is erased. -/
theorem shortCall_unchanged :
    (standardOutcome sampleNet shortCall).toStandardResult = shortCall.before := by
  have hfail : (calculateStandardFractions sampleNet shortCall).isOk = false := by decide +kernel
  cases hcalc : calculateStandardFractions sampleNet shortCall with
  | ok r =>
    rw [hcalc] at hfail
    cases hfail
  | error sFailCause =>
    refine ((failed_calculations_unchanged sampleNet shortCall (sampleStaking fun _ => none)).1
      sFailCause hcalc).1 fun pools hscan => ⟨rfl, fun out rest houtputs => ?_⟩
    cases houtputs
    exact .inl rfl

/-- 6 of 10 in reserve go back to their address, and 4 to another one, which has no liquidity
to take from. -/
def failingCall : StandardCall :=
  { sampleCall with tx := { sampleCall.tx with vout := [⟨6, [0x42]⟩, ⟨4, [0x43]⟩] } }

def failingStake : StakingCall :=
  { sampleStaking fun _ => none with
    tx := { (sampleStaking fun _ => none).tx with vout := [⟨0, []⟩, ⟨100, [0x42]⟩] } }

/-- Both calls fail and leave entries of their outputs. -/
theorem failed_calls_leave_entries :
    ((standardOutcome sampleNet failingCall).sFailCause.isSome = true ∧
      (standardOutcome sampleNet failingCall).toStandardResult ≠ failingCall.before) ∧
    (calculateStakingFractions_v2 sampleStakingNet failingStake).sFailCause.isSome = true ∧
      (calculateStakingFractions_v2 sampleStakingNet failingStake).mapTestFractionsPool ≠
        failingStake.mapTestFractionsPool := by
  refine ⟨⟨by decide +kernel, ?_⟩, by decide +kernel, ?_⟩
  · intro h
    have hentry := congrArg (fun r => (r.mapTestFractionsPool ⟨9, 0⟩).isSome) h
    revert hentry
    decide +kernel
  · intro h
    have hentry := congrArg (fun pool => (pool ⟨7, 1⟩).isSome) h
    revert hentry
    decide +kernel

end BitBay
