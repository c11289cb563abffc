import BitBay.Peg.OutputSteps

/-!
# Column-wise conservation

The checks of `calculateStandardFractions` compare totals only. Still no column
changes: whatever the inputs bring in a column is in that column of the outputs
or of the fees (`calculateStandardFractions_conserves`).
-/
namespace BitBay

open scoped BigOperators

variable {net : Params} {call : StandardCall} {pools : PoolState}

/-! ## Values in and out -/

def StandardCall.valueIn (call : StandardCall) : ℤ :=
  (call.inputs.map fun inp => ((call.mapInputs inp.1.prevout.fkey).getD default).nValue).sum

def StandardCall.valueOut (call : StandardCall) : ℤ := (call.outputs.map fun o => o.1.nValue).sum

theorem InputStep.nValueIn {st : PoolState} {i : ℕ} {sAddress : CString} {frInp : CFractions}
    {r : PoolState × ℤ} (h : InputStep net call st i sAddress frInp r) :
    r.1.nValueIn = st.nValueIn := by
  cases h <;> rfl

theorem scanInputs_valueIn (h : scanInputs net call = .ok pools) :
    pools.nValueIn = call.valueIn := by
  have hrun := Run.foldlM_sum (P := fun _ => True) (m := PoolState.nValueIn)
    (w := fun inp => ((call.mapInputs inp.1.prevout.fkey).getD default).nValue)
    (fun _ _ _ _ _ _ => trivial) (fun inp _ st st' _ hs => ?_) trivial h
  · exact hrun.trans (zero_add _)
  · obtain ⟨prevtxout, frInp, applied, hread, hstep, rfl⟩ := scanInput_ok hs
    obtain ⟨hout, -⟩ := readInput_ok hread
    have hvalue := hstep.nValueIn
    simpa [hout, poolInput] using hvalue

/-! ## Totals of the pools -/

theorem cols_foldl_add (l : List (CString × CFractions)) (a : CFractions) :
    (l.foldl (fun fees item => fees + item.2) a).cols =
      a.cols + (l.map fun item => item.2.cols).sum := by
  induction l generalizing a with
  | nil => simp
  | cons item rest ih =>
    rw [List.foldl_cons, ih, CFractions.cols_add, List.map_cons, List.sum_cons, add_assoc]

theorem cols_commonLiquidity (m : PoolMap) :
    (commonLiquidity m).cols = m.sum CFractions.cols := by
  rw [commonLiquidity, cols_foldl_add, CFractions.cols_zeroStd, zero_add]
  rfl

theorem cols_txFeeFractions (pools : PoolState) (st : OutputState) :
    (txFeeFractions pools st).cols = st.frCommonLiquidity.cols + pools.frColdFees.cols +
      st.poolReserves.sum CFractions.cols := by
  rw [txFeeFractions, cols_foldl_add]
  simp only [CFractions.cols_add, CFractions.cols_zeroStd, zero_add]
  rfl

theorem txFeeFractions_std (pools : PoolState) (st : OutputState) :
    (txFeeFractions pools st).nFlags.std = true := by
  have hfold : ∀ (l : List (CString × CFractions)) (a : CFractions), a.nFlags.std = true →
      (l.foldl (fun fees item => fees + item.2) a).nFlags.std = true := by
    intro l
    induction l with
    | nil => exact fun _ ha => ha
    | cons item rest ih => exact fun _ _ => ih _ rfl
  exact hfold _ _ rfl

/-! ## The outputs -/

def outCols (net : Params) (call : StandardCall) (pool : MapFractions) (i : ℕ) : Columns :=
  ((pool (call.outKey net i)).getD default).cols

def allOutCols (net : Params) (call : StandardCall) (pool : MapFractions) : Columns :=
  ∑ i ∈ Finset.range call.nVout, outCols net call pool i

theorem outCols_none {pool : MapFractions} {i : ℕ} (h : pool (call.outKey net i) = none) :
    outCols net call pool i = 0 := by
  simp [outCols, h]

theorem allOutCols_update {pool : MapFractions} {i : ℕ} (hi : i < call.nVout)
    (hnew : pool (call.outKey net i) = none) (fr : CFractions) :
    allOutCols net call (Function.update pool (call.outKey net i) (some fr)) =
      allOutCols net call pool + fr.cols := by
  have hmem := Finset.mem_range.mpr hi
  have hrest : ∀ j ∈ (Finset.range call.nVout).erase i,
      outCols net call (Function.update pool (call.outKey net i) (some fr)) j =
        outCols net call pool j := by
    intro j hj
    simp [outCols, outKey_inj, Finset.ne_of_mem_erase hj]
  have hself : outCols net call (Function.update pool (call.outKey net i) (some fr)) i = fr.cols := by
    simp [outCols]
  unfold allOutCols
  rw [← Finset.add_sum_erase _ _ hmem, ← Finset.add_sum_erase _ (outCols net call pool) hmem,
    Finset.sum_congr rfl hrest, hself, outCols_none hnew]
  abel

/-- A round takes the columns of the output from the pools, or from what the inputs
prepared for it. -/
theorem OutputStep.accounts {st : OutputState} {out : CTxOut} {i : ℕ}
    {r : OutputState × CFractions} (hpools : pools.Nonneg)
    (h : OutputStep net call pools st default out i r) :
    r.1.frCommonLiquidity.cols + r.1.poolReserves.sum CFractions.cols + r.2.cols =
      st.frCommonLiquidity.cols + st.poolReserves.sum CFractions.cols +
        (pools.poolFrozen.get i).fractions.cols := by
  have hempty : (pools.poolFrozen.get i).fractions.total ≤ 0 →
      (pools.poolFrozen.get i).fractions.cols = 0 := (hpools.frozen i).cols_eq_zero
  have hnone : i ∉ pools.poolFrozen → (pools.poolFrozen.get i).fractions.cols = 0 := by
    intro hnot
    rw [SortedMap.get_of_not_mem hnot]
    exact CFractions.cols_default
  cases h with
  | kept hmem => rfl
  | untouched hmem htotal => rw [hempty htotal, CFractions.cols_default]
  | frozenLiquidity hmem htotal hset hdrawn =>
    rw [hdrawn.accounts, hempty htotal, CFractions.setMark_cols hset, CFractions.cols_default]
  | frozenReserve hmem htotal hset hdrawn =>
    rw [hdrawn.accounts, hempty htotal, CFractions.setMark_cols hset, CFractions.cols_default]
  | reserve hnot hallowed hdrawn =>
    rw [hdrawn.accounts, hnone hnot, CFractions.cols_default]
  | liquidity hnot hdrawn =>
    rw [hdrawn.accounts, hnone hnot, CFractions.cols_default]

theorem OutputStep.valueOut {st : OutputState} {frOut : CFractions} {out : CTxOut} {i : ℕ}
    {r : OutputState × CFractions} (h : OutputStep net call pools st frOut out i r) :
    r.1.nValueOut = st.nValueOut := by
  cases h with
  | kept hmem => rfl
  | untouched hmem htotal => rfl
  | frozenLiquidity hmem htotal hset hdrawn => exact hdrawn.valueOut
  | frozenReserve hmem htotal hset hdrawn => exact hdrawn.valueOut
  | reserve hnot hallowed hdrawn => exact hdrawn.valueOut
  | liquidity hnot hdrawn => exact hdrawn.valueOut

/-- Outputs are stored as vectors or are still empty. -/
theorem OutputStep.filled {st : OutputState} {frOut : CFractions} {out : CTxOut} {i : ℕ}
    {r : OutputState × CFractions} (hfrozen : ∀ j, (pools.poolFrozen.get j).fractions.Filled)
    (hfrOut : frOut.Filled) (h : OutputStep net call pools st frOut out i r) : r.2.Filled := by
  cases h with
  | kept hmem => exact hfrozen i
  | untouched hmem htotal => exact hfrOut
  | frozenLiquidity hmem htotal hset hdrawn =>
    exact hdrawn.filled (CFractions.setMark_filled hset hfrOut)
  | frozenReserve hmem htotal hset hdrawn =>
    exact hdrawn.filled (CFractions.setMark_filled hset hfrOut)
  | reserve hnot hallowed hdrawn => exact hdrawn.filled hfrOut
  | liquidity hnot hdrawn => exact hdrawn.filled hfrOut

/-! ## A successful call -/

theorem calculateStandardFractions_ok {r : StandardResult}
    (h : calculateStandardFractions net call = .ok r) :
    ∃ pools st, scanInputs net call = .ok pools ∧ fillOutputs net call pools = .ok st ∧
      failCause net call pools st = none ∧
      r = {
        mapInputsFractions := placeOutputs net call st.mapTestFractionsPool
        mapTestFractionsPool := st.mapTestFractionsPool
        feesFractions := call.feesFractions + txFeeFractions pools st } := by
  simp only [calculateStandardFractions, Run.bind_eq_ok] at h
  obtain ⟨pools, hscan, st, hfill, h⟩ := h
  cases hcause : failCause net call pools st with
  | some cause => simp [hcause] at h
  | none =>
    simp only [hcause] at h
    cases h
    exact ⟨pools, st, hscan, hfill, hcause, rfl⟩

theorem failCause_none {st : OutputState} (h : failCause net call pools st = none) :
    (txFeeFractions pools st).Nonneg ∧
      pools.nValueIn - st.nValueOut = (txFeeFractions pools st).total ∧
      st.sFailCause = none ∧
      ∀ o ∈ call.outputs,
        ((st.mapTestFractionsPool (call.outKey net o.2)).getD default).total = o.1.nValue ∧
        ((st.mapTestFractionsPool (call.outKey net o.2)).getD default).isPositive = true := by
  simp only [failCause] at h
  split_ifs at h with hpos hfee hleft
  · exact absurd (h ▸ hleft) (by simp)
  · refine ⟨?_, not_ne_iff.mp hfee, by simpa using hleft, fun o ho => ?_⟩
    · exact CFractions.Filled.nonneg (Or.inl (txFeeFractions_std pools st)) (by simpa using hpos)
    · have hfind := Option.map_eq_none_iff.mp (Option.map_eq_none_iff.mp h)
      have hnone := List.find?_eq_none.mp hfind o ho
      simp only [ne_eq, decide_eq_true_eq, not_or, not_not, Bool.not_eq_false] at hnone
      exact ⟨hnone.1.symm, hnone.2⟩

theorem outValue_eq {o : CTxOut × ℕ} (h : o ∈ call.outputs) : call.outValue o.2 = o.1.nValue := by
  simp [StandardCall.outValue, mem_outputs.mp h]

theorem exists_mem_outputs {i : ℕ} (hi : i < call.nVout) : ∃ o ∈ call.outputs, o.2 = i :=
  ⟨(call.tx.vout.get ⟨i, hi⟩, i), mem_outputs.mpr (List.getElem?_eq_getElem hi), rfl⟩

/-- Every output of an accepted transaction has the value it states. -/
theorem outputs_checked {st : OutputState} (hfresh : call.Fresh net)
    (hscan : scanInputs net call = .ok pools) (hfill : fillOutputs net call pools = .ok st)
    (hcause : failCause net call pools st = none) :
    ∀ o ∈ call.outputs, ∃ fr, st.mapTestFractionsPool (call.outKey net o.2) = some fr ∧
      fr.Nonneg ∧ fr.total = o.1.nValue := by
  obtain ⟨-, -, hok, hchecks⟩ := failCause_none hcause
  have hrule := (fillOutputs_rule (I := fun _ _ => True) (Q := fun _ fr => fr.Filled) hfresh
    (fun _ _ _ _ _ => trivial)
    (fun _ _ _ _ _ _ _ hr => ⟨trivial,
      hr.filled (scanInputs_filled hscan) CFractions.filled_default⟩) hfill hok).2
  intro o ho
  obtain ⟨fr, hfr, hfilled⟩ := hrule o ho
  obtain ⟨htotal, hpos⟩ := hchecks o ho
  rw [hfr] at htotal hpos
  exact ⟨fr, hfr, hfilled.nonneg hpos, htotal⟩

/-- The values of the outputs need no assumption: the checks exclude negative ones. -/
theorem nonneg_of_ok {st : OutputState} (hfresh : call.Fresh net)
    (hscan : scanInputs net call = .ok pools) (hfill : fillOutputs net call pools = .ok st)
    (hcause : failCause net call pools st = none)
    (hinputs : ∀ inp ∈ call.inputs, ∀ fr,
      call.mapInputsFractions inp.1.prevout.fkey = some fr → fr.Nonneg) : call.Nonneg := by
  refine ⟨hinputs, fun i hi => ?_⟩
  obtain ⟨o, ho, rfl⟩ := exists_mem_outputs hi
  obtain ⟨fr, -, hnonneg, htotal⟩ := outputs_checked hfresh hscan hfill hcause o ho
  rw [outValue_eq ho, ← htotal]
  exact hnonneg.total

theorem sum_map_outputs (call : StandardCall) (F : ℕ → Columns) :
    (call.outputs.map fun o => F o.2).sum = ∑ i ∈ Finset.range call.nVout, F i := by
  have hmap : (call.outputs.map fun o => F o.2) = (List.range call.nVout).map F := by
    rw [← outputs_indices, List.map_map]
    rfl
  rw [hmap]
  rfl

/-- The output loop only moves columns. -/
theorem fillOutputs_accounts {st : OutputState} (hfresh : call.Fresh net) (hpools : pools.Nonneg)
    (hfill : fillOutputs net call pools = .ok st) (hok : st.sFailCause = none) :
    st.frCommonLiquidity.cols + st.poolReserves.sum CFractions.cols +
        allOutCols net call st.mapTestFractionsPool =
      pools.poolLiquidity.sum CFractions.cols + pools.poolReserves.sum CFractions.cols +
        frozenCols call.nVout pools.poolFrozen ∧
      st.nValueOut = call.valueOut := by
  have hrule := (fillOutputs_rule
    (I := fun rest st =>
      st.frCommonLiquidity.cols + st.poolReserves.sum CFractions.cols +
          allOutCols net call st.mapTestFractionsPool +
          (rest.map fun o => (pools.poolFrozen.get o.2).fractions.cols).sum =
        pools.poolLiquidity.sum CFractions.cols + pools.poolReserves.sum CFractions.cols +
          frozenCols call.nVout pools.poolFrozen ∧
      st.nValueOut + (rest.map fun o => o.1.nValue).sum = call.valueOut)
    (Q := fun _ _ => True) hfresh ?_ ?_ hfill hok).1
  · simpa using hrule
  · intro st hcommon hreserves hvalue hpool
    have hnone : allOutCols net call st.mapTestFractionsPool = 0 :=
      Finset.sum_eq_zero fun i hi => outCols_none (hpool ▸ hfresh i (Finset.mem_range.mp hi))
    have hfrozen := sum_map_outputs call fun i => (pools.poolFrozen.get i).fractions.cols
    rw [hcommon, hreserves, hvalue, hnone, cols_commonLiquidity, hfrozen, add_zero, zero_add]
    exact ⟨rfl, rfl⟩
  · intro o rest st r ho hI hnew hr
    refine ⟨⟨?_, ?_⟩, trivial⟩
    · have hstep := hr.accounts hpools
      have hout : allOutCols net call (OutputState.leave net call o.2 r).mapTestFractionsPool =
          allOutCols net call st.mapTestFractionsPool + r.2.cols := by
        rw [← allOutCols_update (lt_of_mem_outputs ho) hnew]
        simp [OutputState.leave, hr.pool, OutputState.enter]
      rw [hout, ← hI.1, List.map_cons, List.sum_cons]
      simp only [OutputState.enter, OutputState.leave] at hstep ⊢
      linear_combination hstep
    · have hvalue := hr.valueOut
      rw [← hI.2, List.map_cons, List.sum_cons]
      simp only [OutputState.enter, OutputState.leave] at hvalue ⊢
      rw [hvalue]
      ring

/-- What the inputs bring is in the outputs or in the fees of this transaction. -/
theorem inputs_accounted {st : OutputState} (hfresh : call.Fresh net) (hpools : pools.Nonneg)
    (hscan : scanInputs net call = .ok pools) (hfill : fillOutputs net call pools = .ok st)
    (hok : st.sFailCause = none) :
    (call.inputs.map call.inputCols).sum =
      allOutCols net call st.mapTestFractionsPool + (txFeeFractions pools st).cols := by
  have haccounts := (fillOutputs_accounts hfresh hpools hfill hok).1
  have hheld := scanInputs_held hscan
  rw [PoolState.held] at hheld
  rw [cols_txFeeFractions, ← hheld]
  linear_combination -haccounts

/-- Column by column, what the inputs bring is in the outputs or in the fees; each
output has its value, and the fees are what the outputs leave of the inputs. -/
theorem calculateStandardFractions_conserves {r : StandardResult}
    (h : calculateStandardFractions net call = .ok r) (hfresh : call.Fresh net)
    (hinputs : ∀ inp ∈ call.inputs, ∀ fr,
      call.mapInputsFractions inp.1.prevout.fkey = some fr → fr.Nonneg) :
    (call.inputs.map call.inputCols).sum =
        allOutCols net call r.mapTestFractionsPool +
          (r.feesFractions.cols - call.feesFractions.cols) ∧
      (∀ i < call.nVout, ∃ fr, r.mapTestFractionsPool (call.outKey net i) = some fr ∧
        fr.Nonneg ∧ ∑ c, fr.cols c = call.outValue i) ∧
      (∀ c, 0 ≤ r.feesFractions.cols c - call.feesFractions.cols c) ∧
      ∑ c, (r.feesFractions.cols c - call.feesFractions.cols c) =
        call.valueIn - call.valueOut := by
  obtain ⟨pools, st, hscan, hfill, hcause, rfl⟩ := calculateStandardFractions_ok h
  obtain ⟨hfees, hfee, hok, -⟩ := failCause_none hcause
  have hcall := nonneg_of_ok hfresh hscan hfill hcause hinputs
  have hpools := scanInputs_nonneg hcall hscan
  obtain ⟨-, hvalueOut⟩ := fillOutputs_accounts hfresh hpools hfill hok
  have hadded : (call.feesFractions + txFeeFractions pools st).cols - call.feesFractions.cols =
      (txFeeFractions pools st).cols := by
    rw [CFractions.cols_add]
    abel
  refine ⟨?_, fun i hi => ?_, fun c => ?_, ?_⟩
  · rw [hadded]
    exact inputs_accounted hfresh hpools hscan hfill hok
  · obtain ⟨o, ho, rfl⟩ := exists_mem_outputs hi
    obtain ⟨fr, hfr, hnonneg, htotal⟩ := outputs_checked hfresh hscan hfill hcause o ho
    exact ⟨fr, hfr, hnonneg, by rw [← CFractions.total_eq_sum, htotal, outValue_eq ho]⟩
  · have hc := congrFun hadded c
    rw [Pi.sub_apply] at hc
    rw [hc]
    exact hfees c
  · have hsum : ∑ c, (txFeeFractions pools st).cols c = call.valueIn - call.valueOut := by
      rw [← CFractions.total_eq_sum, ← hfee, scanInputs_valueIn hscan, hvalueOut]
    rw [← hsum]
    exact Finset.sum_congr rfl fun c _ => congrFun hadded c

/-! ## A payment back to the own address -/

/-- A network in which a script that is no notary is its own address. -/
def sampleNet : Params where
  pegFrozenTime := 100
  pegVFrozenTime := 400
  getHash _ := 9
  destinations s := if s.toNotary.isSome then [] else [CScript.toCString s]
  isValidAddress _ := true

def sampleCall : StandardCall where
  tx := { vin := [{ prevout := ⟨1, 0⟩ }], vout := [⟨6, [0x42]⟩] }
  nSupply := 3
  nBlockTime := 50
  mapInputs := fun k => if k = ⟨1, 0⟩ then some ⟨10, [0x42]⟩ else none
  mapInputsFractions := fun k => if k = ⟨1, 0⟩ then some (CFractions.singleColumn 1 10) else none

theorem sampleCall_isOk : (calculateStandardFractions sampleNet sampleCall).isOk = true := by
  decide +kernel

theorem sampleCall_nonneg : ∀ inp ∈ sampleCall.inputs, ∀ fr,
    sampleCall.mapInputsFractions inp.1.prevout.fkey = some fr → fr.Nonneg := by
  intro inp _ fr hfr
  simp only [sampleCall] at hfr
  split_ifs at hfr
  cases hfr
  exact CFractions.singleColumn_nonneg (by decide) 1

theorem sampleCall_conserves : ∃ r, calculateStandardFractions sampleNet sampleCall = .ok r ∧
    (sampleCall.inputs.map sampleCall.inputCols).sum =
      allOutCols sampleNet sampleCall r.mapTestFractionsPool +
        (r.feesFractions.cols - sampleCall.feesFractions.cols) := by
  obtain ⟨r, hr⟩ := Run.exists_of_isOk sampleCall_isOk
  exact ⟨r, hr, (calculateStandardFractions_conserves hr (fun _ _ => rfl) sampleCall_nonneg).1⟩

end BitBay
