import BitBay.Peg.Conservation

/-!
# Cold inputs

A cold input is bound to the output at its own index: what this output does not take
becomes fees. The source looks at that output only when there is one. A cold input
whose index is not the index of an output stays in the pools, which all outputs draw
on. The pools are free of cold inputs exactly when no cold input with an amount is in
that place, and then cold coins stay bound (`cold_inputs_bound`).
-/
namespace BitBay

open scoped BigOperators

variable {net : Params} {call : StandardCall}

/-! ## The output loop keeps the pools non-negative -/

/-- Neither the common liquidity nor a reserve is negative. -/
def OutputState.PoolsNonneg (st : OutputState) : Prop :=
  st.frCommonLiquidity.Nonneg ∧ ∀ a, (st.poolReserves.get a).Nonneg

theorem CFractions.Moved.src_nonneg {a b : CFractions} {p : ℤ} {m : ℤ × CFractions × CFractions}
    {q : Columns} (h : Moved a b p m q) (ha : a.Nonneg) (hp : 0 ≤ p) : m.2.1.Nonneg := by
  intro c
  rw [h.src]
  exact sub_nonneg.mpr (h.bounds ha hp c).2

section Signs

variable {pools : PoolState} {st : OutputState} {fr : CFractions} {p : ℤ}

theorem takeLiquidity_nonneg (h : st.PoolsNonneg) (hp : 0 ≤ p) (fr : CFractions) (cause : String) :
    (takeLiquidity st fr p cause).1.PoolsNonneg := by
  unfold takeLiquidity
  split_ifs with hshort
  · exact h
  · obtain ⟨q, hq⟩ := CFractions.moveRatioPartTo_moved st.frCommonLiquidity fr p
    exact ⟨hq.src_nonneg h.1 hp, h.2⟩

theorem takeLeft_nonneg (h : st.PoolsNonneg) (fr : CFractions) (p : ℤ) (cause : String) :
    (takeLeft st fr p cause).1.PoolsNonneg := by
  unfold takeLeft
  split_ifs with hpos
  · exact takeLiquidity_nonneg h hpos.le fr cause
  · exact h

theorem takeReserves_nonneg {m : PoolMap} (l : List CString) (h : ∀ a, (m.get a).Nonneg)
    (fr : CFractions) (hp : 0 ≤ p) (a : CString) : ((takeReserves l m fr p).1.get a).Nonneg := by
  induction l generalizing m fr p with
  | nil => exact h a
  | cons x rest ih =>
    have hmin : 0 ≤ min p (m.get x).total := le_min hp (h x).total
    obtain ⟨q, hq⟩ := CFractions.moveRatioPartTo_moved (m.get x) fr (min p (m.get x).total)
    have hnext := SortedMap.forall_get_insert (P := fun _ => CFractions.Nonneg) (k := x) h
      (hq.src_nonneg (h x) hmin)
    simp only [takeReserves]
    split_ifs with hskip hdone
    · exact ih h fr hp
    · exact hnext a
    · exact ih hnext _ (sub_nonneg.mpr (min_le_left _ _))

/-- The fair share of a reserve is not negative. -/
theorem fairWithdraw_nonneg {m : PoolMap} (hm : ∀ a, (m.get a).Nonneg)
    (hvalues : ∀ j, 0 ≤ (pools.poolFrozen.get j).nValue) (hp : 0 ≤ p) {i : ℕ} {v : ℤ}
    (h : fairWithdraw call pools.poolFrozen m i p = some v) : 0 ≤ v := by
  simp only [fairWithdraw] at h
  split_ifs at h with hfair hrange haddr hscale <;> cases h
  · have hv1 := hvalues (pools.poolFrozen.get i).nFairWithdrawFromEscrowIndex1.toNat
    have hv2 := hvalues (pools.poolFrozen.get i).nFairWithdrawFromEscrowIndex2.toNat
    have hreserve := (hm (pools.poolFrozen.get i).sAddress).total
    have hshare := ratioPart_le hreserve hv2 (le_add_of_nonneg_left hv1) hscale.2
    omega
  · exact hp
  · exact hp
  · exact hp

theorem plainOutput_nonneg (h : st.PoolsNonneg) {out : CTxOut} (hp : 0 ≤ out.nValue)
    (fr : CFractions) : (plainOutput net st out fr).1.PoolsNonneg := by
  simp only [plainOutput]
  split_ifs with haddr htakes
  · simp only [backToReserve]
    split_ifs with hpos
    · obtain ⟨q, hq⟩ := CFractions.moveRatioPartTo_moved
        (st.poolReserves.get (out.scriptPubKey.toAddress net)) fr
        (min out.nValue (st.poolReserves.get (out.scriptPubKey.toAddress net)).total)
      apply takeLeft_nonneg
      exact ⟨h.1, SortedMap.forall_get_insert (P := fun _ => CFractions.Nonneg) h.2
        (hq.src_nonneg (h.2 _) (le_min hp hpos.le))⟩
    · exact takeLeft_nonneg h _ _ _
  · apply takeLeft_nonneg
    exact ⟨h.1, takeReserves_nonneg _ h.2 fr hp⟩
  · exact takeLiquidity_nonneg h hp fr _

theorem freezeAllOutput_nonneg (h : st.PoolsNonneg) (hp : 0 ≤ p)
    (hvalues : ∀ j, 0 ≤ (pools.poolFrozen.get j).nValue) {i : ℕ} {r : OutputState × CFractions}
    (hr : freezeAllOutput net call pools st i p fr = .ok r) : r.1.PoolsNonneg := by
  simp only [freezeAllOutput] at hr
  split_ifs at hr with htotal hV hF
  · cases hr
    exact h
  · split at hr
    · cases hr
    · rename_i frMarked hset
      cases hr
      obtain ⟨q, hq⟩ := CFractions.moveRatioPartTo_moved st.frCommonLiquidity frMarked p
      exact ⟨hq.src_nonneg h.1 hp, h.2⟩
  · split at hr
    · cases hr
    · rename_i frMarked hset
      split at hr
      · cases hr
        exact h
      · rename_i v hfair
        cases hr
        apply takeLeft_nonneg
        exact ⟨h.1, takeReserves_nonneg _ h.2 _ (fairWithdraw_nonneg h.2 hvalues hp hfair)⟩
  · cases hr
    exact h

theorem fillOutputs_nonneg (hpools : pools.Nonneg) (hcall : call.Nonneg)
    (h : fillOutputs net call pools = .ok st) : st.PoolsNonneg := by
  refine Run.foldlM_invariant (P := OutputState.PoolsNonneg) ?_ ?_ h
  · intro o ho s s' hs hfill
    have hp : 0 ≤ o.1.nValue := outValue_eq ho ▸ hcall.outputs o.2 (lt_of_mem_outputs ho)
    unfold fillOutput at hfill
    split_ifs at hfill with hleft
    · cases hfill
      exact hs
    · rw [Run.bind_eq_ok] at hfill
      obtain ⟨r, hr, hst⟩ := hfill
      have henter : (s.enter o.1).PoolsNonneg := hs
      have hnext : r.1.PoolsNonneg := by
        unfold chooseOutput at hr
        split_ifs at hr with hmem hall
        · exact freezeAllOutput_nonneg henter hp hpools.values hr
        · cases hr
          exact henter
        · cases hr
          exact plainOutput_nonneg henter hp _
      cases hst
      exact hnext
  · refine ⟨fun c => ?_, hpools.reserves⟩
    rw [cols_commonLiquidity]
    exact SortedMap.sum_induction (P := fun v : Columns => 0 ≤ v c) le_rfl
      (fun x y hx hy => add_nonneg hx hy) fun a => hpools.liquidity a c

end Signs

/-! ## Where cold inputs go -/

def StandardCall.inputFractions (call : StandardCall) (inp : CTxIn × ℕ) : CFractions :=
  (call.mapInputsFractions inp.1.prevout.fkey).getD default

def StandardCall.isCold (call : StandardCall) (inp : CTxIn × ℕ) : Bool :=
  (call.inputFractions inp).nFlags.notaryC

/-- A cold input with an output at its index: the case that the source looks at. -/
def StandardCall.isPaired (call : StandardCall) (inp : CTxIn × ℕ) : Bool :=
  call.isCold inp && decide (inp.2 < call.nVout)

def StandardCall.coldPart (call : StandardCall) (inp : CTxIn × ℕ) : Columns :=
  if inp.2 < call.nVout then
    ((call.inputFractions inp).toStd.ratioPart (call.outValue inp.2)).cols
  else 0

/-- The columns of prepared outputs that do not belong to a cold input. -/
def warmEntry (t : FrozenTxOut) : Columns := if t.fIsColdOutput then 0 else t.fractions.cols

/-- What outputs can take that are not paired with a cold input. -/
def PoolState.sharedCols (n : ℕ) (st : PoolState) : Columns :=
  st.poolReserves.sum CFractions.cols + st.poolLiquidity.sum CFractions.cols +
    ∑ j ∈ Finset.range n, warmEntry (st.poolFrozen.get j)

structure ColdEntry (net : Params) (call : StandardCall) (t : FrozenTxOut) (frInp : CFractions)
    (i : ℕ) : Prop where
  flag : t.fIsColdOutput = true
  cols : t.fractions.cols = (frInp.ratioPart (call.outValue i)).cols
  bound : ∃ out, call.tx.vout[i]? = some out ∧
    (frInp.sReturnAddr = out.scriptPubKey.toAddress net ∨ t.fractions.nFlags.notaryF = true ∧
      t.fractions.nLockTime = call.nBlockTime + 4 * net.pegFrozenTime)

section Input

variable {st : PoolState} {i : ℕ} {sAddress : CString} {frInp : CFractions} {r : PoolState × ℤ}

theorem warmEntry_insert {n j : ℕ} (hj : j < n) (a : FrozenMap) (t : FrozenTxOut) :
    ∑ x ∈ Finset.range n, warmEntry ((a.insert j t).get x) =
      ∑ x ∈ Finset.range n, warmEntry (a.get x) + (warmEntry t - warmEntry (a.get j)) :=
  SortedMap.sum_get_insert warmEntry a (Finset.mem_range.mpr hj) t

theorem Marked.warmEntry_eq {nMark : NotaryMark} {a b : FrozenMap} (h : Marked net call nMark a b)
    (j : ℕ) : warmEntry (b.get j) = warmEntry (a.get j) := by
  unfold warmEntry
  rw [h.flag j, h.cols j]

theorem warmEntry_of_warm {t : FrozenTxOut} (h : t.fIsColdOutput = false) :
    warmEntry t = t.fractions.cols := by
  simp [warmEntry, h]

/-- Only a paired cold input leaves what outputs share. -/
theorem InputStep.shared_eq (h : InputStep net call st i sAddress frInp r) (hst : st.Nonneg) :
    r.1.sharedCols call.nVout = st.sharedCols call.nVout -
      (if frInp.nFlags.notaryC && decide (i < call.nVout) then frInp.cols else 0) := by
  cases h with
  | plain hcold =>
    have hnot : (frInp.nFlags.notaryC && decide (i < call.nVout)) = false := by
      by_cases hi : i < call.nVout <;> simp [hi, hcold]
    rw [hnot]
    simp
  | @cold out fractions hout hcold hempty hcols hstd hbound =>
    have hi : i < call.nVout := (List.getElem?_eq_some_iff.mp hout).1
    have hzero : warmEntry (st.poolFrozen.get i) = 0 := by
      unfold warmEntry
      split_ifs
      · rfl
      · exact (hst.frozen i).cols_eq_zero hempty.le
    have hnew : warmEntry { st.poolFrozen.get i with
        nValue := out.nValue, fractions, fIsColdOutput := true } = 0 := rfl
    simp only [PoolState.sharedCols, poolSum_modify, warmEntry_insert hi, hzero, hnew,
      CFractions.cols_sub, hcold, hi, decide_true, Bool.and_true, if_true,
      ← CFractions.lowPart_add_highPart frInp call.nSupply]
    abel
  | shared hcold hmark =>
    simp only [PoolState.sharedCols, hmark.warmEntry_eq, hcold, Bool.false_and, Bool.false_eq_true,
      if_false, sub_zero]
  | @reserve poolFrozen j fractions hcold hmark hj hwarm hset =>
    obtain ⟨q, hq⟩ := CFractions.moveRatioPartTo_moved (st.poolReserves.get sAddress) .zeroStd
      (call.outValue j)
    have hnew : warmEntry { poolFrozen.get j with fractions } = fractions.cols :=
      warmEntry_of_warm hwarm
    simp only [PoolState.sharedCols, poolSum_insert, warmEntry_insert hj, hnew,
      warmEntry_of_warm hwarm, hmark.warmEntry_eq, CFractions.setMark_cols hset,
      CFractions.cols_add, hq.src, hq.dst, CFractions.cols_zeroStd, hcold, Bool.false_and,
      Bool.false_eq_true, if_false]
    abel
  | @liquidity nMark poolFrozen j fractions hcold hmark hj hwarm hset =>
    obtain ⟨q, hq⟩ := CFractions.moveRatioPartTo_moved (st.poolLiquidity.get sAddress) .zeroStd
      (call.outValue j)
    have hnew : warmEntry { poolFrozen.get j with fractions } = fractions.cols :=
      warmEntry_of_warm hwarm
    simp only [PoolState.sharedCols, poolSum_insert, warmEntry_insert hj, hnew,
      warmEntry_of_warm hwarm, hmark.warmEntry_eq, CFractions.setMark_cols hset,
      CFractions.cols_add, hq.src, hq.dst, CFractions.cols_zeroStd, hcold, Bool.false_and,
      Bool.false_eq_true, if_false]
    abel
  | @toCold poolFrozen j fractions hcold hmark hj hwarm hvalue hset =>
    have hnew : warmEntry
        { poolFrozen.get j with fractions := { fractions with sReturnAddr := sAddress } } =
        fractions.cols := warmEntry_of_warm hwarm
    simp only [PoolState.sharedCols, poolSum_modify, warmEntry_insert hj, hnew,
      CFractions.setMark_cols hset, CFractions.cols_add, warmEntry_of_warm hwarm, hmark.warmEntry_eq,
      CFractions.cols_sub, hcold, Bool.false_and, Bool.false_eq_true, if_false,
      ← CFractions.lowPart_add_highPart (frInp.ratioPart (call.outValue j)) call.nSupply]
    abel

/-- Only a paired cold input adds to the cold fees: what its output does not take. -/
theorem InputStep.coldFees_eq (h : InputStep net call st i sAddress frInp r) :
    r.1.frColdFees.cols = st.frColdFees.cols +
      (if frInp.nFlags.notaryC && decide (i < call.nVout) then
        frInp.cols - (frInp.ratioPart (call.outValue i)).cols else 0) := by
  cases h with
  | plain hcold =>
    have hnot : (frInp.nFlags.notaryC && decide (i < call.nVout)) = false := by
      by_cases hi : i < call.nVout <;> simp [hi, hcold]
    rw [hnot]
    simp
  | @cold out fractions hout hcold hempty hcols hstd hbound =>
    have hi : i < call.nVout := (List.getElem?_eq_some_iff.mp hout).1
    have hvalue : call.outValue i = out.nValue := outValue_eq (o := (out, i)) (mem_outputs.mpr hout)
    simp [hcold, hi, hvalue]
  | shared hcold hmark => simp [hcold]
  | reserve hcold hmark hj hwarm hset => simp [hcold]
  | liquidity hcold hmark hj hwarm hset => simp [hcold]
  | toCold hcold hmark hj hwarm hvalue hset => simp [hcold]

/-- A cold output is not touched by inputs at other indices. -/
theorem InputStep.entry_kept (h : InputStep net call st i sAddress frInp r) {j : ℕ} (hj : j ≠ i)
    (hflag : (st.poolFrozen.get j).fIsColdOutput = true) :
    r.1.poolFrozen.get j = st.poolFrozen.get j := by
  have hkept : ∀ {nMark : NotaryMark} {b : FrozenMap} {k : ℕ} {t : FrozenTxOut},
      Marked net call nMark st.poolFrozen b → (b.get k).fIsColdOutput = false →
        (b.insert k t).get j = st.poolFrozen.get j := by
    intro nMark b k t hmark hwarm
    have hne : j ≠ k := by
      rintro rfl
      rw [hmark.flag j, hflag] at hwarm
      cases hwarm
    rw [SortedMap.get_insert, if_neg hne, hmark.cold j hflag]
  cases h with
  | plain hcold => rfl
  | cold hout hcold hempty hcols hstd hbound => rw [SortedMap.get_insert, if_neg hj]
  | shared hcold hmark => exact hmark.cold j hflag
  | reserve hcold hmark hj hwarm hset => exact hkept hmark hwarm
  | liquidity hcold hmark hj hwarm hset => exact hkept hmark hwarm
  | toCold hcold hmark hj hwarm hvalue hset => exact hkept hmark hwarm

/-- A paired cold input prepares the output at its index. -/
theorem InputStep.coldEntry (h : InputStep net call st i sAddress frInp r) (hst : st.Nonneg)
    (hcold : frInp.nFlags.notaryC = true) (hi : i < call.nVout) :
    ColdEntry net call (r.1.poolFrozen.get i) frInp i := by
  cases h with
  | plain hwarm => simp [hwarm hi] at hcold
  | @cold out fractions hout _ hempty hcols hstd hbound =>
    have hvalue : call.outValue i = out.nValue := outValue_eq (o := (out, i)) (mem_outputs.mpr hout)
    rw [SortedMap.get_insert_self]
    refine ⟨rfl, ?_, out, hout, hbound⟩
    rw [hvalue, hcols, (hst.frozen i).cols_eq_zero hempty.le, zero_add]
  | shared hwarm hmark => simp [hwarm] at hcold
  | reserve hwarm hmark hj _ hset => simp [hwarm] at hcold
  | liquidity hwarm hmark hj _ hset => simp [hwarm] at hcold
  | toCold hwarm hmark hj _ hvalue hset => simp [hwarm] at hcold

def StandardCall.sharedInput (call : StandardCall) (inp : CTxIn × ℕ) : Columns :=
  if call.isPaired inp then 0 else call.inputCols inp

def StandardCall.coldFee (call : StandardCall) (inp : CTxIn × ℕ) : Columns :=
  if call.isPaired inp then call.inputCols inp - call.coldPart inp else 0

/-- One round of the input loop, for the accounts of cold inputs. -/
theorem scanInput_cold {st st' : PoolState} {inp : CTxIn × ℕ} (hcall : call.Nonneg)
    (hinp : inp ∈ call.inputs) (hst : st.Nonneg) (h : scanInput net call st inp = .ok st') :
    st'.sharedCols call.nVout = st.sharedCols call.nVout + call.sharedInput inp ∧
      st'.frColdFees.cols = st.frColdFees.cols + call.coldFee inp ∧
      (∀ j, j ≠ inp.2 → (st.poolFrozen.get j).fIsColdOutput = true →
        st'.poolFrozen.get j = st.poolFrozen.get j) ∧
      (call.isPaired inp = true →
        ColdEntry net call (st'.poolFrozen.get inp.2) (call.inputFractions inp).toStd inp.2) := by
  obtain ⟨prevtxout, frInp, applied, hread, hstep, rfl⟩ := scanInput_ok h
  obtain ⟨-, fr, hfr, rfl : frInp = fr.toStd, -⟩ := readInput_ok hread
  have hfrn : fr.toStd.Nonneg := (hcall.inputs inp hinp fr hfr).of_cols rfl
  have hpooled : (poolInput call st prevtxout.nValue (prevtxout.scriptPubKey.toAddress net)
      fr.toStd).Nonneg := nonneg_poolInput hst hfrn _
  have hinput : call.inputFractions inp = fr := by simp [StandardCall.inputFractions, hfr]
  have hcols : call.inputCols inp = fr.cols := by simp [StandardCall.inputCols, hfr]
  have hpaired : call.isPaired inp = (fr.toStd.nFlags.notaryC && decide (inp.2 < call.nVout)) := by
    rw [StandardCall.isPaired, StandardCall.isCold, hinput]
    rfl
  refine ⟨?_, ?_, fun j hj hflag => hstep.entry_kept hj hflag, fun hpair => ?_⟩
  · have hpool : (poolInput call st prevtxout.nValue (prevtxout.scriptPubKey.toAddress net)
        fr.toStd).sharedCols call.nVout = st.sharedCols call.nVout + fr.cols := by
      simp only [PoolState.sharedCols, poolInput, poolSum_modify, CFractions.cols_add,
        ← CFractions.cols_toStd fr, ← CFractions.lowPart_add_highPart fr.toStd call.nSupply]
      abel
    have hshared := hstep.shared_eq hpooled
    rw [hpool, ← hpaired] at hshared
    rw [StandardCall.sharedInput, hcols]
    refine hshared.trans ?_
    split_ifs <;> simp
  · have hfees := hstep.coldFees_eq
    rw [← hpaired] at hfees
    rw [StandardCall.coldFee, hcols]
    refine hfees.trans ?_
    by_cases hpair : call.isPaired inp = true
    · have hi : inp.2 < call.nVout := by
        rw [hpaired] at hpair
        simpa using (Bool.and_eq_true_iff.mp hpair).2
      simp [hpair, StandardCall.coldPart, hi, hinput, poolInput]
    · simp [hpair, poolInput]
  · rw [hpaired, Bool.and_eq_true, decide_eq_true_eq] at hpair
    rw [hinput]
    exact hstep.coldEntry hpooled hpair.1 hpair.2

/-- The accounts of cold inputs after the input loop. -/
theorem scanInputs_cold {pools : PoolState} (hcall : call.Nonneg)
    (h : scanInputs net call = .ok pools) :
    pools.sharedCols call.nVout = (call.inputs.map call.sharedInput).sum ∧
      pools.frColdFees.cols = (call.inputs.map call.coldFee).sum := by
  have hempty : ({} : PoolState).sharedCols call.nVout = 0 := by
    have hentry : warmEntry default = 0 := CFractions.cols_default
    simp [PoolState.sharedCols, hentry]
  have hfees : ({} : PoolState).frColdFees.cols = 0 := CFractions.cols_default
  have hkeep : ∀ inp ∈ call.inputs, ∀ s s', PoolState.Nonneg s →
      scanInput net call s inp = .ok s' → PoolState.Nonneg s' :=
    fun inp hinp s s' hs => scanInput_nonneg hcall hinp hs
  constructor
  · have hrun := Run.foldlM_sum (m := fun st => PoolState.sharedCols call.nVout st)
      (w := call.sharedInput) hkeep
      (fun inp hinp s s' hs hscan => (scanInput_cold hcall hinp hs hscan).1) nonneg_empty h
    rwa [hempty, zero_add] at hrun
  · have hrun := Run.foldlM_sum (m := fun st : PoolState => st.frColdFees.cols)
      (w := call.coldFee) hkeep
      (fun inp hinp s s' hs hscan => (scanInput_cold hcall hinp hs hscan).2.1) nonneg_empty h
    rwa [hfees, zero_add] at hrun

theorem inputs_indices (call : StandardCall) : (call.inputs.map Prod.snd).Nodup := by
  unfold StandardCall.inputs
  split_ifs
  · exact List.nodup_nil
  · have hrange : (call.tx.vin.zipIdx.map Prod.snd) = List.range call.tx.vin.length := by
      simp [List.range_eq_range']
    rw [hrange]
    exact List.nodup_range

/-- Where the input loop stands: the inputs before `rest` have prepared their outputs. -/
structure ColdScan (net : Params) (call : StandardCall) (rest : List (CTxIn × ℕ))
    (st : PoolState) : Prop where
  nonneg : st.Nonneg
  mem : ∀ inp ∈ rest, inp ∈ call.inputs
  nodup : (rest.map Prod.snd).Nodup
  done : ∀ inp ∈ call.inputs, inp.2 ∉ rest.map Prod.snd → call.isPaired inp = true →
    ColdEntry net call (st.poolFrozen.get inp.2) (call.inputFractions inp).toStd inp.2

theorem ColdScan.step (hcall : call.Nonneg) {inp : CTxIn × ℕ} {rest : List (CTxIn × ℕ)}
    {s s' : PoolState} (h : ColdScan net call (inp :: rest) s)
    (hscan : scanInput net call s inp = .ok s') : ColdScan net call rest s' := by
  have hinp := h.mem inp List.mem_cons_self
  have hnodup : inp.2 ∉ rest.map Prod.snd ∧ (rest.map Prod.snd).Nodup :=
    List.nodup_cons.mp h.nodup
  obtain ⟨-, -, hkept, hentry⟩ := scanInput_cold hcall hinp h.nonneg hscan
  refine ⟨scanInput_nonneg hcall hinp h.nonneg hscan,
    fun x hx => h.mem x (List.mem_cons_of_mem _ hx), hnodup.2, fun x hx hnot hpair => ?_⟩
  by_cases heq : x.2 = inp.2
  · have hxinp : x = inp := List.inj_on_of_nodup_map (inputs_indices call) hx hinp heq
    exact hxinp ▸ hentry (hxinp ▸ hpair)
  · have hcons : x.2 ∉ (inp :: rest).map Prod.snd := by
      intro hmem
      rcases List.mem_cons.mp hmem with hx2 | hx2
      · exact heq hx2
      · exact hnot hx2
    have hold := h.done x hx hcons hpair
    rw [hkept x.2 heq hold.flag]
    exact hold

/-- After the input loop every paired cold input has its output prepared. -/
theorem scanInputs_coldEntry {pools : PoolState} (hcall : call.Nonneg)
    (h : scanInputs net call = .ok pools) :
    ∀ inp ∈ call.inputs, call.isPaired inp = true →
      ColdEntry net call (pools.poolFrozen.get inp.2) (call.inputFractions inp).toStd inp.2 := by
  have hstart : ColdScan net call call.inputs {} :=
    ⟨nonneg_empty, fun _ => id, inputs_indices call,
      fun inp hinp hnot => absurd (List.mem_map_of_mem hinp) hnot⟩
  have hend : ColdScan net call [] pools :=
    Run.foldlM_rule (fun _ _ _ _ hs hscan => hs.step hcall hscan) hstart h
  exact fun inp hinp => hend.done inp hinp List.not_mem_nil

end Input

/-! ## Cold coins stay bound -/

/-- Cold coins stay bound. Each cold input is what the output at its index takes plus a
part of the fees, that output pays the return address or is frozen for four freezing
times, and beyond these parts the outputs have only what the other inputs bring. -/
structure ColdStays (net : Params) (call : StandardCall) (r : StandardResult) : Prop where
  placed : ∀ inp ∈ call.inputs, call.isCold inp = true →
    (∀ c, 0 ≤ call.coldPart inp c ∧ call.coldPart inp c ≤ call.inputCols inp c) ∧
    (call.coldPart inp ≠ 0 → ∃ out fr, call.tx.vout[inp.2]? = some out ∧
      r.mapTestFractionsPool (call.outKey net inp.2) = some fr ∧ fr.cols = call.coldPart inp ∧
      ((call.inputFractions inp).sReturnAddr = out.scriptPubKey.toAddress net ∨
        fr.nFlags.notaryF = true ∧
          fr.nLockTime = call.nBlockTime + 4 * net.pegFrozenTime))
  fees : ∀ c, (call.inputs.map fun inp =>
      if call.isCold inp then call.inputCols inp - call.coldPart inp else 0).sum c ≤
    r.feesFractions.cols c - call.feesFractions.cols c
  outputs : ∀ c, allOutCols net call r.mapTestFractionsPool c ≤
    (call.inputs.map fun inp =>
      if call.isCold inp then call.coldPart inp else call.inputCols inp).sum c

/-- What the outputs draw on is what the inputs without the cold mark bring. -/
def ColdIsolated (call : StandardCall) (pools : PoolState) : Prop :=
  pools.sharedCols call.nVout =
    (call.inputs.map fun inp => if call.isCold inp then 0 else call.inputCols inp).sum

/-- Every cold input with an amount has an output at its own index. -/
def StandardCall.ColdPaired (call : StandardCall) : Prop :=
  ∀ inp ∈ call.inputs, call.isCold inp = true →
    inp.2 < call.nVout ∨ (call.inputFractions inp).total = 0

section Stays

variable {pools : PoolState} {st : OutputState} {r : StandardResult}

theorem inputFractions_nonneg (hcall : call.Nonneg) {inp : CTxIn × ℕ} (hinp : inp ∈ call.inputs) :
    (call.inputFractions inp).Nonneg := by
  unfold StandardCall.inputFractions
  cases hfr : call.mapInputsFractions inp.1.prevout.fkey with
  | none => exact CFractions.nonneg_default
  | some fr => exact hcall.inputs inp hinp fr hfr

theorem eq_zero_of_sum_nonneg {α : Type} {l : List α} {w : α → Columns}
    (hw : ∀ a ∈ l, ∀ c, 0 ≤ w a c) (hsum : (l.map w).sum = 0) : ∀ a ∈ l, w a = 0 := by
  intro a ha
  funext c
  have hc : ((l.map w).map fun v => v c).sum = 0 := by
    have happ := congrFun hsum c
    rw [Pi.zero_apply] at happ
    rw [← happ]
    exact (map_list_sum (Pi.evalAddMonoidHom (fun _ : Fin PEG_SIZE => ℤ) c) _).symm
  have hnonneg : ∀ x ∈ (l.map w).map fun v => v c, 0 ≤ x := by
    intro x hx
    obtain ⟨v, hv, rfl⟩ := List.mem_map.mp hx
    obtain ⟨b, hb, rfl⟩ := List.mem_map.mp hv
    exact hw b hb c
  have hle := List.single_le_sum hnonneg (w a c)
    (List.mem_map.mpr ⟨w a, List.mem_map_of_mem ha, rfl⟩)
  exact le_antisymm (hle.trans hc.le) (hw a ha c)

/-- The shared pools are free of cold inputs exactly when the condition holds. -/
theorem isolated_iff (hcall : call.Nonneg) (hscan : scanInputs net call = .ok pools) :
    ColdIsolated call pools ↔ call.ColdPaired := by
  have hsplit : (call.inputs.map call.sharedInput).sum =
      (call.inputs.map fun inp => if call.isCold inp then 0 else call.inputCols inp).sum +
        (call.inputs.map fun inp =>
          if call.isCold inp && !call.isPaired inp then call.inputCols inp else 0).sum := by
    rw [← List.sum_map_add]
    refine congrArg List.sum (List.map_congr_left fun inp _ => ?_)
    by_cases hcold : call.isCold inp = true <;> by_cases hi : inp.2 < call.nVout <;>
      simp [StandardCall.sharedInput, StandardCall.isPaired, hcold, hi]
  rw [ColdIsolated, (scanInputs_cold hcall hscan).1, hsplit, add_eq_left]
  constructor
  · intro hsum inp hinp hcold
    have hzero := eq_zero_of_sum_nonneg (fun inp hinp c => ?_) hsum inp hinp
    · by_cases hi : inp.2 < call.nVout
      · exact Or.inl hi
      · right
        simp only [hcold, StandardCall.isPaired, hi, decide_false, Bool.and_false, Bool.not_false,
          Bool.and_true, if_true] at hzero
        have hcols : (call.inputFractions inp).cols = 0 := hzero
        rw [CFractions.total_eq_sum, hcols]
        exact Finset.sum_const_zero
    · split_ifs
      · exact inputFractions_nonneg hcall hinp c
      · exact le_rfl
  · intro hpaired
    refine List.sum_eq_zero fun v hv => ?_
    obtain ⟨inp, hinp, rfl⟩ := List.mem_map.mp hv
    split_ifs with hlate
    · rw [Bool.and_eq_true, StandardCall.isPaired] at hlate
      have hi : ¬ inp.2 < call.nVout := by simpa [hlate.1] using hlate.2
      have htotal := (hpaired inp hinp hlate.1).resolve_left hi
      exact (inputFractions_nonneg hcall hinp).cols_eq_zero htotal.le
    · rfl

theorem coldPart_bounds (hcall : call.Nonneg) {inp : CTxIn × ℕ} (hinp : inp ∈ call.inputs)
    (c : Fin PEG_SIZE) :
    0 ≤ call.coldPart inp c ∧ call.coldPart inp c ≤ call.inputCols inp c := by
  have hnonneg := inputFractions_nonneg hcall hinp
  unfold StandardCall.coldPart
  split_ifs with hi
  · exact CFractions.ratioPart_bounds (a := (call.inputFractions inp).toStd)
      (hnonneg.of_cols rfl) (hcall.outputs _ hi) c
  · exact ⟨le_rfl, hnonneg c⟩

/-- A prepared output with an amount is recorded as it was prepared. -/
theorem OutputStep.kept_of_cols {out : CTxOut} {i : ℕ} {step : OutputState × CFractions}
    (h : OutputStep net call pools st default out i step) (hpools : pools.Nonneg)
    (hne : (pools.poolFrozen.get i).fractions.cols ≠ 0) :
    step.2 = (pools.poolFrozen.get i).fractions := by
  have hpos : ¬ (pools.poolFrozen.get i).fractions.total ≤ 0 := fun hle =>
    hne ((hpools.frozen i).cols_eq_zero hle)
  have hmem : i ∈ pools.poolFrozen := by
    by_contra hnot
    rw [SortedMap.get_of_not_mem hnot] at hne
    exact hne CFractions.cols_default
  cases h with
  | kept _ => rfl
  | untouched _ htotal => exact absurd htotal hpos
  | frozenLiquidity _ htotal hset hdrawn => exact absurd htotal hpos
  | frozenReserve _ htotal hset hdrawn => exact absurd htotal hpos
  | reserve hnot hallowed hdrawn => exact absurd hmem hnot
  | liquidity hnot hdrawn => exact absurd hmem hnot

end Stays

/-- A prepared cold output of an accepted transaction is recorded as it was prepared. -/
theorem coldPart_placed {pools : PoolState} {st : OutputState} (hcall : call.Nonneg)
    (hfresh : call.Fresh net) (hscan : scanInputs net call = .ok pools)
    (hfill : fillOutputs net call pools = .ok st) (hok : st.sFailCause = none)
    {inp : CTxIn × ℕ} (hinp : inp ∈ call.inputs) (hcold : call.isCold inp = true)
    (hne : call.coldPart inp ≠ 0) :
    ∃ out fr, call.tx.vout[inp.2]? = some out ∧
      st.mapTestFractionsPool (call.outKey net inp.2) = some fr ∧ fr.cols = call.coldPart inp ∧
      ((call.inputFractions inp).sReturnAddr = out.scriptPubKey.toAddress net ∨
        fr.nFlags.notaryF = true ∧ fr.nLockTime = call.nBlockTime + 4 * net.pegFrozenTime) := by
  have hpools := scanInputs_nonneg hcall hscan
  have hi : inp.2 < call.nVout := by
    by_contra hlate
    exact hne (by simp [StandardCall.coldPart, hlate])
  have hpair : call.isPaired inp = true := by simp [StandardCall.isPaired, hcold, hi]
  obtain ⟨-, hcols, out, hout, hbound⟩ := scanInputs_coldEntry hcall hscan inp hinp hpair
  have hpart : (pools.poolFrozen.get inp.2).fractions.cols = call.coldPart inp := by
    rw [hcols]
    simp [StandardCall.coldPart, hi]
  have hrule := (fillOutputs_rule (I := fun _ _ => True)
    (Q := fun o fr => (pools.poolFrozen.get o.2).fractions.cols ≠ 0 →
      fr = (pools.poolFrozen.get o.2).fractions) hfresh (fun _ _ _ _ _ => trivial)
    (fun _ _ _ _ _ _ _ hr => ⟨trivial, hr.kept_of_cols hpools⟩) hfill hok).2
  obtain ⟨fr, hfr, hkept⟩ := hrule (out, inp.2) (mem_outputs.mpr hout)
  obtain rfl := hkept (hpart ▸ hne)
  exact ⟨out, _, hout, hfr, hpart, hbound⟩

/-- What the outputs at their indices leave of cold inputs is in the fees. -/
theorem coldFees_le {pools : PoolState} {st : OutputState} (hcall : call.Nonneg)
    (hscan : scanInputs net call = .ok pools) (hfill : fillOutputs net call pools = .ok st)
    (hpaired : call.ColdPaired) (c : Fin PEG_SIZE) :
    (call.inputs.map fun inp =>
      if call.isCold inp then call.inputCols inp - call.coldPart inp else 0).sum c ≤
      (txFeeFractions pools st).cols c := by
  obtain ⟨hcommon, hreserves⟩ := fillOutputs_nonneg (scanInputs_nonneg hcall hscan) hcall hfill
  have hlist : (call.inputs.map fun inp =>
      if call.isCold inp then call.inputCols inp - call.coldPart inp else 0) =
      call.inputs.map call.coldFee := by
    refine List.map_congr_left fun inp hinp => ?_
    by_cases hcold : call.isCold inp = true
    · by_cases hi : inp.2 < call.nVout
      · simp [StandardCall.coldFee, StandardCall.isPaired, hcold, hi]
      · have htotal := (hpaired inp hinp hcold).resolve_left hi
        have hzero : call.inputCols inp = 0 :=
          (inputFractions_nonneg hcall hinp).cols_eq_zero htotal.le
        simp [StandardCall.coldFee, StandardCall.isPaired, StandardCall.coldPart, hcold, hi, hzero]
    · simp [StandardCall.coldFee, StandardCall.isPaired, hcold]
  have hsum : 0 ≤ (st.poolReserves.sum CFractions.cols) c :=
    SortedMap.sum_induction (P := fun v : Columns => 0 ≤ v c) le_rfl
      (fun x y hx hy => add_nonneg hx hy) fun a => hreserves a c
  have hfees := congrFun (cols_txFeeFractions pools st) c
  simp only [Pi.add_apply] at hfees
  rw [hlist, ← (scanInputs_cold hcall hscan).2, hfees]
  have hcommonc := hcommon c
  omega

/-- What is shared is warm exactly when every cold input with an amount has an output at
its own index, and then cold coins stay bound. -/
theorem cold_inputs_bound {pools : PoolState} {r : StandardResult}
    (h : calculateStandardFractions net call = .ok r) (hscan : scanInputs net call = .ok pools)
    (hfresh : call.Fresh net)
    (hinputs : ∀ inp ∈ call.inputs, ∀ fr,
      call.mapInputsFractions inp.1.prevout.fkey = some fr → fr.Nonneg) :
    (ColdIsolated call pools ↔ call.ColdPaired) ∧ (call.ColdPaired → ColdStays net call r) := by
  obtain ⟨pools', st, hscan', hfill, hcause, rfl⟩ := calculateStandardFractions_ok h
  obtain rfl : pools' = pools := Except.ok.inj (hscan'.symm.trans hscan)
  have hcall := nonneg_of_ok hfresh hscan hfill hcause hinputs
  have hok := (failCause_none hcause).2.2.1
  refine ⟨isolated_iff hcall hscan, fun hpaired => ?_⟩
  have hfees := coldFees_le hcall hscan hfill hpaired
  refine ⟨fun inp hinp hcold => ⟨coldPart_bounds hcall hinp,
    coldPart_placed hcall hfresh hscan hfill hok hinp hcold⟩, fun c => ?_, fun c => ?_⟩
  · rw [CFractions.cols_add, Pi.add_apply, add_sub_cancel_left]
    exact hfees c
  · -- The outputs have what the inputs bring and the fees leave.
    have hall := congrFun (inputs_accounted hfresh (scanInputs_nonneg hcall hscan) hscan hfill hok) c
    have hparts : (call.inputs.map call.inputCols).sum =
        (call.inputs.map fun inp =>
          if call.isCold inp then call.coldPart inp else call.inputCols inp).sum +
        (call.inputs.map fun inp =>
          if call.isCold inp then call.inputCols inp - call.coldPart inp else 0).sum := by
      rw [← List.sum_map_add]
      refine congrArg List.sum (List.map_congr_left fun inp _ => ?_)
      split_ifs <;> simp
    rw [hparts, Pi.add_apply, Pi.add_apply] at hall
    have hc := hfees c
    change allOutCols net call st.mapTestFractionsPool c ≤ _
    omega

/-- A warm and a cold input of 10 each, and one output that pays 20 to a stranger. -/
def coldCall : StandardCall where
  tx := { vin := [{ prevout := ⟨1, 0⟩ }, { prevout := ⟨2, 0⟩ }], vout := [⟨20, [0x44]⟩] }
  nSupply := 3
  nBlockTime := 50
  mapInputs := fun k =>
    if k = ⟨1, 0⟩ then some ⟨10, [0x42]⟩ else if k = ⟨2, 0⟩ then some ⟨10, [0x43]⟩ else none
  mapInputsFractions := fun k =>
    if k = ⟨1, 0⟩ then some (CFractions.singleColumn 5 10)
    else if k = ⟨2, 0⟩ then
      some { CFractions.singleColumn 6 10 with
        nFlags := { std := true, notaryC := true }, sReturnAddr := ['R'] }
    else none

theorem coldCall_leaks : (calculateStandardFractions sampleNet coldCall).toOption.bind
    (fun r => (r.mapTestFractionsPool (coldCall.outKey sampleNet 0)).map fun fr => fr.cols 6) =
      some 10 := by
  decide +kernel

theorem coldCall_nonneg : ∀ inp ∈ coldCall.inputs, ∀ fr,
    coldCall.mapInputsFractions inp.1.prevout.fkey = some fr → fr.Nonneg := by
  intro inp _ fr hfr
  simp only [coldCall] at hfr
  split_ifs at hfr <;> cases hfr
  · exact CFractions.singleColumn_nonneg (by decide) 5
  · exact CFractions.singleColumn_nonneg (by decide) 6

/-- The same inputs next to two outputs, so that the cold input has one at its index. -/
def pairedColdCall : StandardCall :=
  { coldCall with
    tx := { coldCall.tx with vout := [⟨10, [0x44]⟩, ⟨10, [0x52]⟩] } }

theorem pairedColdCall_isOk :
    (calculateStandardFractions sampleNet pairedColdCall).isOk = true := by
  decide +kernel

theorem pairedColdCall_stays : ∃ pools r, scanInputs sampleNet pairedColdCall = .ok pools ∧
    calculateStandardFractions sampleNet pairedColdCall = .ok r ∧
    pairedColdCall.inputs.map pairedColdCall.isCold = [false, true] ∧
    ColdIsolated pairedColdCall pools ∧ ColdStays sampleNet pairedColdCall r := by
  obtain ⟨r, hr⟩ := Run.exists_of_isOk pairedColdCall_isOk
  obtain ⟨pools, st, hscan, -⟩ := calculateStandardFractions_ok hr
  have hpaired : pairedColdCall.ColdPaired := by
    unfold StandardCall.ColdPaired
    decide +kernel
  have hbound := cold_inputs_bound hr hscan (fun _ _ => rfl) coldCall_nonneg
  exact ⟨pools, r, hscan, hr, rfl, hbound.1.mpr hpaired, hbound.2 hpaired⟩

/-- Of the two inputs only the cold one has an amount in column 6, and it ends in an
output at another index. -/
theorem cold_input_leaks : ∃ r fr,
    calculateStandardFractions sampleNet coldCall = .ok r ∧
    r.mapTestFractionsPool (coldCall.outKey sampleNet 0) = some fr ∧
    coldCall.inputs.map coldCall.isCold = [false, true] ∧
    coldCall.inputs.map (fun inp => coldCall.inputCols inp 6) = [0, 10] ∧ fr.cols 6 = 10 ∧
    ¬ ColdStays sampleNet coldCall r := by
  have hleaks := coldCall_leaks
  cases hr : calculateStandardFractions sampleNet coldCall with
  | error e => simp [hr, Except.toOption] at hleaks
  | ok r =>
    rw [hr] at hleaks
    obtain ⟨fr, hfr, hcol⟩ := Option.map_eq_some_iff.mp (show Option.map _ _ = _ from hleaks)
    refine ⟨r, fr, rfl, hfr, rfl, by decide, hcol, fun hstays => ?_⟩
    -- The only output has 10 in column 6, of which neither input may give any.
    have hout : allOutCols sampleNet coldCall r.mapTestFractionsPool 6 = 10 := by
      rw [← hcol]
      simp [allOutCols, outCols, show coldCall.nVout = 1 from rfl, hfr]
    have hle := hstays.outputs 6
    rw [hout] at hle
    revert hle
    decide +kernel

end BitBay
