import BitBay.Peg.InputSteps

/-!
# The pools after the input loop

Two invariants of the input loop. The pools, the frozen outputs and the cold fees
together hold, column by column, exactly the fractions of the inputs read so far
(`scanInputs_held`). When the inputs and the output values are not negative, no
column of any of them is negative (`scanInputs_nonneg`).
-/
namespace BitBay

open scoped BigOperators

variable {net : Params} {call : StandardCall}

def StandardCall.inputCols (call : StandardCall) (inp : CTxIn × ℕ) : Columns :=
  ((call.mapInputsFractions inp.1.prevout.fkey).getD default).cols

def frozenCols (n : ℕ) (poolFrozen : FrozenMap) : Columns :=
  ∑ j ∈ Finset.range n, (poolFrozen.get j).fractions.cols

def PoolState.held (n : ℕ) (st : PoolState) : Columns :=
  st.poolReserves.sum CFractions.cols + st.poolLiquidity.sum CFractions.cols +
    frozenCols n st.poolFrozen + st.frColdFees.cols

theorem frozenCols_insert {n j : ℕ} (hj : j < n) (a : FrozenMap) (t : FrozenTxOut) :
    frozenCols n (a.insert j t) =
      frozenCols n a + (t.fractions.cols - (a.get j).fractions.cols) :=
  SortedMap.sum_get_insert (fun t : FrozenTxOut => t.fractions.cols) a (Finset.mem_range.mpr hj) t

theorem Marked.frozenCols_eq {nMark : NotaryMark} {a b : FrozenMap}
    (h : Marked net call nMark a b) (n : ℕ) : frozenCols n b = frozenCols n a :=
  Finset.sum_congr rfl fun j _ => h.cols j

theorem poolSum_insert (m : PoolMap) (a : CString) (v : CFractions) :
    (m.insert a v).sum CFractions.cols = m.sum CFractions.cols + (v.cols - (m.get a).cols) :=
  SortedMap.sum_insert CFractions.cols_default m a v

theorem poolSum_modify (m : PoolMap) (a : CString) (g : CFractions → CFractions) :
    (m.modify a g).sum CFractions.cols =
      m.sum CFractions.cols + ((g (m.get a)).cols - (m.get a).cols) :=
  SortedMap.sum_modify CFractions.cols_default m a g

/-! ## Conservation -/

section Held

variable {st : PoolState} {i : ℕ} {sAddress : CString} {frInp : CFractions} {r : PoolState × ℤ}

theorem held_poolInput (n : ℕ) (st : PoolState) (nValue : ℤ) (sAddress : CString)
    (frInp : CFractions) :
    (poolInput call st nValue sAddress frInp).held n = st.held n + frInp.cols := by
  simp only [PoolState.held, poolInput, poolSum_modify, CFractions.cols_add,
    ← CFractions.lowPart_add_highPart frInp call.nSupply]
  abel

/-- Placing an input moves columns between the pools, the outputs and the fees. -/
theorem InputStep.held (h : InputStep net call st i sAddress frInp r) :
    r.1.held call.nVout = st.held call.nVout := by
  cases h with
  | plain hcold => rfl
  | @cold out fractions hout hcold hempty hcols hstd hbound =>
    have hi : i < call.nVout := List.getElem?_eq_some_iff.mp hout |>.1
    simp only [PoolState.held, poolSum_modify, frozenCols_insert hi, CFractions.cols_add,
      CFractions.cols_sub, hcols, ← CFractions.lowPart_add_highPart frInp call.nSupply]
    abel
  | shared hcold hmark => simp only [PoolState.held, hmark.frozenCols_eq]
  | @reserve poolFrozen j fractions hcold hmark hj hwarm hset =>
    obtain ⟨q, hq⟩ := CFractions.moveRatioPartTo_moved (st.poolReserves.get sAddress) .zeroStd
      (call.outValue j)
    simp only [PoolState.held, poolSum_insert, frozenCols_insert hj, hmark.frozenCols_eq,
      CFractions.setMark_cols hset, CFractions.cols_add, hq.src, hq.dst, CFractions.cols_zeroStd]
    abel
  | @liquidity nMark poolFrozen j fractions hcold hmark hj hwarm hset =>
    obtain ⟨q, hq⟩ := CFractions.moveRatioPartTo_moved (st.poolLiquidity.get sAddress) .zeroStd
      (call.outValue j)
    simp only [PoolState.held, poolSum_insert, frozenCols_insert hj, hmark.frozenCols_eq,
      CFractions.setMark_cols hset, CFractions.cols_add, hq.src, hq.dst, CFractions.cols_zeroStd]
    abel
  | @toCold poolFrozen j fractions hcold hmark hj hwarm hvalue hset =>
    have hcols : ({ fractions with sReturnAddr := sAddress } : CFractions).cols =
        (poolFrozen.get j).fractions.cols + (frInp.ratioPart (call.outValue j)).cols :=
      (CFractions.setMark_cols hset).trans (CFractions.cols_add _ _)
    simp only [PoolState.held, poolSum_modify, frozenCols_insert hj, hmark.frozenCols_eq, hcols,
      CFractions.cols_sub,
      ← CFractions.lowPart_add_highPart (frInp.ratioPart (call.outValue j)) call.nSupply]
    abel

theorem scanInput_held {st st' : PoolState} {inp : CTxIn × ℕ}
    (h : scanInput net call st inp = .ok st') :
    st'.held call.nVout = st.held call.nVout + call.inputCols inp := by
  obtain ⟨prevtxout, frInp, applied, hread, hstep, rfl⟩ := scanInput_ok h
  obtain ⟨-, fr, hfr, rfl : frInp = fr.toStd, -⟩ := readInput_ok hread
  have hcols : call.inputCols inp = fr.toStd.cols := by simp [StandardCall.inputCols, hfr]
  calc applied.1.held call.nVout
      = (poolInput call st prevtxout.nValue (prevtxout.scriptPubKey.toAddress net)
          fr.toStd).held call.nVout := hstep.held
    _ = st.held call.nVout + call.inputCols inp := by rw [held_poolInput, hcols]

theorem held_empty (n : ℕ) : ({} : PoolState).held n = 0 := by
  have hfrozen : frozenCols n ∅ = 0 := Finset.sum_eq_zero fun j _ => CFractions.cols_default
  have hfees : ({} : CFractions).cols = 0 := CFractions.cols_default
  simp [PoolState.held, hfrozen, hfees]

/-- After the input loop everything the inputs brought is in exactly one place. -/
theorem scanInputs_held {st : PoolState} (h : scanInputs net call = .ok st) :
    st.held call.nVout = (call.inputs.map call.inputCols).sum := by
  have hrun := Run.foldlM_sum (P := fun _ => True) (fun _ _ _ _ _ _ => trivial)
    (fun _ _ _ _ _ hs => scanInput_held hs) trivial h
  rw [hrun, held_empty, zero_add]

end Held

/-! ## Prepared outputs are filled -/

theorem InputStep.filled {st : PoolState} {i : ℕ} {sAddress : CString} {frInp : CFractions}
    {r : PoolState × ℤ} (h : InputStep net call st i sAddress frInp r)
    (hst : ∀ j, (st.poolFrozen.get j).fractions.Filled) (j : ℕ) :
    (r.1.poolFrozen.get j).fractions.Filled := by
  have hmarked : ∀ {nMark : NotaryMark} {b : FrozenMap},
      Marked net call nMark st.poolFrozen b → ∀ j, (b.get j).fractions.Filled :=
    fun hmark => hmark.forall_get (fun _ _ _ hP hset => CFractions.setMark_filled hset hP) hst
  have hinsert : ∀ {b : FrozenMap} {t : FrozenTxOut} {k : ℕ},
      (∀ j, (b.get j).fractions.Filled) → t.fractions.Filled →
        ((b.insert k t).get j).fractions.Filled := fun hb ht =>
    SortedMap.forall_get_insert (P := fun _ (t : FrozenTxOut) => t.fractions.Filled) hb ht j
  cases h with
  | plain hcold => exact hst j
  | cold hout hcold hempty hcols hstd hbound => exact hinsert hst (Or.inl hstd)
  | shared hcold hmark => exact hmarked hmark j
  | reserve hcold hmark hj hwarm hset =>
    exact hinsert (hmarked hmark) (CFractions.setMark_filled hset (CFractions.filled_add _ _))
  | liquidity hcold hmark hj hwarm hset =>
    exact hinsert (hmarked hmark) (CFractions.setMark_filled hset (CFractions.filled_add _ _))
  | toCold hcold hmark hj hwarm hvalue hset =>
    have hfilled := CFractions.setMark_filled hset (CFractions.filled_add _ _)
    exact hinsert (hmarked hmark) hfilled

/-- Prepared outputs are stored as vectors or are still empty. -/
theorem scanInputs_filled {st : PoolState} (h : scanInputs net call = .ok st) (j : ℕ) :
    (st.poolFrozen.get j).fractions.Filled := by
  refine Run.foldlM_invariant
    (P := fun (st : PoolState) => ∀ j, (st.poolFrozen.get j).fractions.Filled)
    ?_ ?_ h j
  · intro inp _ s s' hs hscan
    obtain ⟨prevtxout, frInp, applied, -, hstep, rfl⟩ := scanInput_ok hscan
    exact hstep.filled hs
  · exact fun _ => CFractions.filled_default

/-! ## Signs -/

/-- No pool, no prepared output and no cold fee is negative. -/
structure PoolState.Nonneg (st : PoolState) : Prop where
  reserves : ∀ a, (st.poolReserves.get a).Nonneg
  liquidity : ∀ a, (st.poolLiquidity.get a).Nonneg
  frozen : ∀ j, (st.poolFrozen.get j).fractions.Nonneg
  values : ∀ j, 0 ≤ (st.poolFrozen.get j).nValue
  coldFees : st.frColdFees.Nonneg

/-- The inputs and the values of the outputs are not negative. -/
structure StandardCall.Nonneg (call : StandardCall) : Prop where
  inputs : ∀ inp ∈ call.inputs, ∀ fr, call.mapInputsFractions inp.1.prevout.fkey = some fr →
    fr.Nonneg
  outputs : ∀ j < call.nVout, 0 ≤ call.outValue j

section Nonneg

variable {st : PoolState} {i : ℕ} {sAddress : CString} {frInp : CFractions} {r : PoolState × ℤ}

theorem CFractions.Nonneg.of_cols {a b : CFractions} (ha : a.Nonneg) (h : b.cols = a.cols) :
    b.Nonneg := fun i => h ▸ ha i

theorem Marked.nonneg {nMark : NotaryMark} {a b : FrozenMap}
    (h : Marked net call nMark a b) (ha : ∀ j, (a.get j).fractions.Nonneg) (j : ℕ) :
    (b.get j).fractions.Nonneg := (ha j).of_cols (h.cols j)

theorem Marked.values {nMark : NotaryMark} {a b : FrozenMap} (h : Marked net call nMark a b)
    (hout : ∀ j < call.nVout, 0 ≤ call.outValue j) (ha : ∀ j, 0 ≤ (a.get j).nValue) (j : ℕ) :
    0 ≤ (b.get j).nValue := by
  rcases h.value j with hsame | ⟨hj, hvalue⟩
  · exact hsame ▸ ha j
  · exact hvalue ▸ hout j hj

theorem forall_value_insert {a : FrozenMap} (ha : ∀ j, 0 ≤ (a.get j).nValue) {k : ℕ}
    {t : FrozenTxOut} (ht : 0 ≤ t.nValue) (j : ℕ) : 0 ≤ ((a.insert k t).get j).nValue :=
  SortedMap.forall_get_insert (P := fun _ (t : FrozenTxOut) => 0 ≤ t.nValue) ha ht j

/-- What a move leaves behind and what it hands over are not negative. -/
theorem CFractions.Moved.nonneg {a b : CFractions} {p : ℤ} {m : ℤ × CFractions × CFractions}
    {q : Columns} (h : Moved a b p m q) (ha : a.Nonneg) (hb : b.Nonneg) (hp : 0 ≤ p) :
    m.2.1.Nonneg ∧ m.2.2.Nonneg := by
  refine ⟨fun c => ?_, fun c => ?_⟩
  · rw [h.src]
    exact sub_nonneg.mpr (h.bounds ha hp c).2
  · rw [h.dst]
    exact add_nonneg (hb c) (h.bounds ha hp c).1

/-- The low part of a pool that just received `frInp` covers the low part of a piece of it. -/
theorem nonneg_sub_part {pool whole piece : CFractions} (hpool : ∀ c, whole.cols c ≤ pool.cols c)
    (hpiece : ∀ c, piece.cols c ≤ whole.cols c) : (pool - piece).Nonneg := fun c => by
  have h1 := hpool c
  have h2 := hpiece c
  simp only [CFractions.cols_sub, Pi.sub_apply]
  omega

theorem lowPart_mono {a b : CFractions} (h : ∀ c, a.cols c ≤ b.cols c) (n : ℕ)
    (c : Fin PEG_SIZE) : (a.lowPart n).cols c ≤ (b.lowPart n).cols c := by
  rw [CFractions.cols_lowPart, CFractions.cols_lowPart]
  split_ifs
  · exact h c
  · exact le_rfl

theorem highPart_mono {a b : CFractions} (h : ∀ c, a.cols c ≤ b.cols c) (n : ℕ)
    (c : Fin PEG_SIZE) : (a.highPart n).cols c ≤ (b.highPart n).cols c := by
  rw [CFractions.cols_highPart, CFractions.cols_highPart]
  split_ifs
  · exact le_rfl
  · exact h c

structure Pooled (call : StandardCall) (st : PoolState) (sAddress : CString) (frInp : CFractions) :
    Prop where
  reserve : ∀ c, (frInp.lowPart call.nSupply).cols c ≤ (st.poolReserves.get sAddress).cols c
  liquidity : ∀ c, (frInp.highPart call.nSupply).cols c ≤ (st.poolLiquidity.get sAddress).cols c

theorem pooled_poolInput (h : st.Nonneg) (nValue : ℤ) :
    Pooled call (poolInput call st nValue sAddress frInp) sAddress frInp := by
  constructor <;> intro c
  · simpa [poolInput] using h.reserves sAddress c
  · simpa [poolInput] using h.liquidity sAddress c

theorem nonneg_poolInput (h : st.Nonneg) (hfr : frInp.Nonneg) (nValue : ℤ) :
    (poolInput call st nValue sAddress frInp).Nonneg where
  reserves := SortedMap.forall_get_modify (P := fun _ => CFractions.Nonneg) h.reserves
    fun hr => hr.add (hfr.lowPart _)
  liquidity := SortedMap.forall_get_modify (P := fun _ => CFractions.Nonneg) h.liquidity
    fun hl => hl.add (hfr.highPart _)
  frozen := h.frozen
  values := h.values
  coldFees := h.coldFees

theorem InputStep.nonneg (h : InputStep net call st i sAddress frInp r) (hst : st.Nonneg)
    (hpool : Pooled call st sAddress frInp) (hfr : frInp.Nonneg)
    (hout : ∀ j < call.nVout, 0 ≤ call.outValue j) : r.1.Nonneg := by
  cases h with
  | plain hcold => exact hst
  | @cold out fractions hget hcold hempty hcols hstd hbound =>
    obtain ⟨hi, hget'⟩ := List.getElem?_eq_some_iff.mp hget
    have hvalue : 0 ≤ out.nValue := by
      have := hout i hi
      simpa [StandardCall.outValue, List.getD, hget] using this
    have hle := fun c => (CFractions.ratioPart_bounds hfr hvalue c).2
    refine ⟨?_, ?_, ?_, forall_value_insert hst.values hvalue, ?_⟩
    · exact SortedMap.forall_get_modify (P := fun _ => CFractions.Nonneg) hst.reserves
        fun _ => nonneg_sub_part hpool.reserve fun _ => le_rfl
    · exact SortedMap.forall_get_modify (P := fun _ => CFractions.Nonneg) hst.liquidity
        fun _ => nonneg_sub_part hpool.liquidity fun _ => le_rfl
    · refine SortedMap.forall_get_insert (P := fun _ (t : FrozenTxOut) => t.fractions.Nonneg) hst.frozen fun c => ?_
      rw [hcols]
      exact add_nonneg (hst.frozen i c) (CFractions.ratioPart_bounds hfr hvalue c).1
    · exact hst.coldFees.add (nonneg_sub_part (fun _ => le_rfl) hle)
  | shared hcold hmark =>
    exact ⟨hst.reserves, hst.liquidity, hmark.nonneg hst.frozen, hmark.values hout hst.values,
      hst.coldFees⟩
  | @reserve poolFrozen j fractions hcold hmark hj hwarm hset =>
    obtain ⟨q, hq⟩ := CFractions.moveRatioPartTo_moved (st.poolReserves.get sAddress) .zeroStd
      (call.outValue j)
    obtain ⟨hsrc, hdst⟩ := hq.nonneg (hst.reserves sAddress) (fun _ => le_rfl) (hout j hj)
    refine ⟨?_, hst.liquidity, ?_,
      forall_value_insert (hmark.values hout hst.values) (hmark.values hout hst.values j),
      hst.coldFees⟩
    · exact SortedMap.forall_get_insert (P := fun _ => CFractions.Nonneg) hst.reserves hsrc
    · exact SortedMap.forall_get_insert (P := fun _ (t : FrozenTxOut) => t.fractions.Nonneg)
        (hmark.nonneg hst.frozen)
        (((hmark.nonneg hst.frozen j).add hdst).of_cols (CFractions.setMark_cols hset))
  | @liquidity nMark poolFrozen j fractions hcold hmark hj hwarm hset =>
    obtain ⟨q, hq⟩ := CFractions.moveRatioPartTo_moved (st.poolLiquidity.get sAddress) .zeroStd
      (call.outValue j)
    obtain ⟨hsrc, hdst⟩ := hq.nonneg (hst.liquidity sAddress) (fun _ => le_rfl) (hout j hj)
    refine ⟨hst.reserves, ?_, ?_,
      forall_value_insert (hmark.values hout hst.values) (hmark.values hout hst.values j),
      hst.coldFees⟩
    · exact SortedMap.forall_get_insert (P := fun _ => CFractions.Nonneg) hst.liquidity hsrc
    · exact SortedMap.forall_get_insert (P := fun _ (t : FrozenTxOut) => t.fractions.Nonneg)
        (hmark.nonneg hst.frozen)
        (((hmark.nonneg hst.frozen j).add hdst).of_cols (CFractions.setMark_cols hset))
  | @toCold poolFrozen j fractions hcold hmark hj hwarm hvalue hset =>
    have hle := fun c => (CFractions.ratioPart_bounds hfr (hout j hj) c).2
    refine ⟨?_, ?_, ?_,
      forall_value_insert (hmark.values hout hst.values) (hmark.values hout hst.values j),
      hst.coldFees⟩
    · exact SortedMap.forall_get_modify (P := fun _ => CFractions.Nonneg) hst.reserves
        fun _ => nonneg_sub_part hpool.reserve (lowPart_mono hle _)
    · exact SortedMap.forall_get_modify (P := fun _ => CFractions.Nonneg) hst.liquidity
        fun _ => nonneg_sub_part hpool.liquidity (highPart_mono hle _)
    · have hsum := (hmark.nonneg hst.frozen j).add (hfr.ratioPart (hout j hj))
      have hfractions : fractions.Nonneg := hsum.of_cols (CFractions.setMark_cols hset)
      exact SortedMap.forall_get_insert (P := fun _ (t : FrozenTxOut) => t.fractions.Nonneg)
        (hmark.nonneg hst.frozen) hfractions

theorem scanInput_nonneg {st st' : PoolState} {inp : CTxIn × ℕ} (hcall : call.Nonneg)
    (hinp : inp ∈ call.inputs) (hst : st.Nonneg) (h : scanInput net call st inp = .ok st') :
    st'.Nonneg := by
  obtain ⟨prevtxout, frInp, applied, hread, hstep, rfl⟩ := scanInput_ok h
  obtain ⟨-, fr, hfr, rfl : frInp = fr.toStd, -⟩ := readInput_ok hread
  have hfrn : fr.toStd.Nonneg := (hcall.inputs inp hinp fr hfr).of_cols rfl
  have hpools := hstep.nonneg (nonneg_poolInput hst hfrn _) (pooled_poolInput hst _) hfrn
    hcall.outputs
  exact ⟨hpools.reserves, hpools.liquidity, hpools.frozen, hpools.values, hpools.coldFees⟩

theorem nonneg_empty : ({} : PoolState).Nonneg :=
  ⟨fun _ => CFractions.nonneg_default, fun _ => CFractions.nonneg_default,
    fun _ => CFractions.nonneg_default, fun _ => le_rfl, CFractions.nonneg_default⟩

theorem scanInputs_nonneg {st : PoolState} (hcall : call.Nonneg)
    (h : scanInputs net call = .ok st) : st.Nonneg :=
  Run.foldlM_invariant (fun _ hinp _ _ hs => scanInput_nonneg hcall hinp hs) nonneg_empty h

end Nonneg

end BitBay
