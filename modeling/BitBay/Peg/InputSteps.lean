import BitBay.Peg.Standard

/-!
# What one input does

One round of the input loop is described once, by the cases of `InputStep`: an
input stays in the pools, goes to the output at its index as a cold input, or
carries a notary that marks outputs and fills one of them or leaves that to the
output loop. Every invariant of the input loop is a case analysis on it.
-/
namespace BitBay

variable {net : Params} {call : StandardCall}

/-! ## Reading an input -/

theorem readInput_ok {i : ℕ} {inp : CTxIn} {r : CTxOut × CFractions}
    (h : readInput call i inp = .ok r) :
    call.mapInputs inp.prevout.fkey = some r.1 ∧
      ∃ fr, call.mapInputsFractions inp.prevout.fkey = some fr ∧ r.2 = fr.toStd ∧
        fr.total = r.1.nValue := by
  unfold readInput at h
  cases hout : call.mapInputs inp.prevout.fkey with
  | none => simp [hout] at h
  | some prevtxout =>
    cases hfr : call.mapInputsFractions inp.prevout.fkey with
    | none => simp [hout, hfr] at h
    | some fr =>
      simp only [hout, hfr] at h
      split_ifs at h with htotal hF hV
      cases h
      exact ⟨rfl, fr, rfl, rfl, by simpa using htotal⟩

/-- Frozen fractions are not spent before their time, unless the input has a pass;
for voluntarily frozen ones there is no pass. -/
theorem readInput_lockTime {i : ℕ} {inp : CTxIn} {r : CTxOut × CFractions}
    (h : readInput call i inp = .ok r) :
    (r.2.nFlags.notaryF = true → call.nBlockTime < r.2.nLockTime → i ∈ call.setTimeLockPass) ∧
      (r.2.nFlags.notaryV = true → r.2.nLockTime ≤ call.nBlockTime) := by
  unfold readInput at h
  cases hout : call.mapInputs inp.prevout.fkey with
  | none => simp [hout] at h
  | some prevtxout =>
    cases hfr : call.mapInputsFractions inp.prevout.fkey with
    | none => simp [hout, hfr] at h
    | some fr =>
      simp only [hout, hfr] at h
      split_ifs at h with htotal hF hV
      cases h
      constructor
      · intro hflag hlock
        by_contra hpass
        exact hF ⟨hflag, hlock, hpass⟩
      · intro hflag
        by_contra hlock
        exact hV ⟨hflag, not_le.mp hlock⟩

/-! ## Marking outputs -/

/-- Outputs were marked with `nMark`; cold outputs were left alone. -/
structure Marked (net : Params) (call : StandardCall) (nMark : NotaryMark)
    (poolFrozen r : FrozenMap) : Prop where
  fractions : ∀ j, (r.get j).fractions = (poolFrozen.get j).fractions ∨
    (poolFrozen.get j).fractions.setMark net .markSet nMark call.nBlockTime =
      some (r.get j).fractions
  value : ∀ j, (r.get j).nValue = (poolFrozen.get j).nValue ∨
    j < call.nVout ∧ (r.get j).nValue = call.outValue j
  flag : ∀ j, (r.get j).fIsColdOutput = (poolFrozen.get j).fIsColdOutput
  cold : ∀ j, (poolFrozen.get j).fIsColdOutput = true → r.get j = poolFrozen.get j

section Marked

variable {nMark : NotaryMark} {a b c : FrozenMap}

theorem Marked.refl : Marked net call nMark a a :=
  ⟨fun _ => Or.inl rfl, fun _ => Or.inl rfl, fun _ => rfl, fun _ _ => rfl⟩

theorem Marked.trans (hab : Marked net call nMark a b) (hbc : Marked net call nMark b c) :
    Marked net call nMark a c := by
  refine ⟨fun j => ?_, fun j => ?_, fun j => (hbc.flag j).trans (hab.flag j), fun j hj => ?_⟩
  · rcases hab.fractions j with h1 | h1 <;> rcases hbc.fractions j with h2 | h2
    · exact Or.inl (h2.trans h1)
    · exact Or.inr (h1 ▸ h2)
    · exact Or.inr (h2 ▸ h1)
    · have hsame := Option.some.inj ((CFractions.setMark_again h1).symm.trans h2)
      exact Or.inr (hsame ▸ h1)
  · rcases hbc.value j with h2 | h2
    · rw [h2]
      exact hab.value j
    · exact Or.inr h2
  · exact (hbc.cold j ((hab.flag j).trans hj)).trans (hab.cold j hj)

/-- A property that marking keeps holds of all frozen outputs afterwards. -/
theorem Marked.forall_get {P : ℕ → CFractions → Prop} (h : Marked net call nMark a b)
    (hmark : ∀ j fr fr', P j fr → fr.setMark net .markSet nMark call.nBlockTime = some fr' → P j fr')
    (ha : ∀ j, P j (a.get j).fractions) (j : ℕ) : P j (b.get j).fractions := by
  rcases h.fractions j with hj | hj
  · exact hj ▸ ha j
  · exact hmark j _ _ (ha j) hj

theorem Marked.cols (h : Marked net call nMark a b) (j : ℕ) :
    (b.get j).fractions.cols = (a.get j).fractions.cols := by
  rcases h.fractions j with hj | hj
  · rw [hj]
  · exact CFractions.setMark_cols hj

theorem frozenIndex_ok {i j : ℕ} {sOutputArg : CString} (h : frozenIndex call i sOutputArg = .ok j) :
    j < call.nVout ∧ j ≠ i := by
  unfold frozenIndex at h
  cases harg : sOutputArg.strtol with
  | none => simp [harg] at h
  | some nFrozenIndex =>
    simp only [harg] at h
    split_ifs at h with hrange hself
    cases h
    omega

theorem markOutput_ok {sAddress : CString} {j : ℕ} (hj : j < call.nVout)
    (h : markOutput net call nMark sAddress a j = .ok b) :
    Marked net call nMark a b ∧ (b.get j).fIsColdOutput = false := by
  simp only [markOutput] at h
  split_ifs at h with hcold
  cases hset : (a.get j).fractions.setMark net .markSet nMark call.nBlockTime with
  | none => simp [hset] at h
  | some fractions =>
    simp only [hset] at h
    cases h
    refine ⟨⟨fun x => ?_, fun x => ?_, fun x => ?_, fun x hx => ?_⟩, by simpa using hcold⟩
    all_goals rw [SortedMap.get_insert]; split_ifs with hxj
    · exact Or.inr (by rw [hxj, hset])
    · exact Or.inl rfl
    · exact Or.inr (by simp [hxj, hj])
    · exact Or.inl rfl
    · rw [hxj]
    · rfl
    · exact absurd (hxj ▸ hx) hcold
    · rfl

theorem markOutputs_ok {i : ℕ} {sAddress : CString} {args : List CString}
    {r : FrozenMap × List ℕ} (h : markOutputs net call i nMark sAddress args a = .ok r) :
    Marked net call nMark a r.1 ∧
      ∀ j ∈ r.2, j < call.nVout ∧ (r.1.get j).fIsColdOutput = false := by
  induction args generalizing a r with
  | nil =>
    cases h
    exact ⟨.refl, by simp⟩
  | cons sOutputArg rest ih =>
    simp only [markOutputs, Run.bind_eq_ok] at h
    obtain ⟨j, hj, poolFrozen, hmark, r', hrest, hr⟩ := h
    cases hr
    obtain ⟨hfirst, hcold⟩ := markOutput_ok (frozenIndex_ok hj).1 hmark
    obtain ⟨hmarked, hall⟩ := ih hrest
    refine ⟨hfirst.trans hmarked, fun x hx => ?_⟩
    rcases List.mem_cons.mp hx with rfl | hx
    · exact ⟨(frozenIndex_ok hj).1, (hmarked.flag x).trans hcold⟩
    · exact hall x hx

/-- The fair withdraw of an escrow touches one of the outputs it names. -/
theorem setFairWithdraw_get (a : FrozenMap) (l : List ℕ) (j : ℕ) :
    (setFairWithdraw a l).get j = a.get j ∨ j ∈ l ∧
      ((setFairWithdraw a l).get j).fractions = (a.get j).fractions ∧
      ((setFairWithdraw a l).get j).nValue = (a.get j).nValue ∧
      ((setFairWithdraw a l).get j).fIsColdOutput = (a.get j).fIsColdOutput := by
  unfold setFairWithdraw
  split
  · rename_i j1 j2
    rw [SortedMap.get_modify]
    split_ifs with hmin
    · refine Or.inr ⟨?_, by rw [hmin], by rw [hmin], by rw [hmin]⟩
      rcases min_choice j1 j2 with hm | hm <;> simp [hmin, hm]
    · exact Or.inl rfl
  · exact Or.inl rfl

theorem setFairWithdraw_marked {l : List ℕ} (hl : ∀ j ∈ l, (a.get j).fIsColdOutput = false) :
    Marked net call nMark a (setFairWithdraw a l) := by
  refine ⟨fun j => ?_, fun j => ?_, fun j => ?_, fun j hj => ?_⟩
  all_goals rcases setFairWithdraw_get a l j with hsame | ⟨hmem, hfr, hvalue, hflag⟩
  · exact Or.inl (by rw [hsame])
  · exact Or.inl hfr
  · exact Or.inl (by rw [hsame])
  · exact Or.inl hvalue
  · rw [hsame]
  · exact hflag
  · exact hsame
  · exact absurd (hl j hmem) (by simp [hj])

end Marked

/-! ## The cases -/

/-- What a round of the input loop does after the input entered the pools. -/
inductive InputStep (net : Params) (call : StandardCall) (st : PoolState) (i : ℕ)
    (sAddress : CString) (frInp : CFractions) : PoolState × ℤ → Prop
  /-- The input stays in the pools. -/
  | plain (hcold : i < call.nVout → frInp.nFlags.notaryC = false) :
    InputStep net call st i sAddress frInp (st, (frInp.highPart call.nSupply).total)
  /-- A cold input leaves the pools for the output at its index and the fees. -/
  | cold {out : CTxOut} {fractions : CFractions} (hout : call.tx.vout[i]? = some out)
    (hcold : frInp.nFlags.notaryC = true)
    (hempty : (st.poolFrozen.get i).fractions.total = 0)
    (hcols : fractions.cols =
      (st.poolFrozen.get i).fractions.cols + (frInp.ratioPart out.nValue).cols)
    (hstd : fractions.nFlags.std = true)
    (hbound : frInp.sReturnAddr = out.scriptPubKey.toAddress net ∨
      fractions.nFlags.notaryF = true ∧
        fractions.nLockTime = call.nBlockTime + 4 * net.pegFrozenTime) :
    InputStep net call st i sAddress frInp
      ({ st with
        poolFrozen := st.poolFrozen.insert i
          { st.poolFrozen.get i with nValue := out.nValue, fractions, fIsColdOutput := true }
        poolReserves := st.poolReserves.modify sAddress (· - frInp.lowPart call.nSupply)
        poolLiquidity := st.poolLiquidity.modify sAddress (· - frInp.highPart call.nSupply)
        frColdFees := st.frColdFees + (frInp - frInp.ratioPart out.nValue) }, 0)
  /-- Outputs are marked and filled later, by the output loop. -/
  | shared {nMark : NotaryMark} {poolFrozen : FrozenMap} {fFreezeAll : Bool}
    (hcold : frInp.nFlags.notaryC = false)
    (hmark : Marked net call nMark st.poolFrozen poolFrozen) :
    InputStep net call st i sAddress frInp
      ({ st with poolFrozen, fFreezeAll }, (frInp.highPart call.nSupply).total)
  /-- One output is frozen from the reserve. -/
  | reserve {poolFrozen : FrozenMap} {j : ℕ} {fractions : CFractions}
    (hcold : frInp.nFlags.notaryC = false)
    (hmark : Marked net call .notaryF st.poolFrozen poolFrozen)
    (hj : j < call.nVout) (hwarm : (poolFrozen.get j).fIsColdOutput = false)
    (hset : ((poolFrozen.get j).fractions + ((st.poolReserves.get sAddress).moveRatioPartTo
      .zeroStd (call.outValue j)).2.2).setMark net .markSet .notaryF call.nBlockTime =
        some fractions) :
    InputStep net call st i sAddress frInp
      ({ st with
        poolReserves := st.poolReserves.insert sAddress
          ((st.poolReserves.get sAddress).moveRatioPartTo .zeroStd (call.outValue j)).2.1
        poolFrozen := poolFrozen.insert j { poolFrozen.get j with fractions } },
        (frInp.highPart call.nSupply).total)
  /-- One output is frozen from the liquidity. -/
  | liquidity {nMark : NotaryMark} {poolFrozen : FrozenMap} {j : ℕ} {fractions : CFractions}
    (hcold : frInp.nFlags.notaryC = false)
    (hmark : Marked net call nMark st.poolFrozen poolFrozen)
    (hj : j < call.nVout) (hwarm : (poolFrozen.get j).fIsColdOutput = false)
    (hset : ((poolFrozen.get j).fractions + ((st.poolLiquidity.get sAddress).moveRatioPartTo
      .zeroStd (call.outValue j)).2.2).setMark net .markSet nMark call.nBlockTime =
        some fractions) :
    InputStep net call st i sAddress frInp
      ({ st with
        poolLiquidity := st.poolLiquidity.insert sAddress
          ((st.poolLiquidity.get sAddress).moveRatioPartTo .zeroStd (call.outValue j)).2.1
        poolFrozen := poolFrozen.insert j { poolFrozen.get j with fractions } },
        (frInp.highPart call.nSupply).total - call.outValue j)
  /-- A part of the input goes to a cold output. -/
  | toCold {poolFrozen : FrozenMap} {j : ℕ} {fractions : CFractions}
    (hcold : frInp.nFlags.notaryC = false)
    (hmark : Marked net call .notaryC st.poolFrozen poolFrozen)
    (hj : j < call.nVout) (hwarm : (poolFrozen.get j).fIsColdOutput = false)
    (hvalue : call.outValue j ≤ frInp.total)
    (hset : ((poolFrozen.get j).fractions + frInp.ratioPart (call.outValue j)).setMark net
      .markSet .notaryC call.nBlockTime = some fractions) :
    InputStep net call st i sAddress frInp
      ({ st with
        poolFrozen := poolFrozen.insert j
          { poolFrozen.get j with fractions := { fractions with sReturnAddr := sAddress } }
        poolReserves := st.poolReserves.modify sAddress
          (· - (frInp.ratioPart (call.outValue j)).lowPart call.nSupply)
        poolLiquidity := st.poolLiquidity.modify sAddress
          (· - (frInp.ratioPart (call.outValue j)).highPart call.nSupply) },
        (frInp.highPart call.nSupply).total -
          ((frInp.ratioPart (call.outValue j)).highPart call.nSupply).total)

section Steps

variable {st st' : PoolState} {i j : ℕ} {sAddress : CString} {frInp : CFractions}
  {r : PoolState × ℤ} {nMark : NotaryMark}

theorem depositFrozen_ok {a b : FrozenMap} {frozenOut : CFractions} {sCrossing : String}
    (h : depositFrozen net call nMark a j frozenOut sCrossing = .ok b) :
    ∃ fractions, ((a.get j).fractions + frozenOut).setMark net .markSet nMark call.nBlockTime =
        some fractions ∧ b = a.insert j { a.get j with fractions } := by
  simp only [depositFrozen] at h
  cases hset : ((a.get j).fractions + frozenOut).setMark net .markSet nMark call.nBlockTime with
  | none => simp [hset] at h
  | some fractions =>
    simp only [hset] at h
    cases h
    exact ⟨fractions, rfl, rfl⟩

theorem coldInput_step {out : CTxOut} (hout : call.tx.vout[i]? = some out)
    (hcold : frInp.nFlags.notaryC = true)
    (h : coldInput net call st i out sAddress frInp = .ok st') :
    InputStep net call st i sAddress frInp (st', 0) := by
  simp only [coldInput] at h
  split_ifs at h with hempty hreturn
  · cases h
    refine .cold hout hcold (by tauto) ?_ rfl (Or.inl hreturn)
    exact CFractions.cols_add _ _
  · split at h
    · cases h
    · rename_i fractions hset
      cases h
      have hmark := CFractions.setMark_eq hset
      refine .cold hout hcold (by tauto) ?_ (by rw [hmark]; rfl) (Or.inr ?_)
      · rw [CFractions.setMark_cols hset]
        exact CFractions.cols_add _ _
      · rw [hmark]
        exact ⟨rfl, rfl⟩

theorem freezeReserve_step {poolFrozen : FrozenMap} {sCrossing : String}
    (hcold : frInp.nFlags.notaryC = false)
    (hmark : Marked net call .notaryF st.poolFrozen poolFrozen)
    (hj : j < call.nVout) (hwarm : (poolFrozen.get j).fIsColdOutput = false)
    (h : freezeReserve net call { st with poolFrozen } sAddress j sCrossing = .ok st') :
    InputStep net call st i sAddress frInp (st', (frInp.highPart call.nSupply).total) := by
  simp only [freezeReserve, Run.bind_eq_ok] at h
  obtain ⟨b, hdep, hst⟩ := h
  obtain ⟨fractions, hset, rfl⟩ := depositFrozen_ok hdep
  cases hst
  exact .reserve hcold hmark hj hwarm hset

theorem freezeLiquidity_step {poolFrozen : FrozenMap} {sCrossing : String}
    (hcold : frInp.nFlags.notaryC = false)
    (hmark : Marked net call nMark st.poolFrozen poolFrozen)
    (hj : j < call.nVout) (hwarm : (poolFrozen.get j).fIsColdOutput = false)
    (h : freezeLiquidity net call nMark { st with poolFrozen } sAddress j sCrossing = .ok st') :
    InputStep net call st i sAddress frInp
      (st', (frInp.highPart call.nSupply).total - call.outValue j) := by
  simp only [freezeLiquidity, Run.bind_eq_ok] at h
  obtain ⟨b, hdep, hst⟩ := h
  obtain ⟨fractions, hset, rfl⟩ := depositFrozen_ok hdep
  cases hst
  exact .liquidity hcold hmark hj hwarm hset

theorem freezeCold_step {poolFrozen : FrozenMap}
    (hcold : frInp.nFlags.notaryC = false)
    (hmark : Marked net call .notaryC st.poolFrozen poolFrozen)
    (hj : j < call.nVout) (hwarm : (poolFrozen.get j).fIsColdOutput = false)
    (hvalue : call.outValue j ≤ frInp.total)
    (h : freezeCold net call { st with poolFrozen } sAddress frInp j = .ok st') :
    InputStep net call st i sAddress frInp
      (st', (frInp.highPart call.nSupply).total -
        ((frInp.ratioPart (call.outValue j)).highPart call.nSupply).total) := by
  simp only [freezeCold] at h
  split_ifs at h with htotal haddr
  rw [Run.bind_eq_ok] at h
  obtain ⟨b, hdep, hst⟩ := h
  obtain ⟨fractions, hset, rfl⟩ := depositFrozen_ok hdep
  cases hst
  have hstep : InputStep net call st i sAddress frInp _ :=
    .toCold hcold hmark hj hwarm hvalue hset
  simpa [SortedMap.modify, SortedMap.insert_insert] using hstep

theorem freezeOutput_step {poolFrozen : FrozenMap} (hcold : frInp.nFlags.notaryC = false)
    (hmark : Marked net call nMark st.poolFrozen poolFrozen)
    (hj : j < call.nVout) (hwarm : (poolFrozen.get j).fIsColdOutput = false)
    (h : freezeOutput net call nMark { st with poolFrozen } sAddress frInp j = .ok r) :
    InputStep net call st i sAddress frInp r := by
  cases nMark with
  | notaryF =>
    simp only [freezeOutput] at h
    split_ifs at h with hshort
    · cases h
      exact .shared hcold hmark
    · rw [Run.bind_eq_ok] at h
      obtain ⟨st', hfreeze, hr⟩ := h
      cases hr
      exact freezeReserve_step hcold hmark hj hwarm hfreeze
  | notaryV =>
    simp only [freezeOutput] at h
    split_ifs at h with hshort
    · cases h
      exact .shared hcold hmark
    · rw [Run.bind_eq_ok] at h
      obtain ⟨st', hfreeze, hr⟩ := h
      cases hr
      exact freezeLiquidity_step hcold hmark hj hwarm hfreeze
  | notaryL =>
    simp only [freezeOutput] at h
    split_ifs at h with hshort
    rw [Run.bind_eq_ok] at h
    obtain ⟨st', hfreeze, hr⟩ := h
    cases hr
    exact freezeLiquidity_step hcold hmark hj hwarm hfreeze
  | notaryC =>
    simp only [freezeOutput] at h
    split_ifs at h with hshort
    rw [Run.bind_eq_ok] at h
    obtain ⟨st', hfreeze, hr⟩ := h
    cases hr
    exact freezeCold_step hcold hmark hj hwarm (not_lt.mp hshort) hfreeze

theorem notaryInput_step {sNotary : CString} (hcold : frInp.nFlags.notaryC = false)
    (h : notaryInput net call st i sNotary nMark sAddress frInp = .ok r) :
    InputStep net call st i sAddress frInp r := by
  simp only [notaryInput] at h
  split_ifs at h with hargs
  rw [Run.bind_eq_ok] at h
  obtain ⟨⟨poolFrozen, l⟩, hmarks, h⟩ := h
  obtain ⟨hmarked, hall⟩ := markOutputs_ok hmarks
  have hfair : Marked net call nMark poolFrozen (setFairWithdraw poolFrozen l) :=
    setFairWithdraw_marked fun j hj => (hall j hj).2
  split at h
  · rename_i j hl
    obtain rfl : l = [j] := hl
    obtain ⟨hj, hwarm⟩ := hall j List.mem_cons_self
    exact freezeOutput_step hcold (hmarked.trans hfair) hj ((hfair.flag j).trans hwarm) h
  · cases h
    exact .shared hcold (hmarked.trans hfair)

/-- Every successful round is one of the cases. -/
theorem applyInput_step (h : applyInput net call st i sAddress frInp = .ok r) :
    InputStep net call st i sAddress frInp r := by
  simp only [applyInput] at h
  cases hout : call.tx.vout[i]? with
  | none =>
    simp only [hout] at h
    cases h
    refine .plain fun hi => ?_
    have hlen := List.getElem?_eq_none_iff.mp hout
    exact absurd hi hlen.not_gt
  | some out =>
    simp only [hout] at h
    cases hnotary : CScript.toNotary out.scriptPubKey with
    | none =>
      simp only [hnotary] at h
      split_ifs at h with hcold
      · rw [Run.bind_eq_ok] at h
        obtain ⟨st', hst, hr⟩ := h
        rw [sub_self] at hr
        cases hr
        exact coldInput_step hout hcold hst
      · cases h
        exact .plain fun _ => by simpa using hcold
    | some sNotary =>
      simp only [hnotary] at h
      split_ifs at h with hcold
      cases hm : notaryMark sNotary with
      | none =>
        simp only [hm] at h
        cases h
        exact .plain fun _ => by simpa using hcold
      | some nMark =>
        simp only [hm] at h
        exact notaryInput_step (by simpa using hcold) h

/-- One round of the input loop: the input is read, pooled and then placed. -/
theorem scanInput_ok {inp : CTxIn × ℕ} (h : scanInput net call st inp = .ok st') :
    ∃ prevtxout frInp applied,
      readInput call inp.2 inp.1 = .ok (prevtxout, frInp) ∧
      InputStep net call
        (poolInput call st prevtxout.nValue (prevtxout.scriptPubKey.toAddress net) frInp) inp.2
        (prevtxout.scriptPubKey.toAddress net) frInp applied ∧
      st' = { applied.1 with nLiquidityTotal := applied.1.nLiquidityTotal + applied.2 } := by
  simp only [scanInput, Run.bind_eq_ok] at h
  obtain ⟨⟨prevtxout, frInp⟩, hread, applied, happly, hst⟩ := h
  cases hst
  exact ⟨prevtxout, frInp, applied, hread, applyInput_step happly, rfl⟩

end Steps

end BitBay
