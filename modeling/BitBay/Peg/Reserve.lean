import BitBay.Peg.Conservation

/-!
# Reserve does not leak

Columns below the supply index are reserve. A transaction without cold inputs moves
reserve only to addresses of its inputs, into frozen or cold outputs, or into burns
and notaries. Every other output holds liquidity only.

The argument follows the two places where frozen outputs are filled: the input loop
keeps `PoolState.Bounded`, and the output loop draws on a common liquidity without
reserve columns.
-/
namespace BitBay

variable {net : Params} {call : StandardCall}

def StandardCall.IsInputAddress (net : Params) (call : StandardCall) (a : CString) : Prop :=
  ∃ inp ∈ call.inputs, ∃ prevtxout,
    call.mapInputs inp.1.prevout.fkey = some prevtxout ∧ prevtxout.scriptPubKey.toAddress net = a

/-- No input carries the cold mark. -/
def StandardCall.NoColdInput (call : StandardCall) : Prop :=
  ∀ inp ∈ call.inputs, ∀ fr, call.mapInputsFractions inp.1.prevout.fkey = some fr →
    fr.nFlags.notaryC = false

/-- Neither voluntarily frozen nor frozen liquidity. -/
def CFractions.NotVoluntary (fr : CFractions) : Prop :=
  fr.nFlags.notaryV = false ∧ fr.nFlags.notaryL = false

/-- Marked as frozen since the block time, or as cold, and as nothing else. -/
def CFractions.Bound (net : Params) (nBlockTime : ℕ) (fr : CFractions) : Prop :=
  (fr.FrozenSince net nBlockTime ∨ fr.nFlags.notaryC = true) ∧ fr.NotVoluntary

theorem CFractions.setMark_notaryF {a b : CFractions} {nMark : NotaryMark} {nTime : ℕ}
    (h : a.setMark net .markSet nMark nTime = some b) (hF : b.nFlags.notaryF = true) :
    b.FrozenSince net nTime := by
  refine ⟨hF, ?_⟩
  rw [setMark_eq h] at hF ⊢
  simp only [markLockTime] at hF ⊢
  rw [if_pos hF]

/-- Marks do not cross: next to a frozen or cold mark there is no voluntary one. -/
theorem CFractions.setMark_notVoluntary {a b : CFractions} {nMark : NotaryMark} {nTime : ℕ}
    (h : a.setMark net .markSet nMark nTime = some b)
    (hmark : b.nFlags.notaryF = true ∨ b.nFlags.notaryC = true) : b.NotVoluntary := by
  have hle : b.nFlags.nMarks ≤ 1 := by
    rw [setMark_eq h]
    by_contra hlt
    simp [setMark, not_le.mp hlt] at h
  unfold Flags.nMarks at hle
  constructor
  · cases hV : b.nFlags.notaryV with
    | false => rfl
    | true => rcases hmark with hm | hm <;> rw [hm, hV, Bool.toNat_true] at hle <;> omega
  · cases hL : b.nFlags.notaryL with
    | false => rfl
    | true => rcases hmark with hm | hm <;> rw [hm, hL, Bool.toNat_true] at hle <;> omega

theorem CFractions.setMark_bound {a b : CFractions} {nMark : NotaryMark} {nTime : ℕ}
    (h : a.setMark net .markSet nMark nTime = some b)
    (hmark : b.nFlags.notaryF = true ∨ b.nFlags.notaryC = true) : b.Bound net nTime := by
  refine ⟨?_, setMark_notVoluntary h hmark⟩
  rcases hmark with hF | hC
  · exact Or.inl (setMark_notaryF h hF)
  · exact Or.inr hC

/-- Setting another mark does not remove a binding one. -/
theorem CFractions.Bound.setMark {a b : CFractions} {nMark : NotaryMark} {nTime : ℕ}
    (ha : a.Bound net nTime) (h : a.setMark net .markSet nMark nTime = some b) :
    b.Bound net nTime := by
  apply setMark_bound h
  rw [setMark_eq h]
  rcases ha.1 with ⟨hF, -⟩ | hC
  · left
    cases nMark <;> first | exact hF | rfl
  · right
    cases nMark <;> first | exact hC | rfl

/-! ## The input loop -/

/-- Liquidity pools hold no reserve, prepared outputs with reserve are bound, and the
reserve pools belong to addresses of the inputs. -/
structure PoolState.Bounded (net : Params) (call : StandardCall) (st : PoolState) : Prop where
  liquidity : ∀ a (c : Fin PEG_SIZE), (c : ℕ) < call.nSupply → (st.poolLiquidity.get a).cols c = 0
  frozen : ∀ j (c : Fin PEG_SIZE), (c : ℕ) < call.nSupply →
    (st.poolFrozen.get j).fractions.cols c ≠ 0 →
      (st.poolFrozen.get j).fractions.Bound net call.nBlockTime
  addresses : ∀ a ∈ st.poolReserves, call.IsInputAddress net a

section Input

variable {st : PoolState} {i : ℕ} {sAddress : CString} {frInp : CFractions} {r : PoolState × ℤ}

theorem highPart_below {a : CFractions} {n : ℕ} {c : Fin PEG_SIZE} (hc : (c : ℕ) < n) :
    (a.highPart n).cols c = 0 := by
  rw [CFractions.cols_highPart, if_pos hc]

theorem Bounded.poolInput (h : st.Bounded net call) (hAddress : call.IsInputAddress net sAddress)
    (nValue : ℤ) : (poolInput call st nValue sAddress frInp).Bounded net call where
  liquidity := by
    intro a c hc
    refine SortedMap.forall_get_modify (P := fun _ (v : CFractions) => v.cols c = 0)
      (fun x => h.liquidity x c hc) (fun hv => ?_) a
    simp [hv, highPart_below hc]
  frozen := h.frozen
  addresses := by
    intro a ha
    rcases (SortedMap.mem_modify _ _ _ _).mp ha with rfl | ha
    · exact hAddress
    · exact h.addresses a ha

/-- Marking keeps the bound of every prepared output. -/
theorem Marked.bounded {nMark : NotaryMark} {b : FrozenMap} (h : st.Bounded net call)
    (hmark : Marked net call nMark st.poolFrozen b) (j : ℕ) (c : Fin PEG_SIZE)
    (hc : (c : ℕ) < call.nSupply) (hne : (b.get j).fractions.cols c ≠ 0) :
    (b.get j).fractions.Bound net call.nBlockTime := by
  have hold := h.frozen j c hc (hmark.cols j ▸ hne)
  rcases hmark.fractions j with hsame | hset
  · exact hsame ▸ hold
  · exact hold.setMark hset

theorem InputStep.bounded (h : InputStep net call st i sAddress frInp r)
    (hst : st.Bounded net call) (hmem : sAddress ∈ st.poolReserves)
    (hwarm : frInp.nFlags.notaryC = false) : r.1.Bounded net call := by
  have hkeys : ∀ (v : CFractions) a, a ∈ st.poolReserves.insert sAddress v →
      call.IsInputAddress net a := by
    intro v a ha
    rcases (SortedMap.mem_insert _ _ _ _).mp ha with rfl | ha
    · exact hst.addresses _ hmem
    · exact hst.addresses a ha
  cases h with
  | plain hcold => exact hst
  | cold hout hcold hempty hcols hstd hbound => simp [hwarm] at hcold
  | shared hcold hmark => exact ⟨hst.liquidity, hmark.bounded hst, hst.addresses⟩
  | @reserve poolFrozen j fractions hcold hmark hj hwarm' hset =>
    refine ⟨hst.liquidity, fun x c hc => ?_, hkeys _⟩
    refine SortedMap.forall_get_insert (P := fun _ (t : FrozenTxOut) =>
      t.fractions.cols c ≠ 0 → t.fractions.Bound net call.nBlockTime)
      (fun x hne => hmark.bounded hst x c hc hne) (fun _ => ?_) x
    have hF : fractions.nFlags.notaryF = true := by
      rw [CFractions.setMark_eq hset]
      rfl
    exact CFractions.setMark_bound hset (Or.inl hF)
  | @liquidity nMark poolFrozen j fractions hcold hmark hj hwarm' hset =>
    obtain ⟨q, hq⟩ := CFractions.moveRatioPartTo_moved (st.poolLiquidity.get sAddress) .zeroStd
      (call.outValue j)
    refine ⟨fun a c hc => ?_, fun x c hc => ?_, hst.addresses⟩
    · have hzero := hst.liquidity sAddress c hc
      refine SortedMap.forall_get_insert (P := fun _ (v : CFractions) => v.cols c = 0)
        (fun x => hst.liquidity x c hc) ?_ a
      rw [hq.src, Pi.sub_apply, hzero, hq.support c hzero, sub_zero]
    · refine SortedMap.forall_get_insert (P := fun _ (t : FrozenTxOut) =>
        t.fractions.cols c ≠ 0 → t.fractions.Bound net call.nBlockTime)
        (fun x hne => hmark.bounded hst x c hc hne) (fun hne => ?_) x
      -- The liquidity brings no reserve, so what is there was bound before.
      have hcols : fractions.cols c = (poolFrozen.get j).fractions.cols c := by
        rw [CFractions.setMark_cols hset, CFractions.cols_add, hq.dst]
        simp [hq.support c (hst.liquidity sAddress c hc)]
      have hold : ((poolFrozen.get j).fractions + ((st.poolLiquidity.get sAddress).moveRatioPartTo
          .zeroStd (call.outValue j)).2.2).Bound net call.nBlockTime :=
        hmark.bounded hst j c hc (hcols ▸ hne)
      exact hold.setMark hset
  | @toCold poolFrozen j fractions hcold hmark hj hwarm' hvalue hset =>
    refine ⟨fun a c hc => ?_, fun x c hc => ?_, hkeys _⟩
    · refine SortedMap.forall_get_modify (P := fun _ (v : CFractions) => v.cols c = 0)
        (fun x => hst.liquidity x c hc) (fun hv => ?_) a
      simp [hv, highPart_below hc]
    · refine SortedMap.forall_get_insert (P := fun _ (t : FrozenTxOut) =>
        t.fractions.cols c ≠ 0 → t.fractions.Bound net call.nBlockTime)
        (fun x hne => hmark.bounded hst x c hc hne) (fun _ => ?_) x
      have hC : fractions.nFlags.notaryC = true := by
        rw [CFractions.setMark_eq hset]
        rfl
      have hbound : fractions.Bound net call.nBlockTime :=
        CFractions.setMark_bound hset (Or.inr hC)
      exact hbound

theorem scanInputs_bounded {pools : PoolState} (hwarm : call.NoColdInput)
    (h : scanInputs net call = .ok pools) : pools.Bounded net call := by
  refine Run.foldlM_invariant (P := fun (st : PoolState) => st.Bounded net call) ?_ ?_ h
  · intro inp hinp s s' hs hscan
    obtain ⟨prevtxout, frInp, applied, hread, hstep, rfl⟩ := scanInput_ok hscan
    obtain ⟨hout, fr, hfr, rfl : frInp = fr.toStd, -⟩ := readInput_ok hread
    have hpooled : (poolInput call s prevtxout.nValue (prevtxout.scriptPubKey.toAddress net)
        fr.toStd).Bounded net call := Bounded.poolInput hs ⟨inp, hinp, prevtxout, hout, rfl⟩ _
    have hmem := (SortedMap.mem_modify s.poolReserves (prevtxout.scriptPubKey.toAddress net)
      (prevtxout.scriptPubKey.toAddress net) (· + fr.toStd.lowPart call.nSupply)).mpr (Or.inl rfl)
    have happlied := hstep.bounded hpooled hmem (hwarm inp hinp fr hfr)
    exact ⟨happlied.liquidity, happlied.frozen, happlied.addresses⟩
  · refine ⟨fun a c _ => ?_, fun j c _ hne => absurd ?_ hne, fun a ha => absurd ha ?_⟩
    · exact congrFun CFractions.cols_default c
    · exact congrFun CFractions.cols_default c
    · exact SortedMap.not_mem_empty a

end Input

/-! ## The output loop -/

/-- Where reserve may go: back to an address of the inputs, into a bound output, to the
burn address or into a notary that does not burn for a bridge. -/
def ReserveAllowed (net : Params) (call : StandardCall) (out : CTxOut) (fr : CFractions) : Prop :=
  call.IsInputAddress net (out.scriptPubKey.toAddress net) ∨
    fr.FrozenSince net call.nBlockTime ∨ fr.nFlags.notaryC = true ∨
    out.scriptPubKey.toAddress net = sBurnAddress.toList ∨
    ∃ sNotary, out.scriptPubKey.addressNotary net = some sNotary ∧
      sNotary.startsWith "**Z**" = false

section Output

variable {pools : PoolState} {st st' : OutputState} {fr fr' : CFractions} {out : CTxOut} {i : ℕ}
  {r : OutputState × CFractions}

theorem takesReserves_iff : takesReserves net out = true ↔
    out.scriptPubKey.toAddress net = sBurnAddress.toList ∨
      ∃ sNotary, out.scriptPubKey.addressNotary net = some sNotary ∧
        sNotary.startsWith "**Z**" = false := by
  cases hn : CScript.addressNotary net out.scriptPubKey with
  | none => simp [takesReserves, hn]
  | some sNotary => simp [takesReserves, hn]

theorem Drawn.notaryF_eq (h : Drawn st st' fr fr') : fr'.nFlags.notaryF = fr.nFlags.notaryF :=
  congrArg (fun m => m.1.notaryF) h.marks

theorem Drawn.notVoluntary (h : Drawn st st' fr fr') (hfr : fr.NotVoluntary) :
    fr'.NotVoluntary :=
  ⟨(congrArg (fun m => m.1.notaryV) h.marks).trans hfr.1,
    (congrArg (fun m => m.1.notaryL) h.marks).trans hfr.2⟩

/-- A draw after marking as frozen leaves the fractions frozen. -/
theorem Drawn.bound {frMarked : CFractions}
    (hset : fr.setMark net .markSet .notaryF call.nBlockTime = some frMarked)
    (h : Drawn st st' frMarked fr') :
    fr'.FrozenSince net call.nBlockTime ∧ fr'.NotVoluntary := by
  have hF : frMarked.nFlags.notaryF = true := by
    rw [CFractions.setMark_eq hset]
    rfl
  obtain ⟨hflag, hlock⟩ := CFractions.setMark_notaryF hset hF
  refine ⟨⟨h.notaryF_eq.trans hflag, ?_⟩,
    h.notVoluntary (CFractions.setMark_notVoluntary hset (Or.inl hF))⟩
  exact (congrArg (fun m => m.2.1) h.marks).trans hlock

theorem OutputStep.keys (h : OutputStep net call pools st fr out i r) (a : CString) :
    a ∈ r.1.poolReserves ↔ a ∈ st.poolReserves := by
  cases h with
  | kept hmem => rfl
  | untouched hmem htotal => rfl
  | frozenLiquidity hmem htotal hset hdrawn => exact hdrawn.keys a
  | frozenReserve hmem htotal hset hdrawn => exact hdrawn.keys a
  | reserve hnot hallowed hdrawn => exact hdrawn.keys a
  | liquidity hnot hdrawn => exact hdrawn.keys a

theorem OutputStep.liquidity_zero (h : OutputStep net call pools st fr out i r)
    {c : Fin PEG_SIZE} (hc : st.frCommonLiquidity.cols c = 0) :
    r.1.frCommonLiquidity.cols c = 0 := by
  cases h with
  | kept hmem => exact hc
  | untouched hmem htotal => exact hc
  | frozenLiquidity hmem htotal hset hdrawn => exact hdrawn.liquidity c hc
  | frozenReserve hmem htotal hset hdrawn => exact hdrawn.liquidity c hc
  | reserve hnot hallowed hdrawn => exact hdrawn.liquidity c hc
  | liquidity hnot hdrawn => exact hdrawn.liquidity c hc

/-- One output: reserve in it is allowed there, and it is not frozen liquidity. -/
theorem OutputStep.reserveAllowed (h : OutputStep net call pools st default out i r)
    (hpools : pools.Bounded net call) (hkeys : ∀ a ∈ st.poolReserves, call.IsInputAddress net a)
    {c : Fin PEG_SIZE} (hc : (c : ℕ) < call.nSupply) (hzero : st.frCommonLiquidity.cols c = 0)
    (hne : r.2.cols c ≠ 0) : ReserveAllowed net call out r.2 ∧ r.2.NotVoluntary := by
  have hdefault : (default : CFractions).cols c = 0 := congrFun CFractions.cols_default c
  cases h with
  | kept hmem =>
    obtain ⟨hbound, hvoluntary⟩ := hpools.frozen i c hc hne
    refine ⟨?_, hvoluntary⟩
    rcases hbound with hF | hC
    · exact Or.inr (Or.inl hF)
    · exact Or.inr (Or.inr (Or.inl hC))
  | untouched hmem htotal => exact absurd hdefault hne
  | frozenLiquidity hmem htotal hset hdrawn =>
    refine absurd ?_ hne
    rw [hdrawn.support c hzero, CFractions.setMark_cols hset, hdefault]
  | frozenReserve hmem htotal hset hdrawn =>
    obtain ⟨hF, hvoluntary⟩ := hdrawn.bound hset
    exact ⟨Or.inr (Or.inl hF), hvoluntary⟩
  | reserve hnot hallowed hdrawn =>
    refine ⟨?_, hdrawn.notVoluntary ⟨rfl, rfl⟩⟩
    rcases hallowed with haddr | htakes
    · exact Or.inl (hkeys _ haddr)
    · exact Or.inr (Or.inr (Or.inr (takesReserves_iff.mp htakes)))
  | liquidity hnot hdrawn =>
    refine absurd ?_ hne
    rw [hdrawn.support c hzero, hdefault]

end Output

/-- Reserve of an accepted transaction without cold inputs stays with the addresses of
the inputs or in bound outputs, burns and notaries; voluntarily frozen outputs have none. -/
theorem reserve_stays {r : StandardResult} (h : calculateStandardFractions net call = .ok r)
    (hfresh : call.Fresh net) (hwarm : call.NoColdInput) {i : ℕ} {out : CTxOut} {fr : CFractions}
    (hout : call.tx.vout[i]? = some out) (hfr : r.mapTestFractionsPool (call.outKey net i) = some fr)
    {c : Fin PEG_SIZE} (hc : (c : ℕ) < call.nSupply) (hne : fr.cols c ≠ 0) :
    ReserveAllowed net call out fr ∧ fr.NotVoluntary := by
  obtain ⟨pools, st, hscan, hfill, hcause, rfl⟩ := calculateStandardFractions_ok h
  have hpools := scanInputs_bounded hwarm hscan
  have hrule := (fillOutputs_rule
    (I := fun _ st => (∀ a ∈ st.poolReserves, call.IsInputAddress net a) ∧
      ∀ c : Fin PEG_SIZE, (c : ℕ) < call.nSupply → st.frCommonLiquidity.cols c = 0)
    (Q := fun o fr => ∀ c : Fin PEG_SIZE, (c : ℕ) < call.nSupply → fr.cols c ≠ 0 →
      ReserveAllowed net call o.1 fr ∧ fr.NotVoluntary) hfresh ?_ ?_ hfill
    (failCause_none hcause).2.2.1).2
  · obtain ⟨fr', hfr', hQ⟩ := hrule (out, i) (mem_outputs.mpr hout)
    obtain rfl : fr' = fr := Option.some.inj (hfr'.symm.trans hfr)
    exact hQ c hc hne
  · intro s hcommon hreserves _ _
    refine ⟨fun a ha => hpools.addresses a (hreserves ▸ ha), fun c hc => ?_⟩
    rw [hcommon, cols_commonLiquidity]
    exact SortedMap.sum_induction (P := fun v : Columns => v c = 0) rfl
      (fun x y hx hy => by simp [hx, hy]) fun a => hpools.liquidity a c hc
  · intro o rest s r _ hI _ hr
    refine ⟨⟨fun a ha => hI.1 a ((hr.keys a).mp ha), fun c hc => hr.liquidity_zero (hI.2 c hc)⟩,
      fun c hc hne => hr.reserveAllowed hpools hI.1 hc (hI.2 c hc) hne⟩

theorem sampleCall_reserve_stays : ∃ r fr, calculateStandardFractions sampleNet sampleCall = .ok r ∧
    r.mapTestFractionsPool (sampleCall.outKey sampleNet 0) = some fr ∧
    ∀ c : Fin PEG_SIZE, (c : ℕ) < 3 → fr.cols c ≠ 0 →
      ReserveAllowed sampleNet sampleCall ⟨6, [0x42]⟩ fr ∧ fr.NotVoluntary := by
  obtain ⟨r, hr⟩ := Run.exists_of_isOk sampleCall_isOk
  obtain ⟨pools, st, hscan, hfill, hcause, hresult⟩ := calculateStandardFractions_ok hr
  obtain ⟨fr, hst, -⟩ := outputs_checked (fun _ _ => rfl) hscan hfill hcause (⟨6, [0x42]⟩, 0)
    (mem_outputs.mpr rfl)
  have hfr : r.mapTestFractionsPool (sampleCall.outKey sampleNet 0) = some fr := hresult ▸ hst
  have hwarm : sampleCall.NoColdInput := by
    intro inp _ fr hfr
    simp only [sampleCall] at hfr
    split_ifs at hfr
    cases hfr
    rfl
  exact ⟨r, fr, hr, hfr, fun c hc hne => reserve_stays hr (fun _ _ => rfl) hwarm rfl hfr hc hne⟩

/-- `B` pays 6 of 10 in column 5 to a stranger, for whose output fractions are recorded
already: 2 in column 1 and what makes the total zero. -/
def leftoverCall : StandardCall where
  tx := { vin := [{ prevout := ⟨1, 0⟩ }], vout := [⟨6, [0x43]⟩] }
  nSupply := 3
  nBlockTime := 50
  mapInputs := fun k => if k = ⟨1, 0⟩ then some ⟨10, [0x42]⟩ else none
  mapInputsFractions := fun k => if k = ⟨1, 0⟩ then some (CFractions.singleColumn 5 10) else none
  mapTestFractionsPool := fun k =>
    if k = ⟨9, 0⟩ then some (CFractions.singleColumn 1 2 + CFractions.singleColumn 5 (-2))
    else none

theorem leftoverCall_outcome :
    ((calculateStandardFractions sampleNet leftoverCall).toOption.bind fun r =>
      (r.mapTestFractionsPool ⟨9, 0⟩).map fun fr =>
        (fr.cols 1, fr.nFlags.notaryF, fr.nFlags.notaryC)) = some (2, false, false) := by
  decide +kernel

theorem reserve_leaves_leftover : ∃ r fr,
    calculateStandardFractions sampleNet leftoverCall = .ok r ∧ leftoverCall.NoColdInput ∧
    (∀ inp ∈ leftoverCall.inputs, ∀ fr,
      leftoverCall.mapInputsFractions inp.1.prevout.fkey = some fr → fr.Nonneg) ∧
    r.mapTestFractionsPool (leftoverCall.outKey sampleNet 0) = some fr ∧
    fr.cols 1 = 2 ∧ 1 < leftoverCall.nSupply ∧
    ¬ ReserveAllowed sampleNet leftoverCall ⟨6, [0x43]⟩ fr := by
  have houtcome := leftoverCall_outcome
  have hinput : ∀ inp ∈ leftoverCall.inputs, ∀ fr,
      leftoverCall.mapInputsFractions inp.1.prevout.fkey = some fr →
        fr = CFractions.singleColumn 5 10 := by
    intro inp _ fr hfr
    simp only [leftoverCall] at hfr
    split_ifs at hfr
    exact (Option.some.inj hfr).symm
  cases hr : calculateStandardFractions sampleNet leftoverCall with
  | error e => simp [hr, Except.toOption] at houtcome
  | ok r =>
    rw [hr] at houtcome
    obtain ⟨fr, hfr, hcols⟩ := Option.map_eq_some_iff.mp (show Option.map _ _ = _ from houtcome)
    obtain ⟨hcol, hF, hC⟩ : fr.cols 1 = 2 ∧ fr.nFlags.notaryF = false ∧
        fr.nFlags.notaryC = false := by simpa using hcols
    refine ⟨r, fr, rfl, fun inp hinp fr hfr => ?_, fun inp hinp fr hfr => ?_, hfr, hcol,
      by decide, ?_⟩
    · rw [hinput inp hinp fr hfr]
      rfl
    · rw [hinput inp hinp fr hfr]
      exact CFractions.singleColumn_nonneg (by decide) 5
    · rintro (⟨inp, hinp, prevtxout, hprev, haddr⟩ | hfrozen | hcold | hburn | ⟨n, hn, -⟩)
      · obtain rfl : inp = ({ prevout := ⟨1, 0⟩ }, 0) := List.mem_singleton.mp hinp
        obtain rfl : (⟨10, [0x42]⟩ : CTxOut) = prevtxout := Option.some.inj hprev
        revert haddr
        decide +kernel
      · simp [CFractions.FrozenSince, hF] at hfrozen
      · simp [hC] at hcold
      · revert hburn
        decide +kernel
      · have hnone : CScript.addressNotary sampleNet [0x43] = none := by decide +kernel
        rw [hnone] at hn
        cases hn

end BitBay
