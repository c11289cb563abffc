import BitBay.Peg.Pools

/-!
# What one output does

An output draws on the reserve pools and the common liquidity (`Drawn`), or takes
over what an input prepared for it. `OutputStep` lists the cases of one round of
the output loop, and `fillOutputs_accounts` adds the rounds up: pools, outputs and
prepared outputs together keep their columns.
-/
namespace BitBay

open scoped BigOperators

variable {net : Params} {call : StandardCall}

/-! ## Drawing on the pools -/

/-- Columns went from the pools of `st` to an output; nothing else changed. -/
structure Drawn (st st' : OutputState) (frOut frOut' : CFractions) : Prop where
  accounts : st'.frCommonLiquidity.cols + st'.poolReserves.sum CFractions.cols + frOut'.cols =
    st.frCommonLiquidity.cols + st.poolReserves.sum CFractions.cols + frOut.cols
  marks : frOut'.marks = frOut.marks
  filled : frOut.Filled → frOut'.Filled
  keys : ∀ a, a ∈ st'.poolReserves ↔ a ∈ st.poolReserves
  liquidity : ∀ c, st.frCommonLiquidity.cols c = 0 → st'.frCommonLiquidity.cols c = 0
  valueOut : st'.nValueOut = st.nValueOut
  pool : st'.mapTestFractionsPool = st.mapTestFractionsPool

structure DrawnLiquidity (st st' : OutputState) (frOut frOut' : CFractions) : Prop
    extends Drawn st st' frOut frOut' where
  support : ∀ c, st.frCommonLiquidity.cols c = 0 → frOut'.cols c = frOut.cols c

section Drawn

variable {st st' st'' : OutputState} {fr fr' fr'' : CFractions}

theorem Drawn.refl : Drawn st st fr fr :=
  ⟨rfl, rfl, id, fun _ => Iff.rfl, fun _ => id, rfl, rfl⟩

theorem Drawn.trans (h : Drawn st st' fr fr') (h' : Drawn st' st'' fr' fr'') :
    Drawn st st'' fr fr'' where
  accounts := h'.accounts.trans h.accounts
  marks := h'.marks.trans h.marks
  filled := h'.filled ∘ h.filled
  keys a := (h'.keys a).trans (h.keys a)
  liquidity c hc := h'.liquidity c (h.liquidity c hc)
  valueOut := h'.valueOut.trans h.valueOut
  pool := h'.pool.trans h.pool

/-- Leaving the loop changes only the failure. -/
theorem Drawn.failed (h : Drawn st st' fr fr') (cause : Option String) :
    Drawn st { st' with sFailCause := cause } fr fr' :=
  ⟨h.accounts, h.marks, h.filled, h.keys, h.liquidity, h.valueOut, h.pool⟩

/-- A move out of the reserve of one address. -/
theorem drawn_reserve (st : OutputState) (fr : CFractions) {a : CString} (p : ℤ)
    (ha : a ∈ st.poolReserves) :
    Drawn st
      { st with
        poolReserves := st.poolReserves.insert a
          ((st.poolReserves.get a).moveRatioPartTo fr p).2.1 }
      fr ((st.poolReserves.get a).moveRatioPartTo fr p).2.2 := by
  obtain ⟨q, hq⟩ := CFractions.moveRatioPartTo_moved (st.poolReserves.get a) fr p
  refine ⟨?_, hq.dstMarks, hq.dstFilled, fun x => ?_, fun _ => id, rfl, rfl⟩
  · simp only [poolSum_insert, hq.src, hq.dst]
    abel
  · rw [SortedMap.mem_insert]
    constructor
    · rintro (rfl | hx)
      · exact ha
      · exact hx
    · exact Or.inr

/-- A move out of the common liquidity. -/
theorem drawn_liquidity (st : OutputState) (fr : CFractions) (p n : ℤ) :
    DrawnLiquidity st
      { st with
        frCommonLiquidity := (st.frCommonLiquidity.moveRatioPartTo fr p).2.1
        nCommonLiquidity := n }
      fr (st.frCommonLiquidity.moveRatioPartTo fr p).2.2 := by
  obtain ⟨q, hq⟩ := CFractions.moveRatioPartTo_moved st.frCommonLiquidity fr p
  refine ⟨⟨?_, hq.dstMarks, hq.dstFilled, fun _ => Iff.rfl, fun c hc => ?_, rfl, rfl⟩,
    fun c hc => ?_⟩
  · simp only [hq.src, hq.dst]
    abel
  · simp [hq.src, hc, hq.support c hc]
  · simp [hq.dst, hq.support c hc]

theorem takeLiquidity_drawn (st : OutputState) (fr : CFractions) (p : ℤ) (cause : String) :
    DrawnLiquidity st (takeLiquidity st fr p cause).1 fr (takeLiquidity st fr p cause).2 := by
  unfold takeLiquidity
  split_ifs with hshort
  · exact ⟨Drawn.refl.failed _, fun _ _ => rfl⟩
  · exact drawn_liquidity st fr p _

theorem takeLeft_drawn (st : OutputState) (fr : CFractions) (p : ℤ) (cause : String) :
    Drawn st (takeLeft st fr p cause).1 fr (takeLeft st fr p cause).2 := by
  unfold takeLeft
  split_ifs with hpos
  · exact (takeLiquidity_drawn st fr p cause).toDrawn
  · exact .refl

theorem takeReserves_drawn (l : List CString) (st : OutputState) (fr : CFractions) (p : ℤ) :
    Drawn st { st with poolReserves := (takeReserves l st.poolReserves fr p).1 } fr
      (takeReserves l st.poolReserves fr p).2.1 := by
  induction l generalizing st fr p with
  | nil => exact .refl
  | cons a rest ih =>
    simp only [takeReserves]
    split_ifs with hskip hdone
    · exact ih st fr p
    · push Not at hskip
      exact drawn_reserve st fr _ hskip.1
    · push Not at hskip
      exact (drawn_reserve st fr _ hskip.1).trans (ih _ _ _)

theorem backToReserve_drawn (st : OutputState) {a : CString} (p : ℤ) (fr : CFractions)
    (ha : a ∈ st.poolReserves) :
    Drawn st (backToReserve st a p fr).1 fr (backToReserve st a p fr).2 := by
  simp only [backToReserve]
  split_ifs with hpos
  · exact (drawn_reserve st fr _ ha).trans (takeLeft_drawn _ _ _ _)
  · exact takeLeft_drawn _ _ _ _

end Drawn

/-! ## The cases -/

inductive OutputStep (net : Params) (call : StandardCall) (pools : PoolState) (st : OutputState)
    (frOut : CFractions) (out : CTxOut) (i : ℕ) : OutputState × CFractions → Prop
  /-- The output was filled by an input. -/
  | kept (hmem : i ∈ pools.poolFrozen) :
    OutputStep net call pools st frOut out i (st, (pools.poolFrozen.get i).fractions)
  /-- The output was marked, but neither reserve nor liquidity is frozen for it. -/
  | untouched (hmem : i ∈ pools.poolFrozen)
    (htotal : (pools.poolFrozen.get i).fractions.total ≤ 0) :
    OutputStep net call pools st frOut out i (st, frOut)
  /-- A voluntary freeze of common liquidity. -/
  | frozenLiquidity {frMarked : CFractions} {r : OutputState × CFractions}
    (hmem : i ∈ pools.poolFrozen) (htotal : (pools.poolFrozen.get i).fractions.total ≤ 0)
    (hset : frOut.setMark net .markSet .notaryV call.nBlockTime = some frMarked)
    (hdrawn : DrawnLiquidity st r.1 frMarked r.2) :
    OutputStep net call pools st frOut out i r
  /-- A freeze of reserves of all inputs. -/
  | frozenReserve {frMarked : CFractions} {r : OutputState × CFractions}
    (hmem : i ∈ pools.poolFrozen) (htotal : (pools.poolFrozen.get i).fractions.total ≤ 0)
    (hset : frOut.setMark net .markSet .notaryF call.nBlockTime = some frMarked)
    (hdrawn : Drawn st r.1 frMarked r.2) :
    OutputStep net call pools st frOut out i r
  /-- An output that may take reserves. -/
  | reserve {r : OutputState × CFractions} (hnot : i ∉ pools.poolFrozen)
    (hallowed : out.scriptPubKey.toAddress net ∈ st.poolReserves ∨ takesReserves net out = true)
    (hdrawn : Drawn st r.1 frOut r.2) :
    OutputStep net call pools st frOut out i r
  /-- Any other output takes common liquidity only. -/
  | liquidity {r : OutputState × CFractions} (hnot : i ∉ pools.poolFrozen)
    (hdrawn : DrawnLiquidity st r.1 frOut r.2) :
    OutputStep net call pools st frOut out i r

section Steps

variable {pools : PoolState} {st st' : OutputState} {frOut : CFractions} {out : CTxOut} {i : ℕ}
  {r : OutputState × CFractions}

theorem freezeAllOutput_step (hmem : i ∈ pools.poolFrozen)
    (h : freezeAllOutput net call pools st i out.nValue frOut = .ok r) :
    OutputStep net call pools st frOut out i r := by
  simp only [freezeAllOutput] at h
  split_ifs at h with htotal hV hF
  · cases h
    exact .kept hmem
  · cases hset : frOut.setMark net .markSet .notaryV call.nBlockTime with
    | none => simp [hset] at h
    | some frMarked =>
      simp only [hset] at h
      cases h
      exact .frozenLiquidity hmem (not_lt.mp htotal) hset (drawn_liquidity st frMarked _ _)
  · cases hset : frOut.setMark net .markSet .notaryF call.nBlockTime with
    | none => simp [hset] at h
    | some frMarked =>
      simp only [hset] at h
      split at h
      · cases h
        exact .frozenReserve hmem (not_lt.mp htotal) hset (Drawn.refl.failed _)
      · cases h
        exact .frozenReserve hmem (not_lt.mp htotal) hset
          ((takeReserves_drawn _ st frMarked _).trans (takeLeft_drawn _ _ _ _))
  · cases h
    exact .untouched hmem (not_lt.mp htotal)

theorem plainOutput_step (hnot : i ∉ pools.poolFrozen) :
    OutputStep net call pools st frOut out i (plainOutput net st out frOut) := by
  simp only [plainOutput]
  split_ifs with haddr htakes
  · exact .reserve hnot (Or.inl haddr) (backToReserve_drawn st _ _ haddr)
  · exact .reserve hnot (Or.inr htakes)
      ((takeReserves_drawn _ st frOut _).trans (takeLeft_drawn _ _ _ _))
  · exact .liquidity hnot (takeLiquidity_drawn st frOut _ _)

/-- Every round is one of the cases, unless the loop was left before. -/
theorem fillOutput_ok {out : CTxOut × ℕ} (hrun : st.sFailCause = none)
    (h : fillOutput net call pools st out = .ok st') :
    ∃ r, OutputStep net call pools { st with nValueOut := st.nValueOut + out.1.nValue }
        ((st.mapTestFractionsPool (call.outKey net out.2)).getD default) out.1 out.2 r ∧
      st' = { r.1 with mapTestFractionsPool :=
        Function.update r.1.mapTestFractionsPool (call.outKey net out.2) (some r.2) } := by
  have hnone : st.sFailCause.isSome = false := by simp [hrun]
  simp only [fillOutput, hnone, Bool.false_eq_true, if_false, Run.bind_eq_ok] at h
  obtain ⟨r, hr, hst⟩ := h
  cases hst
  refine ⟨r, ?_, rfl⟩
  unfold chooseOutput at hr
  split_ifs at hr with hmem hall
  · exact freezeAllOutput_step hmem hr
  · cases hr
    exact .kept hmem
  · cases hr
    exact plainOutput_step hmem

theorem fillOutput_failed {out : CTxOut × ℕ} (hleft : st.sFailCause ≠ none)
    (h : fillOutput net call pools st out = .ok st') : st' = st := by
  have hsome : st.sFailCause.isSome = true := Option.isSome_iff_ne_none.mpr hleft
  simp only [fillOutput, hsome, if_true] at h
  cases h
  rfl

end Steps

/-! ## The loop -/

section Loop

variable {pools : PoolState} {st st' : OutputState}

theorem outKey_inj {i j : ℕ} : call.outKey net i = call.outKey net j ↔ i = j := by
  simp [StandardCall.outKey]

theorem mem_outputs {o : CTxOut × ℕ} : o ∈ call.outputs ↔ call.tx.vout[o.2]? = some o.1 :=
  List.mem_zipIdx_iff_getElem?

theorem lt_of_mem_outputs {o : CTxOut × ℕ} (h : o ∈ call.outputs) : o.2 < call.nVout :=
  (List.getElem?_eq_some_iff.mp (mem_outputs.mp h)).1

theorem outputs_indices : call.outputs.map Prod.snd = List.range call.nVout := by
  simp [StandardCall.outputs, StandardCall.nVout, List.range_eq_range']

def OutputState.enter (st : OutputState) (out : CTxOut) : OutputState :=
  { st with nValueOut := st.nValueOut + out.nValue }

def OutputState.leave (net : Params) (call : StandardCall) (i : ℕ)
    (r : OutputState × CFractions) : OutputState :=
  { r.1 with mapTestFractionsPool :=
      Function.update r.1.mapTestFractionsPool (call.outKey net i) (some r.2) }

/-- Where the loop stands: `rest` is still empty, the outputs before it satisfy `Q`. -/
structure Filling (net : Params) (call : StandardCall)
    (I : List (CTxOut × ℕ) → OutputState → Prop) (Q : CTxOut × ℕ → CFractions → Prop)
    (rest : List (CTxOut × ℕ)) (st : OutputState) : Prop where
  nodup : (rest.map Prod.snd).Nodup
  mem : ∀ o ∈ rest, o ∈ call.outputs
  fresh : ∀ o ∈ rest, st.mapTestFractionsPool (call.outKey net o.2) = none
  inv : I rest st
  done : ∀ o ∈ call.outputs, o ∉ rest →
    ∃ fr, st.mapTestFractionsPool (call.outKey net o.2) = some fr ∧ Q o fr

/-- No fractions are recorded yet for the outputs of the transaction. -/
def StandardCall.Fresh (net : Params) (call : StandardCall) : Prop :=
  ∀ i < call.nVout, call.mapTestFractionsPool (call.outKey net i) = none

theorem OutputStep.pool {frOut : CFractions} {out : CTxOut} {i : ℕ} {r : OutputState × CFractions}
    (h : OutputStep net call pools st frOut out i r) :
    r.1.mapTestFractionsPool = st.mapTestFractionsPool := by
  cases h with
  | kept hmem => rfl
  | untouched hmem htotal => rfl
  | frozenLiquidity hmem htotal hset hdrawn => exact hdrawn.pool
  | frozenReserve hmem htotal hset hdrawn => exact hdrawn.pool
  | reserve hnot hallowed hdrawn => exact hdrawn.pool
  | liquidity hnot hdrawn => exact hdrawn.pool

/-- One round moves the first output of `rest` to those that are done. -/
theorem Filling.step {I : List (CTxOut × ℕ) → OutputState → Prop}
    {Q : CTxOut × ℕ → CFractions → Prop} {o : CTxOut × ℕ} {rest : List (CTxOut × ℕ)}
    {r : OutputState × CFractions} (h : Filling net call I Q (o :: rest) st)
    (hr : OutputStep net call pools (st.enter o.1) default o.1 o.2 r)
    (hI : I rest (.leave net call o.2 r)) (hQ : Q o r.2) :
    Filling net call I Q rest (.leave net call o.2 r) := by
  have hpool : r.1.mapTestFractionsPool = st.mapTestFractionsPool := hr.pool
  have hnodup : o.2 ∉ rest.map Prod.snd ∧ (rest.map Prod.snd).Nodup := List.nodup_cons.mp h.nodup
  refine ⟨hnodup.2, fun x hx => h.mem x (List.mem_cons_of_mem o hx), fun x hx => ?_, hI,
    fun x hx hnot => ?_⟩
  · have hne : x.2 ≠ o.2 := fun heq => hnodup.1 (heq ▸ List.mem_map_of_mem hx)
    simpa [OutputState.leave, hpool, outKey_inj, hne] using
      h.fresh x (List.mem_cons_of_mem o hx)
  · by_cases heq : x.2 = o.2
    · have hxo : x.1 = o.1 := by
        have h1 := mem_outputs.mp hx
        have h2 := mem_outputs.mp (h.mem o List.mem_cons_self)
        rw [heq] at h1
        exact Option.some.inj (h1.symm.trans h2)
      obtain rfl : x = o := Prod.ext hxo heq
      exact ⟨r.2, by simp [OutputState.leave], hQ⟩
    · have hcons : x ∉ o :: rest := by
        intro hmem
        rcases List.mem_cons.mp hmem with rfl | hmem
        · exact heq rfl
        · exact hnot hmem
      obtain ⟨fr, hfr, hq⟩ := h.done x hx hcons
      exact ⟨fr, by simpa [OutputState.leave, hpool, outKey_inj, heq] using hfr, hq⟩

/-- The rule for the output loop: `I` is kept by every round and every round gives its
output fractions that satisfy `Q`. -/
theorem fillOutputs_rule {I : List (CTxOut × ℕ) → OutputState → Prop}
    {Q : CTxOut × ℕ → CFractions → Prop} (hfresh : call.Fresh net)
    (h0 : ∀ st, st.frCommonLiquidity = commonLiquidity pools.poolLiquidity →
      st.poolReserves = pools.poolReserves → st.nValueOut = 0 →
      st.mapTestFractionsPool = call.mapTestFractionsPool → I call.outputs st)
    (hstep : ∀ o rest st r, o ∈ call.outputs → I (o :: rest) st →
      st.mapTestFractionsPool (call.outKey net o.2) = none →
      OutputStep net call pools (st.enter o.1) default o.1 o.2 r →
      I rest (.leave net call o.2 r) ∧ Q o r.2)
    (h : fillOutputs net call pools = .ok st) (hok : st.sFailCause = none) :
    I [] st ∧ ∀ o ∈ call.outputs,
      ∃ fr, st.mapTestFractionsPool (call.outKey net o.2) = some fr ∧ Q o fr := by
  have hrun : st.sFailCause = none → Filling net call I Q [] st := by
    refine Run.foldlM_rule
      (P := fun rest st => st.sFailCause = none → Filling net call I Q rest st) ?_ ?_ h
    · intro o rest s s' hP hs hnone
      by_cases hleft : s.sFailCause = none
      · have hfill := hP hleft
        have hnew := hfill.fresh o List.mem_cons_self
        obtain ⟨r, hr, rfl⟩ := fillOutput_ok hleft hs
        rw [hnew] at hr
        obtain ⟨hI, hQ⟩ := hstep o rest s r (hfill.mem o List.mem_cons_self) hfill.inv hnew hr
        exact hfill.step hr hI hQ
      · exact absurd (fillOutput_failed hleft hs ▸ hnone) hleft
    · intro _
      refine ⟨?_, fun _ => id, fun o ho => hfresh _ (lt_of_mem_outputs ho), h0 _ rfl rfl rfl rfl,
        fun o ho hnot => absurd ho hnot⟩
      rw [outputs_indices]
      exact List.nodup_range
  exact ⟨(hrun hok).inv, fun o ho => (hrun hok).done o ho List.not_mem_nil⟩

end Loop

end BitBay
