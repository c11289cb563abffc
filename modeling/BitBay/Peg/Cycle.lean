import BitBay.Peg.Exchange

/-!
# A cycle empties the pool

While users are updated one after the other, the pool holds exactly the liquid and
split amounts of the users that are still to come (`Covers`). The reserve left in the
pool is at most the reserve that these users claim, because every claim is rounded up,
and it lies in the split column. An update keeps both, so it never fails, and after
the last user nothing is left.
-/
namespace BitBay

open scoped BigOperators

namespace CFractions

variable {a b : CFractions} {i : Fin PEG_SIZE}

theorem addAt_std (ha : a.nFlags.std = true) (v : ℤ) : (a.addAt i v).nFlags.std = true := ha

theorem cols_of_std (ha : a.nFlags.std = true) : a.cols = a.f := by simp [cols, ha]

theorem cols_update (ha : a.nFlags.std = true) (v : ℤ) :
    CFractions.cols { a with f := Function.update a.f i v } = Function.update a.cols i v := by
  rw [cols_of_std ha, cols_of_std (by exact ha)]

theorem update_eq_add_single (c : Columns) (v : ℤ) :
    Function.update c i v = c + Pi.single i (v - c i) := by
  funext j
  rcases eq_or_ne j i with rfl | hj
  · simp
  · simp [hj]

theorem cols_addAt (ha : a.nFlags.std = true) (v : ℤ) :
    (a.addAt i v).cols = a.cols + Pi.single i v := by
  rw [addAt, cols_update ha, update_eq_add_single, cols_of_std ha]
  congr 2
  ring

theorem cols_addAt_neg (ha : a.nFlags.std = true) (v : ℤ) :
    (a.addAt i (-v)).cols = a.cols - Pi.single i v := by
  rw [cols_addAt ha, Pi.single_neg, sub_eq_add_neg]

theorem sum_single (v : ℤ) : ∑ j, (Pi.single i v : Columns) j = v :=
  Fintype.sum_pi_single' i v

theorem total_of_cols_add {v : ℤ} (h : b.cols = a.cols + Pi.single i v) :
    b.total = a.total + v := by
  rw [total_eq_sum, total_eq_sum, h]
  simp only [Pi.add_apply, Finset.sum_add_distrib, sum_single]

theorem total_of_cols_sub {v : ℤ} (h : b.cols = a.cols - Pi.single i v) :
    b.total = a.total - v := by
  rw [sub_eq_add_neg, ← Pi.single_neg] at h
  rw [total_of_cols_add h, sub_eq_add_neg]

theorem Nonneg.of_cols_sub {v : ℤ} (ha : a.Nonneg) (h : b.cols = a.cols - Pi.single i v)
    (hv : v ≤ a.cols i) : b.Nonneg := by
  intro j
  rw [h, Pi.sub_apply]
  rcases eq_or_ne j i with rfl | hj
  · simpa using hv
  · simpa [hj] using ha j

end CFractions

/-! ## What users claim -/

def CPegLevel.claim (level : CPegLevel) (a : CFractions) : ℤ :=
  if level.fPartial then level.vpart (a.cols level.nLastIdx) else 0

section Claim

variable {level : CPegLevel} {f : Columns} {a : CFractions}

theorem CPegLevel.FitsTo.split_of_partial (h : level.FitsTo f) (hpart : level.fPartial = true) :
    0 < level.nShiftLastPart ∧ level.nShiftLastPart < level.nShiftLastTotal ∧
      level.nShiftLastTotal = f level.nLastIdx := by
  rcases h.split with ⟨hp, -⟩ | hsplit
  · simp [CPegLevel.fPartial, hp] at hpart
  · exact hsplit

theorem claim_bounds (h : level.FitsTo f) (ha : a.Nonneg) :
    0 ≤ level.claim a ∧ level.claim a ≤ a.cols level.nLastIdx := by
  unfold CPegLevel.claim
  split_ifs with hpart
  · obtain ⟨hp, ht, -⟩ := h.split_of_partial hpart
    exact CPegLevel.vpart_bounds (ha _) hp ht
  · exact ⟨le_rfl, ha _⟩

theorem le_high (h : level.FitsTo f) (ha : a.Nonneg) :
    a.cols level.nLastIdx ≤ a.high level.nSupplyEffective := by
  have hnot : ¬ (level.nLastIdx : ℕ) < level.nSupplyEffective :=
    (CPegLevel.coe_nLastIdx h.inRange).not_lt
  have hle := Finset.single_le_sum
    (f := fun i : Fin PEG_SIZE => if (i : ℕ) < level.nSupplyEffective then 0 else a.cols i)
    (fun i _ => by split_ifs; exacts [le_rfl, ha i]) (Finset.mem_univ level.nLastIdx)
  rw [if_neg hnot] at hle
  exact hle

/-- The reserve of the new level: the columns below it and the claim. -/
theorem cols_lowPartOf (h : level.FitsTo f) (a : CFractions) :
    (a.lowPartOf level).cols =
      (a.lowPart level.nSupplyEffective).cols + Pi.single level.nLastIdx (level.claim a) := by
  funext i
  have hlast := CPegLevel.coe_nLastIdx h.inRange
  rw [CFractions.lowPartOf, CFractions.cols_withCols, Pi.add_apply, CFractions.cols_lowPart]
  rcases eq_or_ne i level.nLastIdx with rfl | hi
  · simp [hlast, CPegLevel.claim]
  · simp [hi]

theorem lowPartTotal_eq (h : level.FitsTo f) (a : CFractions) :
    a.lowPartTotal level = (a.lowPartOf level).total := by
  rw [CFractions.total_eq_sum, cols_lowPartOf h]
  simp only [Pi.add_apply, Finset.sum_add_distrib, CFractions.sum_single]
  rw [← CFractions.total_eq_sum, CFractions.total_lowPart, add_comm]
  rfl

end Claim

/-! ## The split column -/

/-- Before the liquid is taken: what the balance and the pool have got by then. The
balance has `v` as liquid of the split column. -/
structure Prepared (level : CPegLevel) (a : CFractions) (pool : CPegData) (st : UpdateState)
    (v : ℤ) : Prop where
  same : st.pdPegPool.peglevel = pool.peglevel
  poolStd : st.pdPegPool.fractions.nFlags.std = true
  poolNonneg : st.pdPegPool.fractions.Nonneg
  reserve : st.pdPegPool.nReserve = pool.nReserve - min (level.claim a) pool.nReserve
  hold : st.pdPegPool.nReserve ≤ st.pdPegPool.fractions.cols level.nLastIdx
  frReserve : st.frReserve.cols = (a.lowPart level.nSupplyEffective).cols +
    Pi.single level.nLastIdx (min (level.claim a) pool.nReserve)
  nReserve : st.nReserve = a.low level.nSupplyEffective + min (level.claim a) pool.nReserve
  liquidStd : st.frLiquid.nFlags.std = true
  nonneg : 0 ≤ v
  frLiquid : st.frLiquid.cols = Pi.single level.nLastIdx v
  pool : st.pdPegPool.fractions.cols = pool.fractions.cols -
    Pi.single level.nLastIdx (min (level.claim a) pool.nReserve + v)
  todo : 0 ≤ st.nLiquidTodo a.total ∧ st.nLiquidTodo a.total ≤ st.nLiquidPool

structure Serves (level : CPegLevel) (pool : CPegData) (a : CFractions) : Prop where
  std : pool.fractions.nFlags.std = true
  nonneg : pool.fractions.Nonneg
  reserve_nonneg : 0 ≤ pool.nReserve
  hold : pool.nReserve ≤ pool.fractions.cols level.nLastIdx
  enough : a.high level.nSupplyEffective - min (level.claim a) pool.nReserve ≤
    pool.fractions.total - pool.nReserve

section Prepare

variable {level : CPegLevel} {f : Columns} {a : CFractions} {pool : CPegData}

def startState (level : CPegLevel) (a : CFractions) (pool : CPegData) : UpdateState where
  pdPegPool := pool
  frReserve := a.lowPartOf level
  nReserve := a.lowPartTotal level

theorem nLiquidTodo_eq {st : UpdateState} {v : ℤ}
    (hreserve : st.nReserve = a.low level.nSupplyEffective + min (level.claim a) pool.nReserve)
    (hliquid : st.frLiquid.total = v) : st.nLiquidTodo a.total =
      a.high level.nSupplyEffective - min (level.claim a) pool.nReserve - v := by
  rw [UpdateState.nLiquidTodo, hreserve, hliquid, ← CFractions.low_add_high a level.nSupplyEffective]
  ring

/-- Without a split column there is nothing to prepare. -/
theorem prepared_of_whole (h : level.FitsTo f) (ha : a.Nonneg) (hpool : Serves level pool a)
    (hpart : level.fPartial = false) :
    Prepared level a pool ((startState level a pool).takeLast level a.total) 0 := by
  have hclaim : level.claim a = 0 := by simp [CPegLevel.claim, hpart]
  have hmin : min (level.claim a) pool.nReserve = 0 := by
    rw [hclaim, min_eq_left hpool.reserve_nonneg]
  have hstart : (startState level a pool).takeLast level a.total = startState level a pool := by
    simp [UpdateState.takeLast, hpart]
  have htotal : a.lowPartTotal level = a.low level.nSupplyEffective := by
    simp [CFractions.lowPartTotal, hpart]
  have henough := hpool.enough
  rw [hmin, sub_zero] at henough
  rw [hstart]
  refine ⟨rfl, hpool.std, hpool.nonneg, ?_, hpool.hold, ?_, ?_, rfl, le_rfl, ?_, ?_, ?_⟩
  · rw [hmin, sub_zero]
    rfl
  · rw [hmin, ← hclaim]
    exact cols_lowPartOf h a
  · rw [hmin, add_zero]
    exact htotal
  · simp [startState]
  · simp [hmin, startState]
  · have hzero : (startState level a pool).frLiquid.total = 0 := by
      simp [startState, CFractions.total_eq_sum]
    have htodo := nLiquidTodo_eq (by rw [hmin, add_zero]; exact htotal) hzero
    rw [hmin, sub_zero, sub_zero] at htodo
    rw [htodo]
    exact ⟨ha.high _, henough⟩

/-- The reserve in the split column that the pool still has goes to the balance. -/
theorem takeLastReserve_spec (st : UpdateState) {i : Fin PEG_SIZE} {v : ℤ}
    (hstd : st.pdPegPool.fractions.nFlags.std = true) (hreserve : st.frReserve.nFlags.std = true)
    (hv : st.frReserve.f i = v)
    (hhold : st.pdPegPool.nReserve ≤ st.pdPegPool.fractions.cols i) :
    ∃ fractions frReserve, (st.takeLastReserve i) = { st with
      pdPegPool := { st.pdPegPool with
        fractions, nReserve := st.pdPegPool.nReserve - min v st.pdPegPool.nReserve }
      frReserve
      nReserve := st.nReserve - (v - min v st.pdPegPool.nReserve) } ∧
    fractions.nFlags.std = true ∧ fractions.cols = st.pdPegPool.fractions.cols -
      Pi.single i (min v st.pdPegPool.nReserve) ∧
    frReserve.cols = st.frReserve.cols - Pi.single i (v - min v st.pdPegPool.nReserve) := by
  have hf : st.pdPegPool.fractions.f i = st.pdPegPool.fractions.cols i :=
    (congrFun (CFractions.cols_of_std hstd) i).symm
  have htake : min (min v (st.pdPegPool.fractions.f i)) st.pdPegPool.nReserve =
      min v st.pdPegPool.nReserve := by omega
  simp only [UpdateState.takeLastReserve, UpdateState.takeFromPool, hv, htake]
  split_ifs with hless
  · exact ⟨_, _, rfl, hstd, CFractions.cols_addAt_neg hstd _, CFractions.cols_addAt_neg hreserve _⟩
  · have hall : v - min v st.pdPegPool.nReserve = 0 := by omega
    refine ⟨_, st.frReserve, ?_, CFractions.addAt_std hstd _, CFractions.cols_addAt_neg hstd _, ?_⟩
    · rw [hall, sub_zero]
    · rw [hall, Pi.single_zero, sub_zero]

/-- The liquid in the split column is at most what is there beside the reserve. -/
theorem takeLastLiquid_spec (st : UpdateState) (i : Fin PEG_SIZE) (nValue : ℤ)
    (hstd : st.pdPegPool.fractions.nFlags.std = true) (hliquid : st.frLiquid.nFlags.std = true)
    (hnonneg : st.pdPegPool.fractions.Nonneg) (hreserve : 0 ≤ st.pdPegPool.nReserve)
    (hhold : st.pdPegPool.nReserve ≤ st.pdPegPool.fractions.cols i)
    (htodo : 0 ≤ nValue - st.nReserve)
    (henough : nValue - st.nReserve ≤ st.nLiquidPool) :
    ∃ fractions frLiquid v, st.takeLastLiquid i nValue = { st with
      pdPegPool := { st.pdPegPool with fractions }
      frLiquid } ∧
    fractions.nFlags.std = true ∧
    fractions.cols = st.pdPegPool.fractions.cols - Pi.single i v ∧
    frLiquid.nFlags.std = true ∧ frLiquid.cols = st.frLiquid.cols + Pi.single i v ∧
    0 ≤ v ∧ v ≤ nValue - st.nReserve ∧
    v ≤ st.pdPegPool.fractions.cols i - st.pdPegPool.nReserve := by
  have hf : st.pdPegPool.fractions.f i = st.pdPegPool.fractions.cols i :=
    (congrFun (CFractions.cols_of_std hstd) i).symm
  have hcol : st.pdPegPool.fractions.cols i ≤ st.pdPegPool.fractions.total := by
    rw [CFractions.total_eq_sum]
    exact Finset.single_le_sum (fun j _ => hnonneg j) (Finset.mem_univ i)
  have hpool : min st.pdPegPool.nReserve (st.pdPegPool.fractions.cols i) =
      st.pdPegPool.nReserve := min_eq_left hhold
  unfold UpdateState.nLiquidPool at henough
  obtain ⟨hv, hvhold, hvtodo⟩ := ratioPart_le_both (sub_nonneg.mpr hhold)
    (sub_le_sub_right hcol _) htodo henough
  have htake : min (ratioPart (st.pdPegPool.fractions.cols i - st.pdPegPool.nReserve)
      (nValue - st.nReserve) (st.pdPegPool.fractions.total - st.pdPegPool.nReserve))
      (st.pdPegPool.fractions.cols i) = ratioPart (st.pdPegPool.fractions.cols i -
        st.pdPegPool.nReserve) (nValue - st.nReserve)
        (st.pdPegPool.fractions.total - st.pdPegPool.nReserve) := by omega
  refine ⟨_, _, ratioPart (st.pdPegPool.fractions.cols i - st.pdPegPool.nReserve)
    (nValue - st.nReserve) (st.pdPegPool.fractions.total - st.pdPegPool.nReserve), ?_,
    CFractions.addAt_std hstd _, CFractions.cols_addAt_neg hstd _,
    CFractions.addAt_std hliquid _, CFractions.cols_addAt hliquid _, hv, hvtodo, hvhold⟩
  simp only [UpdateState.takeLastLiquid, UpdateState.takeFromPool, hf, hpool, htake]

/-- With a split column the balance gets its reserve there and a share of the liquid. -/
theorem prepared_of_split (h : level.FitsTo f) (ha : a.Nonneg) (hpool : Serves level pool a)
    (hpart : level.fPartial = true) :
    ∃ v, Prepared level a pool ((startState level a pool).takeLast level a.total) v := by
  have hclaim := claim_bounds h ha
  have hhigh := le_high h ha
  have hlast : (startState level a pool).frReserve.f level.nLastIdx = level.claim a := by
    have hnot : ¬ (level.nLastIdx : ℕ) < level.nSupplyEffective :=
      (CPegLevel.coe_nLastIdx h.inRange).not_lt
    calc (startState level a pool).frReserve.f level.nLastIdx
        = (a.lowPartOf level).cols level.nLastIdx := rfl
      _ = level.claim a := by simp [cols_lowPartOf h, CFractions.cols_lowPart, hnot]
  have hlow := lowPartTotal_eq h a
  rw [CFractions.total_eq_sum, cols_lowPartOf h] at hlow
  simp only [Pi.add_apply, Finset.sum_add_distrib, CFractions.sum_single] at hlow
  rw [← CFractions.total_eq_sum, CFractions.total_lowPart] at hlow
  obtain ⟨fractions, frReserve, htake, hstd, hcols, hreserve⟩ :=
    takeLastReserve_spec (startState level a pool) hpool.std rfl hlast hpool.hold
  have hvalue := CFractions.low_add_high a level.nSupplyEffective
  have hreserve0 := hpool.reserve_nonneg
  have hhold := hpool.hold
  have henough := hpool.enough
  have hmin : min (level.claim a) pool.nReserve ≤ pool.fractions.cols level.nLastIdx :=
    (min_le_right _ _).trans hhold
  have hcoli := congrFun hcols level.nLastIdx
  have htotal := CFractions.total_of_cols_sub hcols
  simp only [startState, Pi.sub_apply, Pi.single_eq_same] at hcoli htotal
  obtain ⟨fractions', frLiquid, v, hliquid, hstd', hcols', hlstd, hlcols, hv, hvtodo, hvhold⟩ :=
    takeLastLiquid_spec ((startState level a pool).takeLastReserve level.nLastIdx)
      level.nLastIdx a.total (by rw [htake]; exact hstd) (by rw [htake]; rfl)
      (by rw [htake]; exact hpool.nonneg.of_cols_sub hcols hmin)
      (by rw [htake]; simp only [startState]; omega) (by rw [htake]; simp only [startState]; omega)
      (by rw [htake]; simp only [startState]; omega)
      (by rw [htake]; simp only [startState, UpdateState.nLiquidPool]; omega)
  rw [htake] at hliquid hcols' hlcols hvtodo hvhold
  simp only [startState] at hliquid hcols' hlcols hvtodo hvhold hreserve
  have htotal' := CFractions.total_of_cols_sub hcols'
  have hltotal : frLiquid.total = v := by
    have hadd := CFractions.total_of_cols_add hlcols
    simpa [CFractions.total_eq_sum] using hadd
  have hcolsi' := congrFun hcols' level.nLastIdx
  simp only [Pi.sub_apply, Pi.single_eq_same] at hcolsi'
  have hnreserve : a.lowPartTotal level - (level.claim a - min (level.claim a) pool.nReserve) =
      a.low level.nSupplyEffective + min (level.claim a) pool.nReserve := by omega
  refine ⟨v, ?_⟩
  rw [UpdateState.takeLast, if_pos hpart, htake]
  simp only [startState]
  rw [hliquid]
  refine ⟨rfl, hstd', ?_, rfl, ?_, ?_, hnreserve, hlstd, hv, ?_, ?_, ?_⟩
  · exact (hpool.nonneg.of_cols_sub hcols hmin).of_cols_sub hcols' (by omega)
  · simp only
    omega
  · simp only [hreserve, cols_lowPartOf h, Pi.single_sub]
    abel
  · simpa using hlcols
  · simp only [hcols', hcols, startState, Pi.single_add]
    abel
  · rw [nLiquidTodo_eq hnreserve hltotal]
    simp only [UpdateState.nLiquidPool]
    omega

end Prepare

/-! ## The liquid -/

/-- The rest of the liquid has come from the pool: `q` has moved. -/
structure LiquidTaken (i : Fin PEG_SIZE) (nValue : ℤ) (st st' : UpdateState) (q : Columns) :
    Prop where
  frReserve : st'.frReserve = st.frReserve
  nReserve : st'.nReserve = st.nReserve
  same : st'.pdPegPool.peglevel = st.pdPegPool.peglevel
  poolReserve : st'.pdPegPool.nReserve = st.pdPegPool.nReserve
  poolStd : st'.pdPegPool.fractions.nFlags.std = true
  pool : st'.pdPegPool.fractions.cols = st.pdPegPool.fractions.cols - q
  liquid : st'.frLiquid.cols = st.frLiquid.cols + q
  amount : ∑ c, q c = st.nLiquidTodo nValue
  bounds : ∀ c, 0 ≤ q c ∧ q c ≤ st.pdPegPool.fractions.cols c
  hold : q i + st.pdPegPool.nReserve ≤ st.pdPegPool.fractions.cols i

section Liquid

variable {st : UpdateState} {i : Fin PEG_SIZE} {nValue : ℤ}

/-- What the other columns lack is held back in the split column, above the reserve. -/
theorem takeLiquid_ok (hstd : st.pdPegPool.fractions.nFlags.std = true)
    (hliquid : st.frLiquid.nFlags.std = true) (hnonneg : st.pdPegPool.fractions.Nonneg)
    (hreserve : 0 ≤ st.pdPegPool.nReserve)
    (hhold : st.pdPegPool.nReserve ≤ st.pdPegPool.fractions.cols i)
    (htodo : 0 ≤ st.nLiquidTodo nValue) (henough : st.nLiquidTodo nValue ≤ st.nLiquidPool) :
    ∃ st' q, st.takeLiquid i nValue = .ok st' ∧ LiquidTaken i nValue st st' q := by
  have hf : st.pdPegPool.fractions.f i = st.pdPegPool.fractions.cols i :=
    (congrFun (CFractions.cols_of_std hstd) i).symm
  have hpool : st.nLiquidPool = st.pdPegPool.fractions.total - st.pdPegPool.nReserve := rfl
  simp only [UpdateState.takeLiquid, if_neg henough.not_gt, hf]
  generalize hn : (if 0 < st.pdPegPool.nReserve then st.pdPegPool.fractions.cols i else 0) = nHold
  have hle : nHold ≤ st.pdPegPool.fractions.cols i ∧ 0 ≤ nHold := by
    split_ifs at hn <;> omega
  have hcols := CFractions.cols_addAt_neg (i := i) hstd nHold
  have htotal := CFractions.total_of_cols_sub hcols
  have hrest := hnonneg.of_cols_sub hcols hle.1
  have hleft := CFractions.moveRatioPartTo_left (b := st.frLiquid) htodo hrest
  obtain ⟨q, hq⟩ := CFractions.moveRatioPartTo_moved
    (st.pdPegPool.fractions.addAt i (-nHold)) st.frLiquid (st.nLiquidTodo nValue)
  obtain ⟨hpstd, hlstd⟩ := CFractions.moveRatioPartTo_std (a := st.pdPegPool.fractions.addAt i (-nHold))
    (b := st.frLiquid) hstd hliquid (st.nLiquidTodo nValue)
  generalize CFractions.moveRatioPartTo (st.pdPegPool.fractions.addAt i (-nHold)) st.frLiquid
    (st.nLiquidTodo nValue) = moved at *
  obtain ⟨m, frPool, frLiquid⟩ := moved
  dsimp only at hleft hpstd hlstd ⊢
  have hcoli := congrFun hcols i
  simp only [Pi.sub_apply, Pi.single_eq_same] at hcoli
  have hm : 0 ≤ m ∧ m + st.pdPegPool.nReserve ≤ nHold := by split_ifs at hn <;> omega
  have hfrom : (if 0 < m ∧ m ≤ nHold then m else 0) = m := by split_ifs <;> omega
  have hqi := hq.bounds hrest htodo
  have hpoolcols : frPool.cols = st.pdPegPool.fractions.cols - Pi.single i nHold - q :=
    hcols ▸ hq.src
  have hback : ∀ fractions, fractions = (if 0 < nHold - m then
      { frPool with f := Function.update frPool.f i (nHold - m) } else frPool) →
      fractions.nFlags.std = true ∧
        fractions.cols = st.pdPegPool.fractions.cols - (q + Pi.single i m) := by
    rintro _ rfl
    split_ifs with hheld
    · have hzero : frPool.cols i = 0 := by
        have hpos : 0 < st.pdPegPool.nReserve := by
          by_contra hnot
          rw [if_neg hnot] at hn
          omega
        rw [if_pos hpos] at hn
        have hempty : (st.pdPegPool.fractions.addAt i (-nHold)).cols i = 0 := by omega
        rw [hq.src, Pi.sub_apply, hempty, hq.support i hempty, sub_zero]
      refine ⟨hpstd, ?_⟩
      rw [CFractions.cols_update hpstd, CFractions.update_eq_add_single, hzero, sub_zero, hpoolcols,
        Pi.single_sub]
      abel
    · have heq : nHold = m := by omega
      refine ⟨hpstd, ?_⟩
      rw [hpoolcols, heq]
      abel
  obtain ⟨hstd', hcols'⟩ := hback _ rfl
  rw [hfrom, sub_self, if_neg (lt_irrefl 0)]
  refine ⟨_, q + Pi.single i m, rfl, rfl, rfl, rfl, rfl, hstd', hcols', ?_, ?_, fun c => ?_, ?_⟩
  · simp only [CFractions.cols_addAt hlstd]
    rw [hq.dst, add_assoc]
  · simp only [Pi.add_apply, Finset.sum_add_distrib, CFractions.sum_single]
    exact hq.amount hrest htodo
  · have hc := hqi c
    have hcolc := congrFun hcols c
    rw [Pi.sub_apply] at hcolc
    rw [Pi.add_apply]
    rcases eq_or_ne c i with rfl | hci
    · rw [Pi.single_eq_same]
      omega
    · rw [Pi.single_eq_of_ne hci] at hcolc ⊢
      omega
  · have hi := hqi i
    rw [Pi.add_apply, Pi.single_eq_same]
    omega

end Liquid

/-! ## One update -/

structure Covers (level : CPegLevel) (users : List CPegData) (pool : CPegData) : Prop where
  cycle : pool.peglevel.nCycle = level.nCycle
  std : pool.fractions.nFlags.std = true
  nonneg : pool.fractions.Nonneg
  support : ∀ c : Fin PEG_SIZE, (c : ℕ) < level.nSupplyEffective → pool.fractions.cols c = 0
  total : pool.fractions.total =
    (users.map fun u => u.fractions.high level.nSupplyEffective).sum
  reserve_nonneg : 0 ≤ pool.nReserve
  reserve_le : pool.nReserve ≤ (users.map fun u => level.claim u.fractions).sum
  hold : pool.nReserve ≤ pool.fractions.cols level.nLastIdx

structure FromCycle (nCyclePrev : ℤ) (pdBalance : CPegData) : Prop where
  std : pdBalance.fractions.nFlags.std = true
  nonneg : pdBalance.fractions.Nonneg
  cycle : pdBalance.peglevel.nCycle = nCyclePrev

structure Updated (level : CPegLevel) (pdBalance pdUpdated : CPegData) : Prop where
  peglevel : pdUpdated.peglevel = level
  total : pdUpdated.fractions.total = pdBalance.fractions.total
  kept : ∀ c : Fin PEG_SIZE, (c : ℕ) < level.nSupplyEffective →
    pdUpdated.fractions.cols c = pdBalance.fractions.cols c

section Update

variable {level : CPegLevel} {f : Columns} {u pool : CPegData} {rest : List CPegData}

/-- The claims of users are at most their amounts in the columns of the pool. -/
theorem sum_claim_le (h : level.FitsTo f) (hrest : ∀ u ∈ rest, u.fractions.Nonneg) :
    (rest.map fun u => level.claim u.fractions).sum ≤
      (rest.map fun u => u.fractions.high level.nSupplyEffective).sum :=
  List.sum_le_sum fun u hu => (claim_bounds h (hrest u hu)).2.trans (le_high h (hrest u hu))

theorem Covers.serves (h : level.FitsTo f) (hcovers : Covers level (u :: rest) pool)
    (hrest : ∀ u ∈ rest, u.fractions.Nonneg) : Serves level pool u.fractions := by
  refine ⟨hcovers.std, hcovers.nonneg, hcovers.reserve_nonneg, hcovers.hold, ?_⟩
  have htotal := hcovers.total
  have hreserve := hcovers.reserve_le
  have hclaims := sum_claim_le h hrest
  have hempty := List.sum_nonneg (l := rest.map fun u => level.claim u.fractions)
    (fun v hv => by
      obtain ⟨w, hw, rfl⟩ := List.mem_map.mp hv
      exact (claim_bounds h (hrest w hw)).1)
  rw [List.map_cons, List.sum_cons] at htotal hreserve
  omega

/-- An updated balance with `take` as reserve in the split column passes the checks. -/
theorem updateErr_none {b : CPegData} {nValue : ℤ} (take : ℤ) (h : level.FitsTo f)
    (hvalue : b.fractions.total = nValue) (hliquid : b.nLiquid = nValue - b.nReserve)
    (hreserve : b.nReserve = b.fractions.low level.nSupplyEffective + take)
    (htake : 0 ≤ take ∧ take ≤ b.fractions.cols level.nLastIdx)
    (hwhole : level.fPartial = false → take = 0) : updateErr b nValue level = none := by
  have hsplit := CFractions.low_add_high b.fractions level.nSupplyEffective
  have hlast := CFractions.high_succ b.fractions level.nLastIdx
  rw [CPegLevel.coe_nLastIdx h.inRange] at hlast
  simp only [updateErr]
  rw [if_neg (by omega), if_neg (by omega)]
  cases hpart : level.fPartial with
  | true =>
    rw [if_pos rfl, if_neg (by omega), if_neg (by omega)]
  | false =>
    have hzero := hwhole hpart
    rw [if_neg Bool.false_ne_true, if_neg (by omega), if_neg (by omega)]

structure Built (level : CPegLevel) (a b : CFractions) (take v : ℤ) (q : Columns) : Prop where
  cols : b.cols = (a.lowPart level.nSupplyEffective).cols + Pi.single level.nLastIdx (take + v) + q
  total : b.total = a.total
  kept : ∀ c : Fin PEG_SIZE, (c : ℕ) < level.nSupplyEffective → b.cols c = a.cols c
  last : b.cols level.nLastIdx = take + v + q level.nLastIdx

theorem built {a : CFractions} {st0 st : UpdateState} {v : ℤ} {q : Columns} (h : level.FitsTo f)
    (hp : Prepared level a pool st0 v)
    (hq : LiquidTaken level.nLastIdx a.total st0 st q)
    (hsupport : ∀ c : Fin PEG_SIZE, (c : ℕ) < level.nSupplyEffective → pool.fractions.cols c = 0) :
    Built level a (st.frReserve + st.frLiquid) (min (level.claim a) pool.nReserve) v q := by
  have hlast := CPegLevel.coe_nLastIdx h.inRange
  have hcols : (st.frReserve + st.frLiquid).cols = (a.lowPart level.nSupplyEffective).cols +
      Pi.single level.nLastIdx (min (level.claim a) pool.nReserve + v) + q := by
    rw [CFractions.cols_add, hq.frReserve, hp.frReserve, hq.liquid, hp.frLiquid, Pi.single_add]
    abel
  refine ⟨hcols, ?_, fun c hc => ?_, ?_⟩
  · have hv : st0.frLiquid.total = v := by
      rw [CFractions.total_eq_sum, hp.frLiquid, CFractions.sum_single]
    have htodo := nLiquidTodo_eq hp.nReserve hv
    have hsplit := CFractions.low_add_high a level.nSupplyEffective
    rw [CFractions.total_eq_sum, hcols]
    simp only [Pi.add_apply, Finset.sum_add_distrib, CFractions.sum_single, hq.amount, htodo]
    rw [← CFractions.total_eq_sum, CFractions.total_lowPart]
    omega
  · have hne : c ≠ level.nLastIdx := by
      rintro rfl
      exact absurd hc hlast.not_lt
    have hbounds := hq.bounds c
    rw [hp.pool, Pi.sub_apply, hsupport c hc, Pi.single_eq_of_ne hne] at hbounds
    rw [hcols, Pi.add_apply, Pi.add_apply, Pi.single_eq_of_ne hne, CFractions.cols_lowPart,
      if_pos hc]
    omega
  · rw [hcols, Pi.add_apply, Pi.add_apply, Pi.single_eq_same, CFractions.cols_lowPart,
      if_neg hlast.not_lt, zero_add]

theorem Built.low_eq {a b : CFractions} {take v : ℤ} {q : Columns} (h : Built level a b take v q) :
    b.low level.nSupplyEffective = a.low level.nSupplyEffective := by
  unfold CFractions.low
  refine Finset.sum_congr rfl fun c _ => ?_
  split_ifs with hc
  · exact h.kept c hc
  · rfl

/-- What an update leaves in the pool is what the remaining users need. -/
theorem Covers.remaining {st0 st : UpdateState} {v : ℤ} {q : Columns} (h : level.FitsTo f)
    (hcovers : Covers level (u :: rest) pool) (hrest : ∀ u ∈ rest, u.fractions.Nonneg)
    (hp : Prepared level u.fractions pool st0 v)
    (hq : LiquidTaken level.nLastIdx u.fractions.total st0 st q) (nLiquid nId : ℤ) :
    Covers level rest { st.pdPegPool with nLiquid, nId } := by
  have htake : min (level.claim u.fractions) pool.nReserve ≤ pool.nReserve := min_le_right _ _
  have hpool := hq.pool
  have hbounds := hq.bounds
  refine ⟨?_, hq.poolStd, fun c => ?_, fun c hc => ?_, ?_, ?_, ?_, ?_⟩
  · simp only [hq.same, hp.same, hcovers.cycle]
  · rw [hpool]
    exact sub_nonneg.mpr (hbounds c).2
  · have hne : c ≠ level.nLastIdx := by
      rintro rfl
      exact absurd hc (CPegLevel.coe_nLastIdx h.inRange).not_lt
    have hzero : st0.pdPegPool.fractions.cols c = 0 := by
      rw [hp.pool, Pi.sub_apply, hcovers.support c hc, Pi.single_eq_of_ne hne, sub_zero]
    have hc := hbounds c
    rw [hpool, Pi.sub_apply]
    omega
  · have hv : st0.frLiquid.total = v := by
      rw [CFractions.total_eq_sum, hp.frLiquid, CFractions.sum_single]
    have htodo := nLiquidTodo_eq hp.nReserve hv
    have htotal := hcovers.total
    rw [List.map_cons, List.sum_cons] at htotal
    rw [CFractions.total_eq_sum, hpool]
    simp only [Pi.sub_apply, Finset.sum_sub_distrib, hq.amount, htodo]
    rw [← CFractions.total_eq_sum, CFractions.total_of_cols_sub hp.pool]
    omega
  · have hreserve := hp.reserve
    have hsame := hq.poolReserve
    simp only
    omega
  · have hclaims : 0 ≤ (rest.map fun u => level.claim u.fractions).sum :=
      List.sum_nonneg fun x hx => by
        obtain ⟨w, hw, rfl⟩ := List.mem_map.mp hx
        exact (claim_bounds h (hrest w hw)).1
    have hreserve := hcovers.reserve_le
    rw [List.map_cons, List.sum_cons] at hreserve
    simp only [hq.poolReserve, hp.reserve]
    omega
  · have hhold := hq.hold
    simp only [hpool, hq.poolReserve, Pi.sub_apply]
    omega

/-- An update of a balance of the previous cycle succeeds. It keeps the value and the
columns below the level, and leaves a pool that covers the users that remain. -/
theorem updateBalance_ok (h : level.FitsTo f) (hu : u.fractions.Nonneg)
    (hcovers : Covers level (u :: rest) pool) (hrest : ∀ u ∈ rest, u.fractions.Nonneg) :
    ∃ r, updateBalance u pool level = .ok r ∧ Updated level u r.pdBalance ∧
      Covers level rest r.pdPegPool ∧ r.pdBalance.fractions.cols + r.pdPegPool.fractions.cols =
        (u.fractions.lowPart level.nSupplyEffective).cols + pool.fractions.cols := by
  have hserves := hcovers.serves h hrest
  obtain ⟨v, hp⟩ : ∃ v, Prepared level u.fractions pool
      ((startState level u.fractions pool).takeLast level u.fractions.total) v := by
    cases hpart : level.fPartial with
    | true => exact prepared_of_split h hu hserves hpart
    | false => exact ⟨0, prepared_of_whole h hu hserves hpart⟩
  have hclaim := claim_bounds h hu
  have hreserve0 := hcovers.reserve_nonneg
  have hreserve := hcovers.reserve_le
  rw [List.map_cons, List.sum_cons] at hreserve
  have hp0 : 0 ≤ ((startState level u.fractions pool).takeLast level
      u.fractions.total).pdPegPool.nReserve := by
    rw [hp.reserve]
    omega
  obtain ⟨st, q, hst, hq⟩ :=
    takeLiquid_ok hp.poolStd hp.liquidStd hp.poolNonneg hp0 hp.hold hp.todo.1 hp.todo.2
  have hbuilt := built h hp hq hcovers.support
  have hq0 := hq.bounds level.nLastIdx
  have hv := hp.nonneg
  let b : CPegData := { u with
    fractions := st.frReserve + st.frLiquid
    peglevel := level
    nReserve := st.nReserve
    nLiquid := u.fractions.total - st.nReserve
    nId := st.pdPegPool.nId + 1 }
  let pool' : CPegData := { st.pdPegPool with
    nLiquid := st.pdPegPool.fractions.total - st.pdPegPool.nReserve
    nId := st.pdPegPool.nId + 1 }
  have herr : updateErr b u.fractions.total level = none := by
    refine updateErr_none (min (level.claim u.fractions) pool.nReserve) h hbuilt.total rfl
      ?_ ?_ fun hpart => ?_
    · simp only [b, hbuilt.low_eq, hq.nReserve, hp.nReserve]
    · simp only [b, hbuilt.last]
      omega
    · have hzero : level.claim u.fractions = 0 := by simp [CPegLevel.claim, hpart]
      omega
  have hok : updateBalance u pool level = .ok { pdBalance := b, pdPegPool := pool' } := by
    have htotal : ¬ u.fractions.lowPartTotal level ≠ (u.fractions.lowPartOf level).total :=
      not_not.mpr (lowPartTotal_eq h u.fractions)
    simp only [startState] at hst
    simp only [updateBalance]
    rw [if_neg htotal, hst]
    simp only
    rw [herr]
  refine ⟨_, hok, ⟨rfl, hbuilt.total, hbuilt.kept⟩, hcovers.remaining h hrest hp hq _ _, ?_⟩
  simp only [b, pool', hbuilt.cols, hq.pool, hp.pool]
  abel

end Update

/-! ## All users -/

section Users

variable {level : CPegLevel} {f : Columns} {users : List CPegData} {pool : CPegData}

theorem updatepegbalances_eq {u : CPegData} (hpool : pool.peglevel.nCycle = level.nCycle)
    (hu : u.peglevel.nCycle = level.nCyclePrev) (hlt : level.nCyclePrev < level.nCycle) :
    updatepegbalances u pool level = updateBalance u pool level := by
  simp only [updatepegbalances]
  rw [if_neg (not_not.mpr hpool), if_neg (by omega), if_neg (by omega),
    if_neg (fun hmismatch => hmismatch.2.2 hu)]

/-- The run over all users, in whichever order they are listed. -/
theorem updateUsers_ok (h : level.FitsTo f) (hlt : level.nCyclePrev < level.nCycle)
    (husers : ∀ u ∈ users, FromCycle level.nCyclePrev u) (hcovers : Covers level users pool) :
    ∃ r, updateUsers level users pool = .ok r ∧ List.Forall₂ (Updated level) users r.1 ∧
      Covers level [] r.2 ∧ (r.1.map fun u => u.fractions.cols).sum + r.2.fractions.cols =
        (users.map fun u => (u.fractions.lowPart level.nSupplyEffective).cols).sum +
          pool.fractions.cols := by
  induction users generalizing pool with
  | nil => exact ⟨([], pool), rfl, List.Forall₂.nil, hcovers, rfl⟩
  | cons u rest ih =>
    have hu := husers u List.mem_cons_self
    have hrest : ∀ w ∈ rest, FromCycle level.nCyclePrev w :=
      fun w hw => husers w (List.mem_cons_of_mem _ hw)
    obtain ⟨r, hr, hupdated, hleft, hcols⟩ :=
      updateBalance_ok h hu.nonneg hcovers fun w hw => (hrest w hw).nonneg
    obtain ⟨rs, hrs, hall, hend, hsum⟩ := ih hrest hleft
    refine ⟨(r.pdBalance :: rs.1, rs.2), ?_, List.Forall₂.cons hupdated hall, hend, ?_⟩
    · rw [updateUsers, updatepegbalances_eq hcovers.cycle hu.cycle hlt, hr]
      simp only [Except.bind, hrs]
    · simp only [List.map_cons, List.sum_cons]
      linear_combination hsum + hcols

end Users

/-! ## The start of a cycle -/

section Start

variable {users : List CPegData} {pdExchange pdPegShift : CPegData}
  {nCycleNow nCyclePrev nBuffer nPegNow nPegNext nPegNextNext : ℤ}

theorem sum_apply {α : Type} (l : List α) (w : α → Columns) (c : Fin PEG_SIZE) :
    (l.map w).sum c = (l.map fun a => w a c).sum := by
  have hmap := map_list_sum (Pi.evalAddMonoidHom (fun _ : Fin PEG_SIZE => ℤ) c) (l.map w)
  rw [List.map_map] at hmap
  exact hmap

theorem high_of_sum {a : CFractions} (hsum : a.cols = (users.map fun u => u.fractions.cols).sum)
    (supply : ℕ) : a.high supply = (users.map fun u => u.fractions.high supply).sum := by
  have hcols : ∀ c, a.cols c = (users.map fun u => u.fractions.cols c).sum := by
    intro c
    rw [hsum, sum_apply]
  simp only [CFractions.high, hcols]
  clear hsum hcols
  induction users with
  | nil => simp
  | cons u rest ih =>
    rw [List.map_cons, List.sum_cons, ← ih, ← Finset.sum_add_distrib]
    refine Finset.sum_congr rfl fun c _ => ?_
    split_ifs <;> simp

/-- The reserve of the pool is at most what users claim, as claims are rounded up. -/
theorem part_le_sum_claim {level : CPegLevel} {a : CFractions} (h : level.FitsTo a.cols)
    (hsum : a.cols = (users.map fun u => u.fractions.cols).sum)
    (husers : ∀ u ∈ users, u.fractions.Nonneg) :
    level.nShiftLastPart ≤ (users.map fun u => level.claim u.fractions).sum := by
  rcases h.split with ⟨hzero, -⟩ | ⟨hp, ht, htotal⟩
  · rw [hzero]
    refine List.sum_nonneg fun x hx => ?_
    obtain ⟨u, hu, rfl⟩ := List.mem_map.mp hx
    exact (claim_bounds h (husers u hu)).1
  · have hpart : level.fPartial = true := by
      simp [CPegLevel.fPartial, hp, hp.trans ht]
    have hmul : level.nShiftLastPart * level.nShiftLastTotal ≤
        (users.map fun u => level.claim u.fractions).sum * level.nShiftLastTotal := by
      calc level.nShiftLastPart * level.nShiftLastTotal
          = (users.map fun u => u.fractions.cols level.nLastIdx).sum * level.nShiftLastPart := by
            rw [htotal, hsum, sum_apply, mul_comm]
        _ = (users.map fun u => u.fractions.cols level.nLastIdx * level.nShiftLastPart).sum :=
            (List.sum_map_mul_right _ _ _).symm
        _ ≤ (users.map fun u => level.claim u.fractions * level.nShiftLastTotal).sum := by
            refine List.sum_le_sum fun u hu => ?_
            rw [CPegLevel.claim, if_pos hpart]
            exact CPegLevel.mul_le_vpart (husers u hu _) hp ht
        _ = _ := List.sum_map_mul_right _ _ _
    exact le_of_mul_le_mul_right hmul (hp.trans ht)

/-- The pool of a new cycle covers all users. -/
theorem pegPool_covers {level : CPegLevel} (h : level.FitsTo pdExchange.fractions.cols)
    (husers : ∀ u ∈ users, u.fractions.Nonneg)
    (hsum : pdExchange.fractions.cols = (users.map fun u => u.fractions.cols).sum) :
    Covers level users (pegPool level pdExchange) := by
  have hnonneg : pdExchange.fractions.Nonneg := by
    intro c
    rw [hsum, sum_apply]
    refine List.sum_nonneg fun x hx => ?_
    obtain ⟨u, hu, rfl⟩ := List.mem_map.mp hx
    exact husers u hu c
  have hlast := CPegLevel.coe_nLastIdx h.inRange
  refine ⟨rfl, rfl, hnonneg.highPart _, fun c hc => ?_, ?_, ?_, part_le_sum_claim h hsum husers, ?_⟩
  · simp only [pegPool, CFractions.cols_highPart, if_pos hc]
  · simp only [pegPool]
    rw [CFractions.total_highPart, high_of_sum hsum]
  · rcases h.split with ⟨hzero, -⟩ | ⟨hp, -⟩
    · exact hzero.ge
    · exact hp.le
  · simp only [pegPool, CFractions.cols_highPart, hlast, lt_irrefl, if_false]
    rcases h.split with ⟨hzero, -⟩ | ⟨-, ht, htotal⟩
    · rw [hzero]
      exact hnonneg _
    · exact ht.le.trans htotal.le

theorem sum_lowPart {a : CFractions} (hsum : a.cols = (users.map fun u => u.fractions.cols).sum)
    (supply : ℕ) :
    (users.map fun u => (u.fractions.lowPart supply).cols).sum = (a.lowPart supply).cols := by
  funext c
  rw [sum_apply, CFractions.cols_lowPart, hsum, sum_apply]
  simp only [CFractions.cols_lowPart]
  split_ifs
  · rfl
  · simp

end Start

/-- A user with 5 in column 4, which is liquid at the supply index 3. -/
def sampleUser : CPegData where
  fractions := .singleColumn 4 5
  peglevel := .ofSupply 1 0 0 3 3 3
  nLiquid := 5

def sampleExchange : CPegData := sampleUser

def sampleShift : CPegData where
  fractions := .singleColumn 0 2 - .singleColumn 4 2

theorem sampleLevel_isValid :
    (getpeglevel 2 1 0 3 3 3 sampleExchange sampleShift).1.IsValid := by
  decide +kernel

theorem sampleUser_fromCycle : ∀ u ∈ [sampleUser], FromCycle 1 u := by
  intro u hu
  obtain rfl := List.mem_singleton.mp hu
  exact ⟨rfl, CFractions.singleColumn_nonneg (by decide) 4, rfl⟩

end BitBay
