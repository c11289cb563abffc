import BitBay.Peg.LevelOrder

/-!
# The level of a moved balance

A move reports a side of another level as outdated and names both cycles, but it compares
levels as `operator==` does: by the column they reach and the ratio in which they split it.
So the level of another cycle can pass for the current one. Then `movecoins` leaves it on the
balance, and the other two moves never write a level at all.

The condition under which the moves keep what the messages promise is on the three levels.
-/
namespace BitBay

def MoveKind.call (kind : MoveKind) (nMoveAmount : ℤ) (pdSrc pdDst : CPegData)
    (peglevel : CPegLevel) : Except String (CPegData × CPegData) :=
  moveText pdSrc pdDst peglevel <| match kind with
    | .coins fCrossCycles => movecoins nMoveAmount pdSrc pdDst peglevel fCrossCycles
    | .liquid => moveliquid nMoveAmount pdSrc pdDst peglevel
    | .reserve => movereserve nMoveAmount pdSrc pdDst peglevel

def CPegData.AtCycle (peglevel : CPegLevel) (pd : CPegData) : Prop :=
  pd.peglevel.nCycle = peglevel.nCycle ∨ pd.fractions.total = 0

/-- A call takes no outdated balance, and returns both with the current level. -/
def Stamps (peglevel : CPegLevel) (pdSrc pdDst : CPegData)
    (r : Except String (CPegData × CPegData)) : Prop :=
  ∀ src dst, r = .ok (src, dst) → (pdSrc.AtCycle peglevel ∧ pdDst.AtCycle peglevel) ∧
    src.peglevel = peglevel ∧ dst.peglevel = peglevel

/-- The levels of two balances are told apart from the current one. Coins that are moved
across cycles get the current level, unless theirs compares the same. -/
def MoveKind.TellsApart (kind : MoveKind) (peglevel srcLevel dstLevel : CPegLevel) : Prop :=
  match kind with
  | .coins true =>
    (srcLevel.nCycle = peglevel.nCycle ∧ dstLevel.nCycle = peglevel.nCycle) ∧
      (peglevel.same srcLevel → srcLevel = peglevel) ∧
      (peglevel.same dstLevel → dstLevel = peglevel)
  | _ => peglevel.same srcLevel → peglevel.same dstLevel →
      srcLevel = peglevel ∧ dstLevel = peglevel

section Levels

variable {nMoveAmount : ℤ} {pdSrc pdDst : CPegData} {peglevel : CPegLevel}

/-! ## What a successful move does to the levels -/

theorem moveRefused_same {what : String} {nHave : ℤ}
    (h : moveRefused nMoveAmount pdSrc pdDst peglevel what nHave = none) :
    peglevel.same pdSrc.peglevel = true ∧ peglevel.same pdDst.peglevel = true := by
  unfold moveRefused at h
  split_ifs at h with hsrc hneg hhave hdst huser
  exact ⟨hsrc, hdst⟩

theorem moveliquid_levels (h : (moveliquid nMoveAmount pdSrc pdDst peglevel).sErr = none) :
    (peglevel.same pdSrc.peglevel = true ∧ peglevel.same pdDst.peglevel = true) ∧
      (moveliquid nMoveAmount pdSrc pdDst peglevel).pdSrc.peglevel = pdSrc.peglevel ∧
      (moveliquid nMoveAmount pdSrc pdDst peglevel).pdDst.peglevel = pdDst.peglevel := by
  unfold moveliquid at h ⊢
  cases hrefused : moveRefused nMoveAmount pdSrc pdDst peglevel "liquid" pdSrc.nLiquid with
  | some sErr => simp only [hrefused, reduceCtorEq] at h
  | none =>
    refine ⟨moveRefused_same hrefused, ?_⟩
    dsimp only
    split
    · exact ⟨rfl, rfl⟩
    · split_ifs <;> exact ⟨rfl, rfl⟩

theorem movereserve_levels (h : (movereserve nMoveAmount pdSrc pdDst peglevel).sErr = none) :
    (peglevel.same pdSrc.peglevel = true ∧ peglevel.same pdDst.peglevel = true) ∧
      (movereserve nMoveAmount pdSrc pdDst peglevel).pdSrc.peglevel = pdSrc.peglevel ∧
      (movereserve nMoveAmount pdSrc pdDst peglevel).pdDst.peglevel = pdDst.peglevel := by
  unfold movereserve at h ⊢
  cases hrefused : moveRefused nMoveAmount pdSrc pdDst peglevel "reserve" pdSrc.nReserve with
  | some sErr => simp only [hrefused, reduceCtorEq] at h
  | none =>
    refine ⟨moveRefused_same hrefused, ?_⟩
    dsimp only
    split <;> exact ⟨rfl, rfl⟩

def stampedLevel (peglevel level : CPegLevel) : CPegLevel :=
  if peglevel.same level then level else peglevel

theorem movecoins_levels {fCrossCycles : Bool}
    (h : (movecoins nMoveAmount pdSrc pdDst peglevel fCrossCycles).sErr = none) :
    (fCrossCycles = false →
        peglevel.same pdSrc.peglevel = true ∧ peglevel.same pdDst.peglevel = true) ∧
      (movecoins nMoveAmount pdSrc pdDst peglevel fCrossCycles).pdSrc.peglevel =
        stampedLevel peglevel pdSrc.peglevel ∧
      (movecoins nMoveAmount pdSrc pdDst peglevel fCrossCycles).pdDst.peglevel =
        stampedLevel peglevel pdDst.peglevel := by
  unfold movecoins at h ⊢
  split_ifs at h ⊢ with hsrc hneg htotal hdst
  refine ⟨fun hcross => ?_, ?_⟩
  · simpa [hcross] using And.intro hsrc hdst
  · dsimp only at h ⊢
    split at h
    · cases h
    · dsimp only [stampedLevel]
      constructor <;> split_ifs <;> rfl

theorem stampedLevel_eq {level : CPegLevel} (h : peglevel.same level = true → level = peglevel) :
    stampedLevel peglevel level = peglevel := by
  unfold stampedLevel
  split_ifs with hsame
  · exact h hsame
  · rfl

theorem moveText_valid {move : MoveResult} {r : CPegData × CPegData}
    (h : moveText pdSrc pdDst peglevel move = .ok r) :
    peglevel.IsValid ∧ pdSrc.IsValid ∧ pdDst.IsValid := by
  by_contra hnot
  unfold moveText at h
  split_ifs at h with hlevel hsrc hdst <;> exact hnot ⟨hlevel, hsrc, hdst⟩

/-- Levels that are told apart are checked and stamped. -/
theorem MoveKind.TellsApart.stamps {kind : MoveKind} (htells : peglevel.IsValid →
      pdSrc.peglevel.IsValid → pdDst.peglevel.IsValid →
      kind.TellsApart peglevel pdSrc.peglevel pdDst.peglevel) :
    Stamps peglevel pdSrc pdDst (kind.call nMoveAmount pdSrc pdDst peglevel) := by
  intro src dst h
  obtain ⟨hlevel, hsrc, hdst⟩ := moveText_valid h
  obtain ⟨hnone, rfl, rfl, -, -⟩ := of_moveText_ok h
  have htells := htells hlevel hsrc.1 hdst.1
  have hcurrent : ∀ pd : CPegData, pd.peglevel = peglevel → pd.AtCycle peglevel :=
    fun pd heq => Or.inl (congrArg CPegLevel.nCycle heq)
  cases kind with
  | coins fCrossCycles =>
    obtain ⟨hsame, hstamp_src, hstamp_dst⟩ := movecoins_levels hnone
    cases fCrossCycles with
    | true =>
      obtain ⟨⟨hcycle_src, hcycle_dst⟩, htell_src, htell_dst⟩ := htells
      exact ⟨⟨Or.inl hcycle_src, Or.inl hcycle_dst⟩, hstamp_src.trans (stampedLevel_eq htell_src),
        hstamp_dst.trans (stampedLevel_eq htell_dst)⟩
    | false =>
      obtain ⟨heq_src, heq_dst⟩ := htells (hsame rfl).1 (hsame rfl).2
      exact ⟨⟨hcurrent _ heq_src, hcurrent _ heq_dst⟩,
        hstamp_src.trans (stampedLevel_eq fun _ => heq_src),
        hstamp_dst.trans (stampedLevel_eq fun _ => heq_dst)⟩
  | liquid =>
    obtain ⟨hsame, hkept_src, hkept_dst⟩ := moveliquid_levels hnone
    obtain ⟨heq_src, heq_dst⟩ := htells hsame.1 hsame.2
    exact ⟨⟨hcurrent _ heq_src, hcurrent _ heq_dst⟩, hkept_src.trans heq_src,
      hkept_dst.trans heq_dst⟩
  | reserve =>
    obtain ⟨hsame, hkept_src, hkept_dst⟩ := movereserve_levels hnone
    obtain ⟨heq_src, heq_dst⟩ := htells hsame.1 hsame.2
    exact ⟨⟨hcurrent _ heq_src, hcurrent _ heq_dst⟩, hkept_src.trans heq_src,
      hkept_dst.trans heq_dst⟩

/-! ## Balances that show which levels pass -/

/-- A balance at a level, its parts as the level divides the fractions. -/
def CPegData.dividedAt (level : CPegLevel) (fractions : CFractions) : CPegData where
  fractions
  peglevel := level
  nLiquid := fractions.highOf level
  nReserve := fractions.lowOf level

section Divided

variable {level : CPegLevel} {a : CFractions}

/-- Fractions with nothing in the split column are divided at it. -/
theorem lowOf_unsplit (hlevel : level.IsValid) (hcol : a.cols level.nLastIdx = 0) :
    a.lowOf level = a.low level.nSupplyEffective := by
  rw [lowOf_of_valid a hlevel, CFractions.lowPartTotal, hcol, level.vpart_zero, ite_self, zero_add]

theorem highOf_unsplit (hlevel : level.IsValid) (hcol : a.cols level.nLastIdx = 0) :
    a.highOf level = a.high (level.nSupplyEffective + 1) ∧
      a.highOf level = a.high level.nSupplyEffective := by
  have hnext := a.high_succ level.nLastIdx
  rw [hlevel.nLastIdx, hcol, zero_add] at hnext
  rw [highOf_of_valid a hlevel, hcol, level.vpart_zero]
  constructor <;> split_ifs <;> omega

/-- A balance with nothing in the split column is valid at every level of this column. -/
theorem isValid_unsplit {pd : CPegData} (hlevel : pd.peglevel.IsValid) (hvalid : level.IsValid)
    (hsame : pd.peglevel.nSupplyEffective = level.nSupplyEffective)
    (hcol : pd.fractions.cols level.nLastIdx = 0)
    (hliquid : pd.nLiquid = pd.fractions.highOf level)
    (hreserve : pd.nReserve = pd.fractions.lowOf level) : pd.IsValid := by
  have hsum := lowOf_add_highOf pd.fractions hvalid
  have hhigh := highOf_unsplit hvalid hcol
  have hlow := lowOf_unsplit hvalid hcol
  refine ⟨hlevel, by omega, ?_⟩
  rw [hsame]
  split_ifs
  · exact ⟨by omega, by omega⟩
  · exact ⟨by omega, by omega⟩

end Divided

theorem CPegLevel.nSupplyEffective_of_same {a b : CPegLevel} (ha : a.IsValid) (hb : b.IsValid)
    (h : a.same b = true) : a.nSupplyEffective = b.nSupplyEffective := by
  have hcolumn := ((same_iff ha hb).mp h).1
  unfold CPegLevel.column at hcolumn
  rw [CPegLevel.nSupplyEffective, CPegLevel.nSupplyEffective, hcolumn]

/-- Fractions that no level splits which is moved between. -/
structure Unsplit (peglevel level : CPegLevel) (a : CFractions) : Prop where
  nonneg : a.Nonneg
  current : a.cols peglevel.nLastIdx = 0
  old : a.cols level.nLastIdx = 0

def CPegData.stamped (peglevel : CPegLevel) (pd : CPegData) (fractions : CFractions) : CPegData :=
  { pd with
    fractions
    nLiquid := fractions.highOf peglevel
    nReserve := fractions.lowOf peglevel
    peglevel := stampedLevel peglevel pd.peglevel }

theorem movecoins_nothing {fCrossCycles : Bool} (hlevel : peglevel.IsValid)
    (hsame : fCrossCycles = false →
      peglevel.same pdSrc.peglevel = true ∧ peglevel.same pdDst.peglevel = true)
    (hsrc : pdSrc.fractions.Nonneg) :
    movecoins 0 pdSrc pdDst peglevel fCrossCycles =
      { sErr := none
        pdSrc := pdSrc.stamped peglevel (pdSrc.fractions - .zeroStd)
        pdDst := pdDst.stamped peglevel (pdDst.fractions + .zeroStd) } := by
  have hpart : pdSrc.fractions.ratioPart 0 = .zeroStd := if_pos rfl
  have hcheck_src : ¬ (¬ fCrossCycles = true ∧ ¬ peglevel.same pdSrc.peglevel = true) :=
    fun h => h.2 (hsame (Bool.eq_false_iff.mpr h.1)).1
  have hcheck_dst : ¬ (¬ fCrossCycles = true ∧ ¬ peglevel.same pdDst.peglevel = true) :=
    fun h => h.2 (hsame (Bool.eq_false_iff.mpr h.1)).2
  have hparts : ∀ a : CFractions, a.lowOf peglevel + a.highOf peglevel = a.total :=
    fun a => lowOf_add_highOf a hlevel
  have hzero : CFractions.zeroStd.total = 0 := by simp [CFractions.total_eq_sum]
  unfold movecoins
  simp only [if_neg hcheck_src, if_neg hcheck_dst, lt_irrefl, if_false, hsrc.total.not_gt, hpart]
  rw [moveMismatched_none]
  · dsimp only [CPegData.stamped, stampedLevel]
    rw [MoveResult.mk.injEq]
    refine ⟨rfl, ?_, ?_⟩
    · split_ifs <;> rfl
    · split_ifs <;> rfl
  · rw [CFractions.total_sub, CFractions.total_add, hzero]
    ring
  · refine CFractions.Nonneg.isPositive fun c => ?_
    simpa using hsrc c
  · exact hparts _
  · exact hparts _

theorem stamped_isValid {level : CPegLevel} {a : CFractions} (hlevel : peglevel.IsValid)
    (hold : level.IsValid) (hcol : a.cols peglevel.nLastIdx = 0) {pd : CPegData}
    (hpd : pd.peglevel = level) : (pd.stamped peglevel a).IsValid := by
  subst hpd
  refine isValid_unsplit ?_ hlevel ?_ hcol rfl rfl
  · dsimp only [CPegData.stamped, stampedLevel]
    split_ifs
    · exact hold
    · exact hlevel
  · dsimp only [CPegData.stamped, stampedLevel]
    split_ifs with hsame
    · exact (CPegLevel.nSupplyEffective_of_same hlevel hold hsame).symm
    · rfl

theorem dividedAt_isValid {level : CPegLevel} {a : CFractions} (hlevel : level.IsValid)
    (hcol : a.cols level.nLastIdx = 0) : (CPegData.dividedAt level a).IsValid :=
  isValid_unsplit hlevel hlevel rfl hcol rfl rfl

/-- No coins are moved, and the call succeeds. -/
theorem coins_call_nothing {srcLevel dstLevel : CPegLevel} {fCrossCycles : Bool}
    {frSrc frDst : CFractions} (hlevel : peglevel.IsValid) (hsrc : srcLevel.IsValid)
    (hdst : dstLevel.IsValid)
    (hsame : fCrossCycles = false →
      peglevel.same srcLevel = true ∧ peglevel.same dstLevel = true)
    (hfrSrc : Unsplit peglevel srcLevel frSrc) (hfrDst : Unsplit peglevel dstLevel frDst) :
    (MoveKind.coins fCrossCycles).call 0 (.dividedAt srcLevel frSrc) (.dividedAt dstLevel frDst)
      peglevel =
        .ok ((CPegData.dividedAt srcLevel frSrc).stamped peglevel (frSrc - .zeroStd),
          (CPegData.dividedAt dstLevel frDst).stamped peglevel (frDst + .zeroStd)) := by
  have hsrc_valid := dividedAt_isValid hsrc hfrSrc.old
  have hdst_valid := dividedAt_isValid hdst hfrDst.old
  have hsrc_after := @stamped_isValid peglevel srcLevel (frSrc - .zeroStd) hlevel hsrc
    (by simpa using hfrSrc.current) (.dividedAt srcLevel frSrc) rfl
  have hdst_after := @stamped_isValid peglevel dstLevel (frDst + .zeroStd) hlevel hdst
    (by simpa using hfrDst.current) (.dividedAt dstLevel frDst) rfl
  have hmove : movecoins 0 (.dividedAt srcLevel frSrc) (.dividedAt dstLevel frDst) peglevel
      fCrossCycles =
        { sErr := none
          pdSrc := (CPegData.dividedAt srcLevel frSrc).stamped peglevel (frSrc - .zeroStd)
          pdDst := (CPegData.dividedAt dstLevel frDst).stamped peglevel (frDst + .zeroStd) } :=
    movecoins_nothing hlevel hsame hfrSrc.nonneg
  simp only [MoveKind.call, hmove, moveText, not_true_eq_false, if_false, hlevel, hsrc_valid,
    hdst_valid]
  rw [if_neg (not_not.mpr hsrc_after), if_neg (not_not.mpr hdst_after)]

/-! ## Empty balances -/

theorem unsplit_zero (peglevel level : CPegLevel) : Unsplit peglevel level .zeroStd :=
  ⟨fun _ => le_rfl, rfl, rfl⟩

/-- A balance without value, its fractions stored in any way. -/
def CPegData.emptyAt (level : CPegLevel) (fractions : CFractions) : CPegData :=
  { fractions, peglevel := level }

theorem dividedAt_empty {level : CPegLevel} {a : CFractions} (hlevel : level.IsValid)
    (hcols : a.cols = 0) : CPegData.dividedAt level a = .emptyAt level a := by
  have hcol := congrFun hcols level.nLastIdx
  have hhigh := (highOf_unsplit hlevel hcol).2
  rw [CFractions.high_eq_zero fun c _ => congrFun hcols c] at hhigh
  have hlow := lowOf_unsplit hlevel hcol
  rw [CFractions.low_eq_zero fun c _ => congrFun hcols c] at hlow
  simp only [CPegData.dividedAt, CPegData.emptyAt, hhigh, hlow]

theorem emptyAt_isValid {level : CPegLevel} {a : CFractions} (hlevel : level.IsValid)
    (hcols : a.cols = 0) : (CPegData.emptyAt level a).IsValid :=
  dividedAt_empty hlevel hcols ▸ dividedAt_isValid hlevel (congrFun hcols _)

/-- The checks after a move find nothing wrong with empty balances. -/
theorem moveMismatched_empty {srcLevel dstLevel : CPegLevel} {a b : CFractions} (ha : a.cols = 0)
    (hb : b.cols = 0) :
    moveMismatched 0 true (.emptyAt srcLevel a) (.emptyAt dstLevel b) = none := by
  have htotal : ∀ {c : CFractions}, c.cols = 0 → c.total = 0 := fun hc => by
    simp [CFractions.total_eq_sum, hc]
  have hsum : a.total + b.total = 0 := by rw [htotal ha, htotal hb, add_zero]
  refine moveMismatched_none _ _ hsum.symm ?_ (htotal ha).symm (htotal hb).symm
  · exact CFractions.Nonneg.isPositive fun c => (congrFun ha c).ge

theorem liquidPart_empty (peglevel level : CPegLevel) :
    ∃ frLiquid, liquidPart peglevel (.emptyAt level .zeroStd) = .ok frLiquid ∧
      frLiquid.total = 0 := by
  have hhigh : ∀ n, (CFractions.zeroStd.highPart n).total = 0 := fun n =>
    (CFractions.total_highPart _ n).trans (CFractions.high_eq_zero fun _ _ => rfl)
  have hcol : ∀ n c, (CFractions.zeroStd.highPart n).cols c = 0 := fun n c => by
    rw [CFractions.cols_highPart, CFractions.cols_zeroStd]
    exact ite_self 0
  by_cases hcut : peglevel.fPartial = true
  · refine ⟨(CFractions.zeroStd.highPart (peglevel.nSupplyEffective + 1)).setAt peglevel.nLastIdx 0,
      ?_, ?_⟩
    · simp only [liquidPart, hcut, if_true, CPegData.emptyAt, hhigh, sub_self, lt_irrefl, if_false]
    · rw [CFractions.total_setAt rfl, hhigh, hcol, sub_self, zero_add]
  · exact ⟨_, if_neg hcut, hhigh _⟩

theorem reservePart_empty (peglevel level : CPegLevel) :
    ∃ frReserve, reservePart peglevel (.emptyAt level .zeroStd) = .ok frReserve := by
  have hlow : ∀ n, (CFractions.zeroStd.lowPart n).total = 0 := fun n =>
    (CFractions.total_lowPart _ n).trans (CFractions.low_eq_zero fun _ _ => rfl)
  by_cases hcut : peglevel.fPartial = true
  · refine ⟨(CFractions.zeroStd.lowPart peglevel.nSupplyEffective).setAt peglevel.nLastIdx 0, ?_⟩
    simp only [reservePart, hcut, if_true, CPegData.emptyAt, hlow, sub_self, lt_irrefl, if_false]
  · exact ⟨_, if_neg hcut⟩

/-- The move of nothing between empty balances at two levels that pass. -/
def emptyMove (srcLevel dstLevel : CPegLevel) : MoveResult where
  sErr := none
  pdSrc := .emptyAt srcLevel (.zeroStd - .zeroStd)
  pdDst := .emptyAt dstLevel (.zeroStd + .zeroStd)

section Empty

variable {srcLevel dstLevel : CPegLevel} (hsame_src : peglevel.same srcLevel = true)
  (hsame_dst : peglevel.same dstLevel = true)
include hsame_src hsame_dst

theorem moveRefused_empty (what : String) :
    moveRefused 0 (.emptyAt srcLevel .zeroStd) (.emptyAt dstLevel .zeroStd) peglevel what 0 =
      none := by
  simp [moveRefused, CPegData.emptyAt, hsame_src, hsame_dst, sameUser]

theorem moveliquid_empty :
    moveliquid 0 (.emptyAt srcLevel .zeroStd) (.emptyAt dstLevel .zeroStd) peglevel =
      emptyMove srcLevel dstLevel := by
  have hpart : ∀ a : CFractions, a.ratioPart 0 = .zeroStd := fun a => if_pos rfl
  have hrefused := moveRefused_empty hsame_src hsame_dst "liquid"
  obtain ⟨frLiquid, hfr, htotal⟩ := liquidPart_empty peglevel srcLevel
  have hzero : CFractions.zeroStd.total = 0 := by simp [CFractions.total_eq_sum]
  have hchecks := @moveMismatched_empty srcLevel dstLevel (.zeroStd - .zeroStd)
    (.zeroStd + .zeroStd) (by simp) (by simp)
  simp only [CPegData.emptyAt] at hrefused hfr hchecks
  simp only [moveliquid, CPegData.emptyAt, hrefused, hfr, htotal, hpart, lt_irrefl, if_false,
    sub_zero, add_zero, hzero, hchecks, emptyMove]

theorem movereserve_empty :
    movereserve 0 (.emptyAt srcLevel .zeroStd) (.emptyAt dstLevel .zeroStd) peglevel =
      emptyMove srcLevel dstLevel := by
  have hpart : ∀ a : CFractions, a.ratioPart 0 = .zeroStd := fun a => if_pos rfl
  have hrefused := moveRefused_empty hsame_src hsame_dst "reserve"
  obtain ⟨frReserve, hfr⟩ := reservePart_empty peglevel srcLevel
  have hzero : CFractions.zeroStd.total = 0 := by simp [CFractions.total_eq_sum]
  have hchecks := @moveMismatched_empty srcLevel dstLevel (.zeroStd - .zeroStd)
    (.zeroStd + .zeroStd) (by simp) (by simp)
  simp only [CPegData.emptyAt] at hrefused hfr hchecks
  simp only [movereserve, CPegData.emptyAt, hrefused, hfr, hpart, sub_zero, add_zero, hzero,
    hchecks, emptyMove]

/-- Nothing is moved between empty balances whose levels pass, and they keep their levels. -/
theorem call_empty (kind : MoveKind) (hlevel : peglevel.IsValid)
    (hsrc : srcLevel.IsValid) (hdst : dstLevel.IsValid) :
    ∃ src dst, kind.call 0 (.emptyAt srcLevel .zeroStd) (.emptyAt dstLevel .zeroStd) peglevel =
        .ok (src, dst) ∧ src.peglevel = srcLevel ∧ dst.peglevel = dstLevel := by
  have hempty : moveText (.emptyAt srcLevel .zeroStd) (.emptyAt dstLevel .zeroStd) peglevel
      (emptyMove srcLevel dstLevel) = .ok ((emptyMove srcLevel dstLevel).pdSrc,
        (emptyMove srcLevel dstLevel).pdDst) := by
    have hafter_src : (emptyMove srcLevel dstLevel).pdSrc.IsValid :=
      emptyAt_isValid hsrc (by simp)
    have hafter_dst : (emptyMove srcLevel dstLevel).pdDst.IsValid :=
      emptyAt_isValid hdst (by simp)
    have hnone : (emptyMove srcLevel dstLevel).sErr = none := rfl
    simp only [moveText, hlevel, emptyAt_isValid hsrc CFractions.cols_zeroStd,
      emptyAt_isValid hdst CFractions.cols_zeroStd, hnone, hafter_src, hafter_dst,
      not_true_eq_false, if_false]
  cases kind with
  | coins fCrossCycles =>
    rw [← dividedAt_empty hsrc CFractions.cols_zeroStd,
      ← dividedAt_empty hdst CFractions.cols_zeroStd]
    exact ⟨_, _, coins_call_nothing hlevel hsrc hdst (fun _ => ⟨hsame_src, hsame_dst⟩)
      (unsplit_zero _ _) (unsplit_zero _ _), if_pos hsame_src, if_pos hsame_dst⟩
  | liquid =>
    refine ⟨(emptyMove srcLevel dstLevel).pdSrc, (emptyMove srcLevel dstLevel).pdDst, ?_, rfl, rfl⟩
    exact (congrArg (moveText _ _ _) (moveliquid_empty hsame_src hsame_dst)).trans hempty
  | reserve =>
    refine ⟨(emptyMove srcLevel dstLevel).pdSrc, (emptyMove srcLevel dstLevel).pdDst, ?_, rfl, rfl⟩
    exact (congrArg (moveText _ _ _) (movereserve_empty hsame_src hsame_dst)).trans hempty

end Empty

/-- Coins in a column that neither level splits. -/
theorem exists_unsplit (peglevel level : CPegLevel) :
    ∃ a : CFractions, Unsplit peglevel level a ∧ a.total = 1 := by
  obtain ⟨c, hcurrent, hold⟩ : ∃ c : Fin PEG_SIZE, c ≠ peglevel.nLastIdx ∧ c ≠ level.nLastIdx := by
    have hthree : ∀ m n : ℕ, ∃ k < 3, k ≠ m ∧ k ≠ n := fun m n => by
      by_cases h0 : 0 ≠ m ∧ 0 ≠ n
      · exact ⟨0, by omega, h0⟩
      · by_cases h1 : 1 ≠ m ∧ 1 ≠ n
        · exact ⟨1, by omega, h1⟩
        · exact ⟨2, by omega, by omega, by omega⟩
    obtain ⟨k, hk, hm, hn⟩ := hthree peglevel.nLastIdx level.nLastIdx
    have hsize : k < PEG_SIZE := hk.trans (by decide)
    exact ⟨⟨k, hsize⟩, fun h => hm (congrArg Fin.val h), fun h => hn (congrArg Fin.val h)⟩
  have hcols : ∀ i, i ≠ c → (CFractions.singleColumn c 1).cols i = 0 := fun i hi => by
    rw [CFractions.singleColumn, CFractions.cols_withCols, if_neg hi]
  refine ⟨.singleColumn c 1, ⟨CFractions.singleColumn_nonneg (by decide) c,
    hcols _ hcurrent.symm, hcols _ hold.symm⟩, ?_⟩
  rw [CFractions.singleColumn, CFractions.total_withCols, Finset.sum_ite_eq' Finset.univ c]
  exact if_pos (Finset.mem_univ c)

/-- A level that passes for the current one is not stamped. -/
theorem eq_of_stampedLevel {level : CPegLevel} (h : stampedLevel peglevel level = peglevel)
    (hsame : peglevel.same level = true) : level = peglevel := (if_pos hsame).symm.trans h

end Levels

/-- For every kind of move: it takes no outdated balance at the given levels and stamps the
current one on both, exactly when the levels are told apart. -/
theorem move_stamps_iff (kind : MoveKind) (peglevel srcLevel dstLevel : CPegLevel) :
    (∀ nMoveAmount pdSrc pdDst, pdSrc.peglevel = srcLevel → pdDst.peglevel = dstLevel →
      Stamps peglevel pdSrc pdDst (kind.call nMoveAmount pdSrc pdDst peglevel)) ↔
    (peglevel.IsValid → srcLevel.IsValid → dstLevel.IsValid →
      kind.TellsApart peglevel srcLevel dstLevel) := by
  constructor
  · intro hstamps hlevel hsrc hdst
    have hempty : peglevel.same srcLevel = true → peglevel.same dstLevel = true →
        srcLevel = peglevel ∧ dstLevel = peglevel := by
      intro hsame_src hsame_dst
      obtain ⟨src, dst, hcall, hlevel_src, hlevel_dst⟩ :=
        call_empty hsame_src hsame_dst kind hlevel hsrc hdst
      obtain ⟨-, hstamp_src, hstamp_dst⟩ := hstamps 0 _ _ rfl rfl src dst hcall
      exact ⟨hlevel_src.symm.trans hstamp_src, hlevel_dst.symm.trans hstamp_dst⟩
    by_cases hcross : kind = .coins true
    · subst hcross
      have hcoins : ∀ {frSrc frDst : CFractions}, Unsplit peglevel srcLevel frSrc →
          Unsplit peglevel dstLevel frDst →
          ((CPegData.dividedAt srcLevel frSrc).AtCycle peglevel ∧
            (CPegData.dividedAt dstLevel frDst).AtCycle peglevel) ∧
          stampedLevel peglevel srcLevel = peglevel ∧ stampedLevel peglevel dstLevel = peglevel :=
        fun hfrSrc hfrDst => hstamps 0 _ _ rfl rfl _ _
          (coins_call_nothing hlevel hsrc hdst (fun h => by cases h) hfrSrc hfrDst)
      obtain ⟨-, hstamp_src, hstamp_dst⟩ := hcoins (unsplit_zero _ _) (unsplit_zero _ _)
      obtain ⟨a, ha, htotal⟩ := exists_unsplit peglevel srcLevel
      obtain ⟨b, hb, htotal'⟩ := exists_unsplit peglevel dstLevel
      obtain ⟨⟨hcycle_src, hcycle_dst⟩, -⟩ := hcoins ha hb
      have hnonzero : (1 : ℤ) ≠ 0 := by decide
      exact ⟨⟨hcycle_src.resolve_right fun h => hnonzero (htotal.symm.trans h),
        hcycle_dst.resolve_right fun h => hnonzero (htotal'.symm.trans h)⟩,
        eq_of_stampedLevel hstamp_src, eq_of_stampedLevel hstamp_dst⟩
    · cases kind with
      | coins fCrossCycles =>
        obtain rfl : fCrossCycles = false := Bool.eq_false_iff.mpr fun h => hcross (h ▸ rfl)
        exact hempty
      | liquid => exact hempty
      | reserve => exact hempty
  · rintro htells nMoveAmount pdSrc pdDst rfl rfl
    exact MoveKind.TellsApart.stamps htells

/-- Liquid is moved between balances of the previous cycle, which keep its level. -/
theorem previous_cycle_moved :
    let peglevel := CPegLevel.ofSupply 7 6 0 3 3 3
    let pd : CPegData :=
      { fractions := .singleColumn 5 10, peglevel := .ofSupply 6 5 0 3 3 3, nLiquid := 10 }
    ¬ Stamps peglevel pd pd (MoveKind.liquid.call 10 pd pd peglevel) := by
  intro peglevel pd h
  have hcall : ((MoveKind.liquid.call 10 pd pd peglevel).toOption.map fun r =>
      r.1.peglevel.nCycle) = some 6 := by decide +kernel
  cases hr : MoveKind.liquid.call 10 pd pd peglevel with
  | error sErr =>
    rw [hr] at hcall
    cases hcall
  | ok r =>
    rw [hr] at hcall
    have hstamp := (h r.1 r.2 hr).2.1
    have hcycle : r.1.peglevel.nCycle = 6 := Option.some.inj hcall
    rw [hstamp] at hcycle
    exact absurd hcycle (by decide)

end BitBay
