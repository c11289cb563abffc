import BitBay.Bridge.MintBounds

/-!
# Draws that are repeated

A draw that is made once more, from the pool that the first one has left, needs everything
twice. It comes to an end if and only if every step finds twice its value in its columns, and
then its total is the same. Its columns need not be: the shares are rounded anew, and they are
the same if and only if the remainders of all windows allow it.
-/
namespace BitBay.CCompressedFractions

open Finset Shares Windows

variable {c : CCompressedFractions} {pool fr : CFractions} {d : Draw}

/-! ## The value of a draw -/

variable (c) in
def Countable : Prop := ∀ i < c.nPegSteps, (i : ℤ) = c.nSection → c.fms.sum < 2 ^ 63

/-- Every draw takes what the steps are asked for. -/
theorem drawValue_countable (hc : c.Counted) (hpos : c.Positive) (hcount : c.Countable)
    {f : Columns} (hf : ∀ x, 0 ≤ f x) {i : ℕ} (hi : i < c.nPegSteps) :
    c.drawValue f i = c.stepValue i := by
  refine drawValue_eq hc fun hsection => lt_of_le_of_lt ?_ (hcount i hi hsection)
  rw [← found_add_shortfall hc f (i * c.pegStepSize)]
  refine le_add_of_nonneg_left (sum_nonneg fun k hk => ?_)
  exact le_min (hpos.micro k (mem_range.mp hk)) (window_nonneg hf)

/-- The values that a leaf with a small total asks for can be counted. -/
theorem countable_of_requested (hc : c.Counted) (hpos : c.NonnegValues) {r : CFractions}
    (h : c.requested = some r) (hsmall : r.total < 2 ^ 63) : c.Countable := by
  intro i hi hsection
  have hin : c.InSteps := ⟨hc.nPegSteps, hc.nMicroSteps, by omega, by omega⟩
  obtain ⟨hsize, hr⟩ := (requested_eq_some hin).mp h
  have hnonneg : ∀ x, 0 ≤ c.requestedCols x := by
    have := requested_nonneg hpos h
    rwa [hr] at this
  have hend : c.start + c.nMicroSteps * c.microStepSize ≤ PEG_SIZE := by
    have := c.microSteps_le
    have := c.pegStep_le hin.section_lt
    unfold start
    omega
  have hsum : c.fms.sum = ∑ j ∈ range c.nMicroSteps, c.microSum c.requestedCols j := by
    rw [← sum_getD, hc.fms]
    refine sum_congr rfl fun j hj => ?_
    rw [microSum_requestedCols hin (mem_range.mp hj)]
    exact ((sum_spread_eq_iff hsize).mpr (Or.inl (getD_nonneg hpos.fms j))).symm
  have hbefore := window_consecutive c.requestedCols (Nat.zero_le c.start)
    (Nat.le_add_right c.start (c.nMicroSteps * c.microStepSize))
  have hbehind := window_consecutive c.requestedCols
    (Nat.zero_le (c.start + c.nMicroSteps * c.microStepSize)) hend
  have hlow : 0 ≤ window c.requestedCols 0 c.start := window_nonneg hnonneg
  have hhigh : 0 ≤ window c.requestedCols (c.start + c.nMicroSteps * c.microStepSize) PEG_SIZE :=
    window_nonneg hnonneg
  rw [hr, CFractions.total_eq_window, CFractions.cols_withCols] at hsmall
  rw [hsum, sum_microSum]
  omega

/-- A whole draw is worth what all steps are asked for. -/
theorem PegDrawn.total_eq (hc : c.Counted) (hpos : c.Positive) (hcount : c.Countable)
    (hpool : pool.Nonneg) (h : c.PegDrawn pool c.nPegSteps d) :
    d.fr.total = ∑ i ∈ range c.nPegSteps, c.stepValue i := by
  have hbehind : window d.fr.cols (c.nPegSteps * c.pegStepSize) PEG_SIZE = 0 := by
    apply window_eq_zero
    intro x hx _
    exact h.ahead.fr_eq_zero hx
  have hall := window_consecutive d.fr.cols (Nat.zero_le (c.nPegSteps * c.pegStepSize)) c.pegSteps_le
  rw [hbehind, add_zero] at hall
  rw [CFractions.total_eq_window, ← hall, ← sum_pegSum]
  apply sum_congr rfl
  intro i hi
  rw [h.values i (mem_range.mp hi), drawValue_countable hc hpos hcount hpool (mem_range.mp hi)]

/-- A draw with a value has come to its end. -/
theorem drawn_of_total (hc : c.Counted) (hpos : c.Positive) (hpool : pool.Nonneg)
    (h : c.decompress pool = some fr) (htotal : fr.total ≠ 0) :
    ∃ d, c.PegDrawn pool c.nPegSteps d ∧ d.fr = fr := by
  have hne : fr ≠ default := by
    rintro rfl
    apply htotal
    simp [CFractions.total_eq_sum]
  obtain ⟨d, hd, rfl⟩ := ok_of_decompress h hne
  exact ⟨d, PegDrawn.all hc hpos hpool hd, rfl⟩

/-- A draw comes to its end, with the value of all steps, when the pool covers them. -/
theorem total_of_covered (hc : c.Counted) (hpos : c.Positive) (hcount : c.Countable)
    (hpool : pool.Nonneg) (h : c.decompress pool = some fr)
    (hcover : ∀ i < c.nPegSteps, c.stepValue i ≤ c.pegSum pool.cols i) :
    fr.total = ∑ i ∈ range c.nPegSteps, c.stepValue i := by
  obtain ⟨fr', hfr', hne⟩ := decompress_covered hc hpos hpool fun i hi =>
    (drawValue_countable hc hpos hcount hpool hi).trans_le (hcover i hi)
  obtain rfl := Option.some.inj (h.symm.trans hfr')
  obtain ⟨d, hd, rfl⟩ := ok_of_decompress h hne
  exact (PegDrawn.all hc hpos hpool hd).total_eq hc hpos hcount hpool

/-! ## The value of the second draw -/

section Again

variable {again : CFractions}

/-- What a draw leaves in a step of the pool. -/
theorem PegDrawn.pegSum_left (h : c.PegDrawn pool c.nPegSteps d) {i : ℕ} (hi : i < c.nPegSteps) :
    c.pegSum (pool - d.fr).cols i = c.pegSum pool.cols i - c.drawValue pool.cols i := by
  have hsplit : d.fr.cols + (pool - d.fr).cols = pool.cols := by
    rw [CFractions.cols_sub]
    abel
  have hsum : c.pegSum d.fr.cols i + c.pegSum (pool - d.fr).cols i = c.pegSum pool.cols i := by
    rw [← hsplit]
    exact (window_add _ _).symm
  have := h.values i hi
  omega

theorem sub_nonneg_of_decompress (hpool : pool.Nonneg) (h : c.decompress pool = some fr) :
    (pool - fr).Nonneg := by
  intro x
  have := decompress_le hpool h x
  simp only [CFractions.cols_sub, Pi.sub_apply]
  omega

/-- The second of two draws has the value of the first one if and only if every step finds
twice its value in the pool. -/
theorem total_again_iff (hc : c.Counted) (hpos : c.Positive) (hcount : c.Countable)
    (hpool : pool.Nonneg) (h : c.decompress pool = some fr) (htotal : fr.total ≠ 0)
    (hagain : c.decompress (pool - fr) = some again) :
    again.total = fr.total ↔ ∀ i < c.nPegSteps, 2 * c.stepValue i ≤ c.pegSum pool.cols i := by
  obtain ⟨d, hd, rfl⟩ := drawn_of_total hc hpos hpool h htotal
  have hleft := sub_nonneg_of_decompress hpool h
  have hasked : ∀ i < c.nPegSteps, c.drawValue pool.cols i = c.stepValue i :=
    fun i hi => drawValue_countable hc hpos hcount hpool hi
  constructor
  · intro hsame i hi
    obtain ⟨d', hd', rfl⟩ := drawn_of_total hc hpos hleft hagain (hsame ▸ htotal)
    have hsplit := hd'.ahead.splits.window_split (a := i * c.pegStepSize)
      (b := i * c.pegStepSize + c.pegStepSize)
    have hrest : 0 ≤ window d'.frPool.cols (i * c.pegStepSize)
        (i * c.pegStepSize + c.pegStepSize) := window_nonneg hd'.ahead.splits.left
    have hvalue := hd'.values i hi
    rw [drawValue_countable hc hpos hcount hleft hi, pegSum] at hvalue
    have hpegSum := hd.pegSum_left hi
    rw [hasked i hi, pegSum] at hpegSum
    omega
  · intro hcover
    rw [hd.total_eq hc hpos hcount hpool]
    apply total_of_covered hc hpos hcount hleft hagain
    intro i hi
    have := hcover i hi
    have := hd.pegSum_left hi
    have := hasked i hi
    omega

end Again

/-! ## The columns of the second draw -/

section Columns

variable {f g : Columns} {a b i : ℕ} {x : Fin PEG_SIZE}

theorem windowCols_congr (h : ∀ x : Fin PEG_SIZE, a ≤ x → (x : ℕ) < b → f x = g x) :
    windowCols f a b = windowCols g a b := by
  funext x
  unfold windowCols
  split_ifs with hx
  · exact h x hx.1 hx.2
  · rfl

theorem windowCols_nonneg (hf : ∀ x, 0 ≤ f x) (x : Fin PEG_SIZE) : 0 ≤ windowCols f a b x := by
  unfold windowCols
  split_ifs
  · exact hf x
  · exact le_rfl

/-- What is left in a window of which a part was taken. -/
theorem windowCols_sub (h : ∀ x : Fin PEG_SIZE, ¬(a ≤ x ∧ x < b) → g x = 0) :
    windowCols (f - g) a b = windowCols f a b - g := by
  funext x
  rw [Pi.sub_apply]
  unfold windowCols
  split_ifs with hx
  · rfl
  · rw [h x hx, sub_zero]

theorem stepShares_outside (hx : ¬(i * c.pegStepSize ≤ x ∧ x < i * c.pegStepSize + c.pegStepSize)) :
    c.stepShares f i x = 0 := by
  have hown := sum_microShares_outside (c := c) (f := f) hx
  have hpeg : c.pegCols f i x = 0 := windowCols_outside hx
  unfold stepShares sectionShares
  split_ifs
  · rw [Pi.add_apply, hown, share_of_zero (by rw [Pi.sub_apply, hpeg, hown, sub_zero]), add_zero]
  · exact share_of_zero hpeg

theorem stepShares_congr (h : ∀ x : Fin PEG_SIZE, i * c.pegStepSize ≤ x →
    x < i * c.pegStepSize + c.pegStepSize → f x = g x) : c.stepShares f i = c.stepShares g i := by
  have hpeg : c.pegCols f i = c.pegCols g i := windowCols_congr h
  have hmicro : ∀ j < c.nMicroSteps, c.microCols f (i * c.pegStepSize) j =
      c.microCols g (i * c.pegStepSize) j := by
    intro j hj
    have := c.microStep_end_le hj
    have := c.microSteps_le
    exact windowCols_congr fun x hlow hhigh => h x (by omega) (by omega)
  have hown : ∀ j ∈ range c.nMicroSteps, c.microShares f (i * c.pegStepSize) j =
      c.microShares g (i * c.pegStepSize) j := by
    intro j hj
    rw [microShares, microShares, hmicro j (mem_range.mp hj)]
  have hshort : c.shortfall f (i * c.pegStepSize) c.nMicroSteps =
      c.shortfall g (i * c.pegStepSize) c.nMicroSteps := by
    refine sum_congr rfl fun j hj => ?_
    have hsum := congrArg (fun h : Columns => ∑ x, h x) (hmicro j (mem_range.mp hj))
    simp only [microCols, sum_windowCols] at hsum
    rw [hsum]
  unfold stepShares sectionShares
  rw [hpeg, hshort, sum_congr rfl hown]

/-- The second draw takes the same columns if and only if the shares of every step are the same
in what the first ones have left. -/
theorem cols_again_iff {d' : Draw} (h : c.PegDrawn pool c.nPegSteps d)
    (h' : c.PegDrawn (pool - d.fr) c.nPegSteps d') : d'.fr.cols = d.fr.cols ↔
      ∀ i < c.nPegSteps, c.stepShares (pool.cols - c.stepShares pool.cols i) i =
        c.stepShares pool.cols i := by
  -- Of all steps only the own one reaches into the columns of a step.
  have hown : ∀ f : Columns, ∀ i < c.nPegSteps, ∀ x : Fin PEG_SIZE,
      i * c.pegStepSize ≤ x → x < i * c.pegStepSize + c.pegStepSize →
      (∑ k ∈ range c.nPegSteps, c.stepShares f k) x = c.stepShares f i x := by
    intro f i hi x hlow hhigh
    rw [Finset.sum_apply]
    refine sum_eq_single_of_mem i (mem_range.mpr hi) fun k _ hne => stepShares_outside ?_
    rintro ⟨hk, hk'⟩
    rcases Nat.lt_or_gt_of_ne hne with hlt | hgt
    · have := pegStep_end_le (c := c) hlt
      omega
    · have := pegStep_end_le (c := c) hgt
      omega
  have hrest : ∀ i < c.nPegSteps, c.stepShares (pool - d.fr).cols i =
      c.stepShares (pool.cols - c.stepShares pool.cols i) i := by
    intro i hi
    refine stepShares_congr fun x hlow hhigh => ?_
    rw [CFractions.cols_sub, Pi.sub_apply, Pi.sub_apply, h.cols, hown _ i hi x hlow hhigh]
  rw [h'.cols, h.cols, sum_congr rfl fun i hi => hrest i (mem_range.mp hi)]
  constructor
  · intro hsame i hi
    rw [← hrest i hi]
    funext x
    by_cases hx : i * c.pegStepSize ≤ x ∧ x < i * c.pegStepSize + c.pegStepSize
    · have hcol := congrFun hsame x
      rw [← sum_congr rfl fun i hi => hrest i (mem_range.mp hi), hown _ i hi x hx.1 hx.2,
        hown _ i hi x hx.1 hx.2] at hcol
      exact hcol
    · rw [stepShares_outside hx, stepShares_outside hx]
  · exact fun hsame => sum_congr rfl fun i hi => hsame i (mem_range.mp hi)

/-- A peg step that finds twice its value. -/
theorem pegShares_again_iff (hf : ∀ x, 0 ≤ f x) (hsection : (i : ℤ) ≠ c.nSection)
    (hv : 0 ≤ c.fps.getD i 0) (htwice : 2 * c.fps.getD i 0 ≤ c.pegSum f i) :
    c.stepShares (f - c.stepShares f i) i = c.stepShares f i ↔
      RoundsTwice (c.pegCols f i) (c.fps.getD i 0) := by
  have hleft : c.pegCols (f - c.stepShares f i) i = c.pegCols f i - c.stepShares f i :=
    windowCols_sub fun x hx => stepShares_outside hx
  have hsum : ∑ x, c.pegCols f i x = c.pegSum f i := sum_windowCols _ _ _
  have hshares : ∀ g, c.stepShares g i = share (c.pegCols g i) (c.fps.getD i 0) := fun g => by
    rw [stepShares, if_neg hsection]
  rw [hshares (f - c.stepShares f i), hleft, hshares f]
  exact share_again_iff (windowCols_nonneg hf) hv (hsum ▸ htwice)

theorem shortfall_eq_zero_iff {start : ℕ} : c.shortfall f start c.nMicroSteps = 0 ↔
    ∀ j < c.nMicroSteps, c.fms.getD j 0 ≤ ∑ x, c.microCols f start j x := by
  rw [shortfall, sum_eq_zero_iff_of_nonneg fun _ _ => le_max_left _ _]
  refine forall_congr' fun j => ?_
  rw [mem_range, microCols, sum_windowCols, max_eq_left_iff, sub_nonpos]

/-- Micro steps that find their values share them out each on its own. -/
theorem sectionShares_covered (h : c.shortfall f (i * c.pegStepSize) c.nMicroSteps = 0) :
    c.sectionShares f i = ∑ j ∈ range c.nMicroSteps,
      share (c.microCols f (i * c.pegStepSize) j) (c.fms.getD j 0) := by
  have hown : ∀ j ∈ range c.nMicroSteps, c.microShares f (i * c.pegStepSize) j =
      share (c.microCols f (i * c.pegStepSize) j) (c.fms.getD j 0) := by
    intro j hj
    rw [microShares, if_neg (not_lt.mpr (shortfall_eq_zero_iff.mp h j (mem_range.mp hj)))]
  have hzero : max 0 (wrap64 0) = 0 := by decide
  rw [sectionShares, h, hzero, share_zero, add_zero, sum_congr rfl hown]

/-- Of the micro steps only the own one reaches into the columns of a micro step. -/
theorem sum_micro_own {start j : ℕ} {q : ℕ → Columns} (hq : ∀ k < c.nMicroSteps, ∀ x : Fin PEG_SIZE,
      ¬(start + k * c.microStepSize ≤ x ∧ x < start + k * c.microStepSize + c.microStepSize) →
        q k x = 0)
    (hj : j < c.nMicroSteps) (hlow : start + j * c.microStepSize ≤ x)
    (hhigh : x < start + j * c.microStepSize + c.microStepSize) :
    (∑ k ∈ range c.nMicroSteps, q k) x = q j x := by
  rw [Finset.sum_apply]
  refine sum_eq_single_of_mem j (mem_range.mpr hj) fun k hk hne => hq k (mem_range.mp hk) x ?_
  rintro ⟨hk, hk'⟩
  rcases Nat.lt_or_gt_of_ne hne with hlt | hgt
  · have := microStep_end_le (c := c) hlt
    omega
  · have := microStep_end_le (c := c) hgt
    omega

/-- A micro step that is short takes all of its columns, so the rest of the section has none. -/
theorem sectionShares_short {j : ℕ} (hj : j < c.nMicroSteps)
    (hshort : ∑ x, c.microCols f (i * c.pegStepSize) j x < c.fms.getD j 0)
    (hlow : i * c.pegStepSize + j * c.microStepSize ≤ x)
    (hhigh : x < i * c.pegStepSize + j * c.microStepSize + c.microStepSize) :
    c.sectionShares f i x = c.microCols f (i * c.pegStepSize) j x := by
  have hown : (∑ k ∈ range c.nMicroSteps, c.microShares f (i * c.pegStepSize) k) x =
      c.microCols f (i * c.pegStepSize) j x := by
    rw [sum_micro_own (fun k _ x hx => microShares_outside hx) hj hlow hhigh, microShares,
      if_pos hshort]
  have hpeg : c.pegCols f i x = c.microCols f (i * c.pegStepSize) j x := by
    have := c.microStep_end_le hj
    have := c.microSteps_le
    rw [pegCols, microCols, windowCols, windowCols, if_pos ⟨by omega, by omega⟩,
      if_pos ⟨hlow, hhigh⟩]
  rw [sectionShares, Pi.add_apply, hown, share_of_zero, add_zero]
  rw [Pi.sub_apply, hown, hpeg, sub_self]

/-- A section whose micro steps find their values: its shares are the same in the rest if and
only if every micro step finds its value once more and is rounded as before. -/
theorem sectionShares_again_iff (hpos : c.Positive) (hf : ∀ x, 0 ≤ f x)
    (hshort : c.shortfall f (i * c.pegStepSize) c.nMicroSteps = 0) :
    c.sectionShares (f - c.sectionShares f i) i = c.sectionShares f i ↔
      ∀ j < c.nMicroSteps,
        2 * c.fms.getD j 0 ≤ ∑ x, c.microCols f (i * c.pegStepSize) j x ∧
          RoundsTwice (c.microCols f (i * c.pegStepSize) j) (c.fms.getD j 0) := by
  let start := i * c.pegStepSize
  let q := fun j => share (c.microCols f start j) (c.fms.getD j 0)
  let rest := f - c.sectionShares f i
  have hcovered := shortfall_eq_zero_iff.mp hshort
  have hfirst : c.sectionShares f i = ∑ j ∈ range c.nMicroSteps, q j := sectionShares_covered hshort
  have hq : ∀ k < c.nMicroSteps, ∀ x : Fin PEG_SIZE, ¬(start + k * c.microStepSize ≤ x ∧
      x < start + k * c.microStepSize + c.microStepSize) → q k x = 0 :=
    fun k _ x hx => share_of_zero (windowCols_outside hx)
  have hq' : ∀ k < c.nMicroSteps, ∀ x : Fin PEG_SIZE, ¬(start + k * c.microStepSize ≤ x ∧
      x < start + k * c.microStepSize + c.microStepSize) →
        share (c.microCols f start k - q k) (c.fms.getD k 0) x = 0 := by
    intro k hk x hx
    refine share_of_zero ?_
    rw [Pi.sub_apply, hq k hk x hx, microCols, windowCols_outside hx, sub_zero]
  have hrest : ∀ j < c.nMicroSteps, c.microCols rest start j = c.microCols f start j - q j := by
    intro j hj
    have hsame : c.microCols rest start j = c.microCols (f - q j) start j := by
      refine windowCols_congr fun x hlow hhigh => ?_
      change (f - c.sectionShares f i) x = (f - q j) x
      rw [Pi.sub_apply, Pi.sub_apply, hfirst, sum_micro_own hq hj hlow hhigh]
    rw [hsame]
    exact windowCols_sub (hq j hj)
  have hshare : ∀ j < c.nMicroSteps, ∑ x, q j x = c.fms.getD j 0 := fun j hj =>
    sum_share_of_le (windowCols_nonneg hf) (hpos.micro j hj) (hcovered j hj)
  have hsum : ∀ j < c.nMicroSteps, ∑ x, c.microCols rest start j x =
      ∑ x, c.microCols f start j x - c.fms.getD j 0 := by
    intro j hj
    rw [hrest j hj]
    simp only [Pi.sub_apply, sum_sub_distrib, hshare j hj]
  -- Once everything is found again the second shares are those of the micro steps, too.
  have hagain : (∀ j < c.nMicroSteps, 2 * c.fms.getD j 0 ≤ ∑ x, c.microCols f start j x) →
      c.sectionShares rest i = ∑ j ∈ range c.nMicroSteps,
        share (c.microCols f start j - q j) (c.fms.getD j 0) := by
    intro htwice
    have hshort' : c.shortfall rest start c.nMicroSteps = 0 := by
      refine shortfall_eq_zero_iff.mpr fun j hj => ?_
      have := htwice j hj
      have := hsum j hj
      omega
    rw [sectionShares_covered hshort']
    refine sum_congr rfl fun j hj => ?_
    rw [← hrest j (mem_range.mp hj)]
  constructor
  · intro hsame
    have hvalue : ∀ j < c.nMicroSteps, 2 * c.fms.getD j 0 ≤ ∑ x, c.microCols f start j x := by
      intro j hj
      by_contra hless
      have hlt : ∑ x, c.microCols rest start j x < c.fms.getD j 0 := by
        have := hsum j hj
        omega
      -- The micro step takes all that is left, and nothing of its columns is in the rest.
      have hall : c.microCols rest start j = q j := by
        funext x
        by_cases hx : start + j * c.microStepSize ≤ x ∧
            x < start + j * c.microStepSize + c.microStepSize
        · have hcol := congrFun (hsame.trans hfirst) x
          rw [sum_micro_own hq hj hx.1 hx.2] at hcol
          exact (sectionShares_short hj hlt hx.1 hx.2).symm.trans hcol
        · exact (windowCols_outside hx).trans (hq j hj x hx).symm
      rw [hall, hshare j hj] at hlt
      exact lt_irrefl _ hlt
    intro j hj
    refine ⟨hvalue j hj, (share_again_iff (windowCols_nonneg hf) (hpos.micro j hj)
      (hvalue j hj)).mp ?_⟩
    funext x
    by_cases hx : start + j * c.microStepSize ≤ x ∧
        x < start + j * c.microStepSize + c.microStepSize
    · have hcol := congrFun ((hagain hvalue).symm.trans (hsame.trans hfirst)) x
      rw [sum_micro_own hq hj hx.1 hx.2, sum_micro_own hq' hj hx.1 hx.2] at hcol
      exact hcol
    · exact (hq' j hj x hx).trans (hq j hj x hx).symm
  · intro hall
    rw [hagain fun j hj => (hall j hj).1, hfirst]
    refine sum_congr rfl fun j hj => ?_
    obtain ⟨htwice, hrounds⟩ := hall j (mem_range.mp hj)
    exact (share_again_iff (windowCols_nonneg hf) (hpos.micro j (mem_range.mp hj)) htwice).mpr hrounds

end Columns

/-! ## Pools for two draws -/

variable (c) in
/-- A pool from which the same can be drawn twice: every step finds its value a second time, and
no share is rounded differently then. Where micro steps are short, the shares of the section are
those of what the micro steps find and of what the rest of the section adds to it. -/
structure DrawsTwice (pool : CFractions) : Prop where
  covers : ∀ i < c.nPegSteps, 2 * c.stepValue i ≤ c.pegSum pool.cols i
  peg : ∀ i < c.nPegSteps, (i : ℤ) ≠ c.nSection →
    RoundsTwice (c.pegCols pool.cols i) (c.fps.getD i 0)
  micro : ∀ i < c.nPegSteps, (i : ℤ) = c.nSection →
    c.shortfall pool.cols (i * c.pegStepSize) c.nMicroSteps = 0 → ∀ j < c.nMicroSteps,
      2 * c.fms.getD j 0 ≤ ∑ x, c.microCols pool.cols (i * c.pegStepSize) j x ∧
        RoundsTwice (c.microCols pool.cols (i * c.pegStepSize) j) (c.fms.getD j 0)
  short : ∀ i < c.nPegSteps, (i : ℤ) = c.nSection →
    c.shortfall pool.cols (i * c.pegStepSize) c.nMicroSteps ≠ 0 →
      c.sectionShares (pool.cols - c.sectionShares pool.cols i) i = c.sectionShares pool.cols i

/-- The second draw takes the same columns as the first one if and only if the pool allows it. -/
theorem drawsTwice_iff {again : CFractions} (hc : c.Counted) (hpos : c.Positive)
    (hcount : c.Countable) (hpool : pool.Nonneg) (h : c.decompress pool = some fr)
    (htotal : fr.total ≠ 0) (hagain : c.decompress (pool - fr) = some again) :
    again.cols = fr.cols ↔ c.DrawsTwice pool := by
  have hleft := sub_nonneg_of_decompress hpool h
  have hvalue := total_again_iff hc hpos hcount hpool h htotal hagain
  obtain ⟨d, hd, rfl⟩ := drawn_of_total hc hpos hpool h htotal
  have hsteps : (∀ i < c.nPegSteps, 2 * c.stepValue i ≤ c.pegSum pool.cols i) →
      (again.cols = d.fr.cols ↔ ∀ i < c.nPegSteps,
        c.stepShares (pool.cols - c.stepShares pool.cols i) i = c.stepShares pool.cols i) := by
    intro hcover
    obtain ⟨d', hd', rfl⟩ := drawn_of_total hc hpos hleft hagain
      ((hvalue.mpr hcover).trans_ne htotal)
    exact cols_again_iff hd hd'
  have hpeg : ∀ i < c.nPegSteps, (i : ℤ) ≠ c.nSection → 2 * c.stepValue i ≤ c.pegSum pool.cols i →
      (c.stepShares (pool.cols - c.stepShares pool.cols i) i = c.stepShares pool.cols i ↔
        RoundsTwice (c.pegCols pool.cols i) (c.fps.getD i 0)) := by
    intro i hi hne htwice
    rw [stepValue, if_neg hne] at htwice
    exact pegShares_again_iff hpool hne (hpos.peg i hi hne) htwice
  have hshares : ∀ i : ℕ, (i : ℤ) = c.nSection → ∀ f, c.stepShares f i = c.sectionShares f i :=
    fun i hsection f => if_pos hsection
  constructor
  · intro hsame
    have hcover := hvalue.mp (by rw [CFractions.total_eq_sum, CFractions.total_eq_sum, hsame])
    have hall := (hsteps hcover).mp hsame
    refine ⟨hcover, fun i hi hne => (hpeg i hi hne (hcover i hi)).mp (hall i hi),
      fun i hi hsection hshort => ?_, fun i hi hsection _ => ?_⟩
    · have hstep := hall i hi
      rw [hshares i hsection, hshares i hsection] at hstep
      exact (sectionShares_again_iff hpos hpool hshort).mp hstep
    · have hstep := hall i hi
      rwa [hshares i hsection, hshares i hsection] at hstep
  · intro htwice
    refine (hsteps htwice.covers).mpr fun i hi => ?_
    by_cases hsection : (i : ℤ) = c.nSection
    · rw [hshares i hsection, hshares i hsection]
      by_cases hshort : c.shortfall pool.cols (i * c.pegStepSize) c.nMicroSteps = 0
      · exact (sectionShares_again_iff hpos hpool hshort).mpr (htwice.micro i hi hsection hshort)
      · exact htwice.short i hi hsection hshort
    · exact (hpeg i hi hsection (htwice.covers i hi)).mpr (htwice.peg i hi hsection)

end BitBay.CCompressedFractions
