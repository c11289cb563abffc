import BitBay.Bridge.Compressed
import BitBay.Chain.SupplyIndex

/-!
# Amounts of compressed fractions

The values of the steps are the sums of windows of the columns, and what is requested
spreads them over these windows again. So the amount is kept when the windows cover all
columns, and a value comes back from its window when it is not negative or divides evenly.
-/
namespace BitBay

open Finset Windows

theorem CFractions.total_eq_window (a : CFractions) : a.total = window a.cols 0 PEG_SIZE := by
  rw [a.total_eq_sum, window_univ]

theorem CFractions.total_midPart (a : CFractions) (supply1 supply2 : ℕ) :
    (a.midPart supply1 supply2).total = window a.cols supply1 supply2 := by
  rw [CFractions.total_eq_sum, window_eq_sum]
  exact sum_congr rfl fun i _ => a.cols_midPart supply1 supply2 i

namespace CCompressedFractions

/-! ## Spread values -/

section Spread

variable {size : ℕ} {v : ℤ}

/-- The cells that get one more. -/
theorem sum_extra {r : ℤ} (hr : r < size) :
    ∑ j ∈ range size, (if (j : ℤ) < r then (1 : ℤ) else 0) = max 0 r := by
  have hcells : (range size).filter (fun j : ℕ => (j : ℤ) < r) = range r.toNat := by
    ext j
    simp only [mem_filter, mem_range]
    omega
  rw [sum_boole, hcells, card_range]
  omega

theorem sum_spread (hsize : 0 < size) :
    ∑ j ∈ range size, spread v size j = size * v.tdiv size + max 0 (v.tmod size) := by
  have hlt : v.tmod size < size := Int.tmod_lt_of_pos v (by omega)
  simp only [spread]
  rw [sum_add_distrib, sum_extra hlt, sum_const, card_range, nsmul_eq_mul]

/-- A value comes back from its cells unless it is negative and does not divide evenly. -/
theorem sum_spread_eq_iff (hsize : 0 < size) :
    ∑ j ∈ range size, spread v size j = v ↔ 0 ≤ v ∨ (size : ℤ) ∣ v := by
  have hdiv := Int.mul_tdiv_add_tmod v size
  rw [sum_spread hsize, Int.dvd_iff_tmod_eq_zero]
  rcases le_or_gt 0 v with hv | hv
  · have hrest := Int.tmod_nonneg (size : ℤ) hv
    constructor
    · intro _
      exact Or.inl hv
    · intro _
      omega
  · have hrest : v.tmod size ≤ 0 := by
      have hneg := Int.tmod_nonneg (size : ℤ) (by omega : 0 ≤ -v)
      rw [Int.neg_tmod] at hneg
      omega
    omega

theorem spread_zero (j : ℕ) : spread 0 size j = 0 := by
  simp [spread]

end Spread

/-! ## The windows of the steps -/

section Steps

variable (c : CCompressedFractions)

def start : ℕ := c.nSection.toNat * c.pegStepSize

def pegSum (f : Columns) (i : ℕ) : ℤ := window f (i * c.pegStepSize) (i * c.pegStepSize + c.pegStepSize)

def microSum (f : Columns) (j : ℕ) : ℤ :=
  window f (c.start + j * c.microStepSize) (c.start + j * c.microStepSize + c.microStepSize)

/-- The columns of the section behind the micro steps, and the ones behind the peg steps. -/
def lostSum (f : Columns) : ℤ :=
  window f (c.start + c.nMicroSteps * c.microStepSize) (c.start + c.pegStepSize) +
    window f (c.nPegSteps * c.pegStepSize) PEG_SIZE

structure InSteps : Prop where
  nPegSteps : 0 < c.nPegSteps
  nMicroSteps : 0 < c.nMicroSteps
  nonneg : 0 ≤ c.nSection
  lt : c.nSection < c.nPegSteps

structure Sums (f : Columns) : Prop where
  fps : c.fps = (List.range c.nPegSteps).map fun i : ℕ => if (i : ℤ) = c.nSection then 0 else c.pegSum f i
  fms : c.fms = (List.range c.nMicroSteps).map fun j : ℕ => c.microSum f j

variable {c} {f g : Columns}

theorem InSteps.section_eq (h : c.InSteps) : (c.nSection.toNat : ℤ) = c.nSection :=
  Int.toNat_of_nonneg h.nonneg

theorem InSteps.section_lt (h : c.InSteps) : c.nSection.toNat < c.nPegSteps := by
  have := h.lt
  have := h.section_eq
  omega

theorem pegSteps_le (c : CCompressedFractions) : c.nPegSteps * c.pegStepSize ≤ PEG_SIZE :=
  Nat.mul_div_le PEG_SIZE c.nPegSteps

theorem microSteps_le (c : CCompressedFractions) : c.nMicroSteps * c.microStepSize ≤ c.pegStepSize :=
  Nat.mul_div_le c.pegStepSize c.nMicroSteps

/-- A step ends before the next ones begin. -/
theorem pegStep_end_le {i k : ℕ} (h : i < k) :
    i * c.pegStepSize + c.pegStepSize ≤ k * c.pegStepSize := by
  have hnext : (i + 1) * c.pegStepSize ≤ k * c.pegStepSize := Nat.mul_le_mul_right _ h
  rwa [Nat.add_mul, Nat.one_mul] at hnext

theorem microStep_end_le {j k : ℕ} (h : j < k) :
    j * c.microStepSize + c.microStepSize ≤ k * c.microStepSize := by
  have hnext : (j + 1) * c.microStepSize ≤ k * c.microStepSize := Nat.mul_le_mul_right _ h
  rwa [Nat.add_mul, Nat.one_mul] at hnext

theorem pegStep_le {i : ℕ} (h : i < c.nPegSteps) :
    i * c.pegStepSize + c.pegStepSize ≤ PEG_SIZE := (pegStep_end_le h).trans c.pegSteps_le

/-- What the peg steps sum up to, with the one of the section. -/
theorem sum_pegSum : ∑ i ∈ range c.nPegSteps, c.pegSum f i = window f 0 (c.nPegSteps * c.pegStepSize) := by
  have hblocks := window_blocks f 0 c.pegStepSize c.nPegSteps
  simpa only [pegSum, Nat.zero_add] using hblocks

theorem sum_microSum :
    ∑ j ∈ range c.nMicroSteps, c.microSum f j =
      window f c.start (c.start + c.nMicroSteps * c.microStepSize) := window_blocks f _ _ _

theorem Sums.sum_fps (h : c.Sums f) (hin : c.InSteps) :
    c.fps.sum + c.pegSum f c.nSection.toNat = window f 0 (c.nPegSteps * c.pegStepSize) := by
  have hterm : ∀ i ∈ range c.nPegSteps, (if (i : ℤ) = c.nSection then 0 else c.pegSum f i) =
      c.pegSum f i - if i = c.nSection.toNat then c.pegSum f i else 0 := by
    intro i _
    have hsame : (i : ℤ) = c.nSection ↔ i = c.nSection.toNat := by
      have := hin.section_eq
      omega
    by_cases hi : i = c.nSection.toNat
    · rw [if_pos (hsame.mpr hi), if_pos hi, sub_self]
    · rw [if_neg (fun heq => hi (hsame.mp heq)), if_neg hi, sub_zero]
  have hlist : c.fps.sum =
      ∑ i ∈ range c.nPegSteps, if (i : ℤ) = c.nSection then 0 else c.pegSum f i := by
    rw [h.fps]
    rfl
  rw [hlist, sum_congr rfl hterm, sum_sub_distrib, sum_pegSum, sum_ite_eq',
    if_pos (mem_range.mpr hin.section_lt), sub_add_cancel]

/-- The values add up to all columns but the ones that no step has. -/
theorem Sums.total (h : c.Sums f) (hin : c.InSteps) :
    c.fps.sum + c.fms.sum + c.lostSum f = window f 0 PEG_SIZE := by
  have hmicro : c.fms.sum = window f c.start (c.start + c.nMicroSteps * c.microStepSize) := by
    rw [← sum_microSum, h.fms]
    rfl
  have hsection := window_consecutive f (Nat.le_add_right c.start (c.nMicroSteps * c.microStepSize))
    (Nat.add_le_add_left c.microSteps_le c.start)
  have hall := window_consecutive f (Nat.zero_le (c.nPegSteps * c.pegStepSize)) c.pegSteps_le
  have hpeg := h.sum_fps hin
  unfold pegSum at hpeg
  unfold lostSum start at *
  omega

theorem ofFractions_eq_some {fr : CFractions} {nSection peg_steps micro_steps : ℤ} :
    ofFractions fr nSection peg_steps micro_steps = some c ↔
      c.nPegSteps = (peg_steps % 2 ^ 16).toNat ∧ c.nMicroSteps = (micro_steps % 2 ^ 8).toNat ∧
        c.nSection = nSection ∧ c.InSteps ∧ c.Sums fr.cols := by
  simp only [ofFractions, CFractions.total_midPart, CFractions.cols_toStd]
  constructor
  · intro h
    split_ifs at h with hsteps
    cases h
    refine ⟨rfl, rfl, rfl, ⟨?_, ?_, ?_, ?_⟩, ⟨rfl, rfl⟩⟩
    all_goals
      dsimp only
      omega
  · rintro ⟨hpeg, hmicro, hsection, hin, hsums⟩
    obtain ⟨n, k, s, fps, fms⟩ := c
    subst hpeg hmicro hsection
    have := hin.nPegSteps
    have := hin.nMicroSteps
    have := hin.nonneg
    have := hin.lt
    dsimp only at *
    rw [if_neg (by omega), Option.some.injEq, mk.injEq]
    exact ⟨rfl, rfl, rfl, hsums.fps.symm, hsums.fms.symm⟩

end Steps

/-! ## What is requested -/

section Requested

variable {c : CCompressedFractions} {f : Columns}

theorem InSteps.start_eq (h : c.InSteps) : c.nSection * (c.pegStepSize : ℤ) = c.start := by
  rw [start, Nat.cast_mul, h.section_eq]

theorem InSteps.microCell_some (h : c.InSteps) {y : ℕ} (hy : y < c.nMicroSteps * c.microStepSize) :
    c.microCell (c.start + y) = some y := by
  have hlt : (y : ℤ) < c.nMicroSteps * c.microStepSize := by exact_mod_cast hy
  simp only [microCell, h.start_eq]
  rw [if_pos (by push_cast; omega), Option.some.injEq]
  omega

theorem InSteps.microCell_none (h : c.InSteps) {x : ℕ}
    (hx : x < c.start ∨ c.start + c.nMicroSteps * c.microStepSize ≤ x) : c.microCell x = none := by
  have hmul : ((c.nMicroSteps * c.microStepSize : ℕ) : ℤ) = c.nMicroSteps * c.microStepSize := by
    push_cast
    rfl
  simp only [microCell, h.start_eq]
  rw [if_neg (by omega)]

theorem requestedCols_micro (h : c.InSteps) {j y : ℕ} (hj : j < c.nMicroSteps)
    (hy : y < c.microStepSize) (hx : c.start + j * c.microStepSize + y < PEG_SIZE) :
    c.requestedCols ⟨c.start + j * c.microStepSize + y, hx⟩ =
      spread (c.fms.getD j 0) c.microStepSize y := by
  have hcell : c.microCell (c.start + j * c.microStepSize + y) = some (j * c.microStepSize + y) := by
    rw [Nat.add_assoc]
    apply h.microCell_some
    have := c.microStep_end_le hj
    omega
  have hdiv : (j * c.microStepSize + y) / c.microStepSize = j := by
    rw [Nat.mul_comm, Nat.mul_add_div (by omega), Nat.div_eq_of_lt hy, Nat.add_zero]
  have hmod : (j * c.microStepSize + y) % c.microStepSize = y := by
    rw [Nat.mul_comm, Nat.mul_add_mod, Nat.mod_eq_of_lt hy]
  simp only [requestedCols, hcell, hdiv, hmod]

theorem requestedCols_peg (h : c.InSteps) {i y : ℕ} (hi : i < c.nPegSteps)
    (hout : i ≠ c.nSection.toNat ∨ c.nMicroSteps * c.microStepSize ≤ y) (hy : y < c.pegStepSize)
    (hx : i * c.pegStepSize + y < PEG_SIZE) :
    c.requestedCols ⟨i * c.pegStepSize + y, hx⟩ = spread (c.fps.getD i 0) c.pegStepSize y := by
  have hcell : c.microCell (i * c.pegStepSize + y) = none := by
    apply h.microCell_none
    have hmicro := c.microSteps_le
    unfold start
    rcases lt_trichotomy i c.nSection.toNat with hlt | heq | hgt
    · have := c.pegStep_end_le hlt
      omega
    · have hbehind : c.nMicroSteps * c.microStepSize ≤ y := hout.resolve_left (not_not.mpr heq)
      rw [heq]
      omega
    · have := c.pegStep_end_le hgt
      omega
  have hlt : i * c.pegStepSize + y < c.nPegSteps * c.pegStepSize := by
    have := c.pegStep_end_le hi
    omega
  have hdiv : (i * c.pegStepSize + y) / c.pegStepSize = i := by
    rw [Nat.mul_comm, Nat.mul_add_div (by omega), Nat.div_eq_of_lt hy, Nat.add_zero]
  have hmod : (i * c.pegStepSize + y) % c.pegStepSize = y := by
    rw [Nat.mul_comm, Nat.mul_add_mod, Nat.mod_eq_of_lt hy]
  simp only [requestedCols, hcell, if_pos hlt, hdiv, hmod]

theorem requestedCols_behind (h : c.InSteps) {x : Fin PEG_SIZE}
    (hx : c.nPegSteps * c.pegStepSize ≤ x) : c.requestedCols x = 0 := by
  have hcell : c.microCell x = none := by
    apply h.microCell_none
    have hend := c.pegStep_end_le h.section_lt
    have hmicro := c.microSteps_le
    unfold start
    omega
  simp only [requestedCols, hcell, if_neg (not_lt.mpr hx)]

theorem microSum_requestedCols (h : c.InSteps) {j : ℕ} (hj : j < c.nMicroSteps) :
    c.microSum c.requestedCols j =
      ∑ y ∈ range c.microStepSize, spread (c.fms.getD j 0) c.microStepSize y := by
  have hend : c.start + j * c.microStepSize + c.microStepSize ≤ PEG_SIZE := by
    have := c.microStep_end_le hj
    have := c.microSteps_le
    have hsection := c.pegStep_le h.section_lt
    unfold start
    omega
  exact window_eq_sum_range hend fun y hy => requestedCols_micro h hj hy _

theorem pegSum_requestedCols (h : c.InSteps) {i : ℕ} (hi : i < c.nPegSteps)
    (hout : i ≠ c.nSection.toNat) :
    c.pegSum c.requestedCols i =
      ∑ y ∈ range c.pegStepSize, spread (c.fps.getD i 0) c.pegStepSize y := by
  exact window_eq_sum_range (c.pegStep_le hi) fun y hy =>
    requestedCols_peg h hi (Or.inl hout) hy _

/-- Nothing is requested from the columns that no step has. -/
theorem lostSum_requestedCols (h : c.InSteps) (hzero : c.fps.getD c.nSection.toNat 0 = 0) :
    c.lostSum c.requestedCols = 0 := by
  have hsection : window c.requestedCols (c.start + c.nMicroSteps * c.microStepSize)
      (c.start + c.pegStepSize) = 0 := by
    apply window_eq_zero
    intro x hlow hhigh
    obtain ⟨y, hy⟩ := Nat.exists_eq_add_of_le ((Nat.le_add_right _ _).trans hlow)
    have hx : c.nSection.toNat * c.pegStepSize + y < PEG_SIZE := hy ▸ x.isLt
    have hcell : x = ⟨c.nSection.toNat * c.pegStepSize + y, hx⟩ := Fin.ext hy
    rw [hcell, requestedCols_peg h h.section_lt (Or.inr (by omega)) (by omega), hzero, spread_zero]
  have hbehind : window c.requestedCols (c.nPegSteps * c.pegStepSize) PEG_SIZE = 0 := by
    apply window_eq_zero
    intro x hlow _
    exact requestedCols_behind h hlow
  rw [lostSum, hsection, hbehind, add_zero]

theorem Sums.getD_fps (h : c.Sums f) {i : ℕ} (hi : i < c.nPegSteps) :
    c.fps.getD i 0 = if (i : ℤ) = c.nSection then 0 else c.pegSum f i := by
  rw [h.fps, List.getD_eq_getElem?_getD, List.getElem?_map, List.getElem?_range hi]
  rfl

theorem Sums.getD_fms (h : c.Sums f) {j : ℕ} (hj : j < c.nMicroSteps) :
    c.fms.getD j 0 = c.microSum f j := by
  rw [h.fms, List.getD_eq_getElem?_getD, List.getElem?_map, List.getElem?_range hj]
  rfl

variable (c) in
structure Even (f : Columns) : Prop where
  peg : ∀ i < c.nPegSteps, (i : ℤ) ≠ c.nSection →
    0 ≤ c.pegSum f i ∨ (c.pegStepSize : ℤ) ∣ c.pegSum f i
  micro : ∀ j < c.nMicroSteps, 0 ≤ c.microSum f j ∨ (c.microStepSize : ℤ) ∣ c.microSum f j

theorem InSteps.ne_section_iff (h : c.InSteps) {i : ℕ} :
    (i : ℤ) ≠ c.nSection ↔ i ≠ c.nSection.toNat := by
  have := h.section_eq
  omega

/-- The sums of the requested columns are the values if and only if these are even. -/
theorem sums_requestedCols_iff (h : c.InSteps) (hsums : c.Sums f) (hsize : 0 < c.microStepSize) :
    c.Sums c.requestedCols ↔ c.Even f := by
  have hpegSize : 0 < c.pegStepSize := by
    have hmicro := c.microSteps_le
    have hpos := Nat.mul_pos h.nMicroSteps hsize
    omega
  have hmicro : ∀ j < c.nMicroSteps, c.microSum f j = c.microSum c.requestedCols j ↔
      0 ≤ c.microSum f j ∨ (c.microStepSize : ℤ) ∣ c.microSum f j := by
    intro j hj
    rw [microSum_requestedCols h hj, hsums.getD_fms hj, eq_comm, sum_spread_eq_iff hsize]
  have hpeg : ∀ i < c.nPegSteps, (i : ℤ) ≠ c.nSection →
      (c.pegSum f i = c.pegSum c.requestedCols i ↔
        0 ≤ c.pegSum f i ∨ (c.pegStepSize : ℤ) ∣ c.pegSum f i) := by
    intro i hi hne
    rw [pegSum_requestedCols h hi (h.ne_section_iff.mp hne), hsums.getD_fps hi, if_neg hne, eq_comm,
      sum_spread_eq_iff hpegSize]
  constructor
  · intro hreq
    constructor
    · intro i hi hne
      rw [← hpeg i hi hne]
      have hold := hsums.getD_fps hi
      rw [hreq.getD_fps hi, if_neg hne, if_neg hne] at hold
      exact hold.symm
    · intro j hj
      rw [← hmicro j hj, ← hsums.getD_fms hj, hreq.getD_fms hj]
  · intro heven
    constructor
    · rw [hsums.fps]
      apply List.map_congr_left
      intro i hi
      split_ifs with hne
      · rfl
      · exact (hpeg i (List.mem_range.mp hi) hne).mpr (heven.peg i (List.mem_range.mp hi) hne)
    · rw [hsums.fms]
      apply List.map_congr_left
      intro j hj
      exact (hmicro j (List.mem_range.mp hj)).mpr (heven.micro j (List.mem_range.mp hj))

/-- There is something to write when the micro steps have columns. -/
theorem requested_eq_some {r : CFractions} (h : c.InSteps) :
    c.requested = some r ↔ 0 < c.microStepSize ∧ r = CFractions.zeroStd.withCols c.requestedCols := by
  have hend : c.nSection * (c.pegStepSize : ℤ) + c.nMicroSteps * c.microStepSize ≤ PEG_SIZE := by
    have hsection := c.pegStep_le h.section_lt
    have hmicro := c.microSteps_le
    have hmul : ((c.nMicroSteps * c.microStepSize : ℕ) : ℤ) = c.nMicroSteps * c.microStepSize := by
      push_cast
      rfl
    rw [h.start_eq, ← hmul]
    unfold start
    omega
  have := h.nPegSteps
  have := h.nMicroSteps
  have := h.nonneg
  unfold requested
  constructor
  · intro hr
    split_ifs at hr with hzero
    cases hr
    exact ⟨by omega, rfl⟩
  · rintro ⟨hsize, rfl⟩
    rw [if_neg (by omega)]

end Requested

end CCompressedFractions

/-! ## Amounts that are kept -/

/-- The values add up to the fractions, and what is requested has the same values and the same
total. Nothing is divided by zero, and no column is outside of the fractions. -/
def CFractions.KeptBy (fr : CFractions) (nSection peg_steps micro_steps : ℤ) : Prop :=
  ∃ c r, CCompressedFractions.ofFractions fr nSection peg_steps micro_steps = some c ∧
    c.fps.sum + c.fms.sum = fr.total ∧ c.requested = some r ∧ r.total = fr.total ∧
    CCompressedFractions.ofFractions r nSection peg_steps micro_steps = some c

/-- The steps of a call without their values. -/
def CCompressedFractions.ofSteps (nSection peg_steps micro_steps : ℤ) : CCompressedFractions where
  nPegSteps := (peg_steps % 2 ^ 16).toNat
  nMicroSteps := (micro_steps % 2 ^ 8).toNat
  nSection
  fps := []
  fms := []

/-- The section is one of the steps, the micro steps have columns, the columns of the fractions
that no step has hold nothing together, and the value of every step is even. -/
structure CFractions.CoveredBy (fr : CFractions) (c : CCompressedFractions) : Prop where
  inSteps : c.InSteps
  size : 0 < c.microStepSize
  lost : c.lostSum fr.cols = 0
  even : c.Even fr.cols

namespace CFractions

open CCompressedFractions

variable {fr : CFractions} {nSection peg_steps micro_steps : ℤ}

/-- Only the steps of compressed fractions decide what they cover. -/
theorem CoveredBy.congr {c d : CCompressedFractions} (h : fr.CoveredBy c)
    (hpeg : c.nPegSteps = d.nPegSteps) (hmicro : c.nMicroSteps = d.nMicroSteps)
    (hsection : c.nSection = d.nSection) : fr.CoveredBy d := by
  obtain ⟨n, k, s, fps, fms⟩ := c
  obtain ⟨n', k', s', fps', fms'⟩ := d
  dsimp only at hpeg hmicro hsection
  subst hpeg hmicro hsection
  exact ⟨⟨h.inSteps.1, h.inSteps.2, h.inSteps.3, h.inSteps.4⟩, h.size, h.lost, ⟨h.even.1, h.even.2⟩⟩

theorem keptBy_iff : fr.KeptBy nSection peg_steps micro_steps ↔
    fr.CoveredBy (ofSteps nSection peg_steps micro_steps) := by
  constructor
  · rintro ⟨c, r, hc, htotal, hr, -, hagain⟩
    obtain ⟨hpeg, hmicro, hsection, hin, hsums⟩ := ofFractions_eq_some.mp hc
    obtain ⟨-, -, -, -, hreq⟩ := ofFractions_eq_some.mp hagain
    obtain ⟨hsize, rfl⟩ := (requested_eq_some hin).mp hr
    rw [cols_withCols] at hreq
    have hall := hsums.total hin
    rw [← fr.total_eq_window] at hall
    have hcovered : fr.CoveredBy c :=
      ⟨hin, hsize, by omega, (sums_requestedCols_iff hin hsums hsize).mp hreq⟩
    exact hcovered.congr hpeg hmicro hsection
  · intro h
    obtain ⟨c, hc⟩ : ∃ c, ofFractions fr nSection peg_steps micro_steps = some c :=
      ⟨{ ofSteps nSection peg_steps micro_steps with
          fps := (List.range (ofSteps nSection peg_steps micro_steps).nPegSteps).map fun i : ℕ =>
            if (i : ℤ) = nSection then 0
            else (ofSteps nSection peg_steps micro_steps).pegSum fr.cols i
          fms := (List.range (ofSteps nSection peg_steps micro_steps).nMicroSteps).map fun j : ℕ =>
            (ofSteps nSection peg_steps micro_steps).microSum fr.cols j },
        ofFractions_eq_some.mpr ⟨rfl, rfl, rfl,
          ⟨h.inSteps.1, h.inSteps.2, h.inSteps.3, h.inSteps.4⟩, ⟨rfl, rfl⟩⟩⟩
    obtain ⟨hpeg, hmicro, hsection, hin, hsums⟩ := ofFractions_eq_some.mp hc
    have hcovered : fr.CoveredBy c := h.congr hpeg.symm hmicro.symm hsection.symm
    have hreq := (sums_requestedCols_iff hin hsums hcovered.size).mpr hcovered.even
    have hall := hsums.total hin
    rw [← fr.total_eq_window, hcovered.lost, add_zero] at hall
    have hzero : c.fps.getD c.nSection.toNat 0 = 0 := by
      rw [hsums.getD_fps hin.section_lt, if_pos hin.section_eq]
    have hback := hreq.total hin
    rw [lostSum_requestedCols hin hzero, add_zero, hall] at hback
    refine ⟨c, _, hc, hall, (requested_eq_some hin).mpr ⟨hcovered.size, rfl⟩, ?_,
      ofFractions_eq_some.mpr ⟨hpeg, hmicro, hsection, hin, ?_⟩⟩
    · rw [total_eq_window, cols_withCols, hback]
    · rwa [cols_withCols]

/-! ## Steps that lose nothing -/

def sectionOf (nPegSupplyIndex pegSteps : ℤ) : ℤ := (nPegSupplyIndex * pegSteps).tdiv PEG_SIZE

/-- Steps that divide the columns evenly, the micro steps as they arrive. -/
def StepsFit (pegSteps microSteps : ℤ) : Prop :=
  0 < pegSteps ∧ pegSteps * (microSteps % 2 ^ 8) ∣ (PEG_SIZE : ℤ)

variable {pegSteps microSteps nPegSupplyIndex : ℤ}

variable (nSection) in
/-- Both numbers of steps, and what they divide. -/
theorem StepsFit.steps (h : StepsFit pegSteps microSteps) :
    ((ofSteps nSection pegSteps microSteps).nPegSteps : ℤ) = pegSteps ∧
      ((ofSteps nSection pegSteps microSteps).nPegSteps *
        (ofSteps nSection pegSteps microSteps).nMicroSteps) ∣ PEG_SIZE := by
  obtain ⟨hpos, hdvd⟩ := h
  have hle : pegSteps ≤ PEG_SIZE :=
    Int.le_of_dvd (by decide) (Dvd.dvd.trans (Dvd.intro _ rfl) hdvd)
  have hpeg : ((ofSteps nSection pegSteps microSteps).nPegSteps : ℤ) = pegSteps := by
    simp only [ofSteps, PEG_SIZE] at hle ⊢
    omega
  have hmicro : ((ofSteps nSection pegSteps microSteps).nMicroSteps : ℤ) = microSteps % 2 ^ 8 := by
    simp only [ofSteps]
    omega
  refine ⟨hpeg, ?_⟩
  rw [← Int.natCast_dvd_natCast, Nat.cast_mul, hpeg, hmicro]
  exact hdvd

/-- Steps whose product divides the columns leave none of them. -/
theorem sizes_of_dvd {c : CCompressedFractions} (h : c.nPegSteps * c.nMicroSteps ∣ PEG_SIZE) :
    c.nPegSteps * c.pegStepSize = PEG_SIZE ∧ c.nMicroSteps * c.microStepSize = c.pegStepSize := by
  obtain ⟨size, hsize⟩ := h
  have hpos : 0 < c.nPegSteps * c.nMicroSteps * size := by
    rw [← hsize]
    decide
  have hn : 0 < c.nPegSteps := Nat.pos_of_mul_pos_right (Nat.pos_of_mul_pos_right hpos)
  have hpeg : c.pegStepSize = c.nMicroSteps * size := by
    rw [pegStepSize, hsize, Nat.mul_assoc, Nat.mul_div_cancel_left _ hn]
  have hk : 0 < c.nMicroSteps := Nat.pos_of_mul_pos_left (Nat.pos_of_mul_pos_right hpos)
  have hmicro : c.microStepSize = size := by
    rw [microStepSize, hpeg, Nat.mul_div_cancel_left _ hk]
  rw [hpeg, hmicro, hsize, Nat.mul_assoc]
  exact ⟨rfl, rfl⟩

theorem StepsFit.coveredBy (h : StepsFit pegSteps microSteps) (hfr : fr.Nonneg)
    (hlow : 0 ≤ nPegSupplyIndex) (hhigh : nPegSupplyIndex ≤ nPegMaxSupplyIndex) :
    fr.CoveredBy (ofSteps (sectionOf nPegSupplyIndex pegSteps) pegSteps microSteps) := by
  obtain ⟨hpeg, hdvd⟩ := h.steps (sectionOf nPegSupplyIndex pegSteps)
  obtain ⟨hall, hsection⟩ := sizes_of_dvd hdvd
  have hpos := h.1
  have hproduct : 0 ≤ nPegSupplyIndex * pegSteps := mul_nonneg hlow hpos.le
  have hbelow : nPegSupplyIndex * pegSteps < pegSteps * PEG_SIZE := by
    rw [mul_comm]
    apply mul_lt_mul_of_pos_left _ hpos
    simp only [nPegMaxSupplyIndex, PEG_SIZE] at hhigh ⊢
    omega
  have hnonneg : 0 ≤ sectionOf nPegSupplyIndex pegSteps := Int.tdiv_nonneg hproduct (by decide)
  have hlt : sectionOf nPegSupplyIndex pegSteps < pegSteps := by
    rw [sectionOf, Int.tdiv_eq_ediv_of_nonneg hproduct]
    exact Int.ediv_lt_of_lt_mul (by decide) hbelow
  generalize sectionOf nPegSupplyIndex pegSteps = nSection at *
  obtain ⟨c, hc⟩ : ∃ c, c = ofSteps nSection pegSteps microSteps := ⟨_, rfl⟩
  rw [← hc] at hpeg hdvd hall hsection ⊢
  have hsize : 0 < c.pegStepSize := by
    by_contra hzero
    rw [Nat.eq_zero_of_not_pos hzero, Nat.mul_zero] at hall
    exact absurd hall (by decide)
  have hmicro : 0 < c.nMicroSteps ∧ 0 < c.microStepSize := by
    rw [← hsection] at hsize
    exact ⟨Nat.pos_of_mul_pos_right hsize, Nat.pos_of_mul_pos_left hsize⟩
  have hsec : c.nSection = nSection := by
    rw [hc]
    rfl
  refine ⟨⟨by omega, hmicro.1, by omega, by omega⟩, hmicro.2, ?_, ?_⟩
  · rw [lostSum, hsection, hall, window_empty _ le_rfl, window_empty _ le_rfl, add_zero]
  · exact ⟨fun i _ _ => Or.inl (window_nonneg hfr), fun j _ => Or.inl (window_nonneg hfr)⟩

/-- An amount in one column is lost when no step has the column. -/
theorem CoveredBy.lost_single {c : CCompressedFractions} {x : Fin PEG_SIZE}
    (h : (singleColumn x 1).CoveredBy c) :
    ¬(c.start + c.nMicroSteps * c.microStepSize ≤ x ∧ x < c.start + c.pegStepSize) ∧
      ¬ c.nPegSteps * c.pegStepSize ≤ x := by
  have hlost := h.lost
  rw [singleColumn, cols_withCols, lostSum, window_single, window_single] at hlost
  have hx := x.isLt
  split_ifs at hlost <;> omega

/-- Steps that lose nothing at any supply index fit. -/
theorem stepsFit_of_coveredBy (h : ∀ fr : CFractions, fr.Nonneg → ∀ nPegSupplyIndex, 0 ≤ nPegSupplyIndex →
    nPegSupplyIndex ≤ nPegMaxSupplyIndex →
    fr.CoveredBy (ofSteps (sectionOf nPegSupplyIndex pegSteps) pegSteps microSteps)) :
    StepsFit pegSteps microSteps := by
  have hmax := (h default nonneg_default nPegMaxSupplyIndex (by decide) le_rfl)
  have hone (x : Fin PEG_SIZE) := (h (singleColumn x 1) (singleColumn_nonneg (by decide) x) 0 le_rfl
    (by decide)).lost_single
  have hzero : sectionOf 0 pegSteps = 0 := by simp [sectionOf]
  rw [hzero] at hone
  obtain ⟨c, hc⟩ : ∃ c, c = ofSteps 0 pegSteps microSteps := ⟨_, rfl⟩
  rw [← hc] at hone
  have hstart : c.start = 0 := by simp [hc, ofSteps, start]
  have hn : (c.nPegSteps : ℤ) = pegSteps % 2 ^ 16 := by
    rw [hc]
    simp only [ofSteps]
    omega
  have hk : (c.nMicroSteps : ℤ) = microSteps % 2 ^ 8 := by
    rw [hc]
    simp only [ofSteps]
    omega
  have hsize : 0 < c.microStepSize := hc ▸ hmax.size
  have hlt : sectionOf nPegMaxSupplyIndex pegSteps < c.nPegSteps := hc ▸ hmax.inSteps.lt
  have hge : 0 ≤ sectionOf nPegMaxSupplyIndex pegSteps := hmax.inSteps.nonneg
  have hnpos : 0 < c.nPegSteps := hc ▸ hmax.inSteps.nPegSteps
  have hkpos : 0 < c.nMicroSteps := hc ▸ hmax.inSteps.nMicroSteps
  -- the steps have columns, so there are no more of them than columns
  have hpegSize : 0 < c.pegStepSize := lt_of_lt_of_le (Nat.mul_pos hkpos hsize) c.microSteps_le
  have hfew : c.nPegSteps ≤ PEG_SIZE :=
    le_trans (Nat.le_mul_of_pos_right _ hpegSize) c.pegSteps_le
  have hpeg : pegSteps = c.nPegSteps := by
    simp only [sectionOf, nPegMaxSupplyIndex, PEG_SIZE] at hlt hge hfew
    rcases le_or_gt 0 pegSteps with hpos | hneg
    · rw [Int.tdiv_eq_ediv_of_nonneg (by omega)] at hlt
      omega
    · have hflip : (1198 * pegSteps).tdiv (1200 : ℕ) = -((1198 * -pegSteps) / 1200) := by
        rw [← Int.tdiv_eq_ediv_of_nonneg (by omega), ← Int.neg_tdiv]
        ring_nf
      omega
  have hall : c.nPegSteps * c.pegStepSize = PEG_SIZE := by
    apply le_antisymm c.pegSteps_le
    have hlast := (hone (Fin.last (PEG_SIZE - 1))).2
    have hval : ((Fin.last (PEG_SIZE - 1) : Fin PEG_SIZE) : ℕ) = PEG_SIZE - 1 := rfl
    rw [hval] at hlast
    omega
  have hsection : c.nMicroSteps * c.microStepSize = c.pegStepSize := by
    apply le_antisymm c.microSteps_le
    by_contra hshort
    have hin : c.nMicroSteps * c.microStepSize < PEG_SIZE := by
      have := c.pegSteps_le
      have := Nat.le_mul_of_pos_left c.pegStepSize hnpos
      omega
    have hcol := (hone ⟨_, hin⟩).1
    rw [hstart] at hcol
    dsimp only at hcol
    omega
  refine ⟨by omega, ?_⟩
  rw [← hk, hpeg]
  refine ⟨c.microStepSize, ?_⟩
  rw [← hall, ← hsection]
  push_cast
  ring

end CFractions

end BitBay
