import BitBay.Library.Run
import BitBay.Library.Windows
import BitBay.Peg.RatioLoops

/-!
# Compressed fractions

A bridge leaf does not carry all columns. `CCompressedFractions` keeps one value
for each peg step, a run of columns, and splits the step of the current supply
into micro steps. `requested` spreads the values evenly again; `decompress` draws
them from the pool of a bridge, step by step.

Whatever the values are, a draw leaves a non-negative pool non-negative.
-/
namespace BitBay

namespace CFractions

def midPart (a : CFractions) (supply1 supply2 : ℕ) : CFractions :=
  (a.highPart supply1).lowPart supply2

theorem cols_midPart (a : CFractions) (supply1 supply2 : ℕ) (i : Fin PEG_SIZE) :
    (a.midPart supply1 supply2).cols i =
      if supply1 ≤ (i : ℕ) ∧ (i : ℕ) < supply2 then a.cols i else 0 := by
  rw [midPart, cols_lowPart, cols_highPart]
  grind

theorem Nonneg.midPart {a : CFractions} (ha : a.Nonneg) (supply1 supply2 : ℕ) :
    (a.midPart supply1 supply2).Nonneg := (ha.highPart supply1).lowPart supply2

theorem midPart_le {a : CFractions} (ha : a.Nonneg) (supply1 supply2 : ℕ) (i : Fin PEG_SIZE) :
    (a.midPart supply1 supply2).cols i ≤ a.cols i := by
  rw [cols_midPart]
  split_ifs
  · exact le_rfl
  · exact ha i

/-- A part takes from each column at most what is there. A negative part only adds. -/
theorem ratioPart_le_cols {a : CFractions} (ha : a.Nonneg) (p : ℤ) (i : Fin PEG_SIZE) :
    (a.ratioPart p).cols i ≤ a.cols i := by
  rcases le_or_gt 0 p with hp | hp
  · exact (ratioPart_bounds ha hp i).2
  have htotal := ha.total
  have hparts : ∀ i, a.ratioParts p i = - a.ratioParts (-p) i := by
    intro i
    simp only [ratioParts, mulDiv, mul_neg, Int.neg_tdiv, neg_neg]
  have hneg : ∀ i, a.ratioParts p i ≤ 0 := by
    intro i
    rw [hparts]
    have := ratioParts_nonneg ha (by omega : 0 ≤ -p) i
    omega
  have hsum : p ≤ ∑ i, a.ratioParts p i := by
    rcases eq_or_lt_of_le htotal with hzero | hpos
    · have : ∀ i, a.ratioParts p i = 0 := by
        intro i
        simp [ratioParts, mulDiv, ← hzero]
      simp only [this, Finset.sum_const_zero]
      omega
    · have := sum_ratioParts_le ha (by omega : 0 ≤ -p) hpos
      simp only [hparts, Finset.sum_neg_distrib]
      omega
  have hpart : a.ratioPart p = zeroStd.withCols (a.ratioParts p) := by
    simp only [ratioPart, if_neg hp.ne, if_neg (by omega : ¬ a.total < p), if_pos hsum]
  rw [hpart, cols_withCols]
  exact (hneg i).trans (ha i)

/-- `RatioPart` with its division by the total, which it comes to unless the part is zero or
more than the total. `none` is a division by zero. -/
def ratioPartOf (a : CFractions) (nPartValue : ℤ) : Option CFractions :=
  if a.total = 0 ∧ nPartValue < 0 then none else some (a.ratioPart nPartValue)

theorem ratioPartOf_some {a part : CFractions} {p : ℤ} (h : a.ratioPartOf p = some part) :
    part = a.ratioPart p := by
  unfold ratioPartOf at h
  split_ifs at h
  exact (Option.some.inj h).symm

end CFractions

structure CCompressedFractions where
  nPegSteps : ℕ
  nMicroSteps : ℕ
  nSection : ℤ
  fps : List ℤ
  fms : List ℤ
  deriving DecidableEq

namespace CCompressedFractions

/-- The constructor from the sections of a leaf. The steps arrive as `uint16_t` and
`uint8_t`; `none` when it would read behind the sections. -/
def ofSections (sections : List ℤ) (nSection peg_steps micro_steps : ℤ) :
    Option CCompressedFractions :=
  let nPegSteps := (peg_steps % 2 ^ 16).toNat
  let nMicroSteps := (micro_steps % 2 ^ 8).toNat
  if sections.length < nPegSteps + nMicroSteps then none
  else some {
    nPegSteps, nMicroSteps, nSection
    fps := sections.take nPegSteps
    fms := (sections.drop nPegSteps).take nMicroSteps }

/-- The constructor from fractions: a sum for every peg step, and sums for the micro steps of
the one of the section. `none` is a division by zero or a section outside of the steps, whose
micro steps are never set. -/
def ofFractions (fr : CFractions) (nSection peg_steps micro_steps : ℤ) :
    Option CCompressedFractions :=
  let nPegSteps := (peg_steps % 2 ^ 16).toNat
  let nMicroSteps := (micro_steps % 2 ^ 8).toNat
  let peg_step_size := PEG_SIZE / nPegSteps
  let micro_step_size := PEG_SIZE / nPegSteps / nMicroSteps
  let sum (start size : ℕ) : ℤ := (fr.toStd.midPart start (start + size)).total
  if nPegSteps = 0 ∨ nMicroSteps = 0 ∨ nSection < 0 ∨ nPegSteps ≤ nSection then none
  else some {
    nPegSteps, nMicroSteps, nSection
    fps := (List.range nPegSteps).map fun i : ℕ =>
      if (i : ℤ) = nSection then 0 else sum (i * peg_step_size) peg_step_size
    fms := (List.range nMicroSteps).map fun j : ℕ =>
      sum (nSection.toNat * peg_step_size + j * micro_step_size) micro_step_size }

variable (c : CCompressedFractions)

def pegStepSize : ℕ := PEG_SIZE / c.nPegSteps
def microStepSize : ℕ := c.pegStepSize / c.nMicroSteps

/-! ## What a leaf asks for -/

/-- A value spread over `size` cells: cell `j` gets its share, the first cells one more. -/
def spread (value : ℤ) (size j : ℕ) : ℤ :=
  value.tdiv size + if (j : ℤ) < value.tmod size then 1 else 0

/-- The cell of a micro step that a column belongs to, counted from the section. -/
def microCell (i : ℕ) : Option ℕ :=
  let start := c.nSection * c.pegStepSize
  if start ≤ i ∧ (i : ℤ) < start + c.nMicroSteps * c.microStepSize then some (i - start).toNat
  else none

def requestedCols : Columns := fun i =>
  match c.microCell i with
  | some k => spread (c.fms.getD (k / c.microStepSize) 0) c.microStepSize (k % c.microStepSize)
  | none =>
    if (i : ℕ) < c.nPegSteps * c.pegStepSize then
      spread (c.fps.getD (i / c.pegStepSize) 0) c.pegStepSize (i % c.pegStepSize)
    else 0

/-- The fractions that a leaf asks for. `none` stands for a division by zero or for a
section outside of the columns, where the source writes out of bounds. -/
def requested : Option CFractions :=
  if c.nPegSteps = 0 ∨ c.nMicroSteps = 0 ∨ c.microStepSize = 0 ∨ c.nSection < 0 ∨
      PEG_SIZE < c.nSection * c.pegStepSize + c.nMicroSteps * c.microStepSize then none
  else some (CFractions.zeroStd.withCols c.requestedCols)

/-! ## Drawing from a pool -/

structure Draw where
  frPool : CFractions
  fr : CFractions := .zeroStd

def Draw.take (d : Draw) (part : CFractions) : Draw :=
  { frPool := d.frPool - part, fr := d.fr + part }

/-- `short` is the error of the source, `undefined` a division by zero. -/
inductive DrawFailure
  | short
  | undefined

def Draw.takePart (d : Draw) (part : CFractions) (value : ℤ) : Except DrawFailure Draw :=
  match part.ratioPartOf value with
  | none => .error .undefined
  | some taken => .ok (d.take taken)

def Draw.takeValue (d : Draw) (supply1 supply2 : ℕ) (value : ℤ) : Except DrawFailure Draw :=
  let part := d.frPool.midPart supply1 supply2
  if part.total < value then .error .short else d.takePart part value

/-- A micro step that the pool does not cover takes all there is. The second component
is what the micro steps so far are short of, as `int64_t` has it. -/
def microStep (start : ℕ) (r : Draw × ℤ) (m : ℤ × ℕ) : Except DrawFailure (Draw × ℤ) :=
  let part := r.1.frPool.midPart (start + m.2 * c.microStepSize)
    (start + (m.2 + 1) * c.microStepSize)
  if part.total < m.1 then .ok (r.1.take part, wrap64 (r.2 + (m.1 - part.total)))
  else do
    let d ← r.1.takePart part m.1
    return (d, r.2)

def pegStep (d : Draw) (s : ℤ × ℕ) : Except DrawFailure Draw :=
  let start := s.2 * c.pegStepSize
  if (s.2 : ℤ) = c.nSection then do
    let r ← c.fms.zipIdx.foldlM (c.microStep start) (d, 0)
    if 0 < r.2 then r.1.takeValue start (start + c.pegStepSize) r.2 else return r.1
  else d.takeValue start (start + c.pegStepSize) s.1

/-- Draw all values. Fractions without value are the error of the source; `none` is a
division by zero. -/
def decompress (frPool : CFractions) : Option CFractions :=
  if c.nPegSteps = 0 ∨ c.nMicroSteps = 0 then none
  else
    match c.fps.zipIdx.foldlM c.pegStep { frPool } with
    | .error .short => some default
    | .error .undefined => none
    | .ok d => some d.fr

/-! ## A draw stays within the pool -/

/-- A draw splits the pool, and what it leaves is not negative. -/
structure Draw.Splits (pool : CFractions) (d : Draw) : Prop where
  cols : d.fr.cols + d.frPool.cols = pool.cols
  left : d.frPool.Nonneg

variable {c} {pool fr : CFractions} {d d' : Draw}

theorem Draw.Splits.take (h : d.Splits pool) {part : CFractions}
    (hpart : ∀ i, part.cols i ≤ d.frPool.cols i) : (d.take part).Splits pool where
  cols := by
    rw [← h.cols]
    simp only [Draw.take, CFractions.cols_add, CFractions.cols_sub]
    abel
  left := by
    intro i
    have := hpart i
    simp only [Draw.take, CFractions.cols_sub, Pi.sub_apply]
    omega

/-- What a draw takes from columns of the pool leaves the rest of them. -/
theorem Draw.Splits.takePart (h : d.Splits pool) {supply1 supply2 : ℕ} {value : ℤ}
    (hd : d.takePart (d.frPool.midPart supply1 supply2) value = .ok d') : d'.Splits pool := by
  unfold Draw.takePart at hd
  split at hd
  · cases hd
  · rename_i taken htaken
    cases hd
    apply h.take
    intro i
    rw [CFractions.ratioPartOf_some htaken]
    exact (CFractions.ratioPart_le_cols (h.left.midPart _ _) value i).trans
      (CFractions.midPart_le h.left _ _ i)

theorem Draw.Splits.takeValue (h : d.Splits pool) {supply1 supply2 : ℕ} {value : ℤ}
    (hd : d.takeValue supply1 supply2 value = .ok d') : d'.Splits pool := by
  simp only [Draw.takeValue] at hd
  split_ifs at hd
  exact h.takePart hd

theorem microStep_splits {start : ℕ} {r r' : Draw × ℤ} {m : ℤ × ℕ} (h : r.1.Splits pool)
    (hr : c.microStep start r m = .ok r') : r'.1.Splits pool := by
  simp only [microStep] at hr
  split_ifs at hr
  · cases hr
    exact h.take (CFractions.midPart_le h.left _ _)
  · obtain ⟨d, hd, hr⟩ := Run.bind_eq_ok.mp hr
    cases hr
    exact h.takePart hd

theorem microSteps_splits {start : ℕ} {ms : List (ℤ × ℕ)} {r r' : Draw × ℤ}
    (h : r.1.Splits pool) (hr : ms.foldlM (c.microStep start) r = .ok r') : r'.1.Splits pool :=
  Run.foldlM_invariant (P := fun r => r.1.Splits pool) (fun _ _ _ _ => microStep_splits) h hr

theorem pegStep_splits {s : ℤ × ℕ} (h : d.Splits pool) (hd : c.pegStep d s = .ok d') :
    d'.Splits pool := by
  simp only [pegStep] at hd
  split_ifs at hd
  · obtain ⟨r, hr, hd⟩ := Run.bind_eq_ok.mp hd
    have hmicro := microSteps_splits (r := (d, 0)) h hr
    split_ifs at hd
    · exact hmicro.takeValue hd
    · cases hd
      exact hmicro
  · exact h.takeValue hd

theorem pegSteps_splits {steps : List (ℤ × ℕ)} (h : d.Splits pool)
    (hd : steps.foldlM c.pegStep d = .ok d') : d'.Splits pool :=
  Run.foldlM_invariant (P := Draw.Splits pool) (fun _ _ _ _ => pegStep_splits) h hd

theorem Draw.splits_start (hpool : pool.Nonneg) : Draw.Splits pool { frPool := pool } :=
  ⟨by simp, hpool⟩

/-- What is drawn is at most what each column of the pool has. -/
theorem decompress_le (hpool : pool.Nonneg) (h : c.decompress pool = some fr) (i : Fin PEG_SIZE) :
    fr.cols i ≤ pool.cols i := by
  simp only [decompress] at h
  split_ifs at h
  split at h
  · cases h
    simpa using hpool i
  · cases h
  · rename_i d hd
    cases h
    have hsplits := pegSteps_splits (Draw.splits_start hpool) hd
    have hleft := hsplits.left i
    have hcols := congrFun hsplits.cols i
    simp only [Pi.add_apply] at hcols
    omega

end CCompressedFractions

end BitBay
