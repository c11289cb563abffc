import BitBay.Bridge.LeafAmounts

/-!
# Draws of a leaf

`decompress` draws from a pool what the steps of a leaf ask for. A peg step takes its value
from its own columns. In the section every micro step takes what it finds, and what they were
short of comes from the columns of the section together. So a draw of values that are not
negative stays between nothing and the pool and gives every step its value; it comes to an end
when the pool covers the steps.
-/
namespace BitBay

open Finset Shares Windows

def windowCols (f : Columns) (a b : ℕ) : Columns :=
  fun x => if a ≤ (x : ℕ) ∧ (x : ℕ) < b then f x else 0

theorem sum_windowCols (f : Columns) (a b : ℕ) : ∑ x, windowCols f a b x = window f a b :=
  (window_eq_sum f a b).symm

theorem CFractions.cols_midPart_eq (a : CFractions) (supply1 supply2 : ℕ) :
    (a.midPart supply1 supply2).cols = windowCols a.cols supply1 supply2 := by
  funext x
  rw [cols_midPart, windowCols]

namespace CCompressedFractions

variable {c : CCompressedFractions} {pool fr : CFractions} {d d' : Draw}

/-! ## What is taken -/

/-- The columns `q` go from the pool to what is drawn, all of them in one window. -/
structure Draw.Takes (d d' : Draw) (supply1 supply2 : ℕ) (q : Columns) : Prop where
  fr : d'.fr.cols = d.fr.cols + q
  frPool : d'.frPool.cols = d.frPool.cols - q
  std : d'.fr.nFlags.std = true
  outside : ∀ x : Fin PEG_SIZE, ¬(supply1 ≤ x ∧ x < supply2) → q x = 0

section Takes

variable {supply1 supply2 : ℕ} {value : ℤ}

theorem Draw.take_takes {part : CFractions}
    (h : ∀ x : Fin PEG_SIZE, ¬(supply1 ≤ x ∧ x < supply2) → part.cols x = 0) :
    d.Takes (d.take part) supply1 supply2 part.cols where
  fr := CFractions.cols_add _ _
  frPool := CFractions.cols_sub _ _
  std := rfl
  outside := h

theorem midPart_outside (a : CFractions) {x : Fin PEG_SIZE} (hx : ¬(supply1 ≤ x ∧ x < supply2)) :
    (a.midPart supply1 supply2).cols x = 0 := by
  rw [CFractions.cols_midPart, if_neg hx]

/-- A part that is drawn from a window, and its amount when it is not negative. -/
structure Draw.TakesPart (d d' : Draw) (supply1 supply2 : ℕ) (value : ℤ) (q : Columns) : Prop
    extends d.Takes d' supply1 supply2 q where
  le : value ≤ window d.frPool.cols supply1 supply2
  divides : window d.frPool.cols supply1 supply2 ≠ 0 ∨ 0 ≤ value
  nonneg : d.frPool.Nonneg → 0 ≤ value → ∀ x, 0 ≤ q x
  amount : d.frPool.Nonneg → 0 ≤ value → ∑ x, q x = value
  shares : d.frPool.Nonneg → 0 ≤ value → q = share (windowCols d.frPool.cols supply1 supply2) value

theorem Draw.takePart_ok (hle : value ≤ (d.frPool.midPart supply1 supply2).total)
    (h : d.takePart (d.frPool.midPart supply1 supply2) value = .ok d') :
    ∃ q, d.TakesPart d' supply1 supply2 value q := by
  unfold Draw.takePart at h
  split at h
  · cases h
  · rename_i taken htaken
    cases h
    obtain rfl := CFractions.ratioPartOf_some htaken
    have htakes : d.Takes (d.take ((d.frPool.midPart supply1 supply2).ratioPart value))
        supply1 supply2 ((d.frPool.midPart supply1 supply2).ratioPart value).cols :=
      Draw.take_takes fun x hx => CFractions.ratioPart_of_zero (midPart_outside _ hx)
    refine ⟨_, htakes, ?_, ?_, ?_, ?_, ?_⟩
    · rwa [CFractions.total_midPart] at hle
    · unfold CFractions.ratioPartOf at htaken
      rw [CFractions.total_midPart] at htaken
      by_contra hzero
      push Not at hzero
      rw [if_pos hzero] at htaken
      cases htaken
    · intro hpool hvalue x
      exact (CFractions.ratioPart_bounds (hpool.midPart _ _) hvalue x).1
    · intro hpool hvalue
      rw [← CFractions.total_eq_sum]
      exact CFractions.ratioPart_total (hpool.midPart _ _) hvalue hle
    · intro hpool hvalue
      rw [CFractions.ratioPart_cols (hpool.midPart _ _) hvalue hle, CFractions.cols_midPart_eq]

theorem Draw.takePart_total (part : CFractions) (hvalue : 0 ≤ value) :
    ∃ d', d.takePart part value = .ok d' := by
  have hdefined : part.ratioPartOf value = some (part.ratioPart value) :=
    if_neg fun h => absurd h.2 hvalue.not_gt
  refine ⟨d.take (part.ratioPart value), ?_⟩
  rw [Draw.takePart, hdefined]

theorem Draw.takeValue_ok (h : d.takeValue supply1 supply2 value = .ok d') :
    ∃ q, d.TakesPart d' supply1 supply2 value q := by
  simp only [Draw.takeValue] at h
  split_ifs at h with hshort
  exact Draw.takePart_ok (not_lt.mp hshort) h

theorem Draw.takeValue_total (hle : value ≤ window d.frPool.cols supply1 supply2)
    (hvalue : 0 ≤ value) : ∃ d', d.takeValue supply1 supply2 value = .ok d' := by
  simp only [Draw.takeValue, CFractions.total_midPart]
  rw [if_neg (not_lt.mpr hle)]
  exact Draw.takePart_total _ hvalue

/-- A micro step takes its value, or all that there is. -/
theorem microStep_ok {start : ℕ} {r r' : Draw × ℤ} {v : ℤ} {j : ℕ}
    (h : c.microStep start r (v, j) = .ok r') : ∃ q,
      r.1.Takes r'.1 (start + j * c.microStepSize) (start + j * c.microStepSize + c.microStepSize) q ∧
      ((∃ part : CFractions, part.total < v ∧ r'.2 = wrap64 (r.2 + (v - part.total)) ∧
          part = r.1.frPool.midPart (start + j * c.microStepSize)
            (start + j * c.microStepSize + c.microStepSize) ∧ q = part.cols) ∨
        r'.2 = r.2 ∧ r.1.TakesPart r'.1 (start + j * c.microStepSize)
          (start + j * c.microStepSize + c.microStepSize) v q) := by
  have hend : start + (j + 1) * c.microStepSize =
      start + j * c.microStepSize + c.microStepSize := by ring
  simp only [microStep, hend] at h
  split_ifs at h with hshort
  · cases h
    exact ⟨_, Draw.take_takes fun x hx => midPart_outside _ hx, Or.inl ⟨_, hshort, rfl, rfl, rfl⟩⟩
  · obtain ⟨d, hd, hr⟩ := Run.bind_eq_ok.mp h
    cases hr
    obtain ⟨q, htakes⟩ := Draw.takePart_ok (not_lt.mp hshort) hd
    exact ⟨q, htakes.toTakes, Or.inr ⟨rfl, htakes⟩⟩

theorem microStep_total {start : ℕ} {r : Draw × ℤ} {v : ℤ} {j : ℕ} (hv : 0 ≤ v) :
    ∃ r', c.microStep start r (v, j) = .ok r' := by
  simp only [microStep]
  split_ifs
  · exact ⟨_, rfl⟩
  · obtain ⟨d, hd⟩ := Draw.takePart_total (d := r.1) (r.1.frPool.midPart
      (start + j * c.microStepSize) (start + (j + 1) * c.microStepSize)) hv
    refine ⟨(d, r.2), ?_⟩
    rw [hd]
    rfl

end Takes

/-! ## Draws that keep to the pool -/

def Draw.Untouched (d : Draw) (pool : CFractions) (start : ℕ) : Prop :=
  ∀ x : Fin PEG_SIZE, start ≤ x → d.frPool.cols x = pool.cols x

/-- A draw of columns that are not negative, from below `start`. -/
structure Draw.Ahead (d : Draw) (pool : CFractions) (start : ℕ) : Prop where
  splits : d.Splits pool
  std : d.fr.nFlags.std = true
  nonneg : d.fr.Nonneg
  untouched : d.Untouched pool start

section Ahead

variable {a b start : ℕ} {q : Columns}

theorem Draw.Untouched.takes (h : d.Untouched pool start) (ht : d.Takes d' a b q) (hb : b ≤ start) :
    d'.Untouched pool start := by
  intro x hx
  rw [ht.frPool, Pi.sub_apply, ht.outside x (by omega), sub_zero, h x hx]

theorem Draw.Untouched.mono (h : d.Untouched pool a) (hab : a ≤ b) : d.Untouched pool b :=
  fun x hx => h x (hab.trans hx)

theorem Draw.Untouched.window_eq (h : d.Untouched pool a) :
    window d.frPool.cols a b = window pool.cols a b :=
  window_congr fun x hx _ => h x hx

theorem Draw.Untouched.windowCols_eq (h : d.Untouched pool a) :
    windowCols d.frPool.cols a b = windowCols pool.cols a b := by
  funext x
  unfold windowCols
  split_ifs with hx
  · exact h x hx.1
  · rfl

theorem Draw.Ahead.mono (h : d.Ahead pool a) (hab : a ≤ b) : d.Ahead pool b where
  splits := h.splits
  std := h.std
  nonneg := h.nonneg
  untouched := h.untouched.mono hab

theorem Draw.Ahead.takes {stop : ℕ} (h : d.Ahead pool start) (ht : d.Takes d' a b q)
    (hs : d'.Splits pool) (hq : ∀ x, 0 ≤ q x) (hle : start ≤ stop) (hb : b ≤ stop) :
    d'.Ahead pool stop where
  splits := hs
  std := ht.std
  nonneg := by
    intro x
    rw [ht.fr]
    exact add_nonneg (h.nonneg x) (hq x)
  untouched := (h.untouched.mono hle).takes ht hb

/-- Nothing was drawn from columns that are untouched. -/
theorem Draw.Ahead.fr_eq_zero (h : d.Ahead pool start) {x : Fin PEG_SIZE} (hx : start ≤ x) :
    d.fr.cols x = 0 := by
  have hcols := congrFun h.splits.cols x
  rw [Pi.add_apply, h.untouched x hx] at hcols
  omega

/-- What is left of a window is what was not drawn from it. -/
theorem Draw.Splits.window_split (h : d.Splits pool) :
    window d.fr.cols a b + window d.frPool.cols a b = window pool.cols a b := by
  rw [← window_add, h.cols]

/-- Windows beside the one that is drawn from. -/
theorem Draw.Takes.window_disjoint {a' b' : ℕ} (ht : d.Takes d' a b q) (h : b' ≤ a ∨ b ≤ a') :
    window d'.fr.cols a' b' = window d.fr.cols a' b' := by
  apply window_congr
  intro x hlow hhigh
  rw [ht.fr, Pi.add_apply, ht.outside x (by omega), add_zero]

/-- A window around the one that is drawn from. -/
theorem Draw.Takes.window_around {a' b' : ℕ} (ht : d.Takes d' a b q) (ha : a' ≤ a) (hb : b ≤ b') :
    window d'.fr.cols a' b' = window d.fr.cols a' b' + ∑ x, q x := by
  have hall : window q a' b' = ∑ x, q x := by
    rw [window_eq_sum]
    apply sum_congr rfl
    intro x _
    split_ifs with hx
    · rfl
    · exact (ht.outside x (by omega)).symm
  rw [ht.fr, window_add, hall]

end Ahead

/-! ## The steps of a draw -/

variable (c) in
/-- Steps that divide the columns evenly, a section that is one of them, and a value for every
step. -/
structure WellFormed : Prop where
  divides : c.nPegSteps * c.nMicroSteps ∣ PEG_SIZE
  nonneg : 0 ≤ c.nSection
  lt : c.nSection < c.nPegSteps
  fps : c.fps.length = c.nPegSteps
  fms : c.fms.length = c.nMicroSteps

variable (c) in
/-- What is asked of a peg step: its value, or what the micro steps are asked for together. -/
def stepValue (i : ℕ) : ℤ := if (i : ℤ) = c.nSection then c.fms.sum else c.fps.getD i 0

variable (c) in
/-- No value that is read is negative. -/
structure Positive : Prop where
  peg : ∀ i < c.nPegSteps, (i : ℤ) ≠ c.nSection → 0 ≤ c.fps.getD i 0
  micro : ∀ j < c.nMicroSteps, 0 ≤ c.fms.getD j 0

variable (c) in
/-- What the first micro steps of a section from `start` on are short of. -/
def shortfall (f : Columns) (start j : ℕ) : ℤ :=
  ∑ k ∈ range j, max 0 (c.fms.getD k 0 -
    window f (start + k * c.microStepSize) (start + k * c.microStepSize + c.microStepSize))

variable (c) in
def found (f : Columns) (start j : ℕ) : ℤ :=
  ∑ k ∈ range j, min (c.fms.getD k 0)
    (window f (start + k * c.microStepSize) (start + k * c.microStepSize + c.microStepSize))

variable (c) in
def ShortFits (pool : CFractions) : Prop :=
  ∀ i < c.nPegSteps, (i : ℤ) = c.nSection →
    c.shortfall pool.cols (i * c.pegStepSize) c.nMicroSteps < 2 ^ 63

variable (c) in
/-- What a draw takes for a peg step: its value, or what the micro steps find in their columns
and what they are short of, as `int64_t` counts it. -/
def drawValue (f : Columns) (i : ℕ) : ℤ :=
  if (i : ℤ) = c.nSection then
    c.found f (i * c.pegStepSize) c.nMicroSteps +
      max 0 (wrap64 (c.shortfall f (i * c.pegStepSize) c.nMicroSteps))
  else c.fps.getD i 0

variable (c) in
def pegCols (f : Columns) (i : ℕ) : Columns :=
  windowCols f (i * c.pegStepSize) (i * c.pegStepSize + c.pegStepSize)

variable (c) in
def microCols (f : Columns) (start j : ℕ) : Columns :=
  windowCols f (start + j * c.microStepSize) (start + j * c.microStepSize + c.microStepSize)

variable (c) in
/-- The shares of a micro step of a section: of its value, or all that there is. -/
def microShares (f : Columns) (start j : ℕ) : Columns :=
  if ∑ x, c.microCols f start j x < c.fms.getD j 0 then c.microCols f start j
  else share (c.microCols f start j) (c.fms.getD j 0)

variable (c) in
/-- The shares of a section: those of its micro steps, and of what these are short of from the
rest of the section. -/
def sectionShares (f : Columns) (i : ℕ) : Columns :=
  let own := ∑ j ∈ range c.nMicroSteps, c.microShares f (i * c.pegStepSize) j
  own + share (c.pegCols f i - own)
    (max 0 (wrap64 (c.shortfall f (i * c.pegStepSize) c.nMicroSteps)))

variable (c) in
def stepShares (f : Columns) (i : ℕ) : Columns :=
  if (i : ℤ) = c.nSection then c.sectionShares f i else share (c.pegCols f i) (c.fps.getD i 0)

variable (c) in
structure Counted : Prop where
  nPegSteps : 0 < c.nPegSteps
  nMicroSteps : 0 < c.nMicroSteps
  fps : c.fps.length = c.nPegSteps
  fms : c.fms.length = c.nMicroSteps

theorem WellFormed.sizes (h : c.WellFormed) :
    c.nPegSteps * c.pegStepSize = PEG_SIZE ∧ c.nMicroSteps * c.microStepSize = c.pegStepSize :=
  CFractions.sizes_of_dvd h.divides

theorem WellFormed.pegStepSize_pos (h : c.WellFormed) : 0 < c.pegStepSize := by
  by_contra hzero
  have hall := h.sizes.1
  rw [Nat.eq_zero_of_not_pos hzero, Nat.mul_zero] at hall
  exact absurd hall (by decide)

theorem WellFormed.microStepSize_pos (h : c.WellFormed) : 0 < c.microStepSize := by
  have hpos := h.pegStepSize_pos
  rw [← h.sizes.2] at hpos
  exact Nat.pos_of_mul_pos_left hpos

theorem WellFormed.inSteps (h : c.WellFormed) : c.InSteps := by
  have hpos : 0 < c.nPegSteps * c.nMicroSteps :=
    Nat.pos_of_ne_zero fun hzero => absurd (hzero ▸ h.divides) (by decide)
  exact ⟨Nat.pos_of_mul_pos_right hpos, Nat.pos_of_mul_pos_left hpos, h.nonneg, h.lt⟩

theorem WellFormed.counted (h : c.WellFormed) : c.Counted :=
  ⟨h.inSteps.nPegSteps, h.inSteps.nMicroSteps, h.fps, h.fms⟩

section Shares

variable {f : Columns} {a b start : ℕ} {x : Fin PEG_SIZE}

theorem windowCols_outside (hx : ¬(a ≤ x ∧ x < b)) : windowCols f a b x = 0 := if_neg hx

theorem microShares_outside {j : ℕ} (hx : ¬(start + j * c.microStepSize ≤ x ∧
    x < start + j * c.microStepSize + c.microStepSize)) : c.microShares f start j x = 0 := by
  unfold microShares
  split_ifs
  · exact windowCols_outside hx
  · exact share_of_zero (windowCols_outside hx)

/-- The micro steps keep to their section. -/
theorem sum_microShares_outside (hx : ¬(start ≤ x ∧ x < start + c.pegStepSize)) :
    (∑ k ∈ range c.nMicroSteps, c.microShares f start k) x = 0 := by
  rw [Finset.sum_apply]
  refine sum_eq_zero fun k hk => microShares_outside ?_
  have := c.microStep_end_le (mem_range.mp hk)
  have := c.microSteps_le
  omega

end Shares

section Section

variable {s : ℕ} {r r' : Draw × ℤ}

/-- The micro steps before `j` are drawn: what they were short of is counted, and the columns
before the section are as they were. -/
structure MicroDrawn (c : CCompressedFractions) (pool : CFractions) (d : Draw) (start j : ℕ)
    (r : Draw × ℤ) : Prop where
  ahead : r.1.Ahead pool (start + j * c.microStepSize)
  before : ∀ a b, b ≤ start → window r.1.fr.cols a b = window d.fr.cols a b
  short : r.2 = wrap64 (c.shortfall pool.cols start j)
  amount : window r.1.fr.cols start (start + c.pegStepSize) = c.found pool.cols start j
  cols : r.1.fr.cols = d.fr.cols + ∑ k ∈ range j, c.microShares pool.cols start k

theorem MicroDrawn.start {start : ℕ} (h : d.Ahead pool start) : c.MicroDrawn pool d start 0 (d, 0) where
  ahead := by simpa using h
  before := fun _ _ _ => rfl
  short := rfl
  amount := by
    have hzero : window d.fr.cols start (start + c.pegStepSize) = 0 :=
      window_eq_zero fun x hx _ => h.fr_eq_zero hx
    rw [hzero]
    rfl
  cols := by simp

theorem shortfall_succ (f : Columns) (start j : ℕ) : c.shortfall f start (j + 1) =
    c.shortfall f start j + max 0 (c.fms.getD j 0 - window f
      (start + j * c.microStepSize) (start + j * c.microStepSize + c.microStepSize)) :=
  sum_range_succ _ _

theorem shortfall_nonneg (f : Columns) (start j : ℕ) : 0 ≤ c.shortfall f start j :=
  sum_nonneg fun _ _ => le_max_left _ _

theorem found_succ (f : Columns) (start j : ℕ) : c.found f start (j + 1) =
    c.found f start j + min (c.fms.getD j 0) (window f
      (start + j * c.microStepSize) (start + j * c.microStepSize + c.microStepSize)) :=
  sum_range_succ _ _

theorem MicroDrawn.step {start j : ℕ} {v : ℤ} (h : c.MicroDrawn pool d start j r)
    (hj : c.fms[j]? = some v)
    (hv : 0 ≤ v) (hend : (j + 1) * c.microStepSize ≤ c.pegStepSize)
    (hr : c.microStep start r (v, j) = .ok r') : c.MicroDrawn pool d start (j + 1) r' := by
  have hnext : (j + 1) * c.microStepSize = j * c.microStepSize + c.microStepSize := by ring
  have hvalue : c.fms.getD j 0 = v := by rw [List.getD_eq_getElem?_getD, hj, Option.getD_some]
  -- The columns of the micro step are those of the pool.
  have hwindow := h.ahead.untouched.window_eq
    (b := start + j * c.microStepSize + c.microStepSize)
  have hcols : windowCols r.1.frPool.cols (start + j * c.microStepSize)
      (start + j * c.microStepSize + c.microStepSize) = c.microCols pool.cols start j :=
    h.ahead.untouched.windowCols_eq
  have hsplits := microStep_splits h.ahead.splits hr
  rw [hnext] at hend
  obtain ⟨q, htakes, hcase⟩ := microStep_ok hr
  have htaken : (∀ x, 0 ≤ q x) ∧ r'.2 = wrap64 (c.shortfall pool.cols start (j + 1)) ∧
      ∑ x, q x = min v (window pool.cols (start + j * c.microStepSize)
        (start + j * c.microStepSize + c.microStepSize)) ∧ q = c.microShares pool.cols start j := by
    rw [shortfall_succ, microShares, hvalue, ← hwindow, ← hcols, sum_windowCols]
    rcases hcase with ⟨part, hshort, hleft, rfl, rfl⟩ | ⟨hleft, hpart⟩
    · rw [CFractions.total_midPart] at hshort hleft
      refine ⟨h.ahead.splits.left.midPart _ _, ?_, ?_, ?_⟩
      · rw [hleft, h.short, wrap64_add_left, max_eq_right (sub_nonneg.mpr hshort.le)]
      · rw [← CFractions.total_eq_sum, CFractions.total_midPart, min_eq_right hshort.le]
      · rw [if_pos hshort, CFractions.cols_midPart_eq]
    · have hle := hpart.le
      refine ⟨hpart.nonneg h.ahead.splits.left hv, ?_, ?_, ?_⟩
      · rw [hleft, h.short, max_eq_left (sub_nonpos.mpr hle), add_zero]
      · rw [hpart.amount h.ahead.splits.left hv, min_eq_left hle]
      · rw [if_neg (not_lt.mpr hle)]
        exact hpart.shares h.ahead.splits.left hv
  obtain ⟨hnonneg, hshort, hsum, hshares⟩ := htaken
  refine ⟨?_, ?_, hshort, ?_, ?_⟩
  · rw [hnext, ← Nat.add_assoc]
    exact h.ahead.takes htakes hsplits hnonneg (Nat.le_add_right _ _) le_rfl
  · intro a b hb
    rw [htakes.window_disjoint (Or.inl (by omega)), h.before a b hb]
  · rw [htakes.window_around (by omega) (by omega), h.amount, hsum, found_succ, hvalue]
  · rw [htakes.fr, h.cols, sum_range_succ, hshares, add_assoc]

theorem getElem?_eq_getD {l : List ℤ} {i : ℕ} {v : ℤ} (h : l[i]? = some v) : v = l.getD i 0 := by
  rw [List.getD_eq_getElem?_getD, h, Option.getD_some]

/-- The micro steps of the section are drawn. -/
theorem MicroDrawn.all {start : ℕ} (hc : c.Counted) (hpos : c.Positive) (h : d.Ahead pool start)
    (hr : c.fms.zipIdx.foldlM (c.microStep start) (d, 0) = .ok r) :
    c.MicroDrawn pool d start c.nMicroSteps r := by
  have hstep : ∀ j v r r', c.fms[j]? = some v → c.MicroDrawn pool d start j r →
      c.microStep start r (v, j) = .ok r' → c.MicroDrawn pool d start (j + 1) r' := by
    intro j v r r' hj hdrawn hr'
    obtain ⟨hlt, -⟩ := List.getElem?_eq_some_iff.mp hj
    rw [hc.fms] at hlt
    have hend := (Nat.mul_le_mul_right c.microStepSize hlt).trans c.microSteps_le
    exact hdrawn.step hj (getElem?_eq_getD hj ▸ hpos.micro j hlt) hend hr'
  have hall := Run.foldlM_zipIdx_rule hstep (MicroDrawn.start h) hr
  rwa [hc.fms] at hall

/-- The rest of the section is what the micro steps have not taken. -/
theorem MicroDrawn.rest {i : ℕ} (h : c.MicroDrawn pool d (i * c.pegStepSize) c.nMicroSteps r)
    (hd : d.Ahead pool (i * c.pegStepSize)) :
    c.pegCols r.1.frPool.cols i = c.pegCols pool.cols i -
      ∑ k ∈ range c.nMicroSteps, c.microShares pool.cols (i * c.pegStepSize) k := by
  funext x
  have hcols := congrFun h.cols x
  have hsplit := congrFun h.ahead.splits.cols x
  rw [Pi.add_apply] at hcols hsplit
  rw [Pi.sub_apply]
  unfold pegCols windowCols
  split_ifs with hx
  · have := hd.fr_eq_zero hx.1
    omega
  · rw [sum_microShares_outside hx, sub_zero]

/-- The micro steps do not fail. -/
theorem microSteps_total {start : ℕ} (hc : c.Counted) (hpos : c.Positive) (d : Draw) :
    ∃ r, c.fms.zipIdx.foldlM (c.microStep start) (d, 0) = .ok r := by
  apply Run.foldlM_zipIdx_total (P := fun _ _ => True)
  · intro j v r hj _
    obtain ⟨hlt, -⟩ := List.getElem?_eq_some_iff.mp hj
    rw [hc.fms] at hlt
    obtain ⟨r', hr'⟩ : ∃ r', c.microStep start r (v, j) = .ok r' :=
      microStep_total (getElem?_eq_getD hj ▸ hpos.micro j hlt)
    exact ⟨r', hr', trivial⟩
  · trivial

end Section

section Steps

variable {i : ℕ} {v : ℤ}

structure PegDrawn (c : CCompressedFractions) (pool : CFractions) (i : ℕ) (d : Draw) : Prop where
  ahead : d.Ahead pool (i * c.pegStepSize)
  values : ∀ i' < i, c.pegSum d.fr.cols i' = c.drawValue pool.cols i'
  cols : d.fr.cols = ∑ i' ∈ range i, c.stepShares pool.cols i'

theorem PegDrawn.start (hpool : pool.Nonneg) : c.PegDrawn pool 0 { frPool := pool } where
  ahead := ⟨Draw.splits_start hpool, rfl, fun _ => le_rfl, fun _ _ => rfl⟩
  values := fun _ h => absurd h (Nat.not_lt_zero _)
  cols := by
    funext x
    simp

/-- A step that draws its value from its own columns, in the end. -/
theorem PegDrawn.next (h : c.PegDrawn pool i d)
    (hahead : d'.Ahead pool (i * c.pegStepSize + c.pegStepSize))
    (hbefore : ∀ a b, b ≤ i * c.pegStepSize → window d'.fr.cols a b = window d.fr.cols a b)
    (hvalue : c.pegSum d'.fr.cols i = c.drawValue pool.cols i)
    (hcols : d'.fr.cols = d.fr.cols + c.stepShares pool.cols i) : c.PegDrawn pool (i + 1) d' where
  ahead := by
    rw [Nat.add_mul, Nat.one_mul]
    exact hahead
  values := by
    intro i' hi'
    rcases Nat.lt_succ_iff_lt_or_eq.mp hi' with hlt | rfl
    · rw [pegSum, hbefore _ _ (pegStep_end_le hlt)]
      exact h.values i' hlt
    · exact hvalue
  cols := by rw [hcols, h.cols, sum_range_succ]

theorem PegDrawn.step (hc : c.Counted) (hpos : c.Positive) (h : c.PegDrawn pool i d)
    (hi : c.fps[i]? = some v) (hd : c.pegStep d (v, i) = .ok d') : c.PegDrawn pool (i + 1) d' := by
  obtain ⟨hlt, -⟩ := List.getElem?_eq_some_iff.mp hi
  rw [hc.fps] at hlt
  have hsplits := pegStep_splits h.ahead.splits hd
  simp only [pegStep] at hd
  split_ifs at hd with hsection
  · obtain ⟨r, hr, hd⟩ := Run.bind_eq_ok.mp hd
    have hdrawn := MicroDrawn.all hc hpos h.ahead hr
    have hahead := hdrawn.ahead.mono (Nat.add_le_add_left c.microSteps_le (i * c.pegStepSize))
    have hshares : c.stepShares pool.cols i =
        ∑ k ∈ range c.nMicroSteps, c.microShares pool.cols (i * c.pegStepSize) k +
          share (c.pegCols r.1.frPool.cols i) (max 0 r.2) := by
      rw [stepShares, if_pos hsection, sectionShares, ← hdrawn.short, hdrawn.rest h.ahead]
    have hvalue : c.drawValue pool.cols i =
        window r.1.fr.cols (i * c.pegStepSize) (i * c.pegStepSize + c.pegStepSize) + max 0 r.2 := by
      rw [drawValue, if_pos hsection, hdrawn.amount, hdrawn.short]
    split_ifs at hd with hleft
    · obtain ⟨q, hpart⟩ := Draw.takeValue_ok hd
      have hnonneg := hpart.nonneg hahead.splits.left hleft.le
      rw [max_eq_right hleft.le] at hshares hvalue
      apply h.next (hahead.takes hpart.toTakes hsplits hnonneg le_rfl le_rfl)
      · intro a b hb
        rw [hpart.window_disjoint (Or.inl hb), hdrawn.before a b hb]
      · rw [hvalue, pegSum, hpart.window_around le_rfl le_rfl,
          hpart.amount hahead.splits.left hleft.le]
      · rw [hpart.fr, hdrawn.cols, hshares, hpart.shares hahead.splits.left hleft.le, add_assoc]
        rfl
    · cases hd
      rw [max_eq_left (not_lt.mp hleft)] at hshares hvalue
      apply h.next hahead hdrawn.before
      · rw [hvalue, pegSum, add_zero]
      · rw [hshares, share_zero, add_zero, hdrawn.cols]
  · obtain ⟨q, hpart⟩ := Draw.takeValue_ok hd
    have hv : 0 ≤ v := getElem?_eq_getD hi ▸ hpos.peg i hlt hsection
    have hnonneg := hpart.nonneg h.ahead.splits.left hv
    have hzero : window d.fr.cols (i * c.pegStepSize) (i * c.pegStepSize + c.pegStepSize) = 0 :=
      window_eq_zero fun x hx _ => h.ahead.fr_eq_zero hx
    apply h.next (h.ahead.takes hpart.toTakes hsplits hnonneg (Nat.le_add_right _ _) le_rfl)
    · intro a b hb
      exact hpart.window_disjoint (Or.inl hb)
    · rw [pegSum, hpart.window_around le_rfl le_rfl, hpart.amount h.ahead.splits.left hv, hzero,
        zero_add, drawValue, if_neg hsection]
      exact getElem?_eq_getD hi
    · rw [hpart.fr, hpart.shares h.ahead.splits.left hv, stepShares, if_neg hsection,
        ← getElem?_eq_getD hi, h.ahead.untouched.windowCols_eq, pegCols]

/-- A step that the pool covers is drawn. -/
theorem PegDrawn.total (hc : c.Counted) (hpos : c.Positive) (h : c.PegDrawn pool i d)
    (hi : c.fps[i]? = some v) (hcover : c.drawValue pool.cols i ≤ c.pegSum pool.cols i) :
    ∃ d', c.pegStep d (v, i) = .ok d' := by
  obtain ⟨hlt, -⟩ := List.getElem?_eq_some_iff.mp hi
  rw [hc.fps] at hlt
  simp only [pegStep]
  split_ifs with hsection
  · obtain ⟨r, hr⟩ : ∃ r, c.fms.zipIdx.foldlM (c.microStep (i * c.pegStepSize)) (d, 0) = .ok r :=
      microSteps_total hc hpos d
    have hdrawn := MicroDrawn.all hc hpos h.ahead hr
    rw [hr]
    by_cases hleft : 0 < r.2
    · have hsplit := hdrawn.ahead.splits.window_split (a := i * c.pegStepSize)
        (b := i * c.pegStepSize + c.pegStepSize)
      rw [drawValue, if_pos hsection, ← hdrawn.amount, ← hdrawn.short, max_eq_right hleft.le,
        pegSum] at hcover
      obtain ⟨d', hd'⟩ : ∃ d', r.1.takeValue (i * c.pegStepSize)
          (i * c.pegStepSize + c.pegStepSize) r.2 = .ok d' :=
        Draw.takeValue_total (by omega) hleft.le
      refine ⟨d', ?_⟩
      simpa only [bind, Except.bind, if_pos hleft] using hd'
    · refine ⟨r.1, ?_⟩
      simp only [bind, Except.bind, if_neg hleft]
      rfl
  · apply Draw.takeValue_total
    · rw [h.ahead.untouched.window_eq]
      rw [drawValue, if_neg hsection] at hcover
      exact getElem?_eq_getD hi ▸ hcover
    · exact getElem?_eq_getD hi ▸ hpos.peg i hlt hsection

theorem sum_getD (l : List ℤ) : ∑ j ∈ range l.length, l.getD j 0 = l.sum := by
  induction l with
  | nil => rfl
  | cons v l ih =>
    rw [List.length_cons, sum_range_succ', List.sum_cons, add_comm]
    simp [← ih]

/-- What is found and what is missing make up the values of the micro steps. -/
theorem found_add_shortfall (hc : c.Counted) (f : Columns) (start : ℕ) :
    c.found f start c.nMicroSteps + c.shortfall f start c.nMicroSteps = c.fms.sum := by
  rw [found, shortfall, ← sum_add_distrib, ← hc.fms, ← sum_getD]
  refine sum_congr rfl fun k _ => ?_
  omega

/-- The draw takes what is asked for, when the count of what is missing does not overflow. -/
theorem drawValue_eq (hc : c.Counted) {f : Columns} (hfits : (i : ℤ) = c.nSection →
    c.shortfall f (i * c.pegStepSize) c.nMicroSteps < 2 ^ 63) : c.drawValue f i = c.stepValue i := by
  unfold drawValue stepValue
  split_ifs with hsection
  · have hshort := shortfall_nonneg (c := c) f (i * c.pegStepSize) c.nMicroSteps
    rw [wrap64_of_fits ⟨by omega, hfits hsection⟩, max_eq_right hshort, found_add_shortfall hc]
  · rfl

end Steps

/-! ## Whole draws -/

/-- Fractions that give every step its value and take from no column more than is there. -/
structure Drawn (c : CCompressedFractions) (pool fr : CFractions) : Prop where
  nonneg : fr.Nonneg
  le : ∀ x, fr.cols x ≤ pool.cols x
  values : ∀ i < c.nPegSteps, c.pegSum fr.cols i = c.stepValue i

/-- What a draw promises: a result with a value is drawn from the pool as asked, and there is
one when the pool covers the steps, as it does for the leaf of fractions that it covers. -/
structure SoundDraw (c : CCompressedFractions) (pool : CFractions) : Prop where
  drawn : ∀ fr, c.decompress pool = some fr → fr.total ≠ 0 → c.Drawn pool fr
  covered : (∀ i < c.nPegSteps, c.stepValue i ≤ c.pegSum pool.cols i) →
    ∃ fr, c.decompress pool = some fr ∧ fr ≠ default
  leaf : ∀ f, ofFractions f c.nSection c.nPegSteps c.nMicroSteps = some c →
    (∀ x, f.cols x ≤ pool.cols x) → ∃ fr, c.decompress pool = some fr ∧ fr ≠ default

theorem decompress_of_ok (hc : c.Counted)
    (hd : c.fps.zipIdx.foldlM c.pegStep { frPool := pool } = .ok d) :
    c.decompress pool = some d.fr := by
  have := hc.nPegSteps
  have := hc.nMicroSteps
  rw [decompress, if_neg (by omega), hd]

/-- Fractions that are not the error come from a whole draw. -/
theorem ok_of_decompress (h : c.decompress pool = some fr) (hne : fr ≠ default) :
    ∃ d, c.fps.zipIdx.foldlM c.pegStep { frPool := pool } = .ok d ∧ fr = d.fr := by
  simp only [decompress] at h
  split_ifs at h
  split at h
  · exact absurd (Option.some.inj h).symm hne
  · cases h
  · rename_i d hd
    exact ⟨d, hd, (Option.some.inj h).symm⟩

theorem PegDrawn.all (hc : c.Counted) (hpos : c.Positive) (hpool : pool.Nonneg)
    (hd : c.fps.zipIdx.foldlM c.pegStep { frPool := pool } = .ok d) :
    c.PegDrawn pool c.nPegSteps d := by
  have hall := Run.foldlM_zipIdx_rule (P := c.PegDrawn pool)
    (fun _ _ _ _ hi h hs => h.step hc hpos hi hs) (PegDrawn.start hpool) hd
  rwa [hc.fps] at hall

theorem PegDrawn.drawn (hc : c.Counted) (hfits : c.ShortFits pool)
    (h : c.PegDrawn pool c.nPegSteps d) : c.Drawn pool d.fr where
  nonneg := h.ahead.nonneg
  le := by
    intro x
    have hcols := congrFun h.ahead.splits.cols x
    have hleft := h.ahead.splits.left x
    rw [Pi.add_apply] at hcols
    omega
  values := fun i hi => (h.values i hi).trans (drawValue_eq hc (hfits i hi))

theorem default_ne_of_std {fr : CFractions} (h : fr.nFlags.std = true) : fr ≠ default := by
  rintro rfl
  cases h

theorem decompress_covered (hc : c.Counted) (hpos : c.Positive) (hpool : pool.Nonneg)
    (hcover : ∀ i < c.nPegSteps, c.drawValue pool.cols i ≤ c.pegSum pool.cols i) :
    ∃ fr, c.decompress pool = some fr ∧ fr ≠ default := by
  obtain ⟨d, hd⟩ := Run.foldlM_zipIdx_total (P := c.PegDrawn pool) (f := c.pegStep)
    (l := c.fps) (s := { frPool := pool }) (by
      intro i v d hi hdrawn
      obtain ⟨hlt, -⟩ := List.getElem?_eq_some_iff.mp hi
      rw [hc.fps] at hlt
      obtain ⟨d', hd'⟩ := hdrawn.total hc hpos hi (hcover i hlt)
      exact ⟨d', hd', hdrawn.step hc hpos hi hd'⟩) (PegDrawn.start hpool)
  exact ⟨d.fr, decompress_of_ok hc hd,
    default_ne_of_std (PegDrawn.all hc hpos hpool hd).ahead.std⟩

/-- Fractions cover the steps of their own leaf. -/
theorem Sums.stepValue_eq (hc : c.WellFormed) {f : Columns} (h : c.Sums f) {i : ℕ}
    (hi : i < c.nPegSteps) : c.stepValue i = c.pegSum f i := by
  unfold stepValue
  split_ifs with hsection
  · have hmicro : c.fms.sum = ∑ j ∈ range c.nMicroSteps, c.microSum f j := by
      rw [h.fms]
      rfl
    have hstart : c.start = i * c.pegStepSize := by
      rw [start, ← hsection, Int.toNat_natCast]
    rw [hmicro, sum_microSum, hc.sizes.2, hstart, pegSum]
  · rw [h.getD_fps hi, if_neg hsection]

theorem Positive.soundDraw (hc : c.WellFormed) (hpos : c.Positive) (hpool : pool.Nonneg)
    (hfits : c.ShortFits pool) : c.SoundDraw pool where
  drawn := by
    intro fr hfr htotal
    have hne : fr ≠ default := by
      rintro rfl
      exact htotal (by simp [CFractions.total_eq_sum])
    obtain ⟨d, hd, rfl⟩ := ok_of_decompress hfr hne
    exact (PegDrawn.all hc.counted hpos hpool hd).drawn hc.counted hfits
  covered := by
    intro hcover
    refine decompress_covered hc.counted hpos hpool fun i hi => ?_
    exact (drawValue_eq hc.counted (hfits i hi)).trans_le (hcover i hi)
  leaf := by
    intro f hf hle
    obtain ⟨-, -, -, -, hsums⟩ := ofFractions_eq_some.mp hf
    apply decompress_covered hc.counted hpos hpool
    intro i hi
    rw [drawValue_eq hc.counted (hfits i hi), hsums.stepValue_eq hc hi]
    exact window_mono hle

/-! ## Values that are negative -/

section Probe

variable (c) in
/-- A pool with just what the steps ask for, where it is not negative: each value in the first
column of its step. -/
def probe : CFractions :=
  CFractions.zeroStd.withCols fun x =>
    let i := (x : ℕ) / c.pegStepSize
    let y := (x : ℕ) % c.pegStepSize
    if (i : ℤ) = c.nSection then
      if y % c.microStepSize = 0 then max 0 (c.fms.getD (y / c.microStepSize) 0) else 0
    else if y = 0 then max 0 (c.fps.getD i 0) else 0

theorem probe_nonneg : c.probe.Nonneg := by
  intro x
  simp only [probe, CFractions.cols_withCols]
  split_ifs
  · exact le_max_left _ _
  · exact le_rfl
  · exact le_max_left _ _
  · exact le_rfl

theorem sum_first {n : ℕ} (hn : 0 < n) (v : ℤ) :
    ∑ y ∈ range n, (if y = 0 then v else 0) = v := by
  rw [sum_ite_eq', if_pos (mem_range.mpr hn)]

theorem pegSum_probe (hc : c.WellFormed) {i : ℕ} (hi : i < c.nPegSteps) (hne : (i : ℤ) ≠ c.nSection) :
    c.pegSum c.probe.cols i = max 0 (c.fps.getD i 0) := by
  have hpos : 0 < c.pegStepSize := hc.pegStepSize_pos
  rw [pegSum, window_eq_sum_range (v := fun y => if y = 0 then max 0 (c.fps.getD i 0) else 0)
    (c.pegStep_le hi) ?_, sum_first hpos]
  intro y hy
  have hdiv : (i * c.pegStepSize + y) / c.pegStepSize = i := by
    rw [Nat.mul_comm, Nat.mul_add_div hpos, Nat.div_eq_of_lt hy, Nat.add_zero]
  have hmod : (i * c.pegStepSize + y) % c.pegStepSize = y := by
    rw [Nat.mul_comm, Nat.mul_add_mod, Nat.mod_eq_of_lt hy]
  simp only [probe, CFractions.cols_withCols, hdiv, hmod, if_neg hne]

theorem microSum_probe (hc : c.WellFormed) {j : ℕ} (hj : j < c.nMicroSteps) :
    c.microSum c.probe.cols j = max 0 (c.fms.getD j 0) := by
  have hpos : 0 < c.microStepSize := hc.microStepSize_pos
  have hend := c.microStep_end_le hj
  rw [hc.sizes.2] at hend
  have hsection := c.pegStep_le hc.inSteps.section_lt
  have hle : c.start + j * c.microStepSize + c.microStepSize ≤ PEG_SIZE := by
    unfold start
    omega
  rw [microSum, window_eq_sum_range (v := fun y => if y = 0 then max 0 (c.fms.getD j 0) else 0)
    hle ?_, sum_first hpos]
  intro y hy
  have hlt : j * c.microStepSize + y < c.pegStepSize := by omega
  have hdiv : (c.start + j * c.microStepSize + y) / c.pegStepSize = c.nSection.toNat := by
    rw [start, Nat.add_assoc, Nat.mul_comm, Nat.mul_add_div hc.pegStepSize_pos, Nat.div_eq_of_lt hlt,
      Nat.add_zero]
  have hmod : (c.start + j * c.microStepSize + y) % c.pegStepSize = j * c.microStepSize + y := by
    rw [start, Nat.add_assoc, Nat.mul_comm, Nat.mul_add_mod, Nat.mod_eq_of_lt hlt]
  have hdiv' : (j * c.microStepSize + y) / c.microStepSize = j := by
    rw [Nat.mul_comm, Nat.mul_add_div hpos, Nat.div_eq_of_lt hy, Nat.add_zero]
  have hmod' : (j * c.microStepSize + y) % c.microStepSize = y := by
    rw [Nat.mul_comm, Nat.mul_add_mod, Nat.mod_eq_of_lt hy]
  simp only [probe, CFractions.cols_withCols, hdiv, hmod, hdiv', hmod', if_pos hc.inSteps.section_eq]

theorem probe_covers (hc : c.WellFormed) {i : ℕ} (hi : i < c.nPegSteps) :
    c.stepValue i ≤ c.pegSum c.probe.cols i := by
  unfold stepValue
  split_ifs with hsection
  · have hstart : c.start = i * c.pegStepSize := by
      rw [start, ← hsection, Int.toNat_natCast]
    have hsum : c.pegSum c.probe.cols i = ∑ j ∈ range c.nMicroSteps, c.microSum c.probe.cols j := by
      rw [sum_microSum, hc.sizes.2, hstart, pegSum]
    rw [hsum, ← sum_getD, hc.fms]
    apply sum_le_sum
    intro j hj
    rw [microSum_probe hc (mem_range.mp hj)]
    exact le_max_right _ _
  · rw [pegSum_probe hc hi hsection]
    exact le_max_right _ _

/-- What was drawn of the probe so far had no negative value. -/
structure Probed (c : CCompressedFractions) (i : ℕ) (d : Draw) : Prop where
  untouched : d.Untouched c.probe (i * c.pegStepSize)
  peg : ∀ i' < i, (i' : ℤ) ≠ c.nSection → 0 ≤ c.fps.getD i' 0
  micro : c.nSection < i → ∀ j < c.nMicroSteps, 0 ≤ c.fms.getD j 0

/-- A value that comes to the division of the probe's window is not negative. -/
theorem nonneg_of_divides {v w : ℤ} (hw : w = max 0 v) (h : w ≠ 0 ∨ 0 ≤ v) : 0 ≤ v := by
  omega

theorem Probed.micro_all (hc : c.WellFormed) {i : ℕ} (hsection : (i : ℤ) = c.nSection) {r : Draw × ℤ}
    (h : d.Untouched c.probe (i * c.pegStepSize))
    (hr : c.fms.zipIdx.foldlM (c.microStep (i * c.pegStepSize)) (d, 0) = .ok r) :
    r.1.Untouched c.probe (i * c.pegStepSize + c.pegStepSize) ∧
      ∀ j < c.nMicroSteps, 0 ≤ c.fms.getD j 0 := by
  have hstart : i * c.pegStepSize = c.start := by
    rw [start, ← hsection, Int.toNat_natCast]
  rw [hstart] at h hr ⊢
  have hall := Run.foldlM_zipIdx_rule (P := fun j (r : Draw × ℤ) =>
      r.1.Untouched c.probe (c.start + j * c.microStepSize) ∧ ∀ j' < j, 0 ≤ c.fms.getD j' 0)
    (by
      rintro j v r r' hj ⟨huntouched, hbefore⟩ hr'
      obtain ⟨hlt, -⟩ := List.getElem?_eq_some_iff.mp hj
      rw [hc.fms] at hlt
      have hvalue := getElem?_eq_getD hj
      have hprobe : window r.1.frPool.cols (c.start + j * c.microStepSize)
          (c.start + j * c.microStepSize + c.microStepSize) = max 0 v := by
        rw [huntouched.window_eq, hvalue]
        exact microSum_probe hc hlt
      obtain ⟨q, htakes, hcase⟩ := microStep_ok hr'
      have hv : 0 ≤ v := by
        rcases hcase with ⟨part, hshort, -, rfl, -⟩ | ⟨-, hpart⟩
        · rw [CFractions.total_midPart, hprobe] at hshort
          exact absurd (le_max_right 0 v) hshort.not_ge
        · exact nonneg_of_divides hprobe hpart.divides
      constructor
      · have hnext : (j + 1) * c.microStepSize = j * c.microStepSize + c.microStepSize := by ring
        rw [hnext, ← Nat.add_assoc]
        exact (huntouched.mono (Nat.le_add_right _ _)).takes htakes le_rfl
      · intro j' hj'
        rcases Nat.lt_succ_iff_lt_or_eq.mp hj' with hlt' | rfl
        · exact hbefore j' hlt'
        · exact hvalue ▸ hv)
    ⟨by simpa using h, fun _ hj => absurd hj (Nat.not_lt_zero _)⟩ hr
  rwa [hc.fms, hc.sizes.2] at hall

theorem Probed.step (hc : c.WellFormed) {i : ℕ} {v : ℤ} (h : c.Probed i d) (hi : c.fps[i]? = some v)
    (hd : c.pegStep d (v, i) = .ok d') : c.Probed (i + 1) d' := by
  obtain ⟨hlt, -⟩ := List.getElem?_eq_some_iff.mp hi
  rw [hc.fps] at hlt
  have hend : (i + 1) * c.pegStepSize = i * c.pegStepSize + c.pegStepSize := by ring
  simp only [pegStep] at hd
  split_ifs at hd with hsection
  · obtain ⟨r, hr, hd⟩ := Run.bind_eq_ok.mp hd
    obtain ⟨huntouched, hmicro⟩ := Probed.micro_all hc hsection h.untouched hr
    refine ⟨?_, ?_, fun _ => hmicro⟩
    · rw [hend]
      split_ifs at hd
      · obtain ⟨q, hpart⟩ := Draw.takeValue_ok hd
        exact huntouched.takes hpart.toTakes le_rfl
      · cases hd
        exact huntouched
    · intro i' hi' hne
      rcases Nat.lt_succ_iff_lt_or_eq.mp hi' with hlt' | rfl
      · exact h.peg i' hlt' hne
      · exact absurd hsection hne
  · obtain ⟨q, hpart⟩ := Draw.takeValue_ok hd
    have hvalue := getElem?_eq_getD hi
    have hprobe : window d.frPool.cols (i * c.pegStepSize) (i * c.pegStepSize + c.pegStepSize) =
        max 0 v := by
      rw [h.untouched.window_eq, hvalue]
      exact pegSum_probe hc hlt hsection
    refine ⟨?_, ?_, ?_⟩
    · rw [hend]
      exact (h.untouched.mono (Nat.le_add_right _ _)).takes hpart.toTakes le_rfl
    · intro i' hi' hne
      rcases Nat.lt_succ_iff_lt_or_eq.mp hi' with hlt' | rfl
      · exact h.peg i' hlt' hne
      · exact hvalue ▸ nonneg_of_divides hprobe hpart.divides
    · intro hpast
      apply h.micro
      omega

/-- The probe is drawn to the end only when no value is negative. -/
theorem positive_of_probe (hc : c.WellFormed)
    (h : ∃ fr, c.decompress c.probe = some fr ∧ fr ≠ default) : c.Positive := by
  obtain ⟨fr, hfr, hne⟩ := h
  obtain ⟨d, hd, -⟩ := ok_of_decompress hfr hne
  have hall := Run.foldlM_zipIdx_rule (P := c.Probed) (fun _ _ _ _ hi h hs => h.step hc hi hs)
    ⟨fun _ _ => rfl, fun _ h => absurd h (Nat.not_lt_zero _),
      fun h => absurd hc.nonneg (by omega)⟩ hd
  rw [hc.fps] at hall
  exact ⟨hall.peg, hall.micro hc.lt⟩

end Probe

/-- The micro steps find their values in the probe. -/
theorem probe_shortFits (hc : c.WellFormed) : c.ShortFits c.probe := by
  intro i hi hsection
  have hstart : i * c.pegStepSize = c.start := by
    rw [start, ← hsection, Int.toNat_natCast]
  have hzero : c.shortfall c.probe.cols c.start c.nMicroSteps = 0 := by
    refine sum_eq_zero fun k hk => max_eq_left (sub_nonpos.mpr ?_)
    have hprobe := microSum_probe hc (mem_range.mp hk)
    rw [microSum] at hprobe
    rw [hprobe]
    exact le_max_right _ _
  rw [hstart, hzero]
  decide

/-- Values 5 and 0 for two peg steps, the second one with three micro steps. -/
def sampleLeafValues : CCompressedFractions where
  nPegSteps := 2
  nMicroSteps := 3
  nSection := 1
  fps := [5, 0]
  fms := [1, 0, 2]

/-- A value of -1 is drawn from no coins: the part is divided by zero. -/
theorem negative_value_divides :
    (CCompressedFractions.mk 1 1 0 [0] [-1]).decompress CFractions.zeroStd = none := by
  have hnone : ((CCompressedFractions.mk 1 1 0 [0] [-1]).decompress CFractions.zeroStd).isNone := by
    decide +kernel
  exact Option.isNone_iff_eq_none.mp hnone

/-- Two micro steps are asked for what fits into `int64_t`, and what they are short of does
not: 5 is drawn and taken for the whole. -/
theorem large_values_overflow :
    ((CCompressedFractions.mk 1 2 0 [0] [2 ^ 63 - 1, 2 ^ 63 - 1]).decompress
      (CFractions.singleColumn 7 5)).map CFractions.total = some 5 := by
  decide +kernel

end CCompressedFractions

end BitBay
