import BitBay.Base.Script
import Mathlib.Algebra.BigOperators.Fin
import Mathlib.Algebra.Order.BigOperators.Group.Finset

/-!
# Peg fractions

An amount of the peg is a vector of `PEG_SIZE` columns. `CFractions` stores it
either as the vector itself (`STD`) or as one number (`VALUE`) that stands for
its standard distribution; `cols` is the vector in both cases.

The accounting of the peg is stated about `cols`: the total is its sum, `+=` and
`-=` act on it column by column, and the low and the high part below and above a
supply index add up to it.
-/
namespace BitBay

open scoped BigOperators

def PEG_RATE : ℤ := 100
def PEG_SIZE : ℕ := 1200

theorem PEG_SIZE_pos : 0 < PEG_SIZE := by decide

instance : NeZero PEG_SIZE := ⟨PEG_SIZE_pos.ne'⟩

abbrev Columns := Fin PEG_SIZE → ℤ

/-- A loop over the columns decides what holds of all of them. -/
instance {p : Fin PEG_SIZE → Prop} [DecidablePred p] : Decidable (∀ i, p i) :=
  decidable_of_iff ((List.finRange PEG_SIZE).all fun i => p i) (by simp)

inductive NotaryMark
  | notaryF
  | notaryL
  | notaryV
  | notaryC
  deriving DecidableEq

inductive MarkAction
  | markSet
  | markTransfer
  | markColdToFrozen
  deriving DecidableEq

/-- The bits of `nFlags`. Exactly one of `VALUE` and `STD` is set in every object
of the class, so one field holds both. -/
structure Flags where
  std : Bool := false
  notaryF : Bool := false
  notaryL : Bool := false
  notaryV : Bool := false
  notaryC : Bool := false
  deriving DecidableEq, Inhabited

namespace Flags

def set (a : Flags) : NotaryMark → Flags
  | .notaryF => { a with notaryF := true }
  | .notaryL => { a with notaryL := true }
  | .notaryV => { a with notaryV := true }
  | .notaryC => { a with notaryC := true }

def nMarks (a : Flags) : ℕ :=
  a.notaryF.toNat + a.notaryV.toNat + a.notaryL.toNat + a.notaryC.toNat

end Flags

structure CFractions where
  nFlags : Flags := {}
  nLockTime : ℕ := 0
  sReturnAddr : CString := []
  f : Columns := 0

abbrev MapFractions := UInt320 → Option CFractions

/-! ## The standard distribution -/

/-- What is left of `v` after `i` columns took their share. Nothing is taken from
nothing, which keeps the empty amount cheap to evaluate. -/
def stdRest (v : ℤ) : ℕ → ℤ
  | 0 => v
  | i + 1 => if v = 0 then 0 else stdRest (v - v.tdiv PEG_RATE) i

/-- Each column takes a hundredth of what is left, the last one takes the rest. -/
def stdColumns (v : ℤ) : Columns := fun i =>
  if (i : ℕ) = PEG_SIZE - 1 then stdRest v i else (stdRest v i).tdiv PEG_RATE

theorem stdRest_zero (i : ℕ) : stdRest 0 i = 0 := by
  cases i <;> rfl

theorem stdRest_succ (v : ℤ) (i : ℕ) :
    stdRest v (i + 1) = stdRest v i - (stdRest v i).tdiv PEG_RATE := by
  induction i generalizing v with
  | zero =>
    by_cases hv : v = 0
    · subst hv
      rfl
    · simp [stdRest, hv]
  | succ i ih =>
    by_cases hv : v = 0
    · subst hv
      simp [stdRest_zero]
    · have hrest : ∀ k, stdRest v (k + 1) = stdRest (v - v.tdiv PEG_RATE) k := fun k => by
        simp [stdRest, hv]
      rw [hrest, hrest, ih]

theorem stdRest_nonneg {v : ℤ} (hv : 0 ≤ v) (i : ℕ) : 0 ≤ stdRest v i := by
  induction i with
  | zero => exact hv
  | succ i ih =>
    rw [stdRest_succ, Int.tdiv_eq_ediv_of_nonneg ih]
    unfold PEG_RATE
    omega

theorem sum_stdRest (v : ℤ) (n : ℕ) :
    ∑ i ∈ Finset.range n, (stdRest v i).tdiv PEG_RATE + stdRest v n = v := by
  induction n with
  | zero => simp [stdRest]
  | succ n ih =>
    rw [Finset.sum_range_succ, stdRest_succ]
    omega

theorem sum_stdColumns (v : ℤ) : ∑ i, stdColumns v i = v := by
  have hlast := Fin.sum_univ_castSucc (n := PEG_SIZE - 1) (fun i => stdColumns v i)
  have hfront : ∑ i : Fin (PEG_SIZE - 1), stdColumns v i.castSucc =
      ∑ i ∈ Finset.range (PEG_SIZE - 1), (stdRest v i).tdiv PEG_RATE := by
    rw [← Fin.sum_univ_eq_sum_range]
    refine Finset.sum_congr rfl fun i _ => ?_
    have hi : (i : ℕ) ≠ PEG_SIZE - 1 := i.isLt.ne
    simp [stdColumns, hi]
  have hend : stdColumns v (Fin.last (PEG_SIZE - 1)) = stdRest v (PEG_SIZE - 1) := by
    simp [stdColumns]
  rw [hfront, hend, sum_stdRest] at hlast
  exact hlast

theorem stdColumns_nonneg {v : ℤ} (hv : 0 ≤ v) (i : Fin PEG_SIZE) : 0 ≤ stdColumns v i := by
  unfold stdColumns
  split_ifs
  · exact stdRest_nonneg hv i
  · exact Int.tdiv_nonneg (stdRest_nonneg hv i) (by decide)

theorem stdColumns_zero : stdColumns 0 = 0 := by
  funext i
  simp [stdColumns, stdRest_zero]

/-! ## Columns and totals -/

namespace CFractions

instance : Inhabited CFractions := ⟨{}⟩

def zeroStd : CFractions := { nFlags := { std := true } }

def cols (a : CFractions) : Columns := if a.nFlags.std then a.f else stdColumns (a.f 0)

def toStd (a : CFractions) : CFractions :=
  { a with nFlags := { a.nFlags with std := true }, f := a.cols }

def total (a : CFractions) : ℤ := if a.nFlags.std then ∑ i, a.f i else a.f 0

def isPositive (a : CFractions) : Bool := !a.nFlags.std || decide (∀ i, 0 ≤ a.f i)

/-- Replace the columns, which are stored as a vector from then on. -/
def withCols (a : CFractions) (c : Columns) : CFractions :=
  { a with nFlags := { a.nFlags with std := true }, f := c }

instance : Add CFractions := ⟨fun a b => a.withCols (a.cols + b.cols)⟩

instance : Sub CFractions := ⟨fun a b => a.withCols (a.cols - b.cols)⟩

/-- The columns below `supply`. What the source adds to `*total` is the total of the part. -/
def lowPart (a : CFractions) (supply : ℕ) : CFractions :=
  zeroStd.withCols fun i => if (i : ℕ) < supply then a.cols i else 0

def highPart (a : CFractions) (supply : ℕ) : CFractions :=
  zeroStd.withCols fun i => if (i : ℕ) < supply then 0 else a.cols i

/-- Marks, lock time and return address: all but the amount. -/
def marks (a : CFractions) : Flags × ℕ × CString :=
  ({ a.nFlags with std := false }, a.nLockTime, a.sReturnAddr)

/-- Stored as a vector, or still empty. Fractions that were only added to are filled. -/
def Filled (a : CFractions) : Prop := a.nFlags.std = true ∨ a.cols = 0

def Nonneg (a : CFractions) : Prop := ∀ i, 0 ≤ a.cols i

@[simp] theorem cols_withCols (a : CFractions) (c : Columns) : (a.withCols c).cols = c := by
  simp [withCols, cols]

@[simp] theorem cols_default : (default : CFractions).cols = 0 := by
  change stdColumns 0 = 0
  exact stdColumns_zero

@[simp] theorem cols_zeroStd : zeroStd.cols = 0 := rfl

@[simp] theorem cols_toStd (a : CFractions) : a.toStd.cols = a.cols := rfl

@[simp] theorem cols_add (a b : CFractions) : (a + b).cols = a.cols + b.cols :=
  cols_withCols a _

@[simp] theorem cols_sub (a b : CFractions) : (a - b).cols = a.cols - b.cols :=
  cols_withCols a _

theorem total_eq_sum (a : CFractions) : a.total = ∑ i, a.cols i := by
  unfold total cols
  split_ifs
  · rfl
  · exact (sum_stdColumns (a.f 0)).symm

theorem total_withCols (a : CFractions) (c : Columns) : (a.withCols c).total = ∑ i, c i := by
  rw [total_eq_sum, cols_withCols]

@[simp] theorem total_toStd (a : CFractions) : a.toStd.total = a.total := by
  rw [total_eq_sum, total_eq_sum, cols_toStd]

@[simp] theorem total_add (a b : CFractions) : (a + b).total = a.total + b.total := by
  simp [total_eq_sum, Finset.sum_add_distrib]

@[simp] theorem total_sub (a b : CFractions) : (a - b).total = a.total - b.total := by
  simp [total_eq_sum, Finset.sum_sub_distrib]

theorem cols_lowPart (a : CFractions) (supply : ℕ) (i : Fin PEG_SIZE) :
    (a.lowPart supply).cols i = if (i : ℕ) < supply then a.cols i else 0 := by simp [lowPart]

theorem cols_highPart (a : CFractions) (supply : ℕ) (i : Fin PEG_SIZE) :
    (a.highPart supply).cols i = if (i : ℕ) < supply then 0 else a.cols i := by simp [highPart]

theorem lowPart_add_highPart (a : CFractions) (supply : ℕ) :
    (a.lowPart supply).cols + (a.highPart supply).cols = a.cols := by
  funext i
  rw [Pi.add_apply, cols_lowPart, cols_highPart]
  split_ifs <;> simp

/-! ## Signs -/

theorem nonneg_default : (default : CFractions).Nonneg := fun i => by simp

theorem Nonneg.add {a b : CFractions} (ha : a.Nonneg) (hb : b.Nonneg) : (a + b).Nonneg :=
  fun i => by simpa using add_nonneg (ha i) (hb i)

theorem Nonneg.lowPart {a : CFractions} (ha : a.Nonneg) (supply : ℕ) : (a.lowPart supply).Nonneg :=
  fun i => by rw [cols_lowPart]; split_ifs <;> simp [ha i]

theorem Nonneg.highPart {a : CFractions} (ha : a.Nonneg) (supply : ℕ) :
    (a.highPart supply).Nonneg :=
  fun i => by rw [cols_highPart]; split_ifs <;> simp [ha i]

theorem Nonneg.total {a : CFractions} (ha : a.Nonneg) : 0 ≤ a.total := by
  rw [total_eq_sum]
  exact Finset.sum_nonneg fun i _ => ha i

/-- Non-negative fractions without value have no columns. -/
theorem Nonneg.cols_eq_zero {a : CFractions} (ha : a.Nonneg) (ht : a.total ≤ 0) : a.cols = 0 := by
  have hsum : ∑ i, a.cols i = 0 := le_antisymm (a.total_eq_sum ▸ ht) (a.total_eq_sum ▸ ha.total)
  funext i
  exact (Finset.sum_eq_zero_iff_of_nonneg fun i _ => ha i).mp hsum i (Finset.mem_univ i)

def singleColumn (c : Fin PEG_SIZE) (v : ℤ) : CFractions :=
  zeroStd.withCols fun i => if i = c then v else 0

theorem singleColumn_nonneg {v : ℤ} (hv : 0 ≤ v) (c : Fin PEG_SIZE) : (singleColumn c v).Nonneg := by
  intro i
  rw [singleColumn, cols_withCols]
  split_ifs
  · exact hv
  · exact le_rfl

theorem filled_default : (default : CFractions).Filled := Or.inr cols_default

theorem filled_add (a b : CFractions) : (a + b).Filled := Or.inl rfl

/-- `IsPositive` looks at the columns of the vector form only. -/
theorem Filled.nonneg {a : CFractions} (ha : a.Filled) (hpos : a.isPositive = true) :
    a.Nonneg := by
  rcases ha with hstd | hzero
  · simpa [isPositive, Nonneg, cols, hstd] using hpos
  · exact fun i => by simp [hzero]

theorem Nonneg.isPositive {a : CFractions} (ha : a.Nonneg) : a.isPositive = true := by
  simp only [CFractions.isPositive, Bool.or_eq_true, Bool.not_eq_true', decide_eq_true_eq]
  rw [or_iff_not_imp_left, Bool.not_eq_false]
  intro hstd i
  simpa [cols, hstd] using ha i

/-! ## Marks -/

def markLockTime (net : Params) (action : MarkAction) (nFlags : Flags) (nTime nLockTime : ℕ) : ℕ :=
  match action with
  | .markSet =>
    if nFlags.notaryF then nTime + net.pegFrozenTime
    else if nFlags.notaryV then nTime + net.pegVFrozenTime
    else if nFlags.notaryL then 0
    else if nFlags.notaryC then 0
    else nLockTime
  | .markTransfer => nTime
  | .markColdToFrozen => nTime + 4 * net.pegFrozenTime

/-- `none` when the new mark crosses one that is there already. -/
def setMark (net : Params) (a : CFractions) (action : MarkAction) (nMark : NotaryMark)
    (nTime : ℕ) : Option CFractions :=
  let nNewFlags := a.nFlags.set nMark
  if 1 < nNewFlags.nMarks then none
  else some { a with
    nFlags := nNewFlags, nLockTime := markLockTime net action nNewFlags nTime a.nLockTime }

/-- Fractions frozen until the peg's freezing time has passed since `nTime`. -/
def FrozenSince (net : Params) (nTime : ℕ) (a : CFractions) : Prop :=
  a.nFlags.notaryF = true ∧ a.nLockTime = nTime + net.pegFrozenTime

section SetMark

variable {net : Params} {a b : CFractions} {action : MarkAction} {nMark : NotaryMark} {nTime : ℕ}

/-- Marks change the flags and the lock time, nothing else. -/
theorem setMark_eq (h : a.setMark net action nMark nTime = some b) :
    b = { a with
      nFlags := a.nFlags.set nMark
      nLockTime := markLockTime net action (a.nFlags.set nMark) nTime a.nLockTime } := by
  simp only [setMark] at h
  split_ifs at h
  exact (Option.some.inj h).symm

theorem setMark_cols (h : a.setMark net action nMark nTime = some b) : b.cols = a.cols := by
  rw [setMark_eq h]
  cases nMark <;> rfl

theorem setMark_filled (h : a.setMark net action nMark nTime = some b) (ha : a.Filled) :
    b.Filled := by
  rcases ha with hstd | hzero
  · left
    rw [setMark_eq h]
    cases nMark <;> exact hstd
  · right
    rw [setMark_cols h, hzero]

/-- Setting the same mark again changes nothing. -/
theorem setMark_again (h : a.setMark net .markSet nMark nTime = some b) :
    b.setMark net .markSet nMark nTime = some b := by
  have hset : (a.nFlags.set nMark).set nMark = a.nFlags.set nMark := by cases nMark <;> rfl
  have hmarks : ¬ 1 < (a.nFlags.set nMark).nMarks := by
    intro hlt
    simp [setMark, hlt] at h
  rw [setMark_eq h]
  simp only [setMark, hset, hmarks, if_false, Option.some.injEq, mk.injEq, true_and, and_true]
  cases nMark <;> simp [markLockTime, Flags.set]

end SetMark

end CFractions

end BitBay
