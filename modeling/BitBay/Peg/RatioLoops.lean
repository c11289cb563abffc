import BitBay.Peg.Ratio

/-!
# The loops of the ratio parts

`RatioPart` and `MoveRatioPartTo` are two separately written pairs of loops over
`int64_t`: one over the columns, with a switch to `uint128_t` where a product
overflows, and one that hands out the remainder. This module has them as they
are written, with every value stored in 64 bits. A `while` loop counts its
rounds, and is `none` when they are used up or when a column outside is touched.

For non-negative columns whose sum fits into 64 bits both end, and both compute
what `ratioPart` and `moveRatioPartTo` say over the integers.
-/
namespace BitBay

open Apportion

def wrap64 (v : ℤ) : ℤ := v.bmod (2 ^ 64)

def FitsInt64 (v : ℤ) : Prop := -2 ^ 63 ≤ v ∧ v < 2 ^ 63

instance (v : ℤ) : Decidable (FitsInt64 v) := inferInstanceAs (Decidable (_ ∧ _))

theorem wrap64_of_fits {v : ℤ} (h : FitsInt64 v) : wrap64 v = v := by
  unfold FitsInt64 at h
  unfold wrap64
  exact Int.bmod_eq_of_le (by omega) (by omega)

theorem FitsInt64.of_le {v w : ℤ} (hv : 0 ≤ v) (hvw : v ≤ w) (hw : w < 2 ^ 63) : FitsInt64 v := by
  unfold FitsInt64
  omega

theorem wrap64_add_left (v w : ℤ) : wrap64 (wrap64 v + w) = wrap64 (v + w) := Int.bmod_add_bmod

def mulOverflows (v part : ℤ) : Bool := decide (¬ FitsInt64 (v * part))

/-- One column of the loops. Values are positive where the wide path is taken, so the
quotient of `uint128_t` is the one of the integers; above the largest `int64_t` it is converted
to that. -/
def columnPart (v nPartValue nTotalValue : ℤ) : ℤ :=
  if mulOverflows v nPartValue then
    let v128 := v % 2 ^ 128
    let part128 := nPartValue % 2 ^ 128
    min (v128 * part128 % 2 ^ 128 / nTotalValue) (2 ^ 63 - 1)
  else wrap64 ((v * nPartValue).tdiv nTotalValue)

namespace CFractions

def total64 (a : CFractions) : ℤ :=
  if a.nFlags.std then (List.finRange PEG_SIZE).foldl (fun nValue i => wrap64 (nValue + a.f i)) 0
  else a.f 0

structure PartLoop where
  adjust_from : ℕ := PEG_SIZE
  nPartValueSum : ℤ := 0
  fPart : Columns := 0

def PartLoop.column (f : Columns) (nPartValue nTotalValue : ℤ) (s : PartLoop)
    (i : Fin PEG_SIZE) : PartLoop where
  adjust_from := if f i ≠ 0 ∧ (i : ℕ) < s.adjust_from then i else s.adjust_from
  nPartValueSum := wrap64 (s.nPartValueSum + columnPart (f i) nPartValue nTotalValue)
  fPart := Function.update s.fPart i (columnPart (f i) nPartValue nTotalValue)

structure MoveLoop where
  adjust_from : ℕ := PEG_SIZE
  nPartValueSum : ℤ := 0
  f : Columns
  bf : Columns

def MoveLoop.column (nPartValue nTotalValue : ℤ) (s : MoveLoop) (i : Fin PEG_SIZE) : MoveLoop :=
  let v := s.f i
  let vp := columnPart v nPartValue nTotalValue
  { adjust_from := if v ≠ 0 ∧ (i : ℕ) < s.adjust_from then i else s.adjust_from
    nPartValueSum := wrap64 (s.nPartValueSum + vp)
    f := Function.update s.f i (wrap64 (v - vp))
    bf := Function.update s.bf i (wrap64 (s.bf i + vp)) }

def partRounds (f : Columns) (adjust_from : ℕ) : ℕ → ℕ → ℤ → Columns → Option Columns
  | rounds, idx, nAdjustValue, fPart =>
    if nAdjustValue ≤ 0 then some fPart
    else match rounds with
      | 0 => none
      | rounds + 1 =>
        if h : idx < PEG_SIZE then
          if fPart ⟨idx, h⟩ < f ⟨idx, h⟩ then
            partRounds f adjust_from rounds (wrap PEG_SIZE adjust_from idx) (nAdjustValue - 1)
              (Function.update fPart ⟨idx, h⟩ (wrap64 (fPart ⟨idx, h⟩ + 1)))
          else partRounds f adjust_from rounds (wrap PEG_SIZE adjust_from idx) nAdjustValue fPart
        else none

def moveRounds (adjust_from : ℕ) : ℕ → ℕ → ℤ → Columns → Columns → Option (Columns × Columns)
  | rounds, idx, nAdjustValue, f, bf =>
    if nAdjustValue ≤ 0 then some (f, bf)
    else match rounds with
      | 0 => none
      | rounds + 1 =>
        if h : idx < PEG_SIZE then
          if 0 < f ⟨idx, h⟩ then
            moveRounds adjust_from rounds (wrap PEG_SIZE adjust_from idx) (nAdjustValue - 1)
              (Function.update f ⟨idx, h⟩ (wrap64 (f ⟨idx, h⟩ - 1)))
              (Function.update bf ⟨idx, h⟩ (wrap64 (bf ⟨idx, h⟩ + 1)))
          else moveRounds adjust_from rounds (wrap PEG_SIZE adjust_from idx) nAdjustValue f bf
        else none

/-- `RatioPart`, with at most `rounds` rounds of the second loop. -/
def ratioPart64 (rounds : ℕ) (a : CFractions) (nPartValue : ℤ) : Option CFractions :=
  let nTotalValue := a.toStd.total64
  if nPartValue = 0 then some zeroStd
  else if nTotalValue < nPartValue then some a.toStd
  else
    let s := (List.finRange PEG_SIZE).foldl (PartLoop.column a.cols nPartValue nTotalValue) {}
    if nPartValue ≤ s.nPartValueSum then some (zeroStd.withCols s.fPart)
    else do
      let fPart ← partRounds a.cols s.adjust_from rounds s.adjust_from
        (nPartValue - s.nPartValueSum) s.fPart
      some (zeroStd.withCols fPart)

/-- `MoveRatioPartTo`: the amount not moved, the source and the destination. -/
def moveRatioPartTo64 (rounds : ℕ) (a b : CFractions) (nValueToMove : ℤ) :
    Option (ℤ × CFractions × CFractions) :=
  let nTotalValue := a.total64
  if nTotalValue = 0 then some (nValueToMove, a, b)
  else if nValueToMove = 0 then some (0, a, b)
  else if nTotalValue ≤ nValueToMove then
    some (nValueToMove - nTotalValue, a.withCols 0,
      b.withCols fun i => wrap64 (b.cols i + a.cols i))
  else
    let s := (List.finRange PEG_SIZE).foldl (MoveLoop.column nValueToMove nTotalValue)
      { f := a.cols, bf := b.cols }
    if nValueToMove ≤ s.nPartValueSum then some (0, a.withCols s.f, b.withCols s.bf)
    else do
      let moved ← moveRounds s.adjust_from rounds s.adjust_from (nValueToMove - s.nPartValueSum)
        s.f s.bf
      some (0, a.withCols moved.1, b.withCols moved.2)

/-! ## Single values -/

/-- The wide product and the narrow one give the same quotient. -/
theorem columnPart_eq {v part total : ℤ} (hv : 0 ≤ v) (hvt : v ≤ total) (hp : 0 ≤ part)
    (hpt : part ≤ total) (htotal : 0 < total) (hfit : total < 2 ^ 63) :
    columnPart v part total = mulDiv v part total := by
  have hquot : FitsInt64 (mulDiv v part total) :=
    .of_le (mulDiv_nonneg hv hp htotal.le) (mulDiv_le hv hp hpt htotal) (by omega)
  have hprod : v * part < 2 ^ 128 := by
    calc v * part ≤ 2 ^ 63 * 2 ^ 63 := mul_le_mul (by omega) (by omega) hp (by norm_num)
      _ < 2 ^ 128 := by norm_num
  unfold columnPart
  split_ifs with hover
  · have hwide : v % 2 ^ 128 * (part % 2 ^ 128) % 2 ^ 128 = v * part := by
      rw [Int.emod_eq_of_lt hv (by omega), Int.emod_eq_of_lt hp (by omega),
        Int.emod_eq_of_lt (mul_nonneg hv hp) hprod]
    simp only [hwide]
    rw [← mulDiv_eq_ediv hv hp]
    have hlt := hquot.2
    omega
  · exact wrap64_of_fits hquot

theorem foldl_wrap64 (g : Fin PEG_SIZE → ℤ) (l : List (Fin PEG_SIZE)) {s : ℤ} (hs : FitsInt64 s) :
    l.foldl (fun nValue i => wrap64 (nValue + g i)) s = wrap64 (s + (l.map g).sum) := by
  suffices h : ∀ s, l.foldl (fun nValue i => wrap64 (nValue + g i)) (wrap64 s) =
      wrap64 (s + (l.map g).sum) by
    rw [← h, wrap64_of_fits hs]
  intro s
  induction l generalizing s with
  | nil => simp
  | cons i l ih =>
    rw [List.foldl_cons, wrap64_add_left, ih, List.map_cons, List.sum_cons, add_assoc]

section Loops

variable {a : CFractions} {p : ℤ}

theorem col_le_total (ha : a.Nonneg) (i : Fin PEG_SIZE) : a.cols i ≤ a.total := by
  rw [total_eq_sum]
  exact Finset.single_le_sum (fun j _ => ha j) (Finset.mem_univ i)

theorem total64_eq (ha : a.Nonneg) (hfit : a.total < 2 ^ 63) : a.total64 = a.total := by
  have htotal := ha.total
  unfold total64 total at *
  split_ifs at * with hstd
  · have hsum : ((List.finRange PEG_SIZE).map a.f).sum = ∑ i, a.f i :=
      (Fin.sum_univ_def a.f).symm
    rw [foldl_wrap64 a.f _ (by decide), hsum, zero_add]
    exact wrap64_of_fits (.of_le htotal le_rfl hfit)
  · rfl

/-! ## The loops over the columns -/

/-- The first column that is not zero, as both loops look for it. -/
theorem foldl_first (c : Columns) (l : List (Fin PEG_SIZE)) (r : ℕ) :
    let first := l.foldl (fun r i => if c i ≠ 0 ∧ (i : ℕ) < r then (i : ℕ) else r) r
    first ≤ r ∧ (∀ i ∈ l, c i ≠ 0 → first ≤ i) ∧
      (first = r ∨ ∃ i ∈ l, c i ≠ 0 ∧ first = i) := by
  induction l generalizing r with
  | nil => simp
  | cons j l ih =>
    obtain ⟨hle, hmin, hmem⟩ := ih (if c j ≠ 0 ∧ (j : ℕ) < r then (j : ℕ) else r)
    rw [List.foldl_cons]
    refine ⟨?_, ?_, ?_⟩
    · split_ifs at hle ⊢ <;> omega
    · intro i hi hc
      rcases List.mem_cons.mp hi with rfl | hi
      · by_cases hr : (i : ℕ) < r
        · simpa [hc, hr] using hle
        · simp only [hr, and_false, if_false] at hle ⊢
          omega
      · exact hmin i hi hc
    · rcases hmem with hfirst | ⟨i, hi, hc, hfirst⟩
      · by_cases hj : c j ≠ 0 ∧ (j : ℕ) < r
        · exact Or.inr ⟨j, List.mem_cons_self, hj.1, by simpa [hj] using hfirst⟩
        · exact Or.inl (by simpa [hj] using hfirst)
      · exact Or.inr ⟨i, List.mem_cons_of_mem _ hi, hc, hfirst⟩

theorem foldl_first_eq {c : Columns} (h : ∃ i, c i ≠ 0) :
    (List.finRange PEG_SIZE).foldl
      (fun r i => if c i ≠ 0 ∧ (i : ℕ) < r then (i : ℕ) else r) PEG_SIZE = adjustFrom c := by
  obtain ⟨hle, hmin, hmem⟩ := foldl_first c (List.finRange PEG_SIZE) PEG_SIZE
  have hlt := adjustFrom_lt h
  have hcol : c ⟨adjustFrom c, hlt⟩ ≠ 0 := by
    have hfound := @List.findIdx_getElem _ (fun i => decide (c i ≠ 0)) (List.finRange PEG_SIZE)
      (by simpa [adjustFrom] using hlt)
    simpa [adjustFrom] using hfound
  have hup := hmin _ (List.mem_finRange _) hcol
  rcases hmem with hfirst | ⟨i, -, hi, hfirst⟩
  · dsimp only at hup
    omega
  · have hnot : ¬ (i : ℕ) < adjustFrom c := fun hlow => hi (eq_zero_of_lt_adjustFrom hlow)
    dsimp only at hup
    omega

/-- What the loop of `RatioPart` leaves, column by column. -/
theorem foldl_partColumn (f : Columns) (nPartValue nTotalValue : ℤ) (l : List (Fin PEG_SIZE))
    (s : PartLoop) :
    l.foldl (PartLoop.column f nPartValue nTotalValue) s =
      { adjust_from :=
          l.foldl (fun r i => if f i ≠ 0 ∧ (i : ℕ) < r then (i : ℕ) else r) s.adjust_from
        nPartValueSum := l.foldl
          (fun r i => wrap64 (r + columnPart (f i) nPartValue nTotalValue)) s.nPartValueSum
        fPart := fun i =>
          if i ∈ l then columnPart (f i) nPartValue nTotalValue else s.fPart i } := by
  induction l generalizing s with
  | nil => simp
  | cons j l ih =>
    rw [List.foldl_cons, ih]
    simp only [PartLoop.column, List.foldl_cons, PartLoop.mk.injEq, true_and]
    funext i
    by_cases hi : i ∈ l
    · simp [hi]
    · rcases eq_or_ne i j with rfl | hij
      · simp
      · simp [hi, hij]

/-- The loop of `MoveRatioPartTo` reads each column before it writes it, so it finds what the
loop of `RatioPart` finds, and moves it. -/
theorem foldl_moveColumn (f : Columns) (nPartValue nTotalValue : ℤ) {l : List (Fin PEG_SIZE)}
    (hl : l.Nodup) (s : MoveLoop) (hf : ∀ i ∈ l, s.f i = f i) :
    l.foldl (MoveLoop.column nPartValue nTotalValue) s =
      { adjust_from :=
          l.foldl (fun r i => if f i ≠ 0 ∧ (i : ℕ) < r then (i : ℕ) else r) s.adjust_from
        nPartValueSum := l.foldl
          (fun r i => wrap64 (r + columnPart (f i) nPartValue nTotalValue)) s.nPartValueSum
        f := fun i =>
          if i ∈ l then wrap64 (f i - columnPart (f i) nPartValue nTotalValue) else s.f i
        bf := fun i => if i ∈ l then
          wrap64 (s.bf i + columnPart (f i) nPartValue nTotalValue) else s.bf i } := by
  induction l generalizing s with
  | nil => simp
  | cons j l ih =>
    have hj : s.f j = f j := hf j List.mem_cons_self
    have hnot : j ∉ l := (List.nodup_cons.mp hl).1
    have hkeep : ∀ i ∈ l, (MoveLoop.column nPartValue nTotalValue s j).f i = f i := by
      intro i hi
      have hne : i ≠ j := fun h => hnot (h ▸ hi)
      simpa [MoveLoop.column, hne] using hf i (List.mem_cons_of_mem _ hi)
    rw [List.foldl_cons, ih (List.nodup_cons.mp hl).2 _ hkeep]
    simp only [MoveLoop.column, List.foldl_cons, hj, MoveLoop.mk.injEq, true_and]
    constructor <;> funext i
    all_goals
      by_cases hi : i ∈ l
      · have hne : i ≠ j := fun h => hnot (h ▸ hi)
        simp [hi, hne]
      · rcases eq_or_ne i j with rfl | hij
        · simp [hi]
        · simp [hi, hij]

structure Partial (a : CFractions) (p : ℤ) : Prop where
  nonneg : a.Nonneg
  part_nonneg : 0 ≤ p
  part_le : p ≤ a.total
  total_pos : 0 < a.total
  total_lt : a.total < 2 ^ 63

namespace Partial

theorem columnPart_eq (h : a.Partial p) (i : Fin PEG_SIZE) :
    columnPart (a.cols i) p a.total = a.ratioParts p i :=
  BitBay.CFractions.columnPart_eq (h.nonneg i) (col_le_total h.nonneg i) h.part_nonneg h.part_le
    h.total_pos h.total_lt

theorem sum_eq (h : a.Partial p) :
    (List.finRange PEG_SIZE).foldl (fun r i => wrap64 (r + columnPart (a.cols i) p a.total)) 0 =
      ∑ i, a.ratioParts p i := by
  have hsum : ((List.finRange PEG_SIZE).map fun i => columnPart (a.cols i) p a.total).sum =
      ∑ i, a.ratioParts p i := by
    rw [Fin.sum_univ_def]
    exact congrArg List.sum (List.map_congr_left fun i _ => h.columnPart_eq i)
  have hle := sum_ratioParts_le h.nonneg h.part_nonneg h.total_pos
  have hlt := h.total_lt
  have hpt := h.part_le
  rw [foldl_wrap64 _ _ (by decide), hsum, zero_add]
  exact wrap64_of_fits (.of_le (Finset.sum_nonneg fun i _ =>
    ratioParts_nonneg h.nonneg h.part_nonneg i) hle (by omega))

theorem partLoop_eq (h : a.Partial p) :
    (List.finRange PEG_SIZE).foldl (PartLoop.column a.cols p a.total) {} =
      { adjust_from := adjustFrom a.cols
        nPartValueSum := ∑ i, a.ratioParts p i
        fPart := a.ratioParts p } := by
  rw [foldl_partColumn, h.sum_eq, foldl_first_eq (exists_ne_zero_of_total h.total_pos.ne')]
  simp only [List.mem_finRange, if_true, PartLoop.mk.injEq, true_and]
  exact funext h.columnPart_eq

theorem moveLoop_eq (h : a.Partial p) (b : Columns) :
    (List.finRange PEG_SIZE).foldl (MoveLoop.column p a.total) { f := a.cols, bf := b } =
      { adjust_from := adjustFrom a.cols
        nPartValueSum := ∑ i, a.ratioParts p i
        f := a.cols - a.ratioParts p
        bf := fun i => wrap64 (b i + a.ratioParts p i) } := by
  rw [foldl_moveColumn a.cols p a.total (List.nodup_finRange _) _ fun _ _ => rfl]
  rw [h.sum_eq, foldl_first_eq (exists_ne_zero_of_total h.total_pos.ne')]
  simp only [List.mem_finRange, if_true, h.columnPart_eq, MoveLoop.mk.injEq, true_and, and_true]
  funext i
  have hlow := ratioParts_nonneg h.nonneg h.part_nonneg i
  have hhigh := ratioParts_le h.nonneg h.part_nonneg h.part_le h.total_pos i
  have hcol := col_le_total h.nonneg i
  have hlt := h.total_lt
  exact wrap64_of_fits (.of_le (by omega) (show _ ≤ a.cols i by omega) (by omega))

end Partial

/-! ## The loops over the remainder -/

/-- The rounds of `RatioPart` are the walk `topUp`, once there are enough of them. -/
theorem partRounds_eq {f q : Columns} (hf : ∀ i, f i < 2 ^ 63) (hq : ∀ i, 0 ≤ q i)
    (start rounds idx : ℕ) (left : ℤ) (hdone : (topUp f start rounds idx left q).1 ≤ 0) :
    partRounds f start rounds idx left q = some (topUp f start rounds idx left q).2 := by
  induction rounds generalizing idx left q with
  | zero => simpa [partRounds, topUp] using hdone
  | succ rounds ih =>
    unfold partRounds
    unfold topUp at hdone ⊢
    split_ifs at hdone ⊢ with hleft hidx hroom
    · rfl
    · have hfit : wrap64 (q ⟨idx, hidx⟩ + 1) = q ⟨idx, hidx⟩ + 1 :=
        wrap64_of_fits (.of_le (by have := hq ⟨idx, hidx⟩; omega) hroom (hf ⟨idx, hidx⟩))
      simp only [hfit]
      refine ih (fun i => ?_) _ _ hdone
      rcases eq_or_ne i ⟨idx, hidx⟩ with rfl | hi
      · have hcol := hq ⟨idx, hidx⟩
        simp only [Function.update_self]
        omega
      · simpa [hi] using hq i
    · exact ih hq _ _ hdone
    · exact absurd hdone hleft

/-- The rounds of `MoveRatioPartTo` move what the rounds of `RatioPart` give. -/
theorem moveRounds_eq {f q : Columns} (b : Columns) (hf : ∀ i, f i < 2 ^ 63) (hq : ∀ i, 0 ≤ q i)
    (start rounds idx : ℕ) (left : ℤ) :
    moveRounds start rounds idx left (f - q) (fun i => wrap64 (b i + q i)) =
      (partRounds f start rounds idx left q).map
        fun q' => (f - q', fun i => wrap64 (b i + q' i)) := by
  induction rounds generalizing idx left q with
  | zero =>
    unfold moveRounds partRounds
    split_ifs <;> rfl
  | succ rounds ih =>
    unfold moveRounds partRounds
    have hlt : ∀ h : idx < PEG_SIZE, 0 < (f - q) ⟨idx, h⟩ ↔ q ⟨idx, h⟩ < f ⟨idx, h⟩ :=
      fun h => by simp
    simp only [hlt]
    split_ifs with hleft hidx hroom
    · rfl
    · have hcol := hq ⟨idx, hidx⟩
      have hcap := hf ⟨idx, hidx⟩
      have hfit : wrap64 (q ⟨idx, hidx⟩ + 1) = q ⟨idx, hidx⟩ + 1 :=
        wrap64_of_fits (.of_le (by omega) hroom hcap)
      have hsrc : Function.update (f - q) ⟨idx, hidx⟩ (wrap64 ((f - q) ⟨idx, hidx⟩ - 1)) =
          f - Function.update q ⟨idx, hidx⟩ (q ⟨idx, hidx⟩ + 1) := by
        have hrest : wrap64 ((f - q) ⟨idx, hidx⟩ - 1) = (f - q) ⟨idx, hidx⟩ - 1 :=
          wrap64_of_fits (.of_le (by simp only [Pi.sub_apply]; omega)
            (show _ ≤ f ⟨idx, hidx⟩ by simp only [Pi.sub_apply]; omega) hcap)
        funext i
        rcases eq_or_ne i ⟨idx, hidx⟩ with rfl | hi
        · rw [Function.update_self, hrest]
          simp only [Pi.sub_apply, Function.update_self]
          ring
        · simp [hi]
      have hdst : Function.update (fun i => wrap64 (b i + q i)) ⟨idx, hidx⟩
          (wrap64 (wrap64 (b ⟨idx, hidx⟩ + q ⟨idx, hidx⟩) + 1)) =
          fun i => wrap64 (b i + Function.update q ⟨idx, hidx⟩ (q ⟨idx, hidx⟩ + 1) i) := by
        funext i
        rcases eq_or_ne i ⟨idx, hidx⟩ with rfl | hi
        · simp only [Function.update_self, wrap64_add_left, add_assoc]
        · simp [hi]
      rw [hsrc, hdst, hfit]
      refine ih (fun i => ?_) _ _
      rcases eq_or_ne i ⟨idx, hidx⟩ with rfl | hi
      · simp only [Function.update_self]
        omega
      · simpa [hi] using hq i
    · exact ih hq _ _
    · rfl

/-! ## The part and the move -/

def enoughRounds (a : CFractions) (p : ℤ) : ℕ := (p - ∑ i, a.ratioParts p i).toNat * PEG_SIZE

theorem Partial.rounds_eq (h : a.Partial p) {rounds : ℕ} (hrounds : a.enoughRounds p ≤ rounds) :
    partRounds a.cols (adjustFrom a.cols) rounds (adjustFrom a.cols)
      (p - ∑ i, a.ratioParts p i) (a.ratioParts p) = some (a.adjustedParts p).2 := by
  obtain ⟨more, rfl⟩ := Nat.exists_eq_add_of_le hrounds
  have hdone : (a.adjustedParts p).1 ≤ 0 := by
    have hsum := sum_adjustedParts h.nonneg h.part_nonneg h.part_le h.total_pos
    have hwalk : ∑ i, (a.adjustedParts p).2 i + (a.adjustedParts p).1 = _ := topUp_sum _ _ _ _ _ _
    omega
  have hsame := topUp_add_fuel hdone more
  have hcols : ∀ i, a.cols i < 2 ^ 63 := fun i =>
    (col_le_total h.nonneg i).trans_lt h.total_lt
  have hparts : ∀ i, 0 ≤ a.ratioParts p i := ratioParts_nonneg h.nonneg h.part_nonneg
  refine (partRounds_eq hcols hparts _ _ _ _ ?_).trans ?_
  · exact (congrArg Prod.fst hsame).trans_le hdone
  · exact congrArg (fun walk => some walk.2) hsame

/-- With enough rounds `RatioPart` ends, with the part over the integers. -/
theorem ratioPart64_eq (ha : a.Nonneg) (hfit : a.total < 2 ^ 63) (hp : 0 ≤ p) {rounds : ℕ}
    (hrounds : a.enoughRounds p ≤ rounds) : ratioPart64 rounds a p = some (a.ratioPart p) := by
  have htotal : a.toStd.total64 = a.total := by
    have hstd := total64_eq (show a.toStd.Nonneg from ha) ((total_toStd a).trans_lt hfit)
    exact hstd.trans (total_toStd a)
  unfold ratioPart64 ratioPart
  simp only [htotal]
  by_cases hzero : p = 0
  · simp only [if_pos hzero]
  by_cases hlt : a.total < p
  · simp only [if_neg hzero, if_pos hlt]
  have hpart : a.Partial p := ⟨ha, hp, not_lt.mp hlt, by omega, hfit⟩
  simp only [if_neg hzero, if_neg hlt, hpart.partLoop_eq]
  split_ifs with hsum
  · rfl
  · rw [hpart.rounds_eq hrounds]
    rfl

/-- A part of at least the total takes every column whole. -/
theorem ratioPart_whole (ha : a.Nonneg) (hp : p ≠ 0) (hall : a.total ≤ p) :
    (a.ratioPart p).cols = a.cols := by
  rcases hall.lt_or_eq with hlt | rfl
  · simp [ratioPart, hp, hlt]
  · have hsum : ∑ i, (a.ratioPart a.total).cols i = ∑ i, a.cols i := by
      calc ∑ i, (a.ratioPart a.total).cols i = (a.ratioPart a.total).total := (total_eq_sum _).symm
        _ = a.total := ratioPart_total ha ha.total le_rfl
        _ = ∑ i, a.cols i := total_eq_sum a
    have hle : ∀ i ∈ Finset.univ, (a.ratioPart a.total).cols i ≤ a.cols i :=
      fun i _ => (ratioPart_bounds ha ha.total i).2
    funext i
    exact (Finset.sum_eq_sum_iff_of_le hle).mp hsum i (Finset.mem_univ i)

/-- Nothing is taken from empty fractions. -/
theorem ratioPart_empty (ha : a.Nonneg) (hp : 0 ≤ p) (hzero : a.total = 0) :
    (a.ratioPart p).cols = 0 := by
  have hcols := ha.cols_eq_zero hzero.le
  funext i
  have hbounds := ratioPart_bounds ha hp i
  rw [hcols] at hbounds
  exact le_antisymm hbounds.2 hbounds.1

/-- The part has the value asked for, as far as there is so much. -/
theorem ratioPart_total_min (ha : a.Nonneg) (hp : 0 ≤ p) :
    (a.ratioPart p).total = min p a.total := by
  rcases le_total p a.total with hle | hge
  · rw [ratioPart_total ha hp hle, min_eq_left hle]
  · rw [min_eq_right hge]
    by_cases hzero : p = 0
    · have htotal : a.total = 0 := le_antisymm (hge.trans_eq hzero) ha.total
      rw [total_eq_sum, ratioPart_empty ha hp htotal, htotal]
      simp
    · rw [total_eq_sum, ratioPart_whole ha hzero hge, ← total_eq_sum]

/-- With enough rounds `MoveRatioPartTo` ends, and has moved what `RatioPart` computes. -/
theorem moveRatioPartTo64_eq (ha : a.Nonneg) (hfit : a.total < 2 ^ 63) (hp : 0 ≤ p)
    {b : CFractions} (hb : ∀ i, FitsInt64 (b.cols i)) :
    ∃ a' b', (∀ rounds ≥ a.enoughRounds p,
        moveRatioPartTo64 rounds a b p = some (p - min p a.total, a', b')) ∧
      a'.cols = a.cols - (a.ratioPart p).cols ∧
      b'.cols = fun i => wrap64 (b.cols i + (a.ratioPart p).cols i) := by
  have hkeep : (fun i => wrap64 (b.cols i + 0)) = b.cols := funext fun i => by
    rw [add_zero, wrap64_of_fits (hb i)]
  have htotal := ha.total
  simp only [moveRatioPartTo64, total64_eq ha hfit]
  by_cases hzero : a.total = 0
  · have hnone := ratioPart_empty ha hp hzero
    refine ⟨a, b, fun rounds _ => ?_, by simp [hnone], by simpa [hnone] using hkeep.symm⟩
    rw [if_pos hzero, hzero, min_eq_right hp, sub_zero]
  by_cases hpart : p = 0
  · have hnone : (a.ratioPart p).cols = 0 := by simp [ratioPart, hpart]
    refine ⟨a, b, fun rounds _ => ?_, by simp [hnone], by simpa [hnone] using hkeep.symm⟩
    rw [if_neg hzero, if_pos hpart, hpart, min_eq_left htotal, sub_zero]
  by_cases hall : a.total ≤ p
  · have hwhole := ratioPart_whole ha hpart hall
    refine ⟨a.withCols 0, b.withCols fun i => wrap64 (b.cols i + a.cols i), fun rounds _ => ?_,
      by simp [hwhole], ?_⟩
    · rw [if_neg hzero, if_neg hpart, if_pos hall, min_eq_right hall]
    · rw [hwhole, cols_withCols]
  have hin : a.Partial p := ⟨ha, hp, (not_le.mp hall).le, by omega, hfit⟩
  have hnot : ¬ a.total < p := (not_le.mp hall).le.not_gt
  simp only [if_neg hzero, if_neg hpart, if_neg hall, hin.moveLoop_eq, min_eq_left hin.part_le,
    sub_self]
  by_cases hsum : p ≤ ∑ i, a.ratioParts p i
  · have hcols : (a.ratioPart p).cols = a.ratioParts p := by simp [ratioPart, hpart, hnot, hsum]
    exact ⟨a.withCols (a.cols - a.ratioParts p),
      b.withCols fun i => wrap64 (b.cols i + a.ratioParts p i), fun rounds _ => if_pos hsum,
      by rw [cols_withCols, hcols], by rw [cols_withCols, hcols]⟩
  · have hcols : (a.ratioPart p).cols = (a.adjustedParts p).2 := by
      simp [ratioPart, hpart, hnot, hsum]
    have hrun := moveRounds_eq b.cols (fun i => (col_le_total ha i).trans_lt hfit)
      (ratioParts_nonneg ha hp)
    refine ⟨a.withCols (a.cols - (a.adjustedParts p).2),
      b.withCols fun i => wrap64 (b.cols i + (a.adjustedParts p).2 i), fun rounds hrounds => ?_,
      by rw [cols_withCols, hcols], by rw [cols_withCols, hcols]⟩
    rw [if_neg hsum, hrun, hin.rounds_eq hrounds]
    rfl

end Loops

/-- Both functions end, on either path of the products, and agree column by column. -/
theorem moveRatioPartTo64_ratioPart64 {a b : CFractions} {m : ℤ} (ha : a.Nonneg)
    (hfit : a.total < 2 ^ 63) (hb : ∀ i, FitsInt64 (b.cols i)) (hm : 0 ≤ m) :
    ∃ enough part a' b',
      (∀ rounds ≥ enough, ratioPart64 rounds a m = some part ∧
        moveRatioPartTo64 rounds a b m = some (m - min m a.total, a', b')) ∧
      (∀ i, FitsInt64 (b.cols i + part.cols i) → b'.cols i = b.cols i + part.cols i) ∧
      (∀ i, a'.cols i = a.cols i - part.cols i) ∧
      (∀ i, 0 ≤ part.cols i ∧ part.cols i ≤ a.cols i) ∧
      part.total = min m a.total := by
  obtain ⟨a', b', hmove, hsrc, hdst⟩ := moveRatioPartTo64_eq ha hfit hm hb
  refine ⟨a.enoughRounds m, a.ratioPart m, a', b', fun rounds hrounds =>
    ⟨ratioPart64_eq ha hfit hm hrounds, hmove rounds hrounds⟩, fun i hsum => ?_,
    fun i => congrFun hsrc i, ratioPart_bounds ha hm, ratioPart_total_min ha hm⟩
  rw [hdst]
  exact wrap64_of_fits hsum

/-- Two columns of 2^40 units each, and a part whose products need 128 bits. -/
def wideFractions : CFractions :=
  zeroStd.withCols fun i => if (i : ℕ) < 2 then 2 ^ 40 else 0

theorem wide_move_agrees :
    ∃ enough part a' b',
      (∀ rounds ≥ enough, ratioPart64 rounds wideFractions (2 ^ 40 + 1) = some part ∧
        moveRatioPartTo64 rounds wideFractions zeroStd (2 ^ 40 + 1) =
          some (2 ^ 40 + 1 - min (2 ^ 40 + 1) wideFractions.total, a', b')) ∧
      (∀ i, FitsInt64 (zeroStd.cols i + part.cols i) →
        b'.cols i = zeroStd.cols i + part.cols i) ∧
      (∀ i, a'.cols i = wideFractions.cols i - part.cols i) ∧
      (∀ i, 0 ≤ part.cols i ∧ part.cols i ≤ wideFractions.cols i) ∧
      part.total = min (2 ^ 40 + 1) wideFractions.total :=
  moveRatioPartTo64_ratioPart64
    (fun i => by rw [wideFractions, cols_withCols]; split_ifs <;> decide)
    (by rw [wideFractions, total_withCols]; decide +kernel)
    (fun _ => (by decide : FitsInt64 0)) (by decide)

end CFractions

end BitBay
