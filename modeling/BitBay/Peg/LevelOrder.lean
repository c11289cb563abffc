import BitBay.Library.CrossRatio
import BitBay.Peg.Moves

/-!
# The order of peg levels

Peg levels are compared by the column they reach and then by the ratio in which they split it,
with cross products. A level that splits no column has the ratio 0/0, and its cross products
are all zero: it is the same as every level of its column. Where the levels of such a column
have all no part, or all no total, nothing comes of this; otherwise the comparison is no
equivalence, or it takes levels for the same that divide balances differently.
-/
namespace BitBay

open CrossRatio

namespace CPegLevel

def below (a b : CPegLevel) : Bool :=
  let nSupplyA := int16 (a.nSupply + a.nShift)
  let nSupplyB := int16 (b.nSupply + b.nShift)
  if nSupplyA < nSupplyB then true
  else if nSupplyB < nSupplyA then false
  else a.nShiftLastPart * b.nShiftLastTotal < b.nShiftLastPart * a.nShiftLastTotal

/-- The comparison has its laws on these levels, and levels that it takes for the same divide
all fractions alike. -/
structure LawfulOn (S : Set CPegLevel) : Prop where
  equivalence : Equivalence fun a b : S => a.1.same b.1 = true
  weakOrder : IsStrictWeakOrder S fun a b => a.1.below b.1 = true
  incomparable : ∀ a ∈ S, ∀ b ∈ S, a.same b = true ↔ a.below b = false ∧ b.below a = false
  splits : ∀ a ∈ S, ∀ b ∈ S, a.same b = true → ∀ f : CFractions, f.Nonneg →
    f.lowOf a = f.lowOf b ∧ f.highOf a = f.highOf b

def column (a : CPegLevel) : ℤ := a.nSupply + a.nShift

def ratio (a : CPegLevel) : ℤ × ℤ := (a.nShiftLastPart, a.nShiftLastTotal)

/-- Beside a level without a ratio no level of its column has a part, or none has a total. -/
def EmptyApart (S : Set CPegLevel) : Prop :=
  ∀ o ∈ S, o.ratio = (0, 0) → ∀ a ∈ S, ∀ b ∈ S, a.column = o.column → b.column = o.column →
    ¬ (0 < a.nShiftLastPart ∧ 0 < b.nShiftLastTotal)

variable {S : Set CPegLevel} {a b c o : CPegLevel}

theorem IsValid.int16_column (h : a.IsValid) : int16 (a.nSupply + a.nShift) = a.column := by
  obtain ⟨-, hlow, -, -, -, -, -, hshift, hhigh, -, -⟩ := h
  have hsize : (PEG_SIZE : ℤ) = 1200 := rfl
  exact Int.bmod_eq_of_le (by omega) (by omega)

theorem IsValid.part_nonneg (h : a.IsValid) : 0 ≤ a.nShiftLastPart := h.2.2.2.2.2.2.2.2.2.1

theorem IsValid.total_nonneg (h : a.IsValid) : 0 ≤ a.nShiftLastTotal := h.2.2.2.2.2.2.2.2.2.2

theorem same_iff (ha : a.IsValid) (hb : b.IsValid) :
    a.same b = true ↔ a.column = b.column ∧ Same a.ratio b.ratio := by
  rw [same, ha.int16_column, hb.int16_column, decide_eq_true_eq]
  rfl

theorem below_iff (ha : a.IsValid) (hb : b.IsValid) :
    a.below b = true ↔
      a.column < b.column ∨ a.column = b.column ∧ Below a.ratio b.ratio := by
  simp only [below, ha.int16_column, hb.int16_column]
  split_ifs with hlt hgt
  · simp [hlt]
  · simp [hlt, hgt.ne']
  · have heq : a.column = b.column := le_antisymm (not_lt.mp hgt) (not_lt.mp hlt)
    simp [heq, Below, ratio]

theorem fPartial_iff : a.fPartial = true ↔ 0 < a.nShiftLastPart ∧ 0 < a.nShiftLastTotal := by
  rw [fPartial, Bool.and_eq_true, decide_eq_true_eq, decide_eq_true_eq]

theorem same_iff_not_below (ha : a.IsValid) (hb : b.IsValid) :
    a.same b = true ↔ a.below b = false ∧ b.below a = false := by
  rw [same_iff ha hb, same_iff_incomparable, ← Bool.not_eq_true, ← Bool.not_eq_true, below_iff ha hb,
    below_iff hb ha]
  constructor
  · rintro ⟨hcolumn, hab, hba⟩
    simp [hcolumn, hab, hba]
  · rintro ⟨hab, hba⟩
    push Not at hab hba
    have hcolumn : a.column = b.column := le_antisymm hba.1 hab.1
    exact ⟨hcolumn, hab.2 hcolumn, hba.2 hcolumn.symm⟩

theorem below_trans (ha : a.IsValid) (hb : b.IsValid) (hc : c.IsValid) (hab : a.below b = true)
    (hbc : b.below c = true) : a.below c = true := by
  rw [below_iff ha hb] at hab
  rw [below_iff hb hc] at hbc
  rw [below_iff ha hc]
  rcases hab with hab | ⟨hcolumn, hab⟩ <;> rcases hbc with hbc | ⟨hcolumn', hbc⟩
  · exact Or.inl (hab.trans hbc)
  · exact Or.inl (hcolumn' ▸ hab)
  · exact Or.inl (hcolumn ▸ hbc)
  · exact Or.inr ⟨hcolumn.trans hcolumn', Below.trans ha.part_nonneg ha.total_nonneg hb.part_nonneg
      hb.total_nonneg hc.total_nonneg hab hbc⟩

/-! ## Levels that are taken for the same -/

/-- Through a level without a ratio two levels are the same only if it stands apart. -/
theorem same_trans (hapart : EmptyApart S) (hS : ∀ a ∈ S, a.IsValid) (ha : a ∈ S) (hb : b ∈ S)
    (hc : c ∈ S) (hab : a.same b = true) (hbc : b.same c = true) : a.same c = true := by
  rw [same_iff (hS a ha) (hS b hb)] at hab
  rw [same_iff (hS b hb) (hS c hc)] at hbc
  rw [same_iff (hS a ha) (hS c hc)]
  refine ⟨hab.1.trans hbc.1, ?_⟩
  by_cases hempty : b.ratio = (0, 0)
  · have hac := hapart b hb hempty a ha c hc hab.1 hbc.1.symm
    have hca := hapart b hb hempty c hc a ha hbc.1.symm hab.1
    have hzero : ∀ x ∈ S, ∀ y ∈ S, ¬ (0 < x.nShiftLastPart ∧ 0 < y.nShiftLastTotal) →
        x.nShiftLastPart * y.nShiftLastTotal = 0 := by
      intro x hx y hy hxy
      have hpart := (hS x hx).part_nonneg
      have htotal := (hS y hy).total_nonneg
      rw [mul_eq_zero]
      omega
    exact (hzero a ha c hc hac).trans (hzero c hc a ha hca).symm
  · exact Same.trans hempty hab.2 hbc.2

/-- The parts of the split column are the same, so is everything else. -/
theorem splits_congr (hcolumn : a.column = b.column) (hshare : a.fPartial = b.fPartial)
    (hvpart : a.fPartial = true → ∀ v, a.vpart v = b.vpart v) (f : CFractions) :
    f.lowOf a = f.lowOf b ∧ f.highOf a = f.highOf b := by
  have heffective : a.nSupplyEffective = b.nSupplyEffective := congrArg Int.toNat hcolumn
  have hlast : a.nLastIdx = b.nLastIdx := congrArg (Fin.ofNat PEG_SIZE) heffective
  have hrange : a.nSupply + a.nShift = b.nSupply + b.nShift := hcolumn
  simp only [CFractions.lowOf, CFractions.highOf, CFractions.lowPartTotal, hrange, heffective, hlast]
  cases hsplit : a.fPartial with
  | false => simp [← hshare, hsplit]
  | true => simp [← hshare, hsplit, hvpart hsplit]

/-- Where a level without a ratio stands apart, a level that is the same as a split one is
split. -/
theorem fPartial_of_same (hapart : EmptyApart S) (hS : ∀ a ∈ S, a.IsValid) (ha : a ∈ S) (hb : b ∈ S)
    (hab : a.same b = true) (hsplit : a.fPartial = true) : b.fPartial = true := by
  rw [same_iff (hS a ha) (hS b hb)] at hab
  obtain ⟨hcolumn, hsame⟩ := hab
  rw [fPartial_iff] at hsplit ⊢
  have hpart := (hS b hb).part_nonneg
  have htotal := (hS b hb).total_nonneg
  by_contra hnot
  have hempty : b.ratio = (0, 0) := by
    have hcross : a.nShiftLastPart * b.nShiftLastTotal = b.nShiftLastPart * a.nShiftLastTotal := hsame
    rcases hpart.eq_or_lt with hpart | hpart
    · rw [← hpart, zero_mul, mul_eq_zero] at hcross
      exact Prod.ext hpart.symm (hcross.resolve_left hsplit.1.ne')
    · have hzero : b.nShiftLastTotal = 0 := by omega
      rw [hzero, mul_zero] at hcross
      exact absurd hcross (mul_pos hpart hsplit.2).ne
  exact hapart b hb hempty a ha a ha hcolumn hcolumn hsplit

theorem splits_of_same (hapart : EmptyApart S) (hS : ∀ a ∈ S, a.IsValid) (ha : a ∈ S) (hb : b ∈ S)
    (hab : a.same b = true) (f : CFractions) :
    f.lowOf a = f.lowOf b ∧ f.highOf a = f.highOf b := by
  have hboth := (same_iff (hS a ha) (hS b hb)).mp hab
  have hba : b.same a = true := (same_iff (hS b hb) (hS a ha)).mpr ⟨hboth.1.symm, hboth.2.symm⟩
  refine splits_congr hboth.1 ?_ (fun hsplit v => ?_) f
  · exact Bool.eq_iff_iff.mpr ⟨fPartial_of_same hapart hS ha hb hab,
      fPartial_of_same hapart hS hb ha hba⟩
  · have hsplit' := fPartial_iff.mp (fPartial_of_same hapart hS ha hb hab hsplit)
    rw [fPartial_iff] at hsplit
    have hratio : ratioPart v a.nShiftLastPart a.nShiftLastTotal =
        ratioPart v b.nShiftLastPart b.nShiftLastTotal := by
      rw [ratioPart, ratioPart, if_neg (by omega), if_neg (by omega)]
      exact Same.tdiv_eq hsplit.2 hsplit'.2 hboth.2 v
    rw [vpart, vpart, hratio]

/-- A unit in the column goes to the reserve of a level that splits the column, and to the
liquid of a level that does not. -/
theorem low_ne_of_split (ha : a.IsValid) (ho : o.IsValid) (hcolumn : a.column = o.column)
    (hsplit : a.fPartial = true) (hwhole : o.fPartial = false) :
    (CFractions.singleColumn a.nLastIdx 1).lowOf a ≠ (CFractions.singleColumn a.nLastIdx 1).lowOf o := by
  have heffective : a.nSupplyEffective = o.nSupplyEffective := congrArg Int.toNat hcolumn
  have hlow : (CFractions.singleColumn a.nLastIdx 1).low a.nSupplyEffective = 0 := by
    refine Finset.sum_eq_zero fun i _ => ?_
    rw [CFractions.singleColumn, CFractions.cols_withCols]
    split_ifs with hi heq
    · rw [heq, ha.nLastIdx] at hi
      exact absurd hi (lt_irrefl _)
    · rfl
    · rfl
  have hunit : (CFractions.singleColumn a.nLastIdx 1).cols a.nLastIdx = 1 := by
    rw [CFractions.singleColumn, CFractions.cols_withCols, if_pos rfl]
  have hvpart : 1 ≤ a.vpart 1 := by
    rw [fPartial_iff] at hsplit
    have hnonneg : 0 ≤ ratioPart 1 a.nShiftLastPart a.nShiftLastTotal := by
      rw [ratioPart, if_neg (by omega)]
      exact mulDiv_nonneg zero_le_one hsplit.1.le hsplit.2.le
    simp only [vpart]
    split_ifs <;> omega
  rw [lowOf_of_valid _ ha, lowOf_of_valid _ ho, CFractions.lowPartTotal, CFractions.lowPartTotal,
    ← heffective, hlow, if_pos hsplit, hwhole, if_neg Bool.false_ne_true, hunit]
  omega

/-! ## The laws -/

/-- The comparison is lawful on a set of valid levels exactly when the levels without a ratio
stand apart. -/
theorem lawfulOn_iff (hS : ∀ a ∈ S, a.IsValid) : LawfulOn S ↔ EmptyApart S := by
  constructor
  · intro hlaw o ho hempty a ha b hb haColumn hbColumn ⟨hpart, htotal⟩
    have hsame : ∀ x ∈ S, x.column = o.column → x.same o = true := by
      intro x hx hcolumn
      rw [same_iff (hS x hx) (hS o ho), hempty]
      exact ⟨hcolumn, same_zero _⟩
    have hwhole : o.fPartial = false := by
      rw [← Bool.not_eq_true, fPartial_iff, show o.nShiftLastPart = 0 from congrArg Prod.fst hempty]
      omega
    have hunsplit : ∀ x ∈ S, x.column = o.column → ¬ x.fPartial = true := by
      intro x hx hcolumn hsplit
      refine low_ne_of_split (hS x hx) (hS o ho) hcolumn hsplit hwhole ?_
      exact (hlaw.splits x hx o ho (hsame x hx hcolumn) _
        (CFractions.singleColumn_nonneg zero_le_one _)).1
    have ha0 := hunsplit a ha haColumn
    have hb0 := hunsplit b hb hbColumn
    rw [fPartial_iff] at ha0 hb0
    have hba : b.same a = true := hlaw.equivalence.trans (x := ⟨b, hb⟩) (y := ⟨o, ho⟩) (z := ⟨a, ha⟩)
      (hsame b hb hbColumn) (hlaw.equivalence.symm (x := ⟨a, ha⟩) (y := ⟨o, ho⟩) (hsame a ha haColumn))
    rw [same_iff (hS b hb) (hS a ha)] at hba
    have hcross : b.nShiftLastPart * a.nShiftLastTotal = a.nShiftLastPart * b.nShiftLastTotal := hba.2
    have hzero : b.nShiftLastPart = 0 := by
      have hnonneg := (hS b hb).part_nonneg
      omega
    rw [hzero, zero_mul] at hcross
    exact absurd hcross (mul_pos hpart htotal).ne
  · intro hapart
    have hincomparable : ∀ a ∈ S, ∀ b ∈ S,
        a.same b = true ↔ a.below b = false ∧ b.below a = false :=
      fun a ha b hb => same_iff_not_below (hS a ha) (hS b hb)
    have hsymm : ∀ {a b : CPegLevel}, a ∈ S → b ∈ S → a.same b = true → b.same a = true := by
      intro a b ha hb hab
      rw [same_iff (hS a ha) (hS b hb)] at hab
      exact (same_iff (hS b hb) (hS a ha)).mpr ⟨hab.1.symm, hab.2.symm⟩
    refine ⟨⟨fun a => same_self _, fun {a b} => hsymm a.2 b.2,
      fun {a b c} => same_trans hapart hS a.2 b.2 c.2⟩, ?_, hincomparable,
      fun a ha b hb hab f _ => splits_of_same hapart hS ha hb hab f⟩
    refine { irrefl := fun a => ?_, trans := fun a b c => below_trans (hS _ a.2) (hS _ b.2) (hS _ c.2),
             incomp_trans := fun a b c hab hbc => ?_ }
    · rw [Bool.not_eq_true]
      exact ((hincomparable a a.2 a a.2).mp (same_self _)).1
    · simp only [Bool.not_eq_true] at hab hbc ⊢
      exact (hincomparable a a.2 c c.2).mp (same_trans hapart hS a.2 b.2 c.2
        ((hincomparable a a.2 b b.2).mpr hab) ((hincomparable b b.2 c c.2).mpr hbc))

/-! ## Samples -/

def sampleRatio (part total : ℤ) : CPegLevel :=
  { ofSupply 1 0 0 3 3 3 with nShiftLastPart := part, nShiftLastTotal := total }

theorem sampleRatio_lawful : LawfulOn {sampleRatio 1 2, sampleRatio 2 4, sampleRatio 1 3} := by
  have hvalid : ∀ a ∈ ({sampleRatio 1 2, sampleRatio 2 4, sampleRatio 1 3} : Set CPegLevel),
      a.IsValid := by
    rintro a (rfl | rfl | rfl) <;> decide
  refine (lawfulOn_iff hvalid).mpr ?_
  rintro o (rfl | rfl | rfl) hempty <;> exact absurd hempty (by decide)

/-- 1/2 is the same as 0/0 and 0/0 the same as 1/3, and a unit in column 3 is reserve at 1/2
and liquid at 0/0. -/
theorem unsplit_level_unlawful :
    (sampleRatio 1 2).IsValid ∧ (sampleRatio 0 0).IsValid ∧ (sampleRatio 1 3).IsValid ∧
    (sampleRatio 1 2).same (sampleRatio 0 0) = true ∧
    (sampleRatio 0 0).same (sampleRatio 1 3) = true ∧
    (sampleRatio 1 2).same (sampleRatio 1 3) = false ∧
    (CFractions.singleColumn 3 1).lowOf (sampleRatio 1 2) ≠
      (CFractions.singleColumn 3 1).lowOf (sampleRatio 0 0) ∧
    ¬ LawfulOn {level | level.IsValid} := by
  have hhalf : (sampleRatio 1 2).IsValid := by decide
  have hwhole : (sampleRatio 0 0).IsValid := by decide
  have hthird : (sampleRatio 1 3).IsValid := by decide
  have hsame : (sampleRatio 1 2).same (sampleRatio 0 0) = true := by decide
  have hsame' : (sampleRatio 0 0).same (sampleRatio 1 3) = true := by decide
  have hother : (sampleRatio 1 2).same (sampleRatio 1 3) = false := by decide
  refine ⟨hhalf, hwhole, hthird, hsame, hsame', hother, ?_, fun hlaw => ?_⟩
  · exact low_ne_of_split hhalf hwhole rfl (by decide) (by decide)
  · have htrans : (sampleRatio 1 2).same (sampleRatio 1 3) = true :=
      hlaw.equivalence.trans (x := ⟨_, hhalf⟩) (y := ⟨_, hwhole⟩) (z := ⟨_, hthird⟩) hsame hsame'
    rw [hother] at htrans
    exact Bool.false_ne_true htrans

end CPegLevel

end BitBay
