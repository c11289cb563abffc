import BitBay.Base.Text
import Mathlib.Data.List.TakeWhile

/-!
# Numbers in texts

`std::to_string` writes a number in decimal digits, behind a minus sign when it is negative.
`strtoll`, `atoi` and `std::stoi` read the digits at the front of a text. `strtoll` with base 0
also takes octal and hexadecimal digits, which `to_string` does not write.
-/
namespace BitBay.CString

def ofInt (n : ℤ) : CString := (toString n).toList

/-- `strtol` with base 10, saturating as the one with base 0 does. -/
def strtol10 (s : CString) : Option ℤ :=
  let signed := takeSign (s.cStr.dropWhile isSpace)
  match takeDigits 10 signed.2 with
  | [] => none
  | ds =>
    let v : ℤ := ofDigits 10 ds
    some (max (-2 ^ 63) (min (2 ^ 63 - 1) (if signed.1 then -v else v)))

def strtoll (s : CString) : ℤ := s.strtol.getD 0

def atoi (s : CString) : ℤ := (s.strtol10.getD 0).bmod (2 ^ 32)

def IsNumeric (c : Char) : Prop := c = '-' ∨ 48 ≤ c.toNat ∧ c.toNat ≤ 57

instance (c : Char) : Decidable (IsNumeric c) :=
  inferInstanceAs (Decidable (c = '-' ∨ 48 ≤ c.toNat ∧ c.toNat ≤ 57))

variable {n : ℕ}

theorem digit_of_mem_toDigits {c : Char} (h : c ∈ Nat.toDigits 10 n) :
    48 ≤ c.toNat ∧ c.toNat ≤ 57 := by
  have hdigit := Nat.isDigit_of_mem_toDigits (by decide) (by decide) h
  simp only [Char.isDigit, Bool.and_eq_true, decide_eq_true_eq, ge_iff_le] at hdigit
  exact hdigit

theorem ofInt_eq (n : ℤ) : ofInt n =
    if 0 ≤ n then Nat.toDigits 10 n.natAbs else '-' :: Nat.toDigits 10 n.natAbs := by
  rw [ofInt, Int.toString_eq_repr, Int.repr_eq_if]
  split_ifs with h
  · rw [Nat.toList_repr, show n.toNat = n.natAbs by omega]
  · rw [String.toList_append, Nat.toList_repr, show (-n).toNat = n.natAbs by omega]
    rfl

theorem isNumeric_of_mem_ofInt {n : ℤ} {c : Char} (h : c ∈ ofInt n) : IsNumeric c := by
  rw [ofInt_eq] at h
  split_ifs at h
  · exact .inr (digit_of_mem_toDigits h)
  · rcases List.mem_cons.mp h with h | h
    · exact .inl h
    · exact .inr (digit_of_mem_toDigits h)

theorem not_mem_ofInt {c : Char} (h : ¬ IsNumeric c) (n : ℤ) : c ∉ ofInt n :=
  fun hmem => h (isNumeric_of_mem_ofInt hmem)

/-- The text does not start with a zero unless it is one. -/
theorem head_toDigits (h : n ≠ 0) : ∃ c rest, Nat.toDigits 10 n = c :: rest ∧ c ≠ '0' := by
  induction n using Nat.strong_induction_on with
  | _ n ih =>
    by_cases hlt : n < 10
    · exact ⟨_, [], Nat.toDigits_of_lt_base hlt, by rwa [ne_eq, Nat.digitChar_eq_zero]⟩
    · obtain ⟨c, rest, hdigits, hc⟩ := ih (n / 10) (by omega) (by omega)
      rw [Nat.toDigits_of_base_le (by decide) (by omega), hdigits]
      exact ⟨c, _, rfl, hc⟩

theorem takeDigits_toDigits (n base : ℕ) (hbase : 10 ≤ base) :
    takeDigits base (Nat.toDigits 10 n) = (Nat.toDigits 10 n).map fun c => c.toNat - 48 := by
  have hvalue : ∀ c ∈ Nat.toDigits 10 n, digitVal c = some (c.toNat - 48) := by
    intro c hc
    rw [digitVal, if_pos (digit_of_mem_toDigits hc)]
  have hall : ∀ c ∈ Nat.toDigits 10 n, isDigit base c = true := by
    intro c hc
    have hbound := digit_of_mem_toDigits hc
    rw [isDigit, hvalue c hc]
    simp only [Option.any_some, decide_eq_true_eq]
    omega
  rw [takeDigits, List.takeWhile_eq_self_iff.mpr hall]
  rw [List.filterMap_congr hvalue]
  exact congrFun (List.filterMap_eq_map (f := fun c : Char => c.toNat - 48)) _

theorem ofDigits_toDigits (n : ℕ) :
    ofDigits 10 ((Nat.toDigits 10 n).map fun c => c.toNat - 48) = n := by
  have hfold := Nat.ofDigitChars_ten_toDigits (n := n)
  rw [Nat.ofDigitChars_eq_foldl] at hfold
  rw [ofDigits, List.foldl_map]
  simpa [mul_comm] using hfold

theorem takeDigits_ne_nil (n : ℕ) : (Nat.toDigits 10 n).map (fun c => c.toNat - 48) ≠ [] := by
  rw [ne_eq, List.map_eq_nil_iff]
  exact Nat.toDigits_ne_nil

/-- No character of the text ends the reading early. -/
theorem cStr_ofInt (n : ℤ) : (ofInt n).cStr.dropWhile isSpace = ofInt n := by
  have hchars {c : Char} (hc : c ∈ ofInt n) : c.toNat ≠ 0 ∧ isSpace c = false := by
    rcases isNumeric_of_mem_ofInt hc with rfl | h
    · decide
    · rw [isSpace, decide_eq_false_iff_not]
      omega
  have hall : (ofInt n).cStr = ofInt n := by
    rw [cStr, List.takeWhile_eq_self_iff]
    exact fun c hc => decide_eq_true (hchars hc).1
  rw [hall]
  cases htext : ofInt n with
  | nil => rfl
  | cons c rest =>
    rw [List.dropWhile_cons, (hchars (htext ▸ List.mem_cons_self)).2, if_neg Bool.false_ne_true]

theorem takeSign_ofInt (n : ℤ) :
    takeSign (ofInt n) = (decide (n < 0), Nat.toDigits 10 n.natAbs) := by
  rw [ofInt_eq]
  by_cases h : 0 ≤ n
  · rw [if_pos h, decide_eq_false h.not_gt]
    cases htext : Nat.toDigits 10 n.natAbs with
    | nil => rfl
    | cons c rest =>
      have hdigit := digit_of_mem_toDigits (htext ▸ List.mem_cons_self)
      have hminus : c ≠ '-' := by
        rintro rfl
        exact absurd hdigit.1 (by decide)
      have hplus : c ≠ '+' := by
        rintro rfl
        exact absurd hdigit.1 (by decide)
      unfold takeSign
      split
      · simp_all
      · simp_all
      · rfl
  · rw [if_neg h, decide_eq_true (by omega)]
    rfl

/-- The sign and the digits make up the number. -/
theorem signed_natAbs (n : ℤ) : (if decide (n < 0) = true then -(n.natAbs : ℤ) else n.natAbs) = n := by
  by_cases h : n < 0
  · rw [if_pos (decide_eq_true h)]
    omega
  · rw [decide_eq_false h, if_neg Bool.false_ne_true]
    omega

theorem clamp_eq {n : ℤ} (hlow : -2 ^ 63 ≤ n) (hhigh : n < 2 ^ 63) :
    max (-2 ^ 63) (min (2 ^ 63 - 1) n) = n := by
  omega

/-- Numbers of 64 bits are read back in base 10. -/
theorem strtol10_ofInt {n : ℤ} (hlow : -2 ^ 63 ≤ n) (hhigh : n < 2 ^ 63) :
    strtol10 (ofInt n) = some n := by
  unfold strtol10
  simp only [cStr_ofInt, takeSign_ofInt, takeDigits_toDigits _ 10 le_rfl]
  cases hdigits : (Nat.toDigits 10 n.natAbs).map fun c => c.toNat - 48 with
  | nil => exact absurd hdigits (takeDigits_ne_nil _)
  | cons d ds =>
    simp only [← hdigits, ofDigits_toDigits, signed_natAbs, clamp_eq hlow hhigh]

/-- And the base that is found for them is 10, or 8 for zero. -/
theorem strtol_ofInt {n : ℤ} (hlow : -2 ^ 63 ≤ n) (hhigh : n < 2 ^ 63) :
    strtol (ofInt n) = some n := by
  by_cases hzero : n = 0
  · rw [hzero]
    decide
  · obtain ⟨c, rest, htext, hc⟩ := head_toDigits (n := n.natAbs) (by omega)
    have hbase : detectBase (Nat.toDigits 10 n.natAbs) = (10, Nat.toDigits 10 n.natAbs) := by
      rw [htext]
      unfold detectBase
      split
      · simp_all
      · simp_all
      · rfl
    unfold strtol
    simp only [cStr_ofInt, takeSign_ofInt, hbase, takeDigits_toDigits _ 10 le_rfl]
    cases hdigits : (Nat.toDigits 10 n.natAbs).map fun c => c.toNat - 48 with
    | nil => exact absurd hdigits (takeDigits_ne_nil _)
    | cons d ds =>
      simp only [← hdigits, ofDigits_toDigits, signed_natAbs, clamp_eq hlow hhigh]

theorem strtoll_ofInt {n : ℤ} (hlow : -2 ^ 63 ≤ n) (hhigh : n < 2 ^ 63) :
    strtoll (ofInt n) = n := by
  rw [strtoll, strtol_ofInt hlow hhigh, Option.getD_some]

theorem atoi_ofInt {n : ℤ} (hlow : -2 ^ 31 ≤ n) (hhigh : n < 2 ^ 31) : atoi (ofInt n) = n := by
  rw [atoi, strtol10_ofInt (by omega) (by omega), Option.getD_some,
    Int.bmod_eq_of_le (by omega) (by omega)]

theorem ofInt_injective : Function.Injective ofInt := by
  intro a b h
  have hsign := congrArg takeSign h
  rw [takeSign_ofInt, takeSign_ofInt, Prod.mk.injEq] at hsign
  have hdigits := congrArg (fun ds => ofDigits 10 (ds.map fun c => c.toNat - 48)) hsign.2
  simp only [ofDigits_toDigits] at hdigits
  have hneg : a < 0 ↔ b < 0 := by simpa using hsign.1
  omega

end BitBay.CString
