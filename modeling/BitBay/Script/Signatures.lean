import BitBay.Library.BigEndian
import BitBay.Script.Checks

/-!
# Encodings of signatures

A signature is two numbers. Their encoding in DER has one text for each number, with one byte for
the kind of hash behind it. The checks let through exactly these texts, with a second number of at
most half the order of the curve. So a signature can not be changed into another text that is
let through as well.
-/
namespace BitBay

open BigEndian

def curveOrder : ℕ := 0xFFFFFFFFFFFFFFFFFFFFFFFFFFFFFFFEBAAEDCE6AF48A03BBFD25E8CD0364141

/-- `i2d_ECDSA_SIG` of numbers below the order of the curve: lengths take one byte. -/
def derSignature (r s : ℕ) : Vchtype :=
  0x30 :: UInt8.ofNat (4 + (signedBytes r).length + (signedBytes s).length) ::
    2 :: UInt8.ofNat (signedBytes r).length :: (signedBytes r ++
      2 :: UInt8.ofNat (signedBytes s).length :: signedBytes s)

/-- What the checks let through: the numbers of a signature, with the kind of hash. -/
structure EncodesSignature (flags : ℕ) (vchSig : Vchtype) (r s : ℕ) (nHashType : UInt8) :
    Prop where
  text : vchSig = derSignature r s ++ [nHashType]
  length : vchSig.length ≤ 73
  pos : 0 < s
  low : s ≤ curveOrder / 2
  hashtype : hasFlag flags SCRIPT_VERIFY_FIX_HASHTYPE = true ∨
    SIGHASH_ALL ≤ nHashType.toNat % SIGHASH_ANYONECANPAY ∧
      nHashType.toNat % SIGHASH_ANYONECANPAY ≤ SIGHASH_SINGLE

theorem length_derSignature (r s : ℕ) :
    (derSignature r s).length = 6 + (signedBytes r).length + (signedBytes s).length := by
  simp only [derSignature, List.length_cons, List.length_append]
  omega

/-! ## Numbers -/

theorem and_highBit (b : UInt8) : b.toNat &&& 0x80 = 0 ↔ b < 0x80 := by
  have hb := b.toNat_lt
  have hbit := Nat.and_two_pow b.toNat 7
  rw [UInt8.lt_iff_toNat_lt]
  change b.toNat &&& 2 ^ 7 = 0 ↔ b.toNat < 128
  rw [hbit, Nat.testBit_eq_decide_div_mod_eq]
  by_cases h : b.toNat / 2 ^ 7 % 2 = 1
  · simp only [h, decide_true, Bool.toNat_true]
    omega
  · simp only [h, decide_false, Bool.toNat_false]
    omega

theorem getD_length_append (pre rest : Vchtype) (i : ℕ) :
    (pre ++ rest).getD (pre.length + i) 0 = rest.getD i 0 := by
  rw [List.getD_append_right _ _ _ _ (Nat.le_add_right _ _), Nat.add_sub_cancel_left]

/-- The checks on a number: its tag, and as few bytes as it needs. -/
theorem isDERNumber_iff (pre post number : Vchtype) (tag len : UInt8) :
    isDERNumber (pre ++ tag :: len :: (number ++ post)) (pre.length + 2) number.length = true ↔
      tag = 2 ∧ Minimal number := by
  have htag : (pre ++ tag :: len :: (number ++ post)).getD (pre.length + 2 - 2) 0 = tag :=
    getD_length_append pre _ 0
  have hbyte (i : ℕ) : (pre ++ tag :: len :: (number ++ post)).getD (pre.length + 2 + i) 0 =
      (number ++ post).getD i 0 := by
    rw [Nat.add_assoc, getD_length_append, Nat.add_comm 2 i]
    rfl
  simp only [isDERNumber, htag, hbyte, decide_eq_true_eq, and_highBit]
  refine and_congr_right fun _ => ?_
  rcases number with _ | ⟨b, _ | ⟨c, rest⟩⟩
  · simp only [List.length_nil, ne_eq, not_true_eq_false, false_and, false_iff]
    exact fun h => h.ne_nil rfl
  · constructor
    · rintro ⟨-, hb, -⟩
      exact ⟨by simp, by simpa using hb, by simp⟩
    · intro h
      exact ⟨by simp, by simpa using h.unsigned, by simp⟩
  · have hzero : b.toNat = 0 ↔ b = 0 := by
      rw [← UInt8.toNat_inj]
      rfl
    simp only [List.length_cons, List.cons_append, List.getD_cons_zero, List.getD_cons_succ, hzero]
    constructor
    · rintro ⟨-, hb, hneeded⟩
      refine ⟨by simp, by simpa using hb, fun d rest' heq => ?_⟩
      obtain ⟨rfl, rfl, rfl⟩ : b = 0 ∧ c = d ∧ rest = rest' := by simpa using heq
      exact UInt8.not_lt.mp fun hlt => hneeded ⟨by omega, rfl, hlt⟩
    · intro h
      refine ⟨by omega, by simpa using h.unsigned, ?_⟩
      rintro ⟨-, rfl, hlt⟩
      exact absurd hlt (UInt8.not_lt.mpr (h.needed c rest rfl))

theorem compareBigEndian_go_eq {c1 c2 : Vchtype} (h : c1.length = c2.length) :
    compareBigEndian.go c1 c2 = compare (value c1) (value c2) := by
  induction c1 generalizing c2 with
  | nil =>
    obtain rfl := List.length_eq_zero_iff.mp h.symm
    rfl
  | cons b1 c1 ih =>
    obtain ⟨b2, c2, rfl⟩ := List.exists_cons_of_ne_nil (l := c2) (by rintro rfl; simp at h)
    have hlength : c1.length = c2.length := by simpa using h
    rw [compareBigEndian.go]
    split_ifs with hgt hlt
    · exact (Nat.compare_eq_gt.mpr (value_lt_of_head_lt hlength.symm hgt)).symm
    · exact (Nat.compare_eq_lt.mpr (value_lt_of_head_lt hlength hlt)).symm
    · obtain rfl : b1 = b2 := UInt8.le_antisymm (UInt8.not_lt.mp hgt) (UInt8.not_lt.mp hlt)
      rw [ih hlength, value_cons, value_cons, hlength]
      simp only [Nat.compare_eq_ite_lt, Nat.add_lt_add_iff_left]

/-- Longer bytes with a byte in excess that is not zero are the larger number. -/
theorem value_lt_of_excess {c1 c2 : Vchtype}
    (h : (c1.take (c1.length - c2.length)).any (· ≠ 0) = true) : value c2 < value c1 := by
  obtain ⟨b, hb, hne⟩ := List.any_eq_true.mp h
  have hlength : (c1.drop (c1.length - c2.length)).length = c2.length := by
    have htake : (c1.take (c1.length - c2.length)).length ≠ 0 := by
      intro hnil
      rw [List.length_eq_zero_iff.mp hnil] at hb
      cases hb
    simp only [List.length_take, List.length_drop] at htake ⊢
    omega
  have hpos : 1 ≤ value (c1.take (c1.length - c2.length)) := by
    rw [Nat.one_le_iff_ne_zero, Ne, value_eq_zero_iff]
    intro hall
    exact absurd (hall b hb) (by simpa using hne)
  have hsplit := value_append (c1.take (c1.length - c2.length)) (c1.drop (c1.length - c2.length))
  rw [List.take_append_drop, hlength] at hsplit
  have hmul := Nat.mul_le_mul_right (256 ^ c2.length) hpos
  have hlt := value_lt c2
  omega

/-- Without such a byte only the end of the bytes counts. -/
theorem value_drop_excess {c : Vchtype} {k : ℕ} (h : (c.take k).any (· ≠ 0) = false) :
    value (c.drop k) = value c := by
  have hzero : value (c.take k) = 0 := by
    rw [value_eq_zero_iff]
    intro b hb
    simpa using List.any_eq_false.mp h b hb
  have hsplit := value_append (c.take k) (c.drop k)
  rw [List.take_append_drop, hzero, Nat.zero_mul, Nat.zero_add] at hsplit
  exact hsplit.symm

/-- `CompareBigEndian` compares the numbers. -/
theorem compareBigEndian_eq (c1 c2 : Vchtype) :
    compareBigEndian c1 c2 = compare (value c1) (value c2) := by
  unfold compareBigEndian
  split_ifs with h1 h2
  · exact (Nat.compare_eq_gt.mpr (value_lt_of_excess h1)).symm
  · exact (Nat.compare_eq_lt.mpr (value_lt_of_excess h2)).symm
  · rw [compareBigEndian_go_eq (by simp only [List.length_drop]; omega),
      value_drop_excess (Bool.eq_false_iff.mpr h1), value_drop_excess (Bool.eq_false_iff.mpr h2)]

theorem value_vchMaxModHalfOrder : value vchMaxModHalfOrder = curveOrder / 2 := by decide

theorem checkSignatureElement_half (vch : Vchtype) :
    checkSignatureElement vch true = true ↔ 0 < value vch ∧ value vch ≤ curveOrder / 2 := by
  simp only [checkSignatureElement, compareBigEndian_eq, if_true, value_vchMaxModHalfOrder,
    value_nil, decide_eq_true_eq, Nat.compare_eq_gt, ne_eq, not_lt]

/-! ## Texts -/

def signatureText (h0 h1 tagR lenR tagS lenS ht : UInt8) (R S : Vchtype) : Vchtype :=
  h0 :: h1 :: tagR :: lenR :: (R ++ tagS :: lenS :: (S ++ [ht]))

variable {h0 h1 tagR lenR tagS lenS ht : UInt8} {R S vchSig : Vchtype}

theorem length_signatureText :
    (signatureText h0 h1 tagR lenR tagS lenS ht R S).length = R.length + S.length + 7 := by
  simp only [signatureText, List.length_cons, List.length_append, List.length_nil]
  omega

theorem getD_signatureText :
    (signatureText h0 h1 tagR lenR tagS lenS ht R S).getD (5 + R.length) 0 = lenS := by
  have hat := getD_length_append (h0 :: h1 :: tagR :: lenR :: R) (tagS :: lenS :: (S ++ [ht])) 1
  simp only [List.length_cons, List.getD_cons_succ, List.getD_cons_zero] at hat
  rw [Nat.add_comm 5]
  exact hat

theorem drop_signatureText :
    (signatureText h0 h1 tagR lenR tagS lenS ht R S).drop (6 + R.length) = S ++ [ht] := by
  have hlength : 6 + R.length = (h0 :: h1 :: tagR :: lenR :: (R ++ [tagS, lenS])).length := by
    simp only [List.length_cons, List.length_append, List.length_nil]
    omega
  have htext : signatureText h0 h1 tagR lenR tagS lenS ht R S =
      (h0 :: h1 :: tagR :: lenR :: (R ++ [tagS, lenS])) ++ (S ++ [ht]) := by simp [signatureText]
  rw [hlength, htext, List.drop_left]

/-- Where the lengths add up, the numbers are at their places. -/
theorem exists_signatureText
    (h : (vchSig.getD 3 0).toNat + (vchSig.getD (5 + (vchSig.getD 3 0).toNat) 0).toNat + 7 =
      vchSig.length) :
    ∃ h0 h1 tagR lenR tagS lenS ht R S,
      vchSig = signatureText h0 h1 tagR lenR tagS lenS ht R S ∧ lenR.toNat = R.length ∧
        lenS.toNat = S.length := by
  rcases vchSig with _ | ⟨h0, _ | ⟨h1, _ | ⟨tagR, _ | ⟨lenR, t⟩⟩⟩⟩
  iterate 4 simp at h
  simp only [List.getD_cons_succ, List.getD_cons_zero, List.length_cons] at h
  have hsplit := List.take_append_drop lenR.toNat t
  have hgetD : (h0 :: h1 :: tagR :: lenR :: t).getD (5 + lenR.toNat) 0 =
      (t.drop lenR.toNat).getD 1 0 := by
    rw [List.getD_eq_getElem?_getD, List.getD_eq_getElem?_getD, List.getElem?_drop,
      show 5 + lenR.toNat = (lenR.toNat + 1) + 4 by omega]
    rfl
  rw [hgetD] at h
  have hlength : (t.drop lenR.toNat).length = ((t.drop lenR.toNat).getD 1 0).toNat + 3 := by
    rw [List.length_drop]
    omega
  rcases hdrop : t.drop lenR.toNat with _ | ⟨tagS, _ | ⟨lenS, u⟩⟩
  · simp [hdrop] at hlength
  · simp [hdrop] at hlength
  simp only [hdrop, List.length_cons, List.getD_cons_succ, List.getD_cons_zero] at hlength
  have hu : u ≠ [] := by
    rintro rfl
    simp at hlength
  refine ⟨h0, h1, tagR, lenR, tagS, lenS, u.getLast hu, t.take lenR.toNat, u.dropLast, ?_, ?_, ?_⟩
  · rw [signatureText, List.dropLast_append_getLast hu, ← hdrop, hsplit]
  · rw [List.length_take]
    have hle := congrArg List.length hdrop
    simp only [List.length_drop, List.length_cons] at hle
    omega
  · rw [List.length_dropLast]
    omega

/-- The checks on a text whose lengths add up. -/
theorem isDERSignature_text (hR : lenR.toNat = R.length) (hS : lenS.toNat = S.length) :
    isDERSignature (signatureText h0 h1 tagR lenR tagS lenS ht R S) = true ↔
      R.length + S.length ≤ 66 ∧ h0 = 0x30 ∧ h1.toNat = 4 + R.length + S.length ∧
        (tagR = 2 ∧ Minimal R) ∧ tagS = 2 ∧ Minimal S := by
  have hfirst := isDERNumber_iff [h0, h1] (tagS :: lenS :: (S ++ [ht])) R tagR lenR
  have hsecond := isDERNumber_iff (h0 :: h1 :: tagR :: lenR :: R) [ht] S tagS lenS
  have hplace : (h0 :: h1 :: tagR :: lenR :: R).length + 2 = 6 + R.length := by
    simp only [List.length_cons]
    omega
  rw [hplace] at hsecond
  have hnumbers : isDERNumber (signatureText h0 h1 tagR lenR tagS lenS ht R S) 4 R.length &&
      isDERNumber (signatureText h0 h1 tagR lenR tagS lenS ht R S) (6 + R.length) S.length ↔
      (tagR = 2 ∧ Minimal R) ∧ tagS = 2 ∧ Minimal S := by
    rw [Bool.and_eq_true]
    exact and_congr hfirst hsecond
  have hpos : (tagR = 2 ∧ Minimal R) ∧ tagS = 2 ∧ Minimal S → 2 ≤ R.length + S.length := by
    rintro ⟨⟨-, hminR⟩, -, hminS⟩
    have hlenR := List.length_pos_iff.mpr hminR.ne_nil
    have hlenS := List.length_pos_iff.mpr hminS.ne_nil
    omega
  have h3 : (signatureText h0 h1 tagR lenR tagS lenS ht R S).getD 3 0 = lenR := rfl
  have hhead : (signatureText h0 h1 tagR lenR tagS lenS ht R S).getD 0 0 = h0 := rfl
  have hsize : (signatureText h0 h1 tagR lenR tagS lenS ht R S).getD 1 0 = h1 := rfl
  unfold isDERSignature
  simp only [h3, hhead, hsize, getD_signatureText, length_signatureText, if_true, hR, hS]
  split_ifs with hlow hhigh htag hlength hshort hsum
  · simp only [false_iff]
    rintro ⟨-, -, -, hnum⟩
    have := hpos hnum
    omega
  · simp only [false_iff]
    rintro ⟨hle, -⟩
    omega
  · simp [htag]
  · simp only [false_iff]
    rintro ⟨-, -, heq, -⟩
    omega
  · omega
  · exact absurd rfl hsum
  · rw [hnumbers]
    exact ⟨fun h => ⟨by omega, not_not.mp htag, by omega, h⟩, fun h => h.2.2.2⟩

/-! ## What the checks let through -/

theorem derSignature_append (r s : ℕ) (ht : UInt8) : derSignature r s ++ [ht] =
    signatureText 0x30 (UInt8.ofNat (4 + (signedBytes r).length + (signedBytes s).length)) 2
      (UInt8.ofNat (signedBytes r).length) 2 (UInt8.ofNat (signedBytes s).length) ht
      (signedBytes r) (signedBytes s) := by
  simp [derSignature, signatureText]

theorem toNat_length {n : ℕ} (h : n ≤ 73) : (UInt8.ofNat n).toNat = n :=
  UInt8.toNat_ofNat_of_lt' (by simp only [UInt8.size]; omega)

theorem sizes_of_isDERSignature (h : isDERSignature vchSig = true) :
    (vchSig.getD 3 0).toNat + (vchSig.getD (5 + (vchSig.getD 3 0).toNat) 0).toNat + 7 =
      vchSig.length := by
  unfold isDERSignature at h
  simp only [if_true] at h
  split_ifs at h with hlow hhigh htag hlength hshort hsum
  exact not_not.mp hsum

/-- `IsDERSignature` lets through the encodings of two numbers that are not too long. -/
theorem isDERSignature_iff :
    isDERSignature vchSig = true ↔ vchSig.length ≤ 73 ∧
      ∃ r s nHashType, vchSig = derSignature r s ++ [nHashType] := by
  constructor
  · intro h
    obtain ⟨h0, h1, tagR, lenR, tagS, lenS, ht, R, S, rfl, hR, hS⟩ := exists_signatureText
      (sizes_of_isDERSignature h)
    obtain ⟨hsum, rfl, h1eq, ⟨rfl, hminR⟩, rfl, hminS⟩ := (isDERSignature_text hR hS).mp h
    refine ⟨by rw [length_signatureText]; omega, value R, value S, ht, ?_⟩
    rw [derSignature_append, signedBytes_value hminR, signedBytes_value hminS, ← h1eq, ← hR, ← hS]
    simp
  · rintro ⟨hlength, r, s, ht, rfl⟩
    rw [List.length_append, length_derSignature, List.length_singleton] at hlength
    rw [derSignature_append, isDERSignature_text (toNat_length (by omega))
      (toNat_length (by omega))]
    exact ⟨by omega, rfl, toNat_length (by omega), ⟨rfl, minimal_signedBytes r⟩, rfl,
      minimal_signedBytes s⟩

/-- The text of a signature has its numbers and its kind of hash. -/
theorem derSignature_inj {r s r' s' : ℕ} {ht' : UInt8}
    (hlength : (derSignature r s ++ [ht]).length ≤ 73)
    (h : derSignature r s ++ [ht] = derSignature r' s' ++ [ht']) : r = r' ∧ s = s' ∧ ht = ht' := by
  have hlength' := h ▸ hlength
  simp only [List.length_append, length_derSignature, List.length_singleton] at hlength hlength'
  have hsizes {n m : ℕ} (hn : n ≤ 73) (hm : m ≤ 73) (hnm : UInt8.ofNat n = UInt8.ofNat m) :
      n = m := by
    rw [← toNat_length hn, hnm, toNat_length hm]
  simp only [derSignature, List.cons_append, List.append_assoc, List.cons.injEq, true_and] at h
  obtain ⟨-, hsizeR, htail⟩ := h
  obtain ⟨hR, htail⟩ := List.append_inj htail (hsizes (by omega) (by omega) hsizeR)
  simp only [List.cons.injEq, true_and] at htail
  obtain ⟨hsizeS, hend⟩ := htail
  obtain ⟨hS, hht⟩ := List.append_inj hend (hsizes (by omega) (by omega) hsizeS)
  refine ⟨?_, ?_, by simpa using hht⟩
  · rw [← value_signedBytes r, hR, value_signedBytes]
  · rw [← value_signedBytes s, hS, value_signedBytes]

/-- `IsLowDERSignature` asks for a second number of at most half the order. -/
theorem isLowDERSignature_iff :
    isLowDERSignature vchSig = true ↔ vchSig.length ≤ 73 ∧
      ∃ r s nHashType, vchSig = derSignature r s ++ [nHashType] ∧ 0 < s ∧ s ≤ curveOrder / 2 := by
  have hlow (r s : ℕ) (ht : UInt8) (hlength : (derSignature r s ++ [ht]).length ≤ 73) :
      isLowDERSignature (derSignature r s ++ [ht]) = true ↔ 0 < s ∧ s ≤ curveOrder / 2 := by
    have hder : isDERSignature (derSignature r s ++ [ht]) = true :=
      isDERSignature_iff.mpr ⟨hlength, r, s, ht, rfl⟩
    rw [List.length_append, length_derSignature, List.length_singleton] at hlength
    have hR := toNat_length (show (signedBytes r).length ≤ 73 by omega)
    have hS := toNat_length (show (signedBytes s).length ≤ 73 by omega)
    rw [isLowDERSignature, hder]
    rw [derSignature_append]
    have h3 (h1 lenR lenS : UInt8) : (signatureText 0x30 h1 2 lenR 2 lenS ht (signedBytes r)
        (signedBytes s)).getD 3 0 = lenR := rfl
    simp only [Bool.not_true, Bool.false_eq_true, if_false, h3, hR, getD_signatureText, hS,
      drop_signatureText, List.take_left, checkSignatureElement_half, value_signedBytes]
  constructor
  · intro h
    have hder : isDERSignature vchSig = true := by
      unfold isLowDERSignature at h
      split_ifs at h with hder
      simpa using hder
    obtain ⟨hlength, r, s, ht, rfl⟩ := isDERSignature_iff.mp hder
    exact ⟨hlength, r, s, ht, rfl, (hlow r s ht hlength).mp h⟩
  · rintro ⟨hlength, r, s, ht, rfl, hs⟩
    exact (hlow r s ht hlength).mpr hs

theorem isDefinedHashtypeSignature_append (text : Vchtype) (ht : UInt8) :
    isDefinedHashtypeSignature (text ++ [ht]) = true ↔
      SIGHASH_ALL ≤ ht.toNat % SIGHASH_ANYONECANPAY ∧
        ht.toNat % SIGHASH_ANYONECANPAY ≤ SIGHASH_SINGLE := by
  simp [isDefinedHashtypeSignature]

/-- `CheckSignatureEncoding` lets through no other text than that of a signature. -/
theorem checkSignatureEncoding_iff (flags : ℕ) (vchSig : Vchtype) :
    checkSignatureEncoding vchSig flags = true ↔
      hasFlag flags SCRIPT_VERIFY_ALLOW_EMPTY_SIG = true ∧ vchSig = [] ∨
        ∃ r s nHashType, EncodesSignature flags vchSig r s nHashType := by
  have hencodes : (∃ r s nHashType, EncodesSignature flags vchSig r s nHashType) ↔
      isLowDERSignature vchSig = true ∧ (hasFlag flags SCRIPT_VERIFY_FIX_HASHTYPE = true ∨
        isDefinedHashtypeSignature vchSig = true) := by
    rw [isLowDERSignature_iff]
    constructor
    · rintro ⟨r, s, ht, htext, hlength, hpos, hlow, hhash⟩
      refine ⟨⟨hlength, r, s, ht, htext, hpos, hlow⟩, ?_⟩
      rwa [htext, isDefinedHashtypeSignature_append]
    · rintro ⟨⟨hlength, r, s, ht, htext, hpos, hlow⟩, hhash⟩
      rw [htext, isDefinedHashtypeSignature_append] at hhash
      exact ⟨r, s, ht, htext, hlength, hpos, hlow, hhash⟩
  rw [hencodes]
  unfold checkSignatureEncoding
  split_ifs with hempty hlow
  · simp [hempty]
  · simp_all
  · simp_all

/-- A signature can not be changed into another text that is let through: its numbers have one
text, and of a number and its opposite modulo the order only one is low. -/
theorem signature_canonical (flags : ℕ) :
    (∀ vchSig, checkSignatureEncoding vchSig flags = true ↔
      hasFlag flags SCRIPT_VERIFY_ALLOW_EMPTY_SIG = true ∧ vchSig = [] ∨
        ∃ r s nHashType, EncodesSignature flags vchSig r s nHashType) ∧
    ∀ vchSig vchSig' r r' s s' nHashType nHashType',
      EncodesSignature flags vchSig r s nHashType →
      EncodesSignature flags vchSig' r' s' nHashType' →
      (vchSig = vchSig' ↔ r = r' ∧ (s = s' ∨ s + s' = curveOrder) ∧ nHashType = nHashType') := by
  refine ⟨checkSignatureEncoding_iff flags, fun vchSig vchSig' r r' s s' ht ht' h h' => ?_⟩
  have hodd : curveOrder / 2 + curveOrder / 2 < curveOrder := by decide
  constructor
  · intro heq
    obtain ⟨hr, hs, hht⟩ := derSignature_inj (h.text ▸ h.length) (h.text ▸ h'.text ▸ heq)
    exact ⟨hr, .inl hs, hht⟩
  · rintro ⟨rfl, hs, rfl⟩
    rcases hs with rfl | hsum
    · rw [h.text, h'.text]
    · have := h.low
      have := h'.low
      omega

theorem signature_canonical_sample :
    derSignature 1 5 ++ [1] = derSignature 1 6 ++ [1] ↔
      1 = 1 ∧ (5 = 6 ∨ 5 + 6 = curveOrder) ∧ (1 : UInt8) = 1 :=
  (signature_canonical SCRIPT_VERIFY_NONE).2 _ _ _ _ _ _ _ _
    ⟨rfl, by decide, by decide, by decide, .inr (by decide)⟩
    ⟨rfl, by decide, by decide, by decide, .inr (by decide)⟩

end BitBay
