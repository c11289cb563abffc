import BitBay.Base.Numbers
import BitBay.Bridge.MintScript
import Mathlib.Data.List.TakeWhile

/-!
# Hex texts

`HexStr` writes two lower case digits for every byte. The texts are read back by `ParseHex`
and by `eth_hex_to_bytes`, and texts of one length are ordered as their bytes are. `GetHex`
writes a hash as one number, the highest digit first.
-/
namespace BitBay

/-- `uint256::GetHex`: 64 digits, the highest first. -/
def getHex (hash : UInt256) : CString :=
  (List.range 64).map fun i => hexChar (hash.toNat / 16 ^ (63 - i) % 16)

def txoutText (txhash : UInt256) (i : ℕ) : CString := getHex txhash ++ ':' :: CString.ofInt i

def isHex (s : CString) : Bool :=
  s ≠ [] ∧ s.length % 2 = 0 ∧ s.all fun c => (hexDigit c).isSome

/-! ## Digits -/

theorem hexChar_inj : ∀ a < 16, ∀ b < 16, hexChar a = hexChar b → a = b := by decide

theorem hexChar_lt : ∀ a < 16, ∀ b < 16, hexChar a < hexChar b ↔ a < b := by decide

theorem hexDigit_hexChar : ∀ a < 16, hexDigit (hexChar a) = some a := by decide

theorem isSpace_hexChar : ∀ a < 16, CString.isSpace (hexChar a) = false := by decide

theorem hexChar_ne_colon : ∀ a < 16, hexChar a ≠ ':' := by decide

theorem high_lt (b : UInt8) : b.toNat / 16 < 16 := by
  have hb := b.toNat_lt
  omega

theorem low_lt (b : UInt8) : b.toNat % 16 < 16 := Nat.mod_lt _ (by decide)

/-- The digits of a byte are digits. -/
theorem mem_hexStr {c : Char} {b : List UInt8} (h : c ∈ hexStr b) : ∃ a < 16, c = hexChar a := by
  induction b with
  | nil => simp [hexStr] at h
  | cons x rest ih =>
    rw [hexStr, List.mem_cons, List.mem_cons] at h
    rcases h with h | h | h
    · exact ⟨_, high_lt x, h⟩
    · exact ⟨_, low_lt x, h⟩
    · exact ih h

@[simp] theorem length_hexStr (b : List UInt8) : (hexStr b).length = 2 * b.length := by
  induction b with
  | nil => rfl
  | cons x rest ih =>
    rw [hexStr, List.length_cons, List.length_cons, ih, List.length_cons]
    ring

/-! ## Reading -/

theorem parseHex_go (b : List UInt8) (k : ℕ) (hk : b.length ≤ k) :
    parseHex.go k (hexStr b) = b := by
  induction b generalizing k with
  | nil => cases k <;> rfl
  | cons x rest ih =>
    cases k with
    | zero => simp at hk
    | succ k =>
      have hdrop : (hexStr (x :: rest)).dropWhile CString.isSpace = hexStr (x :: rest) := by
        rw [hexStr, List.dropWhile_cons, isSpace_hexChar _ (high_lt x), if_neg Bool.false_ne_true]
      have hbyte : UInt8.ofNat (x.toNat / 16 * 16 + x.toNat % 16) = x := by
        rw [mul_comm, Nat.div_add_mod, UInt8.ofNat_toNat]
      rw [parseHex.go, hdrop, hexStr]
      simp only [hexDigit_hexChar _ (high_lt x), hexDigit_hexChar _ (low_lt x), hbyte,
        ih k (Nat.le_of_succ_le_succ hk)]

theorem parseHex_hexStr (b : List UInt8) : parseHex (hexStr b) = b := by
  refine parseHex_go b _ ?_
  rw [length_hexStr]
  omega

theorem hexStr_injective : Function.Injective hexStr :=
  Function.LeftInverse.injective parseHex_hexStr

theorem hexToBytes_hexStr {b : List UInt8} (h : b ≠ []) : hexToBytes (hexStr b) = some b := by
  have hempty : hexStr b ≠ [] := by
    rw [← List.length_pos_iff, length_hexStr]
    have := List.length_pos_iff.mpr h
    omega
  have hdigits : (hexStr b).any (fun c => (hexDigit c).isNone) = false := by
    rw [List.any_eq_false]
    intro c hc
    obtain ⟨a, ha, rfl⟩ := mem_hexStr hc
    simp [hexDigit_hexChar a ha]
  have heven : (hexStr b).length % 2 = 0 := by
    rw [length_hexStr]
    omega
  rw [hexToBytes, if_neg (by simp [hempty, hdigits]), if_pos heven, parseHex_hexStr]

/-- Texts of one length are ordered as the bytes they stand for. -/
theorem lex_hexStr {a b : List UInt8} (h : a.length = b.length) :
    List.lex (hexStr a) (hexStr b) (fun x y => decide (x < y)) =
      List.lex a b (fun x y => decide (x < y)) := by
  induction a generalizing b with
  | nil =>
    obtain rfl := List.length_eq_zero_iff.mp h.symm
    rfl
  | cons x rest ih =>
    cases b with
    | nil => simp at h
    | cons y rest' =>
      have hrest := ih (Nat.succ.inj h)
      have hhigh := hexChar_lt _ (high_lt x) _ (high_lt y)
      have hlow := hexChar_lt _ (low_lt x) _ (low_lt y)
      have hhigh' : hexChar (x.toNat / 16) = hexChar (y.toNat / 16) ↔ x.toNat / 16 = y.toNat / 16 :=
        ⟨hexChar_inj _ (high_lt x) _ (high_lt y), congrArg hexChar⟩
      have hlow' : hexChar (x.toNat % 16) = hexChar (y.toNat % 16) ↔ x.toNat % 16 = y.toNat % 16 :=
        ⟨hexChar_inj _ (low_lt x) _ (low_lt y), congrArg hexChar⟩
      have hx := Nat.div_add_mod x.toNat 16
      have hy := Nat.div_add_mod y.toNat 16
      rw [hexStr, hexStr, List.cons_lex_cons, List.cons_lex_cons, List.cons_lex_cons, hrest,
        Bool.eq_iff_iff]
      generalize List.lex rest rest' (fun x y => decide (x < y)) = below
      simp only [hhigh, hlow, UInt8.lt_iff_toNat_lt, Bool.or_eq_true, Bool.and_eq_true,
        decide_eq_true_eq, beq_iff_eq, hhigh', hlow', ← UInt8.toNat_inj]
      cases below with
      | true =>
        simp only [and_true]
        omega
      | false =>
        simp only [Bool.false_eq_true, and_false, or_false]
        omega

/-! ## Hashes -/

theorem mod_pow_eq_of_digits {a b k : ℕ} (h : ∀ i < k, a / 16 ^ i % 16 = b / 16 ^ i % 16) :
    a % 16 ^ k = b % 16 ^ k := by
  induction k with
  | zero => rw [pow_zero, Nat.mod_one, Nat.mod_one]
  | succ k ih =>
    rw [Nat.mod_pow_succ, Nat.mod_pow_succ, ih fun i hi => h i (Nat.lt_succ_of_lt hi),
      h k (Nat.lt_succ_self k)]

theorem getHex_injective : Function.Injective getHex := by
  intro a b heq
  have hdigits : ∀ i < 64, a.toNat / 16 ^ i % 16 = b.toNat / 16 ^ i % 16 := by
    intro i hi
    have hchar := List.map_inj_left.mp heq (63 - i) (List.mem_range.mpr (by omega))
    rw [show 63 - (63 - i) = i by omega] at hchar
    exact hexChar_inj _ (Nat.mod_lt _ (by decide)) _ (Nat.mod_lt _ (by decide)) hchar
  have hmod := mod_pow_eq_of_digits hdigits
  have hpow : 16 ^ 64 = 2 ^ 256 := by norm_num
  rw [hpow, Nat.mod_eq_of_lt a.isLt, Nat.mod_eq_of_lt b.isLt] at hmod
  exact BitVec.eq_of_toNat_eq hmod

theorem ofDigits_append_singleton (base d : ℕ) (ds : List ℕ) :
    CString.ofDigits base (ds ++ [d]) = CString.ofDigits base ds * base + d := by
  rw [CString.ofDigits, List.foldl_append]
  rfl

/-- The digits of `GetHex` make up the number. -/
theorem ofDigits_range (k n : ℕ) :
    CString.ofDigits 16 ((List.range k).map fun i => n / 16 ^ (k - 1 - i) % 16) = n % 16 ^ k := by
  induction k generalizing n with
  | zero => simp [CString.ofDigits, Nat.mod_one]
  | succ k ih =>
    have hfront : ((List.range k).map fun i => n / 16 ^ (k + 1 - 1 - i) % 16) =
        (List.range k).map fun i => n / 16 / 16 ^ (k - 1 - i) % 16 := by
      refine List.map_congr_left fun i hi => ?_
      rw [List.mem_range] at hi
      rw [Nat.div_div_eq_div_mul, ← pow_succ', show k - 1 - i + 1 = k + 1 - 1 - i by omega]
    rw [List.range_succ, List.map_append, hfront, List.map_singleton, ofDigits_append_singleton, ih,
      show k + 1 - 1 - k = 0 by omega, pow_zero, Nat.div_one, pow_succ', Nat.mod_mul]
    ring

/-- A text of hexadecimal digits is read as its number. -/
theorem setHex_map_hexChar {ds : List ℕ} (h : ∀ d ∈ ds, d < 16) :
    setHex (ds.map hexChar) = BitVec.ofNat 256 (CString.ofDigits 16 ds) := by
  have hzero : ∀ a < 16, (hexChar a).toNat ≠ 0 := by decide
  have hletter : ∀ a < 16, ¬ (hexChar a = 'x' ∨ hexChar a = 'X') := by decide
  have hvalue : ∀ a < 16, CString.digitVal (hexChar a) = some a := by decide
  have hcStr : CString.cStr (ds.map hexChar) = ds.map hexChar := by
    rw [CString.cStr, List.takeWhile_eq_self_iff]
    intro c hc
    obtain ⟨d, hd, rfl⟩ := List.mem_map.mp hc
    exact decide_eq_true (hzero d (h d hd))
  have hspace : (ds.map hexChar).dropWhile CString.isSpace = ds.map hexChar := by
    cases ds with
    | nil => rfl
    | cons d rest =>
      rw [List.map_cons, List.dropWhile_cons, isSpace_hexChar d (h d List.mem_cons_self),
        if_neg Bool.false_ne_true]
  have hdigits : CString.takeDigits 16 (ds.map hexChar) = ds := by
    have hall : (ds.map hexChar).takeWhile (CString.isDigit 16) = ds.map hexChar := by
      rw [List.takeWhile_eq_self_iff]
      intro c hc
      obtain ⟨d, hd, rfl⟩ := List.mem_map.mp hc
      rw [CString.isDigit, hvalue d (h d hd), Option.any_some, decide_eq_true (h d hd)]
    have hread : ∀ d ∈ ds, (CString.digitVal ∘ hexChar) d = some d := fun d hd => hvalue d (h d hd)
    rw [CString.takeDigits, hall, List.filterMap_map, List.filterMap_congr hread,
      List.filterMap_some]
  unfold setHex
  rw [hcStr, hspace]
  dsimp only
  split
  · rename_i x rest heq
    have hx : ¬ (x = 'x' ∨ x = 'X') := by
      have hmem : x ∈ ds.map hexChar := by simp [heq]
      obtain ⟨d, hd, rfl⟩ := List.mem_map.mp hmem
      exact hletter d (h d hd)
    rw [if_neg hx, ← heq, hdigits]
  · rw [hdigits]

/-- `uint256(hash.GetHex())` -/
theorem setHex_getHex (hash : UInt256) : setHex (getHex hash) = hash := by
  have hmap : getHex hash =
      ((List.range 64).map fun i => hash.toNat / 16 ^ (64 - 1 - i) % 16).map hexChar := by
    rw [List.map_map]
    rfl
  have hdigits : ∀ d ∈ (List.range 64).map fun i => hash.toNat / 16 ^ (64 - 1 - i) % 16,
      d < 16 := by
    intro d hd
    obtain ⟨i, -, rfl⟩ := List.mem_map.mp hd
    exact Nat.mod_lt _ (by decide)
  have hpow : 16 ^ 64 = 2 ^ 256 := by norm_num
  rw [hmap, setHex_map_hexChar hdigits, ofDigits_range, hpow, Nat.mod_eq_of_lt hash.isLt,
    BitVec.ofNat_toNat, BitVec.setWidth_eq]

theorem length_getHex (hash : UInt256) : (getHex hash).length = 64 := by
  rw [getHex, List.length_map, List.length_range]

theorem mem_getHex {hash : UInt256} {c : Char} (h : c ∈ getHex hash) : ∃ a < 16, c = hexChar a := by
  obtain ⟨i, -, rfl⟩ := List.mem_map.mp h
  exact ⟨_, Nat.mod_lt _ (by decide), rfl⟩

end BitBay
