import BitBay.Base.Script
import BitBay.Library.Positional
import BitBay.Library.Wire

/-!
# Base 58

An address is the base 58 text of a version byte and 20 bytes of data, with four bytes of their
hash behind them. `DecodeBase58` skips white space in front of a text and behind it, so that a
text need not be the one that `EncodeBase58` writes for its bytes.
-/
namespace BitBay

def pszBase58 : CString := "123456789ABCDEFGHJKLMNPQRSTUVWXYZabcdefghijkmnopqrstuvwxyz".toList

def base58Char (d : ℕ) : Char := pszBase58.getD d '1'

def base58Digit (c : Char) : Option ℕ := pszBase58.idxOf? c

def encodeBase58 (vch : List UInt8) : CString :=
  (Positional.rebase 256 58 (vch.map UInt8.toNat)).map base58Char

def skipSpace (s : CString) : CString := s.cStr.dropWhile CString.isSpace

def base58Text (s : CString) : CString := (skipSpace s).takeWhile fun c => (base58Digit c).isSome

/-- `DecodeBase58`: behind the digits there is nothing but white space. -/
def decodeBase58 (s : CString) : Option (List UInt8) :=
  if ((skipSpace s).drop (base58Text s).length).dropWhile CString.isSpace = [] then
    some ((Positional.rebase 58 256 ((base58Text s).filterMap base58Digit)).map UInt8.ofNat)
  else none

/-! ## Digits -/

theorem base58Digit_char {d : ℕ} (h : d < 58) : base58Digit (base58Char d) = some d := by
  have hall : ∀ d : Fin 58, base58Digit (base58Char d) = some (d : ℕ) := by decide +kernel
  exact hall ⟨d, h⟩

/-- The digit that is found is the one of the character. -/
theorem base58Char_digit {c : Char} {d : ℕ} (h : base58Digit c = some d) :
    base58Char d = c ∧ d < 58 := by
  obtain ⟨hlt, hchar, -⟩ := List.idxOf?_eq_some_iff.mp h
  refine ⟨?_, hlt⟩
  rw [base58Char, List.getD_eq_getElem?_getD, List.getElem?_eq_getElem hlt, Option.getD_some]
  exact hchar

/-- No digit is white space, and none ends a text. -/
theorem base58Char_visible {d : ℕ} (h : d < 58) :
    CString.isSpace (base58Char d) = false ∧ (base58Char d).toNat ≠ 0 := by
  have hall : ∀ d : Fin 58, CString.isSpace (base58Char d) = false ∧ (base58Char d).toNat ≠ 0 := by
    decide +kernel
  exact hall ⟨d, h⟩

section Texts

variable {ds : List ℕ} {s : CString} {vch : List UInt8}

theorem filterMap_base58Char (h : ∀ d ∈ ds, d < 58) :
    (ds.map base58Char).filterMap base58Digit = ds := by
  rw [List.filterMap_map]
  exact (List.filterMap_congr fun d hd => base58Digit_char (h d hd)).trans List.filterMap_some

theorem map_base58Digit (h : ∀ c ∈ s, (base58Digit c).isSome) :
    (s.filterMap base58Digit).map base58Char = s := by
  induction s with
  | nil => rfl
  | cons c rest ih =>
    obtain ⟨d, hd⟩ := Option.isSome_iff_exists.mp (h c List.mem_cons_self)
    rw [List.filterMap_cons_some hd, List.map_cons, (base58Char_digit hd).1,
      ih fun c hc => h c (List.mem_cons_of_mem _ hc)]

/-- Texts of digits are read from their start to their end. -/
theorem base58Text_map (h : ∀ d ∈ ds, d < 58) : base58Text (ds.map base58Char) = ds.map base58Char ∧
    skipSpace (ds.map base58Char) = ds.map base58Char := by
  have hend : CString.cStr (ds.map base58Char) = ds.map base58Char := by
    rw [CString.cStr, List.takeWhile_eq_self_iff]
    intro c hc
    obtain ⟨d, hd, rfl⟩ := List.mem_map.mp hc
    exact decide_eq_true (base58Char_visible (h d hd)).2
  have hskip : skipSpace (ds.map base58Char) = ds.map base58Char := by
    rw [skipSpace, hend]
    cases ds with
    | nil => rfl
    | cons d rest =>
      have hspace := (base58Char_visible (h d List.mem_cons_self)).1
      simp [hspace]
  refine ⟨?_, hskip⟩
  rw [base58Text, hskip, List.takeWhile_eq_self_iff]
  intro c hc
  obtain ⟨d, hd, rfl⟩ := List.mem_map.mp hc
  simp [base58Digit_char (h d hd)]

theorem map_toNat_ofNat (h : ∀ d ∈ ds, d < 256) : (ds.map UInt8.ofNat).map UInt8.toNat = ds := by
  rw [List.map_map]
  exact (List.map_congr_left fun d hd => UInt8.toNat_ofNat_of_lt' (h d hd)).trans (List.map_id ds)

/-- What is written for bytes is read as these bytes. -/
theorem decodeBase58_encode (vch : List UInt8) : decodeBase58 (encodeBase58 vch) = some vch := by
  have hlt : ∀ d ∈ Positional.rebase 256 58 (vch.map UInt8.toNat), d < 58 :=
    fun d hd => Positional.rebase_lt (by decide) hd
  have hbytes : ∀ d ∈ vch.map UInt8.toNat, d < 256 := by
    intro d hd
    obtain ⟨b, -, rfl⟩ := List.mem_map.mp hd
    exact b.toNat_lt
  rw [decodeBase58, encodeBase58, (base58Text_map hlt).1, (base58Text_map hlt).2, List.drop_length,
    if_pos List.dropWhile_nil, filterMap_base58Char hlt,
    Positional.rebase_rebase (by decide) (by decide) hbytes, List.map_map]
  simp [Function.comp_def]

/-- The text that is written for the bytes is the one between the white space. -/
theorem encodeBase58_decode (h : decodeBase58 s = some vch) : encodeBase58 vch = base58Text s := by
  have hdigits : ∀ c ∈ base58Text s, (base58Digit c).isSome :=
    fun c hc => List.mem_takeWhile_imp (p := fun c => (base58Digit c).isSome) hc
  have hlt : ∀ d ∈ (base58Text s).filterMap base58Digit, d < 58 := by
    intro d hd
    obtain ⟨c, -, hc⟩ := List.mem_filterMap.mp hd
    exact (base58Char_digit hc).2
  rw [decodeBase58] at h
  split at h
  · obtain rfl := Option.some.inj h
    rw [encodeBase58, map_toNat_ofNat fun d hd => Positional.rebase_lt (by decide) hd,
      Positional.rebase_rebase (by decide) (by decide) hlt, map_base58Digit hdigits]
  · cases h

/-- Texts that are written consist of digits. -/
theorem isSome_of_mem_encodeBase58 {c : Char} (h : c ∈ encodeBase58 vch) :
    (base58Digit c).isSome := by
  obtain ⟨d, hd, rfl⟩ := List.mem_map.mp h
  rw [base58Digit_char (Positional.rebase_lt (by decide) hd)]
  rfl

/-- White space in front of a text changes nothing. -/
theorem decodeBase58_space {c : Char} (hspace : CString.isSpace c = true) (s : CString) :
    decodeBase58 (c :: s) = decodeBase58 s := by
  have hend : c.toNat ≠ 0 := by
    intro hzero
    simp [CString.isSpace, hzero] at hspace
  have hskip : skipSpace (c :: s) = skipSpace s := by
    simp [skipSpace, CString.cStr, hend, hspace]
  rw [decodeBase58, decodeBase58, base58Text, base58Text, hskip]

end Texts

/-! ## Checksums -/

section Check

variable (Hash : CString → UInt256)

def base58Checksum (vch : List UInt8) : List UInt8 :=
  Wire.leBytes 4 (Hash (CScript.toCString vch)).toNat

def encodeBase58Check (vchIn : List UInt8) : CString :=
  encodeBase58 (vchIn ++ base58Checksum Hash vchIn)

def decodeBase58Check (s : CString) : Option (List UInt8) :=
  (decodeBase58 s).bind fun vch =>
    if vch.length < 4 then none
    else
      let vchRet := vch.take (vch.length - 4)
      if base58Checksum Hash vchRet = vch.drop (vch.length - 4) then some vchRet else none

variable {Hash}

theorem decodeBase58Check_encode (vch : List UInt8) :
    decodeBase58Check Hash (encodeBase58Check Hash vch) = some vch := by
  have hchecksum : (base58Checksum Hash vch).length = 4 := Wire.length_leBytes _ _
  have hlength : (vch ++ base58Checksum Hash vch).length - 4 = vch.length := by
    rw [List.length_append, hchecksum, Nat.add_sub_cancel]
  have hlong : ¬ (vch ++ base58Checksum Hash vch).length < 4 := by
    rw [List.length_append, hchecksum]
    omega
  rw [decodeBase58Check, encodeBase58Check, decodeBase58_encode, Option.bind_some, if_neg hlong]
  simp only [hlength, List.take_left, List.drop_left, if_pos]

/-- An accepted text is the written one with white space around it. -/
theorem encodeBase58Check_decode {s : CString} {vch : List UInt8}
    (h : decodeBase58Check Hash s = some vch) : encodeBase58Check Hash vch = base58Text s := by
  obtain ⟨all, hall, hcheck⟩ := Option.bind_eq_some_iff.mp h
  split at hcheck
  · cases hcheck
  · dsimp only at hcheck
    split at hcheck
    · rename_i hsum
      obtain rfl := Option.some.inj hcheck
      rw [encodeBase58Check, hsum, List.take_append_drop, encodeBase58_decode hall]
    · cases hcheck

theorem decodeBase58Check_space {c : Char} (hspace : CString.isSpace c = true) (s : CString) :
    decodeBase58Check Hash (c :: s) = decodeBase58Check Hash s := by
  rw [decodeBase58Check, decodeBase58_space hspace, decodeBase58Check]

end Check

end BitBay
