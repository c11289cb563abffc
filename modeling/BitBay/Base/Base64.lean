import BitBay.Base.Text

/-!
# Base 64

`EncodeBase64` cuts bytes into groups of six bits and pads the text with `=`. `DecodeBase64`
reads up to the first character that is no digit. Both keep what is left of the last byte
between two steps.
-/
namespace BitBay

def pbase64 : CString := "ABCDEFGHIJKLMNOPQRSTUVWXYZabcdefghijklmnopqrstuvwxyz0123456789+/".toList

def base64Digit (n : ℕ) : Char := pbase64.getD n '='

def decode64 (c : Char) : Option ℕ := pbase64.idxOf? c

/-- The loop of `EncodeBase64`, by its mode. The bits that `|` joins do not overlap, so it is
a sum. -/
def encodeBase64From : ℕ → ℕ → List UInt8 → CString
  | 0, _, [] => []
  | 1, left, [] => [base64Digit left, '=', '=']
  | _, left, [] => [base64Digit left, '=']
  | 0, _, enc :: rest =>
    base64Digit (enc.toNat / 4) :: encodeBase64From 1 (enc.toNat % 4 * 16) rest
  | 1, left, enc :: rest =>
    base64Digit (left + enc.toNat / 16) :: encodeBase64From 2 (enc.toNat % 16 * 4) rest
  | _, left, enc :: rest =>
    base64Digit (left + enc.toNat / 64) :: base64Digit (enc.toNat % 64) ::
      encodeBase64From 0 left rest

def encodeBase64 (str : List UInt8) : CString := encodeBase64From 0 0 str

def decodeBase64From : ℕ → ℕ → CString → List UInt8
  | _, _, [] => []
  | mode, left, c :: rest =>
    match decode64 c with
    | none => []
    | some dec =>
      match mode with
      | 0 => decodeBase64From 1 dec rest
      | 1 => UInt8.ofNat (left * 4 + dec / 16) :: decodeBase64From 2 (dec % 16) rest
      | 2 => UInt8.ofNat (left * 16 + dec / 4) :: decodeBase64From 3 (dec % 4) rest
      | _ => UInt8.ofNat (left * 64 + dec) :: decodeBase64From 0 left rest

def decodeBase64 (str : CString) : List UInt8 := decodeBase64From 0 0 str

theorem decode64_base64Digit {n : ℕ} (h : n < 64) : decode64 (base64Digit n) = some n := by
  have hall : ∀ n : Fin 64, decode64 (base64Digit n) = some (n : ℕ) := by decide +kernel
  exact hall ⟨n, h⟩

section Digits

variable {left n : ℕ} {rest : CString}

theorem decodeBase64From_zero (h : n < 64) :
    decodeBase64From 0 left (base64Digit n :: rest) = decodeBase64From 1 n rest := by
  simp only [decodeBase64From, decode64_base64Digit h]

theorem decodeBase64From_one (h : n < 64) :
    decodeBase64From 1 left (base64Digit n :: rest) =
      UInt8.ofNat (left * 4 + n / 16) :: decodeBase64From 2 (n % 16) rest := by
  simp only [decodeBase64From, decode64_base64Digit h]

theorem decodeBase64From_two (h : n < 64) :
    decodeBase64From 2 left (base64Digit n :: rest) =
      UInt8.ofNat (left * 16 + n / 4) :: decodeBase64From 3 (n % 4) rest := by
  simp only [decodeBase64From, decode64_base64Digit h]

theorem decodeBase64From_three (h : n < 64) :
    decodeBase64From 3 left (base64Digit n :: rest) =
      UInt8.ofNat (left * 64 + n) :: decodeBase64From 0 left rest := by
  simp only [decodeBase64From, decode64_base64Digit h]

end Digits

theorem decodeBase64From_pad (mode left : ℕ) (rest : CString) :
    decodeBase64From mode left ('=' :: rest) = [] := by
  have hpad : decode64 '=' = none := by decide
  rw [decodeBase64From, hpad]

theorem ofNat_eq_self {b : UInt8} {n : ℕ} (h : n = b.toNat) : UInt8.ofNat n = b := by
  rw [h, UInt8.ofNat_toNat]

/-- The decoder follows the encoder: it holds the high bits of the byte whose low bits the
encoder has left. -/
theorem decodeBase64From_encode (str : List UInt8) :
    (∀ left left', decodeBase64From 0 left (encodeBase64From 0 left' str) = str) ∧
    (∀ b : UInt8, decodeBase64From 1 (b.toNat / 4) (encodeBase64From 1 (b.toNat % 4 * 16) str) =
      b :: str) ∧
    ∀ b : UInt8, decodeBase64From 2 (b.toNat / 16) (encodeBase64From 2 (b.toNat % 16 * 4) str) =
      b :: str := by
  induction str with
  | nil =>
    refine ⟨fun _ _ => rfl, fun b => ?_, fun b => ?_⟩
    · have hb := b.toNat_lt
      rw [encodeBase64From, decodeBase64From_one (by omega), decodeBase64From_pad,
        ofNat_eq_self (b := b) (by omega)]
    · have hb := b.toNat_lt
      have hencode : encodeBase64From 2 (b.toNat % 16 * 4) [] =
          [base64Digit (b.toNat % 16 * 4), '='] := rfl
      rw [hencode, decodeBase64From_two (by omega), decodeBase64From_pad,
        ofNat_eq_self (b := b) (by omega)]
  | cons c rest ih =>
    obtain ⟨ih0, ih1, ih2⟩ := ih
    have hc := c.toNat_lt
    refine ⟨fun left left' => ?_, fun b => ?_, fun b => ?_⟩
    · rw [encodeBase64From, decodeBase64From_zero (by omega)]
      exact ih1 c
    · have hb := b.toNat_lt
      have hleft : (b.toNat % 4 * 16 + c.toNat / 16) % 16 = c.toNat / 16 := by omega
      rw [encodeBase64From, decodeBase64From_one (by omega), hleft, ih2,
        ofNat_eq_self (b := b) (by omega)]
    · have hb := b.toNat_lt
      have hleft : (b.toNat % 16 * 4 + c.toNat / 64) % 4 = c.toNat / 64 := by omega
      have hencode : encodeBase64From 2 (b.toNat % 16 * 4) (c :: rest) =
          base64Digit (b.toNat % 16 * 4 + c.toNat / 64) :: base64Digit (c.toNat % 64) ::
            encodeBase64From 0 (b.toNat % 16 * 4) rest := rfl
      rw [hencode, decodeBase64From_two (by omega), hleft, decodeBase64From_three (by omega), ih0,
        ofNat_eq_self (b := b) (by omega), ofNat_eq_self (b := c) (by omega)]

/-- Decoding takes encoding back. -/
theorem decodeBase64_encodeBase64 (str : List UInt8) : decodeBase64 (encodeBase64 str) = str :=
  (decodeBase64From_encode str).1 0 0

example : encodeBase64 [1, 0, 0, 255] = "AQAA/w==".toList := by decide

end BitBay
