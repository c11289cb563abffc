import BitBay.Library.Positional

/-!
# Numbers in big-endian bytes

A number is written with its highest byte first. Where the highest bit is read as a sign, a zero
stands in front of a byte that has the bit. No other zero does, so every number has one text.
-/
namespace BitBay.BigEndian

/-- The number that bytes stand for, the highest one first. -/
def value (l : List UInt8) : ℕ := Positional.value 256 (l.map UInt8.toNat)

/-- The bytes of a number, with no zero in front. -/
def bytes (n : ℕ) : List UInt8 := (Positional.digits 256 n).map UInt8.ofNat

def signedBytes (n : ℕ) : List UInt8 :=
  if (bytes n).headD 0x80 < 0x80 then bytes n else 0 :: bytes n

/-- As few bytes as a number without sign needs where a sign is read. -/
structure Minimal (l : List UInt8) : Prop where
  ne_nil : l ≠ []
  unsigned : l.headD 0 < 0x80
  needed : ∀ b rest, l = 0 :: b :: rest → 0x80 ≤ b

variable {b b' : UInt8} {l l' : List UInt8} {n : ℕ}

@[simp] theorem value_nil : value [] = 0 := rfl

theorem value_append (l l' : List UInt8) :
    value (l ++ l') = value l * 256 ^ l'.length + value l' := by
  simp only [value, List.map_append, Positional.value_eq, List.reverse_append, Nat.ofDigits_append,
    List.length_reverse, List.length_map]
  ring

@[simp] theorem value_singleton (b : UInt8) : value [b] = b.toNat := by
  simp [value, Positional.value]

theorem value_cons (b : UInt8) (l : List UInt8) :
    value (b :: l) = b.toNat * 256 ^ l.length + value l := by
  rw [← List.singleton_append, value_append, value_singleton]

theorem value_lt (l : List UInt8) : value l < 256 ^ l.length := by
  induction l with
  | nil => simp
  | cons b l ih =>
    have hb := b.toNat_lt
    have hle : b.toNat * 256 ^ l.length ≤ 255 * 256 ^ l.length :=
      Nat.mul_le_mul_right _ (by omega)
    rw [value_cons, List.length_cons, pow_succ']
    omega

theorem value_eq_zero_iff : value l = 0 ↔ ∀ b ∈ l, b = 0 := by
  induction l with
  | nil => simp
  | cons b l ih =>
    have hb : b.toNat = 0 ↔ b = 0 := by
      rw [← UInt8.toNat_inj]
      rfl
    simp [value_cons, ih, hb]

/-- The first byte that differs decides. -/
theorem value_lt_of_head_lt (hlength : l.length = l'.length) (h : b < b') :
    value (b :: l) < value (b' :: l') := by
  have hl := value_lt l
  have hlt : b.toNat + 1 ≤ b'.toNat := UInt8.lt_iff_toNat_lt.mp h
  have hle := Nat.mul_le_mul_right (256 ^ l'.length) hlt
  rw [value_cons, value_cons, hlength] at *
  rw [Nat.add_mul] at hle
  omega

theorem map_toNat_bytes (n : ℕ) : (bytes n).map UInt8.toNat = Positional.digits 256 n := by
  rw [bytes, List.map_map]
  refine (List.map_congr_left fun d hd => ?_).trans (List.map_id _)
  exact UInt8.toNat_ofNat_of_lt' (Positional.digits_lt (by decide) hd)

@[simp] theorem value_bytes (n : ℕ) : value (bytes n) = n := by
  rw [value, map_toNat_bytes, Positional.value_digits (by decide)]

/-- Bytes that start with another one than zero are those of their number. -/
theorem bytes_value (hb : b ≠ 0) (l : List UInt8) : bytes (value (b :: l)) = b :: l := by
  have hlt : ∀ d ∈ (b :: l).map UInt8.toNat, d < 256 := by
    intro d hd
    obtain ⟨c, -, rfl⟩ := List.mem_map.mp hd
    exact c.toNat_lt
  have hzeros : Positional.zeros ((b :: l).map UInt8.toNat) = 0 := by
    have hne : b.toNat ≠ 0 := fun h => hb (UInt8.toNat_inj.mp h)
    simp [Positional.zeros, hne]
  have hdigits := Positional.zeros_append_digits (b := 256) (by decide) hlt
  rw [hzeros, List.replicate_zero, List.nil_append] at hdigits
  rw [bytes, value, hdigits, List.map_map]
  exact (List.map_congr_left fun c _ => UInt8.ofNat_toNat).trans (List.map_id _)

/-- The bytes of a number do not start with a zero. -/
theorem bytes_eq_cons (h : bytes n = b :: l) : b ≠ 0 := by
  rintro rfl
  have hzeros := Positional.zeros_digits (b := 256) (by decide) n
  rw [← map_toNat_bytes, h] at hzeros
  simp [Positional.zeros] at hzeros

/-! ## Numbers without sign where a sign is read -/

@[simp] theorem value_signedBytes (n : ℕ) : value (signedBytes n) = n := by
  unfold signedBytes
  split_ifs
  · exact value_bytes n
  · simp [value_cons]

theorem minimal_signedBytes (n : ℕ) : Minimal (signedBytes n) := by
  unfold signedBytes
  cases h : bytes n with
  | nil => exact ⟨by simp, by simp, by simp⟩
  | cons b l =>
    have hb := bytes_eq_cons h
    rw [List.headD_cons]
    split_ifs with hsmall
    · refine ⟨by simp, by simpa using hsmall, fun c rest heq => ?_⟩
      exact absurd (List.cons.inj heq).1 hb
    · refine ⟨by simp, by simp, fun c rest heq => ?_⟩
      obtain ⟨rfl, rfl⟩ : b = c ∧ l = rest := by simpa using heq
      exact UInt8.not_lt.mp hsmall

/-- Minimal bytes are those of their number. -/
theorem signedBytes_value (h : Minimal l) : signedBytes (value l) = l := by
  obtain ⟨hne, hunsigned, hneeded⟩ := h
  obtain ⟨b, rest, rfl⟩ := List.exists_cons_of_ne_nil hne
  unfold signedBytes
  by_cases hb : b = 0
  · subst hb
    have hvalue : value (0 :: rest) = value rest := by simp [value_cons]
    rw [hvalue]
    cases rest with
    | nil => decide
    | cons c rest =>
      have hc := hneeded c rest rfl
      have hc0 : c ≠ 0 := by
        rintro rfl
        exact absurd hc (by decide)
      rw [bytes_value hc0, List.headD_cons, if_neg (UInt8.not_lt.mpr hc)]
  · rw [bytes_value hb, List.headD_cons, if_pos (by simpa using hunsigned)]

/-- The length of the bytes is bounded by the number. -/
theorem length_signedBytes_le {k : ℕ} (h : n < 128 * 256 ^ k) :
    (signedBytes n).length ≤ k + 1 := by
  have hmin := minimal_signedBytes n
  have hvalue := value_signedBytes n
  by_contra hlong
  obtain ⟨b, rest, hl⟩ := List.exists_cons_of_ne_nil hmin.ne_nil
  rw [hl] at hmin hvalue hlong
  rw [List.length_cons] at hlong
  have hpow : 256 ^ (k + 1) ≤ 256 ^ rest.length := Nat.pow_le_pow_right (by decide) (by omega)
  by_cases hb : b = 0
  · subst hb
    obtain ⟨c, rest, rfl⟩ : ∃ c rest', rest = c :: rest' := by
      cases rest with
      | nil => simp at hlong
      | cons c rest => exact ⟨c, rest, rfl⟩
    have hc : 128 ≤ c.toNat := UInt8.le_iff_toNat_le.mp (hmin.needed c rest rfl)
    have hle : 256 ^ k ≤ 256 ^ rest.length :=
      Nat.pow_le_pow_right (by decide) (by simp only [List.length_cons] at hlong; omega)
    have hmul := Nat.mul_le_mul hc hle
    simp only [value_cons, UInt8.toNat_zero] at hvalue
    omega
  · have hpos : 1 ≤ b.toNat := by
      have hne : b.toNat ≠ 0 := fun h => hb (UInt8.toNat_inj.mp h)
      omega
    have hmul := Nat.mul_le_mul hpos hpow
    rw [value_cons] at hvalue
    rw [pow_succ] at hmul
    omega

end BitBay.BigEndian
