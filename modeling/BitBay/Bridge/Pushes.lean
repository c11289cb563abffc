import BitBay.Bridge.MintScript

/-!
# Pushes are read back

`operator<<` appends one operation to a script: a small number as an opcode of its own, other
numbers and byte strings with their length. `GetOp` takes the operation off again, and the
number of an operation is the number that was pushed.
-/
namespace BitBay

def vchOp (b : List UInt8) : ℕ × List UInt8 :=
  (if b.length < CScript.OP_PUSHDATA1 then b.length
    else if b.length ≤ 0xff then CScript.OP_PUSHDATA1
    else if b.length ≤ 0xffff then CScript.OP_PUSHDATA2
    else CScript.OP_PUSHDATA4, b)

def numberOp (n : ℤ) : ℕ × List UInt8 :=
  if n = -1 ∨ 1 ≤ n ∧ n ≤ 16 then ((n + (OP_1 - 1)).toNat, []) else vchOp (bigNumVch n)

structure Pushes (s : CScript) (op : ℕ × List UInt8) : Prop where
  ne_nil : s ≠ []
  opcode : op.1 ≤ OP_16
  getOp : ∀ rest, CScript.getOp (s ++ rest) = some (op.1, op.2, rest)

variable {b : List UInt8} {n : ℤ}

/-! ## Lengths -/

theorem leNat_width (k n : ℕ) (h : n < 256 ^ k) :
    CScript.leNat ((List.range k).map fun i => UInt8.ofNat (n / 256 ^ i)) = n := by
  induction k generalizing n with
  | zero =>
    have hn : n = 0 := by simpa using h
    rw [hn]
    rfl
  | succ k ih =>
    have hrest : n / 256 < 256 ^ k := by
      rw [Nat.div_lt_iff_lt_mul (by decide)]
      rwa [pow_succ] at h
    have hmap : ((List.range k).map fun i => UInt8.ofNat (n / 256 ^ (i + 1))) =
        (List.range k).map fun i => UInt8.ofNat (n / 256 / 256 ^ i) := by
      refine List.map_congr_left fun i _ => ?_
      rw [pow_succ', Nat.div_div_eq_div_mul]
    have hbyte : (UInt8.ofNat (n / 256 ^ 0)).toNat = n % 256 := by simp
    rw [List.range_succ_eq_map, List.map_cons, List.map_map]
    change (UInt8.ofNat (n / 256 ^ 0)).toNat +
      256 * CScript.leNat ((List.range k).map fun i => UInt8.ofNat (n / 256 ^ (i + 1))) = n
    rw [hmap, ih _ hrest, hbyte]
    omega

/-- An operation with its length behind the opcode. -/
theorem getOp_pushData {opcode width : ℕ} (hopcode : opcode ≤ CScript.OP_PUSHDATA4)
    (hwide : CScript.OP_PUSHDATA1 ≤ opcode)
    (hwidth : (if opcode = CScript.OP_PUSHDATA1 then 1 else if opcode = CScript.OP_PUSHDATA2 then 2
      else if opcode = CScript.OP_PUSHDATA4 then 4 else 0) = width)
    (h : b.length < 256 ^ width) (rest : CScript) :
    CScript.getOp (UInt8.ofNat opcode ::
      ((List.range width).map fun i => UInt8.ofNat (b.length / 256 ^ i)) ++ b ++ rest) =
      some (opcode, b, rest) := by
  have hbyte : (UInt8.ofNat opcode).toNat = opcode := by
    have h4 : CScript.OP_PUSHDATA4 < 256 := by decide
    exact UInt8.toNat_ofNat_of_lt' (lt_of_le_of_lt hopcode h4)
  have hsize := leNat_width width b.length h
  generalize hw : ((List.range width).map fun i => UInt8.ofNat (b.length / 256 ^ i)) = w at *
  have hlength : w.length = width := by rw [← hw, List.length_map, List.length_range]
  rw [List.cons_append, List.cons_append, List.append_assoc]
  simp only [CScript.getOp, hbyte, hopcode.not_gt, if_false, hwidth, hwide.not_gt]
  rw [List.take_left' hlength, List.drop_left' hlength, hsize, List.take_left, List.drop_left,
    if_neg (by simp [hlength])]

theorem vchOp_le (b : List UInt8) : (vchOp b).1 ≤ CScript.OP_PUSHDATA4 := by
  have h1 : CScript.OP_PUSHDATA1 = 76 := rfl
  have h2 : CScript.OP_PUSHDATA2 = 77 := rfl
  have h4 : CScript.OP_PUSHDATA4 = 78 := rfl
  unfold vchOp
  split_ifs <;> simp only <;> omega

theorem pushes_vch (h : b.length < 2 ^ 32) : Pushes (pushVch b) (vchOp b) := by
  have h1 : CScript.OP_PUSHDATA1 = 76 := rfl
  have h2 : CScript.OP_PUSHDATA2 = 77 := rfl
  have h4 : CScript.OP_PUSHDATA4 = 78 := rfl
  have h16 : OP_16 = 96 := rfl
  unfold pushVch vchOp
  split_ifs with hshort hbyte hword
  · refine ⟨List.cons_ne_nil _ _, by simp only; omega, fun rest => ?_⟩
    have hsize : (UInt8.ofNat b.length).toNat = b.length :=
      UInt8.toNat_ofNat_of_lt' (by simp only [UInt8.size]; omega)
    have hle : ¬ CScript.OP_PUSHDATA4 < b.length := by omega
    have hwidth : (if b.length = CScript.OP_PUSHDATA1 then 1
        else if b.length = CScript.OP_PUSHDATA2 then 2
        else if b.length = CScript.OP_PUSHDATA4 then 4 else 0) = 0 := by
      rw [if_neg (by omega), if_neg (by omega), if_neg (by omega)]
    simp only [List.cons_append, CScript.getOp, hsize, hle, if_false, hwidth, hshort, if_true,
      List.drop_zero, List.take_left, List.drop_left]
    rw [if_neg (by simp)]
  · exact ⟨List.cons_ne_nil _ _, by simp only; omega,
      getOp_pushData (by decide) le_rfl rfl (by omega)⟩
  · exact ⟨List.cons_ne_nil _ _, by simp only; omega,
      getOp_pushData (by decide) (by decide) rfl (by omega)⟩
  · exact ⟨List.cons_ne_nil _ _, by simp only; omega,
      getOp_pushData le_rfl (by decide) rfl (by omega)⟩

/-! ## Numbers -/

theorem length_leBytes_le {j k n : ℕ} (h : n < 256 ^ j) : (leBytes k n).length ≤ j := by
  induction k generalizing n j with
  | zero => simp [leBytes]
  | succ k ih =>
    rw [leBytes]
    split_ifs with hn
    · simp
    · cases j with
      | zero => exact absurd (by simpa using h) hn
      | succ j =>
        have hrest : n / 256 < 256 ^ j := by
          rw [Nat.div_lt_iff_lt_mul (by decide)]
          rwa [pow_succ] at h
        exact Nat.succ_le_succ (ih hrest)

theorem leNat_leBytes {k n : ℕ} (h : n < 256 ^ k) : CScript.leNat (leBytes k n) = n := by
  induction k generalizing n with
  | zero =>
    have hn : n = 0 := by simpa using h
    rw [hn]
    rfl
  | succ k ih =>
    rw [leBytes]
    split_ifs with hn
    · rw [hn]
      rfl
    · have hrest : n / 256 < 256 ^ k := by
        rw [Nat.div_lt_iff_lt_mul (by decide)]
        rwa [pow_succ] at h
      have hbyte : (UInt8.ofNat (n % 256)).toNat = n % 256 := by simp
      rw [CScript.leNat, ih hrest, hbyte]
      omega

theorem leNat_append (a b : List UInt8) :
    CScript.leNat (a ++ b) = CScript.leNat a + 256 ^ a.length * CScript.leNat b := by
  induction a with
  | nil => simp [CScript.leNat]
  | cons x rest ih =>
    rw [List.cons_append, CScript.leNat, CScript.leNat, ih, List.length_cons, pow_succ]
    ring

theorem leNat_lt (a : List UInt8) : CScript.leNat a < 256 ^ a.length := by
  induction a with
  | nil => simp [CScript.leNat]
  | cons x rest ih =>
    have hx := x.toNat_lt
    rw [CScript.leNat, List.length_cons, pow_succ]
    omega

/-- The last byte of a number makes it large. -/
theorem le_leNat_of_getLast {a : List UInt8} {last : UInt8} (h : a.getLast? = some last) :
    last.toNat * 256 ^ (a.length - 1) ≤ CScript.leNat a := by
  obtain ⟨front, rfl⟩ := List.getLast?_eq_some_iff.mp h
  rw [leNat_append, List.length_append, List.length_singleton, Nat.add_sub_cancel]
  have hlast : CScript.leNat [last] = last.toNat := by simp [CScript.leNat]
  rw [hlast, mul_comm]
  exact Nat.le_add_left _ _

/-- Up to eight bytes are joined without overlap. -/
theorem foldl_or_eq (vch : List UInt8) (k v : ℕ) (hk : k + vch.length ≤ 8) (hv : v < 256 ^ k) :
    (vch.zipIdx k).foldl (fun v b => v ||| b.1.toNat <<< (8 * (b.2 % 8))) v =
      v + 256 ^ k * CScript.leNat vch := by
  induction vch generalizing k v with
  | nil => simp [CScript.leNat]
  | cons b rest ih =>
    rw [List.length_cons] at hk
    have hpow : 256 ^ k = 2 ^ (8 * k) := by
      rw [pow_mul]
      rfl
    have hmod : k % 8 = k := Nat.mod_eq_of_lt (by omega)
    have hor : v ||| b.toNat <<< (8 * k) = v + 256 ^ k * b.toNat := by
      rw [Nat.lor_comm, ← Nat.shiftLeft_add_eq_or_of_lt (hpow ▸ hv), Nat.shiftLeft_eq, ← hpow]
      ring
    have hb := b.toNat_lt
    have hlt : v + 256 ^ k * b.toNat < 256 ^ (k + 1) := by
      rw [pow_succ]
      calc v + 256 ^ k * b.toNat < 256 ^ k + 256 ^ k * b.toNat := by omega
        _ = 256 ^ k * (b.toNat + 1) := by ring
        _ ≤ 256 ^ k * 256 := Nat.mul_le_mul_left _ (by omega)
    rw [List.zipIdx_cons, List.foldl_cons]
    simp only [hmod]
    rw [hor, ih (k + 1) _ (by omega) hlt, CScript.leNat, pow_succ]
    ring

theorem vchNumber_eq {vch : List UInt8} (hlength : vch.length ≤ 8)
    (hsmall : CScript.leNat vch < 2 ^ 63) : vchNumber vch = CScript.leNat vch := by
  have hfold := foldl_or_eq vch 0 0 (by omega) (by simp)
  rw [pow_zero, one_mul, zero_add] at hfold
  have hsign : ¬ (vch.length = 8 ∧ 0x80 ≤ (vch.getLastD 0).toNat) := by
    rintro ⟨h8, hhigh⟩
    obtain ⟨last, hlast⟩ : ∃ last, vch.getLast? = some last := by
      rw [← Option.isSome_iff_exists, List.getLast?_isSome]
      intro hnil
      simp [hnil] at h8
    have hle := le_leNat_of_getLast hlast
    rw [List.getLastD_eq_getLast?, hlast, Option.getD_some] at hhigh
    rw [h8] at hle
    omega
  have hfit : toInt64 (CScript.leNat vch) = CScript.leNat vch :=
    Int.bmod_eq_of_le (by omega) (by omega)
  unfold vchNumber
  rw [if_neg hsign, hfold, hfit]

/-- A magnitude with a free bit for the sign takes no further byte. -/
theorem length_bigNumVch_le {j : ℕ} (hj : j ≤ 7) (h : n.natAbs < 128 * 256 ^ j) :
    (bigNumVch n).length ≤ j + 1 := by
  have hpow : 256 ^ j ≤ 256 ^ 7 := Nat.pow_le_pow_right (by decide) hj
  have hvalue : CScript.leNat (leBytes 9 n.natAbs) = n.natAbs := leNat_leBytes (by omega)
  have hlength : (leBytes 9 n.natAbs).length ≤ j + 1 := by
    apply length_leBytes_le
    rw [pow_succ]
    omega
  unfold bigNumVch
  generalize leBytes 9 n.natAbs = bytes at *
  dsimp only
  cases hlast : bytes.getLast? with
  | none => simp
  | some last =>
    have hle := le_leNat_of_getLast hlast
    have hnonempty : 0 < bytes.length := by
      rw [List.length_pos_iff]
      rintro rfl
      cases hlast
    dsimp only
    by_cases hhigh : 0x80 ≤ last.toNat
    · rw [if_pos hhigh, List.length_append, List.length_singleton]
      by_contra hlong
      have hlast : bytes.length - 1 = j := by omega
      have hmul : 128 * 256 ^ j ≤ last.toNat * 256 ^ j := Nat.mul_le_mul_right _ hhigh
      rw [hlast] at hle
      omega
    · rw [if_neg hhigh, List.length_append, List.length_dropLast, List.length_singleton]
      omega

/-- The bytes of a number that is not negative, with a zero behind a byte above 0x7f. -/
theorem bigNumVch_of_nonneg (h0 : 0 ≤ n) (h : n < 2 ^ 63) :
    (bigNumVch n).length ≤ 8 ∧ CScript.leNat (bigNumVch n) = n.natAbs := by
  refine ⟨length_bigNumVch_le (j := 7) le_rfl (by omega), ?_⟩
  have hvalue : CScript.leNat (leBytes 9 n.natAbs) = n.natAbs := leNat_leBytes (by omega)
  unfold bigNumVch
  rw [if_neg h0.not_gt]
  generalize leBytes 9 n.natAbs = bytes at *
  dsimp only
  cases hlast : bytes.getLast? with
  | none =>
    rw [List.getLast?_eq_none_iff] at hlast
    rw [hlast] at hvalue
    exact hvalue
  | some last =>
    dsimp only
    split_ifs with hhigh
    · rw [leNat_append, hvalue]
      simp [CScript.leNat]
    · have hkeep : bytes.dropLast ++ [UInt8.ofNat (last.toNat + 0)] = bytes := by
        obtain ⟨front, rfl⟩ := List.getLast?_eq_some_iff.mp hlast
        simp
      rw [hkeep]
      exact hvalue

theorem length_bigNumVch (h0 : -2 ^ 63 ≤ n) (h : n < 2 ^ 63) : (bigNumVch n).length ≤ 9 := by
  rcases eq_or_lt_of_le h0 with rfl | hlow
  · decide
  · exact (length_bigNumVch_le (j := 7) le_rfl (by omega)).trans (by decide)

/-- Every `int64_t` is pushed by one operation. -/
theorem pushes_int64 (h0 : -2 ^ 63 ≤ n) (h : n < 2 ^ 63) : Pushes (pushInt64 n) (numberOp n) := by
  unfold pushInt64 numberOp
  split_ifs with hsmall
  · have h1 : OP_1 = 81 := rfl
    have h4 : CScript.OP_PUSHDATA4 = 78 := rfl
    have h16 : OP_16 = 96 := rfl
    refine ⟨List.cons_ne_nil _ _, by simp only; omega, fun rest => ?_⟩
    have hbyte : (UInt8.ofNat (n + (OP_1 - 1)).toNat).toNat = (n + (OP_1 - 1)).toNat :=
      UInt8.toNat_ofNat_of_lt' (by simp only [UInt8.size]; omega)
    have hopcode : CScript.OP_PUSHDATA4 < (n + (OP_1 - 1)).toNat := by omega
    simp only [List.cons_append, List.nil_append, CScript.getOp, hbyte, hopcode, if_true]
  · exact pushes_vch (lt_of_le_of_lt (length_bigNumVch h0 h) (by decide))

theorem pushes_number (h0 : 0 ≤ n) (h : n < 2 ^ 63) : Pushes (pushInt64 n) (numberOp n) :=
  pushes_int64 (by omega) h

/-- The number of an operation is the number that was pushed. -/
theorem getNumberFromScript_numberOp (h0 : 0 ≤ n) (h : n < 2 ^ 63) :
    getNumberFromScript (numberOp n).1 (numberOp n).2 = n := by
  have h1 : OP_1 = 81 := rfl
  have h16 : OP_16 = 96 := rfl
  unfold numberOp getNumberFromScript
  by_cases hsmall : n = -1 ∨ 1 ≤ n ∧ n ≤ 16
  · rw [if_pos hsmall, if_pos (by simp only; omega)]
    simp only
    omega
  · obtain ⟨hlength, hvalue⟩ := bigNumVch_of_nonneg h0 h
    have hshort : (bigNumVch n).length < CScript.OP_PUSHDATA1 := lt_of_le_of_lt hlength (by decide)
    rw [if_neg hsmall]
    simp only [vchOp, if_pos hshort]
    rw [if_neg (by omega), vchNumber_eq hlength (by omega), hvalue]
    omega

/-- The bytes of a negative number: the magnitude with the sign bit of the last byte. -/
theorem leNat_bigNumVch_neg (hneg : n < 0) (h0 : -2 ^ 63 ≤ n) :
    CScript.leNat (bigNumVch n) = n.natAbs + 128 * 256 ^ ((bigNumVch n).length - 1) := by
  have hvalue : CScript.leNat (leBytes 9 n.natAbs) = n.natAbs := leNat_leBytes (by omega)
  unfold bigNumVch
  rw [if_pos hneg]
  generalize leBytes 9 n.natAbs = bytes at *
  dsimp only
  cases hlast : bytes.getLast? with
  | none =>
    rw [List.getLast?_eq_none_iff] at hlast
    rw [hlast, CScript.leNat] at hvalue
    omega
  | some last =>
    obtain ⟨front, rfl⟩ := List.getLast?_eq_some_iff.mp hlast
    dsimp only
    split_ifs with hhigh
    · rw [leNat_append, hvalue]
      simp [CScript.leNat, Nat.mul_comm]
    · have hbyte : (UInt8.ofNat (last.toNat + 0x80)).toNat = last.toNat + 128 :=
        UInt8.toNat_ofNat_of_lt' (by simp only [UInt8.size]; omega)
      rw [leNat_append] at hvalue
      rw [List.dropLast_concat, leNat_append, List.length_append, List.length_singleton,
        Nat.add_sub_cancel, ← hvalue]
      simp only [CScript.leNat, hbyte]
      ring

/-- The last byte of a negative number has the sign bit. -/
theorem sign_bigNumVch_neg (hneg : n < 0) (h0 : -2 ^ 63 ≤ n) :
    0x80 ≤ ((bigNumVch n).getLastD 0).toNat := by
  have hvalue : CScript.leNat (leBytes 9 n.natAbs) = n.natAbs := leNat_leBytes (by omega)
  unfold bigNumVch
  rw [if_pos hneg]
  generalize leBytes 9 n.natAbs = bytes at *
  dsimp only
  cases hlast : bytes.getLast? with
  | none =>
    rw [List.getLast?_eq_none_iff] at hlast
    rw [hlast, CScript.leNat] at hvalue
    omega
  | some last =>
    dsimp only
    split_ifs with hhigh
    · simp
    · have hbyte : (UInt8.ofNat (last.toNat + 0x80)).toNat = last.toNat + 128 :=
        UInt8.toNat_ofNat_of_lt' (by simp only [UInt8.size]; omega)
      rw [List.getLastD_concat, hbyte]
      omega

/-- A negative number is not read back: the sign bit is read as part of the number, or the
number is cut to 31 bits. -/
theorem getNumberFromScript_neg (hneg : n < 0) (h0 : -2 ^ 63 ≤ n) :
    getNumberFromScript (numberOp n).1 (numberOp n).2 ≠ n := by
  have h1 : OP_1 = 81 := rfl
  have h16 : OP_16 = 96 := rfl
  unfold numberOp getNumberFromScript
  by_cases hone : n = -1 ∨ 1 ≤ n ∧ n ≤ 16
  · obtain rfl : n = -1 := by omega
    decide
  · have hlength := length_bigNumVch h0 (by omega)
    have hvalue := leNat_bigNumVch_neg hneg h0
    have hshort : (bigNumVch n).length < CScript.OP_PUSHDATA1 := lt_of_le_of_lt hlength (by decide)
    rw [if_neg hone]
    simp only [vchOp, if_pos hshort]
    rw [if_neg (by omega)]
    rcases Nat.lt_trichotomy (bigNumVch n).length 8 with h7 | h8 | h9
    · -- up to seven bytes are a number below `2 ^ 56`
      have hlt := leNat_lt (bigNumVch n)
      have hpow : 256 ^ (bigNumVch n).length ≤ 256 ^ 7 := Nat.pow_le_pow_right (by decide) (by omega)
      rw [vchNumber_eq (by omega) (by omega)]
      omega
    · -- eight bytes are cut to 31 bits, but a number of 31 bits has only four
      have hlarge : 2 ^ 31 ≤ n.natAbs := by
        by_contra hsmall
        have := length_bigNumVch_le (n := n) (j := 3) (by decide) (by omega)
        omega
      have hfold := foldl_or_eq (bigNumVch n) 0 0 (by omega) (by simp)
      rw [pow_zero, one_mul, zero_add] at hfold
      unfold vchNumber
      rw [if_pos ⟨h8, sign_bigNumVch_neg hneg h0⟩, hfold]
      omega
    · -- only the smallest number has nine bytes
      have hmin : n = -2 ^ 63 := by
        by_contra hne
        have := length_bigNumVch_le (n := n) (j := 7) le_rfl (by omega)
        omega
      rw [hmin]
      decide

/-- A number that a script holds is an `int64_t`. -/
theorem getNumberFromScript_bounds (opcode : ℕ) (vch : List UInt8) :
    -2 ^ 63 ≤ getNumberFromScript opcode vch ∧ getNumberFromScript opcode vch < 2 ^ 63 := by
  have h1 : OP_1 = 81 := rfl
  have h16 : OP_16 = 96 := rfl
  have hbmod (v : ℤ) : -2 ^ 63 ≤ v.bmod (2 ^ 64) ∧ v.bmod (2 ^ 64) < 2 ^ 63 := by
    have hlow := Int.le_bmod (x := v) (m := 2 ^ 64) (by decide)
    have hhigh := Int.bmod_lt (x := v) (m := 2 ^ 64) (by decide)
    norm_num at hlow hhigh ⊢
    omega
  unfold getNumberFromScript
  split_ifs
  · omega
  · unfold vchNumber toInt64
    dsimp only
    split_ifs
    · omega
    · exact hbmod _

/-! ## Scripts of pushes -/

/-- A push has at most four bytes for its length. -/
theorem getOp_length {s rest : CScript} {opcode : ℕ} {vch : List UInt8}
    (h : CScript.getOp s = some (opcode, vch, rest)) : vch.length < 2 ^ 32 := by
  cases s with
  | nil => cases h
  | cons b s =>
    have h1 : CScript.OP_PUSHDATA1 = 76 := rfl
    simp only [CScript.getOp] at h
    generalize hwidth : (if b.toNat = CScript.OP_PUSHDATA1 then 1
      else if b.toNat = CScript.OP_PUSHDATA2 then 2
      else if b.toNat = CScript.OP_PUSHDATA4 then 4 else 0) = width at h
    have hfour : width ≤ 4 := by
      rw [← hwidth]
      split_ifs <;> omega
    split_ifs at h with hhigh hshort hend hend
    · cases h
      decide
    · cases h
      simp only [List.length_take]
      omega
    · cases h
      have hlt := leNat_lt (s.take width)
      have hpow : 256 ^ (s.take width).length ≤ 256 ^ 4 :=
        Nat.pow_le_pow_right (by decide) ((List.length_take_le _ _).trans hfour)
      simp only [List.length_take]
      omega

theorem readPushes_go {pieces : List CScript} {ops : List (ℕ × List UInt8)}
    (h : List.Forall₂ Pushes pieces ops) (k : ℕ) (hk : pieces.flatten.length ≤ k) :
    readPushes.go k pieces.flatten = some ops := by
  induction h generalizing k with
  | nil => cases k <;> rfl
  | @cons piece op pieces ops hpiece _ ih =>
    have hlength : 0 < piece.length := List.length_pos_iff.mpr hpiece.ne_nil
    rw [List.flatten_cons, List.length_append] at hk
    cases k with
    | zero => omega
    | succ k =>
      have hnonempty : piece ++ pieces.flatten ≠ [] := by simp [hpiece.ne_nil]
      rw [List.flatten_cons, readPushes.go, if_neg hnonempty, hpiece.getOp]
      simp only [hpiece.opcode.not_gt, if_false]
      rw [ih k (by omega)]
      rfl

/-- Pushes at the front of a script are its first operations. -/
theorem readPushes_go_front {pieces : List CScript} {ops all : List (ℕ × List UInt8)} {rest : CScript}
    (h : List.Forall₂ Pushes pieces ops) (k : ℕ)
    (hk : (pieces.flatten ++ rest).length ≤ k)
    (hread : readPushes.go k (pieces.flatten ++ rest) = some all) : ∃ tail, all = ops ++ tail := by
  induction h generalizing k all with
  | nil => exact ⟨all, rfl⟩
  | @cons piece op pieces ops hpiece _ ih =>
    have hlength : 0 < piece.length := List.length_pos_iff.mpr hpiece.ne_nil
    rw [List.flatten_cons, List.append_assoc] at hread hk
    rw [List.length_append] at hk
    cases k with
    | zero => omega
    | succ k =>
      have hnonempty : piece ++ (pieces.flatten ++ rest) ≠ [] := by simp [hpiece.ne_nil]
      rw [readPushes.go, if_neg hnonempty, hpiece.getOp] at hread
      simp only [hpiece.opcode.not_gt, if_false] at hread
      obtain ⟨behind, hbehind, rfl⟩ := Option.map_eq_some_iff.mp hread
      obtain ⟨tail, rfl⟩ := ih k (by omega) hbehind
      exact ⟨tail, rfl⟩

theorem readPushes_front {pieces : List CScript} {ops all : List (ℕ × List UInt8)} {rest : CScript}
    (h : List.Forall₂ Pushes pieces ops) (hread : readPushes (pieces.flatten ++ rest) = some all) :
    ∃ tail, all = ops ++ tail := readPushes_go_front h _ le_rfl hread

/-- A script that is put together from pushes is read as their operations. -/
theorem readPushes_flatten {pieces : List CScript} {ops : List (ℕ × List UInt8)}
    (h : List.Forall₂ Pushes pieces ops) : readPushes pieces.flatten = some ops :=
  readPushes_go h _ le_rfl

end BitBay
