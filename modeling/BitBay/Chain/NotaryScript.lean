import BitBay.Bridge.Pushes
import BitBay.Chain.FetchInputs
import BitBay.Governance.Store

/-!
# Notary scripts

`PushNotary` writes `OP_RETURN` and a push of the text; `ToNotary` reads the text back, by the
push or, when it pushes nothing, by the length byte. A text that is pushed as `operator<<` pushes
bytes is always read back. `PushNotary` writes the length of a longer text with `operator<<` for
numbers, which puts a length before the length, so these scripts are not pushes of their texts.
-/
namespace BitBay

open CScript

/-- `script << uint64_t(n)`, which `uint16_t` and `uint32_t` are pushed with. -/
def pushUint64 (n : ℕ) : CScript :=
  if 1 ≤ n ∧ n ≤ 16 then [UInt8.ofNat (n + (OP_1 - 1))] else pushVch (bigNumVch n)

def IsNotaryOf (script : CScript) (bytes : List UInt8) : Prop :=
  ∃ rest opcode, getOp script = some (OP_RETURN, [], rest) ∧ opcode ≤ OP_PUSHDATA4 ∧
    getOp rest = some (opcode, bytes, [])

/-- The script of a text is well formed, and the text is read back from it. -/
def NotaryRoundTrip (notary : List UInt8) : Prop :=
  toNotary (pushNotaryText (toCString notary)) = some (toCString notary) ∧
    IsNotaryOf (pushNotaryText (toCString notary)) notary

variable {s : List UInt8} {n : ℕ}

theorem pushInt64_natCast (n : ℕ) : pushInt64 n = pushUint64 n := by
  have h1 : OP_1 = 81 := rfl
  unfold pushInt64 pushUint64
  congr 1
  simp only [eq_iff_iff]
  omega

theorem getOp_opReturn (rest : CScript) :
    getOp (UInt8.ofNat OP_RETURN :: rest) = some (OP_RETURN, [], rest) := rfl

/-! ## Texts that are pushed as bytes -/

theorem getOp_pushVch (h : s.length < 2 ^ 32) :
    getOp (pushVch s) = some ((vchOp s).1, s, []) := by
  have hop := (pushes_vch h).getOp []
  rw [List.append_nil] at hop
  exact hop

theorem isNotaryOf_pushVch (h : s.length < 2 ^ 32) :
    IsNotaryOf (UInt8.ofNat OP_RETURN :: pushVch s) s :=
  ⟨pushVch s, (vchOp s).1, getOp_opReturn _, vchOp_le s, getOp_pushVch h⟩

/-- The bytes behind a length byte that tells all of them. -/
theorem textAfterLength_short (opcode : UInt8) (h : s.length < 256) :
    textAfterLength (opcode :: UInt8.ofNat s.length :: s) = toCString s := by
  have hsize : (UInt8.ofNat s.length).toNat = s.length :=
    UInt8.toNat_ofNat_of_lt' (by simp only [UInt8.size]; omega)
  simp [textAfterLength, hsize]

/-- The reader takes either branch and finds the text. -/
theorem toNotary_pushVch (h : s.length < 2 ^ 32) :
    toNotary (UInt8.ofNat OP_RETURN :: pushVch s) = some (toCString s) := by
  have h1 : OP_PUSHDATA1 = 76 := rfl
  unfold toNotary
  rw [getOp_opReturn]
  simp only [ne_eq, not_true_eq_false, if_false, getOp_pushVch h, Option.map_some, Option.getD_some]
  by_cases hshort : s.length < OP_PUSHDATA1
  · have hscript : pushVch s = UInt8.ofNat s.length :: s := by
      unfold pushVch
      rw [if_pos hshort]
    have htext := textAfterLength_short (UInt8.ofNat OP_RETURN) (s := s) (by omega)
    simp only [hscript, List.length_cons, htext]
    rw [if_neg (by omega)]
    -- At 75 bytes the script is long enough to be read by its push.
    split_ifs <;> simp_all
  · have hlength : OP_PUSHDATA1 + 1 ≤ (pushVch s).length := by
      unfold pushVch
      split_ifs <;> simp <;> omega
    have hne : s ≠ [] := List.ne_nil_of_length_pos (by omega)
    have hlong : ¬ (pushVch s).length + 1 ≤ 1 := by omega
    have hread : ¬ (pushVch s).length + 1 < OP_PUSHDATA1 + 1 := by omega
    simp [hlong, hread, hne]

/-! ## The scripts of `PushNotary` -/

/-- Up to 254 bytes the text is pushed as bytes. -/
theorem pushNotaryText_short (h : s.length < 255) :
    pushNotaryText (toCString s) = UInt8.ofNat OP_RETURN :: pushVch s := by
  have hbytes : (toCString s).map (fun c => UInt8.ofNat c.toNat) = s := toBytes_toCString s
  unfold pushNotaryText pushVch
  simp only [hbytes]
  by_cases hshort : s.length < OP_PUSHDATA1
  · simp [hshort]
  · simp [hshort, h, h.le, List.range_one]

/-- The text of a short notary is found again. -/
theorem toNotary_pushNotaryText {notary : CString} (hlength : notary.length < 255)
    (hbytes : ∀ c ∈ notary, c.toNat < 256) : toNotary (pushNotaryText notary) = some notary := by
  have hshort : (CString.toBytes notary).length < 255 := by simpa [CString.toBytes] using hlength
  rw [← toCString_toBytes hbytes, pushNotaryText_short hshort, toNotary_pushVch (by omega)]

/-- The number of a long text takes two bytes or more. -/
theorem two_le_length_bigNumVch (h : 255 ≤ n) (hmax : n < 2 ^ 32) :
    2 ≤ (bigNumVch n).length := by
  obtain ⟨-, hvalue⟩ := bigNumVch_of_nonneg (n := n) (by omega) (by omega)
  rcases h.eq_or_lt with rfl | hlt
  · decide
  · by_contra hfew
    have hbound := leNat_lt (bigNumVch n)
    have hpow : 256 ^ (bigNumVch n).length ≤ 256 ^ 1 := Nat.pow_le_pow_right (by decide) (by omega)
    omega

/-- From 255 bytes on the length is a number that is pushed itself. -/
theorem pushNotaryText_long (h : 255 ≤ s.length) (hmax : s.length < 2 ^ 32) :
    ∃ opcode, (opcode = OP_PUSHDATA2 ∨ opcode = OP_PUSHDATA4) ∧
      pushNotaryText (toCString s) = UInt8.ofNat OP_RETURN :: UInt8.ofNat opcode ::
        UInt8.ofNat (bigNumVch s.length).length :: (bigNumVch s.length ++ s) := by
  have hbytes : (toCString s).map (fun c => UInt8.ofNat c.toNat) = s := toBytes_toCString s
  have h1 : OP_PUSHDATA1 = 76 := rfl
  have hshort : (bigNumVch s.length).length < OP_PUSHDATA1 := by
    have hlength := length_bigNumVch (n := s.length) (by omega) (by omega)
    omega
  have hpush : pushInt64 s.length =
      UInt8.ofNat (bigNumVch s.length).length :: bigNumVch s.length := by
    rw [pushInt64_natCast, pushUint64, if_neg (by omega), pushVch, if_pos hshort]
  have hdirect : ¬ s.length < OP_PUSHDATA1 := by omega
  unfold pushNotaryText
  simp only [hbytes, hpush, hdirect, h.not_gt, if_false]
  by_cases hword : s.length < 65535
  · exact ⟨OP_PUSHDATA2, .inl rfl, by simp [hword]⟩
  · exact ⟨OP_PUSHDATA4, .inr rfl, by simp [hword]⟩

/-- An operation with its length in front that is the whole script. -/
theorem getOp_whole {opcode op width : ℕ} {body vch : List UInt8}
    (hopcode : opcode = OP_PUSHDATA2 ∧ width = 2 ∨ opcode = OP_PUSHDATA4 ∧ width = 4)
    (h : getOp (UInt8.ofNat opcode :: body) = some (op, vch, [])) :
    width ≤ body.length ∧ body.drop width = vch ∧ leNat (body.take width) = vch.length := by
  have hread : getOp (UInt8.ofNat opcode :: body) =
      if body.length < width ∨ (body.drop width).length < leNat (body.take width) then none
      else some (opcode, (body.drop width).take (leNat (body.take width)),
        (body.drop width).drop (leNat (body.take width))) := by
    rcases hopcode with ⟨rfl, rfl⟩ | ⟨rfl, rfl⟩ <;> rfl
  rw [hread] at h
  split_ifs at h with hshort
  simp only [Option.some.injEq, Prod.mk.injEq, List.drop_eq_nil_iff] at h
  obtain ⟨-, hvch, hend⟩ := h
  rw [List.take_of_length_le hend] at hvch
  rw [not_or, not_lt, not_lt] at hshort
  exact ⟨hshort.1, hvch, hvch ▸ le_antisymm hshort.2 hend⟩

/-- The length before the length is counted as a part of it, so no long text is pushed. -/
theorem not_isNotaryOf_long (h : 255 ≤ s.length) (hmax : s.length < 2 ^ 32) :
    ¬ IsNotaryOf (pushNotaryText (toCString s)) s := by
  obtain ⟨opcode, hopcode, hscript⟩ := pushNotaryText_long h hmax
  obtain ⟨hnine, hvalue⟩ := bigNumVch_of_nonneg (n := s.length) (by omega) (by omega)
  have htwo := two_le_length_bigNumVch h hmax
  generalize bigNumVch s.length = v at *
  rintro ⟨rest, op, hreturn, -, hpush⟩
  rw [hscript, getOp_opReturn] at hreturn
  obtain rfl : _ = rest := congrArg (fun r => r.2.2) (Option.some.inj hreturn)
  have hsize : (UInt8.ofNat v.length).toNat = v.length :=
    UInt8.toNat_ofNat_of_lt' (by simp only [UInt8.size]; omega)
  rcases hopcode with rfl | rfl
  · obtain ⟨-, hdrop, -⟩ := getOp_whole (.inl ⟨rfl, rfl⟩) hpush
    have hlength := congrArg List.length hdrop
    simp only [List.length_drop, List.length_cons, List.length_append] at hlength
    omega
  · obtain ⟨-, hdrop, hcount⟩ := getOp_whole (.inr ⟨rfl, rfl⟩) hpush
    have hlength := congrArg List.length hdrop
    simp only [List.length_drop, List.length_cons, List.length_append] at hlength
    -- Three bytes of length leave the text in its place, but the number read is not its length.
    have hthree : v.length = 3 := by omega
    have htake : (UInt8.ofNat v.length :: (v ++ s)).take 4 = UInt8.ofNat v.length :: v := by
      rw [List.take_succ_cons, ← hthree, List.take_left]
    rw [htake, leNat, hsize, hvalue] at hcount
    omega

/-- Exactly the texts below 255 bytes are pushed and read back. -/
theorem notary_round_trip_iff (h : s.length < 2 ^ 32) : NotaryRoundTrip s ↔ s.length < 255 := by
  constructor
  · rintro ⟨-, hscript⟩
    by_contra hlong
    exact not_isNotaryOf_long (not_lt.mp hlong) h hscript
  · intro hshort
    unfold NotaryRoundTrip
    rw [pushNotaryText_short hshort]
    exact ⟨toNotary_pushVch h, isNotaryOf_pushVch h⟩

theorem short_notary_round_trip :
    NotaryRoundTrip (List.replicate 254 97) ↔ (List.replicate 254 (97 : UInt8)).length < 255 :=
  notary_round_trip_iff (by rw [List.length_replicate]; decide)

/-- Of 255 letters `ToNotary` returns 77 bytes: the length fields and the first 74 letters. -/
theorem long_notary_not_read_back :
    (List.replicate 255 (97 : UInt8)).length < 2 ^ 32 ∧
      toNotary (pushNotaryText (toCString (List.replicate 255 97))) =
        some (toCString ([2, 255, 0] ++ List.replicate 74 97)) ∧
      ¬ NotaryRoundTrip (List.replicate 255 97) := by
  refine ⟨by rw [List.length_replicate]; decide, by decide +kernel, fun h => ?_⟩
  exact not_isNotaryOf_long (by rw [List.length_replicate])
    (by rw [List.length_replicate]; decide) h.2

end BitBay
