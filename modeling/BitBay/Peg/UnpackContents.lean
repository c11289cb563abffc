import BitBay.Peg.CurrentFormat

/-!
# What unpacked fractions contain

`Unpack` writes to an object that has fractions already. The form of the columns is chosen by
bits of the stored flags, and if none of them is set the object keeps its columns and its flags.
The bits of the two standard forms come from the bytes as well, so both may be set, and the
compressed form may be one of fewer bytes than the columns have.
-/
namespace BitBay.Codec

open Wire Decode

namespace CFractions

structure Head where
  nVersion : UInt8
  nSerFlags : UInt32
  nLockTime : UInt64
  sReturnAddr : List UInt8
  deriving DecidableEq

def readHead : Reader Head := do
  let nVersion ← uint8.read
  let nSerFlags ← uint32.read
  let nLockTime ← uint64.read
  let sReturnAddr ← readString MAX_SIZE
  return { nVersion, nSerFlags, nLockTime, sReturnAddr }

def Head.onto (head : Head) (fr : CFractions) : CFractions :=
  { fr with
    nVersion := head.nVersion, nLockTime := head.nLockTime, sReturnAddr := head.sReturnAddr }

def readInflated (zlib : Zlib) : Reader (List UInt8) := do
  let zlen ← uint64.read
  if zoutSize < zlen.toNat then failure
  else do
    let src ← readBytes zlen.toNat
    match zlib.uncompress src with
    | none => failure
    | some dst => return dst

/-- The columns over those of the object. `deltas` has the bytes of the array before
`uncompress` writes to it. -/
def readForm (zlib : Zlib) (deltas : List UInt8) (nSerFlags : UInt32) (fr : CFractions) :
    Reader CFractions :=
  if hasFlag nSerFlags SER_VALUE then do
    let value ← int64.read
    return { fr with nFlags := nSerFlags ||| VALUE, f := fr.f.set 0 value PEG_SIZE_pos }
  else if hasFlag nSerFlags SER_ZDELTA then do
    let dst ← readInflated zlib
    return { fr with
      nFlags := nSerFlags ||| STD
      f := columnsOfDeltas (columnsOf (dst ++ deltas.drop dst.length)) }
  else if hasFlag nSerFlags SER_RAW then do
    let bytes ← readBytes (PEG_SIZE * 8)
    return { fr with nFlags := nSerFlags ||| STD, f := columnsOf bytes }
  else return fr

def readOnto (zlib : Zlib) (deltas : List UInt8) (fr : CFractions) : Reader CFractions := do
  let head ← readHead
  let fr' ← readForm zlib deltas head.nSerFlags (head.onto fr)
  return { fr' with nFlags := fr'.nFlags &&& SER_MASK }

def unpacked (zlib : Zlib) (deltas : List UInt8) (fr : CFractions) (bytes : List UInt8) :
    Option (CFractions × List UInt8) :=
  let result := run (unpackInto zlib fun _ => deltas) ⟨{ fractions := fr }, fun _ => none, bytes⟩
  (accepted result).map fun r => (r.1.fractions, r.2)

structure SameContents (a b : CFractions) : Prop where
  nVersion : a.nVersion = b.nVersion
  nFlags : a.nFlags = b.nFlags
  nLockTime : a.nLockTime = b.nLockTime
  sReturnAddr : a.sReturnAddr = b.sReturnAddr
  f : if hasFlag a.nFlags VALUE then a.f[0] = b.f[0] else a.f = b.f

/-- What is unpacked comes from the bytes alone, and is of one form. -/
structure Determined (zlib : Zlib) (bytes : List UInt8) : Prop where
  form : ∀ {deltas fr r rest}, deltas.length = PEG_SIZE * 8 →
    unpacked zlib deltas fr bytes = some (r, rest) →
      hasFlag r.nFlags VALUE ≠ hasFlag r.nFlags STD
  same : ∀ {deltas deltas' fr fr' r r' rest rest'}, deltas.length = PEG_SIZE * 8 →
    deltas'.length = PEG_SIZE * 8 → unpacked zlib deltas fr bytes = some (r, rest) →
      unpacked zlib deltas' fr' bytes = some (r', rest') → SameContents r r'

/-- The bytes name a form, not the other form of the columns, and all the columns. -/
def FormComplete (zlib : Zlib) (nSerFlags : UInt32) (bytes : List UInt8) : Prop :=
  if hasFlag nSerFlags SER_VALUE then 8 ≤ bytes.length → hasFlag nSerFlags STD = false
  else if hasFlag nSerFlags SER_ZDELTA then
    ∀ dst rest, (readInflated zlib).run bytes = some (dst, rest) →
      hasFlag nSerFlags VALUE = false ∧ PEG_SIZE * 8 ≤ dst.length
  else if hasFlag nSerFlags SER_RAW then
    PEG_SIZE * 8 ≤ bytes.length → hasFlag nSerFlags VALUE = false
  else False

def Complete (zlib : Zlib) (bytes : List UInt8) : Prop :=
  ∀ head rest, readHead.run bytes = some (head, rest) → FormComplete zlib head.nSerFlags rest

section Follows

variable {zlib : Zlib} {stack : Version → List UInt8} {v : Version} {nSerFlags : UInt32}

theorem follows_assignInflated (inflated : Option (List UInt8)) :
    Follows (match inflated with
      | none => refuse
      | some dst => do
        assignColumns v (columnsOfDeltas (columnsOf (dst ++ (stack v).drop dst.length)))
        assignFlags v (nSerFlags ||| STD)) fun pd =>
    (match inflated with
      | none => failure
      | some dst => pure dst) >>= fun dst =>
        pure (pd.withFractions fun fr => { fr with
          nFlags := nSerFlags ||| STD
          f := columnsOfDeltas (columnsOf (dst ++ (stack v).drop dst.length)) }) := by
  cases inflated with
  | none => exact Follows.refuse
  | some dst =>
    refine ((Follows.assign v _ _).bind (Follows.assign v _ _)).congr fun pd => ?_
    simp [CPegData.withFractions]

theorem follows_unpackForm : Follows (unpackForm zlib stack v nSerFlags) fun pd =>
    readForm zlib (stack v) nSerFlags pd.fractions >>= fun fr =>
      pure (pd.withFractions fun _ => fr) := by
  unfold unpackForm readForm
  split_ifs
  · refine ((Follows.assign v _ _).bind (Follows.readInto v _ _ _)).congr fun pd => ?_
    simp [CPegData.withFractions]
  · refine (Follows.take fun zlen => Follows.ite Follows.refuse
      (Follows.take fun src => follows_assignInflated (zlib.uncompress src))).congr fun pd => ?_
    simp only [readInflated, bind_assoc]
    congr
    funext zlen
    split_ifs
    · rfl
    · rw [bind_assoc]
      congr
  · refine (Follows.take fun bytes =>
      (Follows.assign v _ _).bind (Follows.assign v _ _)).congr fun pd => ?_
    simp [CPegData.withFractions]
  · exact Follows.pure

theorem follows_unpackReturnAddr : Follows (unpackReturnAddr v) fun pd =>
    readString MAX_SIZE >>= fun sReturnAddr =>
      pure (pd.withFractions fun fr => { fr with sReturnAddr }) := by
  refine (Follows.take fun nSize =>
    (Follows.assign v _ _).bind (Follows.readInto v _ _ _)).congr fun pd => ?_
  simp [readString, CPegData.withFractions]

/-- `Unpack` takes the object to what the reader makes of its fractions. -/
theorem follows_unpackInto : Follows (unpackInto zlib stack) fun pd =>
    readOnto zlib (stack .current) pd.fractions >>= fun fr =>
      pure (pd.withFractions fun _ => fr) := by
  refine ((Follows.readInto _ _ _ _).bind (Follows.take fun nSerFlags =>
    (Follows.readInto _ _ _ _).bind (follows_unpackReturnAddr.bind
      (follows_unpackForm.bind (Follows.adjust _))))).congr fun pd => ?_
  simp [readOnto, readHead, Head.onto, CPegData.withFractions]

theorem unpacked_eq (deltas : List UInt8) (fr : CFractions) (bytes : List UInt8) :
    unpacked zlib deltas fr bytes = (readOnto zlib deltas fr).run bytes := by
  have hfollows := @follows_unpackInto zlib (fun _ => deltas) { fractions := fr } (fun _ => none)
    bytes
  rw [unpacked, hfollows, StateT.run_bind]
  cases (readOnto zlib deltas fr).run bytes with
  | none => rfl
  | some p => rfl

end Follows

/-! ## Flags and columns -/

theorem hasFlag_mask {x bit : UInt32} {k : ℕ} (hbit : bit.toNat = 2 ^ k) (hk : k < 16) :
    hasFlag (x &&& SER_MASK) bit = hasFlag x bit := by
  have hmask : SER_MASK.toNat = 2 ^ 16 - 1 := rfl
  rw [hasFlag_iff hbit, hasFlag_iff hbit, UInt32.toNat_and, hmask, Nat.testBit_and,
    Nat.testBit_two_pow_sub_one, decide_eq_true hk, Bool.and_true]

theorem hasFlag_value (s bit : UInt32) {k : ℕ} (hbit : bit.toNat = 2 ^ k) (hk : k < 16) :
    hasFlag ((s ||| bit) &&& SER_MASK) bit = true := by
  have hself : hasFlag bit bit = true := by
    rw [hasFlag_iff hbit, hbit, Nat.testBit_two_pow_self]
  rw [hasFlag_mask hbit hk, hasFlag_or hbit, hself, Bool.or_true]

theorem hasFlag_std_of_value (s : UInt32) :
    hasFlag ((s ||| VALUE) &&& SER_MASK) STD = hasFlag s STD := by
  have hnone : hasFlag VALUE STD = false := rfl
  have hstd : STD.toNat = 2 ^ 1 := rfl
  rw [hasFlag_mask hstd (by decide), hasFlag_or hstd, hnone, Bool.or_false]

theorem hasFlag_value_of_std (s : UInt32) :
    hasFlag ((s ||| STD) &&& SER_MASK) VALUE = hasFlag s VALUE := by
  have hnone : hasFlag STD VALUE = false := rfl
  have hvalue : VALUE.toNat = 2 ^ 0 := rfl
  rw [hasFlag_mask hvalue (by decide), hasFlag_or hvalue, hnone, Bool.or_false]

theorem deltasBehind_columnsBehind (fp : Int64) (l : List Int64) :
    deltasBehind fp (columnsBehind fp l) = l := by
  induction l generalizing fp with
  | nil => rfl
  | cons d rest ih => rw [columnsBehind, deltasBehind, Int64.add_sub_cancel, ih]

theorem toDeltas_fromDeltas (l : List Int64) : toDeltas (fromDeltas l) = l := by
  cases l with
  | nil => rfl
  | cons d rest => rw [fromDeltas, toDeltas, deltasBehind_columnsBehind]

theorem columnsOfDeltas_injective : Function.Injective columnsOfDeltas := by
  intro a b h
  have hlist : fromDeltas a.toList = fromDeltas b.toList := by
    simpa [columnsOfDeltas] using congrArg Vector.toList h
  have hdeltas := congrArg toDeltas hlist
  rw [toDeltas_fromDeltas, toDeltas_fromDeltas] at hdeltas
  exact Vector.toList_inj.mp hdeltas

/-- The last byte counts in the last column. -/
theorem columnsOf_ne_of_last {l : List UInt8} (hl : l.length + 1 = PEG_SIZE * 8) {b b' : UInt8}
    (hb : b ≠ b') : columnsOf (l ++ [b]) ≠ columnsOf (l ++ [b']) := by
  intro heq
  have hplace : 8 * 1199 ≤ l.length := by
    unfold PEG_SIZE at hl
    omega
  have hlength : (l.drop (8 * 1199)).length = 7 := by
    rw [List.length_drop]
    unfold PEG_SIZE at hl
    omega
  have hnumber : ∀ c : UInt8, numberAt (l ++ [c]) 1199 =
      (UInt64.ofNat (leNat (l.drop (8 * 1199) ++ [c]))).toInt64 := fun c => by
    rw [numberAt, List.drop_append_of_le_length hplace, List.take_of_length_le]
    rw [List.length_append, hlength, List.length_singleton]
  have hlast : numberAt (l ++ [b]) 1199 = numberAt (l ++ [b']) 1199 := by
    have hcolumn := congrArg (fun f : Vector Int64 PEG_SIZE => f[1199]) heq
    simpa [columnsOf] using hcolumn
  have hsmall : ∀ c : UInt8, leNat (l.drop (8 * 1199) ++ [c]) < 2 ^ 64 := fun c => by
    have hlt := Wire.leNat_lt (l.drop (8 * 1199) ++ [c])
    rw [List.length_append, hlength, List.length_singleton] at hlt
    exact hlt
  rw [hnumber, hnumber] at hlast
  have hword := congrArg (fun n : Int64 => n.toUInt64.toNat) hlast
  simp only [UInt64.toUInt64_toInt64, UInt64.toNat_ofNat', Nat.mod_eq_of_lt (hsmall _)] at hword
  rw [Wire.leNat_append, Wire.leNat_append, hlength] at hword
  exact hb (UInt8.toNat_inj.mp (by omega))

/-! ## Contents -/

section Contents

variable {zlib : Zlib} {deltas deltas' bytes rest rest' : List UInt8} {fr fr' r r' : CFractions}

theorem unpacked_eq_some : unpacked zlib deltas fr bytes = some (r, rest) ↔
    ∃ head mid fr', readHead.run bytes = some (head, mid) ∧
      (readForm zlib deltas head.nSerFlags (head.onto fr)).run mid = some (fr', rest) ∧
      r = { fr' with nFlags := fr'.nFlags &&& SER_MASK } := by
  rw [unpacked_eq, readOnto, run_bind_eq_some]
  simp only [run_bind_eq_some, run_pure_eq_some]
  constructor
  · rintro ⟨head, mid, hhead, fr', mid', hform, rfl, rfl⟩
    exact ⟨head, mid, fr', hhead, hform, rfl⟩
  · rintro ⟨head, mid, fr', hhead, hform, rfl⟩
    exact ⟨head, mid, hhead, fr', rest, hform, rfl, rfl⟩

theorem length_of_int64_read {value : Int64} (h : int64.read.run bytes = some (value, rest)) :
    8 ≤ bytes.length := by
  rw [run_int64] at h
  split at h
  · assumption
  · cases h

theorem readBytes_eq_some {n : ℕ} {l : List UInt8} :
    (readBytes n).run bytes = some (l, rest) ↔
      n ≤ bytes.length ∧ l = bytes.take n ∧ rest = bytes.drop n := by
  change (if n ≤ bytes.length then some (bytes.take n, bytes.drop n) else none) =
    some (l, rest) ↔ _
  split_ifs with h
  · simp [h, eq_comm]
  · simp [h]

/-- Complete bytes leave one form. -/
theorem FormComplete.oneForm {head : Head} {mid : List UInt8}
    (hcomplete : FormComplete zlib head.nSerFlags mid)
    (hform : (readForm zlib deltas head.nSerFlags (head.onto fr)).run mid = some (fr', rest)) :
    hasFlag (fr'.nFlags &&& SER_MASK) VALUE ≠ hasFlag (fr'.nFlags &&& SER_MASK) STD := by
  unfold FormComplete at hcomplete
  unfold readForm at hform
  split_ifs at hcomplete hform
  · obtain ⟨value, mid', hvalue, hpure⟩ := run_bind_eq_some.mp hform
    obtain ⟨rfl, -⟩ := run_pure_eq_some.mp hpure
    rw [hasFlag_value _ VALUE (k := 0) rfl (by decide), hasFlag_std_of_value,
      hcomplete (length_of_int64_read hvalue)]
    decide
  · obtain ⟨dst, mid', hdst, hpure⟩ := run_bind_eq_some.mp hform
    obtain ⟨rfl, -⟩ := run_pure_eq_some.mp hpure
    rw [hasFlag_value _ STD (k := 1) rfl (by decide), hasFlag_value_of_std,
      (hcomplete dst mid' hdst).1]
    decide
  · obtain ⟨l, mid', hl, hpure⟩ := run_bind_eq_some.mp hform
    obtain ⟨rfl, -⟩ := run_pure_eq_some.mp hpure
    rw [hasFlag_value _ STD (k := 1) rfl (by decide), hasFlag_value_of_std,
      hcomplete (readBytes_eq_some.mp hl).1]
    decide

/-- Complete bytes leave nothing of the object or of the array. -/
theorem FormComplete.sameContents {head : Head} {mid : List UInt8}
    (hcomplete : FormComplete zlib head.nSerFlags mid)
    (h : (readForm zlib deltas head.nSerFlags (head.onto fr)).run mid = some (r, rest))
    (h' : (readForm zlib deltas' head.nSerFlags (head.onto fr')).run mid = some (r', rest')) :
    SameContents { r with nFlags := r.nFlags &&& SER_MASK }
      { r' with nFlags := r'.nFlags &&& SER_MASK } := by
  unfold FormComplete at hcomplete
  unfold readForm at h h'
  split_ifs at hcomplete h h'
  · obtain ⟨value, mid', hvalue, hpure⟩ := run_bind_eq_some.mp h
    obtain ⟨value', mid'', hvalue', hpure'⟩ := run_bind_eq_some.mp h'
    obtain ⟨rfl, -⟩ := run_pure_eq_some.mp hpure
    obtain ⟨rfl, -⟩ := run_pure_eq_some.mp hpure'
    obtain ⟨rfl, -⟩ := Prod.mk.inj (Option.some.inj (hvalue.symm.trans hvalue'))
    refine ⟨rfl, rfl, rfl, rfl, ?_⟩
    rw [if_pos (hasFlag_value _ VALUE (k := 0) rfl (by decide))]
    simp
  · obtain ⟨dst, mid', hdst, hpure⟩ := run_bind_eq_some.mp h
    obtain ⟨dst', mid'', hdst', hpure'⟩ := run_bind_eq_some.mp h'
    obtain ⟨rfl, -⟩ := run_pure_eq_some.mp hpure
    obtain ⟨rfl, -⟩ := run_pure_eq_some.mp hpure'
    obtain ⟨rfl, -⟩ := Prod.mk.inj (Option.some.inj (hdst.symm.trans hdst'))
    obtain ⟨hvalue, hlength⟩ := hcomplete dst mid' hdst
    refine ⟨rfl, rfl, rfl, rfl, ?_⟩
    rw [if_neg (by rw [hasFlag_value_of_std, hvalue]; exact Bool.false_ne_true)]
    dsimp only
    rw [columnsOf_append hlength, columnsOf_append hlength]
  · obtain ⟨l, mid', hl, hpure⟩ := run_bind_eq_some.mp h
    obtain ⟨l', mid'', hl', hpure'⟩ := run_bind_eq_some.mp h'
    obtain ⟨rfl, -⟩ := run_pure_eq_some.mp hpure
    obtain ⟨rfl, -⟩ := run_pure_eq_some.mp hpure'
    obtain ⟨rfl, -⟩ := Prod.mk.inj (Option.some.inj (hl.symm.trans hl'))
    refine ⟨rfl, rfl, rfl, rfl, ?_⟩
    split_ifs <;> rfl

def memoryOf (b : UInt8) : List UInt8 := List.replicate (PEG_SIZE * 8 - 1) 0 ++ [b]

theorem length_memoryOf (b : UInt8) : (memoryOf b).length = PEG_SIZE * 8 := by
  rw [memoryOf, List.length_append, List.length_replicate, List.length_singleton]
  decide

/-- Memory behind fewer bytes than the columns have is read as the last column. -/
theorem columnsOf_memoryOf_ne {dst : List UInt8} (h : dst.length < PEG_SIZE * 8) :
    columnsOf (dst ++ (memoryOf 0).drop dst.length) ≠
      columnsOf (dst ++ (memoryOf 1).drop dst.length) := by
  have hdrop : ∀ b, dst ++ (memoryOf b).drop dst.length =
      dst ++ (List.replicate (PEG_SIZE * 8 - 1) 0).drop dst.length ++ [b] := fun b => by
    rw [memoryOf, List.drop_append_of_le_length (by rw [List.length_replicate]; omega),
      List.append_assoc]
  rw [hdrop, hdrop]
  refine columnsOf_ne_of_last ?_ (by decide)
  rw [List.length_append, List.length_drop, List.length_replicate]
  omega

/-- What is unpacked comes from the bytes alone, and is of one form, exactly if the bytes name a
form, do not name the other form of the columns, and have all the columns. -/
theorem determined_iff (zlib : Zlib) (bytes : List UInt8) :
    Determined zlib bytes ↔ Complete zlib bytes := by
  constructor
  · intro hdetermined head mid hhead
    have hresult : ∀ {b : UInt8} {fr r : CFractions} {rest : List UInt8},
        (readForm zlib (memoryOf b) head.nSerFlags (head.onto fr)).run mid = some (r, rest) →
          unpacked zlib (memoryOf b) fr bytes =
            some ({ r with nFlags := r.nFlags &&& SER_MASK }, rest) :=
      fun hform => unpacked_eq_some.mpr ⟨head, mid, _, hhead, hform, rfl⟩
    have hform : ∀ {r : CFractions} {rest : List UInt8},
        (readForm zlib (memoryOf 0) head.nSerFlags (head.onto {})).run mid = some (r, rest) →
          hasFlag (r.nFlags &&& SER_MASK) VALUE ≠ hasFlag (r.nFlags &&& SER_MASK) STD :=
      fun hread => hdetermined.form (length_memoryOf 0) (hresult hread)
    unfold FormComplete
    unfold readForm at hresult hform
    split_ifs with hser hzdelta hraw
    · intro hlength
      obtain ⟨value, hvalue⟩ := int64_hasWidth hlength
      rw [if_pos hser] at hform
      have hone := hform (run_bind_eq_some.mpr ⟨value, _, hvalue, rfl⟩)
      rw [hasFlag_value _ VALUE (k := 0) rfl (by decide), hasFlag_std_of_value] at hone
      simpa using hone.symm
    · intro dst rest hdst
      simp only [if_neg hser, if_pos hzdelta] at hform hresult
      have hone := hform (run_bind_eq_some.mpr ⟨dst, rest, hdst, rfl⟩)
      rw [hasFlag_value _ STD (k := 1) rfl (by decide), hasFlag_value_of_std] at hone
      have hvalue : hasFlag head.nSerFlags VALUE = false := by simpa using hone
      refine ⟨hvalue, le_of_not_gt fun hlt => ?_⟩
      have hsame := (hdetermined.same (length_memoryOf 0) (length_memoryOf 1)
        (@hresult 0 {} _ _ (run_bind_eq_some.mpr ⟨dst, rest, hdst, rfl⟩))
        (@hresult 1 {} _ _ (run_bind_eq_some.mpr ⟨dst, rest, hdst, rfl⟩))).f
      rw [if_neg (by rw [hasFlag_value_of_std, hvalue]; exact Bool.false_ne_true)] at hsame
      exact columnsOf_memoryOf_ne hlt (columnsOfDeltas_injective hsame)
    · intro hlength
      simp only [if_neg hser, if_neg hzdelta, if_pos hraw] at hform
      have hbytes := readBytes_eq_some.mpr ⟨hlength, rfl, rfl⟩
      have hone := hform (run_bind_eq_some.mpr ⟨_, _, hbytes, rfl⟩)
      rw [hasFlag_value _ STD (k := 1) rfl (by decide), hasFlag_value_of_std] at hone
      simpa using hone
    · simp only [if_neg hser, if_neg hzdelta, if_neg hraw] at hresult
      have hsame := hdetermined.same (length_memoryOf 0) (length_memoryOf 0)
        (@hresult 0 { nFlags := VALUE } _ _ rfl) (@hresult 0 { nFlags := STD } _ _ rfl)
      have hflags : VALUE &&& SER_MASK = STD &&& SER_MASK := hsame.nFlags
      exact absurd hflags (by decide)
  · intro hcomplete
    refine ⟨fun hdeltas hr => ?_, fun hdeltas hdeltas' hr hr' => ?_⟩
    · obtain ⟨head, mid, fr', hhead, hform, rfl⟩ := unpacked_eq_some.mp hr
      exact (hcomplete head mid hhead).oneForm hform
    · obtain ⟨head, mid, a, hhead, ha, rfl⟩ := unpacked_eq_some.mp hr
      obtain ⟨head', mid', b, hhead', hb, rfl⟩ := unpacked_eq_some.mp hr'
      obtain ⟨rfl, rfl⟩ := Prod.mk.inj (Option.some.inj (hhead.symm.trans hhead'))
      exact (hcomplete head mid hhead).sameContents ha hb

end Contents

/-- A version, no flags, no lock time and no return address. -/
def formlessBytes : List UInt8 := [1, 0, 0, 0, 0, 0, 0, 0, 0, 0, 0, 0, 0, 0]

/-- Bytes that name no form are accepted, and the object stays what it was. -/
theorem formless_bytes_keep_object : ∃ r r',
    unpacked sampleZlib (memoryOf 0) { nFlags := VALUE } formlessBytes = some (r, []) ∧
    unpacked sampleZlib (memoryOf 0) { nFlags := STD } formlessBytes = some (r', []) ∧
    r.nFlags = VALUE ∧ r'.nFlags = STD ∧ ¬ Determined sampleZlib formlessBytes := by
  have hhead : readHead.run formlessBytes = some (⟨1, 0, 0, []⟩, []) := by decide
  have hkept : ∀ nFlags, unpacked sampleZlib (memoryOf 0) { nFlags } formlessBytes =
      some ({ nVersion := 1, nFlags := nFlags &&& SER_MASK }, []) := fun nFlags =>
    unpacked_eq_some.mpr ⟨_, _, { nVersion := 1, nFlags }, hhead, rfl, rfl⟩
  refine ⟨_, _, hkept VALUE, hkept STD, rfl, rfl, fun hdetermined => ?_⟩
  have hsame := hdetermined.same (length_memoryOf 0) (length_memoryOf 0) (hkept VALUE) (hkept STD)
  exact absurd hsame.nFlags (by decide)

end CFractions

end BitBay.Codec
