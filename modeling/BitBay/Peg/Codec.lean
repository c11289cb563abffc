import BitBay.Base.Base64
import BitBay.Library.Wire
import BitBay.Peg.Fractions
import Mathlib.Data.Nat.Bitwise

/-!
# Stored peg data

`CPegData` is stored as base 64 of its bytes. The fractions in it are one number, or their
columns, which are compressed as differences from the standard distribution. The integers
have the widths of the source here, so sums and differences wrap.
-/
namespace BitBay.Codec

open Wire

def VALUE : UInt32 := 1
def STD : UInt32 := 2
def SER_MASK : UInt32 := 0xffff
def SER_VALUE : UInt32 := 0x10000
def SER_ZDELTA : UInt32 := 0x20000
def SER_RAW : UInt32 := 0x40000

def MAX_SIZE : ℕ := 0x02000000

def zoutSize : ℕ := 2 * PEG_SIZE * 8

/-- `compress2` into the buffer, `none` when it fails, and `uncompress`. -/
structure Zlib where
  compress2 : List UInt8 → Option (List UInt8)
  uncompress : List UInt8 → Option (List UInt8)
  fits : ∀ src zout, compress2 src = some zout → zout.length ≤ zoutSize
  inverts : ∀ src zout, compress2 src = some zout → uncompress zout = some src

def hasFlag (nFlags bit : UInt32) : Bool := nFlags &&& bit ≠ 0

/-! ## Fractions -/

structure CFractions where
  nVersion : UInt8 := 1
  nFlags : UInt32 := VALUE
  nLockTime : UInt64 := 0
  sReturnAddr : List UInt8 := []
  f : Vector Int64 PEG_SIZE := Vector.replicate PEG_SIZE 0

/-- Columns of `v`: each of them takes a hundredth of what is left, the last one the rest. -/
def stdColumns : ℕ → Int64 → List Int64
  | 0, _ => []
  | 1, v => [v]
  | n + 2, v => v / 100 :: stdColumns (n + 1) (v - v / 100)

@[simp] theorem length_stdColumns (n : ℕ) (v : Int64) : (stdColumns n v).length = n := by
  induction n generalizing v with
  | zero => rfl
  | succ n ih =>
    cases n with
    | zero => rfl
    | succ n => rw [stdColumns, List.length_cons, ih]

def deltasBehind (fp : Int64) : List Int64 → List Int64
  | [] => []
  | f :: rest => (f - fp * 99 / 100) :: deltasBehind f rest

def toDeltas : List Int64 → List Int64
  | [] => []
  | f :: rest => f :: deltasBehind f rest

def columnsBehind (fp : Int64) : List Int64 → List Int64
  | [] => []
  | d :: rest => (d + fp * 99 / 100) :: columnsBehind (d + fp * 99 / 100) rest

def fromDeltas : List Int64 → List Int64
  | [] => []
  | d :: rest => d :: columnsBehind d rest

def asColumns (l : List Int64) : Option (Vector Int64 PEG_SIZE) :=
  if h : l.length = PEG_SIZE then some ⟨l.toArray, by simpa using h⟩ else none

namespace CFractions

def columns (fr : CFractions) : List Int64 :=
  if hasFlag fr.nFlags VALUE then stdColumns PEG_SIZE fr.f[0] else fr.f.toList

def std (fr : CFractions) : CFractions :=
  if hasFlag fr.nFlags VALUE then
    { fr with
      nFlags := (fr.nFlags &&& ~~~VALUE) ||| STD
      f := ⟨(stdColumns PEG_SIZE fr.f[0]).toArray, by simp⟩ }
  else fr

def total (fr : CFractions) : Int64 :=
  if hasFlag fr.nFlags VALUE then fr.f[0] else fr.f.toList.foldl (· + ·) 0

def low (fr : CFractions) (supply : ℤ) : Int64 :=
  (fr.columns.take supply.toNat).foldl (· + ·) 0

def high (fr : CFractions) (supply : ℤ) : Int64 :=
  (fr.columns.drop supply.toNat).foldl (· + ·) 0

def packHead (fr : CFractions) (nSer : UInt32) : List UInt8 :=
  uint8.write fr.nVersion ++ (uint32.write (fr.nFlags ||| nSer) ++
    (uint64.write fr.nLockTime ++ writeString fr.sReturnAddr))

def pack (zlib : Zlib) (fr : CFractions) : List UInt8 :=
  if hasFlag fr.nFlags VALUE then fr.packHead SER_VALUE ++ int64.write fr.f[0]
  else
    match zlib.compress2 (writeAll int64 (toDeltas fr.f.toList)) with
    | some zout =>
      fr.packHead SER_ZDELTA ++ (uint64.write (UInt64.ofNat zout.length) ++ zout)
    | none => fr.packHead SER_RAW ++ writeAll int64 fr.f.toList

/-- The columns of compressed differences. Fewer than `PEG_SIZE` leave columns undefined. -/
def readDeltas (zlib : Zlib) : Reader (Vector Int64 PEG_SIZE) := do
  let zlen ← uint64.read
  if zoutSize < zlen.toNat then failure
  else do
    let src ← readBytes zlen.toNat
    match (zlib.uncompress src).bind fun dst => (readAll int64 PEG_SIZE).run dst with
    | none => failure
    | some deltas =>
      match asColumns (fromDeltas deltas.1) with
      | none => failure
      | some f => pure f

def readRaw : Reader (Vector Int64 PEG_SIZE) := do
  let l ← readAll int64 PEG_SIZE
  match asColumns l with
  | none => failure
  | some f => pure f

/-- The flags and the columns, in the form that the stored flags name. -/
def readColumns (zlib : Zlib) (nSerFlags : UInt32) : Reader (UInt32 × Vector Int64 PEG_SIZE) :=
  if hasFlag nSerFlags SER_VALUE then do
    let value ← int64.read
    return (nSerFlags ||| VALUE, (Vector.replicate PEG_SIZE 0).set 0 value)
  else if hasFlag nSerFlags SER_ZDELTA then do
    let f ← readDeltas zlib
    return (nSerFlags ||| STD, f)
  else if hasFlag nSerFlags SER_RAW then do
    let f ← readRaw
    return (nSerFlags ||| STD, f)
  else return (VALUE, Vector.replicate PEG_SIZE 0)

def unpack (zlib : Zlib) : Reader CFractions := do
  let nVersion ← uint8.read
  let nSerFlags ← uint32.read
  let nLockTime ← uint64.read
  let sReturnAddr ← readString MAX_SIZE
  let r ← readColumns zlib nSerFlags
  return { nVersion, nFlags := r.1 &&& SER_MASK, nLockTime, sReturnAddr, f := r.2 }

structure Standard (fr : CFractions) : Prop where
  not_value : hasFlag fr.nFlags VALUE = false
  std : hasFlag fr.nFlags STD = true
  flags : fr.nFlags.toNat < 2 ^ 16

end CFractions

/-! ## Levels -/

structure CPegLevel where
  nVersion : UInt8 := 2
  nCycle : Int64 := 0
  nCyclePrev : Int64 := 0
  nBuffer : Int16 := 3
  nSupply : Int16 := -1
  nSupplyNext : Int16 := -1
  nSupplyNextNext : Int16 := -1
  nShift : Int16 := 0
  nShiftLastPart : Int64 := 0
  nShiftLastTotal : Int64 := 0

namespace CPegLevel

def isValid (l : CPegLevel) : Bool :=
  0 ≤ l.nBuffer ∧ 0 ≤ l.nSupply ∧ l.nSupply.toInt < PEG_SIZE ∧ 0 ≤ l.nSupplyNext ∧
    l.nSupplyNext.toInt < PEG_SIZE ∧ 0 ≤ l.nSupplyNextNext ∧ l.nSupplyNextNext.toInt < PEG_SIZE ∧
    0 ≤ l.nShift ∧ l.nSupply.toInt + l.nShift.toInt < PEG_SIZE ∧ 0 ≤ l.nShiftLastPart ∧
    0 ≤ l.nShiftLastTotal

def pack (l : CPegLevel) : List UInt8 :=
  uint8.write 2 ++ (int64.write l.nCycle ++ (int64.write l.nCyclePrev ++
    (int16.write l.nBuffer ++ (int16.write l.nSupply ++ (int16.write l.nSupplyNext ++
      (int16.write l.nSupplyNextNext ++ (int16.write l.nShift ++
        (int64.write l.nShiftLastPart ++ int64.write l.nShiftLastTotal))))))))

def readSupplies (nVersion : UInt8) (nCycle nCyclePrev : Int64) (nBuffer : Int16) :
    Reader CPegLevel := do
  let nSupply ← int16.read
  let nSupplyNext ← int16.read
  let nSupplyNextNext ← int16.read
  let nShift ← int16.read
  let nShiftLastPart ← int64.read
  let nShiftLastTotal ← int64.read
  return { nVersion, nCycle, nCyclePrev, nBuffer, nSupply, nSupplyNext, nSupplyNextNext, nShift,
           nShiftLastPart, nShiftLastTotal : CPegLevel }

/-- What follows the version. The first version has no buffer, and version 0 nothing. -/
def unpackVersion (nVersion : UInt8) : Reader CPegLevel :=
  if nVersion = 0 then return { nVersion : CPegLevel }
  else do
    let nCycle ← int64.read
    let nCyclePrev ← int64.read
    let nBuffer ← if nVersion = 1 then pure 3 else int16.read
    readSupplies nVersion nCycle nCyclePrev nBuffer

def unpack : Reader CPegLevel := uint8.read >>= unpackVersion

end CPegLevel

/-! ## Peg data -/

structure CPegData where
  nVersion : Int64 := 1
  fractions : CFractions := {}
  peglevel : CPegLevel := {}
  nLiquid : Int64 := 0
  nReserve : Int64 := 0
  nId : Int32 := 0

namespace CPegData

def fPartial (pd : CPegData) : Bool :=
  0 < pd.peglevel.nShiftLastPart ∧ 0 < pd.peglevel.nShiftLastTotal

def isValid (pd : CPegData) : Bool :=
  let nSupplyEffective := pd.peglevel.nSupply.toInt + pd.peglevel.nShift.toInt
  pd.peglevel.isValid ∧ pd.nReserve + pd.nLiquid = pd.fractions.total ∧
    if pd.fPartial then
      pd.fractions.high (nSupplyEffective + 1) ≤ pd.nLiquid ∧
        pd.fractions.low nSupplyEffective ≤ pd.nReserve
    else
      pd.nLiquid = pd.fractions.high nSupplyEffective ∧
        pd.nReserve = pd.fractions.low nSupplyEffective

def pack (zlib : Zlib) (pd : CPegData) : List UInt8 :=
  int64.write pd.nVersion ++ (pd.fractions.pack zlib ++ (pd.peglevel.pack ++
    (int64.write pd.nReserve ++ (int64.write pd.nLiquid ++ int32.write pd.nId))))

def unpack (zlib : Zlib) : Reader CPegData := do
  let nVersion ← int64.read
  let fractions ← CFractions.unpack zlib
  let peglevel ← CPegLevel.unpack
  let nReserve ← int64.read
  let nLiquid ← int64.read
  let nId ← int32.read
  let pd : CPegData := { nVersion, fractions, peglevel, nLiquid, nReserve, nId }
  if pd.isValid then return { pd with fractions := fractions.std } else failure

def toText (zlib : Zlib) (pd : CPegData) : CString := encodeBase64 (pd.pack zlib)

/-- The constructor from a text. What is not in the current format is left to the readers of
the previous ones. -/
def ofText (zlib : Zlib) (previous : List UInt8 → CPegData) (pegdata64 : CString) : CPegData :=
  if pegdata64 = [] then
    { peglevel := { nBuffer := 0, nSupply := 0, nSupplyNext := 0, nSupplyNextNext := 0 } }
  else
    match (unpack zlib).run (decodeBase64 pegdata64) with
    | some (pd, _) => pd
    | none => previous (decodeBase64 pegdata64)

def currentLevel (pd : CPegData) : CPegData :=
  { pd with peglevel := { pd.peglevel with nVersion := 2 } }

end CPegData

/-! ## Flags -/

section Flags

variable {x y : UInt32} {k : ℕ}

/-- A flag is a bit. -/
theorem hasFlag_iff {bit : UInt32} (hbit : bit.toNat = 2 ^ k) :
    hasFlag x bit = x.toNat.testBit k := by
  have hzero : x &&& bit = 0 ↔ x.toNat &&& 2 ^ k = 0 := by
    rw [← UInt32.toNat_inj, UInt32.toNat_and, hbit]
    rfl
  rw [hasFlag, Bool.eq_iff_iff, decide_eq_true_iff, Ne, hzero, Nat.and_two_pow]
  cases x.toNat.testBit k <;> simp

theorem hasFlag_or {bit : UInt32} (hbit : bit.toNat = 2 ^ k) :
    hasFlag (x ||| y) bit = (hasFlag x bit || hasFlag y bit) := by
  rw [hasFlag_iff hbit, hasFlag_iff hbit, hasFlag_iff hbit, UInt32.toNat_or, Nat.testBit_or]

/-- Flags below `2 ^ 16` have no higher bits. -/
theorem hasFlag_of_lt {bit : UInt32} (hbit : bit.toNat = 2 ^ k) (hk : 16 ≤ k)
    (hx : x.toNat < 2 ^ 16) : hasFlag x bit = false := by
  rw [hasFlag_iff hbit]
  exact Nat.testBit_lt_two_pow (hx.trans_le (Nat.pow_le_pow_right (by decide) hk))

/-- The stored flags without the bits of the serial form. -/
theorem mask_flags {nSer : UInt32} (hser : nSer.toNat % 2 ^ 16 = 0) (hstd : hasFlag x STD = true)
    (hx : x.toNat < 2 ^ 16) : ((x ||| nSer) ||| STD) &&& SER_MASK = x := by
  have hmask : SER_MASK.toNat = 2 ^ 16 - 1 := rfl
  have htwo : STD.toNat = 2 ^ 1 := rfl
  rw [← UInt32.toNat_inj, UInt32.toNat_and, UInt32.toNat_or, UInt32.toNat_or, hmask, htwo]
  rw [hasFlag_iff htwo] at hstd
  apply Nat.eq_of_testBit_eq
  intro i
  rw [Nat.testBit_and, Nat.testBit_or, Nat.testBit_or, Nat.testBit_two_pow_sub_one,
    Nat.testBit_two_pow]
  by_cases hi : i < 16
  · have hnone : nSer.toNat.testBit i = false := by
      have hmod : (nSer.toNat % 2 ^ 16).testBit i = nSer.toNat.testBit i := by
        rw [Nat.testBit_mod_two_pow, decide_eq_true hi, Bool.true_and]
      rw [← hmod, hser, Nat.zero_testBit]
    by_cases hone : 1 = i
    · subst hone
      simp [hstd]
    · simp [hi, hnone, hone]
  · have hhigh : x.toNat.testBit i = false :=
      Nat.testBit_lt_two_pow (hx.trans_le (Nat.pow_le_pow_right (by decide) (not_lt.mp hi)))
    simp [hi, hhigh]

end Flags

/-! ## Columns -/

/-- A difference is taken back where it was made, whether it wraps or not. -/
theorem columnsBehind_deltasBehind (fp : Int64) (l : List Int64) :
    columnsBehind fp (deltasBehind fp l) = l := by
  induction l generalizing fp with
  | nil => rfl
  | cons f rest ih => rw [deltasBehind, columnsBehind, Int64.sub_add_cancel, ih]

theorem fromDeltas_toDeltas (l : List Int64) : fromDeltas (toDeltas l) = l := by
  cases l with
  | nil => rfl
  | cons f rest => rw [toDeltas, fromDeltas, columnsBehind_deltasBehind]

theorem length_deltasBehind (fp : Int64) (l : List Int64) :
    (deltasBehind fp l).length = l.length := by
  induction l generalizing fp with
  | nil => rfl
  | cons f rest ih => rw [deltasBehind, List.length_cons, List.length_cons, ih]

theorem length_toDeltas (l : List Int64) : (toDeltas l).length = l.length := by
  cases l with
  | nil => rfl
  | cons f rest => rw [toDeltas, List.length_cons, List.length_cons, length_deltasBehind]

theorem asColumns_toList (f : Vector Int64 PEG_SIZE) : asColumns f.toList = some f := by
  have hlength : f.toList.length = PEG_SIZE := by simp
  rw [asColumns, dif_pos hlength]
  rfl

section Fractions

variable {zlib : Zlib} {fr : CFractions}

theorem reads_deltas {zout : List UInt8}
    (h : zlib.compress2 (writeAll int64 (toDeltas fr.f.toList)) = some zout) :
    Reads (CFractions.readDeltas zlib) (uint64.write (UInt64.ofNat zout.length) ++ zout) fr.f := by
  have hfits := zlib.fits _ _ h
  have hsize : zoutSize < 2 ^ 64 := by decide
  have hlength : (UInt64.ofNat zout.length).toNat = zout.length := by
    rw [UInt64.toNat_ofNat']
    exact Nat.mod_eq_of_lt (by omega)
  have hdeltas : (toDeltas fr.f.toList).length = PEG_SIZE := by
    rw [length_toDeltas]
    simp
  have hread : (readAll int64 PEG_SIZE).run (writeAll int64 (toDeltas fr.f.toList)) =
      some (toDeltas fr.f.toList, []) := by
    have hall := reads_all int64 (toDeltas fr.f.toList) []
    rwa [hdeltas, List.append_nil] at hall
  refine (uint64.reads _).bind ?_
  rw [hlength, if_neg (not_lt.mpr hfits)]
  refine (reads_bytes zout).last ?_
  rw [zlib.inverts _ _ h, Option.bind_some, hread]
  dsimp only
  rw [fromDeltas_toDeltas, asColumns_toList]
  exact Reads.pure fr.f

theorem reads_raw : Reads CFractions.readRaw (writeAll int64 fr.f.toList) fr.f := by
  have hlength : fr.f.toList.length = PEG_SIZE := by simp
  have hall := reads_all int64 fr.f.toList
  rw [hlength] at hall
  refine hall.last ?_
  rw [asColumns_toList]
  exact Reads.pure fr.f

/-- What comes before the columns, and the columns. -/
theorem reads_packHead {nSer : UInt32} {bytes : List UInt8}
    (hser : nSer.toNat % 2 ^ 16 = 0) (hstd : fr.Standard)
    (haddr : fr.sReturnAddr.length ≤ MAX_SIZE)
    (hcolumns : Reads (CFractions.readColumns zlib (fr.nFlags ||| nSer)) bytes
      ((fr.nFlags ||| nSer) ||| STD, fr.f)) :
    Reads (CFractions.unpack zlib) (fr.packHead nSer ++ bytes) fr := by
  have hsize : MAX_SIZE < 2 ^ 64 := by decide
  unfold CFractions.packHead CFractions.unpack
  simp only [List.append_assoc]
  refine (uint8.reads _).bind ((uint32.reads _).bind ((uint64.reads _).bind
    ((reads_string haddr (by omega)).bind ?_)))
  refine hcolumns.last ?_
  rw [mask_flags hser hstd.std hstd.flags]
  exact Reads.pure fr

/-- Fractions in standard form are read back. -/
theorem reads_fractions (hstd : fr.Standard) (haddr : fr.sReturnAddr.length ≤ MAX_SIZE) :
    Reads (CFractions.unpack zlib) (fr.pack zlib) fr := by
  have hvalue : SER_VALUE.toNat = 2 ^ 16 := rfl
  have hzdelta : SER_ZDELTA.toNat = 2 ^ 17 := rfl
  have hraw : SER_RAW.toNat = 2 ^ 18 := rfl
  rw [CFractions.pack, hstd.not_value, if_neg Bool.false_ne_true]
  split
  · rename_i zout hzout
    refine reads_packHead (by decide) hstd haddr ?_
    rw [CFractions.readColumns, hasFlag_or hvalue, hasFlag_or hzdelta,
      hasFlag_of_lt hvalue le_rfl hstd.flags, if_neg (by decide), if_pos (Bool.or_eq_true_iff.mpr (Or.inr (by decide)))]
    exact (reads_deltas hzout).map
  · refine reads_packHead (by decide) hstd haddr ?_
    rw [CFractions.readColumns, hasFlag_or hvalue, hasFlag_or hzdelta, hasFlag_or hraw,
      hasFlag_of_lt hvalue le_rfl hstd.flags, hasFlag_of_lt hzdelta (by decide) hstd.flags,
      if_neg (by decide), if_neg (by decide), if_pos (Bool.or_eq_true_iff.mpr (Or.inr (by decide)))]
    exact reads_raw.map

end Fractions

/-- A level is read back with the current version. -/
theorem reads_peglevel (l : CPegLevel) :
    Reads CPegLevel.unpack l.pack { l with nVersion := 2 } := by
  have hdone := Reads.map (g := fun n => { l with nVersion := 2, nShiftLastTotal := n })
    (int64.reads l.nShiftLastTotal)
  refine (uint8.reads 2).bind ?_
  rw [CPegLevel.unpackVersion, if_neg (by decide)]
  refine (int64.reads _).bind ((int64.reads _).bind ?_)
  rw [if_neg (by decide)]
  exact (int16.reads _).bind ((int16.reads _).bind ((int16.reads _).bind ((int16.reads _).bind
    ((int16.reads _).bind ((int64.reads _).bind hdone)))))

/-! ## The round trip -/

section PegData

variable {zlib : Zlib} {pd : CPegData}

theorem reads_pegdata (hvalid : pd.isValid = true) (hstd : pd.fractions.Standard)
    (haddr : pd.fractions.sReturnAddr.length ≤ MAX_SIZE) :
    Reads (CPegData.unpack zlib) (pd.pack zlib) pd.currentLevel := by
  have hkeep : pd.fractions.std = pd.fractions := by
    rw [CFractions.std, hstd.not_value, if_neg Bool.false_ne_true]
  have hcurrent : pd.currentLevel.isValid = true := hvalid
  unfold CPegData.unpack CPegData.pack
  refine (int64.reads _).bind ((reads_fractions hstd haddr).bind ((reads_peglevel _).bind
    ((int64.reads _).bind ((int64.reads _).bind ?_))))
  refine (int32.reads _).last ?_
  change Reads (if pd.currentLevel.isValid = true then
    pure { pd.currentLevel with fractions := pd.fractions.std } else failure) [] pd.currentLevel
  rw [if_pos hcurrent, hkeep]
  exact Reads.pure pd.currentLevel

theorem pack_ne_nil : pd.pack zlib ≠ [] := by
  intro hnil
  have hlength : (int64.write pd.nVersion).length = 0 := by
    rw [CPegData.pack, List.append_eq_nil_iff] at hnil
    rw [hnil.1, List.length_nil]
  rw [length_int64_write] at hlength
  cases hlength

theorem toText_ne_nil : pd.toText zlib ≠ [] := by
  intro hnil
  have hdecode := decodeBase64_encodeBase64 (pd.pack zlib)
  rw [← CPegData.toText, hnil] at hdecode
  exact pack_ne_nil hdecode.symm

/-- The bytes of a text of valid peg data. -/
theorem run_unpack_toText (hvalid : pd.isValid = true) (hstd : pd.fractions.Standard)
    (haddr : pd.fractions.sReturnAddr.length ≤ MAX_SIZE) :
    (CPegData.unpack zlib).run (decodeBase64 (pd.toText zlib)) = some (pd.currentLevel, []) := by
  have hreads : Reads (CPegData.unpack zlib) (pd.pack zlib) pd.currentLevel :=
    reads_pegdata hvalid hstd haddr
  have hreads := hreads []
  rwa [List.append_nil, ← decodeBase64_encodeBase64 (pd.pack zlib)] at hreads

theorem ofText_toText (previous : List UInt8 → CPegData) (hvalid : pd.isValid = true)
    (hstd : pd.fractions.Standard) (haddr : pd.fractions.sReturnAddr.length ≤ MAX_SIZE) :
    CPegData.ofText zlib previous (pd.toText zlib) = pd.currentLevel := by
  rw [CPegData.ofText, if_neg toText_ne_nil, run_unpack_toText hvalid hstd haddr]

end PegData

/-! ## A sample -/

def sampleColumns : List Int64 := [-7, 0, 0, 1000] ++ (List.replicate 1195 0 ++ [5])

theorem length_sampleColumns : sampleColumns.length = PEG_SIZE := by
  rw [sampleColumns, List.length_append, List.length_append, List.length_replicate]
  rfl

def sampleFractions : CFractions where
  nFlags := STD
  nLockTime := 1700000000
  sReturnAddr := [66, 69]
  f := ⟨sampleColumns.toArray, by rw [List.size_toArray, length_sampleColumns]⟩

def samplePegData : CPegData where
  fractions := sampleFractions
  peglevel := { nCycle := 8, nCyclePrev := 7, nSupply := 10, nSupplyNext := 10, nSupplyNextNext := 11 }
  nLiquid := 5
  nReserve := 993
  nId := 2

def sampleZout : List UInt8 :=
  [120, 1, 237, 208, 177, 9, 0, 32, 16, 3, 64, 65, 116, 16, 247, 31, 204, 21, 4, 65, 139, 183, 249,
   25, 188, 116, 33, 85, 110, 157, 72, 47, 57, 179, 70, 31, 59, 246, 188, 106, 4, 8, 16, 32, 64, 128,
   0, 1, 2, 4, 8, 16, 32, 64, 128, 0, 1, 2, 4, 8, 16, 32, 64, 128, 0, 1, 2, 4, 8, 16, 32, 64, 128,
   0, 1, 2, 4, 8, 16, 248, 87, 160, 189, 235, 23, 92, 50, 16, 1]

def sampleZlib : Zlib where
  compress2 := fun src =>
    if src = writeAll int64 (toDeltas sampleFractions.f.toList) then some sampleZout else none
  uncompress := fun zout =>
    if zout = sampleZout then some (writeAll int64 (toDeltas sampleFractions.f.toList)) else none
  fits := by
    intro src zout h
    split_ifs at h
    cases h
    decide
  inverts := by
    intro src zout h
    split_ifs at h with hsrc
    cases h
    rw [if_pos rfl, hsrc]

theorem samplePegData_valid : samplePegData.isValid = true := by decide +kernel

theorem samplePegData_standard : samplePegData.fractions.Standard :=
  ⟨by decide, by decide, by decide⟩

def firstVersionData : CPegData :=
  { samplePegData with peglevel := { samplePegData.peglevel with nVersion := 1 } }

/-- A level of the first version comes back as one of the second. -/
theorem first_version_lost : firstVersionData.isValid = true ∧
    firstVersionData.fractions.Standard ∧
    CPegData.ofText sampleZlib (fun _ => {}) (firstVersionData.toText sampleZlib) ≠
      firstVersionData := by
  have hvalid : firstVersionData.isValid = true := samplePegData_valid
  refine ⟨hvalid, samplePegData_standard, ?_⟩
  rw [ofText_toText (fun _ => {}) hvalid samplePegData_standard (by decide)]
  intro hsame
  have hversion := congrArg (fun pd => pd.peglevel.nVersion) hsame
  revert hversion
  decide

end BitBay.Codec
