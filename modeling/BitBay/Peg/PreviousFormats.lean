import BitBay.Library.Decode
import BitBay.Peg.Codec

/-!
# Peg data of previous formats

The constructor of `CPegData` from a text tries the current format and then the two previous
ones, all of them on the same object. A decoder assigns members as it goes, so a decoder that
refuses the bytes leaves what it has assigned, and the previous formats have fewer members than
the current one. Every member remembers which format assigned it last.

The previous formats compare the liquid part and the reserve with sums of columns up to a supply
from the bytes, which may lie outside the columns.
-/
namespace BitBay.Codec

open Wire Decode

inductive Version
  | current
  | second
  | first
  deriving DecidableEq

/-- The members of peg data, with those of the fractions and of the level. -/
inductive Member
  | nVersion | fractionsVersion | nFlags | nLockTime | sReturnAddr | f
  | levelVersion | nCycle | nCyclePrev | nBuffer | nSupply | nSupplyNext | nSupplyNextNext
  | nShift | nShiftLastPart | nShiftLastTotal
  | nReserve | nLiquid | nId
  deriving DecidableEq

abbrev Unpacker := Decoder CPegData Member Version

abbrev Unpacking := Decoding CPegData Member Version

/-! ## Fractions -/

def numberAt (bytes : List UInt8) (i : ℕ) : Int64 :=
  (UInt64.ofNat (leNat ((bytes.drop (8 * i)).take 8))).toInt64

def columnsOf (bytes : List UInt8) : Vector Int64 PEG_SIZE :=
  Vector.ofFn fun i => numberAt bytes i

theorem length_columnsBehind (fp : Int64) (l : List Int64) :
    (columnsBehind fp l).length = l.length := by
  induction l generalizing fp with
  | nil => rfl
  | cons d rest ih => rw [columnsBehind, List.length_cons, List.length_cons, ih]

@[simp] theorem length_fromDeltas (l : List Int64) : (fromDeltas l).length = l.length := by
  cases l with
  | nil => rfl
  | cons d rest => rw [fromDeltas, List.length_cons, List.length_cons, length_columnsBehind]

def columnsOfDeltas (deltas : Vector Int64 PEG_SIZE) : Vector Int64 PEG_SIZE :=
  ⟨(fromDeltas deltas.toList).toArray, by simp⟩

namespace CPegData

def withFractions (g : CFractions → CFractions) (pd : CPegData) : CPegData :=
  { pd with fractions := g pd.fractions }

def withPeglevel (g : CPegLevel → CPegLevel) (pd : CPegData) : CPegData :=
  { pd with peglevel := g pd.peglevel }

end CPegData

open CPegData (withFractions withPeglevel)

namespace CFractions

section Unpack

/-! `stack` has the bytes of the array `deltas` before `uncompress` writes to it. -/
variable (zlib : Zlib) (stack : Version → List UInt8) (v : Version)

def unpackReturnAddr : Unpacker Unit := do
  let nSize ← take (readCompactSize MAX_SIZE)
  assign v .sReturnAddr (withFractions fun fr =>
    { fr with sReturnAddr := fr.sReturnAddr.take nSize ++
        List.replicate (nSize - fr.sReturnAddr.length) 0 })
  readInto v .sReturnAddr (readBytes nSize) fun bytes =>
    withFractions fun fr => { fr with sReturnAddr := bytes }

def assignFlags (nFlags : UInt32) : Unpacker Unit :=
  assign v .nFlags (withFractions fun fr => { fr with nFlags })

def assignColumns (f : Vector Int64 PEG_SIZE) : Unpacker Unit :=
  assign v .f (withFractions fun fr => { fr with f })

/-- The columns in the form that the stored flags name. Without a form the object keeps its
own columns and flags. -/
def unpackForm (nSerFlags : UInt32) : Unpacker Unit :=
  if hasFlag nSerFlags SER_VALUE then do
    assignFlags v (nSerFlags ||| VALUE)
    readInto v .f int64.read fun value =>
      withFractions fun fr => { fr with f := fr.f.set 0 value PEG_SIZE_pos }
  else if hasFlag nSerFlags SER_ZDELTA then do
    let zlen ← take uint64.read
    if zoutSize < zlen.toNat then refuse
    else do
      let src ← take (readBytes zlen.toNat)
      match zlib.uncompress src with
      | none => refuse
      | some dst => do
        assignColumns v (columnsOfDeltas (columnsOf (dst ++ (stack v).drop dst.length)))
        assignFlags v (nSerFlags ||| STD)
  else if hasFlag nSerFlags SER_RAW then do
    let bytes ← take (readBytes (PEG_SIZE * 8))
    assignColumns v (columnsOf bytes)
    assignFlags v (nSerFlags ||| STD)
  else pure ()

def unpackColumns (nSerFlags : UInt32) : Unpacker Unit := do
  unpackForm zlib stack v nSerFlags
  adjust (withFractions fun fr => { fr with nFlags := fr.nFlags &&& SER_MASK })

def unpackLockTime : Unpacker Unit :=
  readInto v .nLockTime uint64.read fun nLockTime => withFractions fun fr => { fr with nLockTime }

def unpackInto : Unpacker Unit := do
  readInto .current .fractionsVersion uint8.read fun nVersion =>
    withFractions fun fr => { fr with nVersion }
  let nSerFlags ← take uint32.read
  unpackLockTime .current
  unpackReturnAddr .current
  unpackColumns zlib stack .current nSerFlags

def unpack1 : Unpacker Unit := do
  let nSerFlags ← take uint32.read
  unpackLockTime .first
  unpackColumns zlib stack .first nSerFlags

def unpack2 : Unpacker Unit := do
  let nSerFlags ← take uint32.read
  unpackLockTime .second
  unpackColumns zlib stack .second nSerFlags
  unpackReturnAddr .second

end Unpack

def lowAt (fr : CFractions) (supply : ℤ) : Unpacker Int64 :=
  if supply ≤ PEG_SIZE then pure (fr.low supply) else undefined

def highAt (fr : CFractions) (supply : ℤ) : Unpacker Int64 :=
  if 0 ≤ supply then pure (fr.high supply) else undefined

end CFractions

/-! ## Levels -/

namespace CPegLevel

def unpackCycles (v : Version) : Unpacker Unit := do
  readInto v .nCycle int64.read fun nCycle => withPeglevel fun l => { l with nCycle }
  readInto v .nCyclePrev int64.read fun nCyclePrev => withPeglevel fun l => { l with nCyclePrev }

def unpackSupplies (v : Version) : Unpacker Unit := do
  readInto v .nSupply int16.read fun nSupply => withPeglevel fun l => { l with nSupply }
  readInto v .nSupplyNext int16.read fun nSupplyNext =>
    withPeglevel fun l => { l with nSupplyNext }
  readInto v .nSupplyNextNext int16.read fun nSupplyNextNext =>
    withPeglevel fun l => { l with nSupplyNextNext }
  readInto v .nShift int16.read fun nShift => withPeglevel fun l => { l with nShift }
  readInto v .nShiftLastPart int64.read fun nShiftLastPart =>
    withPeglevel fun l => { l with nShiftLastPart }
  readInto v .nShiftLastTotal int64.read fun nShiftLastTotal =>
    withPeglevel fun l => { l with nShiftLastTotal }

def unpack1 (v : Version) : Unpacker Unit := do
  unpackCycles v
  unpackSupplies v
  assign v .nBuffer (withPeglevel fun l => { l with nBuffer := 3 })

def unpackInto : Unpacker Unit := do
  let nVersion ← take uint8.read
  assign .current .levelVersion (withPeglevel fun l => { l with nVersion })
  if nVersion = 1 then unpack1 .current
  else if 1 < nVersion then
    unpackCycles .current
    readInto .current .nBuffer int16.read fun nBuffer => withPeglevel fun l => { l with nBuffer }
    unpackSupplies .current
  else pure ()

end CPegLevel

/-! ## Peg data -/

namespace CPegData

def nSupplyEffective (pd : CPegData) : ℤ := pd.peglevel.nSupply.toInt + pd.peglevel.nShift.toInt

def matchesLevel (pd : CPegData) : Unpacker Bool := do
  if pd.fPartial then
    let nLiquidWithoutPartial ← pd.fractions.highAt (pd.nSupplyEffective + 1)
    let nReserveWithoutPartial ← pd.fractions.lowAt pd.nSupplyEffective
    return nLiquidWithoutPartial ≤ pd.nLiquid ∧ nReserveWithoutPartial ≤ pd.nReserve
  else
    let nLiquidCalc ← pd.fractions.highAt pd.nSupplyEffective
    let nReserveCalc ← pd.fractions.lowAt pd.nSupplyEffective
    return pd.nLiquid = nLiquidCalc ∧ pd.nReserve = nReserveCalc

def matchesTotal (pd : CPegData) : Bool := pd.nReserve + pd.nLiquid = pd.fractions.total

def isValidAt (pd : CPegData) : Unpacker Bool :=
  if pd.peglevel.isValid = false then pure false
  else if pd.matchesTotal = false then pure false
  else pd.matchesLevel

def unpackReserve (v : Version) : Unpacker Unit :=
  readInto v .nReserve int64.read fun nReserve pd => { pd with nReserve }

def unpackLiquid (v : Version) : Unpacker Unit :=
  readInto v .nLiquid int64.read fun nLiquid pd => { pd with nLiquid }

def checkCurrent : Unpacker Unit := do
  let s ← get
  let valid ← s.obj.isValidAt
  if valid then adjust (withFractions CFractions.std) else refuse

/-- What the previous formats check. Neither of them asks whether the level is valid. -/
def checkPrevious : Unpacker Unit := do
  let s ← get
  if s.obj.matchesTotal then
    let fits ← s.obj.matchesLevel
    if fits then adjust (withFractions CFractions.std) else refuse
  else refuse

section Unpack

variable (zlib : Zlib) (stack : Version → List UInt8)

def unpackMembers : Unpacker Unit := do
  readInto .current .nVersion int64.read fun nVersion pd => { pd with nVersion }
  CFractions.unpackInto zlib stack
  CPegLevel.unpackInto
  unpackReserve .current
  unpackLiquid .current
  readInto .current .nId int32.read fun nId pd => { pd with nId }

def unpackMembers2 : Unpacker Unit := do
  CFractions.unpack2 zlib stack
  CPegLevel.unpack1 .second
  unpackReserve .second
  unpackLiquid .second

def unpackMembers1 : Unpacker Unit := do
  CFractions.unpack1 zlib stack
  CPegLevel.unpack1 .first
  unpackReserve .first
  unpackLiquid .first

def unpackInto : Unpacker Unit := unpackMembers zlib stack >>= fun _ => checkCurrent

def unpack2 : Unpacker Unit := unpackMembers2 zlib stack >>= fun _ => checkPrevious

def unpack1 : Unpacker Unit := unpackMembers1 zlib stack >>= fun _ => checkPrevious

def unpackAs : Version → Unpacker Unit
  | .current => unpackInto zlib stack
  | .second => unpack2 zlib stack
  | .first => unpack1 zlib stack

def unpackAlone (v : Version) (pegdata : List UInt8) : Except Failure Unit × Unpacking :=
  run (unpackAs zlib stack v) ⟨{}, fun _ => none, pegdata⟩

/-- The second attempt, on the object that the first one has left. -/
def secondAttempt (pegdata : List UInt8) : Except Failure Unit × Unpacking :=
  run (unpack2 zlib stack) { (unpackAlone zlib stack .current pegdata).2 with rest := pegdata }

/-- The third attempt, on the object that the second one has left. -/
def thirdAttempt (pegdata : List UInt8) : Except Failure Unit × Unpacking :=
  run (unpack1 zlib stack) { (secondAttempt zlib stack pegdata).2 with rest := pegdata }

/-- A text that has been read: the object, and the format that has accepted it. -/
structure Decoded where
  data : CPegData
  origin : Member → Option Version
  accepted : Option Version

def outcome (v : Version) (r : Except Failure Unit × Unpacking)
    (refused : Unpacking → Option Decoded) : Option Decoded :=
  match r with
  | (.ok _, s) => some ⟨s.obj, s.origin, some v⟩
  | (.error .undefined, _) => none
  | (.error .refused, s) => refused s

/-- The constructor from a text. No value stands for one that indexes outside the columns. -/
def construct (pegdata64 : CString) : Option Decoded :=
  if pegdata64 = [] then
    some ⟨{ peglevel := { nBuffer := 0, nSupply := 0, nSupplyNext := 0, nSupplyNextNext := 0 } },
      fun _ => none, none⟩
  else
    outcome .current (unpackAlone zlib stack .current (decodeBase64 pegdata64)) fun _ =>
    outcome .second (secondAttempt zlib stack (decodeBase64 pegdata64)) fun _ =>
    outcome .first (thirdAttempt zlib stack (decodeBase64 pegdata64)) fun s =>
    some ⟨{ s.obj with peglevel := {} }, s.origin, none⟩

end Unpack

end CPegData

/-! ## What the formats assign -/

def previousMembers : Set Member :=
  {m | m ≠ .nVersion ∧ m ≠ .fractionsVersion ∧ m ≠ .levelVersion ∧ m ≠ .nId}

section Within

variable {zlib : Zlib} {stack : Version → List UInt8} {v : Version} {F : Set Member} {U : Prop}

theorem CFractions.within_unpackReturnAddr (h : .sReturnAddr ∈ F) :
    Within v F U (CFractions.unpackReturnAddr v) :=
  (Within.take _).bind fun _ => (Within.assign h _).bind fun _ => Within.readInto h _ _

theorem CFractions.within_unpackForm (hflags : .nFlags ∈ F) (hf : .f ∈ F) (nSerFlags : UInt32) :
    Within v F U (CFractions.unpackForm zlib stack v nSerFlags) := by
  apply Within.ite
  · exact (Within.assign hflags _).bind fun _ => Within.readInto hf _ _
  · apply Within.ite
    · refine (Within.take _).bind fun zlen => Within.ite Within.refuse ?_
      refine (Within.take _).bind fun src => ?_
      cases zlib.uncompress src with
      | none => exact Within.refuse
      | some dst => exact (Within.assign hf _).bind fun _ => Within.assign hflags _
    · apply Within.ite
      · exact (Within.take _).bind fun _ => (Within.assign hf _).bind fun _ =>
          Within.assign hflags _
      · exact Within.pure ()

theorem CFractions.within_unpackColumns (hflags : .nFlags ∈ F) (hf : .f ∈ F) (nSerFlags : UInt32) :
    Within v F U (CFractions.unpackColumns zlib stack v nSerFlags) :=
  (CFractions.within_unpackForm hflags hf nSerFlags).bind fun _ => Within.adjust _

theorem CFractions.within_unpackInto :
    Within .current Set.univ U (CFractions.unpackInto zlib stack) :=
  (Within.readInto (Set.mem_univ _) _ _).bind fun _ => (Within.take _).bind fun nSerFlags =>
    (Within.readInto (Set.mem_univ _) _ _).bind fun _ =>
      (CFractions.within_unpackReturnAddr (Set.mem_univ _)).bind fun _ =>
        CFractions.within_unpackColumns (Set.mem_univ _) (Set.mem_univ _) nSerFlags

theorem CFractions.within_unpack2 :
    Within .second previousMembers U (CFractions.unpack2 zlib stack) :=
  (Within.take _).bind fun nSerFlags => (Within.readInto (by simp [previousMembers]) _ _).bind
    fun _ => (CFractions.within_unpackColumns (by simp [previousMembers])
      (by simp [previousMembers]) nSerFlags).bind
      fun _ => CFractions.within_unpackReturnAddr (by simp [previousMembers])

theorem CFractions.within_unpack1 :
    Within .first previousMembers U (CFractions.unpack1 zlib stack) :=
  (Within.take _).bind fun nSerFlags => (Within.readInto (by simp [previousMembers]) _ _).bind
    fun _ => CFractions.within_unpackColumns (by simp [previousMembers])
      (by simp [previousMembers]) nSerFlags

theorem CPegLevel.within_unpackCycles (hF : previousMembers ⊆ F) :
    Within v F U (CPegLevel.unpackCycles v) :=
  Within.mono ((Within.readInto (by simp [previousMembers]) _ _).bind fun _ =>
    Within.readInto (by simp [previousMembers]) _ _) hF id

theorem CPegLevel.within_unpackSupplies (hF : previousMembers ⊆ F) :
    Within v F U (CPegLevel.unpackSupplies v) := by
  apply Within.mono _ hF id
  unfold CPegLevel.unpackSupplies
  repeat'
    first
    | exact Within.readInto (by simp [previousMembers]) _ _
    | refine (Within.readInto (by simp [previousMembers]) _ _).bind fun _ => ?_

theorem CPegLevel.within_unpack1 (hF : previousMembers ⊆ F) :
    Within v F U (CPegLevel.unpack1 v) :=
  (CPegLevel.within_unpackCycles hF).bind fun _ => (CPegLevel.within_unpackSupplies hF).bind
    fun _ => Within.assign (hF (by simp [previousMembers])) _

theorem CPegLevel.within_unpackInto : Within .current Set.univ U CPegLevel.unpackInto := by
  refine (Within.take _).bind fun nVersion => (Within.assign (Set.mem_univ _) _).bind fun _ => ?_
  apply Within.ite
  · exact CPegLevel.within_unpack1 (Set.subset_univ _)
  · apply Within.ite
    · exact (CPegLevel.within_unpackCycles (Set.subset_univ _)).bind fun _ =>
        (Within.readInto (Set.mem_univ _) _ _).bind fun _ =>
          CPegLevel.within_unpackSupplies (Set.subset_univ _)
    · exact Within.pure ()

theorem CFractions.within_lowAt (fr : CFractions) (supply : ℤ) :
    Within v F True (fr.lowAt supply) :=
  Within.ite (Within.pure _) (Within.undefined trivial)

theorem CFractions.within_highAt (fr : CFractions) (supply : ℤ) :
    Within v F True (fr.highAt supply) :=
  Within.ite (Within.pure _) (Within.undefined trivial)

namespace CPegData

theorem within_matchesLevel (pd : CPegData) : Within v F True pd.matchesLevel := by
  apply Within.ite
  · exact (CFractions.within_highAt _ _).bind fun _ => (CFractions.within_lowAt _ _).bind
      fun _ => Within.pure _
  · exact (CFractions.within_highAt _ _).bind fun _ => (CFractions.within_lowAt _ _).bind
      fun _ => Within.pure _

theorem within_checkPrevious : Within v F True checkPrevious := by
  refine Within.get.bind fun s => Within.ite ?_ Within.refuse
  exact (within_matchesLevel _).bind fun fits => Within.ite (Within.adjust _) Within.refuse

theorem within_unpackMembers : Within .current Set.univ U (unpackMembers zlib stack) :=
  (Within.readInto (Set.mem_univ _) _ _).bind fun _ => CFractions.within_unpackInto.bind fun _ =>
    CPegLevel.within_unpackInto.bind fun _ => (Within.readInto (Set.mem_univ _) _ _).bind fun _ =>
      (Within.readInto (Set.mem_univ _) _ _).bind fun _ => Within.readInto (Set.mem_univ _) _ _

theorem within_unpackMembers2 :
    Within .second previousMembers U (unpackMembers2 zlib stack) :=
  CFractions.within_unpack2.bind fun _ => (CPegLevel.within_unpack1 subset_rfl).bind fun _ =>
    (Within.readInto (by simp [previousMembers]) _ _).bind fun _ =>
      Within.readInto (by simp [previousMembers]) _ _

theorem within_unpackMembers1 :
    Within .first previousMembers U (unpackMembers1 zlib stack) :=
  CFractions.within_unpack1.bind fun _ => (CPegLevel.within_unpack1 subset_rfl).bind fun _ =>
    (Within.readInto (by simp [previousMembers]) _ _).bind fun _ =>
      Within.readInto (by simp [previousMembers]) _ _

theorem within_unpack2 : Within .second previousMembers True (unpack2 zlib stack) :=
  within_unpackMembers2.bind fun _ => within_checkPrevious

theorem within_unpack1 : Within .first previousMembers True (unpack1 zlib stack) :=
  within_unpackMembers1.bind fun _ => within_checkPrevious

end CPegData

end Within

/-! ## Checks -/

section Checks

variable {pd : CPegData} {s : Unpacking}

def CPegData.SupplyInBounds (pd : CPegData) : Prop :=
  (if pd.fPartial then -1 else 0) ≤ pd.nSupplyEffective ∧ pd.nSupplyEffective ≤ PEG_SIZE

theorem CFractions.run_lowAt {fr : CFractions} {supply : ℤ} :
    run (fr.lowAt supply) s =
      if supply ≤ PEG_SIZE then (.ok (fr.low supply), s) else (.error .undefined, s) := by
  unfold CFractions.lowAt
  split <;> rfl

theorem CFractions.run_highAt {fr : CFractions} {supply : ℤ} :
    run (fr.highAt supply) s =
      if 0 ≤ supply then (.ok (fr.high supply), s) else (.error .undefined, s) := by
  unfold CFractions.highAt
  split <;> rfl

namespace CPegData

def fitsLevel (pd : CPegData) : Bool :=
  if pd.fPartial then
    pd.fractions.high (pd.nSupplyEffective + 1) ≤ pd.nLiquid ∧
      pd.fractions.low pd.nSupplyEffective ≤ pd.nReserve
  else
    pd.nLiquid = pd.fractions.high pd.nSupplyEffective ∧
      pd.nReserve = pd.fractions.low pd.nSupplyEffective

theorem isValid_eq :
    pd.isValid = (pd.peglevel.isValid && (pd.matchesTotal && pd.fitsLevel)) := by
  unfold isValid matchesTotal fitsLevel nSupplyEffective
  rw [Bool.eq_iff_iff, Bool.and_eq_true, Bool.and_eq_true, decide_eq_true_iff, decide_eq_true_iff]
  cases hpart : pd.fPartial with
  | true => exact and_congr_right fun _ => and_congr_right fun _ => decide_eq_true_iff.symm
  | false => exact and_congr_right fun _ => and_congr_right fun _ => decide_eq_true_iff.symm

/-- Reading the columns fails exactly where they are not there. -/
theorem run_matchesLevel_of_inBounds (h : pd.SupplyInBounds) :
    run pd.matchesLevel s = (.ok pd.fitsLevel, s) := by
  obtain ⟨hlow, hhigh⟩ := h
  cases hpart : pd.fPartial with
  | true =>
    have hfrom : 0 ≤ pd.nSupplyEffective + 1 := by
      simp only [hpart, if_true] at hlow
      omega
    simp [matchesLevel, fitsLevel, hpart, run_bind, -bind_pure_comp, CFractions.run_highAt,
      CFractions.run_lowAt, hfrom, hhigh]
  | false =>
    have hfrom : 0 ≤ pd.nSupplyEffective := by simpa [hpart] using hlow
    simp [matchesLevel, fitsLevel, hpart, run_bind, -bind_pure_comp, CFractions.run_highAt,
      CFractions.run_lowAt, hfrom, hhigh]

theorem run_matchesLevel_of_not_inBounds (h : ¬ pd.SupplyInBounds) :
    run pd.matchesLevel s = (.error .undefined, s) := by
  unfold SupplyInBounds at h
  cases hpart : pd.fPartial with
  | true =>
    simp only [hpart, if_true] at h
    by_cases hfrom : 0 ≤ pd.nSupplyEffective + 1
    · have hto : ¬ pd.nSupplyEffective ≤ PEG_SIZE := fun hto => h ⟨by omega, hto⟩
      simp [matchesLevel, hpart, run_bind, -bind_pure_comp, CFractions.run_highAt,
        CFractions.run_lowAt, hfrom,
        hto]
    · simp [matchesLevel, hpart, run_bind, -bind_pure_comp, CFractions.run_highAt, hfrom]
  | false =>
    simp only [hpart, if_false, Bool.false_eq_true] at h
    by_cases hfrom : 0 ≤ pd.nSupplyEffective
    · have hto : ¬ pd.nSupplyEffective ≤ PEG_SIZE := fun hto => h ⟨hfrom, hto⟩
      simp [matchesLevel, hpart, run_bind, -bind_pure_comp, CFractions.run_highAt,
        CFractions.run_lowAt, hfrom,
        hto]
    · simp [matchesLevel, hpart, run_bind, -bind_pure_comp, CFractions.run_highAt, hfrom]

/-- A valid level is in bounds. -/
theorem supplyInBounds_of_isValid (h : pd.peglevel.isValid = true) : pd.SupplyInBounds := by
  simp only [CPegLevel.isValid, decide_eq_true_eq] at h
  obtain ⟨-, hsupply, -, -, -, -, -, hshift, hsum, -, -⟩ := h
  rw [Int16.le_iff_toInt_le] at hsupply hshift
  have hzero : (0 : Int16).toInt = 0 := rfl
  rw [hzero] at hsupply hshift
  unfold SupplyInBounds nSupplyEffective
  constructor
  · split <;> omega
  · omega

/-- `IsValid` reads columns at a valid level only. -/
theorem run_isValidAt : run pd.isValidAt s = (.ok pd.isValid, s) := by
  rw [isValid_eq, isValidAt]
  cases hlevel : pd.peglevel.isValid with
  | false => rfl
  | true =>
    cases htotal : pd.matchesTotal with
    | false => rfl
    | true => exact run_matchesLevel_of_inBounds (supplyInBounds_of_isValid hlevel)

end CPegData

end Checks

/-! ## Standard form -/

section Std

variable {fr : CFractions} {pd : CPegData}

/-- The columns of a value add up to it, also where they wrap. -/
theorem foldl_stdColumns (n : ℕ) (a v : Int64) :
    (stdColumns (n + 1) v).foldl (· + ·) a = a + v := by
  induction n generalizing a v with
  | zero => rfl
  | succ n ih =>
    rw [stdColumns, List.foldl_cons, ih]
    grind

theorem CFractions.hasFlag_std : hasFlag fr.std.nFlags VALUE = false := by
  cases h : hasFlag fr.nFlags VALUE with
  | false => simp [CFractions.std, h]
  | true =>
    have hbit : VALUE.toNat = 2 ^ 0 := rfl
    simp only [CFractions.std, h, if_true]
    rw [hasFlag_or hbit, hasFlag_iff hbit, UInt32.toNat_and, Nat.testBit_and]
    have hnot : (~~~VALUE).toNat.testBit 0 = false := by decide
    have hstd : hasFlag STD VALUE = false := by decide
    rw [hnot, hstd, Bool.and_false, Bool.or_false]

theorem CFractions.columns_std : fr.std.columns = fr.columns := by
  rw [CFractions.columns, CFractions.hasFlag_std]
  cases h : hasFlag fr.nFlags VALUE with
  | false => simp [CFractions.std, CFractions.columns, h]
  | true => simp [CFractions.std, CFractions.columns, h]

theorem CFractions.total_std : fr.std.total = fr.total := by
  rw [CFractions.total, CFractions.hasFlag_std]
  cases h : hasFlag fr.nFlags VALUE with
  | false => simp [CFractions.std, CFractions.total, h]
  | true =>
    simp only [CFractions.std, CFractions.total, h, if_true, if_false, Bool.false_eq_true]
    exact (foldl_stdColumns 1199 0 _).trans (Int64.zero_add _)

theorem CFractions.low_std (supply : ℤ) : fr.std.low supply = fr.low supply := by
  rw [CFractions.low, CFractions.columns_std, CFractions.low]

theorem CFractions.high_std (supply : ℤ) : fr.std.high supply = fr.high supply := by
  rw [CFractions.high, CFractions.columns_std, CFractions.high]

/-- The standard form of the fractions changes nothing of what is checked. -/
theorem CPegData.isValid_std : (pd.withFractions CFractions.std).isValid = pd.isValid := by
  have htotal : (pd.withFractions CFractions.std).matchesTotal = pd.matchesTotal := by
    simp only [CPegData.matchesTotal, CPegData.withFractions, CFractions.total_std]
  have hfits : (pd.withFractions CFractions.std).fitsLevel = pd.fitsLevel := by
    unfold CPegData.fitsLevel CPegData.withFractions
    dsimp only
    rw [CFractions.low_std, CFractions.high_std, CFractions.high_std]
    rfl
  rw [CPegData.isValid_eq, CPegData.isValid_eq, htotal, hfits]
  rfl

end Std

/-! ## Attempts -/

namespace CPegData

section Attempts

variable {zlib : Zlib} {stack : Version → List UInt8} {v : Version} {F : Set Member}
variable {members : Unpacker Unit} {s t : Unpacking}

theorem run_checkPrevious_of_total (h : s.obj.matchesTotal = false) :
    run checkPrevious s = (.error .refused, s) := by
  rw [checkPrevious, run_bind_ok run_get, if_neg (by rw [h]; exact Bool.false_ne_true), run_refuse]

theorem run_checkPrevious_of_not_inBounds (htotal : s.obj.matchesTotal = true)
    (h : ¬ s.obj.SupplyInBounds) : run checkPrevious s = (.error .undefined, s) := by
  rw [checkPrevious, run_bind_ok run_get, if_pos htotal,
    run_bind_error (run_matchesLevel_of_not_inBounds h)]

theorem run_checkPrevious_of_inBounds (htotal : s.obj.matchesTotal = true)
    (h : s.obj.SupplyInBounds) :
    run checkPrevious s =
      if s.obj.fitsLevel then (.ok (), { s with obj := s.obj.withFractions CFractions.std })
      else (.error .refused, s) := by
  rw [checkPrevious, run_bind_ok run_get, if_pos htotal,
    run_bind_ok (run_matchesLevel_of_inBounds h)]
  split <;> rfl

/-- What a previous format accepts with a valid level is valid. -/
theorem previous_valid (h : run (members >>= fun _ => checkPrevious) s = (.ok (), t))
    (hlevel : t.obj.peglevel.isValid = true) : t.obj.isValid = true := by
  obtain ⟨-, u, -, hcheck⟩ := run_bind_eq_ok h
  cases htotal : u.obj.matchesTotal with
  | false =>
    rw [run_checkPrevious_of_total htotal] at hcheck
    cases hcheck
  | true =>
    by_cases hbounds : u.obj.SupplyInBounds
    · rw [run_checkPrevious_of_inBounds htotal hbounds] at hcheck
      split at hcheck
      · rename_i hfits
        cases hcheck
        have hsame : u.obj.peglevel.isValid = true := hlevel
        rw [isValid_std, isValid_eq, hsame, htotal, hfits]
        rfl
      · cases hcheck
    · rw [run_checkPrevious_of_not_inBounds htotal hbounds] at hcheck
      cases hcheck

theorem run_checkCurrent :
    run checkCurrent s =
      if s.obj.isValid then (.ok (), { s with obj := s.obj.withFractions CFractions.std })
      else (.error .refused, s) := by
  rw [checkCurrent, run_bind_ok run_get, run_bind_ok run_isValidAt]
  split <;> rfl

theorem within_checkCurrent : Within v F False checkCurrent where
  origin s m := by
    rw [run_checkCurrent]
    split <;> exact .inl rfl
  defined s herror := by
    rw [run_checkCurrent] at herror
    split at herror <;> cases herror

/-- The current format reads within the columns. -/
theorem within_unpackInto : Within .current Set.univ False (unpackInto zlib stack) :=
  within_unpackMembers.bind fun _ => within_checkCurrent

/-- What the current format accepts is valid. -/
theorem current_valid (h : run (unpackInto zlib stack) s = (.ok (), t)) : t.obj.isValid = true := by
  obtain ⟨-, u, -, hcheck⟩ := run_bind_eq_ok h
  rw [run_checkCurrent] at hcheck
  split at hcheck
  · rename_i hvalid
    cases hcheck
    exact isValid_std.trans hvalid
  · cases hcheck

/-- What a previous format reads first needs eight bytes. -/
theorem length_of_lockTime {f : UInt32 → Unpacker Unit}
    (h : run (take uint32.read >>= fun n => CFractions.unpackLockTime v >>= fun _ => f n) s =
      (.ok (), t)) : 8 ≤ s.rest.length := by
  obtain ⟨n, u, htake, h⟩ := run_bind_eq_ok h
  obtain ⟨_, w, hlock, -⟩ := run_bind_eq_ok h
  obtain ⟨rest, hflags, rfl⟩ := run_take_eq_ok htake
  obtain ⟨m, x, htime, -⟩ := run_bind_eq_ok hlock
  obtain ⟨rest', htime, -⟩ := run_take_eq_ok htime
  have hrest : rest.length ≤ s.rest.length := by
    change ((readLE 4).run s.rest).bind _ = _ at hflags
    rw [run_readLE] at hflags
    split at hflags
    · cases hflags
      rw [List.length_drop]
      exact Nat.sub_le _ _
    · cases hflags
  rw [run_uint64] at htime
  split at htime
  · rename_i hlength
    exact le_trans hlength hrest
  · cases htime

theorem length_of_unpack2 (h : run (unpack2 zlib stack) s = (.ok (), t)) : 8 ≤ s.rest.length := by
  obtain ⟨_, u, hmembers, -⟩ := run_bind_eq_ok h
  obtain ⟨_, w, hfractions, -⟩ := run_bind_eq_ok hmembers
  exact length_of_lockTime hfractions

theorem length_of_unpack1 (h : run (unpack1 zlib stack) s = (.ok (), t)) : 8 ≤ s.rest.length := by
  obtain ⟨_, u, hmembers, -⟩ := run_bind_eq_ok h
  obtain ⟨_, w, hfractions, -⟩ := run_bind_eq_ok hmembers
  exact length_of_lockTime hfractions

/-- The current format assigns the version whenever it can be read. -/
theorem origin_nVersion_current {pegdata : List UInt8} (h : 8 ≤ pegdata.length) :
    (unpackAlone zlib stack .current pegdata).2.origin .nVersion = some .current := by
  have hread : int64.read.run pegdata =
      some ((UInt64.ofNat (leNat (pegdata.take 8))).toInt64, pegdata.drop 8) := by
    rw [run_int64, if_pos h]
  rw [unpackAlone, unpackAs, unpackInto, unpackMembers, bind_assoc, run_bind_ok (run_readInto hread)]
  simp only [bind_assoc]
  refine Within.origin_kept (F := Set.univ) (U := False) ?_ (by simp)
  exact CFractions.within_unpackInto.bind fun _ => CPegLevel.within_unpackInto.bind fun _ =>
    (Within.readInto (Set.mem_univ _) _ _).bind fun _ =>
      (Within.readInto (Set.mem_univ _) _ _).bind fun _ =>
        (Within.readInto (Set.mem_univ _) _ _).bind fun _ => within_checkCurrent

end Attempts

end CPegData

end BitBay.Codec
