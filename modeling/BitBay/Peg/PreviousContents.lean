import BitBay.Peg.LevelText
import BitBay.Peg.UnpackContents

/-!
# What the previous formats read

The previous formats are tried on an object that has been written to. What they check of it they
have read from the bytes themselves, but for the columns where the flags of the bytes name no
form: those are the columns that the current format has read before it refused the bytes.

So the bytes alone say how an attempt of a previous format ends.
-/
namespace BitBay.Codec

open Wire Decode
open Codec.CPegData (withFractions withPeglevel)

def firstFlags (pegdata : List UInt8) : UInt32 := UInt32.ofNat (leNat (pegdata.take 4))

def namesForm (nSerFlags : UInt32) : Bool :=
  hasFlag nSerFlags SER_VALUE || hasFlag nSerFlags SER_ZDELTA || hasFlag nSerFlags SER_RAW

/-- The supply with the shift is a place of the columns or their end, or the place before them
where the level has a part of a shift. -/
def CPegLevel.InColumns (l : CPegLevel) : Prop :=
  (if 0 < l.nShiftLastPart ∧ 0 < l.nShiftLastTotal then -1 else 0) ≤
      l.nSupply.toInt + l.nShift.toInt ∧
    l.nSupply.toInt + l.nShift.toInt ≤ 1200

namespace CPegData

section Read

variable (zlib : Zlib) (stack : Version → List UInt8) (v : Version)

def readReturnAddr (fr : CFractions) : Reader (List UInt8) :=
  if v = .second then readString MAX_SIZE else return fr.sReturnAddr

def readPrevious (fr : CFractions) : Reader CPegData := do
  let nSerFlags ← uint32.read
  let nLockTime ← uint64.read
  let fr ← CFractions.readForm zlib (stack v) nSerFlags { fr with nLockTime }
  let sReturnAddr ← readReturnAddr v fr
  let peglevel ← CPegLevel.readPreviousOnto {}
  let nReserve ← int64.read
  let nLiquid ← int64.read
  return { fractions := { fr with nFlags := fr.nFlags &&& SER_MASK, sReturnAddr }
           peglevel, nReserve, nLiquid }

/-- New fractions, or those that the current format alone makes of the bytes if their flags name
no form. -/
def startFractions (pegdata : List UInt8) : CFractions :=
  if namesForm (firstFlags pegdata) then {}
  else (unpackAlone zlib stack .current pegdata).2.obj.fractions

/-- The peg data that a previous format reads of the bytes, before it checks them. -/
def previousData (pegdata : List UInt8) : Option CPegData :=
  ((readPrevious zlib stack v (startFractions zlib stack pegdata)).run pegdata).map Prod.fst

end Read

def checked (pd : CPegData) : List Int64 × CPegLevel × Int64 × Int64 :=
  (pd.fractions.columns, { pd.peglevel with nVersion := 0 }, pd.nReserve, pd.nLiquid)

end CPegData

section Follows

variable {zlib : Zlib} {stack : Version → List UInt8} {v : Version}

/-- Of the level that is read over, only the version stays. -/
theorem CPegLevel.readPreviousOnto_eq (l : CPegLevel) : l.readPreviousOnto =
    CPegLevel.readPreviousOnto {} >>= fun read => pure { read with nVersion := l.nVersion } := by
  simp [CPegLevel.readPreviousOnto, CPegLevel.readSupplies]

theorem CPegLevel.follows_unpackPrevious : Follows (CPegLevel.unpack1 v) fun pd =>
    CPegLevel.readPreviousOnto {} >>= fun l =>
      pure (pd.withPeglevel fun level => { l with nVersion := level.nVersion }) := by
  refine CPegLevel.follows_unpack1.congr fun pd => ?_
  rw [CPegLevel.readPreviousOnto_eq]
  simp [CPegData.withPeglevel]

namespace CPegData

def put (pd read : CPegData) : CPegData :=
  { pd with
    fractions := read.fractions
    peglevel := { read.peglevel with nVersion := pd.peglevel.nVersion }
    nReserve := read.nReserve
    nLiquid := read.nLiquid }

theorem follows_unpackMembers2 : Follows (unpackMembers2 zlib stack) fun pd =>
    readPrevious zlib stack .second pd.fractions >>= fun read => pure (pd.put read) := by
  refine ((Follows.take fun nSerFlags => (Follows.readInto _ _ _ _).bind
    ((CFractions.follows_unpackForm.bind (Follows.adjust _)).bind
      CFractions.follows_unpackReturnAddr)).bind
    (CPegLevel.follows_unpackPrevious.bind ((Follows.readInto _ _ _ _).bind
      (Follows.readInto _ _ _ _)))).congr fun pd => ?_
  simp [readPrevious, readReturnAddr, put, withFractions, withPeglevel]

theorem follows_unpackMembers1 : Follows (unpackMembers1 zlib stack) fun pd =>
    readPrevious zlib stack .first pd.fractions >>= fun read => pure (pd.put read) := by
  refine ((Follows.take fun nSerFlags => (Follows.readInto _ _ _ _).bind
    (CFractions.follows_unpackForm.bind (Follows.adjust _))).bind
    (CPegLevel.follows_unpackPrevious.bind ((Follows.readInto _ _ _ _).bind
      (Follows.readInto _ _ _ _)))).congr fun pd => ?_
  simp [readPrevious, readReturnAddr, put, withFractions, withPeglevel]

end CPegData

end Follows

/-! ## Columns -/

section Columns

variable {zlib : Zlib} {stack : Version → List UInt8} {v : Version} {nSerFlags : UInt32}
variable {fr fr' r : CFractions} {deltas bytes rest : List UInt8}

theorem CFractions.columns_congr (hflags : fr.nFlags = fr'.nFlags) (hf : fr.f = fr'.f) :
    fr.columns = fr'.columns := by
  rw [CFractions.columns, CFractions.columns, hflags, hf]

theorem CFractions.columns_mask (fr : CFractions) (nLockTime : UInt64) (sReturnAddr : List UInt8) :
    { fr with nFlags := fr.nFlags &&& SER_MASK, nLockTime, sReturnAddr }.columns = fr.columns := by
  rw [CFractions.columns, CFractions.columns]
  have hbit : VALUE.toNat = 2 ^ 0 := rfl
  simp only [CFractions.hasFlag_mask hbit (by decide)]

/-- A form has its columns from the bytes, and without a form they stay what they are. -/
theorem CFractions.readForm_columns (hform : namesForm nSerFlags = false → fr.columns = fr'.columns)
    (h : (readForm zlib deltas nSerFlags fr).run bytes = some (r, rest)) :
    ∃ r', (readForm zlib deltas nSerFlags fr').run bytes = some (r', rest) ∧
      r.columns = r'.columns := by
  unfold readForm at h ⊢
  unfold namesForm at hform
  split_ifs at h ⊢ with hvalue hzdelta hraw
  · obtain ⟨value, mid, hread, hpure⟩ := run_bind_eq_some.mp h
    obtain ⟨rfl, rfl⟩ := run_pure_eq_some.mp hpure
    refine ⟨_, run_bind_eq_some.mpr ⟨value, mid, hread, rfl⟩, ?_⟩
    have hflag : hasFlag (nSerFlags ||| VALUE) VALUE = true := by
      rw [hasFlag_or (k := 0) rfl, show hasFlag VALUE VALUE = true from rfl, Bool.or_true]
    simp [CFractions.columns, hflag]
  · obtain ⟨dst, mid, hread, hpure⟩ := run_bind_eq_some.mp h
    obtain ⟨rfl, rfl⟩ := run_pure_eq_some.mp hpure
    exact ⟨_, run_bind_eq_some.mpr ⟨dst, mid, hread, rfl⟩, rfl⟩
  · obtain ⟨l, mid, hread, hpure⟩ := run_bind_eq_some.mp h
    obtain ⟨rfl, rfl⟩ := run_pure_eq_some.mp hpure
    exact ⟨_, run_bind_eq_some.mpr ⟨l, mid, hread, rfl⟩, rfl⟩
  · obtain ⟨rfl, rfl⟩ := run_pure_eq_some.mp h
    refine ⟨fr', rfl, hform ?_⟩
    simp only [Bool.not_eq_true] at hvalue hzdelta hraw
    rw [hvalue, hzdelta, hraw]
    rfl

theorem firstFlags_of_read {nSerFlags : UInt32}
    (h : uint32.read.run bytes = some (nSerFlags, rest)) : firstFlags bytes = nSerFlags := by
  obtain ⟨n, mid, hread, hpure⟩ := run_bind_eq_some.mp h
  obtain ⟨rfl, rfl⟩ := run_pure_eq_some.mp hpure
  rw [run_readLE] at hread
  split at hread
  · cases hread
    rfl
  · cases hread

/-- What is checked of a previous format depends on the columns of the object alone, and on them
only if the flags name no form. -/
theorem CPegData.readPrevious_checked
    (hform : namesForm (firstFlags bytes) = false → fr.columns = fr'.columns) {pd : CPegData}
    (h : (readPrevious zlib stack v fr).run bytes = some (pd, rest)) :
    ∃ pd', (readPrevious zlib stack v fr').run bytes = some (pd', rest) ∧
      pd.checked = pd'.checked := by
  obtain ⟨nSerFlags, r1, hflags, h⟩ := run_bind_eq_some.mp h
  obtain ⟨nLockTime, r2, htime, h⟩ := run_bind_eq_some.mp h
  obtain ⟨r, r3, hread, h⟩ := run_bind_eq_some.mp h
  obtain ⟨sReturnAddr, r4, haddr, h⟩ := run_bind_eq_some.mp h
  obtain ⟨peglevel, r5, hlevel, h⟩ := run_bind_eq_some.mp h
  obtain ⟨nReserve, r6, hreserve, h⟩ := run_bind_eq_some.mp h
  obtain ⟨nLiquid, r7, hliquid, h⟩ := run_bind_eq_some.mp h
  obtain ⟨rfl, rfl⟩ := run_pure_eq_some.mp h
  rw [firstFlags_of_read hflags] at hform
  have htimed : namesForm nSerFlags = false →
      { fr with nLockTime }.columns = { fr' with nLockTime }.columns := hform
  obtain ⟨r', hread', hcolumns⟩ := CFractions.readForm_columns htimed hread
  have haddr' : ∃ addr, (readReturnAddr v r').run r3 = some (addr, r4) := by
    unfold readReturnAddr at haddr ⊢
    split_ifs at haddr ⊢
    · exact ⟨sReturnAddr, haddr⟩
    · obtain ⟨-, rfl⟩ := run_pure_eq_some.mp haddr
      exact ⟨_, rfl⟩
  obtain ⟨addr, haddr'⟩ := haddr'
  refine ⟨_, run_bind_eq_some.mpr ⟨_, _, hflags, run_bind_eq_some.mpr ⟨_, _, htime,
    run_bind_eq_some.mpr ⟨_, _, hread', run_bind_eq_some.mpr ⟨_, _, haddr',
      run_bind_eq_some.mpr ⟨_, _, hlevel, run_bind_eq_some.mpr ⟨_, _, hreserve,
        run_bind_eq_some.mpr ⟨_, _, hliquid, rfl⟩⟩⟩⟩⟩⟩⟩, ?_⟩
  have hsame : { r with nFlags := r.nFlags &&& SER_MASK, sReturnAddr }.columns =
      { r' with nFlags := r'.nFlags &&& SER_MASK, sReturnAddr := addr }.columns := by
    rw [CFractions.columns_mask r r.nLockTime, CFractions.columns_mask r' r'.nLockTime, hcolumns]
  simp only [checked, hsame]

end Columns

/-! ## Checks -/

namespace CPegData

section Checked

variable {pd pd' : CPegData}

theorem total_eq (fr : CFractions) : fr.total = fr.columns.foldl (· + ·) 0 := by
  rw [CFractions.total, CFractions.columns]
  split
  · exact ((foldl_stdColumns 1199 0 _).trans (Int64.zero_add _)).symm
  · rfl

theorem matchesTotal_congr (h : pd.checked = pd'.checked) :
    pd.matchesTotal = pd'.matchesTotal := by
  simp only [checked, Prod.mk.injEq] at h
  obtain ⟨hcolumns, -, hreserve, hliquid⟩ := h
  rw [matchesTotal, matchesTotal, total_eq, total_eq, hcolumns, hreserve, hliquid]

/-- Levels that differ in their version. -/
theorem level_congr (h : pd.checked = pd'.checked) :
    pd.peglevel = { pd'.peglevel with nVersion := pd.peglevel.nVersion } := by
  simp only [checked, Prod.mk.injEq] at h
  obtain ⟨-, hlevel, -⟩ := h
  exact congrArg (fun l : CPegLevel => { l with nVersion := pd.peglevel.nVersion }) hlevel

theorem levelIsValid_congr (h : pd.checked = pd'.checked) :
    pd.peglevel.isValid = pd'.peglevel.isValid := by
  rw [level_congr h]
  rfl

theorem fitsLevel_congr (h : pd.checked = pd'.checked) : pd.fitsLevel = pd'.fitsLevel := by
  have hlevel := level_congr h
  simp only [checked, Prod.mk.injEq] at h
  obtain ⟨hcolumns, -, hreserve, hliquid⟩ := h
  unfold fitsLevel fPartial nSupplyEffective CFractions.low CFractions.high
  rw [hlevel, hcolumns, hreserve, hliquid]

theorem supplyInBounds_iff : pd.SupplyInBounds ↔ pd.peglevel.InColumns := by
  have hsize : PEG_SIZE = 1200 := rfl
  simp [SupplyInBounds, CPegLevel.InColumns, fPartial, nSupplyEffective, hsize]

theorem supplyInBounds_congr (h : pd.checked = pd'.checked) :
    pd.SupplyInBounds ↔ pd'.peglevel.InColumns := by
  rw [supplyInBounds_iff, level_congr h]
  rfl

end Checked

section Attempts

variable (zlib : Zlib) (stack : Version → List UInt8) (v : Version)

/-- A previous format reads its members from the bytes, and they add up to the columns. -/
def Reads (pegdata : List UInt8) (pd : CPegData) : Prop :=
  previousData zlib stack v pegdata = some pd ∧ pd.matchesTotal = true

variable {zlib stack v} {members : Unpacker Unit} {s : Unpacking} {F : Set Member}
variable {α : Type} {pegdata : List UInt8}

theorem Reads.unique {pd pd' : CPegData} (h : Reads zlib stack v pegdata pd)
    (h' : Reads zlib stack v pegdata pd') : pd = pd' :=
  Option.some.inj (h.1.symm.trans h'.1)

def Sees (zlib : Zlib) (stack : Version → List UInt8) (v : Version) (members : Unpacker Unit)
    (s : Unpacking) (pegdata : List UInt8) : Prop :=
  (accepted (run members s)).map (fun r => r.1.checked) =
    (previousData zlib stack v pegdata).map checked

/-- An attempt of a previous format refuses the bytes, indexes outside the columns or accepts
them. -/
theorem attempt_by_reads (hmembers : Within v F False members)
    (hsees : Sees zlib stack v members s pegdata) :
    (run (members >>= fun _ => checkPrevious) s).1 = .error .refused ∧
        (∀ pd, Reads zlib stack v pegdata pd →
          pd.peglevel.InColumns ∧ pd.fitsLevel = false) ∨
      ∃ pd, Reads zlib stack v pegdata pd ∧
        (¬ pd.peglevel.InColumns ∧
            (run (members >>= fun _ => checkPrevious) s).1 = .error .undefined ∨
          pd.peglevel.InColumns ∧ pd.fitsLevel = true ∧
            ∃ t, run (members >>= fun _ => checkPrevious) s = (.ok (), t) ∧
              t.obj.peglevel.isValid = pd.peglevel.isValid) := by
  unfold Sees at hsees
  cases hrun : run members s with
  | mk x u =>
    rw [hrun] at hsees
    cases x with
    | error e =>
      left
      rw [run_bind_error hrun]
      have hnone : previousData zlib stack v pegdata = none := by
        simpa [accepted] using hsees.symm
      cases e with
      | undefined => exact (hmembers.defined s (by rw [hrun])).elim
      | refused =>
        refine ⟨rfl, fun pd hreads => ?_⟩
        rw [Reads, hnone] at hreads
        cases hreads.1
    | ok a =>
      rw [run_bind_ok hrun]
      obtain ⟨pd, hpd, hchecked⟩ : ∃ pd, previousData zlib stack v pegdata = some pd ∧
          pd.checked = u.obj.checked := by
        simpa [accepted, eq_comm] using hsees
      have hsame := hchecked.symm
      have hbounds := supplyInBounds_congr hsame
      cases htotal : pd.matchesTotal with
      | false =>
        left
        rw [run_checkPrevious_of_total ((matchesTotal_congr hsame).trans htotal)]
        refine ⟨rfl, fun pd' hreads => ?_⟩
        obtain ⟨hpd', htotal'⟩ := hreads
        rw [hpd] at hpd'
        cases hpd'
        rw [htotal] at htotal'
        cases htotal'
      | true =>
        have hmatches := (matchesTotal_congr hsame).trans htotal
        by_cases hcolumns : pd.peglevel.InColumns
        · rw [run_checkPrevious_of_inBounds hmatches (hbounds.mpr hcolumns), fitsLevel_congr hsame]
          cases hfits : pd.fitsLevel with
          | false =>
            left
            refine ⟨rfl, fun pd' hreads => ?_⟩
            have hpd' := hreads.1
            rw [hpd] at hpd'
            cases hpd'
            exact ⟨hcolumns, hfits⟩
          | true =>
            right
            have hlevel : u.obj.peglevel.isValid = pd.peglevel.isValid := levelIsValid_congr hsame
            exact ⟨pd, ⟨hpd, htotal⟩, .inr ⟨hcolumns, hfits, _, rfl, hlevel⟩⟩
        · right
          refine ⟨pd, ⟨hpd, htotal⟩, .inl ⟨hcolumns, ?_⟩⟩
          rw [run_checkPrevious_of_not_inBounds hmatches fun h => hcolumns (hbounds.mp h)]

theorem sees_of_follows (hfollows : Follows members fun pd =>
      readPrevious zlib stack v pd.fractions >>= fun read => pure (pd.put read))
    (hcolumns : namesForm (firstFlags s.rest) = false →
      s.obj.fractions.columns = (startFractions zlib stack s.rest).columns) :
    Sees zlib stack v members s s.rest := by
  have hrun : accepted (run members s) =
      (readPrevious zlib stack v s.obj.fractions >>= fun read => pure (s.obj.put read)).run s.rest :=
    hfollows s.obj s.origin s.rest
  rw [Sees, hrun, StateT.run_bind, previousData]
  cases hread : (readPrevious zlib stack v s.obj.fractions).run s.rest with
  | some p =>
    obtain ⟨pd, hpd, hchecked⟩ := readPrevious_checked hcolumns hread
    rw [hpd]
    exact congrArg some hchecked
  | none =>
    cases hstart : (readPrevious zlib stack v (startFractions zlib stack s.rest)).run s.rest with
    | none => rfl
    | some p =>
      obtain ⟨pd, hpd, -⟩ := readPrevious_checked (fun h => (hcolumns h).symm) hstart
      rw [hread] at hpd
      cases hpd

/-! The second attempt leaves the columns as they are if the flags name no form. -/

def columnsView (pd : CPegData) : List Int64 := pd.fractions.columns

theorem keeps_unpackForm {nSerFlags : UInt32} (h : namesForm nSerFlags = false) :
    Keeps columnsView (CFractions.unpackForm zlib stack v nSerFlags) := by
  simp only [namesForm, Bool.or_eq_false_iff] at h
  obtain ⟨⟨hvalue, hzdelta⟩, hraw⟩ := h
  simp only [CFractions.unpackForm, hvalue, hzdelta, hraw, Bool.false_eq_true, if_false]
  exact Keeps.pure ()

theorem keeps_unpackColumns {nSerFlags : UInt32} (h : namesForm nSerFlags = false) :
    Keeps columnsView (CFractions.unpackColumns zlib stack v nSerFlags) :=
  (keeps_unpackForm h).bind fun _ => Keeps.adjust fun pd =>
    CFractions.columns_mask pd.fractions pd.fractions.nLockTime pd.fractions.sReturnAddr

theorem columnsView_returnAddr (g : CFractions → List UInt8) (pd : CPegData) :
    columnsView (pd.withFractions fun fr => { fr with sReturnAddr := g fr }) = columnsView pd :=
  CFractions.columns_congr rfl rfl

theorem keeps_unpackReturnAddr : Keeps columnsView (CFractions.unpackReturnAddr v) :=
  (Keeps.take _).bind fun _ => (Keeps.assign (columnsView_returnAddr _)).bind fun _ =>
    Keeps.readInto fun bytes => columnsView_returnAddr fun _ => bytes

theorem columnsView_peglevel (g : CPegLevel → CPegLevel) (pd : CPegData) :
    columnsView (pd.withPeglevel g) = columnsView pd := rfl

theorem keeps_readLevel {m : Member} {r : Reader α} {g : α → CPegLevel → CPegLevel} :
    Keeps columnsView (readInto v m r fun a => withPeglevel (g a)) :=
  Keeps.readInto fun a => columnsView_peglevel (g a)

theorem keeps_unpackLevel : Keeps columnsView (CPegLevel.unpack1 v) :=
  (keeps_readLevel.bind fun _ => keeps_readLevel).bind fun _ =>
    (keeps_readLevel.bind fun _ => keeps_readLevel.bind fun _ => keeps_readLevel.bind fun _ =>
      keeps_readLevel.bind fun _ => keeps_readLevel.bind fun _ => keeps_readLevel).bind
        fun _ => Keeps.assign (columnsView_peglevel _)

theorem keeps_matchesLevel (pd : CPegData) : Keeps columnsView pd.matchesLevel :=
  Keeps.ite
    ((Keeps.ite (Keeps.pure _) Keeps.undefined).bind fun _ =>
      (Keeps.ite (Keeps.pure _) Keeps.undefined).bind fun _ => Keeps.pure _)
    ((Keeps.ite (Keeps.pure _) Keeps.undefined).bind fun _ =>
      (Keeps.ite (Keeps.pure _) Keeps.undefined).bind fun _ => Keeps.pure _)

theorem keeps_checkPrevious : Keeps columnsView checkPrevious :=
  Keeps.get.bind fun _ => Keeps.ite
    ((keeps_matchesLevel _).bind fun _ => Keeps.ite
      (Keeps.adjust fun _ => CFractions.columns_std) Keeps.refuse)
    Keeps.refuse

theorem columns_secondAttempt (h : namesForm (firstFlags pegdata) = false) :
    (secondAttempt zlib stack pegdata).2.obj.fractions.columns =
      (unpackAlone zlib stack .current pegdata).2.obj.fractions.columns := by
  rw [secondAttempt, unpack2, unpackMembers2, CFractions.unpack2, bind_assoc, bind_assoc]
  obtain ⟨nSerFlags, rest, hflags, hrun⟩ | hrun := run_take_cases uint32.read
    { (unpackAlone zlib stack .current pegdata).2 with rest := pegdata }
  · rw [firstFlags_of_read hflags] at h
    rw [run_bind_ok hrun]
    refine Keeps.bind (g := columnsView) ?_ (fun _ => ?_) _
    · exact Keeps.bind (Keeps.readInto fun _ _ => rfl) fun _ =>
        (keeps_unpackColumns h).bind fun _ => keeps_unpackReturnAddr
    · exact Keeps.bind (keeps_unpackLevel.bind fun _ =>
        Keeps.bind (Keeps.readInto fun _ _ => rfl) fun _ => Keeps.readInto fun _ _ => rfl)
          fun _ => keeps_checkPrevious
  · rw [run_bind_error hrun]

/-! The attempts read what the bytes alone say. -/

theorem sees_secondAttempt : Sees zlib stack .second (unpackMembers2 zlib stack)
    { (unpackAlone zlib stack .current pegdata).2 with rest := pegdata } pegdata := by
  refine sees_of_follows follows_unpackMembers2 fun hform => ?_
  rw [startFractions, hform]
  rfl

theorem sees_thirdAttempt : Sees zlib stack .first (unpackMembers1 zlib stack)
    { (secondAttempt zlib stack pegdata).2 with rest := pegdata } pegdata := by
  refine sees_of_follows follows_unpackMembers1 fun hform => ?_
  rw [startFractions, hform]
  exact columns_secondAttempt hform

end Attempts

end CPegData

end BitBay.Codec
