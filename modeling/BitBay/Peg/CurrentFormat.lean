import BitBay.Peg.PreviousFormats

/-!
# Texts of the current format

What the reader of the current format takes from the bytes, the constructor takes as well: the
reader is the decoder on a new object. So a text of valid peg data gives them back, whatever the
previous formats would make of it.
-/
namespace BitBay.Codec

open Wire Decode
open CPegData (withFractions withPeglevel)

/-! ## Columns -/

theorem numberAt_drop (bytes : List UInt8) (i : ℕ) :
    numberAt (bytes.drop 8) i = numberAt bytes (i + 1) := by
  rw [numberAt, numberAt, List.drop_drop, Nat.mul_succ, Nat.add_comm]

/-- Numbers one after the other are the numbers at the places of the bytes. -/
theorem run_readAll_int64 {n : ℕ} {bytes rest : List UInt8} {l : List Int64}
    (h : (readAll int64 n).run bytes = some (l, rest)) :
    l = List.ofFn (fun i : Fin n => numberAt bytes i) ∧ n * 8 ≤ bytes.length ∧
      rest = bytes.drop (n * 8) := by
  induction n generalizing bytes l with
  | zero =>
    cases h
    simp
  | succ n ih =>
    obtain ⟨a, mid, hfirst, h⟩ := run_bind_eq_some.mp h
    obtain ⟨l', rest', hrest, h⟩ := run_bind_eq_some.mp h
    cases h
    rw [run_int64] at hfirst
    split at hfirst
    · cases hfirst
      obtain ⟨hl, hlength, htail⟩ := ih hrest
      rw [List.length_drop] at hlength
      refine ⟨?_, by omega, ?_⟩
      · rw [hl, List.ofFn_succ]
        refine congrArg₂ List.cons rfl (congrArg List.ofFn (funext fun i => ?_))
        rw [numberAt_drop]
        rfl
      · rw [htail, List.drop_drop]
        congr 1
        ring
    · cases hfirst

/-- Bytes behind the columns do not count. -/
theorem columnsOf_append {bytes : List UInt8} (h : PEG_SIZE * 8 ≤ bytes.length)
    (more : List UInt8) : columnsOf (bytes ++ more) = columnsOf bytes := by
  unfold columnsOf
  congr 1
  funext i
  have hi := i.isLt
  have hplace : 8 * i.val + 8 ≤ bytes.length := by omega
  rw [numberAt, numberAt, List.drop_append_of_le_length (by omega),
    List.take_append_of_le_length (by rw [List.length_drop]; omega)]

theorem asColumns_eq_some {l : List Int64} {f : Vector Int64 PEG_SIZE} (h : asColumns l = some f) :
    f.toList = l := by
  unfold asColumns at h
  split at h
  · cases h
    rfl
  · cases h

theorem toList_columnsOf (bytes : List UInt8) :
    (columnsOf bytes).toList = List.ofFn fun i : Fin PEG_SIZE => numberAt bytes i := by
  rw [columnsOf, Vector.toList_ofFn]

theorem columnsOfDeltas_eq {dst more rest : List UInt8} {l : List Int64} {f : Vector Int64 PEG_SIZE}
    (hread : (readAll int64 PEG_SIZE).run dst = some (l, rest))
    (hf : asColumns (fromDeltas l) = some f) : columnsOfDeltas (columnsOf (dst ++ more)) = f := by
  obtain ⟨hl, hlength, -⟩ := run_readAll_int64 hread
  have hcolumns : (columnsOf dst).toList = l := (toList_columnsOf dst).trans hl.symm
  rw [columnsOf_append hlength, ← Vector.toList_inj, asColumns_eq_some hf]
  simp [columnsOfDeltas, hcolumns]

theorem columnsOf_eq {bytes rest : List UInt8} {l : List Int64} {f : Vector Int64 PEG_SIZE}
    (hread : (readAll int64 PEG_SIZE).run bytes = some (l, rest)) (hf : asColumns l = some f) :
    columnsOf (bytes.take (PEG_SIZE * 8)) = f := by
  obtain ⟨hl, hlength, -⟩ := run_readAll_int64 hread
  have htake : PEG_SIZE * 8 ≤ (bytes.take (PEG_SIZE * 8)).length := by
    rw [List.length_take]
    omega
  have hfront := columnsOf_append htake (bytes.drop (PEG_SIZE * 8))
  rw [List.take_append_drop] at hfront
  rw [← hfront, ← Vector.toList_inj, asColumns_eq_some hf, toList_columnsOf, hl]

/-! ## Decoders that follow a reader -/

section Reader

variable {zlib : Zlib} {stack : Version → List UInt8} {v : Version} {pd : CPegData}
variable {bytes rest : List UInt8}

theorem reaches_unpackReturnAddr {addr : List UInt8}
    (h : (readString MAX_SIZE).run bytes = some (addr, rest)) :
    Reaches (CFractions.unpackReturnAddr v) pd bytes
      (pd.withFractions fun fr => { fr with sReturnAddr := addr }) rest := by
  obtain ⟨nSize, mid, hsize, hbytes⟩ := run_bind_eq_some.mp h
  exact Reaches.take hsize ((Reaches.assign v _ _).bind (Reaches.readInto hbytes v _ _))

theorem reaches_unpackValue {nFlags : UInt32} {value : Int64}
    (hf : pd.fractions.f = Vector.replicate PEG_SIZE 0) (h : int64.read.run bytes = some (value, rest)) :
    Reaches (CFractions.assignFlags v nFlags >>= fun _ =>
        readInto v .f int64.read fun value =>
          withFractions fun fr => { fr with f := fr.f.set 0 value }) pd bytes
      (pd.withFractions fun fr => { fr with nFlags, f := (Vector.replicate PEG_SIZE 0).set 0 value })
      rest := by
  rw [← hf]
  exact Reaches.bind (Reaches.assign v _ _) (Reaches.readInto h v _ _)

theorem reaches_assignColumns (nFlags : UInt32) (f : Vector Int64 PEG_SIZE) :
    Reaches (CFractions.assignColumns v f >>= fun _ => CFractions.assignFlags v nFlags) pd bytes
      (pd.withFractions fun fr => { fr with nFlags, f }) bytes :=
  Reaches.bind (Reaches.assign v _ _) (Reaches.assign v _ _)

/-- The columns of an object that has the flags and the columns of a new one. -/
theorem reaches_unpackForm {nSerFlags : UInt32} {r : UInt32 × Vector Int64 PEG_SIZE}
    (hflags : pd.fractions.nFlags = VALUE) (hf : pd.fractions.f = Vector.replicate PEG_SIZE 0)
    (h : (CFractions.readColumns zlib nSerFlags).run bytes = some (r, rest)) :
    Reaches (CFractions.unpackForm zlib stack v nSerFlags) pd bytes
      (pd.withFractions fun fr => { fr with nFlags := r.1, f := r.2 }) rest := by
  rw [CFractions.readColumns] at h
  rw [CFractions.unpackForm]
  by_cases hvalue : hasFlag nSerFlags SER_VALUE = true
  · rw [if_pos hvalue] at h ⊢
    obtain ⟨value, mid, hread, h⟩ := run_bind_eq_some.mp h
    cases h
    exact reaches_unpackValue hf hread
  rw [if_neg hvalue] at h ⊢
  by_cases hzdelta : hasFlag nSerFlags SER_ZDELTA = true
  · rw [if_pos hzdelta] at h ⊢
    obtain ⟨f, mid, hdeltas, h⟩ := run_bind_eq_some.mp h
    cases h
    obtain ⟨zlen, mid', hzlen, hdeltas⟩ := run_bind_eq_some.mp hdeltas
    by_cases hsize : zoutSize < zlen.toNat
    · rw [if_pos hsize] at hdeltas
      cases hdeltas
    rw [if_neg hsize] at hdeltas
    obtain ⟨src, mid'', hsrc, hdeltas⟩ := run_bind_eq_some.mp hdeltas
    refine Reaches.take hzlen ?_
    rw [if_neg hsize]
    refine Reaches.take hsrc ?_
    cases hdst : zlib.uncompress src with
    | none =>
      rw [hdst] at hdeltas
      cases hdeltas
    | some dst =>
      rw [hdst, Option.bind_some] at hdeltas
      cases hread : (readAll int64 PEG_SIZE).run dst with
      | none =>
        rw [hread] at hdeltas
        cases hdeltas
      | some deltas =>
        rw [hread] at hdeltas
        cases hcolumns : asColumns (fromDeltas deltas.1) with
        | none =>
          simp only [hcolumns] at hdeltas
          cases hdeltas
        | some f' =>
          simp only [hcolumns] at hdeltas
          cases hdeltas
          dsimp only
          rw [columnsOfDeltas_eq hread hcolumns]
          exact reaches_assignColumns _ _
  rw [if_neg hzdelta] at h ⊢
  by_cases hraw : hasFlag nSerFlags SER_RAW = true
  · rw [if_pos hraw] at h ⊢
    obtain ⟨f, mid, hcolumns, h⟩ := run_bind_eq_some.mp h
    cases h
    obtain ⟨l, mid', hread, hcolumns⟩ := run_bind_eq_some.mp hcolumns
    cases hf' : asColumns l with
    | none =>
      simp only [hf'] at hcolumns
      cases hcolumns
    | some f' =>
      simp only [hf'] at hcolumns
      cases hcolumns
      obtain ⟨-, hlength, rfl⟩ := run_readAll_int64 hread
      have hbytes : (readBytes (PEG_SIZE * 8)).run bytes =
          some (bytes.take (PEG_SIZE * 8), bytes.drop (PEG_SIZE * 8)) := if_pos hlength
      refine Reaches.take hbytes ?_
      rw [columnsOf_eq hread hf']
      exact reaches_assignColumns _ _
  · rw [if_neg hraw] at h ⊢
    cases h
    rw [← hflags, ← hf]
    exact Reaches.pure

theorem reaches_unpackFractions {fr : CFractions} (hflags : pd.fractions.nFlags = VALUE)
    (hf : pd.fractions.f = Vector.replicate PEG_SIZE 0)
    (h : (CFractions.unpack zlib).run bytes = some (fr, rest)) :
    Reaches (CFractions.unpackInto zlib stack) pd bytes (pd.withFractions fun _ => fr) rest := by
  obtain ⟨nVersion, r1, hversion, h⟩ := run_bind_eq_some.mp h
  obtain ⟨nSerFlags, r2, hser, h⟩ := run_bind_eq_some.mp h
  obtain ⟨nLockTime, r3, htime, h⟩ := run_bind_eq_some.mp h
  obtain ⟨sReturnAddr, r4, haddr, h⟩ := run_bind_eq_some.mp h
  obtain ⟨c, r5, hcolumns, h⟩ := run_bind_eq_some.mp h
  obtain ⟨hfr, hrest⟩ := run_pure_eq_some.mp h
  subst hrest
  rw [← hfr]
  unfold CFractions.unpackInto CFractions.unpackLockTime CFractions.unpackColumns
  apply Reaches.bind (Reaches.readInto hversion Version.current _ _)
  apply Reaches.take hser
  apply Reaches.bind (Reaches.readInto htime Version.current _ _)
  apply Reaches.bind (reaches_unpackReturnAddr haddr)
  apply Reaches.bind (reaches_unpackForm _ _ hcolumns) (Reaches.adjust _)
  · exact hflags
  · exact hf

theorem reaches_unpackCycles {nCycle nCyclePrev : Int64} {mid : List UInt8}
    (hcycle : int64.read.run bytes = some (nCycle, mid))
    (hprev : int64.read.run mid = some (nCyclePrev, rest)) :
    Reaches (CPegLevel.unpackCycles v) pd bytes
      (pd.withPeglevel fun l => { l with nCycle, nCyclePrev }) rest := by
  apply Reaches.bind (Reaches.readInto hcycle v _ _)
  exact Reaches.readInto hprev v _ _

/-- The supplies of a level, with what comes before them. -/
theorem reaches_unpackSupplies {nVersion : UInt8} {nCycle nCyclePrev : Int64} {nBuffer : Int16}
    {l : CPegLevel}
    (h : (CPegLevel.readSupplies nVersion nCycle nCyclePrev nBuffer).run bytes = some (l, rest)) :
    ∃ nSupply nSupplyNext nSupplyNextNext nShift nShiftLastPart nShiftLastTotal,
      l = { nVersion, nCycle, nCyclePrev, nBuffer, nSupply, nSupplyNext, nSupplyNextNext, nShift,
            nShiftLastPart, nShiftLastTotal } ∧
      ∀ pd : CPegData, Reaches (CPegLevel.unpackSupplies v) pd bytes
        (pd.withPeglevel fun l => { l with
          nSupply, nSupplyNext, nSupplyNextNext, nShift, nShiftLastPart, nShiftLastTotal }) rest := by
  obtain ⟨nSupply, r1, h1, h⟩ := run_bind_eq_some.mp h
  obtain ⟨nSupplyNext, r2, h2, h⟩ := run_bind_eq_some.mp h
  obtain ⟨nSupplyNextNext, r3, h3, h⟩ := run_bind_eq_some.mp h
  obtain ⟨nShift, r4, h4, h⟩ := run_bind_eq_some.mp h
  obtain ⟨nShiftLastPart, r5, h5, h⟩ := run_bind_eq_some.mp h
  obtain ⟨nShiftLastTotal, r6, h6, h⟩ := run_bind_eq_some.mp h
  obtain ⟨rfl, rfl⟩ := run_pure_eq_some.mp h
  refine ⟨nSupply, nSupplyNext, nSupplyNextNext, nShift, nShiftLastPart, nShiftLastTotal, rfl,
    fun pd => ?_⟩
  unfold CPegLevel.unpackSupplies
  apply Reaches.bind (Reaches.readInto h1 v _ _)
  apply Reaches.bind (Reaches.readInto h2 v _ _)
  apply Reaches.bind (Reaches.readInto h3 v _ _)
  apply Reaches.bind (Reaches.readInto h4 v _ _)
  apply Reaches.bind (Reaches.readInto h5 v _ _)
  exact Reaches.readInto h6 v _ _

theorem reaches_unpackLevel {l : CPegLevel} (hlevel : pd.peglevel = {})
    (h : CPegLevel.unpack.run bytes = some (l, rest)) :
    Reaches CPegLevel.unpackInto pd bytes (pd.withPeglevel fun _ => l) rest := by
  obtain ⟨nVersion, r1, hversion, h⟩ := run_bind_eq_some.mp h
  unfold CPegLevel.unpackInto
  apply Reaches.take hversion
  apply Reaches.bind (Reaches.assign Version.current _ _)
  unfold CPegLevel.unpackVersion at h
  by_cases hzero : nVersion = 0
  · subst hzero
    rw [if_pos rfl] at h
    obtain ⟨rfl, rfl⟩ := run_pure_eq_some.mp h
    rw [if_neg (by decide), if_neg (by decide), CPegData.withPeglevel, hlevel]
    exact Reaches.pure
  rw [if_neg hzero] at h
  obtain ⟨nCycle, r2, hcycle, h⟩ := run_bind_eq_some.mp h
  obtain ⟨nCyclePrev, r3, hprev, h⟩ := run_bind_eq_some.mp h
  dsimp only at h
  by_cases hone : nVersion = 1
  · subst hone
    rw [if_pos rfl] at h ⊢
    obtain ⟨nBuffer, r4, hbuffer, h⟩ := run_bind_eq_some.mp h
    obtain ⟨rfl, rfl⟩ := run_pure_eq_some.mp hbuffer
    obtain ⟨_, _, _, _, _, _, rfl, hsupplies⟩ := reaches_unpackSupplies (v := .current) h
    unfold CPegLevel.unpack1
    apply Reaches.bind (reaches_unpackCycles hcycle hprev)
    apply Reaches.bind (hsupplies _)
    exact Reaches.assign Version.current _ _
  · have hbelow : 1 < nVersion := by
      rw [UInt8.lt_iff_toNat_lt]
      rw [← UInt8.toNat_inj] at hzero hone
      change ¬ nVersion.toNat = 0 at hzero
      change ¬ nVersion.toNat = 1 at hone
      change 1 < nVersion.toNat
      omega
    rw [if_neg hone] at h ⊢
    rw [if_pos hbelow]
    obtain ⟨nBuffer, r4, hbuffer, h⟩ := run_bind_eq_some.mp h
    obtain ⟨_, _, _, _, _, _, rfl, hsupplies⟩ := reaches_unpackSupplies (v := .current) h
    apply Reaches.bind (reaches_unpackCycles hcycle hprev)
    apply Reaches.bind (Reaches.readInto hbuffer Version.current _ _)
    exact hsupplies _

/-- What the reader of the current format takes, the decoder takes on a new object. -/
theorem unpackAlone_of_reader (stack : Version → List UInt8) {l : List UInt8}
    (h : (CPegData.unpack zlib).run bytes = some (pd, l)) :
    ∃ origin, CPegData.unpackAlone zlib stack .current bytes = (.ok (), ⟨pd, origin, l⟩) := by
  obtain ⟨nVersion, r1, hversion, h⟩ := run_bind_eq_some.mp h
  obtain ⟨fractions, r2, hfractions, h⟩ := run_bind_eq_some.mp h
  obtain ⟨peglevel, r3, hpeglevel, h⟩ := run_bind_eq_some.mp h
  obtain ⟨nReserve, r4, hreserve, h⟩ := run_bind_eq_some.mp h
  obtain ⟨nLiquid, r5, hliquid, h⟩ := run_bind_eq_some.mp h
  obtain ⟨nId, r6, hid, h⟩ := run_bind_eq_some.mp h
  have hmembers : Reaches (CPegData.unpackMembers zlib stack) {} bytes
      { nVersion, fractions, peglevel, nLiquid, nReserve, nId } r6 := by
    unfold CPegData.unpackMembers
    apply Reaches.bind (Reaches.readInto hversion Version.current _ _)
    apply Reaches.bind (reaches_unpackFractions rfl rfl hfractions)
    apply Reaches.bind (reaches_unpackLevel rfl hpeglevel)
    apply Reaches.bind (Reaches.readInto hreserve Version.current _ _)
    apply Reaches.bind (Reaches.readInto hliquid Version.current _ _)
    exact Reaches.readInto hid Version.current _ _
  obtain ⟨origin, hrun⟩ := hmembers fun _ => none
  dsimp only at h
  by_cases hvalid : CPegData.isValid { nVersion, fractions, peglevel, nLiquid, nReserve, nId } = true
  · rw [if_pos hvalid] at h
    obtain ⟨hpd, hl⟩ := run_pure_eq_some.mp h
    refine ⟨origin, ?_⟩
    rw [CPegData.unpackAlone, CPegData.unpackAs, CPegData.unpackInto, run_bind_ok hrun,
      CPegData.run_checkCurrent, if_pos hvalid, ← hpd, hl]
    rfl
  · rw [if_neg hvalid] at h
    cases h

/-- The constructor on a text of the current format. -/
theorem construct_of_reader (stack : Version → List UInt8) (previous : List UInt8 → CPegData)
    {pegdata64 : CString}
    (h : ((CPegData.unpack zlib).run (decodeBase64 pegdata64)).isSome = true)
    (htext : pegdata64 ≠ []) :
    ∃ origin, CPegData.construct zlib stack pegdata64 =
      some ⟨CPegData.ofText zlib previous pegdata64, origin, some .current⟩ := by
  obtain ⟨⟨pd, l⟩, hread⟩ := Option.isSome_iff_exists.mp h
  obtain ⟨origin, halone⟩ := unpackAlone_of_reader stack hread
  refine ⟨origin, ?_⟩
  rw [CPegData.construct, if_neg htext, halone, CPegData.ofText, if_neg htext, hread]
  rfl

/-- The text of valid peg data gives them back, whatever the object and the stack were. -/
theorem construct_toText (hvalid : pd.isValid = true) (hstd : pd.fractions.Standard)
    (haddr : pd.fractions.sReturnAddr.length ≤ MAX_SIZE) :
    ∃ origin, CPegData.construct zlib stack (pd.toText zlib) =
      some ⟨pd.currentLevel, origin, some .current⟩ := by
  have hread : ((CPegData.unpack zlib).run (decodeBase64 (pd.toText zlib))).isSome = true := by
    rw [run_unpack_toText hvalid hstd haddr]
    rfl
  have hconstruct := construct_of_reader stack (fun _ => {}) hread
    toText_ne_nil
  rwa [ofText_toText _ hvalid hstd haddr] at hconstruct

/-- Valid peg data with standard fractions come back from their text, with a level of the
current version, and have the same text then. The constructor does not come to the previous
formats and leaves nothing of what the stack held. -/
theorem pegdata_round_trip (previous : List UInt8 → CPegData) (hvalid : pd.isValid = true)
    (hstd : pd.fractions.Standard) (haddr : pd.fractions.sReturnAddr.length ≤ MAX_SIZE) :
    CPegData.ofText zlib previous (pd.toText zlib) = pd.currentLevel ∧
    (CPegData.ofText zlib previous (pd.toText zlib)).toText zlib = pd.toText zlib ∧
    ∀ stack, ∃ origin, CPegData.construct zlib stack (pd.toText zlib) =
      some ⟨pd.currentLevel, origin, some .current⟩ := by
  have hback : CPegData.ofText zlib previous (pd.toText zlib) = pd.currentLevel :=
    ofText_toText previous hvalid hstd haddr
  refine ⟨hback, ?_, fun stack => construct_toText hvalid hstd haddr⟩
  rw [hback]
  rfl

end Reader

theorem samplePegData_round_trip :
    CPegData.ofText sampleZlib (fun _ => {}) (samplePegData.toText sampleZlib) =
      samplePegData.currentLevel ∧
    (CPegData.ofText sampleZlib (fun _ => {}) (samplePegData.toText sampleZlib)).toText sampleZlib =
      samplePegData.toText sampleZlib ∧
    ∀ stack, ∃ origin, CPegData.construct sampleZlib stack (samplePegData.toText sampleZlib) =
      some ⟨samplePegData.currentLevel, origin, some .current⟩ :=
  pegdata_round_trip (fun _ => {}) samplePegData_valid samplePegData_standard (by decide)

end BitBay.Codec
