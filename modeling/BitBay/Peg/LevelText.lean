import BitBay.Bridge.HexText
import BitBay.Peg.PreviousFormats

/-!
# Texts of peg levels

A peg level is written as the hex digits of its bytes. The constructor from a text takes 80 digits
for a level of the format without a version. Other bytes begin with a version, and if there are
too few of them for it they are read again as a level without one. Bytes behind the level do not
count.

What is written has the current version, whichever the level came from.
-/
namespace BitBay.Codec

open Wire Decode

namespace CPegLevel

def toText (l : CPegLevel) : CString := hexStr l.pack

def initial : CPegLevel := { nSupply := 0, nSupplyNext := 0, nSupplyNextNext := 0 }

/-- What the constructor leaves of a level that it could not read. -/
def invalidated (l : CPegLevel) : CPegLevel :=
  { l with
    nSupply := -1, nSupplyNext := -1, nSupplyNextNext := -1
    nShift := 0, nShiftLastPart := 0, nShiftLastTotal := 0 }

def constructPrevious (s : Unpacking) (data : List UInt8) : CPegLevel :=
  match run (unpack1 .first) { s with rest := data } with
  | (.ok _, s') => s'.obj.peglevel
  | (.error _, s') => s'.obj.peglevel.invalidated

def ofText (str : CString) : CPegLevel :=
  let data := parseHex str
  let finp : Unpacking := ⟨{ peglevel := initial }, fun _ => none, data⟩
  if str.length = 80 then constructPrevious finp data
  else
    match run unpackInto finp with
    | (.ok _, s) => s.obj.peglevel
    | (.error _, s) => constructPrevious s data

def writeSupplies (l : CPegLevel) : List UInt8 :=
  int16.write l.nSupply ++ (int16.write l.nSupplyNext ++ (int16.write l.nSupplyNextNext ++
    (int16.write l.nShift ++ (int64.write l.nShiftLastPart ++ int64.write l.nShiftLastTotal))))

inductive Layout
  | version2
  | version1
  | legacy
  deriving DecidableEq

namespace Layout

def size : Layout → ℕ
  | version2 => 43
  | version1 => 41
  | legacy => 40

def writeHead (l : CPegLevel) : Layout → List UInt8
  | version2 => uint8.write l.nVersion ++ (int64.write l.nCycle ++ (int64.write l.nCyclePrev ++
      int16.write l.nBuffer))
  | version1 => uint8.write 1 ++ (int64.write l.nCycle ++ int64.write l.nCyclePrev)
  | legacy => int64.write l.nCycle ++ int64.write l.nCyclePrev

def write (layout : Layout) (l : CPegLevel) : List UInt8 := layout.writeHead l ++ l.writeSupplies

def ofBytes : List UInt8 → Layout
  | [] => legacy
  | nVersion :: rest =>
    if nVersion = 1 then if version1.size ≤ rest.length + 1 then version1 else legacy
    else if version2.size ≤ rest.length + 1 then version2 else legacy

def ofText (str : CString) : Layout :=
  if str.length = 80 then legacy else ofBytes (parseHex str)

def TextOf (layout : Layout) (l : CPegLevel) (str : CString) : Prop :=
  parseHex str = layout.write l ∧ str.length = 2 * layout.size

end Layout

/-! ## Records -/

section Records

variable {v : Version} {bytes rest : List UInt8} {l : CPegLevel}

theorem length_int16_write (n : Int16) : (int16.write n).length = 2 :=
  length_leBytes 2 n.toUInt16.toNat

theorem Layout.length_write (layout : Layout) (l : CPegLevel) :
    (layout.write l).length = layout.size := by
  have huint8 : ∀ n, (uint8.write n).length = 1 := fun n => length_leBytes 1 n.toNat
  cases layout <;>
    simp only [Layout.write, Layout.writeHead, writeSupplies, Layout.size, List.length_append,
      length_int16_write, length_int64_write, huint8]

def readSuppliesOnto (l : CPegLevel) : Reader CPegLevel :=
  readSupplies l.nVersion l.nCycle l.nCyclePrev l.nBuffer

theorem follows_unpackSupplies : Follows (unpackSupplies v) fun pd =>
    readSuppliesOnto pd.peglevel >>= fun l => pure (pd.withPeglevel fun _ => l) := by
  refine ((Follows.readInto v _ _ _).bind ((Follows.readInto v _ _ _).bind
    ((Follows.readInto v _ _ _).bind ((Follows.readInto v _ _ _).bind
      ((Follows.readInto v _ _ _).bind (Follows.readInto v _ _ _)))))).congr fun pd => ?_
  simp [readSuppliesOnto, readSupplies, CPegData.withPeglevel]

/-- A level without a version, over one that has it. -/
def readPreviousOnto (l : CPegLevel) : Reader CPegLevel := do
  let nCycle ← int64.read
  let nCyclePrev ← int64.read
  readSupplies l.nVersion nCycle nCyclePrev 3

theorem follows_unpack1 : Follows (unpack1 v) fun pd =>
    readPreviousOnto pd.peglevel >>= fun l => pure (pd.withPeglevel fun _ => l) := by
  refine (((Follows.readInto v _ _ _).bind (Follows.readInto v _ _ _)).bind
    (follows_unpackSupplies.bind (Follows.assign v _ _))).congr fun pd => ?_
  simp [readPreviousOnto, readSuppliesOnto, readSupplies, CPegData.withPeglevel]

/-- A level with a version. Version 0 has nothing behind it. -/
def readOnto (l : CPegLevel) : Reader CPegLevel := do
  let nVersion ← uint8.read
  if nVersion = 1 then readPreviousOnto { l with nVersion }
  else if 1 < nVersion then do
    let nCycle ← int64.read
    let nCyclePrev ← int64.read
    let nBuffer ← int16.read
    readSupplies nVersion nCycle nCyclePrev nBuffer
  else return { l with nVersion }

theorem follows_unpackInto : Follows unpackInto fun pd =>
    readOnto pd.peglevel >>= fun l => pure (pd.withPeglevel fun _ => l) := by
  refine (Follows.take fun nVersion => (Follows.assign _ _ _).bind
    (Follows.ite follows_unpack1 (Follows.ite
      (((Follows.readInto _ _ _ _).bind (Follows.readInto _ _ _ _)).bind
        ((Follows.readInto _ _ _ _).bind follows_unpackSupplies)) Follows.pure))).congr fun pd => ?_
  simp only [readOnto, bind_assoc, pure_bind, CPegData.withPeglevel]
  congr
  funext nVersion
  split_ifs
  · rfl
  · simp [readSuppliesOnto]
  · rfl

/-- The supplies that are read are those of the level, and stand before the rest. -/
theorem readSupplies_exact {nVersion : UInt8} {nCycle nCyclePrev : Int64} {nBuffer : Int16}
    (h : (readSupplies nVersion nCycle nCyclePrev nBuffer).run bytes = some (l, rest)) :
    l = { l with nVersion, nCycle, nCyclePrev, nBuffer } ∧ bytes = l.writeSupplies ++ rest := by
  obtain ⟨nSupply, r1, h1, h⟩ := run_bind_eq_some.mp h
  obtain ⟨nSupplyNext, r2, h2, h⟩ := run_bind_eq_some.mp h
  obtain ⟨nSupplyNextNext, r3, h3, h⟩ := run_bind_eq_some.mp h
  obtain ⟨nShift, r4, h4, h⟩ := run_bind_eq_some.mp h
  obtain ⟨nShiftLastPart, r5, h5, h⟩ := run_bind_eq_some.mp h
  obtain ⟨nShiftLastTotal, r6, h6, h⟩ := run_bind_eq_some.mp h
  obtain ⟨rfl, rfl⟩ := run_pure_eq_some.mp h
  refine ⟨rfl, ?_⟩
  rw [int16_exact h1, int16_exact h2, int16_exact h3, int16_exact h4, int64_exact h5,
    int64_exact h6]
  simp only [writeSupplies, List.append_assoc]

theorem suffices_readSupplies (nVersion : UInt8) (nCycle nCyclePrev : Int64) (nBuffer : Int16) :
    Suffices 24 (readSupplies nVersion nCycle nCyclePrev nBuffer) :=
  int16_hasWidth.suffices fun _ => int16_hasWidth.suffices fun _ => int16_hasWidth.suffices fun _ =>
    int16_hasWidth.suffices fun _ => int64_hasWidth.suffices fun _ => int64_hasWidth.suffices
      fun _ => Suffices.pure _

theorem readPreviousOnto_exact {o : CPegLevel}
    (h : (readPreviousOnto o).run bytes = some (l, rest)) :
    l.nVersion = o.nVersion ∧ l.nBuffer = 3 ∧ bytes = Layout.legacy.write l ++ rest := by
  obtain ⟨nCycle, r1, h1, h⟩ := run_bind_eq_some.mp h
  obtain ⟨nCyclePrev, r2, h2, h⟩ := run_bind_eq_some.mp h
  obtain ⟨hl, hsupplies⟩ := readSupplies_exact h
  refine ⟨by rw [hl], by rw [hl], ?_⟩
  have hcycle : l.nCycle = nCycle := by rw [hl]
  have hprev : l.nCyclePrev = nCyclePrev := by rw [hl]
  rw [int64_exact h1, int64_exact h2, hsupplies, ← hcycle, ← hprev]
  simp only [Layout.write, Layout.writeHead, List.append_assoc]

theorem suffices_readPreviousOnto (o : CPegLevel) : Suffices 40 (readPreviousOnto o) :=
  int64_hasWidth.suffices fun _ => int64_hasWidth.suffices fun _ => suffices_readSupplies _ _ _ _

theorem uint8_write (n : UInt8) : uint8.write n = [n] := by
  have hn := n.toNat_lt
  have hmod : n.toNat % 256 = n.toNat := Nat.mod_eq_of_lt hn
  change [UInt8.ofNat (n.toNat % 256)] = [n]
  rw [hmod, UInt8.ofNat_toNat]

theorem one_lt_of_ne {n : UInt8} (hzero : n ≠ 0) (hone : n ≠ 1) : 1 < n := by
  rw [Ne, ← UInt8.toNat_inj] at hzero hone
  change ¬ n.toNat = 0 at hzero
  change ¬ n.toNat = 1 at hone
  rw [UInt8.lt_iff_toNat_lt]
  change 1 < n.toNat
  omega

/-- A level with a version is a record of this version. -/
theorem readOnto_exact {o : CPegLevel} (h : (readOnto o).run bytes = some (l, rest))
    (hzero : bytes.head? ≠ some 0) :
    bytes = (Layout.ofBytes bytes).write l ++ rest ∧
      (Layout.ofBytes bytes ≠ .version2 → l.nBuffer = 3) := by
  obtain ⟨nVersion, r1, h1, hform⟩ := run_bind_eq_some.mp h
  have hbytes := uint8_exact h1
  rw [uint8_write, List.singleton_append] at hbytes
  subst hbytes
  have hversion : nVersion ≠ 0 := fun heq => hzero (congrArg some heq)
  by_cases hone : nVersion = 1
  · subst hone
    rw [if_pos rfl] at hform
    obtain ⟨-, hbuffer, hrecord⟩ := readPreviousOnto_exact hform
    have hlength := congrArg List.length hrecord
    rw [List.length_append, Layout.length_write] at hlength
    have hlayout : Layout.ofBytes (1 :: r1) = .version1 := by
      rw [Layout.ofBytes, if_pos rfl, if_pos]
      rw [hlength]
      exact Nat.add_le_add_right (Nat.le_add_right 40 _) 1
    rw [hlayout]
    refine ⟨?_, fun _ => hbuffer⟩
    rw [hrecord]
    simp only [Layout.write, Layout.writeHead, uint8_write, List.append_assoc,
      List.nil_append, List.cons_append]
  · rw [if_neg hone, if_pos (one_lt_of_ne hversion hone)] at hform
    obtain ⟨nCycle, r2, h2, hform⟩ := run_bind_eq_some.mp hform
    obtain ⟨nCyclePrev, r3, h3, hform⟩ := run_bind_eq_some.mp hform
    obtain ⟨nBuffer, r4, h4, hform⟩ := run_bind_eq_some.mp hform
    obtain ⟨hl, hsupplies⟩ := readSupplies_exact hform
    have hfields : l.nVersion = nVersion ∧ l.nCycle = nCycle ∧ l.nCyclePrev = nCyclePrev ∧
        l.nBuffer = nBuffer := by
      rw [hl]
      exact ⟨rfl, rfl, rfl, rfl⟩
    have hrecord : nVersion :: r1 = Layout.version2.write l ++ rest := by
      rw [int64_exact h2, int64_exact h3, int16_exact h4, hsupplies, ← hfields.1, ← hfields.2.1,
        ← hfields.2.2.1, ← hfields.2.2.2]
      simp only [Layout.write, Layout.writeHead, uint8_write, List.append_assoc,
        List.nil_append, List.cons_append]
    have hlength := congrArg List.length hrecord
    rw [List.length_cons, List.length_append, Layout.length_write] at hlength
    have hlayout : Layout.ofBytes (nVersion :: r1) = .version2 := by
      rw [Layout.ofBytes, if_neg hone, if_pos]
      rw [hlength]
      exact Nat.le_add_right _ _
    rw [hlayout]
    exact ⟨hrecord, fun hne => absurd rfl hne⟩

/-- Bytes with enough behind the version are read. -/
theorem readOnto_of_layout (o : CPegLevel) (h : Layout.ofBytes bytes ≠ .legacy) :
    ∃ l rest, (readOnto o).run bytes = some (l, rest) := by
  cases bytes with
  | nil => exact absurd rfl h
  | cons nVersion tail =>
    have hread : uint8.read.run (nVersion :: tail) = some (nVersion, tail) := by
      have hreads := uint8.reads nVersion tail
      rwa [uint8_write, List.singleton_append] at hreads
    rw [Layout.ofBytes] at h
    by_cases hone : nVersion = 1
    · rw [if_pos hone] at h
      have hlength : 40 ≤ tail.length := by
        by_contra hshort
        exact h (if_neg fun hle => hshort (Nat.le_of_succ_le_succ hle))
      obtain ⟨l, rest, hl⟩ := suffices_readPreviousOnto { o with nVersion } hlength
      refine ⟨l, rest, run_bind_eq_some.mpr ⟨nVersion, tail, hread, ?_⟩⟩
      rwa [if_pos hone]
    · rw [if_neg hone] at h
      have hlength : 42 ≤ tail.length := by
        by_contra hshort
        exact h (if_neg fun hle => hshort (Nat.le_of_succ_le_succ hle))
      by_cases hbelow : 1 < nVersion
      · have hsuffices : Suffices 42 (int64.read >>= fun nCycle => int64.read >>= fun nCyclePrev =>
            int16.read >>= fun nBuffer => readSupplies nVersion nCycle nCyclePrev nBuffer) :=
          int64_hasWidth.suffices fun _ => int64_hasWidth.suffices fun _ =>
            int16_hasWidth.suffices fun _ => suffices_readSupplies _ _ _ _
        obtain ⟨l, rest, hl⟩ := hsuffices hlength
        refine ⟨l, rest, run_bind_eq_some.mpr ⟨nVersion, tail, hread, ?_⟩⟩
        rw [if_neg hone, if_pos hbelow]
        exact hl
      · refine ⟨{ o with nVersion }, tail, run_bind_eq_some.mpr ⟨nVersion, tail, hread, ?_⟩⟩
        rw [if_neg hone, if_neg hbelow]
        rfl

end Records

/-! ## Texts -/

section Texts

variable {str : CString} {s : Unpacking} {data : List UInt8}

theorem invalidated_isValid (l : CPegLevel) : l.invalidated.isValid = false := by
  simp [isValid, invalidated]

/-- A valid level of the previous format is a record without a version. -/
theorem constructPrevious_exact (h : (constructPrevious s data).isValid = true) :
    ∃ rest, data = Layout.legacy.write (constructPrevious s data) ++ rest ∧
      (constructPrevious s data).nBuffer = 3 := by
  have hfollows := follows_unpack1 (v := .first) s.obj s.origin data
  unfold constructPrevious at h ⊢
  cases hread : ((readPreviousOnto s.obj.peglevel >>= fun l =>
      pure (s.obj.withPeglevel fun _ => l)) : Reader CPegData).run data with
  | none =>
    rw [hread] at hfollows
    obtain ⟨e, s', hrun⟩ := accepted_eq_none hfollows
    rw [hrun] at h
    rw [invalidated_isValid] at h
    exact absurd h Bool.false_ne_true
  | some p =>
    obtain ⟨o, rest⟩ := p
    rw [hread] at hfollows
    obtain ⟨s', hrun, hobj, -⟩ := accepted_eq_some hfollows
    obtain ⟨l, mid, hl, hpure⟩ := run_bind_eq_some.mp hread
    obtain ⟨rfl, rfl⟩ := run_pure_eq_some.mp hpure
    obtain ⟨-, hbuffer, hrecord⟩ := readPreviousOnto_exact hl
    rw [hrun]
    dsimp only
    rw [hobj]
    exact ⟨mid, hrecord, hbuffer⟩

theorem length_parseHexGo_le (k : ℕ) (str : CString) :
    2 * (parseHex.go k str).length ≤ str.length := by
  induction k generalizing str with
  | zero => simp [parseHex.go]
  | succ k ih =>
    have hdrop : (str.dropWhile CString.isSpace).length ≤ str.length :=
      (List.dropWhile_sublist _).length_le
    rw [parseHex.go]
    split
    · rename_i c1 c2 tail htail
      rw [htail] at hdrop
      split
      · have hrest := ih tail
        simp only [List.length_cons] at hdrop ⊢
        omega
      · simp
    · simp

/-- Every byte takes two digits. -/
theorem length_parseHex_le (str : CString) : 2 * (parseHex str).length ≤ str.length :=
  length_parseHexGo_le _ _

/-- A valid level that a text gives is the record at the front of its bytes. -/
theorem ofText_exact (hvalid : (ofText str).isValid = true)
    (hzero : str.length = 80 ∨ (parseHex str).head? ≠ some 0) :
    ∃ rest, parseHex str = (Layout.ofText str).write (ofText str) ++ rest ∧
      (str.length = 80 → rest = []) ∧
      (Layout.ofText str ≠ .version2 → (ofText str).nBuffer = 3) := by
  unfold ofText Layout.ofText at *
  by_cases hlength : str.length = 80
  · simp only [if_pos hlength] at hvalid ⊢
    obtain ⟨rest, hrecord, hbuffer⟩ := constructPrevious_exact hvalid
    refine ⟨rest, hrecord, fun _ => ?_, fun _ => hbuffer⟩
    have hle := length_parseHex_le str
    rw [hrecord, List.length_append, Layout.length_write, hlength, Layout.size] at hle
    exact List.length_eq_zero_iff.mp (by omega)
  · simp only [if_neg hlength] at hvalid ⊢
    have hhead := hzero.resolve_left hlength
    have hfollows := follows_unpackInto { peglevel := initial } (fun _ => none) (parseHex str)
    cases hread : ((readOnto initial >>= fun l => pure
        (CPegData.withPeglevel (fun _ => l) { peglevel := initial })) : Reader CPegData).run
          (parseHex str) with
    | none =>
      rw [hread] at hfollows
      obtain ⟨e, s', hrun⟩ := accepted_eq_none hfollows
      rw [hrun] at hvalid ⊢
      obtain ⟨rest, hrecord, hbuffer⟩ := constructPrevious_exact hvalid
      have hlayout : Layout.ofBytes (parseHex str) = .legacy := by
        by_contra hne
        obtain ⟨l, mid, hl⟩ := readOnto_of_layout initial hne
        rw [StateT.run_bind, hl] at hread
        cases hread
      rw [hlayout]
      exact ⟨rest, hrecord, fun h => absurd h hlength, fun _ => hbuffer⟩
    | some p =>
      obtain ⟨o, rest⟩ := p
      rw [hread] at hfollows
      obtain ⟨s', hrun, hobj, -⟩ := accepted_eq_some hfollows
      obtain ⟨l, mid, hl, hpure⟩ := run_bind_eq_some.mp hread
      obtain ⟨rfl, rfl⟩ := run_pure_eq_some.mp hpure
      obtain ⟨hrecord, hbuffer⟩ := readOnto_exact hl hhead
      rw [hrun]
      dsimp only
      rw [hobj]
      exact ⟨mid, hrecord, fun h => absurd h hlength, hbuffer⟩

/-- The text of a level gives it back with the current version. -/
theorem ofText_toText (l : CPegLevel) : ofText l.toText = { l with nVersion := 2 } := by
  have hsupplies : Reads (readSupplies 2 l.nCycle l.nCyclePrev l.nBuffer) l.writeSupplies
      { l with nVersion := 2 } :=
    (int16.reads _).bind ((int16.reads _).bind ((int16.reads _).bind ((int16.reads _).bind
      ((int64.reads _).bind (int64.reads _).map))))
  have hreads : Reads (readOnto initial) l.pack { l with nVersion := 2 } := by
    refine (uint8.reads 2).bind ?_
    rw [if_neg (by decide), if_pos (by decide)]
    exact (int64.reads _).bind ((int64.reads _).bind ((int16.reads _).bind hsupplies))
  have hrun := hreads []
  rw [List.append_nil] at hrun
  have hpack : l.pack.length = 43 := by
    simp only [pack, List.length_append, length_int16_write, length_int64_write, uint8_write,
      List.length_singleton]
  have hlength : l.toText.length ≠ 80 := by
    rw [toText, length_hexStr, hpack]
    decide
  have hfollows := follows_unpackInto { peglevel := initial } (fun _ => none) l.pack
  rw [StateT.run_bind, hrun] at hfollows
  obtain ⟨s, haccepted, hobj, -⟩ := accepted_eq_some hfollows
  unfold ofText
  simp only [if_neg hlength]
  rw [toText, parseHex_hexStr, haccepted]
  dsimp only
  rw [hobj]
  rfl

/-- A level comes back from its text with the current version. A valid level that any other text
gives is the record at the front of the text's bytes, unless these begin with version 0. -/
theorem level_text_exact (l : CPegLevel) (str : CString) :
    ofText l.toText = { l with nVersion := 2 } ∧
      ((ofText str).isValid = true → str.length = 80 ∨ (parseHex str).head? ≠ some 0 →
        ∃ rest, parseHex str = (Layout.ofText str).write (ofText str) ++ rest ∧
          (str.length = 80 → rest = []) ∧
          (Layout.ofText str ≠ .version2 → (ofText str).nBuffer = 3)) :=
  ⟨ofText_toText l, ofText_exact⟩

end Texts

def firstLevel : CPegLevel :=
  { nVersion := 1, nCycle := 5, nCyclePrev := 4
    nSupply := 3, nSupplyNext := 3, nSupplyNextNext := 3 }

theorem firstLevel_text_exact :
    ofText firstLevel.toText = { firstLevel with nVersion := 2 } ∧
      ∃ rest, parseHex firstLevel.toText =
        Layout.version2.write (ofText firstLevel.toText) ++ rest := by
  have hvalid : (ofText firstLevel.toText).isValid = true := by decide
  have hlayout : Layout.ofText firstLevel.toText = .version2 := by decide
  obtain ⟨hback, htext⟩ := level_text_exact firstLevel firstLevel.toText
  obtain ⟨rest, hrecord, -⟩ := htext hvalid (Or.inr (by decide))
  rw [hlayout] at hrecord
  exact ⟨hback, rest, hrecord⟩

/-- The text of a level of the first version gives another level, and digits behind a record do
not make a text invalid. -/
theorem level_text_inexact :
    firstLevel.isValid = true ∧ ofText firstLevel.toText ≠ firstLevel ∧
      (ofText (firstLevel.toText ++ ['0', '0'])).isValid = true ∧
      ¬ ∃ layout l, Layout.TextOf layout l (firstLevel.toText ++ ['0', '0']) := by
  have hversion : (ofText firstLevel.toText).nVersion = 2 := by decide
  have hlength : (firstLevel.toText ++ ['0', '0']).length = 88 := by decide
  refine ⟨by decide, fun heq => ?_, by decide, ?_⟩
  · rw [heq] at hversion
    exact absurd hversion (by decide)
  · rintro ⟨layout, l, -, hsize⟩
    rw [hlength] at hsize
    cases layout <;> exact absurd hsize (by decide)

end CPegLevel

end BitBay.Codec
