import BitBay.Base.Numbers
import BitBay.Bridge.HexText
import BitBay.Library.Wire
import BitBay.Peg.Codec

/-!
# Texts in the peg database

The records of governance are texts under textual keys. Several texts are joined with a
separator before they are written and split again when they are read. The hash that names a
record is taken over a stream, where a text stands behind its length.
-/
namespace BitBay

open Codec (MAX_SIZE)

/-! ## Joined texts -/

namespace CString

/-- `boost::algorithm::join` with one separator. -/
def join (sep : Char) (l : List CString) : CString := List.intercalate [sep] l

variable {sep : Char} {l : List CString} {s : CString}

theorem join_cons (sep : Char) (s : CString) (h : l ≠ []) :
    join sep (s :: l) = s ++ sep :: join sep l := by
  rw [join, join, List.intercalate_cons_of_ne_nil h, List.append_assoc]
  rfl

theorem mem_join {c : Char} (h : c ∈ join sep l) : c = sep ∨ ∃ s ∈ l, c ∈ s := by
  induction l with
  | nil => simp [join] at h
  | cons s rest ih =>
    rcases List.eq_nil_or_concat rest with rfl | ⟨_, _, hrest⟩
    · exact .inr ⟨s, List.mem_cons_self, by simpa [join] using h⟩
    · rw [join_cons _ _ (by simp [hrest]), List.mem_append, List.mem_cons] at h
      rcases h with h | h | h
      · exact .inr ⟨s, List.mem_cons_self, h⟩
      · exact .inl h
      · exact (ih h).imp_right fun ⟨s', hs', hc⟩ => ⟨s', List.mem_cons_of_mem _ hs', hc⟩

/-- Every text is split on its own. -/
theorem split_join (h : l ≠ []) : split sep (join sep l) = l.flatMap (split sep) := by
  induction l with
  | nil => exact absurd rfl h
  | cons s rest ih =>
    cases rest with
    | nil => simp [join]
    | cons s' rest =>
      rw [join_cons _ _ (List.cons_ne_nil _ _), split, List.splitOn_append_cons_self,
        List.flatMap_cons, ← ih (List.cons_ne_nil _ _)]
      rfl

theorem split_ne_nil (sep : Char) (s : CString) : split sep s ≠ [] := List.splitOn_ne_nil _ _

theorem split_of_not_mem (h : sep ∉ s) : split sep s = [s] := List.splitOn_eq_singleton h

theorem not_mem_of_split (h : (split sep s).length ≤ 1) : sep ∉ s := by
  intro hmem
  obtain ⟨a, b, rfl⟩ := List.append_of_mem hmem
  have ha := List.length_pos_iff.mpr (split_ne_nil sep a)
  have hb := List.length_pos_iff.mpr (split_ne_nil sep b)
  rw [split, List.splitOn_append_cons_self, List.length_append] at h
  unfold split at ha hb
  omega

/-- The texts come apart as they were exactly when none of them contains the separator. -/
theorem split_join_eq_iff (h : l ≠ []) : split sep (join sep l) = l ↔ ∀ s ∈ l, sep ∉ s := by
  rw [split_join h]
  constructor
  · intro heq
    have hlength : (l.map fun s => (split sep s).length).sum = l.length := by
      rw [← List.length_flatMap, heq]
    have hone : ∀ s ∈ l, 1 ≤ (split sep s).length := fun s _ =>
      List.length_pos_iff.mpr (split_ne_nil sep s)
    clear heq h
    induction l with
    | nil => exact fun s hs => absurd hs List.not_mem_nil
    | cons s rest ih =>
      have hs := hone s List.mem_cons_self
      have hrest : ∀ s ∈ rest, 1 ≤ (split sep s).length :=
        fun s' h' => hone s' (List.mem_cons_of_mem _ h')
      have hle : rest.length ≤ (rest.map fun s => (split sep s).length).sum := by
        have hsum := List.length_le_sum_of_one_le (rest.map fun s => (split sep s).length)
          (by simpa using hrest)
        simpa using hsum
      rw [List.map_cons, List.sum_cons, List.length_cons] at hlength
      refine List.forall_mem_cons.mpr ⟨not_mem_of_split (by omega), ih (by omega) hrest⟩
  · intro hall
    have hsingle : ∀ s ∈ l, split sep s = [s] := fun s hs => split_of_not_mem (hall s hs)
    rw [List.flatMap_congr hsingle]
    simp

theorem join_split (sep : Char) (s : CString) : join sep (split sep s) = s :=
  List.intercalate_splitOn sep

/-- The pieces of a text do not contain the separator. -/
theorem not_mem_of_mem_split {piece : CString} (h : piece ∈ split sep s) : sep ∉ piece :=
  (split_join_eq_iff (split_ne_nil sep s)).mp (by rw [join_split]) piece h

theorem mem_join_of_mem {c : Char} (hs : s ∈ l) (hc : c ∈ s) : c ∈ join sep l := by
  induction l with
  | nil => exact absurd hs List.not_mem_nil
  | cons s' rest ih =>
    rcases List.eq_nil_or_concat rest with rfl | ⟨_, _, hrest⟩
    · rw [List.mem_singleton.mp hs] at hc
      simpa [join] using hc
    · rw [join_cons _ _ (by simp [hrest]), List.mem_append, List.mem_cons]
      rcases List.mem_cons.mp hs with rfl | hs
      · exact .inl hc
      · exact .inr (.inr (ih hs))

/-- The pieces are not fewer than the texts, and more where a text contains the separator. -/
theorem length_le_flatMap_split (sep : Char) (l : List CString) :
    l.length ≤ (l.flatMap (split sep)).length := by
  induction l with
  | nil => exact le_rfl
  | cons s rest ih =>
    have hs := List.length_pos_iff.mpr (split_ne_nil sep s)
    rw [List.flatMap_cons, List.length_append, List.length_cons]
    omega

theorem length_lt_flatMap_split (h : ∃ s ∈ l, sep ∈ s) :
    l.length < (l.flatMap (split sep)).length := by
  obtain ⟨s, hs, hsep⟩ := h
  obtain ⟨before, after, rfl⟩ := List.append_of_mem hs
  have htwo : 1 < (split sep s).length := by
    by_contra hle
    exact not_mem_of_split (not_lt.mp hle) hsep
  have hbefore := length_le_flatMap_split sep before
  have hafter := length_le_flatMap_split sep after
  rw [List.flatMap_append, List.flatMap_cons]
  simp only [List.length_append, List.length_cons]
  omega

theorem length_le_join (sep : Char) (h : s ∈ l) : s.length ≤ (join sep l).length := by
  induction l with
  | nil => exact absurd h List.not_mem_nil
  | cons s' rest ih =>
    rcases List.eq_nil_or_concat rest with rfl | ⟨_, _, hrest⟩
    · rw [List.mem_singleton.mp h]
      simp [join]
    · rw [join_cons _ _ (by simp [hrest]), List.length_append, List.length_cons]
      rcases List.mem_cons.mp h with rfl | h
      · omega
      · have hle := ih h
        omega

theorem length_join_le (sep : Char) (l : List CString) :
    (join sep l).length ≤ (l.map fun s => s.length + 1).sum := by
  induction l with
  | nil => simp [join]
  | cons s' rest ih =>
    rw [List.map_cons, List.sum_cons]
    rcases List.eq_nil_or_concat rest with rfl | ⟨_, _, hrest⟩
    · simp [join]
    · rw [join_cons _ _ (by simp [hrest]), List.length_append, List.length_cons]
      omega

theorem length_le_of_mem_split {piece : CString} (h : piece ∈ split sep s) :
    piece.length ≤ s.length := by
  have hle := length_le_join sep h
  rwa [join_split] at hle

end CString

/-! ## Streams -/

def streamString (s : CString) : CString :=
  CScript.toCString (Wire.writeCompactSize s.length) ++ s

def streamHash (hash : UInt256) : CString := CScript.toCString (Wire.leBytes 32 hash.toNat)

def streamInt (n : ℤ) : CString := CScript.toCString (Wire.leBytes 4 (n % 2 ^ 32).toNat)

def streamStrings (l : List CString) : CString := l.flatMap streamString

section Streams

variable {s s' rest rest' : CString}

def CString.toBytes (s : CString) : List UInt8 := s.map fun c => UInt8.ofNat c.toNat

theorem toBytes_toCString (b : List UInt8) : CString.toBytes (CScript.toCString b) = b := by
  rw [CString.toBytes, CScript.toCString, List.map_map]
  refine (List.map_congr_left fun x _ => ?_).trans (List.map_id b)
  have hx : (Char.ofNat x.toNat).toNat = x.toNat := by
    have hvalid : x.toNat.isValidChar := .inl (lt_of_lt_of_le x.toNat_lt (by decide))
    rw [Char.ofNat, dif_pos hvalid]
    rfl
  simp [hx]

theorem toCString_injective : Function.Injective CScript.toCString :=
  Function.LeftInverse.injective toBytes_toCString

theorem toCString_toBytes (h : ∀ c ∈ s, c.toNat < 256) :
    CScript.toCString (CString.toBytes s) = s := by
  rw [CString.toBytes, CScript.toCString, List.map_map]
  refine (List.map_congr_left fun c hc => ?_).trans (List.map_id s)
  have hbyte : (UInt8.ofNat c.toNat).toNat = c.toNat := UInt8.toNat_ofNat_of_lt' (h c hc)
  simp [hbyte]

/-- A text is read off a stream, its length first. -/
theorem streamString_append (hs : s.length < 2 ^ 64) (hs' : s'.length < 2 ^ 64)
    (h : streamString s ++ rest = streamString s' ++ rest') : s = s' ∧ rest = rest' := by
  have hbytes := congrArg CString.toBytes h
  simp only [streamString, List.append_assoc] at h
  simp only [streamString, CString.toBytes, List.map_append, List.append_assoc] at hbytes
  have hread := Wire.reads_size hs ((CString.toBytes s) ++ CString.toBytes rest)
  have hread' := Wire.reads_size hs' ((CString.toBytes s') ++ CString.toBytes rest')
  have hw : ∀ n, List.map (fun c => UInt8.ofNat c.toNat)
      (CScript.toCString (Wire.writeCompactSize n)) = Wire.writeCompactSize n :=
    fun n => toBytes_toCString _
  rw [hw, hw] at hbytes
  have hlength : s.length = s'.length := by
    have hsame := hread.symm.trans ((congrArg _ hbytes).trans hread')
    simpa using congrArg (Option.map Prod.fst) hsame
  rw [hlength] at h
  exact List.append_inj (List.append_cancel_left h) hlength

theorem streamString_injective (hs : s.length < 2 ^ 64) (hs' : s'.length < 2 ^ 64)
    (h : streamString s = streamString s') : s = s' := by
  rw [← List.append_nil (streamString s), ← List.append_nil (streamString s')] at h
  exact (streamString_append hs hs' h).1

/-- Texts with one stream are one text. -/
theorem streamString_inj (h : streamString s = streamString s') : s = s' := by
  have hbytes := congrArg CString.toBytes h
  simp only [streamString, CString.toBytes, List.map_append] at hbytes
  have hw : ∀ n, List.map (fun c => UInt8.ofNat c.toNat)
      (CScript.toCString (Wire.writeCompactSize n)) = Wire.writeCompactSize n :=
    fun n => toBytes_toCString _
  rw [hw, hw] at hbytes
  have hwidth : (CScript.toCString (Wire.writeCompactSize s.length)).length =
      (CScript.toCString (Wire.writeCompactSize s'.length)).length := by
    simpa [CScript.toCString] using Wire.length_writeCompactSize_eq hbytes
  exact (List.append_inj h hwidth).2

theorem streamStrings_cons (s : CString) (l : List CString) :
    streamStrings (s :: l) = streamString s ++ streamStrings l := List.flatMap_cons

theorem streamString_ne_nil (s : CString) : streamString s ≠ [] := by
  intro h
  have hsize := congrArg List.length (List.append_eq_nil_iff.mp h).1
  rw [CScript.toCString, List.length_map, List.length_nil] at hsize
  exact absurd hsize (by unfold Wire.writeCompactSize; split_ifs <;> simp)

theorem streamStrings_injective {l l' : List CString} (hl : ∀ s ∈ l, s.length < 2 ^ 64)
    (hl' : ∀ s ∈ l', s.length < 2 ^ 64) (h : streamStrings l = streamStrings l') : l = l' := by
  induction l generalizing l' with
  | nil =>
    cases l' with
    | nil => rfl
    | cons s' rest' =>
      have hnil : streamString s' ++ streamStrings rest' = [] := by rw [← streamStrings_cons, ← h]; rfl
      exact absurd (List.append_eq_nil_iff.mp hnil).1 (streamString_ne_nil s')
  | cons s rest ih =>
    cases l' with
    | nil =>
      have hnil : streamString s ++ streamStrings rest = [] := by rw [← streamStrings_cons, h]; rfl
      exact absurd (List.append_eq_nil_iff.mp hnil).1 (streamString_ne_nil s)
    | cons s' rest' =>
      obtain ⟨hs, hrest⟩ := List.forall_mem_cons.mp hl
      obtain ⟨hs', hrest'⟩ := List.forall_mem_cons.mp hl'
      rw [streamStrings_cons, streamStrings_cons] at h
      obtain ⟨heq, htail⟩ := streamString_append hs hs' h
      rw [heq, ih hrest hrest' htail]

theorem length_streamHash (hash : UInt256) : (streamHash hash).length = 32 := by
  rw [streamHash, CScript.toCString, List.length_map, Wire.length_leBytes]

theorem streamHash_injective : Function.Injective streamHash := by
  intro a b h
  have hbytes := congrArg Wire.leNat (toCString_injective h)
  have hpow : 256 ^ 32 = 2 ^ 256 := by norm_num
  rw [Wire.leNat_leBytes 32 _ (hpow ▸ a.isLt), Wire.leNat_leBytes 32 _ (hpow ▸ b.isLt)] at hbytes
  exact BitVec.eq_of_toNat_eq hbytes

end Streams

/-! ## The database -/

abbrev PegDB := CString → Option CString

namespace PegDB

variable {db : PegDB} {key key' value : CString}

/-- `Read`: a text that is too long throws when its length is read. -/
def read (db : PegDB) (key : CString) : Option CString :=
  (db key).filter fun value => value.length ≤ MAX_SIZE

def write (db : PegDB) (key value : CString) : PegDB := Function.update db key (some value)

theorem read_of_stored (hstored : db key = some value) (h : value.length ≤ MAX_SIZE) :
    db.read key = some value := by
  rw [read, hstored, Option.filter_some, if_pos (decide_eq_true h)]

theorem read_write (h : value.length ≤ MAX_SIZE) : (db.write key value).read key = some value :=
  read_of_stored (Function.update_self _ _ _) h

theorem read_write_long (h : MAX_SIZE < value.length) : (db.write key value).read key = none := by
  rw [read, write, Function.update_self, Option.filter_some,
    if_neg (by simpa using h)]

theorem read_write_of_ne (h : key' ≠ key) : (db.write key value).read key' = db.read key' := by
  rw [read, write, Function.update_of_ne h, read]

end PegDB

end BitBay
