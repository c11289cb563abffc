import Mathlib.Data.Nat.Bits
import Mathlib.Tactic

/-!
# Binary formats

A reader takes a value from the front of a list of bytes. A format is a writer with a reader
that takes back what was written and leaves what follows, so formats are put together by
appending what they write and reading in the same order.
-/
namespace BitBay.Wire

variable {α β : Type}

/-- Reads from the front of the bytes, or fails. -/
abbrev Reader := StateT (List UInt8) Option

def Reads (r : Reader α) (bytes : List UInt8) (a : α) : Prop :=
  ∀ rest, r.run (bytes ++ rest) = some (a, rest)

theorem Reads.pure (a : α) : Reads (pure a) [] a := fun _ => rfl

theorem Reads.bind {r : Reader α} {f : α → Reader β} {bytes bytes' : List UInt8} {a : α} {b : β}
    (hr : Reads r bytes a) (hf : Reads (f a) bytes' b) : Reads (r >>= f) (bytes ++ bytes') b := by
  intro rest
  rw [StateT.run_bind, List.append_assoc, hr, Option.bind_eq_bind, Option.bind_some]
  exact hf rest

/-- The last reader of a sequence. -/
theorem Reads.last {r : Reader α} {f : α → Reader β} {bytes : List UInt8} {a : α} {b : β}
    (hr : Reads r bytes a) (hf : Reads (f a) [] b) : Reads (r >>= f) bytes b := by
  rw [← List.append_nil bytes]
  exact hr.bind hf

theorem Reads.map {r : Reader α} {g : α → β} {bytes : List UInt8} {a : α} (hr : Reads r bytes a) :
    Reads (r >>= fun a => Pure.pure (g a)) bytes (g a) := hr.last (Reads.pure _)

/-- What a sequence reads, its first reader reads and then the rest of it. -/
theorem run_bind_eq_some {r : Reader α} {f : α → Reader β} {bytes rest : List UInt8} {b : β} :
    (r >>= f).run bytes = some (b, rest) ↔
      ∃ a mid, r.run bytes = some (a, mid) ∧ (f a).run mid = some (b, rest) := by
  rw [StateT.run_bind, Option.bind_eq_bind, Option.bind_eq_some_iff]
  exact Prod.exists

theorem run_pure_eq_some {a b : α} {bytes rest : List UInt8} :
    (pure a : Reader α).run bytes = some (b, rest) ↔ a = b ∧ bytes = rest := by
  rw [StateT.run_pure, Option.pure_def, Option.some.injEq, Prod.mk.injEq]

/-- A value with the bytes that stand for it. -/
structure Format (α : Type) where
  write : α → List UInt8
  read : Reader α
  reads : ∀ a, Reads read (write a) a

/-- The format of values that are converted before they are written. -/
def Format.convert (fmt : Format α) (f : β → α) (g : α → β) (h : ∀ b, g (f b) = b) :
    Format β where
  write b := fmt.write (f b)
  read := fmt.read >>= fun a => pure (g a)
  reads b := by
    have hreads := Reads.map (g := g) (fmt.reads (f b))
    rwa [h] at hreads

/-! ## Bytes -/

def readBytes (n : ℕ) : Reader (List UInt8) := fun bytes =>
  if n ≤ bytes.length then some (bytes.take n, bytes.drop n) else none

theorem reads_bytes (bytes : List UInt8) : Reads (readBytes bytes.length) bytes bytes := by
  intro rest
  have hlength : bytes.length ≤ (bytes ++ rest).length := by
    rw [List.length_append]
    exact Nat.le_add_right _ _
  change (if bytes.length ≤ (bytes ++ rest).length then _ else none) = _
  rw [if_pos hlength, List.take_left, List.drop_left]

/-! ## Numbers -/

def leBytes : ℕ → ℕ → List UInt8
  | 0, _ => []
  | k + 1, n => UInt8.ofNat (n % 256) :: leBytes k (n / 256)

def leNat : List UInt8 → ℕ
  | [] => 0
  | b :: rest => b.toNat + 256 * leNat rest

@[simp] theorem length_leBytes (k n : ℕ) : (leBytes k n).length = k := by
  induction k generalizing n with
  | zero => rfl
  | succ k ih => rw [leBytes, List.length_cons, ih]

theorem leNat_leBytes (k n : ℕ) (h : n < 256 ^ k) : leNat (leBytes k n) = n := by
  induction k generalizing n with
  | zero =>
    have hn : n = 0 := by simpa using h
    rw [hn]
    rfl
  | succ k ih =>
    have hrest : n / 256 < 256 ^ k := by
      rw [Nat.div_lt_iff_lt_mul (by decide)]
      rwa [pow_succ] at h
    have hbyte : (UInt8.ofNat (n % 256)).toNat = n % 256 := by
      rw [UInt8.toNat_ofNat']
      omega
    rw [leBytes, leNat, ih _ hrest, hbyte]
    omega

theorem leNat_append (l : List UInt8) (b : UInt8) :
    leNat (l ++ [b]) = leNat l + 256 ^ l.length * b.toNat := by
  induction l with
  | nil => simp [leNat]
  | cons a rest ih =>
    rw [List.cons_append, leNat, leNat, ih, List.length_cons]
    ring

theorem leNat_lt (l : List UInt8) : leNat l < 256 ^ l.length := by
  induction l with
  | nil => simp [leNat]
  | cons a rest ih =>
    have ha := a.toNat_lt
    rw [leNat, List.length_cons, pow_succ]
    omega

def readLE (k : ℕ) : Reader ℕ := readBytes k >>= fun bytes => pure (leNat bytes)

theorem reads_leBytes {k n : ℕ} (h : n < 256 ^ k) : Reads (readLE k) (leBytes k n) n := by
  have hreads := Reads.map (g := leNat) (reads_bytes (leBytes k n))
  rwa [leNat_leBytes k n h, length_leBytes] at hreads

theorem run_readLE (k : ℕ) (bytes : List UInt8) :
    (readLE k).run bytes =
      if k ≤ bytes.length then some (leNat (bytes.take k), bytes.drop k) else none := by
  change (readBytes k bytes).bind _ = _
  unfold readBytes
  split <;> rfl

def uint8 : Format UInt8 where
  write n := leBytes 1 n.toNat
  read := readLE 1 >>= fun n => pure (UInt8.ofNat n)
  reads n := by
    have hreads := Reads.map (g := UInt8.ofNat) (reads_leBytes (k := 1) n.toNat_lt)
    rwa [UInt8.ofNat_toNat] at hreads

def uint16 : Format UInt16 where
  write n := leBytes 2 n.toNat
  read := readLE 2 >>= fun n => pure (UInt16.ofNat n)
  reads n := by
    have hreads := Reads.map (g := UInt16.ofNat) (reads_leBytes (k := 2) n.toNat_lt)
    rwa [UInt16.ofNat_toNat] at hreads

def uint32 : Format UInt32 where
  write n := leBytes 4 n.toNat
  read := readLE 4 >>= fun n => pure (UInt32.ofNat n)
  reads n := by
    have hreads := Reads.map (g := UInt32.ofNat) (reads_leBytes (k := 4) n.toNat_lt)
    rwa [UInt32.ofNat_toNat] at hreads

def uint64 : Format UInt64 where
  write n := leBytes 8 n.toNat
  read := readLE 8 >>= fun n => pure (UInt64.ofNat n)
  reads n := by
    have hreads := Reads.map (g := UInt64.ofNat) (reads_leBytes (k := 8) n.toNat_lt)
    rwa [UInt64.ofNat_toNat] at hreads

def int16 : Format Int16 := uint16.convert Int16.toUInt16 UInt16.toInt16 fun _ => rfl

def int32 : Format Int32 := uint32.convert Int32.toUInt32 UInt32.toInt32 fun _ => rfl

def int64 : Format Int64 := uint64.convert Int64.toUInt64 UInt64.toInt64 fun _ => rfl

theorem run_uint64 (bytes : List UInt8) :
    uint64.read.run bytes =
      if 8 ≤ bytes.length then some (UInt64.ofNat (leNat (bytes.take 8)), bytes.drop 8)
      else none := by
  change ((readLE 8).run bytes).bind _ = _
  rw [run_readLE]
  split <;> rfl

theorem run_int64 (bytes : List UInt8) :
    int64.read.run bytes =
      if 8 ≤ bytes.length then some ((UInt64.ofNat (leNat (bytes.take 8))).toInt64, bytes.drop 8)
      else none := by
  change (uint64.read.run bytes).bind _ = _
  rw [run_uint64]
  split <;> rfl

theorem length_int64_write (n : Int64) : (int64.write n).length = 8 := length_leBytes 8 n.toUInt64.toNat

/-! ## Exact formats -/

section Exact

variable {fmt : Format α} {bytes rest : List UInt8} {a : α}

/-- What is read is what is written for the value, and nothing else. -/
def Format.Exact (fmt : Format α) : Prop :=
  ∀ {bytes rest a}, fmt.read.run bytes = some (a, rest) → bytes = fmt.write a ++ rest

theorem leBytes_leNat (l : List UInt8) : leBytes l.length (leNat l) = l := by
  induction l with
  | nil => rfl
  | cons b tail ih =>
    have hb := b.toNat_lt
    have hrest : (b.toNat + 256 * leNat tail) / 256 = leNat tail := by omega
    have hbyte : (b.toNat + 256 * leNat tail) % 256 = b.toNat := by omega
    rw [List.length_cons, leNat, leBytes, hrest, hbyte, ih, UInt8.ofNat_toNat]

/-- A number of `k` bytes that is converted after it has been read. -/
theorem exact_readLE {k : ℕ} {f : ℕ → α} {g : α → ℕ} (hg : ∀ n < 256 ^ k, g (f n) = n)
    (h : (readLE k >>= fun n => pure (f n)).run bytes = some (a, rest)) :
    bytes = leBytes k (g a) ++ rest := by
  obtain ⟨n, mid, hn, hpure⟩ := run_bind_eq_some.mp h
  obtain ⟨rfl, rfl⟩ := run_pure_eq_some.mp hpure
  rw [run_readLE] at hn
  split at hn
  · cases hn
    rename_i hk
    have hlength : (bytes.take k).length = k := List.length_take_of_le hk
    have hlt := leNat_lt (bytes.take k)
    rw [hlength] at hlt
    have hbytes := leBytes_leNat (bytes.take k)
    rw [hlength] at hbytes
    rw [hg _ hlt, hbytes, List.take_append_drop]
  · cases hn

theorem Format.Exact.convert (hfmt : fmt.Exact) {f : β → α} {g : α → β} (h : ∀ b, g (f b) = b)
    (hback : ∀ a, f (g a) = a) : (fmt.convert f g h).Exact := by
  intro bytes rest b hread
  obtain ⟨a, mid, ha, hpure⟩ := run_bind_eq_some.mp hread
  obtain ⟨rfl, rfl⟩ := run_pure_eq_some.mp hpure
  have hbytes := hfmt ha
  rw [← hback a] at hbytes
  exact hbytes

theorem uint8_exact : uint8.Exact :=
  exact_readLE fun _ hn => (UInt8.toNat_ofNat').trans (Nat.mod_eq_of_lt hn)

theorem uint16_exact : uint16.Exact :=
  exact_readLE fun _ hn => (UInt16.toNat_ofNat').trans (Nat.mod_eq_of_lt hn)

theorem uint64_exact : uint64.Exact :=
  exact_readLE fun _ hn => (UInt64.toNat_ofNat').trans (Nat.mod_eq_of_lt hn)

theorem int16_exact : int16.Exact := uint16_exact.convert _ fun _ => rfl

theorem int64_exact : int64.Exact := uint64_exact.convert _ fun _ => rfl

def Format.HasWidth (fmt : Format α) (k : ℕ) : Prop :=
  ∀ {bytes}, k ≤ bytes.length → ∃ a, fmt.read.run bytes = some (a, bytes.drop k)

theorem width_readLE {k : ℕ} (f : ℕ → α) (h : k ≤ bytes.length) :
    ∃ a, (readLE k >>= fun n => pure (f n)).run bytes = some (a, bytes.drop k) := by
  have hread : (readLE k).run bytes = some (leNat (bytes.take k), bytes.drop k) := by
    rw [run_readLE, if_pos h]
  exact ⟨_, run_bind_eq_some.mpr ⟨_, _, hread, rfl⟩⟩

theorem Format.HasWidth.convert {k : ℕ} (hfmt : fmt.HasWidth k) {f : β → α} {g : α → β}
    (h : ∀ b, g (f b) = b) : (fmt.convert f g h).HasWidth k := by
  intro bytes hk
  obtain ⟨a, ha⟩ := hfmt hk
  exact ⟨g a, run_bind_eq_some.mpr ⟨a, _, ha, rfl⟩⟩

def Suffices (n : ℕ) (r : Reader α) : Prop :=
  ∀ {bytes}, n ≤ bytes.length → ∃ a rest, r.run bytes = some (a, rest)

theorem Suffices.pure (a : α) : Suffices 0 (pure a : Reader α) := fun _ => ⟨a, _, rfl⟩

theorem Format.HasWidth.suffices {k n : ℕ} (hfmt : fmt.HasWidth k) {f : α → Reader β}
    (hf : ∀ a, Suffices n (f a)) : Suffices (k + n) (fmt.read >>= f) := by
  intro bytes h
  obtain ⟨a, ha⟩ := @hfmt bytes (by omega)
  obtain ⟨b, rest, hb⟩ := @hf a (bytes.drop k) (by rw [List.length_drop]; omega)
  exact ⟨b, rest, run_bind_eq_some.mpr ⟨a, _, ha, hb⟩⟩

theorem uint16_hasWidth : uint16.HasWidth 2 := width_readLE _

theorem uint64_hasWidth : uint64.HasWidth 8 := width_readLE _

theorem int16_hasWidth : int16.HasWidth 2 := uint16_hasWidth.convert _

theorem int64_hasWidth : int64.HasWidth 8 := uint64_hasWidth.convert _

end Exact

/-! ## Lists -/

/-- Values one after the other, without their number. -/
def writeAll (fmt : Format α) (l : List α) : List UInt8 := l.flatMap fmt.write

def readAll (fmt : Format α) : ℕ → Reader (List α)
  | 0 => pure []
  | n + 1 => do
    let a ← fmt.read
    let rest ← readAll fmt n
    return a :: rest

theorem reads_all (fmt : Format α) (l : List α) :
    Reads (readAll fmt l.length) (writeAll fmt l) l := by
  induction l with
  | nil => exact Reads.pure []
  | cons a rest ih =>
    rw [writeAll, List.flatMap_cons]
    exact (fmt.reads a).bind ih.map

/-! ## Compact sizes -/

/-- A size: up to 252 in one byte, and after a byte that says how many in two, four or eight. -/
def writeCompactSize (nSize : ℕ) : List UInt8 :=
  if nSize < 253 then leBytes 1 nSize
  else if nSize ≤ 0xffff then leBytes 1 253 ++ leBytes 2 nSize
  else if nSize ≤ 0xffffffff then leBytes 1 254 ++ leBytes 4 nSize
  else leBytes 1 255 ++ leBytes 8 nSize

def sizeWidth (b : UInt8) : ℕ :=
  if b.toNat < 253 then 1 else if b.toNat = 253 then 3 else if b.toNat = 254 then 5 else 9

theorem writeCompactSize_cons (n : ℕ) : ∃ b rest, writeCompactSize n = b :: rest ∧
    (writeCompactSize n).length = sizeWidth b := by
  unfold writeCompactSize
  split_ifs with hn
  · have hbyte : (UInt8.ofNat (n % 256)).toNat = n := by
      rw [UInt8.toNat_ofNat']
      omega
    exact ⟨_, _, rfl, by rw [length_leBytes, sizeWidth, hbyte, if_pos hn]⟩
  · exact ⟨_, _, rfl, rfl⟩
  · exact ⟨_, _, rfl, rfl⟩
  · exact ⟨_, _, rfl, rfl⟩

/-- Sizes in front of two equal texts take as many bytes. -/
theorem length_writeCompactSize_eq {m n : ℕ} {a b : List UInt8}
    (h : writeCompactSize m ++ a = writeCompactSize n ++ b) :
    (writeCompactSize m).length = (writeCompactSize n).length := by
  obtain ⟨c, rest, hm, hwidth⟩ := writeCompactSize_cons m
  obtain ⟨c', rest', hn, hwidth'⟩ := writeCompactSize_cons n
  rw [hwidth, hwidth']
  rw [hm, hn] at h
  rw [(List.cons.inj h).1]

/-- A number of `k` bytes that does not fit into fewer. -/
def readWide (k nMin : ℕ) : Reader ℕ := do
  let xSize ← readLE k
  if xSize < nMin then failure else pure xSize

theorem reads_wide {k nMin n : ℕ} (hmin : nMin ≤ n) (h : n < 256 ^ k) :
    Reads (readWide k nMin) (leBytes k n) n := by
  refine (reads_leBytes h).last ?_
  rw [if_neg (not_lt.mpr hmin)]
  exact Reads.pure n

def readSizeBehind (chSize : ℕ) : Reader ℕ :=
  if chSize < 253 then pure chSize
  else if chSize = 253 then readWide 2 253
  else if chSize = 254 then readWide 4 0x10000
  else readWide 8 0x100000000

def readSize : Reader ℕ := readLE 1 >>= readSizeBehind

theorem reads_size {nSize : ℕ} (h : nSize < 2 ^ 64) :
    Reads readSize (writeCompactSize nSize) nSize := by
  unfold writeCompactSize readSize
  split_ifs with h1 h2 h3
  · refine (reads_leBytes (by omega)).last ?_
    rw [readSizeBehind, if_pos h1]
    exact Reads.pure nSize
  · exact (reads_leBytes (by decide)).bind (reads_wide (by omega) (by omega))
  · exact (reads_leBytes (by decide)).bind (reads_wide (by omega) (by omega))
  · exact (reads_leBytes (by decide)).bind (reads_wide (by omega) (by omega))

def readCompactSize (nMax : ℕ) : Reader ℕ := do
  let nSizeRet ← readSize
  if nMax < nSizeRet then failure else pure nSizeRet

theorem reads_compactSize {nMax nSize : ℕ} (hmax : nSize ≤ nMax) (h : nSize < 2 ^ 64) :
    Reads (readCompactSize nMax) (writeCompactSize nSize) nSize := by
  refine (reads_size h).last ?_
  rw [if_neg (not_lt.mpr hmax)]
  exact Reads.pure nSize

def writeString (bytes : List UInt8) : List UInt8 := writeCompactSize bytes.length ++ bytes

def readString (nMax : ℕ) : Reader (List UInt8) := readCompactSize nMax >>= readBytes

theorem reads_string {nMax : ℕ} {bytes : List UInt8} (hmax : bytes.length ≤ nMax)
    (h : bytes.length < 2 ^ 64) : Reads (readString nMax) (writeString bytes) bytes :=
  (reads_compactSize hmax h).bind (reads_bytes bytes)

end BitBay.Wire
