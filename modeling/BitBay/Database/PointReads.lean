import BitBay.Library.PendingWrites
import BitBay.Library.Wire
import Mathlib.Data.List.Lex

/-!
# Reads of single keys in a database transaction

`CTxDB` and `CPegDB` wrap a LevelDB store. While a transaction is active, what is written and
erased is kept in a batch, and a read scans the batch before it looks at the disk. The code of
the point reads is the same in both classes.

`Read` and `ReadStr` see what the batch has for the key. `Exists` takes a key that the batch has
erased for one that it does not have, and finds what is still on the disk.
-/
namespace BitBay

abbrev Bytes := List UInt8

/-- Keys are compared byte by byte. -/
instance instLinearOrderUInt8 : LinearOrder UInt8 where
  le_refl a := UInt8.le_refl a
  le_trans _ _ _ := UInt8.le_trans
  le_antisymm _ _ := UInt8.le_antisymm
  le_total := UInt8.le_total
  lt_iff_le_not_ge a b := by
    rw [UInt8.lt_iff_toNat_lt, UInt8.le_iff_toNat_le, UInt8.le_iff_toNat_le]
    omega
  toDecidableLE := inferInstance
  toDecidableLT := inferInstance
  toDecidableEq := inferInstance

/-- How values of a type are put on a stream and taken from it; `none` when that throws. -/
structure StreamType (α : Type) where
  write : α → Bytes
  read : Bytes → Option α

/-- `std::string` on a stream. -/
def stringType : StreamType Bytes where
  write := Wire.writeString
  read bytes := ((Wire.readString (2 ^ 25)).run bytes).map Prod.fst

/-- What a `leveldb::WriteBatch` hands to its handler. -/
abbrev BatchOp := MapWrite Bytes Bytes

/-- A store with the batch of the active transaction, if there is one. -/
structure LevelStore where
  disk : SortedMap Bytes Bytes
  activeBatch : Option (List BatchOp) := none

/-! ## The scan of the batch -/

structure CBatchScanner where
  foundEntry : Bool := false
  deleted : Bool := false
  foundValue : Bytes := []

def CBatchScanner.handle (needle : Bytes) (scanner : CBatchScanner) : BatchOp → CBatchScanner
  | .put key value =>
    if key = needle then { foundEntry := true, deleted := false, foundValue := value }
    else scanner
  | .delete key =>
    if key = needle then { scanner with foundEntry := true, deleted := true } else scanner

def scanBatch (batch : List BatchOp) (key : Bytes) : CBatchScanner :=
  batch.foldl (CBatchScanner.handle key) {}

namespace LevelStore

section Model

variable {K T : Type} (db : LevelStore) (keyType : StreamType K) (valueType : StreamType T)
  (key : K)

def txnBegin : LevelStore := { db with activeBatch := some [] }

/-- `TxnCommit`; without an active batch the assertion fails. -/
def txnCommit : Option LevelStore :=
  db.activeBatch.map fun batch => { disk := batch.foldl MapWrite.apply db.disk }

def txnAbort : LevelStore := { db with activeBatch := none }

def handle (op : BatchOp) : LevelStore :=
  match db.activeBatch with
  | some batch => { db with activeBatch := some (batch ++ [op]) }
  | none => { db with disk := MapWrite.apply db.disk op }

def write (value : T) : LevelStore := db.handle (.put (keyType.write key) (valueType.write value))

def erase : LevelStore := db.handle (.delete (keyType.write key))

def readBytes (ssKey : Bytes) : Option Bytes :=
  match db.activeBatch with
  | some batch =>
    let scanner := scanBatch batch ssKey
    if scanner.deleted then none
    else if scanner.foundEntry then some scanner.foundValue
    else db.disk.lookup ssKey
  | none => db.disk.lookup ssKey

/-- `ReadStr`, `none` when it returns false. -/
def readStr : Option Bytes := db.readBytes (keyType.write key)

/-- `Read`, `none` when it returns false. -/
def read : Option T := (db.readBytes (keyType.write key)).bind valueType.read

def existsKey : Bool :=
  let ssKey := keyType.write key
  let inBatch := db.activeBatch.any fun batch =>
    let scanner := scanBatch batch ssKey
    scanner.foundEntry && !scanner.deleted
  -- An erased key is looked up on the disk like one that the batch does not have.
  inBatch || (db.disk.lookup ssKey).isSome

structure ReadsAs (found : Option Bytes) : Prop where
  readStr : db.readStr keyType key = found
  read : ∀ (T : Type) (valueType : StreamType T),
    db.read keyType valueType key = found.bind valueType.read
  existsKey : db.existsKey keyType key = found.isSome

end Model

/-! ## What the reads find -/

section Reads

variable {K : Type} {db db' : LevelStore} {keyType : StreamType K} {key : K}
  {batch : List BatchOp} {ssKey : Bytes}

theorem scanBatch_concat (op : BatchOp) :
    scanBatch (batch ++ [op]) ssKey = (scanBatch batch ssKey).handle ssKey op := by
  rw [scanBatch, List.foldl_append]
  rfl

/-- The last operation on the key counts. -/
theorem scanBatch_spec : match MapWrite.pending batch ssKey with
    | none => (scanBatch batch ssKey).foundEntry = false ∧ (scanBatch batch ssKey).deleted = false
    | some none => (scanBatch batch ssKey).foundEntry = true ∧ (scanBatch batch ssKey).deleted = true
    | some (some value) => scanBatch batch ssKey =
        { foundEntry := true, deleted := false, foundValue := value } := by
  induction batch using List.reverseRecOn with
  | nil => exact ⟨rfl, rfl⟩
  | append_singleton batch op ih =>
    rw [scanBatch_concat]
    cases op with
    | put k value =>
      rw [MapWrite.pending_concat_put, CBatchScanner.handle]
      by_cases hk : k = ssKey
      · simp [hk]
      · simpa [hk] using ih
    | delete k =>
      rw [MapWrite.pending_concat_delete, CBatchScanner.handle]
      by_cases hk : k = ssKey
      · simp [hk]
      · simpa [hk] using ih

def merged (db : LevelStore) (ssKey : Bytes) : Option Bytes :=
  (db.activeBatch.bind fun batch => MapWrite.pending batch ssKey).getD (db.disk.lookup ssKey)

theorem readBytes_eq : db.readBytes ssKey = db.merged ssKey := by
  unfold readBytes merged
  cases hbatch : db.activeBatch with
  | none => rfl
  | some batch =>
    have hscan := @scanBatch_spec batch ssKey
    rw [Option.bind_some]
    cases hpending : MapWrite.pending batch ssKey with
    | none =>
      simp only [hpending] at hscan
      simp [hscan]
    | some result =>
      cases result with
      | none =>
        simp only [hpending] at hscan
        simp [hscan]
      | some value =>
        simp only [hpending] at hscan
        simp [hscan]

def ErasedOnDisk (db : LevelStore) (ssKey : Bytes) : Prop :=
  (db.activeBatch.bind fun batch => MapWrite.pending batch ssKey) = some none ∧
    (db.disk.lookup ssKey).isSome

theorem existsKey_eq_iff : db.existsKey keyType key = (db.merged (keyType.write key)).isSome ↔
    ¬ db.ErasedOnDisk (keyType.write key) := by
  unfold existsKey merged ErasedOnDisk
  cases hbatch : db.activeBatch with
  | none => simp
  | some batch =>
    have hscan := @scanBatch_spec batch (keyType.write key)
    simp only [Option.bind_some, Option.any_some]
    cases hpending : MapWrite.pending batch (keyType.write key) with
    | none =>
      simp only [hpending] at hscan
      simp [hscan]
    | some result =>
      cases result with
      | none =>
        simp only [hpending] at hscan
        simp [hscan]
      | some value =>
        simp only [hpending] at hscan
        simp [hscan]

theorem merged_committed (h : db.txnCommit = some db') : db'.merged ssKey = db.merged ssKey := by
  obtain ⟨batch, hbatch, rfl⟩ := Option.map_eq_some_iff.mp h
  simp only [merged, hbatch, Option.bind_some, Option.bind_none, Option.getD_none]
  exact MapWrite.lookup_foldl_apply

theorem readsAs_merged_iff : db.ReadsAs keyType key (db.merged (keyType.write key)) ↔
    ¬ db.ErasedOnDisk (keyType.write key) := by
  rw [← existsKey_eq_iff]
  refine ⟨fun h => h.existsKey, fun h => ⟨readBytes_eq, fun T valueType => ?_, h⟩⟩
  rw [read, readBytes_eq]

/-- Without an active batch the three reads agree. -/
theorem readsAs_disk (h : db.activeBatch = none) :
    db.ReadsAs keyType key (db.merged (keyType.write key)) := by
  refine readsAs_merged_iff.mpr fun herased => ?_
  have hpending := herased.1
  rw [h] at hpending
  cases hpending

end Reads

/-! ## Agreement with the committed store -/

/-- In an active transaction the three reads of a key agree, find what its last write left and
nothing after an erase, and what they find after the commit, if and only if the key is not one
that the batch has erased and the disk still has. -/
theorem point_reads_committed_iff {K : Type} (keyType : StreamType K)
    (disk : SortedMap Bytes Bytes) (batch : List BatchOp) (key : K) :
    (∃ found db', LevelStore.txnCommit ⟨disk, some batch⟩ = some db' ∧
      found = (MapWrite.pending batch (keyType.write key)).getD
        (disk.lookup (keyType.write key)) ∧
      LevelStore.ReadsAs ⟨disk, some batch⟩ keyType key found ∧ db'.ReadsAs keyType key found) ↔
    ¬ (MapWrite.pending batch (keyType.write key) = some none ∧
      (disk.lookup (keyType.write key)).isSome) := by
  have hiff := @readsAs_merged_iff K ⟨disk, some batch⟩ keyType key
  constructor
  · rintro ⟨found, db', -, rfl, hreads, -⟩
    exact hiff.mp hreads
  · intro hkey
    refine ⟨_, { disk := batch.foldl MapWrite.apply disk }, rfl, rfl, hiff.mpr hkey, ?_⟩
    have hmerged := @merged_committed ⟨disk, some batch⟩ _ (keyType.write key) rfl
    have hdisk := @readsAs_disk K { disk := batch.foldl MapWrite.apply disk } keyType key rfl
    rwa [hmerged] at hdisk

def erasedStore : LevelStore where
  disk := SortedMap.empty.insert (stringType.write [0x6b]) [7]
  activeBatch := some [.delete (stringType.write [0x6b])]

/-- `Exists` finds the erased key, which `Read` and `ReadStr` do not find, and neither does
`Exists` after the commit. -/
theorem erased_key_exists :
    erasedStore.existsKey stringType [0x6b] = true ∧
    erasedStore.readStr stringType [0x6b] = none ∧
    erasedStore.read stringType stringType [0x6b] = none ∧
    erasedStore.txnCommit.map (fun db => db.existsKey stringType [0x6b]) = some false ∧
    ¬ ∃ found db', erasedStore.txnCommit = some db' ∧
      erasedStore.ReadsAs stringType [0x6b] found ∧ db'.ReadsAs stringType [0x6b] found := by
  have hexists : erasedStore.existsKey stringType [0x6b] = true := by decide
  have hread : erasedStore.readStr stringType [0x6b] = none := by decide
  refine ⟨hexists, hread, by decide, by decide, ?_⟩
  rintro ⟨found, db', -, hreads, -⟩
  have hfound := hreads.readStr.symm.trans hread
  have hsome := hreads.existsKey.symm.trans hexists
  rw [hfound] at hsome
  cases hsome

end LevelStore

end BitBay
