import BitBay.Database.PointReads

/-!
# Ordered reads in a database transaction

`Seek` and `Range` of `CTxDB` merge two ordered sources. The batch is scanned into the writes
within the bounds, ordered by their keys, and the set of the keys that are erased last. An
iterator goes over the disk. Both functions see the store as it will be after the commit.
-/
namespace BitBay

/-- A type of keys. No type of the database is written without a byte. -/
structure KeyType (K : Type) extends StreamType K where
  write_ne : ∀ key, write key ≠ []

def stringKey : KeyType Bytes where
  toStreamType := stringType
  write_ne key := by
    simp only [stringType, Wire.writeString, Wire.writeCompactSize]
    split_ifs <;> simp [Wire.leBytes]

structure CBatchSeeker where
  seekmap : SortedMap Bytes Bytes := ∅
  erased : Finset Bytes := ∅

def CBatchSeeker.handle (needle stople : Bytes) (seeker : CBatchSeeker) : BatchOp → CBatchSeeker
  | .put key value =>
    { seekmap :=
        if needle ≤ key ∧ (stople = [] ∨ key ≤ stople) then seeker.seekmap.insert key value
        else seeker.seekmap
      erased := seeker.erased.erase key }
  | .delete key =>
    { seekmap := seeker.seekmap.erase key, erased := insert key seeker.erased }

def seekBatch (batch : List BatchOp) (needle stople : Bytes) : CBatchSeeker :=
  batch.foldl (CBatchSeeker.handle needle stople) {}

/-- The loop of `Range` over the entries on the disk from the lower bound on, merged with the
entries of the batch. -/
def rangeEntries (ssToKey : Bytes) (erased : Finset Bytes) :
    List (Bytes × Bytes) → List (Bytes × Bytes) → List (Bytes × Bytes)
  | [], seekmap => seekmap
  | entry :: iterator, seekmap =>
    if entry.1 ∈ erased then rangeEntries ssToKey erased iterator seekmap
    else if ssToKey < entry.1 then seekmap
    else
      let lower := seekmap.takeWhile fun e => e.1 ≤ entry.1
      let skipDValue := lower.any fun e => e.1 = entry.1
      lower ++ ((if skipDValue then [] else [entry]) ++
        rangeEntries ssToKey erased iterator (seekmap.dropWhile fun e => e.1 ≤ entry.1))

namespace LevelStore

section Model

variable {K T : Type} (db : LevelStore) (keyType : KeyType K) (valueType : StreamType T)

def seeker (needle stople : Bytes) : CBatchSeeker :=
  db.activeBatch.elim {} fun batch => seekBatch batch needle stople

def iterator (ssFromKey : Bytes) : List (Bytes × Bytes) :=
  db.disk.entries.dropWhile fun e => e.1 < ssFromKey

/-- `Seek`, `none` when it returns false. -/
def seek (fromkey : K) : Option (Bytes × Bytes) :=
  let ssFromKey := keyType.write fromkey
  let seeker := db.seeker ssFromKey []
  let inBatch := seeker.seekmap.entries.head?
  let onDisk := ((db.iterator ssFromKey).dropWhile fun e => e.1 ∈ seeker.erased).head?
  match inBatch, onDisk with
  | some b, none => some b
  | none, some d => some d
  | none, none => none
  | some b, some d => if b.1 ≤ d.1 then some b else some d

/-- Take entries from their streams, and return whether there are any. -/
def takeValues (entries : List (Bytes × Bytes)) : Option (Bool × List (K × T)) := do
  let values ← entries.mapM fun e => do
    let key ← keyType.read e.1
    let value ← valueType.read e.2
    some (key, value)
  some (!values.isEmpty, values)

/-- `Range`, `none` when reading a key or a value throws. -/
def range (fromkey tokey : K) : Option (Bool × List (K × T)) :=
  let ssFromKey := keyType.write fromkey
  let ssToKey := keyType.write tokey
  let seeker := db.seeker ssFromKey ssToKey
  takeValues keyType valueType
    (rangeEntries ssToKey seeker.erased (db.iterator ssFromKey) seeker.seekmap.entries)

def Decodes (e : Bytes × Bytes) (value : K × T) : Prop :=
  keyType.read e.1 = some value.1 ∧ valueType.read e.2 = some value.2

/-- The values are the entries of a store between two keys, each once and in the order of their
keys. -/
def ListsRange (store : SortedMap Bytes Bytes) (needle stople : Bytes) (values : List (K × T)) :
    Prop :=
  ∃ entries : List (Bytes × Bytes), entries.Pairwise (fun e e' => e.1 < e'.1) ∧
    (∀ key value, (key, value) ∈ entries ↔
      store.lookup key = some value ∧ needle ≤ key ∧ key ≤ stople) ∧
    List.Forall₂ (Decodes keyType valueType) entries values

end Model

end LevelStore

/-! ## Entries in order -/

section Entries

variable {l D S : List (Bytes × Bytes)} {e : Bytes × Bytes} {a b : Bytes} {erased : Finset Bytes}

abbrev InOrder (l : List (Bytes × Bytes)) : Prop := l.Pairwise fun e e' => e.1 < e'.1

theorem mem_dropWhile_lt (h : InOrder l) :
    e ∈ l.dropWhile (fun e => e.1 < a) ↔ e ∈ l ∧ a ≤ e.1 := by
  induction l with
  | nil => simp
  | cons x l ih =>
    obtain ⟨hx, hl⟩ := List.pairwise_cons.mp h
    by_cases hlt : x.1 < a
    · rw [List.dropWhile_cons_of_pos (by simpa using hlt), ih hl]
      grind
    · rw [List.dropWhile_cons_of_neg (by simpa using hlt)]
      grind

theorem mem_dropWhile_le (h : InOrder l) :
    e ∈ l.dropWhile (fun e => e.1 ≤ a) ↔ e ∈ l ∧ a < e.1 := by
  induction l with
  | nil => simp
  | cons x l ih =>
    obtain ⟨hx, hl⟩ := List.pairwise_cons.mp h
    by_cases hle : x.1 ≤ a
    · rw [List.dropWhile_cons_of_pos (by simpa using hle), ih hl]
      grind
    · rw [List.dropWhile_cons_of_neg (by simpa using hle)]
      grind

theorem mem_takeWhile_le (h : InOrder l) :
    e ∈ l.takeWhile (fun e => e.1 ≤ a) ↔ e ∈ l ∧ e.1 ≤ a := by
  induction l with
  | nil => simp
  | cons x l ih =>
    obtain ⟨hx, hl⟩ := List.pairwise_cons.mp h
    by_cases hle : x.1 ≤ a
    · rw [List.takeWhile_cons_of_pos (by simpa using hle), List.mem_cons, ih hl]
      grind
    · rw [List.takeWhile_cons_of_neg (by simpa using hle)]
      grind

/-- The merge has the entries of the batch, and those of the disk up to the bound that are not
erased and not written again. -/
theorem mem_rangeEntries (hD : InOrder D) (hS : InOrder S) :
    e ∈ rangeEntries a erased D S ↔
      e ∈ S ∨ (e ∈ D ∧ e.1 ∉ erased ∧ e.1 ≤ a ∧ ∀ e' ∈ S, e'.1 ≠ e.1) := by
  induction D generalizing S with
  | nil => simp [rangeEntries]
  | cons d D ih =>
    obtain ⟨hd, hD⟩ := List.pairwise_cons.mp hD
    rw [rangeEntries]
    split_ifs with herased hend
    · rw [ih hD hS]
      grind
    · constructor
      · exact .inl
      · rintro (hmem | ⟨hmem, -, hle, -⟩)
        · exact hmem
        · rcases List.mem_cons.mp hmem with rfl | hmem
          · exact absurd hend hle.not_gt
          · exact absurd (hend.trans (hd e hmem)) hle.not_gt
    · have hupper : InOrder (S.dropWhile fun e => e.1 ≤ d.1) :=
        hS.sublist (List.dropWhile_sublist _)
      have hskip : (S.takeWhile fun e => e.1 ≤ d.1).any (fun e => e.1 = d.1) = true ↔
          ∃ e' ∈ S, e'.1 = d.1 := by
        simp only [List.any_eq_true, mem_takeWhile_le hS, decide_eq_true_eq]
        grind
      simp only [List.mem_append, ih hD hupper, mem_takeWhile_le hS, mem_dropWhile_le hS]
      split_ifs with hin
      · obtain ⟨e', he', heq⟩ := hskip.mp hin
        grind
      · have hout : ∀ e' ∈ S, e'.1 ≠ d.1 := fun e' he' heq => hin (hskip.mpr ⟨e', he', heq⟩)
        grind

theorem inOrder_rangeEntries (hD : InOrder D) (hS : InOrder S) :
    InOrder (rangeEntries a erased D S) := by
  induction D generalizing S with
  | nil => exact hS
  | cons d D ih =>
    obtain ⟨hd, hD⟩ := List.pairwise_cons.mp hD
    rw [rangeEntries]
    split_ifs with herased hend
    · exact ih hD hS
    · exact hS
    · have hupper : InOrder (S.dropWhile fun e => e.1 ≤ d.1) :=
        hS.sublist (List.dropWhile_sublist _)
      have habove : ∀ e ∈ rangeEntries a erased D (S.dropWhile fun e => e.1 ≤ d.1),
          d.1 < e.1 := by
        intro e he
        rcases (mem_rangeEntries hD hupper).mp he with hmem | ⟨hmem, -⟩
        · exact ((mem_dropWhile_le hS).mp hmem).2
        · exact hd e hmem
      have hlower : ∀ e ∈ S.takeWhile fun e => e.1 ≤ d.1, e.1 ≤ d.1 := fun e he =>
        ((mem_takeWhile_le hS).mp he).2
      refine List.pairwise_append.mpr ⟨hS.sublist (List.takeWhile_sublist _), ?_, ?_⟩
      · split_ifs
        · exact ih hD hupper
        · exact List.pairwise_cons.mpr ⟨habove, ih hD hupper⟩
      · intro x hx y hy
        have hxd := hlower x hx
        rcases List.mem_append.mp hy with hy | hy
        · split_ifs at hy with hskip
          · cases hy
          · obtain rfl := List.mem_singleton.mp hy
            refine lt_of_le_of_ne hxd fun heq => hskip ?_
            exact List.any_eq_true.mpr ⟨x, hx, by simpa using heq⟩
        · exact hxd.trans_lt (habove y hy)

/-- The first entry that has a property comes before the others that have it. -/
theorem find?_inOrder {p : Bytes × Bytes → Bool} (h : InOrder l) :
    l.find? p = some e ↔ e ∈ l ∧ p e = true ∧ ∀ e' ∈ l, p e' = true → e.1 ≤ e'.1 := by
  induction l with
  | nil => simp
  | cons x l ih =>
    obtain ⟨hx, hl⟩ := List.pairwise_cons.mp h
    rw [List.find?_cons]
    cases hp : p x with
    | true => grind
    | false =>
      rw [ih hl]
      grind

theorem head?_dropWhile_eq_find? {p : Bytes × Bytes → Bool} :
    (l.dropWhile p).head? = l.find? fun e => !p e := by
  induction l with
  | nil => rfl
  | cons x l ih =>
    rw [List.find?_cons]
    cases hp : p x with
    | true => simpa [List.dropWhile_cons_of_pos hp] using ih
    | false => simp [hp]

end Entries

/-! ## The scan of the batch -/

section Batch

variable {batch : List BatchOp} {needle stople key value : Bytes}

theorem seekBatch_concat (op : BatchOp) : seekBatch (batch ++ [op]) needle stople =
    (seekBatch batch needle stople).handle needle stople op := by
  rw [seekBatch, List.foldl_append]
  rfl

/-- A key within the bounds has the value of its last write, if that is not an erase. -/
theorem lookup_seekBatch : (seekBatch batch needle stople).seekmap.lookup key =
    if needle ≤ key ∧ (stople = [] ∨ key ≤ stople) then (MapWrite.pending batch key).join
    else none := by
  induction batch using List.reverseRecOn with
  | nil => simp [seekBatch]
  | append_singleton batch op ih =>
    rw [seekBatch_concat]
    cases op with
    | put k v =>
      rw [MapWrite.pending_concat_put]
      simp only [CBatchSeeker.handle]
      by_cases hk : k = key
      · subst hk
        by_cases hbounds : needle ≤ k ∧ (stople = [] ∨ k ≤ stople)
        · simp [hbounds]
        · simp only [if_neg hbounds] at ih ⊢
          exact ih
      · rw [if_neg hk, ← ih]
        split_ifs
        · rw [SortedMap.lookup_insert, if_neg (Ne.symm hk)]
        · rfl
    | delete k =>
      rw [MapWrite.pending_concat_delete]
      simp only [CBatchSeeker.handle, SortedMap.lookup_erase, ih]
      by_cases hk : k = key
      · simp [hk]
      · rw [if_neg hk, if_neg (Ne.symm hk)]

theorem mem_erased_seekBatch : key ∈ (seekBatch batch needle stople).erased ↔
    MapWrite.pending batch key = some none := by
  induction batch using List.reverseRecOn with
  | nil => simp [seekBatch]
  | append_singleton batch op ih =>
    rw [seekBatch_concat]
    cases op with
    | put k v =>
      rw [MapWrite.pending_concat_put]
      simp only [CBatchSeeker.handle, Finset.mem_erase, ih]
      grind
    | delete k =>
      rw [MapWrite.pending_concat_delete]
      simp only [CBatchSeeker.handle, Finset.mem_insert, ih]
      grind

end Batch

namespace LevelStore

section Merge

variable {K T : Type} {disk : SortedMap Bytes Bytes} {batch : List BatchOp}
  {keyType : KeyType K} {valueType : StreamType T} {e : Bytes × Bytes} {needle stople : Bytes}

def committed (disk : SortedMap Bytes Bytes) (batch : List BatchOp) : SortedMap Bytes Bytes :=
  batch.foldl MapWrite.apply disk

theorem mem_committed : e ∈ (committed disk batch).entries ↔
    MapWrite.pending batch e.1 = some (some e.2) ∨
      (MapWrite.pending batch e.1 = none ∧ e ∈ disk.entries) := by
  have hdisk : disk.lookup e.1 = some e.2 ↔ e ∈ disk.entries := SortedMap.lookup_eq_some_iff
  rw [← hdisk, ← Prod.mk.eta (p := e), ← SortedMap.lookup_eq_some_iff, committed,
    MapWrite.lookup_foldl_apply]
  cases MapWrite.pending batch e.1 with
  | none => simp
  | some result => simp

theorem mem_seekmap : e ∈ (seekBatch batch needle stople).seekmap.entries ↔
    (needle ≤ e.1 ∧ (stople = [] ∨ e.1 ≤ stople)) ∧
      MapWrite.pending batch e.1 = some (some e.2) := by
  rw [← Prod.mk.eta (p := e), ← SortedMap.lookup_eq_some_iff, lookup_seekBatch]
  split_ifs with hbounds
  · simp [hbounds, Option.join_eq_some_iff]
  · simp [hbounds]

theorem mem_iterator {db : LevelStore} : e ∈ db.iterator needle ↔
    e ∈ db.disk.entries ∧ needle ≤ e.1 := mem_dropWhile_lt db.disk.pairwise_entries

theorem inOrder_iterator {db : LevelStore} : InOrder (db.iterator needle) :=
  db.disk.pairwise_entries.sublist (List.dropWhile_sublist _)

def afterCommit (db : LevelStore) : SortedMap Bytes Bytes :=
  committed db.disk (db.activeBatch.getD [])

theorem seeker_eq {db : LevelStore} :
    db.seeker needle stople = seekBatch (db.activeBatch.getD []) needle stople := by
  unfold seeker
  cases db.activeBatch <;> rfl

/-- An entry after the commit is one of the batch, or one of the disk that the batch leaves. -/
theorem mem_afterCommit {db : LevelStore} (hneedle : needle ≤ e.1) :
    e ∈ db.afterCommit.entries ↔ e ∈ (db.seeker needle []).seekmap.entries ∨
      (MapWrite.pending (db.activeBatch.getD []) e.1 = none ∧ e ∈ db.iterator needle) := by
  rw [afterCommit, mem_committed, seeker_eq, mem_seekmap, mem_iterator]
  simp [hneedle]

/-- `Seek` finds the first entry from the key on. -/
theorem seek_eq_find {db : LevelStore} {fromkey : K} : db.seek keyType fromkey =
    db.afterCommit.entries.find? fun e => keyType.write fromkey ≤ e.1 := by
  set a := keyType.write fromkey with ha
  set S := (db.seeker a []).seekmap.entries with hS
  set D := db.iterator a with hD
  have hbatch : ∀ e, e ∈ S ↔
      a ≤ e.1 ∧ MapWrite.pending (db.activeBatch.getD []) e.1 = some (some e.2) := fun e => by
    rw [hS, seeker_eq, mem_seekmap]
    simp
  have herased : ∀ k, k ∈ (db.seeker a []).erased ↔
      MapWrite.pending (db.activeBatch.getD []) k = some none := fun k => by
    rw [seeker_eq, mem_erased_seekBatch]
  have hmerged : ∀ e, a ≤ e.1 → (e ∈ db.afterCommit.entries ↔
      e ∈ S ∨ (MapWrite.pending (db.activeBatch.getD []) e.1 = none ∧ e ∈ D)) :=
    fun e he => mem_afterCommit he
  have hhead : S.head? = S.find? fun _ => true := by cases S <;> simp
  have hSorder : InOrder S := SortedMap.pairwise_entries _
  have hDorder : InOrder D := inOrder_iterator
  -- An entry of either source that comes before both of them is the one that is found.
  have hmin {x : Bytes × Bytes} (hx : x ∈ db.afterCommit.entries) (hle : a ≤ x.1)
      (hSx : ∀ e ∈ S, x.1 ≤ e.1)
      (hDx : ∀ e ∈ D, MapWrite.pending (db.activeBatch.getD []) e.1 = none → x.1 ≤ e.1) :
      some x = db.afterCommit.entries.find? fun e => a ≤ e.1 := by
    refine ((find?_inOrder db.afterCommit.pairwise_entries).mpr ⟨hx, by simpa using hle, ?_⟩).symm
    intro e he hefrom
    rcases (hmerged e (by simpa using hefrom)).mp he with hmem | ⟨hnone, hmem⟩
    · exact hSx e hmem
    · exact hDx e hmem hnone
  unfold seek
  dsimp only
  rw [← ha, ← hS, ← hD, head?_dropWhile_eq_find?, hhead]
  cases hb : S.find? fun _ => true with
  | none =>
    have hSnil : ∀ e, e ∉ S := fun e he => by simpa using List.find?_eq_none.mp hb e he
    cases hd : D.find? fun e => !decide (e.1 ∈ (db.seeker a []).erased) with
    | none =>
      refine (List.find?_eq_none.mpr fun e he hefrom => ?_).symm
      rcases (hmerged e (by simpa using hefrom)).mp he with hmem | ⟨hnone, hmem⟩
      · exact hSnil e hmem
      · have hout := List.find?_eq_none.mp hd e hmem
        simp [herased, hnone] at hout
    | some d =>
      obtain ⟨hmem, hkept, hfirst⟩ := (find?_inOrder hDorder).mp hd
      simp only [Bool.not_eq_true', decide_eq_false_iff_not, herased] at hkept hfirst
      have had : a ≤ d.1 := (mem_iterator.mp hmem).2
      have hnone : MapWrite.pending (db.activeBatch.getD []) d.1 = none := by
        rcases hpending : MapWrite.pending (db.activeBatch.getD []) d.1 with - | - | v
        · rfl
        · exact absurd hpending hkept
        · exact absurd ((hbatch (d.1, v)).mpr ⟨had, hpending⟩) (hSnil _)
      refine hmin ((hmerged d had).mpr (.inr ⟨hnone, hmem⟩)) had
        (fun e he => absurd he (hSnil e)) fun e he hne => hfirst e he ?_
      rw [hne]
      simp
  | some b =>
    obtain ⟨hbmem, -, hbfirst⟩ := (find?_inOrder hSorder).mp hb
    have hab : a ≤ b.1 := ((hbatch b).mp hbmem).1
    have hbmerged := (hmerged b hab).mpr (.inl hbmem)
    cases hd : D.find? fun e => !decide (e.1 ∈ (db.seeker a []).erased) with
    | none =>
      refine hmin hbmerged hab (fun e he => hbfirst e he rfl) fun e he hnone => ?_
      have hout := List.find?_eq_none.mp hd e he
      simp [herased, hnone] at hout
    | some d =>
      obtain ⟨hmem, hkept, hfirst⟩ := (find?_inOrder hDorder).mp hd
      simp only [Bool.not_eq_true', decide_eq_false_iff_not, herased] at hkept hfirst
      have had : a ≤ d.1 := (mem_iterator.mp hmem).2
      have hdfirst : ∀ e ∈ D, MapWrite.pending (db.activeBatch.getD []) e.1 = none →
          d.1 ≤ e.1 := fun e he hnone => hfirst e he (by simp [hnone])
      dsimp only
      split_ifs with hbd
      · exact hmin hbmerged hab (fun e he => hbfirst e he rfl)
          fun e he hnone => hbd.trans (hdfirst e he hnone)
      · have hdb : d.1 < b.1 := not_le.mp hbd
        have hnone : MapWrite.pending (db.activeBatch.getD []) d.1 = none := by
          rcases hpending : MapWrite.pending (db.activeBatch.getD []) d.1 with - | - | v
          · rfl
          · exact absurd hpending hkept
          · exact absurd (hbfirst (d.1, v) ((hbatch (d.1, v)).mpr ⟨had, hpending⟩) rfl)
              hdb.not_ge
        exact hmin ((hmerged d had).mpr (.inr ⟨hnone, hmem⟩)) had
          (fun e he => hdb.le.trans (hbfirst e he rfl)) hdfirst

/-- `Range` takes the entries between the keys. -/
theorem range_eq_filter {db : LevelStore} {fromkey tokey : K} :
    db.range keyType valueType fromkey tokey = takeValues keyType valueType
      (db.afterCommit.entries.filter fun e =>
        keyType.write fromkey ≤ e.1 ∧ e.1 ≤ keyType.write tokey) := by
  have hS : InOrder (db.seeker (keyType.write fromkey) (keyType.write tokey)).seekmap.entries :=
    SortedMap.pairwise_entries _
  have hD : InOrder (db.iterator (keyType.write fromkey)) := inOrder_iterator
  have hentries : rangeEntries (keyType.write tokey)
      (db.seeker (keyType.write fromkey) (keyType.write tokey)).erased
      (db.iterator (keyType.write fromkey))
      (db.seeker (keyType.write fromkey) (keyType.write tokey)).seekmap.entries =
      db.afterCommit.entries.filter fun e =>
        keyType.write fromkey ≤ e.1 ∧ e.1 ≤ keyType.write tokey := by
    refine SortedMap.eq_of_pairwise_lt (inOrder_rangeEntries hD hS)
      (db.afterCommit.pairwise_entries.filter _) fun e => ?_
    rw [mem_rangeEntries hD hS, seeker_eq, mem_seekmap, mem_erased_seekBatch, mem_iterator,
      List.mem_filter, afterCommit, mem_committed]
    have hin : ∀ e', e' ∈ (seekBatch (db.activeBatch.getD []) (keyType.write fromkey)
        (keyType.write tokey)).seekmap.entries ↔ (keyType.write fromkey ≤ e'.1 ∧
          e'.1 ≤ keyType.write tokey) ∧
          MapWrite.pending (db.activeBatch.getD []) e'.1 = some (some e'.2) := fun e' => by
      rw [mem_seekmap]
      simp [keyType.write_ne tokey]
    have hpending : (∀ e' ∈ (seekBatch (db.activeBatch.getD []) (keyType.write fromkey)
        (keyType.write tokey)).seekmap.entries, e'.1 ≠ e.1) ↔
          ((keyType.write fromkey ≤ e.1 ∧ e.1 ≤ keyType.write tokey) →
            ∀ v, MapWrite.pending (db.activeBatch.getD []) e.1 ≠ some (some v)) := by
      constructor
      · exact fun h hbounds v hv => h (e.1, v) ((hin _).mpr ⟨hbounds, hv⟩) rfl
      · rintro h e' he' heq
        obtain ⟨hbounds, hv⟩ := (hin e').mp he'
        rw [heq] at hbounds hv
        exact h hbounds e'.2 hv
    rw [hpending]
    simp only [keyType.write_ne tokey, false_or, decide_eq_true_eq]
    rcases MapWrite.pending (db.activeBatch.getD []) e.1 with - | - | v <;> grind
  unfold range
  dsimp only
  rw [hentries]

theorem mapM_eq_some {l : List (Bytes × Bytes)} {values : List (K × T)} :
    (l.mapM fun e => do
      let key ← keyType.read e.1
      let value ← valueType.read e.2
      some (key, value)) = some values ↔
      List.Forall₂ (Decodes keyType valueType) l values := by
  induction l generalizing values with
  | nil => simp [eq_comm]
  | cons e l ih =>
    rw [List.mapM_cons, List.forall₂_cons_left_iff]
    simp only [Option.bind_eq_bind, Option.bind_eq_some_iff, Option.pure_def, Option.some.injEq,
      Decodes]
    constructor
    · rintro ⟨kv, ⟨key, hkey, value, hvalue, rfl⟩, rest, hrest, rfl⟩
      exact ⟨(key, value), rest, ⟨hkey, hvalue⟩, ih.mp hrest, rfl⟩
    · rintro ⟨kv, rest, ⟨hkey, hvalue⟩, hrest, rfl⟩
      exact ⟨kv, ⟨kv.1, hkey, kv.2, hvalue, rfl⟩, rest, ih.mpr hrest, rfl⟩

theorem takeValues_eq_some {l : List (Bytes × Bytes)} {values : List (K × T)} {found : Bool} :
    takeValues keyType valueType l = some (found, values) ↔
      List.Forall₂ (Decodes keyType valueType) l values ∧
        (found = true ↔ values ≠ []) := by
  have hfound : (!values.isEmpty) = found ↔ (found = true ↔ values ≠ []) := by
    cases found <;> simp
  rw [← mapM_eq_some, ← hfound, takeValues, Option.bind_eq_bind, Option.bind_eq_some_iff]
  constructor
  · rintro ⟨values', hvalues, hsome⟩
    obtain ⟨rfl, rfl⟩ := Prod.mk.inj (Option.some.inj hsome)
    exact ⟨hvalues, rfl⟩
  · rintro ⟨hvalues, rfl⟩
    exact ⟨values, hvalues, rfl⟩

/-- Only one list has the entries between two keys in their order. -/
theorem listsRange_iff {store : SortedMap Bytes Bytes} {needle stople : Bytes}
    {values : List (K × T)} :
    ListsRange keyType valueType store needle stople values ↔
      List.Forall₂ (Decodes keyType valueType)
        (store.entries.filter fun e => needle ≤ e.1 ∧ e.1 ≤ stople) values := by
  have horder : InOrder (store.entries.filter fun e => needle ≤ e.1 ∧ e.1 ≤ stople) :=
    store.pairwise_entries.filter _
  have hmem : ∀ key value, (key, value) ∈ store.entries.filter
      (fun e => needle ≤ e.1 ∧ e.1 ≤ stople) ↔
        store.lookup key = some value ∧ needle ≤ key ∧ key ≤ stople := fun key value => by
    rw [List.mem_filter, SortedMap.lookup_eq_some_iff]
    simp
  constructor
  · rintro ⟨entries, hentries, hall, hdecodes⟩
    have hsame := SortedMap.eq_of_pairwise_lt hentries horder fun e =>
      (hall e.1 e.2).trans (hmem e.1 e.2).symm
    rwa [← hsame]
  · intro hdecodes
    exact ⟨_, horder, hmem, hdecodes⟩

/-- `Range` lists the entries of the store after the commit. -/
theorem range_eq_some {db : LevelStore} {fromkey tokey : K} {found : Bool}
    {values : List (K × T)} :
    db.range keyType valueType fromkey tokey = some (found, values) ↔
      ListsRange keyType valueType db.afterCommit (keyType.write fromkey)
        (keyType.write tokey) values ∧ (found = true ↔ values ≠ []) := by
  rw [range_eq_filter, takeValues_eq_some, listsRange_iff]

/-- In an active transaction `Seek` returns the entry with the smallest key from the given one
on, and `Range` the entries between two keys in their order and whether there are any, of the
batch applied over the disk. They return the same after the commit. -/
theorem seek_range_committed (keyType : KeyType K) (valueType : StreamType T)
    (disk : SortedMap Bytes Bytes) (batch : List BatchOp) (fromkey tokey : K) :
    ∃ db', txnCommit ⟨disk, some batch⟩ = some db' ∧ db'.disk = committed disk batch ∧
      (∀ key value, seek ⟨disk, some batch⟩ keyType fromkey = some (key, value) ↔
        (committed disk batch).lookup key = some value ∧ keyType.write fromkey ≤ key ∧
          ∀ key', (committed disk batch).lookup key' ≠ none → keyType.write fromkey ≤ key' →
            key ≤ key') ∧
      db'.seek keyType fromkey = seek ⟨disk, some batch⟩ keyType fromkey ∧
      (∀ found values,
        range ⟨disk, some batch⟩ keyType valueType fromkey tokey = some (found, values) ↔
          ListsRange keyType valueType (committed disk batch) (keyType.write fromkey)
            (keyType.write tokey) values ∧ (found = true ↔ values ≠ [])) ∧
      db'.range keyType valueType fromkey tokey =
        range ⟨disk, some batch⟩ keyType valueType fromkey tokey := by
  refine ⟨{ disk := committed disk batch }, rfl, rfl, fun key value => ?_, ?_,
    fun found values => range_eq_some, ?_⟩
  · rw [seek_eq_find, SortedMap.lookup_eq_some_iff]
    have hfirst := find?_inOrder (e := (key, value)) (p := fun e => keyType.write fromkey ≤ e.1)
      (committed disk batch).pairwise_entries
    simp only [decide_eq_true_eq] at hfirst
    refine hfirst.trans (and_congr_right fun _ => and_congr_right fun _ => ⟨?_, ?_⟩)
    · intro h key' hkey' hle
      obtain ⟨value', hvalue'⟩ := Option.ne_none_iff_exists'.mp hkey'
      exact h (key', value') (SortedMap.lookup_eq_some_iff.mp hvalue') hle
    · intro h e he hle
      refine h e.1 ?_ hle
      rw [SortedMap.lookup_eq_some_iff.mpr he]
      exact Option.some_ne_none _
  · rw [seek_eq_find, seek_eq_find]
    rfl
  · rw [range_eq_filter, range_eq_filter]
    rfl

end Merge

def sampleDisk : SortedMap Bytes Bytes :=
  (SortedMap.empty.insert (stringType.write [0x61]) (stringType.write [1])).insert
    (stringType.write [0x63]) (stringType.write [3])

def sampleBatch : List BatchOp :=
  [.put (stringType.write [0x62]) (stringType.write [2]), .delete (stringType.write [0x63]),
    .put (stringType.write [0x7a]) (stringType.write [9])]

theorem sampleBatch_committed : (committed sampleDisk sampleBatch).entries =
    [(stringType.write [0x61], stringType.write [1]),
      (stringType.write [0x62], stringType.write [2]),
      (stringType.write [0x7a], stringType.write [9])] := by decide

/-- From the first to the erased key there are the first key and the one that is written between
them, and the first key is found from itself on. -/
theorem sampleBatch_range :
    range ⟨sampleDisk, some sampleBatch⟩ stringKey stringType [0x61] [0x63] =
        some (true, [([0x61], [1]), ([0x62], [2])]) ∧
      seek ⟨sampleDisk, some sampleBatch⟩ stringKey [0x61] =
        some (stringType.write [0x61], stringType.write [1]) := by
  obtain ⟨-, -, -, hseek, -, hrange, -⟩ :=
    seek_range_committed stringKey stringType sampleDisk sampleBatch [0x61] [0x63]
  constructor
  · refine (hrange true [([0x61], [1]), ([0x62], [2])]).mpr ⟨listsRange_iff.mpr ?_, by simp⟩
    have hfilter : (committed sampleDisk sampleBatch).entries.filter (fun e =>
        stringKey.write [0x61] ≤ e.1 ∧ e.1 ≤ stringKey.write [0x63]) =
          [(stringType.write [0x61], stringType.write [1]),
            (stringType.write [0x62], stringType.write [2])] := by
      rw [sampleBatch_committed]
      decide
    rw [hfilter]
    exact .cons ⟨by decide, by decide⟩ (.cons ⟨by decide, by decide⟩ .nil)
  · refine (hseek (stringType.write [0x61]) (stringType.write [1])).mpr
      ⟨by decide, by decide, fun key hkey hle => hle⟩

end LevelStore

end BitBay
