import BitBay.Base.Base64
import BitBay.Governance.Store

/-!
# The list of merkles

The accepted merkles of a branch are a linked list in the peg database. A node stands under the
hash of the node before it and of its key, and holds its index, its key and that hash; the data
and the block of an item stand under the hash of the key alone. The list is walked from its last
node back to the empty hash, under which nothing stands.
-/
namespace BitBay

open Codec (MAX_SIZE)

/-! ## Items -/

section Model

variable (Hash : CString → UInt256) (map_id : CString)

def refKey (hash : UInt256) : CString := "intervalStateDataRef_".toList ++ getHex hash

def blockKey (hash : UInt256) : CString := "intervalStateDataKey_".toList ++ getHex hash

def itemKey (hash : UInt256) : CString := "intervalStateDataItem_".toList ++ getHex hash

/-- The stream of a node: the node before it and its key. -/
def nodeStream (map_end : UInt256) (map_item_key : List UInt8) : CString :=
  streamHash map_end ++ streamString (CScript.toCString map_item_key)

def itemStream (map_item_key : List UInt8) : CString :=
  streamString map_id ++ streamString (CScript.toCString map_item_key)

def refText (index : ℤ) (map_item_key : List UInt8) (map_end : UInt256) : CString :=
  CString.ofInt index ++ ':' :: (encodeBase64 map_item_key ++ ':' :: getHex map_end)

structure MapItem where
  block_hash : UInt256
  map_item_key : List UInt8
  map_item_data : CString

/-- The index of the node that a new one is appended to, an `int`. -/
def lastIndex (db : PegDB) (map_end : UInt256) : ℤ :=
  match db.read (refKey map_end) with
  | none => -1
  | some prev_data =>
    let prev_datas := CString.split ':' prev_data
    if prev_datas.length = 3 then CString.atoi (prev_datas.headD []) else -1

def appendCycleStateMapItem1 (db : PegDB) (map_end : UInt256) (item : MapItem) :
    PegDB × UInt256 :=
  let written_hash := Hash (nodeStream map_end item.map_item_key)
  let item_hash := Hash (itemStream map_id item.map_item_key)
  let datas_txt := refText ((lastIndex db map_end + 1).bmod (2 ^ 32)) item.map_item_key map_end
  (((db.write (refKey written_hash) datas_txt).write (blockKey item_hash)
    (getHex item.block_hash)).write (itemKey item_hash) item.map_item_data, written_hash)

def readMapItemBlockHash1 (db : PegDB) (map_item_key : List UInt8) : Option UInt256 :=
  (db.read (blockKey (Hash (itemStream map_id map_item_key)))).map setHex

def readMapItemData1 (db : PegDB) (map_item_key : List UInt8) : Option CString :=
  db.read (itemKey (Hash (itemStream map_id map_item_key)))

structure MapNode where
  map_item_index : ℤ
  map_item_key : List UInt8
  map_prev_shash : UInt256
  map_item_data : CString

def readMapItem1 (db : PegDB) (map_item_shash : UInt256) : Option MapNode := do
  let item_data ← db.read (refKey map_item_shash)
  let item_datas := CString.split ':' item_data
  if item_datas.length ≠ 3 then none
  else
    let map_item_key := decodeBase64 (item_datas.getD 1 [])
    let map_item_data ← readMapItemData1 Hash map_id db map_item_key
    return {
      map_item_index := CString.atoi (item_datas.headD [])
      map_item_key, map_item_data
      map_prev_shash := setHex (item_datas.getLastD []) }

def appendAll (db : PegDB) (map_end : UInt256) (items : List MapItem) : PegDB × UInt256 :=
  items.foldl (fun st item => appendCycleStateMapItem1 Hash map_id st.1 st.2 item) (db, map_end)

/-- The nodes that are read on the way back from a hash, up to one that is not there. -/
inductive Walk (db : PegDB) : UInt256 → List (ℤ × List UInt8 × CString) → Prop
  | stop {shash : UInt256} (h : readMapItem1 Hash map_id db shash = none) : Walk db shash []
  | node {shash : UInt256} {node : MapNode} {rest : List (ℤ × List UInt8 × CString)}
      (h : readMapItem1 Hash map_id db shash = some node) (hrest : Walk db node.map_prev_shash rest) :
      Walk db shash ((node.map_item_index, node.map_item_key, node.map_item_data) :: rest)

def hashAfter (items : List MapItem) : UInt256 :=
  items.foldl (fun map_end item => Hash (nodeStream map_end item.map_item_key)) 0

/-- The rows of the list: an index, a key and data for every item. -/
def mapRows (items : List MapItem) : List (ℤ × List UInt8 × CString) :=
  items.zipIdx.map fun it => ((it.2 : ℤ), it.1.map_item_key, it.1.map_item_data)

end Model

/-! ## Merkles -/

structure MerkleInfo where
  hash : List UInt8 := []
  bridge : List UInt8 := []
  brhash : List UInt8 := []
  amount : Int64 := 0
  ntime : UInt32 := 0

namespace MerkleInfo

def serialize (m : MerkleInfo) : CString :=
  encodeBase64 (CString.toBytes (CString.join ':' [encodeBase64 m.hash, encodeBase64 m.bridge,
    encodeBase64 m.brhash, CString.ofInt m.amount.toInt, CString.ofInt m.ntime.toNat]))

def ofData (data : CString) : MerkleInfo :=
  match CString.split ':' (CScript.toCString (decodeBase64 data)) with
  | [hash, bridge, brhash, amount, ntime] =>
    { hash := decodeBase64 hash
      bridge := decodeBase64 bridge
      brhash := decodeBase64 brhash
      amount := Int64.ofInt (CString.strtoll amount)
      ntime := UInt32.ofNat (CString.strtoll ntime % 2 ^ 32).toNat }
  | _ => {}

end MerkleInfo

/-! ## Characters -/

variable {c : Char} {b : List UInt8}

theorem mem_encodeBase64 (h : c ∈ encodeBase64 b) : c ∈ '=' :: pbase64 := by
  have hdigit : ∀ n, base64Digit n ∈ '=' :: pbase64 := by
    intro n
    rw [base64Digit, List.getD_eq_getElem?_getD]
    cases hn : pbase64[n]? with
    | none => exact List.mem_cons_self
    | some d => exact List.mem_cons_of_mem _ (List.mem_of_getElem? hn)
  have hpad : '=' ∈ '=' :: pbase64 := List.mem_cons_self
  suffices hloop : ∀ (l : List UInt8) (mode left : ℕ), c ∈ encodeBase64From mode left l →
      c ∈ '=' :: pbase64 from hloop b 0 0 h
  intro l
  induction l with
  | nil =>
    intro mode left h
    unfold encodeBase64From at h
    split at h <;> grind
  | cons x rest ih =>
    intro mode left h
    unfold encodeBase64From at h
    split at h <;> grind

theorem base64_chars : ∀ c ∈ '=' :: pbase64, c ≠ ':' ∧ c.toNat < 256 := by
  have hall : ('=' :: pbase64).all (fun c => c ≠ ':' ∧ c.toNat < 256) = true := by decide
  exact fun c hc => of_decide_eq_true (List.all_eq_true.mp hall c hc)

theorem ne_colon_of_isNumeric (h : CString.IsNumeric c) : c ≠ ':' ∧ c.toNat < 256 := by
  rcases h with rfl | h
  · decide
  · refine ⟨?_, by omega⟩
    rintro rfl
    exact absurd h.2 (by decide)

theorem base64_ne_colon (h : c ∈ encodeBase64 b) : c ≠ ':' ∧ c.toNat < 256 :=
  base64_chars c (mem_encodeBase64 h)

theorem getHex_ne_colon {hash : UInt256} : ':' ∉ getHex hash := by
  intro h
  obtain ⟨a, ha, heq⟩ := mem_getHex h
  exact hexChar_ne_colon a ha heq.symm

theorem join_singleton (sep : Char) (s : CString) : CString.join sep [s] = s := by
  simp [CString.join]

/-- The three fields of a node. -/
theorem split_refText (index : ℤ) (map_end : UInt256) :
    CString.split ':' (refText index b map_end) =
      [CString.ofInt index, encodeBase64 b, getHex map_end] := by
  have hjoin : refText index b map_end =
      CString.join ':' [CString.ofInt index, encodeBase64 b, getHex map_end] := by
    rw [CString.join_cons _ _ (List.cons_ne_nil _ _), CString.join_cons _ _ (List.cons_ne_nil _ _),
      join_singleton]
    rfl
  rw [hjoin, CString.split_join_eq_iff (List.cons_ne_nil _ _)]
  intro s hs
  simp only [List.mem_cons, List.not_mem_nil, or_false] at hs
  rcases hs with rfl | rfl | rfl
  · exact fun h => (ne_colon_of_isNumeric (CString.isNumeric_of_mem_ofInt h)).1 rfl
  · exact fun h => (base64_ne_colon h).1 rfl
  · exact getHex_ne_colon

/-- A merkle is read back from its text. -/
theorem MerkleInfo.ofData_serialize (m : MerkleInfo) : MerkleInfo.ofData m.serialize = m := by
  obtain ⟨hash, bridge, brhash, amount, ntime⟩ := m
  have hfields : ∀ s ∈ [encodeBase64 hash, encodeBase64 bridge, encodeBase64 brhash,
      CString.ofInt amount.toInt, CString.ofInt ntime.toNat], ∀ c ∈ s, c ≠ ':' ∧ c.toNat < 256 := by
    intro s hs c hc
    simp only [List.mem_cons, List.not_mem_nil, or_false] at hs
    rcases hs with rfl | rfl | rfl | rfl | rfl
    · exact base64_ne_colon hc
    · exact base64_ne_colon hc
    · exact base64_ne_colon hc
    · exact ne_colon_of_isNumeric (CString.isNumeric_of_mem_ofInt hc)
    · exact ne_colon_of_isNumeric (CString.isNumeric_of_mem_ofInt hc)
  have hbytes : ∀ c ∈ CString.join ':' [encodeBase64 hash, encodeBase64 bridge, encodeBase64 brhash,
      CString.ofInt amount.toInt, CString.ofInt ntime.toNat], c.toNat < 256 := by
    intro c hc
    rcases CString.mem_join hc with rfl | ⟨s, hs, hcs⟩
    · decide
    · exact (hfields s hs c hcs).2
  have hsplit := (@CString.split_join_eq_iff ':' _ (List.cons_ne_nil _ _)).mpr
    fun s hs hmem => (hfields s hs ':' hmem).1 rfl
  have hntime := ntime.toNat_lt
  have hlow := amount.le_toInt
  have hhigh := amount.toInt_lt
  simp only [ofData, serialize, decodeBase64_encodeBase64]
  rw [toCString_toBytes hbytes, hsplit]
  simp only [decodeBase64_encodeBase64, CString.strtoll_ofInt hlow hhigh,
    CString.strtoll_ofInt (n := ntime.toNat) (by omega) (by omega), Int64.ofInt_toInt]
  have hmod : ((ntime.toNat : ℤ) % 2 ^ 32).toNat = ntime.toNat := by omega
  rw [hmod, UInt32.ofNat_toNat]

/-! ## Keys -/

section Keys

variable {hash hash' : UInt256}

theorem append_ne_append {p q x y : CString} (n : ℕ) (hp : n ≤ p.length) (hq : n ≤ q.length)
    (h : p.take n ≠ q.take n) : p ++ x ≠ q ++ y := by
  intro heq
  have htake := congrArg (List.take n) heq
  rw [List.take_append_of_le_length hp, List.take_append_of_le_length hq] at htake
  exact h htake

/-- The three kinds of records have keys of their own. -/
theorem refKey_ne_blockKey : refKey hash ≠ blockKey hash' :=
  append_ne_append 18 (by decide) (by decide) (by decide)

theorem refKey_ne_itemKey : refKey hash ≠ itemKey hash' :=
  append_ne_append 18 (by decide) (by decide) (by decide)

theorem blockKey_ne_itemKey : blockKey hash ≠ itemKey hash' :=
  append_ne_append 18 (by decide) (by decide) (by decide)

theorem refKey_injective : Function.Injective refKey :=
  fun _ _ h => getHex_injective (List.append_cancel_left h)

theorem blockKey_injective : Function.Injective blockKey :=
  fun _ _ h => getHex_injective (List.append_cancel_left h)

theorem itemKey_injective : Function.Injective itemKey :=
  fun _ _ h => getHex_injective (List.append_cancel_left h)

end Keys

/-! ## The log -/

section Log

variable {Hash : CString → UInt256} {map_id : CString} {items : List MapItem} {item : MapItem}
  {db : PegDB}

def nodeStreams (Hash : CString → UInt256) (items : List MapItem) : Set CString :=
  {s | ∃ before item after, items = before ++ item :: after ∧
    s = nodeStream (hashAfter Hash before) item.map_item_key}

def itemStreams (map_id : CString) (items : List MapItem) : Set CString :=
  {s | ∃ item ∈ items, s = itemStream map_id item.map_item_key}

/-- Items with different keys whose hashes do not collide, with each other or with the empty
hash. Their texts can be read, and an `int` can count them. -/
structure Loggable (Hash : CString → UInt256) (map_id : CString) (items : List MapItem) : Prop where
  keys : (items.map (·.map_item_key)).Nodup
  nodes : Set.InjOn Hash (nodeStreams Hash items)
  nonzero : ∀ s ∈ nodeStreams Hash items, Hash s ≠ 0
  streams : Set.InjOn Hash (itemStreams map_id items)
  texts : ∀ before item after, items = before ++ item :: after →
    (refText before.length item.map_item_key (hashAfter Hash before)).length ≤ MAX_SIZE
  data : ∀ item ∈ items, item.map_item_data.length ≤ MAX_SIZE
  count : items.length ≤ 2 ^ 31

structure Stored (Hash : CString → UInt256) (map_id : CString) (db : PegDB)
    (items : List MapItem) : Prop where
  stop : db.read (refKey 0) = none
  node : ∀ before item after, items = before ++ item :: after →
    db.read (refKey (hashAfter Hash (before ++ [item]))) =
      some (refText before.length item.map_item_key (hashAfter Hash before))
  block : ∀ item ∈ items, db.read (blockKey (Hash (itemStream map_id item.map_item_key))) =
    some (getHex item.block_hash)
  data : ∀ item ∈ items, db.read (itemKey (Hash (itemStream map_id item.map_item_key))) =
    some item.map_item_data

theorem hashAfter_append (before : List MapItem) (item : MapItem) :
    hashAfter Hash (before ++ [item]) = Hash (nodeStream (hashAfter Hash before) item.map_item_key) := by
  rw [hashAfter, List.foldl_append]
  rfl

theorem Loggable.init (h : Loggable Hash map_id (items ++ [item])) :
    Loggable Hash map_id items := by
  have hsub : nodeStreams Hash items ⊆ nodeStreams Hash (items ++ [item]) := by
    rintro _ ⟨before, it, after, rfl, rfl⟩
    exact ⟨before, it, after ++ [item], by simp, rfl⟩
  have hsub' : itemStreams map_id items ⊆ itemStreams map_id (items ++ [item]) := by
    rintro _ ⟨it, hit, rfl⟩
    exact ⟨it, List.mem_append_left _ hit, rfl⟩
  have hcount := h.count
  rw [List.length_append, List.length_singleton] at hcount
  exact {
    keys := (List.map_append ▸ h.keys).of_append_left
    nodes := h.nodes.mono hsub
    nonzero := fun s hs => h.nonzero s (hsub hs)
    streams := h.streams.mono hsub'
    texts := fun before it after heq => h.texts before it (after ++ [item]) (by simp [heq])
    data := fun it hit => h.data it (List.mem_append_left _ hit)
    count := by omega }

theorem length_le_encodeBase64 (b : List UInt8) : b.length ≤ (encodeBase64 b).length := by
  suffices hloop : ∀ (l : List UInt8) (mode left : ℕ),
      l.length ≤ (encodeBase64From mode left l).length from hloop b 0 0
  intro l
  induction l with
  | nil => exact fun _ _ => Nat.zero_le _
  | cons x rest ih =>
    intro mode left
    unfold encodeBase64From
    split <;> grind

theorem Loggable.key_length (h : Loggable Hash map_id items) (hitem : item ∈ items) :
    (CScript.toCString item.map_item_key).length < 2 ^ 64 := by
  obtain ⟨before, after, hsplit⟩ := List.append_of_mem hitem
  have htext := h.texts before item after hsplit
  have hkey := length_le_encodeBase64 item.map_item_key
  have hmax : MAX_SIZE < 2 ^ 64 := by decide
  simp only [refText, List.length_append, List.length_cons] at htext
  rw [CScript.toCString, List.length_map]
  omega

/-- A key has one node. -/
theorem nodeStream_key {map_end map_end' : UInt256} {key key' : List UInt8}
    (hkey : (CScript.toCString key).length < 2 ^ 64)
    (hkey' : (CScript.toCString key').length < 2 ^ 64)
    (h : nodeStream map_end key = nodeStream map_end' key') : key = key' := by
  have hlength : (streamHash map_end).length = (streamHash map_end').length := by
    rw [length_streamHash, length_streamHash]
  exact toCString_injective (streamString_injective hkey hkey' (List.append_inj h hlength).2)

theorem itemStream_key {key key' : List UInt8} (hkey : (CScript.toCString key).length < 2 ^ 64)
    (hkey' : (CScript.toCString key').length < 2 ^ 64)
    (h : itemStream map_id key = itemStream map_id key') : key = key' :=
  toCString_injective (streamString_injective hkey hkey' (List.append_cancel_left h))

/-- The key of the last item is new. -/
theorem Loggable.key_ne (h : Loggable Hash map_id (items ++ [item])) {it : MapItem}
    (hit : it ∈ items) : it.map_item_key ≠ item.map_item_key := by
  have hkeys := h.keys
  rw [List.map_append, List.nodup_append] at hkeys
  exact hkeys.2.2 _ (List.mem_map_of_mem hit) _ (by simp)

/-- The hash of the last node is new. -/
theorem Loggable.hash_ne (h : Loggable Hash map_id (items ++ [item])) {before after : List MapItem}
    {it : MapItem} (hsplit : items = before ++ it :: after) :
    hashAfter Hash (before ++ [it]) ≠ hashAfter Hash (items ++ [item]) := by
  intro heq
  rw [hashAfter_append, hashAfter_append] at heq
  have hmem : it ∈ items := hsplit ▸ List.mem_append_right _ List.mem_cons_self
  have hstreams := h.nodes ⟨before, it, after ++ [item], by simp [hsplit], rfl⟩
    ⟨items, item, [], rfl, rfl⟩ heq
  exact h.key_ne hmem (nodeStream_key (h.key_length (List.mem_append_left _ hmem))
    (h.key_length (List.mem_append_right _ List.mem_cons_self)) hstreams)

/-- The record of the last item is new. -/
theorem Loggable.item_hash_ne (h : Loggable Hash map_id (items ++ [item])) {it : MapItem}
    (hit : it ∈ items) :
    Hash (itemStream map_id it.map_item_key) ≠ Hash (itemStream map_id item.map_item_key) := by
  intro heq
  have hmem := List.mem_append_left [item] hit
  have hlast := List.mem_append_right items (List.mem_singleton_self item)
  have hstreams := h.streams ⟨it, hmem, rfl⟩ ⟨item, hlast, rfl⟩ heq
  exact h.key_ne hit (itemStream_key (h.key_length hmem) (h.key_length hlast) hstreams)

/-- The index of a node that was read. -/
theorem lastIndex_of_read {map_end prev : UInt256} {index : ℤ} {key : List UInt8}
    (h : db.read (refKey map_end) = some (refText index key prev)) (hlow : -2 ^ 31 ≤ index)
    (hhigh : index < 2 ^ 31) : BitBay.lastIndex db map_end = index := by
  unfold BitBay.lastIndex
  rw [h]
  simp only [split_refText, List.length_cons, List.length_nil, List.headD_cons, if_true]
  exact CString.atoi_ofInt hlow hhigh

/-- The index that an append finds is the one of the item before it. -/
theorem Stored.lastIndex (h : Stored Hash map_id db items) (hcount : items.length < 2 ^ 31) :
    (BitBay.lastIndex db (hashAfter Hash items) + 1).bmod (2 ^ 32) = items.length := by
  rcases List.eq_nil_or_concat items with rfl | ⟨before, it, rfl⟩
  · have hstop : db.read (refKey (hashAfter Hash [])) = none := h.stop
    rw [BitBay.lastIndex, hstop]
    rfl
  · rw [List.concat_eq_append] at hcount h ⊢
    rw [List.length_append, List.length_singleton] at hcount ⊢
    rw [lastIndex_of_read (h.node before it [] rfl) (by omega) (by omega),
      Int.bmod_eq_of_le (by omega) (by omega)]
    push_cast
    rfl

/-- A position of the longer list is the last one or one of the list before. -/
theorem split_append_singleton {before after : List MapItem} {it : MapItem}
    (h : items ++ [item] = before ++ it :: after) :
    (before = items ∧ it = item) ∨ ∃ after', items = before ++ it :: after' := by
  rcases List.eq_nil_or_concat after with rfl | ⟨after', last, rfl⟩
  · obtain ⟨hbefore, hit⟩ := List.append_inj' h rfl
    exact .inl ⟨hbefore.symm, (List.cons.inj hit).1.symm⟩
  · refine .inr ⟨after', ?_⟩
    rw [List.concat_eq_append, ← List.cons_append, ← List.append_assoc] at h
    exact (List.append_inj' h rfl).1

/-- One append. -/
theorem Stored.append (h : Stored Hash map_id db items)
    (hlog : Loggable Hash map_id (items ++ [item])) :
    Stored Hash map_id
      (appendCycleStateMapItem1 Hash map_id db (hashAfter Hash items) item).1 (items ++ [item]) := by
  have hcount := hlog.count
  rw [List.length_append, List.length_singleton] at hcount
  have hindex := h.lastIndex (by omega)
  have hwritten : hashAfter Hash (items ++ [item]) = _ := hashAfter_append items item
  have hnew : nodeStream (hashAfter Hash items) item.map_item_key ∈
      nodeStreams Hash (items ++ [item]) := ⟨items, item, [], rfl, rfl⟩
  unfold appendCycleStateMapItem1
  simp only [hindex]
  rw [← hwritten]
  have href {hash : UInt256} (hne : hash ≠ hashAfter Hash (items ++ [item])) {t x d : CString}
      {k : UInt256} :
      (((db.write (refKey (hashAfter Hash (items ++ [item]))) t).write (blockKey k) x).write
        (itemKey k) d).read (refKey hash) = db.read (refKey hash) := by
    rw [PegDB.read_write_of_ne refKey_ne_itemKey, PegDB.read_write_of_ne refKey_ne_blockKey,
      PegDB.read_write_of_ne fun heq => hne (refKey_injective heq)]
  constructor
  · rw [href ?_, h.stop]
    rw [hwritten]
    exact (hlog.nonzero _ hnew).symm
  · intro before it after hsplit
    rcases split_append_singleton hsplit with ⟨rfl, rfl⟩ | ⟨after', rfl⟩
    · rw [PegDB.read_write_of_ne refKey_ne_itemKey, PegDB.read_write_of_ne refKey_ne_blockKey,
        PegDB.read_write (hlog.texts _ _ _ hsplit)]
    · rw [href (hlog.hash_ne rfl), h.node _ _ _ rfl]
  · intro it hit
    rw [PegDB.read_write_of_ne blockKey_ne_itemKey]
    rcases List.mem_append.mp hit with hit | hit
    · rw [PegDB.read_write_of_ne fun heq => hlog.item_hash_ne hit (blockKey_injective heq),
        PegDB.read_write_of_ne refKey_ne_blockKey.symm, h.block it hit]
    · obtain rfl := List.mem_singleton.mp hit
      exact PegDB.read_write (by rw [length_getHex]; decide)
  · intro it hit
    rcases List.mem_append.mp hit with hit | hit
    · rw [PegDB.read_write_of_ne fun heq => hlog.item_hash_ne hit (itemKey_injective heq),
        PegDB.read_write_of_ne blockKey_ne_itemKey.symm,
        PegDB.read_write_of_ne refKey_ne_itemKey.symm, h.data it hit]
    · obtain rfl := List.mem_singleton.mp hit
      exact PegDB.read_write (hlog.data it (List.mem_append_right _ List.mem_cons_self))

/-- All appends of a list. -/
theorem Stored.appendAll (hstop : db.read (refKey 0) = none)
    (hlog : Loggable Hash map_id items) :
    Stored Hash map_id (BitBay.appendAll Hash map_id db 0 items).1 items ∧
      (BitBay.appendAll Hash map_id db 0 items).2 = hashAfter Hash items := by
  induction items using List.reverseRecOn with
  | nil =>
    refine ⟨⟨hstop, fun before it after heq => by simp at heq, ?_, ?_⟩, rfl⟩
    · exact fun it hit => absurd hit List.not_mem_nil
    · exact fun it hit => absurd hit List.not_mem_nil
  | append_singleton items item ih =>
    obtain ⟨hstored, hlast⟩ := ih hlog.init
    have hstep : BitBay.appendAll Hash map_id db 0 (items ++ [item]) =
        appendCycleStateMapItem1 Hash map_id (BitBay.appendAll Hash map_id db 0 items).1
          (hashAfter Hash items) item := by
      rw [BitBay.appendAll, List.foldl_append, ← hlast]
      rfl
    rw [hstep]
    exact ⟨hstored.append hlog, (hashAfter_append items item).symm⟩

/-- The node of an item is read with the one before it. -/
theorem Stored.readMapItem1 (h : Stored Hash map_id db items) {before after : List MapItem}
    (hsplit : items = before ++ item :: after) (hcount : items.length ≤ 2 ^ 31) :
    BitBay.readMapItem1 Hash map_id db (hashAfter Hash (before ++ [item])) =
      some ⟨before.length, item.map_item_key, hashAfter Hash before, item.map_item_data⟩ := by
  have hmem : item ∈ items := hsplit ▸ List.mem_append_right _ List.mem_cons_self
  have hlength := congrArg List.length hsplit
  rw [List.length_append, List.length_cons] at hlength
  unfold BitBay.readMapItem1
  rw [h.node before item after hsplit]
  simp only [Option.bind_eq_bind, Option.bind_some, split_refText, List.getD_cons_succ,
    List.getD_cons_zero, decodeBase64_encodeBase64, readMapItemData1, h.data item hmem]
  have hindex : CString.atoi (CString.ofInt before.length) = before.length :=
    CString.atoi_ofInt (by omega) (by omega)
  simp [hindex, setHex_getHex]

/-- The walk back from the last node of the first items. -/
theorem Stored.walk (h : Stored Hash map_id db items) (hcount : items.length ≤ 2 ^ 31)
    {before after : List MapItem} (hsplit : items = before ++ after) :
    Walk Hash map_id db (hashAfter Hash before) (mapRows before).reverse := by
  induction before using List.reverseRecOn generalizing after with
  | nil =>
    refine .stop ?_
    have hstop : db.read (refKey (hashAfter Hash [])) = none := h.stop
    rw [BitBay.readMapItem1, hstop]
    rfl
  | append_singleton before item ih =>
    rw [List.append_assoc, List.singleton_append] at hsplit
    have hnode := h.readMapItem1 hsplit hcount
    have hrest := ih hsplit
    have hrows : (mapRows (before ++ [item])).reverse =
        ((before.length : ℤ), item.map_item_key, item.map_item_data) :: (mapRows before).reverse := by
      simp [mapRows, List.zipIdx_append]
    rw [hrows]
    exact .node hnode hrest

/-- The rows of a walk are determined by where it starts. -/
theorem Walk.unique {shash : UInt256} {rows rows' : List (ℤ × List UInt8 × CString)}
    (h : Walk Hash map_id db shash rows) (h' : Walk Hash map_id db shash rows') : rows = rows' := by
  induction h generalizing rows' with
  | stop hstop =>
    cases h' with
    | stop => rfl
    | node hnode _ => simp [hstop] at hnode
  | node hnode _ ih =>
    cases h' with
    | stop hstop => simp [hstop] at hnode
    | node hnode' hrest' =>
      obtain rfl := Option.some.inj (hnode.symm.trans hnode')
      rw [ih hrest']

/-! ### Bounds -/

/-- Indices are counted modulo `2 ^ 32`. -/
theorem lastIndex_append {map_end : UInt256}
    (h : (refText ((BitBay.lastIndex db map_end + 1).bmod (2 ^ 32)) item.map_item_key
      map_end).length ≤ MAX_SIZE) :
    BitBay.lastIndex (appendCycleStateMapItem1 Hash map_id db map_end item).1
      (Hash (nodeStream map_end item.map_item_key)) =
      (BitBay.lastIndex db map_end + 1).bmod (2 ^ 32) := by
  have hlow := Int.le_bmod (x := BitBay.lastIndex db map_end + 1) (m := 2 ^ 32) (by decide)
  have hhigh := Int.bmod_lt (x := BitBay.lastIndex db map_end + 1) (m := 2 ^ 32) (by decide)
  have hread : PegDB.read (appendCycleStateMapItem1 Hash map_id db map_end item).1
      (refKey (Hash (nodeStream map_end item.map_item_key))) =
      some (refText ((BitBay.lastIndex db map_end + 1).bmod (2 ^ 32)) item.map_item_key map_end) := by
    unfold appendCycleStateMapItem1
    dsimp only
    rw [PegDB.read_write_of_ne refKey_ne_itemKey, PegDB.read_write_of_ne refKey_ne_blockKey,
      PegDB.read_write h]
  exact lastIndex_of_read hread (by omega) (by omega)

theorem readMapItemData1_long {map_end : UInt256} {block_hash : UInt256} {key : List UInt8}
    {data : CString} (h : MAX_SIZE < data.length) :
    readMapItemData1 Hash map_id
      (appendCycleStateMapItem1 Hash map_id db map_end ⟨block_hash, key, data⟩).1 key = none :=
  PegDB.read_write_long h

theorem readMapItem1_long {map_end : UInt256} {block_hash : UInt256} {key : List UInt8}
    {data : CString} (h : MAX_SIZE < key.length) :
    BitBay.readMapItem1 Hash map_id
      (appendCycleStateMapItem1 Hash map_id db map_end ⟨block_hash, key, data⟩).1
      (Hash (nodeStream map_end key)) = none := by
  have hlong : MAX_SIZE <
      (refText ((BitBay.lastIndex db map_end + 1).bmod (2 ^ 32)) key map_end).length := by
    have hkey := length_le_encodeBase64 key
    simp only [refText, List.length_append, List.length_cons]
    omega
  unfold BitBay.readMapItem1 appendCycleStateMapItem1
  dsimp only
  rw [PegDB.read_write_of_ne refKey_ne_itemKey, PegDB.read_write_of_ne refKey_ne_blockKey,
    PegDB.read_write_long hlong]
  rfl

/-- Appended items are walked in reverse and found by their keys, and a merkle is read back. -/
theorem map_items_log (hstop : db.read (refKey 0) = none) (hlog : Loggable Hash map_id items) :
    (∀ rows, Walk Hash map_id (appendAll Hash map_id db 0 items).1
      (appendAll Hash map_id db 0 items).2 rows ↔ rows = (mapRows items).reverse) ∧
    (∀ item ∈ items,
      readMapItemData1 Hash map_id (appendAll Hash map_id db 0 items).1 item.map_item_key =
        some item.map_item_data ∧
      readMapItemBlockHash1 Hash map_id (appendAll Hash map_id db 0 items).1 item.map_item_key =
        some item.block_hash) ∧
    ∀ m : MerkleInfo, MerkleInfo.ofData m.serialize = m := by
  obtain ⟨hstored, hlast⟩ := Stored.appendAll hstop hlog
  have hwalk := hstored.walk hlog.count (List.append_nil items).symm
  rw [← hlast] at hwalk
  refine ⟨fun rows => ⟨fun h => h.unique hwalk, fun h => h ▸ hwalk⟩, ?_,
    MerkleInfo.ofData_serialize⟩
  intro item hitem
  refine ⟨hstored.data item hitem, ?_⟩
  rw [readMapItemBlockHash1, hstored.block item hitem, Option.map_some, setHex_getHex]

end Log

/-! ## Sample lists -/

def acceptedMerkles : CString := "ACCEPTED_MERKLES".toList

def sampleItems : List MapItem := [⟨1, [97], "x".toList⟩, ⟨2, [98], "y".toList⟩]

def sampleNodeHash : UInt256 :=
  0xe9f94b6fbc089e8e07acf4a868d6ee625fe4ad7da653bd478d1bf1ba42bbfc3c

def sampleHash256 (s : CString) : UInt256 :=
  if s = nodeStream 0 [97] then
    sampleNodeHash
  else if s = nodeStream sampleNodeHash [98] then
    0x89dce69ad98b36db4014c2f055a439f3f6ee2176ff7abef531a3871c07c6a810
  else if s = itemStream acceptedMerkles [97] then
    0xb4fcb59beb29728bd3c8120430ee8332c2b11bc742a48f9f854680b1f5137935
  else if s = itemStream acceptedMerkles [98] then
    0x6906385b9d43406b993af29fc2daa06a18bd0121e4893af9c5d12bedca897ea8
  else 0

theorem nodeStreams_sample : nodeStreams sampleHash256 sampleItems ⊆
    {nodeStream 0 [97], nodeStream sampleNodeHash [98]} := by
  rintro _ ⟨before, item, after, hsplit, rfl⟩
  rcases before with _ | ⟨it, _ | ⟨it', before⟩⟩
  · obtain ⟨rfl, -⟩ := List.cons.inj hsplit
    exact .inl rfl
  · obtain ⟨rfl, hrest⟩ := List.cons.inj hsplit
    obtain ⟨rfl, -⟩ := List.cons.inj hrest
    have hfirst : hashAfter sampleHash256 [⟨1, [97], "x".toList⟩] = sampleNodeHash := by decide
    exact .inr (by rw [hfirst]; rfl)
  · simp [sampleItems] at hsplit

theorem itemStreams_sample : itemStreams acceptedMerkles sampleItems ⊆
    {itemStream acceptedMerkles [97], itemStream acceptedMerkles [98]} := by
  rintro _ ⟨item, hitem, rfl⟩
  rcases List.mem_cons.mp hitem with rfl | hitem
  · exact .inl rfl
  · obtain rfl := List.mem_singleton.mp hitem
    exact .inr rfl

theorem loggable_sample : Loggable sampleHash256 acceptedMerkles sampleItems where
  keys := by decide
  nodes := by
    refine Set.InjOn.mono nodeStreams_sample ?_
    rintro _ (rfl | rfl) _ (rfl | rfl) heq
    · rfl
    · exact absurd heq (by decide)
    · exact absurd heq (by decide)
    · rfl
  nonzero := by
    intro s hs
    rcases nodeStreams_sample hs with rfl | rfl <;> decide
  streams := by
    refine Set.InjOn.mono itemStreams_sample ?_
    rintro _ (rfl | rfl) _ (rfl | rfl) heq
    · rfl
    · exact absurd heq (by decide)
    · exact absurd heq (by decide)
    · rfl
  texts := by
    rintro before item after hsplit
    rcases before with _ | ⟨it, _ | ⟨it', before⟩⟩
    · obtain ⟨rfl, -⟩ := List.cons.inj hsplit
      decide
    · obtain ⟨-, hrest⟩ := List.cons.inj hsplit
      obtain ⟨rfl, -⟩ := List.cons.inj hrest
      rw [refText]
      simp only [List.length_append, List.length_cons, length_getHex]
      decide
    · simp [sampleItems] at hsplit
  data := by decide
  count := by decide

/-- The sample list is walked from its second node to its first one, and in no other way. -/
theorem map_items_log_sample :
    Walk sampleHash256 acceptedMerkles
      (appendAll sampleHash256 acceptedMerkles (fun _ => none) 0 sampleItems).1
      (appendAll sampleHash256 acceptedMerkles (fun _ => none) 0 sampleItems).2
      [(1, [98], "y".toList), (0, [97], "x".toList)] ∧
    ∀ rows, Walk sampleHash256 acceptedMerkles
      (appendAll sampleHash256 acceptedMerkles (fun _ => none) 0 sampleItems).1
      (appendAll sampleHash256 acceptedMerkles (fun _ => none) 0 sampleItems).2 rows →
      rows = [(1, [98], "y".toList), (0, [97], "x".toList)] :=
  ⟨((map_items_log rfl loggable_sample).1 _).mpr rfl,
    fun rows => ((map_items_log rfl loggable_sample).1 rows).mp⟩

/-- Data of more than `MAX_SIZE` bytes is not read back, and neither is a key whose node has a
longer text. And after `2 ^ 31` items the index is no `int`. -/
theorem map_items_not_read :
    (readMapItemData1 sampleHash256 acceptedMerkles
      (appendCycleStateMapItem1 sampleHash256 acceptedMerkles (fun _ => none) 0
        ⟨1, [97], List.replicate (MAX_SIZE + 1) 'x'⟩).1 [97] = none) ∧
    (readMapItem1 sampleHash256 acceptedMerkles
      (appendCycleStateMapItem1 sampleHash256 acceptedMerkles (fun _ => none) 0
        ⟨1, List.replicate (MAX_SIZE + 1) 97, []⟩).1
      (sampleHash256 (nodeStream 0 (List.replicate (MAX_SIZE + 1) 97))) = none) ∧
    lastIndex (appendCycleStateMapItem1 sampleHash256 acceptedMerkles
      (fun key => if key = refKey sampleNodeHash then some (refText (2 ^ 31 - 1) [97] 0) else none)
      sampleNodeHash ⟨2, [98], []⟩).1 (sampleHash256 (nodeStream sampleNodeHash [98])) =
        - 2 ^ 31 := by
  have hlong {α : Type} (a : α) : MAX_SIZE < (List.replicate (MAX_SIZE + 1) a).length := by
    rw [List.length_replicate]
    exact Nat.lt_succ_self _
  refine ⟨readMapItemData1_long (hlong 'x'), readMapItem1_long (hlong 97), ?_⟩
  have hlast : lastIndex (fun key => if key = refKey sampleNodeHash then
      some (refText (2 ^ 31 - 1) [97] 0) else none) sampleNodeHash = 2 ^ 31 - 1 := by
    have hread : PegDB.read (fun key => if key = refKey sampleNodeHash then
        some (refText (2 ^ 31 - 1) [97] 0) else none) (refKey sampleNodeHash) =
        some (refText (2 ^ 31 - 1) [97] 0) := by
      rw [PegDB.read, if_pos rfl]
      rfl
    exact lastIndex_of_read hread (by decide) (by decide)
  rw [lastIndex_append (by rw [hlast]; decide), hlast]
  decide

end BitBay
