import BitBay.Library.BackIndex
import BitBay.Network.AddrMan

/-!
# What the tables of the address manager say

The four indexes of the manager agree with each other: every entry stands once in the random
order, where its position says, is found under its address, and its references are the buckets
of the new table that hold it. A place of the tried table holds the entry that belongs there.

An entry that is being moved has no reference for a moment. So what each function keeps is stated
for tables in which entries may lack references, and separately from the counters.
-/
namespace BitBay

def CAddrInfo.unplaced (info : CAddrInfo) : CAddrInfo := { info with nRandomPos := none }

namespace CAddrMan

def entry (s : CAddrMan) (nId : ℕ) : Option CAddrInfo := (s.mapInfo.lookup nId).map (·.unplaced)

def place (s : CAddrMan) (nId : ℕ) : Option ℕ := (s.mapInfo.lookup nId).bind (·.nRandomPos)

/-- Every entry stands once in the random order, where its position says. -/
structure Ordered (s : CAddrMan) : Prop where
  index : BackIndexed s.vRandom s.place
  placed : ∀ nId info, s.mapInfo.lookup nId = some info → info.nRandomPos.isSome = true

structure Bucketed (cheapHash : List UInt8 → ℕ) (s : CAddrMan) : Prop where
  idCount : ∀ nId info, s.entry nId = some info → nId < s.nIdCount
  addr : ∀ a nId, s.mapAddr.lookup a = some nId ↔
    ∃ info, s.entry nId = some info ∧ info.toCNetAddr = a
  new : ∀ b p nId, s.vvNew b p = some nId → ∃ info, s.entry nId = some info ∧
    info.fInTried = false ∧ p = info.newPlace cheapHash s.nKey b
  references : ∀ nId info, s.entry nId = some info →
    info.nRefCount = (references s.vvNew (info.newPlace cheapHash s.nKey) nId).card
  tried : ∀ b p nId, s.vvTried b p = some nId ↔ ∃ info, s.entry nId = some info ∧
    info.fInTried = true ∧ b = info.getTriedBucket cheapHash s.nKey ∧
      p = info.triedPlace cheapHash s.nKey

structure Tables (cheapHash : List UInt8 → ℕ) (s : CAddrMan) : Prop extends
    s.Ordered, s.Bucketed cheapHash

/-- All but the entries and their random order is the same. -/
structure SameTables (s s' : CAddrMan) : Prop where
  nKey : s'.nKey = s.nKey
  nIdCount : s'.nIdCount = s.nIdCount
  vvNew : s'.vvNew = s.vvNew
  vvTried : s'.vvTried = s.vvTried
  nTried : s'.nTried = s.nTried

variable {s s' : CAddrMan} {cheapHash : List UInt8 → ℕ} {nId x : ℕ} {info : CAddrInfo}
  {f : CAddrInfo → CAddrInfo}

namespace SameTables

theorem refl (s : CAddrMan) : SameTables s s := ⟨rfl, rfl, rfl, rfl, rfl⟩

theorem trans {s'' : CAddrMan} (h : SameTables s s') (h' : SameTables s' s'') :
    SameTables s s'' where
  nKey := h'.nKey.trans h.nKey
  nIdCount := h'.nIdCount.trans h.nIdCount
  vvNew := h'.vvNew.trans h.vvNew
  vvTried := h'.vvTried.trans h.vvTried
  nTried := h'.nTried.trans h.nTried

end SameTables

/-! ## Writing through a reference -/

@[simp] theorem lookup_updateInfo (s : CAddrMan) (nId : ℕ) (f : CAddrInfo → CAddrInfo) (x : ℕ) :
    (s.updateInfo nId f).mapInfo.lookup x =
      if x = nId then (s.mapInfo.lookup x).map f else s.mapInfo.lookup x := by
  unfold updateInfo
  split
  · next info h =>
    rw [SortedMap.lookup_insert]
    split_ifs with hx
    · rw [hx, h]
      rfl
    · rfl
  · next h =>
    split_ifs with hx
    · rw [hx, h]
      rfl
    · rfl

theorem updateInfo_eq (s : CAddrMan) (nId : ℕ) (f : CAddrInfo → CAddrInfo) :
    s.updateInfo nId f = { s with mapInfo := (s.updateInfo nId f).mapInfo } := by
  unfold updateInfo
  split <;> rfl

@[simp] theorem updateInfo_nKey : (s.updateInfo nId f).nKey = s.nKey := by rw [updateInfo_eq]

@[simp] theorem updateInfo_nIdCount : (s.updateInfo nId f).nIdCount = s.nIdCount := by
  rw [updateInfo_eq]

@[simp] theorem updateInfo_mapAddr : (s.updateInfo nId f).mapAddr = s.mapAddr := by
  rw [updateInfo_eq]

@[simp] theorem updateInfo_vRandom : (s.updateInfo nId f).vRandom = s.vRandom := by
  rw [updateInfo_eq]

@[simp] theorem updateInfo_vvNew : (s.updateInfo nId f).vvNew = s.vvNew := by rw [updateInfo_eq]

@[simp] theorem updateInfo_vvTried : (s.updateInfo nId f).vvTried = s.vvTried := by
  rw [updateInfo_eq]

@[simp] theorem updateInfo_nTried : (s.updateInfo nId f).nTried = s.nTried := by
  rw [updateInfo_eq]

@[simp] theorem updateInfo_nNew : (s.updateInfo nId f).nNew = s.nNew := by rw [updateInfo_eq]

/-- An entry is written, its position apart. -/
theorem entry_of_lookup (hf : ∀ info, (f info).unplaced = f info.unplaced)
    (h : ∀ x, s'.mapInfo.lookup x =
      if x = nId then (s.mapInfo.lookup x).map f else s.mapInfo.lookup x) (x : ℕ) :
    s'.entry x = if x = nId then (s.entry x).map f else s.entry x := by
  unfold entry
  rw [h]
  split_ifs with hx
  · simp [Option.map_map, Function.comp_def, hf]
  · rfl

theorem entry_congr (h : s'.mapInfo = s.mapInfo) : s'.entry = s.entry := by
  unfold entry
  rw [h]

theorem exists_of_entry (h : s.entry nId = some info) :
    ∃ found, s.mapInfo.lookup nId = some found ∧ found.unplaced = info := by
  unfold entry at h
  exact Option.map_eq_some_iff.mp h

/-! ## The random order -/

theorem Ordered.of_update (h : s.Ordered) (hrandom : s'.vRandom = s.vRandom)
    (hf : ∀ info, (f info).nRandomPos = info.nRandomPos)
    (hlookup : ∀ x, s'.mapInfo.lookup x =
      if x = nId then (s.mapInfo.lookup x).map f else s.mapInfo.lookup x) : s'.Ordered where
  index := by
    rw [hrandom]
    refine h.index.congr fun i => ?_
    unfold place
    rw [hlookup]
    split_ifs
    · cases s.mapInfo.lookup i <;> simp [hf]
    · rfl
  placed x info hx := by
    rw [hlookup] at hx
    split_ifs at hx
    · obtain ⟨old, hold, rfl⟩ := Option.map_eq_some_iff.mp hx
      rw [hf]
      exact h.placed x old hold
    · exact h.placed x info hx

theorem Ordered.lookup_of_getElem? (h : s.Ordered) {p : ℕ} (hp : s.vRandom[p]? = some x) :
    ∃ info, s.mapInfo.lookup x = some info ∧ info.nRandomPos = some p :=
  Option.bind_eq_some_iff.mp ((h.index p x).mp hp)

theorem mem_mapInfo (h : s.mapInfo.lookup nId = some info) : nId ∈ s.mapInfo := by
  exact List.mem_map.mpr ⟨(nId, info), SortedMap.lookup_eq_some_iff.mp h, rfl⟩

/-- Two places of the random order are exchanged. -/
theorem Ordered.swapRandom (h : s.Ordered) {p q : ℕ} (hp : p < s.vRandom.length)
    (hq : q < s.vRandom.length) :
    ∃ s', s.swapRandom p q = some s' ∧ s'.Ordered ∧ s'.entry = s.entry ∧ SameTables s s' ∧
      s'.mapAddr = s.mapAddr ∧ s'.nNew = s.nNew ∧
      s'.vRandom = (s.vRandom.set p s.vRandom[q]).set q s.vRandom[p] := by
  unfold CAddrMan.swapRandom
  by_cases hpq : p = q
  · subst hpq
    exact ⟨s, by simp, h, rfl, .refl s, rfl, rfl, by simp⟩
  have hi : s.vRandom[p]? = some s.vRandom[p] := List.getElem?_eq_getElem hp
  have hj : s.vRandom[q]? = some s.vRandom[q] := List.getElem?_eq_getElem hq
  obtain ⟨infoi, hinfoi, hposi⟩ := h.lookup_of_getElem? hi
  obtain ⟨infoj, hinfoj, hposj⟩ := h.lookup_of_getElem? hj
  generalize s.vRandom[p] = i at *
  generalize s.vRandom[q] = j at *
  have hij : i ≠ j := by
    rintro rfl
    rw [hinfoi] at hinfoj
    cases hinfoj
    exact hpq (Option.some.inj (hposi.symm.trans hposj))
  let moved := (s.updateInfo i fun info => { info with nRandomPos := some q }).updateInfo j
    fun info => { info with nRandomPos := some p }
  have hlookup : ∀ x, moved.mapInfo.lookup x = if x = j then
      some { infoj with nRandomPos := some p } else if x = i then
      some { infoi with nRandomPos := some q } else s.mapInfo.lookup x := by
    intro x
    simp only [moved, lookup_updateInfo]
    by_cases hxj : x = j
    · simp [hxj, Ne.symm hij, hinfoj]
    · by_cases hxi : x = i <;> simp [hxj, hxi, hij, hinfoi]
  refine ⟨{ moved with vRandom := (s.vRandom.set p j).set q i },
    by simp [hpq, hi, hj, mem_mapInfo hinfoi, mem_mapInfo hinfoj, moved], ⟨?_, ?_⟩, ?_,
    ⟨by simp [moved], by simp [moved], by simp [moved], by simp [moved], by simp [moved]⟩,
    by simp [moved], by simp [moved], rfl⟩
  · refine h.index.swap ((h.index p i).mp hi) ((h.index q j).mp hj) ?_ ?_ fun x hxi hxj => ?_
    · exact show (moved.mapInfo.lookup i).bind _ = _ by simp [hlookup, hij]
    · exact show (moved.mapInfo.lookup j).bind _ = _ by simp [hlookup]
    · exact show (moved.mapInfo.lookup x).bind _ = _ by simp [hlookup, hxi, hxj, place]
  · intro x info hx
    rw [show (_ : SortedMap ℕ CAddrInfo).lookup x = _ from hlookup x] at hx
    split_ifs at hx
    · cases hx
      rfl
    · cases hx
      rfl
    · exact h.placed x info hx
  · funext x
    unfold entry
    rw [show (_ : SortedMap ℕ CAddrInfo).lookup x = _ from hlookup x]
    split_ifs with hxj hxi
    · rw [hxj, hinfoj]
      rfl
    · rw [hxi, hinfoi]
      rfl
    · rfl

/-! ## The other indexes -/

namespace Bucketed

/-- An entry is found by its address, and no other one. -/
theorem eq_of_addr (h : s.Bucketed cheapHash) {info' : CAddrInfo} (hx : s.entry x = some info)
    (hy : s.entry nId = some info') (haddr : info.toCNetAddr = info'.toCNetAddr) : x = nId :=
  Option.some.inj (((h.addr _ x).mpr ⟨info, hx, haddr⟩).symm.trans
    ((h.addr _ nId).mpr ⟨info', hy, rfl⟩))

theorem mem_references (h : s.Bucketed cheapHash) (hx : s.entry nId = some info)
    {b : Fin ADDRMAN_NEW_BUCKET_COUNT} {p : Fin ADDRMAN_BUCKET_SIZE}
    (hcell : s.vvNew b p = some nId) :
    b ∈ BitBay.references s.vvNew (info.newPlace cheapHash s.nKey) nId ∧
      p = info.newPlace cheapHash s.nKey b := by
  obtain ⟨found, hfound, -, hp⟩ := h.new b p nId hcell
  cases hx.symm.trans hfound
  exact ⟨by simpa [hp] using hcell, hp⟩

/-- No place holds an entry without references. -/
theorem not_cell (h : s.Bucketed cheapHash) (hx : s.entry nId = some info)
    (href : info.nRefCount = 0) (b : Fin ADDRMAN_NEW_BUCKET_COUNT) (p : Fin ADDRMAN_BUCKET_SIZE) :
    s.vvNew b p ≠ some nId := by
  intro hcell
  have hcard := h.references nId info hx
  rw [href, eq_comm, Nat.cast_eq_zero, Finset.card_eq_zero] at hcard
  exact Finset.notMem_empty b (hcard ▸ (h.mem_references hx hcell).1)

theorem nRefCount_pos (h : s.Bucketed cheapHash) (hx : s.entry nId = some info)
    {b : Fin ADDRMAN_NEW_BUCKET_COUNT} {p : Fin ADDRMAN_BUCKET_SIZE}
    (hcell : s.vvNew b p = some nId) : 0 < info.nRefCount := by
  rw [h.references nId info hx, Nat.cast_pos, Finset.card_pos]
  exact ⟨b, (h.mem_references hx hcell).1⟩

theorem nRefCount_of_tried (h : s.Bucketed cheapHash) (hx : s.entry nId = some info)
    (htried : info.fInTried = true) : info.nRefCount = 0 := by
  rw [h.references nId info hx, Nat.cast_eq_zero, Finset.card_eq_zero,
    Finset.eq_empty_iff_forall_notMem]
  intro b hb
  obtain ⟨found, hfound, hnot, -⟩ := h.new b _ nId (BitBay.mem_references.mp hb)
  cases hx.symm.trans hfound
  exact Bool.false_ne_true (hnot.symm.trans htried)

/-- An entry changes in what the tables do not depend on. -/
theorem of_update (h : s.Bucketed cheapHash) (hsame : SameTables s s')
    (haddr : s'.mapAddr = s.mapAddr)
    (hf : ∀ info, (f info).toCService = info.toCService ∧ (f info).fInTried = info.fInTried ∧
      (f info).nRefCount = info.nRefCount)
    (hentry : ∀ x, s'.entry x = if x = nId then (s.entry x).map f else s.entry x) :
    s'.Bucketed cheapHash := by
  have hback : ∀ x info', s'.entry x = some info' → ∃ info, s.entry x = some info ∧
      info'.toCService = info.toCService ∧ info'.fInTried = info.fInTried ∧
        info'.nRefCount = info.nRefCount := by
    intro x info' hx
    rw [hentry] at hx
    split_ifs at hx
    · obtain ⟨info, hinfo, rfl⟩ := Option.map_eq_some_iff.mp hx
      exact ⟨info, hinfo, hf info⟩
    · exact ⟨info', hx, rfl, rfl, rfl⟩
  have hforth : ∀ x info, s.entry x = some info → ∃ info', s'.entry x = some info' ∧
      info'.toCService = info.toCService ∧ info'.fInTried = info.fInTried := by
    intro x info hx
    rw [hentry, hx]
    split_ifs
    · exact ⟨f info, rfl, (hf info).1, (hf info).2.1⟩
    · exact ⟨info, rfl, rfl, rfl⟩
  constructor
  · intro x info' hx
    obtain ⟨info, hinfo, -⟩ := hback x info' hx
    rw [hsame.nIdCount]
    exact h.idCount x info hinfo
  · intro a x
    rw [haddr, h.addr]
    constructor
    · rintro ⟨info, hx, rfl⟩
      obtain ⟨info', hx', hservice, -⟩ := hforth x info hx
      exact ⟨info', hx', by rw [hservice]⟩
    · rintro ⟨info', hx', rfl⟩
      obtain ⟨info, hx, hservice, -⟩ := hback x info' hx'
      exact ⟨info, hx, by rw [hservice]⟩
  · intro b p x hcell
    rw [hsame.vvNew] at hcell
    obtain ⟨info, hx, htried, hp⟩ := h.new b p x hcell
    obtain ⟨info', hx', hservice, htried'⟩ := hforth x info hx
    exact ⟨info', hx', htried'.trans htried, by rw [hservice, hsame.nKey]; exact hp⟩
  · intro x info' hx'
    obtain ⟨info, hx, hservice, -, href⟩ := hback x info' hx'
    rw [hservice, href, hsame.vvNew, hsame.nKey]
    exact h.references x info hx
  · intro b p x
    rw [hsame.vvTried, hsame.nKey, h.tried]
    constructor
    · rintro ⟨info, hx, htried, hb, hp⟩
      obtain ⟨info', hx', hservice, htried'⟩ := hforth x info hx
      exact ⟨info', hx', htried'.trans htried, by rw [hservice]; exact hb,
        by rw [hservice]; exact hp⟩
    · rintro ⟨info', hx', htried', hb, hp⟩
      obtain ⟨info, hx, hservice, htried, -⟩ := hback x info' hx'
      rw [hservice] at hb hp
      exact ⟨info, hx, htried ▸ htried', hb, hp⟩

/-- An entry without references leaves. -/
theorem of_erase (h : s.Bucketed cheapHash) (hsame : SameTables s s')
    (hx : s.entry nId = some info) (htried : info.fInTried = false) (href : info.nRefCount = 0)
    (haddr : s'.mapAddr = s.mapAddr.erase info.toCNetAddr)
    (hentry : ∀ x, s'.entry x = if x = nId then none else s.entry x) :
    s'.Bucketed cheapHash := by
  have hback : ∀ x info', s'.entry x = some info' ↔ x ≠ nId ∧ s.entry x = some info' := by
    intro x info'
    rw [hentry]
    split_ifs with hxn <;> simp [hxn]
  constructor
  · intro x info' hx'
    rw [hsame.nIdCount]
    exact h.idCount x info' ((hback x info').mp hx').2
  · intro a x
    rw [haddr, SortedMap.lookup_erase]
    simp only [hback]
    split_ifs with ha
    · refine iff_of_false (by simp) ?_
      rintro ⟨info', ⟨hne, hx'⟩, rfl⟩
      exact hne (h.eq_of_addr hx' hx ha)
    · rw [h.addr]
      refine exists_congr fun info' => ?_
      constructor
      · rintro ⟨hx', haddr'⟩
        refine ⟨⟨?_, hx'⟩, haddr'⟩
        rintro rfl
        cases hx.symm.trans hx'
        exact ha haddr'.symm
      · rintro ⟨⟨-, hx'⟩, haddr'⟩
        exact ⟨hx', haddr'⟩
  · intro b p x hcell
    rw [hsame.vvNew] at hcell
    obtain ⟨info', hx', htried', hp⟩ := h.new b p x hcell
    refine ⟨info', (hback x info').mpr ⟨?_, hx'⟩, htried', by rw [hsame.nKey]; exact hp⟩
    rintro rfl
    exact h.not_cell hx href b p hcell
  · intro x info' hx'
    rw [hsame.vvNew, hsame.nKey]
    exact h.references x info' ((hback x info').mp hx').2
  · intro b p x
    rw [hsame.vvTried, hsame.nKey, h.tried]
    simp only [hback]
    refine exists_congr fun info' => ?_
    constructor
    · rintro ⟨hx', hrest⟩
      refine ⟨⟨?_, hx'⟩, hrest⟩
      rintro rfl
      cases hx.symm.trans hx'
      exact Bool.false_ne_true (htried.symm.trans hrest.1)
    · rintro ⟨⟨-, hx'⟩, hrest⟩
      exact ⟨hx', hrest⟩

end Bucketed

/-! ## Entries come and go -/

theorem lookup_eq_none (h : s.entry x = none) : s.mapInfo.lookup x = none :=
  Option.map_eq_none_iff.mp h

theorem Tables.fresh (h : s.Tables cheapHash) : s.entry s.nIdCount = none := by
  by_contra hne
  obtain ⟨info, hinfo⟩ := Option.ne_none_iff_exists'.mp hne
  exact lt_irrefl _ (h.idCount _ info hinfo)

theorem entry_withEntry (s : CAddrMan) (addr : CAddress) (addrSource : CNetAddr) (x : ℕ) :
    (s.withEntry addr addrSource).entry x =
      if x = s.nIdCount then some (CAddrInfo.create addr addrSource) else s.entry x := by
  unfold entry withEntry
  rw [SortedMap.lookup_insert]
  split_ifs <;> rfl

theorem Tables.withEntry (h : s.Tables cheapHash) {addr : CAddress} (addrSource : CNetAddr)
    (hnone : s.mapAddr.lookup addr.toCNetAddr = none) :
    (s.withEntry addr addrSource).Tables cheapHash := by
  have hfresh := h.fresh
  have hentry := entry_withEntry s addr addrSource
  have hold : ∀ x info, s.entry x = some info → x ≠ s.nIdCount := by
    rintro x info hx rfl
    rw [hfresh] at hx
    cases hx
  have hforth : ∀ x info, s.entry x = some info →
      (s.withEntry addr addrSource).entry x = some info := by
    intro x info hx
    rw [hentry, if_neg (hold x info hx), hx]
  have hback : ∀ x info, (s.withEntry addr addrSource).entry x = some info →
      x = s.nIdCount ∧ info = CAddrInfo.create addr addrSource ∨ s.entry x = some info := by
    intro x info hx
    rw [hentry] at hx
    split_ifs at hx with hxn
    · exact .inl ⟨hxn, (Option.some.inj hx).symm⟩
    · exact .inr hx
  refine ⟨⟨?_, ?_⟩, ⟨?_, ?_, ?_, ?_, ?_⟩⟩
  · refine h.index.push (by simp [place, lookup_eq_none hfresh]) ?_ fun x hx => ?_
    · simp [place, CAddrMan.withEntry]
    · simp [place, CAddrMan.withEntry, hx]
  · intro x info hx
    simp only [CAddrMan.withEntry, SortedMap.lookup_insert] at hx
    split_ifs at hx
    · cases hx
      rfl
    · exact h.placed x info hx
  · intro x info hx
    refine Nat.lt_succ_of_le ?_
    rcases hback x info hx with ⟨rfl, -⟩ | hx
    · exact le_rfl
    · exact (h.idCount x info hx).le
  · intro a x
    rw [show (s.withEntry addr addrSource).mapAddr = s.mapAddr.insert addr.toCNetAddr s.nIdCount
      from rfl, SortedMap.lookup_insert]
    constructor
    · intro ha
      split_ifs at ha with heq
      · cases ha
        exact ⟨_, by rw [hentry, if_pos rfl], heq.symm⟩
      · obtain ⟨info, hx, hinfo⟩ := (h.addr a x).mp ha
        exact ⟨info, hforth x info hx, hinfo⟩
    · rintro ⟨info, hx, rfl⟩
      rcases hback x info hx with ⟨rfl, rfl⟩ | hx
      · exact if_pos rfl
      · have ha := (h.addr info.toCNetAddr x).mpr ⟨info, hx, rfl⟩
        rw [if_neg, ha]
        intro heq
        rw [heq, hnone] at ha
        cases ha
  · intro b p x hcell
    obtain ⟨info, hx, hrest⟩ := h.new b p x hcell
    exact ⟨info, hforth x info hx, hrest⟩
  · intro x info hx
    rcases hback x info hx with ⟨rfl, rfl⟩ | hx
    · refine (Nat.cast_eq_zero.mpr (Finset.card_eq_zero.mpr ?_)).symm
      refine Finset.eq_empty_iff_forall_notMem.mpr fun b hb => ?_
      obtain ⟨info, hx, -⟩ := h.new b _ s.nIdCount (mem_references.mp hb)
      exact hold _ info hx rfl
    · exact h.references x info hx
  · intro b p x
    refine (h.tried b p x).trans (exists_congr fun info => ?_)
    constructor
    · rintro ⟨hx, hrest⟩
      exact ⟨hforth x info hx, hrest⟩
    · rintro ⟨hx, htried, hrest⟩
      rcases hback x info hx with ⟨rfl, rfl⟩ | hx
      · cases htried
      · exact ⟨hx, htried, hrest⟩

theorem Tables.delete (h : s.Tables cheapHash) (hx : s.entry nId = some info)
    (htried : info.fInTried = false) (href : info.nRefCount = 0) :
    ∃ s', s.delete nId = some s' ∧ s'.Tables cheapHash ∧ SameTables s s' ∧
      s'.nNew = s.nNew - 1 ∧ ∀ x, s'.entry x = if x = nId then none else s.entry x := by
  obtain ⟨found, hfound, rfl⟩ := exists_of_entry hx
  obtain ⟨p, hp⟩ := Option.isSome_iff_exists.mp (h.placed nId found hfound)
  have hplace : s.place nId = some p := by simp [place, hfound, hp]
  have hlt := h.index.lt_length hplace
  obtain ⟨s1, hswap, hordered, hentry, hsame, haddr, hnew, hrandom⟩ :=
    h.toOrdered.swapRandom hlt (show s.vRandom.length - 1 < s.vRandom.length by omega)
  have hlength : s1.vRandom.length = s.vRandom.length := by simp [hrandom]
  have hlast : s1.place nId = some (s1.vRandom.length - 1) := by
    have hat : s.vRandom[p] = nId := by
      have hget := (h.index p nId).mpr hplace
      rw [List.getElem?_eq_getElem hlt] at hget
      exact Option.some.inj hget
    rw [← hordered.index, hlength, hrandom, hat, List.getElem?_set_self (by simp; omega)]
  have hlookup : ∀ x, (s1.mapInfo.erase nId).lookup x =
      if x = nId then none else s1.mapInfo.lookup x := fun x => SortedMap.lookup_erase _ _ _
  refine ⟨{ s1 with
      vRandom := s1.vRandom.dropLast
      mapAddr := s1.mapAddr.erase found.toCNetAddr
      mapInfo := s1.mapInfo.erase nId
      nNew := s1.nNew - 1 }, ?_, ⟨⟨?_, ?_⟩, ?_⟩, ?_, ?_, ?_⟩
  · have htried' : found.fInTried = false := htried
    have href' : found.nRefCount = 0 := href
    simp [CAddrMan.delete, hfound, htried', href', hp, hswap]
  · refine hordered.index.pop hlast ?_ fun x hxn => ?_
    · exact show ((s1.mapInfo.erase nId).lookup nId).bind _ = _ by simp [hlookup]
    · exact show ((s1.mapInfo.erase nId).lookup x).bind _ = _ by simp [hlookup, hxn, place]
  · intro x info hinfo
    rw [hlookup] at hinfo
    split_ifs at hinfo
    exact hordered.placed x info hinfo
  · refine h.toBucketed.of_erase ⟨hsame.nKey, hsame.nIdCount, hsame.vvNew, hsame.vvTried,
      hsame.nTried⟩ hx htried href (by rw [← haddr]; rfl) fun x => ?_
    rw [← hentry]
    unfold entry
    rw [show (_ : SortedMap ℕ CAddrInfo).lookup x = _ from hlookup x]
    split_ifs <;> rfl
  · exact ⟨hsame.nKey, hsame.nIdCount, hsame.vvNew, hsame.vvTried, hsame.nTried⟩
  · rw [← hnew]
  · intro x
    rw [← hentry]
    unfold entry
    rw [show (_ : SortedMap ℕ CAddrInfo).lookup x = _ from hlookup x]
    split_ifs <;> rfl

/-! ## Places are filled and cleared -/

section Places

variable {b : Fin ADDRMAN_NEW_BUCKET_COUNT} {p : Fin ADDRMAN_BUCKET_SIZE}

theorem entry_updateInfo (s : CAddrMan) (nId : ℕ) (f : CAddrInfo → CAddrInfo)
    (hf : ∀ info, (f info).unplaced = f info.unplaced) (x : ℕ) :
    (s.updateInfo nId f).entry x = if x = nId then (s.entry x).map f else s.entry x :=
  entry_of_lookup hf (fun x => lookup_updateInfo s nId f x) x

/-- A write through a reference, the position of the entry apart. -/
theorem Ordered.updateInfo (h : s.Ordered) (f : CAddrInfo → CAddrInfo)
    (hf : ∀ info, (f info).nRandomPos = info.nRandomPos)
    (hmapInfo : s'.mapInfo = (s.updateInfo nId f).mapInfo) (hrandom : s'.vRandom = s.vRandom) :
    s'.Ordered :=
  h.of_update hrandom hf fun x => by rw [hmapInfo, lookup_updateInfo]

/-- An entry changes in the number of its references and in one place of the new table, which
becomes free or is filled with it. -/
theorem Bucketed.of_place (h : s.Bucketed cheapHash) (hx : s.entry nId = some info)
    (htried : info.fInTried = false) {n : ℤ} {content : Option ℕ}
    (hp : p = info.newPlace cheapHash s.nKey b)
    (hold : s.vvNew b p = some nId ∨ s.vvNew b p = none)
    (hcontent : content = some nId ∨ content = none)
    (hn : n = (BitBay.references (setCell s.vvNew b p content)
      (info.newPlace cheapHash s.nKey) nId).card)
    (hsame : SameTables { s with vvNew := setCell s.vvNew b p content } s')
    (haddr : s'.mapAddr = s.mapAddr)
    (hentry : ∀ x, s'.entry x = if x = nId then some { info with nRefCount := n } else s.entry x) :
    s'.Bucketed cheapHash := by
  have hnKey : s'.nKey = s.nKey := hsame.nKey
  have hvvNew : s'.vvNew = setCell s.vvNew b p content := hsame.vvNew
  have hvvTried : s'.vvTried = s.vvTried := hsame.vvTried
  have hothers : ∀ x, x ≠ nId → s'.entry x = s.entry x := fun x hxn => by rw [hentry, if_neg hxn]
  have hself : s'.entry nId = some { info with nRefCount := n } := by rw [hentry, if_pos rfl]
  constructor
  · intro x info' hx'
    rw [show s'.nIdCount = s.nIdCount from hsame.nIdCount]
    by_cases hxn : x = nId
    · exact hxn ▸ h.idCount nId info hx
    · exact h.idCount x info' (hothers x hxn ▸ hx')
  · intro a x
    rw [haddr, h.addr]
    by_cases hxn : x = nId
    · subst hxn
      rw [hself, hx]
      simp
    · rw [hothers x hxn]
  · intro b' p' x hcell
    rw [hvvNew] at hcell
    rw [hnKey]
    rcases setCell_eq_some hcell with ⟨rfl, rfl, hat⟩ | ⟨-, hat⟩
    · obtain rfl : nId = x := by
        rcases hcontent with rfl | rfl
        · exact Option.some.inj hat
        · cases hat
      exact ⟨_, hself, htried, hp⟩
    · obtain ⟨info', hx', hrest⟩ := h.new b' p' x hat
      by_cases hxn : x = nId
      · subst hxn
        cases hx.symm.trans hx'
        exact ⟨_, hself, hrest⟩
      · exact ⟨info', (hothers x hxn).trans hx', hrest⟩
  · intro x info' hx'
    rw [hnKey, hvvNew]
    by_cases hxn : x = nId
    · subst hxn
      cases hself.symm.trans hx'
      exact hn
    · rw [hothers x hxn] at hx'
      rw [references_setCell_of_ne, h.references x info' hx']
      · rintro hcell
        rcases hold with hold | hold
        · exact hxn (Option.some.inj (hcell.symm.trans hold))
        · rw [hold] at hcell
          cases hcell
      · rintro rfl
        rcases hcontent with hat | hat
        · exact hxn (Option.some.inj hat)
        · cases hat
  · intro b' p' x
    rw [hvvTried, hnKey, h.tried]
    by_cases hxn : x = nId
    · subst hxn
      rw [hself, hx]
      simp [htried]
    · rw [hothers x hxn]

theorem entry_leaveNew (hx : s.entry nId = some info) (x : ℕ) :
    (s.leaveNew nId b p).entry x =
      if x = nId then some { info with nRefCount := info.nRefCount - 1 } else s.entry x := by
  have hentry := entry_updateInfo s nId (fun info => { info with nRefCount := info.nRefCount - 1 })
    (fun _ => rfl) x
  refine hentry.trans ?_
  split_ifs with hxn
  · rw [hxn, hx]
    rfl
  · rfl

theorem entry_enterNew (hx : s.entry nId = some info) (n : ℤ) (x : ℕ) :
    (s.enterNew nId b p n).entry x =
      if x = nId then some { info with nRefCount := n } else s.entry x := by
  have hentry := entry_updateInfo s nId (fun info => { info with nRefCount := n })
    (fun _ => rfl) x
  refine hentry.trans ?_
  split_ifs with hxn
  · rw [hxn, hx]
    rfl
  · rfl

theorem sameTables_leaveNew : SameTables { s with vvNew := setCell s.vvNew b p none }
    (s.leaveNew nId b p) :=
  ⟨updateInfo_nKey, updateInfo_nIdCount, rfl, updateInfo_vvTried, updateInfo_nTried⟩

theorem sameTables_enterNew (n : ℤ) : SameTables { s with vvNew := setCell s.vvNew b p (some nId) }
    (s.enterNew nId b p n) :=
  ⟨updateInfo_nKey, updateInfo_nIdCount, rfl, updateInfo_vvTried, updateInfo_nTried⟩

theorem Tables.leaveNew (h : s.Tables cheapHash) (hx : s.entry nId = some info)
    (hcell : s.vvNew b p = some nId) : (s.leaveNew nId b p).Tables cheapHash := by
  obtain ⟨found, hfound, htried, hp⟩ := h.new b p nId hcell
  cases hx.symm.trans hfound
  have hmem : b ∈ references s.vvNew (info.newPlace cheapHash s.nKey) nId :=
    (h.mem_references hx hcell).1
  refine ⟨h.toOrdered.updateInfo (fun info => { info with nRefCount := info.nRefCount - 1 })
      (fun _ => rfl) rfl updateInfo_vRandom,
    h.toBucketed.of_place hx htried hp (.inl hcell) (.inr rfl) ?_ sameTables_leaveNew
      updateInfo_mapAddr (entry_leaveNew hx)⟩
  have hcard := Finset.card_erase_of_mem hmem
  have hpos := Finset.card_pos.mpr ⟨b, hmem⟩
  rw [h.references nId info hx, hp, references_leave, hcard]
  omega

theorem Tables.enterNew (h : s.Tables cheapHash) (hx : s.entry nId = some info)
    (htried : info.fInTried = false) (hp : p = info.newPlace cheapHash s.nKey b)
    (hcell : s.vvNew b p = none) {n : ℤ} (hn : n = info.nRefCount + 1) :
    (s.enterNew nId b p n).Tables cheapHash := by
  refine ⟨h.toOrdered.updateInfo (fun info => { info with nRefCount := n }) (fun _ => rfl) rfl
      updateInfo_vRandom,
    h.toBucketed.of_place hx htried hp (.inr hcell) (.inl rfl) ?_ (sameTables_enterNew n)
      updateInfo_mapAddr (entry_enterNew hx n)⟩
  have hnot : b ∉ references s.vvNew (info.newPlace cheapHash s.nKey) nId := by
    rw [mem_references, ← hp, hcell]
    simp
  rw [hn, h.references nId info hx, hp, references_enter, Finset.card_insert_of_notMem hnot]
  rfl

end Places

/-! ## Entries are tried -/

section Tried

variable {b : Fin ADDRMAN_TRIED_BUCKET_COUNT} {p : Fin ADDRMAN_BUCKET_SIZE}

/-- An entry without references stands in the tried table, or does so no longer. -/
theorem Bucketed.of_tried (h : s.Bucketed cheapHash) (hx : s.entry nId = some info)
    (href : info.nRefCount = 0) {fInTried : Bool} {content : Option ℕ}
    (hb : b = info.getTriedBucket cheapHash s.nKey) (hp : p = info.triedPlace cheapHash s.nKey)
    (hcase : (content = some nId ∧ fInTried = true ∧ s.vvTried b p = none) ∨
      (content = none ∧ fInTried = false ∧ s.vvTried b p = some nId))
    (hnKey : s'.nKey = s.nKey) (hnIdCount : s'.nIdCount = s.nIdCount)
    (haddr : s'.mapAddr = s.mapAddr) (hvvNew : s'.vvNew = s.vvNew)
    (hvvTried : s'.vvTried = setCell s.vvTried b p content)
    (hentry : ∀ x, s'.entry x =
      if x = nId then some { info with fInTried := fInTried } else s.entry x) :
    s'.Bucketed cheapHash := by
  have hothers : ∀ x, x ≠ nId → s'.entry x = s.entry x := fun x hxn => by rw [hentry, if_neg hxn]
  have hself : s'.entry nId = some { info with fInTried := fInTried } := by
    rw [hentry, if_pos rfl]
  constructor
  · intro x info' hx'
    rw [hnIdCount]
    by_cases hxn : x = nId
    · exact hxn ▸ h.idCount nId info hx
    · exact h.idCount x info' (hothers x hxn ▸ hx')
  · intro a x
    rw [haddr, h.addr]
    by_cases hxn : x = nId
    · subst hxn
      rw [hself, hx]
      simp
    · rw [hothers x hxn]
  · intro b' p' x hcell
    rw [hvvNew] at hcell
    have hxn : x ≠ nId := fun hxn => h.not_cell hx href b' p' (hxn ▸ hcell)
    rw [hothers x hxn, hnKey]
    exact h.new b' p' x hcell
  · intro x info' hx'
    rw [hnKey, hvvNew]
    by_cases hxn : x = nId
    · subst hxn
      cases hself.symm.trans hx'
      exact h.references x info hx
    · exact h.references x info' (hothers x hxn ▸ hx')
  · intro b' p' x
    rw [hvvTried, hnKey]
    by_cases hxn : x = nId
    · subst hxn
      rw [hself]
      simp only [Option.some.injEq, exists_eq_left']
      rcases hcase with ⟨rfl, rfl, hcell⟩ | ⟨rfl, rfl, hcell⟩
      · constructor
        · intro hat
          rcases setCell_eq_some hat with ⟨rfl, rfl, -⟩ | ⟨-, hat⟩
          · exact ⟨rfl, hb, hp⟩
          · obtain ⟨found, hfound, htried, hb', hp'⟩ := (h.tried b' p' x).mp hat
            cases hx.symm.trans hfound
            exact ⟨rfl, hb', hp'⟩
        · rintro ⟨-, hb', hp'⟩
          obtain rfl : b' = b := hb'.trans hb.symm
          obtain rfl : p' = p := hp'.trans hp.symm
          exact setCell_self
      · refine iff_of_false ?_ (by simp)
        intro hat
        rcases setCell_eq_some hat with ⟨-, -, hnone⟩ | ⟨hnot, hat⟩
        · cases hnone
        · obtain ⟨found, hfound, -, hb', hp'⟩ := (h.tried b' p' x).mp hat
          cases hx.symm.trans hfound
          exact hnot ⟨hb'.trans hb.symm, hp'.trans hp.symm⟩
    · rw [hothers x hxn, ← h.tried]
      by_cases hat : b' = b ∧ p' = p
      · obtain ⟨rfl, rfl⟩ := hat
        rw [setCell_self]
        rcases hcase with ⟨rfl, -, hcell⟩ | ⟨rfl, -, hcell⟩ <;> rw [hcell] <;>
          simp [Ne.symm hxn]
      · rw [setCell_of_ne hat]

theorem entry_setTried (hx : s.entry nId = some info) (fInTried : Bool)
    (hmapInfo : s'.mapInfo =
      (s.updateInfo nId fun info => { info with fInTried := fInTried }).mapInfo) (x : ℕ) :
    s'.entry x = if x = nId then some { info with fInTried := fInTried } else s.entry x := by
  have hentry := entry_updateInfo s nId (fun info => { info with fInTried := fInTried })
    (fun _ => rfl) x
  rw [entry_congr hmapInfo, hentry]
  split_ifs with hxn
  · rw [hxn, hx]
    rfl
  · rfl

/-- The first step of an eviction: the entry leaves its place. -/
def untry (s : CAddrMan) (nId : ℕ) (b : Fin ADDRMAN_TRIED_BUCKET_COUNT)
    (p : Fin ADDRMAN_BUCKET_SIZE) : CAddrMan :=
  { s.updateInfo nId fun info => { info with fInTried := false } with
    vvTried := setCell s.vvTried b p none
    nTried := s.nTried - 1 }

theorem Tables.untry (h : s.Tables cheapHash) (hx : s.entry nId = some info)
    (hcell : s.vvTried b p = some nId) : (s.untry nId b p).Tables cheapHash := by
  obtain ⟨found, hfound, htried, hb, hp⟩ := (h.tried b p nId).mp hcell
  cases hx.symm.trans hfound
  exact ⟨h.toOrdered.updateInfo (fun info => { info with fInTried := false }) (fun _ => rfl) rfl
      updateInfo_vRandom,
    h.toBucketed.of_tried hx (h.nRefCount_of_tried hx htried) hb hp (.inr ⟨rfl, rfl, hcell⟩)
      updateInfo_nKey updateInfo_nIdCount updateInfo_mapAddr updateInfo_vvNew rfl
      (entry_setTried hx false rfl)⟩

theorem Tables.enterTried (h : s.Tables cheapHash) (hx : s.entry nId = some info)
    (href : info.nRefCount = 0) (hb : b = info.getTriedBucket cheapHash s.nKey)
    (hp : p = info.triedPlace cheapHash s.nKey) (hcell : s.vvTried b p = none) :
    (s.enterTried nId b p).Tables cheapHash :=
  ⟨h.toOrdered.updateInfo (fun info => { info with fInTried := true }) (fun _ => rfl) rfl
      updateInfo_vRandom,
    h.toBucketed.of_tried hx href hb hp (.inl ⟨rfl, rfl, hcell⟩)
      updateInfo_nKey updateInfo_nIdCount updateInfo_mapAddr updateInfo_vvNew rfl
      (entry_setTried hx true rfl)⟩

/-- An entry changes in what the tables do not depend on. -/
theorem Tables.updateInfo (h : s.Tables cheapHash) (f : CAddrInfo → CAddrInfo)
    (hf : ∀ info, (f info).unplaced = f info.unplaced ∧ (f info).nRandomPos = info.nRandomPos ∧
      (f info).toCService = info.toCService ∧ (f info).fInTried = info.fInTried ∧
        (f info).nRefCount = info.nRefCount) : (s.updateInfo nId f).Tables cheapHash :=
  ⟨h.toOrdered.updateInfo f (fun info => (hf info).2.1) rfl updateInfo_vRandom,
    h.toBucketed.of_update ⟨updateInfo_nKey, updateInfo_nIdCount, updateInfo_vvNew,
      updateInfo_vvTried, updateInfo_nTried⟩ updateInfo_mapAddr (fun info => (hf info).2.2)
      (entry_updateInfo s nId f fun info => (hf info).1)⟩

end Tried

end CAddrMan

end BitBay
