import BitBay.Library.Run
import BitBay.Network.AddrCalls

/-!
# The consistency check of the address manager

`Check_` walks over all entries and all places and returns the code of the first inconsistency
that it finds. It finds none in a sound manager.
-/
namespace BitBay.CAddrMan

open List

variable {s : CAddrMan} {cheapHash : List UInt8 → ℕ}

/-- As many entries as keys. -/
theorem count_eq_card {m : SortedMap ℕ ℤ} {t : Finset ℕ}
    (h : ∀ k, k ∈ t ↔ (m.lookup k).isSome = true) : m.count = t.card := by
  have hkeys : m.keys.toFinset = t := by
    ext k
    rw [h, List.mem_toFinset]
    constructor
    · intro hk
      obtain ⟨e, he, rfl⟩ := List.mem_map.mp hk
      rw [SortedMap.lookup_eq_some_iff.mpr he]
      rfl
    · intro hk
      obtain ⟨v, hv⟩ := Option.isSome_iff_exists.mp hk
      exact List.mem_map.mpr ⟨(k, v), SortedMap.lookup_eq_some_iff.mp hv, rfl⟩
  have hnodup : m.keys.Nodup := m.sorted.imp fun hlt => hlt.ne
  rw [← hkeys, List.toFinset_card_of_nodup hnodup]
  exact (List.length_map _).symm

theorem mem_keys_of_idsWith {b : Bool} {n : ℕ} (h : n ∈ s.idsWith b) :
    n ∈ s.mapInfo.entries.map Prod.fst := by
  obtain ⟨info, hinfo, -⟩ := Option.map_eq_some_iff.mp (mem_idsWith.mp h)
  obtain ⟨found, hfound, -⟩ := exists_of_entry hinfo
  exact List.mem_map.mpr ⟨(n, found), SortedMap.lookup_eq_some_iff.mp hfound, rfl⟩

/-! ## The entries -/

/-- The marks, once all entries but `rest` have been visited. -/
structure Marked (s : CAddrMan) (rest : List (ℕ × CAddrInfo)) (marks : CheckMarks) : Prop where
  mem : ∀ e ∈ rest, e ∈ s.mapInfo.entries
  nodup : (rest.map Prod.fst).Nodup
  tried : ∀ n, n ∈ marks.1 ↔ n ∈ s.idsWith true ∧ n ∉ rest.map Prod.fst
  new : ∀ n, marks.2.lookup n = if n ∈ s.idsWith false ∧ n ∉ rest.map Prod.fst then
    (s.entry n).map (·.nRefCount) else none

theorem Marked.fst_eq {marks : CheckMarks} (h : Marked s [] marks) : marks.1 = s.idsWith true := by
  ext n
  rw [h.tried]
  exact and_iff_left not_mem_nil

def ahead (s : CAddrMan) (l : List (Fin ADDRMAN_NEW_BUCKET_COUNT × Fin ADDRMAN_BUCKET_SIZE))
    (n : ℕ) : ℕ := (l.filterMap fun c => s.vvNew c.1 c.2).count n

theorem ahead_cons {l : List (Fin ADDRMAN_NEW_BUCKET_COUNT × Fin ADDRMAN_BUCKET_SIZE)}
    {c : Fin ADDRMAN_NEW_BUCKET_COUNT × Fin ADDRMAN_BUCKET_SIZE} {n : ℕ} :
    s.ahead (c :: l) n = s.ahead l n + if s.vvNew c.1 c.2 = some n then 1 else 0 := by
  unfold ahead
  cases hcell : s.vvNew c.1 c.2 with
  | none => simp [hcell]
  | some nId => simp [hcell, count_cons]

/-- The references that are left, once all places but `l` have been visited. -/
def Owing (s : CAddrMan) (l : List (Fin ADDRMAN_NEW_BUCKET_COUNT × Fin ADDRMAN_BUCKET_SIZE))
    (mapNew : SortedMap ℕ ℤ) : Prop :=
  ∀ n, mapNew.lookup n = if s.ahead l n = 0 then none else some (s.ahead l n : ℤ)

namespace Partly

theorem checkIndexes (h : Sound cheapHash s) {n : ℕ} {info : CAddrInfo}
    (hx : s.mapInfo.lookup n = some info) : s.checkIndexes n info = .ok () := by
  have hx' := entry_of_lookup_eq hx
  have haddr : s.mapAddr.lookup info.toCNetAddr = some n :=
    (h.addr _ n).mpr ⟨_, hx', rfl⟩
  obtain ⟨p, hp⟩ := Option.isSome_iff_exists.mp (h.placed n info hx)
  have hget : s.vRandom[p]? = some n := (h.index p n).mpr (by simp [place, hx, hp])
  have htry : ¬info.nLastTry.toInt < 0 := not_lt.mpr (h.times n _ hx').nLastTry
  have hsuccess : ¬info.nLastSuccess.toInt < 0 := not_lt.mpr (h.times n _ hx').nLastSuccess
  simp [CAddrMan.checkIndexes, haddr, hp, hget, htry, hsuccess]

theorem checkInfo (h : Sound cheapHash s) {e : ℕ × CAddrInfo} {rest : List (ℕ × CAddrInfo)}
    {marks : CheckMarks} (hmarks : Marked s (e :: rest) marks) :
    ∃ marks', s.checkInfo marks e = .ok marks' ∧ Marked s rest marks' := by
  obtain ⟨n, info⟩ := e
  have hx : s.mapInfo.lookup n = some info :=
    SortedMap.lookup_eq_some_iff.mpr (hmarks.mem _ mem_cons_self)
  have hx' := entry_of_lookup_eq hx
  have hnodup := nodup_cons.mp hmarks.nodup
  have hmem : ∀ e ∈ rest, e ∈ s.mapInfo.entries := fun e he => hmarks.mem e (mem_cons_of_mem _ he)
  unfold CAddrMan.checkInfo checkMarks
  dsimp only
  by_cases htried : info.fInTried = true
  · have hsuccess : info.nLastSuccess ≠ 0 := (h.times n _ hx').tried htried
    have href : info.nRefCount = 0 :=
      show info.unplaced.nRefCount = 0 from h.nRefCount_of_tried hx' htried
    refine ⟨(insert n marks.1, marks.2), ?_, hmem, hnodup.2, fun x => ?_, fun x => ?_⟩
    · simp only [htried, hsuccess, href, h.checkIndexes hx]
      rfl
    · rw [Finset.mem_insert, hmarks.tried]
      by_cases hxn : x = n
      · subst hxn
        simp only [true_or, true_iff]
        exact ⟨mem_idsWith.mpr (by rw [hx', Option.map_some]; exact congrArg some htried),
          hnodup.1⟩
      · simp [hxn]
    · rw [hmarks.new]
      by_cases hxn : x = n
      · subst hxn
        have hnot : x ∉ s.idsWith false := by
          rw [mem_idsWith, hx', Option.map_some]
          exact fun heq => absurd ((Option.some.inj heq).symm.trans htried) Bool.false_ne_true
        simp [hnot]
      · simp only [map_cons, mem_cons, hxn, false_or]
  · have hfalse : info.fInTried = false := Bool.eq_false_iff.mpr htried
    have hfew := h.few n _ hx' (Finset.notMem_empty n) hfalse
    have hpos : 1 ≤ info.nRefCount := hfew.1
    have hmax : info.nRefCount ≤ ADDRMAN_NEW_BUCKETS_PER_ADDRESS := hfew.2
    refine ⟨(marks.1, marks.2.insert n info.nRefCount), ?_, hmem, hnodup.2, fun x => ?_,
      fun x => ?_⟩
    · have hrange : ¬(info.nRefCount < 0 ∨ ADDRMAN_NEW_BUCKETS_PER_ADDRESS < info.nRefCount) := by
        omega
      have hne : info.nRefCount ≠ 0 := by omega
      rw [if_neg htried, if_neg hrange, if_neg hne, h.checkIndexes hx]
      rfl
    · rw [hmarks.tried]
      by_cases hxn : x = n
      · subst hxn
        have hnot : x ∉ s.idsWith true := by
          rw [mem_idsWith, hx', Option.map_some]
          exact fun heq => htried (Option.some.inj heq)
        simp [hnot]
      · simp [hxn]
    · rw [SortedMap.lookup_insert, hmarks.new]
      by_cases hxn : x = n
      · subst hxn
        have hin : x ∈ s.idsWith false := by
          rw [mem_idsWith, hx', Option.map_some]
          exact congrArg some hfalse
        rw [if_pos rfl, if_pos ⟨hin, hnodup.1⟩, hx']
        rfl
      · rw [if_neg hxn]
        simp only [map_cons, mem_cons, hxn, false_or]

/-- All entries are visited. -/
theorem checkInfos (h : Sound cheapHash s) :
    ∃ marks, s.mapInfo.entries.foldlM s.checkInfo (∅, ∅) = .ok marks ∧ Marked s [] marks := by
  refine Run.foldlM_total (P := fun rest marks => Marked s rest marks)
    (fun e rest marks hmarks => h.checkInfo hmarks)
    ⟨fun e he => he, s.mapInfo.sorted.imp fun hlt => hlt.ne, fun n => ?_, fun n => ?_⟩
  · refine iff_of_false (Finset.notMem_empty n) fun hn => hn.2 ?_
    exact mem_keys_of_idsWith hn.1
  · rw [SortedMap.lookup_empty, if_neg]
    exact fun hn => hn.2 (mem_keys_of_idsWith hn.1)

/-- Every entry is tried or new, and stands once in the random order. -/
theorem length_vRandom (h : Sound cheapHash s) : (s.vRandom.length : ℤ) = s.nTried + s.nNew := by
  have hdisjoint : Disjoint (s.idsWith true) (s.idsWith false) := by
    refine Finset.disjoint_left.mpr fun n htrue hfalse => ?_
    rw [mem_idsWith] at htrue hfalse
    exact absurd (Option.some.inj (htrue.symm.trans hfalse)) (by decide)
  have hunion : s.vRandom.toFinset = s.idsWith true ∪ s.idsWith false := by
    ext n
    rw [List.mem_toFinset, h.index.mem_iff, Finset.mem_union, mem_idsWith, mem_idsWith]
    constructor
    · intro hplace
      obtain ⟨p, hp⟩ := Option.isSome_iff_exists.mp hplace
      obtain ⟨info, hinfo, -⟩ := Option.bind_eq_some_iff.mp hp
      rw [entry_of_lookup_eq hinfo]
      cases hflag : info.unplaced.fInTried with
      | true => exact .inl (congrArg some hflag)
      | false => exact .inr (congrArg some hflag)
    · intro hflag
      have hsome : ∃ info, s.entry n = some info := by
        obtain hflag | hflag := hflag <;>
          exact (Option.map_eq_some_iff.mp hflag).imp fun info hinfo => hinfo.1
      obtain ⟨info, hinfo⟩ := hsome
      obtain ⟨found, hfound, -⟩ := exists_of_entry hinfo
      unfold place
      rw [hfound]
      exact h.placed n found hfound
  have hnNew := h.nNew
  have hcard := List.toFinset_card_of_nodup h.index.nodup
  rw [hunion, Finset.card_union_of_disjoint hdisjoint] at hcard
  have hnTried := h.nTried
  omega

theorem card_marks (h : Sound cheapHash s) {marks : CheckMarks} (hmarks : Marked s [] marks) :
    (marks.1.card : ℤ) = s.nTried ∧ (marks.2.count : ℤ) = s.nNew := by
  constructor
  · rw [hmarks.fst_eq, h.nTried]
  · have heq : marks.2.count = (s.idsWith false).card := by
      refine count_eq_card fun n => ?_
      rw [hmarks.new]
      by_cases hn : n ∈ s.idsWith false
      · obtain ⟨info, hinfo, -⟩ := Option.map_eq_some_iff.mp (mem_idsWith.mp hn)
        rw [if_pos ⟨hn, not_mem_nil⟩, hinfo]
        exact iff_of_true hn rfl
      · rw [if_neg fun hboth => hn hboth.1]
        exact iff_of_false hn Bool.false_ne_true
    have hnNew := h.nNew
    omega

/-! ## The places -/

theorem checkTriedCell (h : Sound cheapHash s)
    {c : Fin ADDRMAN_TRIED_BUCKET_COUNT × Fin ADDRMAN_BUCKET_SIZE}
    {rest : List (Fin ADDRMAN_TRIED_BUCKET_COUNT × Fin ADDRMAN_BUCKET_SIZE)} {setTried : Finset ℕ}
    (hnodup : (c :: rest).Nodup)
    (hset : ∀ n, n ∈ setTried ↔ ∃ d ∈ c :: rest, s.vvTried d.1 d.2 = some n) :
    ∃ setTried', s.checkTriedCell cheapHash setTried c = .ok setTried' ∧ rest.Nodup ∧
      ∀ n, n ∈ setTried' ↔ ∃ d ∈ rest, s.vvTried d.1 d.2 = some n := by
  obtain ⟨hnot, hrest⟩ := nodup_cons.mp hnodup
  unfold CAddrMan.checkTriedCell
  cases hcell : s.vvTried c.1 c.2 with
  | none =>
    refine ⟨setTried, rfl, hrest, fun n => (hset n).trans ?_⟩
    simp [hcell]
  | some nId =>
    obtain ⟨info, hinfo, htried, hb, hp⟩ := (h.tried c.1 c.2 nId).mp hcell
    obtain ⟨found, hfound, rfl⟩ := exists_of_entry hinfo
    have hin : nId ∈ setTried := (hset nId).mpr ⟨c, mem_cons_self, hcell⟩
    have hbucket : found.getTriedBucket cheapHash s.nKey = c.1 := hb.symm
    have hposition : found.getBucketPosition cheapHash s.nKey false c.1 = c.2 := by
      rw [hp, hb]
      rfl
    refine ⟨setTried.erase nId, ?_, hrest, fun n => ?_⟩
    · simp [hin, hfound, hbucket, hposition]
    · rw [Finset.mem_erase, hset]
      constructor
      · rintro ⟨hne, d, hd, hdcell⟩
        obtain rfl | hd := mem_cons.mp hd
        · exact absurd (Option.some.inj (hdcell.symm.trans hcell)) hne
        · exact ⟨d, hd, hdcell⟩
      · rintro ⟨d, hd, hdcell⟩
        refine ⟨?_, d, mem_cons_of_mem _ hd, hdcell⟩
        -- an entry belongs into one place
        rintro rfl
        obtain ⟨info, hinfo', -, hb', hp'⟩ := (h.tried d.1 d.2 n).mp hdcell
        obtain rfl := Option.some.inj (hinfo.symm.trans hinfo')
        have hdc : d = c := Prod.ext (hb'.trans hb.symm) (hp'.trans hp.symm)
        exact hnot (hdc ▸ hd)

/-- All places of the tried table are visited. -/
theorem checkTriedCells (h : Sound cheapHash s) :
    (places ADDRMAN_TRIED_BUCKET_COUNT ADDRMAN_BUCKET_SIZE).foldlM
      (s.checkTriedCell cheapHash) (s.idsWith true) = .ok ∅ := by
  have hstart : ∀ n, n ∈ s.idsWith true ↔ ∃ d ∈ places ADDRMAN_TRIED_BUCKET_COUNT
      ADDRMAN_BUCKET_SIZE, s.vvTried d.1 d.2 = some n := by
    intro n
    rw [mem_idsWith, Option.map_eq_some_iff]
    constructor
    · rintro ⟨info, hinfo, htried⟩
      exact ⟨(info.getTriedBucket cheapHash s.nKey, info.triedPlace cheapHash s.nKey),
        mem_places _, (h.tried _ _ n).mpr ⟨info, hinfo, htried, rfl, rfl⟩⟩
    · rintro ⟨d, -, hcell⟩
      obtain ⟨info, hinfo, htried, -⟩ := (h.tried d.1 d.2 n).mp hcell
      exact ⟨info, hinfo, htried⟩
  obtain ⟨left, hleft, -, hnone⟩ := Run.foldlM_total
    (P := fun rest setTried => rest.Nodup ∧
      ∀ n, n ∈ setTried ↔ ∃ d ∈ rest, s.vvTried d.1 d.2 = some n)
    (fun c rest setTried hP => h.checkTriedCell hP.1 hP.2) ⟨nodup_places _ _, hstart⟩
  have hempty : left = ∅ := by
    refine Finset.eq_empty_of_forall_notMem fun n hn => ?_
    obtain ⟨d, hd, -⟩ := (hnone n).mp hn
    exact not_mem_nil hd
  rw [hleft, hempty]

theorem checkNewCell (h : Sound cheapHash s)
    {c : Fin ADDRMAN_NEW_BUCKET_COUNT × Fin ADDRMAN_BUCKET_SIZE}
    {rest : List (Fin ADDRMAN_NEW_BUCKET_COUNT × Fin ADDRMAN_BUCKET_SIZE)}
    {mapNew : SortedMap ℕ ℤ} (hmap : Owing s (c :: rest) mapNew) :
    ∃ mapNew', s.checkNewCell cheapHash mapNew c = .ok mapNew' ∧ Owing s rest mapNew' := by
  unfold CAddrMan.checkNewCell
  cases hcell : s.vvNew c.1 c.2 with
  | none =>
    refine ⟨mapNew, rfl, fun n => (hmap n).trans ?_⟩
    rw [ahead_cons, hcell]
    rfl
  | some nId =>
    obtain ⟨info, hinfo, -, hp⟩ := h.new c.1 c.2 nId hcell
    obtain ⟨found, hfound, rfl⟩ := exists_of_entry hinfo
    have hplace : found.newPlace cheapHash s.nKey c.1 = c.2 := hp.symm
    have hahead : s.ahead (c :: rest) nId = s.ahead rest nId + 1 := by
      rw [ahead_cons, hcell]
      exact if_pos rfl ▸ rfl
    have hlookup : mapNew.lookup nId = some (s.ahead rest nId + 1 : ℤ) := by
      rw [hmap, hahead, if_neg (Nat.succ_ne_zero _), Nat.cast_add, Nat.cast_one]
    have hother : ∀ n, n ≠ nId → mapNew.lookup n =
        if s.ahead rest n = 0 then none else some (s.ahead rest n : ℤ) := by
      intro n hn
      have hne : some nId ≠ some n := fun heq => hn (Option.some.inj heq).symm
      rw [hmap, ahead_cons, hcell, if_neg hne, Nat.add_zero]
    simp only [hlookup, hfound, Option.getD_some, hplace, ne_eq, not_true_eq_false, if_false,
      add_sub_cancel_right, Nat.cast_eq_zero]
    by_cases hzero : s.ahead rest nId = 0
    · rw [if_pos hzero]
      refine ⟨_, rfl, fun n => ?_⟩
      rw [SortedMap.lookup_erase]
      split_ifs with hn hnone
      · rfl
      · exact absurd (hn ▸ hzero) hnone
      · rw [hother n hn, if_pos ‹_›]
      · rw [hother n hn, if_neg ‹_›]
    · rw [if_neg hzero]
      refine ⟨_, rfl, fun n => ?_⟩
      rw [SortedMap.lookup_insert]
      split_ifs with hn hnone
      · exact absurd (hn ▸ hnone) hzero
      · rw [hn]
      · rw [hother n hn, if_pos ‹_›]
      · rw [hother n hn, if_neg ‹_›]

/-- The references of every entry are its places. -/
theorem owing (h : Sound cheapHash s) {marks : CheckMarks} (hmarks : Marked s [] marks) :
    Owing s (places ADDRMAN_NEW_BUCKET_COUNT ADDRMAN_BUCKET_SIZE) marks.2 := by
  intro n
  have hahead : s.ahead (places ADDRMAN_NEW_BUCKET_COUNT ADDRMAN_BUCKET_SIZE) n =
      (cells s.vvNew).count n := rfl
  rw [hmarks.new, hahead]
  by_cases hn : n ∈ s.idsWith false
  · obtain ⟨info, hinfo, hfalse⟩ := Option.map_eq_some_iff.mp (mem_idsWith.mp hn)
    have hhome : ∀ b p, s.vvNew b p = some n → p = info.newPlace cheapHash s.nKey b :=
      fun b p hcell => (h.mem_references hinfo hcell).2
    have hcount := h.references n info hinfo
    rw [← count_cells hhome] at hcount
    have hpos := (h.few n info hinfo (Finset.notMem_empty n) hfalse).1
    have hne : (cells s.vvNew).count n ≠ 0 := by omega
    rw [if_pos ⟨hn, not_mem_nil⟩, if_neg hne, hinfo, Option.map_some, hcount]
  · have hzero : (cells s.vvNew).count n = 0 := by
      rw [List.count_eq_zero, mem_cells]
      rintro ⟨b, p, hcell⟩
      obtain ⟨info, hinfo, hfalse, -⟩ := h.new b p n hcell
      exact hn (mem_idsWith.mpr (hinfo ▸ congrArg some hfalse))
    rw [if_neg fun hboth => hn hboth.1, if_pos hzero]

/-- All places of the new table are visited. -/
theorem checkNewCells (h : Sound cheapHash s) {marks : CheckMarks} (hmarks : Marked s [] marks) :
    ∃ mapNew, (places ADDRMAN_NEW_BUCKET_COUNT ADDRMAN_BUCKET_SIZE).foldlM
      (s.checkNewCell cheapHash) marks.2 = .ok mapNew ∧ mapNew.count = 0 := by
  obtain ⟨left, hleft, hnone⟩ := Run.foldlM_total (P := fun rest mapNew => Owing s rest mapNew)
    (fun c rest mapNew hP => h.checkNewCell hP) (h.owing hmarks)
  refine ⟨left, hleft, count_eq_card (t := ∅) fun n => ?_⟩
  rw [hnone n]
  exact iff_of_false (Finset.notMem_empty n) Bool.false_ne_true

theorem checkTables (h : Sound cheapHash s) : s.checkTables cheapHash = .ok () := by
  obtain ⟨marks, hmarks, hmarked⟩ := h.checkInfos
  obtain ⟨hcard, hcount⟩ := h.card_marks hmarked
  obtain ⟨mapNew, hnew, hnewCount⟩ := h.checkNewCells hmarked
  have htried := h.checkTriedCells
  rw [← hmarked.fst_eq] at htried
  unfold CAddrMan.checkTables
  rw [if_neg (not_not.mpr h.length_vRandom)]
  simp only [hmarks, htried, hnew, Except.bind, bind, pure, Except.pure, hcard, hcount,
    hnewCount, Finset.card_empty, h.nKey, ne_eq, not_true_eq_false, if_false]

/-- A sound manager passes its own check. -/
theorem check (h : Sound cheapHash s) : s.check_ cheapHash = 0 := by
  unfold CAddrMan.check_
  rw [h.checkTables]

end Partly

end BitBay.CAddrMan
