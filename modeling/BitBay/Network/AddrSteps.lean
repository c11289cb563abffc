import BitBay.Network.AddrTables

/-!
# What the functions of the address manager keep

No assertion of the manager fails, and every function keeps the tables, the counters and the
bounds of what an entry may be. Entries that are being moved are exempt from the bounds, and the
counter of the new entries may lag behind by those that it has been told of too early.
-/
namespace BitBay.CAddrMan

variable {s s' : CAddrMan} {cheapHash : List UInt8 → ℕ} {nId x : ℕ} {info info' : CAddrInfo}
  {loose loose' : Finset ℕ} {k : ℤ}

/-! ## Counters -/

/-- The numbers of the entries that are tried, or are not. -/
def idsWith (s : CAddrMan) (fInTried : Bool) : Finset ℕ :=
  s.mapInfo.keys.toFinset.filter fun nId => (s.entry nId).map (·.fInTried) = some fInTried

@[simp] theorem mem_idsWith {fInTried : Bool} :
    nId ∈ s.idsWith fInTried ↔ (s.entry nId).map (·.fInTried) = some fInTried := by
  unfold idsWith
  rw [Finset.mem_filter, and_iff_right_iff_imp, List.mem_toFinset]
  intro hflag
  obtain ⟨info, hinfo, -⟩ := Option.map_eq_some_iff.mp hflag
  obtain ⟨found, hfound, -⟩ := exists_of_entry hinfo
  exact mem_mapInfo hfound

theorem idsWith_congr (h : ∀ x, (s'.entry x).map (·.fInTried) = (s.entry x).map (·.fInTried))
    (fInTried : Bool) : s'.idsWith fInTried = s.idsWith fInTried := by
  ext x
  rw [mem_idsWith, mem_idsWith, h]

/-! ## Where the entries come from -/

/-- No entry is new, and none has changed its address or port. -/
structure Inherits (s s' : CAddrMan) : Prop where
  entry : ∀ x info', s'.entry x = some info' → ∃ info, s.entry x = some info ∧
    info'.toCService = info.toCService
  nIdCount : s'.nIdCount = s.nIdCount

namespace Inherits

theorem of_eq (h : s'.entry = s.entry) (hcount : s'.nIdCount = s.nIdCount) : Inherits s s' :=
  ⟨fun _ info' hx' => ⟨info', h ▸ hx', rfl⟩, hcount⟩

theorem refl (s : CAddrMan) : Inherits s s := of_eq rfl rfl

theorem trans {s'' : CAddrMan} (h : Inherits s s') (h' : Inherits s' s'') : Inherits s s'' := by
  refine ⟨fun x info'' hx'' => ?_, h'.nIdCount.trans h.nIdCount⟩
  obtain ⟨info', hx', hservice'⟩ := h'.entry x info'' hx''
  obtain ⟨info, hx, hservice⟩ := h.entry x info' hx'
  exact ⟨info, hx, hservice'.trans hservice⟩

theorem of_set (hx : s.entry nId = some info)
    (hentry : ∀ x, s'.entry x = if x = nId then some info' else s.entry x)
    (hservice : info'.toCService = info.toCService) (hcount : s'.nIdCount = s.nIdCount) :
    Inherits s s' := by
  refine ⟨fun x info'' hx'' => ?_, hcount⟩
  rw [hentry] at hx''
  split_ifs at hx'' with hxn
  · cases hx''
    exact ⟨info, hxn ▸ hx, hservice⟩
  · exact ⟨info'', hx'', rfl⟩

theorem of_erase (hentry : ∀ x, s'.entry x = if x = nId then none else s.entry x)
    (hcount : s'.nIdCount = s.nIdCount) : Inherits s s' := by
  refine ⟨fun x info' hx' => ?_, hcount⟩
  rw [hentry] at hx'
  split_ifs at hx'
  exact ⟨info', hx', rfl⟩

theorem updateInfo {f : CAddrInfo → CAddrInfo} (hf : ∀ info, (f info).unplaced = f info.unplaced)
    (hservice : ∀ info, (f info).toCService = info.toCService) :
    Inherits s (s.updateInfo nId f) := by
  refine ⟨fun x info' hx' => ?_, updateInfo_nIdCount⟩
  rw [entry_updateInfo s nId f hf] at hx'
  split_ifs at hx'
  · obtain ⟨info, hinfo, rfl⟩ := Option.map_eq_some_iff.mp hx'
    exact ⟨info, hinfo, hservice info⟩
  · exact ⟨info', hx', rfl⟩

end Inherits

/-! ## The invariant -/

/-- What an entry may be, once it stands where it belongs. -/
def FewReferences (info : CAddrInfo) : Prop :=
  info.fInTried = false → 1 ≤ info.nRefCount ∧ info.nRefCount ≤ ADDRMAN_NEW_BUCKETS_PER_ADDRESS

structure GoodTimes (info : CAddrInfo) : Prop where
  nLastTry : 0 ≤ info.nLastTry.toInt
  nLastSuccess : 0 ≤ info.nLastSuccess.toInt
  tried : info.fInTried = true → info.nLastSuccess ≠ 0

/-- The manager while the entries `loose` are being moved, `k` of which the counter of the new
entries leaves out. -/
structure Partly (cheapHash : List UInt8 → ℕ) (s : CAddrMan) (loose : Finset ℕ) (k : ℤ) : Prop
    extends s.Tables cheapHash where
  nTried : s.nTried = (s.idsWith true).card
  nNew : s.nNew + k = (s.idsWith false).card
  few : ∀ nId info, s.entry nId = some info → nId ∉ loose → FewReferences info
  times : ∀ nId info, s.entry nId = some info → GoodTimes info
  nKey : s.nKey ≠ 0

abbrev Sound (cheapHash : List UInt8 → ℕ) (s : CAddrMan) : Prop := Partly cheapHash s ∅ 0

namespace Partly

theorem mono (h : Partly cheapHash s loose k) (hsub : loose ⊆ loose') :
    Partly cheapHash s loose' k :=
  { h with few := fun nId info hx hloose => h.few nId info hx fun hmem => hloose (hsub hmem) }

/-- One counter is set. -/
theorem of_nNew (h : Partly cheapHash s loose k) {n k' : ℤ} (hn : n + k' = s.nNew + k) :
    Partly cheapHash { s with nNew := n } loose k' where
  index := h.index
  placed := h.placed
  idCount := h.idCount
  addr := h.addr
  new := h.new
  references := h.references
  tried := h.tried
  nTried := h.nTried
  nNew := hn.trans h.nNew
  few := h.few
  times := h.times
  nKey := h.nKey

/-- One entry is replaced, by one that is tried if it was. -/
theorem of_set (h : Partly cheapHash s loose k) (htables : s'.Tables cheapHash)
    (hx : s.entry nId = some info)
    (hentry : ∀ x, s'.entry x = if x = nId then some info' else s.entry x)
    (hflag : info'.fInTried = info.fInTried) (hloose : loose ⊆ insert nId loose')
    (hfew : nId ∉ loose' → FewReferences info') (htimes : GoodTimes info')
    (hnTried : s'.nTried = s.nTried) (hnNew : s'.nNew = s.nNew) (hnKey : s'.nKey = s.nKey) :
    Partly cheapHash s' loose' k := by
  have hids : ∀ fInTried, s'.idsWith fInTried = s.idsWith fInTried := idsWith_congr fun x => by
    rw [hentry]
    split_ifs with hxn
    · rw [hxn, hx, Option.map_some, Option.map_some, hflag]
    · rfl
  refine { htables with
    nTried := by rw [hnTried, hids, h.nTried]
    nNew := by rw [hnNew, hids, h.nNew]
    few := fun x info'' hx'' hnot => ?_
    times := fun x info'' hx'' => ?_
    nKey := hnKey ▸ h.nKey }
  · rw [hentry] at hx''
    split_ifs at hx'' with hxn
    · cases hx''
      exact hfew (hxn ▸ hnot)
    · refine h.few x info'' hx'' fun hmem => ?_
      rcases Finset.mem_insert.mp (hloose hmem) with heq | hmem
      · exact hxn heq
      · exact hnot hmem
  · rw [hentry] at hx''
    split_ifs at hx''
    · cases hx''
      exact htimes
    · exact h.times x info'' hx''

/-- An entry without references is deleted. -/
theorem delete (h : Partly cheapHash s loose k) (hx : s.entry nId = some info)
    (htried : info.fInTried = false) (href : info.nRefCount = 0)
    (hloose : loose ⊆ insert nId loose') :
    ∃ s', s.delete nId = some s' ∧ Partly cheapHash s' loose' k ∧ SameTables s s' ∧
      ∀ x, s'.entry x = if x = nId then none else s.entry x := by
  obtain ⟨s', hdelete, htables, hsame, hnNew, hentry⟩ := h.toTables.delete hx htried href
  have htriedIds : s'.idsWith true = s.idsWith true := by
    ext x
    rw [mem_idsWith, mem_idsWith, hentry]
    split_ifs with hxn
    · simp [hxn, hx, htried]
    · rfl
  have hnewIds : s'.idsWith false = (s.idsWith false).erase nId := by
    ext x
    rw [Finset.mem_erase, mem_idsWith, mem_idsWith, hentry]
    split_ifs with hxn <;> simp [hxn]
  have hmem : nId ∈ s.idsWith false := by rw [mem_idsWith, hx, Option.map_some, htried]
  have hpos := Finset.card_pos.mpr ⟨nId, hmem⟩
  have hback : ∀ x info', s'.entry x = some info' → x ≠ nId ∧ s.entry x = some info' := by
    intro x info' hx'
    rw [hentry] at hx'
    split_ifs at hx' with hxn
    exact ⟨hxn, hx'⟩
  refine ⟨s', hdelete, { htables with
    nTried := by rw [hsame.nTried, htriedIds, h.nTried]
    nNew := ?_
    few := fun x info' hx' hnot => ?_
    times := fun x info' hx' => h.times x info' (hback x info' hx').2
    nKey := by rw [hsame.nKey]; exact h.nKey }, hsame, hentry⟩
  · have hnew := h.nNew
    rw [hnNew, hnewIds, Finset.card_erase_of_mem hmem]
    omega
  · obtain ⟨hxn, hx'⟩ := hback x info' hx'
    refine h.few x info' hx' fun hmem => ?_
    rcases Finset.mem_insert.mp (hloose hmem) with heq | hmem
    · exact hxn heq
    · exact hnot hmem

/-- A place of the new table is cleared, with the entry that has no other one. -/
theorem clearNew (h : Partly cheapHash s loose k) (b : Fin ADDRMAN_NEW_BUCKET_COUNT)
    (p : Fin ADDRMAN_BUCKET_SIZE) :
    ∃ s', s.clearNew b p = some s' ∧ Partly cheapHash s' loose k ∧
      s'.vvNew = setCell s.vvNew b p none ∧ s'.vvTried = s.vvTried ∧ s'.nKey = s.nKey ∧
      (∀ x, s.vvNew b p ≠ some x → s'.entry x = s.entry x) ∧ Inherits s s' := by
  unfold CAddrMan.clearNew
  cases hcell : s.vvNew b p with
  | none =>
    refine ⟨s, rfl, h, ?_, rfl, rfl, fun x _ => rfl, .refl s⟩
    funext b' p'
    by_cases hat : b' = b ∧ p' = p
    · rw [hat.1, hat.2, hcell, setCell_self]
    · rw [setCell_of_ne hat]
  | some nIdDelete =>
    obtain ⟨info, hx, htried, -⟩ := h.new b p nIdDelete hcell
    obtain ⟨found, hfound, rfl⟩ := exists_of_entry hx
    have hpos : 0 < found.nRefCount :=
      show 0 < found.unplaced.nRefCount from h.nRefCount_pos hx hcell
    have hleave := h.toTables.leaveNew hx hcell
    have hentry := entry_leaveNew (b := b) (p := p) hx
    set s1 := s.leaveNew nIdDelete b p with hs1
    have hx1 : s1.entry nIdDelete =
        some { found.unplaced with nRefCount := found.nRefCount - 1 } := by
      rw [hentry, if_pos rfl]
      rfl
    have hsame : SameTables _ s1 := sameTables_leaveNew
    have hservice : Inherits s s1 := .of_set hx hentry rfl hsame.nIdCount
    have hpartly {loose' : Finset ℕ} (hloose : loose ⊆ insert nIdDelete loose')
        (hfew : nIdDelete ∉ loose' →
          FewReferences { found.unplaced with nRefCount := found.nRefCount - 1 }) :
        Partly cheapHash s1 loose' k :=
      h.of_set hleave hx hentry rfl hloose hfew
        ⟨(h.times _ _ hx).1, (h.times _ _ hx).2, (h.times _ _ hx).3⟩ hsame.nTried
        updateInfo_nNew hsame.nKey
    simp only [hfound, Option.bind_eq_bind, Option.bind_some, hpos, guard, if_true]
    by_cases hlast : found.nRefCount - 1 = 0
    · obtain ⟨s', hdelete, hs', hsame', hentry'⟩ :=
        (hpartly (Finset.subset_insert nIdDelete loose |>.trans
          (Finset.insert_subset_insert _ (Finset.subset_insert nIdDelete loose)))
          fun hnot => absurd (Finset.mem_insert_self _ _) hnot).delete hx1 htried hlast
          (Finset.Subset.refl (insert nIdDelete loose))
      refine ⟨s', ?_, hs', ?_, ?_, ?_, fun x hne => ?_,
        hservice.trans (.of_erase hentry' hsame'.nIdCount)⟩
      · rw [if_pos hlast]
        exact hdelete
      · rw [hsame'.vvNew]
        exact hsame.vvNew
      · rw [hsame'.vvTried]
        exact hsame.vvTried
      · rw [hsame'.nKey]
        exact hsame.nKey
      · have hxn : x ≠ nIdDelete := fun hxn => hne (hxn ▸ rfl)
        rw [hentry', if_neg hxn, hentry, if_neg hxn]
    · refine ⟨s1, ?_, hpartly (Finset.subset_insert _ _) fun hnot _ => ?_, hsame.vvNew,
        hsame.vvTried, hsame.nKey, fun x hne => ?_, hservice⟩
      · rw [if_neg hlast]
        rfl
      · have hfew := (h.few _ _ hx hnot htried).2
        exact ⟨show 1 ≤ found.nRefCount - 1 by omega,
          (show found.nRefCount - 1 ≤ found.nRefCount by omega).trans hfew⟩
      · have hxn : x ≠ nIdDelete := fun hxn => hne (hxn ▸ rfl)
        rw [hentry, if_neg hxn]

/-- The entry of a place of the tried table leaves it. -/
theorem untry (h : Partly cheapHash s loose k) (hx : s.entry nId = some info)
    {b : Fin ADDRMAN_TRIED_BUCKET_COUNT} {p : Fin ADDRMAN_BUCKET_SIZE}
    (hcell : s.vvTried b p = some nId) :
    Partly cheapHash (s.untry nId b p) (insert nId loose) (k + 1) := by
  obtain ⟨found, hfound, htried, -⟩ := (h.tried b p nId).mp hcell
  cases hx.symm.trans hfound
  have hentry : ∀ x, (s.untry nId b p).entry x =
      if x = nId then some { info with fInTried := false } else s.entry x :=
    entry_setTried hx false rfl
  have htriedIds : (s.untry nId b p).idsWith true = (s.idsWith true).erase nId := by
    ext x
    rw [Finset.mem_erase, mem_idsWith, mem_idsWith, hentry]
    split_ifs with hxn <;> simp [hxn]
  have hnewIds : (s.untry nId b p).idsWith false = insert nId (s.idsWith false) := by
    ext x
    rw [Finset.mem_insert, mem_idsWith, mem_idsWith, hentry]
    split_ifs with hxn <;> simp [hxn]
  have hmem : nId ∈ s.idsWith true := by rw [mem_idsWith, hx, Option.map_some, htried]
  have hnot : nId ∉ s.idsWith false := by simp [hx, htried]
  have hpos := Finset.card_pos.mpr ⟨nId, hmem⟩
  refine { h.toTables.untry hx hcell with
    nTried := ?_
    nNew := ?_
    few := fun x info' hx' hloose => ?_
    times := fun x info' hx' => ?_
    nKey := fun hzero => h.nKey (updateInfo_nKey.symm.trans hzero) }
  · have hcount := h.nTried
    rw [htriedIds, Finset.card_erase_of_mem hmem,
      show (s.untry nId b p).nTried = s.nTried - 1 from rfl]
    omega
  · have hcount := h.nNew
    rw [hnewIds, Finset.card_insert_of_notMem hnot,
      show (s.untry nId b p).nNew = s.nNew from updateInfo_nNew]
    push_cast
    omega
  · rw [Finset.mem_insert, not_or] at hloose
    rw [hentry, if_neg hloose.1] at hx'
    exact h.few x info' hx' hloose.2
  · rw [hentry] at hx'
    split_ifs at hx'
    · cases hx'
      exact ⟨(h.times _ _ hx).1, (h.times _ _ hx).2, fun htrue => by cases htrue⟩
    · exact h.times x info' hx'

/-- An entry without references enters the tried table. -/
theorem enterTried (h : Partly cheapHash s loose k) (hx : s.entry nId = some info)
    (htried : info.fInTried = false) (href : info.nRefCount = 0) (hsuccess : info.nLastSuccess ≠ 0)
    {b : Fin ADDRMAN_TRIED_BUCKET_COUNT} {p : Fin ADDRMAN_BUCKET_SIZE}
    (hb : b = info.getTriedBucket cheapHash s.nKey) (hp : p = info.triedPlace cheapHash s.nKey)
    (hcell : s.vvTried b p = none) (hloose : loose ⊆ insert nId loose') :
    Partly cheapHash (s.enterTried nId b p) loose' (k - 1) := by
  have hentry : ∀ x, (s.enterTried nId b p).entry x =
      if x = nId then some { info with fInTried := true } else s.entry x :=
    entry_setTried hx true rfl
  have htriedIds : (s.enterTried nId b p).idsWith true = insert nId (s.idsWith true) := by
    ext x
    rw [Finset.mem_insert, mem_idsWith, mem_idsWith, hentry]
    split_ifs with hxn <;> simp [hxn]
  have hnewIds : (s.enterTried nId b p).idsWith false = (s.idsWith false).erase nId := by
    ext x
    rw [Finset.mem_erase, mem_idsWith, mem_idsWith, hentry]
    split_ifs with hxn <;> simp [hxn]
  have hmem : nId ∈ s.idsWith false := by rw [mem_idsWith, hx, Option.map_some, htried]
  have hnot : nId ∉ s.idsWith true := by simp [hx, htried]
  have hpos := Finset.card_pos.mpr ⟨nId, hmem⟩
  refine { h.toTables.enterTried hx href hb hp hcell with
    nTried := ?_
    nNew := ?_
    few := fun x info' hx' hnot => ?_
    times := fun x info' hx' => ?_
    nKey := fun hzero => h.nKey (updateInfo_nKey.symm.trans hzero) }
  · have hcount := h.nTried
    rw [htriedIds, Finset.card_insert_of_notMem hnot,
      show (s.enterTried nId b p).nTried = s.nTried + 1 from rfl]
    push_cast
    omega
  · have hcount := h.nNew
    rw [hnewIds, Finset.card_erase_of_mem hmem,
      show (s.enterTried nId b p).nNew = s.nNew from updateInfo_nNew]
    omega
  · rw [hentry] at hx'
    split_ifs at hx' with hxn
    · cases hx'
      exact fun hfalse => by cases hfalse
    · refine h.few x info' hx' fun hmem => ?_
      rcases Finset.mem_insert.mp (hloose hmem) with heq | hmem
      · exact hxn heq
      · exact hnot hmem
  · rw [hentry] at hx'
    split_ifs at hx'
    · cases hx'
      exact ⟨(h.times _ _ hx).1, (h.times _ _ hx).2, fun _ => hsuccess⟩
    · exact h.times x info' hx'

/-- An entry gets one more place of the new table. -/
theorem enterNew (h : Partly cheapHash s loose k) (hx : s.entry nId = some info)
    (htried : info.fInTried = false) {b : Fin ADDRMAN_NEW_BUCKET_COUNT}
    {p : Fin ADDRMAN_BUCKET_SIZE} (hp : p = info.newPlace cheapHash s.nKey b)
    (hcell : s.vvNew b p = none) {n : ℤ} (hn : n = info.nRefCount + 1)
    (hfew : info.nRefCount < ADDRMAN_NEW_BUCKETS_PER_ADDRESS) (hloose : loose ⊆ insert nId loose') :
    Partly cheapHash (s.enterNew nId b p n) loose' k := by
  have hsame : SameTables _ (s.enterNew nId b p n) := sameTables_enterNew n
  refine h.of_set (h.toTables.enterNew hx htried hp hcell hn) hx (entry_enterNew hx n) rfl hloose
    (fun _ _ => ?_) ⟨(h.times _ _ hx).1, (h.times _ _ hx).2, (h.times _ _ hx).3⟩ hsame.nTried
      updateInfo_nNew hsame.nKey
  have href := h.references nId info hx
  exact ⟨show 1 ≤ n by omega, show n ≤ ADDRMAN_NEW_BUCKETS_PER_ADDRESS by omega⟩

/-- A tried entry goes back to the new table. -/
theorem evict (h : Partly cheapHash s loose k) {b : Fin ADDRMAN_TRIED_BUCKET_COUNT}
    {p : Fin ADDRMAN_BUCKET_SIZE} (hcell : s.vvTried b p = some nId) :
    ∃ s', s.evict cheapHash b p nId = some s' ∧ Partly cheapHash s' loose k ∧
      s'.vvTried = setCell s.vvTried b p none ∧ s'.nKey = s.nKey ∧
      (∀ x info, x ≠ nId → s.entry x = some info → info.nRefCount = 0 →
        s'.entry x = some info) ∧ Inherits s s' := by
  obtain ⟨info, hx, htried, -⟩ := (h.tried b p nId).mp hcell
  obtain ⟨found, hfound, rfl⟩ := exists_of_entry hx
  have h1 := h.untry hx hcell
  have hentry1 : ∀ x, (s.untry nId b p).entry x =
      if x = nId then some { found.unplaced with fInTried := false } else s.entry x :=
    entry_setTried hx false rfl
  have hnKey1 : (s.untry nId b p).nKey = s.nKey := updateInfo_nKey
  set s1 := s.untry nId b p with hs1
  have hx1 : s1.entry nId = some { found.unplaced with fInTried := false } := by
    rw [hentry1, if_pos rfl]
  have href1 : found.nRefCount = 0 :=
    show found.unplaced.nRefCount = 0 from h.nRefCount_of_tried hx htried
  let bu := found.getNewBucket cheapHash s1.nKey found.source
  let pu := found.newPlace cheapHash s1.nKey bu
  obtain ⟨s2, hclear, h2, hvvNew2, hvvTried2, hnKey2, hentry2, hservice2⟩ := h1.clearNew bu pu
  have hnot : ∀ x info, s1.entry x = some info → info.nRefCount = 0 →
      s2.entry x = some info := by
    intro x info hx' href
    rw [hentry2 x (h1.not_cell hx' href bu pu), hx']
  have hx2 := hnot nId _ hx1 href1
  have hcell2 : s2.vvNew bu pu = none := by rw [hvvNew2, setCell_self]
  have h3 := h2.enterNew hx2 rfl (show pu = _ by rw [hnKey2]; rfl) hcell2
    (show (1 : ℤ) = found.nRefCount + 1 by omega) (show found.nRefCount < 8 by omega)
    (Finset.Subset.refl _)
  have hsame3 : SameTables _ (s2.enterNew nId bu pu 1) := sameTables_enterNew 1
  refine ⟨{ s2.enterNew nId bu pu 1 with nNew := (s2.enterNew nId bu pu 1).nNew + 1 }, ?_,
    h3.of_nNew (by ring), ?_, ?_, ?_, ?_⟩
  · simp only [CAddrMan.evict, hfound, Option.bind_eq_bind, Option.bind_some]
    rw [show s.untry nId b p = s1 from rfl] at hs1
    change (s1.clearNew bu pu).bind _ = _
    rw [hclear, Option.bind_some]
    change Option.bind (guard (s2.vvNew bu pu = none)) _ = _
    rw [hcell2]
    rfl
  · exact hsame3.vvTried.trans hvvTried2
  · exact hsame3.nKey.trans (hnKey2.trans hnKey1)
  · intro x info hxn hx' href
    have hx2' := hnot x info (by rw [hentry1, if_neg hxn, hx']) href
    have hentry3 := entry_enterNew (b := bu) (p := pu) hx2 1 x
    rw [if_neg hxn, hx2'] at hentry3
    exact hentry3
  · have hservice1 : Inherits s s1 := .of_set hx hentry1 rfl updateInfo_nIdCount
    have hservice3 : Inherits s2 (s2.enterNew nId bu pu 1) :=
      .of_set hx2 (entry_enterNew hx2 1) rfl hsame3.nIdCount
    exact (hservice1.trans hservice2).trans ⟨hservice3.entry, hservice3.nIdCount⟩

/-- An entry that is being moved loses its place in one bucket. -/
theorem leaveBucket (h : Partly cheapHash s loose k) (hx : s.entry nId = some info)
    (hmem : nId ∈ loose) {found : CAddrInfo} (hservice : found.toCService = info.toCService)
    (b : Fin ADDRMAN_NEW_BUCKET_COUNT) :
    ∃ n, Partly cheapHash (s.leaveBucket cheapHash nId found b) loose k ∧
      (∀ x, (s.leaveBucket cheapHash nId found b).entry x =
        if x = nId then some { info with nRefCount := n } else s.entry x) ∧
      (s.leaveBucket cheapHash nId found b).vvTried = s.vvTried ∧
      (s.leaveBucket cheapHash nId found b).nKey = s.nKey ∧
      (s.leaveBucket cheapHash nId found b).nIdCount = s.nIdCount ∧
      (∀ p, (s.leaveBucket cheapHash nId found b).vvNew b p ≠ some nId) ∧
      ∀ b' p, s.vvNew b' p ≠ some nId →
        (s.leaveBucket cheapHash nId found b).vvNew b' p ≠ some nId := by
  have hplace : found.newPlace cheapHash s.nKey b = info.newPlace cheapHash s.nKey b := by
    rw [hservice]
  unfold CAddrMan.leaveBucket
  rw [hplace]
  dsimp only
  split_ifs with hcell
  · have hsame : SameTables _ (s.leaveNew nId b (info.newPlace cheapHash s.nKey b)) :=
      sameTables_leaveNew
    refine ⟨info.nRefCount - 1, h.of_set (h.toTables.leaveNew hx hcell) hx (entry_leaveNew hx) rfl
      (Finset.subset_insert _ _) (fun hnot => absurd hmem hnot)
      ⟨(h.times _ _ hx).1, (h.times _ _ hx).2, (h.times _ _ hx).3⟩ hsame.nTried updateInfo_nNew
      hsame.nKey, entry_leaveNew hx, hsame.vvTried, hsame.nKey, hsame.nIdCount, fun p => ?_,
      fun b' p hnot => ?_⟩
    · rw [hsame.vvNew]
      intro hat
      rcases setCell_eq_some hat with ⟨-, -, hnone⟩ | ⟨hne, hat⟩
      · cases hnone
      · exact hne ⟨rfl, (h.mem_references hx hat).2⟩
    · rw [hsame.vvNew]
      intro hat
      rcases setCell_eq_some hat with ⟨-, -, hnone⟩ | ⟨-, hat⟩
      · cases hnone
      · exact hnot hat
  · refine ⟨info.nRefCount, h, fun x => ?_, rfl, rfl, rfl, fun p hat => hcell ?_, fun _ _ hnot => hnot⟩
    · split_ifs with hxn
      · rw [hxn, hx]
      · rfl
    · rw [← (h.mem_references hx hat).2]
      exact hat

/-- An entry that is being moved loses its places in some buckets. -/
theorem leaveBuckets (l : List (Fin ADDRMAN_NEW_BUCKET_COUNT)) (h : Partly cheapHash s loose k)
    (hx : s.entry nId = some info) (hmem : nId ∈ loose) {found : CAddrInfo}
    (hservice : found.toCService = info.toCService) :
    ∃ n, Partly cheapHash (l.foldl (CAddrMan.leaveBucket cheapHash nId found) s) loose k ∧
      (∀ x, (l.foldl (CAddrMan.leaveBucket cheapHash nId found) s).entry x =
        if x = nId then some { info with nRefCount := n } else s.entry x) ∧
      (l.foldl (CAddrMan.leaveBucket cheapHash nId found) s).vvTried = s.vvTried ∧
      (l.foldl (CAddrMan.leaveBucket cheapHash nId found) s).nKey = s.nKey ∧
      (l.foldl (CAddrMan.leaveBucket cheapHash nId found) s).nIdCount = s.nIdCount ∧
      ∀ b p, (b ∈ l ∨ s.vvNew b p ≠ some nId) →
        (l.foldl (CAddrMan.leaveBucket cheapHash nId found) s).vvNew b p ≠ some nId := by
  induction l generalizing s info with
  | nil =>
    refine ⟨info.nRefCount, h, fun x => ?_, rfl, rfl, rfl, fun b p hor => by simpa using hor⟩
    split_ifs with hxn
    · rw [hxn]
      exact hx
    · rfl
  | cons b l ih =>
    obtain ⟨n, h1, hentry1, htried1, hnKey1, hcount1, hcell1, hkeep1⟩ :=
      h.leaveBucket hx hmem hservice b
    obtain ⟨n', h2, hentry2, htried2, hnKey2, hcount2, hcell2⟩ := @ih _ _ h1
      ((hentry1 nId).trans (if_pos rfl)) hservice
    rw [List.foldl_cons]
    refine ⟨n', h2, fun x => ?_, htried2.trans htried1, hnKey2.trans hnKey1,
      hcount2.trans hcount1, fun b' p hor => ?_⟩
    · rw [hentry2, hentry1]
      split_ifs <;> rfl
    · refine hcell2 b' p ?_
      rcases hor with hmem | hnot
      · rcases List.mem_cons.mp hmem with rfl | hmem
        · exact .inr (hcell1 p)
        · exact .inl hmem
      · exact .inr (hkeep1 b' p hnot)

/-- An entry that works is moved to the tried table. -/
theorem makeTried (h : Sound cheapHash s) (hx : s.entry nId = some info)
    (htried : info.fInTried = false) (hsuccess : info.nLastSuccess ≠ 0) :
    ∃ s', s.makeTried cheapHash nId = some s' ∧ Sound cheapHash s' ∧ s'.nKey = s.nKey ∧
      (∃ info', s'.entry nId = some info' ∧ info'.fInTried = true) ∧ Inherits s s' := by
  obtain ⟨found, hfound, rfl⟩ := exists_of_entry hx
  obtain ⟨n, h1, hentry1, htried1, hnKey1, hcount1, hcell1⟩ :=
    (h.mono (Finset.empty_subset {nId})).leaveBuckets (List.finRange ADDRMAN_NEW_BUCKET_COUNT) hx
      (Finset.mem_singleton_self nId) (show found.toCService = found.unplaced.toCService from rfl)
  set s1 := (List.finRange ADDRMAN_NEW_BUCKET_COUNT).foldl
    (CAddrMan.leaveBucket cheapHash nId found) s with hs1
  have hx1 : s1.entry nId = some { found.unplaced with nRefCount := n } := by
    rw [hentry1, if_pos rfl]
  have hn : n = 0 := by
    have href := h1.references nId _ hx1
    refine href.trans (Nat.cast_eq_zero.mpr (Finset.card_eq_zero.mpr ?_))
    exact Finset.eq_empty_iff_forall_notMem.mpr fun b hb =>
      hcell1 b _ (.inl (List.mem_finRange b)) (mem_references.mp hb)
  subst hn
  clear_value s1
  have h2 := h1.of_nNew (show s1.nNew - 1 + 1 = s1.nNew + 0 by ring)
  set s2 : CAddrMan := { s1 with nNew := s1.nNew - 1 } with hs2
  have hx2 : s2.entry nId = some { found.unplaced with nRefCount := 0 } := hx1
  obtain ⟨found2, hfound2, hunplaced2⟩ := exists_of_entry hx2
  have hservice2 : found2.toCService = found.toCService := congrArg (·.toCService) hunplaced2
  have href2 : found2.nRefCount = 0 := congrArg (·.nRefCount) hunplaced2
  let b := found2.getTriedBucket cheapHash s2.nKey
  let p := found2.triedPlace cheapHash s2.nKey
  -- the entry that stands in the way goes back to the new table
  obtain ⟨s3, hs3, h3, hcell3, hnKey3, hx3, hservice3⟩ : ∃ s3,
      s2.clearTried cheapHash b p = some s3 ∧ Partly cheapHash s3 {nId} 1 ∧
      s3.vvTried b p = none ∧ s3.nKey = s2.nKey ∧
      s3.entry nId = some { found.unplaced with nRefCount := 0 } ∧ Inherits s2 s3 := by
    unfold CAddrMan.clearTried
    cases hcell : s2.vvTried b p with
    | none => exact ⟨s2, rfl, h2, hcell, rfl, hx2, .refl s2⟩
    | some nIdEvict =>
      obtain ⟨s3, hevict, h3, hvvTried3, hnKey3, hkeep3, hservice3⟩ := h2.evict hcell
      refine ⟨s3, hevict, h3, by rw [hvvTried3, setCell_self], hnKey3, hkeep3 nId _ ?_ hx2 rfl,
        hservice3⟩
      rintro rfl
      obtain ⟨info', hx', htried', -⟩ := (h2.tried b p nId).mp hcell
      cases hx2.symm.trans hx'
      exact Bool.false_ne_true (htried.symm.trans htried')
  have h4 : Sound cheapHash (s3.enterTried nId b p) := h3.enterTried hx3 htried rfl hsuccess
    (show b = found.getTriedBucket cheapHash s3.nKey by rw [hnKey3, ← hservice2])
    (show p = found.triedPlace cheapHash s3.nKey by rw [hnKey3, ← hservice2]) hcell3
    (by simp)
  have hnKey4 : (s3.enterTried nId b p).nKey = s3.nKey := updateInfo_nKey
  refine ⟨s3.enterTried nId b p, ?_, h4, hnKey4.trans (hnKey3.trans hnKey1), ?_, ?_⟩
  · simp only [CAddrMan.makeTried, hfound, Option.bind_eq_bind, Option.bind_some]
    rw [← hs1]
    change (s2.mapInfo.lookup nId).bind _ = _
    rw [hfound2, Option.bind_some, href2]
    change (s2.clearTried cheapHash b p).bind _ = _
    rw [hs3, Option.bind_some]
    change Option.bind (guard (s3.vvTried b p = none)) _ = _
    rw [hcell3]
    rfl
  · have hentry : (s3.enterTried nId b p).entry nId = _ := entry_setTried hx3 true rfl nId
    exact ⟨_, hentry.trans (if_pos rfl), rfl⟩
  · have hservice2 : Inherits s s2 := .of_set hx hentry1 rfl hcount1
    exact (hservice2.trans hservice3).trans (.of_set hx3 (entry_setTried hx3 true rfl) rfl
      updateInfo_nIdCount)

/-- The entry gets one more place, or leaves if it has none and gets none. -/
theorem addToNew (h : Partly cheapHash s {nId} 0) (hx : s.entry nId = some info)
    (htried : info.fInTried = false) (hlt : info.nRefCount < ADDRMAN_NEW_BUCKETS_PER_ADDRESS)
    (source : CNetAddr) (nNow : ℤ) :
    ∃ s', s.addToNew cheapHash nId source nNow = some s' ∧ Sound cheapHash s' ∧
      s'.vvTried = s.vvTried ∧ s'.nKey = s.nKey ∧
      (∀ b p, b ≠ info.getNewBucket cheapHash s.nKey source → s'.vvNew b p = s.vvNew b p) ∧
      Inherits s s' := by
  obtain ⟨found, hfound, rfl⟩ := exists_of_entry hx
  have href := h.references nId _ hx
  let b := found.getNewBucket cheapHash s.nKey source
  let p := found.newPlace cheapHash s.nKey b
  have hsound (hpos : 0 < found.nRefCount) : Sound cheapHash s := by
    refine h.of_set h.toTables hx (fun x => ?_) rfl (by simp) (fun _ _ => ?_) (h.times _ _ hx) rfl
      rfl rfl
    · split_ifs with hxn
      · rw [hxn, hx]
      · rfl
    · exact ⟨show 1 ≤ found.nRefCount by omega, show found.nRefCount ≤ _ from le_of_lt hlt⟩
  have hsame : s.addToNew cheapHash nId source nNow =
      if s.vvNew b p = some nId then some s else
        (s.givesWay found nNow (s.vvNew b p)).bind fun fInsert =>
          if fInsert then (s.clearNew b p).bind fun s =>
            some (s.enterNew nId b p (found.nRefCount + 1))
          else if found.nRefCount = 0 then s.delete nId else some s := by
    simp only [CAddrMan.addToNew, hfound, Option.bind_eq_bind, Option.bind_some]
    rfl
  have hstay : Inherits s s := .refl s
  by_cases hcell : s.vvNew b p = some nId
  · have hpos : 0 < found.unplaced.nRefCount := h.nRefCount_pos hx hcell
    exact ⟨s, by rw [hsame, if_pos hcell], hsound hpos, rfl, rfl, fun _ _ _ => rfl, hstay⟩
  obtain ⟨fInsert, hinsert⟩ : ∃ fInsert, s.givesWay found nNow (s.vvNew b p) = some fInsert := by
    cases hat : s.vvNew b p with
    | none => exact ⟨true, rfl⟩
    | some nIdExisting =>
      obtain ⟨infoExisting, hexisting, -⟩ := h.new b p nIdExisting hat
      obtain ⟨foundExisting, hfoundExisting, -⟩ := exists_of_entry hexisting
      exact ⟨_, by rw [givesWay, hfoundExisting]; rfl⟩
  rw [if_neg hcell, hinsert, Option.bind_some] at hsame
  cases fInsert with
  | true =>
    obtain ⟨s1, hclear, h1, hvvNew1, hvvTried1, hnKey1, hentry1, hservice1⟩ := h.clearNew b p
    have hx1 : s1.entry nId = some found.unplaced := by rw [hentry1 nId hcell, hx]
    have h2 : Sound cheapHash (s1.enterNew nId b p (found.nRefCount + 1)) :=
      h1.enterNew hx1 htried (show p = _ by rw [hnKey1]; rfl) (by rw [hvvNew1, setCell_self]) rfl
        hlt (by simp)
    have hsame2 : SameTables _ (s1.enterNew nId b p (found.nRefCount + 1)) := sameTables_enterNew _
    refine ⟨_, by rw [hsame, if_pos rfl, hclear, Option.bind_some], h2,
      hsame2.vvTried.trans hvvTried1, hsame2.nKey.trans hnKey1, fun b' p' hne => ?_,
      hservice1.trans (.of_set hx1 (entry_enterNew hx1 _) rfl hsame2.nIdCount)⟩
    · have hnot : ¬(b' = b ∧ p' = p) := fun hat => hne hat.1
      rw [hsame2.vvNew]
      exact (setCell_of_ne hnot).trans (by rw [hvvNew1, setCell_of_ne hnot])
  | false =>
    rw [if_neg Bool.false_ne_true] at hsame
    by_cases hzero : found.nRefCount = 0
    · obtain ⟨s1, hdelete, h1, hsame1, hentry1⟩ :=
        h.delete hx htried hzero (Finset.Subset.refl (insert nId ∅))
      exact ⟨s1, by rw [hsame, if_pos hzero, hdelete], h1, hsame1.vvTried, hsame1.nKey,
        fun b' p' _ => by rw [hsame1.vvNew], .of_erase hentry1 hsame1.nIdCount⟩
    · have hnonneg : 0 ≤ found.nRefCount :=
        show 0 ≤ found.unplaced.nRefCount from href ▸ Nat.cast_nonneg _
      exact ⟨s, by rw [hsame, if_neg hzero], hsound (by omega), rfl, rfl, fun _ _ _ => rfl, hstay⟩

end Partly

end BitBay.CAddrMan
