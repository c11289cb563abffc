import BitBay.Network.AddrSteps

/-!
# The calls of the address manager

Every call keeps the manager sound. A call that a known address works moves it to the tried
table: the branch in which no bucket holds it is never taken.
-/
namespace BitBay.CAddrMan

variable {s s' : CAddrMan} {cheapHash : List UInt8 → ℕ} {nId x : ℕ} {info : CAddrInfo}

theorem find_eq_some {addr : CNetAddr} (h : s.find addr = some (nId, info)) :
    s.mapAddr.lookup addr = some nId ∧ s.mapInfo.lookup nId = some info := by
  unfold find at h
  obtain ⟨id, hid, h⟩ := Option.bind_eq_some_iff.mp h
  obtain ⟨found, hfound, h⟩ := Option.bind_eq_some_iff.mp h
  cases h
  exact ⟨hid, hfound⟩

theorem entry_of_lookup_eq (h : s.mapInfo.lookup nId = some info) :
    s.entry nId = some info.unplaced := by simp [entry, h]

def answer (s : CAddrMan) (nNow : ℤ) (nId : ℕ) : Option CAddress :=
  (s.entry nId).bind fun info => if info.isTerrible nNow then none else some info.toCAddress

def answers (s : CAddrMan) (nNow : ℤ) (n : ℕ) : List CAddress :=
  (s.vRandom.take n).filterMap (s.answer nNow)

theorem answer_congr (h : s'.entry = s.entry) (nNow : ℤ) : s'.answer nNow = s.answer nNow := by
  funext id
  rw [answer, answer, h]

theorem answer_eq_some {nNow : ℤ} {a : CAddress} (h : s.answer nNow nId = some a) :
    ∃ info, s.entry nId = some info ∧ info.isTerrible nNow = false ∧ info.toCAddress = a := by
  obtain ⟨info, hx, h⟩ := Option.bind_eq_some_iff.mp h
  split_ifs at h with hterrible
  exact ⟨info, hx, Bool.eq_false_iff.mpr hterrible, Option.some.inj h⟩

theorem answers_succ {n : ℕ} (hget : s.vRandom[n]? = some nId) (hx : s.entry nId = some info)
    (nNow : ℤ) : s.answers nNow (n + 1) =
      if info.isTerrible nNow then s.answers nNow n else s.answers nNow n ++ [info.toCAddress] := by
  rw [answers, answers, List.take_add_one, hget, List.filterMap_append]
  split_ifs with hterrible <;> simp [answer, hx, hterrible]

namespace Partly

theorem lookup_eq_none (h : Sound cheapHash s) {addr : CNetAddr} (hfind : s.find addr = none) :
    s.mapAddr.lookup addr = none := by
  by_contra hne
  obtain ⟨id, hid⟩ := Option.ne_none_iff_exists'.mp hne
  obtain ⟨info, hinfo, -⟩ := (h.addr addr id).mp hid
  obtain ⟨found, hfound, -⟩ := exists_of_entry hinfo
  simp [find, hid, hfound] at hfind

/-- What an entry says of its times and services is written. -/
theorem updateInfo {loose : Finset ℕ} {k : ℤ} (h : Partly cheapHash s loose k)
    (hx : s.mapInfo.lookup nId = some info) (f : CAddrInfo → CAddrInfo)
    (hf : ∀ info, (f info).unplaced = f info.unplaced ∧ (f info).nRandomPos = info.nRandomPos ∧
      (f info).toCService = info.toCService ∧ (f info).fInTried = info.fInTried ∧
        (f info).nRefCount = info.nRefCount) (htimes : GoodTimes (f info.unplaced)) :
    Partly cheapHash (s.updateInfo nId f) loose k := by
  have hx' := entry_of_lookup_eq hx
  refine h.of_set (h.toTables.updateInfo f hf) hx' (fun x => ?_) (hf info.unplaced).2.2.2.1
    (Finset.subset_insert _ _) (fun hnot htried => ?_) htimes
    updateInfo_nTried updateInfo_nNew updateInfo_nKey
  · rw [entry_updateInfo s nId f fun info => (hf info).1]
    split_ifs with hxn
    · rw [hxn, hx']
      rfl
    · rfl
  · rw [(hf info.unplaced).2.2.2.1] at htried
    rw [(hf info.unplaced).2.2.2.2]
    exact h.few nId _ hx' hnot htried

/-- A bucket that holds an entry is found, whichever bucket is looked at first. -/
theorem found_in_bucket (h : Sound cheapHash s) (hx : s.mapInfo.lookup nId = some info)
    (htried : info.fInTried = false) (nRnd : ℕ) :
    ((List.range ADDRMAN_NEW_BUCKET_COUNT).any fun n =>
      s.vvNew (Fin.ofNat ADDRMAN_NEW_BUCKET_COUNT (n + nRnd))
        (info.newPlace cheapHash s.nKey (Fin.ofNat ADDRMAN_NEW_BUCKET_COUNT (n + nRnd))) =
          some nId) = true := by
  have hx' := entry_of_lookup_eq hx
  have hpos := (h.few nId _ hx' (Finset.notMem_empty _) htried).1
  rw [h.references nId _ hx', Nat.one_le_cast, Nat.one_le_iff_ne_zero, Finset.card_ne_zero] at hpos
  obtain ⟨b, hb⟩ := hpos
  have hlt : (b : ℕ) < 1024 := b.isLt
  refine List.any_eq_true.mpr ⟨(b + (1024 - nRnd % 1024)) % 1024, ?_, ?_⟩
  · exact List.mem_range.mpr (Nat.mod_lt _ (by decide))
  · have hindex : Fin.ofNat ADDRMAN_NEW_BUCKET_COUNT ((b + (1024 - nRnd % 1024)) % 1024 + nRnd) =
        b := Fin.ext (show ((b + (1024 - nRnd % 1024)) % 1024 + nRnd) % 1024 = b by omega)
    rw [hindex, decide_eq_true_eq]
    exact mem_references.mp hb

/-- An address works. -/
theorem good_ (h : Sound cheapHash s) (addr : CService) {nTime : Int64} (htime : 0 < nTime.toInt)
    (nRand : ℕ) :
    ∃ s', s.good_ cheapHash addr nTime nRand = some s' ∧ Sound cheapHash s' ∧ s'.nKey = s.nKey ∧
      (∀ nId info, s.find addr.toCNetAddr = some (nId, info) → info.toCService = addr →
        ∃ info', s'.entry nId = some info' ∧ info'.fInTried = true) ∧ Inherits s s' := by
  have hne : nTime ≠ 0 := by
    rintro rfl
    exact absurd htime (by decide)
  unfold CAddrMan.good_
  cases hfind : s.find addr.toCNetAddr with
  | none => exact ⟨s, rfl, h, rfl, by simp, .refl s⟩
  | some found =>
    obtain ⟨id, info⟩ := found
    obtain ⟨-, hx⟩ := find_eq_some hfind
    dsimp only
    split_ifs with hservice htried hfound
    · refine ⟨s, rfl, h, rfl, ?_, .refl s⟩
      rintro _ _ heq rfl
      cases heq
      exact absurd rfl hservice
    all_goals
      have h1 := h.updateInfo hx (fun info => { info with
          nLastSuccess := nTime
          nLastTry := nTime
          nTime := UInt32.ofInt nTime.toInt
          nAttempts := 0 }) (fun _ => ⟨rfl, rfl, rfl, rfl, rfl⟩) ⟨htime.le, htime.le, fun _ => hne⟩
      have hx1 := lookup_updateInfo s id (fun info => { info with
          nLastSuccess := nTime
          nLastTry := nTime
          nTime := UInt32.ofInt nTime.toInt
          nAttempts := 0 }) id
      rw [if_pos rfl, hx, Option.map_some] at hx1
      have hservice1 : Inherits s (s.updateInfo id fun info => { info with
          nLastSuccess := nTime
          nLastTry := nTime
          nTime := UInt32.ofInt nTime.toInt
          nAttempts := 0 }) := .updateInfo (fun _ => rfl) fun _ => rfl
    · refine ⟨_, rfl, h1, updateInfo_nKey, ?_, hservice1⟩
      rintro _ _ heq -
      cases heq
      exact ⟨_, entry_of_lookup_eq hx1, htried⟩
    · obtain ⟨s', hs', hsound, hnKey, hinTried, hservice2⟩ :=
        makeTried h1 (entry_of_lookup_eq hx1) (Bool.eq_false_iff.mpr htried) hne
      refine ⟨s', hs', hsound, hnKey.trans updateInfo_nKey, ?_, hservice1.trans hservice2⟩
      rintro _ _ heq -
      cases heq
      exact hinTried
    · refine absurd ?_ hfound
      exact h1.found_in_bucket hx1 (Bool.eq_false_iff.mpr htried)
        (getRandInt nRand ADDRMAN_NEW_BUCKET_COUNT)

theorem attempt_ (h : Sound cheapHash s) (addr : CService) {nTime : Int64}
    (htime : 0 ≤ nTime.toInt) :
    Sound cheapHash (s.attempt_ addr nTime) ∧ (s.attempt_ addr nTime).nKey = s.nKey ∧
      Inherits s (s.attempt_ addr nTime) := by
  unfold CAddrMan.attempt_
  cases hfind : s.find addr.toCNetAddr with
  | none => exact ⟨h, rfl, .refl s⟩
  | some found =>
    obtain ⟨id, info⟩ := found
    obtain ⟨-, hx⟩ := find_eq_some hfind
    dsimp only
    split_ifs
    · exact ⟨h, rfl, .refl s⟩
    · have htimes := h.times id _ (entry_of_lookup_eq hx)
      exact ⟨h.updateInfo hx _ (fun _ => ⟨rfl, rfl, rfl, rfl, rfl⟩)
          ⟨htime, htimes.nLastSuccess, htimes.tried⟩,
        updateInfo_nKey, .updateInfo (fun _ => rfl) fun _ => rfl⟩

theorem connected_ (h : Sound cheapHash s) (addr : CService) (nTime : Int64) :
    Sound cheapHash (s.connected_ addr nTime) ∧ (s.connected_ addr nTime).nKey = s.nKey ∧
      Inherits s (s.connected_ addr nTime) := by
  unfold CAddrMan.connected_
  cases hfind : s.find addr.toCNetAddr with
  | none => exact ⟨h, rfl, .refl s⟩
  | some found =>
    obtain ⟨id, info⟩ := found
    obtain ⟨-, hx⟩ := find_eq_some hfind
    dsimp only
    split_ifs
    · exact ⟨h, rfl, .refl s⟩
    · have htimes := h.times id _ (entry_of_lookup_eq hx)
      refine ⟨h.updateInfo hx _ (fun info => ?_) ?_, updateInfo_nKey,
        .updateInfo (fun info => ?_) fun info => ?_⟩
      · dsimp only [CAddrInfo.unplaced]
        split_ifs <;> exact ⟨rfl, rfl, rfl, rfl, rfl⟩
      · dsimp only [CAddrInfo.unplaced] at htimes ⊢
        split_ifs
        · exact ⟨htimes.nLastTry, htimes.nLastSuccess, htimes.tried⟩
        · exact htimes
      · dsimp only [CAddrInfo.unplaced]
        split_ifs <;> rfl
      · split_ifs <;> rfl

/-- A new address, which has no place yet. -/
theorem withEntry (h : Sound cheapHash s) {addr : CAddress} (addrSource : CNetAddr)
    (hnone : s.mapAddr.lookup addr.toCNetAddr = none) :
    Partly cheapHash (s.withEntry addr addrSource) {s.nIdCount} 1 := by
  have hentry := entry_withEntry s addr addrSource
  have hfresh := h.toTables.fresh
  have htriedIds : (s.withEntry addr addrSource).idsWith true = s.idsWith true := by
    ext x
    rw [mem_idsWith, mem_idsWith, hentry]
    split_ifs with hxn
    · rw [hxn, hfresh]
      exact iff_of_false (by simp [CAddrInfo.create]) (by simp)
    · rfl
  have hnewIds : (s.withEntry addr addrSource).idsWith false =
      insert s.nIdCount (s.idsWith false) := by
    ext x
    rw [Finset.mem_insert, mem_idsWith, mem_idsWith, hentry]
    split_ifs with hxn
    · exact iff_of_true rfl (.inl hxn)
    · simp [hxn]
  have hnot : s.nIdCount ∉ s.idsWith false := by simp [hfresh]
  refine { h.toTables.withEntry addrSource hnone with
    nTried := by rw [htriedIds, ← h.nTried]; rfl
    nNew := ?_
    few := fun x info hx hloose => ?_
    times := fun x info hx => ?_
    nKey := h.nKey }
  · have hcount := h.nNew
    rw [hnewIds, Finset.card_insert_of_notMem hnot,
      show (s.withEntry addr addrSource).nNew = s.nNew from rfl]
    push_cast
    omega
  · rw [hentry, if_neg (Finset.notMem_singleton.mp hloose)] at hx
    exact h.few x info hx (Finset.notMem_empty x)
  · rw [hentry] at hx
    split_ifs at hx
    · cases hx
      exact ⟨show 0 ≤ (0 : Int64).toInt by decide, show 0 ≤ (0 : Int64).toInt by decide,
        fun htrue => by cases htrue⟩
    · exact h.times x info hx

/-- An address is mentioned. Only the places of one bucket may change. -/
theorem add_ (h : Sound cheapHash s) (addr : CAddress) (source : CNetAddr)
    (nTimePenalty nNow : ℤ) (nRand : ℕ) (hroom : s.nIdCount < INT_MAX) :
    ∃ fNew s', s.add_ cheapHash addr source nTimePenalty nNow nRand = some (fNew, s') ∧
      Sound cheapHash s' ∧ s'.vvTried = s.vvTried ∧ s'.nKey = s.nKey ∧
      s'.nIdCount ≤ s.nIdCount + 1 ∧
      (∀ b p, b ≠ addr.getNewBucket cheapHash s.nKey source → s'.vvNew b p = s.vvNew b p) ∧
        ∀ x info', s'.entry x = some info' →
          (∃ info, s.entry x = some info ∧ info'.toCService = info.toCService) ∨
            addr.isRoutable = true ∧ info'.toCService = addr.toCService := by
  unfold CAddrMan.add_
  by_cases hroutable : addr.isRoutable = true
  swap
  · refine ⟨false, s, by simp [hroutable], h, rfl, rfl, Nat.le_succ _, fun _ _ _ => rfl,
      fun x info' hx => .inl ?_⟩
    exact ⟨info', hx, rfl⟩
  have hroutes : ¬(!addr.isRoutable) = true := by simp [hroutable]
  rw [if_neg hroutes]
  cases hfind : s.find addr.toCNetAddr with
  | some found =>
    obtain ⟨id, info⟩ := found
    obtain ⟨haddr, hx⟩ := find_eq_some hfind
    have hx' := entry_of_lookup_eq hx
    have h1 := h.updateInfo hx (fun info => info.mention addr nTimePenalty nNow)
      (fun _ => ⟨rfl, rfl, rfl, rfl, rfl⟩)
      ⟨(h.times id _ hx').1, (h.times id _ hx').2, (h.times id _ hx').3⟩
    have hentry1 := entry_updateInfo s id (fun info => info.mention addr nTimePenalty nNow)
      fun _ => rfl
    dsimp only
    set s1 := s.updateInfo id fun info => info.mention addr nTimePenalty nNow with hs1
    have hnKey1 : s1.nKey = s.nKey := updateInfo_nKey
    have hvvNew1 : s1.vvNew = s.vvNew := updateInfo_vvNew
    have hvvTried1 : s1.vvTried = s.vvTried := updateInfo_vvTried
    have hservice1 : Inherits s s1 := .updateInfo (fun _ => rfl) fun _ => rfl
    have hkept : ∃ fNew s', some (false, s1) = some (fNew, s') ∧ Sound cheapHash s' ∧
        s'.vvTried = s.vvTried ∧ s'.nKey = s.nKey ∧ s'.nIdCount ≤ s.nIdCount + 1 ∧
        (∀ b p, b ≠ addr.getNewBucket cheapHash s.nKey source → s'.vvNew b p = s.vvNew b p) ∧
          ∀ x info', s'.entry x = some info' →
            (∃ info, s.entry x = some info ∧ info'.toCService = info.toCService) ∨
              addr.isRoutable = true ∧ info'.toCService = addr.toCService :=
      ⟨false, s1, rfl, h1, hvvTried1, hnKey1, hservice1.nIdCount.le.trans (Nat.le_succ _),
        fun b p _ => by rw [hvvNew1],
        fun x info' hx1 => .inl (hservice1.entry x info' hx1)⟩
    split_ifs with htime htried hfull hrandom
    · exact hkept
    · exact hkept
    · exact hkept
    · exact hkept
    · have htried' : info.fInTried = false := Bool.eq_false_iff.mpr htried
      have hmax : info.nRefCount ≤ ADDRMAN_NEW_BUCKETS_PER_ADDRESS :=
        (h.few id _ hx' (Finset.notMem_empty _) htried').2
      have hx1 : s1.entry id = some (info.unplaced.mention addr nTimePenalty nNow) := by
        rw [hentry1, if_pos rfl, hx', Option.map_some]
      obtain ⟨s', hadd, h2, hvvTried2, hnKey2, hvvNew2, hservice2⟩ :=
        (h1.mono (Finset.empty_subset {id})).addToNew hx1 htried' (lt_of_le_of_ne hmax hfull)
          source nNow
      obtain ⟨same, hsame, hgroup⟩ := (h.addr _ id).mp haddr
      cases hx'.symm.trans hsame
      refine ⟨false, s', by rw [hadd, Option.map_some], h2, hvvTried2.trans hvvTried1,
        hnKey2.trans hnKey1, (hservice1.trans hservice2).nIdCount.le.trans (Nat.le_succ _),
        fun b p hb => ?_, fun x info' hxs => .inl ((hservice1.trans hservice2).entry x info' hxs)⟩
      · rw [hvvNew2 b p, hvvNew1]
        rw [hnKey1]
        intro heq
        refine hb (heq.trans ?_)
        exact show CService.getNewBucket cheapHash s.nKey info.toCService source = _ by
          unfold CService.getNewBucket
          rw [show info.toCNetAddr = addr.toCNetAddr from hgroup]
  | none =>
    have hnone := h.lookup_eq_none hfind
    have h1 := h.withEntry source hnone
    have hentry1 := entry_withEntry s addr source
    have hx1 : (s.withEntry addr source).entry s.nIdCount = some (CAddrInfo.create addr source) := by
      rw [hentry1, if_pos rfl]
    obtain ⟨found, hfound, hunplaced⟩ := exists_of_entry hx1
    have h2 := h1.updateInfo hfound
      (fun info => { info with
        nTime := UInt32.ofInt (max 0 (info.nTime.toNat - nTimePenalty)) })
      (fun _ => ⟨rfl, rfl, rfl, rfl, rfl⟩)
      ⟨(h1.times _ _ (entry_of_lookup_eq hfound)).1, (h1.times _ _ (entry_of_lookup_eq hfound)).2,
        (h1.times _ _ (entry_of_lookup_eq hfound)).3⟩
    have hentry2 := entry_updateInfo (s.withEntry addr source) s.nIdCount (fun info =>
      { info with nTime := UInt32.ofInt (max 0 (info.nTime.toNat - nTimePenalty)) }) fun _ => rfl
    dsimp only
    set s2 := (s.withEntry addr source).updateInfo s.nIdCount fun info =>
      { info with nTime := UInt32.ofInt (max 0 (info.nTime.toNat - nTimePenalty)) } with hs2
    have h3 := h2.of_nNew (show s2.nNew + 1 + 0 = s2.nNew + 1 by ring)
    have hx2 := hentry2 s.nIdCount
    rw [if_pos rfl, hx1, Option.map_some] at hx2
    have hnKey2 : s2.nKey = s.nKey := updateInfo_nKey
    obtain ⟨s', hadd, h4, hvvTried4, hnKey4, hvvNew4, hservice4⟩ :=
      h3.addToNew hx2 rfl (show (0 : ℤ) < 8 by decide) source nNow
    refine ⟨true, s', ?_, h4, hvvTried4.trans updateInfo_vvTried, hnKey4.trans hnKey2, ?_,
      fun b p hb => ?_, fun x info' hxs => ?_⟩
    · simp only [create, if_pos hroom, Option.bind_eq_bind, Option.bind_some]
      rw [← hs2, hadd]
      rfl
    · exact (hservice4.nIdCount.trans updateInfo_nIdCount).le
    · rw [hvvNew4 b p]
      · exact congrFun (congrFun updateInfo_vvNew b) p
      · exact fun heq => hb (heq.trans (by rw [show ({ s2 with nNew := s2.nNew + 1 } :
          CAddrMan).nKey = s.nKey from hnKey2]; rfl))
    · obtain ⟨mid, hmid, hmidService⟩ := hservice4.entry x info' hxs
      have hmid' : s2.entry x = some mid := hmid
      by_cases hxn : x = s.nIdCount
      · subst hxn
        cases hmid'.symm.trans hx2
        exact .inr ⟨hroutable, hmidService⟩
      · rw [hentry2, if_neg hxn, hentry1, if_neg hxn] at hmid'
        exact .inl ⟨mid, hmid', hmidService⟩

/-! ## Addresses for another node -/

/-- The random order changes, and nothing else. -/
theorem of_order (h : Sound cheapHash s) (hordered : s'.Ordered) (hentry : s'.entry = s.entry)
    (hsame : SameTables s s') (haddr : s'.mapAddr = s.mapAddr) (hnNew : s'.nNew = s.nNew) :
    Sound cheapHash s' := by
  have hids : ∀ fInTried, s'.idsWith fInTried = s.idsWith fInTried :=
    idsWith_congr fun x => by rw [hentry]
  have hbucketed : s'.Bucketed cheapHash := by
    refine h.toBucketed.of_update (f := id) hsame haddr (fun _ => ⟨rfl, rfl, rfl⟩)
      (show ∀ x, s'.entry x = if x = 0 then (s.entry x).map id else s.entry x from fun x => ?_)
    rw [hentry, Option.map_id, id, ite_self]
  exact { hordered, hbucketed with
    nTried := by rw [hsame.nTried, hids, h.nTried]
    nNew := by rw [hnNew, hids, h.nNew]
    few := fun x info hx => h.few x info (hentry ▸ hx)
    times := fun x info hx => h.times x info (hentry ▸ hx)
    nKey := hsame.nKey ▸ h.nKey }

/-- One round of the answer. -/
theorem swap_round (h : Sound cheapHash s) {n q : ℕ} (hn : n < s.vRandom.length) (hnq : n ≤ q)
    (hq : q < s.vRandom.length) :
    ∃ s' id ai, s.swapRandom n q = some s' ∧ s'.vRandom[n]? = some id ∧
      s'.mapInfo.lookup id = some ai ∧ Sound cheapHash s' ∧ s'.entry = s.entry ∧
      SameTables s s' ∧ s'.vRandom.length = s.vRandom.length ∧
      s'.vRandom.take n = s.vRandom.take n := by
  obtain ⟨s', hswap, hordered, hentry, hsame, haddr, hnNew, hrandom⟩ :=
    h.toOrdered.swapRandom hn hq
  have hlength : s'.vRandom.length = s.vRandom.length := by simp [hrandom]
  have hget : s'.vRandom[n]? = some s'.vRandom[n] := List.getElem?_eq_getElem _
  obtain ⟨ai, hai, -⟩ := hordered.lookup_of_getElem? hget
  refine ⟨s', _, ai, hswap, hget, hai, h.of_order hordered hentry hsame haddr hnNew, hentry, hsame,
    hlength, ?_⟩
  rw [hrandom, List.take_set_of_le hnq, List.take_set_of_le le_rfl]

/-- The rounds from `n` on, behind what the first ones have answered. -/
theorem getAddrLoop (h : Sound cheapHash s) {nNodes : ℕ} (nNow : ℤ) (nRand : ℕ → ℕ) {rounds n : ℕ}
    (hrounds : n + rounds = s.vRandom.length) (hfew : (s.answers nNow n).length ≤ nNodes) :
    ∃ n' s', CAddrMan.getAddrLoop nNodes nNow nRand rounds n (s.answers nNow n) s =
        some (s'.answers nNow n', s') ∧ Sound cheapHash s' ∧ s'.entry = s.entry ∧
      SameTables s s' ∧ (s'.answers nNow n').length ≤ nNodes ∧
      (n' = s'.vRandom.length ∨ nNodes ≤ (s'.answers nNow n').length) := by
  induction rounds generalizing n s with
  | zero =>
    exact ⟨n, s, rfl, h, rfl, .refl s, hfew, .inl (by omega)⟩
  | succ rounds ih =>
    rw [CAddrMan.getAddrLoop]
    by_cases hfull : nNodes ≤ (s.answers nNow n).length
    · rw [if_pos hfull]
      exact ⟨n, s, rfl, h, rfl, .refl s, hfew, .inr hfull⟩
    rw [if_neg hfull]
    have hrand : getRandInt (nRand n) (s.vRandom.length - n) + n < s.vRandom.length := by
      have hmod := Nat.mod_lt (nRand n) (show 0 < s.vRandom.length - n by omega)
      rw [getRandInt, if_neg (by omega)]
      omega
    obtain ⟨s1, id, ai, hswap, hget, hai, h1, hentry1, hsame1, hlength1, htake1⟩ :=
      h.swap_round (show n < s.vRandom.length by omega) (Nat.le_add_left n _) hrand
    have hnext := answers_succ hget (entry_of_lookup_eq hai) nNow
    have hsameAnswers : s1.answers nNow n = s.answers nNow n := by
      rw [answers, answers, htake1, answer_congr hentry1]
    have hround : (if ai.isTerrible nNow = true then s.answers nNow n
        else s.answers nNow n ++ [ai.toCAddress]) = s1.answers nNow (n + 1) := by
      rw [hnext, hsameAnswers]
      rfl
    have hfew1 : (s1.answers nNow (n + 1)).length ≤ nNodes := by
      rw [← hround]
      split_ifs
      · exact hfew
      · rw [List.length_append, List.length_singleton]
        omega
    obtain ⟨n', s', hloop, h2, hentry2, hsame2, hfew2, hend2⟩ :=
      @ih _ h1 (n + 1) (by omega) hfew1
    refine ⟨n', s', ?_, h2, hentry2.trans hentry1, hsame1.trans hsame2, hfew2, hend2⟩
    simp only [Option.bind_eq_bind, hswap, hget, hai, Option.bind_some, hround]
    exact hloop

/-- What another node is told. -/
theorem getAddr_ (h : Sound cheapHash s) (nNow : ℤ) (nRand : ℕ → ℕ) :
    ∃ vAddr s', s.getAddr_ nNow nRand = some (vAddr, s') ∧ Sound cheapHash s' ∧
      s'.entry = s.entry ∧ SameTables s s' ∧
      vAddr.length ≤ min (ADDRMAN_GETADDR_MAX_PCT * s.vRandom.length / 100) ADDRMAN_GETADDR_MAX ∧
      (vAddr.map (·.toCNetAddr)).Nodup ∧
      (∀ a ∈ vAddr, ∃ nId info, s.entry nId = some info ∧ info.isTerrible nNow = false ∧
        info.toCAddress = a) ∧
      (vAddr.length <
          min (ADDRMAN_GETADDR_MAX_PCT * s.vRandom.length / 100) ADDRMAN_GETADDR_MAX →
        ∀ nId info, s.entry nId = some info → info.isTerrible nNow = false →
          info.toCAddress ∈ vAddr) := by
  obtain ⟨n', s', hloop, h1, hentry, hsame, hfew, hend⟩ :=
    h.getAddrLoop nNow nRand (n := 0) (Nat.zero_add _) (Nat.zero_le _)
  refine ⟨_, s', hloop, h1, hentry, hsame, hfew, ?_, fun a ha => ?_,
    fun hless nId info hx hgood => ?_⟩
  · rw [answers, List.map_filterMap]
    refine (h1.index.nodup.sublist (List.take_sublist _ _)).filterMap fun x y a ha ha' => ?_
    obtain ⟨ax, hax, hx⟩ := Option.mem_map.mp ha
    obtain ⟨ay, hay, hy⟩ := Option.mem_map.mp ha'
    obtain ⟨infox, hinfox, -, rfl⟩ := answer_eq_some hax
    obtain ⟨infoy, hinfoy, -, rfl⟩ := answer_eq_some hay
    exact h1.eq_of_addr hinfox hinfoy (hx.trans hy.symm)
  · obtain ⟨id, -, hid⟩ := List.mem_filterMap.mp ha
    obtain ⟨info, hx, hgood, haddr⟩ := answer_eq_some hid
    exact ⟨id, info, by rw [← hentry, hx], hgood, haddr⟩
  · rcases hend with rfl | hfull
    · have hx' : s'.entry nId = some info := by rw [hentry, hx]
      obtain ⟨found, hfound, rfl⟩ := exists_of_entry hx'
      refine List.mem_filterMap.mpr ⟨nId, ?_, ?_⟩
      · rw [List.take_length, h1.index.mem_iff, place, hfound]
        exact h1.placed nId found hfound
      · rw [answer, hx', Option.bind_some, if_neg (by simp [hgood])]
    · omega

end Partly

end BitBay.CAddrMan
