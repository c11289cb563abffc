import BitBay.Network.AddrCheck

/-!
# Runs of the address manager

The locked functions in any order, for any hash, with whatever the peers tell and the random
source draws. No run fails an assertion, and the check finds no inconsistency in any state that is
reached. What one group of sources tells stays within few buckets, and what is answered to a peer
is a bounded part of what is known.
-/
namespace BitBay

/-- A call of a locked function, with the time and what the random source draws for it. A list of
addresses is added by one call for each. -/
inductive AddrManCall
  | add (addr : CAddress) (source : CNetAddr) (nTimePenalty nNow : ℤ) (nRand : ℕ)
  | good (addr : CService) (nTime : Int64) (nRand : ℕ)
  | attempt (addr : CService) (nTime : Int64)
  | connected (addr : CService) (nTime : Int64)
  | getAddr (nNow : ℤ) (nRand : ℕ → ℕ)

namespace AddrManCall

/-- The adjusted time has not gone back before the epoch. -/
def Timely : AddrManCall → Prop
  | good _ nTime _ => 0 < nTime.toInt
  | attempt _ nTime => 0 ≤ nTime.toInt
  | _ => True

def FromGroup (group : List UInt8) : AddrManCall → Prop
  | add _ source _ _ _ => source.getGroup = group
  | _ => False

def IsAdd : AddrManCall → Bool
  | add _ _ _ _ _ => true
  | _ => false

def told : AddrManCall → Option CService
  | add addr _ _ _ _ => if addr.isRoutable then some addr.toCService else none
  | _ => none

end AddrManCall

namespace CAddrMan

open AddrManCall

variable {cheapHash : List UInt8 → ℕ} {nKey : UInt256} {s s' : CAddrMan}

def step (cheapHash : List UInt8 → ℕ) (s : CAddrMan) : AddrManCall → Option CAddrMan
  | .add addr source nTimePenalty nNow nRand =>
    (s.add_ cheapHash addr source nTimePenalty nNow nRand).map Prod.snd
  | .good addr nTime nRand => s.good_ cheapHash addr nTime nRand
  | .attempt addr nTime => some (s.attempt_ addr nTime)
  | .connected addr nTime => some (s.connected_ addr nTime)
  | .getAddr nNow nRand => (s.getAddr_ nNow nRand).map Prod.snd

/-- Nothing is returned where an assertion fails. -/
def run (cheapHash : List UInt8 → ℕ) (s : CAddrMan) (calls : List AddrManCall) :
    Option CAddrMan := calls.foldlM (step cheapHash) s

theorem run_cons {call : AddrManCall} {calls : List AddrManCall} :
    s.run cheapHash (call :: calls) =
      (s.step cheapHash call).bind fun s' => s'.run cheapHash calls := rfl

/-! ## The invariant -/

/-- `Clear` leaves a sound manager behind. -/
theorem sound_clear (hkey : nKey ≠ 0) : Sound cheapHash (clear nKey) where
  index := BackIndexed.nil fun _ => rfl
  placed nId info hx := by cases hx
  idCount nId info hx := by cases hx
  addr a nId := by
    constructor
    · intro h
      cases h
    · rintro ⟨info, hx, -⟩
      cases hx
  new b p nId hcell := by cases hcell
  references nId info hx := by cases hx
  tried b p nId := by
    constructor
    · intro hcell
      cases hcell
    · rintro ⟨info, hx, -⟩
      cases hx
  nTried := rfl
  nNew := rfl
  few nId info hx := by cases hx
  times nId info hx := by cases hx
  nKey := hkey

/-- Every call ends, in a sound manager with the same key, and every entry was there before or has
just been told. -/
theorem Partly.step (h : Sound cheapHash s) {call : AddrManCall} (htimely : call.Timely)
    (hroom : s.nIdCount + call.IsAdd.toNat ≤ INT_MAX) :
    ∃ s', s.step cheapHash call = some s' ∧ Sound cheapHash s' ∧ s'.nKey = s.nKey ∧
      s'.nIdCount ≤ s.nIdCount + call.IsAdd.toNat ∧
      ∀ x info', s'.entry x = some info' →
        (∃ info, s.entry x = some info ∧ info'.toCService = info.toCService) ∨
          call.told = some info'.toCService := by
  cases call with
  | add addr source nTimePenalty nNow nRand =>
    obtain ⟨fNew, s', hadd, hs', -, hnKey, hcount, -, hservice⟩ :=
      h.add_ addr source nTimePenalty nNow nRand hroom
    refine ⟨s', by rw [CAddrMan.step, hadd, Option.map_some], hs', hnKey, hcount,
      fun x info' hx' => ?_⟩
    refine (hservice x info' hx').imp_right fun htold => ?_
    rw [told, if_pos htold.1, htold.2]
  | good addr nTime nRand =>
    obtain ⟨s', hgood, hs', hnKey, -, hservice⟩ := h.good_ addr htimely nRand
    exact ⟨s', hgood, hs', hnKey, hservice.nIdCount.le,
      fun x info' hx' => .inl (hservice.entry x info' hx')⟩
  | attempt addr nTime =>
    obtain ⟨hs', hnKey, hservice⟩ := h.attempt_ addr htimely
    exact ⟨_, rfl, hs', hnKey, hservice.nIdCount.le,
      fun x info' hx' => .inl (hservice.entry x info' hx')⟩
  | connected addr nTime =>
    obtain ⟨hs', hnKey, hservice⟩ := h.connected_ addr nTime
    exact ⟨_, rfl, hs', hnKey, hservice.nIdCount.le,
      fun x info' hx' => .inl (hservice.entry x info' hx')⟩
  | getAddr nNow nRand =>
    obtain ⟨vAddr, s', hget, hs', hentry, hsame, -⟩ := h.getAddr_ nNow nRand
    exact ⟨s', by rw [CAddrMan.step, hget, Option.map_some], hs', hsame.nKey, hsame.nIdCount.le,
      fun x info' hx' => .inl ((Inherits.of_eq hentry hsame.nIdCount).entry x info' hx')⟩

/-- A run with no more additions than the ids allow. -/
theorem Partly.run (h : Sound cheapHash s) {calls : List AddrManCall}
    (htimely : ∀ call ∈ calls, call.Timely) (hroom : s.nIdCount + calls.countP IsAdd ≤ INT_MAX) :
    ∃ s', s.run cheapHash calls = some s' ∧ Sound cheapHash s' ∧ s'.nKey = s.nKey ∧
      s'.nIdCount ≤ s.nIdCount + calls.countP IsAdd ∧
      ∀ x info', s'.entry x = some info' →
        (∃ info, s.entry x = some info ∧ info'.toCService = info.toCService) ∨
          ∃ call ∈ calls, call.told = some info'.toCService := by
  induction calls generalizing s with
  | nil => exact ⟨s, rfl, h, rfl, le_rfl, fun x info' hx' => .inl ⟨info', hx', rfl⟩⟩
  | cons call calls ih =>
    have hcountP : (call :: calls).countP IsAdd = calls.countP IsAdd + call.IsAdd.toNat := by
      rw [List.countP_cons]
      cases call.IsAdd <;> rfl
    rw [hcountP] at hroom ⊢
    obtain ⟨mid, hstep, hmid, hnKey, hcount, hservice⟩ :=
      h.step (htimely call List.mem_cons_self) (by omega)
    obtain ⟨s', hrun, hs', hnKey', hcount', hservice'⟩ :=
      ih hmid (fun c hc => htimely c (List.mem_cons_of_mem _ hc)) (by omega)
    refine ⟨s', ?_, hs', hnKey'.trans hnKey, by omega, fun x info' hx' => ?_⟩
    · rw [run_cons, hstep]
      exact hrun
    · obtain ⟨info, hx, heq⟩ | ⟨c, hc, htold⟩ := hservice' x info' hx'
      · obtain hold | htold := hservice x info hx
        · obtain ⟨old, hold, heq'⟩ := hold
          exact .inl ⟨old, hold, heq.trans heq'⟩
        · exact .inr ⟨call, List.mem_cons_self, heq ▸ htold⟩
      · exact .inr ⟨c, List.mem_cons_of_mem _ hc, htold⟩

/-- A run from the beginning. -/
theorem run_clear (hkey : nKey ≠ 0) {calls : List AddrManCall}
    (htimely : ∀ call ∈ calls, call.Timely) (hroom : calls.countP IsAdd ≤ INT_MAX) :
    ∃ s, (clear nKey).run cheapHash calls = some s ∧ Sound cheapHash s ∧ s.nKey = nKey ∧
      s.nIdCount ≤ calls.countP IsAdd ∧
      ∀ x info, s.entry x = some info → ∃ call ∈ calls, call.told = some info.toCService := by
  have hstart : (clear nKey).nIdCount + calls.countP IsAdd = calls.countP IsAdd := Nat.zero_add _
  obtain ⟨s, hrun, hs, hnKey, hcount, hservice⟩ :=
    (sound_clear hkey).run htimely (hstart.trans_le hroom)
  refine ⟨s, hrun, hs, hnKey, hcount.trans_eq hstart, fun x info hx => ?_⟩
  obtain ⟨old, hold, -⟩ | htold := hservice x info hx
  · cases hold
  · exact htold

/-! ## Calls for samples -/

def sampleCheapHash (l : List UInt8) : ℕ := l.foldl (fun hash c => 31 * hash + c.toNat) 7

def sampleAddress : CAddress :=
  { ip := 0xffff08080808, port := 19914, nTime := 1700000000 }

def sampleSource : CNetAddr := ⟨0xffff01010101⟩

def sampleCalls : List AddrManCall :=
  [.add sampleAddress sampleSource 7200 1700000000 0, .getAddr 1700000010 fun _ => 0,
    .attempt sampleAddress.toCService 1700000020]

theorem timely_sampleCalls : ∀ call ∈ sampleCalls, call.Timely := by
  have hattempt : 0 ≤ (1700000020 : Int64).toInt := by decide
  simp only [sampleCalls, List.forall_mem_cons]
  exact ⟨trivial, trivial, hattempt, List.forall_mem_nil _⟩

/-! ## Consistency -/

/-- No sequence of calls with at most as many additions as there are ids fails an assertion, and
the check finds nothing after any of them. -/
theorem run_consistent (hkey : nKey ≠ 0) {calls : List AddrManCall}
    (htimely : ∀ call ∈ calls, call.Timely) (hroom : calls.countP IsAdd ≤ INT_MAX) :
    ∃ s, (clear nKey).run cheapHash calls = some s ∧ s.check_ cheapHash = 0 := by
  obtain ⟨s, hrun, hs, -⟩ := run_clear hkey htimely hroom
  exact ⟨s, hrun, hs.check⟩

theorem run_consistent_sample :
    ∃ s, (clear 1).run sampleCheapHash sampleCalls = some s ∧ s.check_ sampleCheapHash = 0 :=
  run_consistent (by decide) timely_sampleCalls (by decide)

/-! ## Containment -/

theorem card_sourceBuckets (group : List UInt8) : (sourceBuckets cheapHash nKey group).card ≤
    ADDRMAN_NEW_BUCKETS_PER_SOURCE_GROUP := by
  refine Finset.card_image_le.trans_eq ?_
  rw [Finset.card_range]

theorem getNewBucket_mem (addr : CService) (source : CNetAddr) :
    addr.getNewBucket cheapHash nKey source ∈ sourceBuckets cheapHash nKey source.getGroup :=
  Finset.mem_image.mpr ⟨_, Finset.mem_range.mpr (Nat.mod_lt _ (by decide)), rfl⟩

theorem Partly.run_fromGroup (h : Sound cheapHash s) {group : List UInt8}
    {calls : List AddrManCall} (hgroup : ∀ call ∈ calls, call.FromGroup group)
    (hroom : s.nIdCount + calls.length ≤ INT_MAX) :
    ∃ s', s.run cheapHash calls = some s' ∧ s'.vvTried = s.vvTried ∧
      ∀ b ∉ sourceBuckets cheapHash s.nKey group, s'.vvNew b = s.vvNew b := by
  induction calls generalizing s with
  | nil => exact ⟨s, rfl, rfl, fun _ _ => rfl⟩
  | cons call calls ih =>
    have hcall := hgroup call List.mem_cons_self
    cases call with
    | add addr source nTimePenalty nNow nRand =>
      obtain rfl : source.getGroup = group := hcall
      rw [List.length_cons] at hroom
      obtain ⟨fNew, mid, hadd, hmid, htried, hkey, hcount, hnew, -⟩ :=
        h.add_ addr source nTimePenalty nNow nRand (by omega)
      obtain ⟨s', hrun, htried', hnew'⟩ :=
        ih hmid (fun c hc => hgroup c (List.mem_cons_of_mem _ hc)) (by omega)
      refine ⟨s', ?_, htried'.trans htried, fun b hb => ?_⟩
      · rw [run_cons, CAddrMan.step, hadd]
        exact hrun
      · rw [hnew' b (hkey ▸ hb)]
        funext p
        exact hnew b p fun heq => hb (heq ▸ getNewBucket_mem addr.toCService source)
    | good addr nTime nRand => exact hcall.elim
    | attempt addr nTime => exact hcall.elim
    | connected addr nTime => exact hcall.elim
    | getAddr nNow nRand => exact hcall.elim

/-- Whoever holds one group of addresses and tells the node of as many addresses as he likes
moves nothing in the tried table and nothing outside of 64 buckets of the new one. -/
theorem run_contained (hkey : nKey ≠ 0) (group : List UInt8) :
    ∃ buckets : Finset (Fin ADDRMAN_NEW_BUCKET_COUNT),
      buckets.card ≤ ADDRMAN_NEW_BUCKETS_PER_SOURCE_GROUP ∧
      ∀ before after : List AddrManCall, (∀ call ∈ before, call.Timely) →
        (∀ call ∈ after, call.FromGroup group) →
        before.countP IsAdd + after.length ≤ INT_MAX →
        ∃ s s', (clear nKey).run cheapHash before = some s ∧ s.run cheapHash after = some s' ∧
          s'.vvTried = s.vvTried ∧ ∀ b ∉ buckets, s'.vvNew b = s.vvNew b := by
  refine ⟨sourceBuckets cheapHash nKey group, card_sourceBuckets group,
    fun before after hbefore hafter hroom => ?_⟩
  obtain ⟨s, hrun, hs, hnKey, hcount, -⟩ := run_clear hkey hbefore (by omega)
  obtain ⟨s', hrun', htried, hnew⟩ := hs.run_fromGroup hafter (by omega)
  rw [hnKey] at hnew
  exact ⟨s, s', hrun, hrun', htried, hnew⟩

theorem run_contained_sample :
    ∃ buckets : Finset (Fin ADDRMAN_NEW_BUCKET_COUNT), buckets.card ≤ 64 ∧
      ∃ s s', (clear 1).run sampleCheapHash sampleCalls = some s ∧
        s.run sampleCheapHash [.add sampleAddress sampleSource 0 1700000030 0] = some s' ∧
        s'.vvTried = s.vvTried ∧ ∀ b ∉ buckets, s'.vvNew b = s.vvNew b := by
  obtain ⟨buckets, hcard, hsame⟩ :=
    @run_contained sampleCheapHash 1 (by decide) sampleSource.getGroup
  refine ⟨buckets, hcard, hsame sampleCalls _ timely_sampleCalls ?_ (by decide)⟩
  intro call hcall
  obtain rfl := List.mem_singleton.mp hcall
  rfl

/-! ## Addresses that work -/

/-- Whatever has happened before, an address that is known and works ends at its place in the
tried table: the search for one of its buckets always finds one. -/
theorem run_good (hkey : nKey ≠ 0) {calls : List AddrManCall}
    (htimely : ∀ call ∈ calls, call.Timely) (hroom : calls.countP IsAdd ≤ INT_MAX) {nTime : Int64}
    (htime : 0 < nTime.toInt) (addr : CService) (nRand : ℕ) :
    ∃ s s', (clear nKey).run cheapHash calls = some s ∧
      s.good_ cheapHash addr nTime nRand = some s' ∧
      ∀ nId info, s.find addr.toCNetAddr = some (nId, info) → info.toCService = addr →
        ∃ info', s'.mapInfo.lookup nId = some info' ∧ info'.fInTried = true ∧
          s'.vvTried (info'.getTriedBucket cheapHash nKey) (info'.triedPlace cheapHash nKey) =
            some nId := by
  obtain ⟨s, hrun, hs, hnKey, -⟩ := run_clear hkey htimely hroom
  obtain ⟨s', hgood, hs', hnKey', hinTried, -⟩ := hs.good_ addr htime nRand
  have hsame : s'.nKey = nKey := hnKey'.trans hnKey
  refine ⟨s, s', hrun, hgood, fun nId info hfind hservice => ?_⟩
  obtain ⟨info', hx', htried⟩ := hinTried nId info hfind hservice
  obtain ⟨found, hfound, rfl⟩ := exists_of_entry hx'
  refine ⟨found, hfound, htried, (hs'.tried _ _ nId).mpr ⟨_, hx', htried, ?_, ?_⟩⟩
  · rw [hsame]
    rfl
  · rw [hsame]
    rfl

theorem run_good_sample :
    ∃ s s', (clear 1).run sampleCheapHash sampleCalls = some s ∧
      s.good_ sampleCheapHash sampleAddress.toCService 1700000040 5 = some s' := by
  obtain ⟨s, s', hrun, hgood, -⟩ := run_good (show (1 : UInt256) ≠ 0 by decide) timely_sampleCalls
    (by decide) (show 0 < (1700000040 : Int64).toInt by decide) sampleAddress.toCService 5
  exact ⟨s, s', hrun, hgood⟩

/-! ## Addresses for another node -/

/-- What another node is told: a bounded part of the addresses, none of them twice, each of them
told before, routable and not terrible, and all such addresses if they are few enough. -/
theorem run_getAddr (hkey : nKey ≠ 0) {calls : List AddrManCall}
    (htimely : ∀ call ∈ calls, call.Timely) (hroom : calls.countP IsAdd ≤ INT_MAX) (nNow : ℤ)
    (nRand : ℕ → ℕ) :
    ∃ s vAddr s', (clear nKey).run cheapHash calls = some s ∧
      s.getAddr_ nNow nRand = some (vAddr, s') ∧
      vAddr.length ≤ min (ADDRMAN_GETADDR_MAX_PCT * s.vRandom.length / 100) ADDRMAN_GETADDR_MAX ∧
      (vAddr.map (·.toCNetAddr)).Nodup ∧
      (∀ a ∈ vAddr, (∃ call ∈ calls, call.told = some a.toCService) ∧
        ∃ nId info, s.mapInfo.lookup nId = some info ∧ info.isTerrible nNow = false ∧
          info.toCAddress = a) ∧
      (vAddr.length <
          min (ADDRMAN_GETADDR_MAX_PCT * s.vRandom.length / 100) ADDRMAN_GETADDR_MAX →
        ∀ nId info, s.mapInfo.lookup nId = some info → info.isTerrible nNow = false →
          info.toCAddress ∈ vAddr) := by
  obtain ⟨s, hrun, hs, -, -, htold⟩ := run_clear hkey htimely hroom
  obtain ⟨vAddr, s', hget, -, -, -, hlen, hnodup, hknown, hall⟩ := hs.getAddr_ nNow nRand
  refine ⟨s, vAddr, s', hrun, hget, hlen, hnodup, fun a ha => ?_,
    fun hless nId info hx hgood => hall hless nId info.unplaced (entry_of_lookup_eq hx) hgood⟩
  obtain ⟨nId, info, hx, hgood, rfl⟩ := hknown a ha
  obtain ⟨found, hfound, rfl⟩ := exists_of_entry hx
  exact ⟨htold nId _ hx, nId, found, hfound, hgood, rfl⟩

theorem run_getAddr_sample :
    ∃ s vAddr s', (clear 1).run sampleCheapHash sampleCalls = some s ∧
      s.getAddr_ 1700000050 (fun _ => 3) = some (vAddr, s') ∧ (vAddr.map (·.toCNetAddr)).Nodup := by
  obtain ⟨s, vAddr, s', hrun, hget, -, hnodup, -⟩ :=
    run_getAddr (show (1 : UInt256) ≠ 0 by decide) timely_sampleCalls (by decide) 1700000050
      fun _ => 3
  exact ⟨s, vAddr, s', hrun, hget, hnodup⟩

end CAddrMan

end BitBay
