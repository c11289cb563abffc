import BitBay.Library.MapEntries
import BitBay.Library.Slots
import BitBay.Network.NetAddr

/-!
# The address manager

The addresses that a node knows, under numbers that are never used twice. An address that has not
been tried stands in up to eight of the buckets of the "new" table, one that is known to work in
one bucket of the "tried" table, and a third index keeps all of them in a random order. Buckets
and places are chosen by a hash with a secret key, `cheapHash` of what is written into it.

A place that the code marks with -1 is `none`, and so is a position of -1. A failed assertion ends
in `none` as well, and so does a read of a number that no entry has: the entry the code creates for
it has no reference, which the assertion behind it refuses. Random numbers and the time are
arguments.
-/
namespace BitBay

open Wire

abbrev ADDRMAN_TRIED_BUCKET_COUNT : ℕ := 256

abbrev ADDRMAN_NEW_BUCKET_COUNT : ℕ := 1024

abbrev ADDRMAN_BUCKET_SIZE : ℕ := 64

def ADDRMAN_TRIED_BUCKETS_PER_GROUP : ℕ := 8

def ADDRMAN_NEW_BUCKETS_PER_SOURCE_GROUP : ℕ := 64

def ADDRMAN_NEW_BUCKETS_PER_ADDRESS : ℤ := 8

def ADDRMAN_HORIZON_DAYS : ℤ := 30

def ADDRMAN_RETRIES : ℤ := 3

def ADDRMAN_MAX_FAILURES : ℤ := 10

def ADDRMAN_MIN_FAIL_DAYS : ℤ := 7

def ADDRMAN_GETADDR_MAX_PCT : ℕ := 23

def ADDRMAN_GETADDR_MAX : ℕ := 2500

abbrev TriedTable := Fin ADDRMAN_TRIED_BUCKET_COUNT → Fin ADDRMAN_BUCKET_SIZE → Option ℕ

abbrev NewTable := Fin ADDRMAN_NEW_BUCKET_COUNT → Fin ADDRMAN_BUCKET_SIZE → Option ℕ

def INT_MAX : ℕ := 2147483647

def getRandInt (nRand nMax : ℕ) : ℕ := if nMax = 0 then 0 else nRand % nMax

structure CAddrInfo extends CAddress where
  source : CNetAddr
  nLastSuccess : Int64 := 0
  nAttempts : Int32 := 0
  nRefCount : ℤ := 0
  fInTried : Bool := false
  nRandomPos : Option ℕ := none

instance instInhabitedCAddrInfo : Inhabited CAddrInfo :=
  ⟨{ ip := 0, port := 0, source := ⟨0⟩ }⟩

/-- An address that has not been heard of before. -/
def CAddrInfo.create (addr : CAddress) (addrSource : CNetAddr) : CAddrInfo :=
  { toCAddress := { addr with nLastTry := 0 }, source := addrSource }

/-! ## Buckets -/

section Buckets

variable (cheapHash : List UInt8 → ℕ) (nKey : UInt256)

def CService.getTriedBucket (s : CService) : Fin ADDRMAN_TRIED_BUCKET_COUNT :=
  let hash1 := cheapHash (Wire.leBytes 32 nKey.toNat ++ writeString s.getKey)
  let hash2 := cheapHash (Wire.leBytes 32 nKey.toNat ++ writeString s.getGroup ++
    Wire.leBytes 8 (hash1 % ADDRMAN_TRIED_BUCKETS_PER_GROUP))
  Fin.ofNat _ hash2

def CService.getNewBucket (s : CService) (src : CNetAddr) : Fin ADDRMAN_NEW_BUCKET_COUNT :=
  let vchSourceGroupKey := src.getGroup
  let hash1 := cheapHash (Wire.leBytes 32 nKey.toNat ++ writeString s.getGroup ++
    writeString vchSourceGroupKey)
  let hash2 := cheapHash (Wire.leBytes 32 nKey.toNat ++ writeString vchSourceGroupKey ++
    Wire.leBytes 8 (hash1 % ADDRMAN_NEW_BUCKETS_PER_SOURCE_GROUP))
  Fin.ofNat _ hash2

/-- The buckets of the new table that the sources of one group can reach. -/
def sourceBuckets (group : List UInt8) : Finset (Fin ADDRMAN_NEW_BUCKET_COUNT) :=
  (Finset.range ADDRMAN_NEW_BUCKETS_PER_SOURCE_GROUP).image fun k =>
    Fin.ofNat _ (cheapHash (Wire.leBytes 32 nKey.toNat ++ writeString group ++ Wire.leBytes 8 k))

def CService.getBucketPosition (s : CService) (fNew : Bool) (nBucket : ℕ) :
    Fin ADDRMAN_BUCKET_SIZE :=
  let hash1 := cheapHash (Wire.leBytes 32 nKey.toNat ++ [if fNew then 0x4E else 0x4B] ++
    Wire.leBytes 4 nBucket ++ writeString s.getKey)
  Fin.ofNat _ hash1

def CService.newPlace (s : CService) (b : Fin ADDRMAN_NEW_BUCKET_COUNT) :
    Fin ADDRMAN_BUCKET_SIZE := s.getBucketPosition cheapHash nKey true b

def CService.triedPlace (s : CService) : Fin ADDRMAN_BUCKET_SIZE :=
  s.getBucketPosition cheapHash nKey false (s.getTriedBucket cheapHash nKey)

end Buckets

/-- An address that is not worth keeping. -/
def CAddrInfo.isTerrible (info : CAddrInfo) (nNow : ℤ) : Bool :=
  if info.nLastTry ≠ 0 ∧ nNow - 60 ≤ info.nLastTry.toInt then false
  else if nNow + 10 * 60 < info.nTime.toNat then true
  else if info.nTime = 0 ∨ ADDRMAN_HORIZON_DAYS * 24 * 60 * 60 < nNow - info.nTime.toNat then true
  else if info.nLastSuccess = 0 ∧ ADDRMAN_RETRIES ≤ info.nAttempts.toInt then true
  else if ADDRMAN_MIN_FAIL_DAYS * 24 * 60 * 60 < nNow - info.nLastSuccess.toInt ∧
      ADDRMAN_MAX_FAILURES ≤ info.nAttempts.toInt then true
  else false

def CAddrInfo.mention (info : CAddrInfo) (addr : CAddress) (nTimePenalty nNow : ℤ) :
    CAddrInfo :=
  let fCurrentlyOnline := nNow - addr.nTime.toNat < 24 * 60 * 60
  let nUpdateInterval : ℤ := if fCurrentlyOnline then 60 * 60 else 24 * 60 * 60
  let nTime := if addr.nTime ≠ 0 ∧ (info.nTime = 0 ∨
      (info.nTime.toNat : ℤ) < addr.nTime.toNat - nUpdateInterval - nTimePenalty) then
    UInt32.ofInt (max 0 (addr.nTime.toNat - nTimePenalty))
  else info.nTime
  { info with nTime := nTime, nServices := info.nServices ||| addr.nServices }

/-! ## The tables -/

structure CAddrMan where
  nKey : UInt256
  nIdCount : ℕ := 0
  mapInfo : SortedMap ℕ CAddrInfo := ∅
  mapAddr : SortedMap CNetAddr ℕ := ∅
  vRandom : List ℕ := []
  nTried : ℤ := 0
  vvTried : TriedTable := fun _ _ => none
  nNew : ℤ := 0
  vvNew : NewTable := fun _ _ => none

namespace CAddrMan

/-- The manager that `Clear` leaves behind, with the key it draws. -/
def clear (nKey : UInt256) : CAddrMan := { nKey := nKey }

def updateInfo (s : CAddrMan) (nId : ℕ) (f : CAddrInfo → CAddrInfo) : CAddrMan :=
  match s.mapInfo.lookup nId with
  | some info => { s with mapInfo := s.mapInfo.insert nId (f info) }
  | none => s

def find (s : CAddrMan) (addr : CNetAddr) : Option (ℕ × CAddrInfo) := do
  let nId ← s.mapAddr.lookup addr
  let info ← s.mapInfo.lookup nId
  return (nId, info)

def withEntry (s : CAddrMan) (addr : CAddress) (addrSource : CNetAddr) : CAddrMan :=
  let nId := s.nIdCount
  { s with
    nIdCount := s.nIdCount + 1
    mapInfo := s.mapInfo.insert nId
      { CAddrInfo.create addr addrSource with nRandomPos := some s.vRandom.length }
    mapAddr := s.mapAddr.insert addr.toCNetAddr nId
    vRandom := s.vRandom ++ [nId] }

/-- `nIdCount` is an `int`: nothing is defined once it cannot be counted up any more. -/
def create (s : CAddrMan) (addr : CAddress) (addrSource : CNetAddr) : Option CAddrMan :=
  if s.nIdCount < INT_MAX then some (s.withEntry addr addrSource) else none

def swapRandom (s : CAddrMan) (nRndPos1 nRndPos2 : ℕ) : Option CAddrMan := do
  if nRndPos1 = nRndPos2 then return s
  let nId1 ← s.vRandom[nRndPos1]?
  let nId2 ← s.vRandom[nRndPos2]?
  guard (nId1 ∈ s.mapInfo)
  guard (nId2 ∈ s.mapInfo)
  let moved := (s.updateInfo nId1 fun info => { info with nRandomPos := some nRndPos2 }).updateInfo
    nId2 fun info => { info with nRandomPos := some nRndPos1 }
  return { moved with vRandom := (s.vRandom.set nRndPos1 nId2).set nRndPos2 nId1 }

def delete (s : CAddrMan) (nId : ℕ) : Option CAddrMan := do
  let info ← s.mapInfo.lookup nId
  guard (info.fInTried = false)
  guard (info.nRefCount = 0)
  let nRandomPos ← info.nRandomPos
  let s ← s.swapRandom nRandomPos (s.vRandom.length - 1)
  return { s with
    vRandom := s.vRandom.dropLast
    mapAddr := s.mapAddr.erase info.toCNetAddr
    mapInfo := s.mapInfo.erase nId
    nNew := s.nNew - 1 }

def leaveNew (s : CAddrMan) (nId : ℕ) (b : Fin ADDRMAN_NEW_BUCKET_COUNT)
    (p : Fin ADDRMAN_BUCKET_SIZE) : CAddrMan :=
  { s.updateInfo nId fun info => { info with nRefCount := info.nRefCount - 1 } with
    vvNew := setCell s.vvNew b p none }

/-- The entry stands at the place, with `nRefCount` references. -/
def enterNew (s : CAddrMan) (nId : ℕ) (b : Fin ADDRMAN_NEW_BUCKET_COUNT)
    (p : Fin ADDRMAN_BUCKET_SIZE) (nRefCount : ℤ) : CAddrMan :=
  { s.updateInfo nId fun info => { info with nRefCount := nRefCount } with
    vvNew := setCell s.vvNew b p (some nId) }

def clearNew (s : CAddrMan) (nUBucket : Fin ADDRMAN_NEW_BUCKET_COUNT)
    (nUBucketPos : Fin ADDRMAN_BUCKET_SIZE) : Option CAddrMan :=
  match s.vvNew nUBucket nUBucketPos with
  | none => some s
  | some nIdDelete => do
    let infoDelete ← s.mapInfo.lookup nIdDelete
    guard (0 < infoDelete.nRefCount)
    let s := s.leaveNew nIdDelete nUBucket nUBucketPos
    if infoDelete.nRefCount - 1 = 0 then s.delete nIdDelete else return s

section Hash

variable (cheapHash : List UInt8 → ℕ)

def leaveBucket (nId : ℕ) (info : CAddrInfo) (s : CAddrMan)
    (bucket : Fin ADDRMAN_NEW_BUCKET_COUNT) : CAddrMan :=
  let pos := info.newPlace cheapHash s.nKey bucket
  if s.vvNew bucket pos = some nId then s.leaveNew nId bucket pos else s

/-- Move a tried entry back to the new table, and delete what is in its way there. -/
def evict (s : CAddrMan) (nKBucket : Fin ADDRMAN_TRIED_BUCKET_COUNT)
    (nKBucketPos : Fin ADDRMAN_BUCKET_SIZE) (nIdEvict : ℕ) : Option CAddrMan := do
  let infoOld ← s.mapInfo.lookup nIdEvict
  let s := { s.updateInfo nIdEvict fun info => { info with fInTried := false } with
    vvTried := setCell s.vvTried nKBucket nKBucketPos none
    nTried := s.nTried - 1 }
  let nUBucket := infoOld.getNewBucket cheapHash s.nKey infoOld.source
  let nUBucketPos := infoOld.newPlace cheapHash s.nKey nUBucket
  let s ← s.clearNew nUBucket nUBucketPos
  guard (s.vvNew nUBucket nUBucketPos = none)
  let s := s.enterNew nIdEvict nUBucket nUBucketPos 1
  return { s with nNew := s.nNew + 1 }

def clearTried (s : CAddrMan) (nKBucket : Fin ADDRMAN_TRIED_BUCKET_COUNT)
    (nKBucketPos : Fin ADDRMAN_BUCKET_SIZE) : Option CAddrMan :=
  match s.vvTried nKBucket nKBucketPos with
  | none => some s
  | some nIdEvict => s.evict cheapHash nKBucket nKBucketPos nIdEvict

def enterTried (s : CAddrMan) (nId : ℕ) (nKBucket : Fin ADDRMAN_TRIED_BUCKET_COUNT)
    (nKBucketPos : Fin ADDRMAN_BUCKET_SIZE) : CAddrMan :=
  { s.updateInfo nId fun info => { info with fInTried := true } with
    vvTried := setCell s.vvTried nKBucket nKBucketPos (some nId)
    nTried := s.nTried + 1 }

def makeTried (s : CAddrMan) (nId : ℕ) : Option CAddrMan := do
  let info ← s.mapInfo.lookup nId
  let s := (List.finRange ADDRMAN_NEW_BUCKET_COUNT).foldl (leaveBucket cheapHash nId info) s
  let s := { s with nNew := s.nNew - 1 }
  let info ← s.mapInfo.lookup nId
  guard (info.nRefCount = 0)
  let nKBucket := info.getTriedBucket cheapHash s.nKey
  let nKBucketPos := info.triedPlace cheapHash s.nKey
  let s ← s.clearTried cheapHash nKBucket nKBucketPos
  guard (s.vvTried nKBucket nKBucketPos = none)
  return s.enterTried nId nKBucket nKBucketPos

def good_ (s : CAddrMan) (addr : CService) (nTime : Int64) (nRand : ℕ) : Option CAddrMan :=
  match s.find addr.toCNetAddr with
  | none => some s
  | some (nId, info) =>
    if info.toCService ≠ addr then some s
    else
      let s := s.updateInfo nId fun info =>
        { info with
          nLastSuccess := nTime
          nLastTry := nTime
          nTime := UInt32.ofInt nTime.toInt
          nAttempts := 0 }
      if info.fInTried then some s
      else
        let nRnd := getRandInt nRand ADDRMAN_NEW_BUCKET_COUNT
        let fFound := (List.range ADDRMAN_NEW_BUCKET_COUNT).any fun n =>
          let nB := Fin.ofNat ADDRMAN_NEW_BUCKET_COUNT (n + nRnd)
          s.vvNew nB (info.newPlace cheapHash s.nKey nB) = some nId
        if fFound then s.makeTried cheapHash nId else some s

def givesWay (s : CAddrMan) (pinfo : CAddrInfo) (nNow : ℤ) : Option ℕ → Option Bool
  | none => some true
  | some nIdExisting => do
    let infoExisting ← s.mapInfo.lookup nIdExisting
    return infoExisting.isTerrible nNow || (1 < infoExisting.nRefCount && pinfo.nRefCount = 0)

/-- Give the entry one more place, unless what stands there is worth more. -/
def addToNew (s : CAddrMan) (nId : ℕ) (source : CNetAddr) (nNow : ℤ) : Option CAddrMan := do
  let pinfo ← s.mapInfo.lookup nId
  let nUBucket := pinfo.getNewBucket cheapHash s.nKey source
  let nUBucketPos := pinfo.newPlace cheapHash s.nKey nUBucket
  if s.vvNew nUBucket nUBucketPos = some nId then return s
  let fInsert ← s.givesWay pinfo nNow (s.vvNew nUBucket nUBucketPos)
  if fInsert then
    let s ← s.clearNew nUBucket nUBucketPos
    return s.enterNew nId nUBucket nUBucketPos (pinfo.nRefCount + 1)
  else if pinfo.nRefCount = 0 then s.delete nId
  else return s

def add_ (s : CAddrMan) (addr : CAddress) (source : CNetAddr) (nTimePenalty nNow : ℤ)
    (nRand : ℕ) : Option (Bool × CAddrMan) :=
  if !addr.isRoutable then some (false, s)
  else
    match s.find addr.toCNetAddr with
    | some (nId, info) =>
      let info := info.mention addr nTimePenalty nNow
      let s := s.updateInfo nId fun info => info.mention addr nTimePenalty nNow
      if addr.nTime = 0 ∨ (info.nTime ≠ 0 ∧ addr.nTime ≤ info.nTime) then some (false, s)
      else if info.fInTried then some (false, s)
      else if info.nRefCount = ADDRMAN_NEW_BUCKETS_PER_ADDRESS then some (false, s)
      else
        let nFactor := 2 ^ info.nRefCount.toNat
        if 1 < nFactor ∧ getRandInt nRand nFactor ≠ 0 then some (false, s)
        else (s.addToNew cheapHash nId source nNow).map fun s => (false, s)
    | none => do
      let nId := s.nIdCount
      let s ← s.create addr source
      let s := s.updateInfo nId fun info =>
        { info with nTime := UInt32.ofInt (max 0 (info.nTime.toNat - nTimePenalty)) }
      let s := { s with nNew := s.nNew + 1 }
      let s ← s.addToNew cheapHash nId source nNow
      return (true, s)

end Hash

def attempt_ (s : CAddrMan) (addr : CService) (nTime : Int64) : CAddrMan :=
  match s.find addr.toCNetAddr with
  | none => s
  | some (nId, info) =>
    if info.toCService ≠ addr then s
    else s.updateInfo nId fun info =>
      { info with nLastTry := nTime, nAttempts := info.nAttempts + 1 }

def connected_ (s : CAddrMan) (addr : CService) (nTime : Int64) : CAddrMan :=
  match s.find addr.toCNetAddr with
  | none => s
  | some (nId, info) =>
    if info.toCService ≠ addr then s
    else
      let nUpdateInterval := 20 * 60
      s.updateInfo nId fun info =>
        if nUpdateInterval < nTime.toInt - info.nTime.toNat then
          { info with nTime := UInt32.ofInt nTime.toInt }
        else info

def getAddrLoop (nNodes : ℕ) (nNow : ℤ) (nRand : ℕ → ℕ) :
    ℕ → ℕ → List CAddress → CAddrMan → Option (List CAddress × CAddrMan)
  | 0, _, vAddr, s => some (vAddr, s)
  | rounds + 1, n, vAddr, s =>
    if nNodes ≤ vAddr.length then some (vAddr, s)
    else do
      let nRndPos := getRandInt (nRand n) (s.vRandom.length - n) + n
      let s ← s.swapRandom n nRndPos
      let nId ← s.vRandom[n]?
      let ai ← s.mapInfo.lookup nId
      getAddrLoop nNodes nNow nRand rounds (n + 1)
        (if ai.isTerrible nNow then vAddr else vAddr ++ [ai.toCAddress]) s

def getAddr_ (s : CAddrMan) (nNow : ℤ) (nRand : ℕ → ℕ) : Option (List CAddress × CAddrMan) :=
  let nNodes := min (ADDRMAN_GETADDR_MAX_PCT * s.vRandom.length / 100) ADDRMAN_GETADDR_MAX
  getAddrLoop nNodes nNow nRand s.vRandom.length 0 [] s

/-! ## The consistency check -/

/-- The ids that are tried, and the references of those that are not. -/
abbrev CheckMarks := Finset ℕ × SortedMap ℕ ℤ

def checkMarks (marks : CheckMarks) (n : ℕ) (info : CAddrInfo) : Except ℤ CheckMarks :=
  if info.fInTried then
    if info.nLastSuccess = 0 then .error (-1)
    else if info.nRefCount ≠ 0 then .error (-2)
    else .ok (insert n marks.1, marks.2)
  else if info.nRefCount < 0 ∨ ADDRMAN_NEW_BUCKETS_PER_ADDRESS < info.nRefCount then .error (-3)
  else if info.nRefCount = 0 then .error (-4)
  else .ok (marks.1, marks.2.insert n info.nRefCount)

def checkIndexes (s : CAddrMan) (n : ℕ) (info : CAddrInfo) : Except ℤ Unit :=
  if (s.mapAddr.lookup info.toCNetAddr).getD 0 ≠ n then .error (-5)
  else if (info.nRandomPos.bind fun p => s.vRandom[p]?) ≠ some n then .error (-14)
  else if info.nLastTry.toInt < 0 then .error (-6)
  else if info.nLastSuccess.toInt < 0 then .error (-8)
  else .ok ()

def checkInfo (s : CAddrMan) (marks : CheckMarks) (e : ℕ × CAddrInfo) : Except ℤ CheckMarks := do
  let marks ← checkMarks marks e.1 e.2
  s.checkIndexes e.1 e.2
  return marks

def checkTriedCell (cheapHash : List UInt8 → ℕ) (s : CAddrMan) (setTried : Finset ℕ)
    (c : Fin ADDRMAN_TRIED_BUCKET_COUNT × Fin ADDRMAN_BUCKET_SIZE) : Except ℤ (Finset ℕ) :=
  match s.vvTried c.1 c.2 with
  | none => .ok setTried
  | some nId =>
    let info := (s.mapInfo.lookup nId).getD default
    if nId ∉ setTried then .error (-11)
    else if info.getTriedBucket cheapHash s.nKey ≠ c.1 then .error (-17)
    else if info.getBucketPosition cheapHash s.nKey false c.1 ≠ c.2 then .error (-18)
    else .ok (setTried.erase nId)

def checkNewCell (cheapHash : List UInt8 → ℕ) (s : CAddrMan) (mapNew : SortedMap ℕ ℤ)
    (c : Fin ADDRMAN_NEW_BUCKET_COUNT × Fin ADDRMAN_BUCKET_SIZE) : Except ℤ (SortedMap ℕ ℤ) :=
  match s.vvNew c.1 c.2 with
  | none => .ok mapNew
  | some nId =>
    let info := (s.mapInfo.lookup nId).getD default
    match mapNew.lookup nId with
    | none => .error (-12)
    | some nRefCount =>
      if info.newPlace cheapHash s.nKey c.1 ≠ c.2 then .error (-19)
      else if nRefCount - 1 = 0 then .ok (mapNew.erase nId)
      else .ok (mapNew.insert nId (nRefCount - 1))

def checkTables (cheapHash : List UInt8 → ℕ) (s : CAddrMan) : Except ℤ Unit := do
  if (s.vRandom.length : ℤ) ≠ s.nTried + s.nNew then throw (-7)
  let marks ← s.mapInfo.entries.foldlM s.checkInfo (∅, ∅)
  if (marks.1.card : ℤ) ≠ s.nTried then throw (-9)
  if (marks.2.count : ℤ) ≠ s.nNew then throw (-10)
  let setTried ← (places ADDRMAN_TRIED_BUCKET_COUNT ADDRMAN_BUCKET_SIZE).foldlM
    (checkTriedCell cheapHash s) marks.1
  let mapNew ← (places ADDRMAN_NEW_BUCKET_COUNT ADDRMAN_BUCKET_SIZE).foldlM
    (checkNewCell cheapHash s) marks.2
  if setTried.card ≠ 0 then throw (-13)
  if mapNew.count ≠ 0 then throw (-15)
  if s.nKey = 0 then throw (-16)

/-- The code of the first inconsistency, or zero. -/
def check_ (cheapHash : List UInt8 → ℕ) (s : CAddrMan) : ℤ :=
  match checkTables cheapHash s with
  | .ok _ => 0
  | .error err => err

end CAddrMan

end BitBay
