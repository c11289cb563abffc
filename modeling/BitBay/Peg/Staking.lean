import BitBay.Library.Run
import BitBay.Peg.Ratio

/-!
# Coinstakes

A coinstake spends one output and pays it back with the reward and the fees of the
block. `calculateStakingFractions_v2` gives the whole stake to the first output that
returns at least its value to its address, and draws everything else from the
fractions of the reward and the fees.

Index 0 stands for "no such output", since the first output of a coinstake is empty.
-/
namespace BitBay

open CScript

structure StakingCall where
  tx : CTransaction
  mapInputs : MapPrevOut
  fInputs : MapFractions
  mapTestFractionsPool : MapFractions
  feesFractions : CFractions
  nCalculatedStakeRewardWithoutFees : ℤ

/-- What a call leaves behind; without a cause it succeeded. -/
structure StakingResult where
  sFailCause : Option String
  mapTestFractionsPool : MapFractions

structure StakeState where
  frReward : CFractions
  nValueRewardLeft : ℤ
  mapTestFractionsPool : MapFractions

def CFractions.ofValue (value : ℤ) : CFractions := zeroStd.withCols (stdColumns value)

/-- What `map[fkey]` does: an absent entry appears as the empty one. -/
def openEntry (pool : MapFractions) (fkey : UInt320) : MapFractions :=
  if (pool fkey).isSome then pool else Function.update pool fkey (some default)

variable (net : Params) (call : StakingCall)

namespace StakingCall

def outputs : List (CTxOut × ℕ) := call.tx.vout.zipIdx

def others (i : ℕ) : List (CTxOut × ℕ) := call.outputs.filter fun out => out.2 ≠ i

def outKey (i : ℕ) : UInt320 := ⟨net.getHash call.tx, i⟩

def nValueReturn (stake : CTxOut) : ℤ :=
  ((call.tx.vout.filter fun out =>
    stake.scriptPubKey.toAddress net = out.scriptPubKey.toAddress net).map (·.nValue)).sum

end StakingCall

/-- An output returns the stake when it pays to its address and has at least its value. -/
def isStakeOutput (stake out : CTxOut) : Bool :=
  stake.nValue ≤ out.nValue ∧ stake.scriptPubKey.toAddress net = out.scriptPubKey.toAddress net

def readStake : Except String (CTxOut × CFractions) :=
  match call.tx.vin with
  | [inp] =>
    if 8 < call.tx.vout.length then .error "More than 8 outputs"
    else
      match call.mapInputs inp.prevout.fkey with
      | none => .error "P-I-1: Refered output out of range"
      | some stake =>
        match call.fInputs inp.prevout.fkey with
        | none => .error "P-I-2: No input fractions found"
        | some fr =>
          if fr.toStd.total ≠ stake.nValue then
            .error "P-I-3: Input fraction total mismatches value"
          else if call.nValueReturn net stake < stake.nValue then
            .error "No enough funds returned to input address"
          else .ok (stake, fr.toStd)
  | _ => .error "More than one input"

def transferMarks (frStake frOut : CFractions) : Except String CFractions :=
  let transfer (nMark : NotaryMark) (sFailCause : String) : Except String CFractions :=
    match frOut.setMark net .markTransfer nMark frStake.nLockTime with
    | none => .error sFailCause
    | some frOut => .ok frOut
  if frStake.nFlags.notaryF then transfer .notaryF "P-O-2: Crossing marks are detected"
  else if frStake.nFlags.notaryV then transfer .notaryV "P-O-3: Crossing marks are detected"
  else if frStake.nFlags.notaryC then transfer .notaryC "P-O-4: Crossing marks are detected"
  else .ok frOut

/-- Pay the output that returns the stake: the whole stake first, what is left to take
from the reward. A failure leaves the entry behind. -/
def payStake (stake : CTxOut) (frStake : CFractions) (st : StakeState) (out : CTxOut × ℕ) :
    Option String × StakeState :=
  let nValueToTake := out.1.nValue - stake.nValue
  let moved := st.frReward.moveRatioPartTo frStake nValueToTake
  let frReward := if 0 < nValueToTake then moved.2.1 else st.frReward
  let frOut := if 0 < nValueToTake then moved.2.2 else frStake
  let left := if 0 < nValueToTake then st.nValueRewardLeft - nValueToTake else st.nValueRewardLeft
  let write (frOut : CFractions) : StakeState :=
    { frReward
      nValueRewardLeft := left
      mapTestFractionsPool :=
        Function.update st.mapTestFractionsPool (call.outKey net out.2) (some frOut) }
  match transferMarks net frStake frOut with
  | .error sFailCause => (some sFailCause, write frOut)
  | .ok frOut =>
    if stake.nValue + st.nValueRewardLeft < out.1.nValue then
      (some "P-O-1: No enough coins for stake output", write frOut)
    else (none, write frOut)

def payReward (st : StakeState) (out : CTxOut × ℕ) : Except String StakeState :=
  if st.nValueRewardLeft < out.1.nValue then .error "P-O-6: No coins left"
  else
    let fkey := call.outKey net out.2
    let moved := st.frReward.moveRatioPartTo ((st.mapTestFractionsPool fkey).getD default)
      out.1.nValue
    .ok {
      frReward := moved.2.1
      nValueRewardLeft := st.nValueRewardLeft - out.1.nValue
      mapTestFractionsPool := Function.update st.mapTestFractionsPool fkey (some moved.2.2) }

/-- Pay all outputs but the one of the stake. -/
def payRewards (nStakeOut : ℕ) (st : StakeState) : Except String StakeState :=
  (call.others nStakeOut).foldlM (payReward net call) st

/-- First output whose fractions do not have its value. -/
def mismatchedStakeOutput (pool : MapFractions) : Option ℕ :=
  (call.outputs.find? fun out =>
    let f := (pool (call.outKey net out.2)).getD default
    out.1.nValue ≠ f.total ∨ f.isPositive = false).map (·.2)

/-- A late failure removes the entries of all outputs. -/
def StakingCall.erased (sFailCause : String) : StakingResult :=
  { sFailCause := some sFailCause
    mapTestFractionsPool := fun fkey =>
      if fkey.hash = net.getHash call.tx ∧ fkey.n < call.tx.vout.length then none
      else call.mapTestFractionsPool fkey }

def payOthers (nStakeOut : ℕ) (st : StakeState) : StakingResult :=
  match payRewards net call nStakeOut st with
  | .error sFailCause => call.erased net sFailCause
  | .ok st =>
    if nStakeOut = 0 then call.erased net "P-O-5: No stake funds returned to input address"
    else
      match mismatchedStakeOutput net call st.mapTestFractionsPool with
      | some i => call.erased net ("P-O-7: Total mismatch on output " ++ toString i)
      | none => { sFailCause := none, mapTestFractionsPool := st.mapTestFractionsPool }

/-- The reward and the fees, before an output takes from them. The scan for the stake's
output opens the entries of the outputs that it passes. -/
def startStake (stake : CTxOut) : StakeState :=
  let frReward := CFractions.ofValue call.nCalculatedStakeRewardWithoutFees + call.feesFractions
  let passed := call.outputs.takeWhile fun out => !isStakeOutput net stake out.1
  { frReward
    nValueRewardLeft := frReward.total
    mapTestFractionsPool :=
      (passed.map fun out => call.outKey net out.2).foldl openEntry call.mapTestFractionsPool }

def calculateStakingFractions_v2 : StakingResult :=
  match readStake net call with
  | .error sFailCause =>
    { sFailCause := some sFailCause, mapTestFractionsPool := call.mapTestFractionsPool }
  | .ok (stake, frStake) =>
    match call.outputs.find? fun out => isStakeOutput net stake out.1 with
    | none => payOthers net call 0 (startStake net call stake)
    | some out =>
      match payStake net call stake frStake (startStake net call stake) out with
      | (some sFailCause, st) =>
        { sFailCause := some sFailCause, mapTestFractionsPool := st.mapTestFractionsPool }
      | (none, st) => payOthers net call out.2 st

/-! ## Entries of the outputs -/

variable {net call} {st st' : StakeState} {r : StakingResult} {stake : CTxOut}
  {frStake : CFractions} {l : List (CTxOut × ℕ)} {i j : ℕ}

theorem StakingCall.outKey_inj : call.outKey net i = call.outKey net j ↔ i = j := by
  simp [StakingCall.outKey]

theorem StakingCall.mem_outputs {o : CTxOut × ℕ} :
    o ∈ call.outputs ↔ call.tx.vout[o.2]? = some o.1 := List.mem_zipIdx_iff_getElem?

variable (net call) in
def StakingCall.entry (pool : MapFractions) (i : ℕ) : CFractions :=
  (pool (call.outKey net i)).getD default

theorem getD_openEntry (pool : MapFractions) (fkey fkey' : UInt320) :
    (openEntry pool fkey fkey').getD default = (pool fkey').getD default := by
  unfold openEntry
  split_ifs with hsome
  · rfl
  · rcases eq_or_ne fkey' fkey with rfl | hne
    · rw [Function.update_self, Option.not_isSome_iff_eq_none.mp hsome]
      rfl
    · rw [Function.update_of_ne hne]

theorem getD_openEntries (pool : MapFractions) (fkeys : List UInt320) (fkey : UInt320) :
    (fkeys.foldl openEntry pool fkey).getD default = (pool fkey).getD default := by
  induction fkeys generalizing pool with
  | nil => rfl
  | cons k fkeys ih => rw [List.foldl_cons, ih, getD_openEntry]

/-! ## Payments from the reward -/

/-- `q` was taken from `a` and added to `b`, which makes `a'` and `b'`. -/
structure CFractions.Paid (a b a' b' : CFractions) (p : ℤ) (q : Columns) : Prop where
  taken : a'.cols + q = a.cols
  given : b'.cols = b.cols + q
  marks : b'.marks = b.marks
  nonneg : ∀ c, 0 ≤ q c
  amount : ∑ c, q c = p
  rest : a'.Nonneg
  total : a'.total = a.total - p

/-- What the reward has is paid in full. -/
theorem CFractions.moveRatioPartTo_paid {a b : CFractions} {p : ℤ} (ha : a.Nonneg) (hp : 0 ≤ p)
    (hle : p ≤ a.total) :
    ∃ q, Paid a b (a.moveRatioPartTo b p).2.1 (a.moveRatioPartTo b p).2.2 p q := by
  obtain ⟨q, hq⟩ := moveRatioPartTo_moved a b p
  have hbounds := hq.bounds ha hp
  have hcols := hq.src
  have hamount : ∑ c, q c = p := by
    have hsum := hq.amount ha hp
    rw [moveRatioPartTo_left hp ha] at hsum
    omega
  refine ⟨q, ?_, hq.dst, hq.dstMarks, fun c => (hbounds c).1, hamount, ?_, ?_⟩
  · rw [hcols, sub_add_cancel]
  · intro c
    rw [hcols, Pi.sub_apply]
    exact sub_nonneg.mpr (hbounds c).2
  · rw [total_eq_sum, total_eq_sum, hcols, ← hamount, ← Finset.sum_sub_distrib]
    rfl

section Rewards

variable {o : CTxOut × ℕ}

theorem payReward_ok (h : payReward net call st o = .ok st') :
    o.1.nValue ≤ st.nValueRewardLeft ∧
    st' = {
      frReward := (st.frReward.moveRatioPartTo (call.entry net st.mapTestFractionsPool o.2)
        o.1.nValue).2.1
      nValueRewardLeft := st.nValueRewardLeft - o.1.nValue
      mapTestFractionsPool := Function.update st.mapTestFractionsPool (call.outKey net o.2)
        (some (st.frReward.moveRatioPartTo (call.entry net st.mapTestFractionsPool o.2)
          o.1.nValue).2.2) } := by
  unfold payReward at h
  split_ifs at h with hleft
  exact ⟨not_lt.mp hleft, (Except.ok.inj h).symm⟩

theorem payReward_entry (h : payReward net call st o = .ok st') (hne : i ≠ o.2) :
    call.entry net st'.mapTestFractionsPool i = call.entry net st.mapTestFractionsPool i := by
  obtain ⟨-, rfl⟩ := payReward_ok h
  simp only [StakingCall.entry, Function.update_of_ne (StakingCall.outKey_inj.not.mpr hne)]

/-- The loop leaves the entries of other keys, and moves once to each of its outputs. -/
theorem payRewards_entries (h : l.foldlM (payReward net call) st = .ok st')
    (hnodup : (l.map Prod.snd).Nodup) :
    (∀ fkey, (∀ o ∈ l, fkey ≠ call.outKey net o.2) →
      st'.mapTestFractionsPool fkey = st.mapTestFractionsPool fkey) ∧
    ∀ o ∈ l, ∃ a : CFractions, st'.mapTestFractionsPool (call.outKey net o.2) =
      some (a.moveRatioPartTo (call.entry net st.mapTestFractionsPool o.2) o.1.nValue).2.2 := by
  induction l generalizing st with
  | nil =>
    cases h
    simp
  | cons o l ih =>
    rw [List.foldlM_cons, Run.bind_eq_ok] at h
    obtain ⟨mid, hfirst, hrest⟩ := h
    rw [List.map_cons, List.nodup_cons] at hnodup
    obtain ⟨hkeep, hmoved⟩ := ih hrest hnodup.2
    have hother : ∀ b ∈ l, b.2 ≠ o.2 := by
      intro b hb heq
      exact hnodup.1 (heq ▸ List.mem_map_of_mem hb)
    have hmid := (payReward_ok hfirst).2
    constructor
    · intro fkey hne
      rw [hkeep fkey fun b hb => hne b (List.mem_cons_of_mem o hb), hmid]
      exact Function.update_of_ne (hne o List.mem_cons_self) _ _
    · intro b hb
      rcases List.mem_cons.mp hb with rfl | hb
      · refine ⟨st.frReward, ?_⟩
        rw [hkeep _ fun c hc heq => hother c hc (StakingCall.outKey_inj.mp heq).symm, hmid]
        exact Function.update_self _ _ _
      · rw [← payReward_entry hfirst (hother b hb)]
        exact hmoved b hb

/-- What the outputs of the loop gain is what the reward loses, and each output gains
its value. -/
theorem payRewards_accounts (h : l.foldlM (payReward net call) st = .ok st')
    (hnodup : (l.map Prod.snd).Nodup) (hvalues : ∀ o ∈ l, 0 ≤ o.1.nValue)
    (hreward : st.frReward.Nonneg) (hleft : st.nValueRewardLeft = st.frReward.total) :
    st'.frReward.Nonneg ∧
    (l.map fun o => (call.entry net st'.mapTestFractionsPool o.2).cols -
      (call.entry net st.mapTestFractionsPool o.2).cols).sum + st'.frReward.cols =
        st.frReward.cols ∧
    ∀ o ∈ l, (call.entry net st'.mapTestFractionsPool o.2).total =
      (call.entry net st.mapTestFractionsPool o.2).total + o.1.nValue := by
  induction l generalizing st with
  | nil =>
    cases h
    simpa using hreward
  | cons o l ih =>
    rw [List.foldlM_cons, Run.bind_eq_ok] at h
    obtain ⟨mid, hfirst, hrest⟩ := h
    rw [List.map_cons, List.nodup_cons] at hnodup
    have hother : ∀ b ∈ l, b.2 ≠ o.2 := by
      intro b hb heq
      exact hnodup.1 (heq ▸ List.mem_map_of_mem hb)
    have hvalue := hvalues o List.mem_cons_self
    obtain ⟨hle, hmid⟩ := payReward_ok hfirst
    obtain ⟨q, hq⟩ := CFractions.moveRatioPartTo_paid
      (b := call.entry net st.mapTestFractionsPool o.2) hreward hvalue (hleft ▸ hle)
    have hmid_entry : (call.entry net mid.mapTestFractionsPool o.2).cols =
        (call.entry net st.mapTestFractionsPool o.2).cols + q := by
      rw [← hq.given, hmid]
      simp only [StakingCall.entry, Function.update_self, Option.getD_some]
    have hmid_reward : mid.frReward.cols + q = st.frReward.cols := by
      rw [← hq.taken, hmid]
    have hmid_nonneg : mid.frReward.Nonneg := by
      rw [hmid]
      exact hq.rest
    have hmid_left : mid.nValueRewardLeft = mid.frReward.total := by
      rw [hmid, hleft]
      exact hq.total.symm
    obtain ⟨hnonneg, hsum, htotals⟩ := ih hrest hnodup.2
      (fun b hb => hvalues b (List.mem_cons_of_mem o hb)) hmid_nonneg hmid_left
    have hlast : call.entry net st'.mapTestFractionsPool o.2 =
        call.entry net mid.mapTestFractionsPool o.2 := by
      have hkeep := (payRewards_entries hrest hnodup.2).1 (call.outKey net o.2)
        fun c hc heq => hother c hc (StakingCall.outKey_inj.mp heq).symm
      simp only [StakingCall.entry, hkeep]
    have hentries : ∀ b ∈ l, call.entry net mid.mapTestFractionsPool b.2 =
        call.entry net st.mapTestFractionsPool b.2 :=
      fun b hb => payReward_entry hfirst (hother b hb)
    have hgain : (call.entry net st'.mapTestFractionsPool o.2).cols -
        (call.entry net st.mapTestFractionsPool o.2).cols = q := by
      rw [hlast, hmid_entry, add_sub_cancel_left]
    refine ⟨hnonneg, ?_, ?_⟩
    · rw [List.map_cons, List.sum_cons, hgain, List.map_congr_left fun b hb => by
        rw [← hentries b hb], add_assoc, hsum, add_comm, hmid_reward]
    · intro b hb
      rcases List.mem_cons.mp hb with rfl | hb
      · have hcols := eq_add_of_sub_eq hgain
        rw [CFractions.total_eq_sum, hcols]
        simp only [Pi.add_apply, Finset.sum_add_distrib]
        rw [hq.amount, ← CFractions.total_eq_sum, add_comm]
      · rw [htotals b hb, hentries b hb]

end Rewards

/-! ## The output of the stake -/

section Stake

variable {fr frOut : CFractions} {out : CTxOut × ℕ}

/-- Transferring a mark to fractions that carry it already changes nothing. -/
theorem transferMarks_ok (h : transferMarks net frStake frOut = .ok fr)
    (hmarks : frOut.marks = frStake.marks) : fr.cols = frOut.cols ∧ fr.marks = frStake.marks := by
  have hset : ∀ nMark : NotaryMark,
      ({ frStake.nFlags with std := false }).set nMark = { frStake.nFlags with std := false } →
      frOut.setMark net .markTransfer nMark frStake.nLockTime = some fr →
      fr.cols = frOut.cols ∧ fr.marks = frStake.marks := by
    intro nMark hcarried hfr
    refine ⟨CFractions.setMark_cols hfr, ?_⟩
    have hflags : { frOut.nFlags.set nMark with std := false } =
        ({ frOut.nFlags with std := false }).set nMark := by cases nMark <;> rfl
    have hsame : { frOut.nFlags with std := false } = { frStake.nFlags with std := false } :=
      congrArg Prod.fst hmarks
    have hreturn : frOut.sReturnAddr = frStake.sReturnAddr := congrArg (·.2.2) hmarks
    rw [CFractions.setMark_eq hfr]
    simp only [CFractions.marks, CFractions.markLockTime, hflags, hsame, hcarried, hreturn]
  unfold transferMarks at h
  simp only at h
  split_ifs at h with hF hV hC
  · refine hset .notaryF ?_ ?_
    · simp [Flags.set, hF]
    · split at h <;> simp_all
  · refine hset .notaryV ?_ ?_
    · simp [Flags.set, hV]
    · split at h <;> simp_all
  · refine hset .notaryC ?_ ?_
    · simp [Flags.set, hC]
    · split at h <;> simp_all
  · obtain rfl := Except.ok.inj h
    exact ⟨rfl, hmarks⟩

/-- The stake's output gets the stake with its marks and an amount `q` of the reward. -/
theorem payStake_ok (h : payStake net call stake frStake st out = (none, st'))
    (hreward : st.frReward.Nonneg) (hleft : st.nValueRewardLeft = st.frReward.total) :
    ∃ fr q, st'.mapTestFractionsPool =
        Function.update st.mapTestFractionsPool (call.outKey net out.2) (some fr) ∧
      fr.cols = frStake.cols + q ∧ fr.marks = frStake.marks ∧ (∀ c, 0 ≤ q c) ∧
      st'.frReward.cols + q = st.frReward.cols ∧ st'.frReward.Nonneg ∧
      st'.nValueRewardLeft = st'.frReward.total := by
  unfold payStake at h
  simp only at h
  split at h
  · cases h
  · next fr htransfer =>
    by_cases hlow : stake.nValue + st.nValueRewardLeft < out.1.nValue
    · simp only [if_pos hlow, Prod.mk.injEq, reduceCtorEq, false_and] at h
    · simp only [if_neg hlow, Prod.mk.injEq, true_and] at h
      by_cases htake : 0 < out.1.nValue - stake.nValue
      · simp only [if_pos htake] at h htransfer
        obtain ⟨q, hq⟩ := CFractions.moveRatioPartTo_paid (b := frStake) hreward htake.le
          (by omega)
        obtain ⟨hcols, hmarks⟩ := transferMarks_ok htransfer hq.marks
        refine ⟨fr, q, ?_, hcols.trans hq.given, hmarks, hq.nonneg, ?_⟩
        · rw [← h]
        · rw [← h]
          exact ⟨hq.taken, hq.rest, by rw [hleft]; exact hq.total.symm⟩
      · simp only [if_neg htake] at h htransfer
        obtain ⟨hcols, hmarks⟩ := transferMarks_ok htransfer rfl
        refine ⟨fr, 0, ?_, by rw [hcols, add_zero], hmarks, fun c => le_rfl, ?_⟩
        · rw [← h]
        · rw [← h]
          exact ⟨add_zero _, hreward, hleft⟩

end Stake

/-! ## What a successful call did -/

section Calls

theorem readStake_ok {fr : CFractions} (h : readStake net call = .ok (stake, fr)) :
    ∃ inp frIn, call.tx.vin = [inp] ∧ call.mapInputs inp.prevout.fkey = some stake ∧
      call.fInputs inp.prevout.fkey = some frIn ∧ fr = frIn.toStd ∧ frIn.total = stake.nValue := by
  unfold readStake at h
  split at h
  · next inp hvin =>
    split_ifs at h
    split at h
    · cases h
    · next stake' hstake =>
      split at h
      · cases h
      · next frIn hfrIn =>
        split_ifs at h with htotal hreturn
        obtain ⟨rfl, rfl⟩ := Prod.mk.inj (Except.ok.inj h)
        rw [CFractions.total_toStd, not_not] at htotal
        exact ⟨inp, frIn, hvin, hstake, hfrIn, rfl, htotal⟩
  · cases h

theorem payOthers_ok (h : (payOthers net call i st).sFailCause = none) :
    ∃ st', payRewards net call i st = .ok st' ∧
      mismatchedStakeOutput net call st'.mapTestFractionsPool = none ∧
      (payOthers net call i st).mapTestFractionsPool = st'.mapTestFractionsPool ∧ i ≠ 0 := by
  unfold payOthers at h ⊢
  split
  · next sFailCause hpay =>
    simp [hpay, StakingCall.erased] at h
  · next st' hpay =>
    simp only [hpay] at h
    split_ifs at h ⊢ with hfirst
    · simp [StakingCall.erased] at h
    · split
      · next j hmismatch =>
        simp [hmismatch, StakingCall.erased] at h
      · next hmatch =>
        exact ⟨st', hpay, hmatch, rfl, hfirst⟩

structure StakingSteps (net : Params) (call : StakingCall) (stake : CTxOut) (frStake : CFractions)
    (out : CTxOut × ℕ) (paid done : StakeState) : Prop where
  read : readStake net call = .ok (stake, frStake)
  found : call.outputs.find? (fun out => isStakeOutput net stake out.1) = some out
  stakePaid : payStake net call stake frStake (startStake net call stake) out = (none, paid)
  rewardsPaid : payRewards net call out.2 paid = .ok done
  checked : mismatchedStakeOutput net call done.mapTestFractionsPool = none
  pool : (calculateStakingFractions_v2 net call).mapTestFractionsPool = done.mapTestFractionsPool

theorem calculateStakingFractions_v2_ok
    (h : (calculateStakingFractions_v2 net call).sFailCause = none) :
    ∃ stake frStake out paid done, StakingSteps net call stake frStake out paid done := by
  unfold calculateStakingFractions_v2 at h
  cases hread : readStake net call with
  | error sFailCause => simp [hread] at h
  | ok read =>
    obtain ⟨stake, frStake⟩ := read
    simp only [hread] at h
    cases hfind : call.outputs.find? fun out => isStakeOutput net stake out.1 with
    | none =>
      simp only [hfind] at h
      obtain ⟨-, -, -, -, hne⟩ := payOthers_ok h
      exact absurd rfl hne
    | some out =>
      simp only [hfind] at h
      rcases hpay : payStake net call stake frStake (startStake net call stake) out with
        ⟨_ | sFailCause, paid⟩
      · simp only [hpay] at h
        obtain ⟨done, hrewards, hchecked, hpool, -⟩ := payOthers_ok h
        refine ⟨stake, frStake, out, paid, done, hread, hfind, hpay, hrewards, hchecked, ?_⟩
        unfold calculateStakingFractions_v2
        simp only [hread, hfind, hpay]
        exact hpool
      · simp [hpay] at h

/-- What a coinstake keeps: output `i` has the whole stake `frStake` with its marks, and
everything else comes out of the reward and the fees. -/
structure StakingCall.KeepsStake (net : Params) (call : StakingCall) (stake : CTxOut)
    (frStake : CFractions) (pool : MapFractions) (i : ℕ) (fr : CFractions) : Prop where
  address : ∃ out, call.tx.vout[i]? = some out ∧
    out.scriptPubKey.toAddress net = stake.scriptPubKey.toAddress net
  held : pool (call.outKey net i) = some fr
  whole : ∀ c, frStake.cols c ≤ fr.cols c
  marks : fr.marks = frStake.marks
  outputs : ∀ o ∈ call.outputs, ∃ f, pool (call.outKey net o.2) = some f ∧
    f.Nonneg ∧ f.total = o.1.nValue
  reward : ∀ c, fr.cols c - frStake.cols c +
      ((call.others i).map fun o =>
        (call.entry net pool o.2).cols c).sum ≤
    stdColumns call.nCalculatedStakeRewardWithoutFees c + call.feesFractions.cols c
  all : ∀ c, (call.outputs.map fun o => (call.entry net pool o.2).cols c).sum ≤
    frStake.cols c + stdColumns call.nCalculatedStakeRewardWithoutFees c +
      call.feesFractions.cols c

theorem mismatchedStakeOutput_none {pool : MapFractions}
    (h : mismatchedStakeOutput net call pool = none) {o : CTxOut × ℕ} (ho : o ∈ call.outputs) :
    (call.entry net pool o.2).total = o.1.nValue ∧
      (call.entry net pool o.2).isPositive = true := by
  rw [mismatchedStakeOutput, Option.map_eq_none_iff, List.find?_eq_none] at h
  have hcheck := h o ho
  simp only [decide_eq_true_eq, not_or, not_not, Bool.not_eq_false] at hcheck
  exact ⟨hcheck.1.symm, hcheck.2⟩

theorem startStake_reward (stake : CTxOut) : (startStake net call stake).frReward.cols =
    stdColumns call.nCalculatedStakeRewardWithoutFees + call.feesFractions.cols := by
  simp only [startStake, CFractions.cols_add, CFractions.ofValue, CFractions.cols_withCols]

theorem startStake_left (stake : CTxOut) : (startStake net call stake).nValueRewardLeft =
    (startStake net call stake).frReward.total := by
  simp only [startStake]

theorem nodup_outputs : (call.outputs.map Prod.snd).Nodup := by
  simp only [StakingCall.outputs, List.zipIdx_map_snd]
  exact List.nodup_range'

theorem mem_others {o : CTxOut × ℕ} : o ∈ call.others i ↔ o ∈ call.outputs ∧ o.2 ≠ i := by
  simp [StakingCall.others]

theorem nodup_others (i : ℕ) : ((call.others i).map Prod.snd).Nodup :=
  nodup_outputs.sublist (List.filter_sublist.map Prod.snd)

/-- The outputs are the one at an index and the others. -/
theorem outputs_perm {o : CTxOut × ℕ} (ho : o ∈ call.outputs) :
    call.outputs.Perm (o :: call.others o.2) := by
  have hnodup : call.outputs.Nodup := nodup_outputs.of_map _
  have hothers : call.outputs.erase o = call.others o.2 := by
    rw [hnodup.erase_eq_filter]
    refine List.filter_congr fun b hb => ?_
    have hsame : b = o ↔ b.2 = o.2 := by
      refine ⟨fun h => h ▸ rfl, fun hindex => ?_⟩
      rw [StakingCall.mem_outputs] at ho hb
      rw [hindex, ho] at hb
      exact Prod.ext (Option.some.inj hb).symm hindex
    rw [Bool.eq_iff_iff]
    simp [hsame]
  exact hothers ▸ List.perm_cons_erase ho

section Steps

variable {fr : CFractions} {out o : CTxOut × ℕ} {paid done : StakeState}

/-- The outputs other than the stake's start from entries that the pool had before. -/
theorem entry_paid (hpaid : paid.mapTestFractionsPool =
      Function.update (startStake net call stake).mapTestFractionsPool (call.outKey net j)
        (some fr)) (hne : i ≠ j) :
    call.entry net paid.mapTestFractionsPool i = call.entry net call.mapTestFractionsPool i := by
  simp only [StakingCall.entry, hpaid,
    Function.update_of_ne (StakingCall.outKey_inj.not.mpr hne), startStake, getD_openEntries]

/-- An output that was paid and passes the check has a value that is not negative. -/
theorem paid_output (h : payRewards net call i paid = .ok done)
    (hchecked : mismatchedStakeOutput net call done.mapTestFractionsPool = none)
    (hpaid : ∀ j, j ≠ i → (call.entry net paid.mapTestFractionsPool j).Nonneg)
    (ho : o ∈ call.others i) :
    ∃ f, done.mapTestFractionsPool (call.outKey net o.2) = some f ∧ f.Nonneg ∧
      f.total = o.1.nValue := by
  obtain ⟨hmem, hne⟩ := mem_others.mp ho
  obtain ⟨a, hdone⟩ := (payRewards_entries h (nodup_others i)).2 o ho
  obtain ⟨htotal, hpositive⟩ := mismatchedStakeOutput_none hchecked hmem
  simp only [StakingCall.entry, hdone, Option.getD_some] at htotal hpositive
  exact ⟨_, hdone, CFractions.moveRatioPartTo_nonneg (hpaid o.2 hne) hpositive, htotal⟩

/-- The other outputs have what the reward lost, nothing else. -/
theorem paid_others (h : payRewards net call i paid = .ok done)
    (hchecked : mismatchedStakeOutput net call done.mapTestFractionsPool = none)
    (hpaid : ∀ j, j ≠ i → (call.entry net paid.mapTestFractionsPool j).Nonneg)
    (hreward : paid.frReward.Nonneg) (hleft : paid.nValueRewardLeft = paid.frReward.total) :
    done.frReward.Nonneg ∧
    ((call.others i).map fun o => (call.entry net done.mapTestFractionsPool o.2).cols).sum +
      done.frReward.cols = paid.frReward.cols := by
  have hvalues : ∀ o ∈ call.others i, 0 ≤ o.1.nValue := by
    intro o ho
    obtain ⟨f, -, hf, htotal⟩ := paid_output h hchecked hpaid ho
    exact htotal ▸ hf.total
  obtain ⟨hnonneg, hsum, htotals⟩ :=
    payRewards_accounts h (nodup_others i) hvalues hreward hleft
  have hempty : ∀ o ∈ call.others i, (call.entry net paid.mapTestFractionsPool o.2).cols = 0 := by
    intro o ho
    obtain ⟨hmem, hne⟩ := mem_others.mp ho
    have htotal := (mismatchedStakeOutput_none hchecked hmem).1
    refine (hpaid o.2 hne).cols_eq_zero ?_
    have hgain := htotals o ho
    omega
  refine ⟨hnonneg, ?_⟩
  rw [← hsum, List.map_congr_left fun o ho => by rw [← sub_zero (CFractions.cols _), ← hempty o ho]]

end Steps

/-- The stake goes back to its address with its marks. -/
theorem calculateStakingFractions_v2_keeps
    (h : (calculateStakingFractions_v2 net call).sFailCause = none)
    (hinputs : ∀ fkey fr, call.fInputs fkey = some fr → fr.Nonneg)
    (hfees : call.feesFractions.Nonneg) (hreward : 0 ≤ call.nCalculatedStakeRewardWithoutFees)
    (hpool : ∀ j fr, call.mapTestFractionsPool (call.outKey net j) = some fr → fr.Nonneg) :
    ∃ inp stake frStake i fr, call.tx.vin = [inp] ∧
      call.mapInputs inp.prevout.fkey = some stake ∧
      call.fInputs inp.prevout.fkey = some frStake ∧
      call.KeepsStake net stake frStake
        (calculateStakingFractions_v2 net call).mapTestFractionsPool i fr := by
  obtain ⟨stake, frRead, out, paid, done, hsteps⟩ := calculateStakingFractions_v2_ok h
  obtain ⟨inp, frStake, hvin, hstake, hfr, rfl, htotal⟩ := readStake_ok hsteps.read
  have hmem : out ∈ call.outputs := List.mem_of_find?_eq_some hsteps.found
  have hout := List.find?_some hsteps.found
  simp only [isStakeOutput, decide_eq_true_eq] at hout
  have hstart : (startStake net call stake).frReward.Nonneg := by
    intro c
    rw [startStake_reward, Pi.add_apply]
    exact add_nonneg (stdColumns_nonneg hreward c) (hfees c)
  obtain ⟨fr, q, hpaid, hcols, hmarks, hq, htaken, hrest, hleft⟩ :=
    payStake_ok hsteps.stakePaid hstart (startStake_left stake)
  have hentries : ∀ j, j ≠ out.2 → (call.entry net paid.mapTestFractionsPool j).Nonneg := by
    intro j hne
    rw [entry_paid hpaid hne]
    cases hbefore : call.mapTestFractionsPool (call.outKey net j) with
    | none => simpa [StakingCall.entry, hbefore] using CFractions.nonneg_default
    | some f => simpa [StakingCall.entry, hbefore] using hpool j f hbefore
  obtain ⟨hdone, hothers⟩ := paid_others hsteps.rewardsPaid hsteps.checked hentries hrest hleft
  have hheld : done.mapTestFractionsPool (call.outKey net out.2) = some fr := by
    rw [(payRewards_entries hsteps.rewardsPaid (nodup_others out.2)).1 _ fun o ho heq =>
      (mem_others.mp ho).2 (StakingCall.outKey_inj.mp heq).symm, hpaid, Function.update_self]
  have hlast : ∀ o ∈ call.outputs, ∃ f, done.mapTestFractionsPool (call.outKey net o.2) = some f ∧
      f.Nonneg ∧ f.total = o.1.nValue := by
    intro o ho
    by_cases hindex : o.2 = out.2
    · have hcheck := mismatchedStakeOutput_none hsteps.checked ho
      rw [hindex] at hcheck ⊢
      simp only [StakingCall.entry, hheld, Option.getD_some] at hcheck
      refine ⟨fr, hheld, fun c => ?_, hcheck.1⟩
      rw [hcols]
      exact add_nonneg (hinputs _ _ hfr c) (hq c)
    · exact paid_output hsteps.rewardsPaid hsteps.checked hentries (mem_others.mpr ⟨ho, hindex⟩)
  have hbound : ∀ c, fr.cols c - frStake.cols c + ((call.others out.2).map fun o =>
      (call.entry net done.mapTestFractionsPool o.2).cols c).sum ≤
        stdColumns call.nCalculatedStakeRewardWithoutFees c + call.feesFractions.cols c := by
    intro c
    have hothers_c := congrFun hothers c
    have htaken_c := congrFun htaken c
    have hcols_c := congrFun hcols c
    have hdone_c := hdone c
    rw [startStake_reward] at htaken_c
    simp only [Pi.add_apply, Pi.list_sum_apply, List.map_map, Function.comp_def,
      CFractions.cols_toStd] at hothers_c htaken_c hcols_c
    omega
  refine ⟨inp, stake, frStake, out.2, fr, hvin, hstake, hfr, ?_⟩
  rw [hsteps.pool]
  refine ⟨⟨out.1, StakingCall.mem_outputs.mp hmem, hout.2.symm⟩, hheld, ?_, ?_, hlast, hbound, ?_⟩
  · intro c
    rw [hcols]
    exact le_add_of_nonneg_right (hq c)
  · exact hmarks
  · intro c
    have hbound_c := hbound c
    have hentry : call.entry net done.mapTestFractionsPool out.2 = fr := by
      simp only [StakingCall.entry, hheld, Option.getD_some]
    rw [((outputs_perm hmem).map _).sum_eq, List.map_cons, List.sum_cons, hentry]
    omega

end Calls

/-! ## A coinstake -/

def sampleStakingNet : Params where
  pegFrozenTime := 10
  pegVFrozenTime := 20
  getHash := fun _ => 7
  destinations := fun _ => []
  isValidAddress := fun _ => true

/-- A stake of 10 that goes back to its address, and 5 of the fees for another one. -/
def sampleStaking (mapTestFractionsPool : MapFractions) : StakingCall where
  tx := { vin := [{ prevout := ⟨1, 0⟩ }], vout := [⟨0, []⟩, ⟨10, [0x42]⟩, ⟨5, [0x43]⟩] }
  mapInputs := fun fkey => if fkey = ⟨1, 0⟩ then some ⟨10, [0x42]⟩ else none
  fInputs := fun fkey => if fkey = ⟨1, 0⟩ then some (CFractions.singleColumn 1 10) else none
  mapTestFractionsPool
  feesFractions := CFractions.singleColumn 3 5
  nCalculatedStakeRewardWithoutFees := 0

theorem sampleStaking_inputs (pool : MapFractions) :
    ∀ fkey fr, (sampleStaking pool).fInputs fkey = some fr → fr.Nonneg := by
  intro fkey fr hfr
  simp only [sampleStaking] at hfr
  split_ifs at hfr
  cases hfr
  exact CFractions.singleColumn_nonneg (by decide) 1

theorem sampleStaking_keeps : ∃ inp stake frStake i fr,
    (sampleStaking fun _ => none).tx.vin = [inp] ∧
    (sampleStaking fun _ => none).mapInputs inp.prevout.fkey = some stake ∧
    (sampleStaking fun _ => none).fInputs inp.prevout.fkey = some frStake ∧
    (sampleStaking fun _ => none).KeepsStake sampleStakingNet stake frStake
      (calculateStakingFractions_v2 sampleStakingNet
        (sampleStaking fun _ => none)).mapTestFractionsPool i fr := by
  refine calculateStakingFractions_v2_keeps (by decide +kernel) (sampleStaking_inputs _)
    (CFractions.singleColumn_nonneg (by decide) 3) le_rfl ?_
  intro j fr hfr
  cases hfr

/-- An entry for the last output that is there before the call: 5 in column 2, taken from
column 3. -/
def borrowedEntry : MapFractions :=
  Function.update (fun _ => none) ⟨7, 2⟩
    (some (CFractions.singleColumn 2 5 - CFractions.singleColumn 3 5))

/-- The call succeeds and the last output has 5 in a column that neither the stake nor
the reward nor the fees have. -/
theorem borrowed_entry_exceeds :
    (calculateStakingFractions_v2 sampleStakingNet (sampleStaking borrowedEntry)).sFailCause = none ∧
    (∀ fkey fr, (sampleStaking borrowedEntry).fInputs fkey = some fr → fr.Nonneg) ∧
    (sampleStaking borrowedEntry).feesFractions.Nonneg ∧
    0 ≤ (sampleStaking borrowedEntry).nCalculatedStakeRewardWithoutFees ∧
    ¬ ∃ inp stake frStake i fr, (sampleStaking borrowedEntry).tx.vin = [inp] ∧
      (sampleStaking borrowedEntry).mapInputs inp.prevout.fkey = some stake ∧
      (sampleStaking borrowedEntry).fInputs inp.prevout.fkey = some frStake ∧
      (sampleStaking borrowedEntry).KeepsStake sampleStakingNet stake frStake
        (calculateStakingFractions_v2 sampleStakingNet
          (sampleStaking borrowedEntry)).mapTestFractionsPool i fr := by
  refine ⟨by decide +kernel, sampleStaking_inputs _,
    CFractions.singleColumn_nonneg (by decide) 3, le_rfl, ?_⟩
  rintro ⟨inp, stake, frStake, i, fr, hvin, -, hfr, hkeeps⟩
  have hinp : (sampleStaking borrowedEntry).tx.vin = [{ prevout := ⟨1, 0⟩ }] := rfl
  obtain rfl := List.singleton_injective (hinp.symm.trans hvin)
  have hstake : frStake.cols 2 = 0 := by
    simp only [sampleStaking, COutPoint.fkey, if_true] at hfr
    obtain rfl := Option.some.inj hfr
    decide
  have hlast := hkeeps.all 2
  have hsum : ((sampleStaking borrowedEntry).outputs.map fun o =>
      ((sampleStaking borrowedEntry).entry sampleStakingNet
        (calculateStakingFractions_v2 sampleStakingNet
          (sampleStaking borrowedEntry)).mapTestFractionsPool o.2).cols 2).sum = 5 := by
    decide +kernel
  have hreward : stdColumns (sampleStaking borrowedEntry).nCalculatedStakeRewardWithoutFees 2 +
      (sampleStaking borrowedEntry).feesFractions.cols 2 = 0 := by decide
  omega

end BitBay
