import BitBay.Chain.NodeRun
import BitBay.Peg.Conservation

/-!
# Entries of the fractions

What connecting a transaction does to the queued fractions: it writes entries of its own
outputs only, and what it writes has passed the check of its columns. So fractions without
negative columns stay so.
-/
namespace BitBay

open Run

/-- Entries without negative columns, stored as vectors or empty. -/
def MapFractions.Clean (pool : MapFractions) : Prop :=
  ∀ fkey fr, pool fkey = some fr → fr.Filled ∧ fr.Nonneg

/-- Entries without negative columns. -/
def MapFractions.Nonneg (pool : MapFractions) : Prop :=
  ∀ fkey fr, pool fkey = some fr → fr.Nonneg

theorem MapFractions.Clean.nonneg {pool : MapFractions} (h : pool.Clean) : pool.Nonneg :=
  fun fkey fr hfr => (h fkey fr hfr).2

theorem MapFractions.Clean.update {pool : MapFractions} {fkey : UInt320} {fr : CFractions}
    (h : pool.Clean) (hfilled : fr.Filled) (hnonneg : fr.Nonneg) :
    MapFractions.Clean (Function.update pool fkey (some fr)) := by
  intro key found hfound
  by_cases hsame : key = fkey
  · subst hsame
    rw [Function.update_self] at hfound
    obtain rfl := Option.some.inj hfound
    exact ⟨hfilled, hnonneg⟩
  · rw [Function.update_of_ne hsame] at hfound
    exact h key found hfound

structure OutputsOnly (hash : UInt256) (pool pool' : MapFractions) : Prop where
  clean : pool.Clean → pool'.Clean
  other : ∀ fkey : UInt320, fkey.hash ≠ hash → pool' fkey = pool fkey

theorem OutputsOnly.refl {hash : UInt256} {pool : MapFractions} : OutputsOnly hash pool pool :=
  ⟨id, fun _ _ => rfl⟩

section Standard

variable {net : Params} {call : StandardCall} {pools : PoolState} {st : OutputState}

/-- The output loop writes entries of the outputs only. -/
theorem fillOutputs_other (hfill : fillOutputs net call pools = .ok st) {fkey : UInt320}
    (hne : ∀ o ∈ call.outputs, fkey ≠ call.outKey net o.2) :
    st.mapTestFractionsPool fkey = call.mapTestFractionsPool fkey := by
  refine foldlM_invariant (P := fun st : OutputState =>
    st.mapTestFractionsPool fkey = call.mapTestFractionsPool fkey) ?_ rfl hfill
  intro o ho mid next hmid hstep
  by_cases hleft : mid.sFailCause = none
  · obtain ⟨r, hr, rfl⟩ := fillOutput_ok hleft hstep
    dsimp only
    rw [Function.update_of_ne (hne o ho), hr.pool, hmid]
  · rw [fillOutput_failed hleft hstep, hmid]

/-- The entries that it writes are filled. -/
theorem fillOutputs_filled (hscan : scanInputs net call = .ok pools)
    (hfill : fillOutputs net call pools = .ok st)
    (hfilled : ∀ fkey fr, call.mapTestFractionsPool fkey = some fr → fr.Filled) :
    ∀ fkey fr, st.mapTestFractionsPool fkey = some fr → fr.Filled := by
  refine foldlM_invariant (P := fun st : OutputState =>
    ∀ fkey fr, st.mapTestFractionsPool fkey = some fr → fr.Filled) ?_ hfilled hfill
  intro o ho mid next hmid hstep
  by_cases hleft : mid.sFailCause = none
  · obtain ⟨r, hr, rfl⟩ := fillOutput_ok hleft hstep
    have hpool : r.1.mapTestFractionsPool = mid.mapTestFractionsPool := hr.pool
    have hold : ((mid.mapTestFractionsPool (call.outKey net o.2)).getD default).Filled := by
      cases hfound : mid.mapTestFractionsPool (call.outKey net o.2) with
      | none => exact CFractions.filled_default
      | some fr => exact hmid _ fr hfound
    intro fkey fr hfr
    dsimp only at hfr
    by_cases hsame : fkey = call.outKey net o.2
    · subst hsame
      rw [Function.update_self] at hfr
      obtain rfl := Option.some.inj hfr
      exact hr.filled (scanInputs_filled hscan) hold
    · rw [Function.update_of_ne hsame, hpool] at hfr
      exact hmid fkey fr hfr
  · rw [fillOutput_failed hleft hstep]
    exact hmid

/-- A standard transaction writes its outputs only, and clean ones. -/
theorem calculateStandardFractions_entries {r : StandardResult}
    (h : calculateStandardFractions net call = .ok r) :
    OutputsOnly (net.getHash call.tx) call.mapTestFractionsPool r.mapTestFractionsPool := by
  obtain ⟨pools, st, hscan, hfill, hcause, rfl⟩ := calculateStandardFractions_ok h
  obtain ⟨-, -, -, hchecked⟩ := failCause_none hcause
  constructor
  · intro hclean fkey fr hfr
    have hfilled := fillOutputs_filled hscan hfill fun fkey fr hfr => (hclean fkey fr hfr).1
    dsimp only at hfr
    refine ⟨hfilled fkey fr hfr, ?_⟩
    by_cases hout : ∃ o ∈ call.outputs, fkey = call.outKey net o.2
    · obtain ⟨o, ho, rfl⟩ := hout
      have hpositive := (hchecked o ho).2
      rw [hfr] at hpositive
      exact (hfilled _ fr hfr).nonneg hpositive
    · push Not at hout
      rw [fillOutputs_other hfill hout] at hfr
      exact (hclean fkey fr hfr).2
  · intro fkey hne
    refine fillOutputs_other hfill fun o _ hsame => hne ?_
    rw [hsame]
    rfl

end Standard

section Staking

variable {net : Params} {call : StakingCall} {stake : CTxOut} {frStake fr frOut : CFractions}
  {st st' : StakeState} {out : CTxOut × ℕ} {pool : MapFractions}

theorem moveRatioPartTo_filled {a b : CFractions} (hb : b.Filled) (p : ℤ) :
    (a.moveRatioPartTo b p).2.2.Filled := by
  simp only [CFractions.moveRatioPartTo]
  split_ifs
  · exact hb
  · exact hb
  all_goals exact Or.inl rfl

theorem transferMarks_filled (h : transferMarks net frStake frOut = .ok fr)
    (hfrOut : frOut.Filled) : fr.Filled := by
  unfold transferMarks at h
  simp only at h
  split_ifs at h
  case neg =>
    obtain rfl := Except.ok.inj h
    exact hfrOut
  all_goals
    split at h
    · cases h
    · rename_i marked hmarked
      obtain rfl := Except.ok.inj h
      exact CFractions.setMark_filled hmarked hfrOut

/-- The entry that the output of the stake gets. -/
theorem payStake_entry (h : payStake net call stake frStake st out = (none, st'))
    (hstake : frStake.Filled) :
    ∃ fr, fr.Filled ∧ st'.mapTestFractionsPool =
      Function.update st.mapTestFractionsPool (call.outKey net out.2) (some fr) := by
  unfold payStake at h
  simp only at h
  split at h
  · cases h
  · rename_i fr htransfer
    have hfr : fr.Filled := by
      refine transferMarks_filled htransfer ?_
      split_ifs
      · exact moveRatioPartTo_filled hstake _
      · exact hstake
    by_cases hlow : stake.nValue + st.nValueRewardLeft < out.1.nValue
    · simp only [if_pos hlow, Prod.mk.injEq, reduceCtorEq, false_and] at h
    · simp only [if_neg hlow, Prod.mk.injEq, true_and] at h
      exact ⟨fr, hfr, by rw [← h]⟩

theorem openEntry_other {fkey key : UInt320} (hne : key ≠ fkey) :
    openEntry pool fkey key = pool key := by
  unfold openEntry
  split_ifs
  · rfl
  · exact Function.update_of_ne hne ..

theorem openEntry_filled {fkey : UInt320} (h : ∀ key fr, pool key = some fr → fr.Filled) :
    ∀ key fr, openEntry pool fkey key = some fr → fr.Filled := by
  intro key fr hfr
  by_cases hne : key = fkey
  · subst hne
    unfold openEntry at hfr
    split_ifs at hfr
    · exact h key fr hfr
    · rw [Function.update_self] at hfr
      obtain rfl := Option.some.inj hfr
      exact CFractions.filled_default
  · rw [openEntry_other hne] at hfr
    exact h key fr hfr

/-- The entries before the outputs are paid. -/
theorem startStake_entries :
    (∀ fkey, (∀ o ∈ call.outputs, fkey ≠ call.outKey net o.2) →
      (startStake net call stake).mapTestFractionsPool fkey = call.mapTestFractionsPool fkey) ∧
    ((∀ fkey fr, call.mapTestFractionsPool fkey = some fr → fr.Filled) →
      ∀ fkey fr, (startStake net call stake).mapTestFractionsPool fkey = some fr → fr.Filled) := by
  have hloop : ∀ (l : List (CTxOut × ℕ)) (pool : MapFractions),
      (∀ fkey, (∀ o ∈ l, fkey ≠ call.outKey net o.2) →
        (l.map fun o => call.outKey net o.2).foldl openEntry pool fkey = pool fkey) ∧
      ((∀ fkey fr, pool fkey = some fr → fr.Filled) → ∀ fkey fr,
        (l.map fun o => call.outKey net o.2).foldl openEntry pool fkey = some fr → fr.Filled) := by
    intro l
    induction l with
    | nil => exact fun pool => ⟨fun _ _ => rfl, fun h => h⟩
    | cons o l ih =>
      intro pool
      rw [List.map_cons, List.foldl_cons]
      obtain ⟨hother, hfilled⟩ := ih (openEntry pool (call.outKey net o.2))
      refine ⟨fun fkey hne => ?_, fun h => hfilled (openEntry_filled h)⟩
      rw [hother fkey fun b hb => hne b (List.mem_cons_of_mem o hb)]
      exact openEntry_other (hne o List.mem_cons_self)
  obtain ⟨hother, hfilled⟩ := hloop
    (call.outputs.takeWhile fun out => !isStakeOutput net stake out.1) call.mapTestFractionsPool
  refine ⟨fun fkey hne => hother fkey fun o ho => hne o ?_, hfilled⟩
  exact List.takeWhile_subset _ ho

/-- A coinstake writes its outputs only, and clean ones. -/
theorem calculateStakingFractions_v2_entries
    (h : (calculateStakingFractions_v2 net call).sFailCause = none) :
    OutputsOnly (net.getHash call.tx) call.mapTestFractionsPool
      (calculateStakingFractions_v2 net call).mapTestFractionsPool := by
  obtain ⟨stake, frStake, out, paid, done, hsteps⟩ := calculateStakingFractions_v2_ok h
  obtain ⟨inp, frIn, -, -, -, rfl, -⟩ := readStake_ok hsteps.read
  have hmem : out ∈ call.outputs := List.mem_of_find?_eq_some hsteps.found
  obtain ⟨fr, hfr, hpaid⟩ := payStake_entry hsteps.stakePaid (Or.inl rfl)
  obtain ⟨hkeep, hmoved⟩ := payRewards_entries hsteps.rewardsPaid (nodup_others out.2)
  obtain ⟨hstart, hstart_filled⟩ := @startStake_entries net call stake
  have hother : ∀ fkey, (∀ o ∈ call.outputs, fkey ≠ call.outKey net o.2) →
      done.mapTestFractionsPool fkey = call.mapTestFractionsPool fkey := by
    intro fkey hne
    rw [hkeep fkey fun o ho => hne o (mem_others.mp ho).1, hpaid,
      Function.update_of_ne (hne out hmem), hstart fkey hne]
  rw [hsteps.pool]
  constructor
  · intro hclean fkey found hfound
    by_cases hout : ∃ o ∈ call.outputs, fkey = call.outKey net o.2
    · obtain ⟨o, ho, rfl⟩ := hout
      have hpaid_filled : ∀ key fr, paid.mapTestFractionsPool key = some fr → fr.Filled := by
        intro key f hf
        rw [hpaid] at hf
        by_cases hsame : key = call.outKey net out.2
        · subst hsame
          rw [Function.update_self] at hf
          obtain rfl := Option.some.inj hf
          exact hfr
        · rw [Function.update_of_ne hsame] at hf
          exact hstart_filled (fun fkey fr hfr => (hclean fkey fr hfr).1) key f hf
      have hfilled : found.Filled := by
        by_cases hsame : o.2 = out.2
        · have hnot : ∀ b ∈ call.others out.2, call.outKey net o.2 ≠ call.outKey net b.2 := by
            intro b hb heq
            exact (mem_others.mp hb).2 ((StakingCall.outKey_inj.mp heq).symm.trans hsame)
          rw [hkeep _ hnot] at hfound
          exact hpaid_filled _ _ hfound
        · obtain ⟨a, ha⟩ := hmoved o (mem_others.mpr ⟨ho, hsame⟩)
          rw [ha] at hfound
          obtain rfl := Option.some.inj hfound
          apply moveRatioPartTo_filled
          unfold StakingCall.entry
          cases hentry : paid.mapTestFractionsPool (call.outKey net o.2) with
          | none => exact CFractions.filled_default
          | some f => exact hpaid_filled _ f hentry
      have hpositive := (mismatchedStakeOutput_none hsteps.checked ho).2
      rw [StakingCall.entry, hfound, Option.getD_some] at hpositive
      exact ⟨hfilled, hfilled.nonneg hpositive⟩
    · push Not at hout
      rw [hother fkey hout] at hfound
      exact hclean fkey found hfound
  · intro fkey hne
    refine hother fkey fun o _ hsame => hne ?_
    rw [hsame]
    rfl

end Staking

section Mint

variable {net : Params} {bp : BridgeParams} {call : MintCall} {r : MintResult}

/-- A mint writes its output only, and a clean one. -/
theorem calculateCoinMintFractions_entries (h : calculateCoinMintFractions net bp call = some r)
    (hok : r.sFailCause = none) :
    OutputsOnly (net.getHash call.tx) call.mapTestFractionsPool r.mapTestFractionsPool := by
  unfold calculateCoinMintFractions at h
  split at h
  · cases h
  · obtain rfl := Option.some.inj h
    cases hok
  · rename_i draw hdraw
    obtain rfl := Option.some.inj h
    have hstd := CFractions.ratioPart_std draw.frInpLeaf call.outValue
    rcases mintPay_cases net hstd with ⟨sFailCause, hr⟩ | ⟨fee, hpaid, hr⟩
    · rw [mintOutput, hr] at hok
      cases hok
    · rw [mintOutput, hr]
      refine ⟨fun hclean => hclean.update (Or.inl hstd) hpaid.out_nonneg, fun fkey hne => ?_⟩
      refine Function.update_of_ne ?_ ..
      rintro rfl
      exact hne rfl

end Mint

/-! ## The entries after a transaction -/

section Block

variable {net : Params} {votes : VoteParams} {bp : BridgeParams} {rules : BlockRules}
  {call : ConnectCall} {ctx : BlockContext} {st : Stores} {place : BlockPlace} {disk : DiskBlock}
  {s s' : BlockState} {tx : CTransaction} {i : ℕ}

theorem connectMint_entries {r r' : ConnectResult} (h : connectMint net votes bp call r = some r')
    (hpool : r.mapTestFractionsPool = call.mapTestFractionsPool) :
    OutputsOnly (net.getHash call.tx) call.mapTestFractionsPool r'.mapTestFractionsPool ∧
      (call.tx.isCoinMint = false → r' = r) := by
  unfold connectMint at h
  split_ifs at h with hmint
  · split at h
    · cases h
    · rename_i m hm
      split_ifs at h with hcause
      obtain rfl := Option.some.inj h
      refine ⟨calculateCoinMintFractions_entries hm (by simpa using hcause), fun hnot => ?_⟩
      rw [hnot] at hmint
      exact absurd hmint.1 Bool.false_ne_true
  · obtain rfl := Option.some.inj h
    exact ⟨hpool ▸ OutputsOnly.refl, fun _ => rfl⟩

theorem connectStandard_entries {passes : Finset ℕ} {r r' : ConnectResult}
    (h : connectStandard net votes call passes r = some r') :
    r'.mapTestFractionsPool = r.mapTestFractionsPool ∨ call.tx.isCoinMint = false ∧
      OutputsOnly (net.getHash call.tx) call.mapTestFractionsPool r'.mapTestFractionsPool := by
  unfold connectStandard at h
  split_ifs at h with hstandard
  · split at h
    · cases h
    · rename_i s hs
      obtain rfl := Option.some.inj h
      exact Or.inr ⟨by simpa using hstandard.2.1, calculateStandardFractions_entries hs⟩
  · obtain rfl := Option.some.inj h
    exact Or.inl rfl

/-- A transaction that is connected writes entries of its outputs only. -/
theorem connectInputs_entries {r : ConnectResult} (hbase : call.tx.isCoinBase = false)
    (h : connectInputs net votes bp rules.toScriptRules call = some r) :
    OutputsOnly (net.getHash call.tx) call.mapTestFractionsPool r.mapTestFractionsPool := by
  obtain ⟨-, minted, signed, -, hminted, -, hr, -⟩ := connectInputs_ok hbase h
  obtain ⟨hmint, -⟩ := connectMint_entries hminted rfl
  rcases connectStandard_entries hr with hsame | ⟨-, hstandard⟩
  · rw [hsame]
    exact hmint
  · exact hstandard

theorem connectTx_entries
    (h : connectTx net votes bp rules ctx st place disk s (tx, i) = some s') :
    OutputsOnly (net.getHash tx) s.mapQueuedFractionsChanges s'.mapQueuedFractionsChanges := by
  obtain ⟨-, s₁, s₂, rfl, rfl, ⟨-, nValueOut, rfl⟩ | ⟨hbase, hinputs⟩⟩ := connectTx_ok h
  · exact OutputsOnly.refl
  · obtain ⟨maps, s₃, r, -, -, hqueue, -, -, -, -, hr, rfl⟩ := connectTxInputs_ok hinputs
    have hentries := connectInputs_entries hbase hr
    have hpool : (blockConnect rules ctx place disk s₃ tx maps).mapTestFractionsPool =
        s.mapQueuedFractionsChanges := hqueue
    rw [hpool] at hentries
    exact hentries

/-- The reward writes entries of the coinstake's outputs only. -/
theorem connectReward_entries {indices : List CBlockIndex}
    (h : connectReward net votes bp rules ctx st place disk indices s = some s') :
    s'.mapQueuedFractionsChanges = s.mapQueuedFractionsChanges ∨ ∃ tx, disk.block.vtx[1]? = some tx ∧
      OutputsOnly (net.getHash tx) s.mapQueuedFractionsChanges s'.mapQueuedFractionsChanges := by
  rcases connectReward_ok h with rfl | ⟨tx, htx, -, hstake⟩
  · exact Or.inl rfl
  · obtain ⟨inp, maps, nReward, -, -, rfl | ⟨hok, rfl⟩⟩ := connectStake_ok hstake
    · exact Or.inl rfl
    · exact Or.inr ⟨tx, htx, calculateStakingFractions_v2_entries hok⟩

/-- The changes of a block's fractions: clean ones stay clean, and only keys of its
transactions are written. -/
structure BlockEntries (net : Params) (block : CBlock) (queue queue' : MapFractions) : Prop where
  clean : queue.Clean → queue'.Clean
  other : ∀ fkey : UInt320, (∀ tx ∈ block.vtx, fkey.hash ≠ net.getHash tx) →
    queue' fkey = queue fkey

theorem connectTxs_entries {queue : MapFractions} {l : List (CTransaction × ℕ)}
    (hl : ∀ a ∈ l, a.1 ∈ disk.block.vtx)
    (h : l.foldlM (connectTx net votes bp rules ctx st place disk) (loopStart rules disk queue) =
      some s) : BlockEntries net disk.block queue s.mapQueuedFractionsChanges := by
  refine foldlM_some_invariant
    (P := fun s => BlockEntries net disk.block queue s.mapQueuedFractionsChanges) ?_
    ⟨id, fun _ _ => rfl⟩ h
  rintro ⟨tx, i⟩ ha mid next hmid hstep
  have hentries := connectTx_entries hstep
  refine ⟨hentries.clean ∘ hmid.clean, fun fkey hne => ?_⟩
  rw [hentries.other fkey (hne tx (hl _ ha)), hmid.other fkey hne]

/-- The changes that a connected block writes. -/
theorem ConnectedBy.entries {nBridgeInterval : ℕ} {chain : List ChainEntry} {queue : MapFractions}
    {done : BlockState} {st' : Stores} {entry : ChainEntry}
    (h : ConnectedBy net votes bp rules nBridgeInterval ctx st chain disk place queue s done st'
      entry) : BlockEntries net disk.block queue done.mapQueuedFractionsChanges := by
  have htxs := connectTxs_entries (fun a ha => List.fst_mem_of_mem_zipIdx ha) h.txs
  rcases connectReward_entries h.reward with hsame | ⟨tx, htx, hentries⟩
  · rw [hsame]
    exact htxs
  · refine ⟨hentries.clean ∘ htxs.clean, fun fkey hne => ?_⟩
    rw [hentries.other fkey (hne tx (List.mem_of_getElem? htx)), htxs.other fkey hne]

end Block

end BitBay
