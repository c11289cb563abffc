import BitBay.Chain.OrphanPool

/-!
# Sequences of `ProcessBlock` calls

However blocks arrive, both maps have the same orphans, and none of them waits for a block that
was accepted. `setStakeSeenOrphan` has stakes of orphans only.

It need not have all of them. A second orphan of one stake is let in when another orphan waits for
it, and the stake goes with the first of the two that is pruned or connected. So the set is exact
as long as no orphan leaves the pool before another of its stake.
-/
namespace BitBay

open WorkQueue

attribute [local instance] UInt256.linearOrder

section Statements

variable (coding : BlockCoding) (call : BlockCall) (st : ProcessState)

/-- The call comes to the point where it keeps the block as an orphan. -/
structure BlockCall.Holds (block : CNetworkBlock) : Prop where
  checked : preliminaryChecks coding call st = .ok block
  missing : block.hashPrevBlock ∉ st.index.mapBlockIndex
  peer : call.pfrom.isSome = true
  single : st.orphans.duplicateStake coding st.orphans.setStakeSeenOrphan block = false

structure BlockCall.Accepts (block : CNetworkBlock) : Prop where
  checked : preliminaryChecks coding call st = .ok block
  present : block.hashPrevBlock ∈ st.index.mapBlockIndex
  accepted : (call.acceptVerdict block).fAccepted = true

/-- No orphan leaves the pool while another one of its stake stays. -/
structure StakesKept : Prop where
  /-- The new orphan may have the stake of the one that is pruned for it. -/
  pruned : ∀ block, call.Holds coding st block →
    (max 0 call.nMaxOrphanBlocks).toNat < st.orphans.mapOrphanBlocksByPrev.size →
    ∀ orphan, st.orphans.PrunesAt call.nRand orphan → ∀ other ∈ st.orphans.blocks,
      other ≠ orphan → other.vchBlock.isProofOfStake = true → other.stake = orphan.stake →
      block.isProofOfStake = true ∧ block.getProofOfStake = orphan.stake
  connected : ∀ block, call.Accepts coding st block →
    ∀ orphan, st.orphans.Connects call.acceptVerdict [block.getHash coding] orphan →
    ∀ other ∈ st.orphans.blocks,
      ¬ st.orphans.Connects call.acceptVerdict [block.getHash coding] other →
      other.vchBlock.isProofOfStake = true → other.stake ≠ orphan.stake

/-- What holds after every sequence of calls, with the hashes that they have accepted. -/
structure ProcessState.Sound (accepted : List UInt256) : Prop where
  waits : st.Waits coding
  indexed : ∀ hash ∈ accepted, hash ∈ st.index.mapBlockIndex
  parents : ∀ orphan ∈ st.orphans.blocks, orphan.hashPrev ∉ accepted
  stakes : ∀ stake ∈ st.orphans.setStakeSeenOrphan, st.orphans.HasStake stake

structure OrphanPool.Correct (accepted : List UInt256) (pool : OrphanPool) : Prop where
  consistent : pool.Consistent coding
  stakes : pool.StakesExact
  parents : ∀ orphan ∈ pool.blocks, orphan.hashPrev ∉ accepted

/-- Every state on the way through the calls meets `P`, with the hashes that are accepted by then
and the calls that are still to come. -/
def OnTheWay (P : ProcessState → List UInt256 → List BlockCall → Prop) (calls : List BlockCall) :
    Prop :=
  ∀ done rest mid accepted, done ++ rest = calls →
    processBlocks coding st done = some (mid, accepted) → P mid accepted rest

inductive CallOutcome : List UInt256 → ProcessState → Prop
  /-- The pool is as before, and the index has at most the new block. -/
  | unchanged {st' : ProcessState} (hpool : st'.orphans = st.orphans)
    (hindex : st.index.mapBlockIndex ⊆ st'.index.mapBlockIndex)
    (hnew : ∀ hash ∈ st'.index.mapBlockIndex, hash ∈ st.index.mapBlockIndex ∨
      st.orphans.mapOrphanBlocks.lookup hash = none)
    (hheld : ∀ block, ¬ call.Holds coding st block)
    (haccepted : ∀ block, ¬ call.Accepts coding st block) : CallOutcome [] st'
  | held {block : CNetworkBlock} {pruned : OrphanPool} (hholds : call.Holds coding st block)
    (hprune : pruneOrphanBlocks call.nMaxOrphanBlocks call.nRand st.orphans = some pruned) :
    CallOutcome [] { st with orphans := pruned.insertOrphan (.ofBlock coding block) }
  | connected {block : CNetworkBlock} {index : BlockIndex} {st' : ProcessState}
    {vWorkQueue : List UInt256} (haccepts : call.Accepts coding st block)
    (haccept : acceptBlock coding call.acceptVerdict block st.index = (true, index))
    (hconnect : connectOrphans coding call.acceptVerdict
      (st.orphans.mapOrphanBlocksByPrev.size + 1) { st with index } [block.getHash coding] =
      some (st', vWorkQueue)) : CallOutcome vWorkQueue st'

end Statements

section Calls

variable {coding : BlockCoding} {call : BlockCall} {st st' : ProcessState}
  {block block' : CNetworkBlock} {accepted vWorkQueue : List UInt256}
  {result : Except ProcessError (List UInt256)}

/-- The checks let new blocks pass. -/
theorem preliminaryChecks_ok (h : preliminaryChecks coding call st = .ok block) :
    block.getHash coding ∉ st.index.mapBlockIndex ∧
      st.orphans.mapOrphanBlocks.lookup (block.getHash coding) = none := by
  unfold preliminaryChecks at h
  dsimp only at h
  split at h
  · cases h
  rename_i hindex
  split at h
  · cases h
  rename_i horphan
  have hhash : block.getHash coding = call.pblock.getHash coding := by
    repeat' split at h
    all_goals first | (cases h; rfl) | cases h
  rw [hhash]
  exact ⟨hindex, Option.not_isSome_iff_eq_none.mp horphan⟩

theorem BlockCall.Holds.unique (h : call.Holds coding st block) (h' : call.Holds coding st block') :
    block = block' := Except.ok.inj (h.checked.symm.trans h'.checked)

theorem BlockCall.Accepts.unique (h : call.Accepts coding st block)
    (h' : call.Accepts coding st block') : block = block' :=
  Except.ok.inj (h.checked.symm.trans h'.checked)

theorem BlockCall.Holds.not_accepts (h : call.Holds coding st block) :
    ¬ call.Accepts coding st block' := by
  intro h'
  have heq := Except.ok.inj (h.checked.symm.trans h'.checked)
  exact h.missing (heq ▸ h'.present)

theorem holdOrphan_cases {pool pool' : OrphanPool}
    (h : holdOrphan coding call block pool = some (result, pool')) :
    pool' = pool ∧ (call.pfrom.isSome = true →
        pool.duplicateStake coding pool.setStakeSeenOrphan block = true) ∧
      result.toOption.getD [] = [] ∨
    call.pfrom.isSome = true ∧ pool.duplicateStake coding pool.setStakeSeenOrphan block = false ∧
      result = .ok [] ∧ ∃ pruned,
        pruneOrphanBlocks call.nMaxOrphanBlocks call.nRand pool = some pruned ∧
        pool' = pruned.insertOrphan (.ofBlock coding block) := by
  unfold holdOrphan at h
  cases hpfrom : call.pfrom with
  | none =>
    rw [hpfrom] at h
    obtain ⟨rfl, rfl⟩ := Prod.mk.inj (Option.some.inj h)
    exact .inl ⟨rfl, by simp, rfl⟩
  | some nVersion =>
    rw [hpfrom] at h
    dsimp only at h
    split at h
    · rename_i hduplicate
      obtain ⟨rfl, rfl⟩ := Prod.mk.inj (Option.some.inj h)
      exact .inl ⟨rfl, fun _ => hduplicate, rfl⟩
    · rename_i hduplicate
      obtain ⟨pruned, hprune, heq⟩ := Option.map_eq_some_iff.mp h
      obtain ⟨rfl, rfl⟩ := Prod.mk.inj heq
      exact .inr ⟨rfl, by simpa using hduplicate, rfl, pruned, hprune, rfl⟩

theorem processBlock_outcome (h : processBlock coding call st = some (result, st')) :
    CallOutcome coding call st (result.toOption.getD []) st' := by
  unfold processBlock at h
  cases hcheck : preliminaryChecks coding call st with
  | error e =>
    rw [hcheck] at h
    obtain ⟨rfl, rfl⟩ := Prod.mk.inj (Option.some.inj h)
    refine .unchanged rfl (fun _ h => h) (fun hash h => .inl h) (fun block hholds => ?_)
      fun block haccepts => ?_
    · cases hcheck.symm.trans hholds.checked
    · cases hcheck.symm.trans haccepts.checked
  | ok block =>
    rw [hcheck] at h
    dsimp only at h
    have hblock {block' : CNetworkBlock} (h' : preliminaryChecks coding call st = .ok block') :
        block = block' := Except.ok.inj (hcheck.symm.trans h')
    obtain ⟨hnew, hfresh⟩ := preliminaryChecks_ok hcheck
    by_cases hprev : block.hashPrevBlock ∈ st.index.mapBlockIndex
    · rw [if_neg (not_not.mpr hprev)] at h
      have hfst := acceptBlock_fst call.acceptVerdict hnew hprev
      have hsubset := subset_acceptBlock coding call.acceptVerdict block st.index
      have hgrows := mem_of_mem_acceptBlock coding call.acceptVerdict block st.index
      cases haccept : acceptBlock coding call.acceptVerdict block st.index with
      | mk fAccepted index =>
      rw [haccept] at h hfst hsubset hgrows
      cases fAccepted with
      | true =>
        obtain ⟨⟨last, keys⟩, hconnect, heq⟩ := Option.map_eq_some_iff.mp h
        obtain ⟨rfl, rfl⟩ := Prod.mk.inj heq
        exact .connected ⟨hcheck, hprev, hfst.symm⟩ haccept hconnect
      | false =>
        obtain ⟨rfl, rfl⟩ := Prod.mk.inj (Option.some.inj h)
        refine .unchanged rfl hsubset (fun hash hhash => ?_) (fun block' hholds => ?_)
          fun block' haccepts => ?_
        · rcases hgrows hash hhash with hold | rfl
          · exact .inl hold
          · exact .inr hfresh
        · exact hholds.missing (hblock hholds.checked ▸ hprev)
        · have := haccepts.accepted
          rw [← hblock haccepts.checked, ← hfst] at this
          cases this
    · rw [if_pos hprev] at h
      have hnot (block' : CNetworkBlock) : ¬ call.Accepts coding st block' := fun haccepts =>
        hprev (hblock haccepts.checked ▸ haccepts.present)
      obtain ⟨⟨held, pool⟩, hhold, heq⟩ := Option.map_eq_some_iff.mp h
      obtain ⟨rfl, rfl⟩ := Prod.mk.inj heq
      rcases holdOrphan_cases hhold with ⟨rfl, hnone, hresult⟩ | ⟨hpeer, hsingle, rfl, hpruned⟩
      · rw [hresult]
        refine .unchanged rfl (fun _ h => h) (fun hash h => .inl h) (fun block' hholds => ?_) hnot
        obtain rfl := hblock hholds.checked
        cases hholds.single.symm.trans (hnone hholds.peer)
      · obtain ⟨pruned, hprune, rfl⟩ := hpruned
        exact .held ⟨hcheck, hprev, hpeer, hsingle⟩ hprune

/-! ## What every call keeps -/

namespace ProcessState.Sound

/-- A new hash is none of an orphan. -/
theorem hashBlock_ne (h : st.Sound coding accepted) {hash : UInt256}
    (hlookup : st.orphans.mapOrphanBlocks.lookup hash = none) :
    ∀ orphan ∈ st.orphans.blocks, orphan.hashBlock ≠ hash := by
  rintro orphan hmem rfl
  have hentry := (h.waits.pool.byHash (orphan.hashBlock, orphan)).mpr ⟨hmem, rfl⟩
  rw [SortedMap.lookup_eq_some_iff.mpr hentry] at hlookup
  cases hlookup

theorem empty (coding : BlockCoding) (hstart : st.orphans = {}) : st.Sound coding [] where
  waits := ⟨hstart ▸ .empty, by simp [hstart, OrphanPool.blocks]⟩
  indexed := by simp
  parents := by simp
  stakes := by simp [hstart]

/-- The new orphan is not in the index, and its parent was never accepted. -/
theorem held (h : st.Sound coding accepted) (hholds : call.Holds coding st block)
    {pruned : OrphanPool} (hprune : pruneOrphanBlocks call.nMaxOrphanBlocks call.nRand st.orphans =
      some pruned) :
    ({ st with orphans := pruned.insertOrphan (.ofBlock coding block) } : ProcessState).Sound coding
      accepted := by
  have hdrops := pruneOrphanBlocks_drops h.waits.pool hprune
  obtain ⟨hnew, hlookup⟩ := preliminaryChecks_ok hholds.checked
  refine ⟨⟨?_, fun orphan hmem => ?_⟩, h.indexed, fun orphan hmem => ?_, fun stake hstake => ?_⟩
  · refine (hdrops.consistent h.waits.pool).insertOrphan (fun other hother => ?_) rfl
    exact h.hashBlock_ne hlookup other (hdrops.mem_blocks.mp hother).1
  · rcases OrphanPool.mem_blocks_insertOrphan.mp hmem with rfl | hmem
    · exact hnew
    · exact h.waits.new orphan (hdrops.mem_blocks.mp hmem).1
  · rcases OrphanPool.mem_blocks_insertOrphan.mp hmem with rfl | hmem
    · exact fun hparent => hholds.missing (h.indexed _ hparent)
    · exact h.parents orphan (hdrops.mem_blocks.mp hmem).1
  · refine OrphanPool.hasStake_insertOrphan.mpr ?_
    exact (OrphanPool.mem_set_insertOrphan.mp hstake).imp_left (hdrops.hasStake h.stakes)

/-- The state in which the loop over `vWorkQueue` starts. -/
theorem waits_accepted (h : st.Sound coding accepted) (haccepts : call.Accepts coding st block)
    {index : BlockIndex} (haccept : acceptBlock coding call.acceptVerdict block st.index =
      (true, index)) :
    ({ st with index } : ProcessState).Waits coding ∧
      st.index.mapBlockIndex ⊆ index.mapBlockIndex ∧
      ∀ hash ∈ [block.getHash coding], hash ∈ index.mapBlockIndex := by
  obtain ⟨-, hlookup⟩ := preliminaryChecks_ok haccepts.checked
  have hindex : (acceptBlock coding call.acceptVerdict block st.index).2 = index := by rw [haccept]
  refine ⟨⟨h.waits.pool, fun orphan hmem hin => ?_⟩, hindex ▸ subset_acceptBlock _ _ _ _, ?_⟩
  · rcases mem_of_mem_acceptBlock _ _ _ _ _ (hindex ▸ hin) with hold | heq
    · exact h.waits.new orphan hmem hold
    · exact h.hashBlock_ne hlookup orphan hmem heq
  · rintro hash hhash
    rw [List.mem_singleton.mp hhash, ← hindex]
    exact getHash_mem_of_accepted _ _ _ _ (by rw [haccept])

theorem of_outcome (h : st.Sound coding accepted)
    (houtcome : CallOutcome coding call st vWorkQueue st') :
    st'.Sound coding (accepted ++ vWorkQueue) := by
  cases houtcome with
  | unchanged hpool hindex hnew hheld haccepted =>
    refine ⟨⟨hpool ▸ h.waits.pool, fun orphan hmem hin => ?_⟩, ?_, ?_, hpool ▸ h.stakes⟩
    · rw [hpool] at hmem
      rcases hnew _ hin with hold | hlookup
      · exact h.waits.new orphan hmem hold
      · exact h.hashBlock_ne hlookup orphan hmem rfl
    · simpa using fun hash hhash => hindex (h.indexed hash hhash)
    · simpa [hpool] using h.parents
  | held hholds hprune => simpa using h.held hholds hprune
  | connected haccepts haccept hconnect =>
    obtain ⟨hwaits, hsubset, hqueue⟩ := h.waits_accepted haccepts haccept
    obtain ⟨-, hspec⟩ := connectOrphans_spec call.acceptVerdict _ hwaits hqueue
    obtain ⟨-, hwaits', hsubset', hkeys⟩ := hspec _ _ hconnect
    obtain ⟨hdrops, hparents⟩ := connectOrphans_drops hwaits hqueue hconnect
    refine ⟨hwaits', fun hash hhash => ?_, fun orphan hmem => ?_, fun stake => ?_⟩
    · rcases List.mem_append.mp hhash with hhash | hhash
      · exact hsubset' (hsubset (h.indexed hash hhash))
      · exact hkeys hash hhash
    · simp only [List.mem_append, not_or]
      exact ⟨h.parents orphan (hdrops.mem_blocks.mp hmem).1, hparents orphan hmem⟩
    · exact hdrops.hasStake h.stakes

/-- A call leaves an exact set exact if and only if no stake that stays is taken out of it. -/
theorem stakesExact_iff (h : st.Sound coding accepted) (hexact : st.orphans.StakesExact)
    (houtcome : CallOutcome coding call st vWorkQueue st') :
    st'.orphans.StakesExact ↔ StakesKept coding call st := by
  cases houtcome with
  | unchanged hpool hindex hnew hheld haccepted =>
    rw [hpool]
    refine iff_of_true hexact ⟨fun block hholds => ?_, fun block haccepts => ?_⟩
    · exact absurd hholds (hheld block)
    · exact absurd haccepts (haccepted block)
  | @held block pruned hholds hprune =>
    have hdrops := pruneOrphanBlocks_drops h.waits.pool hprune
    rw [hdrops.stakesExact_insertOrphan_iff hexact]
    constructor
    · intro hnew
      refine ⟨fun block' hholds' hfull orphan hpruned other hmem hne hpos heq => ?_,
        fun block' haccepts => absurd haccepts hholds.not_accepts⟩
      obtain rfl := hholds.unique hholds'
      refine hnew orphan ⟨hfull, hpruned⟩ ⟨other, hdrops.mem_blocks.mpr ⟨hmem, ?_⟩, hpos, heq⟩
      exact fun ⟨_, hother⟩ => hne (hother.unique hpruned)
    · rintro hkept orphan ⟨hfull, hpruned⟩ ⟨other, hother, hpos, heq⟩
      obtain ⟨hmem, hnot⟩ := hdrops.mem_blocks.mp hother
      refine hkept.pruned block hholds hfull orphan hpruned other hmem ?_ hpos heq
      rintro rfl
      exact hnot ⟨hfull, hpruned⟩
  | @connected block index _ _ haccepts haccept hconnect =>
    obtain ⟨hwaits, hsubset, hqueue⟩ := h.waits_accepted haccepts haccept
    obtain ⟨hdrops, -⟩ := connectOrphans_drops hwaits hqueue hconnect
    rw [hdrops.stakesExact_iff hexact]
    constructor
    · intro hleft
      refine ⟨fun block' hholds => absurd haccepts hholds.not_accepts,
        fun block' haccepts' orphan hreached other hmem hnot hpos heq => ?_⟩
      obtain rfl := haccepts.unique haccepts'
      exact hleft orphan hreached ⟨other, hdrops.mem_blocks.mpr ⟨hmem, hnot⟩, hpos, heq⟩
    · rintro hkept orphan hreached ⟨other, hother, hpos, heq⟩
      obtain ⟨hmem, hnot⟩ := hdrops.mem_blocks.mp hother
      exact hkept.connected block haccepts orphan hreached other hmem hnot hpos heq

end ProcessState.Sound

/-! ## Sequences of calls -/

variable {P : ProcessState → List UInt256 → List BlockCall → Prop} {calls : List BlockCall}

theorem processBlocks_cons (h : processBlock coding call st = some (result, st')) :
    processBlocks coding st (call :: calls) = (processBlocks coding st' calls).map
      fun (last, hashes) => (last, result.toOption.getD [] ++ hashes) := by
  rw [processBlocks, h]
  cases hrest : processBlocks coding st' calls <;> simp [hrest]

theorem processBlocks_cons_some {last : ProcessState} {all : List UInt256}
    (h : processBlocks coding st (call :: calls) = some (last, all)) :
    ∃ result mid hashes, processBlock coding call st = some (result, mid) ∧
      processBlocks coding mid calls = some (last, hashes) ∧
      all = result.toOption.getD [] ++ hashes := by
  obtain ⟨⟨result, mid⟩, hfirst, -⟩ := Option.bind_eq_some_iff.mp h
  rw [processBlocks_cons hfirst] at h
  obtain ⟨⟨last', hashes⟩, hrest, heq⟩ := Option.map_eq_some_iff.mp h
  obtain ⟨rfl, rfl⟩ := Prod.mk.inj heq
  exact ⟨result, mid, hashes, hfirst, hrest, rfl⟩

/-- Every sequence of calls keeps the pool sound. -/
theorem ProcessState.Sound.processBlocks (h : st.Sound coding accepted)
    (hrun : processBlocks coding st calls = some (st', vWorkQueue)) :
    st'.Sound coding (accepted ++ vWorkQueue) := by
  induction calls generalizing st accepted vWorkQueue with
  | nil =>
    obtain ⟨rfl, rfl⟩ := Prod.mk.inj (Option.some.inj hrun)
    simpa using h
  | cons call rest ih =>
    obtain ⟨result, mid, hashes, hfirst, hrest, rfl⟩ := processBlocks_cons_some hrun
    rw [← List.append_assoc]
    exact ih (h.of_outcome (processBlock_outcome hfirst)) hrest

theorem onTheWay_nil : OnTheWay coding st P [] ↔ P st [] [] := by
  refine ⟨fun h => h [] [] st [] rfl rfl, fun h done rest mid accepted hcalls hrun => ?_⟩
  obtain ⟨rfl, rfl⟩ := List.append_eq_nil_iff.mp hcalls
  obtain ⟨rfl, rfl⟩ := Prod.mk.inj (Option.some.inj hrun)
  exact h

theorem onTheWay_cons (hfirst : processBlock coding call st = some (result, st')) :
    OnTheWay coding st P (call :: calls) ↔ P st [] (call :: calls) ∧
      OnTheWay coding st' (fun mid hashes rest => P mid (result.toOption.getD [] ++ hashes) rest)
        calls := by
  constructor
  · refine fun h => ⟨h [] _ st [] rfl rfl, fun done rest mid hashes hcalls hrun => ?_⟩
    exact h (call :: done) rest mid _ (congrArg _ hcalls)
      (by rw [processBlocks_cons hfirst, hrun]; rfl)
  · rintro ⟨hst, hrest⟩ done rest mid accepted hcalls hrun
    cases done with
    | nil =>
      obtain ⟨rfl, rfl⟩ := Prod.mk.inj (Option.some.inj hrun)
      obtain rfl : rest = call :: calls := hcalls
      exact hst
    | cons call' done =>
      obtain ⟨rfl, htail⟩ := List.cons.inj hcalls
      obtain ⟨result', mid', hashes, hcall, hlater, rfl⟩ := processBlocks_cons_some hrun
      obtain ⟨rfl, rfl⟩ := Prod.mk.inj (Option.some.inj (hcall.symm.trans hfirst))
      exact hrest done rest mid hashes htail hlater

/-- From an exact set on, the set stays exact if and only if every call keeps the stakes. -/
theorem stakesExact_always_iff (h : st.Sound coding accepted) (hexact : st.orphans.StakesExact)
    (hrun : processBlocks coding st calls = some (st', vWorkQueue)) :
    OnTheWay coding st (fun mid _ _ => mid.orphans.StakesExact) calls ↔
      OnTheWay coding st (fun mid _ rest => ∀ call ∈ rest.head?, StakesKept coding call mid)
        calls := by
  induction calls generalizing st accepted vWorkQueue with
  | nil => simp [onTheWay_nil, hexact]
  | cons call rest ih =>
    obtain ⟨result, mid, hashes, hfirst, hrest, rfl⟩ := processBlocks_cons_some hrun
    have houtcome := processBlock_outcome hfirst
    have hmid := h.of_outcome houtcome
    have hstep := h.stakesExact_iff hexact houtcome
    rw [onTheWay_cons hfirst, onTheWay_cons hfirst]
    simp only [List.head?_cons, Option.mem_some_iff, forall_eq']
    constructor
    · rintro ⟨-, hall⟩
      have hexact' : mid.orphans.StakesExact := hall [] rest mid [] rfl rfl
      exact ⟨hstep.mp hexact', (ih hmid hexact' hrest).mp hall⟩
    · rintro ⟨hkept, hall⟩
      exact ⟨hexact, (ih hmid (hstep.mpr hkept) hrest).mpr hall⟩

/-- After every sequence of calls both maps have the same orphans, none of them waits for an
accepted block, and the set has stakes of orphans only. It has all of them in every state on the
way if and only if every call keeps the stakes. -/
theorem orphan_pool_of_calls (hstart : st.orphans = {})
    (hrun : processBlocks coding st calls = some (st', accepted)) :
    st'.orphans.Consistent coding ∧
      (∀ orphan ∈ st'.orphans.blocks, orphan.hashPrev ∉ accepted) ∧
      (∀ stake ∈ st'.orphans.setStakeSeenOrphan, st'.orphans.HasStake stake) ∧
      (OnTheWay coding st (fun mid accepted _ => mid.orphans.Correct coding accepted) calls ↔
        OnTheWay coding st (fun mid _ rest => ∀ call ∈ rest.head?, StakesKept coding call mid)
          calls) := by
  have hsound := ProcessState.Sound.empty coding hstart
  have hend := hsound.processBlocks hrun
  rw [List.nil_append] at hend
  refine ⟨hend.waits.pool, hend.parents, hend.stakes, ?_⟩
  have hexact : st.orphans.StakesExact := by
    simp [hstart, OrphanPool.StakesExact, OrphanPool.HasStake, OrphanPool.blocks]
  rw [← stakesExact_always_iff hsound hexact hrun]
  constructor
  · exact fun h done rest mid hashes hcalls hmid => (h done rest mid hashes hcalls hmid).stakes
  · intro h done rest mid hashes hcalls hmid
    have hsound' := hsound.processBlocks hmid
    rw [List.nil_append] at hsound'
    exact ⟨hsound'.waits.pool, h done rest mid hashes hcalls hmid, hsound'.parents⟩

/-- A call returns when the hashes of orphans do not run in a circle. -/
theorem isSome_processBlock (h : st.Sound coding accepted) {rank : UInt256 → ℕ}
    (hrank : ∀ orphan ∈ st.orphans.blocks, rank orphan.hashPrev < rank orphan.hashBlock) :
    (processBlock coding call st).isSome := by
  unfold processBlock
  cases hcheck : preliminaryChecks coding call st with
  | error e => rfl
  | ok block =>
    dsimp only
    split
    · rw [Option.isSome_map]
      unfold holdOrphan
      cases call.pfrom with
      | none => rfl
      | some nVersion =>
        dsimp only
        split
        · rfl
        · rw [Option.isSome_map]
          exact isSome_pruneOrphanBlocks h.waits.pool hrank
    · rename_i hprev
      rw [not_not] at hprev
      have hfst := acceptBlock_fst call.acceptVerdict (preliminaryChecks_ok hcheck).1 hprev
      cases haccept : acceptBlock coding call.acceptVerdict block st.index with
      | mk fAccepted index =>
      rw [haccept] at hfst
      cases fAccepted with
      | false => rfl
      | true =>
        obtain ⟨hwaits, -, hqueue⟩ := h.waits_accepted ⟨hcheck, hprev, hfst.symm⟩ haccept
        rw [Option.isSome_map]
        exact isSome_connectOrphans hwaits hqueue le_rfl

end Calls

/-! ## A stake that is lost -/

section Sample

def nonceCoding : BlockCoding where
  hashHeader h := BitVec.ofNat 256 h.nNonce
  isDERSignature _ := true
  reserealizeSignature := id

def nonceCoinBase : CTransaction where
  vin := [{ prevout := ⟨0, 2 ^ 32 - 1⟩ }]
  vout := [⟨0, []⟩]

def twinCoinStake : CTransaction where
  nTime := 100
  vin := [{ prevout := ⟨7, 0⟩ }]
  vout := [⟨0, []⟩, ⟨50, []⟩]

/-- `AcceptBlock` refuses the block with nonce 11 only. -/
def nonceCall (nNonce : ℕ) (hashPrevBlock : UInt256) (vtx : List CTransaction) : BlockCall where
  pblock := { hashPrevBlock, vtx, nNonce }
  pfrom := some 60017
  checkBlock _ := true
  acceptVerdict block := if block.nNonce = 11 then .refused else .indexed true true

/-- Two orphans of one stake. The second is let in because an orphan waits for it. Then the parent
of the first arrives, and `AcceptBlock` refuses the first. -/
def twinCalls : List BlockCall :=
  [nonceCall 11 5 [nonceCoinBase, twinCoinStake], nonceCall 13 12 [nonceCoinBase],
    nonceCall 12 6 [nonceCoinBase, twinCoinStake], nonceCall 5 1 [nonceCoinBase]]

def oneBlock : ProcessState where
  index := { mapBlockIndex := {1} }

theorem twin_calls_return : (processBlocks nonceCoding oneBlock twinCalls).isSome := by
  decide

theorem orphan_pool_of_twins : ∃ st accepted,
    processBlocks nonceCoding oneBlock twinCalls = some (st, accepted) ∧
      st.orphans.Consistent nonceCoding ∧
      (∀ orphan ∈ st.orphans.blocks, orphan.hashPrev ∉ accepted) ∧
      (∀ stake ∈ st.orphans.setStakeSeenOrphan, st.orphans.HasStake stake) ∧
      (OnTheWay nonceCoding oneBlock
          (fun mid accepted _ => mid.orphans.Correct nonceCoding accepted) twinCalls ↔
        OnTheWay nonceCoding oneBlock
          (fun mid _ rest => ∀ call ∈ rest.head?, StakesKept nonceCoding call mid) twinCalls) := by
  obtain ⟨⟨st, accepted⟩, hrun⟩ := Option.isSome_iff_exists.mp twin_calls_return
  exact ⟨st, accepted, hrun, orphan_pool_of_calls rfl hrun⟩

/-- A third block of the stake, for which no orphan waits. -/
def lateTwin : BlockCall := nonceCall 14 8 [nonceCoinBase, twinCoinStake]

/-- The stake is taken out of the set with the first orphan, and the second is still there. Now a
duplicate that no orphan waits for is let in as well. -/
theorem twin_stake_lost : ∃ st accepted,
    processBlocks nonceCoding oneBlock twinCalls = some (st, accepted) ∧
      ¬ st.orphans.StakesExact ∧
      ∃ result st', processBlock nonceCoding lateTwin st = some (result, st') ∧
        (st'.orphans.mapOrphanBlocks.lookup 14).isSome = true := by
  have hlost : (processBlocks nonceCoding oneBlock twinCalls).any fun r =>
      r.1.orphans.setStakeSeenOrphan = ∅ ∧
        (∃ orphan ∈ r.1.orphans.blocks, orphan.vchBlock.isProofOfStake = true) ∧
        (processBlock nonceCoding lateTwin r.1).any fun r' =>
          (r'.2.orphans.mapOrphanBlocks.lookup 14).isSome := by decide
  obtain ⟨⟨st, accepted⟩, hrun⟩ := Option.isSome_iff_exists.mp twin_calls_return
  rw [hrun] at hlost
  obtain ⟨hempty, ⟨orphan, hmem, hpos⟩, hlate⟩ := of_decide_eq_true hlost
  refine ⟨st, accepted, hrun, fun hexact => ?_, ?_⟩
  · have hin := (hexact orphan.stake).mpr ⟨orphan, hmem, hpos, rfl⟩
    rw [hempty] at hin
    cases hin
  · obtain ⟨⟨result, st'⟩, hcall, hheld⟩ := (Option.any_eq_true _ _).mp hlate
    exact ⟨result, st', hcall, hheld⟩

end Sample
end BitBay
