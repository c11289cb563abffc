import BitBay.Chain.OrphanBlocks

/-!
# The pool of orphan blocks

The two maps of a consistent pool have the same orphans. Pruning and connecting both drop orphans
from the pool: pruning drops one, and connecting drops those that the accepted block leads to.
Dropping keeps the pool consistent. It takes the stakes of the dropped orphans out of the set, so
the set stays exact when no orphan that is left has one of these stakes.
-/
namespace BitBay

open WorkQueue

attribute [local instance] UInt256.linearOrder

/-! ## Consistent pools -/

def OrphanPool.blocks (pool : OrphanPool) : List COrphanBlock :=
  pool.mapOrphanBlocksByPrev.entries.map Prod.snd

/-- Both maps have the same orphans, each once, under its own hash and under its parent. -/
structure OrphanPool.Consistent (coding : BlockCoding) (pool : OrphanPool) : Prop where
  byHash : ∀ e, e ∈ pool.mapOrphanBlocks.entries ↔ e.2 ∈ pool.blocks ∧ e.1 = e.2.hashBlock
  byPrev : ∀ e ∈ pool.mapOrphanBlocksByPrev.entries, e.1 = e.2.hashPrev
  once : pool.blocks.Nodup
  ofBlock : ∀ orphan ∈ pool.blocks, orphan = .ofBlock coding orphan.vchBlock

def OrphanPool.HasStake (pool : OrphanPool) (stake : COutPoint × ℕ) : Prop :=
  ∃ orphan ∈ pool.blocks, orphan.vchBlock.isProofOfStake = true ∧ orphan.stake = stake

/-- The set has the stakes of the orphans of proof of stake, and no others. -/
def OrphanPool.StakesExact (pool : OrphanPool) : Prop :=
  ∀ stake, stake ∈ pool.setStakeSeenOrphan ↔ pool.HasStake stake

/-- `pool'` is `pool` without the orphans in `R` and their stakes. -/
structure OrphanPool.Drops (pool pool' : OrphanPool) (R : COrphanBlock → Prop) : Prop where
  byHash : ∀ e, e ∈ pool'.mapOrphanBlocks.entries ↔ e ∈ pool.mapOrphanBlocks.entries ∧ ¬ R e.2
  byPrev : ∀ e, e ∈ pool'.mapOrphanBlocksByPrev.entries ↔
    e ∈ pool.mapOrphanBlocksByPrev.entries ∧ ¬ R e.2
  sublist : pool'.mapOrphanBlocksByPrev.entries.Sublist pool.mapOrphanBlocksByPrev.entries
  stakes : ∀ stake, stake ∈ pool'.setStakeSeenOrphan ↔
    stake ∈ pool.setStakeSeenOrphan ∧ ∀ orphan, R orphan → orphan.stake ≠ stake

section Pools

variable {coding : BlockCoding} {pool pool' pool'' : OrphanPool} {R R' : COrphanBlock → Prop}
  {orphan orphan' : COrphanBlock} {e : UInt256 × COrphanBlock} {stake : COutPoint × ℕ}

theorem OrphanPool.mem_blocks :
    orphan ∈ pool.blocks ↔ ∃ k, (k, orphan) ∈ pool.mapOrphanBlocksByPrev.entries := by
  simp [OrphanPool.blocks]

@[simp] theorem OrphanPool.length_blocks :
    pool.blocks.length = pool.mapOrphanBlocksByPrev.size := List.length_map _

theorem OrphanPool.Consistent.empty : OrphanPool.Consistent coding {} where
  byHash _ := ⟨fun h => absurd h List.not_mem_nil, fun h => absurd h.1 List.not_mem_nil⟩
  byPrev _ he := absurd he SortedMultimap.mem_entries_empty
  once := List.nodup_nil
  ofBlock _ h := absurd h List.not_mem_nil

namespace OrphanPool.Consistent

theorem mem_byPrev (h : pool.Consistent coding) :
    e ∈ pool.mapOrphanBlocksByPrev.entries ↔ e.2 ∈ pool.blocks ∧ e.1 = e.2.hashPrev := by
  obtain ⟨k, orphan⟩ := e
  refine ⟨fun he => ⟨mem_blocks.mpr ⟨k, he⟩, h.byPrev _ he⟩, fun ⟨hmem, hk⟩ => ?_⟩
  obtain ⟨k', he⟩ := mem_blocks.mp hmem
  have hk' : k' = orphan.hashPrev := h.byPrev _ he
  have hkey : k = orphan.hashPrev := hk
  rwa [hkey, ← hk']

/-- No two orphans have one hash. -/
theorem eq_of_hashBlock (h : pool.Consistent coding) (hmem : orphan ∈ pool.blocks)
    (hmem' : orphan' ∈ pool.blocks) (heq : orphan.hashBlock = orphan'.hashBlock) :
    orphan = orphan' := by
  have hfound := SortedMap.lookup_eq_some_iff.mpr ((h.byHash (orphan.hashBlock, orphan)).mpr ⟨hmem, rfl⟩)
  have hfound' := SortedMap.lookup_eq_some_iff.mpr
    ((h.byHash (orphan'.hashBlock, orphan')).mpr ⟨hmem', rfl⟩)
  rw [heq, hfound'] at hfound
  exact (Option.some.inj hfound).symm

/-- The orphans below a hash are what the map by parents has for it. -/
theorem equalRange_eq (h : pool.Consistent coding) (k : UInt256) :
    pool.mapOrphanBlocksByPrev.equalRange k = below COrphanBlock.hashPrev pool.blocks k := by
  rw [SortedMultimap.equalRange, below, OrphanPool.blocks, List.filter_map]
  congr 1
  refine List.filter_congr fun e he => ?_
  simp [h.byPrev e he]

end OrphanPool.Consistent

namespace OrphanPool.Drops

theorem refl (pool : OrphanPool) : pool.Drops pool fun _ => False where
  byHash e := by simp
  byPrev e := by simp
  sublist := List.Sublist.refl _
  stakes stake := by simp

theorem trans (h : pool.Drops pool' R) (h' : pool'.Drops pool'' R') :
    pool.Drops pool'' fun orphan => R orphan ∨ R' orphan where
  byHash e := by rw [h'.byHash, h.byHash]; tauto
  byPrev e := by rw [h'.byPrev, h.byPrev]; tauto
  sublist := h'.sublist.trans h.sublist
  stakes stake := by
    rw [h'.stakes, h.stakes]
    grind

theorem mem_blocks (h : pool.Drops pool' R) :
    orphan ∈ pool'.blocks ↔ orphan ∈ pool.blocks ∧ ¬ R orphan := by
  simp only [OrphanPool.mem_blocks, h.byPrev]
  grind

theorem consistent (h : pool.Drops pool' R) (hpool : pool.Consistent coding) :
    pool'.Consistent coding where
  byHash e := by
    rw [h.byHash, hpool.byHash, h.mem_blocks]
    tauto
  byPrev e he := hpool.byPrev e ((h.byPrev e).mp he).1
  once := hpool.once.sublist (h.sublist.map _)
  ofBlock orphan hmem := hpool.ofBlock orphan (h.mem_blocks.mp hmem).1

/-- What is left in the set is the stake of an orphan that is left. -/
theorem hasStake (h : pool.Drops pool' R)
    (hset : ∀ stake ∈ pool.setStakeSeenOrphan, pool.HasStake stake)
    (hstake : stake ∈ pool'.setStakeSeenOrphan) : pool'.HasStake stake := by
  obtain ⟨hmem, hdropped⟩ := (h.stakes stake).mp hstake
  obtain ⟨orphan, horphan, hpos, rfl⟩ := hset stake hmem
  exact ⟨orphan, h.mem_blocks.mpr ⟨horphan, fun hR => hdropped orphan hR rfl⟩, hpos, rfl⟩

/-- The set stays exact when the stakes of the orphans that are left are not dropped. -/
theorem mem_set_iff (h : pool.Drops pool' R) (hexact : pool.StakesExact) :
    stake ∈ pool'.setStakeSeenOrphan ↔
      pool'.HasStake stake ∧ ∀ orphan, R orphan → orphan.stake ≠ stake := by
  refine ⟨fun hstake => ?_, fun ⟨hstake, hdropped⟩ => ?_⟩
  · exact ⟨h.hasStake (fun stake => (hexact stake).mp) hstake, ((h.stakes stake).mp hstake).2⟩
  · obtain ⟨orphan, horphan, hpos, rfl⟩ := hstake
    refine (h.stakes _).mpr ⟨(hexact _).mpr ⟨orphan, (h.mem_blocks.mp horphan).1, hpos, rfl⟩, ?_⟩
    exact hdropped

theorem stakesExact_iff (h : pool.Drops pool' R) (hexact : pool.StakesExact) :
    pool'.StakesExact ↔ ∀ orphan, R orphan → ¬ pool'.HasStake orphan.stake := by
  unfold OrphanPool.StakesExact
  simp only [h.mem_set_iff hexact, and_iff_left_iff_imp]
  grind

end OrphanPool.Drops

/-! ## New orphans -/

theorem OrphanPool.perm_blocks_insertOrphan :
    (pool.insertOrphan orphan).blocks.Perm (orphan :: pool.blocks) :=
  SortedMultimap.perm_insert.map Prod.snd

theorem OrphanPool.mem_blocks_insertOrphan :
    orphan' ∈ (pool.insertOrphan orphan).blocks ↔ orphan' = orphan ∨ orphan' ∈ pool.blocks :=
  perm_blocks_insertOrphan.mem_iff.trans List.mem_cons

theorem OrphanPool.mem_set_insertOrphan : stake ∈ (pool.insertOrphan orphan).setStakeSeenOrphan ↔
    stake ∈ pool.setStakeSeenOrphan ∨
      orphan.vchBlock.isProofOfStake = true ∧ orphan.stake = stake := by
  unfold OrphanPool.insertOrphan
  grind

theorem OrphanPool.hasStake_insertOrphan : (pool.insertOrphan orphan).HasStake stake ↔
    pool.HasStake stake ∨ orphan.vchBlock.isProofOfStake = true ∧ orphan.stake = stake := by
  simp only [OrphanPool.HasStake, OrphanPool.mem_blocks_insertOrphan]
  grind

theorem OrphanPool.Consistent.insertOrphan (h : pool.Consistent coding)
    (hnew : ∀ other ∈ pool.blocks, other.hashBlock ≠ orphan.hashBlock)
    (hblock : orphan = .ofBlock coding orphan.vchBlock) :
    (pool.insertOrphan orphan).Consistent coding := by
  have hnone : pool.mapOrphanBlocks.lookup orphan.hashBlock = none := by
    refine Option.eq_none_iff_forall_ne_some.mpr fun other hother => ?_
    obtain ⟨hmem, hhash⟩ := (h.byHash _).mp (SortedMap.lookup_eq_some_iff.mp hother)
    exact hnew other hmem hhash.symm
  refine ⟨fun e => ?_, fun e he => ?_, ?_, fun other hother => ?_⟩
  · simp only [OrphanPool.mem_blocks_insertOrphan]
    simp only [OrphanPool.insertOrphan, hnone, Option.isSome_none, Bool.false_eq_true, if_false,
      SortedMap.mem_entries_insert, h.byHash]
    grind
  · rcases SortedMultimap.mem_entries_insert.mp he with rfl | he
    · rfl
    · exact h.byPrev e he
  · refine OrphanPool.perm_blocks_insertOrphan.nodup_iff.mpr (List.nodup_cons.mpr ⟨?_, h.once⟩)
    exact fun hmem => hnew orphan hmem rfl
  · rcases OrphanPool.mem_blocks_insertOrphan.mp hother with rfl | hother
    · exact hblock
    · exact h.ofBlock other hother

/-- A new orphan can only make up for its own stake. -/
theorem OrphanPool.Drops.stakesExact_insertOrphan_iff (h : pool.Drops pool' R)
    (hexact : pool.StakesExact) : (pool'.insertOrphan orphan).StakesExact ↔
      ∀ other, R other → pool'.HasStake other.stake →
        orphan.vchBlock.isProofOfStake = true ∧ orphan.stake = other.stake := by
  unfold OrphanPool.StakesExact
  simp only [OrphanPool.mem_set_insertOrphan, OrphanPool.hasStake_insertOrphan,
    h.mem_set_iff hexact]
  grind

/-! ## Pruning -/

/-- `PruneOrphanBlocks` comes to the orphan, on its way from the place that it has picked. -/
def OrphanPool.PrunesAt (pool : OrphanPool) (nRand : ℕ) (orphan : COrphanBlock) : Prop :=
  ∃ it k, EndsAt pool.firstDependent (nRand % pool.mapOrphanBlocksByPrev.size) it ∧
    pool.mapOrphanBlocksByPrev.entries[it]? = some (k, orphan)

theorem OrphanPool.PrunesAt.unique {nRand : ℕ} (h : pool.PrunesAt nRand orphan)
    (h' : pool.PrunesAt nRand orphan') : orphan = orphan' := by
  obtain ⟨it, k, hend, hat⟩ := h
  obtain ⟨it', k', hend', hat'⟩ := h'
  rw [hend.unique hend', hat'] at hat
  cases hat
  rfl

/-- The orphan at a place is dropped with its entries and its stake. -/
theorem OrphanPool.Consistent.drops_erase (h : pool.Consistent coding) {it : ℕ}
    (hat : pool.mapOrphanBlocksByPrev.entries[it]? = some e) :
    pool.Drops {
      mapOrphanBlocks := pool.mapOrphanBlocks.erase e.2.hashBlock
      mapOrphanBlocksByPrev := pool.mapOrphanBlocksByPrev.eraseAt it
      setStakeSeenOrphan := pool.setStakeSeenOrphan.erase e.2.stake } (· = e.2) := by
  have hmem : e.2 ∈ pool.blocks := List.mem_map_of_mem (List.mem_of_getElem? hat)
  have hperm := SortedMultimap.perm_eraseAt hat
  have hnot : ∀ e' ∈ (pool.mapOrphanBlocksByPrev.eraseAt it).entries, e'.2 ≠ e.2 := by
    have honce := (hperm.map Prod.snd).nodup_iff.mp h.once
    exact fun e' he' heq => (List.nodup_cons.mp honce).1 (heq ▸ List.mem_map_of_mem he')
  refine ⟨fun e' => ?_, fun e' => ?_, List.eraseIdx_sublist _ _, fun stake => ?_⟩
  · rw [SortedMap.mem_entries_erase, h.byHash]
    have hkey (hmem' : e'.2 ∈ pool.blocks) : e'.2.hashBlock = e.2.hashBlock ↔ e'.2 = e.2 :=
      ⟨h.eq_of_hashBlock hmem' hmem, congrArg _⟩
    grind
  · rw [hperm.mem_iff, List.mem_cons]
    grind
  · simp only [Finset.mem_erase]
    grind

/-- Pruning drops the orphan that it comes to, if the pool is full. -/
theorem pruneOrphanBlocks_drops {nMaxOrphanBlocks : ℤ} {nRand : ℕ} (h : pool.Consistent coding)
    (hprune : pruneOrphanBlocks nMaxOrphanBlocks nRand pool = some pool') :
    pool.Drops pool' fun orphan => (max 0 nMaxOrphanBlocks).toNat <
      pool.mapOrphanBlocksByPrev.size ∧ pool.PrunesAt nRand orphan := by
  unfold pruneOrphanBlocks at hprune
  dsimp only at hprune
  split_ifs at hprune with hfull
  · cases hprune
    simpa [not_lt.mpr hfull] using OrphanPool.Drops.refl pool
  · obtain ⟨it, hwalk, hprune⟩ := Option.bind_eq_some_iff.mp hprune
    obtain ⟨e, hat, hprune⟩ := Option.bind_eq_some_iff.mp hprune
    cases hprune
    have hpruned : pool.PrunesAt nRand e.2 := ⟨it, e.1, endsAt_of_follow hwalk, hat⟩
    have hall : (fun orphan => (max 0 nMaxOrphanBlocks).toNat <
        pool.mapOrphanBlocksByPrev.size ∧ pool.PrunesAt nRand orphan) = (· = e.2) := by
      funext orphan
      refine propext ⟨fun ⟨_, hother⟩ => hother.unique hpruned, ?_⟩
      rintro rfl
      exact ⟨not_le.mp hfull, hpruned⟩
    exact hall ▸ h.drops_erase hat

/-- The walk goes from an orphan to one that waits for it, so the ranks of the hashes go up. -/
theorem isSome_pruneOrphanBlocks {nMaxOrphanBlocks : ℤ} {nRand : ℕ} (h : pool.Consistent coding)
    {rank : UInt256 → ℕ}
    (hrank : ∀ orphan ∈ pool.blocks, rank orphan.hashPrev < rank orphan.hashBlock) :
    (pruneOrphanBlocks nMaxOrphanBlocks nRand pool).isSome := by
  have hentry {it next : ℕ} (hnext : pool.firstDependent it = some next) : ∃ e e',
      pool.mapOrphanBlocksByPrev.entries[it]? = some e ∧
        pool.mapOrphanBlocksByPrev.entries[next]? = some e' ∧ e'.1 = e.2.hashBlock := by
    obtain ⟨e, hat, hfind⟩ := Option.bind_eq_some_iff.mp hnext
    obtain ⟨orphan, hat'⟩ := SortedMultimap.getElem?_of_find hfind
    exact ⟨e, _, hat, hat', rfl⟩
  unfold pruneOrphanBlocks
  dsimp only
  split_ifs with hfull
  · rfl
  generalize hsize : pool.mapOrphanBlocksByPrev.size = size at *
  have hstart : nRand % size < size := Nat.mod_lt _ (by omega)
  let rankAt (it : ℕ) := (pool.mapOrphanBlocksByPrev.entries[it]?.map (rank ·.2.hashBlock)).getD 0
  have hwalk : (follow pool.firstDependent size (nRand % size)).isSome := by
    refine isSome_follow (Finset.range size) rankAt (fun it next hnext => ?_) ?_
    · obtain ⟨e, e', hat, hat', hkey⟩ := hentry hnext
      have hmem := List.mem_of_getElem? hat'
      have hup := hrank e'.2 (List.mem_map_of_mem hmem)
      rw [← h.byPrev e' hmem, hkey] at hup
      refine ⟨?_, by simpa [rankAt, hat, hat'] using hup⟩
      rw [Finset.mem_range, ← hsize]
      exact (List.getElem?_eq_some_iff.mp hat').1
    · refine (Finset.card_lt_card (t := Finset.range size) ?_).trans_eq (Finset.card_range size)
      refine (Finset.ssubset_iff_of_subset (Finset.filter_subset _ _)).mpr ⟨nRand % size, ?_, ?_⟩
      · exact Finset.mem_range.mpr hstart
      · simp
  obtain ⟨it, hit⟩ := Option.isSome_iff_exists.mp hwalk
  have hat : ∃ e, pool.mapOrphanBlocksByPrev.entries[it]? = some e := by
    rcases (endsAt_of_follow hit).1.cases_tail with rfl | ⟨last, -, hlast⟩
    · exact ⟨_, List.getElem?_eq_getElem (hsize ▸ hstart)⟩
    · obtain ⟨e, e', -, hat', -⟩ := hentry hlast
      exact ⟨e', hat'⟩
  obtain ⟨e, hat⟩ := hat
  simp [hit, hat]

end Pools

/-! ## Connecting -/

/-- `AcceptBlock` takes the orphan, once its parent is in the index. -/
def COrphanBlock.passes (acceptVerdict : CNetworkBlock → AcceptVerdict) (orphan : COrphanBlock) :
    Bool := (acceptVerdict orphan.vchBlock).fAccepted

/-- The orphans that an accepted block brings in: those that wait for it, and those that wait for
one of them that `AcceptBlock` takes. -/
abbrev OrphanPool.Connects (pool : OrphanPool) (acceptVerdict : CNetworkBlock → AcceptVerdict)
    (hashes : List UInt256) : COrphanBlock → Prop :=
  Reached COrphanBlock.hashPrev COrphanBlock.hashBlock (COrphanBlock.passes acceptVerdict)
    pool.blocks hashes

/-- The pool is consistent, and none of its orphans is in the index. -/
structure ProcessState.Waits (coding : BlockCoding) (st : ProcessState) : Prop where
  pool : st.orphans.Consistent coding
  new : ∀ orphan ∈ st.orphans.blocks, orphan.hashBlock ∉ st.index.mapBlockIndex

structure ConnectsAll (acceptVerdict : CNetworkBlock → AcceptVerdict) (orphans : List COrphanBlock)
    (st st' : ProcessState) : Prop where
  byHash : ∀ e, e ∈ st'.orphans.mapOrphanBlocks.entries ↔
    e ∈ st.orphans.mapOrphanBlocks.entries ∧ ∀ orphan ∈ orphans, e.1 ≠ orphan.hashBlock
  byPrev : st'.orphans.mapOrphanBlocksByPrev = st.orphans.mapOrphanBlocksByPrev
  stakes : ∀ stake, stake ∈ st'.orphans.setStakeSeenOrphan ↔
    stake ∈ st.orphans.setStakeSeenOrphan ∧ ∀ orphan ∈ orphans, orphan.stake ≠ stake
  subset : st.index.mapBlockIndex ⊆ st'.index.mapBlockIndex
  index : ∀ hash ∈ st'.index.mapBlockIndex, hash ∈ st.index.mapBlockIndex ∨
    ∃ orphan ∈ orphans, orphan.hashBlock = hash
  accepted : ∀ orphan ∈ orphans, orphan.passes acceptVerdict = true →
    orphan.hashBlock ∈ st'.index.mapBlockIndex

section Connect

variable {coding : BlockCoding} {acceptVerdict : CNetworkBlock → AcceptVerdict}
  {st st' : ProcessState} {block : CNetworkBlock} {index : BlockIndex} {hash : UInt256}
  {queue keys : List UInt256} {orphan : COrphanBlock} {fuel : ℕ}

section

variable (coding acceptVerdict block index)

/-- The index gets the hash of the block, or nothing. -/
theorem mapBlockIndex_acceptBlock :
    (acceptBlock coding acceptVerdict block index).2.mapBlockIndex = index.mapBlockIndex ∨
      (acceptBlock coding acceptVerdict block index).2.mapBlockIndex =
        insert (block.getHash coding) index.mapBlockIndex := by
  unfold acceptBlock
  split
  · exact .inl rfl
  · split
    · exact .inl rfl
    · cases acceptVerdict block with
      | refused => exact .inl rfl
      | indexed fBest fAccepted => exact .inr rfl

theorem subset_acceptBlock :
    index.mapBlockIndex ⊆ (acceptBlock coding acceptVerdict block index).2.mapBlockIndex := by
  rcases mapBlockIndex_acceptBlock coding acceptVerdict block index with h | h <;> grind

theorem mem_of_mem_acceptBlock :
    ∀ hash ∈ (acceptBlock coding acceptVerdict block index).2.mapBlockIndex,
      hash ∈ index.mapBlockIndex ∨ hash = block.getHash coding := by
  rcases mapBlockIndex_acceptBlock coding acceptVerdict block index with h | h <;> grind

theorem getHash_mem_of_accepted (h : (acceptBlock coding acceptVerdict block index).1 = true) :
    block.getHash coding ∈ (acceptBlock coding acceptVerdict block index).2.mapBlockIndex := by
  unfold acceptBlock BlockIndex.addToBlockIndex at *
  grind

end

/-- A new block above a block of the index is accepted as the checks say. -/
theorem acceptBlock_fst (acceptVerdict : CNetworkBlock → AcceptVerdict)
    (hnew : block.getHash coding ∉ index.mapBlockIndex)
    (hprev : block.hashPrevBlock ∈ index.mapBlockIndex) :
    (acceptBlock coding acceptVerdict block index).1 = (acceptVerdict block).fAccepted := by
  unfold acceptBlock
  rw [if_neg hnew, if_neg (not_not.mpr hprev)]
  cases acceptVerdict block with
  | refused => rfl
  | indexed fBest fAccepted => rfl

/-- The loop over orphans of different hashes, whose parents are in the index and they are not. -/
theorem foldl_connectOrphan (acceptVerdict : CNetworkBlock → AcceptVerdict)
    (queue : List UInt256) {orphans : List COrphanBlock}
    (hblock : ∀ orphan ∈ orphans, orphan = .ofBlock coding orphan.vchBlock)
    (hnew : ∀ orphan ∈ orphans, orphan.hashBlock ∉ st.index.mapBlockIndex)
    (hprev : ∀ orphan ∈ orphans, orphan.hashPrev ∈ st.index.mapBlockIndex)
    (honce : (orphans.map COrphanBlock.hashBlock).Nodup) :
    ∃ st', orphans.foldl (connectOrphan coding acceptVerdict) (st, queue) =
        (st', queue ++ (orphans.filter (·.passes acceptVerdict)).map COrphanBlock.hashBlock) ∧
      ConnectsAll acceptVerdict orphans st st' := by
  induction orphans generalizing st queue with
  | nil => exact ⟨st, by simp, by simp, rfl, by simp, fun _ h => h, by simp, by simp⟩
  | cons orphan rest ih =>
    obtain ⟨hfirst, honce⟩ := List.nodup_cons.mp honce
    obtain ⟨hblock₁, hblock⟩ := List.forall_mem_cons.mp hblock
    obtain ⟨hnew₁, hnew⟩ := List.forall_mem_cons.mp hnew
    obtain ⟨hprev₁, hprev⟩ := List.forall_mem_cons.mp hprev
    have hhash : orphan.hashBlock = orphan.vchBlock.getHash coding :=
      congrArg COrphanBlock.hashBlock hblock₁
    have hstake : orphan.stake = orphan.vchBlock.getProofOfStake :=
      congrArg COrphanBlock.stake hblock₁
    have haccept : (acceptBlock coding acceptVerdict orphan.vchBlock st.index).1 =
        orphan.passes acceptVerdict := by
      refine acceptBlock_fst acceptVerdict (hhash ▸ hnew₁) ?_
      have hparent : orphan.hashPrev = orphan.vchBlock.hashPrevBlock :=
        congrArg COrphanBlock.hashPrev hblock₁
      exact hparent ▸ hprev₁
    have hsubset := subset_acceptBlock coding acceptVerdict orphan.vchBlock st.index
    have hgrows := mem_of_mem_acceptBlock coding acceptVerdict orphan.vchBlock st.index
    have hin := getHash_mem_of_accepted coding acceptVerdict orphan.vchBlock st.index
    rw [List.foldl_cons, connectOrphan]
    generalize acceptBlock coding acceptVerdict orphan.vchBlock st.index = result at *
    obtain ⟨fAccepted, index⟩ := result
    dsimp only at *
    let mid : ProcessState := { index, orphans := { st.orphans with
      mapOrphanBlocks := st.orphans.mapOrphanBlocks.erase orphan.hashBlock
      setStakeSeenOrphan :=
        st.orphans.setStakeSeenOrphan.erase orphan.vchBlock.getProofOfStake } }
    obtain ⟨st', hfold, hrest⟩ := ih
      (if fAccepted then queue ++ [orphan.hashBlock] else queue) hblock
      (fun other hother => by grind : ∀ other ∈ rest, other.hashBlock ∉ mid.index.mapBlockIndex)
      (fun other hother => hsubset (hprev other hother)) honce
    refine ⟨st', ?_, ?_⟩
    · rw [hfold, List.filter_cons, ← haccept]
      cases fAccepted with
      | false => simp
      | true => simp
    · refine ⟨fun e => ?_, hrest.byPrev, fun stake => ?_, hsubset.trans hrest.subset,
        fun hash hhash' => ?_, fun other hother hpass => ?_⟩
      · rw [hrest.byHash]
        simp only [mid, SortedMap.mem_entries_erase]
        grind
      · rw [hrest.stakes]
        simp only [mid, Finset.mem_erase]
        grind
      · have := hrest.index hash hhash'
        grind
      · rcases List.mem_cons.mp hother with rfl | hother
        · exact hrest.subset (hhash ▸ hin (haccept.trans hpass))
        · exact hrest.accepted other hother hpass

/-- A turn of the loop takes out the orphans of one parent and queues those that are accepted. -/
theorem connectBelow_spec (acceptVerdict : CNetworkBlock → AcceptVerdict)
    (queue : List UInt256) (hst : st.Waits coding) (hparent : hash ∈ st.index.mapBlockIndex) :
    ∃ st', connectBelow coding acceptVerdict hash st queue =
        (st', queue ++ queued COrphanBlock.hashPrev COrphanBlock.hashBlock
          (COrphanBlock.passes acceptVerdict) st.orphans.blocks hash) ∧
      st'.orphans.blocks = (st.orphans.blocks.filter fun orphan => orphan.hashPrev ≠ hash) ∧
      st.orphans.Drops st'.orphans (fun orphan => orphan ∈ st.orphans.blocks ∧
        orphan.hashPrev = hash) ∧
      st'.Waits coding ∧ st.index.mapBlockIndex ⊆ st'.index.mapBlockIndex ∧
      ∀ key ∈ queued COrphanBlock.hashPrev COrphanBlock.hashBlock
        (COrphanBlock.passes acceptVerdict) st.orphans.blocks hash, key ∈ st'.index.mapBlockIndex := by
  obtain ⟨hpool, hnew⟩ := hst
  have hbelow {orphan : COrphanBlock} : orphan ∈ below COrphanBlock.hashPrev st.orphans.blocks hash ↔
      orphan ∈ st.orphans.blocks ∧ orphan.hashPrev = hash := by simp [below]
  have honce : ((below COrphanBlock.hashPrev st.orphans.blocks hash).map
      COrphanBlock.hashBlock).Nodup := by
    refine (hpool.once.sublist List.filter_sublist).map_on fun orphan hmem other hother heq => ?_
    exact hpool.eq_of_hashBlock (hbelow.mp hmem).1 (hbelow.mp hother).1 heq
  obtain ⟨mid, hfold, hmid⟩ := foldl_connectOrphan acceptVerdict queue
    (fun orphan hmem => hpool.ofBlock orphan (hbelow.mp hmem).1)
    (fun orphan hmem => hnew orphan (hbelow.mp hmem).1)
    (fun orphan hmem => (hbelow.mp hmem).2 ▸ hparent) honce
  have hdrops : st.orphans.Drops { mid.orphans with
      mapOrphanBlocksByPrev := mid.orphans.mapOrphanBlocksByPrev.eraseKey hash }
      (fun orphan => orphan ∈ st.orphans.blocks ∧ orphan.hashPrev = hash) := by
    refine ⟨fun e => ?_, fun e => ?_, ?_, fun stake => ?_⟩
    · rw [hmid.byHash, hpool.byHash]
      have hkey (hmem : e.2 ∈ st.orphans.blocks) (orphan : COrphanBlock)
          (horphan : orphan ∈ st.orphans.blocks) :
          e.2.hashBlock = orphan.hashBlock ↔ e.2 = orphan :=
        ⟨hpool.eq_of_hashBlock hmem horphan, congrArg _⟩
      grind
    · rw [hmid.byPrev, SortedMultimap.mem_entries_eraseKey, hpool.mem_byPrev]
      grind
    · rw [hmid.byPrev]
      exact List.filter_sublist
    · rw [hmid.stakes]
      simp only [hbelow]
  refine ⟨{ mid with orphans := { mid.orphans with
      mapOrphanBlocksByPrev := mid.orphans.mapOrphanBlocksByPrev.eraseKey hash } }, ?_, ?_, hdrops,
    ⟨hdrops.consistent hpool, fun orphan horphan => ?_⟩, hmid.subset, fun key hkey => ?_⟩
  · rw [connectBelow, hpool.equalRange_eq, hfold, queued]
  · rw [OrphanPool.blocks, OrphanPool.blocks, hmid.byPrev, SortedMultimap.eraseKey, List.filter_map]
    congr 1
    refine List.filter_congr fun e he => ?_
    simp [hpool.byPrev e he]
  · obtain ⟨hmem, hnot⟩ := hdrops.mem_blocks.mp horphan
    intro hindex
    rcases hmid.index _ hindex with hold | ⟨other, hother, heq⟩
    · exact hnew orphan hmem hold
    · have := hpool.eq_of_hashBlock (hbelow.mp hother).1 hmem heq
      exact hnot (this ▸ hbelow.mp hother)
  · obtain ⟨orphan, hmem, hprev, hpass, rfl⟩ := mem_queued.mp hkey
    exact hmid.accepted orphan (hbelow.mpr ⟨hmem, hprev⟩) hpass

/-- The loop drains the work queue: it drops the orphans that it leads to. -/
theorem connectOrphans_spec (acceptVerdict : CNetworkBlock → AcceptVerdict) (fuel : ℕ) (hst : st.Waits coding)
    (hqueue : ∀ hash ∈ queue, hash ∈ st.index.mapBlockIndex) :
    (connectOrphans coding acceptVerdict fuel st queue).map (fun r => (r.1.orphans.blocks, r.2)) =
      drain COrphanBlock.hashPrev COrphanBlock.hashBlock (COrphanBlock.passes acceptVerdict) fuel
        st.orphans.blocks queue ∧
    ∀ st' keys, connectOrphans coding acceptVerdict fuel st queue = some (st', keys) →
      st.orphans.Drops st'.orphans (fun orphan => orphan ∈ st.orphans.blocks ∧
        orphan ∉ st'.orphans.blocks) ∧
      st'.Waits coding ∧ st.index.mapBlockIndex ⊆ st'.index.mapBlockIndex ∧
      ∀ key ∈ keys, key ∈ st'.index.mapBlockIndex := by
  fun_induction connectOrphans coding acceptVerdict fuel st queue with
  | case1 fuel st =>
    refine ⟨by simp [drain], fun st' keys h => ?_⟩
    obtain ⟨rfl, rfl⟩ := Prod.mk.inj (Option.some.inj h)
    refine ⟨?_, hst, fun _ h => h, fun key hkey => absurd hkey List.not_mem_nil⟩
    simpa using OrphanPool.Drops.refl st.orphans
  | case2 => exact ⟨rfl, fun st' keys h => by cases h⟩
  | case3 fuel st hash rest mid queue hbelow ih =>
    obtain ⟨hhash, hrest⟩ := List.forall_mem_cons.mp hqueue
    obtain ⟨mid', hspec, hblocks, hdrops, hmid, hsubset, hqueued⟩ :=
      connectBelow_spec acceptVerdict rest hst hhash
    obtain ⟨rfl, rfl⟩ := Prod.mk.inj (hbelow.symm.trans hspec)
    obtain ⟨hdrain, hspec⟩ := ih hmid fun key hkey => by
      rcases List.mem_append.mp hkey with hkey | hkey
      · exact hsubset (hrest key hkey)
      · exact hqueued key hkey
    rw [drain, ← hblocks, ← hdrain]
    refine ⟨by simp [Option.map_map, Function.comp_def], fun st' keys h => ?_⟩
    obtain ⟨⟨last, keys'⟩, hlast, heq⟩ := Option.map_eq_some_iff.mp h
    obtain ⟨rfl, rfl⟩ := Prod.mk.inj heq
    obtain ⟨hdrops', hwaits, hsubset', hkeys⟩ := hspec last keys' hlast
    refine ⟨?_, hwaits, hsubset.trans hsubset', fun key hkey => ?_⟩
    · have hall : (fun orphan => (orphan ∈ st.orphans.blocks ∧ orphan.hashPrev = hash) ∨
          orphan ∈ mid.orphans.blocks ∧ orphan ∉ last.orphans.blocks) =
          fun orphan => orphan ∈ st.orphans.blocks ∧ orphan ∉ last.orphans.blocks := by
        funext orphan
        have hmem : orphan ∈ mid.orphans.blocks ↔ _ := hdrops.mem_blocks
        have hmem' : orphan ∈ last.orphans.blocks ↔ _ := hdrops'.mem_blocks
        grind
      exact hall ▸ hdrops.trans hdrops'
    · rcases List.mem_cons.mp hkey with rfl | hkey
      · exact hsubset' (hsubset hhash)
      · exact hkeys key hkey

/-- What the loop drops is what the queue leads to. None that is left waits for a queued block. -/
theorem connectOrphans_drops (hst : st.Waits coding)
    (hqueue : ∀ hash ∈ queue, hash ∈ st.index.mapBlockIndex)
    (h : connectOrphans coding acceptVerdict fuel st queue = some (st', keys)) :
    st.orphans.Drops st'.orphans (st.orphans.Connects acceptVerdict queue) ∧
      ∀ orphan ∈ st'.orphans.blocks, orphan.hashPrev ∉ keys := by
  obtain ⟨hdrain, hspec⟩ := connectOrphans_spec acceptVerdict fuel hst hqueue
  obtain ⟨hdrops, -⟩ := hspec st' keys h
  rw [h] at hdrain
  have hleft {orphan : COrphanBlock} : orphan ∈ st'.orphans.blocks ↔ _ :=
    mem_left_of_drain hdrain.symm
  have hkeys {key : UInt256} : key ∈ keys ↔ _ := mem_keys_of_drain hdrain.symm
  constructor
  · have hall : (fun orphan => orphan ∈ st.orphans.blocks ∧ orphan ∉ st'.orphans.blocks) =
        st.orphans.Connects acceptVerdict queue := by
      funext orphan
      refine propext ⟨fun ⟨hmem, hnot⟩ => ?_, fun hreached => ⟨hreached.mem, fun hmem => ?_⟩⟩
      · exact by_contra fun hreached => hnot (hleft.mpr ⟨hmem, hreached⟩)
      · exact (hleft.mp hmem).2 hreached
    exact hall ▸ hdrops
  · intro orphan horphan hkey
    obtain ⟨hmem, hnot⟩ := hleft.mp horphan
    rcases hkeys.mp hkey with hqueued | ⟨parent, hreached, hpass, hown⟩
    · exact hnot (.start hmem hqueued)
    · exact hnot (.next hreached hpass hmem hown.symm)

/-- A hash for every orphan and one for the accepted block are enough. -/
theorem isSome_connectOrphans (hst : st.Waits coding)
    (hqueue : ∀ hash ∈ queue, hash ∈ st.index.mapBlockIndex)
    (hfuel : st.orphans.mapOrphanBlocksByPrev.size + queue.length ≤ fuel) :
    (connectOrphans coding acceptVerdict fuel st queue).isSome := by
  have hsome : (drain COrphanBlock.hashPrev COrphanBlock.hashBlock
      (COrphanBlock.passes acceptVerdict) fuel st.orphans.blocks queue).isSome :=
    isSome_drain (by simpa using hfuel)
  rwa [← (connectOrphans_spec acceptVerdict fuel hst hqueue).1, Option.isSome_map] at hsome

end Connect
end BitBay
