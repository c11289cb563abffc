import BitBay.Governance.MapItems
import BitBay.Governance.NotaryForms
import BitBay.Governance.Tally
import BitBay.Library.Run

/-!
# The votes of a block

`CalculateBlockBridgeVotes` reads the notaries of a coinstake. An output that makes up a
proposal is stored as a vote of its block, with the staker that the vote is credited to. What
`ConnectConsensusStates` counts at the end of a cycle are the votes that were stored so
(`writeCycle_votes`).
-/
namespace BitBay

structure ProposalStore extends VoteStore where
  /-- `ReadCycleProposals`, by the first block of the cycle. -/
  cycleProposals : UInt256 → Finset CString
  /-- The text that `ReadProposal` splits. -/
  proposal : CString → Option CString

/-- A block with its coinstake, the block that its cycle starts with and the bridges there are. -/
structure VotingBlock where
  bhash : UInt256
  chash : UInt256
  stake : CTransaction
  staker_addr : CString
  bridges : BridgesMap

section Model

variable (net : Params) (env : NotaryEnv) (block : VotingBlock)

def writeVote (pegdb : ProposalStore) (i : ℕ) (r : NotaryResult) : ProposalStore :=
  let txoutid := txoutText (net.getHash block.stake) i
  let known := r.phash ∈ pegdb.cycleProposals block.chash
  { cycleProposals := Function.update pegdb.cycleProposals block.chash
      (insert r.phash (pegdb.cycleProposals block.chash))
    proposal :=
      if known ∨ (pegdb.proposal r.phash).isSome then pegdb.proposal
      else Function.update pegdb.proposal r.phash (some (CString.join ',' r.pdatas))
    proposalBlockVotes := fun bhash phash =>
      if bhash = block.bhash ∧ phash = r.phash then
        insert txoutid (pegdb.proposalBlockVotes bhash phash)
      else pegdb.proposalBlockVotes bhash phash
    proposalBlockVoteStaker := Function.update pegdb.proposalBlockVoteStaker txoutid
      (some (addressVoter block.staker_addr r.address_override)) }

def countOutput (pegdb : ProposalStore) (o : CTxOut × ℕ) : Except StdException ProposalStore :=
  match o.1.scriptPubKey.toNotary with
  | none => .ok pegdb
  | some notary => do
    let r ← env.notaryToProposal block.bridges notary [] []
    if r.phash = [] then return pegdb else return writeVote net block pegdb o.2 r

/-- `CalculateBlockBridgeVotes` without the burns, for a database that takes every record. -/
def calculateBlockBridgeVotes (pegdb : ProposalStore) (block : VotingBlock) :
    Except StdException ProposalStore :=
  if block.staker_addr = [] then .ok pegdb
  else block.stake.vout.zipIdx.foldlM (countOutput net env block) pegdb

/-! ## What is cast -/

def VotingBlock.outputVote (out : CTxOut) : Option (CString × Voter) := do
  let notary ← out.scriptPubKey.toNotary
  let r ← (env.notaryToProposal block.bridges notary [] []).toOption
  if r.phash = [] then none else some (r.phash, castVote block.staker_addr r.address_override)

def VotingBlock.votes (pro_id : CString) : List Voter :=
  if block.staker_addr = [] then []
  else (block.stake.vout.filterMap (block.outputVote env)).filterMap fun vote =>
    if vote.1 = pro_id then some vote.2 else none

/-- The store has no votes yet of the blocks of a cycle. The blocks and their coinstakes are
distinct, and the stakers have addresses. -/
structure FreshCycle (pegdb : ProposalStore) (cycle : List VotingBlock) : Prop where
  blocks : (cycle.map (·.bhash)).Nodup
  stakes : (cycle.map fun block => net.getHash block.stake).Nodup
  unwritten : ∀ block ∈ cycle, ∀ phash, pegdb.proposalBlockVotes block.bhash phash = ∅
  stakers : ∀ block ∈ cycle, block.staker_addr.startsWith "S:" = false

end Model

/-! ## What is stored -/

variable {net : Params} {env : NotaryEnv} {block other : VotingBlock} {pegdb pegdb' : ProposalStore}
  {cycle : List VotingBlock} {o : CTxOut × ℕ} {v : Voter} {pro_id : CString}

theorem txoutText_inj {a b : UInt256} {i j : ℕ} (h : txoutText a i = txoutText b j) :
    a = b ∧ i = j := by
  unfold txoutText at h
  have hlength : (getHex a).length = (getHex b).length := by rw [length_getHex, length_getHex]
  obtain ⟨hhash, hrest⟩ := List.append_inj h hlength
  have hindex := CString.ofInt_injective (List.cons.inj hrest).2
  exact ⟨getHex_injective hhash, Int.ofNat.inj hindex⟩

/-- The votes of the outputs `done` of a block, as the store holds them. -/
structure VotesStored (net : Params) (env : NotaryEnv) (block : VotingBlock)
    (done : List (CTxOut × ℕ)) (pegdb : VoteStore) : Prop where
  votes : ∀ phash txoutid, txoutid ∈ pegdb.proposalBlockVotes block.bhash phash ↔
    ∃ o ∈ done, ∃ v, block.outputVote env o.1 = some (phash, v) ∧
      txoutid = txoutText (net.getHash block.stake) o.2
  stakers : ∀ o ∈ done, ∀ phash v, block.outputVote env o.1 = some (phash, v) →
    pegdb.proposalBlockVoteStaker (txoutText (net.getHash block.stake) o.2) = some v.staker

/-- An output writes its vote or nothing. -/
theorem countOutput_ok (h : countOutput net env block pegdb o = .ok pegdb') :
    block.outputVote env o.1 = none ∧ pegdb' = pegdb ∨
      ∃ r, block.outputVote env o.1 =
          some (r.phash, castVote block.staker_addr r.address_override) ∧
        pegdb' = writeVote net block pegdb o.2 r := by
  unfold countOutput at h
  unfold VotingBlock.outputVote
  cases hnotary : o.1.scriptPubKey.toNotary with
  | none =>
    rw [hnotary] at h
    exact Or.inl ⟨rfl, (Except.ok.inj h).symm⟩
  | some notary =>
    rw [hnotary] at h
    dsimp only at h
    cases hr : env.notaryToProposal block.bridges notary [] [] with
    | error e =>
      rw [hr] at h
      cases h
    | ok r =>
      rw [hr, ok_bind] at h
      by_cases hphash : r.phash = []
      · rw [if_pos hphash] at h
        refine Or.inl ⟨?_, (Except.ok.inj h).symm⟩
        simp [Except.toOption, hr, hphash]
      · rw [if_neg hphash] at h
        refine Or.inr ⟨r, ?_, (Except.ok.inj h).symm⟩
        simp [Except.toOption, hr, hphash]

/-- One output more. -/
theorem VotesStored.output {done : List (CTxOut × ℕ)}
    (h : VotesStored net env block done pegdb.toVoteStore)
    (hnew : o.2 ∉ done.map Prod.snd) (hstep : countOutput net env block pegdb o = .ok pegdb') :
    VotesStored net env block (done ++ [o]) pegdb'.toVoteStore := by
  rcases countOutput_ok hstep with ⟨hnone, rfl⟩ | ⟨r, hvote, rfl⟩
  · refine ⟨fun phash txoutid => ?_, fun o' ho' phash v hv => ?_⟩
    · rw [h.votes]
      simp [List.mem_append, or_and_right, exists_or, hnone]
    · rcases List.mem_append.mp ho' with ho' | ho'
      · exact h.stakers o' ho' phash v hv
      · rw [List.mem_singleton.mp ho', hnone] at hv
        cases hv
  · refine ⟨fun phash txoutid => ?_, fun o' ho' phash v hv => ?_⟩
    · have hsplit : (∃ o' ∈ done ++ [o], ∃ v, block.outputVote env o'.1 = some (phash, v) ∧
          txoutid = txoutText (net.getHash block.stake) o'.2) ↔
          txoutid ∈ pegdb.proposalBlockVotes block.bhash phash ∨ phash = r.phash ∧
            txoutid = txoutText (net.getHash block.stake) o.2 := by
        rw [h.votes]
        simp only [List.mem_append, List.mem_singleton, or_and_right, exists_or, exists_eq_left,
          hvote, Option.some.injEq, Prod.mk.injEq]
        refine or_congr_right ⟨?_, ?_⟩
        · rintro ⟨v, ⟨rfl, -⟩, ht⟩
          exact ⟨rfl, ht⟩
        · rintro ⟨rfl, ht⟩
          exact ⟨_, ⟨rfl, rfl⟩, ht⟩
      rw [hsplit]
      simp only [writeVote, true_and]
      split_ifs with hsame
      · rw [Finset.mem_insert, or_comm]
        simp [hsame]
      · simp [hsame]
    · simp only [writeVote]
      rcases List.mem_append.mp ho' with ho' | ho'
      · rw [Function.update_of_ne]
        · exact h.stakers o' ho' phash v hv
        · intro heq
          exact hnew (List.mem_map.mpr ⟨o', ho', (txoutText_inj heq).2⟩)
      · obtain rfl := List.mem_singleton.mp ho'
        rw [hvote, Option.some.injEq, Prod.mk.injEq] at hv
        rw [Function.update_self, ← hv.2, staker_castVote]

structure Untouched (net : Params) (block : VotingBlock) (pegdb pegdb' : VoteStore) : Prop where
  votes : pegdb'.proposalBlockVotes block.bhash = pegdb.proposalBlockVotes block.bhash
  stakers : ∀ i, pegdb'.proposalBlockVoteStaker (txoutText (net.getHash block.stake) i) =
    pegdb.proposalBlockVoteStaker (txoutText (net.getHash block.stake) i)

theorem countOutput_untouched (hblock : block.bhash ≠ other.bhash)
    (hstake : net.getHash block.stake ≠ net.getHash other.stake)
    (h : countOutput net env other pegdb o = .ok pegdb') :
    Untouched net block pegdb.toVoteStore pegdb'.toVoteStore := by
  rcases countOutput_ok h with ⟨-, rfl⟩ | ⟨r, -, rfl⟩
  · exact ⟨rfl, fun _ => rfl⟩
  · refine ⟨?_, fun i => ?_⟩
    · funext phash
      simp [writeVote, hblock]
    · simp only [writeVote]
      rw [Function.update_of_ne]
      exact fun heq => hstake (txoutText_inj heq).1

theorem VotesStored.untouched {done : List (CTxOut × ℕ)} {pegdb pegdb' : VoteStore}
    (h : VotesStored net env block done pegdb) (hkept : Untouched net block pegdb pegdb') :
    VotesStored net env block done pegdb' := by
  refine ⟨fun phash txoutid => ?_, fun o ho phash v hv => ?_⟩
  · rw [hkept.votes]
    exact h.votes phash txoutid
  · rw [hkept.stakers]
    exact h.stakers o ho phash v hv

def VotingBlock.seen (block : VotingBlock) : List (CTxOut × ℕ) :=
  if block.staker_addr = [] then [] else block.stake.vout.zipIdx

theorem VotesStored.block_of_empty (hempty : ∀ phash, pegdb.proposalBlockVotes block.bhash phash = ∅)
    (h : calculateBlockBridgeVotes net env pegdb block = .ok pegdb') :
    VotesStored net env block block.seen pegdb'.toVoteStore := by
  have hstart : VotesStored net env block [] pegdb.toVoteStore :=
    ⟨fun phash txoutid => by simp [hempty], fun o ho => absurd ho List.not_mem_nil⟩
  unfold calculateBlockBridgeVotes at h
  unfold VotingBlock.seen
  split_ifs at h ⊢ with hstaker
  · cases h
    exact hstart
  · have hindices : (block.stake.vout.zipIdx.map Prod.snd).Nodup := by
      rw [List.zipIdx_map_snd]
      exact List.nodup_range'
    have hrun := Run.foldlM_rule
      (P := fun rest s => ∃ done, block.stake.vout.zipIdx = done ++ rest ∧
        VotesStored net env block done s.toVoteStore)
      (fun o rest s s' hs hstep => ?_) ⟨[], rfl, hstart⟩ h
    · obtain ⟨done, hdone, hstored⟩ := hrun
      rw [hdone, List.append_nil]
      exact hstored
    · obtain ⟨done, hdone, hstored⟩ := hs
      refine ⟨done ++ [o], by rw [hdone, List.append_assoc]; rfl, hstored.output ?_ hstep⟩
      rw [hdone, List.map_append, List.map_cons] at hindices
      exact fun hmem => List.disjoint_of_nodup_append hindices hmem List.mem_cons_self

theorem calculateBlockBridgeVotes_untouched (hblock : block.bhash ≠ other.bhash)
    (hstake : net.getHash block.stake ≠ net.getHash other.stake)
    (h : calculateBlockBridgeVotes net env pegdb other = .ok pegdb') :
    Untouched net block pegdb.toVoteStore pegdb'.toVoteStore := by
  unfold calculateBlockBridgeVotes at h
  split_ifs at h with hstaker
  · cases h
    exact ⟨rfl, fun _ => rfl⟩
  · refine Run.foldlM_invariant
      (P := fun s : ProposalStore => Untouched net block pegdb.toVoteStore s.toVoteStore) ?_
      ⟨rfl, fun _ => rfl⟩ h
    intro o _ s s' hs hstep
    have hnext := countOutput_untouched hblock hstake hstep
    exact ⟨hnext.votes.trans hs.votes, fun i => (hnext.stakers i).trans (hs.stakers i)⟩

/-- A block of a cycle and one that comes after it differ. -/
theorem FreshCycle.ne_of_split (h : FreshCycle net pegdb cycle) {before after : List VotingBlock}
    (hsplit : cycle = before ++ after) (hblock : block ∈ before) (hother : other ∈ after) :
    block.bhash ≠ other.bhash ∧ net.getHash block.stake ≠ net.getHash other.stake := by
  have hblocks := h.blocks
  have hstakes := h.stakes
  rw [hsplit, List.map_append] at hblocks hstakes
  exact ⟨(List.nodup_append.mp hblocks).2.2 _ (List.mem_map.mpr ⟨block, hblock, rfl⟩) _
      (List.mem_map.mpr ⟨other, hother, rfl⟩),
    (List.nodup_append.mp hstakes).2.2 _ (List.mem_map.mpr ⟨block, hblock, rfl⟩) _
      (List.mem_map.mpr ⟨other, hother, rfl⟩)⟩

/-- The votes of every block of a cycle are stored. -/
theorem cycle_stored (hfresh : FreshCycle net pegdb cycle)
    (h : cycle.foldlM (calculateBlockBridgeVotes net env) pegdb = .ok pegdb') :
    ∀ block ∈ cycle, VotesStored net env block block.seen pegdb'.toVoteStore := by
  have hrun := Run.foldlM_rule
    (P := fun rest s => ∃ done, cycle = done ++ rest ∧
      (∀ block ∈ done, VotesStored net env block block.seen s.toVoteStore) ∧
      ∀ block ∈ rest, ∀ phash, s.proposalBlockVotes block.bhash phash = ∅)
    (fun block rest s s' hs hstep => ?_)
    ⟨[], rfl, fun block hmem => absurd hmem List.not_mem_nil, hfresh.unwritten⟩ h
  · obtain ⟨done, hdone, hstored, -⟩ := hrun
    intro block hblock
    rw [hdone, List.append_nil] at hblock
    exact hstored block hblock
  · obtain ⟨done, hdone, hstored, hempty⟩ := hs
    have hnext : cycle = (done ++ [block]) ++ rest := by
      rw [hdone, List.append_assoc]
      rfl
    refine ⟨done ++ [block], hnext, fun b hb => ?_, fun b hb phash => ?_⟩
    · rcases List.mem_append.mp hb with hb | hb
      · obtain ⟨hne, hne'⟩ := hfresh.ne_of_split hdone hb List.mem_cons_self
        exact (hstored b hb).untouched (calculateBlockBridgeVotes_untouched hne hne' hstep)
      · obtain rfl := List.mem_singleton.mp hb
        exact .block_of_empty (hempty _ List.mem_cons_self) hstep
    · obtain ⟨hne, hne'⟩ := hfresh.ne_of_split hnext
        (List.mem_append_right _ (List.mem_singleton_self block)) hb
      have hkept := calculateBlockBridgeVotes_untouched hne.symm hne'.symm hstep
      rw [hkept.votes]
      exact hempty b (List.mem_cons_of_mem _ hb) phash

/-! ## What is counted -/

theorem Voter.staker_inj {v w : Voter} (hv : v.Plain) (hw : w.Plain) (h : v.staker = w.staker) :
    v = w := by
  have hread := Voter.ofStaker_eq_iff.mpr ⟨rfl, hv⟩
  rw [h] at hread
  exact hread.symm.trans (Voter.ofStaker_eq_iff.mpr ⟨rfl, hw⟩)

theorem outputVote_plain {out : CTxOut} {phash : CString}
    (hstaker : block.staker_addr.startsWith "S:" = false)
    (h : block.outputVote env out = some (phash, v)) : v.Plain := by
  simp only [VotingBlock.outputVote, Option.bind_eq_bind, Option.bind_eq_some_iff] at h
  obtain ⟨notary, -, r, -, h⟩ := h
  split_ifs at h
  cases h
  exact castVote_plain hstaker r.address_override

/-- The ballots that are stored for a vote are the outputs that cast it. -/
theorem VotesStored.ballots_eq {pegdb : VoteStore} (hv : v.Plain)
    (hstaker : block.staker_addr.startsWith "S:" = false)
    (h : VotesStored net env block block.seen pegdb) :
    pegdb.ballots pro_id block.bhash v =
      ((block.seen.filter fun o => block.outputVote env o.1 = some (pro_id, v)).map
        fun o => txoutText (net.getHash block.stake) o.2).toFinset := by
  ext txoutid
  simp only [VoteStore.ballots, Finset.mem_filter, h.votes, List.mem_toFinset, List.mem_map,
    List.mem_filter, decide_eq_true_eq]
  constructor
  · rintro ⟨⟨o, ho, w, hw, rfl⟩, hread⟩
    rw [h.stakers o ho pro_id w hw, Option.some.injEq] at hread
    obtain rfl := Voter.staker_inj (outputVote_plain hstaker hw) hv hread
    exact ⟨o, ⟨ho, hw⟩, rfl⟩
  · rintro ⟨o, ⟨ho, hvote⟩, rfl⟩
    exact ⟨⟨o, ho, v, hvote, rfl⟩, h.stakers o ho pro_id v hvote⟩

theorem VotesStored.card_ballots {pegdb : VoteStore} (hv : v.Plain)
    (hstaker : block.staker_addr.startsWith "S:" = false)
    (h : VotesStored net env block block.seen pegdb) :
    (pegdb.ballots pro_id block.bhash v).card = (block.votes env pro_id).count v := by
  have hindices : (block.seen.map Prod.snd).Nodup := by
    unfold VotingBlock.seen
    split_ifs
    · exact List.nodup_nil
    · rw [List.zipIdx_map_snd]
      exact List.nodup_range'
  have hnodup : ((block.seen.filter fun o => block.outputVote env o.1 = some (pro_id, v)).map
      fun o => txoutText (net.getHash block.stake) o.2).Nodup := by
    have hsub := (List.filter_sublist
      (p := fun o => decide (block.outputVote env o.1 = some (pro_id, v)))
      (l := block.seen)).map Prod.snd
    have hmap := (hsub.nodup hindices).map (f := txoutText (net.getHash block.stake))
      (fun i j hij => (txoutText_inj hij).2)
    rwa [List.map_map] at hmap
  rw [h.ballots_eq hv hstaker, List.toFinset_card_of_nodup hnodup, List.length_map,
    ← List.countP_eq_length_filter]
  unfold VotingBlock.seen VotingBlock.votes
  split_ifs
  · rfl
  · rw [List.count, List.countP_filterMap, List.countP_filterMap]
    have hfst : block.stake.vout = block.stake.vout.zipIdx.map Prod.fst := by
      rw [List.zipIdx_map_fst]
    conv_rhs => rw [hfst, List.countP_map]
    refine List.countP_congr fun o _ => ?_
    cases hvote : block.outputVote env o.1 with
    | none => simp [hvote]
    | some vote =>
      obtain ⟨phash, w⟩ := vote
      by_cases hphash : phash = pro_id
      · simp [hvote, hphash]
      · simp [hvote, hphash]

/-- A cycle that is written holds every vote as often as its blocks cast it. -/
theorem writeCycle_votes (hfresh : FreshCycle net pegdb cycle)
    (h : cycle.foldlM (calculateBlockBridgeVotes net env) pegdb = .ok pegdb') (hv : v.Plain) :
    pegdb'.countBallots pro_id (cycle.map (·.bhash)) v =
      (cycle.map fun block => (block.votes env pro_id).count v).sum := by
  rw [VoteStore.countBallots, List.map_map]
  refine congrArg List.sum (List.map_congr_left fun block hblock => ?_)
  exact (cycle_stored hfresh h block hblock).card_ballots hv (hfresh.stakers block hblock)

/-- A trusted address counts once, in one category, however often and in whatever way it
votes, and the votes are those that the blocks of the cycle cast. -/
theorem proVotes_counts_once (tstakers1 tstakers2 : Finset CString) (pegdb : VoteStore)
    (pro_id : CString) (blocks : List UInt256) :
    (proVotes tstakers1 tstakers2 pegdb pro_id blocks).tstakers1 =
      (tstakers1.filter (pegdb.HasVoted pro_id blocks)).card ∧
    (proVotes tstakers1 tstakers2 pegdb pro_id blocks).tstakers2 =
      ((tstakers2 \ tstakers1).filter (pegdb.HasVoted pro_id blocks)).card ∧
    (∀ a, (proVotes tstakers1 tstakers2 pegdb pro_id blocks).OneCategory
      (proVotes tstakers1 tstakers2 (pegdb.without a) pro_id blocks)) ∧
    (∀ pegdb' pro_id' blocks',
      (∀ a ∈ tstakers1 ∪ tstakers2,
        (pegdb'.HasVoted pro_id' blocks' a ↔ pegdb.HasVoted pro_id blocks a)) →
      (∀ v : Voter, v.Plain → v.address ∉ tstakers1 ∪ tstakers2 →
        pegdb'.countBallots pro_id' blocks' v = pegdb.countBallots pro_id blocks v) →
      proVotes tstakers1 tstakers2 pegdb' pro_id' blocks' =
        proVotes tstakers1 tstakers2 pegdb pro_id blocks) ∧
    ∀ net env (start written : ProposalStore) cycle, FreshCycle net start cycle →
      cycle.foldlM (calculateBlockBridgeVotes net env) start = .ok written →
      ∀ v : Voter, v.Plain → written.countBallots pro_id (cycle.map (·.bhash)) v =
        (cycle.map fun block => (block.votes env pro_id).count v).sum := by
  refine ⟨by rw [proVotes_eq], by rw [proVotes_eq], fun a => proVotes_without a, ?_, ?_⟩
  · intro pegdb' pro_id' blocks' htrusted huntrusted
    exact proVotes_congr htrusted huntrusted
  · intro net env start written cycle hfresh hwritten v hv
    exact writeCycle_votes hfresh hwritten hv

end BitBay
