import BitBay.Base.Types

/-!
# The vote count of a proposal

A staker votes with an output of its coinstake, directly or on behalf of another address.
`ConnectConsensusStates` walks the blocks of a voting cycle, reads the staker that each vote
output is stored under, and counts it as a vote of the first or second trusted set or of the
others. Three sets keep who has voted already.
-/
namespace BitBay

/-- Votes of the two trusted sets and of other stakers, counted or needed. -/
@[ext] structure ConsensusVotes where
  tstakers1 : ℤ := 0
  tstakers2 : ℤ := 0
  ostakers : ℤ := 0
  deriving DecidableEq

def isAccepted (voted needed : ConsensusVotes) : Bool :=
  needed.tstakers1 ≤ voted.tstakers1 ∧ needed.tstakers2 ≤ voted.tstakers2 ∧
    needed.ostakers ≤ voted.ostakers

/-- The vote outputs of every block, and the staker stored for an output. -/
structure VoteStore where
  /-- `ReadProposalBlockVotes`, by block and proposal. -/
  proposalBlockVotes : UInt256 → CString → Finset CString
  /-- `ReadProposalBlockVoteStaker`. -/
  proposalBlockVoteStaker : CString → Option CString

/-- The staker string of a vote: an address that is named by another staker has a prefix. -/
def addressVoter (staker_addr address_override : CString) : CString :=
  if address_override ≠ [] ∧ address_override ≠ "invalid".toList then
    "S:".toList ++ address_override
  else staker_addr

/-- A staker string without its prefix, with the mark that it had one. -/
structure Voter where
  onbehalf : Bool
  address : CString
  deriving DecidableEq

def Voter.ofStaker (staker : CString) : Voter :=
  if staker.startsWith "S:" then ⟨true, staker.drop 2⟩ else ⟨false, staker⟩

structure Tally where
  onbehalf_voted : Finset CString := ∅
  tstakers1_voted : Finset CString := ∅
  tstakers2_voted : Finset CString := ∅
  pro_votes : ConsensusVotes := {}

section Model

variable (tstakers1 tstakers2 : Finset CString)

def Tally.countAddress (t : Tally) (staker : CString) : Tally :=
  if staker ∈ t.tstakers1_voted then t
  else if staker ∈ t.tstakers2_voted then t
  else if staker ∈ tstakers1 then
    { t with
      tstakers1_voted := insert staker t.tstakers1_voted
      pro_votes := { t.pro_votes with tstakers1 := t.pro_votes.tstakers1 + 1 } }
  else if staker ∈ tstakers2 then
    { t with
      tstakers2_voted := insert staker t.tstakers2_voted
      pro_votes := { t.pro_votes with tstakers2 := t.pro_votes.tstakers2 + 1 } }
  else { t with pro_votes := { t.pro_votes with ostakers := t.pro_votes.ostakers + 1 } }

def Tally.countVote (t : Tally) (v : Voter) : Tally :=
  if v.onbehalf then
    if v.address ∈ t.onbehalf_voted then t
    else
      Tally.countAddress tstakers1 tstakers2
        { t with onbehalf_voted := insert v.address t.onbehalf_voted } v.address
  else t.countAddress tstakers1 tstakers2 v.address

/-- The voters of a cycle in the order of the loop: block by block, and in a block in the
order of the strings. Outputs without a stored staker are passed over. -/
def cycleVoters (pegdb : VoteStore) (pro_id : CString) (blocks : List UInt256) : List Voter :=
  blocks.flatMap fun bhash =>
    ((pegdb.proposalBlockVotes bhash pro_id).sort.filterMap pegdb.proposalBlockVoteStaker).map
      Voter.ofStaker

def proVotes (pegdb : VoteStore) (pro_id : CString) (blocks : List UInt256) : ConsensusVotes :=
  ((cycleVoters pegdb pro_id blocks).foldl (Tally.countVote tstakers1 tstakers2) {}).pro_votes

end Model

/-! ## What is counted -/

def votersOf (votes : List Voter) : Finset CString := (votes.map (·.address)).toFinset

def onbehalfOf (votes : List Voter) : Finset CString := votersOf (votes.filter (·.onbehalf))

variable {tstakers1 tstakers2 : Finset CString} {votes votes' : List Voter} {v : Voter}
  {t : Tally}

/-- The number of votes of untrusted addresses: a direct vote counts for itself, an address
that is named counts once. -/
def otherVotes (tstakers1 tstakers2 : Finset CString) (votes : List Voter) : ℕ :=
  votes.countP (fun v => !v.onbehalf ∧ v.address ∉ tstakers1 ∪ tstakers2) +
    (onbehalfOf votes \ (tstakers1 ∪ tstakers2)).card

@[simp] theorem votersOf_append : votersOf (votes ++ votes') = votersOf votes ∪ votersOf votes' := by
  simp [votersOf]

@[simp] theorem votersOf_singleton : votersOf [v] = {v.address} := rfl

theorem onbehalfOf_subset : onbehalfOf votes ⊆ votersOf votes := by
  intro a ha
  simp only [onbehalfOf, votersOf, List.mem_toFinset, List.mem_map, List.mem_filter] at ha ⊢
  obtain ⟨v, ⟨hv, -⟩, rfl⟩ := ha
  exact ⟨v, hv, rfl⟩

theorem mem_votersOf {a : CString} : a ∈ votersOf votes ↔ ∃ v ∈ votes, v.address = a := by
  simp [votersOf]

theorem mem_onbehalfOf {a : CString} : a ∈ onbehalfOf votes ↔ ⟨true, a⟩ ∈ votes := by
  simp only [onbehalfOf, mem_votersOf, List.mem_filter]
  constructor
  · rintro ⟨⟨onbehalf, address⟩, ⟨hv, honbehalf⟩, rfl⟩
    exact honbehalf ▸ hv
  · intro ha
    exact ⟨_, ⟨ha, rfl⟩, rfl⟩

theorem votersOf_concat : votersOf (votes ++ [v]) = insert v.address (votersOf votes) := by
  rw [votersOf_append, votersOf_singleton, Finset.union_comm]
  rfl

theorem onbehalfOf_concat_direct (h : v.onbehalf = false) :
    onbehalfOf (votes ++ [v]) = onbehalfOf votes := by
  simp [onbehalfOf, h]

theorem onbehalfOf_concat (h : v.onbehalf = true) :
    onbehalfOf (votes ++ [v]) = insert v.address (onbehalfOf votes) := by
  rw [onbehalfOf, List.filter_append, List.filter_singleton, h, cond_true, votersOf_concat]
  rfl

theorem otherVotes_concat_trusted (h : v.address ∈ tstakers1 ∪ tstakers2) :
    otherVotes tstakers1 tstakers2 (votes ++ [v]) = otherVotes tstakers1 tstakers2 votes := by
  have hothers : onbehalfOf (votes ++ [v]) \ (tstakers1 ∪ tstakers2) =
      onbehalfOf votes \ (tstakers1 ∪ tstakers2) := by
    cases honbehalf : v.onbehalf with
    | false => rw [onbehalfOf_concat_direct honbehalf]
    | true => rw [onbehalfOf_concat honbehalf, Finset.insert_sdiff_of_mem _ h]
  rw [otherVotes, otherVotes, hothers, List.countP_append, List.countP_singleton]
  simp [h]

theorem otherVotes_concat_direct (h : v.address ∉ tstakers1 ∪ tstakers2)
    (honbehalf : v.onbehalf = false) :
    otherVotes tstakers1 tstakers2 (votes ++ [v]) = otherVotes tstakers1 tstakers2 votes + 1 := by
  rw [otherVotes, otherVotes, onbehalfOf_concat_direct honbehalf, List.countP_append,
    List.countP_singleton, if_pos (by simp [honbehalf, h])]
  omega

theorem otherVotes_concat_named (h : v.address ∉ tstakers1 ∪ tstakers2)
    (honbehalf : v.onbehalf = true) :
    otherVotes tstakers1 tstakers2 (votes ++ [v]) = otherVotes tstakers1 tstakers2 votes +
      if v.address ∈ onbehalfOf votes then 0 else 1 := by
  rw [otherVotes, otherVotes, onbehalfOf_concat honbehalf, List.countP_append,
    List.countP_singleton, if_neg (by simp [honbehalf]), Finset.insert_sdiff_of_notMem _ h,
    Finset.card_insert_eq_ite]
  by_cases hseen : v.address ∈ onbehalfOf votes
  · rw [if_pos (Finset.mem_sdiff.mpr ⟨hseen, h⟩), if_pos hseen]
    omega
  · rw [if_neg fun hmem => hseen (Finset.mem_sdiff.mp hmem).1, if_neg hseen]
    omega

structure Tally.Counted (tstakers1 tstakers2 : Finset CString) (votes : List Voter)
    (t : Tally) : Prop where
  onbehalf : t.onbehalf_voted = onbehalfOf votes
  voted1 : t.tstakers1_voted = votersOf votes ∩ tstakers1
  voted2 : t.tstakers2_voted = votersOf votes ∩ (tstakers2 \ tstakers1)
  count1 : t.pro_votes.tstakers1 = (votersOf votes ∩ tstakers1).card
  count2 : t.pro_votes.tstakers2 = (votersOf votes ∩ (tstakers2 \ tstakers1)).card
  others : t.pro_votes.ostakers = otherVotes tstakers1 tstakers2 votes

/-- A vote of an address whose vote is in one of the trusted sets already. -/
theorem Tally.Counted.again (h : t.Counted tstakers1 tstakers2 votes)
    (hvoted : v.address ∈ votersOf votes) (htrusted : v.address ∈ tstakers1 ∪ tstakers2)
    {onbehalf_voted : Finset CString} (hset : onbehalf_voted = onbehalfOf (votes ++ [v])) :
    { t with onbehalf_voted := onbehalf_voted }.Counted tstakers1 tstakers2 (votes ++ [v]) := by
  have hsame : votersOf (votes ++ [v]) = votersOf votes := by
    rw [votersOf_concat, Finset.insert_eq_of_mem hvoted]
  refine ⟨hset, ?_, ?_, ?_, ?_, ?_⟩
  · rw [hsame]
    exact h.voted1
  · rw [hsame]
    exact h.voted2
  · rw [hsame]
    exact h.count1
  · rw [hsame]
    exact h.count2
  · rw [otherVotes_concat_trusted htrusted]
    exact h.others

/-- The part of the loop behind the prefix: `onbehalf_voted` is up to date already. -/
theorem Tally.Counted.countAddress (h : t.Counted tstakers1 tstakers2 votes)
    {onbehalf_voted : Finset CString} (hset : onbehalf_voted = onbehalfOf (votes ++ [v]))
    (hothers : v.address ∉ tstakers1 ∪ tstakers2 →
      otherVotes tstakers1 tstakers2 (votes ++ [v]) = otherVotes tstakers1 tstakers2 votes + 1) :
    (Tally.countAddress tstakers1 tstakers2 { t with onbehalf_voted := onbehalf_voted }
      v.address).Counted tstakers1 tstakers2 (votes ++ [v]) := by
  have hconcat : votersOf (votes ++ [v]) = insert v.address (votersOf votes) := votersOf_concat
  unfold Tally.countAddress
  split_ifs with hvoted1 hvoted2 hmem1 hmem2
  · rw [h.voted1, Finset.mem_inter] at hvoted1
    exact h.again hvoted1.1 (Finset.mem_union_left _ hvoted1.2) hset
  · rw [h.voted2, Finset.mem_inter, Finset.mem_sdiff] at hvoted2
    exact h.again hvoted2.1 (Finset.mem_union_right _ hvoted2.2.1) hset
  · -- A first vote of the first set.
    have hnew : v.address ∉ votersOf votes ∩ tstakers1 := h.voted1 ▸ hvoted1
    have hother : v.address ∉ tstakers2 \ tstakers1 := by grind
    refine ⟨hset, ?_, ?_, ?_, ?_, ?_⟩
    · rw [hconcat, Finset.insert_inter_of_mem hmem1, h.voted1]
    · rw [hconcat, Finset.insert_inter_of_notMem hother, h.voted2]
    · rw [hconcat, Finset.insert_inter_of_mem hmem1, Finset.card_insert_of_notMem hnew, h.count1]
      norm_cast
    · rw [hconcat, Finset.insert_inter_of_notMem hother, h.count2]
    · rw [otherVotes_concat_trusted (Finset.mem_union_left _ hmem1), h.others]
  · -- A first vote of the second set.
    have hnew : v.address ∉ votersOf votes ∩ (tstakers2 \ tstakers1) := h.voted2 ▸ hvoted2
    have hmem : v.address ∈ tstakers2 \ tstakers1 := Finset.mem_sdiff.mpr ⟨hmem2, hmem1⟩
    refine ⟨hset, ?_, ?_, ?_, ?_, ?_⟩
    · rw [hconcat, Finset.insert_inter_of_notMem hmem1, h.voted1]
    · rw [hconcat, Finset.insert_inter_of_mem hmem, h.voted2]
    · rw [hconcat, Finset.insert_inter_of_notMem hmem1, h.count1]
    · rw [hconcat, Finset.insert_inter_of_mem hmem, Finset.card_insert_of_notMem hnew, h.count2]
      norm_cast
    · rw [otherVotes_concat_trusted (Finset.mem_union_right _ hmem2), h.others]
  · -- A vote of an address in neither set.
    have hother : v.address ∉ tstakers2 \ tstakers1 := by grind
    refine ⟨hset, ?_, ?_, ?_, ?_, ?_⟩
    · rw [hconcat, Finset.insert_inter_of_notMem hmem1, h.voted1]
    · rw [hconcat, Finset.insert_inter_of_notMem hother, h.voted2]
    · rw [hconcat, Finset.insert_inter_of_notMem hmem1, h.count1]
    · rw [hconcat, Finset.insert_inter_of_notMem hother, h.count2]
    · rw [hothers (by grind), h.others]
      norm_cast

/-- One more vote. -/
theorem Tally.Counted.countVote (h : t.Counted tstakers1 tstakers2 votes) (v : Voter) :
    (t.countVote tstakers1 tstakers2 v).Counted tstakers1 tstakers2 (votes ++ [v]) := by
  unfold Tally.countVote
  split_ifs with honbehalf hseen
  · -- The address was named before, so it has voted and nothing is counted.
    rw [h.onbehalf] at hseen
    have hset : t.onbehalf_voted = onbehalfOf (votes ++ [v]) := by
      rw [onbehalfOf_concat honbehalf, Finset.insert_eq_of_mem hseen, h.onbehalf]
    by_cases htrusted : v.address ∈ tstakers1 ∪ tstakers2
    · exact h.again (onbehalfOf_subset hseen) htrusted hset
    · have hsame : votersOf (votes ++ [v]) = votersOf votes := by
        rw [votersOf_concat, Finset.insert_eq_of_mem (onbehalfOf_subset hseen)]
      refine ⟨hset, ?_, ?_, ?_, ?_, ?_⟩
      · rw [hsame, h.voted1]
      · rw [hsame, h.voted2]
      · rw [hsame, h.count1]
      · rw [hsame, h.count2]
      · rw [otherVotes_concat_named htrusted honbehalf, if_pos hseen, h.others, Nat.add_zero]
  · rw [h.onbehalf] at hseen
    apply h.countAddress
    · rw [onbehalfOf_concat honbehalf, h.onbehalf]
    · intro huntrusted
      rw [otherVotes_concat_named huntrusted honbehalf, if_neg hseen]
  · have hdirect : v.onbehalf = false := by simpa using honbehalf
    apply h.countAddress
    · rw [onbehalfOf_concat_direct hdirect, h.onbehalf]
    · intro huntrusted
      exact otherVotes_concat_direct huntrusted hdirect

/-- The loop over all votes, by induction from the last vote down. -/
theorem Tally.counted (tstakers1 tstakers2 : Finset CString) (votes : List Voter) :
    (votes.foldl (Tally.countVote tstakers1 tstakers2) {}).Counted tstakers1 tstakers2 votes := by
  induction votes using List.reverseRecOn with
  | nil =>
    refine ⟨rfl, rfl, rfl, rfl, rfl, ?_⟩
    simp [otherVotes, onbehalfOf, votersOf]
  | append_singleton votes v ih =>
    rw [List.foldl_append]
    exact ih.countVote v

/-! ## Votes in the store -/

def Voter.staker (v : Voter) : CString :=
  if v.onbehalf then "S:".toList ++ v.address else v.address

/-- The vote of a staker, credited to the address that its notary names. -/
def castVote (staker_addr address_override : CString) : Voter :=
  if address_override ≠ [] ∧ address_override ≠ "invalid".toList then ⟨true, address_override⟩
  else ⟨false, staker_addr⟩

/-- An address that is stored without a prefix does not look like one with a prefix. -/
def Voter.Plain (v : Voter) : Prop := v.onbehalf = true ∨ v.address.startsWith "S:" = false

namespace VoteStore

variable (pegdb : VoteStore) (pro_id : CString) (blocks : List UInt256)

def ballots (bhash : UInt256) (v : Voter) : Finset CString :=
  (pegdb.proposalBlockVotes bhash pro_id).filter fun txoutid =>
    pegdb.proposalBlockVoteStaker txoutid = some v.staker

/-- How often a vote was cast in the blocks. -/
def countBallots (v : Voter) : ℕ := (blocks.map fun bhash => (pegdb.ballots pro_id bhash v).card).sum

/-- Some output of the blocks names the address, or is the vote of a staker with it. -/
def HasVoted (a : CString) : Prop :=
  0 < pegdb.countBallots pro_id blocks ⟨true, a⟩ ∨
    a.startsWith "S:" = false ∧ 0 < pegdb.countBallots pro_id blocks ⟨false, a⟩

instance (a : CString) : Decidable (pegdb.HasVoted pro_id blocks a) :=
  inferInstanceAs (Decidable (_ ∨ _))

/-- The store without the votes of one address. -/
def without (a : CString) : VoteStore :=
  { pegdb with
    proposalBlockVoteStaker := fun txoutid =>
      (pegdb.proposalBlockVoteStaker txoutid).filter fun staker =>
        ¬ (staker = "S:".toList ++ a ∨ a.startsWith "S:" = false ∧ staker = a) }

end VoteStore

/-! ## The loop reads the votes -/

variable {pegdb pegdb' : VoteStore} {pro_id pro_id' a : CString} {blocks blocks' : List UInt256}

theorem staker_castVote (staker_addr address_override : CString) :
    (castVote staker_addr address_override).staker = addressVoter staker_addr address_override := by
  unfold castVote addressVoter
  split_ifs <;> rfl

theorem castVote_plain {staker_addr : CString} (h : staker_addr.startsWith "S:" = false)
    (address_override : CString) : (castVote staker_addr address_override).Plain := by
  unfold castVote
  split_ifs
  · exact Or.inl rfl
  · exact Or.inr h

theorem startsWith_iff_append {s : CString} :
    s.startsWith "S:" = true ↔ ∃ a, s = "S:".toList ++ a := by
  rw [CString.startsWith, List.isPrefixOf_iff_prefix]
  exact ⟨fun ⟨a, ha⟩ => ⟨a, ha.symm⟩, fun ⟨a, ha⟩ => ⟨a, ha.symm⟩⟩

/-- A string is read as the vote that it was stored for. -/
theorem Voter.ofStaker_eq_iff {s : CString} : ofStaker s = v ↔ s = v.staker ∧ v.Plain := by
  obtain ⟨onbehalf, address⟩ := v
  by_cases hprefix : s.startsWith "S:" = true
  · obtain ⟨a, rfl⟩ := startsWith_iff_append.mp hprefix
    rw [ofStaker, if_pos hprefix]
    cases onbehalf with
    | true => simp [staker, Plain]
    | false =>
      refine ⟨fun h => (by cases h), ?_⟩
      rintro ⟨hs, hplain⟩
      have haddress : "S:".toList ++ a = address := hs
      rw [haddress] at hprefix
      simp [Plain, hprefix] at hplain
  · rw [ofStaker, if_neg hprefix]
    cases onbehalf with
    | true =>
      refine ⟨fun h => (by cases h), ?_⟩
      rintro ⟨rfl, -⟩
      exact absurd (startsWith_iff_append.mpr ⟨address, rfl⟩) hprefix
    | false =>
      simp only [Voter.mk.injEq, true_and, staker, Plain, Bool.false_eq_true, if_false, false_or]
      refine ⟨?_, And.left⟩
      rintro rfl
      exact ⟨rfl, by simpa using hprefix⟩

theorem Voter.address_ofStaker {s : CString} : (ofStaker s).address = a ↔
    s = "S:".toList ++ a ∨ a.startsWith "S:" = false ∧ s = a := by
  constructor
  · rintro rfl
    obtain ⟨hs, hplain⟩ := (ofStaker_eq_iff (v := ofStaker s)).mp rfl
    rcases hplain with hbehalf | hplain
    · left
      rw [staker, if_pos hbehalf] at hs
      exact hs
    · cases hbehalf : (ofStaker s).onbehalf with
      | true =>
        left
        rw [staker, if_pos hbehalf] at hs
        exact hs
      | false =>
        right
        rw [staker, hbehalf] at hs
        exact ⟨hplain, hs⟩
  · rintro (hs | ⟨hplain, hs⟩)
    · rw [(ofStaker_eq_iff (v := ⟨true, a⟩)).mpr ⟨hs, Or.inl rfl⟩]
    · rw [(ofStaker_eq_iff (v := ⟨false, a⟩)).mpr ⟨hs, Or.inr hplain⟩]

/-- The loop meets a vote as often as it is stored. -/
theorem count_cycleVoters (h : v.Plain) :
    (cycleVoters pegdb pro_id blocks).count v = pegdb.countBallots pro_id blocks v := by
  rw [cycleVoters, List.count_flatMap, VoteStore.countBallots]
  refine congrArg List.sum (List.map_congr_left fun bhash _ => ?_)
  have hvotes : ∀ l : List CString,
      ((l.filterMap pegdb.proposalBlockVoteStaker).map Voter.ofStaker).count v =
        l.countP fun txoutid => pegdb.proposalBlockVoteStaker txoutid = some v.staker := by
    intro l
    rw [List.count, List.countP_map, List.countP_filterMap]
    refine List.countP_congr fun txoutid _ => ?_
    cases pegdb.proposalBlockVoteStaker txoutid with
    | none => simp
    | some s => simp [Voter.ofStaker_eq_iff, h]
  rw [Function.comp_apply, hvotes, VoteStore.ballots, Finset.card_def, Finset.filter_val,
    ← Multiset.countP_eq_card_filter,
    ← Finset.sort_eq (pegdb.proposalBlockVotes bhash pro_id) (· ≤ ·), Multiset.coe_countP]

theorem plain_of_mem_cycleVoters (h : v ∈ cycleVoters pegdb pro_id blocks) : v.Plain := by
  simp only [cycleVoters, List.mem_flatMap, List.mem_map] at h
  obtain ⟨bhash, -, s, -, hs⟩ := h
  exact (Voter.ofStaker_eq_iff.mp hs).2

theorem mem_cycleVoters : v ∈ cycleVoters pegdb pro_id blocks ↔
    v.Plain ∧ 0 < pegdb.countBallots pro_id blocks v := by
  rw [← List.count_pos_iff]
  constructor
  · intro h
    have hplain := plain_of_mem_cycleVoters (List.count_pos_iff.mp h)
    exact ⟨hplain, count_cycleVoters hplain ▸ h⟩
  · rintro ⟨hplain, h⟩
    rwa [count_cycleVoters hplain]

theorem mem_votersOf_cycleVoters :
    a ∈ votersOf (cycleVoters pegdb pro_id blocks) ↔ pegdb.HasVoted pro_id blocks a := by
  rw [mem_votersOf]
  constructor
  · rintro ⟨⟨onbehalf, _⟩, hv, rfl⟩
    obtain ⟨hplain, hcount⟩ := mem_cycleVoters.mp hv
    cases onbehalf with
    | true => exact Or.inl hcount
    | false => exact Or.inr ⟨hplain.resolve_left (by simp), hcount⟩
  · rintro (hcount | ⟨hplain, hcount⟩)
    · exact ⟨⟨true, a⟩, mem_cycleVoters.mpr ⟨Or.inl rfl, hcount⟩, rfl⟩
    · exact ⟨⟨false, a⟩, mem_cycleVoters.mpr ⟨Or.inr hplain, hcount⟩, rfl⟩

theorem votersOf_inter (s : Finset CString) :
    votersOf (cycleVoters pegdb pro_id blocks) ∩ s = s.filter (pegdb.HasVoted pro_id blocks) := by
  ext a
  rw [Finset.mem_inter, mem_votersOf_cycleVoters, Finset.mem_filter, and_comm]

/-- What the loop counts, by the voters of the store. -/
theorem proVotes_eq (tstakers1 tstakers2 : Finset CString) (pegdb : VoteStore) (pro_id : CString)
    (blocks : List UInt256) :
    proVotes tstakers1 tstakers2 pegdb pro_id blocks =
      { tstakers1 := (tstakers1.filter (pegdb.HasVoted pro_id blocks)).card
        tstakers2 := ((tstakers2 \ tstakers1).filter (pegdb.HasVoted pro_id blocks)).card
        ostakers := otherVotes tstakers1 tstakers2 (cycleVoters pegdb pro_id blocks) } := by
  have h := Tally.counted tstakers1 tstakers2 (cycleVoters pegdb pro_id blocks)
  rw [← votersOf_inter, ← votersOf_inter]
  exact ConsensusVotes.ext h.count1 h.count2 h.others

/-! ## A trusted address counts once -/

/-- At most one of the three counters differs. -/
def ConsensusVotes.OneCategory (p q : ConsensusVotes) : Prop :=
  p.tstakers1 = q.tstakers1 ∧ p.tstakers2 = q.tstakers2 ∨
  p.tstakers1 = q.tstakers1 ∧ p.ostakers = q.ostakers ∨
  p.tstakers2 = q.tstakers2 ∧ p.ostakers = q.ostakers

def untrusted (tstakers1 tstakers2 : Finset CString) (votes : List Voter) : List Voter :=
  votes.filter fun v => v.address ∉ tstakers1 ∪ tstakers2

theorem cycleVoters_without (a : CString) :
    cycleVoters (pegdb.without a) pro_id blocks =
      (cycleVoters pegdb pro_id blocks).filter fun v => v.address ≠ a := by
  rw [cycleVoters, cycleVoters, List.filter_flatMap]
  congr 1
  funext bhash
  rw [List.filter_map, List.filter_filterMap]
  have hread : (pegdb.without a).proposalBlockVoteStaker = fun txoutid =>
      (pegdb.proposalBlockVoteStaker txoutid).filter
        ((fun v : Voter => decide (v.address ≠ a)) ∘ Voter.ofStaker) := by
    funext txoutid
    refine congrArg (fun p => Option.filter p _) (funext fun s => ?_)
    simp only [Function.comp_apply, ne_eq, Voter.address_ofStaker]
  rw [hread]
  rfl

theorem mem_votersOf_filter {a b : CString} :
    b ∈ votersOf (votes.filter fun v => v.address ≠ a) ↔ b ∈ votersOf votes ∧ b ≠ a := by
  simp only [mem_votersOf, List.mem_filter, decide_eq_true_eq]
  grind

/-- The other votes are counted from the untrusted votes alone. -/
theorem otherVotes_untrusted :
    otherVotes tstakers1 tstakers2 votes =
      (untrusted tstakers1 tstakers2 votes).countP (fun v => !v.onbehalf) +
        (onbehalfOf (untrusted tstakers1 tstakers2 votes)).card := by
  have hnamed : onbehalfOf votes \ (tstakers1 ∪ tstakers2) =
      onbehalfOf (untrusted tstakers1 tstakers2 votes) := by
    ext a
    rw [Finset.mem_sdiff, mem_onbehalfOf, mem_onbehalfOf, untrusted, List.mem_filter,
      decide_eq_true_eq]
  rw [otherVotes, hnamed, untrusted, List.countP_filter]
  simp

theorem onbehalfOf_perm (h : votes.Perm votes') : onbehalfOf votes = onbehalfOf votes' := by
  ext a
  rw [mem_onbehalfOf, mem_onbehalfOf, h.mem_iff]

theorem otherVotes_perm
    (h : (untrusted tstakers1 tstakers2 votes).Perm (untrusted tstakers1 tstakers2 votes')) :
    otherVotes tstakers1 tstakers2 votes = otherVotes tstakers1 tstakers2 votes' := by
  rw [otherVotes_untrusted, otherVotes_untrusted, h.countP_eq, onbehalfOf_perm h]

theorem hasVoted_without {a b : CString} :
    (pegdb.without a).HasVoted pro_id blocks b ↔ pegdb.HasVoted pro_id blocks b ∧ b ≠ a := by
  rw [← mem_votersOf_cycleVoters, ← mem_votersOf_cycleVoters, cycleVoters_without,
    mem_votersOf_filter]

/-- Dropping the votes of an address changes the counter of its category only. -/
theorem proVotes_without (a : CString) :
    (proVotes tstakers1 tstakers2 pegdb pro_id blocks).OneCategory
      (proVotes tstakers1 tstakers2 (pegdb.without a) pro_id blocks) := by
  have hvoters : ∀ s : Finset CString, a ∉ s →
      s.filter (pegdb.HasVoted pro_id blocks) =
        s.filter ((pegdb.without a).HasVoted pro_id blocks) := by
    intro s ha
    refine Finset.filter_congr fun b hb => ?_
    rw [hasVoted_without]
    grind
  have hothers : a ∈ tstakers1 ∪ tstakers2 →
      otherVotes tstakers1 tstakers2 (cycleVoters pegdb pro_id blocks) =
        otherVotes tstakers1 tstakers2 (cycleVoters (pegdb.without a) pro_id blocks) := by
    intro ha
    apply otherVotes_perm
    rw [cycleVoters_without, untrusted, untrusted, List.filter_filter]
    refine List.Perm.of_eq (List.filter_congr fun v _ => ?_)
    grind
  rw [proVotes_eq, proVotes_eq]
  by_cases h1 : a ∈ tstakers1
  · refine Or.inr (Or.inr ⟨?_, ?_⟩)
    · rw [hvoters _ fun hmem => (Finset.mem_sdiff.mp hmem).2 h1]
    · rw [hothers (Finset.mem_union_left _ h1)]
  · by_cases h2 : a ∈ tstakers2
    · refine Or.inr (Or.inl ⟨?_, ?_⟩)
      · rw [hvoters _ h1]
      · rw [hothers (Finset.mem_union_right _ h2)]
    · refine Or.inl ⟨?_, ?_⟩
      · rw [hvoters _ h1]
      · rw [hvoters _ fun hmem => h2 (Finset.mem_sdiff.mp hmem).1]

/-- The votes of untrusted addresses are the same when each is cast as often. -/
theorem untrusted_perm (h : ∀ v : Voter, v.Plain → v.address ∉ tstakers1 ∪ tstakers2 →
      pegdb'.countBallots pro_id' blocks' v = pegdb.countBallots pro_id blocks v) :
    (untrusted tstakers1 tstakers2 (cycleVoters pegdb' pro_id' blocks')).Perm
      (untrusted tstakers1 tstakers2 (cycleVoters pegdb pro_id blocks)) := by
  rw [List.perm_iff_count]
  intro v
  by_cases hv : v.address ∉ tstakers1 ∪ tstakers2
  · rw [untrusted, untrusted, List.count_filter (by simpa using hv),
      List.count_filter (by simpa using hv)]
    by_cases hplain : v.Plain
    · rw [count_cycleVoters hplain, count_cycleVoters hplain, h v hplain hv]
    · rw [List.count_eq_zero_of_not_mem fun hmem => hplain (plain_of_mem_cycleVoters hmem),
        List.count_eq_zero_of_not_mem fun hmem => hplain (plain_of_mem_cycleVoters hmem)]
  · have hnone : ∀ votes : List Voter, v ∉ untrusted tstakers1 tstakers2 votes := by
      intro votes hmem
      exact hv (by simpa using (List.mem_filter.mp hmem).2)
    rw [List.count_eq_zero_of_not_mem (hnone _), List.count_eq_zero_of_not_mem (hnone _)]

/-- The count depends on which trusted addresses have voted and on the other votes. -/
theorem proVotes_congr
    (htrusted : ∀ a ∈ tstakers1 ∪ tstakers2,
      (pegdb'.HasVoted pro_id' blocks' a ↔ pegdb.HasVoted pro_id blocks a))
    (huntrusted : ∀ v : Voter, v.Plain → v.address ∉ tstakers1 ∪ tstakers2 →
      pegdb'.countBallots pro_id' blocks' v = pegdb.countBallots pro_id blocks v) :
    proVotes tstakers1 tstakers2 pegdb' pro_id' blocks' =
      proVotes tstakers1 tstakers2 pegdb pro_id blocks := by
  have hsub : ∀ s, s ⊆ tstakers1 ∪ tstakers2 →
      s.filter (pegdb'.HasVoted pro_id' blocks') = s.filter (pegdb.HasVoted pro_id blocks) :=
    fun s hs => Finset.filter_congr fun a ha => htrusted a (hs ha)
  rw [proVotes_eq, proVotes_eq, otherVotes_perm (untrusted_perm huntrusted),
    hsub _ Finset.subset_union_left, hsub _ (Finset.sdiff_subset.trans Finset.subset_union_right)]

/-- A trusted staker votes twice itself and is named by another staker, who votes as well. -/
example : ([⟨false, "B1".toList⟩, ⟨true, "B1".toList⟩, ⟨false, "B1".toList⟩,
      ⟨false, "B3".toList⟩].foldl (Tally.countVote {"B1".toList} {"B2".toList}) {}).pro_votes =
    { tstakers1 := 1, tstakers2 := 0, ostakers := 1 } := by decide

end BitBay
