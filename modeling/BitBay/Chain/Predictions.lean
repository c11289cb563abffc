import BitBay.Chain.SupplyIndex

/-!
# Predictions of the supply index

From any block of an interval the indices of the next two intervals are known: the votes
that they depend on are complete before the interval starts. The three functions of the
source walk back from different heights, and meet at the same blocks.
-/
namespace BitBay

variable {net : Params} {votes : VoteParams} {chain rest : List PegEntry} {b d : PegEntry} {k : ℕ}

/-- The votes counted before a block are found from every higher block. -/
theorem PegConnected.indexFromVotes_suffix (h : PegConnected net votes chain)
    (hs : (b :: rest) <:+ chain) {nPegBase m n : ℤ} (hm : m ≤ b.nHeight) (hn : n ≤ b.nHeight) :
    indexFromVotes (chain.map (·.pindex)) nPegBase m n =
      indexFromVotes ((b :: rest).map (·.pindex)) nPegBase m n := by
  unfold indexFromVotes
  rw [h.walkBack_suffix hs hm, h.walkBack_suffix hs hn]

/-- The index of an interval that the peg was on before, computed from a block below it. -/
theorem PegConnected.index_from (h : PegConnected net votes chain) (hs : (b :: rest) <:+ chain)
    (hpeg : votes.nPegStartHeight ≤ b.nHeight) (hb : b.nHeight < k * votes.nPegInterval)
    (hk : k * votes.nPegInterval < b.nHeight + 2 * votes.nPegInterval + 1) (hd : d ∈ chain)
    (hdk : d.interval votes = k) :
    ∃ prev ∈ chain, prev.interval votes + 1 = k ∧
      indexFromVotes ((b :: rest).map (·.pindex)) prev.pindex.nPegSupplyIndex
        (k * votes.nPegInterval - votes.nPegInterval * 2 - 1)
        (k * votes.nPegInterval - votes.nPegInterval * 3 - 1) =
          some d.pindex.nPegSupplyIndex := by
  have hlow := (interval_eq_iff.mp hdk).1
  have hlength := h.height_lt hd
  have hpos : 0 < k := by
    rcases Nat.eq_zero_or_pos k with rfl | hpos
    · rw [Nat.zero_mul] at hb
      omega
    · exact hpos
  obtain ⟨first, prev, below, hfirst, hheight, hmoved⟩ :=
    h.first_block (k := k) (by omega) hpos (by omega)
  have hsub := h.suffix hfirst
  have hprev_height : prev.nHeight + 1 = k * votes.nPegInterval := by
    rw [hsub.tail.height, ← hheight, hsub.height, List.length_cons]
  have hprev : (prev :: below) <:+ chain := (List.suffix_cons first _).trans hfirst
  have hbelow : (b :: rest) <:+ prev :: below := by
    refine List.suffix_of_suffix_length_le hs hprev ?_
    have hb_height := (h.suffix hs).height
    have hp_height := hsub.tail.height
    rw [List.length_cons, List.length_cons]
    omega
  have hfirst_interval : first.interval votes = k := by
    rw [PegEntry.interval, hheight, Nat.mul_div_cancel _ votes.interval_pos]
  have hindex : d.pindex.nPegSupplyIndex = first.pindex.nPegSupplyIndex :=
    h.index_eq hd (hfirst.subset List.mem_cons_self) (hfirst_interval.trans hdk.symm)
  have hprev_interval : prev.interval votes + 1 = k := by
    obtain ⟨j, rfl⟩ := Nat.exists_eq_add_of_lt hpos
    rw [interval_last (k := j) (by simpa using hprev_height), Nat.zero_add]
  have hbound : (k : ℤ) * votes.nPegInterval < b.nHeight + 2 * votes.nPegInterval + 1 := by
    exact_mod_cast hk
  refine ⟨prev, hprev.subset List.mem_cons_self, hprev_interval, ?_⟩
  rw [hindex, ← hmoved, hheight]
  push_cast
  exact (hsub.tail.indexFromVotes_suffix hbelow (by omega) (by omega)).symm

/-- The next interval, seen from a block. -/
theorem PegConnected.next_interval (h : PegConnected net votes chain) (hs : (b :: rest) <:+ chain)
    (hpeg : votes.nPegStartHeight ≤ b.nHeight) (hd : d ∈ chain)
    (hdk : d.interval votes = b.interval votes + 1) :
    getNextIntervalPegSupplyIndex votes ((b :: rest).map (·.pindex)) =
      some d.pindex.nPegSupplyIndex := by
  have hb := interval_eq_iff.mp (rfl : b.interval votes = b.interval votes)
  have hmul := Nat.add_mul (b.interval votes) 1 votes.nPegInterval
  obtain ⟨prev, hprev, hprev_interval, hindex⟩ :=
    h.index_from hs hpeg hb.2 (by omega) hd hdk
  have hbase : prev.pindex.nPegSupplyIndex = b.pindex.nPegSupplyIndex :=
    h.index_eq hprev (hs.subset List.mem_cons_self) (by omega)
  have hbelow : ¬ b.pindex.nHeight < votes.nPegStartHeight := not_lt.mpr hpeg
  have hstart : currentIntervalStart votes b.pindex.nHeight =
      b.interval votes * votes.nPegInterval := rfl
  rw [← hindex, hbase]
  simp only [getNextIntervalPegSupplyIndex, List.map_cons, List.head?_cons, Option.bind_eq_bind,
    Option.bind_some, if_neg hbelow, hstart]
  congr 1 <;> push_cast <;> ring

/-- The interval after the next one, seen from a block. -/
theorem PegConnected.next_next_interval (h : PegConnected net votes chain)
    (hs : (b :: rest) <:+ chain) (hpeg : votes.nPegStartHeight ≤ b.nHeight) (hd : d ∈ chain)
    (hdk : d.interval votes = b.interval votes + 2) :
    getNextNextIntervalPegSupplyIndex votes ((b :: rest).map (·.pindex)) =
      some d.pindex.nPegSupplyIndex := by
  have hb := interval_eq_iff.mp (rfl : b.interval votes = b.interval votes)
  have hone := Nat.add_mul (b.interval votes) 1 votes.nPegInterval
  have htwo := Nat.add_mul (b.interval votes) 2 votes.nPegInterval
  obtain ⟨prev, hprev, hprev_interval, hindex⟩ :=
    h.index_from hs hpeg (by omega) (by omega) hd hdk
  -- The base is the prediction for the interval in between.
  have hbase := h.next_interval hs hpeg hprev (by omega)
  have hbelow : ¬ b.pindex.nHeight < votes.nPegStartHeight := not_lt.mpr hpeg
  have hstart : currentIntervalStart votes b.pindex.nHeight =
      b.interval votes * votes.nPegInterval := rfl
  rw [List.map_cons] at hbase hindex ⊢
  rw [← hindex]
  simp only [getNextNextIntervalPegSupplyIndex, List.head?_cons, Option.bind_eq_bind,
    Option.bind_some, if_neg hbelow, hbase, hstart]
  congr 1 <;> push_cast <;> ring

/-- `GetNextIntervalPegSupplyIndex` at `b` is the index of all blocks of the next interval,
and `GetNextNextIntervalPegSupplyIndex` that of the interval behind it. -/
theorem supplyIndex_predictions (h : PegConnected net votes chain) (hs : (b :: rest) <:+ chain)
    (hpeg : votes.nPegStartHeight ≤ b.nHeight) (hd : d ∈ chain) :
    (d.interval votes = b.interval votes + 1 →
      getNextIntervalPegSupplyIndex votes ((b :: rest).map (·.pindex)) =
        some d.pindex.nPegSupplyIndex) ∧
    (d.interval votes = b.interval votes + 2 →
      getNextNextIntervalPegSupplyIndex votes ((b :: rest).map (·.pindex)) =
        some d.pindex.nPegSupplyIndex) :=
  ⟨h.next_interval hs hpeg hd, h.next_next_interval hs hpeg hd⟩

theorem sampleVotes_predicted : ∃ b rest, ∃ d ∈ rest, ∃ below,
    PegConnected sampleVoteNet sampleVotes (b :: rest) ∧ (d :: below) <:+ rest ∧
    getNextNextIntervalPegSupplyIndex sampleVotes ((d :: below).map (·.pindex)) =
      some b.pindex.nPegSupplyIndex ∧ b.pindex.nPegSupplyIndex = 3 := by
  obtain ⟨b, rest, hconnected, -, hindices⟩ := sampleVotes_chain
  obtain ⟨hb, hrest⟩ := List.cons.inj hindices
  obtain ⟨hheight, hindex⟩ := Prod.mk.inj hb
  obtain ⟨c, rest', rfl, -, hrest'⟩ := List.map_eq_cons_iff.mp hrest
  obtain ⟨d, below, rfl, hd, -⟩ := List.map_eq_cons_iff.mp hrest'
  obtain ⟨hd_height, -⟩ := Prod.mk.inj hd
  have hs : (d :: below) <:+ c :: d :: below := List.suffix_cons c _
  have hpredicted := supplyIndex_predictions hconnected (hs.trans (List.suffix_cons b _))
    (by rw [hd_height]; decide) List.mem_cons_self
  refine ⟨b, _, d, hs.subset List.mem_cons_self, below, hconnected, hs, hpredicted.2 ?_, hindex⟩
  rw [PegEntry.interval, PegEntry.interval, hheight, hd_height]
  rfl

end BitBay
