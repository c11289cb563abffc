import BitBay.Peg.Fractions

/-!
# The supply index

Every block carries the supply index of its interval and counts the votes that were cast
in its interval so far. The first block of an interval moves the index by the votes of the
third interval back, compared with those of the fourth.

A chain is the list of its blocks from the tip down, so the list behind an element is what
`Prev()` leads to.
-/
namespace BitBay

structure VoteParams where
  nPegInterval : ℕ
  nPegStartHeight : ℕ
  pegInflateAddr : CString
  pegDeflateAddr : CString
  pegNochangeAddr : CString
  interval_pos : 0 < nPegInterval

def nPegMaxSupplyIndex : ℤ := 1198

@[ext] structure PegVotes where
  inflate : ℤ := 0
  deflate : ℤ := 0
  nochange : ℤ := 0
  deriving DecidableEq

instance : Zero PegVotes := ⟨{}⟩

instance : Add PegVotes :=
  ⟨fun a b => ⟨a.inflate + b.inflate, a.deflate + b.deflate, a.nochange + b.nochange⟩⟩

structure CBlockIndex where
  nHeight : ℕ
  nPegSupplyIndex : ℤ
  nPegVotes : PegVotes
  deriving DecidableEq

/-- A block that was connected, with the fractions that were stored by then. -/
structure PegEntry where
  block : CBlock
  pegdb : MapFractions
  pindex : CBlockIndex

/-- `ReadFractions` into `f`: an output without a record leaves `f` as it is, unless the
record is a must. -/
def readFractions (pegdb : MapFractions) (txout : UInt320) (f : CFractions) (must_have : Bool) :
    Option CFractions :=
  match pegdb txout with
  | some fr => some fr
  | none => if must_have then none else some f

section Model

variable (net : Params) (votes : VoteParams)

def computeNextPegSupplyIndex (nPegBase : ℤ) (back2interval back3interval : CBlockIndex) : ℤ :=
  let now := back2interval.nPegVotes
  let prev := back3interval.nPegVotes
  let nNext := nPegBase
  let nNext :=
    if now.inflate < now.deflate ∧ now.nochange < now.deflate then
      let nNext := nNext + 1
      let nNext := if 2 * prev.inflate < now.deflate ∧ 2 * prev.nochange < now.deflate then
        nNext + 1 else nNext
      if 3 * prev.inflate < now.deflate ∧ 3 * prev.nochange < now.deflate then nNext + 1 else nNext
    else nNext
  let nNext :=
    if now.deflate < now.inflate ∧ now.nochange < now.inflate then
      let nNext := nNext - 1
      let nNext := if 2 * prev.deflate < now.inflate ∧ 2 * prev.nochange < now.inflate then
        nNext - 1 else nNext
      if 3 * prev.deflate < now.inflate ∧ 3 * prev.nochange < now.inflate then nNext - 1 else nNext
    else nNext
  if nPegMaxSupplyIndex ≤ nNext then nPegMaxSupplyIndex
  else if nNext < 0 then 0
  else nNext

/-- Step back while the height is above `nHeight`; `none` stands for a step from genesis. -/
def walkBack (chain : List CBlockIndex) (nHeight : ℤ) : Option CBlockIndex :=
  (chain.dropWhile fun pindex => nHeight < pindex.nHeight).head?

def indexFromVotes (chain : List CBlockIndex) (nPegBase nUseVotes nPrevVotes : ℤ) : Option ℤ := do
  let usevotesindex ← walkBack chain nUseVotes
  let prevvotesindex ← walkBack chain nPrevVotes
  return computeNextPegSupplyIndex nPegBase usevotesindex prevvotesindex

def getNextBlockPegSupplyIndex (chain : List CBlockIndex) : Option ℤ := do
  let pindex ← chain.head?
  let nNextHeight := pindex.nHeight + 1
  if nNextHeight < votes.nPegStartHeight then return 0
  if nNextHeight % votes.nPegInterval ≠ 0 then return pindex.nPegSupplyIndex
  -- The counters of an interval are complete at its last block.
  indexFromVotes chain pindex.nPegSupplyIndex (nNextHeight - votes.nPegInterval * 2 - 1)
    (nNextHeight - votes.nPegInterval * 3 - 1)

def currentIntervalStart (nHeight : ℕ) : ℕ := nHeight / votes.nPegInterval * votes.nPegInterval

def getNextIntervalPegSupplyIndex (chain : List CBlockIndex) : Option ℤ := do
  let pindex ← chain.head?
  if pindex.nHeight < votes.nPegStartHeight then return 0
  let nCurrentIntervalStart : ℤ := currentIntervalStart votes pindex.nHeight
  indexFromVotes chain pindex.nPegSupplyIndex (nCurrentIntervalStart - votes.nPegInterval * 1 - 1)
    (nCurrentIntervalStart - votes.nPegInterval * 2 - 1)

def getNextNextIntervalPegSupplyIndex (chain : List CBlockIndex) : Option ℤ := do
  let pindex ← chain.head?
  if pindex.nHeight < votes.nPegStartHeight then return 0
  let nCurrentIntervalStart : ℤ := currentIntervalStart votes pindex.nHeight
  let nNext ← getNextIntervalPegSupplyIndex votes chain
  indexFromVotes chain nNext (nCurrentIntervalStart - votes.nPegInterval * 0 - 1)
    (nCurrentIntervalStart - votes.nPegInterval * 1 - 1)

def calculateBlockPegIndex (chain : List CBlockIndex) : Option ℤ :=
  if chain = [] then some 0 else getNextBlockPegSupplyIndex votes chain

def calculatePegVotes (fractions : CFractions) (nPegSupplyIndex : ℤ) : ℤ :=
  let nReserveWeight := (fractions.lowPart nPegSupplyIndex.toNat).total
  let nLiquidPart := (fractions.highPart nPegSupplyIndex.toNat).total
  let nLiquidWeight := nLiquidPart - (nLiquidPart * nPegSupplyIndex).tdiv nPegMaxSupplyIndex
  let nWeightMultiplier := nPegSupplyIndex.tdiv 120 + 1
  if nReserveWeight * 4 < nLiquidWeight then 4 * nWeightMultiplier
  else if nReserveWeight * 3 < nLiquidWeight then 3 * nWeightMultiplier
  else if nReserveWeight * 2 < nLiquidWeight then 2 * nWeightMultiplier
  else 1

def addressVote (str_addr : CString) (nVotes : ℤ) : Option PegVotes :=
  if str_addr = votes.pegInflateAddr then some { inflate := nVotes }
  else if str_addr = votes.pegDeflateAddr then some { deflate := nVotes }
  else if str_addr = votes.pegNochangeAddr then some { nochange := nVotes }
  else none

/-- Weight of the votes of a coinstake, from the fractions that its first input spends. -/
def stakeVotes (pegdb : MapFractions) (tx : CTransaction) (nPegSupplyIndex : ℤ) : Option ℤ :=
  if tx.isCoinBase then some 1
  else
    match tx.vin.head? with
    | none => some 1
    | some inp => do
      let fractions ← readFractions pegdb inp.prevout.fkey CFractions.zeroStd false
      return calculatePegVotes fractions nPegSupplyIndex

/-- The first output that votes; only one vote is counted. -/
def firstVote (tx : CTransaction) (nVotes : ℤ) : PegVotes :=
  (tx.vout.findSome? fun out =>
    (net.destinations out.scriptPubKey).findSome? fun str_addr =>
      addressVote votes str_addr nVotes).getD 0

/-- The counters before a vote is added: an interval starts at zero. -/
def carriedVotes (nHeight : ℕ) (chain : List CBlockIndex) : PegVotes :=
  if nHeight % votes.nPegInterval = 0 then 0
  else ((chain.head?).map (·.nPegVotes)).getD 0

def calculateBlockPegVotes (block : CBlock) (pegdb : MapFractions) (nHeight : ℕ)
    (nPegSupplyIndex : ℤ) (chain : List CBlockIndex) : Option PegVotes :=
  if block.isProofOfStake = false ∨ nHeight < votes.nPegStartHeight then some 0
  else do
    let tx ← block.vtx[1]?
    let nVotes ← stakeVotes pegdb tx nPegSupplyIndex
    return carriedVotes votes nHeight chain + firstVote net votes tx nVotes

def nextHeight : List CBlockIndex → ℕ
  | [] => 0
  | pprev :: _ => pprev.nHeight + 1

def connectPegIndex (block : CBlock) (pegdb : MapFractions) (chain : List CBlockIndex) :
    Option CBlockIndex := do
  let nPegSupplyIndex ← calculateBlockPegIndex votes chain
  let nHeight := nextHeight chain
  let nPegVotes ← calculateBlockPegVotes net votes block pegdb nHeight nPegSupplyIndex chain
  return { nHeight, nPegSupplyIndex, nPegVotes }

/-- The chains whose blocks were connected one after the other, from genesis on. -/
inductive PegConnected : List PegEntry → Prop
  | nil : PegConnected []
  | connect {chain block pegdb pindex} : PegConnected chain →
      connectPegIndex net votes block pegdb (chain.map (·.pindex)) = some pindex →
      PegConnected (⟨block, pegdb, pindex⟩ :: chain)

def connectPegBlocks : List (CBlock × MapFractions) → Option (List PegEntry)
  | [] => some []
  | (block, pegdb) :: rest => do
    let chain ← connectPegBlocks rest
    let pindex ← connectPegIndex net votes block pegdb (chain.map (·.pindex))
    return ⟨block, pegdb, pindex⟩ :: chain

end Model

/-! ## Heights -/

variable {net : Params} {votes : VoteParams} {chain rest : List PegEntry} {e f : PegEntry}

namespace PegEntry

def nHeight (e : PegEntry) : ℕ := e.pindex.nHeight

variable (votes) in
def interval (e : PegEntry) : ℕ := e.nHeight / votes.nPegInterval

end PegEntry

theorem connectPegBlocks_connected {blocks : List (CBlock × MapFractions)}
    (h : connectPegBlocks net votes blocks = some chain) : PegConnected net votes chain := by
  induction blocks generalizing chain with
  | nil =>
    cases h
    exact .nil
  | cons b rest ih =>
    simp only [connectPegBlocks, Option.bind_eq_bind, Option.bind_eq_some_iff, pure] at h
    obtain ⟨below, hbelow, pindex, hindex, hchain⟩ := h
    cases hchain
    exact .connect (ih hbelow) hindex

theorem PegConnected.tail (h : PegConnected net votes (e :: rest)) :
    PegConnected net votes rest := by
  cases h with
  | connect hrest _ => exact hrest

theorem PegConnected.suffix (h : PegConnected net votes chain) (hs : rest <:+ chain) :
    PegConnected net votes rest := by
  induction h with
  | nil =>
    rw [List.suffix_nil.mp hs]
    exact .nil
  | connect hchain hindex ih =>
    rcases List.suffix_cons_iff.mp hs with rfl | hs
    · exact .connect hchain hindex
    · exact ih hs

/-- What connecting the block at the head wrote. -/
theorem PegConnected.head (h : PegConnected net votes (e :: rest)) :
    connectPegIndex net votes e.block e.pegdb (rest.map (·.pindex)) = some e.pindex := by
  cases h with
  | connect _ hindex => exact hindex

theorem connectPegIndex_ok {block : CBlock} {pegdb : MapFractions} {l : List CBlockIndex}
    {pindex : CBlockIndex} (h : connectPegIndex net votes block pegdb l = some pindex) :
    calculateBlockPegIndex votes l = some pindex.nPegSupplyIndex ∧
    pindex.nHeight = nextHeight l ∧
    calculateBlockPegVotes net votes block pegdb (nextHeight l) pindex.nPegSupplyIndex l =
      some pindex.nPegVotes := by
  simp only [connectPegIndex, Option.bind_eq_bind, Option.bind_eq_some_iff, pure] at h
  obtain ⟨nPegSupplyIndex, hindex, nPegVotes, hvotes, hsome⟩ := h
  cases hsome
  exact ⟨hindex, rfl, hvotes⟩

theorem PegConnected.height (h : PegConnected net votes (e :: rest)) :
    e.nHeight = rest.length := by
  induction rest generalizing e with
  | nil => exact (connectPegIndex_ok h.head).2.1
  | cons p rest ih =>
    have hp := ih h.tail
    have he := (connectPegIndex_ok h.head).2.1
    simp only [List.map_cons, nextHeight] at he
    simpa [PegEntry.nHeight, he] using hp

theorem PegConnected.height_lt (h : PegConnected net votes chain) (he : e ∈ chain) :
    e.nHeight < chain.length := by
  obtain ⟨l, r, rfl⟩ := List.append_of_mem he
  have hheight := (h.suffix (List.suffix_append l _)).height
  rw [hheight, List.length_append, List.length_cons]
  omega

/-- There is one block at every height, and the chain below it is a suffix. -/
theorem PegConnected.exists_at (h : PegConnected net votes chain) {n : ℕ} (hn : n < chain.length) :
    ∃ e rest, (e :: rest) <:+ chain ∧ e.nHeight = n := by
  obtain ⟨e, rest, hdrop⟩ := List.exists_cons_of_ne_nil
    (l := chain.drop (chain.length - 1 - n)) (by rw [Ne, List.drop_eq_nil_iff]; omega)
  have hs : (e :: rest) <:+ chain := hdrop ▸ List.drop_suffix _ _
  refine ⟨e, rest, hs, ?_⟩
  have hlength := congrArg List.length hdrop
  rw [List.length_drop, List.length_cons] at hlength
  rw [(h.suffix hs).height]
  omega

/-- Blocks in front of a suffix are higher than its head. -/
theorem PegConnected.above (h : PegConnected net votes (chain ++ e :: rest)) (hf : f ∈ chain) :
    e.nHeight < f.nHeight := by
  obtain ⟨l, r, rfl⟩ := List.append_of_mem hf
  have hs : (f :: (r ++ e :: rest)) <:+ (l ++ f :: r) ++ e :: rest := by
    rw [List.append_assoc]
    exact List.suffix_append _ _
  have hheight := (h.suffix hs).height
  have he := (h.suffix (List.suffix_append _ _)).height
  rw [hheight, he, List.length_append, List.length_cons]
  omega

/-- A walk back does not depend on the blocks above its target. -/
theorem PegConnected.walkBack_suffix (h : PegConnected net votes chain) (hs : (e :: rest) <:+ chain)
    {n : ℤ} (hn : n ≤ e.nHeight) :
    walkBack (chain.map (·.pindex)) n = walkBack ((e :: rest).map (·.pindex)) n := by
  obtain ⟨front, rfl⟩ := hs
  unfold walkBack
  rw [List.map_append, List.dropWhile_append_of_pos]
  intro pindex hp
  obtain ⟨f, hf, rfl⟩ := List.mem_map.mp hp
  have habove := h.above hf
  simp only [PegEntry.nHeight] at habove hn
  simp only [decide_eq_true_eq]
  omega

/-- A walk that meets its target ends there. -/
theorem PegConnected.walkBack_eq (h : PegConnected net votes chain) (hs : (e :: rest) <:+ chain) :
    walkBack (chain.map (·.pindex)) e.nHeight = some e.pindex := by
  rw [h.walkBack_suffix hs le_rfl]
  simp [walkBack, PegEntry.nHeight]

/-! ## Intervals -/

theorem interval_eq_iff {k : ℕ} : e.interval votes = k ↔
    k * votes.nPegInterval ≤ e.nHeight ∧ e.nHeight < (k + 1) * votes.nPegInterval := by
  rw [PegEntry.interval, Nat.div_eq_iff votes.interval_pos]
  have hpos := votes.interval_pos
  rw [add_mul]
  omega

/-- A block that does not start an interval is in the interval of the block before. -/
theorem PegConnected.same_interval (h : PegConnected net votes (e :: f :: rest))
    (hstart : e.nHeight % votes.nPegInterval ≠ 0) : f.interval votes = e.interval votes := by
  have he := h.height
  have hf := h.tail.height
  rw [List.length_cons] at he
  rw [PegEntry.interval, PegEntry.interval, hf, he]
  rw [he] at hstart
  have hdvd : ¬ votes.nPegInterval ∣ rest.length + 1 := fun hd => hstart (Nat.mod_eq_zero_of_dvd hd)
  exact (Nat.succ_div_of_not_dvd hdvd).symm

/-- No block below the start of an interval is in it. -/
theorem PegConnected.ne_interval (h : PegConnected net votes (e :: rest))
    (hstart : e.nHeight % votes.nPegInterval = 0) (hf : f ∈ rest) :
    f.interval votes ≠ e.interval votes := by
  have hlt := h.tail.height_lt hf
  rw [← h.height] at hlt
  intro heq
  have hlow := (interval_eq_iff.mp heq).1
  rw [PegEntry.interval, Nat.div_mul_cancel (Nat.dvd_of_mod_eq_zero hstart)] at hlow
  omega

/-! ## The index of an interval -/

/-- Below the start of the peg, and at a block that starts no interval, the index is that of
the block before. -/
theorem PegConnected.index_carried (h : PegConnected net votes (e :: f :: rest))
    (hstart : e.nHeight % votes.nPegInterval ≠ 0) (hpeg : votes.nPegStartHeight ≤ e.nHeight) :
    e.pindex.nPegSupplyIndex = f.pindex.nPegSupplyIndex := by
  obtain ⟨hindex, hheight, -⟩ := connectPegIndex_ok h.head
  have hnext : f.pindex.nHeight + 1 = e.nHeight := hheight.symm
  simp only [calculateBlockPegIndex, List.map_cons, reduceCtorEq, if_false,
    getNextBlockPegSupplyIndex, List.head?_cons, Option.bind_eq_bind, Option.bind_some, hnext,
    if_neg hpeg.not_gt, if_pos hstart] at hindex
  exact (Option.some.inj hindex).symm

theorem PegConnected.index_before (h : PegConnected net votes (e :: rest))
    (hpeg : e.nHeight < votes.nPegStartHeight) : e.pindex.nPegSupplyIndex = 0 := by
  obtain ⟨hindex, hheight, -⟩ := connectPegIndex_ok h.head
  cases rest with
  | nil => exact (Option.some.inj hindex).symm
  | cons f rest =>
    have hnext : f.pindex.nHeight + 1 = e.nHeight := hheight.symm
    simp only [calculateBlockPegIndex, List.map_cons, reduceCtorEq, if_false,
      getNextBlockPegSupplyIndex, List.head?_cons, Option.bind_eq_bind, Option.bind_some, hnext,
      if_pos hpeg] at hindex
    exact (Option.some.inj hindex).symm

/-- The first block of an interval moves the index. -/
theorem PegConnected.index_moved (h : PegConnected net votes (e :: f :: rest))
    (hstart : e.nHeight % votes.nPegInterval = 0) (hpeg : votes.nPegStartHeight ≤ e.nHeight) :
    indexFromVotes ((f :: rest).map (·.pindex)) f.pindex.nPegSupplyIndex
      (e.nHeight - votes.nPegInterval * 2 - 1) (e.nHeight - votes.nPegInterval * 3 - 1) =
        some e.pindex.nPegSupplyIndex := by
  obtain ⟨hindex, hheight, -⟩ := connectPegIndex_ok h.head
  have hnext : f.pindex.nHeight + 1 = e.nHeight := hheight.symm
  simp only [calculateBlockPegIndex, List.map_cons, reduceCtorEq, if_false,
    getNextBlockPegSupplyIndex, List.head?_cons, Option.bind_eq_bind, Option.bind_some, hnext,
    if_neg hpeg.not_gt, hstart, ne_eq, not_true_eq_false] at hindex
  exact hindex

theorem PegConnected.index_eq_of_le (h : PegConnected net votes (e :: rest)) (hf : f ∈ rest)
    (hsame : f.interval votes = e.interval votes) :
    e.pindex.nPegSupplyIndex = f.pindex.nPegSupplyIndex := by
  induction rest generalizing e with
  | nil => cases hf
  | cons p rest ih =>
    have hstart : e.nHeight % votes.nPegInterval ≠ 0 := fun hzero => h.ne_interval hzero hf hsame
    have hp := h.same_interval hstart
    have hep : e.pindex.nPegSupplyIndex = p.pindex.nPegSupplyIndex := by
      by_cases hpeg : votes.nPegStartHeight ≤ e.nHeight
      · exact h.index_carried hstart hpeg
      · have hlt : p.nHeight < e.nHeight := by
          rw [h.height, h.tail.height]
          exact Nat.lt_succ_self _
        rw [h.index_before (not_le.mp hpeg), h.tail.index_before (by omega)]
    rw [hep]
    rcases List.mem_cons.mp hf with rfl | hf
    · rfl
    · exact ih h.tail hf (hsame.trans hp.symm)

/-- All blocks of an interval carry one index. -/
theorem PegConnected.index_eq (h : PegConnected net votes chain) (he : e ∈ chain) (hf : f ∈ chain)
    (hsame : f.interval votes = e.interval votes) :
    e.pindex.nPegSupplyIndex = f.pindex.nPegSupplyIndex := by
  induction h with
  | nil => cases he
  | connect hchain hindex ih =>
    have hnew := PegConnected.connect hchain hindex
    rcases List.mem_cons.mp he with rfl | he <;> rcases List.mem_cons.mp hf with rfl | hf
    · rfl
    · exact hnew.index_eq_of_le hf hsame
    · exact (hnew.index_eq_of_le he hsame.symm).symm
    · exact ih he hf

/-! ## Vote totals -/

variable (net votes) in
/-- The vote that a block casts: that of the first output of its coinstake that votes. There
is none below the start of the peg. -/
def PegEntry.cast (e : PegEntry) : PegVotes :=
  if e.block.isProofOfStake = false ∨ e.nHeight < votes.nPegStartHeight then 0
  else
    ((e.block.vtx[1]?).bind fun tx =>
      (stakeVotes e.pegdb tx e.pindex.nPegSupplyIndex).map fun nVotes =>
        firstVote net votes tx nVotes).getD 0

variable (net votes) in
def voteTotals (chain : List PegEntry) (k : ℕ) : PegVotes :=
  ((chain.filter fun e => e.interval votes = k).map fun e => e.cast net votes).sum

theorem PegVotes.zero_add (a : PegVotes) : 0 + a = a := by
  ext <;> exact Int.zero_add _

theorem PegVotes.add_zero (a : PegVotes) : a + 0 = a := by
  ext <;> exact Int.add_zero _

theorem PegVotes.add_comm (a b : PegVotes) : a + b = b + a := by
  ext <;> exact Int.add_comm _ _

theorem voteTotals_cons_same {k : ℕ} (h : e.interval votes = k) :
    voteTotals net votes (e :: rest) k = e.cast net votes + voteTotals net votes rest k := by
  simp [voteTotals, h]

theorem voteTotals_cons_other {k : ℕ} (h : e.interval votes ≠ k) :
    voteTotals net votes (e :: rest) k = voteTotals net votes rest k := by
  simp [voteTotals, h]

theorem voteTotals_eq_zero {k : ℕ} (h : ∀ f ∈ chain, f.interval votes = k → f.cast net votes = 0) :
    voteTotals net votes chain k = 0 := by
  induction chain with
  | nil => rfl
  | cons e rest ih =>
    have hrest := ih fun f hf => h f (List.mem_cons_of_mem e hf)
    by_cases hk : e.interval votes = k
    · rw [voteTotals_cons_same hk, hrest, h e List.mem_cons_self hk, PegVotes.add_zero]
    · rw [voteTotals_cons_other hk, hrest]

/-- Blocks of other intervals do not count. -/
theorem voteTotals_append {k : ℕ} (h : ∀ f ∈ chain, f.interval votes ≠ k) :
    voteTotals net votes (chain ++ rest) k = voteTotals net votes rest k := by
  induction chain with
  | nil => rfl
  | cons e chain ih =>
    rw [List.cons_append, voteTotals_cons_other (h e List.mem_cons_self)]
    exact ih fun f hf => h f (List.mem_cons_of_mem e hf)

/-- From the start of the peg on the counters of a block are those before it and its vote. -/
theorem PegConnected.votes_step (h : PegConnected net votes (e :: rest))
    (hstake : e.block.isProofOfStake = true) (hpeg : votes.nPegStartHeight ≤ e.nHeight) :
    e.pindex.nPegVotes =
      carriedVotes votes e.nHeight (rest.map (·.pindex)) + e.cast net votes := by
  obtain ⟨-, hheight, hvotes⟩ := connectPegIndex_ok h.head
  have hcounted : ¬ (e.block.isProofOfStake = false ∨ e.nHeight < votes.nPegStartHeight) := by
    simp [hstake, hpeg]
  have hcounted' : ¬ (e.block.isProofOfStake = false ∨ nextHeight (rest.map (·.pindex)) <
      votes.nPegStartHeight) := hheight ▸ hcounted
  simp only [calculateBlockPegVotes, if_neg hcounted', Option.bind_eq_bind,
    Option.bind_eq_some_iff, pure] at hvotes
  obtain ⟨tx, htx, nVotes, hweight, hsum⟩ := hvotes
  rw [PegEntry.cast, if_neg hcounted, htx, Option.bind_some, hweight, Option.map_some,
    Option.getD_some, ← Option.some.inj hsum, ← hheight]
  rfl

/-- A block that is not counted has no counters. -/
theorem PegConnected.votes_none (h : PegConnected net votes (e :: rest))
    (hnone : e.block.isProofOfStake = false ∨ e.nHeight < votes.nPegStartHeight) :
    e.pindex.nPegVotes = 0 := by
  obtain ⟨-, hheight, hvotes⟩ := connectPegIndex_ok h.head
  have hnone' : e.block.isProofOfStake = false ∨ nextHeight (rest.map (·.pindex)) <
      votes.nPegStartHeight := hheight ▸ hnone
  rw [calculateBlockPegVotes, if_pos hnone'] at hvotes
  exact (Option.some.inj hvotes).symm

variable (votes) in
/-- From the start of the peg on, which starts an interval, all blocks are proof of stake. -/
structure StakeChain (chain : List PegEntry) : Prop where
  start : votes.nPegInterval ∣ votes.nPegStartHeight
  stake : ∀ e ∈ chain, votes.nPegStartHeight < e.nHeight → e.block.isProofOfStake = true

theorem StakeChain.of_subset (h : StakeChain votes chain) (hs : rest ⊆ chain) :
    StakeChain votes rest := ⟨h.start, fun e he => h.stake e (hs he)⟩

theorem PegEntry.cast_none
    (hnone : e.block.isProofOfStake = false ∨ e.nHeight < votes.nPegStartHeight) :
    e.cast net votes = 0 := if_pos hnone

/-- At the start of an interval the counters are the vote of the block. -/
theorem PegConnected.votes_first (h : PegConnected net votes (e :: rest))
    (hstart : e.nHeight % votes.nPegInterval = 0) : e.pindex.nPegVotes = e.cast net votes := by
  by_cases hnone : e.block.isProofOfStake = false ∨ e.nHeight < votes.nPegStartHeight
  · rw [h.votes_none hnone, PegEntry.cast_none hnone]
  · rw [not_or, Bool.not_eq_false, not_lt] at hnone
    rw [h.votes_step hnone.1 hnone.2, carriedVotes, if_pos hstart, PegVotes.zero_add]

/-- The counters of a block are the votes of its interval so far. -/
theorem PegConnected.votes_eq (h : PegConnected net votes (e :: rest))
    (hstake : StakeChain votes (e :: rest)) :
    e.pindex.nPegVotes = voteTotals net votes (e :: rest) (e.interval votes) := by
  induction rest generalizing e with
  | nil =>
    have hzero : e.nHeight % votes.nPegInterval = 0 := by rw [h.height, List.length_nil, Nat.zero_mod]
    rw [h.votes_first hzero, voteTotals_cons_same rfl]
    exact (PegVotes.add_zero _).symm
  | cons p rest ih =>
    rw [voteTotals_cons_same rfl]
    by_cases hstart : e.nHeight % votes.nPegInterval = 0
    · rw [h.votes_first hstart, voteTotals_eq_zero fun f hf hk => absurd hk (h.ne_interval hstart hf),
        PegVotes.add_zero]
    · by_cases hpeg : e.nHeight < votes.nPegStartHeight
      · have hbelow : ∀ f ∈ p :: rest, f.cast net votes = 0 := by
          intro f hf
          have hlt := h.tail.height_lt hf
          rw [← h.height] at hlt
          exact PegEntry.cast_none (Or.inr (hlt.trans hpeg))
        rw [h.votes_none (Or.inr hpeg), PegEntry.cast_none (Or.inr hpeg),
          voteTotals_eq_zero fun f hf _ => hbelow f hf, PegVotes.add_zero]
      · have habove : votes.nPegStartHeight < e.nHeight := by
          refine lt_of_le_of_ne (not_lt.mp hpeg) fun heq => ?_
          exact hstart (heq ▸ Nat.mod_eq_zero_of_dvd hstake.start)
        have hp := ih h.tail (hstake.of_subset (List.subset_cons_self e _))
        rw [h.votes_step (hstake.stake e List.mem_cons_self habove) habove.le, carriedVotes,
          if_neg hstart, List.map_cons, List.head?_cons, Option.map_some, Option.getD_some, hp,
          h.same_interval hstart, PegVotes.add_comm]

theorem interval_last {k : ℕ} (hlast : e.nHeight + 1 = (k + 1) * votes.nPegInterval) :
    e.interval votes = k := by
  have hpos := votes.interval_pos
  rw [interval_eq_iff, ← hlast]
  rw [add_mul, one_mul] at hlast
  omega

/-- At the last block of an interval the counters are complete. -/
theorem PegConnected.votes_last (h : PegConnected net votes chain) (hs : (e :: rest) <:+ chain)
    (hstake : StakeChain votes chain) {k : ℕ}
    (hlast : e.nHeight + 1 = (k + 1) * votes.nPegInterval) :
    e.pindex.nPegVotes = voteTotals net votes chain k := by
  obtain ⟨front, rfl⟩ := hs
  rw [(h.suffix (List.suffix_append _ _)).votes_eq
    (hstake.of_subset (List.subset_append_right front _)), interval_last hlast, voteTotals_append]
  intro f hf hsame
  have habove := h.above hf
  have hhigh := (interval_eq_iff.mp hsame).2
  omega

/-! ## The index follows the votes -/

/-- Steps that one kind of vote asks for: one for more votes than each of the other two kinds
has, another one each for more than twice and three times the votes that these had before. -/
def voteSteps (mine other nochange otherPrev nochangePrev : ℤ) : ℤ :=
  if other < mine ∧ nochange < mine then
    1 + (if 2 * otherPrev < mine ∧ 2 * nochangePrev < mine then 1 else 0) +
      (if 3 * otherPrev < mine ∧ 3 * nochangePrev < mine then 1 else 0)
  else 0

/-- How far the votes of an interval move the index, seen beside those of the interval before. -/
def voteMove (now prev : PegVotes) : ℤ :=
  voteSteps now.deflate now.inflate now.nochange prev.inflate prev.nochange -
    voteSteps now.inflate now.deflate now.nochange prev.deflate prev.nochange

theorem voteMove_le (now prev : PegVotes) : |voteMove now prev| ≤ 3 := by
  rw [abs_le]
  unfold voteMove voteSteps
  constructor <;> split_ifs <;> omega

/-- The code moves the index by the votes and clamps it. -/
theorem computeNextPegSupplyIndex_eq (nPegBase : ℤ) (now prev : CBlockIndex) :
    computeNextPegSupplyIndex nPegBase now prev =
      max 0 (min nPegMaxSupplyIndex (nPegBase + voteMove now.nPegVotes prev.nPegVotes)) := by
  have hmax : (0 : ℤ) ≤ nPegMaxSupplyIndex := by decide
  have hclamp : ∀ n : ℤ, (if nPegMaxSupplyIndex ≤ n then nPegMaxSupplyIndex
      else if n < 0 then 0 else n) = max 0 (min nPegMaxSupplyIndex n) := by
    intro n
    split_ifs <;> omega
  rw [computeNextPegSupplyIndex]
  simp only [hclamp]
  congr 2
  unfold voteMove voteSteps
  split_ifs <;> omega

theorem indexFromVotes_eq {l : List CBlockIndex} {nPegBase m n i : ℤ}
    (h : indexFromVotes l nPegBase m n = some i) :
    ∃ now prev, walkBack l m = some now ∧ walkBack l n = some prev ∧
      i = computeNextPegSupplyIndex nPegBase now prev := by
  simp only [indexFromVotes, Option.bind_eq_bind, Option.bind_eq_some_iff, pure] at h
  obtain ⟨now, hnow, prev, hprev, hi⟩ := h
  exact ⟨now, prev, hnow, hprev, (Option.some.inj hi).symm⟩

/-- The first block of an interval and what its index was computed from. -/
theorem PegConnected.first_block (h : PegConnected net votes chain) {k : ℕ}
    (hk : k * votes.nPegInterval < chain.length) (hpos : 0 < k)
    (hpeg : votes.nPegStartHeight ≤ k * votes.nPegInterval) :
    ∃ first prev rest, (first :: prev :: rest) <:+ chain ∧
      first.nHeight = k * votes.nPegInterval ∧
      indexFromVotes ((prev :: rest).map (·.pindex)) prev.pindex.nPegSupplyIndex
        (first.nHeight - votes.nPegInterval * 2 - 1) (first.nHeight - votes.nPegInterval * 3 - 1) =
          some first.pindex.nPegSupplyIndex := by
  obtain ⟨first, below, hs, hheight⟩ := h.exists_at hk
  have hfirst := h.suffix hs
  cases below with
  | nil =>
    have hzero := hfirst.height
    rw [hheight, List.length_nil] at hzero
    have hmul := Nat.mul_pos hpos votes.interval_pos
    omega
  | cons prev rest =>
    refine ⟨first, prev, rest, hs, hheight, hfirst.index_moved ?_ (hheight ▸ hpeg)⟩
    rw [hheight, Nat.mul_mod_left]

/-- The walk back to the last block of an interval finds the totals of its votes. -/
theorem PegConnected.walkBack_totals (h : PegConnected net votes chain) (hs : rest <:+ chain)
    (hstake : StakeChain votes chain) {k : ℕ} (hk : (k + 1) * votes.nPegInterval ≤ rest.length) :
    ∃ pindex, walkBack (rest.map (·.pindex)) ((k + 1) * votes.nPegInterval - 1) = some pindex ∧
      pindex.nPegVotes = voteTotals net votes chain k := by
  have hmul : 0 < (k + 1) * votes.nPegInterval := Nat.mul_pos (Nat.succ_pos k) votes.interval_pos
  obtain ⟨u, below, hu, hheight⟩ := (h.suffix hs).exists_at
    (n := (k + 1) * votes.nPegInterval - 1) (by omega)
  refine ⟨u.pindex, ?_, ?_⟩
  · have hwalk := (h.suffix hs).walkBack_eq hu
    have htarget : ((k : ℤ) + 1) * votes.nPegInterval - 1 = u.nHeight := by
      rw [hheight, Nat.cast_sub hmul]
      push_cast
      ring
    rw [htarget, hwalk]
  · exact h.votes_last (hu.trans hs) hstake (by omega)

/-- Every interval has one index in the range, which is that of the interval before moved by
the votes of the third and the fourth interval back. -/
theorem supplyIndex_follows_votes (h : PegConnected net votes chain)
    (hstake : StakeChain votes chain) (hgenesis : 4 * votes.nPegInterval ≤ votes.nPegStartHeight)
    (he : e ∈ chain) (hpeg : votes.nPegStartHeight ≤ e.nHeight) :
    (∀ f ∈ chain, f.interval votes = e.interval votes →
      f.pindex.nPegSupplyIndex = e.pindex.nPegSupplyIndex) ∧
    0 ≤ e.pindex.nPegSupplyIndex ∧ e.pindex.nPegSupplyIndex ≤ nPegMaxSupplyIndex ∧
    ∃ k, e.interval votes = k + 4 ∧ ∀ p ∈ chain, p.interval votes = k + 3 →
      ∃ d, |d| ≤ 3 ∧
        d = voteMove (voteTotals net votes chain (k + 1)) (voteTotals net votes chain k) ∧
        e.pindex.nPegSupplyIndex = max 0 (min nPegMaxSupplyIndex (p.pindex.nPegSupplyIndex + d)) := by
  obtain ⟨n, hn⟩ := hstake.start
  have hfour : 4 ≤ n := by
    rw [hn, mul_comm] at hgenesis
    exact Nat.le_of_mul_le_mul_left hgenesis votes.interval_pos
  have hn_le : n ≤ e.interval votes := by
    rw [PegEntry.interval, Nat.le_div_iff_mul_le votes.interval_pos, mul_comm, ← hn]
    exact hpeg
  obtain ⟨k, hk⟩ := Nat.exists_eq_add_of_le' (hfour.trans hn_le)
  have hlow := (interval_eq_iff.mp hk).1
  have hlength := h.height_lt he
  have hstart : votes.nPegStartHeight ≤ (k + 4) * votes.nPegInterval := by
    rw [hn, mul_comm, ← hk]
    exact Nat.mul_le_mul_right _ hn_le
  obtain ⟨first, prev, rest, hs, hheight, hmoved⟩ :=
    h.first_block (k := k + 4) (by omega) (Nat.succ_pos _) hstart
  have hfirst := h.suffix hs
  have hbelow : (prev :: rest) <:+ chain := (List.suffix_cons first _).trans hs
  have hbelow_length : (prev :: rest).length = (k + 4) * votes.nPegInterval := by
    rw [← hfirst.height, hheight]
  have hmono : ∀ j ≤ k + 4, j * votes.nPegInterval ≤ (prev :: rest).length := by
    intro j hj
    rw [hbelow_length]
    exact Nat.mul_le_mul_right _ hj
  obtain ⟨used, hused, hused_votes⟩ := h.walkBack_totals hbelow hstake (hmono (k + 2) (by omega))
  obtain ⟨old, hold, hold_votes⟩ := h.walkBack_totals hbelow hstake (hmono (k + 1) (by omega))
  obtain ⟨used', old', hused', hold', hindex⟩ := indexFromVotes_eq hmoved
  have hused_target : ((first.nHeight : ℤ) - votes.nPegInterval * 2 - 1) =
      (((k + 1 : ℕ) : ℤ) + 1) * votes.nPegInterval - 1 := by
    rw [hheight]
    push_cast
    ring
  have hold_target : ((first.nHeight : ℤ) - votes.nPegInterval * 3 - 1) =
      ((k : ℤ) + 1) * votes.nPegInterval - 1 := by
    rw [hheight]
    push_cast
    ring
  rw [hused_target, hused] at hused'
  rw [hold_target, hold] at hold'
  obtain rfl := Option.some.inj hused'
  obtain rfl := Option.some.inj hold'
  rw [computeNextPegSupplyIndex_eq, hused_votes, hold_votes] at hindex
  have hfirst_interval : first.interval votes = k + 4 := by
    rw [PegEntry.interval, hheight, Nat.mul_div_cancel _ votes.interval_pos]
  have hfirst_index : e.pindex.nPegSupplyIndex = first.pindex.nPegSupplyIndex :=
    h.index_eq he (hs.subset List.mem_cons_self) (hfirst_interval.trans hk.symm)
  refine ⟨fun f hf hsame => h.index_eq hf he hsame.symm, ?_, ?_, k, hk, ?_⟩
  · rw [hfirst_index, hindex]
    exact le_max_left _ _
  · rw [hfirst_index, hindex]
    exact max_le (by decide) (min_le_left _ _)
  · intro p hp hp_interval
    have hprev_interval : prev.interval votes = k + 3 := by
      refine interval_last ?_
      rw [hfirst.tail.height, ← List.length_cons, hbelow_length]
    rw [h.index_eq hp (hbelow.subset List.mem_cons_self) (hprev_interval.trans hp_interval.symm)]
    exact ⟨_, voteMove_le _ _, rfl, hfirst_index.trans hindex⟩

/-! ## A chain that votes for deflation -/

def sampleVoteNet : Params where
  pegFrozenTime := 10
  pegVFrozenTime := 20
  getHash := fun _ => 7
  destinations := fun s => if s = [] then [] else [CScript.toCString s]
  isValidAddress := fun _ => true

def sampleVotes : VoteParams where
  nPegInterval := 1
  nPegStartHeight := 4
  pegInflateAddr := ['i']
  pegDeflateAddr := ['d']
  pegNochangeAddr := ['n']
  interval_pos := by decide

/-- A block whose coinstake votes for deflation and, too late, for inflation. -/
def sampleVoteBlock : CBlock where
  vtx := [
    { vin := [{ prevout := ⟨0, 2 ^ 32 - 1⟩ }], vout := [⟨0, []⟩] },
    { vin := [{ prevout := ⟨1, 0⟩ }], vout := [⟨0, []⟩, ⟨0, [0x64]⟩, ⟨0, [0x69]⟩] }]

def sampleVoteBlocks : List (CBlock × MapFractions) :=
  List.replicate 8 (sampleVoteBlock, fun _ => none)

/-- The blocks of the sample chain, with heights and indices. -/
theorem sampleVotes_chain : ∃ e rest, PegConnected sampleVoteNet sampleVotes (e :: rest) ∧
    StakeChain sampleVotes (e :: rest) ∧
    ((e :: rest).map fun e => (e.nHeight, e.pindex.nPegSupplyIndex)) =
      [(7, 3), (6, 0), (5, 0), (4, 0), (3, 0), (2, 0), (1, 0), (0, 0)] := by
  have hblocks : (connectPegBlocks sampleVoteNet sampleVotes sampleVoteBlocks).map
      (fun chain => (chain.all fun e => e.block.isProofOfStake,
        chain.map fun e => (e.nHeight, e.pindex.nPegSupplyIndex))) =
      some (true, [(7, 3), (6, 0), (5, 0), (4, 0), (3, 0), (2, 0), (1, 0), (0, 0)]) := by
    decide +kernel
  obtain ⟨chain, hchain, hmap⟩ := Option.map_eq_some_iff.mp hblocks
  obtain ⟨hstake, hindices⟩ := Prod.mk.inj hmap
  obtain ⟨e, rest, rfl, -⟩ := List.map_eq_cons_iff.mp hindices
  exact ⟨e, rest, connectPegBlocks_connected hchain,
    ⟨by decide, fun f hf _ => List.all_eq_true.mp hstake f hf⟩, hindices⟩

theorem sampleVotes_follow : ∃ chain, ∃ e ∈ chain,
    PegConnected sampleVoteNet sampleVotes chain ∧ e.pindex.nPegSupplyIndex = 3 ∧
    (∀ f ∈ chain, f.interval sampleVotes = e.interval sampleVotes →
      f.pindex.nPegSupplyIndex = e.pindex.nPegSupplyIndex) ∧
    0 ≤ e.pindex.nPegSupplyIndex ∧ e.pindex.nPegSupplyIndex ≤ nPegMaxSupplyIndex ∧
    ∃ k, e.interval sampleVotes = k + 4 ∧ ∀ p ∈ chain, p.interval sampleVotes = k + 3 →
      ∃ d, |d| ≤ 3 ∧ d = voteMove (voteTotals sampleVoteNet sampleVotes chain (k + 1))
          (voteTotals sampleVoteNet sampleVotes chain k) ∧
        e.pindex.nPegSupplyIndex =
          max 0 (min nPegMaxSupplyIndex (p.pindex.nPegSupplyIndex + d)) := by
  obtain ⟨e, rest, hconnected, hstake, hindices⟩ := sampleVotes_chain
  obtain ⟨hheight, hindex⟩ := Prod.mk.inj (List.cons.inj hindices).1
  refine ⟨e :: rest, e, List.mem_cons_self, hconnected, hindex,
    supplyIndex_follows_votes hconnected hstake (by decide) List.mem_cons_self ?_⟩
  rw [hheight]
  decide

end BitBay
