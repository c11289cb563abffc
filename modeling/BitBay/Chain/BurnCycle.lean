import BitBay.Chain.BridgeBurns

/-!
# Cycles of blocks

The block that starts a bridge cycle finds the first block of the cycle before the last by
`Prev()` and walks over that cycle by `Next()`. When the pointers `Next()` lead along the chain
of the block up to the end of the cycle, the walk visits its blocks, and what it adds are their
burns, each once.
-/
namespace BitBay

open Run

deriving instance DecidableEq for DiskBlock, ChainEntry

/-! ## Pointers -/

/-- A block with all blocks below it, from it down; nothing is a null pointer. -/
abbrev BlockRef := List ChainEntry

def tipHeight (block : BlockRef) : ℕ := (block.head?).elim 0 fun e => e.pindex.nHeight

section Pointers

variable (nPegInterval nBridgeInterval : ℕ)

def pegCycleBlock (block : BlockRef) : BlockRef := block.drop (tipHeight block % nPegInterval)

def bridgeCycleBlock (block : BlockRef) : BlockRef :=
  block.drop (tipHeight block % nBridgeInterval)

def prevBridgeCycleBlock (block : BlockRef) : BlockRef :=
  (bridgeCycleBlock nBridgeInterval block).drop nBridgeInterval

/-- `Next()`, when the best chain is the one that the pointers were set for. -/
def nextBlock (best block : BlockRef) : BlockRef :=
  if block.length < best.length ∧ block <:+ best then best.drop (best.length - (block.length + 1))
  else []

/-- The blocks that a loop of some rounds visits by `Next()`; `none` when it reads a null
pointer. -/
def walkNext (best : BlockRef) : ℕ → BlockRef → Option (List BlockRef)
  | 0, _ => some []
  | _ + 1, [] => none
  | k + 1, e :: below =>
    (walkNext best k (nextBlock best (e :: below))).map fun rest => (e :: below) :: rest

/-- What the loop reads of a block, by the maps of bridges that the peg cycles have. -/
def cycleBlock (net : Params) (tables : BlockRef → Option (List BridgeEntry)) (block : BlockRef) :
    CycleBlock where
  bridges := if tipHeight block % nPegInterval = 0 then tables block else none
  burns := fun br_hash => (block.head?).elim [] fun e => blockBurnsToBridge net e.disk.block br_hash

/-- The height of the block that credits the burns of a block: two bridge cycles after the start
of its own. -/
def creditHeight (nHeight : ℕ) : ℕ := (nHeight / nBridgeInterval + 2) * nBridgeInterval

end Pointers

/-! ## The blocks of a cycle -/

section Cycle

variable {net : Params} {votes : VoteParams} {nBridgeInterval : ℕ} {best chain : BlockRef}
  {tables : BlockRef → Option (List BridgeEntry)} {i j k : ℕ}

def Contiguous (chain : BlockRef) : Prop :=
  ∀ (k : ℕ) (e : ChainEntry), chain[k]? = some e → e.pindex.nHeight + k + 1 = chain.length

theorem tipHeight_drop (h : Contiguous chain) (hk : k < chain.length) :
    tipHeight (chain.drop k) = chain.length - 1 - k := by
  have hsome : chain[k]? = some chain[k] := List.getElem?_eq_getElem hk
  have hheight := h k _ hsome
  rw [tipHeight, List.head?_drop, hsome, Option.elim_some]
  omega

theorem Contiguous.nextHeight (h : Contiguous chain) :
    nextHeight (chain.map (·.pindex)) = chain.length := by
  cases chain with
  | nil => rfl
  | cons e below => exact h 0 e rfl

/-- On the best chain the pointers lead to the block above. -/
theorem nextBlock_drop (hj : j < chain.length) (hsuffix : chain.drop j <:+ best) :
    nextBlock best (chain.drop (j + 1)) = chain.drop j := by
  have hle := hsuffix.length_le
  have hstep : chain.drop (j + 1) <:+ chain.drop j := by
    rw [← List.drop_drop]
    exact List.drop_suffix 1 _
  rw [List.length_drop] at hle
  have hlength : (chain.drop (j + 1)).length + 1 = (chain.drop j).length := by
    simp only [List.length_drop]
    omega
  rw [nextBlock, if_pos ⟨by simp only [List.length_drop]; omega, hstep.trans hsuffix⟩, hlength]
  exact (List.suffix_iff_eq_drop.mp hsuffix).symm

/-- A walk up the chain, as long as the best chain has its blocks. -/
theorem walkNext_drop {n m : ℕ} {refs : List BlockRef} (hsuffix : chain.drop n <:+ best)
    (h : walkNext best m (chain.drop (n + m - 1)) = some refs) :
    refs = (List.range m).map fun i => chain.drop (n + m - 1 - i) := by
  induction m generalizing refs with
  | zero =>
    obtain rfl := Option.some.inj h
    rfl
  | succ m ih =>
    have hstart : chain.drop (n + (m + 1) - 1) ≠ [] := by
      intro hnil
      rw [hnil] at h
      cases h
    obtain ⟨e, below, hcons⟩ := List.exists_cons_of_ne_nil hstart
    rw [hcons, walkNext, ← hcons] at h
    obtain ⟨rest, hrest, rfl⟩ := Option.map_eq_some_iff.mp h
    rw [List.range_succ_eq_map, List.map_cons, List.map_map]
    refine congrArg₂ List.cons rfl ?_
    cases m with
    | zero =>
      obtain rfl := Option.some.inj hrest
      rfl
    | succ m =>
      have hj : n + m < chain.length := by
        by_contra hge
        exact hstart (List.drop_eq_nil_of_le (by omega))
      have hnext : nextBlock best (chain.drop (n + (m + 1 + 1) - 1)) =
          chain.drop (n + (m + 1) - 1) := by
        rw [show n + (m + 1 + 1) - 1 = n + m + 1 by omega, show n + (m + 1) - 1 = n + m by omega]
        refine nextBlock_drop hj (List.IsSuffix.trans ?_ hsuffix)
        rw [← List.drop_drop]
        exact List.drop_suffix m _
      rw [hnext] at hrest
      rw [ih hrest]
      refine List.map_congr_left fun i hi => ?_
      rw [Function.comp_apply]
      congr 1
      have := List.mem_range.mp hi
      omega

/-- The blocks that the walk of a crediting block visits, the first one first. -/
def cycleRefs (nBridgeInterval : ℕ) (chain : BlockRef) : List BlockRef :=
  (List.range nBridgeInterval).map fun i => chain.drop (2 * nBridgeInterval - 1 - i)

theorem getElem?_cycleRefs (hi : i < nBridgeInterval) :
    (cycleRefs nBridgeInterval chain)[i]? = some (chain.drop (2 * nBridgeInterval - 1 - i)) := by
  simp [cycleRefs, hi]

/-- The walk of a crediting block over its own chain. -/
theorem walk_cycleRefs {refs : List BlockRef} (hpos : 0 < nBridgeInterval)
    (hchain : Contiguous chain) (hcredits : chain.length % nBridgeInterval = 0)
    (hsuffix : chain.drop nBridgeInterval <:+ best)
    (h : walkNext best nBridgeInterval (prevBridgeCycleBlock nBridgeInterval chain) = some refs) :
    refs = cycleRefs nBridgeInterval chain ∧ 2 * nBridgeInterval ≤ chain.length := by
  have hstart : prevBridgeCycleBlock nBridgeInterval chain ≠ [] := by
    intro hnil
    obtain ⟨m, rfl⟩ := Nat.exists_eq_add_of_lt hpos
    rw [hnil, Nat.zero_add] at h
    cases h
  have hne : 0 < chain.length := by
    by_contra hzero
    have hnil := List.length_eq_zero_iff.mp (by omega : chain.length = 0)
    rw [hnil] at hstart
    exact hstart (by simp [prevBridgeCycleBlock, bridgeCycleBlock])
  have htip : tipHeight chain = chain.length - 1 := by
    simpa using tipHeight_drop (k := 0) hchain hne
  have hmod : (chain.length - 1) % nBridgeInterval = nBridgeInterval - 1 := by
    obtain ⟨q, hq⟩ := Nat.dvd_of_mod_eq_zero hcredits
    obtain ⟨q, rfl⟩ : ∃ q', q = q' + 1 := ⟨q - 1, by
      rcases Nat.eq_zero_or_pos q with rfl | hq'
      · omega
      · omega⟩
    rw [hq, Nat.mul_succ, Nat.add_sub_assoc hpos, Nat.mul_add_mod]
    exact Nat.mod_eq_of_lt (by omega)
  have hfirst : prevBridgeCycleBlock nBridgeInterval chain =
      chain.drop (nBridgeInterval + nBridgeInterval - 1) := by
    rw [prevBridgeCycleBlock, bridgeCycleBlock, htip, hmod, List.drop_drop]
    congr 1
    omega
  rw [hfirst] at h hstart
  refine ⟨?_, ?_⟩
  · rw [walkNext_drop hsuffix h, cycleRefs, two_mul]
  · have hlt : nBridgeInterval + nBridgeInterval - 1 < chain.length := by
      by_contra hge
      exact hstart (List.drop_eq_nil_of_le (by omega))
    by_contra hless
    omega

/-- The place of a block in the cycle that is credited at a height. -/
theorem creditHeight_eq {nHeight : ℕ} :
    creditHeight nBridgeInterval nHeight =
      nHeight - nHeight % nBridgeInterval + 2 * nBridgeInterval := by
  have hdiv := Nat.div_add_mod nHeight nBridgeInterval
  rw [creditHeight, Nat.add_mul, Nat.mul_comm (nHeight / nBridgeInterval)]
  omega

theorem creditHeight_of_lt {q : ℕ} (hi : i < nBridgeInterval) :
    creditHeight nBridgeInterval (nBridgeInterval * q + i) =
      nBridgeInterval * q + 2 * nBridgeInterval := by
  rw [creditHeight_eq, Nat.mul_add_mod, Nat.mod_eq_of_lt hi, Nat.add_sub_cancel]

/-- What the cycle adds are burns of the blocks that are credited at its height. -/
theorem cycleAdded_source (hchain : Contiguous chain)
    (hcredits : chain.length % nBridgeInterval = 0) (hlong : 2 * nBridgeInterval ≤ chain.length)
    {bridges : List BridgeEntry} {a : BridgeEntry × BurnTxout}
    (ha : a ∈ cycleAdded bridges ((cycleRefs nBridgeInterval chain).map
      (cycleBlock votes.nPegInterval net tables))) :
    ∃ (j : ℕ) (e : ChainEntry), chain[j]? = some e ∧
      chain.length = creditHeight nBridgeInterval e.pindex.nHeight ∧
      a.2 ∈ blockBurnsToBridge net e.disk.block (getHex a.1.hash) := by
  obtain ⟨x, hx, hburn⟩ := mem_cycleAdded ha
  obtain ⟨ref, href, rfl⟩ := List.mem_map.mp hx
  obtain ⟨i, hi, rfl⟩ := List.mem_map.mp href
  have hi := List.mem_range.mp hi
  have hj : 2 * nBridgeInterval - 1 - i < chain.length := by omega
  have hsome := List.getElem?_eq_getElem hj
  refine ⟨_, _, hsome, ?_, ?_⟩
  · have hheight := hchain _ _ hsome
    obtain ⟨q, hq⟩ := Nat.dvd_of_mod_eq_zero hcredits
    obtain ⟨q, rfl⟩ : ∃ q', q = q' + 2 := by
      refine ⟨q - 2, ?_⟩
      have hle : nBridgeInterval * 2 ≤ nBridgeInterval * q := by omega
      have := Nat.le_of_mul_le_mul_left hle (by omega)
      omega
    have hlength : chain.length = nBridgeInterval * q + 2 * nBridgeInterval := by
      rw [hq, Nat.mul_add, Nat.mul_comm nBridgeInterval 2]
    rw [show chain[2 * nBridgeInterval - 1 - i].pindex.nHeight = nBridgeInterval * q + i by omega,
      creditHeight_of_lt hi, hlength]
  · simp only [cycleBlock, List.head?_drop, hsome, Option.elim_some] at hburn
    exact hburn

/-- A burn of a block in the cycle is added, when the map of its peg cycle has the bridge. -/
theorem cycleAdded_credited (hchain : Contiguous chain) (hdivides : votes.nPegInterval ∣ nBridgeInterval)
    (hpos : 0 < nBridgeInterval) {b : ChainEntry} (hb : chain[j]? = some b)
    (hcredit : chain.length = creditHeight nBridgeInterval b.pindex.nHeight)
    {table bridges : List BridgeEntry} {bridge : BridgeEntry} {burn : BurnTxout}
    (htable : tables (pegCycleBlock votes.nPegInterval (chain.drop j)) = some table)
    (hbridge : bridge ∈ table) (hsteps : bridge.hasSteps = true)
    (hburn : burn ∈ blockBurnsToBridge net b.disk.block (getHex bridge.hash)) :
    (bridge, burn) ∈ cycleAdded bridges ((cycleRefs nBridgeInterval chain).map
      (cycleBlock votes.nPegInterval net tables)) := by
  have hheight := hchain j b hb
  rw [creditHeight_eq] at hcredit
  have hi := Nat.mod_lt b.pindex.nHeight hpos
  have hle := Nat.mod_le b.pindex.nHeight nBridgeInterval
  have hP := votes.interval_pos
  -- The heights of the cycle start at a multiple of both intervals.
  have hstart : votes.nPegInterval ∣ b.pindex.nHeight - b.pindex.nHeight % nBridgeInterval :=
    hdivides.trans (Nat.dvd_sub_mod _)
  have hmods : ∀ k, (b.pindex.nHeight - b.pindex.nHeight % nBridgeInterval + k) %
      votes.nPegInterval = k % votes.nPegInterval := by
    intro k
    obtain ⟨q, hq⟩ := hstart
    rw [hq, Nat.mul_add_mod]
  generalize hstartAt : b.pindex.nHeight - b.pindex.nHeight % nBridgeInterval = start at hmods hcredit
  generalize hindex : b.pindex.nHeight % nBridgeInterval = i at hi hle hstartAt
  have hmod : b.pindex.nHeight % votes.nPegInterval = i % votes.nPegInterval := by
    rw [← hmods i]
    congr 1
    omega
  have hmod_le := Nat.mod_le i votes.nPegInterval
  have hget : ∀ k, k < nBridgeInterval → ((cycleRefs nBridgeInterval chain).map
      (cycleBlock votes.nPegInterval net tables))[k]? =
        some (cycleBlock votes.nPegInterval net tables (chain.drop (2 * nBridgeInterval - 1 - k))) := by
    intro k hk
    rw [List.getElem?_map, getElem?_cycleRefs hk]
    rfl
  have htip : ∀ k, k < nBridgeInterval →
      tipHeight (chain.drop (2 * nBridgeInterval - 1 - k)) = start + k := by
    intro k hk
    rw [tipHeight_drop hchain (by omega)]
    omega
  have hj : 2 * nBridgeInterval - 1 - i = j := by omega
  refine mem_cycleAdded_read (hget (i - i % votes.nPegInterval) (by omega)) ?_ hbridge hsteps
    (Nat.sub_le _ _) (hget i hi) ?_ ?_
  · have hread : tipHeight (chain.drop (2 * nBridgeInterval - 1 - (i - i % votes.nPegInterval))) %
        votes.nPegInterval = 0 := by
      rw [htip _ (by omega), hmods]
      exact Nat.mod_eq_zero_of_dvd (Nat.dvd_sub_mod i)
    have hcycle : pegCycleBlock votes.nPegInterval (chain.drop j) =
        chain.drop (2 * nBridgeInterval - 1 - (i - i % votes.nPegInterval)) := by
      rw [pegCycleBlock, ← hj, htip i hi, hmods, List.drop_drop]
      congr 1
      omega
    rw [cycleBlock, if_pos hread, ← hcycle, htable]
  · intro k y hlt hk hy
    rw [hget k (by omega)] at hy
    obtain rfl := Option.some.inj hy
    have hne : tipHeight (chain.drop (2 * nBridgeInterval - 1 - k)) % votes.nPegInterval ≠ 0 := by
      rw [htip k (by omega), hmods]
      intro hzero
      obtain ⟨q, hq⟩ := Nat.dvd_of_mod_eq_zero hzero
      have hdiv := Nat.div_add_mod i votes.nPegInterval
      have hlow : i / votes.nPegInterval < q := by
        by_contra hge
        have := Nat.mul_le_mul_left votes.nPegInterval (not_lt.mp hge)
        omega
      have hmul := Nat.mul_le_mul_left votes.nPegInterval (Nat.succ_le_of_lt hlow)
      have := Nat.mod_lt i hP
      rw [Nat.mul_succ] at hmul
      omega
    rw [cycleBlock, if_neg hne]
  · simp only [cycleBlock, hj, List.head?_drop, hb, Option.elim_some]
    exact hburn

/-- The blocks of a cycle add different outputs, when no transaction that burns is in two
blocks. -/
theorem cycleAdded_distinct (hids : ∀ e ∈ chain, (e.disk.block.vtx.map net.getHash).Nodup)
    (hunique : ∀ (j k : ℕ) (e e' : ChainEntry) (h h' : CString) (burn burn' : BurnTxout),
      chain[j]? = some e → chain[k]? = some e' → burn ∈ blockBurnsToBridge net e.disk.block h →
      burn' ∈ blockBurnsToBridge net e'.disk.block h' → burn.txout = burn'.txout → j = k)
    (htables : ∀ ref table, tables ref = some table → (table.map (·.hash)).Nodup)
    {bridges : List BridgeEntry} (hbridges : (bridges.map (·.hash)).Nodup)
    (hlong : 2 * nBridgeInterval ≤ chain.length) :
    ((cycleAdded bridges ((cycleRefs nBridgeInterval chain).map
      (cycleBlock votes.nPegInterval net tables))).map (·.2.txout)).Nodup := by
  have hblock : ∀ i < nBridgeInterval, ∃ e, chain[2 * nBridgeInterval - 1 - i]? = some e ∧
      (cycleBlock votes.nPegInterval net tables (chain.drop (2 * nBridgeInterval - 1 - i))).burns =
        blockBurnsToBridge net e.disk.block := by
    intro i hi
    have hsome := List.getElem?_eq_getElem (by omega : 2 * nBridgeInterval - 1 - i < chain.length)
    refine ⟨_, hsome, ?_⟩
    funext br_hash
    simp only [cycleBlock, List.head?_drop, hsome, Option.elim_some]
  refine cycleAdded_nodup ?_ ?_ ?_ hbridges
  · intro x hx
    obtain ⟨ref, href, rfl⟩ := List.mem_map.mp hx
    obtain ⟨i, hi, rfl⟩ := List.mem_map.mp href
    obtain ⟨e, he, hburns⟩ := hblock i (List.mem_range.mp hi)
    have hown := blockBurns_own (hids e (List.mem_of_getElem? he)) none
    exact ⟨fun h => hburns ▸ hown.nodup h, hburns ▸ hown.inj⟩
  · rw [List.pairwise_map, cycleRefs, List.pairwise_map]
    refine List.pairwise_lt_range.imp_of_mem fun {i k} hi hk hlt h h' burn burn' hburn hburn' => ?_
    have hi := List.mem_range.mp hi
    have hk := List.mem_range.mp hk
    obtain ⟨e, he, hburns⟩ := hblock i hi
    obtain ⟨e', he', hburns'⟩ := hblock k hk
    rw [hburns] at hburn
    rw [hburns'] at hburn'
    intro hsame
    have := hunique _ _ e e' h h' burn burn' he he' hburn hburn' hsame
    omega
  · intro x hx table htable
    obtain ⟨ref, href, rfl⟩ := List.mem_map.mp hx
    simp only [cycleBlock] at htable
    split_ifs at htable
    exact htables ref table htable

end Cycle

end BitBay
