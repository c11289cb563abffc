import BitBay.Chain.BurnCycle
import BitBay.Chain.ReturnOutputs

/-!
# Burns reach the pools

The pointers `Next()` lead along the best chain, and a reorganisation sets them only after it
has connected all of its blocks. In a run where they lead along the chain of every block that
credits burns, up to the end of the cycle, every burn reaches the pool of its bridge once. A
reorganisation that forks below that end credits the burns of the branch that it left.
-/
namespace BitBay

open Run

/-! ## Nodes -/

/-- A connected block with the map of bridges of its peg cycle, and what it read and left when
it credits the burns of a bridge cycle. -/
structure BurnStep extends BlockStep where
  table : Option (List BridgeEntry)
  cycle : List CycleBlock
  state : CycleState

def BurnStep.nHeight (c : BurnStep) : ℕ := c.entry.pindex.nHeight

def BurnStep.added (c : BurnStep) : List (BridgeEntry × BurnTxout) := cycleAdded [] c.cycle

/-- A node with the blocks that are connected above genesis, the last one first. -/
structure BurnNode where
  steps : List BurnStep
  stores : Stores
  /-- The maps of bridges of the peg cycles, by the first block. -/
  tables : BlockRef → Option (List BridgeEntry)
  /-- The chain that the pointers `Next()` lead along. -/
  best : BlockRef

section Model

variable (net : Params) (votes : VoteParams) (bp : BridgeParams) (rules : BlockRules)
  (nBridgeInterval : ℕ) (genesis : ChainEntry)

def BurnNode.chain (node : BurnNode) : BlockRef := node.steps.map (·.entry) ++ [genesis]

def CreditsBurns (nHeight : ℕ) : Prop :=
  votes.nPegStartHeight ≤ nHeight + 1 ∧ nHeight % nBridgeInterval = 0

structure BurnStep.Reads (node : BurnNode) (c : BurnStep) : Prop where
  /-- A block within a peg cycle has the map of its first block. -/
  table : c.nHeight % votes.nPegInterval ≠ 0 →
    c.table = node.tables (pegCycleBlock votes.nPegInterval (c.entry :: c.chain))
  started : c.table.isSome → votes.nPegStartHeight ≤ c.nHeight + 1
  pools : c.ctx.poolBridges = (c.table.getD []).map (·.hash)
  idle : ¬ CreditsBurns votes nBridgeInterval c.nHeight → c.cycle = []
  walk : CreditsBurns votes nBridgeInterval c.nHeight → ∃ refs,
    walkNext node.best nBridgeInterval (prevBridgeCycleBlock nBridgeInterval c.chain) = some refs ∧
    c.cycle = refs.map (cycleBlock votes.nPegInterval net node.tables)
  burns : CreditsBurns votes nBridgeInterval c.nHeight →
    c.ctx.burnCycle = c.cycle.map CycleBlock.toBurnBlock
  loop : CreditsBurns votes nBridgeInterval c.nHeight → ∃ queue,
    fetchBridgePoolsFractions votes c.before.pegdb c.nHeight c.ctx.poolBridges (fun _ => none) =
      some queue ∧
    collectCycle bp c.before.pegdb c.entry.pindex.nPegSupplyIndex c.nHeight c.cycle queue =
      some c.state

/-- The maps of bridges after a block: the first one of a peg cycle gets its own. -/
def BurnNode.tablesWith (node : BurnNode) (c : BurnStep) : BlockRef → Option (List BridgeEntry) :=
  if c.nHeight % votes.nPegInterval = 0 then Function.update node.tables (c.entry :: c.chain) c.table
  else node.tables

/-- One step of a node: a block is connected or taken back, or the pointers are set along the
chain, which is done after every block that extends the best chain and once at the end of a
reorganisation. -/
inductive BurnNodeStep : BurnNode → BurnNode → Prop
  | connect {node : BurnNode} (c : BurnStep) (hbefore : c.before = node.stores)
    (hchain : c.chain = node.chain genesis)
    (h : connectBlockState net votes bp rules nBridgeInterval c.ctx c.before c.chain c.disk =
      some (c.after, c.entry)) (hreads : c.Reads net votes bp nBridgeInterval node) :
    BurnNodeStep node ⟨c :: node.steps, c.after, node.tablesWith votes c, node.best⟩
  | disconnect {node : BurnNode} {c : BurnStep} {rest : List BurnStep} {st' : Stores}
    (hsteps : node.steps = c :: rest)
    (h : disconnectBlockState net rules node.stores c.entry.disk.block = some st') :
    BurnNodeStep node ⟨rest, st', node.tables, node.best⟩
  | commit {node : BurnNode} :
    BurnNodeStep node ⟨node.steps, node.stores, node.tables, node.chain genesis⟩

def BurnNode.Started (node : BurnNode) : Prop :=
  node.steps = [] ∧ node.stores.txdb = (fun _ => none) ∧ node.tables = (fun _ => none) ∧
    node.best = [genesis]

/-- The environment of a block: it was stored and, below a checkpoint, spends no output that
returns; different bridges have different hashes, which are no hashes of transactions. -/
structure BurnStep.Sound (node : BurnNode) (c : BurnStep) : Prop where
  block : SoundBlock net rules c.ctx (placedTxs rules (node.chain genesis)) c.disk
  names : ∀ bridges, c.table = some bridges →
    (bridges.map (·.hash)).Nodup ∧ ∀ bridge ∈ bridges, BridgeName net bridge.hash

/-- The pointers lead along the chain of the block, up to the end of the cycle that it credits.
They do unless a reorganisation connects the block and leaves the best chain below that end. -/
def BurnStep.Aligned (node : BurnNode) (c : BurnStep) : Prop :=
  CreditsBurns votes nBridgeInterval c.nHeight →
    (node.chain genesis).drop nBridgeInterval <:+ node.best

/-- The steps of a run from a new node on. The blocks that are connected meet a condition. -/
def BurnRun (condition : BurnNode → BurnStep → Prop) (node : BurnNode) : Prop :=
  ∃ start : BurnNode, start.Started genesis ∧ Relation.ReflTransGen
    (fun before after => BurnNodeStep net votes bp rules nBridgeInterval genesis before after ∧
      ∀ c, after.steps = c :: before.steps → condition before c) start node

structure BurnSystem : Prop where
  interval_pos : 0 < nBridgeInterval
  divides : votes.nPegInterval ∣ nBridgeInterval
  returns : ReturnRules net bp rules
  genesis_height : genesis.pindex.nHeight = 0
  genesis_ids : (genesis.disk.block.vtx.map net.getHash).Nodup
  genesis_returns : ∀ tx ∈ genesis.disk.block.vtx, tx.hasReturn = false
  genesis_inputs : ∀ tx ∈ genesis.disk.block.vtx, ∀ inp ∈ tx.vin, inp.prevout.hash = 0

/-- The bridge is registered, with steps, in every peg cycle from one block to another. -/
def BurnNode.Registered (node : BurnNode) (brhash : UInt256) (b c : BurnStep) : Prop :=
  ∀ e ∈ node.steps, b.nHeight ≤ e.nHeight → e.nHeight ≤ c.nHeight →
    ∃ bridges, e.table = some bridges ∧ ∃ bridge ∈ bridges, bridge.hash = brhash ∧ bridge.hasSteps

/-- A burn is credited: its fractions are the ones its block stored, they are added for its
bridge, and the tree of the bridge has one leaf for it. -/
structure BurnStep.CreditsBurn (b c : BurnStep) (brhash : UInt256) (burn : BurnTxout) : Prop where
  added : ∃ bridge, (bridge, burn) ∈ c.added ∧ bridge.hash = brhash
  stored : (c.before.pegdb burn.txout).isSome
  unchanged : c.before.pegdb burn.txout = b.after.pegdb burn.txout
  leaf : ∃ leaf, (∀ other, other ∈ c.state.bridge_cycle_burn_txouts brhash ∧
      other.burn.txout = burn.txout ↔ other = leaf) ∧
    leaf.burn = burn ∧ leaf.leaf ∈ c.state.leaves_sorted brhash

/-- Every burn of the chain reaches the pool of its bridge exactly once. -/
structure BurnNode.CreditsOnce (node : BurnNode) : Prop where
  /-- The pool of a registered bridge gets what is added, in full. -/
  pools : ∀ c ∈ node.steps, ∀ brhash ∈ c.ctx.poolBridges,
    storedPool c.after.pegdb brhash c.nHeight = storedPool c.before.pegdb brhash (c.nHeight - 1) +
      addedColumns c.before.pegdb brhash c.added
  credited : ∀ b ∈ node.steps, ∀ brhash, ∀ burn ∈ blockBurnsToBridge net b.disk.block (getHex brhash),
    ∀ c ∈ node.steps, c.nHeight = creditHeight nBridgeInterval b.nHeight →
    node.Registered brhash b c → b.CreditsBurn c brhash burn
  /-- No other block adds it, and no other bridge gets it. -/
  only : ∀ b ∈ node.steps, ∀ brhash, ∀ burn ∈ blockBurnsToBridge net b.disk.block (getHex brhash),
    ∀ c ∈ node.steps, ∀ a ∈ c.added, a.2.txout = burn.txout →
    c.nHeight = creditHeight nBridgeInterval b.nHeight ∧ a.1.hash = brhash
  /-- No output is added twice. -/
  once : (node.steps.flatMap fun c => c.added.map (·.2.txout)).Nodup

end Model

/-! ## Runs -/

section Runs

variable {net : Params} {votes : VoteParams} {bp : BridgeParams} {rules : BlockRules}
  {nBridgeInterval : ℕ} {genesis : ChainEntry} {node after : BurnNode} {b c : BurnStep}
  {st st' : Stores} {brhash : UInt256} {burn : BurnTxout}

structure BurnStep.Settled (net : Params) (votes : VoteParams) (bp : BridgeParams)
    (nBridgeInterval : ℕ) (below : List BurnStep) (c : BurnStep) : Prop where
  height : c.nHeight = c.chain.length
  pools : ∀ brhash ∈ c.ctx.poolBridges,
    storedPool c.after.pegdb brhash c.nHeight = storedPool c.before.pegdb brhash (c.nHeight - 1) +
      addedColumns c.before.pegdb brhash c.added
  source : ∀ a ∈ c.added, ∃ (j : ℕ) (e : ChainEntry), c.chain[j]? = some e ∧
    c.nHeight = creditHeight nBridgeInterval e.pindex.nHeight ∧
    a.2 ∈ blockBurnsToBridge net e.disk.block (getHex a.1.hash)
  distinct : (c.added.map (·.2.txout)).Nodup
  adds : c.added ≠ [] → CycleAdds bp c.before.pegdb c.entry.pindex.nPegSupplyIndex c.state c.added
  credited : ∀ b ∈ below, ∀ table, b.table = some table → c.table.isSome →
    c.nHeight = creditHeight nBridgeInterval b.nHeight → ∀ bridge ∈ table, bridge.hasSteps = true →
    ∀ burn ∈ blockBurnsToBridge net b.disk.block (getHex bridge.hash), (bridge, burn) ∈ c.added
  unchanged : ∀ b ∈ below, ∀ brhash, ∀ burn ∈ blockBurnsToBridge net b.disk.block brhash,
    (c.before.pegdb burn.txout).isSome → c.before.pegdb burn.txout = b.after.pegdb burn.txout

structure BurnNode.Inv (net : Params) (votes : VoteParams) (bp : BridgeParams) (rules : BlockRules)
    (nBridgeInterval : ℕ) (genesis : ChainEntry) (node : BurnNode) : Prop where
  contiguous : Contiguous (node.chain genesis)
  linked : ∀ (i : ℕ) (c : BurnStep), node.steps[i]? = some c →
    c.chain = (node.chain genesis).drop (i + 1) ∧ c.entry.disk = c.disk
  table_eq : ∀ c ∈ node.steps,
    c.table = node.tables (pegCycleBlock votes.nPegInterval (c.entry :: c.chain))
  names : ∀ ref bridges, node.tables ref = some bridges →
    (bridges.map (·.hash)).Nodup ∧ ∀ bridge ∈ bridges, BridgeName net bridge.hash
  ids : ∀ e ∈ node.chain genesis, (e.disk.block.vtx.map net.getHash).Nodup
  returns : ReturnsKept net rules node.stores.txdb (placedTxs rules (node.chain genesis))
  short : ∀ brhash, BridgeName net brhash → node.stores.txdb.All (ShortAt brhash)
  inputs : ∀ brhash, BridgeName net brhash → ∀ e ∈ node.chain genesis, ∀ tx ∈ e.disk.block.vtx,
    ∀ inp ∈ tx.vin, inp.prevout.hash = brhash → inp.prevout.n < 2
  kept : ∀ b ∈ node.steps, ∀ brhash, ∀ burn ∈ blockBurnsToBridge net b.disk.block brhash,
    (node.stores.pegdb burn.txout).isSome →
    node.stores.pegdb burn.txout = b.after.pegdb burn.txout
  settled : ∀ (i : ℕ) (c : BurnStep), node.steps[i]? = some c →
    c.Settled net votes bp nBridgeInterval (node.steps.drop (i + 1))

/-- A burned output returns. -/
theorem burn_hasReturn {block : CBlock} {br_hash : CString}
    (h : burn ∈ blockBurnsToBridge net block br_hash) :
    ∃ tx ∈ block.vtx, burn.txout.hash = net.getHash tx ∧ tx.hasReturn = true := by
  obtain ⟨tx, htx, hhash, out, hout, hnotary⟩ := mem_blockBurnsToBridge.mp h
  obtain ⟨notary, hnotary, -⟩ := Option.bind_eq_some_iff.mp hnotary
  exact ⟨tx, htx, hhash, List.any_eq_true.mpr
    ⟨out, List.mem_of_getElem? hout, isReturn_of_toNotary hnotary⟩⟩

/-- An output is burned in one block. -/
theorem burn_block_unique {index : TxIndexMap} {chain : BlockRef}
    (h : ReturnsKept net rules index (placedTxs rules chain)) {j k : ℕ} {e e' : ChainEntry}
    {br_hash br_hash' : CString} {burn' : BurnTxout} (he : chain[j]? = some e)
    (he' : chain[k]? = some e') (hburn : burn ∈ blockBurnsToBridge net e.disk.block br_hash)
    (hburn' : burn' ∈ blockBurnsToBridge net e'.disk.block br_hash')
    (hsame : burn.txout = burn'.txout) : j = k := by
  obtain ⟨tx, htx, hhash, hreturn⟩ := burn_hasReturn hburn
  obtain ⟨tx', htx', hhash', hreturn'⟩ := burn_hasReturn hburn'
  refine h.block_unique he he' htx htx' hreturn hreturn' ?_
  rw [← hhash, ← hhash', hsame]

/-- The block of a step in the chain. -/
theorem chain_step {i : ℕ} (hi : node.steps[i]? = some b) :
    (node.chain genesis)[i]? = some b.entry := by
  have hlt := (List.getElem?_eq_some_iff.mp hi).1
  rw [BurnNode.chain, List.getElem?_append_left (by simpa using hlt), List.getElem?_map, hi]
  rfl

/-- What a block adds to the pools is what the loop over its cycle collected. -/
theorem BurnStep.Reads.burned (hreads : c.Reads net votes bp nBridgeInterval node)
    (brhash : UInt256) :
    burnedForBridge votes nBridgeInterval c.ctx c.before.pegdb c.nHeight brhash =
      addedColumns c.before.pegdb brhash c.added := by
  by_cases hcredits : CreditsBurns votes nBridgeInterval c.nHeight
  · obtain ⟨queue, hqueue, hloop⟩ := hreads.loop hcredits
    have hburns := collectCycle_collectBurns hloop
    rw [← hreads.burns hcredits] at hburns
    rw [burnedForBridge, if_neg, hqueue]
    · dsimp only
      rw [hburns, Option.elim_some, (collectBurns_knows hburns).added]
      exact (collectCycle_added hloop).fractions brhash
    · rw [not_or, not_lt, not_not]
      exact hcredits
  · have hnone : c.added = [] := by
      rw [BurnStep.added, hreads.idle hcredits]
      rfl
    rw [burnedForBridge, if_pos, hnone]
    · rfl
    · rw [CreditsBurns, not_and_or, not_le] at hcredits
      exact hcredits

/-- A crediting block walks over its own chain. -/
theorem BurnStep.Reads.cycle_eq (hsys : BurnSystem net votes bp rules nBridgeInterval genesis)
    (hreads : c.Reads net votes bp nBridgeInterval node) (hinv : Contiguous (node.chain genesis))
    (hchain : c.chain = node.chain genesis) (hheight : c.nHeight = (node.chain genesis).length)
    (haligned : c.Aligned votes nBridgeInterval genesis node)
    (hcredits : CreditsBurns votes nBridgeInterval c.nHeight) :
    c.cycle = (cycleRefs nBridgeInterval (node.chain genesis)).map
      (cycleBlock votes.nPegInterval net node.tables) ∧
    2 * nBridgeInterval ≤ (node.chain genesis).length := by
  obtain ⟨refs, hwalk, hcycle⟩ := hreads.walk hcredits
  rw [hchain] at hwalk
  obtain ⟨rfl, hlong⟩ := walk_cycleRefs hsys.interval_pos hinv (hheight ▸ hcredits.2)
    (haligned hcredits) hwalk
  exact ⟨hcycle, hlong⟩

/-- A block that credits nothing adds nothing. -/
theorem BurnStep.Reads.credits (hreads : c.Reads net votes bp nBridgeInterval node)
    (hadded : c.added ≠ []) : CreditsBurns votes nBridgeInterval c.nHeight := by
  by_contra hidle
  refine hadded ?_
  rw [BurnStep.added, hreads.idle hidle]
  rfl

/-- The records of burned outputs that the node has are the ones that their blocks left. -/
theorem connect_kept (hconnected : connectBlockState net votes bp rules nBridgeInterval c.ctx
      c.before c.chain c.disk = some (c.after, c.entry))
    (hpools : ∀ brhash ∈ c.ctx.poolBridges, BridgeName net brhash)
    (hnamed : CreditsBurns votes nBridgeInterval c.nHeight →
      ∀ brhash ∈ namedBridges c.ctx.burnCycle, BridgeName net brhash)
    (hother : ∀ tx ∈ c.disk.block.vtx, burn.txout.hash ≠ net.getHash tx) {tx : CTransaction}
    (hhash : burn.txout.hash = net.getHash tx) (hsome : (c.after.pegdb burn.txout).isSome) :
    c.after.pegdb burn.txout = c.before.pegdb burn.txout := by
  obtain ⟨place, queue, s, done, hsteps⟩ := connectBlockState_ok hconnected
  have hqueue : queue burn.txout = none := by
    by_contra hqueued
    rcases bridgePools_keys hsteps.pools (Option.isSome_iff_ne_none.mpr hqueued) with
      hmem | ⟨hcredits, hmem⟩
    · exact (hpools _ hmem).not_tx tx hhash.symm
    · rw [← hsteps.height] at hcredits
      exact (hnamed hcredits _ hmem).not_tx tx hhash.symm
  have hdone : done.mapQueuedFractionsChanges burn.txout = none :=
    (hsteps.entries.other _ hother).trans hqueue
  obtain ⟨fr, hfr⟩ := Option.isSome_iff_exists.mp hsome
  have hstored := hfr
  rw [hsteps.pegdb] at hstored
  have hstored := prunePeg_some hstored
  rw [overlay_of_none hdone] at hstored
  rw [hfr, hstored]

/-- The bridges with pools are the ones of the map of the block. -/
theorem BurnStep.Reads.poolBridge (hreads : c.Reads net votes bp nBridgeInterval node)
    (hmem : brhash ∈ c.ctx.poolBridges) :
    ∃ bridges, c.table = some bridges ∧ ∃ bridge ∈ bridges, bridge.hash = brhash := by
  rw [hreads.pools] at hmem
  cases htable : c.table with
  | none =>
    rw [htable] at hmem
    cases hmem
  | some bridges =>
    rw [htable] at hmem
    exact ⟨bridges, rfl, List.mem_map.mp hmem⟩

/-- The bridges of a cycle are ones that the node has maps with. -/
theorem BurnStep.Reads.namedBridge (hreads : c.Reads net votes bp nBridgeInterval node)
    (hnames : ∀ ref bridges, node.tables ref = some bridges →
      (bridges.map (·.hash)).Nodup ∧ ∀ bridge ∈ bridges, BridgeName net bridge.hash)
    (hcredits : CreditsBurns votes nBridgeInterval c.nHeight)
    (hmem : brhash ∈ namedBridges c.ctx.burnCycle) : BridgeName net brhash := by
  obtain ⟨refs, -, hcycle⟩ := hreads.walk hcredits
  rw [hreads.burns hcredits, hcycle] at hmem
  obtain ⟨block, hblock, bridges, hbridges, hhash⟩ := hmem
  obtain ⟨x, hx, rfl⟩ := List.mem_map.mp hblock
  obtain ⟨ref, -, rfl⟩ := List.mem_map.mp hx
  obtain ⟨bridge, hbridge, rfl⟩ := List.mem_map.mp hhash
  simp only [CycleBlock.toBurnBlock, cycleBlock] at hbridges
  split_ifs at hbridges
  exact (hnames ref bridges hbridges).2 bridge hbridge

/-- The block that a step connects settles its burns. -/
theorem BurnNode.Inv.settle (hsys : BurnSystem net votes bp rules nBridgeInterval genesis)
    (hinv : node.Inv net votes bp rules nBridgeInterval genesis) (hbefore : c.before = node.stores)
    (hchain : c.chain = node.chain genesis)
    (h : connectBlockState net votes bp rules nBridgeInterval c.ctx c.before c.chain c.disk =
      some (c.after, c.entry)) (hreads : c.Reads net votes bp nBridgeInterval node)
    (hsound : c.Sound net rules genesis node)
    (haligned : c.Aligned votes nBridgeInterval genesis node) :
    c.Settled net votes bp nBridgeInterval node.steps := by
  obtain ⟨place, queue, s, done, hsteps⟩ := connectBlockState_ok h
  have hplace : place.nHeight = (node.chain genesis).length := by
    rw [hsteps.nHeight, hchain, hinv.contiguous.nextHeight]
  have hheight : c.nHeight = (node.chain genesis).length := hsteps.height.trans hplace
  have hcycle := hreads.cycle_eq hsys hinv.contiguous hchain hheight haligned
  constructor
  · rw [hheight, hchain]
  · intro brhash hmem
    obtain ⟨bridges, htable, bridge, hbridge, rfl⟩ := hreads.poolBridge hmem
    have hname := (hsound.names bridges htable).2 bridge hbridge
    have hstart := hreads.started (by rw [htable]; rfl)
    have hstored := hsteps.storedPool_started hname (hbefore ▸ hinv.short _ hname)
      (hchain ▸ hinv.inputs _ hname) hmem (by rw [hplace, ← hheight]; exact hstart)
    rw [hplace, ← hheight, hreads.burned] at hstored
    exact hstored
  · intro a ha
    have hcredits := hreads.credits (List.ne_nil_of_mem ha)
    obtain ⟨hcycle, hlong⟩ := hcycle hcredits
    rw [BurnStep.added, hcycle] at ha
    rw [hheight, hchain]
    exact cycleAdded_source hinv.contiguous (hheight ▸ hcredits.2) hlong ha
  · by_cases hnone : c.added = []
    · rw [hnone]
      exact List.nodup_nil
    · obtain ⟨hcycle, hlong⟩ := hcycle (hreads.credits hnone)
      rw [BurnStep.added, hcycle]
      exact cycleAdded_distinct hinv.ids (fun j k e e' h h' burn burn' he he' hburn hburn' hsame =>
        burn_block_unique hinv.returns he he' hburn hburn' hsame)
        (fun ref table htable => (hinv.names ref table htable).1) List.nodup_nil hlong
  · intro hadded
    obtain ⟨queue, -, hloop⟩ := hreads.loop (hreads.credits hadded)
    exact collectCycle_added hloop
  · intro b hb table htable hsome hcredit bridge hbridge hhas burn hburn
    have hcredits : CreditsBurns votes nBridgeInterval c.nHeight := by
      refine ⟨hreads.started hsome, ?_⟩
      rw [hcredit, creditHeight, Nat.mul_mod_left]
    obtain ⟨hcycle, -⟩ := hcycle hcredits
    obtain ⟨i, hi⟩ := List.getElem?_of_mem hb
    obtain ⟨hbchain, hbdisk⟩ := hinv.linked i b hi
    have hentry : (node.chain genesis)[i]? = some b.entry := chain_step hi
    have hdrop : (node.chain genesis).drop i = b.entry :: b.chain := by
      obtain ⟨hlt, hget⟩ := List.getElem?_eq_some_iff.mp hentry
      rw [List.drop_eq_getElem_cons hlt, hget, hbchain]
    have htables : node.tables (pegCycleBlock votes.nPegInterval ((node.chain genesis).drop i)) =
        some table := by
      rw [hdrop, ← hinv.table_eq b hb, htable]
    rw [BurnStep.added, hcycle]
    exact cycleAdded_credited hinv.contiguous hsys.divides hsys.interval_pos hentry
      (hheight ▸ hcredit) htables hbridge hhas (hbdisk ▸ hburn)
  · intro b hb brhash burn hburn hsome
    rw [hbefore] at hsome ⊢
    exact hinv.kept b hb brhash burn hburn hsome

theorem pegCycleBlock_length (block : BlockRef) :
    (pegCycleBlock votes.nPegInterval block).length ≤ block.length := by
  rw [pegCycleBlock, List.length_drop]
  exact Nat.sub_le _ _

/-- The maps that the blocks of a chain have are not the one of the block above. -/
theorem tablesWith_below {ref : BlockRef} (hlength : ref.length < (c.entry :: c.chain).length) :
    node.tablesWith votes c ref = node.tables ref := by
  unfold BurnNode.tablesWith
  split_ifs
  · exact Function.update_of_ne (fun heq => by rw [heq] at hlength; exact absurd hlength (lt_irrefl _)) _ _
  · rfl

theorem tablesWith_self (hreads : c.Reads net votes bp nBridgeInterval node) :
    node.tablesWith votes c (pegCycleBlock votes.nPegInterval (c.entry :: c.chain)) = c.table := by
  unfold BurnNode.tablesWith
  split_ifs with hfirst
  · have hself : pegCycleBlock votes.nPegInterval (c.entry :: c.chain) = c.entry :: c.chain := by
      rw [pegCycleBlock, show tipHeight (c.entry :: c.chain) = c.nHeight from rfl, hfirst,
        List.drop_zero]
    rw [hself, Function.update_self]
  · exact (hreads.table hfirst).symm

theorem tablesWith_cases {ref : BlockRef} {bridges : List BridgeEntry}
    (h : node.tablesWith votes c ref = some bridges) :
    c.table = some bridges ∨ node.tables ref = some bridges := by
  unfold BurnNode.tablesWith at h
  split_ifs at h
  · by_cases hsame : ref = c.entry :: c.chain
    · rw [hsame, Function.update_self] at h
      exact Or.inl h
    · rw [Function.update_of_ne hsame] at h
      exact Or.inr h
  · exact Or.inr h

theorem Contiguous.cons {chain : BlockRef} {e : ChainEntry} (h : Contiguous chain)
    (he : e.pindex.nHeight = chain.length) : Contiguous (e :: chain) := by
  intro k e' hk
  cases k with
  | zero =>
    obtain rfl := Option.some.inj hk
    rw [List.length_cons, he]
  | succ k =>
    have := h k e' hk
    rw [List.length_cons]
    omega

theorem Contiguous.tail {chain : BlockRef} {e : ChainEntry} (h : Contiguous (e :: chain)) :
    Contiguous chain := by
  intro k e' hk
  have := h (k + 1) e' hk
  rw [List.length_cons] at this
  omega

/-- A block that is connected keeps the invariant. -/
theorem BurnNode.Inv.connect (hsys : BurnSystem net votes bp rules nBridgeInterval genesis)
    (hinv : node.Inv net votes bp rules nBridgeInterval genesis) (hbefore : c.before = node.stores)
    (hchain : c.chain = node.chain genesis)
    (h : connectBlockState net votes bp rules nBridgeInterval c.ctx c.before c.chain c.disk =
      some (c.after, c.entry)) (hreads : c.Reads net votes bp nBridgeInterval node)
    (hsound : c.Sound net rules genesis node)
    (haligned : c.Aligned votes nBridgeInterval genesis node) :
    BurnNode.Inv net votes bp rules nBridgeInterval genesis
      ⟨c :: node.steps, c.after, node.tablesWith votes c, node.best⟩ := by
  have hsettled := hinv.settle hsys hbefore hchain h hreads hsound haligned
  obtain ⟨place, queue, s, done, hsteps⟩ := connectBlockState_ok h
  have hreturns : ReturnsKept net rules c.after.txdb
      (placedTxs rules (c.entry :: node.chain genesis)) :=
    connectBlockState_returnsKept hsys.returns (hbefore ▸ hinv.returns) hsound.block h
  constructor
  · exact hinv.contiguous.cons (hsettled.height.trans (congrArg _ hchain))
  · intro i b hb
    cases i with
    | zero =>
      obtain rfl := Option.some.inj hb
      exact ⟨hchain, hsteps.disk_eq⟩
    | succ i => exact hinv.linked i b hb
  · intro b hb
    rcases List.mem_cons.mp hb with rfl | hb
    · exact (tablesWith_self hreads).symm
    · obtain ⟨i, hi⟩ := List.getElem?_of_mem hb
      obtain ⟨hbchain, -⟩ := hinv.linked i b hi
      have hlt := (List.getElem?_eq_some_iff.mp hi).1
      rw [hinv.table_eq b hb]
      refine (tablesWith_below ((pegCycleBlock_length _).trans_lt ?_)).symm
      rw [List.length_cons, List.length_cons, hbchain, hchain, List.length_drop]
      have : (node.chain genesis).length = node.steps.length + 1 := by simp [BurnNode.chain]
      omega
  · intro ref bridges htable
    rcases tablesWith_cases htable with htable | htable
    · exact hsound.names bridges htable
    · exact hinv.names ref bridges htable
  · intro e he
    rcases List.mem_cons.mp he with rfl | he
    · rw [hsteps.disk_eq]
      exact (checkBlock_tx hsteps.checked).2
    · exact hinv.ids e he
  · exact hreturns
  · intro brhash hname
    exact connectBlockState_all hname.shortAt (hbefore ▸ hinv.short brhash hname) h
  · intro brhash hname e he
    rcases List.mem_cons.mp he with rfl | he
    · rw [hsteps.disk_eq]
      exact hsteps.inputs hname (hbefore ▸ hinv.short brhash hname)
    · exact hinv.inputs brhash hname e he
  · intro b hb brhash burn hburn hsome
    rcases List.mem_cons.mp hb with rfl | hb
    · rfl
    · obtain ⟨i, hi⟩ := List.getElem?_of_mem hb
      obtain ⟨tx, htx, hhash, hreturn⟩ := burn_hasReturn hburn
      have hkept : c.after.pegdb burn.txout = c.before.pegdb burn.txout := by
        refine connect_kept h ?_ ?_ ?_ hhash hsome
        · intro brhash hmem
          obtain ⟨bridges, htable, bridge, hbridge, rfl⟩ := hreads.poolBridge hmem
          exact (hsound.names bridges htable).2 bridge hbridge
        · intro hcredits brhash hmem
          exact hreads.namedBridge hinv.names hcredits hmem
        · intro tx' htx' heq
          have hfirst : (c.entry :: node.chain genesis)[0]? = some c.entry := rfl
          have hold : (c.entry :: node.chain genesis)[i + 1]? = some b.entry := chain_step hi
          obtain ⟨-, hbdisk⟩ := hinv.linked i b hi
          exact hreturns.newer_ne (Nat.succ_pos i) hfirst hold (hsteps.disk_eq ▸ htx')
            (hbdisk ▸ htx) hreturn (heq.symm.trans hhash)
      rw [hkept] at hsome ⊢
      rw [hbefore] at hsome ⊢
      exact hinv.kept b hb brhash burn hburn hsome
  · intro i b hb
    cases i with
    | zero =>
      obtain rfl := Option.some.inj hb
      exact hsettled
    | succ i => exact hinv.settled i b hb

/-- Taking blocks back erases records and changes none. -/
theorem disconnectBlockState_pegdb {block : CBlock} {fkey : UInt320}
    (h : disconnectBlockState net rules st block = some st') (hsome : (st'.pegdb fkey).isSome) :
    st'.pegdb fkey = st.pegdb fkey := by
  have hkept := foldlM_some_invariant
    (P := fun mid : Stores => (mid.pegdb fkey).isSome → mid.pegdb fkey = st.pegdb fkey)
    (fun tx _ mid next hmid hstep hnext => ?_) (fun _ => rfl) h
  · exact hkept hsome
  · obtain ⟨index, -, rfl⟩ := disconnectTx_ok hstep
    dsimp only at hnext ⊢
    split_ifs at hnext ⊢
    · cases hnext
    · exact hmid hnext

/-- A block that is taken back keeps the invariant. -/
theorem BurnNode.Inv.disconnect {rest : List BurnStep}
    (hinv : node.Inv net votes bp rules nBridgeInterval genesis) (hsteps : node.steps = c :: rest)
    (h : disconnectBlockState net rules node.stores c.entry.disk.block = some st') :
    BurnNode.Inv net votes bp rules nBridgeInterval genesis
      ⟨rest, st', node.tables, node.best⟩ := by
  have hchain : node.chain genesis =
      c.entry :: (BurnNode.mk rest st' node.tables node.best).chain genesis := by
    rw [BurnNode.chain, hsteps]
    rfl
  have hnext : ∀ (i : ℕ) (b : BurnStep), rest[i]? = some b → node.steps[i + 1]? = some b := by
    intro i b hb
    rw [hsteps]
    exact hb
  have hmem : ∀ b ∈ rest, b ∈ node.steps := by
    intro b hb
    rw [hsteps]
    exact List.mem_cons_of_mem _ hb
  constructor
  · exact (hchain ▸ hinv.contiguous).tail
  · intro i b hb
    obtain ⟨hbchain, hbdisk⟩ := hinv.linked (i + 1) b (hnext i b hb)
    rw [hchain] at hbchain
    exact ⟨hbchain, hbdisk⟩
  · exact fun b hb => hinv.table_eq b (hmem b hb)
  · exact hinv.names
  · exact fun e he => hinv.ids e (hchain ▸ List.mem_cons_of_mem _ he)
  · exact disconnectBlockState_returnsKept (hchain ▸ hinv.returns) h
  · intro brhash hname
    refine disconnectBlockState_all (fun hash txindex n hshort hsame => ?_)
      (hinv.short brhash hname) h
    rw [List.length_set]
    exact hshort hsame
  · exact fun brhash hname e he => hinv.inputs brhash hname e (hchain ▸ List.mem_cons_of_mem _ he)
  · intro b hb brhash burn hburn hsome
    have hkept := disconnectBlockState_pegdb h hsome
    dsimp only at hsome ⊢
    rw [hkept] at hsome ⊢
    exact hinv.kept b (hmem b hb) brhash burn hburn hsome
  · intro i b hb
    have hsettled := hinv.settled (i + 1) b (hnext i b hb)
    rw [hsteps] at hsettled
    exact hsettled

theorem BurnNode.Started.inv (hsys : BurnSystem net votes bp rules nBridgeInterval genesis)
    (h : node.Started genesis) : node.Inv net votes bp rules nBridgeInterval genesis := by
  obtain ⟨hnone, hempty, htables, -⟩ := h
  have hchain : node.chain genesis = [genesis] := by
    rw [BurnNode.chain, hnone]
    rfl
  constructor
  · intro k e hk
    rw [hchain] at hk ⊢
    cases k with
    | zero =>
      obtain rfl := Option.some.inj hk
      rw [hsys.genesis_height]
      rfl
    | succ k => cases hk
  · intro i b hb
    rw [hnone] at hb
    cases hb
  · intro b hb
    rw [hnone] at hb
    cases hb
  · intro ref bridges htable
    rw [htables] at htable
    cases htable
  · intro e he
    rw [hchain] at he
    obtain rfl := List.mem_singleton.mp he
    exact hsys.genesis_ids
  · -- Nothing in genesis returns.
    rw [hchain]
    have hnone : ∀ t ∈ placedTxs rules [genesis], t.1.hasReturn = false := by
      intro t ht
      rw [placedTxs, List.flatMap_singleton, List.mem_reverse] at ht
      refine hsys.genesis_returns t.1 ?_
      have hmem := List.mem_map_of_mem (f := Prod.fst) ht
      rw [DiskBlock.placed, placesFrom_map_fst] at hmem
      exact hmem
    refine ⟨List.pairwise_of_forall_mem_list fun newer _ older holder hreturn => ?_, ?_⟩
    · rw [hnone older holder] at hreturn
      cases hreturn
    · intro t ht n hreturn
      have := hasReturn_of_output hreturn
      rw [hnone t ht] at this
      cases this
  · intro brhash _ hash txindex hfound
    rw [hempty] at hfound
    cases hfound
  · intro brhash hname e he tx htx inp hinp hhash
    rw [hchain] at he
    obtain rfl := List.mem_singleton.mp he
    exact absurd (hhash.symm.trans (hsys.genesis_inputs tx htx inp hinp)) hname.ne_zero
  · intro b hb
    rw [hnone] at hb
    cases hb
  · intro i b hb
    rw [hnone] at hb
    cases hb

/-- The invariant holds all along a run. -/
theorem BurnRun.inv (hsys : BurnSystem net votes bp rules nBridgeInterval genesis)
    (hrun : BurnRun net votes bp rules nBridgeInterval genesis
      (fun node c => c.Sound net rules genesis node ∧ c.Aligned votes nBridgeInterval genesis node)
      node) : node.Inv net votes bp rules nBridgeInterval genesis := by
  obtain ⟨start, hstart, hsteps⟩ := hrun
  induction hsteps with
  | refl => exact hstart.inv hsys
  | tail _ hstep ih =>
    obtain ⟨hstep, hcondition⟩ := hstep
    cases hstep with
    | connect c hbefore hchain h hreads =>
      obtain ⟨hsound, haligned⟩ := hcondition c rfl
      exact ih.connect hsys hbefore hchain h hreads hsound haligned
    | disconnect hsteps h => exact ih.disconnect hsteps h
    | commit => exact ⟨ih.contiguous, ih.linked, ih.table_eq, ih.names, ih.ids, ih.returns, ih.short,
        ih.inputs, ih.kept, ih.settled⟩

/-- The height of a block counts the blocks below. -/
theorem BurnNode.Inv.height (hinv : node.Inv net votes bp rules nBridgeInterval genesis) {i : ℕ}
    (hi : node.steps[i]? = some c) : c.nHeight + i = node.steps.length := by
  have hheight := hinv.contiguous i c.entry (chain_step hi)
  rw [BurnNode.chain, List.length_append, List.length_map, List.length_singleton] at hheight
  rw [BurnStep.nHeight]
  omega

/-- What a block adds was burned in a block that it credits. -/
theorem BurnNode.Inv.source (hinv : node.Inv net votes bp rules nBridgeInterval genesis) {i : ℕ}
    (hi : node.steps[i]? = some c) {a : BridgeEntry × BurnTxout} (ha : a ∈ c.added) :
    ∃ (j : ℕ) (e : ChainEntry), (node.chain genesis)[j]? = some e ∧
      c.nHeight = creditHeight nBridgeInterval e.pindex.nHeight ∧
      a.2 ∈ blockBurnsToBridge net e.disk.block (getHex a.1.hash) := by
  obtain ⟨j, e, he, hheight, hburn⟩ := (hinv.settled i c hi).source a ha
  rw [(hinv.linked i c hi).1, List.getElem?_drop] at he
  exact ⟨i + 1 + j, e, he, hheight, hburn⟩

/-- A block that credits a burn adds it as one leaf. -/
theorem BurnStep.Settled.creditsBurn {below : List BurnStep}
    (h : c.Settled net votes bp nBridgeInterval below) (hb : b ∈ below) {bridge : BridgeEntry}
    {br_hash : CString} (hadded : (bridge, burn) ∈ c.added)
    (hburn : burn ∈ blockBurnsToBridge net b.disk.block br_hash) :
    b.CreditsBurn c bridge.hash burn := by
  have hadds := h.adds (List.ne_nil_of_mem hadded)
  have hstored := hadds.stored _ hadded
  refine ⟨⟨bridge, hadded, rfl⟩, hstored, h.unchanged b hb br_hash burn hburn hstored, ?_⟩
  obtain ⟨leaf, hleaf⟩ := Option.isSome_iff_exists.mp (hadds.made _ hadded)
  have hmem : leaf ∈ c.state.bridge_cycle_burn_txouts bridge.hash :=
    (hadds.leaves bridge.hash leaf).mpr ⟨_, hadded, rfl, hleaf⟩
  refine ⟨leaf, fun other => ⟨?_, ?_⟩, cycleLeaf_burn hleaf,
    List.mem_toFinset.mpr (List.mem_map_of_mem hmem)⟩
  · rintro ⟨hother, hsame⟩
    obtain ⟨a, ha, -, hmade⟩ := (hadds.leaves bridge.hash other).mp hother
    rw [cycleLeaf_burn hmade] at hsame
    obtain rfl := List.inj_on_of_nodup_map h.distinct ha hadded hsame
    rw [hleaf] at hmade
    exact (Option.some.inj hmade).symm
  · rintro rfl
    rw [cycleLeaf_burn hleaf]
    exact ⟨hmem, rfl⟩

/-- In a run whose pointers lead along the chain of every block that credits burns, every burn
reaches the pool of its bridge exactly once. -/
theorem burns_reach_pool_once (hsys : BurnSystem net votes bp rules nBridgeInterval genesis)
    (hrun : BurnRun net votes bp rules nBridgeInterval genesis
      (fun node c => c.Sound net rules genesis node ∧ c.Aligned votes nBridgeInterval genesis node)
      node) : node.CreditsOnce net nBridgeInterval := by
  have hinv := hrun.inv hsys
  have hindex : ∀ c ∈ node.steps, ∃ i, node.steps[i]? = some c :=
    fun c hc => List.getElem?_of_mem hc
  constructor
  · intro c hc
    obtain ⟨i, hi⟩ := hindex c hc
    exact (hinv.settled i c hi).pools
  · intro b hb brhash burn hburn c hc hcredit hregistered
    obtain ⟨i, hi⟩ := hindex c hc
    obtain ⟨j, hj⟩ := hindex b hb
    have hlow : b.nHeight < c.nHeight := by
      have hmod := Nat.mod_lt b.nHeight hsys.interval_pos
      rw [hcredit, creditHeight_eq]
      omega
    have hbelow : b ∈ node.steps.drop (i + 1) := by
      have hbheight := hinv.height hj
      have hcheight := hinv.height hi
      refine List.mem_of_getElem? (i := j - (i + 1)) ?_
      rw [List.getElem?_drop, show i + 1 + (j - (i + 1)) = j by omega, hj]
    obtain ⟨table, htable, bridge, hbridge, rfl, hsteps⟩ := hregistered b hb le_rfl hlow.le
    obtain ⟨ctable, hctable, -⟩ := hregistered c hc hlow.le le_rfl
    have hsettled := hinv.settled i c hi
    have hadded := hsettled.credited b hbelow table htable (by rw [hctable]; rfl) hcredit bridge
      hbridge hsteps burn hburn
    exact hsettled.creditsBurn hbelow hadded hburn
  · intro b hb brhash burn hburn c hc a ha hsame
    obtain ⟨i, hi⟩ := hindex c hc
    obtain ⟨j, hj⟩ := hindex b hb
    obtain ⟨k, e, he, hheight, hsource⟩ := hinv.source hi ha
    have hbentry : (node.chain genesis)[j]? = some b.entry := chain_step hj
    obtain ⟨-, hbdisk⟩ := hinv.linked j b hj
    rw [← hbdisk] at hburn
    obtain rfl : k = j := burn_block_unique hinv.returns he hbentry hsource hburn hsame
    rw [hbentry] at he
    obtain rfl := Option.some.inj he
    refine ⟨hheight, ?_⟩
    obtain ⟨-, hhash⟩ := blockBurns_inj (hinv.ids _ (List.mem_of_getElem? hbentry)) hsource hburn
      hsame
    exact getHex_injective hhash
  · rw [List.nodup_flatMap]
    constructor
    · intro c hc
      obtain ⟨i, hi⟩ := hindex c hc
      exact (hinv.settled i c hi).distinct
    · rw [List.pairwise_iff_getElem]
      intro i k hi hk hlt txout hmem hmem'
      obtain ⟨a, ha, rfl⟩ := List.mem_map.mp hmem
      obtain ⟨a', ha', hsame⟩ := List.mem_map.mp hmem'
      have hi := List.getElem?_eq_getElem hi
      have hk := List.getElem?_eq_getElem hk
      obtain ⟨j, e, he, hheight, hsource⟩ := hinv.source hi ha
      obtain ⟨j', e', he', hheight', hsource'⟩ := hinv.source hk ha'
      obtain rfl := burn_block_unique hinv.returns he he' hsource hsource' hsame.symm
      rw [he] at he'
      obtain rfl := Option.some.inj he'
      have := hinv.height hi
      have := hinv.height hk
      omega

end Runs

/-! ## Computed runs -/

section Computed

variable (net : Params) (votes : VoteParams) (bp : BridgeParams) (rules : BlockRules)
  (nBridgeInterval : ℕ) (genesis : ChainEntry)

instance : DecidablePred (CreditsBurns votes nBridgeInterval) := fun _ =>
  inferInstanceAs (Decidable (_ ∧ _))

instance (node : BurnNode) (c : BurnStep) :
    Decidable (c.Aligned votes nBridgeInterval genesis node) :=
  inferInstanceAs (Decidable (_ → _))

/-- The map of bridges of the next block, when it gets a given one as the first one of a peg
cycle. -/
def BurnNode.nextTable (node : BurnNode) (table : Option (List BridgeEntry)) :
    Option (List BridgeEntry) :=
  let nHeight := nextHeight ((node.chain genesis).map (·.pindex))
  if nHeight % votes.nPegInterval = 0 then table
  else node.tables ((node.chain genesis).drop (nHeight % votes.nPegInterval - 1))

def BurnNode.creditedRefs (node : BurnNode) : Option (List BlockRef) :=
  if CreditsBurns votes nBridgeInterval (nextHeight ((node.chain genesis).map (·.pindex))) then
    walkNext node.best nBridgeInterval
      (prevBridgeCycleBlock nBridgeInterval (node.chain genesis))
  else some []

/-- The step in which a node connects a block, with the map that the block gets when it is the
first one of a peg cycle. -/
def BurnNode.nextStep (node : BurnNode) (table : Option (List BridgeEntry)) (disk : DiskBlock) :
    Option BurnStep := do
  let chain := node.chain genesis
  let nHeight := nextHeight (chain.map (·.pindex))
  let table := node.nextTable votes genesis table
  let refs ← node.creditedRefs votes nBridgeInterval genesis
  let cycle := refs.map (cycleBlock votes.nPegInterval net node.tables)
  let ctx := { emptyContext with
    poolBridges := (table.getD []).map (·.hash)
    burnCycle := cycle.map CycleBlock.toBurnBlock }
  let connected ← connectBlockState net votes bp rules nBridgeInterval ctx node.stores chain disk
  let queue ← fetchBridgePoolsFractions votes node.stores.pegdb nHeight ctx.poolBridges
    (fun _ => none)
  let state ← collectCycle bp node.stores.pegdb connected.2.pindex.nPegSupplyIndex nHeight cycle
    queue
  if table.isSome ∧ nHeight + 1 < votes.nPegStartHeight then none
  else some {
    ctx, before := node.stores, chain, disk, after := connected.1, entry := connected.2, table,
    cycle, state }

inductive BurnAction
  | connect (table : Option (List BridgeEntry)) (disk : DiskBlock)
  | disconnect
  | commit

variable (check : BurnNode → BurnStep → Bool)

def BurnNode.act (node : BurnNode) : BurnAction → Option BurnNode
  | .connect table disk => do
    let c ← node.nextStep net votes bp rules nBridgeInterval genesis table disk
    if check node c then some ⟨c :: node.steps, c.after, node.tablesWith votes c, node.best⟩
    else none
  | .disconnect =>
    match node.steps with
    | [] => none
    | c :: rest => do
      let st ← disconnectBlockState net rules node.stores c.entry.disk.block
      return ⟨rest, st, node.tables, node.best⟩
  | .commit => some ⟨node.steps, node.stores, node.tables, node.chain genesis⟩

def BurnNode.start : BurnNode := ⟨[], emptyStores true, fun _ => none, [genesis]⟩

end Computed

section ComputedRuns

variable {net : Params} {votes : VoteParams} {bp : BridgeParams} {rules : BlockRules}
  {nBridgeInterval : ℕ} {genesis : ChainEntry} {node after : BurnNode} {c : BurnStep}
  {table : Option (List BridgeEntry)} {disk : DiskBlock} {check : BurnNode → BurnStep → Bool}

theorem BurnNode.nextStep_ok
    (h : node.nextStep net votes bp rules nBridgeInterval genesis table disk = some c) :
    BurnNodeStep net votes bp rules nBridgeInterval genesis node
      ⟨c :: node.steps, c.after, node.tablesWith votes c, node.best⟩ := by
  simp only [BurnNode.nextStep, Option.bind_eq_bind, Option.bind_eq_some_iff] at h
  obtain ⟨refs, hrefs, connected, hconnected, queue, hqueue, state, hstate, h⟩ := h
  split_ifs at h with hstart
  obtain rfl := Option.some.inj h
  obtain ⟨place, pools, s, done, hsteps⟩ := connectBlockState_ok hconnected
  have hheight : connected.2.pindex.nHeight =
      nextHeight ((node.chain genesis).map (·.pindex)) := hsteps.height.trans hsteps.nHeight
  refine BurnNodeStep.connect _ rfl rfl hconnected ?_
  constructor
  · intro hmod
    dsimp only [BurnStep.nHeight] at hmod ⊢
    rw [hheight] at hmod
    simp only [BurnNode.nextTable]
    rw [if_neg hmod, pegCycleBlock]
    have htip : tipHeight (connected.2 :: node.chain genesis) =
        nextHeight ((node.chain genesis).map (·.pindex)) := hheight
    obtain ⟨k, hk⟩ := Nat.exists_eq_succ_of_ne_zero hmod
    rw [htip, hk]
    rfl
  · intro hsome
    dsimp only [BurnStep.nHeight] at hsome ⊢
    rw [hheight]
    by_contra hlow
    exact hstart ⟨hsome, not_le.mp hlow⟩
  · rfl
  · intro hidle
    dsimp only [BurnStep.nHeight] at hidle ⊢
    rw [hheight] at hidle
    rw [BurnNode.creditedRefs, if_neg hidle] at hrefs
    obtain rfl := Option.some.inj hrefs
    rfl
  · intro hcredits
    dsimp only [BurnStep.nHeight] at hcredits ⊢
    rw [hheight] at hcredits
    rw [BurnNode.creditedRefs, if_pos hcredits] at hrefs
    exact ⟨refs, hrefs, rfl⟩
  · intro _
    rfl
  · intro _
    dsimp only [BurnStep.nHeight]
    rw [hheight]
    exact ⟨queue, hqueue, hstate⟩

theorem BurnNode.act_ok {action : BurnAction}
    (h : node.act net votes bp rules nBridgeInterval genesis check action = some after) :
    BurnNodeStep net votes bp rules nBridgeInterval genesis node after ∧
      ∀ c, after.steps = c :: node.steps → check node c = true := by
  cases action with
  | connect table disk =>
    simp only [BurnNode.act, Option.bind_eq_bind, Option.bind_eq_some_iff] at h
    obtain ⟨c, hc, h⟩ := h
    split_ifs at h with hcheck
    obtain rfl := Option.some.inj h
    refine ⟨BurnNode.nextStep_ok hc, fun c' heq => ?_⟩
    obtain rfl := (List.cons.inj heq).1
    exact hcheck
  | disconnect =>
    simp only [BurnNode.act] at h
    split at h
    · cases h
    · rename_i c rest hsteps
      simp only [Option.bind_eq_bind, Option.bind_eq_some_iff] at h
      obtain ⟨st, hst, h⟩ := h
      obtain rfl := Option.some.inj h
      refine ⟨BurnNodeStep.disconnect hsteps hst, fun c' heq => ?_⟩
      have hlength := congrArg List.length (hsteps ▸ heq : rest = c' :: c :: rest)
      simp only [List.length_cons] at hlength
      omega
  | commit =>
    obtain rfl := Option.some.inj h
    exact ⟨BurnNodeStep.commit, fun c heq => absurd heq.symm (List.cons_ne_self c node.steps)⟩

theorem BurnNode.run_ok {condition : BurnNode → BurnStep → Prop} {actions : List BurnAction}
    (hcheck : ∀ node c, check node c = true → condition node c)
    (h : actions.foldlM (BurnNode.act net votes bp rules nBridgeInterval genesis check)
      (BurnNode.start genesis) = some node) :
    BurnRun net votes bp rules nBridgeInterval genesis condition node := by
  refine ⟨BurnNode.start genesis, ⟨rfl, rfl, rfl, rfl⟩, ?_⟩
  refine foldlM_some_invariant (P := fun node => Relation.ReflTransGen _ (BurnNode.start genesis)
    node) (fun action _ before after hbefore hstep => ?_) Relation.ReflTransGen.refl h
  obtain ⟨hnode, hcond⟩ := BurnNode.act_ok hstep
  exact hbefore.tail ⟨hnode, fun c hc => hcheck _ _ (hcond c hc)⟩

end ComputedRuns

/-! ## A reorganisation that loses a burn -/

def burnNet : Params where
  pegFrozenTime := 10
  pegVFrozenTime := 20
  getHash := fun tx => BitVec.ofNat 256 (tx.nTime % 1000 + 1)
  destinations := fun _ => []
  isValidAddress := fun _ => true

def burnVotes : VoteParams where
  nPegInterval := 1
  nPegStartHeight := 4
  pegInflateAddr := ['i']
  pegDeflateAddr := ['d']
  pegNochangeAddr := ['n']
  interval_pos := sampleVotes.interval_pos

def burnBridge : BridgeEntry where
  hash := 5000
  pegSteps := 1
  microSteps := 1

def burnCoinBase (nTime : ℕ) : CTransaction where
  nTime
  vin := [{ prevout := ⟨0, 2 ^ 32 - 1⟩, scriptSig := [1, 1] }]
  vout := [⟨0, [0x42]⟩]

def burnTx : CTransaction where
  nTime := 45
  vin := [{ prevout := ⟨11, 0⟩ }]
  vout := [⟨0, pushNotaryText
    ("**Z**".toList ++ getHex burnBridge.hash ++ "0x".toList ++ List.replicate 40 '7')⟩]

/-- The block files have the coinbases and the burn; outputs that return are not spent. -/
def burnRules : BlockRules :=
  { sampleRules fun pos =>
      if pos = ⟨1, 51000, 51181⟩ then some burnTx
      else if pos.nTxPos = pos.nBlockPos + 81 then some (burnCoinBase (pos.nBlockPos / 1000))
      else none with
    verifySignature := fun txPrev tx i _ =>
      if (tx.vin[i]?.bind fun inp => txPrev.vout[inp.prevout.n]?).any (·.isReturn) then none
      else some ∅ }

def burnBlock (nTime : ℕ) (txs : List CTransaction) : DiskBlock where
  block := { nTime, vtx := burnCoinBase nTime :: txs }
  nFile := 1
  nBlockPos := 1000 * nTime

/-- The block has what was stored, and no map has another bridge. -/
def burnCheck (c : BurnStep) : Bool :=
  (∀ t ∈ c.disk.placed burnRules, burnRules.readTx t.2 = some t.1) ∧
    c.ctx.fBelowCheckpoint = false ∧ (c.table = none ∨ c.table = some [burnBridge])

/-- A block is connected; from the fourth one on it may get a map with the bridge. -/
def burnConnect (disk : DiskBlock) : BurnAction :=
  .connect (if disk.block.nTime < 40 then none else some [burnBridge]) disk

def burnExtend (disks : List DiskBlock) : List BurnAction :=
  disks.flatMap fun disk => [burnConnect disk, .commit]

/-- `Reorganize`: blocks are taken back, those of the other branch are connected, and only then
the pointers are set. -/
def burnReorganize (nDisconnect : ℕ) (disks : List DiskBlock) : List BurnAction :=
  List.replicate nDisconnect .disconnect ++ disks.map burnConnect ++ [.commit]

def burnStart : List BurnAction := burnExtend ([10, 20, 30, 40].map fun nTime => burnBlock nTime [])

def burnRun (check : BurnNode → BurnStep → Bool) (actions : List BurnAction) : Option BurnNode :=
  actions.foldlM (BurnNode.act burnNet burnVotes sampleBridgeParams burnRules 2 sampleGenesis check)
    (BurnNode.start sampleGenesis)

theorem burnRun_ok {check : BurnNode → BurnStep → Bool} {actions : List BurnAction}
    {condition : BurnNode → BurnStep → Prop} {node : BurnNode}
    (hcheck : ∀ node c, check node c = true → condition node c)
    (h : burnRun check actions = some node) :
    BurnRun burnNet burnVotes sampleBridgeParams burnRules 2 sampleGenesis condition node :=
  BurnNode.run_ok hcheck h

theorem burnHash_toNat (tx : CTransaction) :
    0 < (burnNet.getHash tx).toNat ∧ (burnNet.getHash tx).toNat ≤ 1000 := by
  have hlt := Nat.mod_lt tx.nTime (by decide : 1000 > 0)
  have hnat : (burnNet.getHash tx).toNat = tx.nTime % 1000 + 1 := by
    rw [burnNet, BitVec.toNat_ofNat, Nat.mod_eq_of_lt (by omega)]
  omega

theorem burnBridge_named : BridgeName burnNet burnBridge.hash := by
  refine ⟨fun tx heq => ?_, by decide⟩
  have hhash := (burnHash_toNat tx).2
  rw [heq] at hhash
  revert hhash
  decide

theorem burnSystem : BurnSystem burnNet burnVotes sampleBridgeParams burnRules 2 sampleGenesis where
  interval_pos := by decide
  divides := by decide
  returns := {
    unspendable := by
      intro txPrev tx i flags inp out hinp hout hreturn
      simp only [burnRules, hinp, hout, Option.bind_some, Option.any_some, hreturn, if_true]
    leaf_ne := by
      intro dest_addr sections section_peg nonce from_addr tx heq
      have hhash := (burnHash_toNat tx).2
      have hleaf : 1000 < (setHex (hexStr sampleLeaf)).toNat := by decide
      have hmint : setHex (hexStr sampleLeaf) = burnNet.getHash tx := heq
      rw [← hmint] at hhash
      omega
    ne_zero := by
      intro tx heq
      have hhash := (burnHash_toNat tx).1
      rw [heq] at hhash
      exact absurd hhash (by decide) }
  genesis_height := rfl
  genesis_ids := List.nodup_nil
  genesis_returns := fun _ h => absurd h List.not_mem_nil
  genesis_inputs := fun _ h => absurd h List.not_mem_nil

theorem burnCheck_sound {node : BurnNode} {c : BurnStep} (h : burnCheck c = true) :
    c.Sound burnNet burnRules sampleGenesis node := by
  simp only [burnCheck, Bool.decide_and, Bool.and_eq_true, decide_eq_true_eq] at h
  obtain ⟨hstored, hcheckpoint, htable⟩ := h
  refine ⟨⟨hstored, fun hbelow => ?_⟩, fun bridges hbridges => ?_⟩
  · rw [hcheckpoint] at hbelow
    cases hbelow
  · rw [hbridges] at htable
    rcases htable with hnone | hsome
    · cases hnone
    · obtain rfl := Option.some.inj hsome
      refine ⟨List.nodup_singleton _, fun bridge hbridge => ?_⟩
      rw [List.mem_singleton.mp hbridge]
      exact burnBridge_named

@[irreducible] def creditRun : Option BurnNode :=
  burnRun (fun node c => burnCheck c ∧ c.Aligned burnVotes 2 sampleGenesis node)
    (burnStart ++ burnExtend [burnBlock 51 [burnTx], burnBlock 60 [], burnBlock 70 [],
      burnBlock 80 []])

theorem creditRun_isSome : creditRun.isSome = true := by decide +kernel

/-- The fifth to seventh block are replaced by four others, the first of them with the burn and
the last the one that credits it. -/
@[irreducible] def lostRun : Option BurnNode :=
  burnRun (fun _ c => burnCheck c)
    (burnStart ++ burnExtend [burnBlock 50 [], burnBlock 60 [], burnBlock 70 []] ++
      burnReorganize 3 [burnBlock 51 [burnTx], burnBlock 61 [], burnBlock 71 [], burnBlock 81 []])

def lostRecord : BurnTxout := ⟨⟨46, 0⟩, "0x".toList ++ List.replicate 40 '7'⟩

/-- The bridge is in all maps, and the last block, which credits the burn, adds nothing. -/
def lostBurn (node : BurnNode) : Bool :=
  node.steps.any fun b => node.steps.any fun c =>
    b.nHeight = 5 ∧ c.nHeight = 8 ∧ c.added = [] ∧
      (∀ e ∈ node.steps, 5 ≤ e.nHeight → e.table = some [burnBridge]) ∧
      lostRecord ∈ blockBurnsToBridge burnNet b.disk.block (getHex burnBridge.hash)

theorem lostRun_any : lostRun.any lostBurn = true := by decide +kernel

theorem creditRun_once : ∃ node, creditRun = some node ∧ node.CreditsOnce burnNet 2 := by
  obtain ⟨node, hnode⟩ := Option.isSome_iff_exists.mp creditRun_isSome
  have hrun := hnode
  unfold creditRun at hrun
  refine ⟨node, hnode, burns_reach_pool_once burnSystem (burnRun_ok ?_ hrun)⟩
  intro node c hcheck
  obtain ⟨hsound, haligned⟩ := of_decide_eq_true hcheck
  exact ⟨burnCheck_sound hsound, haligned⟩

/-- The walk from the fourth block leads to the block that was replaced, and the burn of the new
one reaches no pool. -/
theorem reorganised_burn_lost : ∃ node,
    BurnSystem burnNet burnVotes sampleBridgeParams burnRules 2 sampleGenesis ∧
    BurnRun burnNet burnVotes sampleBridgeParams burnRules 2 sampleGenesis
      (fun node c => c.Sound burnNet burnRules sampleGenesis node) node ∧
    ¬ node.CreditsOnce burnNet 2 := by
  have hlost := lostRun_any
  cases hnode : lostRun with
  | none =>
    rw [hnode] at hlost
    cases hlost
  | some node => ?_
  rw [hnode, Option.any_some] at hlost
  unfold lostRun at hnode
  refine ⟨node, burnSystem, burnRun_ok (fun node c hcheck => burnCheck_sound hcheck) hnode,
    fun honce => ?_⟩
  obtain ⟨b, hb, hlost⟩ := List.any_eq_true.mp hlost
  obtain ⟨c, hc, hlost⟩ := List.any_eq_true.mp hlost
  obtain ⟨hbheight, hcheight, hnone, htables, hburn⟩ := of_decide_eq_true hlost
  have hcredit : c.nHeight = creditHeight 2 b.nHeight := by
    rw [hbheight, hcheight]
    rfl
  obtain ⟨⟨bridge, hadded, -⟩, -⟩ := honce.credited b hb burnBridge.hash lostRecord hburn c hc hcredit
    fun e he hlow _ => ⟨[burnBridge], htables e he (hbheight ▸ hlow), burnBridge,
      List.mem_singleton_self _, rfl, rfl⟩
  rw [hnone] at hadded
  cases hadded

end BitBay
