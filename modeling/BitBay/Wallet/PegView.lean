import BitBay.Wallet.WalletTx

/-!
# What the wallet keeps of the best block

The wallet caches the cycle, the supply indices and the time of the best block under the hash of
that block. The functions for the peg refresh all of it, those for the sums of an output leave
the predicted indices as they are, and both leave the same hash behind. So a prediction is of an
older block when the sums are asked for first.
-/
namespace BitBay

/-- A block that can be the best one, over the blocks that it follows. -/
structure BestBlock where
  pindex : CBlockIndex
  below : List CBlockIndex
  nTime : ℕ

structure PegView where
  nLastHashBestChain : UInt256 := 0
  nLastPegCycle : ℤ := 1
  nLastPegSupplyIndex : ℤ := 0
  nLastPegSupplyNIndex : ℤ := 0
  nLastPegSupplyNNIndex : ℤ := 0
  nLastBlockTime : ℕ := 0

structure CWallet extends PegView where
  mapWallet : UInt256 → Option CWalletTx
  nLastPegSupplyIndexToRecalc : ℤ := 0

structure WalletNode where
  hashBestChain : UInt256
  wallet : CWallet

section Model

variable (votes : VoteParams) (blocks : UInt256 → BestBlock) (isMine : CTxOut → Bool)

namespace BestBlock

variable (b : BestBlock)

def nPegCycle : ℤ := (b.pindex.nHeight / votes.nPegInterval : ℕ)

def nPegSupplyNIndex : Option ℤ := getNextIntervalPegSupplyIndex votes (b.pindex :: b.below)

def nPegSupplyNNIndex : Option ℤ := getNextNextIntervalPegSupplyIndex votes (b.pindex :: b.below)

end BestBlock

inductive PegQuery where
  | cycle
  | index
  | nIndex
  | nnIndex

namespace PegQuery

def cached (view : PegView) : PegQuery → ℤ
  | cycle => view.nLastPegCycle
  | index => view.nLastPegSupplyIndex
  | nIndex => view.nLastPegSupplyNIndex
  | nnIndex => view.nLastPegSupplyNNIndex

def current (b : BestBlock) : PegQuery → Option ℤ
  | cycle => some (b.nPegCycle votes)
  | index => some b.pindex.nPegSupplyIndex
  | nIndex => b.nPegSupplyNIndex votes
  | nnIndex => b.nPegSupplyNNIndex votes

end PegQuery

/-- Refresh all that is kept; `none` when a prediction would step below genesis. -/
def PegView.refreshed (view : PegView) (hash : UInt256) : Option PegView := do
  let best := blocks hash
  let nLastPegSupplyNIndex ← best.nPegSupplyNIndex votes
  let nLastPegSupplyNNIndex ← best.nPegSupplyNNIndex votes
  return { view with
    nLastHashBestChain := hash
    nLastPegCycle := best.nPegCycle votes
    nLastPegSupplyIndex := best.pindex.nPegSupplyIndex
    nLastPegSupplyNIndex
    nLastPegSupplyNNIndex
    nLastBlockTime := best.nTime }

def PegView.refreshedForSums (view : PegView) (hash : UInt256) : PegView :=
  { view with
    nLastHashBestChain := hash
    nLastPegCycle := (blocks hash).nPegCycle votes
    nLastPegSupplyIndex := (blocks hash).pindex.nPegSupplyIndex
    nLastBlockTime := (blocks hash).nTime }

namespace WalletNode

variable (node : WalletNode)

def withView (view : PegView) : WalletNode :=
  { node with wallet := { node.wallet with toPegView := view } }

def refresh : Option WalletNode :=
  if node.wallet.nLastHashBestChain = node.hashBestChain then some node
  else (node.wallet.toPegView.refreshed votes blocks node.hashBestChain).map node.withView

def refreshForSums : WalletNode :=
  if node.wallet.nLastHashBestChain = node.hashBestChain then node
  else node.withView (node.wallet.toPegView.refreshedForSums votes blocks node.hashBestChain)

def ask (q : PegQuery) : Option (ℤ × WalletNode) :=
  (node.refresh votes blocks).map fun node => (q.cached node.wallet.toPegView, node)

def getPegCycle : Option (ℤ × WalletNode) := node.ask votes blocks .cycle

def getPegSupplyIndex : Option (ℤ × WalletNode) := node.ask votes blocks .index

def getPegSupplyNIndex : Option (ℤ × WalletNode) := node.ask votes blocks .nIndex

def getPegSupplyNNIndex : Option (ℤ × WalletNode) := node.ask votes blocks .nnIndex

/-- A sum of an own output: `found` is about its transaction and fractions, at the cached index
and time. `none` when it throws. -/
def getSum {α : Type} (nothing : α) (found : PegView → CWalletTx → CFractionsRef → α)
    (txhash : UInt256) (n : ℤ) (txout : CTxOut) : Option (α × WalletNode) :=
  if moneyRange txout.nValue = false then none
  else if isMine txout = false then some (nothing, node)
  else
    let node := node.refreshForSums votes blocks
    some (((node.wallet.mapWallet txhash).bind fun wtx => (wtx.fractionsAt n).map fun fr =>
      found node.wallet.toPegView wtx fr).getD nothing, node)

def getFrozen (txhash : UInt256) (n : ℤ) (txout : CTxOut) :
    Option ((ℤ × List CFrozenCoinInfo) × WalletNode) :=
  node.getSum votes blocks isMine (0, []) (fun view wtx fr =>
    let nValue := (wtx.tx.vout.getD n.toNat default).nValue
    if fr.isFrozen view.nLastBlockTime then
      (nValue, [{ txhash, n := n.toNat, nValue, nFlags := fr.nFlags, nLockTime := fr.nLockTime }])
    else (0, [])) txhash n txout

def getReserve (txhash : UInt256) (n : ℤ) (txout : CTxOut) : Option (ℤ × WalletNode) :=
  node.getSum votes blocks isMine 0 (fun view _ fr =>
    if fr.isFrozen view.nLastBlockTime then 0
    else (fr.ref.lowPart view.nLastPegSupplyIndex.toNat).total) txhash n txout

def getLiquidity (txhash : UInt256) (n : ℤ) (txout : CTxOut) : Option (ℤ × WalletNode) :=
  node.getSum votes blocks isMine 0 (fun view _ fr =>
    if fr.isFrozen view.nLastBlockTime then 0
    else (fr.ref.highPart view.nLastPegSupplyIndex.toNat).total) txhash n txout

end WalletNode

def CWallet.markDirty (wallet : CWallet) : CWallet :=
  { wallet with mapWallet := fun hash => (wallet.mapWallet hash).map CWalletTx.markDirty }

/-- `SetBestChain` of the wallet, which reads the block that is published as the best one. -/
def CWallet.setBestChain (wallet : CWallet) (hashBestChain : UInt256) : CWallet :=
  let pblockindex := blocks hashBestChain
  if pblockindex.pindex.nPegSupplyIndex ≠ wallet.nLastPegSupplyIndexToRecalc then
    CWallet.markDirty { wallet with
      nLastPegSupplyIndexToRecalc := pblockindex.pindex.nPegSupplyIndex
      nLastBlockTime := pblockindex.nTime }
  else wallet

def signalsBestChain (fIsInitialDownload : Bool) (nHeight : ℕ) : Bool :=
  nHeight % 20160 = 0 ∨ (fIsInitialDownload = false ∧ nHeight % 144 = 0) ∨
    (fIsInitialDownload = false ∧ nHeight % votes.nPegInterval = 0)

/-- The end of `CBlock::SetBestChain`: the wallet is told before the block is published. -/
def WalletNode.setBestChain (node : WalletNode) (fIsInitialDownload : Bool) (hash : UInt256) :
    WalletNode where
  hashBestChain := hash
  wallet :=
    if signalsBestChain votes fIsInitialDownload (blocks hash).pindex.nHeight then
      node.wallet.setBestChain blocks node.hashBestChain
    else node.wallet

inductive PegCall where
  | setBestChain (fIsInitialDownload : Bool) (hash : UInt256)
  | ask (q : PegQuery)
  | getFrozen (txhash : UInt256) (n : ℤ) (txout : CTxOut)
  | getReserve (txhash : UInt256) (n : ℤ) (txout : CTxOut)
  | getLiquidity (txhash : UInt256) (n : ℤ) (txout : CTxOut)

/-- What a call leaves; `none` when it does not return. -/
def PegCall.apply (node : WalletNode) : PegCall → Option WalletNode
  | .setBestChain fIsInitialDownload hash =>
    some (node.setBestChain votes blocks fIsInitialDownload hash)
  | .ask q => (node.ask votes blocks q).map Prod.snd
  | .getFrozen txhash n txout => (node.getFrozen votes blocks isMine txhash n txout).map Prod.snd
  | .getReserve txhash n txout => (node.getReserve votes blocks isMine txhash n txout).map Prod.snd
  | .getLiquidity txhash n txout =>
    (node.getLiquidity votes blocks isMine txhash n txout).map Prod.snd

def PegCall.txout? : PegCall → Option CTxOut
  | .getFrozen _ _ txout => some txout
  | .getReserve _ _ txout => some txout
  | .getLiquidity _ _ txout => some txout
  | _ => none

/-- A call that returned, between the nodes before and after it. No block has the hash zero. -/
structure PegStep where
  before : WalletNode
  call : PegCall
  after : WalletNode

structure PegStep.Valid (step : PegStep) : Prop where
  hash_ne : ∀ fIsInitialDownload hash, step.call = .setBestChain fIsInitialDownload hash → hash ≠ 0
  returns : step.call.apply votes blocks isMine step.before = some step.after

inductive PegRun (start : WalletNode) : List PegStep → WalletNode → Prop
  | start : PegRun start [] start
  | call {steps : List PegStep} {step : PegStep} : PegRun start steps step.before →
      step.Valid votes blocks isMine → PegRun start (steps ++ [step]) step.after

/-- A wallet that has not refreshed yet, beside a best block. -/
structure WalletNode.Loaded (node : WalletNode) : Prop where
  hash_ne : node.hashBestChain ≠ 0
  view : node.wallet.toPegView = {}

/-- Each of the four functions returns what is computed from the best block. -/
def WalletNode.Current (node : WalletNode) : Prop :=
  ∀ q v node', node.ask votes blocks q = some (v, node') →
    q.current votes (blocks node.hashBestChain) = some v

def PegStep.RefreshesSums (step : PegStep) : Prop :=
  (∃ txout, step.call.txout? = some txout ∧ moneyRange txout.nValue = true ∧ isMine txout = true) ∧
    step.before.wallet.nLastHashBestChain ≠ step.before.hashBestChain

def PegStep.KeepsPredictions (step : PegStep) : Prop :=
  (blocks step.before.hashBestChain).nPegSupplyNIndex votes =
      some step.before.wallet.nLastPegSupplyNIndex ∧
    (blocks step.before.hashBestChain).nPegSupplyNNIndex votes =
      some step.before.wallet.nLastPegSupplyNNIndex

end Model

/-! ## Fresh values -/

section Fresh

variable {votes : VoteParams} {blocks : UInt256 → BestBlock} {isMine : CTxOut → Bool}
  {view view' : PegView} {node node' start : WalletNode} {hash : UInt256}

variable (votes blocks) in
def PegView.Fresh (view : PegView) : Prop :=
  view.nLastHashBestChain ≠ 0 →
    ∀ q : PegQuery, q.current votes (blocks view.nLastHashBestChain) = some (q.cached view)

theorem PegView.fresh_of_eq_zero (h : view.nLastHashBestChain = 0) : view.Fresh votes blocks :=
  fun hne => absurd h hne

theorem PegView.fresh_refreshed (h : view.refreshed votes blocks hash = some view') :
    view'.nLastHashBestChain = hash ∧ view'.Fresh votes blocks := by
  obtain ⟨nIndex, hn, h⟩ := Option.bind_eq_some_iff.mp h
  obtain ⟨nnIndex, hnn, h⟩ := Option.bind_eq_some_iff.mp h
  obtain rfl := Option.some.inj h
  refine ⟨rfl, fun _ q => ?_⟩
  cases q with
  | cycle => rfl
  | index => rfl
  | nIndex => exact hn
  | nnIndex => exact hnn

theorem PegView.fresh_refreshedForSums
    (hn : (blocks hash).nPegSupplyNIndex votes = some view.nLastPegSupplyNIndex)
    (hnn : (blocks hash).nPegSupplyNNIndex votes = some view.nLastPegSupplyNNIndex) :
    (view.refreshedForSums votes blocks hash).Fresh votes blocks := by
  intro _ q
  cases q with
  | cycle => rfl
  | index => rfl
  | nIndex => exact hn
  | nnIndex => exact hnn

theorem WalletNode.fresh_refresh (h : node.wallet.Fresh votes blocks)
    (hr : node.refresh votes blocks = some node') :
    node'.hashBestChain = node.hashBestChain ∧
      node'.wallet.nLastHashBestChain = node.hashBestChain ∧ node'.wallet.Fresh votes blocks := by
  unfold WalletNode.refresh at hr
  split_ifs at hr with hsame
  · obtain rfl := Option.some.inj hr
    exact ⟨rfl, hsame, h⟩
  · obtain ⟨view, hview, rfl⟩ := Option.map_eq_some_iff.mp hr
    exact ⟨rfl, PegView.fresh_refreshed hview⟩

/-- Fresh values are the ones that the functions return. -/
theorem WalletNode.current_of_fresh (hne : node.hashBestChain ≠ 0)
    (h : node.wallet.Fresh votes blocks) : node.Current votes blocks := by
  intro q v node' hask
  obtain ⟨mid, hmid, heq⟩ := Option.map_eq_some_iff.mp hask
  obtain ⟨rfl, rfl⟩ := Prod.mk.inj heq
  obtain ⟨-, hlast, hfresh⟩ := WalletNode.fresh_refresh h hmid
  rw [← hlast]
  exact hfresh (hlast ▸ hne) q

/-- After a refresh for sums nothing is refreshed before the next change. -/
theorem WalletNode.ask_refreshedForSums {q : PegQuery} :
    (node.withView (view.refreshedForSums votes blocks node.hashBestChain)).ask votes blocks q =
      some (q.cached (view.refreshedForSums votes blocks node.hashBestChain),
        node.withView (view.refreshedForSums votes blocks node.hashBestChain)) := by
  have hsame : (node.withView (view.refreshedForSums votes blocks node.hashBestChain)).refresh
      votes blocks = some (node.withView (view.refreshedForSums votes blocks node.hashBestChain)) :=
    if_pos rfl
  rw [WalletNode.ask, hsame]
  rfl

/-- A signal leaves the values that the four functions return. -/
theorem WalletNode.fresh_setBestChain {fIsInitialDownload : Bool}
    (h : node.wallet.Fresh votes blocks) :
    (node.setBestChain votes blocks fIsInitialDownload hash).wallet.Fresh votes blocks := by
  unfold WalletNode.setBestChain CWallet.setBestChain
  dsimp only
  split_ifs
  · intro hne q
    have hq := h hne q
    cases q <;> exact hq
  · exact h
  · exact h

/-- A call for a sum leaves the node as it is, or refreshes for sums. -/
theorem WalletNode.getSum_node {α : Type} {nothing r : α} {txhash : UInt256} {n : ℤ}
    {found : PegView → CWalletTx → CFractionsRef → α} {txout : CTxOut}
    (h : node.getSum votes blocks isMine nothing found txhash n txout = some (r, node')) :
    node' = if moneyRange txout.nValue = true ∧ isMine txout = true then
      node.refreshForSums votes blocks else node := by
  unfold WalletNode.getSum at h
  split_ifs at h with hrange hmine
  · obtain ⟨-, rfl⟩ := Prod.mk.inj (Option.some.inj h)
    simp [hmine]
  · obtain ⟨-, rfl⟩ := Prod.mk.inj (Option.some.inj h)
    simp only [Bool.not_eq_false] at hrange hmine
    rw [if_pos ⟨hrange, hmine⟩]

theorem PegCall.sum_apply {call : PegCall} {txout : CTxOut} (hcall : call.txout? = some txout)
    (h : call.apply votes blocks isMine node = some node') :
    node' = if moneyRange txout.nValue = true ∧ isMine txout = true then
      node.refreshForSums votes blocks else node := by
  cases call with
  | setBestChain fIsInitialDownload hash => cases hcall
  | ask q => cases hcall
  | getFrozen txhash n out =>
    obtain rfl := Option.some.inj hcall
    obtain ⟨⟨r, mid⟩, hmid, rfl⟩ := Option.map_eq_some_iff.mp h
    exact WalletNode.getSum_node hmid
  | getReserve txhash n out =>
    obtain rfl := Option.some.inj hcall
    obtain ⟨⟨r, mid⟩, hmid, rfl⟩ := Option.map_eq_some_iff.mp h
    exact WalletNode.getSum_node hmid
  | getLiquidity txhash n out =>
    obtain rfl := Option.some.inj hcall
    obtain ⟨⟨r, mid⟩, hmid, rfl⟩ := Option.map_eq_some_iff.mp h
    exact WalletNode.getSum_node hmid

/-- The call is for a sum, or one of the others. -/
theorem PegCall.cases_sum (call : PegCall) : (∃ txout, call.txout? = some txout) ∨
    (∃ q, call = .ask q) ∨
      ∃ fIsInitialDownload hash, call = .setBestChain fIsInitialDownload hash := by
  cases call <;> simp [PegCall.txout?]

end Fresh

/-! ## Runs -/

section Runs

variable {votes : VoteParams} {blocks : UInt256 → BestBlock} {isMine : CTxOut → Bool}
  {start node : WalletNode} {step : PegStep} {steps : List PegStep}

theorem PegStep.RefreshesSums.after_eq (hsum : step.RefreshesSums isMine)
    (h : step.Valid votes blocks isMine) :
    step.after = step.before.withView
      (step.before.wallet.toPegView.refreshedForSums votes blocks step.before.hashBestChain) := by
  obtain ⟨⟨txout, hout, hguards⟩, hne⟩ := hsum
  rw [PegCall.sum_apply hout h.returns, if_pos hguards, WalletNode.refreshForSums, if_neg hne]

/-- A step keeps the values fresh when it keeps predictions that still hold. -/
theorem PegStep.Valid.fresh (h : step.Valid votes blocks isMine)
    (hne : step.before.hashBestChain ≠ 0) (hbefore : step.before.wallet.Fresh votes blocks)
    (hkeeps : step.RefreshesSums isMine → step.KeepsPredictions votes blocks) :
    step.after.hashBestChain ≠ 0 ∧ step.after.wallet.Fresh votes blocks := by
  have hreturns := h.returns
  rcases step.call.cases_sum with ⟨txout, hout⟩ | ⟨q, hq⟩ | ⟨fIsInitialDownload, hash, hset⟩
  · by_cases hsum : step.RefreshesSums isMine
    · obtain ⟨hn, hnn⟩ := hkeeps hsum
      rw [hsum.after_eq h]
      exact ⟨hne, PegView.fresh_refreshedForSums hn hnn⟩
    · have hafter := PegCall.sum_apply hout hreturns
      split_ifs at hafter with hguards
      · have hsame : step.before.wallet.nLastHashBestChain = step.before.hashBestChain := by
          by_contra hstale
          exact hsum ⟨⟨txout, hout, hguards⟩, hstale⟩
        rw [hafter, WalletNode.refreshForSums, if_pos hsame]
        exact ⟨hne, hbefore⟩
      · rw [hafter]
        exact ⟨hne, hbefore⟩
  · rw [hq] at hreturns
    obtain ⟨⟨v, mid⟩, hask, hmid⟩ := Option.map_eq_some_iff.mp hreturns
    obtain ⟨fresh, hrefresh, heq⟩ := Option.map_eq_some_iff.mp hask
    obtain ⟨-, rfl⟩ := Prod.mk.inj heq
    dsimp only at hmid
    subst hmid
    obtain ⟨hhash, -, hfresh⟩ := WalletNode.fresh_refresh hbefore hrefresh
    exact ⟨hhash ▸ hne, hfresh⟩
  · have hhash := h.hash_ne _ _ hset
    rw [hset] at hreturns
    rw [← Option.some.inj hreturns]
    exact ⟨hhash, WalletNode.fresh_setBestChain hbefore⟩

theorem PegRun.valid (h : PegRun votes blocks isMine start steps node) :
    ∀ step ∈ steps, step.Valid votes blocks isMine := by
  induction h with
  | start => simp
  | call _ hvalid ih =>
    intro step hstep
    rcases List.mem_append.mp hstep with hmem | hmem
    · exact ih step hmem
    · obtain rfl := List.mem_singleton.mp hmem
      exact hvalid

theorem PegRun.fresh (hstart : start.Loaded) (h : PegRun votes blocks isMine start steps node)
    (hkeeps : ∀ step ∈ steps, step.RefreshesSums isMine → step.KeepsPredictions votes blocks) :
    (node.hashBestChain ≠ 0 ∧ node.wallet.Fresh votes blocks) ∧
      ∀ step ∈ steps, step.after.Current votes blocks := by
  induction h with
  | start =>
    have hview : start.wallet.nLastHashBestChain = 0 := by rw [hstart.view]
    exact ⟨⟨hstart.hash_ne, PegView.fresh_of_eq_zero hview⟩, by simp⟩
  | @call steps last _ hvalid ih =>
    obtain ⟨⟨hne, hfresh⟩, hafter⟩ :=
      ih fun step hstep => hkeeps step (List.mem_append_left _ hstep)
    have hlast := hvalid.fresh hne hfresh (hkeeps last (List.mem_append_right _ List.mem_cons_self))
    refine ⟨hlast, fun step hstep => ?_⟩
    rcases List.mem_append.mp hstep with hmem | hmem
    · exact hafter step hmem
    · obtain rfl := List.mem_singleton.mp hmem
      exact WalletNode.current_of_fresh hlast.1 hlast.2

/-- A prediction that a call for a sum keeps is what the wallet returns next. -/
theorem PegStep.RefreshesSums.keeps (hsum : step.RefreshesSums isMine)
    (h : step.Valid votes blocks isMine) (hcurrent : step.after.Current votes blocks) :
    step.KeepsPredictions votes blocks := by
  rw [hsum.after_eq h] at hcurrent
  exact ⟨hcurrent .nIndex _ _ WalletNode.ask_refreshedForSums,
    hcurrent .nnIndex _ _ WalletNode.ask_refreshedForSums⟩

/-- The four functions return the values of the best block in every state of a run if and only
if whenever a sum is asked for first after a change, the predictions have not changed. -/
theorem pegView_current_iff (hstart : start.Loaded)
    (h : PegRun votes blocks isMine start steps node) :
    (∀ step ∈ steps, step.after.Current votes blocks) ↔
      ∀ step ∈ steps, step.RefreshesSums isMine → step.KeepsPredictions votes blocks :=
  ⟨fun hcurrent step hstep hsum => hsum.keeps (h.valid step hstep) (hcurrent step hstep),
    fun hkeeps => (h.fresh hstart hkeeps).2⟩

end Runs

/-! ## A balance that is asked for first -/

def viewIndex (nHeight : ℕ) (nPegSupplyIndex : ℤ) : CBlockIndex where
  nHeight
  nPegSupplyIndex
  nPegVotes := 0

/-- The block before the start of the peg under the hash 1, and the first one of the peg. -/
def viewBlocks (hash : UInt256) : BestBlock :=
  if hash = 1 then { pindex := viewIndex 3 0, below := [viewIndex 2 0], nTime := 30 }
  else {
    pindex := viewIndex 4 5
    below := [viewIndex 3 0, viewIndex 2 0, viewIndex 1 0, viewIndex 0 0]
    nTime := 40 }

def viewStart : WalletNode where
  hashBestChain := 1
  wallet := { mapWallet := fun _ => none }

def viewAsked : WalletNode :=
  viewStart.withView { nLastHashBestChain := 1, nLastPegCycle := 3, nLastBlockTime := 30 }

def viewChanged : WalletNode := viewAsked.setBestChain sampleVotes viewBlocks true 2

def viewSteps : List PegStep :=
  [⟨viewStart, .ask .cycle, viewAsked⟩,
    ⟨viewAsked, .setBestChain true 2, viewChanged⟩,
    ⟨viewChanged, .getReserve 7 0 ⟨10, []⟩,
      viewChanged.refreshForSums sampleVotes viewBlocks⟩]

theorem viewStart_loaded : viewStart.Loaded := ⟨by decide, rfl⟩

theorem view_run_changed :
    PegRun sampleVotes viewBlocks (fun _ => true) viewStart (viewSteps.take 2) viewChanged := by
  have hfirst : PegRun sampleVotes viewBlocks (fun _ => true) viewStart (viewSteps.take 1)
      viewAsked :=
    @PegRun.call _ _ _ _ [] ⟨_, .ask .cycle, _⟩ .start
      ⟨fun _ _ h => (by cases h), rfl⟩
  refine @PegRun.call _ _ _ _ _ ⟨viewAsked, .setBestChain true 2, viewChanged⟩ hfirst
    ⟨fun _ hash h => ?_, rfl⟩
  obtain ⟨-, rfl⟩ := PegCall.setBestChain.inj h
  decide

theorem view_run : PegRun sampleVotes viewBlocks (fun _ => true) viewStart viewSteps
    (viewChanged.refreshForSums sampleVotes viewBlocks) :=
  @PegRun.call _ _ _ _ _ ⟨viewChanged, .getReserve 7 0 ⟨10, []⟩, _⟩ view_run_changed
    ⟨fun _ _ h => (by cases h), rfl⟩

/-- The wallet when the next index was asked for behind the change. -/
def viewRefreshed : WalletNode :=
  viewChanged.withView {
    nLastHashBestChain := 2
    nLastPegCycle := 4
    nLastPegSupplyIndex := 5
    nLastPegSupplyNIndex := 5
    nLastPegSupplyNNIndex := 5
    nLastBlockTime := 40 }

def orderedSteps : List PegStep :=
  viewSteps.take 2 ++ [⟨viewChanged, .ask .nIndex, viewRefreshed⟩,
    ⟨viewRefreshed, .getReserve 7 0 ⟨10, []⟩, viewRefreshed⟩]

theorem ordered_run :
    PegRun sampleVotes viewBlocks (fun _ => true) viewStart orderedSteps viewRefreshed := by
  have hthird : PegRun sampleVotes viewBlocks (fun _ => true) viewStart (orderedSteps.take 3)
      viewRefreshed :=
    @PegRun.call _ _ _ _ _ ⟨viewChanged, .ask .nIndex, viewRefreshed⟩ view_run_changed
      ⟨fun _ _ h => (by cases h), rfl⟩
  exact @PegRun.call _ _ _ _ _ ⟨viewRefreshed, .getReserve 7 0 ⟨10, []⟩, viewRefreshed⟩ hthird
    ⟨fun _ _ h => (by cases h), rfl⟩

/-- No step of the second run refreshes for sums only, so its answers are current. -/
theorem view_current_iff :
    ((∀ step ∈ viewSteps, step.after.Current sampleVotes viewBlocks) ↔
      ∀ step ∈ viewSteps, step.RefreshesSums (fun _ => true) →
        step.KeepsPredictions sampleVotes viewBlocks) ∧
    ∀ step ∈ orderedSteps, step.after.Current sampleVotes viewBlocks := by
  refine ⟨pegView_current_iff viewStart_loaded view_run,
    (pegView_current_iff viewStart_loaded ordered_run).mpr fun step hstep hsum => ?_⟩
  obtain ⟨⟨txout, hout, -⟩, hne⟩ := hsum
  simp only [orderedSteps, viewSteps, List.take_succ_cons, List.take_zero, List.cons_append,
    List.nil_append, List.mem_cons, List.not_mem_nil, or_false] at hstep
  rcases hstep with rfl | rfl | rfl | rfl
  · cases hout
  · cases hout
  · cases hout
  · exact absurd rfl hne

/-- After the reserve of an output was asked for, the next index is that of the block before. -/
theorem view_not_current :
    PegRun sampleVotes viewBlocks (fun _ => true) viewStart viewSteps
      (viewChanged.refreshForSums sampleVotes viewBlocks) ∧
    ((viewChanged.refreshForSums sampleVotes viewBlocks).getPegSupplyNIndex sampleVotes
      viewBlocks).map Prod.fst = some 0 ∧
    (viewBlocks 2).nPegSupplyNIndex sampleVotes = some 5 ∧
    ¬ (viewChanged.refreshForSums sampleVotes viewBlocks).Current sampleVotes viewBlocks := by
  have hnext : (viewBlocks 2).nPegSupplyNIndex sampleVotes = some 5 := by decide
  have hasked : ((viewChanged.refreshForSums sampleVotes viewBlocks).getPegSupplyNIndex sampleVotes
      viewBlocks).map Prod.fst = some 0 := rfl
  refine ⟨view_run, hasked, hnext, fun h => ?_⟩
  obtain ⟨⟨v, node⟩, hask, hv⟩ := Option.map_eq_some_iff.mp hasked
  have hcurrent := h .nIndex v node hask
  dsimp only at hv
  rw [hv] at hcurrent
  have hzero : (viewBlocks 2).nPegSupplyNIndex sampleVotes = some 0 := hcurrent
  rw [hnext] at hzero
  cases hzero

end BitBay
