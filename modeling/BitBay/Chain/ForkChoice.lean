import BitBay.Base.Script
import BitBay.Chain.BestChain
import BitBay.Chain.FetchInputs

/-!
# The choice of a branch

`AddToBlockIndex` switches to a new block when its chain trust is larger, or when its branch is
long and an address of the trusted stakers staked on it. The second rule looks at coinstakes of
more than one input only, and looks the first input up in the index of the best chain.
-/
namespace BitBay

/-- What the rule reads: blocks, the index of transactions, and the trusted stakers of a block. -/
structure ForkReads (ι : Type) where
  readFromDisk : ι → Option (List CTransaction)
  readTxIndex : UInt256 → Option CDiskTxPos
  readTxFromDisk : CDiskTxPos → Option CTransaction
  readTrustedStakers1 : ι → Finset CString

section Model

variable {ι Tx Peg : Type} [DecidableEq ι] (net : Params) (tree : BlockTree ι)
  (reads : ForkReads ι)

def paysTrusted (sTrustedStakers1 : Finset CString) (scriptPubKey : CScript) : Bool :=
  match net.destinations scriptPubKey with
  | [sAddress] => sAddress ∈ sTrustedStakers1
  | _ => false

/-- The index has the transaction of an input, and it pays a trusted address. -/
def ForkReads.spendsTrusted (sTrustedStakers1 : Finset CString) (txin : CTxIn) : Bool :=
  match (reads.readTxIndex txin.prevout.hash).bind reads.readTxFromDisk with
  | none => false
  | some txPrev =>
    match txPrev.vout[txin.prevout.n]? with
    | none => false
    | some txout => paysTrusted net sTrustedStakers1 txout.scriptPubKey

/-- The block is staked by a trusted address, as the rule sees it. -/
def ForkReads.trustedStake (sTrustedStakers1 : Finset CString) (vtx : List CTransaction) : Bool :=
  match vtx[1]? with
  | none => false
  | some tx =>
    if tx.isCoinStake then
      match tx.vin with
      | txin :: _ :: _ => reads.spendsTrusted net sTrustedStakers1 txin
      | _ => false
    else false

/-- The blocks of the branch until one is trusted. A block that cannot be read is an error. -/
def ForkReads.scanStakers (sTrustedStakers1 : Finset CString) : List ι → Option Bool
  | [] => some false
  | pindex :: rest => do
    let vtx ← reads.readFromDisk pindex
    if reads.trustedStake net sTrustedStakers1 vtx then some true
    else ForkReads.scanStakers sTrustedStakers1 rest

def hasBetterStakerTrust (pindexBest pindexNew : ι) : Option Bool := do
  let pfork ← tree.findFork pindexBest pindexNew
  if 20 < (tree.height pindexNew : ℤ) - tree.height pfork then
    reads.scanStakers net (reads.readTrustedStakers1 pindexNew) (tree.above pfork pindexNew)
  else some false

/-- Whether `AddToBlockIndex` calls `SetBestChain`; `none` when it ends with an error before. -/
def choosesBlock (mem : ChainMemory ι) (pindexNew : ι) : Option Bool :=
  if mem.nBestChainTrust < tree.nChainTrust pindexNew then some true
  else mem.pindexBest.bind fun pindexBest => hasBetterStakerTrust net tree reads pindexBest pindexNew

def addToBlockIndex (env : ChainEnv ι Tx Peg) (pindexNew : ι) (st : ChainState ι Tx Peg) :
    Bool × ChainState ι Tx Peg :=
  match choosesBlock net tree reads st.mem pindexNew with
  | none => (false, st)
  | some true => setBestChain tree env pindexNew st
  | some false => (true, st)

/-! ## Trusted branches -/

/-- The output that an input of a block spends, from a block before it or from itself. -/
def SpendsOutput (pindex : ι) (txin : CTxIn) (txout : CTxOut) : Prop :=
  ∃ earlier vtx txPrev, tree.Ancestor earlier pindex ∧ reads.readFromDisk earlier = some vtx ∧
    txPrev ∈ vtx ∧ net.getHash txPrev = txin.prevout.hash ∧
    txPrev.vout[txin.prevout.n]? = some txout

def StakedByTrusted (sTrustedStakers1 : Finset CString) (pindex : ι) : Prop :=
  ∃ vtx tx, reads.readFromDisk pindex = some vtx ∧ vtx[1]? = some tx ∧ tx.isCoinStake = true ∧
    ∃ txin ∈ tx.vin, ∃ txout, SpendsOutput net tree reads pindex txin txout ∧
      ∃ sAddress ∈ sTrustedStakers1, net.destinations txout.scriptPubKey = [sAddress]

/-- The branch of a new block leaves the best chain at a block, far enough below. -/
structure LeavesAt (pindexBest pindexNew pfork : ι) : Prop where
  best : tree.Ancestor pfork pindexBest
  new : tree.Ancestor pfork pindexNew
  highest : ∀ x, tree.Ancestor x pindexBest → tree.Ancestor x pindexNew →
    tree.height x ≤ tree.height pfork
  deep : 20 < (tree.height pindexNew : ℤ) - tree.height pfork

def OnBranch (pfork pindexNew pindex : ι) : Prop :=
  tree.Ancestor pindex pindexNew ∧ tree.height pfork < tree.height pindex

/-- A block whose coinstake counts: it has more inputs than one, and the index has the
transaction of the first, which pays a trusted address. -/
def CountedStake (sTrustedStakers1 : Finset CString) (pindex : ι) : Prop :=
  ∃ vtx tx txin txin' rest, reads.readFromDisk pindex = some vtx ∧ vtx[1]? = some tx ∧
    tx.isCoinStake = true ∧ tx.vin = txin :: txin' :: rest ∧
    ∃ pos txPrev txout, reads.readTxIndex txin.prevout.hash = some pos ∧
      reads.readTxFromDisk pos = some txPrev ∧ txPrev.vout[txin.prevout.n]? = some txout ∧
      ∃ sAddress ∈ sTrustedStakers1, net.destinations txout.scriptPubKey = [sAddress]

end Model

/-! ## What the scan finds -/

section Scan

variable {ι : Type} {net : Params} {tree : BlockTree ι} {reads : ForkReads ι}
  {sTrustedStakers1 : Finset CString} {pindexBest pindexNew pfork pindex : ι}

theorem paysTrusted_iff {scriptPubKey : CScript} :
    paysTrusted net sTrustedStakers1 scriptPubKey = true ↔
      ∃ sAddress ∈ sTrustedStakers1, net.destinations scriptPubKey = [sAddress] := by
  unfold paysTrusted
  split
  · rename_i sAddress hdest
    simp [hdest, eq_comm]
  · rename_i hdest
    refine iff_of_false (by simp) ?_
    rintro ⟨sAddress, -, heq⟩
    exact hdest sAddress heq

theorem spendsTrusted_iff {txin : CTxIn} :
    reads.spendsTrusted net sTrustedStakers1 txin = true ↔
      ∃ pos txPrev txout, reads.readTxIndex txin.prevout.hash = some pos ∧
        reads.readTxFromDisk pos = some txPrev ∧ txPrev.vout[txin.prevout.n]? = some txout ∧
        ∃ sAddress ∈ sTrustedStakers1, net.destinations txout.scriptPubKey = [sAddress] := by
  unfold ForkReads.spendsTrusted
  cases hpos : reads.readTxIndex txin.prevout.hash with
  | none => simp
  | some pos =>
    cases htx : reads.readTxFromDisk pos with
    | none => simp [htx]
    | some txPrev =>
      cases hout : txPrev.vout[txin.prevout.n]? with
      | none => simp [htx, hout]
      | some txout => simp [htx, hout, paysTrusted_iff]

theorem countedStake_iff : CountedStake net reads sTrustedStakers1 pindex ↔
    ∃ vtx, reads.readFromDisk pindex = some vtx ∧
      reads.trustedStake net sTrustedStakers1 vtx = true := by
  constructor
  · rintro ⟨vtx, tx, txin, txin', rest, hread, htx, hstake, hvin, hspends⟩
    refine ⟨vtx, hread, ?_⟩
    simp only [ForkReads.trustedStake, htx, hstake, hvin, if_true]
    exact spendsTrusted_iff.mpr hspends
  · rintro ⟨vtx, hread, htrusted⟩
    unfold ForkReads.trustedStake at htrusted
    split at htrusted
    · cases htrusted
    · rename_i tx htx
      split_ifs at htrusted with hstake
      split at htrusted
      · rename_i txin txin' rest hvin
        exact ⟨vtx, tx, txin, txin', rest, hread, htx, hstake, hvin,
          spendsTrusted_iff.mp htrusted⟩
      · cases htrusted

/-- The scan ends at the first trusted block, if all before it can be read. -/
theorem scanStakers_iff {l : List ι} :
    reads.scanStakers net sTrustedStakers1 l = some true ↔
      ∃ pre pindex post, l = pre ++ pindex :: post ∧
        (∀ b ∈ pre, (reads.readFromDisk b).isSome) ∧
        CountedStake net reads sTrustedStakers1 pindex := by
  induction l with
  | nil => simp [ForkReads.scanStakers]
  | cons a l ih =>
    simp only [ForkReads.scanStakers, Option.bind_eq_bind, Option.bind_eq_some_iff]
    constructor
    · rintro ⟨vtx, hread, hscan⟩
      split_ifs at hscan with htrusted
      · exact ⟨[], a, l, rfl, by simp, countedStake_iff.mpr ⟨vtx, hread, htrusted⟩⟩
      · obtain ⟨pre, pindex, post, rfl, hpre, hcounted⟩ := ih.mp hscan
        refine ⟨a :: pre, pindex, post, rfl, fun b hb => ?_, hcounted⟩
        rcases List.mem_cons.mp hb with rfl | hb
        · simp [hread]
        · exact hpre b hb
    · rintro ⟨pre, pindex, post, heq, hpre, hcounted⟩
      cases pre with
      | nil =>
        obtain ⟨rfl, rfl⟩ := List.cons.inj heq
        obtain ⟨vtx, hread, htrusted⟩ := countedStake_iff.mp hcounted
        exact ⟨vtx, hread, if_pos htrusted⟩
      | cons b pre =>
        obtain ⟨rfl, rfl⟩ := List.cons.inj heq
        obtain ⟨vtx, hread⟩ := Option.isSome_iff_exists.mp (hpre a List.mem_cons_self)
        refine ⟨vtx, hread, ?_⟩
        split_ifs
        · rfl
        · exact ih.mpr ⟨pre, pindex, post, rfl, fun b hb => hpre b (List.mem_cons_of_mem a hb),
            hcounted⟩

variable [DecidableEq ι]

/-- A split of the branch at a block, by heights. -/
theorem exists_split_iff {P : ι → Prop} {Q : ι → Prop} (hfork : tree.Ancestor pfork pindexNew) :
    (∃ pre pindex post, tree.above pfork pindexNew = pre ++ pindex :: post ∧ (∀ b ∈ pre, P b) ∧
        Q pindex) ↔
      ∃ pindex, OnBranch tree pfork pindexNew pindex ∧
        (∀ b, tree.Ancestor b pindexNew → tree.height pindex < tree.height b → P b) ∧ Q pindex := by
  constructor
  · rintro ⟨pre, pindex, post, heq, hpre, hQ⟩
    have hmem : pindex ∈ tree.above pfork pindexNew := by simp [heq]
    obtain ⟨hnew, hlt⟩ := (Forest.mem_above hfork).mp hmem
    refine ⟨pindex, ⟨hnew, hlt⟩, fun b hb hhigher => hpre b ?_, hQ⟩
    have hin : b ∈ pre ++ pindex :: post := heq ▸ (Forest.mem_above hfork).mpr ⟨hb, by omega⟩
    have hfalls := Forest.pairwise_above hfork
    rw [heq, List.pairwise_append, List.pairwise_cons] at hfalls
    rcases List.mem_append.mp hin with hfirst | hrest
    · exact hfirst
    · rcases List.mem_cons.mp hrest with rfl | hpost
      · exact absurd hhigher (lt_irrefl _)
      · exact absurd (hfalls.2.1.1 b hpost) hhigher.le.not_gt
  · rintro ⟨pindex, ⟨hnew, hlt⟩, hP, hQ⟩
    have hbelow : tree.Ancestor pfork pindex := hfork.of_height_le hnew hlt.le
    obtain ⟨post, hpost⟩ := Forest.above_eq_cons hbelow hlt
    refine ⟨tree.above pindex pindexNew, pindex, post, ?_, fun b hb => ?_, hQ⟩
    · rw [Forest.above_append hbelow hnew, hpost]
    · obtain ⟨hanc, hhigher⟩ := (Forest.mem_above hnew).mp hb
      exact hP b hanc hhigher

/-- On a long branch `SetBestChain` is attempted exactly if the chain trust is larger, or a
coinstake counts and all blocks after it can be read. -/
theorem choosesBlock_iff {mem : ChainMemory ι} (hbest : mem.pindexBest = some pindexBest)
    (hfork : LeavesAt tree pindexBest pindexNew pfork) :
    choosesBlock net tree reads mem pindexNew = some true ↔
      mem.nBestChainTrust < tree.nChainTrust pindexNew ∨
        ∃ pindex, OnBranch tree pfork pindexNew pindex ∧
          (∀ b, tree.Ancestor b pindexNew → tree.height pindex < tree.height b →
            (reads.readFromDisk b).isSome) ∧
          CountedStake net reads (reads.readTrustedStakers1 pindexNew) pindex := by
  have hfound : tree.findFork pindexBest pindexNew = some pfork :=
    Forest.findFork_eq_some_iff.mpr ⟨hfork.best, hfork.new, hfork.highest⟩
  have hscan : hasBetterStakerTrust net tree reads pindexBest pindexNew =
      reads.scanStakers net (reads.readTrustedStakers1 pindexNew)
        (tree.above pfork pindexNew) := by
    rw [hasBetterStakerTrust, hfound]
    exact if_pos hfork.deep
  unfold choosesBlock
  split_ifs with htrust
  · exact iff_of_true rfl (Or.inl htrust)
  · rw [hbest, Option.bind_some, hscan, scanStakers_iff, exists_split_iff hfork.new]
    simp [htrust]

/-- A long branch that a trusted address has staked is attempted if and only if its chain trust
is larger, or one of its coinstakes counts and all blocks after that can be read. -/
theorem trusted_branch_chosen_iff {mem : ChainMemory ι} (hbest : mem.pindexBest = some pindexBest)
    (hfork : LeavesAt tree pindexBest pindexNew pfork) :
    ((∃ pindex, OnBranch tree pfork pindexNew pindex ∧
        StakedByTrusted net tree reads (reads.readTrustedStakers1 pindexNew) pindex) →
      choosesBlock net tree reads mem pindexNew = some true) ↔
    ((∃ pindex, OnBranch tree pfork pindexNew pindex ∧
        StakedByTrusted net tree reads (reads.readTrustedStakers1 pindexNew) pindex) →
      mem.nBestChainTrust < tree.nChainTrust pindexNew ∨
        ∃ pindex, OnBranch tree pfork pindexNew pindex ∧
          (∀ b, tree.Ancestor b pindexNew → tree.height pindex < tree.height b →
            (reads.readFromDisk b).isSome) ∧
          CountedStake net reads (reads.readTrustedStakers1 pindexNew) pindex) :=
  imp_congr Iff.rfl (choosesBlock_iff hbest hfork)

end Scan

/-! ## A branch that a trusted address has staked -/

/-- A branch of 21 blocks beside a best chain of one block, from the same genesis block. -/
def branchTree : BlockTree (Fin 23) where
  prev i := if i = 0 then none else if i = 22 then some 0 else some (i - 1)
  height i := if i = 22 then 1 else i
  height_prev := by decide
  nChainTrust i := if i = 22 then 1000 else i
  hashGenesisBlock := 0
  prev_eq_none := by decide

def forkNet : Params where
  pegFrozenTime := 0
  pegVFrozenTime := 0
  getHash tx := tx.nTime
  destinations scriptPubKey := [CScript.toCString scriptPubKey]
  isValidAddress _ := true

def forkFunding : CTransaction where
  nTime := 7
  vin := [{ prevout := ⟨0, 2 ^ 32 - 1⟩ }]
  vout := [⟨100, [65]⟩]

/-- A coinstake that spends the output of a transaction, and further ones. -/
def forkStake (hash : UInt256) (more : List CTxIn) : CTransaction where
  nTime := 8
  vin := { prevout := ⟨hash, 0⟩ } :: more
  vout := [⟨0, []⟩, ⟨110, [65]⟩]

def forkCoinBase : CTransaction where
  vin := [{ prevout := ⟨0, 2 ^ 32 - 1⟩ }]
  vout := [⟨0, []⟩]

/-- The genesis block pays the trusted address, which stakes the fifth block of the branch. -/
def forkReads (more : List CTxIn) : ForkReads (Fin 23) where
  readFromDisk i := some (if i = 0 then [forkFunding] else
    [forkCoinBase, forkStake (if i = 5 then 7 else 100 + i.val) more])
  readTxIndex hash := if hash = 7 then some ⟨1, 1, 1⟩ else none
  readTxFromDisk _ := some forkFunding
  readTrustedStakers1 _ := {['A']}

def forkMemory : ChainMemory (Fin 23) where
  pindexGenesisBlock := some 0
  pindexBest := some 22
  hashBestChain := some 22
  nBestHeight := 1
  nBestChainTrust := 1000

theorem fork_leavesAt : LeavesAt branchTree 22 21 0 := by
  have hfound : branchTree.findFork 22 21 = some 0 := by decide
  obtain ⟨hbest, hnew, hhigh⟩ := Forest.findFork_eq_some_iff.mp hfound
  exact ⟨hbest, hnew, hhigh, by decide⟩

theorem fork_onBranch : OnBranch branchTree 0 21 5 := by
  have hmem : (5 : Fin 23) ∈ branchTree.above 0 21 := by decide
  exact (Forest.mem_above fork_leavesAt.new).mp hmem

theorem fork_staked (more : List CTxIn) :
    StakedByTrusted forkNet branchTree (forkReads more) {['A']} 5 := by
  have hgenesis : branchTree.Ancestor 0 5 := by
    rw [← Forest.mem_path]
    decide
  exact ⟨_, forkStake 7 more, rfl, rfl, rfl, _, List.mem_cons_self, ⟨100, [65]⟩,
    ⟨0, _, forkFunding, hgenesis, rfl, List.mem_cons_self, rfl, rfl⟩,
    ['A'], Finset.mem_singleton_self _, rfl⟩

/-- With a second input the coinstake counts. -/
theorem two_inputs_chosen :
    choosesBlock forkNet branchTree (forkReads [{ prevout := ⟨9, 0⟩ }]) forkMemory 21 =
      some true := by
  have hcounted : CountedStake forkNet (forkReads [{ prevout := ⟨9, 0⟩ }]) {['A']} 5 :=
    ⟨_, forkStake 7 [{ prevout := ⟨9, 0⟩ }], _, _, _, rfl, rfl, rfl, rfl, ⟨1, 1, 1⟩, forkFunding,
      ⟨100, [65]⟩, rfl, rfl, rfl, ['A'], Finset.mem_singleton_self _, rfl⟩
  exact (trusted_branch_chosen_iff rfl fork_leavesAt).mpr
    (fun _ => Or.inr ⟨5, fork_onBranch, fun _ _ _ => rfl, hcounted⟩)
    ⟨5, fork_onBranch, fork_staked _⟩

/-- With the one input that block validation allows, the branch is not attempted. -/
theorem one_input_not_chosen :
    LeavesAt branchTree 22 21 0 ∧
    (∃ pindex, OnBranch branchTree 0 21 pindex ∧
      StakedByTrusted forkNet branchTree (forkReads []) {['A']} pindex) ∧
    choosesBlock forkNet branchTree (forkReads []) forkMemory 21 = some false :=
  ⟨fork_leavesAt, ⟨5, fork_onBranch, fork_staked []⟩, by decide⟩

end BitBay
