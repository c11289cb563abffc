import BitBay.Chain.BestChain

/-!
# What is published was connected

`Tip` says where the databases and the pointers stand: at the block that was connected
last. Each of the three ways to attach a block moves the tip to the block it connects. The
loop over postponed blocks may stop early, and the tip then stays below the block that
`SetBestChain` publishes (`published_iff`).
-/
namespace BitBay

open Run

variable {ι Tx Peg : Type} {tree : BlockTree ι} {env : ChainEnv ι Tx Peg}
  {st st' : ChainState ι Tx Peg} {a b c : ι} {next : ι → Option ι}

def NextLeads (tree : BlockTree ι) (next : ι → Option ι) (b : ι) : Prop :=
  ∀ i j, next i = some j ↔ tree.prev j = some i ∧ tree.Ancestor j b

/-- The block connected last, for the tx database and the pointers. -/
structure Tip (tree : BlockTree ι) (st : ChainState ι Tx Peg) (b : ι) : Prop where
  batch : st.txdb.activeBatch = none
  hashBestChain : st.txdb.disk.hashBestChain = some b
  connected : st.txdb.disk.connected = tree.path b
  next : NextLeads tree st.mem.next b

structure ChainMemory.Names (mem : ChainMemory ι) (tree : BlockTree ι) (b : ι) : Prop where
  genesis : mem.pindexGenesisBlock = some tree.hashGenesisBlock
  best : mem.pindexBest = some b
  hashBestChain : mem.hashBestChain = some b
  height : mem.nBestHeight = tree.height b

/-- A node before the first block: nothing is connected. -/
structure Fresh (st : ChainState ι Tx Peg) : Prop where
  genesis : st.mem.pindexGenesisBlock = none
  best : st.mem.pindexBest = none
  hashBestChain : st.mem.hashBestChain = none
  next : ∀ i, st.mem.next i = none
  batch : st.txdb.activeBatch = none

/-- The node is before the first block, or its memory names the tip. -/
def Consistent (tree : BlockTree ι) (st : ChainState ι Tx Peg) : Prop :=
  Fresh st ∨ ∃ b, st.mem.Names tree b ∧ Tip tree st b

/-- The memory names the block that was connected last, which is the one committed to
disk, and the pointers lead from the genesis block to it and end there. -/
structure Published (tree : BlockTree ι) (st : ChainState ι Tx Peg) (b : ι) : Prop where
  names : st.mem.Names tree b
  last : st.txdb.disk.connected.head? = some b
  committed : st.txdb.disk.hashBestChain = some b
  leads : Relation.ReflTransGen (fun i j => st.mem.next i = some j) tree.hashGenesisBlock b
  ends : st.mem.next b = none

/-! ## The open transaction -/

/-- A transaction is open on top of `disk`. The blocks in `connected` are connected in it,
and the memory is still `mem`. -/
structure InTxn (disk : TxData ι Tx) (mem : ChainMemory ι) (connected : List ι)
    (st : ChainState ι Tx Peg) : Prop where
  mem : st.mem = mem
  disk : st.txdb.disk = disk
  batch : ∃ v, st.txdb.activeBatch = some v ∧ v.connected = connected

section Steps

variable {disk : TxData ι Tx} {mem : ChainMemory ι} {connected : List ι} {i : ι}

variable (env i) in
theorem connectBlock_inTxn (h : InTxn disk mem connected st) :
    InTxn disk mem (if env.connectBlock i then i :: connected else connected)
      (connectBlock env i st).2 := by
  obtain ⟨v, hv, hconnected⟩ := h.batch
  simp only [connectBlock]
  exact ⟨h.mem, by simp [CTxDB.write, hv, h.disk], by simp [CTxDB.write, hv, hconnected]⟩

variable (env st i) in
theorem connectBlock_fst : (connectBlock env i st).1 = env.connectBlock i := rfl

/-- After a commit the disk holds what the transaction wrote. -/
theorem commit_true (h : InTxn disk mem connected st) :
    (st.writeHashBestChain i).txdb.txnCommit true =
      { disk := { (st.writeHashBestChain i).txdb.view with
          hashBestChain := some i, connected } } := by
  obtain ⟨v, hv, hconnected⟩ := h.batch
  simp [ChainState.writeHashBestChain, CTxDB.txnCommit, CTxDB.write, CTxDB.view, hv, hconnected]

theorem commit_false (h : InTxn disk mem connected st) :
    (st.writeHashBestChain i).txdb.txnCommit false = { disk } := by
  obtain ⟨v, hv, -⟩ := h.batch
  simp [ChainState.writeHashBestChain, CTxDB.txnCommit, CTxDB.write, hv, h.disk]

def ChainEnv.accepts (env : ChainEnv ι Tx Peg) (i : ι) : Prop :=
  env.connectBlock i = true ∧ env.txnCommit i = true

end Steps

/-! ## Pointers -/

theorem genesis_ancestor (tree : BlockTree ι) (b : ι) :
    tree.Ancestor tree.hashGenesisBlock b := by
  induction b using tree.path_induction with
  | root b hb =>
    obtain rfl := tree.prev_eq_none.mp hb
    exact Forest.Ancestor.refl _
  | step a b hb ih => exact ih.trans (Forest.ancestor_of_prev hb)

theorem NextLeads.reaches (h : NextLeads tree next b) (ha : tree.Ancestor a b) :
    Relation.ReflTransGen (fun i j => next i = some j) tree.hashGenesisBlock a := by
  induction a using tree.path_induction with
  | root a hroot =>
    obtain rfl := tree.prev_eq_none.mp hroot
    exact Relation.ReflTransGen.refl
  | step p a hp ih =>
    exact (ih ((Forest.ancestor_of_prev hp).trans ha)).tail ((h p a).mpr ⟨hp, ha⟩)

theorem NextLeads.ends (h : NextLeads tree next b) : next b = none := by
  cases hb : next b with
  | none => rfl
  | some j =>
    obtain ⟨hj, hjb⟩ := (h b j).mp hb
    have hle := hjb.height_le
    have hstep := tree.height_prev hj
    omega

variable [DecidableEq ι]

/-- A block connected to the last one is led to. -/
theorem NextLeads.extend (h : NextLeads tree next b) (hc : tree.prev c = some b) :
    NextLeads tree (setNext tree c (some c) next) c := by
  intro i j
  simp only [setNext, hc, Function.update_apply]
  split_ifs with hi
  · subst hi
    constructor
    · intro hj
      obtain rfl := Option.some.inj hj
      exact ⟨hc, Forest.Ancestor.refl _⟩
    · rintro ⟨hj, hjc⟩
      have hheight := tree.height_prev hj
      have hheight' := tree.height_prev hc
      rw [hjc.eq_of_height (by omega)]
  · rw [h i j]
    refine and_congr_right fun hj => ?_
    rw [Forest.ancestor_iff (b := c)]
    constructor
    · exact fun hjb => Or.inr ⟨b, hc, hjb⟩
    · rintro (rfl | ⟨p, hp, hjp⟩)
      · exact absurd (Option.some.inj (hj.symm.trans hc)) hi
      · obtain rfl := Option.some.inj (hp.symm.trans hc)
        exact hjp

/-- Without the pointer to the last block the others lead to the block before it. -/
theorem NextLeads.clear (h : NextLeads tree next b) (hb : tree.prev b = some a) :
    NextLeads tree (setNext tree b none next) a := by
  intro i j
  simp only [setNext, hb, Function.update_apply]
  split_ifs with hi
  · subst hi
    refine iff_of_false (by simp) ?_
    rintro ⟨hj, hja⟩
    have hle := hja.height_le
    have hstep := tree.height_prev hj
    omega
  · rw [h i j]
    refine and_congr_right fun hj => ?_
    constructor
    · intro hjb
      rcases Forest.ancestor_iff.mp hjb with rfl | ⟨p, hp, hjp⟩
      · exact absurd (Option.some.inj (hj.symm.trans hb)) hi
      · obtain rfl := Option.some.inj (hp.symm.trans hb)
        exact hjp
    · exact fun hja => hja.trans (Forest.ancestor_of_prev hb)

theorem NextLeads.clearAll (h : NextLeads tree next b) (ha : tree.Ancestor a b) :
    NextLeads tree ((tree.above a b).foldl (fun next i => setNext tree i none next) next) a := by
  induction b using tree.path_induction generalizing next with
  | root b hb =>
    rcases Forest.ancestor_iff.mp ha with rfl | ⟨p, hp, -⟩
    · rwa [Forest.above_self]
    · simp [hb] at hp
  | step p b hb ih =>
    rcases Forest.ancestor_iff.mp ha with rfl | ⟨p', hp', hap⟩
    · rwa [Forest.above_self]
    · obtain rfl := Option.some.inj (hp'.symm.trans hb)
      have hne : b ≠ a := by
        rintro rfl
        have hle := hap.height_le
        have hstep := tree.height_prev hb
        omega
      rw [Forest.above_of_prev hne hb]
      exact ih (h.clear hb) hap

theorem NextLeads.setAll {l : List ι} (hl : tree.Links b l c) (h : NextLeads tree next b) :
    NextLeads tree (l.foldl (fun next i => setNext tree i (some i) next) next) c := by
  induction hl generalizing next with
  | nil b => exact h
  | cons hprev _ ih => exact ih (h.extend hprev)

/-! ## Attaching one block -/

section Inner

variable {disk : TxData ι Tx} {mem : ChainMemory ι} {connected : List ι} {i : ι}

theorem disconnectBlock_inTxn (h : InTxn disk mem (i :: connected) st)
    (hok : disconnectBlock env i st = (true, st')) : InTxn disk mem connected st' := by
  obtain ⟨v, hv, hconnected⟩ := h.batch
  simp only [disconnectBlock, Prod.mk.injEq] at hok
  obtain ⟨hok, rfl⟩ := hok
  exact ⟨h.mem, by simp [CTxDB.write, hv, h.disk], by simp [CTxDB.write, hv, hok, hconnected]⟩

variable (env) in
/-- `SetBestChainInner` succeeds when the block connects and the commit works. The tip is
then the block, and else it stays where it was. -/
theorem setBestChainInner_spec (htip : Tip tree st b) (hi : tree.prev i = some b) :
    let r := setBestChainInner tree env i { st with txdb := st.txdb.txnBegin }
    (r.1 = true ↔ env.accepts i) ∧ Tip tree r.2 (if r.1 then i else b) ∧
      ∃ next, r.2.mem = { st.mem with next } := by
  have hopen : InTxn st.txdb.disk st.mem (tree.path b)
      ({ st with txdb := st.txdb.txnBegin } : ChainState ι Tx Peg) :=
    ⟨rfl, rfl, _, rfl, htip.connected⟩
  have hconnect := connectBlock_inTxn env i hopen
  simp only [setBestChainInner, ChainEnv.accepts]
  rcases hr : connectBlock env i { st with txdb := st.txdb.txnBegin } with ⟨ok, mid⟩
  have hfst : ok = env.connectBlock i := by
    rw [← connectBlock_fst env { st with txdb := st.txdb.txnBegin } i, hr]
  rw [hr] at hconnect
  subst hfst
  cases hok : env.connectBlock i with
  | false =>
    simp only [hok, Bool.false_eq_true, if_false] at hconnect ⊢
    refine ⟨by simp, ⟨rfl, ?_, ?_, ?_⟩, st.mem.next, hconnect.mem⟩
    · simp [CTxDB.txnAbort, hconnect.disk, htip.hashBestChain]
    · simp [CTxDB.txnAbort, hconnect.disk, htip.connected]
    · rw [hconnect.mem]
      exact htip.next
  | true =>
    simp only [hok, if_true] at hconnect ⊢
    cases hcommit : env.txnCommit i with
    | false =>
      simp only [Bool.false_eq_true, if_false, commit_false hconnect]
      refine ⟨by simp, ⟨rfl, htip.hashBestChain, htip.connected, ?_⟩, st.mem.next, hconnect.mem⟩
      simp only [ChainState.writeHashBestChain, hconnect.mem]
      exact htip.next
    | true =>
      simp only [if_true, commit_true hconnect]
      refine ⟨by simp, ⟨rfl, rfl, (Forest.path_of_prev hi).symm, ?_⟩,
        setNext tree i (some i) st.mem.next, ?_⟩
      · simp only [ChainState.writeHashBestChain, hconnect.mem]
        exact htip.next.extend hi
      · simp only [ChainState.writeHashBestChain, hconnect.mem]

end Inner

/-! ## The postponed blocks -/

section Secondary

variable {l : List ι}

def ChainEnv.attaches (env : ChainEnv ι Tx Peg) (i : ι) : Prop :=
  env.readFromDisk i = true ∧ env.accepts i

variable (env) in
theorem connectSecondary_spec {i : ι} (htip : Tip tree st b) (hi : tree.prev i = some b) :
    let r := connectSecondary tree env i st
    (r.1 = true ↔ env.attaches i) ∧ Tip tree r.2 (if r.1 then i else b) ∧
      ∃ next, r.2.mem = { st.mem with next } := by
  by_cases hread : env.readFromDisk i = true
  · have hr : connectSecondary tree env i st =
        setBestChainInner tree env i { st with txdb := st.txdb.txnBegin } := if_pos hread
    simp only [hr, ChainEnv.attaches, hread, true_and]
    exact setBestChainInner_spec env htip hi
  · have hr : connectSecondary tree env i st = (false, st) := if_neg hread
    simp only [hr, ChainEnv.attaches, hread]
    exact ⟨by simp, htip, st.mem.next, rfl⟩

variable (env) in
/-- The loop moves the tip up to the last block when every block attaches. Else the tip
stays below it. -/
theorem secondaries_spec (hl : tree.Links b l c) (htip : Tip tree st b) :
    ∃ t next, Tip tree (allOk (connectSecondary tree env) l st).2 t ∧
      (allOk (connectSecondary tree env) l st).2.mem = { st.mem with next } ∧
      (t = c ↔ ∀ i ∈ l, env.attaches i) := by
  induction hl generalizing st with
  | nil b => exact ⟨b, st.mem.next, htip, rfl, by simp⟩
  | @cons b i c l hi hrest ih =>
    obtain ⟨hok, hnext, next, hmem⟩ := connectSecondary_spec env htip hi
    rcases hr : connectSecondary tree env i st with ⟨ok, mid⟩
    rw [hr] at hok hnext hmem
    cases ok with
    | false =>
      rw [allOk_cons_false hr]
      refine ⟨b, next, hnext, hmem, iff_of_false ?_ fun hall => ?_⟩
      · rintro rfl
        have hle := hrest.height_le
        have hstep := tree.height_prev hi
        omega
      · exact absurd (hok.mpr (hall i List.mem_cons_self)) (by simp)
    | true =>
      rw [allOk_cons_true hr]
      obtain ⟨t, next', ht, hmem', hiff⟩ := ih hnext
      refine ⟨t, next', ht, by rw [hmem', hmem], hiff.trans ?_⟩
      simp [hok.mp rfl]

omit [DecidableEq ι] in
theorem postponeAux_links (trust n : ℕ) (i : ι) :
    tree.Links (postponeAux tree trust n i).2 (postponeAux tree trust n i).1.reverse i := by
  induction n generalizing i with
  | zero => exact Forest.Links.nil i
  | succ n ih =>
    rw [postponeAux]
    cases hi : tree.prev i with
    | none => exact Forest.Links.nil i
    | some p =>
      simp only
      split_ifs
      · rw [List.reverse_cons]
        exact (ih p).snoc hi
      · exact Forest.Links.nil i

end Secondary

/-! ## Reorganisation -/

section Reorganize

variable {disk : TxData ι Tx} {mem : ChainMemory ι} {l connected : List ι}

theorem disconnectLoop_inTxn (h : InTxn disk mem (l ++ connected) st)
    (hok : allOk (disconnectStep env) l st = (true, st')) : InTxn disk mem connected st' := by
  refine allOk_rule (P := fun l st => InTxn disk mem (l ++ connected) st) ?_ h hok
  intro i rest s s' hs hstep
  unfold disconnectStep at hstep
  split_ifs at hstep
  · exact disconnectBlock_inTxn hs hstep
  · cases hstep

omit [DecidableEq ι] in
theorem connectLoop_inTxn (hl : tree.Links b l c) (h : InTxn disk mem (tree.path b) st)
    (hok : allOk (connectStep env) l st = (true, st')) : InTxn disk mem (tree.path c) st' := by
  induction hl generalizing st with
  | nil b =>
    cases hok
    exact h
  | @cons b i c l hi hrest ih =>
    rcases hr : connectStep env i st with ⟨ok, mid⟩
    cases ok with
    | false =>
      rw [allOk_cons_false hr] at hok
      cases hok
    | true =>
      rw [allOk_cons_true hr] at hok
      refine ih ?_ hok
      unfold connectStep at hr
      split_ifs at hr
      · have hconnect := connectBlock_inTxn env i h
        have hfst := connectBlock_fst env st i
        rw [hr] at hconnect hfst
        rw [← hfst, if_pos rfl, ← Forest.path_of_prev hi] at hconnect
        exact hconnect
      · cases hr

/-- A reorganisation that succeeds moves the tip to its last block. -/
theorem reorganize_tip (htip : Tip tree st b)
    (hok : reorganize tree env b c { st with txdb := st.txdb.txnBegin } = (true, st')) :
    Tip tree st' c ∧ ∃ next, st'.mem = { st.mem with next } := by
  unfold reorganize at hok
  cases hfork : tree.findFork b c with
  | none => simp [hfork] at hok
  | some pfork =>
    obtain ⟨hb, hc⟩ := Forest.findFork_ancestor hfork
    simp only [hfork, reorganizeFrom] at hok
    have hopen : InTxn st.txdb.disk st.mem (tree.above pfork b ++ tree.path pfork)
        ({ st with txdb := st.txdb.txnBegin } : ChainState ι Tx Peg) := by
      refine ⟨rfl, rfl, _, rfl, ?_⟩
      rw [← Forest.path_eq_above hb]
      exact htip.connected
    rcases hdis : allOk (disconnectStep env) (tree.above pfork b)
      { st with txdb := st.txdb.txnBegin } with ⟨ok, mid⟩
    rw [hdis] at hok
    cases ok with
    | false => cases hok
    | true =>
      have hmid := disconnectLoop_inTxn hopen hdis
      simp only at hok
      rcases hcon : allOk (connectStep env) (tree.above pfork c).reverse mid with ⟨ok', last⟩
      rw [hcon] at hok
      cases ok' with
      | false => cases hok
      | true =>
        have hlast := connectLoop_inTxn (Forest.links_above hc) hmid hcon
        simp only at hok
        split_ifs at hok with hcommit
        · simp only [Prod.mk.injEq, true_and] at hok
          subst hok
          rw [hcommit, commit_true hlast]
          refine ⟨⟨rfl, rfl, rfl, ?_⟩,
            relink tree (tree.above pfork b) (tree.above pfork c).reverse st.mem.next, ?_⟩
          · simp only [ChainState.writeHashBestChain, hlast.mem]
            exact (htip.next.clearAll hb).setAll (Forest.links_above hc)
          · simp only [ChainState.writeHashBestChain, hlast.mem]
        · cases hok

end Reorganize

/-! ## Postponed blocks -/

/-- The blocks that a call postpones: those above the first block of the new branch whose
trust is higher than that of the best chain. -/
def postponedBlocks (tree : BlockTree ι) (st : ChainState ι Tx Peg) (pindexNew : ι) : List ι :=
  if tree.prev pindexNew = st.mem.hashBestChain then []
  else match st.mem.pindexBest with
    | none => []
    | some pindexBest => (postpone tree pindexBest pindexNew).1

omit [DecidableEq ι] in
theorem Tip.published {t : ι} (htip : Tip tree st t) (hnames : st.mem.Names tree b) :
    Published tree st b ↔ t = b := by
  constructor
  · intro h
    exact Option.some.inj (htip.hashBestChain.symm.trans h.committed)
  · rintro rfl
    refine ⟨hnames, ?_, htip.hashBestChain, htip.next.reaches (Forest.Ancestor.refl _), htip.next.ends⟩
    rw [htip.connected, Forest.head_path]

omit [DecidableEq ι] in
theorem Names.publish {mem : ChainMemory ι} (h : mem.pindexGenesisBlock = some tree.hashGenesisBlock)
    (i : ι) : (mem.publish tree i).Names tree i := ⟨h, rfl, rfl, rfl⟩

/-- The first block is attached without `ConnectBlock`. -/
theorem attachGenesis_tip (hfresh : Fresh st)
    (hok : attachBlock tree env c { st with txdb := st.txdb.txnBegin } = (true, st')) :
    c = tree.hashGenesisBlock ∧
      st'.mem.pindexGenesisBlock = some tree.hashGenesisBlock ∧ Tip tree st' c := by
  simp only [attachBlock, hfresh.genesis, true_and] at hok
  split_ifs at hok with hc hcommit hprev
  · simp only [Prod.mk.injEq, true_and] at hok
    subst hok hc
    refine ⟨rfl, rfl, ?_, ?_, ?_, fun i j => ?_⟩
    · rfl
    · simp [CTxDB.txnCommit, CTxDB.write, CTxDB.txnBegin, CTxDB.view, hcommit]
    · have hroot := tree.prev_eq_none.mpr rfl
      simp [CTxDB.txnCommit, CTxDB.write, CTxDB.txnBegin, CTxDB.view, hcommit,
        Forest.path_of_root hroot]
    · refine iff_of_false (by simp [hfresh.next i]) ?_
      rintro ⟨hj, hjc⟩
      obtain rfl := hjc.eq_of_height
        ((genesis_ancestor tree j).height_le)
      rw [tree.prev_eq_none.mpr rfl] at hj
      cases hj
  · cases hok
  · rw [hfresh.hashBestChain] at hprev
    exact absurd (tree.prev_eq_none.mp hprev) hc
  · rw [hfresh.best] at hok
    cases hok

/-- What `attachBlock` leaves behind when it returns true. -/
theorem attachBlock_tip (hst : Consistent tree st)
    (hok : attachBlock tree env c { st with txdb := st.txdb.txnBegin } = (true, st')) :
    st'.mem.pindexGenesisBlock = some tree.hashGenesisBlock ∧
      ∃ t, Tip tree st' t ∧ (t = c ↔ ∀ i ∈ postponedBlocks tree st c, env.attaches i) := by
  rcases hst with hfresh | ⟨b, hnames, htip⟩
  · obtain ⟨rfl, hgenesis, htip⟩ := attachGenesis_tip hfresh hok
    refine ⟨hgenesis, _, htip, ?_⟩
    rw [postponedBlocks, if_pos (by rw [hfresh.hashBestChain, tree.prev_eq_none])]
    simp
  · simp only [attachBlock, hnames.genesis, reduceCtorEq, false_and, if_false] at hok
    rw [postponedBlocks]
    split_ifs at hok ⊢ with hprev
    · obtain ⟨-, hnext, next, hmem⟩ := setBestChainInner_spec env htip
        (hprev.trans hnames.hashBestChain)
      rw [hok] at hnext hmem
      exact ⟨by rw [hmem]; exact hnames.genesis, c, hnext, by simp⟩
    · rw [hnames.best] at hok ⊢
      simp only at hok ⊢
      rcases hr : reorganize tree env b (postpone tree b c).2
        { st with txdb := st.txdb.txnBegin } with ⟨ok, mid⟩
      rw [hr] at hok
      cases ok with
      | false => cases hok
      | true =>
        obtain ⟨hmid, next, hmem⟩ := reorganize_tip htip hr
        obtain ⟨t, next', ht, hmem', hiff⟩ := secondaries_spec env
          (postponeAux_links (tree.nChainTrust b) (tree.height c) c) hmid
        simp only [Prod.mk.injEq, true_and] at hok
        subst hok
        refine ⟨?_, t, ht, hiff.trans ?_⟩
        · simp only [postpone, hmem', hmem, hnames.genesis]
        · simp only [List.mem_reverse]
          rfl

/-- A call of `SetBestChain` that returns true publishes the block connected last exactly
when each postponed block is read, connects and is committed. -/
theorem published_iff (hst : Consistent tree st) (hok : setBestChain tree env c st = (true, st')) :
    (∃ b, Published tree st' b) ↔ ∀ i ∈ postponedBlocks tree st c, env.attaches i := by
  unfold setBestChain at hok
  rcases hr : attachBlock tree env c { st with txdb := st.txdb.txnBegin } with ⟨ok, mid⟩
  rw [hr] at hok
  cases ok with
  | false => cases hok
  | true =>
    obtain ⟨hgenesis, t, ht, hiff⟩ := attachBlock_tip hst hr
    simp only [Prod.mk.injEq, true_and] at hok
    subst hok
    have hpublished : Tip tree { mid with mem := mid.mem.publish tree c } t :=
      ⟨ht.batch, ht.hashBestChain, ht.connected, ht.next⟩
    have hpub := hpublished.published (Names.publish hgenesis c)
    rw [← hiff, ← hpub]
    constructor
    · rintro ⟨b, hb⟩
      obtain rfl : c = b := Option.some.inj hb.names.best
      exact hb
    · exact fun hc => ⟨c, hc⟩

/-- Two branches on the genesis block 0: block 1, and the blocks 2 and 3. -/
def forkTree : BlockTree ℕ where
  prev n := if n = 0 then none else if n = 3 then some 2 else some 0
  height n := if n = 0 then 0 else if n = 3 then 2 else 1
  height_prev := by
    intro a b h
    grind
  nChainTrust n := if n = 0 then 0 else 9 + n
  hashGenesisBlock := 0
  prev_eq_none := by
    intro i
    split_ifs with h0 h3 <;> simp [*]

def forkState : ChainState ℕ Unit Unit where
  mem := {
    pindexGenesisBlock := some 0, pindexBest := some 1, hashBestChain := some 1
    nBestHeight := 1, nBestChainTrust := 10, next := fun i => if i = 0 then some 1 else none }
  txdb := { disk := { hashBestChain := some 1, connected := [1, 0], data := () } }
  pegdb := ()

def forkEnv (invalid : List ℕ) : ChainEnv ℕ Unit Unit where
  readFromDisk _ := true
  disconnectBlock _ := true
  connectBlock i := decide (i ∉ invalid)
  txnCommit _ := true
  disconnectData _ _ _ r := r
  connectData _ _ _ r := r

theorem forkState_consistent : Consistent forkTree forkState := by
  refine Or.inr ⟨1, ⟨rfl, rfl, rfl, rfl⟩, rfl, rfl, rfl, fun i j => ?_⟩
  rw [← Forest.mem_path]
  have hpath : forkTree.path 1 = [1, 0] := rfl
  rw [hpath]
  constructor
  · intro h
    simp only [forkState] at h
    split_ifs at h with hi
    cases h
    exact ⟨hi ▸ rfl, List.mem_cons_self⟩
  · rintro ⟨hj, hmem⟩
    rcases List.mem_cons.mp hmem with rfl | hmem
    · cases hj
      rfl
    · obtain rfl := List.mem_singleton.mp hmem
      cases hj

theorem forkState_published : ∃ st', setBestChain forkTree (forkEnv []) 3 forkState = (true, st') ∧
    ∃ b, Published forkTree st' b :=
  have hok : setBestChain forkTree (forkEnv []) 3 forkState =
      (true, (setBestChain forkTree (forkEnv []) 3 forkState).2) := rfl
  ⟨_, hok, (published_iff forkState_consistent hok).mpr fun _ _ => ⟨rfl, rfl, rfl⟩⟩

/-- Block 3 is postponed and does not connect. The call returns true, the memory names
block 3, and the databases and the pointers are at block 2. -/
theorem unconnected_block_published :
    ∃ st', setBestChain forkTree (forkEnv [3]) 3 forkState = (true, st') ∧
      Consistent forkTree forkState ∧ st'.mem.pindexBest = some 3 ∧ st'.mem.hashBestChain = some 3 ∧
      st'.mem.nBestHeight = 2 ∧ st'.txdb.disk.hashBestChain = some 2 ∧
      st'.txdb.disk.connected = [2, 0] ∧ st'.mem.next 2 = none :=
  ⟨_, rfl, forkState_consistent, rfl, rfl, rfl, rfl, rfl, rfl⟩

end BitBay
