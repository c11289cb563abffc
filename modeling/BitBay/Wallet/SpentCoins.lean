import BitBay.Wallet.SpentFlags

/-!
# Coins that the wallet has spent

The wallet runs beside the memory pool and the best chain. A call keeps every spent own output
marked unless it clears a flag under a live spender: a transaction that enters a block after
the pool has a transaction that spends it, or a coinstake that leaves a block when another
transaction spends the same output.
-/
namespace BitBay

/-! ## Calls beside the pool and the chain -/

/-- The wallet, the transactions in the memory pool and those of the best chain. -/
structure WalletState where
  mapWallet : MapWallet
  mempool : Finset UInt256 := ∅
  chain : Finset UInt256 := ∅

def WalletState.Live (s : WalletState) (hash : UInt256) : Prop := hash ∈ s.mempool ∨ hash ∈ s.chain

inductive WalletCall
  | addToWallet (wtxIn : CWalletTx)
  /-- The memory pool accepts a transaction. -/
  | accept (tx : CTransaction) (mapOutputsFractions : MapFractions)
  /-- A transaction leaves the memory pool. The wallet is not told. -/
  | leave (hash : UInt256)
  | connectBlock (hashBlock : UInt256) (vtx : List CTransaction) (mapFractions : MapFractions)
    (oldBlock : List CTransaction)
  | disconnectBlock (vtx : List CTransaction)
  | commitTransaction (wtxNew : CWalletTx)

section Model

variable (net : WalletParams)

def hashes (vtx : List CTransaction) : Finset UInt256 := (vtx.map net.getHash).toFinset

namespace WalletCall

def apply (s : WalletState) : WalletCall → Option WalletState
  | addToWallet wtxIn => (s.mapWallet.addToWallet net wtxIn).map fun w => { s with mapWallet := w }
  | accept tx mapOutputsFractions =>
    (s.mapWallet.syncConnected net tx 0 mapOutputsFractions []).map fun w =>
      { s with mapWallet := w, mempool := insert (net.getHash tx) s.mempool }
  | leave hash => some { s with mempool := s.mempool.erase hash }
  | connectBlock hashBlock vtx mapFractions oldBlock =>
    (vtx.foldlM (fun (w : MapWallet) tx => w.syncConnected net tx hashBlock mapFractions oldBlock)
      s.mapWallet).map fun w => { s with mapWallet := w, chain := s.chain ∪ hashes net vtx }
  | disconnectBlock vtx =>
    (vtx.foldlM (fun (w : MapWallet) tx => w.syncDisconnected net tx) s.mapWallet).map fun w =>
      { s with mapWallet := w, chain := s.chain \ hashes net vtx }
  | commitTransaction wtxNew =>
    (s.mapWallet.commitTransaction net wtxNew).map fun w => { s with mapWallet := w }

def vtx : WalletCall → List CTransaction
  | addToWallet wtxIn => [wtxIn.tx]
  | accept tx _ => [tx]
  | leave _ => []
  | connectBlock _ vtx _ _ => vtx
  | disconnectBlock _ => []
  | commitTransaction wtxNew => [wtxNew.tx]

end WalletCall

structure WalletStep where
  before : WalletState
  call : WalletCall
  after : WalletState

/-- A step of the wallet. Transactions differ in their hashes, and none of a block spends an
output of itself or of a later one. -/
structure WalletStep.Valid (step : WalletStep) : Prop where
  named : ∀ tx ∈ step.call.vtx, ∀ wtx, step.before.mapWallet (net.getHash tx) = some wtx →
    wtx.tx = tx
  nodup : (step.call.vtx.map net.getHash).Nodup
  ordered : ∀ pre tx post, step.call.vtx = pre ++ tx :: post → ∀ B ∈ pre ++ [tx], ∀ n,
    ¬ B.Spends ⟨net.getHash tx, n⟩
  hashBlock_ne : ∀ hashBlock vtx mapFractions oldBlock,
    step.call = .connectBlock hashBlock vtx mapFractions oldBlock → hashBlock ≠ 0
  returns : step.call.apply net step.before = some step.after

inductive WalletRun (start : WalletState) : List WalletStep → WalletState → Prop
  | start : WalletRun start [] start
  | call {steps : List WalletStep} {step : WalletStep} : WalletRun start steps step.before →
      step.Valid net → WalletRun start (steps ++ [step]) step.after

/-- Every own output of a transaction of the wallet that another one of the wallet spends is
marked while the spender is in the memory pool or on the best chain. -/
def WalletState.Marked (s : WalletState) : Prop :=
  ∀ A B wtxA wtxB n txout, s.mapWallet A = some wtxA → s.mapWallet B = some wtxB →
    wtxA.tx.vout[n]? = some txout → net.isMine txout = true → wtxB.tx.Spends ⟨A, n⟩ →
    s.Live B → wtxA.isSpent n = true

/-! ## Calls that keep the flags -/

def MapWallet.Involves (w : MapWallet) (tx : CTransaction) : Prop :=
  (w (net.getHash tx)).isSome ∨ MapWallet.isMineTx net tx ∨ w.isFromMe net tx

/-- The wallet takes a transaction of a block in, after those before it. -/
def MapWallet.InvolvesAfter (w : MapWallet) (pre : List CTransaction) (tx : CTransaction) : Prop :=
  (w (net.getHash tx)).isSome ∨ MapWallet.isMineTx net tx ∨
    ∃ txin ∈ tx.vin, ∃ prev : CTransaction,
      ((∃ wtx, w txin.prevout.hash = some wtx ∧ wtx.tx = prev) ∨
        prev ∈ pre ∧ net.getHash prev = txin.prevout.hash) ∧
      ∃ txout, prev.vout[txin.prevout.n]? = some txout ∧ net.isMine txout = true

/-- An own output of the transaction that a live transaction of the wallet spends is marked
later, or the copy has no block and the flag is there. -/
def AddKeeps (w : MapWallet) (live : UInt256 → Prop) (pending : COutPoint → Prop)
    (wtxIn : CWalletTx) : Prop :=
  ∀ n txout, wtxIn.tx.vout[n]? = some txout → net.isMine txout = true →
    ∀ hash wtx, w hash = some wtx → live hash → wtx.tx.Spends ⟨net.getHash wtxIn.tx, n⟩ →
      pending ⟨net.getHash wtxIn.tx, n⟩ ∨
        wtxIn.hashBlock = 0 ∧ ((w (net.getHash wtxIn.tx)).isSome ∨ wtxIn.isSpent n = true)

/-- The call clears no flag of an output that a live transaction spends. -/
def WalletStep.Keeps (step : WalletStep) : Prop :=
  let s := step.before
  match step.call with
  | .addToWallet wtxIn => AddKeeps net s.mapWallet s.Live (fun _ => False) wtxIn
  | .accept tx mapOutputsFractions => s.mapWallet.Involves net tx →
    AddKeeps net s.mapWallet s.Live (fun _ => False)
      (MapWallet.notified net tx 0 mapOutputsFractions)
  | .leave _ => True
  | .connectBlock hashBlock vtx mapFractions _ =>
    ∀ pre tx post, vtx = pre ++ tx :: post → s.mapWallet.InvolvesAfter net pre tx →
      AddKeeps net s.mapWallet (fun hash => s.Live hash ∨ hash ∈ hashes net vtx)
        (fun o => ∃ C ∈ post, C.Spends o) (MapWallet.notified net tx hashBlock mapFractions)
  | .disconnectBlock vtx =>
    ∀ tx ∈ vtx, tx.isCoinStake = true → s.mapWallet.isFromMe net tx = true →
      ∀ o, tx.Spends o → OwnAt net s.mapWallet o → ∀ hash wtx, s.mapWallet hash = some wtx →
        hash ∈ s.mempool ∨ hash ∈ s.chain \ hashes net vtx → ¬ wtx.tx.Spends o
  | .commitTransaction wtxNew => AddKeeps net s.mapWallet s.Live (fun _ => False) wtxNew

end Model

/-! ## One transaction -/

section Calls

variable {net : WalletParams} {w w' : MapWallet} {live live' : UInt256 → Prop}
  {pending pending' : COutPoint → Prop}

theorem Known.mono (h : Known net w live pending) (hlive : ∀ hash, live' hash → live hash)
    (hpending : ∀ o, pending o → pending' o) : Known net w live' pending' :=
  fun o hown hash wtx hwtx hl hspends =>
    (h o hown hash wtx hwtx (hlive hash hl) hspends).imp id (hpending o)

theorem ownAt_named {tx : CTransaction} {n : ℕ}
    (hnamed : ∀ wtx, w (net.getHash tx) = some wtx → wtx.tx = tx)
    (h : OwnAt net w ⟨net.getHash tx, n⟩) :
    ∃ txout, tx.vout[n]? = some txout ∧ net.isMine txout = true := by
  obtain ⟨wtx, txout, hwtx, hout, hmine⟩ := h
  rw [hnamed wtx hwtx] at hout
  exact ⟨txout, hout, hmine⟩

/-- The wallet with a new transaction that has not marked what it spends. -/
theorem Known.put_copied {wtxIn : CWalletTx} (hknown : Known net w live pending)
    (hnone : w (net.getHash wtxIn.tx) = none) (hkeeps : AddKeeps net w live pending wtxIn) :
    Known net (w.put (net.getHash wtxIn.tx) wtxIn.copied.markDirty)
      (fun hash => live hash ∧ hash ≠ net.getHash wtxIn.tx) pending := by
  refine hknown.put_new hnone fun n hown hash wtx hsome hl hspends => ?_
  have hput : ∀ wtx, w.put (net.getHash wtxIn.tx) wtxIn.copied.markDirty (net.getHash wtxIn.tx) =
      some wtx → wtx.tx = wtxIn.tx := by
    intro wtx hput
    obtain rfl : wtxIn.copied.markDirty = wtx := by simpa [MapWallet.put] using hput
    rfl
  obtain ⟨txout, hout, hmine⟩ := ownAt_named hput hown
  rcases hkeeps n txout hout hmine hash wtx hsome hl hspends with hp | ⟨-, hold | hspent⟩
  · exact Or.inr hp
  · simp [hnone] at hold
  · exact Or.inl hspent

/-- A transaction that is added marks what it spends. -/
theorem Known.addToWallet {wtxIn : CWalletTx} (hknown : Known net w live pending)
    (hnamed : ∀ wtx, w (net.getHash wtxIn.tx) = some wtx → wtx.tx = wtxIn.tx)
    (hself : ∀ n, ¬ wtxIn.tx.Spends ⟨net.getHash wtxIn.tx, n⟩)
    (hlive : ∀ hash, live' hash → live hash ∨ hash = net.getHash wtxIn.tx)
    (hpending : ∀ o, pending o → wtxIn.tx.Spends o ∨ pending' o)
    (hkeeps : AddKeeps net w live' pending' wtxIn) (h : w.addToWallet net wtxIn = some w') :
    Known net w' live' pending' := by
  have hcleared : wtxIn.hashBlock ≠ 0 → ∀ n txout, wtxIn.tx.vout[n]? = some txout →
      net.isMine txout = true → ∀ hash wtx, w hash = some wtx → live' hash →
        wtx.tx.Spends ⟨net.getHash wtxIn.tx, n⟩ → pending' ⟨net.getHash wtxIn.tx, n⟩ := by
    intro hblock n txout hout hmine hash wtx hsome hl hspends
    exact (hkeeps n txout hout hmine hash wtx hsome hl hspends).resolve_right
      fun hzero => hblock hzero.1
  cases hwtx : w (net.getHash wtxIn.tx) with
  | none =>
    -- The transaction is put first, and is live once it has marked what it spends.
    have hboth : Known net w (fun hash => live hash ∧ live' hash)
        (fun o => pending o ∨ pending' o) := hknown.mono (fun _ hl => hl.1) fun _ hp => Or.inl hp
    have hput := hboth.put_copied hwtx fun n txout hout hmine hash wtx hsome hl hspends =>
      (hkeeps n txout hout hmine hash wtx hsome hl.2 hspends).imp Or.inr id
    have hat : ∀ {wtx}, w.put (net.getHash wtxIn.tx) wtxIn.copied.markDirty
        (net.getHash wtxIn.tx) = some wtx → wtx.tx = wtxIn.tx := by
      intro wtx hsome
      obtain rfl : wtxIn.copied.markDirty = wtx := by simpa [MapWallet.put] using hsome
      rfl
    refine (addToWallet_new hwtx h).known hput (fun hash wtx hsome hl => ?_) (fun o ho => ?_)
      fun o hcopy hown hash wtx hsome hl hspends => ?_
    · by_cases heq : hash = net.getHash wtxIn.tx
      · subst heq
        rw [hat hsome]
        exact Or.inr fun o ho => Or.inl ho
      · exact Or.inl ⟨⟨(hlive hash hl).resolve_right heq, hl⟩, heq⟩
    · exact ho.elim (hpending o) Or.inr
    · obtain ⟨hblock, hhash⟩ := hcopy
      obtain ⟨oh, n⟩ := o
      dsimp only at hhash
      subst hhash
      obtain ⟨txout, hout, hmine⟩ := ownAt_named (fun wtx => hat) hown
      by_cases heq : hash = net.getHash wtxIn.tx
      · subst heq
        rw [hat hsome] at hspends
        exact absurd hspends (hself n)
      · have hold : w hash = some wtx := by simpa [MapWallet.put, heq] using hsome
        exact hcleared hblock n txout hout hmine hash wtx hold hl hspends
  | some wtx₀ =>
    have hstep := addToWallet_merged hwtx h
    rw [hnamed wtx₀ hwtx] at hstep
    refine hstep.known hknown (fun hash wtx hsome hl => ?_) hpending
      fun o hcopy hown hash wtx hsome hl hspends => ?_
    · rcases hlive hash hl with hold | rfl
      · exact Or.inl hold
      · rw [hnamed wtx hsome]
        exact Or.inr fun o ho => Or.inl ho
    · obtain ⟨hblock, hhash⟩ := hcopy
      obtain ⟨oh, n⟩ := o
      dsimp only at hhash
      subst hhash
      obtain ⟨txout, hout, hmine⟩ := ownAt_named hnamed hown
      exact hcleared hblock n txout hout hmine hash wtx hsome hl hspends

/-- A transaction that the wallet is told of. -/
theorem Known.syncConnected {tx : CTransaction} {hashBlock : UInt256} {fractions : MapFractions}
    {oldBlock : List CTransaction} (hknown : Known net w live pending)
    (hnamed : ∀ wtx, w (net.getHash tx) = some wtx → wtx.tx = tx)
    (hself : ∀ n, ¬ tx.Spends ⟨net.getHash tx, n⟩)
    (hlive : ∀ hash, live' hash → live hash ∨ hash = net.getHash tx)
    (hpending : ∀ o, pending o → tx.Spends o ∨ pending' o)
    (hkeeps : w.Involves net tx →
      AddKeeps net w live' pending' (MapWallet.notified net tx hashBlock fractions))
    (h : w.syncConnected net tx hashBlock fractions oldBlock = some w') :
    Known net w' live' pending' := by
  obtain ⟨mid, hmid, heq⟩ := Option.bind_eq_some_iff.mp h
  obtain rfl := Option.some.inj heq
  have hadded : Known net mid live' pending' := by
    unfold MapWallet.addIfInvolvingMe at hmid
    split_ifs at hmid with hinvolves
    · exact hknown.addToWallet hnamed hself hlive hpending (hkeeps hinvolves) hmid
    · refine (walletUpdateSpent_flags hmid).known hknown (fun hash wtx hsome hl => ?_) hpending
        fun o ⟨hfalse, _⟩ => (by cases hfalse)
      rcases hlive hash hl with hold | rfl
      · exact Or.inl hold
      · rw [hnamed wtx hsome]
        exact Or.inr fun o ho => Or.inl ho
  split_ifs
  · exact (cleanFractions_flags oldBlock).known hadded (fun _ _ _ hl => Or.inl hl)
      (fun _ hp => Or.inr hp) fun _ hc => hc.elim
  · exact hadded

/-- What the wallet has after it is told of a transaction. -/
theorem addToWallet_txs {wtxIn : CWalletTx} (h : w.addToWallet net wtxIn = some w')
    {hash : UInt256} {wtx : CWalletTx} (hwtx : w' hash = some wtx) :
    (∃ wtx₀, w hash = some wtx₀ ∧ wtx₀.tx = wtx.tx) ∨
      hash = net.getHash wtxIn.tx ∧ wtx.tx = wtxIn.tx := by
  cases hold : w (net.getHash wtxIn.tx) with
  | none =>
    have hsame := (addToWallet_new hold h).txs hash
    rw [hwtx] at hsame
    obtain ⟨wtx₀, hput, htx⟩ := Option.map_eq_some_iff.mp hsame.symm
    by_cases heq : hash = net.getHash wtxIn.tx
    · subst heq
      obtain rfl : wtxIn.copied.markDirty = wtx₀ := by simpa [MapWallet.put] using hput
      exact Or.inr ⟨rfl, htx.symm⟩
    · exact Or.inl ⟨wtx₀, by simpa [MapWallet.put, heq] using hput, htx⟩
  | some wtx₁ =>
    have hsame := (addToWallet_merged hold h).txs hash
    rw [hwtx] at hsame
    exact Or.inl (Option.map_eq_some_iff.mp hsame.symm)

theorem syncConnected_txs {tx : CTransaction} {hashBlock : UInt256} {fractions : MapFractions}
    {oldBlock : List CTransaction}
    (h : w.syncConnected net tx hashBlock fractions oldBlock = some w')
    {hash : UInt256} {wtx : CWalletTx} (hwtx : w' hash = some wtx) :
    (∃ wtx₀, w hash = some wtx₀ ∧ wtx₀.tx = wtx.tx) ∨ hash = net.getHash tx ∧ wtx.tx = tx := by
  obtain ⟨mid, hmid, heq⟩ := Option.bind_eq_some_iff.mp h
  obtain rfl := Option.some.inj heq
  have hclean : ((if tx.isCoinStake then mid.cleanFractions oldBlock else mid) hash).map
      CWalletTx.tx = (mid hash).map CWalletTx.tx := by
    split_ifs
    · have hflags : FlagStep net mid (mid.cleanFractions oldBlock) (fun _ => False)
          fun _ => False := cleanFractions_flags oldBlock
      exact hflags.txs hash
    · rfl
  rw [hwtx] at hclean
  obtain ⟨wtx₁, hwtx₁, htx⟩ := Option.map_eq_some_iff.mp hclean.symm
  rw [← htx]
  unfold MapWallet.addIfInvolvingMe at hmid
  split_ifs at hmid
  · exact addToWallet_txs hmid hwtx₁
  · have hsame := (walletUpdateSpent_flags hmid).txs hash
    rw [hwtx₁] at hsame
    exact Or.inl (Option.map_eq_some_iff.mp hsame.symm)

end Calls

/-! ## Blocks -/

section Blocks

variable {net : WalletParams} {w w' w₀ : MapWallet} {live : UInt256 → Prop}
  {vtx pre post : List CTransaction} {tx : CTransaction}

def MapWallet.From (net : WalletParams) (w w₀ : MapWallet) (pre : List CTransaction) : Prop :=
  ∀ hash wtx, w hash = some wtx →
    (∃ wtx₀, w₀ hash = some wtx₀ ∧ wtx₀.tx = wtx.tx) ∨ net.getHash wtx.tx = hash ∧ wtx.tx ∈ pre

theorem ownOutput_spec {txin : CTxIn} {txout : CTxOut} (h : w.ownOutput net txin = some txout) :
    ∃ prev, w txin.prevout.hash = some prev ∧ prev.tx.vout[txin.prevout.n]? = some txout ∧
      net.isMine txout = true := by
  simp only [MapWallet.ownOutput, Option.bind_eq_bind, Option.bind_eq_some_iff] at h
  obtain ⟨prev, hprev, out, hout, hmine⟩ := h
  split_ifs at hmine with hm
  obtain rfl := Option.some.inj hmine
  exact ⟨prev, hprev, hout, hm⟩

/-- A transaction that takes value from the wallet spends an own output. -/
theorem exists_ownOutput (h : w.isFromMe net tx = true) :
    ∃ txin ∈ tx.vin, ∃ txout, w.ownOutput net txin = some txout := by
  by_contra hnone
  push Not at hnone
  have hzero : w.getDebit net tx = 0 := by
    refine List.sum_eq_zero fun x hx => ?_
    obtain ⟨txin, hmem, rfl⟩ := List.mem_map.mp hx
    simp [Option.eq_none_iff_forall_ne_some.mpr (hnone txin hmem)]
  simp [MapWallet.isFromMe, hzero] at h

theorem MapWallet.Involves.after (hfrom : w.From net w₀ pre)
    (hnew : ∀ B ∈ pre, net.getHash B ≠ net.getHash tx) (h : w.Involves net tx) :
    w₀.InvolvesAfter net pre tx := by
  rcases h with hold | hmine | hfromMe
  · obtain ⟨wtx, hwtx⟩ := Option.isSome_iff_exists.mp hold
    rcases hfrom _ _ hwtx with ⟨wtx₀, hwtx₀, -⟩ | ⟨hhash, hmem⟩
    · exact Or.inl (Option.isSome_iff_exists.mpr ⟨wtx₀, hwtx₀⟩)
    · exact absurd hhash (hnew _ hmem)
  · exact Or.inr (Or.inl hmine)
  · obtain ⟨txin, htxin, txout, hout⟩ := exists_ownOutput hfromMe
    obtain ⟨prev, hprev, hat, hmine⟩ := ownOutput_spec hout
    refine Or.inr (Or.inr ⟨txin, htxin, prev.tx, ?_, txout, hat, hmine⟩)
    exact (hfrom _ _ hprev).imp id fun h => ⟨h.2, h.1⟩

/-- The transactions of a block, of which some have been notified. -/
theorem Known.connectBlock {hashBlock : UInt256} {fractions : MapFractions}
    {oldBlock : List CTransaction} (hblock : hashBlock ≠ 0)
    (hnamed : ∀ tx ∈ vtx, ∀ wtx, w₀ (net.getHash tx) = some wtx → wtx.tx = tx)
    (hnodup : (vtx.map net.getHash).Nodup)
    (hordered : ∀ pre tx post, vtx = pre ++ tx :: post → ∀ B ∈ pre ++ [tx], ∀ n,
      ¬ B.Spends ⟨net.getHash tx, n⟩)
    (hkeeps : ∀ pre tx post, vtx = pre ++ tx :: post → w₀.InvolvesAfter net pre tx →
      AddKeeps net w₀ live (fun o => ∃ C ∈ post, C.Spends o)
        (MapWallet.notified net tx hashBlock fractions))
    (hvtx : vtx = pre ++ post) (hfrom : w.From net w₀ pre)
    (hknown : Known net w live fun o => ∃ C ∈ post, C.Spends o)
    (h : post.foldlM (fun (w : MapWallet) tx =>
      w.syncConnected net tx hashBlock fractions oldBlock) w = some w') :
    Known net w' live fun _ => False := by
  induction post generalizing pre w with
  | nil =>
    obtain rfl := Option.some.inj h
    exact hknown.mono (fun _ hl => hl) fun o ⟨C, hC, _⟩ => (by cases hC)
  | cons tx post ih =>
    rw [List.foldlM_cons, Option.bind_eq_bind, Option.bind_eq_some_iff] at h
    obtain ⟨mid, hfirst, hrest⟩ := h
    have hmem : tx ∈ vtx := by simp [hvtx]
    have hnew : ∀ B ∈ pre, net.getHash B ≠ net.getHash tx := by
      intro B hB heq
      rw [hvtx, List.map_append, List.nodup_append] at hnodup
      exact hnodup.2.2 _ (List.mem_map_of_mem hB) _ (List.mem_map_of_mem List.mem_cons_self) heq
    have hself := fun n => hordered pre tx post hvtx tx (by simp) n
    have hnamed' : ∀ wtx, w (net.getHash tx) = some wtx → wtx.tx = tx := by
      intro wtx hwtx
      rcases hfrom _ _ hwtx with ⟨wtx₀, hwtx₀, heq⟩ | ⟨hhash, hin⟩
      · rw [← heq]
        exact hnamed tx hmem wtx₀ hwtx₀
      · exact absurd hhash (hnew _ hin)
    have hmid : Known net mid live fun o => ∃ C ∈ post, C.Spends o := by
      refine hknown.syncConnected hnamed' hself (fun _ hl => Or.inl hl) (fun o ho => ?_)
        (fun hinvolves => ?_) hfirst
      · simpa using ho
      · have hold := hkeeps pre tx post hvtx (hinvolves.after hfrom hnew)
        intro n txout hout hmine hash wtx hwtx hl hspends
        rcases hfrom _ _ hwtx with ⟨wtx₀, hwtx₀, heq⟩ | ⟨-, hin⟩
        · rw [← heq] at hspends
          exact Or.inl ((hold n txout hout hmine hash wtx₀ hwtx₀ hl hspends).resolve_right
            fun hzero => hblock hzero.1)
        · exact absurd hspends (hordered pre tx post hvtx _ (List.mem_append_left _ hin) n)
    have hvtx' : vtx = (pre ++ [tx]) ++ post := by simp [hvtx]
    refine ih hvtx' (fun hash wtx hwtx => ?_) hmid hrest
    rcases syncConnected_txs hfirst hwtx with ⟨wtx₁, hwtx₁, heq⟩ | ⟨rfl, rfl⟩
    · rw [← heq]
      exact (hfrom hash wtx₁ hwtx₁).imp id fun hin => ⟨hin.1, List.mem_append_left _ hin.2⟩
    · exact Or.inr ⟨rfl, by simp⟩

/-- What is from the wallet depends on its transactions alone. -/
theorem isFromMe_congr (h : ∀ hash, (w' hash).map CWalletTx.tx = (w hash).map CWalletTx.tx) :
    w'.isFromMe net tx = w.isFromMe net tx := by
  have hout : ∀ (w : MapWallet) (txin : CTxIn), w.ownOutput net txin =
      ((w txin.prevout.hash).map CWalletTx.tx).bind fun prev =>
        (prev.vout[txin.prevout.n]?).bind fun txout =>
          if net.isMine txout then some txout else none := by
    intro w txin
    simp only [MapWallet.ownOutput, Option.bind_eq_bind, Option.bind_map]
    rfl
  simp only [MapWallet.isFromMe, MapWallet.getDebit, hout, h]

theorem syncDisconnected_flags (h : w.syncDisconnected net tx = some w') :
    FlagStep net w w' (fun _ => False) fun o =>
      (tx.isCoinStake = true ∧ w.isFromMe net tx = true) ∧ tx.Spends o := by
  unfold MapWallet.syncDisconnected MapWallet.disableTransaction at h
  split_ifs at h with hstake
  · refine (FlagStep.foldlM (fun txin _ _ _ hs => unmarkInput_flags hs) h).weaken
      (fun _ hm => hm.elim) fun o ho => ⟨hstake, ho⟩
  · obtain rfl := Option.some.inj h
    exact .refl w

/-- A disconnected block, whose transactions are no longer live. -/
theorem Known.disconnectBlock (hknown : Known net w live fun _ => False)
    (hkeeps : ∀ tx ∈ vtx, tx.isCoinStake = true → w.isFromMe net tx = true →
      ∀ o, tx.Spends o → OwnAt net w o → ∀ hash wtx, w hash = some wtx → live hash →
        ¬ wtx.tx.Spends o)
    (h : vtx.foldlM (fun (w : MapWallet) tx => w.syncDisconnected net tx) w = some w') :
    Known net w' live fun _ => False := by
  refine (Run.foldlM_some_invariant (P := fun v => Known net v live (fun _ => False) ∧
    ∀ hash, (v hash).map CWalletTx.tx = (w hash).map CWalletTx.tx)
    (fun tx htx v v' hv hstep => ?_) ⟨hknown, fun _ => rfl⟩ h).1
  obtain ⟨hv, hsame⟩ := hv
  have hflags := syncDisconnected_flags hstep
  refine ⟨hflags.known hv (fun _ _ _ hl => Or.inl hl) (fun _ hp => hp.elim) ?_,
    fun hash => (hflags.txs hash).trans (hsame hash)⟩
  rintro o ⟨⟨hstake, hfromMe⟩, hspends⟩ hown hash wtx hwtx hl hother
  have hat := hsame hash
  rw [hwtx] at hat
  obtain ⟨wtx₀, hwtx₀, heq⟩ := Option.map_eq_some_iff.mp hat.symm
  rw [isFromMe_congr hsame] at hfromMe
  rw [← heq] at hother
  exact hkeeps tx htx hstake hfromMe o hspends ((ownAt_congr hsame o).mp hown) hash wtx₀ hwtx₀ hl
    hother

end Blocks

/-! ## Runs -/

section Runs

variable {net : WalletParams} {start s : WalletState} {step : WalletStep} {steps : List WalletStep}

theorem marked_iff_known :
    s.Marked net ↔ Known net s.mapWallet s.Live fun _ => False := by
  constructor
  · rintro h o ⟨wtxA, txout, hA, hout, hmine⟩ hash wtxB hB hl hspends
    exact Or.inl ⟨wtxA, hA, (List.getElem?_eq_some_iff.mp hout).1,
      h o.hash hash wtxA wtxB o.n txout hA hB hout hmine hspends hl⟩
  · intro h A B wtxA wtxB n txout hA hB hout hmine hspends hl
    rcases h ⟨A, n⟩ ⟨wtxA, txout, hA, hout, hmine⟩ B wtxB hB hl hspends with
      ⟨wtx, hwtx, -, hspent⟩ | hfalse
    · obtain rfl := Option.some.inj (hA.symm.trans hwtx)
      exact hspent
    · exact hfalse.elim

/-- One transaction that is told alone. -/
theorem WalletStep.Valid.alone {tx : CTransaction} (h : step.Valid net)
    (hvtx : step.call.vtx = [tx]) :
    (∀ wtx, step.before.mapWallet (net.getHash tx) = some wtx → wtx.tx = tx) ∧
      ∀ n, ¬ tx.Spends ⟨net.getHash tx, n⟩ :=
  ⟨h.named tx (by simp [hvtx]), h.ordered [] tx [] (by simp [hvtx]) tx (by simp)⟩

/-- A step that clears no flag under a live spender. -/
theorem WalletStep.Valid.marked (h : step.Valid net) (hbefore : step.before.Marked net)
    (hkeeps : step.Keeps net) : step.after.Marked net := by
  rw [marked_iff_known] at hbefore ⊢
  obtain ⟨s, call, after⟩ := step
  have hreturns : call.apply net s = some after := h.returns
  dsimp only at hbefore ⊢
  cases call with
  | addToWallet wtxIn =>
    obtain ⟨hnamed, hself⟩ := h.alone rfl
    obtain ⟨w, hw, rfl⟩ := Option.map_eq_some_iff.mp hreturns
    exact hbefore.addToWallet hnamed hself (fun _ hl => Or.inl hl) (fun _ hp => hp.elim) hkeeps hw
  | accept tx fractions =>
    obtain ⟨hnamed, hself⟩ := h.alone rfl
    obtain ⟨w, hw, rfl⟩ := Option.map_eq_some_iff.mp hreturns
    refine hbefore.syncConnected hnamed hself (fun hash hl => ?_) (fun _ hp => hp.elim)
      (fun hinvolves n txout hout hmine hash wtx hwtx hl hspends => ?_) hw
    · grind [WalletState.Live]
    · by_cases heq : hash = net.getHash tx
      · subst heq
        rw [hnamed wtx hwtx] at hspends
        exact absurd hspends (hself n)
      · have hold : s.Live hash := by grind [WalletState.Live]
        exact hkeeps hinvolves n txout hout hmine hash wtx hwtx hold hspends
  | leave hash =>
    obtain rfl := Option.some.inj hreturns
    refine hbefore.mono (fun hash hl => ?_) fun _ hp => hp
    grind [WalletState.Live]
  | connectBlock hashBlock vtx fractions oldBlock =>
    obtain ⟨w, hw, rfl⟩ := Option.map_eq_some_iff.mp hreturns
    have hlive : ∀ hash, hash ∈ s.mempool ∨ hash ∈ s.chain ∪ hashes net vtx →
        s.Live hash ∨ hash ∈ hashes net vtx := by
      grind [WalletState.Live]
    have hpending : Known net s.mapWallet (fun hash => s.Live hash ∨ hash ∈ hashes net vtx)
        fun o => ∃ C ∈ vtx, C.Spends o := by
      intro o hown hash wtx hwtx hl hspends
      rcases hl with hold | hin
      · exact Or.inl ((hbefore o hown hash wtx hwtx hold hspends).resolve_right id)
      · obtain ⟨C, hC, rfl⟩ := List.mem_map.mp (List.mem_toFinset.mp hin)
        rw [h.named C hC wtx hwtx] at hspends
        exact Or.inr ⟨C, hC, hspends⟩
    have hblock := Known.connectBlock (h.hashBlock_ne _ _ _ _ rfl) h.named h.nodup h.ordered hkeeps
      (List.nil_append vtx).symm (fun hash wtx hwtx => Or.inl ⟨wtx, hwtx, rfl⟩) hpending hw
    exact hblock.mono hlive fun _ hp => hp
  | disconnectBlock vtx =>
    obtain ⟨w, hw, rfl⟩ := Option.map_eq_some_iff.mp hreturns
    have hless : Known net s.mapWallet
        (fun hash => hash ∈ s.mempool ∨ hash ∈ s.chain \ hashes net vtx) fun _ => False :=
      hbefore.mono (fun hash hl => hl.imp id fun hin => (Finset.mem_sdiff.mp hin).1) fun _ hp => hp
    exact hless.disconnectBlock hkeeps hw
  | commitTransaction wtxNew =>
    obtain ⟨hnamed, hself⟩ := h.alone rfl
    obtain ⟨w, hw, rfl⟩ := Option.map_eq_some_iff.mp hreturns
    obtain ⟨mid, hmid, hmarks⟩ := Option.bind_eq_some_iff.mp hw
    have hadd : AddKeeps net s.mapWallet s.Live (fun _ => False) wtxNew := hkeeps
    have hadded := hbefore.addToWallet hnamed hself (fun _ hl => Or.inl hl) (fun _ hp => hp.elim)
      hadd hmid
    have hflags : FlagStep net mid w _ _ :=
      FlagStep.foldlM (fun txin _ _ _ hs => markCommitted_flags hs) hmarks
    exact hflags.known hadded (fun _ _ _ hl => Or.inl hl) (fun _ hp => hp.elim)
      fun o ⟨_, _, hfalse⟩ => hfalse.elim

theorem WalletRun.marked (h : WalletRun net start steps s) (hstart : start.Marked net)
    (hkeeps : ∀ step ∈ steps, step.Keeps net) :
    s.Marked net ∧ ∀ step ∈ steps, step.after.Marked net := by
  induction h with
  | start => exact ⟨hstart, by simp⟩
  | @call steps last _ hvalid ih =>
    obtain ⟨hbefore, hall⟩ := ih fun step hstep => hkeeps step (List.mem_append_left _ hstep)
    have hlast := hvalid.marked hbefore (hkeeps last (by simp))
    refine ⟨hlast, fun step hstep => ?_⟩
    rcases List.mem_append.mp hstep with hmem | hmem
    · exact hall step hmem
    · obtain rfl := List.mem_singleton.mp hmem
      exact hlast

/-- In a run whose calls clear no flag under a live spender, what is spent is marked after
every call. -/
theorem wallet_marked (h : WalletRun net start steps s) (hstart : start.Marked net)
    (hkeeps : ∀ step ∈ steps, step.Keeps net) : ∀ step ∈ steps, step.after.Marked net :=
  (h.marked hstart hkeeps).2

end Runs

/-! ## A parent that confirms before its child -/

/-- The hash of a transaction follows that of the first output that it spends. -/
def ownedNet : WalletParams where
  getHash tx := (tx.vin.head?.elim 0 fun txin => txin.prevout.hash) + 1
  isMine txout := decide (txout.scriptPubKey = [1])

def ownedTx (hash : UInt256) (vout : List CTxOut) : CTransaction where
  vin := [{ prevout := ⟨hash, 0⟩ }]
  vout

def parentTx : CTransaction := ownedTx 10 [⟨100, [1]⟩]

def childTx : CTransaction := ownedTx 11 [⟨90, [1]⟩]

def parentBlock : List CTransaction :=
  [{ vin := [{ prevout := ⟨0, 2 ^ 32 - 1⟩ }], vout := [⟨0, []⟩] },
    ownedTx 20 [⟨0, []⟩, ⟨50, [2]⟩], parentTx]

def WalletState.afterCall (net : WalletParams) (s : WalletState) (call : WalletCall) :
    WalletState :=
  (call.apply net s).getD s

def ownedStart : WalletState where
  mapWallet := fun _ => none

def acceptParent : WalletCall := .accept parentTx fun _ => none

def acceptChild : WalletCall := .accept childTx fun _ => none

def connectParent : WalletCall := .connectBlock 7 parentBlock (fun _ => none) []

def parentKnown : WalletState := ownedStart.afterCall ownedNet acceptParent

def childKnown : WalletState := parentKnown.afterCall ownedNet acceptChild

def parentConfirmed : WalletState := childKnown.afterCall ownedNet connectParent

def acceptSteps : List WalletStep :=
  [⟨ownedStart, acceptParent, parentKnown⟩, ⟨parentKnown, acceptChild, childKnown⟩]

theorem WalletStep.valid_of_checks {net : WalletParams} {s : WalletState} {call : WalletCall}
    (hnamed : ∀ tx ∈ call.vtx, ∀ t ∈ (s.mapWallet (net.getHash tx)).map CWalletTx.tx, t = tx)
    (hnodup : (call.vtx.map net.getHash).Nodup)
    (hapart : ∀ B ∈ call.vtx, ∀ tx ∈ call.vtx, ∀ txin ∈ B.vin,
      txin.prevout.hash ≠ net.getHash tx)
    (hblock : ∀ hashBlock vtx mapFractions oldBlock,
      call = .connectBlock hashBlock vtx mapFractions oldBlock → hashBlock ≠ 0)
    (hreturns : (call.apply net s).isSome) :
    WalletStep.Valid net ⟨s, call, s.afterCall net call⟩ where
  named := fun tx htx wtx hwtx => hnamed tx htx wtx.tx (by rw [hwtx]; rfl)
  nodup := hnodup
  ordered := by
    rintro pre tx post heq B hB n ⟨txin, hin, hprevout⟩
    dsimp only at heq
    have hmem : B ∈ call.vtx := by
      rw [heq]
      rcases List.mem_append.mp hB with hpre | htx
      · exact List.mem_append_left _ hpre
      · exact List.mem_append_right _ (List.mem_singleton.mp htx ▸ List.mem_cons_self)
    exact hapart B hmem tx (by simp [heq]) txin hin (by rw [hprevout])
  hashBlock_ne := hblock
  returns := by
    obtain ⟨s', hs'⟩ := Option.isSome_iff_exists.mp hreturns
    simp [WalletState.afterCall, hs']

theorem accept_run : WalletRun ownedNet ownedStart acceptSteps childKnown := by
  have hparent : WalletRun ownedNet ownedStart [⟨ownedStart, acceptParent, parentKnown⟩]
      parentKnown := by
    refine @WalletRun.call _ _ [] ⟨_, _, _⟩ .start (WalletStep.valid_of_checks ?_ ?_ ?_ ?_ ?_)
    · decide
    · decide
    · decide
    · exact fun _ _ _ _ h => (by cases h)
    · decide
  refine @WalletRun.call _ _ _ ⟨parentKnown, acceptChild, childKnown⟩ hparent
    (WalletStep.valid_of_checks ?_ ?_ ?_ ?_ ?_)
  · decide
  · decide
  · decide
  · exact fun _ _ _ _ h => (by cases h)
  · decide

theorem accepted_marked : parentKnown.Marked ownedNet ∧ childKnown.Marked ownedNet := by
  suffices hmarked : ∀ step ∈ acceptSteps, step.after.Marked ownedNet by
    exact ⟨hmarked _ List.mem_cons_self, hmarked _ (List.mem_cons_of_mem _ List.mem_cons_self)⟩
  refine wallet_marked accept_run (fun A B wtxA wtxB n txout hA => (by cases hA)) ?_
  rintro step hstep
  rcases List.mem_cons.mp hstep with rfl | hstep
  · exact fun _ n txout _ _ hash wtx hwtx => (by cases hwtx)
  · obtain rfl := List.mem_singleton.mp hstep
    intro _ n txout _ _ hash wtx hwtx _ hspends
    -- The wallet has the parent alone, which does not spend the child.
    have hsync : ownedStart.mapWallet.syncConnected ownedNet parentTx 0 (fun _ => none) [] =
        some parentKnown.mapWallet := rfl
    rcases syncConnected_txs hsync hwtx with ⟨wtx₀, hnone, -⟩ | ⟨-, htx⟩
    · cases hnone
    · rw [htx] at hspends
      obtain ⟨txin, hin, hprevout⟩ := hspends
      obtain rfl := List.mem_singleton.mp hin
      have hhash : (10 : UInt256) = 12 := congrArg COutPoint.hash hprevout
      exact absurd hhash (by decide)

/-- A block with the parent alone clears the flag that the child in the pool has set. -/
theorem confirmed_not_marked :
    WalletRun ownedNet ownedStart (acceptSteps ++ [⟨childKnown, connectParent, parentConfirmed⟩])
      parentConfirmed ∧
    childTx.Spends ⟨11, 0⟩ ∧ (12 : UInt256) ∈ parentConfirmed.mempool ∧
    (childKnown.mapWallet 11).map (fun wtx => wtx.isSpent 0) = some true ∧
    (parentConfirmed.mapWallet 11).map (fun wtx => wtx.isSpent 0) = some false ∧
    ¬ parentConfirmed.Marked ownedNet := by
  have hspends : childTx.Spends ⟨11, 0⟩ := ⟨_, List.mem_cons_self, rfl⟩
  have hpool : (12 : UInt256) ∈ parentConfirmed.mempool := by decide
  have hflag : (parentConfirmed.mapWallet 11).map (fun wtx => wtx.isSpent 0) = some false := by
    decide
  refine ⟨?_, hspends, hpool, by decide, hflag, fun h => ?_⟩
  · refine @WalletRun.call _ _ _ ⟨childKnown, connectParent, parentConfirmed⟩ accept_run
      (WalletStep.valid_of_checks ?_ ?_ ?_ ?_ ?_)
    · decide
    · decide
    · decide
    · intro _ _ _ _ h
      obtain ⟨rfl, -⟩ := WalletCall.connectBlock.inj h
      decide
    · decide
  · have hchild : (parentConfirmed.mapWallet 12).map CWalletTx.tx = some childTx := by decide
    have hparent : (parentConfirmed.mapWallet 11).map CWalletTx.tx = some parentTx := by decide
    obtain ⟨wtxB, hB, hBtx⟩ := Option.map_eq_some_iff.mp hchild
    obtain ⟨wtxA, hA, hAtx⟩ := Option.map_eq_some_iff.mp hparent
    have hspent := h 11 12 wtxA wtxB 0 ⟨100, [1]⟩ hA hB (by rw [hAtx]; rfl) (by decide)
      (by rw [hBtx]; exact hspends) (Or.inl hpool)
    rw [hA, Option.map_some, hspent] at hflag
    cases hflag

end BitBay
