import BitBay.Wallet.SpentFlags

/-!
# Fractions that the wallet stores

The wallet stores the fractions of a transaction when it first adds it, and a merge leaves them
as they are. What is stored is then right exactly if the first copy was: the wallet may have
the transaction from the memory pool, which has evaluated it at another supply index than the
block that holds it.
-/
namespace BitBay

structure RecordedBlock where
  vtx : List CTransaction
  mapFractions : MapFractions

/-- The wallet and the best chain without its genesis block, the newest block first. -/
structure StoringWallet where
  mapWallet : MapWallet
  chain : List RecordedBlock := []

def maxReorganizationDepth : ℕ := 1000

inductive Notification
  /-- A transaction from the memory pool, or from a block that is scanned again. -/
  | notify (tx : CTransaction) (hashBlock : UInt256) (mapOutputFractions : MapFractions)
  | connectBlock (hashBlock : UInt256) (block : RecordedBlock)
  | disconnectBlock
  | addToWallet (wtxIn : CWalletTx)
  | commitTransaction (wtxNew : CWalletTx)

section Model

variable (net : WalletParams)

def cleanedVtx (chain : List RecordedBlock) (block : RecordedBlock) : List CTransaction :=
  ((block :: chain)[maxReorganizationDepth]?).elim [] RecordedBlock.vtx

def Notification.apply (s : StoringWallet) : Notification → Option StoringWallet
  | .notify tx hashBlock mapOutputFractions =>
    (s.mapWallet.addIfInvolvingMe net tx hashBlock mapOutputFractions).map fun w =>
      { s with mapWallet := w }
  | .connectBlock hashBlock block =>
    (block.vtx.foldlM (fun (w : MapWallet) tx => w.syncConnected net tx hashBlock
      block.mapFractions (cleanedVtx s.chain block)) s.mapWallet).map fun w =>
        { mapWallet := w, chain := block :: s.chain }
  | .disconnectBlock =>
    match s.chain with
    | [] => none
    | block :: rest =>
      (block.vtx.foldlM (fun (w : MapWallet) tx => w.syncDisconnected net tx) s.mapWallet).map
        fun w => { mapWallet := w, chain := rest }
  | .addToWallet wtxIn => (s.mapWallet.addToWallet net wtxIn).map fun w => { s with mapWallet := w }
  | .commitTransaction wtxNew =>
    (s.mapWallet.commitTransaction net wtxNew).map fun w => { s with mapWallet := w }

structure NotifyStep where
  before : StoringWallet
  call : Notification
  after : StoringWallet

/-- A transaction of a block that is connected is not in an earlier one. -/
structure NotifyStep.Valid (step : NotifyStep) : Prop where
  fresh : ∀ hashBlock block, step.call = .connectBlock hashBlock block →
    ∀ earlier ∈ step.before.chain, ∀ A ∈ earlier.vtx, ∀ tx ∈ block.vtx,
      net.getHash A ≠ net.getHash tx
  returns : step.call.apply net step.before = some step.after

inductive NotifyRun (start : StoringWallet) : List NotifyStep → StoringWallet → Prop
  | start : NotifyRun start [] start
  | call {steps : List NotifyStep} {step : NotifyStep} : NotifyRun start steps step.before →
      step.Valid net → NotifyRun start (steps ++ [step]) step.after

/-! ## What agrees with the chain -/

/-- The output of a transaction on the chain, with the fractions that its block has recorded. -/
def Recorded (chain : List RecordedBlock) (o : COutPoint) (fractions : CFractions) : Prop :=
  ∃ block ∈ chain, (∃ tx ∈ block.vtx, net.getHash tx = o.hash) ∧
    block.mapFractions ⟨o.hash, o.n⟩ = some fractions

def SpentBy (vtx : List CTransaction) (o : COutPoint) : Prop := ∃ tx ∈ vtx, tx.Spends o

def SpentOn (chain : List RecordedBlock) (o : COutPoint) : Prop :=
  ∃ block ∈ chain, SpentBy block.vtx o

def refAt (w : MapWallet) (o : COutPoint) : Option CFractionsRef :=
  (w o.hash).bind fun wtx => wtx.vOutFractions[o.n]?

def storedAt (w : MapWallet) (o : COutPoint) : Option CFractions :=
  (refAt w o).map CFractionsRef.ref

/-- The wallet has the recorded fractions of its own outputs that the chain does not spend. -/
def StoringWallet.Agrees (s : StoringWallet) : Prop :=
  ∀ o fractions, Recorded net s.chain o fractions → OwnAt net s.mapWallet o →
    ¬ SpentOn s.chain o → storedAt s.mapWallet o = some fractions

/-- A copy of a transaction that the wallet has not, or that is not on the chain, or that comes
with the recorded fractions of its own outputs that are not spent. -/
def CopyAgrees (s : StoringWallet) (wtxIn : CWalletTx) : Prop :=
  s.mapWallet (net.getHash wtxIn.tx) = none → ∀ n txout, wtxIn.tx.vout[n]? = some txout →
    net.isMine txout = true → ¬ SpentOn s.chain ⟨net.getHash wtxIn.tx, n⟩ →
      ∀ fractions, Recorded net s.chain ⟨net.getHash wtxIn.tx, n⟩ fractions →
        (wtxIn.vOutFractions[n]?).map (fun r => r.copy.ref) = some fractions

/-- What the call leaves as it is, or adds, are the recorded fractions. -/
def NotifyStep.Keeps (step : NotifyStep) : Prop :=
  let s := step.before
  match step.call with
  | .notify tx hashBlock mapOutputFractions =>
    (s.mapWallet (net.getHash tx)).isSome ∨ MapWallet.isMineTx net tx ∨
        s.mapWallet.isFromMe net tx →
      CopyAgrees net s (MapWallet.notified net tx hashBlock mapOutputFractions)
  | .connectBlock _ block =>
    ∀ o fractions, (∃ tx ∈ block.vtx, net.getHash tx = o.hash) →
      block.mapFractions ⟨o.hash, o.n⟩ = some fractions → OwnAt net s.mapWallet o →
        ¬ SpentOn (block :: s.chain) o → storedAt s.mapWallet o = some fractions
  | .disconnectBlock =>
    ∀ block rest, s.chain = block :: rest → ∀ o fractions, Recorded net rest o fractions →
      OwnAt net s.mapWallet o → SpentBy block.vtx o → ¬ SpentOn rest o →
        storedAt s.mapWallet o = some fractions
  | .addToWallet wtxIn => CopyAgrees net s wtxIn
  | .commitTransaction wtxNew => CopyAgrees net s wtxNew

end Model

/-! ## Calls and the stored references -/

section Refs

variable {net : WalletParams} {w w' w'' : MapWallet} {o : COutPoint}

theorem OwnAt.ne_none (h : OwnAt net w o) : w o.hash ≠ none := by
  obtain ⟨wtx, txout, hwtx, -⟩ := h
  simp [hwtx]

structure SameAt (net : WalletParams) (w w' : MapWallet) (o : COutPoint) : Prop where
  none_iff : w' o.hash = none ↔ w o.hash = none
  own : OwnAt net w' o ↔ OwnAt net w o
  ref : refAt w' o = refAt w o

namespace SameAt

theorem refl (w : MapWallet) (o : COutPoint) : SameAt net w w o := ⟨Iff.rfl, Iff.rfl, rfl⟩

theorem trans (h : SameAt net w w' o) (h' : SameAt net w' w'' o) : SameAt net w w'' o :=
  ⟨h'.none_iff.trans h.none_iff, h'.own.trans h.own, h'.ref.trans h.ref⟩

theorem stored (h : SameAt net w w' o) : storedAt w' o = storedAt w o := by
  rw [storedAt, storedAt, h.ref]

theorem foldlM {α : Type} {f : MapWallet → α → Option MapWallet} {l : List α}
    (hstep : ∀ a ∈ l, ∀ w w', f w a = some w' → SameAt net w w' o)
    (h : l.foldlM f w = some w') : SameAt net w w' o :=
  Run.foldlM_some_invariant (P := fun v => SameAt net w v o)
    (fun a ha v v' hv hs => hv.trans (hstep a ha v v' hs)) (refl w o) h

theorem put_ne {hash : UInt256} {wtx : CWalletTx} (hne : o.hash ≠ hash) :
    SameAt net w (w.put hash wtx) o :=
  ⟨by simp [MapWallet.put, hne], by simp [OwnAt, MapWallet.put, hne],
    by simp [refAt, MapWallet.put, hne]⟩

/-- A transaction of the wallet that is replaced by one with the same outputs. -/
theorem put {hash : UInt256} {wtx wtx' : CWalletTx} (hwtx : w hash = some wtx)
    (htx : wtx'.tx = wtx.tx) (href : wtx'.vOutFractions = wtx.vOutFractions) :
    SameAt net w (w.put hash wtx') o := by
  by_cases heq : o.hash = hash
  · subst heq
    refine ⟨by simp [MapWallet.put, hwtx], ?_, by simp [refAt, MapWallet.put, hwtx, href]⟩
    simp [OwnAt, MapWallet.put, hwtx, htx]
  · exact .put_ne heq

end SameAt

theorem setSpent_outputs {wtx wtx' : CWalletTx} {n : ℕ} {fSpent : Bool}
    (h : wtx.setSpent n fSpent = some wtx') :
    wtx'.tx = wtx.tx ∧ wtx'.vOutFractions = wtx.vOutFractions := by
  simp only [CWalletTx.setSpent] at h
  split_ifs at h
  all_goals
    obtain rfl := Option.some.inj h
    exact ⟨rfl, rfl⟩

theorem merge_outputs {wtx wtxIn : CWalletTx} :
    (wtx.merge wtxIn).tx = wtx.tx ∧ (wtx.merge wtxIn).vOutFractions = wtx.vOutFractions := by
  unfold CWalletTx.merge CWalletTx.updateSpent
  dsimp only
  split_ifs <;> exact ⟨rfl, rfl⟩

/-- A transaction of the wallet with one flag set. -/
theorem SameAt.put_setSpent {hash : UInt256} {wtx : CWalletTx} {n : ℕ} {fSpent : Bool}
    (hwtx : w hash = some wtx) (h : (wtx.setSpent n fSpent).map (w.put hash) = some w') :
    SameAt net w w' o := by
  obtain ⟨wtx', hset, rfl⟩ := Option.map_eq_some_iff.mp h
  obtain ⟨htx, href⟩ := setSpent_outputs hset
  exact .put hwtx htx href

theorem markInput_same {txin : CTxIn} (h : w.markInput net txin = some w') :
    SameAt net w w' o := by
  unfold MapWallet.markInput at h
  split at h
  · exact Option.some.inj h ▸ .refl w o
  · rename_i wtx hwtx
    split at h
    · exact Option.some.inj h ▸ .refl w o
    · split_ifs at h
      · exact .put_setSpent hwtx h
      · exact Option.some.inj h ▸ .refl w o

theorem unmarkInput_same {txin : CTxIn} (h : w.unmarkInput net txin = some w') :
    SameAt net w w' o := by
  unfold MapWallet.unmarkInput at h
  split at h
  · exact Option.some.inj h ▸ .refl w o
  · rename_i wtx hwtx
    split at h
    · exact Option.some.inj h ▸ .refl w o
    · split_ifs at h
      · exact .put_setSpent hwtx h
      · exact Option.some.inj h ▸ .refl w o

theorem markCommitted_same {txin : CTxIn} (h : w.markCommitted txin = some w') :
    SameAt net w w' o := by
  unfold MapWallet.markCommitted at h
  obtain ⟨wtx', hset, rfl⟩ := Option.map_eq_some_iff.mp h
  cases hwtx : w txin.prevout.hash with
  | none =>
    rw [hwtx] at hset
    exact absurd (CWalletTx.setSpent_spec hset).2.1 (Nat.not_lt_zero _)
  | some wtx =>
    rw [hwtx] at hset
    obtain ⟨htx, href⟩ := setSpent_outputs hset
    exact .put hwtx htx href

theorem unmarkOutputs_same {tx : CTransaction} (h : w.unmarkOutputs net tx = some w') :
    SameAt net w w' o := by
  unfold MapWallet.unmarkOutputs at h
  simp only [Option.bind_eq_bind, Option.bind_eq_some_iff, Option.some.injEq] at h
  obtain ⟨wtx, hwtx, wtx', hloop, rfl⟩ := h
  have hsame : wtx'.tx = wtx.tx ∧ wtx'.vOutFractions = wtx.vOutFractions := by
    refine Run.foldlM_some_invariant (P := fun v => v.tx = wtx.tx ∧
      v.vOutFractions = wtx.vOutFractions) (fun out _ v v' hv hstep => ?_) ⟨rfl, rfl⟩ hloop
    split_ifs at hstep
    · obtain ⟨htx, href⟩ := setSpent_outputs hstep
      exact ⟨htx.trans hv.1, href.trans hv.2⟩
    · exact Option.some.inj hstep ▸ hv
  exact .put hwtx hsame.1 hsame.2

theorem walletUpdateSpent_same {tx : CTransaction} {fBlock : Bool}
    (h : w.walletUpdateSpent net tx fBlock = some w') : SameAt net w w' o := by
  unfold MapWallet.walletUpdateSpent at h
  simp only [Option.bind_eq_bind, Option.bind_eq_some_iff] at h
  obtain ⟨mid, hmarks, hclears⟩ := h
  have hinputs : SameAt net w mid o := .foldlM (fun _ _ _ _ hs => markInput_same hs) hmarks
  split_ifs at hclears
  · exact hinputs.trans (unmarkOutputs_same hclears)
  · exact Option.some.inj hclears ▸ hinputs

theorem syncDisconnected_same {tx : CTransaction} (h : w.syncDisconnected net tx = some w') :
    SameAt net w w' o := by
  unfold MapWallet.syncDisconnected MapWallet.disableTransaction at h
  split_ifs at h
  · exact .foldlM (fun _ _ _ _ hs => unmarkInput_same hs) h
  · exact Option.some.inj h ▸ .refl w o

/-- Cleaning forgets the fractions of what the old block spends, and nothing else. -/
theorem cleanFractions_same {oldBlock : List CTransaction} (ho : ¬ SpentBy oldBlock o) :
    SameAt net w (w.cleanFractions oldBlock) o := by
  have hinput : ∀ (w : MapWallet) (txin : CTxIn), txin.prevout ≠ o →
      SameAt net w (w.unRefInput txin) o := by
    intro w txin hne
    unfold MapWallet.unRefInput
    cases hwtx : w txin.prevout.hash with
    | none => exact .refl w o
    | some wtx =>
      dsimp only
      split_ifs
      · exact .refl w o
      · by_cases heq : o.hash = txin.prevout.hash
        · have hn : txin.prevout.n ≠ o.n := by
            intro hn
            apply hne
            cases hp : txin.prevout
            grind [COutPoint]
          refine ⟨by simp [MapWallet.put, heq, hwtx], by simp [OwnAt, MapWallet.put, heq, hwtx], ?_⟩
          simp [refAt, MapWallet.put, heq, hwtx, hn]
        · exact .put_ne heq
  have hloop : ∀ {α : Type} (f : MapWallet → α → MapWallet) (l : List α),
      (∀ a ∈ l, ∀ w, SameAt net w (f w a) o) → ∀ w, SameAt net w (l.foldl f w) o := by
    intro α f l hf
    induction l with
    | nil => exact fun w => .refl w o
    | cons a l ih =>
      exact fun w => (hf a List.mem_cons_self w).trans
        (ih (fun b hb => hf b (List.mem_cons_of_mem a hb)) (f w a))
  refine hloop _ oldBlock (fun tx htx w => hloop _ tx.vin (fun txin hin w => ?_) w) w
  exact hinput w txin fun heq => ho ⟨tx, htx, txin, hin, heq⟩

/-- A transaction that the wallet has keeps its outputs. -/
theorem addToWallet_same {wtxIn : CWalletTx} (h : w.addToWallet net wtxIn = some w')
    (ho : o.hash = net.getHash wtxIn.tx → w o.hash ≠ none) : SameAt net w w' o := by
  cases hwtx : w (net.getHash wtxIn.tx) with
  | some wtx =>
    simp only [MapWallet.addToWallet, hwtx] at h
    have hmerge : SameAt net w (w.put (net.getHash wtxIn.tx) (wtx.markDirty.merge wtxIn)) o :=
      .put hwtx merge_outputs.1 merge_outputs.2
    exact hmerge.trans (walletUpdateSpent_same h)
  | none =>
    have hne : o.hash ≠ net.getHash wtxIn.tx := fun heq => ho heq (heq ▸ hwtx)
    simp only [MapWallet.addToWallet, hwtx] at h
    have hput : SameAt net w (w.put (net.getHash wtxIn.tx) wtxIn.copied.markDirty) o :=
      .put_ne hne
    exact hput.trans (walletUpdateSpent_same h)

/-- A new transaction brings the references of its copy. -/
theorem addToWallet_ref {wtxIn : CWalletTx} (h : w.addToWallet net wtxIn = some w')
    (hnone : w (net.getHash wtxIn.tx) = none) (ho : o.hash = net.getHash wtxIn.tx) :
    (OwnAt net w' o ↔ ∃ txout, wtxIn.tx.vout[o.n]? = some txout ∧ net.isMine txout = true) ∧
      refAt w' o = (wtxIn.vOutFractions[o.n]?).map CFractionsRef.copy := by
  simp only [MapWallet.addToWallet, hnone] at h
  have hsame := walletUpdateSpent_same (o := o) h
  have hat : w.put (net.getHash wtxIn.tx) wtxIn.copied.markDirty o.hash =
      some wtxIn.copied.markDirty := by
    simp [MapWallet.put, ho]
  constructor
  · rw [hsame.own]
    constructor
    · rintro ⟨wtx, txout, hwtx, hout, hmine⟩
      obtain rfl := Option.some.inj (hat.symm.trans hwtx)
      exact ⟨txout, hout, hmine⟩
    · rintro ⟨txout, hout, hmine⟩
      exact ⟨_, txout, hat, hout, hmine⟩
  · rw [hsame.ref, refAt, hat]
    exact List.getElem?_map

section Notified

variable {tx : CTransaction} {hashBlock : UInt256} {fractions : MapFractions}
  {vtx oldBlock : List CTransaction}

theorem notified_ref (n : ℕ) (hn : n < tx.vout.length) :
    (((MapWallet.notified net tx hashBlock fractions).vOutFractions[n]?).map
      CFractionsRef.copy) = some { ptr := fractions ⟨net.getHash tx, n⟩ } := by
  simp [MapWallet.notified, hn, CFractionsRef.copy]

theorem addIfInvolvingMe_same (h : w.addIfInvolvingMe net tx hashBlock fractions = some w')
    (ho : o.hash = net.getHash tx → w o.hash ≠ none) : SameAt net w w' o := by
  unfold MapWallet.addIfInvolvingMe at h
  split_ifs at h
  · exact addToWallet_same h ho
  · exact walletUpdateSpent_same h

/-- Either the output is as before, or its transaction is new and brings what is recorded. -/
theorem addIfInvolvingMe_ref (h : w.addIfInvolvingMe net tx hashBlock fractions = some w') :
    SameAt net w w' o ∨
      (OwnAt net w' o → refAt w' o = some { ptr := fractions ⟨o.hash, o.n⟩ }) := by
  by_cases ho : o.hash = net.getHash tx ∧ w o.hash = none
  · obtain ⟨hhash, hnone⟩ := ho
    unfold MapWallet.addIfInvolvingMe at h
    split_ifs at h
    · rw [hhash] at hnone
      obtain ⟨hown, href⟩ := addToWallet_ref h hnone hhash
      refine Or.inr fun hmine => ?_
      obtain ⟨txout, hout, -⟩ := hown.mp hmine
      rw [href, hhash]
      exact notified_ref o.n (List.getElem?_eq_some_iff.mp hout).1
    · exact Or.inl (walletUpdateSpent_same h)
  · exact Or.inl (addIfInvolvingMe_same h fun hhash hnone => ho ⟨hhash, hnone⟩)

/-- A connected transaction is added, and then only what an old block spends changes. -/
theorem syncConnected_added (hold : ¬ SpentBy oldBlock o)
    (h : w.syncConnected net tx hashBlock fractions oldBlock = some w') :
    ∃ mid, w.addIfInvolvingMe net tx hashBlock fractions = some mid ∧ SameAt net mid w' o := by
  obtain ⟨mid, hmid, heq⟩ := Option.bind_eq_some_iff.mp h
  obtain rfl := Option.some.inj heq
  refine ⟨mid, hmid, ?_⟩
  split_ifs
  · exact cleanFractions_same hold
  · exact .refl mid o

/-- A connected block leaves the outputs of what the wallet has, and of other transactions. -/
theorem connectBlock_same (hold : ¬ SpentBy oldBlock o)
    (ho : w o.hash ≠ none ∨ ∀ tx ∈ vtx, net.getHash tx ≠ o.hash)
    (h : vtx.foldlM (fun (w : MapWallet) tx =>
      w.syncConnected net tx hashBlock fractions oldBlock) w = some w') : SameAt net w w' o := by
  induction vtx generalizing w with
  | nil => exact Option.some.inj h ▸ .refl w o
  | cons tx vtx ih =>
    rw [List.foldlM_cons, Option.bind_eq_bind, Option.bind_eq_some_iff] at h
    obtain ⟨mid, hfirst, hrest⟩ := h
    obtain ⟨added, hadded, hclean⟩ := syncConnected_added hold hfirst
    have hsame : SameAt net w added o := by
      refine addIfInvolvingMe_same hadded fun hhash => ?_
      exact ho.resolve_right fun hall => hall tx List.mem_cons_self hhash.symm
    have hboth := hsame.trans hclean
    refine hboth.trans (ih ?_ hrest)
    rcases ho with hsome | hall
    · exact Or.inl fun hnone => hsome (hboth.none_iff.mp hnone)
    · exact Or.inr fun tx htx => hall tx (List.mem_cons_of_mem _ htx)

/-- A connected block brings the recorded fractions of what the wallet has not. -/
theorem connectBlock_ref (hold : ¬ SpentBy oldBlock o)
    (ho : OwnAt net w o → refAt w o = some { ptr := fractions ⟨o.hash, o.n⟩ })
    (h : vtx.foldlM (fun (w : MapWallet) tx =>
      w.syncConnected net tx hashBlock fractions oldBlock) w = some w') :
    OwnAt net w' o → refAt w' o = some { ptr := fractions ⟨o.hash, o.n⟩ } := by
  refine Run.foldlM_some_invariant (P := fun v => OwnAt net v o →
    refAt v o = some { ptr := fractions ⟨o.hash, o.n⟩ }) (fun tx _ v v' hv hstep => ?_) ho h
  obtain ⟨added, hadded, hclean⟩ := syncConnected_added hold hstep
  intro hown
  have hadd := hclean.own.mp hown
  rw [hclean.ref]
  rcases addIfInvolvingMe_ref (o := o) hadded with hsame | hnew
  · rw [hsame.ref]
    exact hv (hsame.own.mp hadd)
  · exact hnew hadd

end Notified

end Refs

/-! ## Runs -/

section Runs

variable {net : WalletParams} {start s : StoringWallet} {step : NotifyStep}
  {steps : List NotifyStep} {w : MapWallet} {o : COutPoint}

/-- A block whose spent outputs are cleaned is on the chain. -/
theorem spentOn_of_cleaned {chain : List RecordedBlock} {block : RecordedBlock}
    (h : SpentBy (cleanedVtx chain block) o) : SpentOn (block :: chain) o := by
  unfold cleanedVtx at h
  cases hat : (block :: chain)[maxReorganizationDepth]? with
  | none =>
    rw [hat] at h
    obtain ⟨tx, htx, -⟩ := h
    cases htx
  | some old =>
    rw [hat] at h
    exact ⟨old, List.mem_of_getElem? hat, h⟩

/-- A call that leaves the chain and adds one transaction at most. -/
theorem agrees_added {wtxIn : CWalletTx} (hbefore : s.Agrees net)
    (h : s.mapWallet.addToWallet net wtxIn = some w) :
    StoringWallet.Agrees net { s with mapWallet := w } ↔ CopyAgrees net s wtxIn := by
  constructor
  · intro hafter hnone n txout hout hmine hunspent fractions hrecorded
    obtain ⟨hown, href⟩ := addToWallet_ref (o := ⟨_, n⟩) h hnone rfl
    have hstored := hafter _ fractions hrecorded (hown.mpr ⟨txout, hout, hmine⟩) hunspent
    rw [storedAt, href, Option.map_map] at hstored
    exact hstored
  · rintro hcopy ⟨hash, n⟩ fractions hrecorded hown hunspent
    dsimp only at hown hunspent ⊢
    by_cases hnew : hash = net.getHash wtxIn.tx ∧ s.mapWallet (net.getHash wtxIn.tx) = none
    · obtain ⟨rfl, hnone⟩ := hnew
      obtain ⟨hown', href⟩ := addToWallet_ref (o := ⟨_, n⟩) h hnone rfl
      obtain ⟨txout, hout, hmine⟩ := hown'.mp hown
      have hstored := hcopy hnone n txout hout hmine hunspent fractions hrecorded
      rw [storedAt, href, Option.map_map]
      exact hstored
    · have hsame := addToWallet_same (o := ⟨hash, n⟩) h fun heq hnone =>
        hnew ⟨heq, by dsimp only at heq hnone; rwa [heq] at hnone⟩
      rw [hsame.stored]
      exact hbefore _ fractions hrecorded (hsame.own.mp hown) hunspent

/-- A call that leaves the chain and every output. -/
theorem agrees_same (hsame : ∀ o, SameAt net s.mapWallet w o) :
    StoringWallet.Agrees net { s with mapWallet := w } ↔ s.Agrees net := by
  constructor
  · intro h o fractions hrecorded hown hunspent
    rw [← (hsame o).stored]
    exact h o fractions hrecorded ((hsame o).own.mpr hown) hunspent
  · intro h o fractions hrecorded hown hunspent
    dsimp only at hown ⊢
    rw [(hsame o).stored]
    exact h o fractions hrecorded ((hsame o).own.mp hown) hunspent

/-- What is stored agrees after a step exactly if the step keeps it. -/
theorem NotifyStep.Valid.agrees_iff (h : step.Valid net) (hbefore : step.before.Agrees net) :
    step.after.Agrees net ↔ step.Keeps net := by
  obtain ⟨s, call, after⟩ := step
  have hreturns : call.apply net s = some after := h.returns
  dsimp only at hbefore ⊢
  cases call with
  | notify tx hashBlock fractions =>
    obtain ⟨w, hw, rfl⟩ := Option.map_eq_some_iff.mp hreturns
    simp only [MapWallet.addIfInvolvingMe] at hw
    split_ifs at hw with hinvolves
    · rw [agrees_added hbefore hw]
      exact ⟨fun hcopy _ => hcopy, fun hkeeps => hkeeps hinvolves⟩
    · rw [agrees_same fun o => walletUpdateSpent_same hw]
      exact ⟨fun _ hi => absurd hi hinvolves, fun _ => hbefore⟩
  | connectBlock hashBlock block =>
    obtain ⟨w, hw, rfl⟩ := Option.map_eq_some_iff.mp hreturns
    have hcleaned : ∀ {o}, ¬ SpentOn (block :: s.chain) o →
        ¬ SpentBy (cleanedVtx s.chain block) o :=
      fun hunspent hspent => hunspent (spentOn_of_cleaned hspent)
    constructor
    · intro hafter o fractions htx hrecorded hown hunspent
      have hsame := connectBlock_same (hcleaned hunspent) (Or.inl hown.ne_none) hw
      rw [← hsame.stored]
      exact hafter o fractions ⟨block, List.mem_cons_self, htx, hrecorded⟩ (hsame.own.mpr hown)
        hunspent
    · rintro hkeeps o fractions ⟨b, hb, htx, hrecorded⟩ hown hunspent
      dsimp only at hown ⊢
      rcases List.mem_cons.mp hb with rfl | hold
      · by_cases hnone : s.mapWallet o.hash = none
        · have hnew := connectBlock_ref (hcleaned hunspent) (fun hown₀ => absurd hnone hown₀.ne_none) hw
            hown
          rw [storedAt, hnew, hrecorded]
          rfl
        · have hsame := connectBlock_same (hcleaned hunspent) (Or.inl hnone) hw
          rw [hsame.stored]
          exact hkeeps o fractions htx hrecorded (hsame.own.mp hown) hunspent
      · have hother : ∀ tx ∈ block.vtx, net.getHash tx ≠ o.hash := by
          obtain ⟨A, hA, hhash⟩ := htx
          exact fun tx htx heq => h.fresh hashBlock block rfl b hold A hA tx htx
            (hhash.trans heq.symm)
        have hsame := connectBlock_same (hcleaned hunspent) (Or.inr hother) hw
        rw [hsame.stored]
        refine hbefore o fractions ⟨b, hold, htx, hrecorded⟩ (hsame.own.mp hown) ?_
        exact fun ⟨c, hc, hspent⟩ => hunspent ⟨c, List.mem_cons_of_mem _ hc, hspent⟩
  | disconnectBlock =>
    simp only [Notification.apply] at hreturns
    cases hchain : s.chain with
    | nil => simp [hchain] at hreturns
    | cons block rest =>
      simp only [hchain] at hreturns
      obtain ⟨w, hw, rfl⟩ := Option.map_eq_some_iff.mp hreturns
      have hsame : ∀ o, SameAt net s.mapWallet w o := fun o =>
        .foldlM (fun _ _ _ _ hs => syncDisconnected_same hs) hw
      have hmore : ∀ {o fractions}, Recorded net rest o fractions →
          Recorded net s.chain o fractions := by
        rintro o fractions ⟨b, hb, hrest⟩
        exact ⟨b, hchain ▸ List.mem_cons_of_mem _ hb, hrest⟩
      constructor
      · rintro hafter b r hbr o fractions hrecorded hown - hunspent
        dsimp only at hbr ⊢
        obtain ⟨rfl, rfl⟩ := List.cons.inj (hchain.symm.trans hbr)
        rw [← (hsame o).stored]
        exact hafter o fractions hrecorded ((hsame o).own.mpr hown) hunspent
      · intro hkeeps o fractions hrecorded hown hunspent
        have hown' := (hsame o).own.mp hown
        dsimp only at hrecorded hunspent ⊢
        rw [(hsame o).stored]
        by_cases hspent : SpentBy block.vtx o
        · exact hkeeps block rest hchain o fractions hrecorded hown' hspent hunspent
        · refine hbefore o fractions (hmore hrecorded) hown' ?_
          rintro ⟨c, hc, hspends⟩
          rcases List.mem_cons.mp (hchain ▸ hc) with rfl | hrest
          · exact hspent hspends
          · exact hunspent ⟨c, hrest, hspends⟩
  | addToWallet wtxIn =>
    obtain ⟨w, hw, rfl⟩ := Option.map_eq_some_iff.mp hreturns
    exact agrees_added hbefore hw
  | commitTransaction wtxNew =>
    obtain ⟨w, hw, rfl⟩ := Option.map_eq_some_iff.mp hreturns
    obtain ⟨mid, hmid, hmarks⟩ := Option.bind_eq_some_iff.mp hw
    have hsame : ∀ o, SameAt net mid w o := fun o =>
      .foldlM (fun _ _ _ _ hs => markCommitted_same hs) hmarks
    have hadded := agrees_added hbefore hmid
    exact (agrees_same (s := { s with mapWallet := mid }) hsame).trans hadded

theorem NotifyRun.agrees_iff (h : NotifyRun net start steps s) (hstart : start.Agrees net) :
    ((∀ step ∈ steps, step.after.Agrees net) ↔ ∀ step ∈ steps, step.Keeps net) ∧
      ((∀ step ∈ steps, step.after.Agrees net) → s.Agrees net) := by
  induction h with
  | start => simp [hstart]
  | @call steps last _ hvalid ih =>
    obtain ⟨hiff, hend⟩ := ih
    refine ⟨?_, fun hall => hall last (by simp)⟩
    simp only [List.mem_append, List.mem_singleton, or_imp, forall_and, forall_eq]
    constructor
    · rintro ⟨hall, hlast⟩
      exact ⟨hiff.mp hall, (hvalid.agrees_iff (hend hall)).mp hlast⟩
    · rintro ⟨hall, hlast⟩
      have hsteps := hiff.mpr hall
      exact ⟨hsteps, (hvalid.agrees_iff (hend hsteps)).mpr hlast⟩

/-- What is stored agrees with the chain after every call of a run if and only if every call
adds or leaves the fractions that are recorded. -/
theorem stored_agrees_iff (h : NotifyRun net start steps s) (hstart : start.Agrees net) :
    (∀ step ∈ steps, step.after.Agrees net) ↔ ∀ step ∈ steps, step.Keeps net :=
  (h.agrees_iff hstart).1

end Runs

/-! ## A transaction that the pool has evaluated before -/

/-- The hash of a transaction follows that of the first output that it spends. -/
def storingNet : WalletParams where
  getHash tx := (tx.vin.head?.elim 0 fun txin => txin.prevout.hash) + 1
  isMine txout := decide (txout.scriptPubKey = [1])

def paidTx : CTransaction where
  vin := [{ prevout := ⟨10, 0⟩ }]
  vout := [⟨100, [1]⟩]

def paidIn (i : Fin PEG_SIZE) : CFractions := { f := Pi.single i 100 }

def paidFractions (i : Fin PEG_SIZE) : MapFractions :=
  fun key => if key = ⟨11, 0⟩ then some (paidIn i) else none

def paidBlock : RecordedBlock where
  vtx := [{ vin := [{ prevout := ⟨0, 2 ^ 32 - 1⟩ }], vout := [⟨0, []⟩] }, paidTx]
  mapFractions := paidFractions 1

def emptyWallet : StoringWallet where
  mapWallet := fun _ => none

def StoringWallet.afterCall (net : WalletParams) (s : StoringWallet) (call : Notification) :
    StoringWallet :=
  (call.apply net s).getD s

theorem NotifyStep.valid_afterCall {net : WalletParams} {s : StoringWallet} {call : Notification}
    (hchain : s.chain = []) (h : (call.apply net s).isSome) :
    NotifyStep.Valid net ⟨s, call, s.afterCall net call⟩ where
  fresh := by
    intro _ _ _ earlier hearlier
    dsimp only at hearlier
    rw [hchain] at hearlier
    cases hearlier
  returns := by
    obtain ⟨s', hs'⟩ := Option.isSome_iff_exists.mp h
    simp [StoringWallet.afterCall, hs']

def notifyPaid (i : Fin PEG_SIZE) : Notification := .notify paidTx 0 (paidFractions i)

def paidWallet (i : Fin PEG_SIZE) : StoringWallet :=
  emptyWallet.afterCall storingNet (notifyPaid i)

def confirmedWallet (i : Fin PEG_SIZE) : StoringWallet :=
  (paidWallet i).afterCall storingNet (.connectBlock 7 paidBlock)

def paidSteps (i : Fin PEG_SIZE) : List NotifyStep :=
  [⟨emptyWallet, notifyPaid i, paidWallet i⟩,
    ⟨paidWallet i, .connectBlock 7 paidBlock, confirmedWallet i⟩]

theorem paid_run (i : Fin PEG_SIZE) :
    NotifyRun storingNet emptyWallet (paidSteps i) (confirmedWallet i) := by
  have hfirst : NotifyRun storingNet emptyWallet [⟨emptyWallet, notifyPaid i, paidWallet i⟩]
      (paidWallet i) :=
    @NotifyRun.call _ _ [] ⟨_, _, _⟩ .start (NotifyStep.valid_afterCall rfl rfl)
  exact @NotifyRun.call _ _ _ ⟨paidWallet i, .connectBlock 7 paidBlock, confirmedWallet i⟩ hfirst
    (NotifyStep.valid_afterCall rfl rfl)

theorem emptyWallet_agrees : emptyWallet.Agrees storingNet :=
  fun _ _ ⟨_, hblock, _⟩ => (by cases hblock)

/-- What the pool has evaluated as the block records it is kept. -/
theorem paid_agrees :
    (paidWallet 1).Agrees storingNet ∧ (confirmedWallet 1).Agrees storingNet := by
  suffices hagrees : ∀ step ∈ paidSteps 1, step.after.Agrees storingNet by
    exact ⟨hagrees _ List.mem_cons_self, hagrees _ (List.mem_cons_of_mem _ List.mem_cons_self)⟩
  refine (stored_agrees_iff (paid_run 1) emptyWallet_agrees).mpr ?_
  intro step hstep
  rcases List.mem_cons.mp hstep with rfl | hstep
  · intro _ _ n txout _ _ _ fractions hrecorded
    obtain ⟨block, hblock, -⟩ := hrecorded
    cases hblock
  · obtain rfl := List.mem_singleton.mp hstep
    intro o fractions _ hrecorded _ _
    obtain ⟨hash, n⟩ := o
    simp only [paidBlock, paidFractions] at hrecorded
    split_ifs at hrecorded with hkey
    obtain rfl := Option.some.inj hrecorded
    obtain ⟨rfl, rfl⟩ := UInt320.mk.inj hkey
    rfl

theorem not_spentOn_paid : ¬ SpentOn [paidBlock] ⟨11, 0⟩ := by
  rintro ⟨block, hblock, tx, htx, txin, hin, hprevout⟩
  obtain rfl := List.mem_singleton.mp hblock
  simp only [paidBlock, List.mem_cons, List.not_mem_nil, or_false] at htx
  rcases htx with rfl | rfl
  all_goals
    obtain rfl := List.mem_singleton.mp hin
    have hhash := congrArg COutPoint.hash hprevout
    exact absurd hhash (by decide)

/-- The wallet keeps what the pool has evaluated when the block records something else. -/
theorem confirmed_not_agrees :
    NotifyRun storingNet emptyWallet (paidSteps 0) (confirmedWallet 0) ∧
    storedAt (confirmedWallet 0).mapWallet ⟨11, 0⟩ = some (paidIn 0) ∧
    Recorded storingNet (confirmedWallet 0).chain ⟨11, 0⟩ (paidIn 1) ∧
    ¬ (confirmedWallet 0).Agrees storingNet := by
  have hstored : storedAt (confirmedWallet 0).mapWallet ⟨11, 0⟩ = some (paidIn 0) := rfl
  have hrecorded : Recorded storingNet (confirmedWallet 0).chain ⟨11, 0⟩ (paidIn 1) :=
    ⟨paidBlock, List.mem_cons_self, ⟨paidTx, by simp [paidBlock], rfl⟩, rfl⟩
  refine ⟨paid_run 0, hstored, hrecorded, fun h => ?_⟩
  have hown : OwnAt storingNet (confirmedWallet 0).mapWallet ⟨11, 0⟩ := ⟨_, _, rfl, rfl, rfl⟩
  have hsame := h ⟨11, 0⟩ (paidIn 1) hrecorded hown not_spentOn_paid
  rw [hstored] at hsame
  have hcolumn := congrFun (congrArg CFractions.f (Option.some.inj hsame)) 0
  have hne : (0 : Fin PEG_SIZE) ≠ 1 := by decide
  simp [paidIn, Pi.single_eq_of_ne hne] at hcolumn

end BitBay
