import BitBay.Wallet.WalletSync

/-!
# Spent flags

An own output that a transaction of the wallet spends has to be marked while that transaction
is in the memory pool or on the best chain; the wallet offers what is not marked.

A call on `mapWallet` leaves the transactions alone, or adds one, and it marks some outputs and
clears others. `FlagStep` says which. What is not a chain of such steps is a transaction in a
block: its notification clears the flags of its own outputs whoever spends them.
-/
namespace BitBay

/-! ## Flags of one transaction -/

namespace CWalletTx

variable {wtx wtx' wtxIn : CWalletTx}

theorem resizedSpent_getD {m : ℕ} (hm : m < wtx.tx.vout.length) :
    wtx.resizedSpent.getD m false = wtx.isSpent m := by
  simp [resizedSpent, isSpent, hm]

/-- A flag that is set leaves the transaction and its other flags. -/
theorem setSpent_spec {n : ℕ} {fSpent : Bool} (h : wtx.setSpent n fSpent = some wtx') :
    wtx'.tx = wtx.tx ∧ n < wtx.tx.vout.length ∧
      ∀ m < wtx.tx.vout.length, wtx'.isSpent m = if m = n then fSpent else wtx.isSpent m := by
  simp only [setSpent] at h
  split_ifs at h with hlen hsame
  · obtain rfl := Option.some.inj h
    refine ⟨rfl, not_le.mp hlen, fun m hm => ?_⟩
    have hflag : ∀ k < wtx.tx.vout.length,
        ({ wtx with vfSpent := wtx.resizedSpent } : CWalletTx).isSpent k = wtx.isSpent k :=
      fun k hk => resizedSpent_getD hk
    split_ifs with heq
    · rw [heq]
      exact hsame
    · exact hflag m hm
  · obtain rfl := Option.some.inj h
    refine ⟨rfl, not_le.mp hlen, fun m hm => ?_⟩
    have hsize : wtx.resizedSpent.length = wtx.tx.vout.length := by simp [resizedSpent]
    have hold := resizedSpent_getD hm
    simp only [isSpent, dropCaches, List.getD_eq_getElem?_getD] at hold ⊢
    rcases eq_or_ne m n with rfl | hne
    · simp [hsize, hm]
    · rw [List.getElem?_set_ne hne.symm, if_neg hne]
      exact hold

theorem updateSpent_spec (vfNewSpent : List Bool) :
    (wtx.updateSpent vfNewSpent).1.tx = wtx.tx ∧
      ∀ m, wtx.isSpent m = true → (wtx.updateSpent vfNewSpent).1.isSpent m = true := by
  unfold updateSpent
  dsimp only
  split_ifs
  · exact ⟨rfl, fun m hm => hm⟩
  · refine ⟨rfl, fun m hm => ?_⟩
    have hlen : m < wtx.vfSpent.length := by
      by_contra hle
      simp [isSpent, List.getD_eq_getElem?_getD, not_lt.mp hle] at hm
    simp only [isSpent, dropCaches, List.getD_eq_getElem?_getD] at hm ⊢
    simp only [List.getElem?_eq_getElem hlen, Option.getD_some] at hm
    simp [hlen, hm]

theorem merge_spec : (wtx.merge wtxIn).tx = wtx.tx ∧
    ∀ m, wtx.isSpent m = true → (wtx.merge wtxIn).isSpent m = true := by
  unfold merge
  dsimp only
  split_ifs <;> exact updateSpent_spec wtxIn.vfSpent

end CWalletTx

/-! ## Steps of the flags -/

section Flags

variable {net : WalletParams} {w w' w'' : MapWallet}

def OwnAt (net : WalletParams) (w : MapWallet) (o : COutPoint) : Prop :=
  ∃ wtx txout, w o.hash = some wtx ∧ wtx.tx.vout[o.n]? = some txout ∧ net.isMine txout = true

def SpentAt (w : MapWallet) (o : COutPoint) : Prop :=
  ∃ wtx, w o.hash = some wtx ∧ o.n < wtx.tx.vout.length ∧ wtx.isSpent o.n = true

/-- The transactions stay, and so do the flags that are not cleared; own outputs are marked. -/
structure FlagStep (net : WalletParams) (w w' : MapWallet) (marked cleared : COutPoint → Prop) :
    Prop where
  txs : ∀ hash, (w' hash).map CWalletTx.tx = (w hash).map CWalletTx.tx
  keeps : ∀ o, SpentAt w o → ¬ cleared o → SpentAt w' o
  marks : ∀ o, marked o → OwnAt net w o → ¬ cleared o → SpentAt w' o

theorem ownAt_congr {w w' : MapWallet}
    (h : ∀ hash, (w' hash).map CWalletTx.tx = (w hash).map CWalletTx.tx) (o : COutPoint) :
    OwnAt net w' o ↔ OwnAt net w o := by
  have hsame := h o.hash
  constructor
  · rintro ⟨wtx, txout, hwtx, hout, hmine⟩
    rw [hwtx] at hsame
    obtain ⟨wtx', hwtx', htx⟩ := Option.map_eq_some_iff.mp hsame.symm
    exact ⟨wtx', txout, hwtx', htx ▸ hout, hmine⟩
  · rintro ⟨wtx, txout, hwtx, hout, hmine⟩
    rw [hwtx] at hsame
    obtain ⟨wtx', hwtx', htx⟩ := Option.map_eq_some_iff.mp hsame
    exact ⟨wtx', txout, hwtx', htx ▸ hout, hmine⟩

namespace FlagStep

variable {marked marked' cleared cleared' : COutPoint → Prop}

theorem refl (w : MapWallet) : FlagStep net w w (fun _ => False) cleared :=
  ⟨fun _ => rfl, fun _ h _ => h, fun _ h => h.elim⟩

theorem trans (h : FlagStep net w w' marked cleared) (h' : FlagStep net w' w'' marked' cleared') :
    FlagStep net w w'' (fun o => marked o ∨ marked' o) (fun o => cleared o ∨ cleared' o) where
  txs := fun hash => (h'.txs hash).trans (h.txs hash)
  keeps := fun o hspent hclear =>
    h'.keeps o (h.keeps o hspent fun hc => hclear (Or.inl hc)) fun hc => hclear (Or.inr hc)
  marks := fun o hmark hown hclear => by
    rcases hmark with hmark | hmark
    · exact h'.keeps o (h.marks o hmark hown fun hc => hclear (Or.inl hc))
        fun hc => hclear (Or.inr hc)
    · exact h'.marks o hmark ((ownAt_congr h.txs o).mpr hown) fun hc => hclear (Or.inr hc)

theorem weaken (h : FlagStep net w w' marked cleared) (hmark : ∀ o, marked' o → marked o)
    (hclear : ∀ o, cleared o → cleared' o) : FlagStep net w w' marked' cleared' where
  txs := h.txs
  keeps := fun o hspent hnot => h.keeps o hspent fun hc => hnot (hclear o hc)
  marks := fun o hm hown hnot => h.marks o (hmark o hm) hown fun hc => hnot (hclear o hc)

/-- A transaction of the wallet whose flags are replaced. -/
theorem put {hash : UInt256} {wtx wtx' : CWalletTx} (hwtx : w hash = some wtx)
    (htx : wtx'.tx = wtx.tx)
    (hkeeps : ∀ n < wtx.tx.vout.length, wtx.isSpent n = true → ¬ cleared ⟨hash, n⟩ →
      wtx'.isSpent n = true)
    (hmarks : ∀ o, marked o → OwnAt net w o → ¬ cleared o →
      o.hash = hash ∧ wtx'.isSpent o.n = true ∨ SpentAt w o) :
    FlagStep net w (w.put hash wtx') marked cleared := by
  have hsame : ∀ o : COutPoint, SpentAt w o → ¬ cleared o → SpentAt (w.put hash wtx') o := by
    rintro ⟨oh, n⟩ ⟨wtx₀, hold, hlen, hspent⟩ hclear
    by_cases heq : oh = hash
    · subst heq
      obtain rfl := Option.some.inj (hold.symm.trans hwtx)
      exact ⟨wtx', by simp [MapWallet.put], htx ▸ hlen, hkeeps n hlen hspent hclear⟩
    · exact ⟨wtx₀, by simp [MapWallet.put, heq, hold], hlen, hspent⟩
  refine ⟨fun h => ?_, hsame, fun o hmark hown hclear => ?_⟩
  · by_cases heq : h = hash
    · subst heq
      simp [MapWallet.put, hwtx, htx]
    · simp [MapWallet.put, heq]
  · rcases hmarks o hmark hown hclear with ⟨heq, hspent⟩ | hspent
    · obtain ⟨wtx₀, txout, hold, hout, -⟩ := hown
      rw [heq] at hold
      obtain rfl := Option.some.inj (hold.symm.trans hwtx)
      have hlen : o.n < wtx₀.tx.vout.length := (List.getElem?_eq_some_iff.mp hout).1
      exact ⟨wtx', by simp [MapWallet.put, heq], htx ▸ hlen, hspent⟩
    · exact hsame o hspent hclear

/-- A loop of such steps. -/
theorem foldlM {α : Type} {f : MapWallet → α → Option MapWallet}
    {mark clear : α → COutPoint → Prop} {l : List α}
    (hstep : ∀ a ∈ l, ∀ w w', f w a = some w' → FlagStep net w w' (mark a) (clear a))
    (h : l.foldlM f w = some w') :
    FlagStep net w w' (fun o => ∃ a ∈ l, mark a o) (fun o => ∃ a ∈ l, clear a o) := by
  induction l generalizing w with
  | nil =>
    obtain rfl := Option.some.inj h
    exact (refl w).weaken (fun o ho => by simp at ho) fun o ho => ho
  | cons a l ih =>
    rw [List.foldlM_cons, Option.bind_eq_bind, Option.bind_eq_some_iff] at h
    obtain ⟨mid, hfirst, hrest⟩ := h
    have hmid := (hstep a List.mem_cons_self w mid hfirst).trans
      (ih (fun b hb => hstep b (List.mem_cons_of_mem a hb)) hrest)
    refine hmid.weaken (fun o ho => ?_) fun o ho => ?_
    · simpa using ho
    · simpa using ho

end FlagStep

/-! ## The calls as steps -/

def CTransaction.Spends (tx : CTransaction) (o : COutPoint) : Prop :=
  ∃ txin ∈ tx.vin, txin.prevout = o

theorem markInput_flags {txin : CTxIn} (h : w.markInput net txin = some w') :
    FlagStep net w w' (fun o => txin.prevout = o) fun _ => False := by
  have hkept : ∀ o, txin.prevout = o → OwnAt net w o → ∀ {w₁}, some w = some w₁ →
      (∀ wtx txout, w txin.prevout.hash = some wtx → wtx.tx.vout[txin.prevout.n]? = some txout →
        net.isMine txout = true → wtx.isSpent txin.prevout.n = true) → SpentAt w o := by
    rintro o rfl ⟨wtx, txout, hwtx, hout, hmine⟩ w₁ - hspent
    exact ⟨wtx, hwtx, (List.getElem?_eq_some_iff.mp hout).1, hspent wtx txout hwtx hout hmine⟩
  unfold MapWallet.markInput at h
  cases hwtx : w txin.prevout.hash with
  | none =>
    simp only [hwtx] at h
    obtain rfl := Option.some.inj h
    refine ⟨fun _ => rfl, fun _ hs _ => hs, fun o ho hown _ => hkept o ho hown rfl ?_⟩
    intro wtx txout hsome
    rw [hwtx] at hsome
    cases hsome
  | some wtx =>
    simp only [hwtx] at h
    cases hout : wtx.tx.vout[txin.prevout.n]? with
    | none =>
      simp only [hout] at h
      obtain rfl := Option.some.inj h
      refine ⟨fun _ => rfl, fun _ hs _ => hs, fun o ho hown _ => hkept o ho hown rfl ?_⟩
      intro wtx₀ txout hsome hsome'
      obtain rfl := Option.some.inj (hsome.symm.trans hwtx)
      rw [hout] at hsome'
      cases hsome'
    | some txout =>
      simp only [hout] at h
      split_ifs at h with hmark
      · obtain ⟨wtx', hset, rfl⟩ := Option.map_eq_some_iff.mp h
        obtain ⟨htx, hlen, hflags⟩ := CWalletTx.setSpent_spec hset
        refine FlagStep.put hwtx htx (fun n hn hspent _ => ?_) fun o ho _ _ => ?_
        · rw [hflags n hn]
          split_ifs
          · rfl
          · exact hspent
        · subst ho
          exact Or.inl ⟨rfl, by rw [hflags _ hlen, if_pos rfl]⟩
      · obtain rfl := Option.some.inj h
        refine ⟨fun _ => rfl, fun _ hs _ => hs, fun o ho hown _ => hkept o ho hown rfl ?_⟩
        intro wtx₀ txout₀ hsome hsome' hmine
        obtain rfl := Option.some.inj (hsome.symm.trans hwtx)
        obtain rfl := Option.some.inj (hsome'.symm.trans hout)
        simpa [hmine] using hmark

theorem unmarkInput_flags {txin : CTxIn} (h : w.unmarkInput net txin = some w') :
    FlagStep net w w' (fun _ => False) fun o => txin.prevout = o := by
  unfold MapWallet.unmarkInput at h
  cases hwtx : w txin.prevout.hash with
  | none =>
    simp only [hwtx] at h
    obtain rfl := Option.some.inj h
    exact .refl w
  | some wtx =>
    simp only [hwtx] at h
    cases hout : wtx.tx.vout[txin.prevout.n]? with
    | none =>
      simp only [hout] at h
      obtain rfl := Option.some.inj h
      exact .refl w
    | some txout =>
      simp only [hout] at h
      split_ifs at h
      · obtain ⟨wtx', hset, rfl⟩ := Option.map_eq_some_iff.mp h
        obtain ⟨htx, hlen, hflags⟩ := CWalletTx.setSpent_spec hset
        refine FlagStep.put hwtx htx (fun n hn hspent hclear => ?_) fun _ hm => hm.elim
        have hne : n ≠ txin.prevout.n := fun heq => hclear (by rw [heq])
        rw [hflags n hn, if_neg hne]
        exact hspent
      · obtain rfl := Option.some.inj h
        exact .refl w

theorem markCommitted_flags {txin : CTxIn} (h : w.markCommitted txin = some w') :
    FlagStep net w w' (fun o => txin.prevout = o) fun _ => False := by
  unfold MapWallet.markCommitted at h
  obtain ⟨wtx', hset, rfl⟩ := Option.map_eq_some_iff.mp h
  obtain ⟨htx, hlen, hflags⟩ := CWalletTx.setSpent_spec hset
  cases hwtx : w txin.prevout.hash with
  | none =>
    rw [hwtx] at hlen
    exact absurd hlen (Nat.not_lt_zero _)
  | some wtx =>
    rw [hwtx] at htx hlen hflags
    refine FlagStep.put hwtx htx (fun n hn hspent _ => ?_) fun o ho _ _ => ?_
    · rw [hflags n hn]
      split_ifs
      · rfl
      · exact hspent
    · subst ho
      exact Or.inl ⟨rfl, by rw [hflags _ hlen, if_pos rfl]⟩

theorem unmarkOutputs_flags {tx : CTransaction} (h : w.unmarkOutputs net tx = some w') :
    FlagStep net w w' (fun _ => False) fun o => o.hash = net.getHash tx := by
  unfold MapWallet.unmarkOutputs at h
  simp only [Option.bind_eq_bind, Option.bind_eq_some_iff, Option.some.injEq] at h
  obtain ⟨wtx, hwtx, wtx', hloop, rfl⟩ := h
  have htx : wtx'.tx = wtx.tx := by
    refine Run.foldlM_some_invariant (P := fun v => v.tx = wtx.tx) (fun out _ v v' hv hstep => ?_)
      rfl hloop
    split_ifs at hstep
    · exact (CWalletTx.setSpent_spec hstep).1.trans hv
    · exact (Option.some.inj hstep) ▸ hv
  exact FlagStep.put hwtx htx (fun _ _ _ hclear => absurd rfl hclear) fun _ hm => hm.elim

theorem walletUpdateSpent_flags {tx : CTransaction} {fBlock : Bool}
    (h : w.walletUpdateSpent net tx fBlock = some w') :
    FlagStep net w w' tx.Spends fun o => fBlock = true ∧ o.hash = net.getHash tx := by
  unfold MapWallet.walletUpdateSpent at h
  simp only [Option.bind_eq_bind, Option.bind_eq_some_iff] at h
  obtain ⟨mid, hmarks, hclears⟩ := h
  have hinputs := FlagStep.foldlM (fun txin _ _ _ hs => markInput_flags hs) hmarks
  split_ifs at hclears with hblock
  · have hboth := hinputs.trans (unmarkOutputs_flags hclears)
    refine hboth.weaken (fun o ho => Or.inl ho) fun o ho => ?_
    rcases ho with ⟨-, -, hfalse⟩ | ho
    · exact hfalse.elim
    · exact ⟨hblock, ho⟩
  · obtain rfl := Option.some.inj hclears
    exact hinputs.weaken (fun o ho => ho) fun o ⟨_, _, hfalse⟩ => hfalse.elim

/-- Fractions that are forgotten leave the flags alone. -/
theorem cleanFractions_flags (oldBlock : List CTransaction) :
    FlagStep net w (w.cleanFractions oldBlock) (fun _ => False) fun _ => False := by
  have hinput : ∀ (w : MapWallet) (txin : CTxIn),
      FlagStep net w (w.unRefInput txin) (fun _ => False) fun _ => False := by
    intro w txin
    unfold MapWallet.unRefInput
    cases hwtx : w txin.prevout.hash with
    | none => exact .refl w
    | some wtx =>
      dsimp only
      split_ifs
      · exact .refl w
      · exact FlagStep.put hwtx rfl (fun _ _ hs _ => hs) fun _ hm => hm.elim
  have hloop : ∀ {α : Type} (f : MapWallet → α → MapWallet) (l : List α),
      (∀ w a, FlagStep net w (f w a) (fun _ => False) fun _ => False) → ∀ w,
        FlagStep net w (l.foldl f w) (fun _ => False) fun _ => False := by
    intro α f l hf
    induction l with
    | nil => exact fun w => .refl w
    | cons a l ih =>
      exact fun w => ((hf w a).trans (ih (f w a))).weaken (fun _ hm => hm.elim) fun _ hc => by
        simp at hc
  exact hloop _ oldBlock (fun w tx => hloop _ tx.vin hinput w) w

/-- A transaction that the wallet has is merged. -/
theorem addToWallet_merged {wtxIn wtx : CWalletTx}
    (hwtx : w (net.getHash wtxIn.tx) = some wtx) (h : w.addToWallet net wtxIn = some w') :
    FlagStep net w w' wtx.tx.Spends
      fun o => wtxIn.hashBlock ≠ 0 ∧ o.hash = net.getHash wtx.tx := by
  have hmerge : FlagStep net w (w.put (net.getHash wtxIn.tx) (wtx.markDirty.merge wtxIn))
      (fun _ => False) fun _ => False :=
    FlagStep.put hwtx CWalletTx.merge_spec.1 (fun n _ hs _ => CWalletTx.merge_spec.2 n hs)
      fun _ hm => hm.elim
  simp only [MapWallet.addToWallet, hwtx] at h
  rw [CWalletTx.merge_spec.1] at h
  refine (hmerge.trans (walletUpdateSpent_flags h)).weaken (fun o ho => Or.inr ho) fun o ho => ?_
  rcases ho with hfalse | ⟨hblock, hhash⟩
  · exact hfalse.elim
  · exact ⟨of_decide_eq_true hblock, hhash⟩

/-- A new transaction of the wallet. -/
theorem addToWallet_new {wtxIn : CWalletTx} (hwtx : w (net.getHash wtxIn.tx) = none)
    (h : w.addToWallet net wtxIn = some w') :
    FlagStep net (w.put (net.getHash wtxIn.tx) wtxIn.copied.markDirty) w' wtxIn.tx.Spends
      fun o => wtxIn.hashBlock ≠ 0 ∧ o.hash = net.getHash wtxIn.tx := by
  simp only [MapWallet.addToWallet, hwtx] at h
  exact (walletUpdateSpent_flags h).weaken (fun o ho => ho)
    fun o ⟨hblock, hhash⟩ => ⟨of_decide_eq_true hblock, hhash⟩

/-! ## What has to be marked -/

variable {live live' : UInt256 → Prop} {pending pending' : COutPoint → Prop}

/-- An own output that a live transaction of the wallet spends is marked, or its mark is pending. -/
def Known (net : WalletParams) (w : MapWallet) (live : UInt256 → Prop)
    (pending : COutPoint → Prop) : Prop :=
  ∀ o, OwnAt net w o → ∀ hash wtx, w hash = some wtx → live hash → wtx.tx.Spends o →
    SpentAt w o ∨ pending o

/-- A step of the flags: transactions that become live mark what they spend, pending marks are
made or stay pending, and what is cleared has no spender without a pending mark. -/
theorem FlagStep.known {marked cleared : COutPoint → Prop}
    (h : FlagStep net w w' marked cleared) (hknown : Known net w live pending)
    (hlive : ∀ hash wtx, w hash = some wtx → live' hash →
      live hash ∨ ∀ o, wtx.tx.Spends o → marked o ∨ pending' o)
    (hpending : ∀ o, pending o → marked o ∨ pending' o)
    (hclear : ∀ o, cleared o → OwnAt net w o → ∀ hash wtx, w hash = some wtx → live' hash →
      wtx.tx.Spends o → pending' o) : Known net w' live' pending' := by
  intro o hown hash wtx' hwtx' hlive' hspends
  have hsame := h.txs hash
  rw [hwtx'] at hsame
  obtain ⟨wtx, hwtx, htx⟩ := Option.map_eq_some_iff.mp hsame.symm
  rw [← htx] at hspends
  have hown' := (ownAt_congr h.txs o).mp hown
  by_cases hc : cleared o
  · exact Or.inr (hclear o hc hown' hash wtx hwtx hlive' hspends)
  have hmarked : marked o ∨ pending' o → SpentAt w' o ∨ pending' o :=
    fun hm => hm.imp (fun hm => h.marks o hm hown' hc) id
  rcases hlive hash wtx hwtx hlive' with hold | hnew
  · rcases hknown o hown' hash wtx hwtx hold hspends with hspent | hp
    · exact Or.inl (h.keeps o hspent hc)
    · exact hmarked (hpending o hp)
  · exact hmarked (hnew o hspends)

/-- A new transaction is not live before it has marked what it spends. -/
theorem Known.put_new {hash₀ : UInt256} {wtx₀ : CWalletTx} (h : Known net w live pending)
    (hnone : w hash₀ = none)
    (hnew : ∀ n, OwnAt net (w.put hash₀ wtx₀) ⟨hash₀, n⟩ → ∀ hash wtx, w hash = some wtx →
      live hash → wtx.tx.Spends ⟨hash₀, n⟩ → wtx₀.isSpent n = true ∨ pending ⟨hash₀, n⟩) :
    Known net (w.put hash₀ wtx₀) (fun hash => live hash ∧ hash ≠ hash₀) pending := by
  intro o hown hash wtx hwtx hlive hspends
  have hold : w hash = some wtx := by simpa [MapWallet.put, hlive.2] using hwtx
  obtain ⟨oh, n⟩ := o
  by_cases heq : oh = hash₀
  · subst heq
    refine (hnew n hown hash wtx hold hlive.1 hspends).imp (fun hs => ?_) id
    obtain ⟨wtx₁, txout, hwtx₁, hout, -⟩ := hown
    have hsame : wtx₀ = wtx₁ := by simpa [MapWallet.put] using hwtx₁
    exact ⟨wtx₀, by simp [MapWallet.put], hsame ▸ (List.getElem?_eq_some_iff.mp hout).1, hs⟩
  · have hown' : OwnAt net w ⟨oh, n⟩ := by
      obtain ⟨wtx₁, txout, hwtx₁, hrest⟩ := hown
      exact ⟨wtx₁, txout, by simpa [MapWallet.put, heq] using hwtx₁, hrest⟩
    refine (h ⟨oh, n⟩ hown' hash wtx hold hlive.1 hspends).imp (fun hs => ?_) id
    obtain ⟨wtx₁, hwtx₁, hrest⟩ := hs
    exact ⟨wtx₁, by simpa [MapWallet.put, heq] using hwtx₁, hrest⟩

end Flags

end BitBay
