import BitBay.Chain.ConnectBlock

/-!
# Entries of the transaction index

What connecting a transaction does to the index: the entries of the transactions that it
spends from mark the spent outputs, and its own entry is new. A run of the node connects
blocks to a chain and takes them back.
-/
namespace BitBay

open Run

/-! ## Spending -/

def CTxIndex.spent (txindex : CTxIndex) (pos : CDiskTxPos) (ns : List ℕ) : CTxIndex :=
  { txindex with vSpent := ns.foldl (fun vSpent n => vSpent.set n pos) txindex.vSpent }

def PrevTx.spent (prev : PrevTx) (pos : CDiskTxPos) (ns : List ℕ) : PrevTx :=
  { prev with txindex := prev.txindex.spent pos ns }

def spentOutputs (l : List CTxIn) (hash : UInt256) : List ℕ :=
  (l.filter fun inp => inp.prevout.hash = hash).map (·.prevout.n)

theorem length_foldl_set {α : Type} {a : α} (ns : List ℕ) (l : List α) :
    (ns.foldl (fun l n => l.set n a) l).length = l.length := by
  induction ns generalizing l with
  | nil => rfl
  | cons n ns ih => rw [List.foldl_cons, ih, List.length_set]

theorem getElem?_foldl_set {α : Type} {a : α} {k : ℕ} {ns : List ℕ} {l : List α} (hk : k ∉ ns) :
    (ns.foldl (fun l n => l.set n a) l)[k]? = l[k]? := by
  induction ns generalizing l with
  | nil => rfl
  | cons n ns ih =>
    rw [List.mem_cons, not_or] at hk
    rw [List.foldl_cons, ih hk.2, List.getElem?_set_ne (Ne.symm hk.1)]

theorem getElem?_foldl_set_mem {α : Type} {a : α} {k : ℕ} {ns : List ℕ} {l : List α}
    (hk : k ∈ ns) (hlength : k < l.length) : (ns.foldl (fun l n => l.set n a) l)[k]? = some a := by
  induction ns generalizing l with
  | nil => cases hk
  | cons n ns ih =>
    rw [List.foldl_cons]
    by_cases hlater : k ∈ ns
    · exact ih hlater (by rwa [List.length_set])
    · obtain rfl := (List.mem_cons.mp hk).resolve_right hlater
      rw [getElem?_foldl_set hlater, List.getElem?_set_self hlength]

section Spend

variable {net : Params} {votes : VoteParams} {bp : BridgeParams} {rules : ScriptRules}
  {call : ConnectCall} {st st' : SignState} {hash : UInt256}

/-- One round of the second loop of `ConnectInputs` in a block. -/
theorem spendInput_ok {inp : CTxIn × ℕ} (hblock : call.fBlock = true)
    (h : spendInput rules call st inp = some st') :
    ∃ prev, st.inputs inp.1.prevout.hash = some prev ∧
      prev.txindex.vSpent[inp.1.prevout.n]?.any (·.isNull) = true ∧
      st'.inputs = Function.update st.inputs inp.1.prevout.hash
        (some (prev.spent call.posThisTx [inp.1.prevout.n])) ∧
      st'.mapTestPool = Function.update st.mapTestPool inp.1.prevout.hash
        (some (prev.txindex.spent call.posThisTx [inp.1.prevout.n])) := by
  simp only [spendInput, hblock, true_or, if_true] at h
  split at h
  · cases h
  · rename_i prev hprev
    split_ifs at h with hspent
    split at h
    · cases h
    · cases h
      exact ⟨prev, hprev, by simpa using hspent, rfl, rfl⟩

theorem spentOutputs_cons (inp : CTxIn) (l : List CTxIn) :
    spentOutputs (inp :: l) hash =
      if inp.prevout.hash = hash then inp.prevout.n :: spentOutputs l hash
      else spentOutputs l hash := by
  unfold spentOutputs
  split_ifs with hsame
  · rw [List.filter_cons_of_pos (by simpa using hsame), List.map_cons]
  · rw [List.filter_cons_of_neg (by simpa using hsame)]

theorem spentOutputs_eq_nil {l : List CTxIn} (h : hash ∉ l.map (·.prevout.hash)) :
    spentOutputs l hash = [] := by
  simp only [spentOutputs, List.map_eq_nil_iff, List.filter_eq_nil_iff, decide_eq_true_eq]
  intro inp hinp heq
  exact h (List.mem_map.mpr ⟨inp, hinp, heq⟩)

theorem mem_spentOutputs {l : List CTxIn} {n : ℕ} :
    n ∈ spentOutputs l hash ↔ ⟨hash, n⟩ ∈ l.map (·.prevout) := by
  simp only [spentOutputs, List.mem_map, List.mem_filter, decide_eq_true_eq]
  constructor
  · rintro ⟨inp, ⟨hinp, rfl⟩, rfl⟩
    exact ⟨inp, hinp, rfl⟩
  · rintro ⟨inp, hinp, hprevout⟩
    exact ⟨inp, ⟨hinp, by rw [hprevout]⟩, by rw [hprevout]⟩

/-- The loop over the signatures marks what the inputs spend, and writes these entries. -/
theorem spendLoop_ok {l : List (CTxIn × ℕ)} (hblock : call.fBlock = true)
    (h : l.foldlM (spendInput rules call) st = some st') (hash : UInt256) :
    st'.inputs hash = (st.inputs hash).map (fun prev =>
      prev.spent call.posThisTx (spentOutputs (l.map Prod.fst) hash)) ∧
    (hash ∉ (l.map Prod.fst).map (·.prevout.hash) → st'.mapTestPool hash = st.mapTestPool hash) ∧
    (hash ∈ (l.map Prod.fst).map (·.prevout.hash) → ∃ prev, st.inputs hash = some prev ∧
      st'.mapTestPool hash = some
        (prev.txindex.spent call.posThisTx (spentOutputs (l.map Prod.fst) hash))) := by
  induction l generalizing st with
  | nil =>
    cases h
    refine ⟨?_, fun _ => rfl, fun hmem => by cases hmem⟩
    cases st'.inputs hash <;> rfl
  | cons a rest ih =>
    rw [List.foldlM_cons, Option.bind_eq_bind, Option.bind_eq_some_iff] at h
    obtain ⟨mid, hfirst, hrest⟩ := h
    obtain ⟨prev, hprev, -, hinputs, hpool⟩ := spendInput_ok hblock hfirst
    obtain ⟨hmap, hkept, hwritten⟩ := ih hrest
    by_cases hsame : a.1.prevout.hash = hash
    · subst hsame
      have hmid : mid.inputs a.1.prevout.hash =
          some (prev.spent call.posThisTx [a.1.prevout.n]) := by
        rw [hinputs, Function.update_self]
      have hall : ∀ ns, (prev.spent call.posThisTx [a.1.prevout.n]).txindex.spent call.posThisTx
          ns = prev.txindex.spent call.posThisTx (a.1.prevout.n :: ns) := fun _ => rfl
      rw [List.map_cons, spentOutputs_cons, if_pos rfl, List.map_cons]
      refine ⟨?_, fun hnot => absurd List.mem_cons_self hnot, fun _ => ⟨prev, hprev, ?_⟩⟩
      · rw [hmap, hmid, hprev]
        rfl
      · by_cases hmem : a.1.prevout.hash ∈ (rest.map Prod.fst).map (·.prevout.hash)
        · obtain ⟨prev', hprev', hresult⟩ := hwritten hmem
          obtain rfl := Option.some.inj (hmid.symm.trans hprev')
          rw [hresult, hall]
        · rw [hkept hmem, hpool, Function.update_self, spentOutputs_eq_nil hmem]
    · have hmid : mid.inputs hash = st.inputs hash := by
        rw [hinputs, Function.update_of_ne (Ne.symm hsame)]
      have hmid_pool : mid.mapTestPool hash = st.mapTestPool hash := by
        rw [hpool, Function.update_of_ne (Ne.symm hsame)]
      have hmem : hash ∈ ((a :: rest).map Prod.fst).map (·.prevout.hash) ↔
          hash ∈ (rest.map Prod.fst).map (·.prevout.hash) := by
        rw [List.map_cons, List.map_cons, List.mem_cons, or_iff_right (Ne.symm hsame)]
      rw [List.map_cons, spentOutputs_cons, if_neg hsame, ← List.map_cons, hmem, ← hmid,
        ← hmid_pool]
      exact ⟨hmap, hkept, hwritten⟩

theorem connectMint_mapTestPool {r r' : ConnectResult}
    (h : connectMint net votes bp call r = some r') : r'.mapTestPool = r.mapTestPool := by
  unfold connectMint at h
  split_ifs at h
  · split at h
    · cases h
    · split_ifs at h
      cases h
      rfl
  · cases h
    rfl

theorem connectStandard_mapTestPool {passes : Finset ℕ} {r r' : ConnectResult}
    (h : connectStandard net votes call passes r = some r') : r'.mapTestPool = r.mapTestPool := by
  unfold connectStandard at h
  split_ifs at h
  · split at h
    · cases h
    · cases h
      rfl
  · cases h
    rfl

/-- The steps of a transaction that is no coinbase. -/
theorem connectInputs_ok {r : ConnectResult} (hbase : call.tx.isCoinBase = false)
    (h : connectInputs net votes bp rules call = some r) :
    ∃ nValueIn minted signed, checkInputs rules call = some nValueIn ∧
      connectMint net votes bp call {
        finputs := call.finputs
        mapTestPool := call.mapTestPool
        mapTestFractionsPool := call.mapTestFractionsPool
        feesFractions := call.feesFractions } = some minted ∧
      spendInputs rules call = some signed ∧
      connectStandard net votes call signed.sTimeLockPassInputs
        { minted with mapTestPool := signed.mapTestPool } = some r ∧
      checkFee call nValueIn = true := by
  simp only [connectInputs, hbase, Bool.false_eq_true, if_false, Option.bind_eq_bind,
    Option.bind_eq_some_iff] at h
  obtain ⟨nValueIn, hcheck, minted, hmint, signed, hsigned, r', hr, h⟩ := h
  split_ifs at h with hfee
  cases h
  exact ⟨nValueIn, minted, signed, hcheck, hmint, hsigned, hr, hfee⟩

/-- The checks on an input find its output, with a value that is not negative. -/
theorem checkInput_ok {nValueIn nValueIn' : ℤ} {inp : CTxIn}
    (h : checkInput rules call nValueIn inp = some nValueIn') :
    ∃ prev txout, call.inputs inp.prevout.hash = some prev ∧
      prev.tx.vout[inp.prevout.n]? = some txout ∧ inp.prevout.n < prev.txindex.vSpent.length ∧
      0 ≤ txout.nValue := by
  unfold checkInput at h
  split at h
  · cases h
  rename_i prev hprev
  split at h
  · cases h
  rename_i txout htxout
  split_ifs at h with hlength _ _ _ hrange
  refine ⟨prev, txout, hprev, htxout, not_le.mp hlength, ?_⟩
  have hvalue : 0 ≤ txout.nValue ∧ txout.nValue ≤ MAX_MONEY := by
    simpa only [moneyRange, decide_eq_true_eq] using hrange.1
  exact hvalue.1

/-- The index after a transaction was connected in a block. -/
theorem connectInputs_index {r : ConnectResult} (hblock : call.fBlock = true)
    (hbase : call.tx.isCoinBase = false) (h : connectInputs net votes bp rules call = some r)
    (hash : UInt256) :
    (hash ∉ call.tx.vin.map (·.prevout.hash) → r.mapTestPool hash = call.mapTestPool hash) ∧
    (hash ∈ call.tx.vin.map (·.prevout.hash) → ∃ prev, call.inputs hash = some prev ∧
      r.mapTestPool hash =
        some (prev.txindex.spent call.posThisTx (spentOutputs call.tx.vin hash))) := by
  obtain ⟨-, minted, signed, -, -, hsigned, hr, -⟩ := connectInputs_ok hbase h
  have hpool : r.mapTestPool = signed.mapTestPool := connectStandard_mapTestPool hr
  have hvin : call.tx.vin.zipIdx.map Prod.fst = call.tx.vin := List.zipIdx_map_fst 0 _
  have hloop := spendLoop_ok hblock hsigned hash
  rw [hvin] at hloop
  rw [hpool]
  exact hloop.2

end Spend

/-! ## The index after a transaction -/

section Fetched

variable {votes : VoteParams} {bp : BridgeParams} {src : TxSource} {call : FetchCall}
  {maps : MapPrevTx × MapFractions} {hash : UInt256} {prev : PrevTx}

/-- An entry that no block has: the one of a made up transaction with at most `k` outputs. -/
def CTxIndex.MadeUp (k : ℕ) (txindex : CTxIndex) : Prop :=
  txindex.pos = .null ∧ txindex.nHeight = 0 ∧ txindex.vSpent.length ≤ k

theorem pushPrev_key {inputsRet : MapPrevTx} {key hash : UInt256} {nTime : ℕ} {out : CTxOut}
    {prev : PrevTx} (h : pushPrev inputsRet key nTime out hash = some prev) :
    hash = key ∨ ∃ old, inputsRet hash = some old := by
  unfold pushPrev at h
  by_cases hsame : hash = key
  · exact Or.inl hsame
  · rw [Function.update_of_ne hsame] at h
    exact Or.inr ⟨prev, h⟩

theorem pushPrev_madeUp {k : ℕ} {inputsRet : MapPrevTx} {key : UInt256} {nTime : ℕ} {out : CTxOut}
    (hall : ∀ hash prev, inputsRet hash = some prev → prev.txindex.MadeUp k)
    (h : pushPrev inputsRet key nTime out hash = some prev) : prev.txindex.MadeUp (k + 1) := by
  unfold pushPrev at h
  by_cases hsame : hash = key
  · subst hsame
    rw [Function.update_self] at h
    cases hold : inputsRet hash with
    | none =>
      rw [hold] at h
      cases h
      exact ⟨rfl, rfl, Nat.le_add_left 1 k⟩
    | some old =>
      rw [hold] at h
      cases h
      obtain ⟨hpos, hheight, hlength⟩ := hall hash old hold
      refine ⟨hpos, hheight, ?_⟩
      simpa using hlength
  · rw [Function.update_of_ne hsame] at h
    obtain ⟨hpos, hheight, hlength⟩ := hall hash prev h
    exact ⟨hpos, hheight, hlength.trans (Nat.le_succ k)⟩

/-- The transactions that a mint spends from are made up. -/
theorem fetchMint_madeUp (h : fetchMint votes bp call (fun _ => none) (fun _ => none) = .ok maps)
    (hprev : maps.1 hash = some prev) : prev.txindex.MadeUp 2 := by
  obtain ⟨base, leafIn, out, req, frBridgePool, frDeduct, hmint⟩ := fetchMint_ok h
  obtain ⟨baseOut, leafOut, -, hmaps⟩ := hmint.prevs
  rw [hmaps] at hprev
  refine pushPrev_madeUp (fun hash prev hbase => ?_) hprev
  refine pushPrev_madeUp (fun _ _ hnone => ?_) hbase
  cases hnone

/-- The previous transactions of a transaction that is no mint are read. -/
theorem fetchInputs_readPrev (hbase : call.tx.isCoinBase = false)
    (hmint : call.tx.isCoinMint = false)
    (h : fetchInputs votes bp src call (fun _ => none) (fun _ => none) = .ok maps)
    (hprev : maps.1 hash = some prev) :
    ∃ fractions, readPrev src call hash = .ok (prev, fractions) := by
  simp only [fetchInputs, hbase, hmint, Bool.false_eq_true, if_false] at h
  obtain ⟨first, hprevs, h⟩ := bind_eq_ok.mp h
  obtain ⟨finputs, -, h⟩ := bind_eq_ok.mp h
  cases h
  obtain ⟨-, hread, -⟩ := fetchPrevs_ok hprevs
  rcases hread hash prev hprev with hbefore | ⟨-, hok⟩
  · cases hbefore
  · exact hok

/-- Where the entries come from with which a transaction of a block was fetched. -/
theorem fetchInputs_index (hblock : call.fBlock = true) (hbase : call.tx.isCoinBase = false)
    (h : fetchInputs votes bp src call (fun _ => none) (fun _ => none) = .ok maps)
    (hprev : maps.1 hash = some prev) :
    call.tx.isCoinMint = false ∧ findTxIndex call hash = some prev.txindex ∨
      call.tx.isCoinMint = true ∧ prev.txindex.MadeUp 2 := by
  cases hmint : call.tx.isCoinMint with
  | true =>
    simp only [fetchInputs, hbase, hmint, Bool.false_eq_true, if_false, if_true] at h
    exact Or.inr ⟨rfl, fetchMint_madeUp h hprev⟩
  | false =>
    obtain ⟨fractions, hok⟩ := fetchInputs_readPrev hbase hmint h hprev
    exact Or.inl ⟨rfl, readPrev_index hblock hok⟩

end Fetched

inductive EntryStep (net : Params) (tx : CTransaction) (pos : CDiskTxPos) (hash : UInt256) :
    Option CTxIndex → Option CTxIndex → Prop
  | created (old : Option CTxIndex) (nHeight : ℤ) (i : ℕ) (hash_eq : hash = net.getHash tx) :
    EntryStep net tx pos hash old (some (.ofTx pos tx.vout.length nHeight i))
  | kept (old : Option CTxIndex) (hash_ne : hash ≠ net.getHash tx)
    (hnot : tx.isCoinBase = true ∨ hash ∉ tx.vin.map (·.prevout.hash)) :
    EntryStep net tx pos hash old old
  | spent (txindex : CTxIndex) (hash_ne : hash ≠ net.getHash tx) (hbase : tx.isCoinBase = false)
    (hmint : tx.isCoinMint = false) (hmem : hash ∈ tx.vin.map (·.prevout.hash)) :
    EntryStep net tx pos hash (some txindex)
      (some (txindex.spent pos (spentOutputs tx.vin hash)))
  | minted (old : Option CTxIndex) (txindex : CTxIndex) (hash_ne : hash ≠ net.getHash tx)
    (hmint : tx.isCoinMint = true) (hmem : hash ∈ tx.vin.map (·.prevout.hash))
    (hmade : txindex.MadeUp 2) :
    EntryStep net tx pos hash old (some (txindex.spent pos (spentOutputs tx.vin hash)))

section Block

variable {net : Params} {votes : VoteParams} {bp : BridgeParams} {rules : BlockRules}
  {nBridgeInterval : ℕ} {ctx : BlockContext} {st : Stores} {place : BlockPlace} {disk : DiskBlock}
  {s s' : BlockState} {tx : CTransaction} {i : ℕ}

theorem overlay_of_none {κ ν : Type} {store changes : κ → Option ν} {k : κ}
    (h : changes k = none) : overlay store changes k = store k := by
  simp [overlay, h]

theorem overlay_of_some {κ ν : Type} {store changes : κ → Option ν} {k : κ} {v : ν}
    (h : changes k = some v) : overlay store changes k = some v := by
  simp [overlay, h]

theorem overlay_congr {κ ν : Type} {store changes changes' : κ → Option ν} {k : κ}
    (h : changes' k = changes k) : overlay store changes' k = overlay store changes k := by
  simp [overlay, h]

/-- In a block an entry is looked up among the changes first. -/
theorem findTxIndex_blockFetch (n : ℕ) (hash : UInt256) :
    findTxIndex (blockFetch ctx st disk s tx n) hash =
      overlay st.txdb s.mapQueuedChanges hash := by
  simp only [findTxIndex, blockFetch, true_or, if_true]
  cases hqueue : s.mapQueuedChanges hash with
  | none => rw [overlay_of_none hqueue]
  | some txindex => rw [overlay_of_some hqueue]

/-- The steps of a transaction that is no coinbase. -/
theorem connectTxInputs_ok (h : connectTxInputs net votes bp rules ctx st place disk s tx i =
      some s') :
    ∃ maps s₁ r, fetchInputs votes bp rules.toTxSource (blockFetch ctx st disk s tx place.nHeight)
        (fun _ => none) (fun _ => none) = .ok maps ∧
      s₁.mapQueuedChanges = s.mapQueuedChanges ∧
      s₁.mapQueuedFractionsChanges = s.mapQueuedFractionsChanges ∧
      s₁.feesFractions = s.feesFractions ∧ s₁.nTxPos = s.nTxPos ∧
      s₁.mapInputs = s.mapInputs ∧ s₁.mapInputsFractions = s.mapInputsFractions ∧
      connectInputs net votes bp rules.toScriptRules (blockConnect rules ctx place disk s₁ tx maps) =
        some r ∧
      s' = s₁.addConnected i maps.1 r := by
  unfold connectTxInputs at h
  split at h
  · cases h
  · rename_i maps hmaps
    split_ifs at h
    simp only [Option.bind_eq_bind, Option.bind_eq_some_iff] at h
    obtain ⟨nTxValueIn, -, nTxValueOut, -, r, hr, h⟩ := h
    refine ⟨maps, _, r, hmaps, ?_, ?_, ?_, ?_, ?_, ?_, hr, (Option.some.inj h).symm⟩ <;> rfl

/-- The steps of one round of the loop over the transactions. -/
theorem connectTx_ok (h : connectTx net votes bp rules ctx st place disk s (tx, i) = some s') :
    overwrites net st tx = false ∧
      ∃ s₁ s₂, s₁ = { s with nSigOps := s.nSigOps + rules.legacySigOps tx } ∧
        s' = s₂.addIndex net rules place disk tx i ∧
        (tx.isCoinBase = true ∧ (∃ nValueOut, s₂ = { s₁ with nValueOut }) ∨
          tx.isCoinBase = false ∧
            connectTxInputs net votes bp rules ctx st place disk s₁ tx i = some s₂) := by
  unfold connectTx at h
  split_ifs at h with hrefuse hbase
  · obtain ⟨s₂, hs₂, h⟩ := Option.bind_eq_some_iff.mp h
    obtain ⟨nTxValueOut, -, rfl⟩ := Option.map_eq_some_iff.mp hs₂
    exact ⟨by grind, _, _, rfl, (Option.some.inj h).symm, Or.inl ⟨hbase, _, rfl⟩⟩
  · obtain ⟨s₂, hs₂, h⟩ := Option.bind_eq_some_iff.mp h
    exact ⟨by grind, _, _, rfl, (Option.some.inj h).symm, Or.inr ⟨by simpa using hbase, hs₂⟩⟩

/-- The outputs that a mint spends are the first ones. -/
theorem isCoinMint_prevout {inp : CTxIn} (h : tx.isCoinMint = true) (hinp : inp ∈ tx.vin) :
    inp.prevout.n = 0 := by
  unfold CTransaction.isCoinMint at h
  split at h
  · rename_i inp0 inp1 out hvin hvout
    simp only [Bool.decide_and, Bool.and_eq_true, decide_eq_true_eq] at h
    obtain ⟨-, -, hbase, -, hleaf, -⟩ := h
    rw [hvin] at hinp
    rcases List.mem_pair.mp hinp with rfl | rfl
    · rw [hbase]
    · exact hleaf
  · cases h

theorem isCoinMint_vin (h : tx.isCoinMint = true) : ∃ inp0 inp1, tx.vin = [inp0, inp1] := by
  unfold CTransaction.isCoinMint at h
  split at h
  · rename_i inp0 inp1 out hvin hvout
    exact ⟨inp0, inp1, hvin⟩
  · cases h

theorem isCoinMint_isCoinBase (h : tx.isCoinMint = true) : tx.isCoinBase = false := by
  obtain ⟨inp0, inp1, hvin⟩ := isCoinMint_vin h
  simp [CTransaction.isCoinBase, hvin]

/-- A connected mint was fetched with the pool among the changes; the made up transaction of
its leaf has what the leaf asks for, which is not negative. -/
theorem connectTx_mint (hmint : tx.isCoinMint = true) (hnodup : (tx.vin.map (·.prevout)).Nodup)
    (h : connectTx net votes bp rules ctx st place disk s (tx, i) = some s') :
    ∃ inputsRet base leafIn out req frBridgePool frDeduct,
      FetchedMint bp (blockFetch ctx st disk s tx place.nHeight) inputsRet base leafIn out req
        frBridgePool frDeduct ∧
      leafIn.prevout.hash = setHex req.m.leaf ∧ 0 ≤ req.frLeafFromBridge.total := by
  have hbase := isCoinMint_isCoinBase hmint
  obtain ⟨-, s₁, s₂, rfl, -, ⟨hcoin, -⟩ | ⟨-, hinputs⟩⟩ := connectTx_ok h
  · rw [hbase] at hcoin
    cases hcoin
  obtain ⟨maps, s₃, r, hmaps, -, -, -, -, -, -, hr, -⟩ := connectTxInputs_ok hinputs
  have hfetch : fetchMint votes bp (blockFetch ctx st disk s tx place.nHeight) (fun _ => none)
      (fun _ => none) = .ok maps := by
    simpa [fetchInputs, blockFetch, hbase, hmint] using hmaps
  obtain ⟨base, leafIn, out, req, frBridgePool, frDeduct, hfetched⟩ := fetchMint_ok hfetch
  have hvin : tx.vin = [base, leafIn] := hfetched.vin
  obtain ⟨nValueIn, -, -, hcheck, -⟩ := connectInputs_ok hbase hr
  have hmem : leafIn ∈ tx.vin := by simp [hvin]
  obtain ⟨t, t', hstep⟩ := foldlM_some_mem hmem hcheck
  obtain ⟨prev, txout, hprev, htxout, -, hvalue⟩ := checkInput_ok hstep
  have hprev : maps.1 leafIn.prevout.hash = some prev := hprev
  have hzero := isCoinMint_prevout hmint hmem
  have hzero' : base.prevout.n = 0 := isCoinMint_prevout hmint (by simp [hvin])
  have hne : leafIn.prevout.hash ≠ base.prevout.hash := by
    intro hsame
    have hprevout : base.prevout = leafIn.prevout := by
      cases hb : base.prevout
      cases hl : leafIn.prevout
      simp_all
    rw [hvin] at hnodup
    simp [hprevout] at hnodup
  obtain ⟨baseOut, leafOut, hleafOut, hprevs⟩ := hfetched.prevs
  have hleaf : leafIn.prevout.hash = setHex req.m.leaf := by
    rw [hprevs] at hprev
    rcases pushPrev_key hprev with hleaf | ⟨old, hold⟩
    · exact hleaf
    · rcases pushPrev_key hold with hsame | ⟨old', hold'⟩
      · exact absurd hsame hne
      · cases hold'
  refine ⟨maps.1, base, leafIn, out, req, frBridgePool, frDeduct, hfetched, hleaf, ?_⟩
  have hempty : pushPrev (fun _ => none) base.prevout.hash 0 baseOut (setHex req.m.leaf) =
      none := by
    unfold pushPrev
    exact Function.update_of_ne (hleaf ▸ hne) ..
  have hpushed : prev.tx.vout = [leafOut] := by
    rw [hprevs, hleaf, pushPrev, hempty, Function.update_self] at hprev
    cases hprev
    rfl
  rw [hpushed, hzero] at htxout
  cases htxout
  rw [← hleafOut]
  exact hvalue

/-- What connecting a transaction in a block does to the index. -/
theorem connectTx_entry
    (h : connectTx net votes bp rules ctx st place disk s (tx, i) = some s') (hash : UInt256) :
    EntryStep net tx ⟨disk.nFile, disk.nBlockPos, s.nTxPos⟩ hash
      (overlay st.txdb s.mapQueuedChanges hash) (overlay st.txdb s'.mapQueuedChanges hash) := by
  obtain ⟨-, s₁, s₂, rfl, rfl, hcases⟩ := connectTx_ok h
  by_cases hash_eq : hash = net.getHash tx
  · have hnew : (s₂.addIndex net rules place disk tx i).mapQueuedChanges hash =
        some (.ofTx ⟨disk.nFile, disk.nBlockPos, s₂.nTxPos⟩ tx.vout.length place.nHeight i) := by
      rw [hash_eq]
      exact Function.update_self ..
    have hpos : s₂.nTxPos = s.nTxPos := by
      rcases hcases with ⟨-, nValueOut, rfl⟩ | ⟨-, hinputs⟩
      · rfl
      · obtain ⟨maps, s₃, r, -, -, -, -, hpos, -, -, -, rfl⟩ := connectTxInputs_ok hinputs
        exact hpos
    rw [overlay_of_some hnew, hpos]
    exact EntryStep.created _ _ _ hash_eq
  · have hold : (s₂.addIndex net rules place disk tx i).mapQueuedChanges hash =
        s₂.mapQueuedChanges hash := Function.update_of_ne hash_eq ..
    rw [overlay_congr hold]
    rcases hcases with ⟨hbase, nValueOut, rfl⟩ | ⟨hbase, hinputs⟩
    · exact EntryStep.kept _ hash_eq (Or.inl hbase)
    · obtain ⟨maps, s₃, r, hmaps, hqueue, -, -, hpos, -, -, hr, rfl⟩ := connectTxInputs_ok hinputs
      obtain ⟨hkept, hspent⟩ := connectInputs_index rfl hbase hr hash
      by_cases hmem : hash ∈ tx.vin.map (·.prevout.hash)
      · obtain ⟨prev, hprev, hnew⟩ := hspent hmem
        have hentry : overlay st.txdb (s₃.addConnected i maps.1 r).mapQueuedChanges hash =
            some (prev.txindex.spent ⟨disk.nFile, disk.nBlockPos, s.nTxPos⟩
              (spentOutputs tx.vin hash)) := by
          rw [← hpos]
          exact overlay_of_some hnew
        rw [hentry]
        rcases fetchInputs_index rfl hbase hmaps hprev with ⟨hmint, hfound⟩ | ⟨hmint, hmade⟩
        · rw [findTxIndex_blockFetch] at hfound
          have hfound : overlay st.txdb s.mapQueuedChanges hash = some prev.txindex := hfound
          rw [hfound]
          exact EntryStep.spent _ hash_eq hbase hmint hmem
        · exact EntryStep.minted _ _ hash_eq hmint hmem hmade
      · have hsame : (s₃.addConnected i maps.1 r).mapQueuedChanges hash =
            s.mapQueuedChanges hash := by
          rw [← hqueue]
          exact hkept hmem
        rw [overlay_congr hsame]
        exact EntryStep.kept _ hash_eq (Or.inr hmem)

/-- A transaction that is no mint spends outputs that entries of the index have. -/
theorem connectTx_spends (hbase : tx.isCoinBase = false) (hmint : tx.isCoinMint = false)
    (h : connectTx net votes bp rules ctx st place disk s (tx, i) = some s') {inp : CTxIn}
    (hinp : inp ∈ tx.vin) :
    ∃ txindex, overlay st.txdb s.mapQueuedChanges inp.prevout.hash = some txindex ∧
      inp.prevout.n < txindex.vSpent.length := by
  obtain ⟨-, s₁, s₂, rfl, -, ⟨hcoin, -⟩ | ⟨-, hinputs⟩⟩ := connectTx_ok h
  · rw [hbase] at hcoin
    cases hcoin
  obtain ⟨maps, s₃, r, hmaps, -, -, -, -, -, -, hr, -⟩ := connectTxInputs_ok hinputs
  obtain ⟨nValueIn, -, -, hcheck, -⟩ := connectInputs_ok hbase hr
  have hmem : inp ∈ (blockConnect rules ctx place disk s₃ tx maps).tx.vin := hinp
  obtain ⟨t, t', hstep⟩ := foldlM_some_mem hmem hcheck
  obtain ⟨prev, txout, hprev, -, hlength, -⟩ := checkInput_ok hstep
  rcases fetchInputs_index rfl hbase hmaps hprev with ⟨-, hfound⟩ | ⟨hnot, -⟩
  · rw [findTxIndex_blockFetch] at hfound
    exact ⟨prev.txindex, hfound, hlength⟩
  · have hnot : tx.isCoinMint = true := hnot
    rw [hmint] at hnot
    cases hnot

/-- The next transaction starts behind this one. -/
theorem connectTx_nTxPos
    (h : connectTx net votes bp rules ctx st place disk s (tx, i) = some s') :
    s'.nTxPos = s.nTxPos + rules.txSize tx := by
  obtain ⟨-, s₁, s₂, rfl, rfl, ⟨-, nValueOut, rfl⟩ | ⟨-, hinputs⟩⟩ := connectTx_ok h
  · rfl
  · obtain ⟨maps, s₃, r, -, -, -, -, hpos, -, -, -, rfl⟩ := connectTxInputs_ok hinputs
    exact congrArg (· + rules.txSize tx) hpos

/-- A block without a coinstake is connected as it is when its reward is allowed. -/
theorem connectReward_ok {indices : List CBlockIndex}
    (h : connectReward net votes bp rules ctx st place disk indices s = some s') :
    s' = s ∨ ∃ tx, disk.block.vtx[1]? = some tx ∧ disk.block.isProofOfStake = true ∧
      connectStake net votes bp rules ctx st place disk indices s tx = some s' := by
  have hwork : connectReward.checkWork rules disk s = some s' → s' = s := by
    intro h
    unfold connectReward.checkWork at h
    split at h
    · cases h
    · split_ifs at h
      exact (Option.some.inj h).symm
  unfold connectReward at h
  split at h
  · rename_i tx htx
    split_ifs at h with hstake
    · exact Or.inr ⟨tx, htx, hstake, h⟩
    · exact Or.inl (hwork h)
  · exact Or.inl (hwork h)

/-- The steps of paying a coinstake. -/
theorem connectStake_ok {indices : List CBlockIndex}
    (h : connectStake net votes bp rules ctx st place disk indices s tx = some s') :
    ∃ inp maps nReward, tx.vin.head? = some inp ∧
      fetchInputs votes bp rules.toTxSource (blockFetch ctx st disk s tx 0) (s.mapInputs 1)
        (s.mapInputsFractions 1) = .ok maps ∧
      (s' = s ∨ (calculateStakingFractions_v2 net (stakingCall s tx maps nReward)).sFailCause =
          none ∧
        s' = { s with
          mapQueuedFractionsChanges := (calculateStakingFractions_v2 net
            (stakingCall s tx maps nReward)).mapTestFractionsPool }) := by
  unfold connectStake at h
  split at h
  · rename_i inp maps hinp hmaps
    simp only [Option.bind_eq_bind, Option.bind_eq_some_iff] at h
    obtain ⟨frStake, -, nReward, -, nWithoutFee, -, h⟩ := h
    split_ifs at h with hpays hstart hcause
    · exact ⟨inp, maps, 0, hinp, hmaps, Or.inl (Option.some.inj h).symm⟩
    · exact ⟨inp, maps, nWithoutFee, hinp, hmaps,
        Or.inr ⟨by simpa using hcause, (Option.some.inj h).symm⟩⟩
  · cases h

/-- The reward leaves the index alone. -/
theorem connectReward_index {indices : List CBlockIndex}
    (h : connectReward net votes bp rules ctx st place disk indices s = some s') :
    s'.mapQueuedChanges = s.mapQueuedChanges := by
  rcases connectReward_ok h with rfl | ⟨tx, -, -, hstake⟩
  · rfl
  · obtain ⟨inp, maps, nReward, -, -, rfl | ⟨-, rfl⟩⟩ := connectStake_ok hstake
    · rfl
    · rfl

end Block

end BitBay
