import BitBay.Chain.Mempool
import BitBay.Chain.MintAdmission

/-!
# The maps of the memory pool

The pool keeps its transactions by hash, the outputs that each one spends, the spending input
of every output that is spent, and the packed fractions of the outputs. Adding, removing and the
review keep the four maps in agreement; `clear` leaves the packed fractions behind. A pointer to
a stored transaction is the hash that it is stored under. The counter of the updates is left
out.
-/
namespace BitBay

def CTransaction.HasOutput (net : Params) (tx : CTransaction) (fkey : UInt320) : Prop :=
  fkey.hash = net.getHash tx ∧ fkey.n < tx.vout.length

structure PoolMaps extends CTxMemPool where
  /-- The outputs that a transaction of the pool spends, by its hash. -/
  mapPrevOuts : UInt256 → Option MapPrevOut

namespace PoolMaps

section Operations

variable (net : Params) (votes : VoteParams) (bp : BridgeParams)

def empty : PoolMaps where
  mapTx := []
  mapNextTx := fun _ => none
  mapPackedFractions := fun _ => none
  mapPrevOuts := fun _ => none

def markInput (hash : UInt256) (mapNextTx : COutPoint → Option (UInt256 × ℕ)) (inp : CTxIn × ℕ) :
    COutPoint → Option (UInt256 × ℕ) :=
  if inp.1.prevout.isNull = false ∧ inp.1.prevout.hash ≠ 0 then
    Function.update mapNextTx inp.1.prevout (some (hash, inp.2))
  else mapNextTx

def addUnchecked (tx : CTransaction) (mapInputs : MapPrevOut) (mapFractions : MapFractions)
    (pool : PoolMaps) : PoolMaps where
  mapTx := (pool.mapTx.filter fun other => net.getHash other ≠ net.getHash tx).orderedInsert
    (fun a b => net.getHash a ≤ net.getHash b) tx
  mapNextTx := tx.vin.zipIdx.foldl (markInput (net.getHash tx)) pool.mapNextTx
  mapPackedFractions := fun fkey => (mapFractions fkey).or (pool.mapPackedFractions fkey)
  mapPrevOuts := Function.update pool.mapPrevOuts (net.getHash tx) (some mapInputs)

def eraseTx (tx : CTransaction) (pool : PoolMaps) : PoolMaps where
  toCTxMemPool := pool.toCTxMemPool.erase net tx
  mapPrevOuts := Function.update pool.mapPrevOuts (net.getHash tx) none

/-- `remove`; `none` when the rounds are used up, or for a pointer to no transaction. -/
def remove : ℕ → Bool → CTransaction → PoolMaps → Option PoolMaps
  | 0, _, _, _ => none
  | k + 1, fRecursive, tx, pool =>
    if (pool.find net (net.getHash tx)).isSome then do
      let pool ← if fRecursive then
          (List.range tx.vout.length).foldlM (fun pool i =>
            match pool.mapNextTx ⟨net.getHash tx, i⟩ with
            | none => some pool
            | some next => (pool.find net next.1).bind fun ptx => remove k true ptx pool) pool
        else some pool
      return pool.eraseTx net tx
    else some pool

def removeConflicts (rounds : ℕ) (tx : CTransaction) (pool : PoolMaps) : Option PoolMaps :=
  tx.vin.foldlM (fun pool txin =>
    match pool.mapNextTx txin.prevout with
    | none => some pool
    | some next => (pool.find net next.1).bind fun txConflict =>
      if txConflict ≠ tx then remove net rounds true txConflict pool else some pool) pool

def reviewOnPegChange (ctx : ReviewContext) (rounds : ℕ) (pool : PoolMaps) : Option PoolMaps := do
  let st ← (pool.roots net).foldlM
    (fun st hash => reviewTx net votes bp ctx pool.toCTxMemPool rounds hash st)
    { mapPackedFractions := pool.mapPackedFractions }
  st.vRemove.foldlM (fun pool hash =>
    match pool.find net hash with
    | none => some pool
    | some tx => remove net rounds true tx pool)
    { pool with mapPackedFractions := st.mapPackedFractions }

def clear (pool : PoolMaps) : PoolMaps where
  mapTx := []
  mapNextTx := fun _ => none
  mapPackedFractions := pool.mapPackedFractions
  mapPrevOuts := fun _ => none

end Operations

end PoolMaps

inductive PoolOp where
  | addUnchecked (tx : CTransaction) (mapInputs : MapPrevOut) (mapFractions : MapFractions)
  | remove (tx : CTransaction) (fRecursive : Bool)
  | removeConflicts (tx : CTransaction)
  | reviewOnPegChange (ctx : ReviewContext)
  | clear

structure PoolStep where
  before : PoolMaps
  op : PoolOp
  after : PoolMaps

section Runs

variable (net : Params) (votes : VoteParams) (bp : BridgeParams)

/-- What a call leaves, in the given number of rounds of its recursion. -/
def PoolOp.apply (rounds : ℕ) (pool : PoolMaps) : PoolOp → Option PoolMaps
  | .addUnchecked tx mapInputs mapFractions =>
    some (pool.addUnchecked net tx mapInputs mapFractions)
  | .remove tx fRecursive => pool.remove net rounds fRecursive tx
  | .removeConflicts tx => pool.removeConflicts net rounds tx
  | .reviewOnPegChange ctx => pool.reviewOnPegChange net votes bp ctx rounds
  | .clear => some pool.clear

/-- What `AcceptToMemoryPool` checks of a transaction before it is added, and the fractions that
it calculates. -/
structure PoolMaps.Addable (pool : PoolMaps) (tx : CTransaction) (mapFractions : MapFractions) :
    Prop where
  checked : tx.checkTransaction = true
  absent : ∀ other ∈ pool.mapTx, net.getHash other ≠ net.getHash tx
  unspent : ∀ inp ∈ tx.vin, pool.mapNextTx inp.prevout = none
  outputs : ∀ fkey, mapFractions fkey ≠ none → tx.HasOutput net fkey

/-- What the callers see to. A transaction that is removed is the one that the pool holds under
its hash, if it holds one. -/
def PoolOp.Allowed (pool : PoolMaps) : PoolOp → Prop
  | .addUnchecked tx _ mapFractions => pool.Addable net tx mapFractions
  | .remove tx _ => ∀ found ∈ pool.mapTx, net.getHash found = net.getHash tx → found = tx
  | .removeConflicts _ => True
  | .reviewOnPegChange _ => True
  | .clear => True

structure PoolStep.Valid (step : PoolStep) : Prop where
  allowed : step.op.Allowed net step.before
  returns : ∃ rounds, step.op.apply net votes bp rounds step.before = some step.after

inductive PoolRun : List PoolStep → PoolMaps → Prop
  | start : PoolRun [] .empty
  | call {steps : List PoolStep} {step : PoolStep} : PoolRun steps step.before →
      step.Valid net votes bp → PoolRun (steps ++ [step]) step.after

/-- The maps agree with the transactions: the marks are exactly the inputs that refer to a
transaction, with the transaction that the pool holds. -/
structure PoolMaps.Indexed (pool : PoolMaps) : Prop where
  keys : (pool.mapTx.map net.getHash).Nodup
  next : ∀ o hash i, pool.mapNextTx o = some (hash, i) ↔ o.hash ≠ 0 ∧
    ∃ tx ∈ pool.mapTx, net.getHash tx = hash ∧ ∃ inp, tx.vin[i]? = some inp ∧ inp.prevout = o
  prevOuts : ∀ hash, (pool.mapPrevOuts hash).isSome ↔ hash ∈ pool.mapTx.map net.getHash
  packed : ∀ fkey, pool.mapPackedFractions fkey ≠ none → ∃ tx ∈ pool.mapTx, tx.HasOutput net fkey

end Runs

/-! ## Fractions are written for outputs -/

section Outputs

variable {net : Params} {votes : VoteParams} {bp : BridgeParams} {tx : CTransaction}
  {pool pool' : MapFractions}

variable (net) in
def WritesOnly (tx : CTransaction) (pool pool' : MapFractions) : Prop :=
  ∀ fkey, ¬ tx.HasOutput net fkey → pool' fkey = pool fkey

theorem WritesOnly.refl : WritesOnly net tx pool pool := fun _ _ => rfl

/-- What is written into an empty map are outputs. -/
theorem WritesOnly.hasOutput {fkey : UInt320} (h : WritesOnly net tx (fun _ => none) pool)
    (hfkey : pool fkey ≠ none) : tx.HasOutput net fkey := by
  by_contra hout
  exact hfkey (h fkey hout)

theorem isCoinMint_vout (h : tx.isCoinMint = true) : tx.vout.length = 1 := by
  unfold CTransaction.isCoinMint at h
  split at h
  · simp [*]
  · cases h

theorem calculateStandardFractions_only {call : StandardCall} {r : StandardResult}
    (h : calculateStandardFractions net call = .ok r) :
    WritesOnly net call.tx call.mapTestFractionsPool r.mapTestFractionsPool := by
  obtain ⟨pools, st, -, hfill, -, rfl⟩ := calculateStandardFractions_ok h
  intro fkey hout
  apply fillOutputs_other hfill
  rintro o ho rfl
  exact hout ⟨rfl, lt_of_mem_outputs ho⟩

theorem calculateCoinMintFractions_only {call : MintCall} {r : MintResult}
    (hmint : call.tx.isCoinMint = true) (h : calculateCoinMintFractions net bp call = some r)
    (hok : r.sFailCause = none) :
    WritesOnly net call.tx call.mapTestFractionsPool r.mapTestFractionsPool := by
  intro fkey hout
  have hne : fkey ≠ call.outKey net := by
    rintro rfl
    exact hout ⟨rfl, by simp [MintCall.outKey, isCoinMint_vout hmint]⟩
  unfold calculateCoinMintFractions at h
  split at h
  · cases h
  · obtain rfl := Option.some.inj h
    cases hok
  · rename_i draw hdraw
    obtain rfl := Option.some.inj h
    have hstd := CFractions.ratioPart_std draw.frInpLeaf call.outValue
    rcases mintPay_cases net hstd with ⟨sFailCause, hr⟩ | ⟨fee, -, hr⟩
    · rw [mintOutput, hr] at hok
      cases hok
    · rw [mintOutput, hr]
      exact Function.update_of_ne hne ..

/-- The calculation of a review writes outputs of its transaction. -/
theorem calculate_hasOutput {ctx : ReviewContext} {bridges : CString → Option CBridgeInfo}
    {maps : MapPrevTx × MapFractions} {pass : Finset ℕ} {outs : MapFractions} {fkey : UInt320}
    (h : calculate net bp ctx bridges tx maps pass = some outs) (hfkey : outs fkey ≠ none) :
    tx.HasOutput net fkey := by
  unfold calculate at h
  split_ifs at h with hmint
  · obtain ⟨r, hr, h⟩ := Option.bind_eq_some_iff.mp h
    split_ifs at h with hfail
    obtain rfl := Option.some.inj h
    have honly := calculateCoinMintFractions_only hmint hr (by simpa using hfail)
    exact honly.hasOutput hfkey
  · obtain ⟨r, hr, rfl⟩ := Option.map_eq_some_iff.mp h
    have honly := calculateStandardFractions_only (Run.eq_ok_of_toOption hr)
    exact honly.hasOutput hfkey

theorem reviewed_hasOutput {ctx : ReviewContext} {outs : MapFractions} {fkey : UInt320}
    {lookup : UInt256 → Option (CTransaction × List CFractions)}
    (h : reviewed net votes bp ctx lookup tx = some outs) (hfkey : outs fkey ≠ none) :
    tx.HasOutput net fkey := by
  obtain ⟨bridges, -, h⟩ := Option.bind_eq_some_iff.mp h
  obtain ⟨maps, -, h⟩ := Option.bind_eq_some_iff.mp h
  exact calculate_hasOutput h hfkey

/-- A transaction that is connected writes entries of its outputs only. -/
theorem connectInputs_only {rules : ScriptRules} {call : ConnectCall} {r : ConnectResult}
    (hbase : call.tx.isCoinBase = false) (h : connectInputs net votes bp rules call = some r) :
    WritesOnly net call.tx call.mapTestFractionsPool r.mapTestFractionsPool := by
  obtain ⟨-, minted, signed, -, hminted, -, hr, -⟩ := connectInputs_ok hbase h
  have hmint : WritesOnly net call.tx call.mapTestFractionsPool minted.mapTestFractionsPool := by
    unfold connectMint at hminted
    split_ifs at hminted with hmint
    · split at hminted
      · cases hminted
      · rename_i m hm
        split_ifs at hminted with hcause
        obtain rfl := Option.some.inj hminted
        exact calculateCoinMintFractions_only hmint.1 hm (by simpa using hcause)
    · obtain rfl := Option.some.inj hminted
      exact WritesOnly.refl
  unfold connectStandard at hr
  split_ifs at hr with hstandard
  · split at hr
    · cases hr
    · rename_i s hs
      obtain rfl := Option.some.inj hr
      exact calculateStandardFractions_only hs
  · obtain rfl := Option.some.inj hr
    exact hmint

/-- What `AcceptToMemoryPool` hands to `addUnchecked`. -/
theorem acceptInputs_hasOutput {rules : ScriptRules} {ctx : BlockContext} {best : ChainEntry}
    {below : List ChainEntry} {nVirtBlockTime : ℕ} {maps : MapPrevTx × MapFractions}
    {standard mandatory : ConnectResult} {fkey : UInt320} (hbase : tx.isCoinBase = false)
    (h : acceptInputs net votes bp rules ctx best below tx nVirtBlockTime maps =
      some (standard, mandatory))
    (hfkey : standard.mapTestFractionsPool fkey ≠ none) : tx.HasOutput net fkey := by
  obtain ⟨first, hfirst, h⟩ := Option.bind_eq_some_iff.mp h
  obtain ⟨second, -, h⟩ := Option.bind_eq_some_iff.mp h
  obtain ⟨rfl, -⟩ := Prod.mk.inj (Option.some.inj h)
  have honly := connectInputs_only hbase hfirst
  exact honly.hasOutput hfkey

end Outputs

/-! ## One call -/

namespace PoolMaps

section Calls

variable {net : Params} {votes : VoteParams} {bp : BridgeParams} {pool pool' : PoolMaps}
  {tx : CTransaction} {hash : UInt256} {k : ℕ} {mapFractions : MapFractions}
  {mapInputs : MapPrevOut}

/-! ### Adding -/

theorem markInput_apply {mapNextTx : COutPoint → Option (UInt256 × ℕ)} {inp : CTxIn × ℕ}
    {o : COutPoint} : markInput hash mapNextTx inp o =
      if o.hash ≠ 0 ∧ inp.1.prevout = o then some (hash, inp.2) else mapNextTx o := by
  unfold markInput COutPoint.isNull
  grind

/-- Outputs that no input spends keep their mark. -/
theorem markInputs_other {mapNextTx : COutPoint → Option (UInt256 × ℕ)} {vin : List CTxIn}
    {start : ℕ} {o : COutPoint} (h : o.hash ≠ 0 → o ∉ vin.map (·.prevout)) :
    (vin.zipIdx start).foldl (markInput hash) mapNextTx o = mapNextTx o := by
  induction vin generalizing start mapNextTx with
  | nil => rfl
  | cons inp rest ih =>
    have hrest : o.hash ≠ 0 → o ∉ rest.map (·.prevout) := by grind
    have hfirst : ¬ (o.hash ≠ 0 ∧ inp.prevout = o) := by grind
    rw [List.zipIdx_cons, List.foldl_cons, ih hrest, markInput_apply, if_neg hfirst]

/-- Inputs that spend different outputs are marked with their places. -/
theorem markInputs_at {mapNextTx : COutPoint → Option (UInt256 × ℕ)} {vin : List CTxIn}
    {start i : ℕ} {inp : CTxIn} (hnodup : (vin.map (·.prevout)).Nodup)
    (hinp : vin[i]? = some inp) (hzero : inp.prevout.hash ≠ 0) :
    (vin.zipIdx start).foldl (markInput hash) mapNextTx inp.prevout = some (hash, start + i) := by
  induction vin generalizing start mapNextTx i with
  | nil => cases hinp
  | cons first rest ih =>
    obtain ⟨hfirst, hrest⟩ := List.nodup_cons.mp hnodup
    rw [List.zipIdx_cons, List.foldl_cons]
    cases i with
    | zero =>
      obtain rfl : first = inp := Option.some.inj hinp
      rw [markInputs_other fun _ => hfirst, markInput_apply, if_pos ⟨hzero, rfl⟩]
      rfl
    | succ i =>
      rw [ih hrest hinp]
      congr 2
      omega

theorem mem_addUnchecked (hadd : pool.Addable net tx mapFractions) {other : CTransaction} :
    other ∈ (pool.addUnchecked net tx mapInputs mapFractions).mapTx ↔
      other = tx ∨ other ∈ pool.mapTx := by
  have habsent := hadd.absent
  simp only [addUnchecked, List.mem_orderedInsert, List.mem_filter]
  grind

theorem checkTransaction_nodup (h : tx.checkTransaction = true) :
    (tx.vin.map (·.prevout)).Nodup := by
  simp only [CTransaction.checkTransaction, Bool.decide_and, Bool.and_eq_true,
    decide_eq_true_eq] at h
  exact h.2.2.2.2.1

theorem Indexed.addUnchecked (h : pool.Indexed net) (hadd : pool.Addable net tx mapFractions) :
    (pool.addUnchecked net tx mapInputs mapFractions).Indexed net where
  keys := by
    have hperm : (pool.addUnchecked net tx mapInputs mapFractions).mapTx.Perm
        (tx :: pool.mapTx.filter fun other => net.getHash other ≠ net.getHash tx) :=
      List.perm_orderedInsert _ _ _
    rw [(hperm.map net.getHash).nodup_iff, List.map_cons, List.nodup_cons]
    refine ⟨?_, h.keys.sublist (List.filter_sublist.map _)⟩
    simp only [List.mem_map, List.mem_filter]
    grind
  next := by
    intro o hash i
    have hnodup := checkTransaction_nodup hadd.checked
    simp only [mem_addUnchecked hadd]
    by_cases hspent : o.hash ≠ 0 ∧ o ∈ tx.vin.map (·.prevout)
    · obtain ⟨hzero, hmem⟩ := hspent
      obtain ⟨inp, hinp, rfl⟩ := List.mem_map.mp hmem
      obtain ⟨n, hn⟩ := List.getElem?_of_mem hinp
      have hmark : (pool.addUnchecked net tx mapInputs mapFractions).mapNextTx inp.prevout =
          some (net.getHash tx, n) := by
        have hat : (tx.vin.zipIdx 0).foldl (markInput (net.getHash tx)) pool.mapNextTx inp.prevout =
            some (net.getHash tx, 0 + n) := markInputs_at hnodup hn hzero
        rw [Nat.zero_add] at hat
        exact hat
      rw [hmark]
      constructor
      · rintro hsame
        obtain ⟨rfl, rfl⟩ := Prod.mk.inj (Option.some.inj hsame)
        exact ⟨hzero, tx, Or.inl rfl, rfl, inp, hn, rfl⟩
      · rintro ⟨-, other, rfl | hother, rfl, inp', hinp', hprevout⟩
        · -- The prevouts differ, so the place of one is known.
          have hlt : i < (other.vin.map (·.prevout)).length := by
            simpa using (List.getElem?_eq_some_iff.mp hinp').1
          have hplace : i = n :=
            (List.getElem?_inj hlt hnodup).mp (by simp [hinp', hn, hprevout])
          rw [hplace]
        · have hnext := (h.next inp.prevout _ i).mpr
            ⟨hzero, other, hother, rfl, inp', hinp', hprevout⟩
          rw [hadd.unspent inp hinp] at hnext
          cases hnext
    · have hkept : (pool.addUnchecked net tx mapInputs mapFractions).mapNextTx o =
          pool.mapNextTx o := markInputs_other fun hzero hmem => hspent ⟨hzero, hmem⟩
      rw [hkept, h.next]
      refine and_congr_right fun hzero => exists_congr fun other => ?_
      refine ⟨fun hother => ⟨Or.inr hother.1, hother.2⟩, ?_⟩
      rintro ⟨rfl | hother, hhash, inp, hinp, hprevout⟩
      · exact absurd ⟨hzero, hprevout ▸ List.mem_map_of_mem (List.mem_of_getElem? hinp)⟩ hspent
      · exact ⟨hother, hhash, inp, hinp, hprevout⟩
  prevOuts := by
    intro hash
    have hmem : hash ∈ (pool.addUnchecked net tx mapInputs mapFractions).mapTx.map net.getHash ↔
        hash = net.getHash tx ∨ hash ∈ pool.mapTx.map net.getHash := by
      simp only [List.mem_map, mem_addUnchecked hadd]
      grind
    rw [hmem, ← h.prevOuts, PoolMaps.addUnchecked]
    by_cases hsame : hash = net.getHash tx
    · simp [hsame]
    · simp [hsame]
  packed := by
    intro fkey hfkey
    by_cases hnew : mapFractions fkey = none
    · have hold : pool.mapPackedFractions fkey ≠ none := by
        simpa [PoolMaps.addUnchecked, hnew] using hfkey
      obtain ⟨other, hother, hout⟩ := h.packed fkey hold
      exact ⟨other, (mem_addUnchecked hadd).mpr (Or.inr hother), hout⟩
    · exact ⟨tx, (mem_addUnchecked hadd).mpr (Or.inl rfl), hadd.outputs fkey hnew⟩

/-! ### Removing -/

variable (net) in
/-- No other transaction of the pool has the hash of this one or spends what it spends. -/
structure Sole (pool : PoolMaps) (tx : CTransaction) : Prop where
  hash : ∀ other ∈ pool.mapTx, net.getHash other = net.getHash tx → other = tx
  spends : ∀ other ∈ pool.mapTx, ∀ inp ∈ other.vin, inp.prevout.hash ≠ 0 →
    inp.prevout ∈ tx.vin.map (·.prevout) → other = tx

theorem Sole.mono (h : pool.Sole net tx) (hsub : pool'.mapTx ⊆ pool.mapTx) : pool'.Sole net tx :=
  ⟨fun other hother => h.hash other (hsub hother),
    fun other hother => h.spends other (hsub hother)⟩

theorem Indexed.hash_inj (h : pool.Indexed net) {other : CTransaction} (hother : other ∈ pool.mapTx)
    (htx : tx ∈ pool.mapTx) (hhash : net.getHash other = net.getHash tx) : other = tx :=
  List.inj_on_of_nodup_map h.keys hother htx hhash

theorem Indexed.find_eq (h : pool.Indexed net) (htx : tx ∈ pool.mapTx) :
    pool.find net (net.getHash tx) = some tx := by
  obtain ⟨found, hfound⟩ : ∃ found, pool.find net (net.getHash tx) = some found := by
    rw [← Option.isSome_iff_exists, CTxMemPool.find, List.find?_isSome]
    exact ⟨tx, htx, by simp⟩
  obtain ⟨hmem, hhash⟩ := CTxMemPool.find_mem hfound
  rw [hfound, h.hash_inj hmem htx hhash]

theorem Indexed.sole (h : pool.Indexed net) (htx : tx ∈ pool.mapTx) : pool.Sole net tx where
  hash := fun _ hother hhash => h.hash_inj hother htx hhash
  spends := by
    intro other hother inp hinp hzero hmem
    obtain ⟨inp', hinp', hprevout⟩ := List.mem_map.mp hmem
    obtain ⟨i, hi⟩ := List.getElem?_of_mem hinp
    obtain ⟨j, hj⟩ := List.getElem?_of_mem hinp'
    have hmark := (h.next inp.prevout _ i).mpr ⟨hzero, other, hother, rfl, inp, hi, rfl⟩
    have hmark' := (h.next inp.prevout _ j).mpr ⟨hzero, tx, htx, rfl, inp', hj, hprevout⟩
    rw [hmark] at hmark'
    exact h.hash_inj hother htx (Prod.mk.inj (Option.some.inj hmark')).1

theorem mem_eraseTx {other : CTransaction} : other ∈ (pool.eraseTx net tx).mapTx ↔
    other ∈ pool.mapTx ∧ net.getHash other ≠ net.getHash tx := by
  simp [eraseTx, CTxMemPool.erase]

theorem Indexed.eraseTx (h : pool.Indexed net) (hsole : pool.Sole net tx) :
    (pool.eraseTx net tx).Indexed net where
  keys := h.keys.sublist (List.filter_sublist.map _)
  next := by
    intro o hash i
    simp only [mem_eraseTx]
    have herase : (pool.eraseTx net tx).mapNextTx o =
        if o ∈ tx.vin.map (·.prevout) then none else pool.mapNextTx o := rfl
    rw [herase]
    split_ifs with hmem
    · refine iff_of_false (fun hnone => by cases hnone) ?_
      rintro ⟨hzero, other, ⟨hother, hne⟩, rfl, inp, hinp, rfl⟩
      obtain rfl := hsole.spends other hother inp (List.mem_of_getElem? hinp) hzero hmem
      exact hne rfl
    · rw [h.next]
      refine and_congr_right fun hzero => exists_congr fun other => ⟨?_, ?_⟩
      · rintro ⟨hother, rfl, inp, hinp, rfl⟩
        refine ⟨⟨hother, fun hhash => hmem ?_⟩, rfl, inp, hinp, rfl⟩
        rw [hsole.hash other hother hhash] at hinp
        exact List.mem_map_of_mem (List.mem_of_getElem? hinp)
      · rintro ⟨⟨hother, -⟩, hrest⟩
        exact ⟨hother, hrest⟩
  prevOuts := by
    intro hash
    have hmem : hash ∈ (pool.eraseTx net tx).mapTx.map net.getHash ↔
        hash ∈ pool.mapTx.map net.getHash ∧ hash ≠ net.getHash tx := by
      simp only [List.mem_map, mem_eraseTx]
      grind
    rw [hmem, ← h.prevOuts, PoolMaps.eraseTx]
    by_cases hsame : hash = net.getHash tx
    · simp [hsame]
    · simp [hsame]
  packed := by
    intro fkey hfkey
    have herase : (pool.eraseTx net tx).mapPackedFractions fkey =
        if fkey.hash = net.getHash tx ∧ fkey.n < tx.vout.length then none
        else pool.mapPackedFractions fkey := rfl
    rw [herase] at hfkey
    split_ifs at hfkey with hout
    · exact absurd rfl hfkey
    · obtain ⟨other, hother, hhas⟩ := h.packed fkey hfkey
      refine ⟨other, mem_eraseTx.mpr ⟨hother, fun hhash => hout ?_⟩, hhas⟩
      rw [← hsole.hash other hother hhash]
      exact hhas

/-- Removing leaves maps that agree, with some of the transactions. -/
theorem Indexed.remove {fRecursive : Bool} (h : pool.Indexed net)
    (hsame : ∀ found ∈ pool.mapTx, net.getHash found = net.getHash tx → found = tx)
    (hremove : pool.remove net k fRecursive tx = some pool') :
    pool'.Indexed net ∧ pool'.mapTx ⊆ pool.mapTx := by
  induction k generalizing fRecursive tx pool pool' with
  | zero => cases hremove
  | succ k ih =>
    unfold PoolMaps.remove at hremove
    split_ifs at hremove with hfound hrecursive
    · obtain ⟨found, hfind⟩ := Option.isSome_iff_exists.mp hfound
      obtain ⟨hmem, hhash⟩ := CTxMemPool.find_mem hfind
      obtain rfl := hsame found hmem hhash
      obtain ⟨mid, hmid, hlast⟩ := Option.bind_eq_some_iff.mp hremove
      obtain rfl := Option.some.inj hlast
      obtain ⟨hindexed, hsub⟩ : mid.Indexed net ∧ mid.mapTx ⊆ pool.mapTx := by
        refine Run.foldlM_some_invariant
          (P := fun mid : PoolMaps => mid.Indexed net ∧ mid.mapTx ⊆ pool.mapTx) ?_
          ⟨h, List.Subset.refl _⟩ hmid
        rintro i - s s' ⟨hs, hsub⟩ hstep
        split at hstep
        · obtain rfl := Option.some.inj hstep
          exact ⟨hs, hsub⟩
        · obtain ⟨ptx, hptx, hstep⟩ := Option.bind_eq_some_iff.mp hstep
          have hspender := (CTxMemPool.find_mem hptx).1
          obtain ⟨hs', hsub'⟩ := ih hs (fun _ hother hhash => hs.hash_inj hother hspender hhash) hstep
          exact ⟨hs', List.Subset.trans hsub' hsub⟩
      refine ⟨hindexed.eraseTx ((h.sole hmem).mono hsub), fun other hother => ?_⟩
      exact hsub (mem_eraseTx.mp hother).1
    · obtain ⟨found, hfind⟩ := Option.isSome_iff_exists.mp hfound
      obtain ⟨hmem, hhash⟩ := CTxMemPool.find_mem hfind
      obtain rfl := hsame found hmem hhash
      obtain rfl := Option.some.inj hremove
      exact ⟨h.eraseTx (h.sole hmem), fun other hother => (mem_eraseTx.mp hother).1⟩
    · obtain rfl := Option.some.inj hremove
      exact ⟨h, List.Subset.refl _⟩

theorem Indexed.removeStored (h : pool.Indexed net) (htx : tx ∈ pool.mapTx) {fRecursive : Bool}
    (hremove : pool.remove net k fRecursive tx = some pool') : pool'.Indexed net :=
  (h.remove (fun _ hother hhash => h.hash_inj hother htx hhash) hremove).1

theorem Indexed.removeConflicts (h : pool.Indexed net)
    (hremove : pool.removeConflicts net k tx = some pool') : pool'.Indexed net := by
  refine Run.foldlM_some_invariant (P := fun mid : PoolMaps => mid.Indexed net) ?_ h hremove
  rintro txin - s s' hs hstep
  split at hstep
  · obtain rfl := Option.some.inj hstep
    exact hs
  · obtain ⟨txConflict, hfind, hstep⟩ := Option.bind_eq_some_iff.mp hstep
    split_ifs at hstep
    · exact hs.removeStored (CTxMemPool.find_mem hfind).1 hstep
    · obtain rfl := Option.some.inj hstep
      exact hs

/-! ### The review -/

variable (net) in
def OfOutputs (pool : CTxMemPool) (mapPackedFractions : MapFractions) : Prop :=
  ∀ fkey, mapPackedFractions fkey ≠ none → ∃ tx ∈ pool.mapTx, tx.HasOutput net fkey

/-- The review of a transaction and of those that depend on it writes their outputs. -/
theorem reviewTx_ofOutputs {ctx : ReviewContext} {pool : CTxMemPool} {st st' : ReviewState}
    (hst : OfOutputs net pool st.mapPackedFractions)
    (h : reviewTx net votes bp ctx pool k hash st = some st') :
    OfOutputs net pool st'.mapPackedFractions := by
  induction k generalizing hash st st' with
  | zero => cases h
  | succ k ih =>
    rw [reviewTx] at h
    obtain ⟨tx, hfind, h⟩ := Option.bind_eq_some_iff.mp h
    split at h
    · obtain rfl := Option.some.inj h
      exact hst
    · rename_i outs houts
      refine Run.foldlM_some_invariant
        (P := fun st : ReviewState => OfOutputs net pool st.mapPackedFractions)
        (fun next _ s s' hs hstep => ih hs hstep) ?_ h
      intro fkey hfkey
      by_cases hnew : outs fkey = none
      · exact hst fkey (by simpa [hnew] using hfkey)
      · exact ⟨tx, (CTxMemPool.find_mem hfind).1, reviewed_hasOutput houts hnew⟩

theorem Indexed.reviewOnPegChange {ctx : ReviewContext} (h : pool.Indexed net)
    (hreview : pool.reviewOnPegChange net votes bp ctx k = some pool') : pool'.Indexed net := by
  obtain ⟨st, hst, hremove⟩ := Option.bind_eq_some_iff.mp hreview
  have hpacked : OfOutputs net pool.toCTxMemPool st.mapPackedFractions :=
    have hstart : OfOutputs net pool.toCTxMemPool pool.mapPackedFractions := h.packed
    Run.foldlM_some_invariant
      (P := fun st : ReviewState => OfOutputs net pool.toCTxMemPool st.mapPackedFractions)
      (fun root _ s s' hs hstep => reviewTx_ofOutputs hs hstep) hstart hst
  have hreviewed : PoolMaps.Indexed net { pool with mapPackedFractions := st.mapPackedFractions } :=
    { h with packed := hpacked }
  refine Run.foldlM_some_invariant (P := fun mid : PoolMaps => mid.Indexed net) ?_ hreviewed hremove
  rintro found - s s' hs hstep
  split at hstep
  · obtain rfl := Option.some.inj hstep
    exact hs
  · rename_i tx hfind
    exact hs.removeStored (CTxMemPool.find_mem hfind).1 hstep

/-! ### Clearing -/

theorem empty_indexed : PoolMaps.empty.Indexed net where
  keys := List.nodup_nil
  next := by simp [empty]
  prevOuts := by simp [empty]
  packed := by simp [empty]

/-- The maps agree after `clear` if and only if there were no packed fractions. -/
theorem clear_indexed : pool.clear.Indexed net ↔ pool.mapPackedFractions = fun _ => none := by
  constructor
  · intro h
    funext fkey
    by_contra hfkey
    obtain ⟨tx, htx, -⟩ := h.packed fkey hfkey
    cases htx
  · intro hnone
    have hclear : pool.clear = empty := by simp [clear, empty, hnone]
    rw [hclear]
    exact empty_indexed

/-! ### Returning -/

variable (net) in
def Ranked (rank : UInt256 → ℕ) (pool : PoolMaps) : Prop :=
  ∀ tx ∈ pool.mapTx, ∀ inp ∈ tx.vin, ∀ txPrev ∈ pool.mapTx, net.getHash txPrev = inp.prevout.hash →
    rank (net.getHash txPrev) < rank (net.getHash tx)

/-- The recursion of `remove` ends when no transaction depends on itself. -/
theorem Indexed.remove_returns {rank : UInt256 → ℕ} (h : pool.Indexed net)
    (hrank : pool.Ranked net rank) (htx : tx ∈ pool.mapTx)
    (hbound : ∀ other ∈ pool.mapTx, rank (net.getHash other) < rank (net.getHash tx) + k) :
    ∃ pool', pool.remove net k true tx = some pool' := by
  induction k generalizing tx pool with
  | zero => exact absurd (hbound tx htx) (lt_irrefl _)
  | succ k ih =>
    unfold PoolMaps.remove
    split_ifs with hfound hrecursive
    · obtain ⟨mid, hmid, -⟩ := Run.foldlM_some_total (l := List.range tx.vout.length)
        (f := fun pool i => match pool.mapNextTx ⟨net.getHash tx, i⟩ with
          | none => some pool
          | some next => (pool.find net next.1).bind fun ptx => PoolMaps.remove net k true ptx pool)
        (P := fun mid : PoolMaps => mid.Indexed net ∧ mid.mapTx ⊆ pool.mapTx)
        (by
          rintro i - s ⟨hs, hsub⟩
          cases hnext : s.mapNextTx ⟨net.getHash tx, i⟩ with
          | none => exact ⟨s, rfl, hs, hsub⟩
          | some next =>
            obtain ⟨-, ptx, hmem, hhash, inp, hinp, hprevout⟩ := (hs.next _ _ _).mp hnext
            have hfind : s.find net next.1 = some ptx := hhash ▸ hs.find_eq hmem
            -- A spender comes later, so fewer rounds are enough for it.
            have hlater : rank (net.getHash tx) < rank (net.getHash ptx) :=
              hrank ptx (hsub hmem) inp (List.mem_of_getElem? hinp) tx htx (by rw [hprevout])
            obtain ⟨s', hs'⟩ := ih hs
              (fun a ha inp hinp b hb => hrank a (hsub ha) inp hinp b (hsub hb)) hmem
              (fun other hother => by have := hbound other (hsub hother); omega)
            obtain ⟨hindexed, hsub'⟩ :=
              hs.remove (fun _ hother hsame => hs.hash_inj hother hmem hsame) hs'
            exact ⟨s', Option.bind_eq_some_iff.mpr ⟨ptx, hfind, hs'⟩, hindexed,
              List.Subset.trans hsub' hsub⟩)
        ⟨h, List.Subset.refl _⟩
      exact ⟨_, Option.bind_eq_some_iff.mpr ⟨mid, hmid, rfl⟩⟩
    · exact absurd rfl hrecursive
    · exact ⟨pool, rfl⟩

end Calls

end PoolMaps

/-! ## Runs -/

section Runs

variable {net : Params} {votes : VoteParams} {bp : BridgeParams} {steps : List PoolStep}
  {step : PoolStep} {pool : PoolMaps}

/-- A call keeps the maps in agreement, `clear` when there are no packed fractions. -/
theorem PoolStep.Valid.indexed (h : step.Valid net votes bp) (hbefore : step.before.Indexed net)
    (hclear : step.op = .clear → step.before.mapPackedFractions = fun _ => none) :
    step.after.Indexed net := by
  obtain ⟨before, op, after⟩ := step
  obtain ⟨hallowed, rounds, hreturns⟩ := h
  dsimp only at hallowed hreturns hbefore hclear ⊢
  cases op with
  | addUnchecked tx mapInputs mapFractions =>
    obtain rfl := Option.some.inj hreturns
    exact hbefore.addUnchecked hallowed
  | remove tx fRecursive => exact (hbefore.remove hallowed hreturns).1
  | removeConflicts tx => exact hbefore.removeConflicts hreturns
  | reviewOnPegChange ctx => exact hbefore.reviewOnPegChange hreturns
  | clear =>
    obtain rfl := Option.some.inj hreturns
    exact PoolMaps.clear_indexed.mpr (hclear rfl)

theorem PoolRun.valid (h : PoolRun net votes bp steps pool) :
    ∀ step ∈ steps, step.Valid net votes bp := by
  induction h with
  | start => simp
  | call _ hvalid ih =>
    intro step hstep
    rcases List.mem_append.mp hstep with hmem | hmem
    · exact ih step hmem
    · obtain rfl := List.mem_singleton.mp hmem
      exact hvalid

/-- The maps agree after every call of a run. -/
theorem PoolRun.indexed (h : PoolRun net votes bp steps pool)
    (hclear : ∀ step ∈ steps, step.op = .clear → step.before.mapPackedFractions = fun _ => none) :
    pool.Indexed net ∧ ∀ step ∈ steps, step.after.Indexed net := by
  induction h with
  | start => exact ⟨PoolMaps.empty_indexed, by simp⟩
  | @call steps last _ hvalid ih =>
    obtain ⟨hbefore, hafter⟩ := ih fun step hstep => hclear step (List.mem_append_left _ hstep)
    have hlast : last.after.Indexed net :=
      hvalid.indexed hbefore (hclear last (List.mem_append_right _ List.mem_cons_self))
    refine ⟨hlast, fun step hstep => ?_⟩
    rcases List.mem_append.mp hstep with hmem | hmem
    · exact hafter step hmem
    · obtain rfl := List.mem_singleton.mp hmem
      exact hlast

/-- The maps of the pool agree after every call of a run if and only if the pool is never cleared
while it has packed fractions. -/
theorem mempool_indexed_iff (h : PoolRun net votes bp steps pool) :
    (∀ step ∈ steps, step.after.Indexed net) ↔
      ∀ step ∈ steps, step.op = .clear → step.before.mapPackedFractions = fun _ => none := by
  refine ⟨fun hindexed step hstep hop => ?_, fun hclear => (h.indexed hclear).2⟩
  obtain ⟨rounds, hreturns⟩ := (h.valid step hstep).returns
  rw [hop] at hreturns
  have hafter : step.after = step.before.clear := (Option.some.inj hreturns).symm
  have hcleared := hindexed step hstep
  rw [hafter] at hcleared
  exact PoolMaps.clear_indexed.mp hcleared

end Runs

/-! ## A pool that is cleared -/

def heldFractions : MapFractions :=
  Function.update (fun _ => none) ⟨9, 0⟩ (some (CFractions.value 6))

def heldPool : PoolMaps :=
  PoolMaps.empty.addUnchecked sampleNet sampleCall.tx sampleCall.mapInputs heldFractions

def clearedSteps : List PoolStep :=
  [⟨.empty, .addUnchecked sampleCall.tx sampleCall.mapInputs heldFractions, heldPool⟩,
    ⟨heldPool, .clear, heldPool.clear⟩]

theorem held_addable : PoolMaps.empty.Addable sampleNet sampleCall.tx heldFractions where
  checked := by decide
  absent := fun other hother => by cases hother
  unspent := fun _ _ => rfl
  outputs := by
    intro fkey hfkey
    by_cases hkey : fkey = ⟨9, 0⟩
    · subst hkey
      exact ⟨rfl, by decide⟩
    · exact absurd (Function.update_of_ne hkey ..) hfkey

theorem cleared_run :
    PoolRun sampleNet sampleVotes sampleBridgeParams clearedSteps heldPool.clear := by
  have hadded : PoolRun sampleNet sampleVotes sampleBridgeParams (clearedSteps.take 1) heldPool :=
    @PoolRun.call _ _ _ [] ⟨_, _, _⟩ .start ⟨held_addable, 0, rfl⟩
  exact @PoolRun.call _ _ _ _ ⟨heldPool, .clear, heldPool.clear⟩ hadded ⟨trivial, 0, rfl⟩

theorem held_packed : heldPool.mapPackedFractions ⟨9, 0⟩ = some (CFractions.value 6) := rfl

theorem cleared_indexed_iff : (∀ step ∈ clearedSteps, step.after.Indexed sampleNet) ↔
    ∀ step ∈ clearedSteps, step.op = .clear →
      step.before.mapPackedFractions = fun _ => none :=
  mempool_indexed_iff cleared_run

/-- The cleared pool keeps the fractions of the output. -/
theorem cleared_not_indexed :
    PoolRun sampleNet sampleVotes sampleBridgeParams clearedSteps heldPool.clear ∧
      heldPool.clear.mapTx = [] ∧
      heldPool.clear.mapPackedFractions ⟨9, 0⟩ = some (CFractions.value 6) ∧
      ¬ heldPool.clear.Indexed sampleNet := by
  refine ⟨cleared_run, rfl, held_packed, fun h => ?_⟩
  have hnone := congrFun (PoolMaps.clear_indexed.mp h) ⟨9, 0⟩
  rw [held_packed] at hnone
  cases hnone

end BitBay
