import BitBay.Chain.DoubleMint
import BitBay.Chain.FractionEntries

/-!
# Records of the bridge pools

The pool of a bridge is stored with every block, under the hash of the bridge and the height.
A block takes the record of the block below over and adds what was burned. A mint draws from
the pool, but the deducted pool is only handed back among the inputs of the mint: the queued
record stays, and so does what is stored. The records of a chain account for its draws exactly
if there are none.
-/
namespace BitBay

open Run

/-- The pool that is stored for a height; without a record it is empty. -/
def storedPool (pegdb : MapFractions) (brhash : UInt256) (nHeight : ℕ) : Columns :=
  ((pegdb ⟨brhash, nHeight⟩).getD {}).cols

/-! ## Before the transactions -/

section TakeOver

variable {votes : VoteParams} {nBridgeInterval : ℕ} {pegdb : MapFractions} {nHeight : ℕ}
  {brhash : UInt256} {queue queue' : MapFractions} {st st' : BurnState} {fkey : UInt320}

theorem readFractions_optional (f : CFractions) :
    readFractions pegdb fkey f false = some ((pegdb fkey).getD f) := by
  unfold readFractions
  cases pegdb fkey <;> rfl

theorem fetchBridgePool_ok (h : fetchBridgePool pegdb nHeight queue brhash = some queue') :
    queue' = Function.update queue ⟨brhash, nHeight⟩
      (some ((pegdb ⟨brhash, nHeight - 1⟩).getD {}).toStd) := by
  rw [fetchBridgePool, readFractions_optional] at h
  exact (Option.some.inj h).symm

/-- The pools that are taken over. -/
theorem fetchBridgePools_ok {bridges : List UInt256}
    (h : bridges.foldlM (fetchBridgePool pegdb nHeight) queue = some queue') (fkey : UInt320) :
    queue' fkey = if fkey.n = nHeight ∧ fkey.hash ∈ bridges then
        some ((pegdb ⟨fkey.hash, nHeight - 1⟩).getD {}).toStd
      else queue fkey := by
  induction bridges generalizing queue with
  | nil =>
    cases h
    simp
  | cons brhash rest ih =>
    rw [List.foldlM_cons, Option.bind_eq_bind, Option.bind_eq_some_iff] at h
    obtain ⟨mid, hfirst, hrest⟩ := h
    rw [ih hrest, fetchBridgePool_ok hfirst]
    by_cases hsame : fkey = ⟨brhash, nHeight⟩
    · subst hsame
      simp
    · rw [Function.update_of_ne hsame]
      have hkey : ¬ (fkey.n = nHeight ∧ fkey.hash = brhash) := by
        rintro ⟨rfl, rfl⟩
        exact hsame rfl
      split_ifs with h1 h2 h2
      · rfl
      · exact absurd ⟨h1.1, List.mem_cons_of_mem _ h1.2⟩ h2
      · rcases List.mem_cons.mp h2.2 with heq | hmem
        · exact absurd ⟨h2.1, heq⟩ hkey
        · exact absurd ⟨h2.1, hmem⟩ h1
      · rfl

/-- Where collecting the burns stands: the pools taken over are kept, other entries are the
empty pools of new bridges, and the burned fractions are added up. -/
structure Collecting (nHeight : ℕ) (queue : MapFractions) (st : BurnState) : Prop where
  nodup : st.bridge_hashes.Nodup
  opened : ∀ brhash ∈ st.bridge_hashes, (st.mapQueuedFractionsChanges ⟨brhash, nHeight⟩).isSome
  entries : ∀ fkey, st.mapQueuedFractionsChanges fkey = queue fkey ∨ queue fkey = none ∧
    fkey.n = nHeight ∧ st.mapQueuedFractionsChanges fkey = some {}

theorem Collecting.openBridgePool (h : Collecting nHeight queue st) (bridge : BridgeEntry) :
    Collecting nHeight queue (openBridgePool nHeight st bridge) := by
  unfold BitBay.openBridgePool
  split_ifs with hthere hqueued
  · exact h
  · refine ⟨?_, ?_, h.entries⟩
    · exact List.nodup_append.mpr ⟨h.nodup, List.nodup_singleton _, fun a ha b hb heq =>
        hthere (List.mem_singleton.mp hb ▸ heq ▸ ha)⟩
    · intro brhash hmem
      rcases List.mem_append.mp hmem with hmem | hmem
      · exact h.opened brhash hmem
      · rw [List.mem_singleton.mp hmem]
        exact hqueued
  · refine ⟨?_, ?_, ?_⟩
    · exact List.nodup_append.mpr ⟨h.nodup, List.nodup_singleton _, fun a ha b hb heq =>
        hthere (List.mem_singleton.mp hb ▸ heq ▸ ha)⟩
    · intro brhash hmem
      dsimp only
      by_cases hsame : brhash = bridge.hash
      · rw [hsame, Function.update_self]
        rfl
      · rw [Function.update_of_ne fun heq => hsame (congrArg UInt320.hash heq)]
        rcases List.mem_append.mp hmem with hmem | hmem
        · exact h.opened brhash hmem
        · exact absurd (List.mem_singleton.mp hmem) hsame
    · intro fkey
      dsimp only
      by_cases hsame : fkey = ⟨bridge.hash, nHeight⟩
      · subst hsame
        rw [Function.update_self]
        rcases h.entries ⟨bridge.hash, nHeight⟩ with hkept | ⟨-, -, hnew⟩
        · rw [hkept] at hqueued
          exact Or.inr ⟨Option.not_isSome_iff_eq_none.mp hqueued, rfl, rfl⟩
        · rw [hnew] at hqueued
          exact absurd rfl hqueued
      · rw [Function.update_of_ne hsame]
        exact h.entries fkey

theorem Collecting.openBridgePools (h : Collecting nHeight queue st) (bridges : List BridgeEntry) :
    Collecting nHeight queue (bridges.foldl (BitBay.openBridgePool nHeight) st) := by
  induction bridges generalizing st with
  | nil => exact h
  | cons bridge rest ih => exact ih (h.openBridgePool bridge)

theorem Collecting.readBridges (h : Collecting nHeight queue st) (bridges : List BridgeEntry) :
    Collecting nHeight queue (BitBay.readBridges nHeight st bridges) := by
  unfold BitBay.readBridges
  apply Collecting.openBridgePools
  exact ⟨h.nodup, h.opened, h.entries⟩

theorem addBridgeBurns_collecting {block : BurnBlock} {bridge : BridgeEntry}
    (h : Collecting nHeight queue st) (hadd : addBridgeBurns pegdb block st bridge = some st') :
    Collecting nHeight queue st' := by
  unfold addBridgeBurns at hadd
  split_ifs at hadd
  · cases hadd
    exact h
  split at hadd
  · cases hadd
  refine foldlM_some_invariant (P := Collecting nHeight queue) ?_ h hadd
  intro fkey _ mid next hmid hstep
  unfold addBurn at hstep
  split at hstep
  · cases hstep
  · cases hstep
    exact ⟨hmid.nodup, hmid.opened, hmid.entries⟩

theorem collectBurns_collecting {cycle : List BurnBlock}
    (h : collectBurns pegdb nHeight cycle queue = some st) : Collecting nHeight queue st := by
  refine foldlM_some_invariant (P := Collecting nHeight queue) ?_ ?_ h
  · intro block _ mid next hmid hstep
    unfold addBlockBurns at hstep
    have hread : Collecting nHeight queue
        ((block.bridges.map (BitBay.readBridges nHeight mid)).getD mid) := by
      cases block.bridges with
      | none => exact hmid
      | some bridges => exact hmid.readBridges bridges
    exact foldlM_some_invariant (P := Collecting nHeight queue)
      (fun bridge _ st st' hst hadd => addBridgeBurns_collecting hst hadd) hread hstep
  · refine ⟨List.nodup_nil, ?_, fun _ => Or.inl rfl⟩
    intro brhash hmem
    cases hmem

def BurnState.added (st : BurnState) (brhash : UInt256) : Columns :=
  if brhash ∈ st.bridge_hashes then (st.bridges_burn_fractions brhash).elim 0 CFractions.cols else 0

theorem transitBurns_ok {burned : UInt256 → Option CFractions}
    (h : transitBurns nHeight burned queue brhash = some queue') :
    ∃ fr pool : CFractions, queue ⟨brhash, nHeight⟩ = some fr ∧
      queue' = Function.update queue ⟨brhash, nHeight⟩ (some pool) ∧
      pool.nFlags.std = true ∧
      pool.cols = fr.cols + (burned brhash).elim 0 CFractions.cols := by
  unfold transitBurns at h
  split at h
  · cases h
  · rename_i fr hfr
    obtain rfl := Option.some.inj h
    refine ⟨fr, _, hfr, rfl, ?_, ?_⟩
    · cases burned brhash <;> rfl
    · cases burned brhash with
      | none => simp
      | some b => simp

/-- The burns go to the pools of their bridges, once each. -/
theorem transitAll_ok {burned : UInt256 → Option CFractions} {hashes : List UInt256}
    (hnodup : hashes.Nodup)
    (h : hashes.foldlM (transitBurns nHeight burned) queue = some queue') (fkey : UInt320) :
    (fkey.n = nHeight ∧ fkey.hash ∈ hashes → ∃ fr pool : CFractions, queue fkey = some fr ∧
      queue' fkey = some pool ∧ pool.nFlags.std = true ∧
      pool.cols = fr.cols + (burned fkey.hash).elim 0 CFractions.cols) ∧
    (¬ (fkey.n = nHeight ∧ fkey.hash ∈ hashes) → queue' fkey = queue fkey) := by
  induction hashes generalizing queue with
  | nil =>
    cases h
    simp
  | cons brhash rest ih =>
    rw [List.foldlM_cons, Option.bind_eq_bind, Option.bind_eq_some_iff] at h
    obtain ⟨mid, hfirst, hrest⟩ := h
    obtain ⟨hnot, hnodup⟩ := List.nodup_cons.mp hnodup
    obtain ⟨fr, pool, hfr, rfl, hstd, hpool⟩ := transitBurns_ok hfirst
    obtain ⟨hin, hout⟩ := ih hnodup hrest
    by_cases hsame : fkey = ⟨brhash, nHeight⟩
    · subst hsame
      have hkept := hout fun hmem => hnot hmem.2
      rw [Function.update_self] at hkept
      exact ⟨fun _ => ⟨fr, pool, hfr, hkept, hstd, hpool⟩,
        fun hne => absurd ⟨rfl, List.mem_cons_self⟩ hne⟩
    · have hmem : fkey.n = nHeight ∧ fkey.hash ∈ brhash :: rest ↔
          fkey.n = nHeight ∧ fkey.hash ∈ rest := by
        refine and_congr_right fun hn => ?_
        rw [List.mem_cons, or_iff_right]
        rintro rfl
        exact hsame (by rw [← hn])
      rw [hmem, ← Function.update_of_ne hsame (some pool) queue]
      exact ⟨hin, hout⟩

/-- No bridge gets a negative amount. -/
def BurnState.Nonneg (st : BurnState) : Prop :=
  ∀ brhash fr, st.bridges_burn_fractions brhash = some fr → fr.Nonneg

theorem readBridges_burned (bridges : List BridgeEntry) :
    (BitBay.readBridges nHeight st bridges).bridges_burn_fractions = st.bridges_burn_fractions := by
  unfold BitBay.readBridges
  have hloop : ∀ (l : List BridgeEntry) (st : BurnState),
      (l.foldl (BitBay.openBridgePool nHeight) st).bridges_burn_fractions =
        st.bridges_burn_fractions := by
    intro l
    induction l with
    | nil => exact fun _ => rfl
    | cons bridge rest ih =>
      intro st
      rw [List.foldl_cons, ih]
      unfold BitBay.openBridgePool
      split_ifs <;> rfl
  exact hloop _ _

theorem addBurn_nonneg (hpegdb : pegdb.Nonneg) (hst : st.Nonneg)
    (h : addBurn pegdb brhash st fkey = some st') : st'.Nonneg := by
  unfold addBurn at h
  split at h
  · cases h
  rename_i fractions hread
  have hfractions : fractions.Nonneg := by
    unfold readFractions at hread
    cases hfound : pegdb fkey with
    | none => simp [hfound] at hread
    | some fr =>
      rw [hfound] at hread
      obtain rfl := Option.some.inj hread
      exact hpegdb fkey _ hfound
  have hbefore : ((st.bridges_burn_fractions brhash).getD {}).Nonneg := by
    cases hfound : st.bridges_burn_fractions brhash with
    | none => exact CFractions.nonneg_default
    | some fr => exact hst brhash fr hfound
  obtain rfl := Option.some.inj h
  intro key fr hfr
  dsimp only at hfr
  by_cases hsame : key = brhash
  · subst hsame
    rw [Function.update_self] at hfr
    obtain rfl := Option.some.inj hfr
    exact hbefore.add (hfractions.of_cols (CFractions.cols_toStd _))
  · rw [Function.update_of_ne hsame] at hfr
    exact hst key fr hfr

/-- The burned fractions are not negative when those that are stored are not. -/
theorem collectBurns_nonneg {cycle : List BurnBlock} (hpegdb : pegdb.Nonneg)
    (h : collectBurns pegdb nHeight cycle queue = some st) : st.Nonneg := by
  refine foldlM_some_invariant (P := BurnState.Nonneg) ?_ ?_ h
  · intro block _ mid next hmid hstep
    unfold addBlockBurns at hstep
    have hread : BurnState.Nonneg
        ((block.bridges.map (BitBay.readBridges nHeight mid)).getD mid) := by
      cases block.bridges with
      | none => exact hmid
      | some bridges =>
        intro key fr hfr
        rw [Option.map_some, Option.getD_some, readBridges_burned] at hfr
        exact hmid key fr hfr
    refine foldlM_some_invariant (P := BurnState.Nonneg) ?_ hread hstep
    intro bridge _ st st' hst hadd
    unfold addBridgeBurns at hadd
    split_ifs at hadd
    · cases hadd
      exact hst
    split at hadd
    · cases hadd
    · exact foldlM_some_invariant (P := BurnState.Nonneg)
        (fun fkey _ st st' hst hadd => addBurn_nonneg hpegdb hst hadd) hst hadd
  · intro key fr hfr
    cases hfr

end TakeOver

/-! ## The pool that the transactions find -/

section Pools

variable (votes : VoteParams) (nBridgeInterval : ℕ) (ctx : BlockContext) (pegdb : MapFractions)
  (nHeight : ℕ)

def burnedForBridge (brhash : UInt256) : Columns :=
  if nHeight + 1 < votes.nPegStartHeight ∨ nHeight % nBridgeInterval ≠ 0 then 0
  else
    match fetchBridgePoolsFractions votes pegdb nHeight ctx.poolBridges fun _ => none with
    | none => 0
    | some queue =>
      (collectBurns pegdb nHeight ctx.burnCycle queue).elim 0 fun st => st.added brhash

variable {votes nBridgeInterval ctx pegdb nHeight} {queue : MapFractions} {brhash : UInt256}

structure PoolsReady (votes : VoteParams) (nBridgeInterval : ℕ) (ctx : BlockContext)
    (pegdb : MapFractions) (nHeight : ℕ) (queue : MapFractions) : Prop where
  pool : ∀ brhash ∈ ctx.poolBridges, votes.nPegStartHeight ≤ nHeight + 1 →
    ∃ fr, queue ⟨brhash, nHeight⟩ = some fr ∧
      fr.cols = storedPool pegdb brhash (nHeight - 1) +
        burnedForBridge votes nBridgeInterval ctx pegdb nHeight brhash
  keys : ∀ fkey, (queue fkey).isSome → fkey.n = nHeight ∧ votes.nPegStartHeight ≤ nHeight + 1
  clean : pegdb.Nonneg → queue.Clean

theorem storedPool_nonneg (h : pegdb.Nonneg) (brhash : UInt256) (n : ℕ) (c : Fin PEG_SIZE) :
    0 ≤ storedPool pegdb brhash n c := by
  unfold storedPool
  cases hfound : pegdb ⟨brhash, n⟩ with
  | none => exact CFractions.nonneg_default c
  | some fr => exact h _ fr hfound c

theorem taken_nonneg (h : pegdb.Nonneg) (brhash : UInt256) (n : ℕ) :
    ((pegdb ⟨brhash, n⟩).getD {}).toStd.Nonneg := by
  intro c
  rw [CFractions.cols_toStd]
  exact storedPool_nonneg h brhash n c

theorem bridgePools_ok (h : bridgePools votes nBridgeInterval ctx pegdb nHeight = some queue) :
    PoolsReady votes nBridgeInterval ctx pegdb nHeight queue := by
  unfold bridgePools at h
  obtain ⟨taken, htaken, h⟩ := Option.bind_eq_some_iff.mp h
  unfold connectBridgeCycleBurns at h
  by_cases hstart : nHeight + 1 < votes.nPegStartHeight
  · rw [fetchBridgePoolsFractions, if_pos hstart] at htaken
    rw [if_pos (Or.inl hstart)] at h
    cases htaken
    cases h
    refine ⟨fun _ _ hle => absurd hle (not_le.mpr hstart), ?_, ?_⟩
    · intro fkey hsome
      cases hsome
    · intro _ fkey fr hfr
      cases hfr
  have hfetch := htaken
  rw [fetchBridgePoolsFractions, if_neg hstart] at htaken
  have hqueue := fetchBridgePools_ok htaken
  have hpool : ∀ brhash ∈ ctx.poolBridges,
      taken ⟨brhash, nHeight⟩ = some ((pegdb ⟨brhash, nHeight - 1⟩).getD {}).toStd := by
    intro brhash hmem
    rw [hqueue, if_pos ⟨rfl, hmem⟩]
  have hkeys : ∀ fkey, (taken fkey).isSome → fkey.n = nHeight := by
    intro fkey hsome
    rw [hqueue] at hsome
    split_ifs at hsome with hmem
    · exact hmem.1
    · cases hsome
  have hclean : pegdb.Nonneg → taken.Clean := by
    intro hpegdb fkey fr hfr
    rw [hqueue] at hfr
    split_ifs at hfr
    obtain rfl := Option.some.inj hfr
    exact ⟨Or.inl rfl, taken_nonneg hpegdb _ _⟩
  by_cases hcycle : nHeight % nBridgeInterval ≠ 0
  · rw [if_pos (Or.inr hcycle)] at h
    cases h
    refine ⟨fun brhash hmem _ => ⟨_, hpool brhash hmem, ?_⟩,
      fun fkey hsome => ⟨hkeys fkey hsome, not_lt.mp hstart⟩, hclean⟩
    rw [burnedForBridge, if_pos (Or.inr hcycle), add_zero, CFractions.cols_toStd]
    rfl
  rw [if_neg (by simp only [not_or]; exact ⟨hstart, hcycle⟩)] at h
  obtain ⟨st, hst, h⟩ := Option.bind_eq_some_iff.mp h
  have hcollect := collectBurns_collecting hst
  have htransit := transitAll_ok hcollect.nodup h
  have hadded : ∀ brhash, burnedForBridge votes nBridgeInterval ctx pegdb nHeight brhash =
      st.added brhash := by
    intro brhash
    rw [burnedForBridge, if_neg (by simp only [not_or]; exact ⟨hstart, hcycle⟩), hfetch]
    simp only [hst, Option.elim_some]
  refine ⟨fun brhash hmem _ => ?_, fun fkey hsome => ⟨?_, not_lt.mp hstart⟩, fun hpegdb => ?_⟩
  · have hkept : st.mapQueuedFractionsChanges ⟨brhash, nHeight⟩ =
        some ((pegdb ⟨brhash, nHeight - 1⟩).getD {}).toStd := by
      rcases hcollect.entries ⟨brhash, nHeight⟩ with hsame | ⟨hnone, -⟩
      · rw [hsame, hpool brhash hmem]
      · rw [hpool brhash hmem] at hnone
        cases hnone
    obtain ⟨hin, hout⟩ := htransit ⟨brhash, nHeight⟩
    rw [hadded, BurnState.added]
    by_cases hthere : brhash ∈ st.bridge_hashes
    · obtain ⟨fr, pool, hfr, hfound, -, hcols⟩ := hin ⟨rfl, hthere⟩
      obtain rfl := Option.some.inj (hkept.symm.trans hfr)
      exact ⟨pool, hfound, by rw [hcols, if_pos hthere, CFractions.cols_toStd]; rfl⟩
    · refine ⟨_, (hout fun hmem => hthere hmem.2).trans hkept, ?_⟩
      rw [if_neg hthere, add_zero, CFractions.cols_toStd]
      rfl
  · obtain ⟨hin, hout⟩ := htransit fkey
    by_cases hmem : fkey.n = nHeight ∧ fkey.hash ∈ st.bridge_hashes
    · exact hmem.1
    · rw [hout hmem] at hsome
      rcases hcollect.entries fkey with hsame | ⟨-, hn, -⟩
      · rw [hsame] at hsome
        exact hkeys fkey hsome
      · exact hn
  · have hentries : ∀ fkey fr, st.mapQueuedFractionsChanges fkey = some fr →
        fr.Filled ∧ fr.Nonneg := by
      intro fkey fr hfr
      rcases hcollect.entries fkey with hsame | ⟨-, -, hnew⟩
      · exact hclean hpegdb fkey fr (hsame ▸ hfr)
      · rw [hnew] at hfr
        obtain rfl := Option.some.inj hfr
        exact ⟨CFractions.filled_default, CFractions.nonneg_default⟩
    intro fkey fr hfr
    obtain ⟨hin, hout⟩ := htransit fkey
    by_cases hmem : fkey.n = nHeight ∧ fkey.hash ∈ st.bridge_hashes
    · obtain ⟨before, pool, hbefore, hfound, hstd, hcols⟩ := hin hmem
      obtain rfl := Option.some.inj (hfound.symm.trans hfr)
      refine ⟨Or.inl hstd, fun c => ?_⟩
      rw [hcols, Pi.add_apply]
      refine add_nonneg ((hentries fkey before hbefore).2 c) ?_
      cases hburned : st.bridges_burn_fractions fkey.hash with
      | none => exact le_rfl
      | some b => exact collectBurns_nonneg hpegdb hst _ b hburned c
    · rw [hout hmem] at hfr
      exact hentries fkey fr hfr

end Pools

/-! ## Draws -/

section Draws

variable (net : Params) (votes : VoteParams) (bp : BridgeParams) (rules : BlockRules)
  (ctx : BlockContext) (st : Stores) (place : BlockPlace) (disk : DiskBlock) (brhash : UInt256)

def mintBridge (tx : CTransaction) : Option (MintSigScript × CBridgeInfo) :=
  match tx.vin with
  | [_, leafIn] => do
    let m ← decodeAndValidateMintSigScript bp leafIn.scriptSig
    let merkle_root ← computeMintMerkleRoot bp m.leaf m.proofs
    let merkle ← ctx.fnMerkleIn merkle_root
    let bridge ← ctx.bridges merkle.brhash
    return (m, bridge)
  | _ => none

def drawsFrom (tx : CTransaction) : Bool :=
  tx.isCoinMint ∧ (mintBridge bp ctx tx).any fun r => setHex r.2.hash = brhash

def drawnByTx (s : BlockState) (tx : CTransaction) : Columns :=
  if drawsFrom bp ctx brhash tx then
    ((mintBridge bp ctx tx).bind fun r =>
      (s.mapQueuedFractionsChanges ⟨brhash, place.nHeight⟩).bind fun pool =>
        r.2.decompress r.1 pool).elim 0 CFractions.cols
  else 0

/-- What is taken for transactions that are connected one after the other. -/
def drawnByTxs : BlockState → List (CTransaction × ℕ) → Columns
  | _, [] => 0
  | s, a :: rest => drawnByTx bp ctx place brhash s a.1 +
      (connectTx net votes bp rules ctx st place disk s a).elim 0 fun s => drawnByTxs s rest

variable {net votes bp rules ctx st place disk brhash} {s s' : BlockState} {tx : CTransaction}
  {i : ℕ}

theorem drawnByTx_of_not (h : drawsFrom bp ctx brhash tx = false) :
    drawnByTx bp ctx place brhash s tx = 0 := by
  simp [drawnByTx, h]

/-- A connected mint draws more than nothing. -/
theorem drawnByTx_pos (hdraws : drawsFrom bp ctx brhash tx = true)
    (hnodup : (tx.vin.map (·.prevout)).Nodup)
    (h : connectTx net votes bp rules ctx st place disk s (tx, i) = some s') :
    0 < ∑ c, drawnByTx bp ctx place brhash s tx c := by
  have hparts := hdraws
  simp only [drawsFrom, Bool.decide_and, Bool.and_eq_true, decide_eq_true_eq] at hparts
  obtain ⟨hmint, hbridge⟩ := hparts
  obtain ⟨inputsRet, base, leafIn, out, req, frBridgePool, frDeduct, hfetched, -, hle⟩ :=
    connectTx_mint hmint hnodup h
  have hvin : tx.vin = [base, leafIn] := hfetched.vin
  obtain ⟨hm, merkle_root, hroot, hmerkle, hinfo⟩ := readMintRequest_ok hfetched.request
  have hmerkle : ctx.fnMerkleIn merkle_root = some req.merkle := hmerkle
  have hinfo : ctx.bridges req.merkle.brhash = some req.bridge := hinfo
  have hnamed : mintBridge bp ctx tx = some (req.m, req.bridge) := by
    simp only [mintBridge, hvin, hm, hroot, hmerkle, hinfo, Option.bind_eq_bind,
      Option.bind_some, pure]
  have hhash : setHex req.bridge.hash = brhash := by
    rw [hnamed] at hbridge
    simpa using hbridge
  have hpool : s.mapQueuedFractionsChanges ⟨brhash, place.nHeight⟩ = some frBridgePool := by
    rw [← hhash]
    rcases readBridgePool_ok hfetched.pool with htest | ⟨hmust, -⟩
    · exact htest
    · cases hmust
  have hdrawn : drawnByTx bp ctx place brhash s tx = frDeduct.cols := by
    rw [drawnByTx, if_pos hdraws, hnamed, Option.bind_some, hpool, Option.bind_some, hfetched.draw,
      Option.elim_some]
  have hne := hfetched.total_ne
  have htotal := hfetched.total_eq
  rw [hdrawn, ← CFractions.total_eq_sum]
  omega

/-- Connected transactions draw nothing from a bridge if there is no mint of it among them,
and more than nothing else. -/
theorem drawnByTxs_cases {l : List (CTransaction × ℕ)}
    (hnodup : ∀ a ∈ l, (a.1.vin.map (·.prevout)).Nodup)
    (h : l.foldlM (connectTx net votes bp rules ctx st place disk) s = some s') :
    (∀ a ∈ l, drawsFrom bp ctx brhash a.1 = false) ∧
        drawnByTxs net votes bp rules ctx st place disk brhash s l = 0 ∨
      (∃ a ∈ l, drawsFrom bp ctx brhash a.1 = true) ∧
        0 < ∑ c, drawnByTxs net votes bp rules ctx st place disk brhash s l c := by
  induction l generalizing s with
  | nil =>
    left
    refine ⟨?_, rfl⟩
    intro a ha
    cases ha
  | cons a rest ih =>
    rw [List.foldlM_cons, Option.bind_eq_bind, Option.bind_eq_some_iff] at h
    obtain ⟨mid, hfirst, hrest⟩ := h
    have hsplit : drawnByTxs net votes bp rules ctx st place disk brhash s (a :: rest) =
        drawnByTx bp ctx place brhash s a.1 +
          drawnByTxs net votes bp rules ctx st place disk brhash mid rest := by
      rw [drawnByTxs, hfirst, Option.elim_some]
    have hsum : ∑ c, drawnByTxs net votes bp rules ctx st place disk brhash s (a :: rest) c =
        ∑ c, drawnByTx bp ctx place brhash s a.1 c +
          ∑ c, drawnByTxs net votes bp rules ctx st place disk brhash mid rest c := by
      rw [hsplit, ← Finset.sum_add_distrib]
      rfl
    have hrest := ih (fun b hb => hnodup b (List.mem_cons_of_mem a hb)) hrest
    cases hdraws : drawsFrom bp ctx brhash a.1 with
    | false =>
      have hzero : drawnByTx bp ctx place brhash s a.1 = 0 := drawnByTx_of_not hdraws
      rcases hrest with ⟨hnone, hnothing⟩ | ⟨⟨b, hb, hmint⟩, hpos⟩
      · left
        refine ⟨fun b hb => ?_, by rw [hsplit, hzero, hnothing, add_zero]⟩
        rcases List.mem_cons.mp hb with rfl | hb
        · exact hdraws
        · exact hnone b hb
      · right
        refine ⟨⟨b, List.mem_cons_of_mem a hb, hmint⟩, ?_⟩
        rw [hsum, hzero]
        simpa using hpos
    | true =>
      have hfirst_pos := drawnByTx_pos hdraws (hnodup a List.mem_cons_self) hfirst
      right
      refine ⟨⟨a, List.mem_cons_self, hdraws⟩, ?_⟩
      rw [hsum]
      rcases hrest with ⟨-, hnothing⟩ | ⟨-, hpos⟩
      · simpa [hnothing] using hfirst_pos
      · exact add_pos hfirst_pos hpos

end Draws

/-! ## Chains -/

section Model

variable (net : Params) (votes : VoteParams) (bp : BridgeParams) (rules : BlockRules)
  (nBridgeInterval : ℕ) (brhash : UInt256)

def BlockStep.burned (step : BlockStep) : Columns :=
  burnedForBridge votes nBridgeInterval step.ctx step.before.pegdb step.entry.pindex.nHeight brhash

def BlockStep.drawn (step : BlockStep) : Columns :=
  ((calculateBlockPegIndex votes (step.chain.map (·.pindex))).bind fun nPegSupplyIndex =>
    let place := nextPlace step.chain step.disk nPegSupplyIndex
    (bridgePools votes nBridgeInterval step.ctx step.before.pegdb place.nHeight).map fun queue =>
      drawnByTxs net votes bp rules step.ctx step.before place step.disk brhash
        (loopStart rules step.disk queue) step.disk.block.vtx.zipIdx).getD 0

/-- The record of a block is the one of the block below with the burns and without the draws. -/
def BlockStep.Accounts (step : BlockStep) : Prop :=
  storedPool step.after.pegdb brhash step.entry.pindex.nHeight =
    storedPool step.before.pegdb brhash (step.entry.pindex.nHeight - 1) +
      step.burned votes nBridgeInterval brhash - step.drawn net votes bp rules nBridgeInterval brhash

/-- A hash of a bridge's name is neither zero nor the hash of a transaction. -/
structure BridgeName : Prop where
  not_tx : ∀ tx, net.getHash tx ≠ brhash
  ne_zero : brhash ≠ 0

/-- A chain and its stores before the blocks: the hash of the bridge occurs in its records
only, which the blocks below have left, and no fractions are negative. -/
structure PoolBase (chain : List ChainEntry) (st : Stores) : Prop where
  nonempty : chain ≠ []
  inputs : ∀ e ∈ chain, ∀ tx ∈ e.disk.block.vtx, ∀ inp ∈ tx.vin, inp.prevout.hash = brhash →
    inp.prevout.n < 2
  index : ∀ txindex, st.txdb brhash = some txindex → txindex.vSpent.length ≤ 2
  records : ∀ n, (st.pegdb ⟨brhash, n⟩).isSome →
    n < nextHeight (chain.map (·.pindex)) ∧ votes.nPegStartHeight ≤ n + 1
  nonneg : st.pegdb.Nonneg

end Model

section Chains

variable {net : Params} {votes : VoteParams} {bp : BridgeParams} {rules : BlockRules}
  {nBridgeInterval : ℕ} {brhash : UInt256} {ctx : BlockContext} {st st' start : Stores}
  {place : BlockPlace} {disk : DiskBlock} {chain below : List ChainEntry} {entry : ChainEntry}
  {queue : MapFractions} {s done : BlockState} {steps : List BlockStep}

/-- A made up entry is the only one that the index can have for a bridge. -/
def ShortAt (brhash hash : UInt256) (txindex : CTxIndex) : Prop :=
  hash = brhash → txindex.vSpent.length ≤ 2

theorem BridgeName.shortAt (hname : BridgeName net brhash) : EntryInvariant net (ShortAt brhash) where
  created := fun tx _ _ _ _ hsame => absurd hsame (hname.not_tx tx)
  spent := by
    intro hash txindex pos ns h hsame
    rw [CTxIndex.spent, length_foldl_set]
    exact h hsame
  madeUp := fun _ _ hmade _ => hmade.2.2

/-- An input of a connected block does not refer to the records of a bridge. -/
theorem ConnectedBy.inputs (hname : BridgeName net brhash) (hst : st.txdb.All (ShortAt brhash))
    (h : ConnectedBy net votes bp rules nBridgeInterval ctx st chain disk place queue s done st'
      entry) :
    ∀ tx ∈ disk.block.vtx, ∀ inp ∈ tx.vin, inp.prevout.hash = brhash → inp.prevout.n < 2 := by
  intro tx htx inp hinp hsame
  obtain ⟨i, hi⟩ := List.getElem?_of_mem htx
  obtain ⟨before, rest, mid, next, -, hbefore, hstep⟩ := foldlM_some_at
    ((List.mem_zipIdx_iff_getElem? (x := (tx, i))).mpr hi) h.txs
  cases hbase : tx.isCoinBase with
  | true =>
    -- The only input of a coinbase has the hash zero.
    simp only [CTransaction.isCoinBase, Bool.decide_and, Bool.and_eq_true, decide_eq_true_eq] at hbase
    obtain ⟨hlength, hnull, -⟩ := hbase
    obtain ⟨base, hvin⟩ := List.length_eq_one_iff.mp hlength
    rw [hvin] at hinp hnull
    obtain rfl := List.mem_singleton.mp hinp
    simp only [List.head?_cons, Option.any_some, COutPoint.isNull, Bool.decide_and, Bool.and_eq_true,
      decide_eq_true_eq] at hnull
    exact absurd (hsame.symm.trans hnull.1) hname.ne_zero
  | false =>
    cases hmint : tx.isCoinMint with
    | true =>
      rw [isCoinMint_prevout hmint hinp]
      exact Nat.two_pos
    | false =>
      obtain ⟨txindex, hfound, hlt⟩ := connectTx_spends hbase hmint hstep hinp
      have hshort := (connectTxs_all hname.shortAt hst hbefore).1 _ _ hfound hsame
      omega

/-- Pruning spares the records of the bridges. -/
theorem prunePeg_record {fPegPruneEnabled : Bool} {pegdb : MapFractions} {nHeight : ℕ}
    (hname : BridgeName net brhash)
    (hinputs : ∀ e ∈ chain, ∀ tx ∈ e.disk.block.vtx, ∀ inp ∈ tx.vin, inp.prevout.hash = brhash →
      inp.prevout.n < 2) :
    prunePeg net votes fPegPruneEnabled chain nHeight pegdb ⟨brhash, nHeight⟩ =
      pegdb ⟨brhash, nHeight⟩ := by
  unfold prunePeg
  split_ifs
  · cases hblock : blockToPrune votes chain nHeight with
    | none => rfl
    | some block =>
      rw [Option.map_some, Option.getD_some, prunePegForBlock, if_neg]
      unfold blockToPrune at hblock
      split_ifs at hblock with hearly
      obtain ⟨e, he, rfl⟩ := Option.map_eq_some_iff.mp hblock
      have hmem : e ∈ chain := (List.dropWhile_suffix _).subset (List.mem_of_mem_head? he)
      simp only [pruneErases, List.any_eq_true, decide_eq_true_eq]
      rintro ⟨tx, htx, ⟨inp, hinp, hkey⟩ | ⟨-, hsame, -⟩⟩
      · have hlt := hinputs e hmem tx htx inp hinp (congrArg UInt320.hash hkey)
        have hn : inp.prevout.n = nHeight := congrArg UInt320.n hkey
        simp only [PEG_PRUNE_INTERVAL, not_or, not_le] at hearly
        omega
      · exact hname.not_tx tx hsame.symm
  · rfl

theorem prunePeg_some {fPegPruneEnabled : Bool} {pegdb : MapFractions} {nHeight : ℕ}
    {fkey : UInt320} {fr : CFractions}
    (h : prunePeg net votes fPegPruneEnabled chain nHeight pegdb fkey = some fr) :
    pegdb fkey = some fr := by
  unfold prunePeg at h
  split_ifs at h
  · cases hblock : blockToPrune votes chain nHeight with
    | none =>
      rw [hblock] at h
      exact h
    | some block =>
      rw [hblock, Option.map_some, Option.getD_some, prunePegForBlock] at h
      split_ifs at h
      exact h
  · exact h

theorem ConnectedBy.nHeight (h : ConnectedBy net votes bp rules nBridgeInterval ctx st chain disk
      place queue s done st' entry) : place.nHeight = nextHeight (chain.map (·.pindex)) := by
  obtain ⟨nPegSupplyIndex, -, rfl⟩ := h.place_eq
  rfl

/-- A queued record of a bridge is what the block began with. -/
theorem ConnectedBy.queued (hname : BridgeName net brhash)
    (h : ConnectedBy net votes bp rules nBridgeInterval ctx st chain disk place queue s done st'
      entry) (n : ℕ) : done.mapQueuedFractionsChanges ⟨brhash, n⟩ = queue ⟨brhash, n⟩ :=
  h.entries.other _ fun tx _ hsame => hname.not_tx tx hsame.symm

/-- A connected block stores no negative columns. -/
theorem ConnectedBy.pegdb_nonneg (hst : st.pegdb.Nonneg)
    (h : ConnectedBy net votes bp rules nBridgeInterval ctx st chain disk place queue s done st'
      entry) : st'.pegdb.Nonneg := by
  intro fkey fr hfr
  rw [h.pegdb] at hfr
  have hfr := prunePeg_some hfr
  have hclean := h.entries.clean ((bridgePools_ok h.pools).clean hst)
  cases hqueue : done.mapQueuedFractionsChanges fkey with
  | none =>
    rw [overlay_of_none hqueue] at hfr
    exact hst fkey fr hfr
  | some found =>
    rw [overlay_of_some hqueue] at hfr
    obtain rfl := Option.some.inj hfr
    exact (hclean fkey _ hqueue).2

/-- A connected block keeps what its successor needs. -/
theorem ConnectedBy.poolBase (hname : BridgeName net brhash)
    (hbase : PoolBase votes brhash chain st)
    (h : ConnectedBy net votes bp rules nBridgeInterval ctx st chain disk place queue s done st'
      entry) : PoolBase votes brhash (entry :: chain) st' := by
  have hshort : st.txdb.All (ShortAt brhash) := by
    intro hash txindex hfound hsame
    exact hbase.index txindex (hsame ▸ hfound)
  have hready := bridgePools_ok h.pools
  refine ⟨List.cons_ne_nil _ _, ?_, ?_, ?_, h.pegdb_nonneg hbase.nonneg⟩
  · intro e he
    rcases List.mem_cons.mp he with rfl | he
    · rw [h.disk_eq]
      exact h.inputs hname hshort
    · exact hbase.inputs e he
  · intro txindex hfound
    rw [h.txdb, connectReward_index h.reward] at hfound
    exact (connectTxs_all hname.shortAt hshort h.txs).1 _ _ hfound rfl
  · intro n hsome
    obtain ⟨fr, hfr⟩ := Option.isSome_iff_exists.mp hsome
    rw [h.pegdb] at hfr
    have hfr := prunePeg_some hfr
    have hheight : nextHeight ((entry :: chain).map (·.pindex)) = place.nHeight + 1 :=
      congrArg (· + 1) h.height
    cases hqueue : queue ⟨brhash, n⟩ with
    | none =>
      rw [overlay_of_none ((h.queued hname n).trans hqueue)] at hfr
      obtain ⟨hlt, hstart⟩ := hbase.records n (Option.isSome_iff_exists.mpr ⟨fr, hfr⟩)
      rw [← h.nHeight] at hlt
      omega
    | some pool =>
      obtain ⟨hn, hstart⟩ := hready.keys ⟨brhash, n⟩ (Option.isSome_iff_exists.mpr ⟨pool, hqueue⟩)
      have hn : n = place.nHeight := hn
      omega

/-- The record that a block stores from the start of the peg on: the one of the block below with
the burns. -/
theorem ConnectedBy.storedPool_started (hname : BridgeName net brhash)
    (hshort : st.txdb.All (ShortAt brhash))
    (hinputs : ∀ e ∈ chain, ∀ tx ∈ e.disk.block.vtx, ∀ inp ∈ tx.vin, inp.prevout.hash = brhash →
      inp.prevout.n < 2) (hreg : brhash ∈ ctx.poolBridges)
    (hstart : votes.nPegStartHeight ≤ place.nHeight + 1)
    (h : ConnectedBy net votes bp rules nBridgeInterval ctx st chain disk place queue s done st'
      entry) :
    storedPool st'.pegdb brhash place.nHeight = storedPool st.pegdb brhash (place.nHeight - 1) +
      burnedForBridge votes nBridgeInterval ctx st.pegdb place.nHeight brhash := by
  have hpeg : st'.pegdb ⟨brhash, place.nHeight⟩ =
      overlay st.pegdb done.mapQueuedFractionsChanges ⟨brhash, place.nHeight⟩ := by
    rw [h.pegdb]
    refine prunePeg_record hname fun e he => ?_
    rcases List.mem_cons.mp he with rfl | he
    · rw [h.disk_eq]
      exact h.inputs hname hshort
    · exact hinputs e he
  obtain ⟨fr, hfr, hcols⟩ := (bridgePools_ok h.pools).pool brhash hreg hstart
  rw [BitBay.storedPool, hpeg, overlay_of_some ((h.queued hname _).trans hfr), Option.getD_some,
    hcols]

/-- The record that a block stores: the one of the block below with the burns. -/
theorem ConnectedBy.storedPool (hname : BridgeName net brhash)
    (hbase : PoolBase votes brhash chain st) (hreg : brhash ∈ ctx.poolBridges)
    (h : ConnectedBy net votes bp rules nBridgeInterval ctx st chain disk place queue s done st'
      entry) :
    storedPool st'.pegdb brhash place.nHeight = storedPool st.pegdb brhash (place.nHeight - 1) +
      burnedForBridge votes nBridgeInterval ctx st.pegdb place.nHeight brhash := by
  by_cases hstart : votes.nPegStartHeight ≤ place.nHeight + 1
  · exact h.storedPool_started hname (fun hash txindex hfound hsame =>
      hbase.index txindex (hsame ▸ hfound)) hbase.inputs hreg hstart
  · -- Before the start of the peg there are no records.
    have hnone : ∀ n, n ≤ place.nHeight → st.pegdb ⟨brhash, n⟩ = none := by
      intro n hn
      by_contra hsome
      have hlow := (hbase.records n (Option.isSome_iff_ne_none.mpr hsome)).2
      omega
    have hqueue : queue ⟨brhash, place.nHeight⟩ = none := by
      by_contra hsome
      exact hstart ((bridgePools_ok h.pools).keys _ (Option.isSome_iff_ne_none.mpr hsome)).2
    have hpeg : st'.pegdb ⟨brhash, place.nHeight⟩ =
        overlay st.pegdb done.mapQueuedFractionsChanges ⟨brhash, place.nHeight⟩ := by
      rw [h.pegdb]
      exact prunePeg_record hname (h.poolBase hname hbase).inputs
    rw [BitBay.storedPool, hpeg, overlay_of_none ((h.queued hname _).trans hqueue), hnone _ le_rfl,
      BitBay.storedPool, hnone _ (Nat.sub_le _ _), burnedForBridge, if_pos (Or.inl (not_le.mp hstart)),
      add_zero]

/-- A block accounts for the draws from a pool exactly when it has none. -/
theorem ConnectedBy.accounts_iff (hname : BridgeName net brhash)
    (hbase : PoolBase votes brhash chain st) (hreg : brhash ∈ ctx.poolBridges)
    (h : ConnectedBy net votes bp rules nBridgeInterval ctx st chain disk place queue s done st'
      entry) :
    BlockStep.Accounts net votes bp rules nBridgeInterval brhash ⟨ctx, st, chain, disk, st', entry⟩ ↔
      ∀ tx ∈ disk.block.vtx, drawsFrom bp ctx brhash tx = false := by
  have hdrawn : BlockStep.drawn net votes bp rules nBridgeInterval brhash
      ⟨ctx, st, chain, disk, st', entry⟩ =
      drawnByTxs net votes bp rules ctx st place disk brhash (loopStart rules disk queue)
        disk.block.vtx.zipIdx := by
    obtain ⟨nPegSupplyIndex, hindex, rfl⟩ := h.place_eq
    simp only [BlockStep.drawn, hindex, Option.bind_some, h.pools, Option.map_some,
      Option.getD_some]
  have hnodup : ∀ a ∈ disk.block.vtx.zipIdx, (a.1.vin.map (·.prevout)).Nodup := fun a ha =>
    checkBlock_inputs h.checked a.1 (List.fst_mem_of_mem_zipIdx ha)
  have hstored := h.storedPool hname hbase hreg
  have hsums : BlockStep.Accounts net votes bp rules nBridgeInterval brhash
      ⟨ctx, st, chain, disk, st', entry⟩ ↔ drawnByTxs net votes bp rules ctx st place disk brhash
        (loopStart rules disk queue) disk.block.vtx.zipIdx = 0 := by
    rw [BlockStep.Accounts, hdrawn, BlockStep.burned]
    dsimp only
    rw [h.height, hstored]
    constructor
    · intro heq
      exact sub_eq_self.mp heq.symm
    · intro hzero
      rw [hzero, sub_zero]
  rw [hsums]
  rcases drawnByTxs_cases hnodup h.txs with ⟨hnone, hzero⟩ | ⟨⟨a, ha, hmint⟩, hpos⟩
  · refine ⟨fun _ tx htx => ?_, fun _ => hzero⟩
    obtain ⟨i, hi⟩ := List.getElem?_of_mem htx
    exact hnone (tx, i) ((List.mem_zipIdx_iff_getElem? (x := (tx, i))).mpr hi)
  · constructor
    · intro hzero
      rw [hzero] at hpos
      simp at hpos
    · intro hall
      rw [hall a.1 (List.fst_mem_of_mem_zipIdx ha)] at hmint
      cases hmint

theorem BlockStep.accounts_iff {step : BlockStep} (hname : BridgeName net brhash)
    (hbase : PoolBase votes brhash step.chain step.before) (hreg : brhash ∈ step.ctx.poolBridges)
    (h : ConnectedBy net votes bp rules nBridgeInterval step.ctx step.before step.chain step.disk
      place queue s done step.after step.entry) :
    step.Accounts net votes bp rules nBridgeInterval brhash ↔
      ∀ tx ∈ step.disk.block.vtx, drawsFrom bp step.ctx brhash tx = false :=
  h.accounts_iff hname hbase hreg

/-- In every chain of connected blocks: the records of a bridge account for its burns and draws
and have no negative columns exactly when no mint draws from its pool. -/
theorem pool_records_account_iff (hname : BridgeName net brhash)
    (hbase : PoolBase votes brhash below start)
    (hrun : BlockRun net votes bp rules nBridgeInterval below start steps st)
    (hreg : ∀ step ∈ steps, brhash ∈ step.ctx.poolBridges) :
    ((∀ step ∈ steps, step.Accounts net votes bp rules nBridgeInterval brhash) ∧
      ∀ n c, 0 ≤ storedPool st.pegdb brhash n c) ↔
    ∀ step ∈ steps, ∀ tx ∈ step.disk.block.vtx, drawsFrom bp step.ctx brhash tx = false := by
  have hall : PoolBase votes brhash (steps.map (·.entry) ++ below) st ∧
      ∀ step ∈ steps, (step.Accounts net votes bp rules nBridgeInterval brhash ↔
        ∀ tx ∈ step.disk.block.vtx, drawsFrom bp step.ctx brhash tx = false) := by
    induction hrun with
    | nil =>
      refine ⟨hbase, ?_⟩
      intro step hstep
      cases hstep
    | connect ctx disk hrun h ih =>
      obtain ⟨place, queue, s, done, hsteps⟩ := connectBlockState_ok h
      obtain ⟨hbelow, hiff⟩ := ih fun step hstep => hreg step (List.mem_cons_of_mem _ hstep)
      refine ⟨hsteps.poolBase hname hbelow, fun step hstep => ?_⟩
      rcases List.mem_cons.mp hstep with rfl | hstep
      · exact hsteps.accounts_iff hname hbelow (hreg _ List.mem_cons_self)
      · exact hiff step hstep
  obtain ⟨hend, hiff⟩ := hall
  constructor
  · rintro ⟨haccounts, -⟩ step hstep
    exact (hiff step hstep).mp (haccounts step hstep)
  · intro hnone
    refine ⟨fun step hstep => (hiff step hstep).mpr (hnone step hstep), ?_⟩
    exact storedPool_nonneg hend.nonneg brhash

end Chains

/-! ## A block with two mints -/

def sampleBridgeHash : UInt256 := setHex sampleBridge.hash

theorem sampleBridge_name : BridgeName sampleMintNet sampleBridgeHash where
  not_tx := by
    intro tx
    simp only [sampleMintNet]
    split_ifs <;> decide
  ne_zero := by decide

theorem mintStores_base : PoolBase firstBlockVotes sampleBridgeHash [sampleGenesis] mintStores where
  nonempty := List.cons_ne_nil _ _
  inputs := by
    intro e he tx htx
    rw [List.mem_singleton.mp he] at htx
    cases htx
  index := by
    intro txindex hfound
    cases hfound
  records := by
    intro n hsome
    have hn : n = 0 := by
      by_contra hne
      have hkey : (⟨sampleBridgeHash, n⟩ : UInt320) ≠ ⟨setHex sampleBridge.hash, 0⟩ :=
        fun heq => hne (congrArg UInt320.n heq)
      simp [mintStores, hkey] at hsome
    rw [hn]
    decide
  nonneg := by
    intro fkey fr hfr
    simp only [mintStores] at hfr
    split_ifs at hfr
    obtain rfl := Option.some.inj hfr
    exact CFractions.singleColumn_nonneg (by decide) 5

theorem doubleMint_registered :
    ∀ step ∈ [doubleMintStep], sampleBridgeHash ∈ step.ctx.poolBridges := by
  intro step hstep
  rw [List.mem_singleton.mp hstep]
  exact List.mem_singleton.mpr rfl

theorem doubleMint_account_iff :
    ((∀ step ∈ [doubleMintStep], step.Accounts sampleMintNet firstBlockVotes sampleBridgeParams
        (sampleRules fun _ => none) 10 sampleBridgeHash) ∧
      ∀ n c, 0 ≤ storedPool doubleMintStep.after.pegdb sampleBridgeHash n c) ↔
    ∀ step ∈ [doubleMintStep], ∀ tx ∈ step.disk.block.vtx,
      drawsFrom sampleBridgeParams step.ctx sampleBridgeHash tx = false :=
  pool_records_account_iff sampleBridge_name mintStores_base doubleMint_run doubleMint_registered

/-- The record of the block does not account for what its two mints took. -/
theorem mints_keep_record : BlockRun sampleMintNet firstBlockVotes sampleBridgeParams
      (sampleRules fun _ => none) 10 [sampleGenesis] mintStores [doubleMintStep]
      doubleMintStep.after ∧
    BridgeName sampleMintNet sampleBridgeHash ∧
    PoolBase firstBlockVotes sampleBridgeHash [sampleGenesis] mintStores ∧
    sampleBridgeHash ∈ doubleMintStep.ctx.poolBridges ∧
    storedPool doubleMintStep.after.pegdb sampleBridgeHash 1 =
      storedPool mintStores.pegdb sampleBridgeHash 0 ∧
    ¬ doubleMintStep.Accounts sampleMintNet firstBlockVotes sampleBridgeParams
      (sampleRules fun _ => none) 10 sampleBridgeHash := by
  have hregistered := doubleMint_registered _ (List.mem_singleton_self _)
  obtain ⟨place, queue, s, done, hsteps⟩ := connectBlockState_ok doubleMint_connected
  have hheight : place.nHeight = 1 := hsteps.nHeight
  refine ⟨doubleMint_run, sampleBridge_name, mintStores_base, hregistered, ?_, ?_⟩
  · have hstored := hsteps.storedPool sampleBridge_name mintStores_base hregistered
    rw [hheight, burnedForBridge, if_pos (Or.inr (by decide)), add_zero] at hstored
    exact hstored
  · intro haccounts
    have hnone := (BlockStep.accounts_iff sampleBridge_name mintStores_base hregistered hsteps).mp
      haccounts
    have hdraws : drawsFrom sampleBridgeParams mintContext sampleBridgeHash
        (sampleMintTx [] 200000) = true := by decide
    have hmem : sampleMintTx [] 200000 ∈ doubleMintBlock.block.vtx :=
      List.mem_cons_of_mem _ List.mem_cons_self
    have hidle : drawsFrom sampleBridgeParams mintContext sampleBridgeHash
        (sampleMintTx [] 200000) = false := hnone _ hmem
    rw [hidle] at hdraws
    cases hdraws

end BitBay
