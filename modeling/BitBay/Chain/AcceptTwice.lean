import BitBay.Chain.MintAdmission
import BitBay.Script.Permits
import BitBay.Script.SignedKeys

/-!
# Connected twice

`AcceptToMemoryPool` connects a transaction with the flags of scripts that are relayed, and again
with the mandatory ones. It reports a bug of the program if the second call fails. Such a report
is never seen for a transaction that is no mint: scripts that pass the first call pass the second
one with the same keys, and nothing that the first call has changed is an input of the second.
-/
namespace BitBay

variable {sp : ScriptParams} {net : Params} {votes : VoteParams} {bp : BridgeParams}
  {rules : ScriptRules}

/-! ## Scripts -/

theorem standard_permits (tx : CTransaction) (nIn nHashType : ℕ) :
    ScriptCall.Permits sp ⟨tx, nIn, STANDARD_SCRIPT_VERIFY_FLAGS, nHashType⟩
      ⟨tx, nIn, MANDATORY_SCRIPT_VERIFY_FLAGS, nHashType⟩ where
  encoding vchSig vchPubKey := by
    have hempty : hasFlag MANDATORY_SCRIPT_VERIFY_FLAGS SCRIPT_VERIFY_ALLOW_EMPTY_SIG =
        hasFlag STANDARD_SCRIPT_VERIFY_FLAGS SCRIPT_VERIFY_ALLOW_EMPTY_SIG := by decide
    have hhash : hasFlag MANDATORY_SCRIPT_VERIFY_FLAGS SCRIPT_VERIFY_FIX_HASHTYPE =
        hasFlag STANDARD_SCRIPT_VERIFY_FLAGS SCRIPT_VERIFY_FIX_HASHTYPE := by decide
    simp only [encodingOk, checkSignatureEncoding, hempty, hhash]
  signature _ _ _ := rfl
  lockTime _ := rfl
  strictenc _ := show hasFlag STANDARD_SCRIPT_VERIFY_FLAGS SCRIPT_VERIFY_STRICTENC = true by decide
  nulldummy _ := show hasFlag STANDARD_SCRIPT_VERIFY_FLAGS SCRIPT_VERIFY_NULLDUMMY = true by decide
  checkLockTimeVerify _ :=
    show hasFlag STANDARD_SCRIPT_VERIFY_FLAGS SCRIPT_VERIFY_CHECKLOCKTIMEVERIFY = true by decide
  discourage h := absurd h
    (show ¬hasFlag MANDATORY_SCRIPT_VERIFY_FLAGS SCRIPT_VERIFY_DISCOURAGE_UPGRADABLE_NOPS = true by
      decide)

theorem verifySignature_mandatory {txPrev tx : CTransaction} {i : ℕ} {keys : Finset CString}
    (h : (rules.withMachine sp net).verifySignature txPrev tx i STANDARD_SCRIPT_VERIFY_FLAGS =
      some keys) :
    (rules.withMachine sp net).verifySignature txPrev tx i MANDATORY_SCRIPT_VERIFY_FLAGS =
      some keys := by
  simp only [ScriptRules.withMachine, Option.map_eq_some_iff] at h ⊢
  obtain ⟨signed, hsigned, rfl⟩ := h
  refine ⟨signed, ?_, rfl⟩
  unfold verifySignature at hsigned ⊢
  cases hinp : tx.vin[i]? with
  | none => simp [hinp] at hsigned
  | some txin =>
    cases hout : txPrev.vout[txin.prevout.n]? with
    | none => simp [hinp, hout] at hsigned
    | some txout =>
      simp only [hinp, hout] at hsigned ⊢
      split_ifs at hsigned ⊢
      exact (standard_permits tx i 0).verifyScript_some hsigned

/-! ## Fractions -/

def StandardCall.withFractions (call : StandardCall) (mapInputsFractions : MapFractions)
    (feesFractions : CFractions) : StandardCall :=
  { call with mapInputsFractions, feesFractions }

variable {call : StandardCall} (mapInputsFractions : MapFractions) (feesFractions : CFractions)

theorem markOutputs_withFractions (i : ℕ) (nMark : NotaryMark) (sAddress : CString)
    (vOutputArgs : List CString) (poolFrozen : FrozenMap) :
    markOutputs net (call.withFractions mapInputsFractions feesFractions) i nMark sAddress
      vOutputArgs poolFrozen = markOutputs net call i nMark sAddress vOutputArgs poolFrozen := by
  induction vOutputArgs generalizing poolFrozen with
  | nil => rfl
  | cons sOutputArg rest ih =>
    simp only [markOutputs, ih]
    rfl

theorem applyInput_withFractions (st : PoolState) (i : ℕ) (sAddress : CString)
    (frInp : CFractions) :
    applyInput net (call.withFractions mapInputsFractions feesFractions) st i sAddress frInp =
      applyInput net call st i sAddress frInp := by
  simp only [applyInput, notaryInput, markOutputs_withFractions]
  rfl

/-- Fractions of other outputs than those that are spent, and the fees so far, do not change what
a standard transaction pays. -/
theorem calculateStandardFractions_again {r : StandardResult}
    (hinputs : ∀ inp ∈ call.tx.vin,
      mapInputsFractions inp.prevout.fkey = call.mapInputsFractions inp.prevout.fkey)
    (h : calculateStandardFractions net call = .ok r) :
    ∃ fees r', r.feesFractions = call.feesFractions + fees ∧
      calculateStandardFractions net (call.withFractions mapInputsFractions feesFractions) =
        .ok r' ∧ r'.mapTestFractionsPool = r.mapTestFractionsPool ∧
      r'.feesFractions = feesFractions + fees := by
  obtain ⟨pools, st, hpools, hst, hfail, rfl⟩ := calculateStandardFractions_ok h
  have hscan : scanInputs net (call.withFractions mapInputsFractions feesFractions) =
      .ok pools := by
    refine Run.foldlM_ok_mono (fun inp hinp s s' hstep => ?_) hpools
    have hread : readInput (call.withFractions mapInputsFractions feesFractions) inp.2 inp.1 =
        readInput call inp.2 inp.1 := by
      have hmem : inp.1 ∈ call.tx.vin := by
        unfold StandardCall.inputs at hinp
        split_ifs at hinp
        · cases hinp
        · exact (List.mem_zipIdx hinp).2.2 ▸ List.getElem_mem _
      simp only [readInput, StandardCall.withFractions, hinputs inp.1 hmem]
      rfl
    unfold scanInput at hstep ⊢
    simp only [hread, applyInput_withFractions]
    exact hstep
  have hfill : fillOutputs net (call.withFractions mapInputsFractions feesFractions) pools =
      .ok st := hst
  have hcause : failCause net (call.withFractions mapInputsFractions feesFractions) pools st =
      none := hfail
  refine ⟨txFeeFractions pools st,
    { mapInputsFractions := placeOutputs net
        (call.withFractions mapInputsFractions feesFractions) st.mapTestFractionsPool
      mapTestFractionsPool := st.mapTestFractionsPool
      feesFractions := feesFractions + txFeeFractions pools st }, rfl, ?_, rfl, rfl⟩
  simp only [calculateStandardFractions, Run.bind_eq_ok]
  exact ⟨pools, hscan, st, hfill, by rw [hcause]; rfl⟩

/-! ## The two calls -/

section Accept

variable {ctx : BlockContext} {best : ChainEntry} {below : List ChainEntry} {tx : CTransaction}
  {nVirtBlockTime : ℕ} {maps : MapPrevTx × MapFractions} {standard : ConnectResult}

theorem signInput_again {prev : PrevTx} {i : ℕ} {r : Finset CString × Bool}
    (h : signInput (rules.withMachine sp net) (acceptConnect ctx best below tx nVirtBlockTime maps)
      prev i = some r) :
    signInput (rules.withMachine sp net)
      (acceptConnectAgain ctx best below tx nVirtBlockTime maps standard) prev i = some r := by
  unfold signInput at h ⊢
  simp only [acceptConnectAgain, acceptConnect] at h ⊢
  split_ifs at h ⊢
  · exact h
  · exact h
  · simp only [Option.map_eq_some_iff] at h ⊢
    obtain ⟨keys, hkeys, rfl⟩ := h
    exact ⟨keys, verifySignature_mandatory hkeys, rfl⟩

/-- Signatures that pass the first call pass the second one. -/
theorem spendInputs_again {signed : SignState} (hpool : standard.mapTestPool = fun _ => none)
    (h : spendInputs (rules.withMachine sp net)
      (acceptConnect ctx best below tx nVirtBlockTime maps) = some signed) :
    spendInputs (rules.withMachine sp net)
      (acceptConnectAgain ctx best below tx nVirtBlockTime maps standard) = some signed := by
  unfold spendInputs at h ⊢
  have hstart : (acceptConnectAgain ctx best below tx nVirtBlockTime maps standard).mapTestPool =
      (acceptConnect ctx best below tx nVirtBlockTime maps).mapTestPool := hpool
  rw [hstart]
  have hmap := Run.foldlM_some_map (g := spendInput (rules.withMachine sp net)
    (acceptConnectAgain ctx best below tx nVirtBlockTime maps standard)) id id
    (fun inp _ s s' hstep => ?_) h
  · rw [List.map_id] at hmap
    exact hmap
  · unfold spendInput at hstep ⊢
    dsimp only [id] at hstep ⊢
    cases hprev : s.inputs inp.1.prevout.hash with
    | none => simp [hprev] at hstep
    | some prev =>
      simp only [hprev] at hstep ⊢
      by_cases hnull : prev.txindex.vSpent[inp.1.prevout.n]?.any (·.isNull) = false
      · rw [if_pos hnull] at hstep
        cases hstep
      · rw [if_neg hnull] at hstep ⊢
        split at hstep
        · cases hstep
        rename_i keys fPassed hsign
        rw [signInput_again hsign]
        exact hstep

/-- Outside of a block connecting leaves the index of transactions as it is. -/
theorem spendInputs_mapTestPool {signed : SignState}
    (h : spendInputs (rules.withMachine sp net)
      (acceptConnect ctx best below tx nVirtBlockTime maps) = some signed) :
    signed.mapTestPool = fun _ => none := by
  refine Run.foldlM_some_invariant (P := fun s => s.mapTestPool = fun _ => none)
    (fun inp _ s s' hs hstep => ?_) rfl h
  have hout : ¬((acceptConnect ctx best below tx nVirtBlockTime maps).fBlock = true ∨
      (acceptConnect ctx best below tx nVirtBlockTime maps).fMiner = true) := by
    simp [acceptConnect]
  unfold spendInput at hstep
  simp only [if_neg hout] at hstep
  split at hstep
  · cases hstep
  by_cases hnull : ‹PrevTx›.txindex.vSpent[inp.1.prevout.n]?.any (·.isNull) = false
  · rw [if_pos hnull] at hstep
    cases hstep
  · rw [if_neg hnull] at hstep
    split at hstep
    · cases hstep
    cases hstep
    exact hs

/-- Connecting a transaction that is no mint, by its steps. -/
theorem connectInputs_of_steps {conn : ConnectCall} {nValueIn : ℤ} {signed : SignState}
    {r : ConnectResult} (hbase : conn.tx.isCoinBase = false) (hmint : conn.tx.isCoinMint = false)
    (hcheck : checkInputs rules conn = some nValueIn)
    (hsigned : spendInputs rules conn = some signed)
    (hr : connectStandard net votes conn signed.sTimeLockPassInputs {
      finputs := conn.finputs
      mapTestPool := signed.mapTestPool
      mapTestFractionsPool := conn.mapTestFractionsPool
      feesFractions := conn.feesFractions } = some r)
    (hfee : checkFee conn nValueIn = true) : connectInputs net votes bp rules conn = some r := by
  simp [connectInputs, hbase, connectMint, hmint, hcheck, hsigned, hr, hfee]

/-- The fractions of a transaction are the same in both calls, and the fee is added again. -/
theorem connectStandard_again {passes : Finset ℕ} {pool : TxIndexMap}
    (hself : ∀ inp ∈ tx.vin, inp.prevout.hash ≠ net.getHash tx)
    (h : connectStandard net votes (acceptConnect ctx best below tx nVirtBlockTime maps) passes
      ⟨maps.2, pool, fun _ => none, {}⟩ = some standard) :
    standard.mapTestPool = pool ∧ ∃ mandatory,
      connectStandard net votes (acceptConnectAgain ctx best below tx nVirtBlockTime maps standard)
        passes ⟨standard.finputs, pool, fun _ => none, standard.feesFractions⟩ = some mandatory ∧
      mandatory.mapTestFractionsPool = standard.mapTestFractionsPool ∧
      mandatory.feesFractions.cols = standard.feesFractions.cols + standard.feesFractions.cols := by
  have hempty : ({} : CFractions).cols = 0 := CFractions.cols_default
  unfold connectStandard at h ⊢
  by_cases hpays : (!tx.isCoinStake) = true ∧ (!tx.isCoinMint) = true ∧
      votes.nPegStartHeight ≤ (bestPlace best below).nHeight
  · rw [if_pos (by exact hpays)] at h
    rw [if_pos (by exact hpays)]
    split at h
    · cases h
    rename_i s hs
    cases h
    have hinputs : ∀ inp ∈ tx.vin,
        s.mapInputsFractions inp.prevout.fkey = maps.2 inp.prevout.fkey := by
      obtain ⟨pools, st, -, -, -, rfl⟩ := calculateStandardFractions_ok hs
      intro inp hinp
      exact if_neg fun hown => hself inp hinp hown.1
    obtain ⟨fees, r', hfees, hr', hpool, hfees'⟩ :=
      calculateStandardFractions_again s.mapInputsFractions s.feesFractions (by exact hinputs) hs
    have hcall : (acceptConnectAgain ctx best below tx nVirtBlockTime maps
        ⟨s.mapInputsFractions, pool, s.mapTestFractionsPool, s.feesFractions⟩).standardCall passes =
        ((acceptConnect ctx best below tx nVirtBlockTime maps).standardCall passes).withFractions
          s.mapInputsFractions s.feesFractions := rfl
    refine ⟨rfl, ⟨r'.mapInputsFractions, pool, r'.mapTestFractionsPool, r'.feesFractions⟩, ?_,
      hpool, ?_⟩
    · rw [hcall, hr']
    · change r'.feesFractions.cols = s.feesFractions.cols + s.feesFractions.cols
      rw [hfees', CFractions.cols_add, hfees, CFractions.cols_add]
      change (({} : CFractions).cols + fees.cols) + fees.cols =
        (({} : CFractions).cols + fees.cols) + (({} : CFractions).cols + fees.cols)
      rw [hempty, zero_add]
  · rw [if_neg (by exact hpays)] at h
    cases h
    refine ⟨rfl, _, if_neg (by exact hpays), rfl, ?_⟩
    change ({} : CFractions).cols = ({} : CFractions).cols + ({} : CFractions).cols
    rw [hempty, zero_add]

/-- The second call of `AcceptToMemoryPool` never fails behind the first one for a transaction that
is no mint, and calculates the same outputs and the same fee. -/
theorem accepted_twice (hmint : tx.isCoinMint = false)
    (hself : ∀ inp ∈ tx.vin, inp.prevout.hash ≠ net.getHash tx) :
    EvaluatedOnce (acceptInputs net votes bp (rules.withMachine sp net) ctx best below tx
        nVirtBlockTime maps) ↔
      (connectInputs net votes bp (rules.withMachine sp net)
        (acceptConnect ctx best below tx nVirtBlockTime maps)).isSome = true := by
  constructor
  · rintro ⟨standard, mandatory, haccept, -, -⟩
    unfold acceptInputs at haccept
    cases hfirst : connectInputs net votes bp (rules.withMachine sp net)
        (acceptConnect ctx best below tx nVirtBlockTime maps) with
    | none => simp [hfirst] at haccept
    | some r => rfl
  · intro hsome
    obtain ⟨standard, hstandard⟩ := Option.isSome_iff_exists.mp hsome
    suffices hagain : ∃ mandatory, connectInputs net votes bp (rules.withMachine sp net)
        (acceptConnectAgain ctx best below tx nVirtBlockTime maps standard) = some mandatory ∧
        mandatory.mapTestFractionsPool = standard.mapTestFractionsPool ∧
        mandatory.feesFractions.cols = standard.feesFractions.cols + standard.feesFractions.cols by
      obtain ⟨mandatory, hmandatory, hpool, hfees⟩ := hagain
      refine ⟨standard, mandatory, ?_, hpool, hfees⟩
      simp [acceptInputs, hstandard, hmandatory]
    cases hbase : tx.isCoinBase with
    | true =>
      have hempty : ({} : CFractions).cols = 0 := CFractions.cols_default
      simp only [connectInputs, acceptConnect, hbase, if_true, Option.some.injEq] at hstandard
      subst hstandard
      refine ⟨_, by simp only [connectInputs, acceptConnectAgain, acceptConnect, hbase, if_true],
        rfl, ?_⟩
      change ({} : CFractions).cols = ({} : CFractions).cols + ({} : CFractions).cols
      rw [hempty, zero_add]
    | false =>
      obtain ⟨nValueIn, minted, signed, hcheck, hminted, hsigned, hr, hfee⟩ :=
        connectInputs_ok (by exact hbase) hstandard
      simp only [connectMint, acceptConnect, hmint, Bool.false_eq_true, false_and, if_false,
        Option.some.injEq] at hminted
      subst hminted
      obtain ⟨hpool, mandatory, hmandatory, houtputs, hfees⟩ :=
        connectStandard_again hself (by exact hr)
      exact ⟨mandatory, connectInputs_of_steps (by exact hbase) (by exact hmint) hcheck
        (spendInputs_again (hpool.trans (spendInputs_mapTestPool hsigned)) hsigned) hmandatory hfee,
        houtputs, hfees⟩

end Accept

/-! ## A sample -/

def keyMaps : MapPrevTx × MapFractions :=
  (fun hash => if hash = 1 then some { txindex := { vSpent := [.null] }, tx := keyPayment } else none,
    fun fkey => if fkey = ⟨1, 0⟩ then some (CFractions.singleColumn 1 10) else none)

/-- The payment is spent with a signature of the key. -/
theorem accepted_twice_sample : EvaluatedOnce (acceptInputs keyNet sampleVotes sampleBridgeParams
    (ScriptRules.withMachine ⟨fun _ _ _ _ => none, fun _ => true, 0⟩ sampleMachine keyNet)
    mintContext sampleGenesis [] keySpend 100 keyMaps) :=
  (accepted_twice (by decide) (by decide)).mpr (by decide +kernel)

end BitBay
