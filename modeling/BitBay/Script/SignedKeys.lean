import BitBay.Chain.ReturnOutputs
import BitBay.Peg.Conservation
import BitBay.Script.Templates

/-!
# Keys that signed

`VerifyScript` reports the keys whose signatures it has seen, and `ConnectInputs` lets a frozen
output be spent before its time if one of them is on the list of passes. The report can be
trusted: no script makes a key appear in it without a signature of the key over the transaction.
-/
namespace BitBay

variable {sp : ScriptParams} {call : ScriptCall} {rest : CScript} {st : EvalState}

/-! ## The evaluations of an input -/

/-- What `VerifyScript` evaluates: a script on a stack, and the keys recorded by then. -/
inductive Evaluates (sp : ScriptParams) (call : ScriptCall) (scriptSig scriptPubKey : CScript) :
    List Vchtype → CScript → Finset Vchtype → Prop
  | input : Evaluates sp call scriptSig scriptPubKey [] scriptSig ∅
  | output {st1 : EvalState} (h1 : evalScript sp call [] scriptSig ∅ = .ok st1) :
      Evaluates sp call scriptSig scriptPubKey st1.stack scriptPubKey st1.sSignedPubk
  | redeem {st1 st2 : EvalState} {pubKeySerialized : Vchtype} {stackCopy : List Vchtype}
      (h1 : evalScript sp call [] scriptSig ∅ = .ok st1)
      (h2 : evalScript sp call st1.stack scriptPubKey st1.sSignedPubk = .ok st2)
      (hstack : st1.stack = pubKeySerialized :: stackCopy) :
      Evaluates sp call scriptSig scriptPubKey stackCopy pubKeySerialized st2.sSignedPubk

/-- A script that ends is one of the states of its run. -/
theorem reaches_of_evalScript {stack : List Vchtype} {script : CScript} {signed : Finset Vchtype}
    {st' : EvalState} (h : evalScript sp call stack script signed = .ok st') :
    RunsTo sp call script stack signed [] st' :=
  Scan.reaches_of_run nextOp_shrinks (fun _ _ h => by cases h) (evalScript_eq_ok.mp h).2.1

/-- A key is known by a signature that stood on the stack with it, in some evaluation of the
input. -/
def KnownKey (sp : ScriptParams) (call : ScriptCall) (scriptSig scriptPubKey : CScript)
    (vchPubKey : Vchtype) : Prop :=
  ∃ stack script signed rest st, Evaluates sp call scriptSig scriptPubKey stack script signed ∧
    RunsTo sp call script stack signed rest st ∧ Signed sp call st.codehash st.stack vchPubKey

/-- All keys that a run adds are known by a signature. -/
theorem EvalState.Sound.knownKeys {scriptSig scriptPubKey script : CScript} {stack : List Vchtype}
    {signed : Finset Vchtype} (h : st.Sound sp call script stack signed)
    (heval : Evaluates sp call scriptSig scriptPubKey stack script signed)
    (hsigned : ∀ key ∈ signed, KnownKey sp call scriptSig scriptPubKey key) :
    ∀ key ∈ st.sSignedPubk, KnownKey sp call scriptSig scriptPubKey key := by
  intro key hkey
  rcases h.signed key hkey with hold | ⟨rest, mid, hreach, -, hmid⟩
  · exact hsigned key hold
  · exact ⟨stack, script, signed, rest, mid, heval, hreach, hmid⟩

/-- Every evaluation of an input starts with a small stack, and with known keys. -/
theorem Evaluates.start {scriptSig scriptPubKey script : CScript} {stack : List Vchtype}
    {signed : Finset Vchtype} (h : Evaluates sp call scriptSig scriptPubKey stack script signed) :
    stack.length ≤ 1000 ∧ (∀ vch ∈ stack, vch.length ≤ MAX_SCRIPT_ELEMENT_SIZE) ∧
      ∀ key ∈ signed, KnownKey sp call scriptSig scriptPubKey key := by
  have hfirst {st1 : EvalState} (h1 : evalScript sp call [] scriptSig ∅ = .ok st1) :
      st1.Sound sp call scriptSig [] ∅ :=
    evalScript_sound (by simp) (by simp) (reaches_of_evalScript h1)
  cases h with
  | input => simp
  | output h1 =>
    have hsound := hfirst h1
    exact ⟨(Nat.le_add_right _ _).trans hsound.limits.size,
      fun vch hvch => hsound.limits.element vch (List.mem_append_left _ hvch),
      hsound.knownKeys .input (by simp)⟩
  | redeem h1 h2 hstack =>
    have hsound := hfirst h1
    have hsize := hsound.limits.size
    have helement (vch : Vchtype) (hvch : vch ∈ _) :=
      hsound.limits.element vch (List.mem_append_left _ hvch)
    have hsound₂ := evalScript_sound ((Nat.le_add_right _ _).trans hsize) helement
      (reaches_of_evalScript h2)
    rw [hstack, List.length_cons] at hsize
    exact ⟨by omega, fun vch hvch => helement vch (hstack ▸ List.mem_cons_of_mem _ hvch),
      hsound₂.knownKeys (.output h1) (hsound.knownKeys .input (by simp))⟩

/-- The limits of the machine hold in every state that verifying an input comes by, whatever
the two scripts are, and every key recorded by then is known by a signature that stood on the
stack. -/
theorem verifyScript_reaches_sound {scriptSig scriptPubKey script : CScript} {stack : List Vchtype}
    {signed : Finset Vchtype} (h : Evaluates sp call scriptSig scriptPubKey stack script signed)
    (hreach : RunsTo sp call script stack signed rest st) :
    st.Sound sp call script stack signed ∧
      ∀ key ∈ st.sSignedPubk, KnownKey sp call scriptSig scriptPubKey key := by
  obtain ⟨hsize, helement, hknown⟩ := h.start
  have hsound := evalScript_sound hsize helement hreach
  exact ⟨hsound, hsound.knownKeys h hknown⟩

def signedScript : CScript := pushVch (sampleSignature 5 ++ [1]) ++ pushVch (sampleKey 5) ++ [0xac]

def signedState : EvalState where
  stack := [[1]]
  nOpCount := 1
  codehash := signedScript
  sSignedPubk := {sampleKey 5}

/-- The key of the script is known in the end, and one operation is counted. -/
theorem verifyScript_reaches_sound_sample :
    signedState.Sound sampleMachine sampleScriptCall signedScript [] ∅ ∧
      KnownKey sampleMachine sampleScriptCall signedScript [] (sampleKey 5) := by
  have hend : evalScript sampleMachine sampleScriptCall [] signedScript ∅ = .ok signedState := by
    decide +kernel
  have hinput : Evaluates sampleMachine sampleScriptCall signedScript [] [] signedScript ∅ := .input
  obtain ⟨hsound, hknown⟩ := verifyScript_reaches_sound hinput (reaches_of_evalScript hend)
  exact ⟨hsound, hknown _ (Finset.mem_singleton_self _)⟩

/-- No script makes `VerifyScript` report a key without a signature of it. -/
theorem verifyScript_known {scriptSig scriptPubKey : CScript} {signed : Finset Vchtype}
    (h : verifyScript sp scriptSig scriptPubKey call = some signed) :
    ∀ key ∈ signed, KnownKey sp call scriptSig scriptPubKey key := by
  have hend {stack : List Vchtype} {script : CScript} {signed : Finset Vchtype} {st' : EvalState}
      (heval : Evaluates sp call scriptSig scriptPubKey stack script signed)
      (hst' : evalScript sp call stack script signed = .ok st') :
      ∀ key ∈ st'.sSignedPubk, KnownKey sp call scriptSig scriptPubKey key :=
    (verifyScript_reaches_sound heval (reaches_of_evalScript hst')).2
  unfold verifyScript at h
  cases h1 : evalScript sp call [] scriptSig ∅ with
  | error e => simp [h1] at h
  | ok st1 =>
    cases h2 : evalScript sp call st1.stack scriptPubKey st1.sSignedPubk with
    | error e => simp [h1, h2] at h
    | ok st2 =>
      simp only [h1, h2] at h
      split_ifs at h with hbool hp2sh hpush
      · cases h
        exact hend (.output h1) h2
      · rcases hstack : st1.stack with _ | ⟨redeem, below⟩
        · simp [hstack] at h
        · cases h3 : evalScript sp call below redeem st2.sSignedPubk with
          | error e => simp [hstack, h3] at h
          | ok st3 =>
            simp only [hstack, h3, Option.ite_none_right_eq_some, Option.some.injEq] at h
            exact h.2 ▸ hend (.redeem h1 h2 hstack) h3

/-! ## Connecting inputs -/

def pubKeyText (vch : Vchtype) : CString := if isValidPubKey vch then hexStr vch else []

def ScriptRules.withMachine (rules : ScriptRules) (sp : ScriptParams) (net : Params) :
    ScriptRules :=
  { rules with
    verifySignature := fun txPrev tx nIn flags =>
      (BitBay.verifySignature sp net txPrev tx nIn flags 0).map fun keys => keys.image pubKeyText }

variable {net : Params} {votes : VoteParams} {bp : BridgeParams} {rules : ScriptRules}
  {conn : ConnectCall}

def PassSigned (sp : ScriptParams) (net : Params) (conn : ConnectCall) (i : ℕ) : Prop :=
  ∃ inp prev keys vchPubKey, conn.tx.vin[i]? = some inp ∧
    conn.inputs inp.prevout.hash = some prev ∧
    verifySignature sp net prev.tx conn.tx i conn.flags 0 = some keys ∧ vchPubKey ∈ keys ∧
    pubKeyText vchPubKey ∈ conn.timelockpasses

/-- The inputs are those of the call but for what is marked as spent, and time locks are lifted
for a signature of a pass only. -/
structure LiftedByPasses (sp : ScriptParams) (net : Params) (conn : ConnectCall) (s : SignState) :
    Prop where
  inputs : ∀ hash, (s.inputs hash).map PrevTx.tx = (conn.inputs hash).map PrevTx.tx
  passes : ∀ i ∈ s.sTimeLockPassInputs, PassSigned sp net conn i

theorem spendInput_pass {s s' : SignState} {inp : CTxIn × ℕ}
    (hverified : ¬(conn.fBlock = true ∧ conn.fBelowCheckpoint = true))
    (hinp : conn.tx.vin[inp.2]? = some inp.1) (hold : LiftedByPasses sp net conn s)
    (h : spendInput (rules.withMachine sp net) conn s inp = some s') :
    LiftedByPasses sp net conn s' := by
  unfold spendInput at h
  dsimp only at h
  split at h
  · cases h
  rename_i prev hprev
  have hprevTx : (conn.inputs inp.1.prevout.hash).map PrevTx.tx = some prev.tx := by
    rw [← hold.inputs, hprev]
    rfl
  split_ifs at h
  all_goals
    split at h
    · cases h
    rename_i keys fPassed hsign
    cases h
    refine ⟨fun hash => ?_, fun i hi => ?_⟩
    · dsimp only
      rw [Function.update_apply]
      split_ifs with hhash
      · rw [hhash, hprevTx]
        rfl
      · exact hold.inputs hash
    dsimp only at hi
    split_ifs at hi with hpass
    · rcases Finset.mem_insert.mp hi with rfl | hi
      · simp only [signInput, if_neg hverified] at hsign
        split_ifs at hsign with hmint
        · cases hsign
          simp at hpass
        · simp only [ScriptRules.withMachine, Option.map_eq_some_iff, Prod.mk.injEq] at hsign
          obtain ⟨_, ⟨signed, hsigned, rfl⟩, rfl, rfl⟩ := hsign
          simp only [Bool.false_eq_true, false_or, decide_eq_true_eq] at hpass
          obtain ⟨text, htext⟩ := hpass
          obtain ⟨himage, hlist⟩ := Finset.mem_inter.mp htext
          obtain ⟨key, hkey, rfl⟩ := Finset.mem_image.mp himage
          obtain ⟨prev', hprev', htx⟩ := Option.map_eq_some_iff.mp hprevTx
          exact ⟨inp.1, prev', signed, key, hinp, hprev', htx ▸ hsigned, hkey, hlist⟩
      · exact hold.passes i hi
    · exact hold.passes i hi

/-- Every input is read when all inputs are. -/
theorem readInput_of_scanInputs {std : StandardCall} {inp : CTxIn} {i : ℕ} {pools : PoolState}
    (hbase : std.tx.isCoinBase = false) (hinp : std.tx.vin[i]? = some inp)
    (h : scanInputs net std = .ok pools) : ∃ r, readInput std i inp = .ok r := by
  have hinputs : std.inputs = std.tx.vin.zipIdx := by simp [StandardCall.inputs, hbase]
  have hmem : (inp, i) ∈ std.inputs :=
    hinputs ▸ (List.mem_zipIdx_iff_getElem? (x := (inp, i))).mpr hinp
  have hend := Run.foldlM_rule
    (P := fun rest _ => (inp, i) ∈ rest ∨ ∃ r, readInput std i inp = .ok r)
    (fun a rest s s' hleft hstep => ?_) (.inl hmem) h
  · exact hend.resolve_left List.not_mem_nil
  · rcases hleft with hleft | hdone
    · rcases List.mem_cons.mp hleft with rfl | hrest
      · obtain ⟨prevtxout, frInp, -, hread, -⟩ := scanInput_ok hstep
        exact .inr ⟨_, hread⟩
      · exact .inl hrest
    · exact .inr hdone

/-- A frozen output is not spent before its time, whatever the script of its input is, unless
`VerifySignature` returns a key on the list of passes for that input. Below the checkpoints of a
block nothing is verified. -/
theorem connectInputs_frozen {inp : CTxIn} {i : ℕ} {fr : CFractions}
    (hbase : conn.tx.isCoinBase = false) (hstake : conn.tx.isCoinStake = false)
    (hmint : conn.tx.isCoinMint = false)
    (hheight : votes.nPegStartHeight ≤ conn.pindexBlock.nHeight)
    (hverified : ¬(conn.fBlock = true ∧ conn.fBelowCheckpoint = true))
    (hinp : conn.tx.vin[i]? = some inp) (hfr : conn.finputs inp.prevout.fkey = some fr)
    (hfrozen : fr.nFlags.notaryF = true) (htime : conn.pindexBlock.nTime < fr.nLockTime)
    (hpass : ¬PassSigned sp net conn i) :
    connectInputs net votes bp (rules.withMachine sp net) conn = none := by
  by_contra hsome
  obtain ⟨r, hr⟩ := Option.ne_none_iff_exists'.mp hsome
  obtain ⟨-, minted, signed, -, hminted, hsigned, hstandard, -⟩ := connectInputs_ok hbase hr
  have hlifted : LiftedByPasses sp net conn signed :=
    Run.foldlM_some_invariant (fun inp hinp _ _ hold hstep => spendInput_pass hverified
      (List.mem_zipIdx_iff_getElem?.mp hinp) hold hstep) ⟨fun _ => rfl, by simp⟩ hsigned
  unfold connectStandard at hstandard
  rw [if_pos ⟨by simp [hstake], by simp [hmint], hheight⟩] at hstandard
  split at hstandard
  · cases hstandard
  rename_i s hs
  unfold calculateStandardFractions at hs
  obtain ⟨pools, hpools, -⟩ := Run.bind_eq_ok.mp hs
  obtain ⟨⟨prevtxout, frInp⟩, hread⟩ := readInput_of_scanInputs hbase hinp hpools
  obtain ⟨-, fr', hfr', rfl, -⟩ := readInput_ok hread
  obtain rfl : fr' = fr := Option.some.inj (hfr'.symm.trans hfr)
  exact hpass (hlifted.passes i ((readInput_lockTime hread).1 hfrozen htime))

/-! ## A sample -/

def keyNet : Params where
  pegFrozenTime := 100
  pegVFrozenTime := 400
  getHash tx := BitVec.ofNat 256 (tx.vin.length + 1)
  destinations _ := []
  isValidAddress _ := true

def keyPayment : CTransaction where
  vin := []
  vout := [⟨10, pushVch (sampleKey 5) ++ [0xac]⟩]

def keySpend : CTransaction where
  vin := [{ prevout := ⟨1, 0⟩, scriptSig := pushVch (sampleSignature 5 ++ [1]) }]
  vout := [⟨9, [0x51]⟩]

/-- The payment is frozen, and spent before its time with these keys on the list of passes. -/
def frozenCall (passes : Finset CString) : ConnectCall where
  tx := keySpend
  nTimeFetched := 0
  inputs := fun hash =>
    if hash = 1 then some { txindex := { vSpent := [.null] }, tx := keyPayment } else none
  finputs := fun fkey =>
    if fkey = ⟨1, 0⟩ then
      some { CFractions.singleColumn 1 10 with
        nFlags := { std := true, notaryF := true }, nLockTime := 100 }
    else none
  mapTestPool := fun _ => none
  mapTestFractionsPool := fun _ => none
  nBridgePoolNout := 0
  bridges := fun _ => none
  fnMerkleIn := fun _ => none
  timelockpasses := passes
  feesFractions := {}
  posThisTx := .mempool
  pindexBlock := { nHeight := 10, nPegSupplyIndex := 0, nTime := 50, positions := [] }
  fBlock := true
  fMiner := false
  fBelowCheckpoint := false
  flags := MANDATORY_SCRIPT_VERIFY_FLAGS

theorem keySpend_signed (passes : Finset CString) {prev : PrevTx} {inp : CTxIn}
    (hinp : keySpend.vin[0]? = some inp)
    (hprev : (frozenCall passes).inputs inp.prevout.hash = some prev) :
    verifySignature sampleMachine keyNet prev.tx keySpend 0 MANDATORY_SCRIPT_VERIFY_FLAGS 0 =
      some {sampleKey 5} := by
  cases hinp
  cases hprev
  decide +kernel

/-- The signature of the key spends the payment if the key is on the list, and not if another one
is. -/
theorem connectInputs_frozen_sample :
    connectInputs keyNet sampleVotes sampleBridgeParams
      (ScriptRules.withMachine ⟨fun _ _ _ _ => none, fun _ => true, 0⟩ sampleMachine keyNet)
      (frozenCall {pubKeyText (sampleKey 6)}) = none ∧
    (connectInputs keyNet sampleVotes sampleBridgeParams
      (ScriptRules.withMachine ⟨fun _ _ _ _ => none, fun _ => true, 0⟩ sampleMachine keyNet)
      (frozenCall {pubKeyText (sampleKey 5)})).isSome = true := by
  refine ⟨connectInputs_frozen (i := 0) (by decide) (by decide) (by decide) (by decide)
    (by decide) rfl rfl rfl (by decide) ?_, by decide +kernel⟩
  rintro ⟨inp, prev, keys, key, hinp, hprev, hkeys, hkey, hlist⟩
  have hsigned := hkeys.symm.trans (keySpend_signed _ hinp hprev)
  obtain rfl := Option.some.inj hsigned
  obtain rfl := Finset.mem_singleton.mp hkey
  revert hlist
  decide +kernel

end BitBay
