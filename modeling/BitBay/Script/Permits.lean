import BitBay.Script.Templates

/-!
# Calls that check less

The flags of a call add checks to the operations of the machine. A call that checks no more than
another one accepts all that the other one accepts, and reports the same keys: every check that
is left out only stops the machine. The scripts of the inputs are blank in what is signed, so
the calls may also be about transactions that differ in these scripts.
-/
namespace BitBay

/-- The second call checks no more than the first one. -/
structure ScriptCall.Permits (sp : ScriptParams) (call call' : ScriptCall) : Prop where
  encoding : ∀ vchSig vchPubKey, encodingOk call' vchSig vchPubKey = encodingOk call vchSig vchPubKey
  signature : ∀ scriptCode vchSig vchPubKey,
    checkSig sp vchSig vchPubKey scriptCode call'.txTo call'.nIn call'.nHashType =
      checkSig sp vchSig vchPubKey scriptCode call.txTo call.nIn call.nHashType
  lockTime : ∀ nLockTime, checkLockTime call'.txTo call'.nIn nLockTime =
    checkLockTime call.txTo call.nIn nLockTime
  strictenc : hasFlag call'.flags SCRIPT_VERIFY_STRICTENC = true →
    hasFlag call.flags SCRIPT_VERIFY_STRICTENC = true
  nulldummy : hasFlag call'.flags SCRIPT_VERIFY_NULLDUMMY = true →
    hasFlag call.flags SCRIPT_VERIFY_NULLDUMMY = true
  checkLockTimeVerify : hasFlag call'.flags SCRIPT_VERIFY_CHECKLOCKTIMEVERIFY = true →
    hasFlag call.flags SCRIPT_VERIFY_CHECKLOCKTIMEVERIFY = true
  /-- Where the lock time is not checked its operation is one of the discouraged ones. -/
  discourage : hasFlag call'.flags SCRIPT_VERIFY_DISCOURAGE_UPGRADABLE_NOPS = true →
    hasFlag call.flags SCRIPT_VERIFY_DISCOURAGE_UPGRADABLE_NOPS = true ∧
      hasFlag call'.flags SCRIPT_VERIFY_CHECKLOCKTIMEVERIFY =
        hasFlag call.flags SCRIPT_VERIFY_CHECKLOCKTIMEVERIFY

namespace ScriptCall.Permits

variable {sp : ScriptParams} {call call' : ScriptCall} {st st' : EvalState} {rest : CScript}

theorem signatureOk_eq (h : call.Permits sp call') (scriptCode : CScript)
    (vchSig vchPubKey : Vchtype) :
    signatureOk sp call' scriptCode vchSig vchPubKey =
      signatureOk sp call scriptCode vchSig vchPubKey := by
  rw [signatureOk, signatureOk, h.encoding, h.signature]

/-! ## Operations -/

theorem evalLockTime_ok (h : call.Permits sp call') (heval : evalLockTime call st = .ok st') :
    evalLockTime call' st = .ok st' := by
  cases hcheck' : hasFlag call'.flags SCRIPT_VERIFY_CHECKLOCKTIMEVERIFY with
  | true =>
    have hcheck := h.checkLockTimeVerify hcheck'
    unfold evalLockTime at heval ⊢
    simpa only [hcheck, hcheck', h.lockTime, Bool.not_true, Bool.false_eq_true, if_false] using heval
  | false =>
    obtain rfl := evalLockTime_effect heval
    have hdiscourage : hasFlag call'.flags SCRIPT_VERIFY_DISCOURAGE_UPGRADABLE_NOPS = false := by
      by_contra hset
      obtain ⟨hdiscourage, hcheck⟩ := h.discourage (by simpa using hset)
      simp [evalLockTime, ← hcheck, hcheck', hdiscourage] at heval
    simp [evalLockTime, hcheck', hdiscourage]

theorem evalCheckSig_ok (h : call.Permits sp call') {fVerify : Bool}
    (heval : evalCheckSig sp call fVerify st = .ok st') :
    evalCheckSig sp call' fVerify st = .ok st' := by
  rcases hstack : st.stack with _ | ⟨vchPubKey, _ | ⟨vchSig, stack⟩⟩
  · simp [evalCheckSig, hstack] at heval
  · simp [evalCheckSig, hstack] at heval
  · simp only [evalCheckSig, hstack] at heval ⊢
    rw [h.signatureOk_eq]
    by_cases hstrict : hasFlag call.flags SCRIPT_VERIFY_STRICTENC = true ∧
        (!encodingOk call vchSig vchPubKey) = true
    · rw [if_pos hstrict] at heval
      cases heval
    · rw [if_neg hstrict] at heval
      rw [if_neg fun hstrict' => hstrict ⟨h.strictenc hstrict'.1, h.encoding _ _ ▸ hstrict'.2⟩]
      exact heval

theorem multisigLoop_ok (h : call.Permits sp call') {scriptCode : CScript}
    {sigs keys : List Vchtype} {signed : Finset Vchtype} {r : Bool × Finset Vchtype}
    (hloop : multisigLoop sp call scriptCode sigs keys signed = .ok r) :
    multisigLoop sp call' scriptCode sigs keys signed = .ok r := by
  induction keys generalizing sigs signed with
  | nil => cases sigs <;> exact hloop
  | cons vchPubKey keys ih =>
    cases sigs with
    | nil => exact hloop
    | cons vchSig sigs =>
      rw [multisigLoop] at hloop ⊢
      split_ifs at hloop with hstrict
      rw [if_neg fun hstrict' => hstrict ⟨h.strictenc hstrict'.1, h.encoding _ _ ▸ hstrict'.2⟩]
      simp only [h.signatureOk_eq]
      dsimp only at hloop
      split_ifs at hloop ⊢
      all_goals first | exact hloop | exact ih hloop

theorem evalCheckMultisig_ok (h : call.Permits sp call') {fVerify : Bool}
    (heval : evalCheckMultisig sp call fVerify st = .ok st') :
    evalCheckMultisig sp call' fVerify st = .ok st' := by
  unfold evalCheckMultisig at heval ⊢
  cases hargs : multisigArgs st with
  | error e => simp [hargs] at heval
  | ok r =>
    simp only [hargs] at heval ⊢
    split at heval
    · cases heval
    rename_i fSuccess signed hloop
    simp only [h.multisigLoop_ok hloop]
    split_ifs at heval with hdummy
    rw [if_neg fun hdummy' => hdummy ⟨h.nulldummy hdummy'.1, hdummy'.2⟩]
    exact heval

theorem evalOp_ok (h : call.Permits sp call') {op : Opcode}
    (heval : evalOp sp call rest st op = .ok st') : evalOp sp call' rest st op = .ok st' := by
  cases op with
  | OP_CHECKLOCKTIMEVERIFY => exact h.evalLockTime_ok heval
  | OP_CHECKSIG fVerify => exact h.evalCheckSig_ok heval
  | OP_CHECKMULTISIG fVerify => exact h.evalCheckMultisig_ok heval
  | OP_NOPn =>
    simp only [evalOp] at heval ⊢
    split_ifs at heval with hdiscourage
    rw [if_neg fun hdiscourage' => hdiscourage (h.discourage hdiscourage').1]
    exact heval
  | _ => exact heval

/-! ## Scripts -/

theorem evalRound_ok (h : call.Permits sp call') {op : ℕ × Vchtype}
    (heval : evalRound sp call op rest st = .ok st') : evalRound sp call' op rest st = .ok st' := by
  have hexec (st st' : EvalState) (hop : execOp sp call op rest st = .ok st') :
      execOp sp call' op rest st = .ok st' := by
    unfold execOp at hop ⊢
    split_ifs at hop ⊢ with hpush hrun
    · exact hop
    · cases hcode : Opcode.ofCode op.1 with
      | none => simp [hcode] at hop
      | some opcode =>
        simp only [hcode] at hop ⊢
        exact h.evalOp_ok hop
    · exact hop
  unfold evalRound at heval ⊢
  dsimp only at heval ⊢
  split_ifs at heval ⊢
  all_goals
    obtain ⟨mid, hmid, hend⟩ := Run.bind_eq_ok.mp heval
    rw [hexec _ _ hmid]
    exact hend

theorem evalScript_ok (h : call.Permits sp call') {stack : List Vchtype} {script : CScript}
    {signed : Finset Vchtype} (heval : evalScript sp call stack script signed = .ok st') :
    evalScript sp call' stack script signed = .ok st' := by
  rw [evalScript_eq_ok] at heval ⊢
  obtain ⟨hlength, hrun, hend⟩ := heval
  refine ⟨hlength, ?_, hend⟩
  exact Scan.run_mono nextOp_shrinks (fun _ _ hstop => by cases hstop)
    (fun _ _ _ _ hround => h.evalRound_ok hround) hrun

/-- What passes a call passes a call that checks no more, with the same keys. -/
theorem verifyScript_some (h : call.Permits sp call') {scriptSig scriptPubKey : CScript}
    {signed : Finset Vchtype} (hverify : verifyScript sp scriptSig scriptPubKey call = some signed) :
    verifyScript sp scriptSig scriptPubKey call' = some signed := by
  unfold verifyScript at hverify ⊢
  cases h1 : evalScript sp call [] scriptSig ∅ with
  | error e => simp [h1] at hverify
  | ok st1 =>
    cases h2 : evalScript sp call st1.stack scriptPubKey st1.sSignedPubk with
    | error e => simp [h1, h2] at hverify
    | ok st2 =>
      simp only [h1, h2, h.evalScript_ok h1, h.evalScript_ok h2] at hverify ⊢
      split_ifs at hverify ⊢
      · exact hverify
      · cases hstack : st1.stack with
        | nil => simp [hstack] at hverify
        | cons redeem below =>
          cases h3 : evalScript sp call below redeem st2.sSignedPubk with
          | error e => simp [hstack, h3] at hverify
          | ok st3 => simpa only [hstack, h3, h.evalScript_ok h3] using hverify

end ScriptCall.Permits

/-! ## Transactions without the scripts of their inputs -/

def CTransaction.unsigned (tx : CTransaction) : CTransaction :=
  { tx with vin := tx.vin.map fun txin => { txin with scriptSig := [] } }

section Unsigned

variable {sp : ScriptParams} {tx tx' : CTransaction}

theorem signatureTx_unsigned (scriptCode : CScript) (tx : CTransaction) (nIn nHashType : ℕ) :
    signatureTx scriptCode tx.unsigned nIn nHashType =
      signatureTx scriptCode tx nIn nHashType := by
  simp only [signatureTx, CTransaction.unsigned, List.zipIdx_map, List.map_map]
  rfl

/-- What is signed does not depend on the scripts of the inputs. -/
theorem signatureHash_of_unsigned_eq (h : tx.unsigned = tx'.unsigned) (scriptCode : CScript)
    (nIn nHashType : ℕ) :
    signatureHash sp scriptCode tx nIn nHashType = signatureHash sp scriptCode tx' nIn nHashType := by
  have hvin : tx.vin.length = tx'.vin.length := by
    simpa [CTransaction.unsigned] using congrArg (fun tx => tx.vin.length) h
  have hvout : tx.unsigned.vout = tx'.unsigned.vout := congrArg CTransaction.vout h
  change tx.vout = tx'.vout at hvout
  rw [signatureHash, signatureHash, hvin, hvout, ← signatureTx_unsigned, h, signatureTx_unsigned]

theorem checkLockTime_unsigned (tx : CTransaction) (nIn : ℕ) (nLockTime : ℤ) :
    checkLockTime tx.unsigned nIn nLockTime = checkLockTime tx nIn nLockTime := by
  have hfinal : tx.unsigned.vin[nIn]?.any CTxIn.isFinal = tx.vin[nIn]?.any CTxIn.isFinal := by
    rw [CTransaction.unsigned, List.getElem?_map]
    cases tx.vin[nIn]? <;> rfl
  rw [checkLockTime, checkLockTime, hfinal]
  rfl

theorem permits_of_unsigned_eq (h : tx.unsigned = tx'.unsigned) (nIn flags nHashType : ℕ) :
    ScriptCall.Permits sp ⟨tx, nIn, flags, nHashType⟩ ⟨tx', nIn, flags, nHashType⟩ where
  encoding _ _ := rfl
  signature _ _ _ := by
    simp only [checkSig, signatureHash_of_unsigned_eq h]
  lockTime _ := by
    dsimp only
    rw [← checkLockTime_unsigned tx', ← h, checkLockTime_unsigned]
  strictenc := id
  nulldummy := id
  checkLockTimeVerify := id
  discourage hset := ⟨hset, rfl⟩

theorem verifyScript_of_unsigned_eq (h : tx.unsigned = tx'.unsigned)
    (scriptSig scriptPubKey : CScript) (nIn flags nHashType : ℕ) :
    verifyScript sp scriptSig scriptPubKey ⟨tx, nIn, flags, nHashType⟩ =
      verifyScript sp scriptSig scriptPubKey ⟨tx', nIn, flags, nHashType⟩ :=
  Option.ext fun _ =>
    ⟨fun hsome => (permits_of_unsigned_eq h nIn flags nHashType).verifyScript_some hsome,
      fun hsome => (permits_of_unsigned_eq h.symm nIn flags nHashType).verifyScript_some hsome⟩

end Unsigned

end BitBay
