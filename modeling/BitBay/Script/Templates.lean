import BitBay.Library.Matching
import BitBay.Script.Limits

/-!
# Standard scripts

The scripts that outputs usually have pay to a key, to the hash of a key, to some of several
keys or to the hash of another script. Whatever script an input has, an output of such a kind
is spent exactly if the stack that the input leaves has the signatures on it that the kind asks
for.
-/
namespace BitBay

variable {sp : ScriptParams} {call : ScriptCall}

/-! ## Running a script -/

def Runs (sp : ScriptParams) (call : ScriptCall) (s : CScript) (st st' : EvalState) : Prop :=
  Scan.run nextOp (evalRound sp call) .error s st = .ok st'

variable {rest : CScript} {st st' : EvalState}

@[simp] theorem runs_nil : Runs sp call [] st st' ↔ st' = st := by
  simp [Runs, eq_comm]

theorem runs_of_getOp {s : CScript} {opcode : ℕ} {vch : Vchtype}
    (h : s.getOp = some (opcode, vch, rest)) :
    Runs sp call s st st' ↔
      ∃ mid, evalRound sp call (opcode, vch) rest st = .ok mid ∧ Runs sp call rest mid st' := by
  have hnext : nextOp s = some ((opcode, vch), rest) := nextOp_eq_some.mpr h
  unfold Runs
  rw [Scan.run_of_next nextOp_shrinks hnext, Run.bind_eq_ok]

/-- A push of bytes. -/
theorem runs_push {piece : CScript} {opcode : ℕ} {vch : Vchtype} (h : Pushes piece (opcode, vch))
    (hopcode : opcode ≤ CScript.OP_PUSHDATA4) (hexec : st.fExec = true) :
    Runs sp call (piece ++ rest) st st' ↔
      (vch.length ≤ MAX_SCRIPT_ELEMENT_SIZE ∧ st.stack.length + st.altstack.length < 1000) ∧
        Runs sp call rest (st.push vch) st' := by
  have h4 : CScript.OP_PUSHDATA4 = 0x4e := rfl
  have h16 : OP_16 = 0x60 := rfl
  have hlow : ¬OP_16 < opcode := by omega
  have hdisabled : opcode ∉ Opcode.disabled := by
    have hall : ∀ n ∈ Opcode.disabled, 0x4e < n := by decide
    exact fun hmem => (hall _ hmem).not_ge (h4 ▸ hopcode)
  rw [runs_of_getOp (h.getOp rest)]
  by_cases hsize : MAX_SCRIPT_ELEMENT_SIZE < vch.length
  · simp [evalRound, hsize, hsize.not_ge]
  · have hround : evalRound sp call (opcode, vch) rest st =
        if 1000 < st.stack.length + 1 + st.altstack.length then .error (st.push vch)
        else .ok (st.push vch) := by
      simp [evalRound, hsize, hlow, hdisabled, execOp, hexec, hopcode, EvalState.push, bind,
        Except.bind]
    rw [hround]
    split_ifs with hlarge
    · simp only [false_and, exists_false, false_iff]
      rintro ⟨⟨-, hlt⟩, -⟩
      omega
    · simp only [Except.ok.injEq, exists_eq_left']
      exact ⟨fun hr => ⟨⟨not_lt.mp hsize, by omega⟩, hr⟩, fun hr => hr.2⟩

/-- An operation above `OP_16`. -/
theorem runs_opcode {b : UInt8} {op : Opcode} (hcode : OP_16 < b.toNat)
    (hdisabled : b.toNat ∉ Opcode.disabled) (hop : Opcode.ofCode b.toNat = some op)
    (hexec : st.fExec = true) :
    Runs sp call (b :: rest) st st' ↔
      st.nOpCount < 201 ∧ ∃ mid,
        evalOp sp call rest { st with nOpCount := st.nOpCount + 1 } op = .ok mid ∧
          mid.stack.length + mid.altstack.length ≤ 1000 ∧ Runs sp call rest mid st' := by
  have h4 : CScript.OP_PUSHDATA4 = 0x4e := rfl
  have h16 : OP_16 = 0x60 := rfl
  have hhigh : ¬b.toNat ≤ CScript.OP_PUSHDATA4 := by omega
  rw [runs_of_getOp (CScript.getOp_of_lt (by omega) rest)]
  by_cases hops : st.nOpCount < 201
  · have hround : evalRound sp call (b.toNat, []) rest st =
        evalOp sp call rest { st with nOpCount := st.nOpCount + 1 } op >>= fun st =>
          if 1000 < st.stack.length + st.altstack.length then .error st else .ok st := by
      have hexec' : EvalState.fExec { st with nOpCount := st.nOpCount + 1 } = true := hexec
      simp [evalRound, hcode, hdisabled, execOp, hexec', hhigh, hop,
        show ¬201 < st.nOpCount + 1 by omega]
    simp only [hround, hops, true_and, Run.bind_eq_ok]
    constructor
    · rintro ⟨last, ⟨mid, hmid, hsize⟩, hrun⟩
      split_ifs at hsize with hlarge
      cases hsize
      exact ⟨_, hmid, not_lt.mp hlarge, hrun⟩
    · rintro ⟨mid, hmid, hlarge, hrun⟩
      exact ⟨mid, ⟨mid, hmid, if_neg hlarge.not_gt⟩, hrun⟩
  · have hround : evalRound sp call (b.toNat, []) rest st =
        .error { st with nOpCount := st.nOpCount + 1 } := by
      simp [evalRound, hcode, show 201 < st.nOpCount + 1 by omega]
    simp [hround, hops]

theorem evalScript_eq_ok {stack : List Vchtype} {script : CScript} {signed : Finset Vchtype} :
    evalScript sp call stack script signed = .ok st' ↔
      script.length ≤ 10000 ∧
        Runs sp call script { stack := stack, codehash := script, sSignedPubk := signed } st' ∧
        st'.vfExec = [] := by
  unfold evalScript Runs
  dsimp only
  split_ifs with hlong
  · simp [hlong.not_ge]
  · rw [Run.bind_eq_ok]
    constructor
    · rintro ⟨mid, hmid, hend⟩
      split_ifs at hend with hopen
      · cases hend
        exact ⟨not_lt.mp hlong, hmid, not_not.mp hopen⟩
    · rintro ⟨-, hrun, hvfExec⟩
      exact ⟨st', hrun, by simp [hvfExec]⟩

def Accepts (sp : ScriptParams) (call : ScriptCall) (stack : List Vchtype) (script : CScript)
    (signed signed' : Finset Vchtype) : Prop :=
  ∃ st', evalScript sp call stack script signed = .ok st' ∧
    castToBool (st'.stack.headD []) = true ∧ st'.sSignedPubk = signed'

/-- A script other than that of a script hash is evaluated behind the script of the input. -/
theorem verifyScript_eq_some {scriptSig scriptPubKey : CScript} {signed : Finset Vchtype}
    (hp2sh : CScript.isPayToScriptHash scriptPubKey = false) :
    verifyScript sp scriptSig scriptPubKey call = some signed ↔
      ∃ st1, evalScript sp call [] scriptSig ∅ = .ok st1 ∧
        Accepts sp call st1.stack scriptPubKey st1.sSignedPubk signed := by
  unfold verifyScript Accepts
  cases evalScript sp call [] scriptSig ∅ with
  | error e => simp
  | ok st1 =>
    cases hst2 : evalScript sp call st1.stack scriptPubKey st1.sSignedPubk with
    | error e => simp [hst2]
    | ok st2 => cases hbool : castToBool (st2.stack.headD []) <;> simp [hp2sh, hst2]

/-! ## Keys -/

theorem castToBool_vchBool (b : Bool) : castToBool (vchBool b) = b := by cases b <;> decide

/-- The end of a script that checks a signature. -/
theorem runs_checkSig (hexec : st.fExec = true) (hops : st.nOpCount < 201)
    (hsize : st.stack.length + st.altstack.length ≤ 1000) :
    (Runs sp call [0xac] st st' ∧ castToBool (st'.stack.headD []) = true) ↔
      ∃ vchPubKey vchSig below, st.stack = vchPubKey :: vchSig :: below ∧
        signatureOk sp call (st.codehash.findAndDelete (pushVch vchSig)) vchSig vchPubKey = true ∧
        st' = { st with
          stack := vchTrue :: below
          nOpCount := st.nOpCount + 1
          sSignedPubk := insert vchPubKey st.sSignedPubk } := by
  rw [runs_opcode (by decide) (by decide)
    (show Opcode.ofCode (0xac : UInt8).toNat = some (.OP_CHECKSIG false) by decide) hexec]
  simp only [runs_nil, evalOp, evalCheckSig, hops, true_and]
  rcases hstack : st.stack with _ | ⟨vchPubKey, _ | ⟨vchSig, below⟩⟩
  · simp
  · simp
  · rw [hstack] at hsize
    simp only [List.length_cons] at hsize
    have hencoding : signatureOk sp call (st.codehash.findAndDelete (pushVch vchSig)) vchSig
        vchPubKey = true → encodingOk call vchSig vchPubKey = true := fun h =>
      (Bool.and_eq_true_iff.mp h).1
    simp only [List.cons.injEq, EvalState.verify, Bool.false_eq_true, if_false]
    cases hsig : signatureOk sp call (st.codehash.findAndDelete (pushVch vchSig)) vchSig
        vchPubKey with
    | true =>
      simp only [hencoding hsig, Bool.not_true, Bool.false_eq_true, and_false, if_false, if_true,
        Except.ok.injEq, exists_eq_left', vchBool, List.length_cons]
      constructor
      · rintro ⟨⟨hlen, rfl⟩, -⟩
        exact ⟨vchPubKey, vchSig, below, ⟨rfl, rfl, rfl⟩, hsig, rfl⟩
      · rintro ⟨_, _, _, ⟨rfl, rfl, rfl⟩, -, rfl⟩
        exact ⟨⟨by omega, rfl⟩, rfl⟩
    | false =>
      simp only [Bool.false_eq_true, if_false, vchBool]
      constructor
      · rintro ⟨⟨mid, hmid, -, rfl⟩, hbool⟩
        split_ifs at hmid
        cases hmid
        simp [vchFalse, castToBool] at hbool
      · rintro ⟨_, _, _, ⟨rfl, rfl, rfl⟩, hok, -⟩
        rw [hsig] at hok
        cases hok

/-- An operation whose effect is known. -/
theorem runs_of_evalOp {b : UInt8} {op : Opcode} {mid : EvalState} (hcode : OP_16 < b.toNat)
    (hdisabled : b.toNat ∉ Opcode.disabled) (hop : Opcode.ofCode b.toNat = some op)
    (hexec : st.fExec = true) (hops : st.nOpCount < 201)
    (heval : evalOp sp call rest { st with nOpCount := st.nOpCount + 1 } op = .ok mid)
    (hsize : mid.stack.length + mid.altstack.length ≤ 1000) :
    Runs sp call (b :: rest) st st' ↔ Runs sp call rest mid st' := by
  rw [runs_opcode hcode hdisabled hop hexec]
  simp [hops, heval, hsize]

theorem pushes_id (id : UInt160) : Pushes (0x14 :: id.toBytes) (20, id.toBytes) where
  ne_nil := List.cons_ne_nil _ _
  opcode := show 20 ≤ OP_16 by decide
  getOp rest := CScript.getOp_push20 id.length_toBytes rest

theorem UInt160.toBytes_inj {id id' : UInt160} : id.toBytes = id'.toBytes ↔ id = id' := by
  refine ⟨fun h => ?_, fun h => by rw [h]⟩
  rw [← ofBytes_toBytes id, h, ofBytes_toBytes]

/-- The operations of a script that compare the hash of the top value. -/
theorem runs_hashEqual {id : UInt160} {b : UInt8} {fVerify : Bool} {vch : Vchtype}
    {below : List Vchtype} (hcode : OP_16 < b.toNat) (hdisabled : b.toNat ∉ Opcode.disabled)
    (hop : Opcode.ofCode b.toNat = some (.OP_EQUAL fVerify)) (hexec : st.fExec = true)
    (hops : st.nOpCount < 200) (hstack : st.stack = vch :: below)
    (hsize : st.stack.length + st.altstack.length ≤ 1000) :
    Runs sp call (0xa9 :: 0x14 :: (id.toBytes ++ b :: rest)) st st' ↔
      st.stack.length + st.altstack.length < 1000 ∧
        ∃ mid, EvalState.verify { st with
            stack := vchBool (sp.Hash160 vch = id) :: below, nOpCount := st.nOpCount + 2 }
          fVerify (sp.Hash160 vch = id) = .ok mid ∧ Runs sp call rest mid st' := by
  have hhash : evalOp sp call (0x14 :: (id.toBytes ++ b :: rest))
      { st with nOpCount := st.nOpCount + 1 } (.hash .OP_HASH160) =
      .ok { st with stack := (sp.Hash160 vch).toBytes :: below, nOpCount := st.nOpCount + 1 } := by
    simp [evalOp, hstack, HashOp.apply]
  have hequal : decide ((sp.Hash160 vch).toBytes = id.toBytes) = decide (sp.Hash160 vch = id) := by
    simp only [UInt160.toBytes_inj]
  refine (runs_of_evalOp (by decide) (by decide)
    (show Opcode.ofCode (0xa9 : UInt8).toNat = some (.hash .OP_HASH160) by decide) hexec
    (by omega) hhash (by simpa [hstack] using hsize)).trans ?_
  refine (runs_push (pushes_id id) (by decide) (by exact hexec)).trans ?_
  rw [runs_opcode hcode hdisabled hop (by exact hexec)]
  simp only [EvalState.push, evalOp, hequal, hstack, List.length_cons] at *
  constructor
  · rintro ⟨⟨-, hlt⟩, -, mid, hmid, -, hrun⟩
    exact ⟨hlt, mid, hmid, hrun⟩
  · rintro ⟨hlt, mid, hmid, hrun⟩
    refine ⟨⟨id.length_toBytes.le.trans (by decide), hlt⟩, by omega, mid, hmid, ?_, hrun⟩
    unfold EvalState.verify at hmid
    split_ifs at hmid <;> cases hmid <;> simp only [List.length_cons, List.tail_cons] <;> omega

theorem runs_keyID {id : UInt160} (hexec : st.fExec = true) (hops : st.nOpCount < 190) :
    (Runs sp call (CScript.setDestination (.keyID id)) st st' ∧
        castToBool (st'.stack.headD []) = true) ↔
      st.stack.length + st.altstack.length ≤ 998 ∧
        ∃ vchPubKey vchSig below, st.stack = vchPubKey :: vchSig :: below ∧
          sp.Hash160 vchPubKey = id ∧
          signatureOk sp call (st.codehash.findAndDelete (pushVch vchSig)) vchSig vchPubKey = true ∧
          st' = { st with
            stack := vchTrue :: below
            nOpCount := st.nOpCount + 4
            sSignedPubk := insert vchPubKey st.sSignedPubk } := by
  have hscript : CScript.setDestination (.keyID id) =
      0x76 :: 0xa9 :: 0x14 :: (id.toBytes ++ [0x88, 0xac]) := rfl
  obtain ⟨stack, altstack, vfExec, nOpCount, codehash, signed⟩ := st
  dsimp only at hops ⊢
  rw [hscript, runs_opcode (by decide) (by decide)
    (show Opcode.ofCode (0x76 : UInt8).toNat = some (.stackOp .OP_DUP) by decide) hexec]
  rcases stack with _ | ⟨vchPubKey, below⟩
  · simp [evalOp, StackOp.apply]
  · simp only [evalOp, StackOp.apply, Except.ok.injEq, exists_eq_left',
      show nOpCount < 201 by omega, true_and, List.length_cons]
    by_cases hsize : below.length + 1 + 1 + altstack.length ≤ 1000
    · rw [runs_hashEqual (by decide) (by decide)
        (show Opcode.ofCode (0x88 : UInt8).toNat = some (.OP_EQUAL true) by decide) (by exact hexec)
        (by dsimp only; omega) rfl (by simpa using hsize)]
      simp only [hsize, true_and, List.length_cons, EvalState.verify, if_true, List.tail_cons]
      by_cases hid : sp.Hash160 vchPubKey = id
      · simp only [hid, decide_true, if_true, Except.ok.injEq, exists_eq_left', and_assoc]
        rw [runs_checkSig (by exact hexec) (by dsimp only; omega)
          (by simp only [List.length_cons]; omega)]
        constructor
        · rintro ⟨hlt, key, vchSig, below', heq, hsig, rfl⟩
          cases heq
          exact ⟨by omega, _, _, _, rfl, hid, hsig, rfl⟩
        · rintro ⟨hlt, key, vchSig, below', heq, -, hsig, rfl⟩
          cases heq
          exact ⟨by omega, _, _, _, rfl, hsig, rfl⟩
      · simp only [hid, decide_false, Bool.false_eq_true, if_false, reduceCtorEq, false_and,
          exists_false, and_false, false_iff]
        rintro ⟨-, _, _, _, heq, hid', -⟩
        cases heq
        exact hid hid'
    · simp only [hsize, false_and, false_iff]
      rintro ⟨hlt, -⟩
      omega

/-- A script that pays to a key accepts a signature of the key on top. -/
theorem accepts_pubKey {stack : List Vchtype} {key : Vchtype} {signed signed' : Finset Vchtype}
    (hkey : key.length ≤ MAX_SCRIPT_ELEMENT_SIZE) :
    Accepts sp call stack (pushVch key ++ [0xac]) signed signed' ↔
      ∃ vchSig below, stack = vchSig :: below ∧ stack.length ≤ 999 ∧
        signatureOk sp call
          (CScript.findAndDelete (pushVch key ++ [0xac]) (pushVch vchSig)) vchSig key = true ∧
        signed' = insert key signed := by
  have hmax : MAX_SCRIPT_ELEMENT_SIZE = 520 := rfl
  have hlength : (pushVch key ++ [0xac]).length ≤ 10000 := by
    unfold pushVch
    dsimp only
    split_ifs <;> simp only [List.length_cons, List.length_append, List.length_map,
      List.length_range, List.length_nil] <;> omega
  have hpush := pushes_vch (show key.length < 2 ^ 32 by omega)
  unfold Accepts
  simp only [evalScript_eq_ok, hlength, true_and]
  constructor
  · rintro ⟨st', ⟨hrun, -⟩, hbool, rfl⟩
    rw [runs_push hpush (vchOp_le key) rfl] at hrun
    obtain ⟨⟨-, hsize⟩, hrun⟩ := hrun
    simp only [EvalState.push, List.length_nil, Nat.add_zero] at hsize hrun
    obtain ⟨vchPubKey, vchSig, below, hstack, hsig, rfl⟩ :=
      (runs_checkSig (by rfl) (show 0 < 201 by decide)
        (by simp only [List.length_cons, List.length_nil]; omega)).mp ⟨hrun, hbool⟩
    cases hstack
    exact ⟨vchSig, below, rfl, by omega, hsig, rfl⟩
  · rintro ⟨vchSig, below, rfl, hsize, hsig, rfl⟩
    let start : EvalState := ⟨key :: vchSig :: below, [], [], 0, pushVch key ++ [0xac], signed⟩
    obtain ⟨hrun, hbool⟩ := (runs_checkSig (show start.fExec = true by rfl)
      (show 0 < 201 by decide) (Nat.succ_le_succ hsize)).mpr
        ⟨key, vchSig, below, rfl, hsig, rfl⟩
    refine ⟨_, ⟨?_, rfl⟩, hbool, rfl⟩
    rw [runs_push hpush (vchOp_le key) rfl]
    exact ⟨⟨hkey, Nat.lt_succ_of_le hsize⟩, hrun⟩

/-- A script that pays to the hash of a key accepts the key on top of a signature of it. -/
theorem accepts_keyID {stack : List Vchtype} {id : UInt160} {signed signed' : Finset Vchtype} :
    Accepts sp call stack (CScript.setDestination (.keyID id)) signed signed' ↔
      ∃ vchPubKey vchSig below, stack = vchPubKey :: vchSig :: below ∧ stack.length ≤ 998 ∧
        sp.Hash160 vchPubKey = id ∧
        signatureOk sp call
          (CScript.findAndDelete (CScript.setDestination (.keyID id)) (pushVch vchSig))
          vchSig vchPubKey = true ∧
        signed' = insert vchPubKey signed := by
  have hlength : (CScript.setDestination (.keyID id)).length = 25 := by
    simp [CScript.setDestination]
  unfold Accepts
  simp only [evalScript_eq_ok, hlength]
  constructor
  · rintro ⟨st2, ⟨-, hrun, -⟩, hbool, rfl⟩
    obtain ⟨hsize, key, vchSig, below, hstack, hid, hsig, rfl⟩ :=
      (runs_keyID (by rfl) (show 0 < 190 by decide)).mp ⟨hrun, hbool⟩
    exact ⟨key, vchSig, below, hstack, by simpa using hsize, hid, hsig, rfl⟩
  · rintro ⟨key, vchSig, below, hstack, hsize, hid, hsig, rfl⟩
    let start : EvalState := ⟨stack, [], [], 0, CScript.setDestination (.keyID id), signed⟩
    have hexec : start.fExec = true := rfl
    obtain ⟨hrun, hbool⟩ := (runs_keyID hexec (show 0 < 190 by decide)).mpr
      ⟨by simpa [start] using hsize, key, vchSig, below, hstack, hid, hsig, rfl⟩
    exact ⟨_, ⟨by decide, hrun, rfl⟩, hbool, rfl⟩

theorem isPayToScriptHash_keyID (id : UInt160) :
    CScript.isPayToScriptHash (CScript.setDestination (.keyID id)) = false := by
  have hlength : (CScript.setDestination (.keyID id)).length = 25 := by
    simp [CScript.setDestination]
  simp [CScript.isPayToScriptHash, hlength]

/-- An output that pays to the hash of a key is spent exactly with the key and a signature of it
over the transaction. -/
theorem verifyScript_keyID {scriptSig : CScript} {id : UInt160} {signed : Finset Vchtype} :
    verifyScript sp scriptSig (CScript.setDestination (.keyID id)) call = some signed ↔
      ∃ st1 vchPubKey vchSig below, evalScript sp call [] scriptSig ∅ = .ok st1 ∧
        st1.stack = vchPubKey :: vchSig :: below ∧ st1.stack.length ≤ 998 ∧
        sp.Hash160 vchPubKey = id ∧
        signatureOk sp call
          (CScript.findAndDelete (CScript.setDestination (.keyID id)) (pushVch vchSig))
          vchSig vchPubKey = true ∧
        signed = insert vchPubKey st1.sSignedPubk := by
  simp only [verifyScript_eq_some (isPayToScriptHash_keyID id), accepts_keyID]
  constructor
  · rintro ⟨st1, hst1, key, vchSig, below, hspend⟩
    exact ⟨st1, key, vchSig, below, hst1, hspend⟩
  · rintro ⟨st1, key, vchSig, below, hst1, hspend⟩
    exact ⟨st1, hst1, key, vchSig, below, hspend⟩

/-! ## Script hashes -/

theorem isPayToScriptHash_scriptID (id : UInt160) :
    CScript.isPayToScriptHash (CScript.setDestination (.scriptID id)) = true := by
  have hscript : CScript.setDestination (.scriptID id) = 0xa9 :: 0x14 :: (id.toBytes ++ [0x87]) := rfl
  have hlast : (CScript.setDestination (.scriptID id)).getD 22 0 = 0x87 := by
    rw [hscript, List.getD_cons_succ, List.getD_cons_succ, List.getD_append_right _ _ _ _ (by simp)]
    simp
  rw [CScript.isPayToScriptHash, hlast]
  simp [hscript]

/-- The script of a script hash leaves the stack and looks at the top of it. -/
theorem evalScript_scriptID {id : UInt160} {stack : List Vchtype} {signed : Finset Vchtype} :
    (evalScript sp call stack (CScript.setDestination (.scriptID id)) signed = .ok st' ∧
        castToBool (st'.stack.headD []) = true) ↔
      ∃ vch below, stack = vch :: below ∧ stack.length ≤ 999 ∧ sp.Hash160 vch = id ∧
        st' = {
          stack := vchTrue :: below
          nOpCount := 2
          codehash := CScript.setDestination (.scriptID id)
          sSignedPubk := signed } := by
  have hlength : (CScript.setDestination (.scriptID id)).length = 23 := by
    simp [CScript.setDestination]
  have hscript : CScript.setDestination (.scriptID id) =
      0xa9 :: 0x14 :: (id.toBytes ++ 0x87 :: []) := rfl
  rw [evalScript_eq_ok, hlength]
  generalize CScript.setDestination (.scriptID id) = code at *
  subst hscript
  rcases stack with _ | ⟨vch, below⟩
  · rw [runs_opcode (by decide) (by decide)
      (show Opcode.ofCode (0xa9 : UInt8).toNat = some (.hash .OP_HASH160) by decide) rfl]
    simp [evalOp]
  · by_cases hsize : (vch :: below).length ≤ 1000
    · rw [runs_hashEqual (by decide) (by decide)
        (show Opcode.ofCode (0x87 : UInt8).toNat = some (.OP_EQUAL false) by decide) rfl
        (show 0 < 200 by decide) rfl (by simpa using hsize)]
      simp only [EvalState.verify, Bool.false_eq_true, if_false, Except.ok.injEq, exists_eq_left',
        runs_nil, List.length_nil, Nat.add_zero, Nat.zero_add]
      constructor
      · rintro ⟨⟨-, ⟨hlt, rfl⟩, -⟩, hbool⟩
        rw [List.headD_cons, castToBool_vchBool, decide_eq_true_iff] at hbool
        exact ⟨vch, below, rfl, by omega, hbool, by rw [hbool]; simp [vchBool]⟩
      · rintro ⟨_, _, heq, hlt, hid, rfl⟩
        cases heq
        exact ⟨⟨by decide, ⟨by omega, by simp [hid, vchBool]⟩, rfl⟩, rfl⟩
    · rw [runs_opcode (by decide) (by decide)
        (show Opcode.ofCode (0xa9 : UInt8).toNat = some (.hash .OP_HASH160) by decide) rfl]
      simp only [evalOp, Except.ok.injEq, exists_eq_left']
      constructor
      · rintro ⟨⟨-, ⟨-, hlt, -⟩, -⟩, -⟩
        exact absurd hlt (by simpa using hsize)
      · rintro ⟨_, _, heq, hlt, -⟩
        omega

/-- An output that pays to the hash of a script is spent exactly with pushes, the last of which
is a script of that hash that accepts the values pushed before it. -/
theorem verifyScript_scriptID {scriptSig : CScript} {id : UInt160} {signed : Finset Vchtype} :
    verifyScript sp scriptSig (CScript.setDestination (.scriptID id)) call = some signed ↔
      CScript.isPushOnly scriptSig = true ∧ ∃ st1 pubKeySerialized below,
        evalScript sp call [] scriptSig ∅ = .ok st1 ∧ st1.stack = pubKeySerialized :: below ∧
        st1.stack.length ≤ 999 ∧ sp.Hash160 pubKeySerialized = id ∧
        Accepts sp call below pubKeySerialized st1.sSignedPubk signed := by
  have hp2sh := isPayToScriptHash_scriptID id
  constructor
  · intro h
    unfold verifyScript at h
    cases hst1 : evalScript sp call [] scriptSig ∅ with
    | error e => simp [hst1] at h
    | ok st1 =>
      cases hst2 : evalScript sp call st1.stack (CScript.setDestination (.scriptID id))
          st1.sSignedPubk with
      | error e => simp [hst1, hst2] at h
      | ok st2 =>
        simp only [hst1, hst2, hp2sh, Bool.not_true, Bool.false_eq_true, if_false] at h
        split_ifs at h with hbool hpush
        simp only [Bool.not_eq_true', Bool.not_eq_false] at hbool hpush
        obtain ⟨redeem, below, hstack, hsize, hid, rfl⟩ := evalScript_scriptID.mp ⟨hst2, hbool⟩
        simp only [hstack] at h
        cases hst3 : evalScript sp call below redeem st1.sSignedPubk with
        | error e => simp [hst3] at h
        | ok st3 =>
          simp only [hst3, Option.ite_none_right_eq_some, Option.some.injEq] at h
          exact ⟨hpush, st1, redeem, below, rfl, hstack, hsize, hid, st3, hst3, h.1, h.2⟩
  · rintro ⟨hpush, st1, redeem, below, hst1, hstack, hsize, hid, st3, hst3, hbool, rfl⟩
    rw [hstack] at hsize
    have hst2 : evalScript sp call (redeem :: below) (CScript.setDestination (.scriptID id))
        st1.sSignedPubk = .ok {
          stack := vchTrue :: below
          nOpCount := 2
          codehash := CScript.setDestination (.scriptID id)
          sSignedPubk := st1.sSignedPubk } :=
      (evalScript_scriptID.mpr ⟨redeem, below, rfl, hsize, hid, rfl⟩).1
    have htrue : castToBool vchTrue = true := rfl
    unfold verifyScript
    simp only [hst1, hstack, hst2, List.headD_cons, htrue, hp2sh, hpush, hst3, hbool,
      Bool.not_true, Bool.false_eq_true, if_false, if_true]

end BitBay
