import BitBay.Script.Templates

/-!
# Signatures of some of several keys

`OP_CHECKMULTISIG` goes through the signatures and the keys once, from the top of the stack
down. It never goes back, and it stops as soon as fewer keys than signatures are left. It still
finds out whether the signatures belong to different keys in the same order.
-/
namespace BitBay

open List

variable {sp : ScriptParams} {call : ScriptCall} {code : CScript} {sigs keys : List Vchtype}
  {signed signed' : Finset Vchtype}

def SignatureOf (sp : ScriptParams) (call : ScriptCall) (code : CScript)
    (vchSig vchPubKey : Vchtype) : Prop :=
  signatureOk sp call code vchSig vchPubKey = true

theorem SignatureOf.encoding {vchSig vchPubKey : Vchtype}
    (h : SignatureOf sp call code vchSig vchPubKey) :
    checkSignatureEncoding vchSig call.flags = true ∧ checkPubKeyEncoding vchPubKey = true := by
  unfold SignatureOf signatureOk encodingOk at h
  simp only [Bool.and_eq_true] at h
  exact h.1

/-- One round of the loop with a signature of the key. -/
theorem multisigLoop_of_signature {vchSig vchPubKey : Vchtype}
    (h : SignatureOf sp call code vchSig vchPubKey) :
    multisigLoop sp call code (vchSig :: sigs) (vchPubKey :: keys) signed =
      if keys.length < sigs.length then .ok (false, insert vchPubKey signed)
      else multisigLoop sp call code sigs keys (insert vchPubKey signed) := by
  have hencoding : encodingOk call vchSig vchPubKey = true := by
    simp [encodingOk, h.encoding]
  rw [multisigLoop]
  simp only [hencoding, Bool.not_true, Bool.false_eq_true, and_false, if_false,
    show signatureOk sp call code vchSig vchPubKey = true from h, if_true]

/-- One round of the loop with a signature that is not one of the key. -/
theorem multisigLoop_of_not_signature {vchSig vchPubKey : Vchtype}
    (h : ¬SignatureOf sp call code vchSig vchPubKey) :
    multisigLoop sp call code (vchSig :: sigs) (vchPubKey :: keys) signed =
      if hasFlag call.flags SCRIPT_VERIFY_STRICTENC ∧ !encodingOk call vchSig vchPubKey then
        .error signed
      else if keys.length < (vchSig :: sigs).length then .ok (false, signed)
      else multisigLoop sp call code (vchSig :: sigs) keys signed := by
  have hfalse : signatureOk sp call code vchSig vchPubKey = false := Bool.eq_false_iff.mpr h
  rw [multisigLoop]
  simp only [hfalse, Bool.false_eq_true, if_false]

/-- The loop that succeeds has found keys for the signatures, and has recorded these keys. -/
theorem multisigLoop_sound
    (h : multisigLoop sp call code sigs keys signed = .ok (true, signed')) :
    ∃ chosen, Forall₂ (SignatureOf sp call code) sigs chosen ∧ chosen <+ keys ∧
      signed' = signed ∪ chosen.toFinset := by
  induction keys generalizing sigs signed with
  | nil =>
    cases sigs with
    | nil =>
      cases h
      exact ⟨[], .nil, nil_sublist _, by simp⟩
    | cons vchSig sigs => cases h
  | cons vchPubKey keys ih =>
    cases sigs with
    | nil =>
      cases h
      exact ⟨[], .nil, nil_sublist _, by simp⟩
    | cons vchSig sigs =>
      by_cases hsig : SignatureOf sp call code vchSig vchPubKey
      · rw [multisigLoop_of_signature hsig] at h
        split_ifs at h with hfew
        · cases h
        · obtain ⟨chosen, hmatch, hsub, rfl⟩ := ih h
          refine ⟨vchPubKey :: chosen, .cons hsig hmatch, hsub.cons_cons vchPubKey, ?_⟩
          rw [toFinset_cons, Finset.insert_union, Finset.union_insert]
      · rw [multisigLoop_of_not_signature hsig] at h
        split_ifs at h
        · cases h
        · obtain ⟨chosen, hmatch, hsub, hsigned⟩ := ih h
          exact ⟨chosen, hmatch, hsub.cons vchPubKey, hsigned⟩

/-- The loop finds keys for the signatures whenever there are any. -/
theorem multisigLoop_complete (hkeys : ∀ key ∈ keys, checkPubKeyEncoding key = true)
    (h : SublistForall₂ (SignatureOf sp call code) sigs keys) (signed : Finset Vchtype) :
    ∃ signed', multisigLoop sp call code sigs keys signed = .ok (true, signed') := by
  induction keys generalizing sigs signed with
  | nil =>
    cases h
    exact ⟨signed, rfl⟩
  | cons vchPubKey keys ih =>
    have hrest : ∀ key ∈ keys, checkPubKeyEncoding key = true := fun key hkey =>
      hkeys key (mem_cons_of_mem _ hkey)
    cases sigs with
    | nil => exact ⟨signed, rfl⟩
    | cons vchSig sigs =>
      by_cases hsig : SignatureOf sp call code vchSig vchPubKey
      · have hmatch := (Matching.sublistForall₂_cons_of_rel hsig).mp h
        have hlength := Matching.length_le_of_sublistForall₂ hmatch
        rw [multisigLoop_of_signature hsig, if_neg hlength.not_gt]
        exact ih hrest hmatch _
      · have hmatch := (Matching.sublistForall₂_cons_of_not_rel hsig).mp h
        have hlength := Matching.length_le_of_sublistForall₂ hmatch
        -- The signature has a key further on, so its own encoding is allowed.
        obtain ⟨key, -, hkey⟩ := Matching.exists_of_mem_sublistForall₂ hmatch mem_cons_self
        have hencoding : encodingOk call vchSig vchPubKey = true := by
          simp [encodingOk, hkey.encoding.1, hkeys vchPubKey mem_cons_self]
        rw [multisigLoop_of_not_signature hsig, if_neg (by simp [hencoding]),
          if_neg hlength.not_gt]
        exact ih hrest hmatch _

/-! ## Scripts for several keys -/

def encodeOP_N (n : ℕ) : UInt8 := if n = 0 then 0 else UInt8.ofNat (OP_1 + n - 1)

def CScript.setMultisig (nRequired : ℕ) (keys : List Vchtype) : CScript :=
  encodeOP_N nRequired :: (keys.flatMap pushVch ++ [encodeOP_N keys.length, 0xae])

variable {rest : CScript} {st st' : EvalState}

theorem toNat_encodeOP_N {n : ℕ} (hpos : 1 ≤ n) (h : n ≤ 16) : (encodeOP_N n).toNat = 0x50 + n := by
  have h1 : OP_1 = 81 := rfl
  rw [encodeOP_N, if_neg (by omega), UInt8.toNat_ofNat_of_lt' (by simp only [UInt8.size]; omega)]
  omega

theorem castToBigNum_bigNumVch {n : ℕ} (h : n ≤ 16) : castToBigNum (bigNumVch n) = some (n : ℤ) := by
  have hlength : (bigNumVch n).length ≤ 4 :=
    (length_bigNumVch_le (j := 0) (by decide) (by omega)).trans (by decide)
  rw [castToBigNum_eq hlength (by decide), bigNumOfVch_bigNumVch (by omega) (by omega)]

/-- An operation that pushes a small number. -/
theorem runs_number {n : ℕ} (hpos : 1 ≤ n) (h : n ≤ 16) (hexec : st.fExec = true) :
    Runs sp call (encodeOP_N n :: rest) st st' ↔
      st.stack.length + st.altstack.length < 1000 ∧
        Runs sp call rest (st.push (bigNumVch n)) st' := by
  have hcode := toNat_encodeOP_N hpos h
  have h4 : CScript.OP_PUSHDATA4 = 0x4e := rfl
  have h16 : OP_16 = 0x60 := rfl
  have h1 : OP_1 = 0x51 := rfl
  have hop : Opcode.ofCode (0x50 + n) = some (.number n) := by
    rw [Opcode.ofCode, if_pos (.inr ⟨by omega, by omega⟩)]
    congr 2
    push_cast [h1]
    omega
  have hdisabled : 0x50 + n ∉ Opcode.disabled := by
    have hall : ∀ k ∈ Opcode.disabled, 0x60 < k := by decide
    exact fun hmem => absurd (hall _ hmem) (by omega)
  rw [runs_of_getOp (CScript.getOp_of_lt (by omega) rest), hcode]
  have hround : evalRound sp call (0x50 + n, []) rest st =
      if 1000 < st.stack.length + 1 + st.altstack.length then .error (st.push (bigNumVch n))
      else .ok (st.push (bigNumVch n)) := by
    simp [evalRound, show ¬OP_16 < 0x50 + n by omega, hdisabled, execOp, hexec,
      show ¬0x50 + n ≤ CScript.OP_PUSHDATA4 by omega, hop, evalOp, EvalState.push, bind,
      Except.bind]
  rw [hround]
  split_ifs with hlarge
  · simp only [false_and, exists_false, false_iff]
    rintro ⟨hlt, -⟩
    omega
  · simp only [Except.ok.injEq, exists_eq_left']
    exact ⟨fun hr => ⟨by omega, hr⟩, fun hr => hr.2⟩

/-- Pushes one behind the other. -/
theorem runs_pushes {vchs : List Vchtype}
    (hvchs : ∀ vch ∈ vchs, vch.length ≤ MAX_SCRIPT_ELEMENT_SIZE) (hexec : st.fExec = true)
    (hsize : st.stack.length + st.altstack.length ≤ 1000) :
    Runs sp call (vchs.flatMap pushVch ++ rest) st st' ↔
      vchs.length + st.stack.length + st.altstack.length ≤ 1000 ∧
        Runs sp call rest { st with stack := vchs.reverse ++ st.stack } st' := by
  induction vchs generalizing st with
  | nil => simpa using fun _ => hsize
  | cons vch vchs ih =>
    have hlength := hvchs vch mem_cons_self
    have hmax : MAX_SCRIPT_ELEMENT_SIZE = 520 := rfl
    have hpush := pushes_vch (show vch.length < 2 ^ 32 by omega)
    rw [flatMap_cons, append_assoc, runs_push hpush (vchOp_le vch) hexec]
    constructor
    · rintro ⟨⟨-, hlt⟩, hrun⟩
      rw [ih (fun v hv => hvchs v (mem_cons_of_mem _ hv)) (by exact hexec)
        (by simp only [EvalState.push, length_cons]; omega)] at hrun
      simp only [EvalState.push, length_cons, reverse_cons, append_assoc, singleton_append] at hrun ⊢
      exact ⟨by omega, hrun.2⟩
    · rintro ⟨hlt, hrun⟩
      simp only [length_cons] at hlt
      refine ⟨⟨hlength, by omega⟩, ?_⟩
      rw [ih (fun v hv => hvchs v (mem_cons_of_mem _ hv)) (by exact hexec)
        (by simp only [EvalState.push, length_cons]; omega)]
      simp only [EvalState.push, length_cons, reverse_cons, append_assoc, singleton_append] at hrun ⊢
      exact ⟨by omega, hrun⟩

/-- The arguments behind the two numbers. -/
theorem multisigArgs_of_stack (st : EvalState) (keys : List Vchtype) {nRequired : ℕ}
    {below : List Vchtype} (hm : nRequired ≤ keys.length) (hn : keys.length ≤ 16)
    (hops : st.nOpCount + keys.length ≤ 201)
    (hstack : st.stack = bigNumVch keys.length :: (keys ++ bigNumVch nRequired :: below)) :
    (∃ e, multisigArgs st = .error e) ∧ below.length ≤ nRequired ∨
      ∃ sigs dummy below', below = sigs ++ dummy :: below' ∧ sigs.length = nRequired ∧
        multisigArgs st = .ok (keys.length, ⟨sigs, keys, dummy, below'⟩) := by
  have hdrop : (keys ++ bigNumVch nRequired :: below).drop keys.length =
      bigNumVch nRequired :: below := drop_left
  have htake : (keys ++ bigNumVch nRequired :: below).take keys.length = keys := take_left
  have hranges : ¬((keys.length : ℤ) < 0 ∨ 20 < (keys.length : ℤ)) ∧
      ¬201 < st.nOpCount + keys.length ∧
      ¬((nRequired : ℤ) < 0 ∨ (keys.length : ℤ) < nRequired) := by omega
  obtain ⟨hrange, hcount, hsigs⟩ := hranges
  cases hbelow : below.drop nRequired with
  | nil =>
    refine .inl ⟨⟨{ st with nOpCount := st.nOpCount + keys.length }, ?_⟩, drop_eq_nil_iff.mp hbelow⟩
    simp only [multisigArgs, hstack, castToBigNum_bigNumVch hn, castToBigNum_bigNumVch (hm.trans hn),
      Int.toNat_natCast, hdrop, if_neg hrange, if_neg hcount, if_neg hsigs, hbelow]
  | cons dummy below' =>
    obtain ⟨heq, hlength⟩ := take_of_drop_eq_cons hbelow
    refine .inr ⟨below.take nRequired, dummy, below', heq, hlength, ?_⟩
    simp only [multisigArgs, hstack, castToBigNum_bigNumVch hn, castToBigNum_bigNumVch (hm.trans hn),
      Int.toNat_natCast, hdrop, htake, if_neg hrange, if_neg hcount, if_neg hsigs, hbelow]

/-- The arguments of a script for several keys on the stack of the input. The signatures stand
there in the order of the keys, the last one on top. -/
structure HasSignatures (sp : ScriptParams) (call : ScriptCall) (nRequired : ℕ)
    (keys : List Vchtype) (code : CScript) (stack vchSigs : List Vchtype) (dummy : Vchtype)
    (below : List Vchtype) : Prop where
  stack_eq : stack = vchSigs.reverse ++ dummy :: below
  length_eq : vchSigs.length = nRequired
  nulldummy : hasFlag call.flags SCRIPT_VERIFY_NULLDUMMY = true → dummy = []
  signed : SublistForall₂ (SignatureOf sp call
    (vchSigs.reverse.foldl (fun s vchSig => s.findAndDelete (pushVch vchSig)) code)) vchSigs keys

/-- `OP_CHECKMULTISIG` behind the keys. -/
theorem runs_checkMultisig (sp : ScriptParams) (call : ScriptCall) (st : EvalState)
    {nRequired : ℕ} {stack : List Vchtype} (hm : nRequired ≤ keys.length) (hn : keys.length ≤ 16)
    (hkeys : ∀ key ∈ keys, checkPubKeyEncoding key = true)
    (hexec : st.fExec = true) (hops : st.nOpCount < 180)
    (hsize : st.stack.length + st.altstack.length ≤ 1000)
    (hstack : st.stack = bigNumVch keys.length :: (keys.reverse ++ bigNumVch nRequired :: stack)) :
    (∃ st', Runs sp call [0xae] st st' ∧ castToBool (st'.stack.headD []) = true ∧
        st'.vfExec = st.vfExec) ↔
      ∃ vchSigs dummy below,
        HasSignatures sp call nRequired keys st.codehash stack vchSigs dummy below := by
  have hkeys' : ∀ key ∈ keys.reverse, checkPubKeyEncoding key = true := fun key hkey =>
    hkeys key (mem_reverse.mp hkey)
  have hargs := multisigArgs_of_stack { st with nOpCount := st.nOpCount + 1 } keys.reverse
    (by simpa using hm) (by simpa using hn) (by simp only [length_reverse]; omega)
    (by simpa using hstack)
  have hlength : st.stack.length = keys.length + stack.length + 2 := by
    rw [hstack]
    simp only [length_cons, length_append, length_reverse]
    omega
  simp only [runs_opcode (by decide) (by decide)
    (show Opcode.ofCode (0xae : UInt8).toNat = some (.OP_CHECKMULTISIG false) by decide) hexec,
    runs_nil, show st.nOpCount < 201 by omega, true_and, evalOp, evalCheckMultisig]
  rcases hargs with ⟨⟨e, he⟩, hshort⟩ | ⟨sigs, dummy, below, hbelow, hsigs, hok⟩
  · simp only [he, reduceCtorEq, false_and, exists_false, false_iff]
    rintro ⟨vchSigs, dummy, below, h⟩
    have hlen := congrArg length h.stack_eq
    have := h.length_eq
    simp only [length_append, length_reverse, length_cons] at hlen
    omega
  · simp only [hok]
    constructor
    · rintro ⟨_, ⟨mid, hmid, -, rfl⟩, hbool, -⟩
      split at hmid
      · cases hmid
      · rename_i fSuccess signed hloop
        split_ifs at hmid with hdummy
        cases hmid
        rw [headD_cons, castToBool_vchBool] at hbool
        obtain rfl := hbool
        obtain ⟨chosen, hmatch, hsub, -⟩ := multisigLoop_sound hloop
        refine ⟨sigs.reverse, dummy, below, by simpa using hbelow, by simpa using hsigs,
          fun hflag => ?_, ?_⟩
        · by_contra hne
          exact hdummy ⟨hflag, hne⟩
        · rw [reverse_reverse, ← Matching.sublistForall₂_reverse, reverse_reverse]
          exact sublistForall₂_iff.mpr ⟨chosen, hmatch, hsub⟩
    · rintro ⟨vchSigs, dummy', below', h⟩
      obtain ⟨rfl, htail⟩ := append_inj (hbelow.symm.trans h.stack_eq)
        (by rw [hsigs, length_reverse, h.length_eq])
      cases htail
      have hmatch := Matching.sublistForall₂_reverse.mpr h.signed
      obtain ⟨signed', hloop⟩ := multisigLoop_complete hkeys' hmatch st.sSignedPubk
      have hdummy : ¬(hasFlag call.flags SCRIPT_VERIFY_NULLDUMMY = true ∧ dummy ≠ []) :=
        fun hne => hne.2 (h.nulldummy hne.1)
      simp only [hloop, if_neg hdummy, EvalState.verify, Bool.false_eq_true, if_false,
        Except.ok.injEq, exists_eq_left', length_cons]
      rw [hbelow, length_append, length_cons] at hlength
      exact ⟨_, ⟨by omega, rfl⟩, rfl, rfl⟩

theorem length_of_checkPubKeyEncoding {key : Vchtype} (h : checkPubKeyEncoding key = true) :
    key.length = 33 ∨ key.length = 65 := by
  simp only [checkPubKeyEncoding, isCompressedOrUncompressedPubKey] at h
  split_ifs at h <;> simp_all

theorem length_flatMap_pushVch_le (hkeys : ∀ key ∈ keys, checkPubKeyEncoding key = true) :
    (keys.flatMap pushVch).length ≤ 66 * keys.length := by
  induction keys with
  | nil => exact le_rfl
  | cons key keys ih =>
    have hrest := ih fun k hk => hkeys k (mem_cons_of_mem _ hk)
    have hlength := length_of_checkPubKeyEncoding (hkeys key mem_cons_self)
    have hpush : (pushVch key).length = key.length + 1 := by
      rw [pushVch, if_pos (by simp only [CScript.OP_PUSHDATA1]; omega), length_cons]
    rw [flatMap_cons, length_append, length_cons, hpush]
    omega

theorem isPayToScriptHash_setMultisig {nRequired : ℕ} (hpos : 1 ≤ nRequired) (h : nRequired ≤ 16) :
    CScript.isPayToScriptHash (CScript.setMultisig nRequired keys) = false := by
  have hcode := toNat_encodeOP_N hpos h
  have hne : encodeOP_N nRequired ≠ 0xa9 := by
    intro heq
    rw [heq] at hcode
    have : (0xa9 : UInt8).toNat = 169 := rfl
    omega
  simp [CScript.isPayToScriptHash, CScript.setMultisig, hne]

/-- The pushes of a script for several keys. -/
theorem runs_setMultisig (sp : ScriptParams) (call : ScriptCall) (st : EvalState)
    {nRequired : ℕ} (hpos : 1 ≤ nRequired) (hm : nRequired ≤ keys.length) (hn : keys.length ≤ 16)
    (hkeys : ∀ key ∈ keys, checkPubKeyEncoding key = true)
    (hexec : st.fExec = true) :
    Runs sp call (CScript.setMultisig nRequired keys) st st' ↔
      st.stack.length + keys.length + 2 + st.altstack.length ≤ 1000 ∧
        Runs sp call [0xae] { st with
          stack := bigNumVch keys.length :: (keys.reverse ++ bigNumVch nRequired :: st.stack) }
          st' := by
  have hshort : ∀ key ∈ keys, key.length ≤ MAX_SCRIPT_ELEMENT_SIZE := by
    intro key hkey
    have := length_of_checkPubKeyEncoding (hkeys key hkey)
    simp only [MAX_SCRIPT_ELEMENT_SIZE]
    omega
  have hscript : CScript.setMultisig nRequired keys =
      encodeOP_N nRequired :: (keys.flatMap pushVch ++ encodeOP_N keys.length :: [0xae]) := rfl
  rw [hscript, runs_number hpos (hm.trans hn) hexec]
  by_cases hsize : st.stack.length + st.altstack.length < 1000
  · rw [runs_pushes hshort (by exact hexec) (by simp only [EvalState.push, length_cons]; omega),
      runs_number (hpos.trans hm) hn (by exact hexec)]
    simp only [EvalState.push, length_cons, length_append, length_reverse, hsize, true_and]
    constructor
    · rintro ⟨-, hlt, hrun⟩
      exact ⟨by omega, hrun⟩
    · rintro ⟨hlt, hrun⟩
      exact ⟨by omega, by omega, hrun⟩
  · simp only [hsize, false_and, false_iff]
    rintro ⟨hlt, -⟩
    omega

/-- The whole script for several keys, from a stack on. -/
theorem accepts_multisig {nRequired : ℕ} {stack : List Vchtype} (hpos : 1 ≤ nRequired)
    (hm : nRequired ≤ keys.length) (hn : keys.length ≤ 16)
    (hkeys : ∀ key ∈ keys, checkPubKeyEncoding key = true) :
    (∃ signed', Accepts sp call stack (CScript.setMultisig nRequired keys) signed signed') ↔
      stack.length + keys.length + 2 ≤ 1000 ∧ ∃ vchSigs dummy below,
        HasSignatures sp call nRequired keys (CScript.setMultisig nRequired keys) stack vchSigs
          dummy below := by
  have hlength : (CScript.setMultisig nRequired keys).length ≤ 10000 := by
    have := length_flatMap_pushVch_le hkeys
    simp only [CScript.setMultisig, length_cons, length_append, length_nil]
    omega
  unfold Accepts
  simp only [evalScript_eq_ok, hlength, true_and]
  constructor
  · rintro ⟨signed', st', ⟨hrun, hvfExec⟩, hbool, -⟩
    obtain ⟨hsize, hcheck⟩ := (runs_setMultisig sp call _ hpos hm hn hkeys rfl).mp hrun
    dsimp only at hsize hcheck
    simp only [length_nil, Nat.add_zero] at hsize
    refine ⟨hsize, (runs_checkMultisig sp call _ hm hn hkeys ?_ ?_ ?_ rfl).mp
      ⟨st', hcheck, hbool, hvfExec⟩⟩
    · rfl
    · exact show 0 < 180 by decide
    · simp only [length_cons, length_append, length_reverse, length_nil]
      omega
  · rintro ⟨hsize, hsigs⟩
    let start : EvalState :=
      { stack := stack, codehash := CScript.setMultisig nRequired keys, sSignedPubk := signed }
    have hcheck := runs_checkMultisig sp call { start with
        stack := bigNumVch keys.length :: (keys.reverse ++ bigNumVch nRequired :: stack) } hm hn
      hkeys rfl (show 0 < 180 by decide)
      (by simp only [start, length_cons, length_append, length_reverse, length_nil]; omega) rfl
    obtain ⟨st', hrun, hbool, hvfExec⟩ := hcheck.mpr hsigs
    have hall := (runs_setMultisig sp call start hpos hm hn hkeys rfl).mpr
      ⟨by simpa [start] using hsize, hrun⟩
    exact ⟨st'.sSignedPubk, st', ⟨hall, hvfExec⟩, hbool, rfl⟩

/-- An output that pays to some of several keys is spent exactly with signatures of that many
different keys, in the order of the keys. -/
theorem verifyScript_multisig {nRequired : ℕ} {scriptSig : CScript} (hpos : 1 ≤ nRequired)
    (hm : nRequired ≤ keys.length) (hn : keys.length ≤ 16)
    (hkeys : ∀ key ∈ keys, checkPubKeyEncoding key = true) :
    (verifyScript sp scriptSig (CScript.setMultisig nRequired keys) call).isSome = true ↔
      ∃ st1 vchSigs dummy below, evalScript sp call [] scriptSig ∅ = .ok st1 ∧
        st1.stack.length + keys.length + 2 ≤ 1000 ∧
        HasSignatures sp call nRequired keys (CScript.setMultisig nRequired keys) st1.stack vchSigs
          dummy below := by
  rw [Option.isSome_iff_exists]
  simp only [verifyScript_eq_some (isPayToScriptHash_setMultisig hpos (hm.trans hn))]
  constructor
  · rintro ⟨signed, st1, hst1, haccepts⟩
    obtain ⟨hsize, vchSigs, dummy, below, hsigs⟩ :=
      (accepts_multisig hpos hm hn hkeys).mp ⟨signed, haccepts⟩
    exact ⟨st1, vchSigs, dummy, below, hst1, hsize, hsigs⟩
  · rintro ⟨st1, vchSigs, dummy, below, hst1, hsize, hsigs⟩
    obtain ⟨signed, haccepts⟩ :=
      (accepts_multisig hpos hm hn hkeys).mpr ⟨hsize, vchSigs, dummy, below, hsigs⟩
    exact ⟨signed, st1, hst1, haccepts⟩

/-- One of two keys has signed. -/
theorem verifyScript_multisig_sample :
    ∃ st1 vchSigs dummy below,
      evalScript sampleMachine sampleScriptCall [] (0 :: pushVch (sampleSignature 5 ++ [1])) ∅ =
        .ok st1 ∧ st1.stack.length + 2 + 2 ≤ 1000 ∧
      HasSignatures sampleMachine sampleScriptCall 1 [sampleKey 7, sampleKey 5]
        (CScript.setMultisig 1 [sampleKey 7, sampleKey 5]) st1.stack vchSigs dummy below := by
  have hsome : (verifyScript sampleMachine (0 :: pushVch (sampleSignature 5 ++ [1]))
      (CScript.setMultisig 1 [sampleKey 7, sampleKey 5]) sampleScriptCall).isSome = true := rfl
  exact (verifyScript_multisig (by decide) (by decide) (by decide) (by decide)).mp hsome

end BitBay
