import BitBay.Script.Machine

/-!
# What an operation does

An operation changes a few values on top of the stacks, opens or closes a conditional, and may
record keys. `Effect` says all that the proofs about runs need of an operation that succeeds:
how far it may go in each respect, and why a key was recorded.
-/
namespace BitBay

variable {sp : ScriptParams} {call : ScriptCall}

/-! ## Operations of a script -/

theorem getOp_suffix {s rest : CScript} {opcode : ℕ} {vch : Vchtype}
    (h : s.getOp = some (opcode, vch, rest)) : rest <:+ s ∧ rest.length < s.length := by
  cases s with
  | nil => cases h
  | cons b s =>
    have hbehind {l : CScript} (hl : l <:+ s) : l <:+ b :: s ∧ l.length < (b :: s).length :=
      ⟨hl.trans (List.suffix_cons b s), Nat.lt_succ_of_le hl.length_le⟩
    simp only [CScript.getOp] at h
    split_ifs at h
    all_goals cases h
    · exact hbehind List.suffix_rfl
    all_goals exact hbehind ((List.drop_suffix _ _).trans (List.drop_suffix _ _))

theorem nextOp_eq_some {s rest : CScript} {op : ℕ × Vchtype} :
    nextOp s = some (op, rest) ↔ s.getOp = some (op.1, op.2, rest) := by
  unfold nextOp
  cases s.getOp with
  | none => simp
  | some r =>
    obtain ⟨opcode, vch, rest'⟩ := r
    obtain ⟨opcode', vch'⟩ := op
    simp [and_assoc]

theorem nextOp_shrinks : Scan.Shrinks nextOp := fun _ _ _ h =>
  (getOp_suffix (nextOp_eq_some.mp h)).2

/-! ## Numbers -/

theorem leNat_of_getLast {vch : Vchtype} (h : vch ≠ []) :
    CScript.leNat vch =
      CScript.leNat vch.dropLast + 256 ^ (vch.length - 1) * (vch.getLastD 0).toNat := by
  obtain ⟨front, last, rfl⟩ := (List.eq_nil_or_concat' vch).resolve_left h
  rw [leNat_append, List.dropLast_concat, List.getLastD_concat, List.length_append,
    List.length_singleton, Nat.add_sub_cancel]
  simp [CScript.leNat]

/-- A number has one bit less than its bytes. -/
theorem natAbs_bigNumOfVch_lt {vch : Vchtype} {k : ℕ} (h : vch.length ≤ k + 1) :
    (bigNumOfVch vch).natAbs < 128 * 256 ^ k := by
  have hpos : 0 < 256 ^ k := by positivity
  by_cases hnil : vch = []
  · subst hnil
    simp [bigNumOfVch, CScript.leNat]
  · have hvalue := leNat_of_getLast hnil
    have hfront := leNat_lt vch.dropLast
    rw [List.length_dropLast] at hfront
    have hbyte := (vch.getLastD 0).toNat_lt
    have hpow : 256 ^ (vch.length - 1) ≤ 256 ^ k := Nat.pow_le_pow_right (by decide) (by omega)
    unfold bigNumOfVch
    dsimp only
    generalize (vch.getLastD 0).toNat = last at *
    generalize 256 ^ (vch.length - 1) = p at *
    split_ifs with hsign
    · have hlast : p * last ≤ p * 255 := Nat.mul_le_mul_left _ (by omega)
      omega
    · have hlast : p * last ≤ p * 127 := Nat.mul_le_mul_left _ (by omega)
      omega

/-- The last byte of a number that is not negative has no sign. -/
theorem sign_bigNumVch_nonneg {n : ℤ} (h0 : 0 ≤ n) : ((bigNumVch n).getLastD 0).toNat < 0x80 := by
  unfold bigNumVch
  rw [if_neg h0.not_gt]
  dsimp only
  cases hlast : (leBytes 9 n.natAbs).getLast? with
  | none => simp
  | some last =>
    dsimp only
    split_ifs with hhigh
    · simp
    · simpa using hhigh

/-- A number is read back from its bytes. -/
theorem bigNumOfVch_bigNumVch {n : ℤ} (h0 : -2 ^ 63 ≤ n) (h : n < 2 ^ 63) :
    bigNumOfVch (bigNumVch n) = n := by
  unfold bigNumOfVch
  dsimp only
  by_cases hneg : n < 0
  · rw [if_pos (sign_bigNumVch_neg hneg h0), leNat_bigNumVch_neg hneg h0]
    omega
  · have hnonneg : 0 ≤ n := not_lt.mp hneg
    rw [if_neg (sign_bigNumVch_nonneg hnonneg).not_ge, (bigNumVch_of_nonneg hnonneg h).2]
    omega

/-- The second conversion of `CastToBigNum` changes nothing. -/
theorem castToBigNum_eq {vch : Vchtype} {k : ℕ} (h : vch.length ≤ k) (hk : k ≤ 7) :
    castToBigNum vch k = some (bigNumOfVch vch) := by
  have hbound := natAbs_bigNumOfVch_lt (show vch.length ≤ 6 + 1 by omega)
  rw [castToBigNum, if_neg h.not_gt, bigNumOfVch_bigNumVch (by omega) (by omega)]

theorem natAbs_castToBigNum_lt {vch : Vchtype} {n : ℤ} (h : castToBigNum vch = some n) :
    n.natAbs < 2 ^ 31 := by
  have hlength : vch.length ≤ 4 := by
    unfold castToBigNum at h
    split_ifs at h with hlong
    omega
  rw [castToBigNum_eq hlength (by decide)] at h
  obtain rfl := Option.some.inj h
  exact natAbs_bigNumOfVch_lt (k := 3) hlength

theorem length_bigNumVch_le_of_lt {n : ℤ} (h : n.natAbs < 2 ^ 39) : (bigNumVch n).length ≤ 5 :=
  length_bigNumVch_le (j := 4) (by decide) (by omega)

theorem UnaryOp.natAbs_apply_le (op : UnaryOp) (bn : ℤ) :
    (op.apply bn).natAbs ≤ bn.natAbs + 1 := by
  cases op <;> grind [UnaryOp.apply]

theorem BinaryOp.natAbs_apply_le (op : BinaryOp) (bn1 bn2 : ℤ) :
    (op.apply bn1 bn2).natAbs ≤ bn1.natAbs + bn2.natAbs + 1 := by
  cases op <;> grind [BinaryOp.apply]

theorem length_vchBool_le (b : Bool) : (vchBool b).length ≤ 1 := by cases b <;> decide

theorem HashOp.length_apply_le (op : HashOp) (vch : Vchtype) : (op.apply sp vch).length ≤ 32 := by
  cases op <;> simp [HashOp.apply, Wire.length_leBytes]

/-! ## Effects -/

namespace EvalState

structure Limits (st : EvalState) : Prop where
  size : st.stack.length + st.altstack.length ≤ 1000
  element : ∀ vch ∈ st.stack ++ st.altstack, vch.length ≤ MAX_SCRIPT_ELEMENT_SIZE

end EvalState

/-- A key on the stack, and a signature of it on the stack as well, over some code of the script
without the signatures that are taken with it. -/
def Signed (sp : ScriptParams) (call : ScriptCall) (code : CScript) (stack : List Vchtype)
    (vchPubKey : Vchtype) : Prop :=
  vchPubKey ∈ stack ∧ ∃ (sigs : List Vchtype) (vchSig : Vchtype), sigs ⊆ stack ∧ vchSig ∈ sigs ∧
    signatureOk sp call (sigs.foldl (fun s vchSig => s.findAndDelete (pushVch vchSig)) code)
      vchSig vchPubKey = true

/-- What an operation above `OP_16` does that does not fail. -/
structure Effect (sp : ScriptParams) (call : ScriptCall) (rest : CScript) (st st' : EvalState) :
    Prop where
  element : ∀ vch ∈ st'.stack ++ st'.altstack, vch ∈ st.stack ++ st.altstack ∨ vch.length ≤ 32
  conditionals : st'.vfExec.length ≤ st.vfExec.length + 1
  counted : st.nOpCount ≤ st'.nOpCount
  limited : st'.nOpCount = st.nOpCount ∨ st'.nOpCount ≤ 201
  codehash : st'.codehash = st.codehash ∨ st'.codehash = rest
  signed : ∀ key ∈ st'.sSignedPubk, key ∈ st.sSignedPubk ∨
    Signed sp call st.codehash st.stack key
  keys : st'.sSignedPubk.card + st.nOpCount ≤ st.sSignedPubk.card + st'.nOpCount + 1

variable {rest : CScript} {st st' : EvalState}

/-- An operation that changes nothing but the stacks and the conditionals. -/
theorem Effect.of_stacks {stack altstack : List Vchtype} {vfExec : List Bool}
    (hst : st' = { st with stack := stack, altstack := altstack, vfExec := vfExec })
    (helement : ∀ vch ∈ stack ++ altstack, vch ∈ st.stack ++ st.altstack ∨ vch.length ≤ 32)
    (hvfExec : vfExec.length ≤ st.vfExec.length + 1) : Effect sp call rest st st' := by
  subst hst
  exact ⟨helement, hvfExec, le_rfl, .inl rfl, .inl rfl, fun key hkey => .inl hkey,
    Nat.le_succ _⟩

theorem Effect.refl (rest : CScript) (st : EvalState) : Effect sp call rest st st :=
  .of_stacks rfl (fun _ hvch => .inl hvch) (Nat.le_succ _)

/-- An operation that leaves some of the values and short ones on the stack. -/
theorem Effect.of_stack {stack : List Vchtype}
    (h : ∀ vch ∈ stack, vch ∈ st.stack ∨ vch.length ≤ 32) :
    Effect sp call rest st { st with stack := stack } := by
  refine .of_stacks rfl (fun vch hvch => ?_) (Nat.le_succ _)
  rcases List.mem_append.mp hvch with hstack | halt
  · exact (h vch hstack).imp_left (List.mem_append_left _)
  · exact .inl (List.mem_append_right _ halt)

/-- The check at the end of an operation takes a value off at most. -/
theorem Effect.verify {fVerify fOk : Bool} {mid : EvalState} (hmid : Effect sp call rest st mid)
    (h : mid.verify fVerify fOk = .ok st') : Effect sp call rest st st' := by
  unfold EvalState.verify at h
  split_ifs at h
  · cases h
    refine { hmid with element := fun vch hvch => hmid.element vch ?_ }
    rcases List.mem_append.mp hvch with hstack | halt
    · exact List.mem_append_left _ (List.mem_of_mem_tail hstack)
    · exact List.mem_append_right _ halt
  · cases h
    exact hmid

theorem StackOp.mem_apply {op : StackOp} {s s' : List Vchtype} (h : op.apply s = some s')
    (hsize : s.length ≤ 1000) (helement : ∀ vch ∈ s, vch.length ≤ MAX_SCRIPT_ELEMENT_SIZE) :
    ∀ vch ∈ s', vch ∈ s ∨ vch.length ≤ 32 := by
  have hnumber {n : ℕ} (hn : n ≤ 1000) : (bigNumVch n).length ≤ 32 :=
    (length_bigNumVch_le_of_lt (by omega)).trans (by decide)
  unfold StackOp.apply at h
  split at h <;> cases h
  case h_7 =>
    split_ifs
    all_goals grind
  case h_8 => grind
  case h_16 x rest =>
    have hx : x.length ≤ 1000 :=
      (helement x List.mem_cons_self).trans (show MAX_SCRIPT_ELEMENT_SIZE ≤ 1000 by decide)
    grind
  all_goals grind

/-! ## The operations -/

theorem evalLockTime_effect (h : evalLockTime call st = .ok st') : st' = st := by
  unfold evalLockTime at h
  split_ifs at h
  · exact (Except.ok.inj h).symm
  · split at h
    · cases h
    · split at h
      · cases h
      · split_ifs at h
        exact (Except.ok.inj h).symm

theorem evalIf_effect {fNot : Bool} (h : evalIf fNot st = .ok st') :
    Effect sp call rest st st' := by
  unfold evalIf at h
  split_ifs at h
  · split at h
    · cases h
    · rename_i vch stack hstack
      cases h
      refine .of_stacks rfl (fun v hv => .inl ?_) (by simp)
      rw [hstack]
      exact List.mem_cons_of_mem _ hv
  · cases h
    exact .of_stacks rfl (fun v hv => .inl hv) (by simp)

theorem evalPick_effect {fRoll : Bool} (h : evalPick fRoll st = .ok st') :
    Effect sp call rest st st' := by
  unfold evalPick at h
  split at h
  · rename_i vch v stack hstack
    split at h
    · cases h
    · rename_i n hn
      dsimp only at h
      split_ifs at h with hrange
      all_goals
        cases h
        refine .of_stack fun x hx => .inl ?_
        rw [hstack]
        refine List.mem_cons_of_mem _ ?_
        rcases List.mem_cons.mp hx with rfl | hrest
        · have hlt : n.toNat < (v :: stack).length := by omega
          rw [List.getD_eq_getElem _ _ hlt]
          exact List.getElem_mem hlt
      · exact List.mem_of_mem_eraseIdx hrest
      · exact hrest
  · cases h

theorem evalBinary_effect {op : BinaryOp} (h : evalBinary op st = .ok st') :
    Effect sp call rest st st' := by
  unfold evalBinary at h
  split at h
  · rename_i vch2 vch1 stack hstack
    split at h
    · rename_i bn1 bn2 h1 h2
      refine .verify (.of_stack fun x hx => ?_) h
      rcases List.mem_cons.mp hx with rfl | hrest
      · have hbn1 := natAbs_castToBigNum_lt h1
        have hbn2 := natAbs_castToBigNum_lt h2
        have happly := op.natAbs_apply_le bn1 bn2
        exact .inr ((length_bigNumVch_le_of_lt (by omega)).trans (by decide))
      · rw [hstack]
        exact .inl (List.mem_cons_of_mem _ (List.mem_cons_of_mem _ hrest))
    · cases h
  · cases h

theorem evalWithin_effect (h : evalWithin st = .ok st') : Effect sp call rest st st' := by
  unfold evalWithin at h
  split at h
  · rename_i vch3 vch2 vch1 stack hstack
    split at h
    · cases h
      refine .of_stack fun x hx => ?_
      rcases List.mem_cons.mp hx with rfl | hrest
      · exact .inr ((length_vchBool_le _).trans (by decide))
      · rw [hstack]
        exact .inl (List.mem_cons_of_mem _ (List.mem_cons_of_mem _ (List.mem_cons_of_mem _ hrest)))
    · cases h
  · cases h

theorem evalCheckSig_effect {fVerify : Bool} (h : evalCheckSig sp call fVerify st = .ok st') :
    Effect sp call rest st st' := by
  unfold evalCheckSig at h
  split at h
  · rename_i vchPubKey vchSig stack hstack
    dsimp only at h
    generalize hsig : signatureOk sp call (st.codehash.findAndDelete (pushVch vchSig)) vchSig
      vchPubKey = fSuccess at h
    have hstacks : Effect sp call rest st { st with stack := vchBool fSuccess :: stack } := by
      refine .of_stack fun x hx => ?_
      rcases List.mem_cons.mp hx with rfl | hrest
      · exact .inr ((length_vchBool_le _).trans (by decide))
      · rw [hstack]
        exact .inl (List.mem_cons_of_mem _ (List.mem_cons_of_mem _ hrest))
    by_cases hencoding :
        hasFlag call.flags SCRIPT_VERIFY_STRICTENC ∧ !encodingOk call vchSig vchPubKey
    · rw [if_pos hencoding] at h
      cases h
    · rw [if_neg hencoding] at h
      refine .verify ?_ h
      cases fSuccess with
      | false => exact hstacks
      | true =>
        refine { hstacks with signed := fun key hkey => ?_, keys := ?_ }
        · rcases Finset.mem_insert.mp hkey with rfl | hold
          · rw [hstack]
            exact .inr ⟨List.mem_cons_self, [vchSig], vchSig, by simp, List.mem_singleton_self _,
              hsig⟩
          · exact .inl hold
        · have := Finset.card_insert_le vchPubKey st.sSignedPubk
          simp only [if_true]
          omega
  · cases h

/-- The loop records keys that it has of signatures that it has, one for each key at most. -/
theorem multisigLoop_signed {scriptCode : CScript} {sigs keys : List Vchtype}
    {signed signed' : Finset Vchtype} {fSuccess : Bool}
    (h : multisigLoop sp call scriptCode sigs keys signed = .ok (fSuccess, signed')) :
    (∀ key ∈ signed', key ∈ signed ∨
      key ∈ keys ∧ ∃ vchSig ∈ sigs, signatureOk sp call scriptCode vchSig key = true) ∧
      signed'.card ≤ signed.card + keys.length := by
  induction keys generalizing sigs signed with
  | nil =>
    cases sigs <;> cases h <;> exact ⟨fun key hkey => .inl hkey, Nat.le_add_right _ _⟩
  | cons vchPubKey keys ih =>
    cases sigs with
    | nil =>
      cases h
      exact ⟨fun key hkey => .inl hkey, Nat.le_add_right _ _⟩
    | cons vchSig sigs =>
      rw [multisigLoop] at h
      by_cases hencoding :
          hasFlag call.flags SCRIPT_VERIFY_STRICTENC ∧ !encodingOk call vchSig vchPubKey
      · rw [if_pos hencoding] at h
        cases h
      rw [if_neg hencoding] at h
      dsimp only at h
      cases hsig : signatureOk sp call scriptCode vchSig vchPubKey with
      | false =>
        simp only [hsig, Bool.false_eq_true, if_false] at h
        split_ifs at h with hfew
        · cases h
          exact ⟨fun key hkey => .inl hkey, Nat.le_add_right _ _⟩
        · obtain ⟨hkeys, hcard⟩ := ih h
          refine ⟨fun key hmem => (hkeys key hmem).imp_right fun hnew => ?_,
            by rw [List.length_cons]; omega⟩
          exact ⟨List.mem_cons_of_mem _ hnew.1, hnew.2⟩
      | true =>
        simp only [hsig, if_true] at h
        have hinsert := Finset.card_insert_le vchPubKey signed
        have hkey {key : Vchtype} (hkey : key ∈ insert vchPubKey signed) : key ∈ signed ∨
            key ∈ vchPubKey :: keys ∧
              ∃ vchSig' ∈ vchSig :: sigs, signatureOk sp call scriptCode vchSig' key = true := by
          rcases Finset.mem_insert.mp hkey with rfl | hold
          · exact .inr ⟨List.mem_cons_self, vchSig, List.mem_cons_self, hsig⟩
          · exact .inl hold
        split_ifs at h with hfew
        · cases h
          exact ⟨fun key hmem => hkey hmem, by rw [List.length_cons]; omega⟩
        · obtain ⟨hkeys, hcard⟩ := ih h
          refine ⟨fun key hmem => ?_, by rw [List.length_cons]; omega⟩
          rcases hkeys key hmem with hold | ⟨hin, vchSig', hmem', hok⟩
          · exact hkey hold
          · exact .inr ⟨List.mem_cons_of_mem _ hin, vchSig', List.mem_cons_of_mem _ hmem', hok⟩

/-- A list from its front and what is behind it. -/
theorem take_of_drop_eq_cons {l rest : List Vchtype} {vch : Vchtype} {n : ℕ}
    (h : l.drop n = vch :: rest) : l = l.take n ++ vch :: rest ∧ (l.take n).length = n := by
  have hlt : n < l.length := by
    by_contra hge
    rw [List.drop_eq_nil_of_le (not_lt.mp hge)] at h
    cases h
  exact ⟨by rw [← h, List.take_append_drop], List.length_take_of_le hlt.le⟩

/-- What the arguments are, when there are enough of them. -/
theorem multisigArgs_eq_ok {nKeys : ℕ} {args : MultisigArgs}
    (h : multisigArgs st = .ok (nKeys, args)) :
    ∃ top count, st.stack = top :: (args.keys ++ count :: (args.sigs ++ args.dummy :: args.stack)) ∧
      castToBigNum top = some (nKeys : ℤ) ∧ castToBigNum count = some (args.sigs.length : ℤ) ∧
      args.keys.length = nKeys ∧ args.sigs.length ≤ nKeys ∧ nKeys ≤ 20 ∧
      st.nOpCount + nKeys ≤ 201 := by
  unfold multisigArgs at h
  split at h
  · cases h
  · rename_i top stack hstack
    split at h
    · cases h
    · rename_i nKeysCount hkeys
      dsimp only at h
      split_ifs at h with hrange hops
      split at h
      · cases h
      · rename_i count below hcount
        split at h
        · cases h
        · rename_i nSigsCount hsigs
          split_ifs at h with hsigsRange
          split at h
          · cases h
          · rename_i dummy below' hdummy
            cases h
            obtain ⟨hstack₁, hlength₁⟩ := take_of_drop_eq_cons hcount
            obtain ⟨hstack₂, hlength₂⟩ := take_of_drop_eq_cons hdummy
            refine ⟨top, count, ?_, ?_, ?_, hlength₁, ?_, by omega, by omega⟩
            · rw [hstack, ← hstack₂, ← hstack₁]
            · rw [hkeys, Int.toNat_of_nonneg (by omega)]
            · rw [hsigs, hlength₂, Int.toNat_of_nonneg (by omega)]
            · rw [hlength₂]
              omega

theorem evalCheckMultisig_effect {fVerify : Bool}
    (h : evalCheckMultisig sp call fVerify st = .ok st') : Effect sp call rest st st' := by
  unfold evalCheckMultisig at h
  split at h
  · cases h
  · rename_i nKeys args hargs
    obtain ⟨top, count, hstack, -, -, hkeys, -, -, hops⟩ := multisigArgs_eq_ok hargs
    dsimp only at h
    split at h
    · cases h
    · rename_i fSuccess signed hloop
      obtain ⟨hsigned, hcard⟩ := multisigLoop_signed hloop
      split_ifs at h
      refine .verify ?_ h
      refine ⟨fun x hx => ?_, Nat.le_succ _, Nat.le_add_right _ _, .inr hops, .inl rfl,
        fun key hkey => ?_, ?_⟩
      · rcases List.mem_append.mp hx with hnew | halt
        · rcases List.mem_cons.mp hnew with rfl | hold
          · exact .inr ((length_vchBool_le _).trans (by decide))
          · left
            rw [hstack]
            simp [hold]
        · exact .inl (List.mem_append_right _ halt)
      · rcases hsigned key hkey with hold | ⟨hin, vchSig, hmem, hok⟩
        · exact .inl hold
        · rw [hstack]
          exact .inr ⟨by simp [hin], args.sigs, vchSig, by simp +contextual [List.subset_def],
            hmem, hok⟩
      · dsimp only
        omega

/-- The effect of every operation, as long as the machine keeps to its limits. -/
theorem evalOp_effect {op : Opcode} (hlimits : st.Limits)
    (hop : ∀ n, op ≠ .number n) (h : evalOp sp call rest st op = .ok st') :
    Effect sp call rest st st' := by
  cases op with
  | number n => exact absurd rfl (hop n)
  | OP_NOP =>
    cases h
    exact .refl rest st
  | OP_CHECKLOCKTIMEVERIFY =>
    obtain rfl := evalLockTime_effect h
    exact .refl rest _
  | OP_NOPn =>
    simp only [evalOp] at h
    split_ifs at h
    cases h
    exact .refl rest st
  | OP_IF fNot => exact evalIf_effect h
  | OP_ELSE =>
    simp only [evalOp] at h
    split at h
    · cases h
    · rename_i f vfExec hvfExec
      cases h
      exact .of_stacks rfl (fun _ hx => .inl hx) (by simp [hvfExec])
  | OP_ENDIF =>
    simp only [evalOp] at h
    split at h
    · cases h
    · rename_i f vfExec hvfExec
      cases h
      exact .of_stacks rfl (fun _ hx => .inl hx) (by grind)
  | OP_VERIFY =>
    simp only [evalOp] at h
    split at h
    · cases h
    · exact (Effect.refl rest st).verify h
  | OP_RETURN => cases h
  | OP_TOALTSTACK =>
    simp only [evalOp] at h
    split at h
    · cases h
    · rename_i vch stack hstack
      cases h
      refine .of_stacks rfl (fun x hx => .inl ?_) (Nat.le_succ _)
      rw [hstack]
      grind
  | OP_FROMALTSTACK =>
    simp only [evalOp] at h
    split at h
    · cases h
    · rename_i vch altstack haltstack
      cases h
      refine .of_stacks rfl (fun x hx => .inl ?_) (Nat.le_succ _)
      rw [haltstack]
      grind
  | stackOp op =>
    simp only [evalOp] at h
    split at h
    · cases h
    · rename_i stack hstack
      cases h
      have hsize := hlimits.size
      exact .of_stack (StackOp.mem_apply hstack (by omega) fun vch hvch =>
        hlimits.element vch (List.mem_append_left _ hvch))
  | OP_PICK fRoll => exact evalPick_effect h
  | OP_EQUAL fVerify =>
    simp only [evalOp] at h
    split at h
    · rename_i vch2 vch1 stack hstack
      refine .verify (.of_stack fun x hx => ?_) h
      rcases List.mem_cons.mp hx with rfl | hrest
      · exact .inr ((length_vchBool_le _).trans (by decide))
      · rw [hstack]
        exact .inl (List.mem_cons_of_mem _ (List.mem_cons_of_mem _ hrest))
    · cases h
  | unary op =>
    simp only [evalOp] at h
    split at h
    · cases h
    · rename_i vch stack hstack
      split at h
      · cases h
      · rename_i bn hbn
        cases h
        refine .of_stack fun x hx => ?_
        rcases List.mem_cons.mp hx with rfl | hrest
        · have hlt := natAbs_castToBigNum_lt hbn
          have happly := op.natAbs_apply_le bn
          exact .inr ((length_bigNumVch_le_of_lt (by omega)).trans (by decide))
        · rw [hstack]
          exact .inl (List.mem_cons_of_mem _ hrest)
  | binary op => exact evalBinary_effect h
  | OP_WITHIN => exact evalWithin_effect h
  | hash op =>
    simp only [evalOp] at h
    split at h
    · cases h
    · rename_i vch stack hstack
      cases h
      refine .of_stack fun x hx => ?_
      rcases List.mem_cons.mp hx with rfl | hrest
      · exact .inr (op.length_apply_le vch)
      · rw [hstack]
        exact .inl (List.mem_cons_of_mem _ hrest)
  | OP_CODESEPARATOR =>
    cases h
    exact { Effect.refl rest st with codehash := .inr rfl }
  | OP_CHECKSIG fVerify => exact evalCheckSig_effect h
  | OP_CHECKMULTISIG fVerify => exact evalCheckMultisig_effect h

end BitBay
