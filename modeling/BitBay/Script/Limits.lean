import BitBay.Script.Effects

/-!
# Limits of runs

Whatever script is evaluated, the machine keeps to its limits in every state that it comes by:
the stacks are small and so are the values on them, the operations are counted, conditionals
are nested no deeper than operations were counted, and the same holds for the keys that are
recorded. A key is recorded for one reason only, a signature of it over a part of the script that
stood on the stack.
-/
namespace BitBay

variable {sp : ScriptParams} {call : ScriptCall}

/-! ## Codes -/

def Opcode.isNumber : Opcode → Bool
  | .number _ => true
  | _ => false

theorem Opcode.mem_table {opcode : ℕ} {op : Opcode} (h : table.lookup opcode = some op) :
    OP_16 < opcode ∧ op.isNumber = false := by
  obtain ⟨l₁, l₂, hl, -⟩ := List.lookup_eq_some_iff.mp h
  have hmem : (opcode, op) ∈ table := hl ▸ List.mem_append_right _ List.mem_cons_self
  have hall : ∀ entry ∈ table, OP_16 < entry.1 ∧ entry.2.isNumber = false := by decide
  exact hall _ hmem

/-- The codes above `OP_16` are those of the operations that are no numbers. -/
theorem Opcode.ofCode_eq_some {opcode : ℕ} {op : Opcode} (h : ofCode opcode = some op) :
    (∃ n : ℤ, op = number n ∧ n.natAbs ≤ 16 ∧ opcode ≤ OP_16) ∨
      op.isNumber = false ∧ OP_16 < opcode := by
  unfold ofCode at h
  split_ifs at h with hnumber
  · left
    cases h
    simp only [OP_1NEGATE, OP_1, OP_16] at *
    exact ⟨_, rfl, by omega, by omega⟩
  · exact .inr (mem_table h).symm

/-! ## One round -/

/-- A state of a run on a script, also of one that fails later. -/
def RunsTo (sp : ScriptParams) (call : ScriptCall) (script : CScript) (stack : List Vchtype)
    (signed : Finset Vchtype) : CScript → EvalState → Prop :=
  Scan.Reaches nextOp (evalRound sp call) script
    { stack := stack, codehash := script, sSignedPubk := signed }

/-- What holds in every state of a run on a script, from a stack and a set of keys on. -/
structure EvalState.Sound (sp : ScriptParams) (call : ScriptCall) (script : CScript)
    (stack₀ : List Vchtype) (signed₀ : Finset Vchtype) (st : EvalState) : Prop where
  limits : st.Limits
  ops : st.nOpCount ≤ 201
  conditionals : st.vfExec.length ≤ st.nOpCount
  codehash : st.codehash <:+ script
  signed : ∀ key ∈ st.sSignedPubk, key ∈ signed₀ ∨
    ∃ rest mid, RunsTo sp call script stack₀ signed₀ rest mid ∧ mid.codehash <:+ script ∧
      Signed sp call mid.codehash mid.stack key
  keys : st.sSignedPubk.card ≤ signed₀.card + st.nOpCount

variable {op : ℕ × Vchtype} {rest : CScript} {st st' : EvalState}

/-- An operation up to `OP_16` pushes a value or does nothing. -/
theorem execOp_push (hcode : op.1 ≤ OP_16) (h : execOp sp call op rest st = .ok st') :
    st' = st ∨ ∃ vch, st' = st.push vch ∧ (vch = op.2 ∨ vch.length ≤ 32) := by
  have h16 : OP_16 = 0x60 := rfl
  unfold execOp at h
  split_ifs at h with hpush hexec
  · cases h
    exact .inr ⟨op.2, rfl, .inl rfl⟩
  · split at h
    · cases h
    · rename_i opcode hopcode
      rcases Opcode.ofCode_eq_some hopcode with ⟨n, rfl, hn, -⟩ | ⟨-, hhigh⟩
      · cases h
        exact .inr ⟨_, rfl, .inr ((length_bigNumVch_le_of_lt (by omega)).trans (by decide))⟩
      · omega
  · cases h
    exact .inl rfl

/-- An operation above `OP_16`. -/
theorem execOp_effect (hlimits : st.Limits) (hcode : OP_16 < op.1)
    (h : execOp sp call op rest st = .ok st') : Effect sp call rest st st' := by
  have h16 : OP_16 = 0x60 := rfl
  have h4 : CScript.OP_PUSHDATA4 = 0x4e := rfl
  unfold execOp at h
  split_ifs at h with hpush hexec
  · omega
  · split at h
    · cases h
    · rename_i opcode hopcode
      rcases Opcode.ofCode_eq_some hopcode with ⟨-, -, -, hlow⟩ | ⟨hnumber, -⟩
      · omega
      · refine evalOp_effect hlimits (fun n hn => ?_) h
        rw [hn] at hnumber
        cases hnumber
  · cases h
    exact .refl rest st

/-- What a round checks, and the operation in it. -/
theorem evalRound_eq_ok (h : evalRound sp call op rest st = .ok st') :
    op.2.length ≤ MAX_SCRIPT_ELEMENT_SIZE ∧ op.1 ∉ Opcode.disabled ∧
      st'.stack.length + st'.altstack.length ≤ 1000 ∧
      (op.1 ≤ OP_16 ∧ execOp sp call op rest st = .ok st' ∨
        OP_16 < op.1 ∧ st.nOpCount + 1 ≤ 201 ∧
          execOp sp call op rest { st with nOpCount := st.nOpCount + 1 } = .ok st') := by
  unfold evalRound at h
  have hend {st₁ : EvalState} (hbind : (execOp sp call op rest st₁ >>= fun st =>
      if 1000 < st.stack.length + st.altstack.length then .error st else .ok st) = .ok st') :
      st'.stack.length + st'.altstack.length ≤ 1000 ∧ execOp sp call op rest st₁ = .ok st' := by
    obtain ⟨mid, hmid, hlast⟩ := Run.bind_eq_ok.mp hbind
    split_ifs at hlast with hlarge
    cases hlast
    exact ⟨not_lt.mp hlarge, hmid⟩
  by_cases hsize : MAX_SCRIPT_ELEMENT_SIZE < op.2.length
  · rw [if_pos hsize] at h
    cases h
  rw [if_neg hsize] at h
  by_cases hhigh : OP_16 < op.1
  · simp only [hhigh, if_true, true_and] at h
    split_ifs at h with hops hdisabled
    obtain ⟨hlarge, hexec⟩ := hend h
    exact ⟨not_lt.mp hsize, hdisabled, hlarge, .inr ⟨hhigh, not_lt.mp hops, hexec⟩⟩
  · simp only [hhigh, if_false, false_and] at h
    split_ifs at h with hdisabled
    obtain ⟨hlarge, hexec⟩ := hend h
    exact ⟨not_lt.mp hsize, hdisabled, hlarge, .inl ⟨not_lt.mp hhigh, hexec⟩⟩

theorem EvalState.Sound.round {script before : CScript} {stack : List Vchtype}
    {signed : Finset Vchtype} (hrest : rest <:+ script)
    (hreach : RunsTo sp call script stack signed before st)
    (hst : st.Sound sp call script stack signed)
    (h : evalRound sp call op rest st = .ok st') : st'.Sound sp call script stack signed := by
  obtain ⟨hsize, -, hlarge, ⟨hlow, hexec⟩ | ⟨hhigh, hops, hexec⟩⟩ := evalRound_eq_ok h
  · rcases execOp_push hlow hexec with rfl | ⟨vch, rfl, hvch⟩
    · exact hst
    · refine ⟨⟨hlarge, fun v hv => ?_⟩, hst.ops, hst.conditionals, hst.codehash, hst.signed, hst.keys⟩
      rcases List.mem_cons.mp hv with rfl | hold
      · rcases hvch with rfl | hshort
        · exact hsize
        · exact hshort.trans (by decide)
      · exact hst.limits.element v hold
  · have heffect : Effect sp call rest { st with nOpCount := st.nOpCount + 1 } st' :=
      execOp_effect ⟨hst.limits.size, hst.limits.element⟩ hhigh hexec
    refine ⟨⟨hlarge, fun v hv => ?_⟩, ?_, ?_, ?_, fun key hkey => ?_, ?_⟩
    · rcases heffect.element v hv with hold | hshort
      · exact hst.limits.element v hold
      · exact hshort.trans (by decide)
    · rcases heffect.limited with hsame | hle
      · exact hsame.le.trans hops
      · exact hle
    · have hconditionals : st'.vfExec.length ≤ st.vfExec.length + 1 := heffect.conditionals
      have hcounted : st.nOpCount + 1 ≤ st'.nOpCount := heffect.counted
      have := hst.conditionals
      omega
    · rcases heffect.codehash with hsame | hnew
      · exact hsame ▸ hst.codehash
      · exact hnew ▸ hrest
    · rcases heffect.signed key hkey with hold | hsigned
      · exact hst.signed key hold
      · exact .inr ⟨before, st, hreach, hst.codehash, hsigned⟩
    · have hkeys : st'.sSignedPubk.card + (st.nOpCount + 1) ≤
          st.sSignedPubk.card + st'.nOpCount + 1 := heffect.keys
      have := hst.keys
      omega

/-! ## Runs -/

/-- Every state of a run of `EvalScript` is within the limits, if the stack that it starts with
is, also where the run fails in the end. -/
theorem evalScript_sound {script : CScript} {stack : List Vchtype} {signed : Finset Vchtype}
    (hsize : stack.length ≤ 1000)
    (helement : ∀ vch ∈ stack, vch.length ≤ MAX_SCRIPT_ELEMENT_SIZE)
    (h : RunsTo sp call script stack signed rest st) :
    st.Sound sp call script stack signed := by
  have hinvariant := h.invariant (P := fun rest st => RunsTo sp call script stack signed rest st ∧
      rest <:+ script ∧ st.Sound sp call script stack signed)
    (fun s op rest st st' hnext hround hst => by
      obtain ⟨hreach, hs, hsound⟩ := hst
      have hrest : rest <:+ script := (getOp_suffix (nextOp_eq_some.mp hnext)).1.trans hs
      exact ⟨hreach.tail hnext hround, hrest, hsound.round hrest hreach hround⟩)
    ⟨.refl, List.suffix_rfl, ⟨by simpa using hsize, fun vch hvch => helement vch (by simpa using hvch)⟩,
      Nat.zero_le _, le_rfl, List.suffix_rfl, fun key hkey => .inl hkey, le_rfl⟩
  exact hinvariant.2.2

end BitBay
