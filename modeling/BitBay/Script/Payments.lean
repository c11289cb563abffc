import BitBay.Script.Multisig
import BitBay.Script.Permits
import BitBay.Script.Signatures

/-!
# Payments and the scripts that spend them

A payment asks for signatures of some of its keys: of the one key that it pays to, of the one
key whose hash it pays to, or of as many of several keys as it says. The script that spends it
pushes these signatures in the order of the keys, with whatever else the kind of payment wants.
A payment may also stand behind the hash of its script; then the script is pushed last.
-/
namespace BitBay

open List

variable {sp : ScriptParams} {call : ScriptCall}

/-! ## Scripts that push values -/

def pushAll (values : List Vchtype) : CScript := values.flatMap pushVch

theorem length_pushVch_le (vch : Vchtype) : (pushVch vch).length ≤ vch.length + 5 := by
  unfold pushVch
  dsimp only
  split_ifs <;> simp only [length_cons, length_append, length_map, length_range] <;> omega

theorem length_pushAll_le {values : List Vchtype} {n : ℕ} (h : ∀ vch ∈ values, vch.length ≤ n) :
    (pushAll values).length ≤ (n + 5) * values.length := by
  induction values with
  | nil => exact le_rfl
  | cons vch values ih =>
    have hvch := h vch mem_cons_self
    have hpush := length_pushVch_le vch
    have hrest := ih fun v hv => h v (mem_cons_of_mem _ hv)
    rw [pushAll, flatMap_cons, length_append, length_cons, Nat.mul_succ]
    rw [pushAll] at hrest
    omega

/-- What the script of an input may push: all of it fits on the stack. -/
structure Pushable (values : List Vchtype) : Prop where
  short : ∀ vch ∈ values, vch.length ≤ MAX_SCRIPT_ELEMENT_SIZE
  few : values.length ≤ 19

/-- The values are on the stack in the end, the last one on top. -/
theorem evalScript_pushAll {values : List Vchtype} (h : Pushable values)
    (signed : Finset Vchtype) :
    evalScript sp call [] (pushAll values) signed =
      .ok { stack := values.reverse, codehash := pushAll values, sSignedPubk := signed } := by
  have hmax : MAX_SCRIPT_ELEMENT_SIZE = 520 := rfl
  have hlength := length_pushAll_le h.short
  have hfew := h.few
  rw [evalScript_eq_ok]
  have hmul : (MAX_SCRIPT_ELEMENT_SIZE + 5) * values.length ≤ 525 * 19 :=
    Nat.mul_le_mul (by omega) hfew
  refine ⟨by omega, ?_, rfl⟩
  have hrun : Runs sp call (values.flatMap pushVch ++ [])
      { stack := [], codehash := pushAll values, sSignedPubk := signed }
      { stack := values.reverse ++ [], codehash := pushAll values, sSignedPubk := signed } := by
    refine (runs_pushes h.short ?_ ?_).mpr ⟨?_, runs_nil.mpr rfl⟩
    · rfl
    · exact show 0 + 0 ≤ 1000 by decide
    · exact show values.length + 0 + 0 ≤ 1000 by omega
  rw [append_nil] at hrun
  simpa only [append_nil, pushAll] using hrun

theorem isPushOnly_pushAll {values : List Vchtype}
    (h : ∀ vch ∈ values, vch.length ≤ MAX_SCRIPT_ELEMENT_SIZE) :
    CScript.isPushOnly (pushAll values) = true := by
  have hmax : MAX_SCRIPT_ELEMENT_SIZE = 520 := rfl
  have hrun : Scan.run nextOp (fun op _ (_ : Unit) => if OP_16 < op.1 then .error () else .ok ())
      .error (pushAll values) () = .ok () := by
    induction values with
    | nil => rfl
    | cons vch values ih =>
      have hpush := pushes_vch (show vch.length < 2 ^ 32 by have := h vch mem_cons_self; omega)
      have hnext : nextOp (pushAll (vch :: values)) = some (vchOp vch, pushAll values) :=
        nextOp_eq_some.mpr (hpush.getOp (pushAll values))
      rw [Scan.run_of_next nextOp_shrinks hnext, if_neg hpush.opcode.not_gt]
      exact ih fun v hv => h v (mem_cons_of_mem _ hv)
  rw [CScript.isPushOnly, hrun]
  rfl

/-! ## Scripts without a signature in them -/

namespace CScript

/-- No operation of the script starts with the bytes. -/
inductive Untouched (b : CScript) : CScript → Prop
  | nil : Untouched b []
  | op {s rest : CScript} {opcode : ℕ} {vch : Vchtype} (hop : s.getOp = some (opcode, vch, rest))
      (hnot : ¬b <+: s) (hrest : Untouched b rest) : Untouched b s

theorem dropPrefixes_of_not_prefix {b s : CScript} (h : ¬b <+: s) (fuel : ℕ) :
    dropPrefixes b fuel s = s := by
  cases fuel with
  | zero => rfl
  | succ fuel => rw [dropPrefixes, if_neg h]

/-- `FindAndDelete` finds nothing. -/
theorem findAndDelete_of_untouched {b s : CScript} (h : Untouched b s) :
    s.findAndDelete b = s := by
  unfold findAndDelete
  split_ifs with hb
  · rfl
  have hgo (fuel : ℕ) (hfuel : s.length ≤ fuel) : findAndDelete.go b fuel s = s := by
    induction h generalizing fuel with
    | nil =>
      cases fuel with
      | zero => rfl
      | succ fuel =>
        have hnot : ¬b <+: [] := fun hpre => hb (prefix_nil.mp hpre)
        rw [findAndDelete.go, dropPrefixes_of_not_prefix hnot]
        rfl
    | @op s rest opcode vch hop hnot _ ih =>
      obtain ⟨⟨piece, hpiece⟩, hshort⟩ := getOp_suffix hop
      cases fuel with
      | zero => omega
      | succ fuel =>
        rw [findAndDelete.go, dropPrefixes_of_not_prefix hnot]
        simp only [hop]
        rw [ih fuel (by omega), ← hpiece, length_append, Nat.add_sub_cancel, take_left]
  exact hgo s.length le_rfl

theorem foldl_findAndDelete {l : List Vchtype} {s : CScript}
    (h : ∀ vchSig ∈ l, s.findAndDelete (pushVch vchSig) = s) :
    l.foldl (fun s vchSig => s.findAndDelete (pushVch vchSig)) s = s := by
  induction l with
  | nil => rfl
  | cons vchSig l ih =>
    rw [foldl_cons, h vchSig mem_cons_self]
    exact ih fun v hv => h v (mem_cons_of_mem _ hv)

end CScript

/-- What every signature that is let through starts with, and how long it can be. -/
structure SignatureBytes (vchSig : Vchtype) : Prop where
  head : vchSig.head? = some 0x30
  length_le : vchSig.length ≤ 73

theorem SignatureOf.bytes {code : CScript} {vchSig vchPubKey : Vchtype}
    (h : SignatureOf sp call code vchSig vchPubKey)
    (hempty : hasFlag call.flags SCRIPT_VERIFY_ALLOW_EMPTY_SIG = false) :
    SignatureBytes vchSig := by
  rcases (checkSignatureEncoding_iff call.flags vchSig).mp h.encoding.1 with
    ⟨hset, -⟩ | ⟨r, s, nHashType, hsig⟩
  · rw [hempty] at hset
    cases hset
  · exact ⟨by rw [hsig.text]; rfl, hsig.length⟩

namespace SignatureBytes

variable {vchSig : Vchtype} {rest : CScript}

theorem ne_nil (h : SignatureBytes vchSig) : vchSig ≠ [] := by
  rintro rfl
  cases h.head

theorem pushVch_eq (h : SignatureBytes vchSig) :
    pushVch vchSig = UInt8.ofNat vchSig.length :: vchSig := by
  have h1 : CScript.OP_PUSHDATA1 = 76 := rfl
  have hlength := h.length_le
  rw [pushVch, if_pos (by omega)]

/-- A push has the length of the signature in front. -/
theorem prefix_cons_iff (h : SignatureBytes vchSig) (b : UInt8) :
    pushVch vchSig <+: b :: rest ↔ b.toNat = vchSig.length ∧ vchSig <+: rest := by
  have hlength := h.length_le
  have hsize : (UInt8.ofNat vchSig.length).toNat = vchSig.length :=
    UInt8.toNat_ofNat_of_lt' (by simp only [UInt8.size]; omega)
  rw [h.pushVch_eq, cons_prefix_cons, ← UInt8.toNat_inj, hsize, eq_comm]

theorem not_prefix_opcode (h : SignatureBytes vchSig) {b : UInt8} (hb : 0x4c ≤ b.toNat) :
    ¬pushVch vchSig <+: b :: rest := by
  rw [h.prefix_cons_iff]
  have hlength := h.length_le
  omega

/-- Bytes that do not start like a signature. -/
theorem not_prefix_push (h : SignatureBytes vchSig) {vch : Vchtype} (hvch : vch.length < 76)
    (hne : vch.head? ≠ some 0x30) (hnil : vch ≠ []) : ¬pushVch vchSig <+: pushVch vch ++ rest := by
  have h1 : CScript.OP_PUSHDATA1 = 76 := rfl
  rw [pushVch.eq_def vch, if_pos (by omega), cons_append, h.prefix_cons_iff]
  rintro ⟨-, hstart⟩
  obtain ⟨b, vch, rfl⟩ := exists_cons_of_ne_nil hnil
  obtain ⟨c, vchSig, rfl⟩ := exists_cons_of_ne_nil h.ne_nil
  rw [cons_append, cons_prefix_cons] at hstart
  exact hne (hstart.1 ▸ h.head)

end SignatureBytes

/-! ## Payments -/

/-- What a standard output pays to: a key, the hash of a key, or some of several keys. -/
inductive Payment
  | pubKey (key : Vchtype)
  | keyID (key : Vchtype)
  | multisig (nRequired : ℕ) (keys : List Vchtype)
  deriving DecidableEq

namespace Payment

def script (sp : ScriptParams) : Payment → CScript
  | pubKey key => pushVch key ++ [0xac]
  | keyID key => CScript.setDestination (.keyID (sp.Hash160 key))
  | multisig nRequired keys => CScript.setMultisig nRequired keys

def keys : Payment → List Vchtype
  | pubKey key => [key]
  | keyID key => [key]
  | multisig _ keys => keys

def nRequired : Payment → ℕ
  | pubKey _ => 1
  | keyID _ => 1
  | multisig nRequired _ => nRequired

structure Valid (p : Payment) : Prop where
  pos : 1 ≤ p.nRequired
  le_length : p.nRequired ≤ p.keys.length
  length_le : p.keys.length ≤ 16
  nodup : p.keys.Nodup
  encoding : ∀ key ∈ p.keys, checkPubKeyEncoding key = true

/-- The signatures with what else the payment wants on the stack, from the bottom up. Values
that stand for signatures that are missing may be empty. -/
def IsSpend : Payment → List Vchtype → List Vchtype → Prop
  | pubKey _, vchSigs, values => values = vchSigs
  | keyID key, vchSigs, values => values = vchSigs ++ if vchSigs = [] then [] else [key]
  | multisig nRequired _, vchSigs, values =>
    values = [] ∧ vchSigs = [] ∨ ∃ missing, (missing = 0 ∨ vchSigs.length + missing = nRequired) ∧
      values = [] :: (vchSigs ++ replicate missing [])

theorem head_of_checkPubKeyEncoding {key : Vchtype} (h : checkPubKeyEncoding key = true) :
    key ≠ [] ∧ key.head? ≠ some 0x30 := by
  cases key with
  | nil => simp [checkPubKeyEncoding, isCompressedOrUncompressedPubKey] at h
  | cons b key =>
    refine ⟨cons_ne_nil _ _, fun hb => ?_⟩
    obtain rfl : b = 0x30 := by simpa using hb
    simp [checkPubKeyEncoding, isCompressedOrUncompressedPubKey] at h

end Payment

namespace SignatureBytes

variable {vchSig : Vchtype} {rest : CScript}

theorem untouched_opcode (h : SignatureBytes vchSig) {b : UInt8}
    (hb : CScript.OP_PUSHDATA4 < b.toNat) (hrest : CScript.Untouched (pushVch vchSig) rest) :
    CScript.Untouched (pushVch vchSig) (b :: rest) := by
  have h4 : CScript.OP_PUSHDATA4 = 0x4e := rfl
  exact .op (CScript.getOp_of_lt hb rest) (h.not_prefix_opcode (by omega)) hrest

theorem untouched_key (h : SignatureBytes vchSig) {key : Vchtype}
    (hkey : checkPubKeyEncoding key = true) (hrest : CScript.Untouched (pushVch vchSig) rest) :
    CScript.Untouched (pushVch vchSig) (pushVch key ++ rest) := by
  obtain ⟨hnil, hhead⟩ := Payment.head_of_checkPubKeyEncoding hkey
  have hlength := length_of_checkPubKeyEncoding hkey
  exact .op ((pushes_vch (by omega)).getOp rest) (h.not_prefix_push (by omega) hhead hnil) hrest

theorem untouched_id (h : SignatureBytes vchSig) {id : UInt160} (hid : vchSig ≠ id.toBytes)
    (hrest : CScript.Untouched (pushVch vchSig) rest) :
    CScript.Untouched (pushVch vchSig) (0x14 :: (id.toBytes ++ rest)) := by
  refine .op (CScript.getOp_push20 id.length_toBytes rest) ?_ hrest
  rw [h.prefix_cons_iff]
  rintro ⟨hlength, hstart⟩
  have htwenty : (0x14 : UInt8).toNat = 20 := rfl
  rw [prefix_iff_eq_take, ← hlength, htwenty] at hstart
  rw [take_left' id.length_toBytes] at hstart
  exact hid hstart

theorem untouched_keys (h : SignatureBytes vchSig) {keys : List Vchtype}
    (hkeys : ∀ key ∈ keys, checkPubKeyEncoding key = true)
    (hrest : CScript.Untouched (pushVch vchSig) rest) :
    CScript.Untouched (pushVch vchSig) (keys.flatMap pushVch ++ rest) := by
  induction keys with
  | nil => exact hrest
  | cons key keys ih =>
    rw [flatMap_cons, append_assoc]
    exact h.untouched_key (hkeys key mem_cons_self) (ih fun k hk => hkeys k (mem_cons_of_mem _ hk))

end SignatureBytes

namespace Payment

variable {p : Payment}

/-- A signature is not pushed in the script of the payment. -/
theorem untouched_script (hp : p.Valid) {vchSig : Vchtype} (hsig : SignatureBytes vchSig)
    (hid : ∀ key ∈ p.keys, vchSig ≠ (sp.Hash160 key).toBytes) :
    CScript.Untouched (pushVch vchSig) (p.script sp) := by
  have h4 : CScript.OP_PUSHDATA4 = 0x4e := rfl
  cases p with
  | pubKey key =>
    exact hsig.untouched_key (hp.encoding key mem_cons_self)
      (hsig.untouched_opcode (b := 0xac) (by decide) .nil)
  | keyID key =>
    have hend : CScript.Untouched (pushVch vchSig) [0x88, 0xac] :=
      hsig.untouched_opcode (b := 0x88) (by decide)
        (hsig.untouched_opcode (b := 0xac) (by decide) .nil)
    exact hsig.untouched_opcode (b := 0x76) (by decide) (hsig.untouched_opcode (b := 0xa9)
      (by decide) (hsig.untouched_id (hid key mem_cons_self) hend))
  | multisig nRequired keys =>
    have hpos : 1 ≤ nRequired := hp.pos
    have hle : nRequired ≤ keys.length := hp.le_length
    have hn : keys.length ≤ 16 := hp.length_le
    have hkeys : ∀ key ∈ keys, checkPubKeyEncoding key = true := hp.encoding
    have hend : CScript.Untouched (pushVch vchSig) [encodeOP_N keys.length, 0xae] :=
      hsig.untouched_opcode (by rw [toNat_encodeOP_N (by omega) hn]; omega)
        (hsig.untouched_opcode (b := 0xae) (by decide) .nil)
    exact hsig.untouched_opcode (by rw [toNat_encodeOP_N hpos (by omega)]; omega)
      (hsig.untouched_keys hkeys hend)

theorem findAndDelete_script (hp : p.Valid) {vchSig : Vchtype} (hsig : SignatureBytes vchSig)
    (hid : ∀ key ∈ p.keys, vchSig ≠ (sp.Hash160 key).toBytes) :
    (p.script sp).findAndDelete (pushVch vchSig) = p.script sp :=
  CScript.findAndDelete_of_untouched (untouched_script hp hsig hid)

/-- Signatures of one key. -/
theorem nil_or_single {R : Vchtype → Vchtype → Prop} {vchSigs chosen : List Vchtype} {key : Vchtype}
    (hsigs : Forall₂ R vchSigs chosen) (hsub : chosen <+ [key]) :
    vchSigs = [] ∨ ∃ vchSig, vchSigs = [vchSig] ∧ R vchSig key := by
  cases hsub with
  | cons _ hnil =>
    obtain rfl := sublist_nil.mp hnil
    cases hsigs
    exact .inl rfl
  | cons_cons _ hnil =>
    obtain rfl := sublist_nil.mp hnil
    cases hsigs with
    | cons hsig hrest =>
      cases hrest
      exact .inr ⟨_, rfl, hsig⟩

section Accepts

variable {vchSigs chosen values : List Vchtype} {signed : Finset Vchtype}

theorem accepts_pubKey_iff {key : Vchtype} (hp : (pubKey key).Valid)
    (hempty : hasFlag call.flags SCRIPT_VERIFY_ALLOW_EMPTY_SIG = false)
    (hsub : chosen <+ [key])
    (hsigs : Forall₂ (SignatureOf sp call ((pubKey key).script sp)) vchSigs chosen)
    (hid : ∀ vchSig ∈ vchSigs, vchSig ≠ (sp.Hash160 key).toBytes) :
    (∃ signed', Accepts sp call vchSigs.reverse ((pubKey key).script sp) signed signed') ↔
      vchSigs.length = 1 := by
  have hlength := length_of_checkPubKeyEncoding (hp.encoding key mem_cons_self)
  have hmax : MAX_SCRIPT_ELEMENT_SIZE = 520 := rfl
  have haccepts {stack : List Vchtype} {signed' : Finset Vchtype} :=
    @accepts_pubKey sp call stack key signed signed'
      (show key.length ≤ MAX_SCRIPT_ELEMENT_SIZE by omega)
  rcases nil_or_single hsigs hsub with rfl | ⟨vchSig, rfl, hsig⟩
  · simp [script, haccepts]
  · refine iff_of_true ⟨insert key signed, haccepts.mpr ⟨vchSig, [], rfl, ?_, ?_, rfl⟩⟩ rfl
    · exact show 1 ≤ 999 by decide
    · rw [show pushVch key ++ [0xac] = (pubKey key).script sp from rfl,
        findAndDelete_script hp (hsig.bytes hempty) (by simpa [keys] using hid)]
      exact hsig

theorem accepts_keyID_iff {key : Vchtype} (hp : (keyID key).Valid)
    (hempty : hasFlag call.flags SCRIPT_VERIFY_ALLOW_EMPTY_SIG = false)
    (hspend : (keyID key).IsSpend vchSigs values) (hsub : chosen <+ [key])
    (hsigs : Forall₂ (SignatureOf sp call ((keyID key).script sp)) vchSigs chosen)
    (hid : ∀ vchSig ∈ vchSigs, vchSig ≠ (sp.Hash160 key).toBytes) :
    (∃ signed', Accepts sp call values.reverse ((keyID key).script sp) signed signed') ↔
      vchSigs.length = 1 := by
  rcases nil_or_single hsigs hsub with rfl | ⟨vchSig, rfl, hsig⟩
  · obtain rfl : values = [] := hspend
    simp [script, accepts_keyID]
  · obtain rfl : values = [vchSig, key] := hspend
    refine iff_of_true ⟨insert key signed, accepts_keyID.mpr
      ⟨key, vchSig, [], rfl, show 2 ≤ 998 by decide, rfl, ?_, rfl⟩⟩ rfl
    rw [show CScript.setDestination (.keyID (sp.Hash160 key)) = (keyID key).script sp from rfl,
      findAndDelete_script hp (hsig.bytes hempty) (by simpa [keys] using hid)]
    exact hsig

theorem accepts_multisig_iff {nRequired : ℕ} {keys : List Vchtype}
    (hp : (multisig nRequired keys).Valid)
    (hempty : hasFlag call.flags SCRIPT_VERIFY_ALLOW_EMPTY_SIG = false)
    (hspend : (multisig nRequired keys).IsSpend vchSigs values) (hsub : chosen <+ keys)
    (hsigs : Forall₂ (SignatureOf sp call ((multisig nRequired keys).script sp)) vchSigs chosen)
    (hfew : vchSigs.length ≤ nRequired)
    (hid : ∀ vchSig ∈ vchSigs, ∀ key ∈ keys, vchSig ≠ (sp.Hash160 key).toBytes) :
    (∃ signed', Accepts sp call values.reverse ((multisig nRequired keys).script sp) signed
        signed') ↔ vchSigs.length = nRequired := by
  have hpos : 1 ≤ nRequired := hp.pos
  have hm : nRequired ≤ keys.length := hp.le_length
  have hn : keys.length ≤ 16 := hp.length_le
  have hscript : (multisig nRequired keys).script sp = CScript.setMultisig nRequired keys := rfl
  rw [hscript] at hsigs ⊢
  rw [accepts_multisig hpos hm hn hp.encoding]
  constructor
  · rintro ⟨-, vchSigs', dummy, below, hsigs'⟩
    have hlength := congrArg length hsigs'.stack_eq
    have hrequired := hsigs'.length_eq
    simp only [length_reverse, length_append, length_cons] at hlength
    rcases hspend with ⟨rfl, rfl⟩ | ⟨missing, hmissing, rfl⟩
    · simp only [length_nil] at hlength
      omega
    · simp only [length_cons, length_append, length_replicate] at hlength
      by_contra hne
      -- An empty value stands for a signature then, and it is none.
      obtain ⟨hsum, hmore⟩ : vchSigs.length + missing = nRequired ∧ 0 < missing := by omega
      have hbelow : below = [] := length_eq_zero_iff.mp (by omega)
      have hstack := congrArg reverse hsigs'.stack_eq
      rw [hbelow, reverse_reverse, reverse_append, reverse_reverse] at hstack
      obtain ⟨-, rfl⟩ : [] = dummy ∧ vchSigs ++ replicate missing [] = vchSigs' := by
        simpa using hstack
      obtain ⟨key, -, hkey⟩ := Matching.exists_of_mem_sublistForall₂ hsigs'.signed
        (mem_append_right vchSigs (mem_replicate.mpr ⟨hmore.ne', rfl⟩))
      exact (SignatureOf.bytes hkey hempty).ne_nil rfl
  · intro hlength
    rcases hspend with ⟨-, rfl⟩ | ⟨missing, hmissing, rfl⟩
    · simp only [length_nil] at hlength
      omega
    obtain rfl : missing = 0 := by omega
    simp only [replicate_zero, append_nil]
    have hmatch := sublistForall₂_iff.mpr ⟨chosen, hsigs, hsub⟩
    have hcode := CScript.foldl_findAndDelete (s := CScript.setMultisig nRequired keys)
        (l := vchSigs.reverse) fun vchSig hmem => by
      obtain ⟨key, -, hkey⟩ := Matching.exists_of_mem_sublistForall₂ hmatch (mem_reverse.mp hmem)
      exact findAndDelete_script hp (hkey.bytes hempty) (hid vchSig (mem_reverse.mp hmem))
    refine ⟨by simp only [length_reverse, length_cons]; omega, vchSigs, [], [], by simp, hlength,
      fun _ => rfl, ?_⟩
    rw [hcode]
    exact hmatch

end Accepts

/-- A spend of signatures in the order of their keys is accepted when there are as many of them
as the payment asks for. -/
theorem accepts_iff (hp : p.Valid) (hempty : hasFlag call.flags SCRIPT_VERIFY_ALLOW_EMPTY_SIG = false)
    {vchSigs chosen values : List Vchtype} {signed : Finset Vchtype}
    (hspend : p.IsSpend vchSigs values) (hsub : chosen <+ p.keys)
    (hsigs : Forall₂ (SignatureOf sp call (p.script sp)) vchSigs chosen)
    (hfew : vchSigs.length ≤ p.nRequired)
    (hid : ∀ vchSig ∈ vchSigs, ∀ key ∈ p.keys, vchSig ≠ (sp.Hash160 key).toBytes) :
    (∃ signed', Accepts sp call values.reverse (p.script sp) signed signed') ↔
      vchSigs.length = p.nRequired := by
  cases p with
  | pubKey key =>
    obtain rfl : values = vchSigs := hspend
    exact accepts_pubKey_iff hp hempty hsub hsigs fun vchSig h => hid vchSig h key mem_cons_self
  | keyID key =>
    exact accepts_keyID_iff hp hempty hspend hsub hsigs fun vchSig h =>
      hid vchSig h key mem_cons_self
  | multisig nRequired keys => exact accepts_multisig_iff hp hempty hspend hsub hsigs hfew hid

/-! ## Solutions -/

def solution (sp : ScriptParams) : Payment → TxnOutType × List Vchtype
  | pubKey key => (.TX_PUBKEY, [key])
  | keyID key => (.TX_PUBKEYHASH, [(sp.Hash160 key).toBytes])
  | multisig nRequired keys =>
    (.TX_MULTISIG, [UInt8.ofNat nRequired] :: (keys ++ [[UInt8.ofNat keys.length]]))

theorem solution_ne (sp : ScriptParams) (p : Payment) : (p.solution sp).1 ≠ .TX_SCRIPTHASH := by
  cases p <;> simp [solution]

theorem takeKeys_keys {keys : List Vchtype} {key : Vchtype} {rest : CScript} {b : UInt8}
    (hkeys : ∀ k ∈ key :: keys, checkPubKeyEncoding k = true)
    (hb : CScript.OP_PUSHDATA4 < b.toNat) (opcode : ℕ) {fuel : ℕ} (hfuel : keys.length < fuel) :
    takeKeys fuel opcode key (keys.flatMap pushVch ++ b :: rest) =
      (key :: keys, b.toNat, [], rest) := by
  induction keys generalizing key opcode fuel with
  | nil =>
    have hlength := length_of_checkPubKeyEncoding (hkeys key mem_cons_self)
    obtain ⟨fuel, rfl⟩ := Nat.exists_eq_add_of_lt hfuel
    rw [takeKeys, if_pos (by omega)]
    simp only [flatMap_nil, nil_append, CScript.getOp_of_lt hb]
    cases fuel <;> simp [takeKeys]
  | cons key' keys ih =>
    have hlength := length_of_checkPubKeyEncoding (hkeys key mem_cons_self)
    have hlength' := length_of_checkPubKeyEncoding (hkeys key' (mem_cons_of_mem _ mem_cons_self))
    obtain ⟨fuel, rfl⟩ := Nat.exists_eq_add_of_lt hfuel
    rw [takeKeys, if_pos (by omega), flatMap_cons, append_assoc,
      (pushes_vch (show key'.length < 2 ^ 32 by omega)).getOp]
    simp only [vchOp]
    rw [ih (fun k hk => hkeys k (mem_cons_of_mem _ hk)) _ (by simp only [length_cons]; omega)]

theorem length_le_flatMap_pushVch (keys : List Vchtype) :
    keys.length ≤ (keys.flatMap pushVch).length := by
  induction keys with
  | nil => exact le_rfl
  | cons key keys ih =>
    have hpush : 1 ≤ (pushVch key).length := by
      unfold pushVch
      dsimp only
      split_ifs <;> simp only [length_cons, length_append] <;> omega
    rw [flatMap_cons, length_append, length_cons]
    omega

/-- The keys and the numbers of a script for several keys. -/
theorem matchTemplate_multisig {nRequired : ℕ} {keys : List Vchtype}
    (hp : (multisig nRequired keys).Valid) :
    matchTemplate [.OP_SMALLINTEGER, .OP_PUBKEYS, .OP_SMALLINTEGER,
        .opcode CScript.OP_CHECKMULTISIG] (CScript.setMultisig nRequired keys) =
      some ([UInt8.ofNat nRequired] :: (keys ++ [[UInt8.ofNat keys.length]])) := by
  have hpos : 1 ≤ nRequired := hp.pos
  have hm : nRequired ≤ keys.length := hp.le_length
  have hn : keys.length ≤ 16 := hp.length_le
  have h4 : CScript.OP_PUSHDATA4 = 0x4e := rfl
  have h1 : OP_1 = 0x51 := rfl
  have h16 : OP_16 = 0x60 := rfl
  have hcode := toNat_encodeOP_N hpos (hm.trans hn)
  have hcount := toNat_encodeOP_N (hpos.trans hm) hn
  have hnumber {n : ℕ} (hn1 : 1 ≤ n) (hn16 : n ≤ 16) :
      matchOp (0x50 + n) [] .OP_SMALLINTEGER = some [[UInt8.ofNat n]] := by
    rw [matchOp, if_neg (by omega), if_pos (by omega), h1, show 0x50 + n - (0x51 - 1) = n by omega]
  have hend : matchTemplate [.opcode CScript.OP_CHECKMULTISIG] [0xae] = some [] := by decide
  have hkeys : ∀ k ∈ keys, checkPubKeyEncoding k = true := hp.encoding
  have hsmall := CScript.getOp_of_lt (show CScript.OP_PUSHDATA4 < (encodeOP_N nRequired).toNat by
    omega) (keys.flatMap pushVch ++ [encodeOP_N keys.length, 0xae])
  obtain ⟨key, keys', hcons⟩ := exists_cons_of_ne_nil (l := keys) (by
    rintro rfl
    exact absurd hm (by simp only [length_nil]; omega))
  have hkey := length_of_checkPubKeyEncoding (hkeys key (hcons ▸ mem_cons_self))
  have hfirst := (pushes_vch (show key.length < 2 ^ 32 by omega)).getOp
    (keys'.flatMap pushVch ++ [encodeOP_N keys.length, 0xae])
  have hscript : keys.flatMap pushVch ++ [encodeOP_N keys.length, 0xae] =
      pushVch key ++ (keys'.flatMap pushVch ++ [encodeOP_N keys.length, 0xae]) := by
    rw [hcons, flatMap_cons, append_assoc]
  have htake := @takeKeys_keys keys' key [0xae] (encodeOP_N keys.length) (hcons ▸ hkeys)
    (by omega) (vchOp key).1 _ (show keys'.length < (keys.flatMap pushVch ++
      [encodeOP_N keys.length, 0xae]).length by
        have hflat := length_le_flatMap_pushVch keys
        rw [length_append]
        simp only [hcons, length_cons] at hflat ⊢
        omega)
  rw [← hcons] at htake
  have hkeysMatch : matchTemplate [.OP_PUBKEYS, .OP_SMALLINTEGER,
      .opcode CScript.OP_CHECKMULTISIG] (keys.flatMap pushVch ++ [encodeOP_N keys.length, 0xae]) =
      some (keys ++ [[UInt8.ofNat keys.length]]) := by
    rw [matchTemplate]
    rw [hscript] at htake ⊢
    simp only [hfirst, vchOp] at htake ⊢
    rw [htake]
    simp only [hcount, hnumber (hpos.trans hm) hn, hend, Option.bind_some, Option.map_some,
      append_nil]
  rw [CScript.setMultisig, matchTemplate]
  · simp only [hsmall, hcode, hkeysMatch, hnumber hpos (hm.trans hn)]
    simp
  · simp

theorem isPayToScriptHash_script (hp : p.Valid) :
    CScript.isPayToScriptHash (p.script sp) = false := by
  cases p with
  | pubKey key =>
    have hkey := length_of_checkPubKeyEncoding (hp.encoding key mem_cons_self)
    have h1 : CScript.OP_PUSHDATA1 = 76 := rfl
    have hlength : (pushVch key ++ [0xac]).length = key.length + 2 := by
      rw [pushVch, if_pos (by omega)]
      simp
    have hne : ¬key.length + 2 = 23 := by omega
    simp [CScript.isPayToScriptHash, script, hlength, hne]
  | keyID key => exact isPayToScriptHash_keyID _
  | multisig nRequired keys =>
    exact isPayToScriptHash_setMultisig hp.pos (hp.le_length.trans hp.length_le)

theorem solver_pubKey {key : Vchtype} (hkey : checkPubKeyEncoding key = true) :
    matchTemplate [.OP_PUBKEY, .opcode CScript.OP_CHECKSIG] (pushVch key ++ [0xac]) =
      some [key] := by
  have hlength := length_of_checkPubKeyEncoding hkey
  have hop := (pushes_vch (show key.length < 2 ^ 32 by omega)).getOp [0xac]
  have hend : matchTemplate [.opcode CScript.OP_CHECKSIG] [0xac] = some [] := by decide
  rw [matchTemplate]
  · simp only [hop, vchOp, matchOp, if_neg (show ¬(key.length < 33 ∨ 120 < key.length) by omega),
      hend]
    simp
  · simp

theorem solver_multisig {nRequired : ℕ} {keys : List Vchtype}
    (hp : (multisig nRequired keys).Valid) :
    scanTemplates (CScript.setMultisig nRequired keys) mTemplates =
      some (.TX_MULTISIG, [UInt8.ofNat nRequired] :: (keys ++ [[UInt8.ofNat keys.length]])) := by
  have hpos : 1 ≤ nRequired := hp.pos
  have hm : nRequired ≤ keys.length := hp.le_length
  have hn : keys.length ≤ 16 := hp.length_le
  have h4 : CScript.OP_PUSHDATA4 = 0x4e := rfl
  have hcode := toNat_encodeOP_N hpos (hm.trans hn)
  have hsmall := CScript.getOp_of_lt (show CScript.OP_PUSHDATA4 < (encodeOP_N nRequired).toNat by
    omega) (keys.flatMap pushVch ++ [encodeOP_N keys.length, 0xae])
  have hfirst {op : TemplateOp} (ops : List TemplateOp) (hkeys : op ≠ .OP_PUBKEYS)
      (hreturn : op ≠ .opcode CScript.OP_RETURN)
      (h : matchOp (encodeOP_N nRequired).toNat [] op = none) :
      matchTemplate (op :: ops) (CScript.setMultisig nRequired keys) = none :=
    matchTemplate_of_matchOp hsmall hkeys hreturn h
  have hdup : ¬0x50 + nRequired = CScript.OP_DUP := by
    simp only [CScript.OP_DUP]
    omega
  have hsize {n : ℕ} (h16 : n ≤ 16) : (UInt8.ofNat n).toNat = n :=
    UInt8.toNat_ofNat_of_lt' (by simp only [UInt8.size]; omega)
  have hmatches : multisigMatches
      ([UInt8.ofNat nRequired] :: (keys ++ [[UInt8.ofNat keys.length]])) = true := by
    have hlast : ([UInt8.ofNat nRequired] :: (keys ++ [[UInt8.ofNat keys.length]])).getLastD [] =
        [UInt8.ofNat keys.length] := by
      rw [← cons_append, getLastD_eq_getLast?, getLast?_append, getLast?_singleton]
      rfl
    rw [multisigMatches, hlast]
    simp [hsize hn, hsize (hm.trans hn), hpos, hm, hpos.trans hm]
  rw [mTemplates, scanTemplates, hfirst _ (by decide) (by decide) (by simp [matchOp]),
    scanTemplates, hfirst _ (by decide) (by decide) (by simp [matchOp, hcode, hdup]),
    scanTemplates, matchTemplate_multisig hp]
  simp [hmatches]

theorem solver_script (hp : p.Valid) : solver (p.script sp) = some (p.solution sp) := by
  rw [solver, isPayToScriptHash_script hp, if_neg Bool.false_ne_true]
  cases p with
  | pubKey key =>
    rw [mTemplates, scanTemplates, script, solver_pubKey (hp.encoding key mem_cons_self)]
    simp [solution]
  | keyID key =>
    have hsolver := solver_keyID (sp.Hash160 key)
    rwa [solver, isPayToScriptHash_keyID, if_neg Bool.false_ne_true] at hsolver
  | multisig nRequired keys => exact solver_multisig hp

theorem IsSpend.pushable (hp : p.Valid) {vchSigs values : List Vchtype}
    (hspend : p.IsSpend vchSigs values) (hsigs : ∀ vchSig ∈ vchSigs, SignatureBytes vchSig)
    (hfew : vchSigs.length ≤ p.nRequired) :
    (∀ vch ∈ values, vch.length ≤ MAX_SCRIPT_ELEMENT_SIZE) ∧ values.length ≤ 17 := by
  have hmax : MAX_SCRIPT_ELEMENT_SIZE = 520 := rfl
  have hn := hp.length_le
  have hm := hp.le_length
  have hshort : ∀ vchSig ∈ vchSigs, vchSig.length ≤ MAX_SCRIPT_ELEMENT_SIZE := fun vchSig hmem =>
    (hsigs vchSig hmem).length_le.trans (by decide)
  cases p with
  | pubKey key =>
    obtain rfl : values = vchSigs := hspend
    exact ⟨hshort, by omega⟩
  | keyID key =>
    obtain rfl : values = vchSigs ++ if vchSigs = [] then [] else [key] := hspend
    have hkey := length_of_checkPubKeyEncoding (hp.encoding key mem_cons_self)
    have hrequired : (keyID key).nRequired = 1 := rfl
    split_ifs
    · rw [append_nil]
      exact ⟨hshort, by omega⟩
    · refine ⟨fun vch hvch => ?_, by simp only [length_append, length_singleton]; omega⟩
      rcases mem_append.mp hvch with hmem | hmem
      · exact hshort vch hmem
      · rw [mem_singleton.mp hmem]
        omega
  | multisig nRequired keys =>
    have hrequired : (multisig nRequired keys).nRequired = nRequired := rfl
    rcases hspend with ⟨rfl, -⟩ | ⟨missing, hmissing, rfl⟩
    · exact ⟨by simp, by simp⟩
    · refine ⟨fun vch hvch => ?_, by
        simp only [length_cons, length_append, length_replicate]; omega⟩
      rcases mem_cons.mp hvch with rfl | hvch
      · exact Nat.zero_le _
      rcases mem_append.mp hvch with hmem | hmem
      · exact hshort vch hmem
      · rw [eq_of_mem_replicate hmem]
        exact Nat.zero_le _

end Payment

/-! ## Outputs -/

/-- A payment in the script of an output, or behind the hash of its script. -/
structure StandardOutput where
  payment : Payment
  fScriptHash : Bool
  deriving DecidableEq

namespace StandardOutput

def scriptPubKey (sp : ScriptParams) (o : StandardOutput) : CScript :=
  if o.fScriptHash then CScript.setDestination (.scriptID (sp.Hash160 (o.payment.script sp)))
  else o.payment.script sp

structure Valid (sp : ScriptParams) (o : StandardOutput) : Prop where
  payment : o.payment.Valid
  short : o.fScriptHash = true → (o.payment.script sp).length ≤ MAX_SCRIPT_ELEMENT_SIZE

def IsSpend (sp : ScriptParams) (o : StandardOutput) (vchSigs values : List Vchtype) : Prop :=
  if o.fScriptHash then
    values = [] ∧ vchSigs = [] ∨
      ∃ below, values = below ++ [o.payment.script sp] ∧ o.payment.IsSpend vchSigs below
  else o.payment.IsSpend vchSigs values

variable {o : StandardOutput}

theorem Valid.pushable (ho : o.Valid sp) {vchSigs values : List Vchtype}
    (hspend : o.IsSpend sp vchSigs values) (hsigs : ∀ vchSig ∈ vchSigs, SignatureBytes vchSig)
    (hfew : vchSigs.length ≤ o.payment.nRequired) : Pushable values := by
  unfold IsSpend at hspend
  split_ifs at hspend with hscript
  · rcases hspend with ⟨rfl, -⟩ | ⟨below, rfl, hbelow⟩
    · exact ⟨by simp, by simp⟩
    · obtain ⟨hshort, hlength⟩ := Payment.IsSpend.pushable ho.payment hbelow hsigs hfew
      refine ⟨fun vch hvch => ?_, by simp only [length_append, length_singleton]; omega⟩
      rcases mem_append.mp hvch with hmem | hmem
      · exact hshort vch hmem
      · rw [mem_singleton.mp hmem]
        exact ho.short hscript
  · obtain ⟨hshort, hlength⟩ := Payment.IsSpend.pushable ho.payment hspend hsigs hfew
    exact ⟨hshort, by omega⟩

/-- The input is verified exactly if it has as many signatures as the payment asks for. -/
theorem Valid.verifyScript_iff (ho : o.Valid sp)
    (hempty : hasFlag call.flags SCRIPT_VERIFY_ALLOW_EMPTY_SIG = false)
    {vchSigs chosen values : List Vchtype} (hspend : o.IsSpend sp vchSigs values)
    (hsub : chosen <+ o.payment.keys)
    (hsigs : Forall₂ (SignatureOf sp call (o.payment.script sp)) vchSigs chosen)
    (hfew : vchSigs.length ≤ o.payment.nRequired)
    (hid : ∀ vchSig ∈ vchSigs, ∀ key ∈ o.payment.keys, vchSig ≠ (sp.Hash160 key).toBytes) :
    (verifyScript sp (pushAll values) (o.scriptPubKey sp) call).isSome = true ↔
      vchSigs.length = o.payment.nRequired := by
  have hmatch := sublistForall₂_iff.mpr ⟨chosen, hsigs, hsub⟩
  have hpushable : Pushable values := ho.pushable hspend (fun vchSig hmem => by
    obtain ⟨key, -, hkey⟩ := Matching.exists_of_mem_sublistForall₂ hmatch hmem
    exact hkey.bytes hempty) hfew
  have heval := @evalScript_pushAll sp call values hpushable ∅
  unfold IsSpend at hspend
  rw [Option.isSome_iff_exists, scriptPubKey]
  split_ifs at hspend ⊢ with hscript
  · rcases hspend with ⟨rfl, rfl⟩ | ⟨below, rfl, hbelow⟩
    · refine iff_of_false ?_ (by have := ho.payment.pos; simp only [length_nil]; omega)
      rintro ⟨signed, hverify⟩
      obtain ⟨-, st1, redeem, below, hst1, hstack, -⟩ := verifyScript_scriptID.mp hverify
      rw [heval] at hst1
      cases hst1
      cases hstack
    · rw [← Payment.accepts_iff ho.payment hempty hbelow hsub hsigs hfew hid]
      constructor
      · rintro ⟨signed, hverify⟩
        obtain ⟨-, st1, redeem, below', hst1, hstack, -, -, haccepts⟩ :=
          verifyScript_scriptID.mp hverify
        rw [heval] at hst1
        cases hst1
        rw [reverse_append, reverse_singleton, singleton_append] at hstack
        cases hstack
        exact ⟨signed, haccepts⟩
      · rintro ⟨signed, haccepts⟩
        have hfew' := hpushable.few
        refine ⟨signed, verifyScript_scriptID.mpr ⟨isPushOnly_pushAll hpushable.short, _, _, _,
          heval, reverse_concat, ?_, rfl, haccepts⟩⟩
        simp only [length_reverse]
        omega
  · simp only [verifyScript_eq_some (Payment.isPayToScriptHash_script ho.payment), heval,
      Except.ok.injEq, exists_eq_left']
    exact Payment.accepts_iff ho.payment hempty hspend hsub hsigs hfew hid

end StandardOutput

end BitBay
