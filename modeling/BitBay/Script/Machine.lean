import BitBay.Bridge.Pushes
import BitBay.Library.Scan
import BitBay.Script.Checks

/-!
# The script machine

A script is a program for a stack machine. Every operation works on the stack, most of all the
values on its top; conditionals skip operations, and a second stack keeps values aside. The
machine stops without success at the first operation that fails, and what it has left on the
stack by then stays there.

The top of a stack is the head of its list.
-/
namespace BitBay

def MAX_SCRIPT_ELEMENT_SIZE : ℕ := 520

/-! ## Values -/

/-- `CBigNum(vch)`: the last byte has the sign. -/
def bigNumOfVch (vch : Vchtype) : ℤ :=
  let last := (vch.getLastD 0).toNat
  if 0x80 ≤ last then -(CScript.leNat vch - 0x80 * 256 ^ (vch.length - 1) : ℕ)
  else CScript.leNat vch

/-- `CastToBigNum`; `none` when it throws. -/
def castToBigNum (vch : Vchtype) (nMaxNumSize : ℕ := 4) : Option ℤ :=
  if nMaxNumSize < vch.length then none else some (bigNumOfVch (bigNumVch (bigNumOfVch vch)))

/-- `CastToBool`: a zero may have the sign. -/
def castToBool : Vchtype → Bool
  | [] => false
  | [b] => b ≠ 0 ∧ b ≠ 0x80
  | b :: rest => b ≠ 0 ∨ castToBool rest

def vchFalse : Vchtype := []
def vchTrue : Vchtype := [1]

def vchBool (b : Bool) : Vchtype := if b then vchTrue else vchFalse

/-! ## Operations -/

inductive StackOp
  | OP_2DROP | OP_2DUP | OP_3DUP | OP_2OVER | OP_2ROT | OP_2SWAP | OP_IFDUP | OP_DEPTH | OP_DROP
  | OP_DUP | OP_NIP | OP_OVER | OP_ROT | OP_SWAP | OP_TUCK | OP_SIZE
  deriving DecidableEq

/-- The stack behind the operation; `none` when there are not enough values. -/
def StackOp.apply : StackOp → List Vchtype → Option (List Vchtype)
  | .OP_2DROP, _ :: _ :: s => some s
  | .OP_2DUP, x2 :: x1 :: s => some (x2 :: x1 :: x2 :: x1 :: s)
  | .OP_3DUP, x3 :: x2 :: x1 :: s => some (x3 :: x2 :: x1 :: x3 :: x2 :: x1 :: s)
  | .OP_2OVER, x4 :: x3 :: x2 :: x1 :: s => some (x2 :: x1 :: x4 :: x3 :: x2 :: x1 :: s)
  | .OP_2ROT, x6 :: x5 :: x4 :: x3 :: x2 :: x1 :: s =>
    some (x2 :: x1 :: x6 :: x5 :: x4 :: x3 :: s)
  | .OP_2SWAP, x4 :: x3 :: x2 :: x1 :: s => some (x2 :: x1 :: x4 :: x3 :: s)
  | .OP_IFDUP, x :: s => some (if castToBool x then x :: x :: s else x :: s)
  | .OP_DEPTH, s => some (bigNumVch s.length :: s)
  | .OP_DROP, _ :: s => some s
  | .OP_DUP, x :: s => some (x :: x :: s)
  | .OP_NIP, x2 :: _ :: s => some (x2 :: s)
  | .OP_OVER, x2 :: x1 :: s => some (x1 :: x2 :: x1 :: s)
  | .OP_ROT, x3 :: x2 :: x1 :: s => some (x1 :: x3 :: x2 :: s)
  | .OP_SWAP, x2 :: x1 :: s => some (x1 :: x2 :: s)
  | .OP_TUCK, x2 :: x1 :: s => some (x2 :: x1 :: x2 :: s)
  | .OP_SIZE, x :: s => some (bigNumVch x.length :: x :: s)
  | _, _ => none

inductive UnaryOp
  | OP_1ADD | OP_1SUB | OP_NEGATE | OP_ABS | OP_NOT | OP_0NOTEQUAL
  deriving DecidableEq

def UnaryOp.apply (bn : ℤ) : UnaryOp → ℤ
  | .OP_1ADD => bn + 1
  | .OP_1SUB => bn - 1
  | .OP_NEGATE => -bn
  | .OP_ABS => if bn < 0 then -bn else bn
  | .OP_NOT => if bn = 0 then 1 else 0
  | .OP_0NOTEQUAL => if bn ≠ 0 then 1 else 0

inductive BinaryOp
  | OP_ADD | OP_SUB | OP_BOOLAND | OP_BOOLOR | OP_NUMEQUAL | OP_NUMEQUALVERIFY | OP_NUMNOTEQUAL
  | OP_LESSTHAN | OP_GREATERTHAN | OP_LESSTHANOREQUAL | OP_GREATERTHANOREQUAL | OP_MIN | OP_MAX
  deriving DecidableEq

def BinaryOp.apply (bn1 bn2 : ℤ) : BinaryOp → ℤ
  | .OP_ADD => bn1 + bn2
  | .OP_SUB => bn1 - bn2
  | .OP_BOOLAND => if bn1 ≠ 0 ∧ bn2 ≠ 0 then 1 else 0
  | .OP_BOOLOR => if bn1 ≠ 0 ∨ bn2 ≠ 0 then 1 else 0
  | .OP_NUMEQUAL => if bn1 = bn2 then 1 else 0
  | .OP_NUMEQUALVERIFY => if bn1 = bn2 then 1 else 0
  | .OP_NUMNOTEQUAL => if bn1 ≠ bn2 then 1 else 0
  | .OP_LESSTHAN => if bn1 < bn2 then 1 else 0
  | .OP_GREATERTHAN => if bn2 < bn1 then 1 else 0
  | .OP_LESSTHANOREQUAL => if bn1 ≤ bn2 then 1 else 0
  | .OP_GREATERTHANOREQUAL => if bn2 ≤ bn1 then 1 else 0
  | .OP_MIN => if bn1 < bn2 then bn1 else bn2
  | .OP_MAX => if bn2 < bn1 then bn1 else bn2

inductive HashOp
  | OP_RIPEMD160 | OP_SHA1 | OP_SHA256 | OP_HASH160 | OP_HASH256
  deriving DecidableEq

def HashOp.apply (sp : ScriptParams) (vch : Vchtype) : HashOp → Vchtype
  | .OP_RIPEMD160 => (sp.RIPEMD160 vch).toBytes
  | .OP_SHA1 => (sp.SHA1 vch).toBytes
  | .OP_SHA256 => Wire.leBytes 32 (sp.SHA256 vch).toNat
  | .OP_HASH160 => (sp.Hash160 vch).toBytes
  | .OP_HASH256 => Wire.leBytes 32 (sp.Hash256 vch).toNat

/-- The operations above `OP_PUSHDATA4`; those with `fVerify` also check and take their result. -/
inductive Opcode
  | number (n : ℤ)
  | OP_NOP
  | OP_CHECKLOCKTIMEVERIFY
  | OP_NOPn
  | OP_IF (fNot : Bool)
  | OP_ELSE
  | OP_ENDIF
  | OP_VERIFY
  | OP_RETURN
  | OP_TOALTSTACK
  | OP_FROMALTSTACK
  | stackOp (op : StackOp)
  | OP_PICK (fRoll : Bool)
  | OP_EQUAL (fVerify : Bool)
  | unary (op : UnaryOp)
  | binary (op : BinaryOp)
  | OP_WITHIN
  | hash (op : HashOp)
  | OP_CODESEPARATOR
  | OP_CHECKSIG (fVerify : Bool)
  | OP_CHECKMULTISIG (fVerify : Bool)
  deriving DecidableEq

namespace Opcode

def table : List (ℕ × Opcode) :=
  [(0x61, OP_NOP), (0x63, OP_IF false), (0x64, OP_IF true), (0x67, OP_ELSE), (0x68, OP_ENDIF),
   (0x69, OP_VERIFY), (0x6a, OP_RETURN), (0x6b, OP_TOALTSTACK), (0x6c, OP_FROMALTSTACK),
   (0x6d, stackOp .OP_2DROP), (0x6e, stackOp .OP_2DUP), (0x6f, stackOp .OP_3DUP),
   (0x70, stackOp .OP_2OVER), (0x71, stackOp .OP_2ROT), (0x72, stackOp .OP_2SWAP),
   (0x73, stackOp .OP_IFDUP), (0x74, stackOp .OP_DEPTH), (0x75, stackOp .OP_DROP),
   (0x76, stackOp .OP_DUP), (0x77, stackOp .OP_NIP), (0x78, stackOp .OP_OVER),
   (0x79, OP_PICK false), (0x7a, OP_PICK true), (0x7b, stackOp .OP_ROT),
   (0x7c, stackOp .OP_SWAP), (0x7d, stackOp .OP_TUCK), (0x82, stackOp .OP_SIZE),
   (0x87, OP_EQUAL false), (0x88, OP_EQUAL true), (0x8b, unary .OP_1ADD), (0x8c, unary .OP_1SUB),
   (0x8f, unary .OP_NEGATE), (0x90, unary .OP_ABS), (0x91, unary .OP_NOT),
   (0x92, unary .OP_0NOTEQUAL), (0x93, binary .OP_ADD), (0x94, binary .OP_SUB),
   (0x9a, binary .OP_BOOLAND), (0x9b, binary .OP_BOOLOR), (0x9c, binary .OP_NUMEQUAL),
   (0x9d, binary .OP_NUMEQUALVERIFY), (0x9e, binary .OP_NUMNOTEQUAL), (0x9f, binary .OP_LESSTHAN),
   (0xa0, binary .OP_GREATERTHAN), (0xa1, binary .OP_LESSTHANOREQUAL),
   (0xa2, binary .OP_GREATERTHANOREQUAL), (0xa3, binary .OP_MIN), (0xa4, binary .OP_MAX),
   (0xa5, OP_WITHIN), (0xa6, hash .OP_RIPEMD160), (0xa7, hash .OP_SHA1), (0xa8, hash .OP_SHA256),
   (0xa9, hash .OP_HASH160), (0xaa, hash .OP_HASH256), (0xab, OP_CODESEPARATOR),
   (0xac, OP_CHECKSIG false), (0xad, OP_CHECKSIG true), (0xae, OP_CHECKMULTISIG false),
   (0xaf, OP_CHECKMULTISIG true), (0xb0, OP_NOPn), (0xb1, OP_CHECKLOCKTIMEVERIFY),
   (0xb2, OP_NOPn), (0xb3, OP_NOPn), (0xb4, OP_NOPn), (0xb5, OP_NOPn), (0xb6, OP_NOPn),
   (0xb7, OP_NOPn), (0xb8, OP_NOPn), (0xb9, OP_NOPn)]

/-- The operation of a code; `none` for the codes that only fail. -/
def ofCode (opcode : ℕ) : Option Opcode :=
  if opcode = OP_1NEGATE ∨ OP_1 ≤ opcode ∧ opcode ≤ OP_16 then
    some (number (opcode - (OP_1 - 1 : ℕ)))
  else table.lookup opcode

/-- `OP_CAT`, `OP_SUBSTR`, `OP_LEFT`, `OP_RIGHT`, `OP_INVERT`, `OP_AND`, `OP_OR`, `OP_XOR`,
`OP_2MUL`, `OP_2DIV`, `OP_MUL`, `OP_DIV`, `OP_MOD`, `OP_LSHIFT` and `OP_RSHIFT`. -/
def disabled : List ℕ :=
  [0x7e, 0x7f, 0x80, 0x81, 0x83, 0x84, 0x85, 0x86, 0x8d, 0x8e, 0x95, 0x96, 0x97, 0x98, 0x99]

end Opcode

/-! ## The machine -/

structure EvalState where
  stack : List Vchtype
  altstack : List Vchtype := []
  /-- Which of the open conditionals are executed, the innermost first. -/
  vfExec : List Bool := []
  nOpCount : ℕ := 0
  /-- The script from `pbegincodehash` on. -/
  codehash : CScript
  sSignedPubk : Finset Vchtype
  deriving DecidableEq

/-- A step ends in a state, or fails and leaves one. -/
abbrev Eval := Except EvalState EvalState

structure ScriptCall where
  txTo : CTransaction
  nIn : ℕ
  flags : ℕ
  nHashType : ℕ

namespace EvalState

variable (st : EvalState)

def push (vch : Vchtype) : EvalState := { st with stack := vch :: st.stack }

def fExec : Bool := st.vfExec.all id

/-- The end of an operation that may check its result and take it off the stack. -/
def verify (fVerify fOk : Bool) : Eval :=
  if fVerify then if fOk then .ok { st with stack := st.stack.tail } else .error st else .ok st

end EvalState

section Model

variable (sp : ScriptParams) (call : ScriptCall)

def encodingOk (vchSig vchPubKey : Vchtype) : Bool :=
  checkSignatureEncoding vchSig call.flags && checkPubKeyEncoding vchPubKey

def signatureOk (scriptCode : CScript) (vchSig vchPubKey : Vchtype) : Bool :=
  encodingOk call vchSig vchPubKey &&
    checkSig sp vchSig vchPubKey scriptCode call.txTo call.nIn call.nHashType

def evalLockTime (st : EvalState) : Eval :=
  if !hasFlag call.flags SCRIPT_VERIFY_CHECKLOCKTIMEVERIFY then
    if hasFlag call.flags SCRIPT_VERIFY_DISCOURAGE_UPGRADABLE_NOPS then .error st else .ok st
  else
    match st.stack with
    | [] => .error st
    | vch :: _ =>
      match castToBigNum vch 5 with
      | none => .error st
      | some nLockTime =>
        if nLockTime < 0 then .error st
        else if !checkLockTime call.txTo call.nIn nLockTime then .error st
        else .ok st

def evalIf (fNot : Bool) (st : EvalState) : Eval :=
  if st.fExec then
    match st.stack with
    | [] => .error st
    | vch :: stack =>
      .ok { st with stack := stack, vfExec := (castToBool vch != fNot) :: st.vfExec }
  else .ok { st with vfExec := false :: st.vfExec }

def evalPick (fRoll : Bool) (st : EvalState) : Eval :=
  match st.stack with
  | vch :: v :: stack =>
    match castToBigNum vch with
    | none => .error st
    | some n =>
      let st := { st with stack := v :: stack }
      if n < 0 ∨ (v :: stack).length ≤ n then .error st
      else
        let rest := if fRoll then (v :: stack).eraseIdx n.toNat else v :: stack
        .ok { st with stack := (v :: stack).getD n.toNat [] :: rest }
  | _ => .error st

def evalBinary (op : BinaryOp) (st : EvalState) : Eval :=
  match st.stack with
  | vch2 :: vch1 :: stack =>
    match castToBigNum vch1, castToBigNum vch2 with
    | some bn1, some bn2 =>
      let vch := bigNumVch (op.apply bn1 bn2)
      EvalState.verify { st with stack := vch :: stack } (op = .OP_NUMEQUALVERIFY) (castToBool vch)
    | _, _ => .error st
  | _ => .error st

def evalWithin (st : EvalState) : Eval :=
  match st.stack with
  | vch3 :: vch2 :: vch1 :: stack =>
    match castToBigNum vch1, castToBigNum vch2, castToBigNum vch3 with
    | some bn1, some bn2, some bn3 =>
      .ok { st with stack := vchBool (bn2 ≤ bn1 ∧ bn1 < bn3) :: stack }
    | _, _, _ => .error st
  | _ => .error st

def evalCheckSig (fVerify : Bool) (st : EvalState) : Eval :=
  match st.stack with
  | vchPubKey :: vchSig :: stack =>
    let scriptCode := st.codehash.findAndDelete (pushVch vchSig)
    if hasFlag call.flags SCRIPT_VERIFY_STRICTENC ∧ !encodingOk call vchSig vchPubKey then
      .error st
    else
      let fSuccess := signatureOk sp call scriptCode vchSig vchPubKey
      EvalState.verify { st with
        stack := vchBool fSuccess :: stack
        sSignedPubk := if fSuccess then insert vchPubKey st.sSignedPubk else st.sSignedPubk }
        fVerify fSuccess
  | _ => .error st

/-- The loop of `OP_CHECKMULTISIG` over the signatures and the keys that are left; an error is
an encoding that is not allowed. -/
def multisigLoop (scriptCode : CScript) : List Vchtype → List Vchtype → Finset Vchtype →
    Except (Finset Vchtype) (Bool × Finset Vchtype)
  | [], _, signed => .ok (true, signed)
  | _ :: _, [], signed => .ok (false, signed)
  | vchSig :: sigs, vchPubKey :: keys, signed =>
    if hasFlag call.flags SCRIPT_VERIFY_STRICTENC ∧ !encodingOk call vchSig vchPubKey then
      .error signed
    else
      let fOk := signatureOk sp call scriptCode vchSig vchPubKey
      let signed := if fOk then insert vchPubKey signed else signed
      let left := if fOk then sigs else vchSig :: sigs
      if keys.length < left.length then .ok (false, signed)
      else multisigLoop scriptCode left keys signed

/-- The arguments of `OP_CHECKMULTISIG`: signatures and keys from the top down, the value that
is taken in excess, and the stack below. -/
structure MultisigArgs where
  sigs : List Vchtype
  keys : List Vchtype
  dummy : Vchtype
  stack : List Vchtype

/-- The arguments on the stack, with the operations that the keys count for. -/
def multisigArgs (st : EvalState) : Except EvalState (ℕ × MultisigArgs) :=
  match st.stack with
  | [] => .error st
  | top :: stack =>
    match castToBigNum top with
    | none => .error st
    | some nKeysCount =>
      if nKeysCount < 0 ∨ 20 < nKeysCount then .error st
      else
        let nKeys := nKeysCount.toNat
        let st := { st with nOpCount := st.nOpCount + nKeys }
        if 201 < st.nOpCount then .error st
        else
          match stack.drop nKeys with
          | [] => .error st
          | count :: below =>
            match castToBigNum count with
            | none => .error st
            | some nSigsCount =>
              if nSigsCount < 0 ∨ nKeysCount < nSigsCount then .error st
              else
                match below.drop nSigsCount.toNat with
                | [] => .error st
                | dummy :: below' =>
                  .ok (nKeys, ⟨below.take nSigsCount.toNat, stack.take nKeys, dummy, below'⟩)

def evalCheckMultisig (fVerify : Bool) (st : EvalState) : Eval :=
  match multisigArgs st with
  | .error st => .error st
  | .ok (nKeys, args) =>
    let st := { st with nOpCount := st.nOpCount + nKeys }
    let scriptCode := args.sigs.foldl (fun s vchSig => s.findAndDelete (pushVch vchSig)) st.codehash
    match multisigLoop sp call scriptCode args.sigs args.keys st.sSignedPubk with
    | .error signed => .error { st with sSignedPubk := signed }
    | .ok (fSuccess, signed) =>
      let st := { st with stack := args.dummy :: args.stack, sSignedPubk := signed }
      if hasFlag call.flags SCRIPT_VERIFY_NULLDUMMY ∧ args.dummy ≠ [] then .error st
      else EvalState.verify { st with stack := vchBool fSuccess :: args.stack } fVerify fSuccess

/-- The switch over the operations; `rest` is the script behind the operation. -/
def evalOp (rest : CScript) (st : EvalState) : Opcode → Eval
  | .number n => .ok (st.push (bigNumVch n))
  | .OP_NOP => .ok st
  | .OP_CHECKLOCKTIMEVERIFY => evalLockTime call st
  | .OP_NOPn =>
    if hasFlag call.flags SCRIPT_VERIFY_DISCOURAGE_UPGRADABLE_NOPS then .error st else .ok st
  | .OP_IF fNot => evalIf fNot st
  | .OP_ELSE =>
    match st.vfExec with
    | [] => .error st
    | f :: vfExec => .ok { st with vfExec := (!f) :: vfExec }
  | .OP_ENDIF =>
    match st.vfExec with
    | [] => .error st
    | _ :: vfExec => .ok { st with vfExec := vfExec }
  | .OP_VERIFY =>
    match st.stack with
    | [] => .error st
    | vch :: _ => st.verify true (castToBool vch)
  | .OP_RETURN => .error st
  | .OP_TOALTSTACK =>
    match st.stack with
    | [] => .error st
    | vch :: stack => .ok { st with stack := stack, altstack := vch :: st.altstack }
  | .OP_FROMALTSTACK =>
    match st.altstack with
    | [] => .error st
    | vch :: altstack => .ok { st with stack := vch :: st.stack, altstack := altstack }
  | .stackOp op =>
    match op.apply st.stack with
    | none => .error st
    | some stack => .ok { st with stack := stack }
  | .OP_PICK fRoll => evalPick fRoll st
  | .OP_EQUAL fVerify =>
    match st.stack with
    | vch2 :: vch1 :: stack =>
      EvalState.verify { st with stack := vchBool (vch1 = vch2) :: stack } fVerify (vch1 = vch2)
    | _ => .error st
  | .unary op =>
    match st.stack with
    | [] => .error st
    | vch :: stack =>
      match castToBigNum vch with
      | none => .error st
      | some bn => .ok { st with stack := bigNumVch (op.apply bn) :: stack }
  | .binary op => evalBinary op st
  | .OP_WITHIN => evalWithin st
  | .hash op =>
    match st.stack with
    | [] => .error st
    | vch :: stack => .ok { st with stack := op.apply sp vch :: stack }
  | .OP_CODESEPARATOR => .ok { st with codehash := rest }
  | .OP_CHECKSIG fVerify => evalCheckSig sp call fVerify st
  | .OP_CHECKMULTISIG fVerify => evalCheckMultisig sp call fVerify st

/-- One operation of a script: its code, and what it pushes. -/
def nextOp (s : CScript) : Option ((ℕ × Vchtype) × CScript) :=
  s.getOp.map fun (opcode, vch, rest) => ((opcode, vch), rest)

def execOp (op : ℕ × Vchtype) (rest : CScript) (st : EvalState) : Eval :=
  if st.fExec ∧ op.1 ≤ CScript.OP_PUSHDATA4 then .ok (st.push op.2)
  else if st.fExec ∨ 0x63 ≤ op.1 ∧ op.1 ≤ 0x68 then
    match Opcode.ofCode op.1 with
    | none => .error st
    | some opcode => evalOp sp call rest st opcode
  else .ok st

def evalRound (op : ℕ × Vchtype) (rest : CScript) (st : EvalState) : Eval :=
  if MAX_SCRIPT_ELEMENT_SIZE < op.2.length then .error st
  else
    let st := if OP_16 < op.1 then { st with nOpCount := st.nOpCount + 1 } else st
    if OP_16 < op.1 ∧ 201 < st.nOpCount then .error st
    else if op.1 ∈ Opcode.disabled then .error st
    else
      execOp sp call op rest st >>= fun st =>
        if 1000 < st.stack.length + st.altstack.length then .error st else .ok st

def evalScript (stack : List Vchtype) (script : CScript) (sSignedPubk : Finset Vchtype) : Eval :=
  let st : EvalState := { stack := stack, codehash := script, sSignedPubk := sSignedPubk }
  if 10000 < script.length then .error st
  else
    Scan.run nextOp (evalRound sp call) .error script st >>= fun st =>
      if st.vfExec ≠ [] then .error st else .ok st

end Model

/-! ## Spending -/

def CScript.isPushOnly (s : CScript) : Bool :=
  (Scan.run nextOp (fun op _ (_ : Unit) => if OP_16 < op.1 then .error () else .ok ())
    .error s ()).isOk

section Model

variable (sp : ScriptParams)

def verifyScript (scriptSig scriptPubKey : CScript) (call : ScriptCall) : Option (Finset Vchtype) :=
  match evalScript sp call [] scriptSig ∅ with
  | .error _ => none
  | .ok st1 =>
    match evalScript sp call st1.stack scriptPubKey st1.sSignedPubk with
    | .error _ => none
    | .ok st2 =>
      if !castToBool (st2.stack.headD []) then none
      else if !CScript.isPayToScriptHash scriptPubKey then some st2.sSignedPubk
      else if !CScript.isPushOnly scriptSig then none
      else
        match st1.stack with
        | [] => none
        | pubKeySerialized :: stackCopy =>
          match evalScript sp call stackCopy pubKeySerialized st2.sSignedPubk with
          | .error _ => none
          | .ok st3 => if castToBool (st3.stack.headD []) then some st3.sSignedPubk else none

/-- The script of one address that is paid to a script, and the script of the key instead. -/
def BS4BExceptionScript : CScript :=
  [0xa9, 0x14, 0xEC, 0xFD, 0xBC, 0x26, 0xA4, 0x93, 0x04, 0x1B, 0x5D, 0xB9, 0xF4, 0x83, 0x2F, 0xA0,
   0xAF, 0x77, 0x11, 0xE2, 0x16, 0x47, 0x87]

def BS4BExceptionP2PKHScript : CScript :=
  [0x76, 0xa9, 0x14, 0xEC, 0xFD, 0xBC, 0x26, 0xA4, 0x93, 0x04, 0x1B, 0x5D, 0xB9, 0xF4, 0x83, 0x2F,
   0xA0, 0xAF, 0x77, 0x11, 0xE2, 0x16, 0x47, 0x88, 0xac]

def verifiedScript (scriptPubKey : CScript) : CScript :=
  if scriptPubKey = BS4BExceptionScript then BS4BExceptionP2PKHScript else scriptPubKey

def verifySignature (net : Params) (txFrom txTo : CTransaction) (nIn flags nHashType : ℕ) :
    Option (Finset Vchtype) :=
  match txTo.vin[nIn]? with
  | none => none
  | some txin =>
    match txFrom.vout[txin.prevout.n]? with
    | none => none
    | some txout =>
      if txin.prevout.hash ≠ net.getHash txFrom then none
      else verifyScript sp txin.scriptSig (verifiedScript txout.scriptPubKey)
        ⟨txTo, nIn, flags, nHashType⟩

end Model

/-! ## A sample -/

def sampleSignature (s : UInt8) : Vchtype := [0x30, 6, 2, 1, 1, 2, 1, s]

/-- Hashes that count bytes, and keys that sign with their last byte. -/
def sampleMachine : ScriptParams where
  pubkeyAddress := 48
  scriptAddress := 5
  Hash text := BitVec.ofNat 256 text.length
  Hash160 vch := BitVec.ofNat 160 vch.length
  prefixes_ne := by decide
  RIPEMD160 vch := BitVec.ofNat 160 vch.length
  SHA1 vch := BitVec.ofNat 160 vch.length
  SHA256 vch := BitVec.ofNat 256 vch.length
  Hash256 vch := BitVec.ofNat 256 vch.length
  hashSigned tx nHashType := BitVec.ofNat 256 (tx.vin.length + nHashType)
  verify vchPubKey _ vchSig := vchSig = sampleSignature (vchPubKey.getLastD 0)

def sampleKey (b : UInt8) : Vchtype := 2 :: List.replicate 31 0 ++ [b]

def sampleScriptCall : ScriptCall where
  txTo := { vin := [{ prevout := ⟨1, 0⟩ }], vout := [⟨5, []⟩] }
  nIn := 0
  flags := MANDATORY_SCRIPT_VERIFY_FLAGS
  nHashType := 0

end BitBay
