import BitBay.Base.Script
import Mathlib.Data.Nat.Bitwise

/-!
# The signature script of a mint

The second input of a mint carries what the bridge contract on the other side
recorded: where the coins go, the compressed fractions, a nonce and the sender,
and the proof that the leaf made of these is in a merkle tree. The script is a
sequence of pushes; after it is decoded it is built again and has to be the same.

Hashing and the encoding of addresses are left to `BridgeParams`.
-/
namespace BitBay

/-- Parameters of the network, and the hashing and encoding that mints call. -/
structure BridgeParams where
  /-- `Base58Prefix(PUBKEY_ADDRESS)` and `Base58Prefix(SCRIPT_ADDRESS)`. -/
  pubkeyAddress : List UInt8
  scriptAddress : List UInt8
  encodeBase58Check : List UInt8 → CString
  eth_keccak256 : List UInt8 → List UInt8
  /-- `CScript::ToString`, which only texts of failures contain. -/
  scriptToString : CScript → String

/-! ## Text of bytes -/

def hexChar (n : ℕ) : Char := if n < 10 then Char.ofNat (48 + n) else Char.ofNat (87 + n)

def hexStr : List UInt8 → CString
  | [] => []
  | b :: rest => hexChar (b.toNat / 16) :: hexChar (b.toNat % 16) :: hexStr rest

def hexDigit (c : Char) : Option ℕ :=
  match CString.digitVal c with
  | none => none
  | some d => if d < 16 then some d else none

/-- `ParseHex`: pairs of digits up to the first other character. -/
def parseHex (s : CString) : List UInt8 := go s.length s
where
  go : ℕ → CString → List UInt8
    | 0, _ => []
    | k + 1, s =>
      match s.dropWhile CString.isSpace with
      | c1 :: c2 :: rest =>
        match hexDigit c1, hexDigit c2 with
        | some d1, some d2 => UInt8.ofNat (d1 * 16 + d2) :: go k rest
        | _, _ => []
      | _ => []

/-- `eth_hex_to_bytes` on a text that has no `0x`. -/
def hexToBytes (s : CString) : Option (List UInt8) :=
  if s = [] ∨ s.any (fun c => (hexDigit c).isNone) then none
  else some (parseHex (if s.length % 2 = 0 then s else '0' :: s))

/-- `uint256(text)`: the number of the hex digits at the front. -/
def setHex (s : CString) : UInt256 :=
  let digits := match s.cStr.dropWhile CString.isSpace with
    | '0' :: x :: rest => if x = 'x' ∨ x = 'X' then rest else '0' :: x :: rest
    | other => other
  BitVec.ofNat 256 (CString.ofDigits 16 (CString.takeDigits 16 digits))

/-! ## Numbers in scripts -/

def OP_1NEGATE : ℕ := 0x4f
def OP_1 : ℕ := 0x51
def OP_16 : ℕ := 0x60

def toInt32 (v : ℤ) : ℤ := v.bmod (2 ^ 32)
def toInt64 (v : ℤ) : ℤ := v.bmod (2 ^ 64)

/-- The number of pushed bytes, the last one the most significant. Shifts count modulo
the width of what is shifted. So the mask of the sign bit, an `int`, keeps 31 bits. -/
def vchNumber (vch : List UInt8) : ℤ :=
  let v := vch.zipIdx.foldl (fun v b => v ||| b.1.toNat <<< (8 * (b.2 % 8))) 0
  if vch.length = 8 ∧ 0x80 ≤ (vch.getLastD 0).toNat then - (v % 2 ^ 31 : ℕ)
  else toInt64 v

def getNumberFromScript (opcode : ℕ) (vch : List UInt8) : ℤ :=
  if OP_1 ≤ opcode ∧ opcode ≤ OP_16 then opcode - OP_1 + 1 else vchNumber vch

def valueString (vch : List UInt8) : CString :=
  if vch.length ≤ 8 then (toString (vchNumber vch)).toList else hexStr vch

/-- The bytes of a number below `256 ^ k`, without zeros at the end. -/
def leBytes : ℕ → ℕ → List UInt8
  | 0, _ => []
  | k + 1, n => if n = 0 then [] else UInt8.ofNat (n % 256) :: leBytes k (n / 256)

/-- `CBigNum(n).getvch()`: the magnitude, with the sign in the highest bit. -/
def bigNumVch (n : ℤ) : List UInt8 :=
  let bytes := leBytes 9 n.natAbs
  let sign : ℕ := if n < 0 then 0x80 else 0
  match bytes.getLast? with
  | none => []
  | some last =>
    if 0x80 ≤ last.toNat then bytes ++ [UInt8.ofNat sign]
    else bytes.dropLast ++ [UInt8.ofNat (last.toNat + sign)]

def pushVch (b : List UInt8) : CScript :=
  let width (k : ℕ) : List UInt8 := (List.range k).map fun i => UInt8.ofNat (b.length / 256 ^ i)
  if b.length < CScript.OP_PUSHDATA1 then UInt8.ofNat b.length :: b
  else if b.length ≤ 0xff then UInt8.ofNat CScript.OP_PUSHDATA1 :: width 1 ++ b
  else if b.length ≤ 0xffff then UInt8.ofNat CScript.OP_PUSHDATA2 :: width 2 ++ b
  else UInt8.ofNat CScript.OP_PUSHDATA4 :: width 4 ++ b

def pushInt64 (n : ℤ) : CScript :=
  if n = -1 ∨ 1 ≤ n ∧ n ≤ 16 then [UInt8.ofNat (n + (OP_1 - 1)).toNat] else pushVch (bigNumVch n)

/-! ## Addresses -/

structure CBitcoinAddress where
  vchVersion : List UInt8 := []
  vchData : List UInt8 := []

namespace CBitcoinAddress

def getData (a : CBitcoinAddress) : List UInt8 := a.vchVersion ++ a.vchData

def destinationScript (bp : BridgeParams) (a : CBitcoinAddress) : CScript :=
  if a.vchData.length ≠ 20 then []
  else if a.vchVersion = bp.pubkeyAddress then
    [0x76, 0xa9, 0x14] ++ a.vchData ++ [0x88, 0xac]
  else if a.vchVersion = bp.scriptAddress then [0xa9, 0x14] ++ a.vchData ++ [0x87]
  else []

end CBitcoinAddress

/-! ## Decoding -/

/-- What `DecodeAndValidateMintSigScript` hands back, with its two counters. -/
structure MintSigScript where
  addr_dest : CBitcoinAddress := {}
  sections_size : ℤ := 0
  sections : List ℤ := []
  section_peg : ℤ := 0
  nonce : ℤ := 0
  from_addr : CString := []
  leaf : CString := []
  proofs_size : ℤ := 0
  proofs : List CString := []

/-- All operations of the script; `none` when one is no push. -/
def readPushes (scriptSig : CScript) : Option (List (ℕ × List UInt8)) := go scriptSig.length scriptSig
where
  go : ℕ → CScript → Option (List (ℕ × List UInt8))
    | 0, _ => some []
    | k + 1, s =>
      if s = [] then some []
      else
        match CScript.getOp s with
        | none => none
        | some (opcode, vch, rest) =>
          if OP_16 < opcode then none else (go k rest).map fun ops => (opcode, vch) :: ops

variable (bp : BridgeParams)

def readAddress (vch : List UInt8) (a : CBitcoinAddress) : CBitcoinAddress :=
  let withPrefix (pref : List UInt8) (a : CBitcoinAddress) : CBitcoinAddress :=
    if pref.isPrefixOf vch then ⟨pref, vch.drop pref.length⟩ else a
  withPrefix bp.scriptAddress (withPrefix bp.pubkeyAddress a)

def readMintField (m : MintSigScript) (op : (ℕ × List UInt8) × ℕ) : MintSigScript :=
  let v := getNumberFromScript op.1.1 op.1.2
  let idx : ℤ := op.2
  if idx = 0 then { m with addr_dest := readAddress bp op.1.2 m.addr_dest }
  else if idx = 1 then { m with sections_size := toInt32 v }
  else if 2 ≤ idx ∧ idx < 2 + m.sections_size then { m with sections := m.sections ++ [v] }
  else if idx = 2 + m.sections_size then { m with section_peg := toInt32 v }
  else if idx = 3 + m.sections_size then { m with nonce := toInt32 v }
  else if idx = 4 + m.sections_size then { m with from_addr := valueString op.1.2 }
  else if idx = 5 + m.sections_size then { m with leaf := valueString op.1.2 }
  else if idx = 6 + m.sections_size then { m with proofs_size := toInt32 v }
  else if 7 + m.sections_size ≤ idx ∧ idx < 7 + m.sections_size + m.proofs_size then
    { m with proofs := m.proofs ++ [valueString op.1.2] }
  else m

def MintSigScript.encode (m : MintSigScript) : CScript :=
  pushVch m.addr_dest.getData ++ pushInt64 m.sections.length ++ (m.sections.map pushInt64).flatten ++
    pushInt64 m.section_peg ++ pushInt64 m.nonce ++ pushVch (parseHex m.from_addr) ++
    pushVch (parseHex m.leaf) ++ pushInt64 m.proofs.length ++
    (m.proofs.map fun proof => pushVch (parseHex proof)).flatten

def decodeAndValidateMintSigScript (scriptSig : CScript) : Option MintSigScript :=
  match readPushes scriptSig with
  | none => none
  | some ops =>
    let m := ops.zipIdx.foldl (readMintField bp) {}
    if m.encode = scriptSig then some m else none

/-! ## Leaf and root -/

def abiWord (n : ℕ) : List UInt8 :=
  (List.range 32).map fun i => UInt8.ofNat (n / 256 ^ (31 - i))

/-- `eth_abi_address` of `0x` and a text; without 40 hex digits it writes nothing. -/
def abiAddress (addr : CString) : List UInt8 :=
  if addr.length < 40 ∨ (addr.take 40).any (fun c => (hexDigit c).isNone) then []
  else List.replicate 12 0 ++ parseHex (addr.take 40)

/-- The encoded call: the offset of the address bytes, the numbers and the sender, and
behind them the address bytes, padded to whole words. -/
def abiMint (dest_addr : List UInt8) (sections : List ℤ) (section_peg nonce : ℤ)
    (from_addr : CString) : List UInt8 :=
  let word (v : ℤ) := abiWord (v % 2 ^ 64).toNat
  let rest := (sections.map word).flatten ++ word section_peg ++ word nonce ++ abiAddress from_addr
  abiWord (32 + rest.length) ++ rest ++ abiWord dest_addr.length ++ dest_addr ++
    List.replicate ((32 - dest_addr.length % 32) % 32) 0

def computeMintMerkleLeaf (dest_addr : CString) (sections : List ℤ) (section_peg nonce : ℤ)
    (from_addr : CString) : CString :=
  let dest_bytes := dest_addr.map fun c => UInt8.ofNat c.toNat
  hexStr (bp.eth_keccak256 (abiMint dest_bytes sections section_peg nonce from_addr))

/-- The node above a branch and one proof of it: the smaller text comes first. -/
def mintBranch (branch proof : CString) : Option CString :=
  if proof = branch then none
  else
    let below := List.lex proof branch (fun a b => decide (a < b))
    match hexToBytes (if below then proof else branch),
      hexToBytes (if below then branch else proof) with
    | some b1, some b2 =>
      if b1.length = 32 ∧ b2.length = 32 then some (hexStr (bp.eth_keccak256 (b1 ++ b2))) else none
    | _, _ => none

def computeMintMerkleRoot (leaf : CString) (proofs : List CString) : Option CString :=
  proofs.foldlM (mintBranch bp) leaf

end BitBay
