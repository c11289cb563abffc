import BitBay.Base.Types

/-!
# Scripts

A script is read here for two things only: the text of a notary, which follows
`OP_RETURN`, and the address an output pays to. Solving the standard templates
and encoding addresses is left to `Params`.
-/
namespace BitBay

/-- Parameters of the network, and the hashing and encoding that the peg code calls. -/
structure Params where
  pegFrozenTime : ℕ
  pegVFrozenTime : ℕ
  getHash : CTransaction → UInt256
  /-- The encoded destinations that `ExtractDestinations` finds in a script. -/
  destinations : CScript → List CString
  /-- `CBitcoinAddress(s).IsValid()`. -/
  isValidAddress : CString → Bool

namespace CScript

def OP_PUSHDATA1 : ℕ := 0x4c
def OP_PUSHDATA2 : ℕ := 0x4d
def OP_PUSHDATA4 : ℕ := 0x4e
def OP_RETURN : ℕ := 0x6a

def leNat : List UInt8 → ℕ
  | [] => 0
  | b :: rest => b.toNat + 256 * leNat rest

def toCString (bytes : List UInt8) : CString := bytes.map fun b => Char.ofNat b.toNat

/-- One operation: its opcode, the bytes it pushes and the script behind it. -/
def getOp : CScript → Option (ℕ × List UInt8 × CScript)
  | [] => none
  | b :: rest =>
    let opcode := b.toNat
    if OP_PUSHDATA4 < opcode then some (opcode, [], rest)
    else
      let width :=
        if opcode = OP_PUSHDATA1 then 1 else if opcode = OP_PUSHDATA2 then 2
        else if opcode = OP_PUSHDATA4 then 4 else 0
      let nSize := if opcode < OP_PUSHDATA1 then opcode else leNat (rest.take width)
      if rest.length < width ∨ (rest.drop width).length < nSize then none
      else some (opcode, (rest.drop width).take nSize, (rest.drop width).drop nSize)

def textAfterLength (s : CScript) : CString :=
  toCString ((s.drop 2).take (min ((s.getD 1 0).toNat) (s.length - 2)))

/-- Text of a notary output; `none` when the script is no notary. -/
def toNotary (s : CScript) : Option CString :=
  match getOp s with
  | none => none
  | some (opcode, vch, rest) =>
    if opcode ≠ OP_RETURN then none
    else if s.length ≤ 1 then some []
    else
      -- A short script is read by its first operation again, which pushes nothing.
      let pushed := if s.length < OP_PUSHDATA1 + 1 then vch
        else ((getOp rest).map fun op => op.2.1).getD []
      if pushed = [] then some (textAfterLength s) else some (toCString pushed)

/-- All destinations of the script, one a line; the script itself when there is none. -/
def toAddress (net : Params) (s : CScript) : CString :=
  let addresses := net.destinations s
  if addresses = [] then toCString s else List.intercalate ['\n'] addresses

/-- `ToAddress` reports the notary only of a script without destinations. -/
def addressNotary (net : Params) (s : CScript) : Option CString :=
  if net.destinations s = [] then toNotary s else none

def pushNotary (text : String) : CScript :=
  0x6a :: UInt8.ofNat text.toList.length :: text.toList.map fun c => UInt8.ofNat c.toNat

example : toNotary (pushNotary "**F**1") = some "**F**1".toList := by decide

end CScript

end BitBay
