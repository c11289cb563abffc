import BitBay.Wallet.Destination

/-!
# Signature checks

A signature has an encoding of its own: two numbers in DER, the second at most half the order
of the curve, and one byte for the kind of hash. It signs a hash of the transaction in which
the scripts of the inputs are blank and the script that checks stands in place of its input.
-/
namespace BitBay

abbrev Vchtype := List UInt8

structure ScriptParams extends AddressParams where
  RIPEMD160 : Vchtype → UInt160
  SHA1 : Vchtype → UInt160
  SHA256 : Vchtype → UInt256
  /-- `Hash(vch.begin(), vch.end())` -/
  Hash256 : Vchtype → UInt256
  /-- The hash of a serialized transaction with the hash type behind it. -/
  hashSigned : CTransaction → ℕ → UInt256
  /-- `CPubKey(vch).Verify(hash, vchSig)` of a valid key. -/
  verify : Vchtype → UInt256 → Vchtype → Bool

def SIGHASH_ALL : ℕ := 1
def SIGHASH_NONE : ℕ := 2
def SIGHASH_SINGLE : ℕ := 3
def SIGHASH_ANYONECANPAY : ℕ := 0x80

def SCRIPT_VERIFY_NONE : ℕ := 0
def SCRIPT_VERIFY_NOCACHE : ℕ := 1
def SCRIPT_VERIFY_NULLDUMMY : ℕ := 2
def SCRIPT_VERIFY_DISCOURAGE_UPGRADABLE_NOPS : ℕ := 4
def SCRIPT_VERIFY_STRICTENC : ℕ := 8
def SCRIPT_VERIFY_ALLOW_EMPTY_SIG : ℕ := 16
def SCRIPT_VERIFY_FIX_HASHTYPE : ℕ := 32
def SCRIPT_VERIFY_CHECKLOCKTIMEVERIFY : ℕ := 64

def MANDATORY_SCRIPT_VERIFY_FLAGS : ℕ := 0b1001010

def STANDARD_SCRIPT_VERIFY_FLAGS : ℕ := 0b1001110

def hasFlag (flags flag : ℕ) : Bool := flags &&& flag ≠ 0

/-! ## Encodings -/

def isCompressedOrUncompressedPubKey (vchPubKey : Vchtype) : Bool :=
  if vchPubKey.length < 33 then false
  else if vchPubKey.headD 0 = 4 then vchPubKey.length = 65
  else if vchPubKey.headD 0 = 2 ∨ vchPubKey.headD 0 = 3 then vchPubKey.length = 33
  else false

/-- The checks on one of the two numbers, of `nLen` bytes from `at` on. -/
def isDERNumber (vchSig : Vchtype) (start nLen : ℕ) : Bool :=
  let byte (i : ℕ) := (vchSig.getD (start + i) 0).toNat
  vchSig.getD (start - 2) 0 = 2 ∧ nLen ≠ 0 ∧ byte 0 &&& 0x80 = 0 ∧
    ¬ (1 < nLen ∧ byte 0 = 0 ∧ byte 1 &&& 0x80 = 0)

def isDERSignature (vchSig : Vchtype) (haveHashType : Bool := true) : Bool :=
  if vchSig.length < 9 then false
  else if 73 < vchSig.length then false
  else if vchSig.getD 0 0 ≠ 0x30 then false
  else if (vchSig.getD 1 0).toNat ≠ vchSig.length - (if haveHashType then 3 else 2) then false
  else
    let nLenR := (vchSig.getD 3 0).toNat
    if vchSig.length ≤ 5 + nLenR then false
    else
      let nLenS := (vchSig.getD (5 + nLenR) 0).toNat
      if nLenR + nLenS + (if haveHashType then 7 else 6) ≠ vchSig.length then false
      else isDERNumber vchSig 4 nLenR && isDERNumber vchSig (6 + nLenR) nLenS

/-- `CompareBigEndian`: the leading bytes of the longer one, then byte by byte. -/
def compareBigEndian (c1 c2 : Vchtype) : Ordering :=
  if (c1.take (c1.length - c2.length)).any (· ≠ 0) then .gt
  else if (c2.take (c2.length - c1.length)).any (· ≠ 0) then .lt
  else go (c1.drop (c1.length - c2.length)) (c2.drop (c2.length - c1.length))
where
  go : Vchtype → Vchtype → Ordering
    | b1 :: c1, b2 :: c2 => if b2 < b1 then .gt else if b1 < b2 then .lt else go c1 c2
    | _, _ => .eq

def vchMaxModOrder : Vchtype :=
  [0xFF, 0xFF, 0xFF, 0xFF, 0xFF, 0xFF, 0xFF, 0xFF, 0xFF, 0xFF, 0xFF, 0xFF, 0xFF, 0xFF, 0xFF, 0xFE,
   0xBA, 0xAE, 0xDC, 0xE6, 0xAF, 0x48, 0xA0, 0x3B, 0xBF, 0xD2, 0x5E, 0x8C, 0xD0, 0x36, 0x41, 0x40]

def vchMaxModHalfOrder : Vchtype :=
  [0x7F, 0xFF, 0xFF, 0xFF, 0xFF, 0xFF, 0xFF, 0xFF, 0xFF, 0xFF, 0xFF, 0xFF, 0xFF, 0xFF, 0xFF, 0xFF,
   0x5D, 0x57, 0x6E, 0x73, 0x57, 0xA4, 0x50, 0x1D, 0xDF, 0xE9, 0x2F, 0x46, 0x68, 0x1B, 0x20, 0xA0]

def checkSignatureElement (vch : Vchtype) (half : Bool) : Bool :=
  compareBigEndian vch [] = .gt ∧
    compareBigEndian vch (if half then vchMaxModHalfOrder else vchMaxModOrder) ≠ .gt

def isLowDERSignature (vchSig : Vchtype) : Bool :=
  if !isDERSignature vchSig then false
  else
    let nLenR := (vchSig.getD 3 0).toNat
    let nLenS := (vchSig.getD (5 + nLenR) 0).toNat
    checkSignatureElement ((vchSig.drop (6 + nLenR)).take nLenS) true

def isDefinedHashtypeSignature (vchSig : Vchtype) : Bool :=
  match vchSig.getLast? with
  | none => false
  | some last =>
    let nHashType := last.toNat % SIGHASH_ANYONECANPAY
    SIGHASH_ALL ≤ nHashType ∧ nHashType ≤ SIGHASH_SINGLE

def checkSignatureEncoding (vchSig : Vchtype) (flags : ℕ) : Bool :=
  if hasFlag flags SCRIPT_VERIFY_ALLOW_EMPTY_SIG ∧ vchSig = [] then true
  else if !isLowDERSignature vchSig then false
  else hasFlag flags SCRIPT_VERIFY_FIX_HASHTYPE || isDefinedHashtypeSignature vchSig

def checkPubKeyEncoding (vchPubKey : Vchtype) : Bool := isCompressedOrUncompressedPubKey vchPubKey

/-! ## Hashes -/

namespace CScript

def dropPrefixes (b : CScript) : ℕ → CScript → CScript
  | 0, s => s
  | fuel + 1, s => if b <+: s then dropPrefixes b fuel (s.drop b.length) else s

/-- `FindAndDelete`: `b` goes wherever an operation starts. -/
def findAndDelete (s b : CScript) : CScript := if b = [] then s else go s.length s
where
  go : ℕ → CScript → CScript
    | 0, s => s
    | fuel + 1, s =>
      let s := dropPrefixes b s.length s
      match s.getOp with
      | none => s
      | some (_, _, rest) => s.take (s.length - rest.length) ++ go fuel rest

def OP_CODESEPARATOR : ℕ := 0xab

end CScript

def CTxOut.null : CTxOut := ⟨-1, []⟩

/-- The transaction that is hashed: the script in place of the input, the others blank. -/
def signatureTx (scriptCode : CScript) (txTo : CTransaction) (nIn nHashType : ℕ) : CTransaction :=
  let vin := txTo.vin.zipIdx.map fun (txin, i) =>
    { txin with
      scriptSig := if i = nIn then scriptCode.findAndDelete [0xab] else []
      nSequence :=
        if (nHashType % 32 = SIGHASH_NONE ∨ nHashType % 32 = SIGHASH_SINGLE) ∧ i ≠ nIn then 0
        else txin.nSequence }
  let vout :=
    if nHashType % 32 = SIGHASH_NONE then []
    else if nHashType % 32 = SIGHASH_SINGLE then
      List.replicate nIn CTxOut.null ++ (txTo.vout.drop nIn).take 1
    else txTo.vout
  { txTo with
    vin := if nHashType &&& SIGHASH_ANYONECANPAY ≠ 0 then (vin.drop nIn).take 1 else vin
    vout := vout }

section Model

variable (sp : ScriptParams)

def signatureHash (scriptCode : CScript) (txTo : CTransaction) (nIn nHashType : ℕ) : UInt256 :=
  if txTo.vin.length ≤ nIn then 1
  else if nHashType % 32 = SIGHASH_SINGLE ∧ txTo.vout.length ≤ nIn then 1
  else sp.hashSigned (signatureTx scriptCode txTo nIn nHashType) nHashType

def isValidPubKey (vch : Vchtype) : Bool :=
  let header := vch.headD 0
  let len := if header = 2 ∨ header = 3 then 33
    else if header = 4 ∨ header = 6 ∨ header = 7 then 65 else 0
  vch ≠ [] ∧ vch.length = len

/-- `CheckSig`, without the cache of valid signatures. -/
def checkSig (vchSig vchPubKey : Vchtype) (scriptCode : CScript) (txTo : CTransaction)
    (nIn nHashType : ℕ) : Bool :=
  if !isValidPubKey vchPubKey then false
  else
    match vchSig.getLast? with
    | none => false
    | some last =>
      if nHashType ≠ 0 ∧ nHashType ≠ last.toNat then false
      else sp.verify vchPubKey (signatureHash sp scriptCode txTo nIn last.toNat) vchSig.dropLast

end Model

/-! ## Lock times -/

def LOCKTIME_THRESHOLD : ℕ := 500000000

def CTxIn.isFinal (txin : CTxIn) : Bool := txin.nSequence = 2 ^ 32 - 1

def checkLockTime (txTo : CTransaction) (nIn : ℕ) (nLockTime : ℤ) : Bool :=
  if ¬ (txTo.nLockTime < LOCKTIME_THRESHOLD ∧ nLockTime < LOCKTIME_THRESHOLD ∨
      LOCKTIME_THRESHOLD ≤ txTo.nLockTime ∧ LOCKTIME_THRESHOLD ≤ nLockTime) then false
  else if txTo.nLockTime < nLockTime then false
  else !(txTo.vin[nIn]?.any CTxIn.isFinal)

end BitBay
