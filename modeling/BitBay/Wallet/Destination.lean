import BitBay.Base.Base58
import BitBay.Bridge.HexText

/-!
# Destinations

A destination is a key, a script or an address behind a bridge. Keys and scripts have addresses
in base 58 and scripts that pay to them. The solver recognises such a script by the templates
of standard scripts, and so finds the destination that it was made for.
-/
namespace BitBay

abbrev UInt160 := BitVec 160

namespace UInt160

def toBytes (id : UInt160) : List UInt8 := Wire.leBytes 20 id.toNat

def ofBytes (vch : List UInt8) : UInt160 := BitVec.ofNat 160 (Wire.leNat vch)

def hex (id : UInt160) : CString :=
  (List.range 40).map fun i => hexChar (id.toNat / 16 ^ (39 - i) % 16)

@[simp] theorem length_toBytes (id : UInt160) : id.toBytes.length = 20 := Wire.length_leBytes 20 _

@[simp] theorem ofBytes_toBytes (id : UInt160) : ofBytes id.toBytes = id := by
  have hlt : id.toNat < 256 ^ 20 := id.isLt
  rw [ofBytes, toBytes, Wire.leNat_leBytes 20 _ hlt, BitVec.ofNat_toNat, BitVec.setWidth_eq]

theorem toBytes_ofBytes {vch : List UInt8} (h : vch.length = 20) : (ofBytes vch).toBytes = vch := by
  have hlt : Wire.leNat vch < 2 ^ 160 := by
    have hbytes := Wire.leNat_lt vch
    rw [h] at hbytes
    exact hbytes
  have hbytes := Wire.leBytes_leNat vch
  rw [h] at hbytes
  rw [toBytes, ofBytes, BitVec.toNat_ofNat, Nat.mod_eq_of_lt hlt, hbytes]

end UInt160

inductive CTxDestination
  | keyID (id : UInt160)
  | scriptID (id : UInt160)
  | ext (bridge : UInt256) (address : UInt160)
  deriving DecidableEq

structure AddressParams where
  pubkeyAddress : UInt8
  scriptAddress : UInt8
  Hash : CString → UInt256
  Hash160 : List UInt8 → UInt160
  prefixes_ne : pubkeyAddress ≠ scriptAddress

/-! ## Addresses -/

namespace AddressParams

variable (ap : AddressParams)

def toString : CTxDestination → CString
  | .keyID id => encodeBase58Check ap.Hash (ap.pubkeyAddress :: id.toBytes)
  | .scriptID id => encodeBase58Check ap.Hash (ap.scriptAddress :: id.toBytes)
  | .ext bridge address =>
    "EXT:".toList ++ getHex bridge ++ ":0x".toList ++ address.hex

def getDestination (sAddress : CString) : Option CTxDestination :=
  match decodeBase58Check ap.Hash sAddress with
  | some (version :: vchData) =>
    if vchData.length ≠ 20 then none
    else if version = ap.pubkeyAddress then some (.keyID (.ofBytes vchData))
    else if version = ap.scriptAddress then some (.scriptID (.ofBytes vchData))
    else none
  | _ => none

def isValid (sAddress : CString) : Bool := (ap.getDestination sAddress).isSome

variable {ap}

/-- The destination of a valid address is not behind a bridge, and its own address is the text
without white space. -/
theorem toString_getDestination {sAddress : CString} {dest : CTxDestination}
    (h : ap.getDestination sAddress = some dest) :
    ap.toString dest = base58Text sAddress ∧ ∀ bridge address, dest ≠ .ext bridge address := by
  unfold getDestination at h
  split at h
  · rename_i version vchData hdecode
    have htext := encodeBase58Check_decode hdecode
    split_ifs at h with hlength hpubkey hscript
    · obtain rfl := Option.some.inj h
      refine ⟨?_, fun _ _ => by simp⟩
      rw [toString, UInt160.toBytes_ofBytes (not_not.mp hlength), ← hpubkey, htext]
    · obtain rfl := Option.some.inj h
      refine ⟨?_, fun _ _ => by simp⟩
      rw [toString, UInt160.toBytes_ofBytes (not_not.mp hlength), ← hscript, htext]
  · cases h

theorem getDestination_keyID (id : UInt160) :
    ap.getDestination (ap.toString (.keyID id)) = some (.keyID id) := by
  simp [getDestination, toString, decodeBase58Check_encode]

theorem getDestination_scriptID (id : UInt160) :
    ap.getDestination (ap.toString (.scriptID id)) = some (.scriptID id) := by
  simp [getDestination, toString, decodeBase58Check_encode, ap.prefixes_ne.symm]

theorem getDestination_space {c : Char} (hspace : CString.isSpace c = true) (sAddress : CString) :
    ap.getDestination (c :: sAddress) = ap.getDestination sAddress := by
  rw [getDestination, decodeBase58Check_space hspace, getDestination]

end AddressParams

/-! ## Scripts -/

namespace CScript

def OP_DUP : ℕ := 0x76
def OP_EQUAL : ℕ := 0x87
def OP_EQUALVERIFY : ℕ := 0x88
def OP_HASH160 : ℕ := 0xa9
def OP_CHECKSIG : ℕ := 0xac
def OP_CHECKMULTISIG : ℕ := 0xae

def setDestination : CTxDestination → CScript
  | .keyID id => [0x76, 0xa9, 0x14] ++ id.toBytes ++ [0x88, 0xac]
  | .scriptID id => [0xa9, 0x14] ++ id.toBytes ++ [0x87]
  | .ext _ _ => []

def isPayToScriptHash (s : CScript) : Bool :=
  s.length = 23 ∧ s.getD 0 0 = 0xa9 ∧ s.getD 1 0 = 0x14 ∧ s.getD 22 0 = 0x87

end CScript

/-- `txnouttype`, other than the type of scripts that have no template. -/
inductive TxnOutType
  | TX_PUBKEY
  | TX_PUBKEYHASH
  | TX_SCRIPTHASH
  | TX_MULTISIG
  | TX_NULL_DATA
  deriving DecidableEq

inductive TemplateOp
  | opcode (n : ℕ)
  | OP_PUBKEY
  | OP_PUBKEYHASH
  | OP_SMALLINTEGER
  | OP_PUBKEYS
  | OP_SMALLDATA
  deriving DecidableEq

def mTemplates : List (TxnOutType × List TemplateOp) :=
  [(.TX_PUBKEY, [.OP_PUBKEY, .opcode CScript.OP_CHECKSIG]),
   (.TX_PUBKEYHASH, [.opcode CScript.OP_DUP, .opcode CScript.OP_HASH160, .OP_PUBKEYHASH,
     .opcode CScript.OP_EQUALVERIFY, .opcode CScript.OP_CHECKSIG]),
   (.TX_MULTISIG, [.OP_SMALLINTEGER, .OP_PUBKEYS, .OP_SMALLINTEGER,
     .opcode CScript.OP_CHECKMULTISIG]),
   (.TX_NULL_DATA, [.opcode CScript.OP_RETURN, .OP_SMALLDATA]),
   (.TX_NULL_DATA, [.opcode CScript.OP_RETURN])]

def MAX_OP_RETURN_RELAY : ℕ := 250

/-- One operation of the script against one of the template: what it adds to the solutions. -/
def matchOp (opcode1 : ℕ) (vch1 : List UInt8) : TemplateOp → Option (List (List UInt8))
  | .OP_PUBKEY => if vch1.length < 33 ∨ 120 < vch1.length then none else some [vch1]
  | .OP_PUBKEYHASH => if vch1.length ≠ 20 then none else some [vch1]
  | .OP_SMALLINTEGER =>
    if opcode1 = 0 then some [[0]]
    else if OP_1 ≤ opcode1 ∧ opcode1 ≤ OP_16 then some [[UInt8.ofNat (opcode1 - (OP_1 - 1))]]
    else none
  | .OP_SMALLDATA => if MAX_OP_RETURN_RELAY < vch1.length then none else some []
  | .OP_PUBKEYS => none
  | .opcode opcode2 => if opcode1 ≠ opcode2 ∨ vch1 ≠ [] then none else some []

/-- The keys from an operation on, and the first operation that is none with the script behind
it. An operation that can not be read is `OP_INVALIDOPCODE`. -/
def takeKeys : ℕ → ℕ → List UInt8 → CScript → List (List UInt8) × ℕ × List UInt8 × CScript
  | 0, opcode1, vch1, s => ([], opcode1, vch1, s)
  | fuel + 1, opcode1, vch1, s =>
    if 33 ≤ vch1.length ∧ vch1.length ≤ 120 then
      match s.getOp with
      | none => ([vch1], 0xff, [], s)
      | some (opcode1, vch, rest) =>
        let r := takeKeys fuel opcode1 vch rest
        (vch1 :: r.1, r.2)
    else ([], opcode1, vch1, s)

/-- The script against a template: the solutions of a match. -/
def matchTemplate : List TemplateOp → CScript → Option (List (List UInt8))
  | [], s => if s = [] then some [] else none
  | .OP_PUBKEYS :: op :: ops, s =>
    match s.getOp with
    | none => none
    | some (opcode1, vch1, rest) =>
      let r := takeKeys s.length opcode1 vch1 rest
      (matchOp r.2.1 r.2.2.1 op).bind fun sols =>
        (matchTemplate ops r.2.2.2).map (r.1 ++ sols ++ ·)
  | op :: ops, s =>
    match s.getOp with
    | none => none
    | some (opcode1, vch1, rest) =>
      -- A template that ends with `OP_RETURN` takes all that follows.
      if opcode1 = CScript.OP_RETURN ∧ ops = [] ∧ op = .opcode CScript.OP_RETURN then some []
      else (matchOp opcode1 vch1 op).bind fun sols => (matchTemplate ops rest).map (sols ++ ·)

def multisigMatches (vSolutions : List (List UInt8)) : Bool :=
  let m := ((vSolutions.headD []).headD 0).toNat
  let n := ((vSolutions.getLastD []).headD 0).toNat
  1 ≤ m ∧ 1 ≤ n ∧ m ≤ n ∧ vSolutions.length - 2 = n

def scanTemplates (s : CScript) :
    List (TxnOutType × List TemplateOp) → Option (TxnOutType × List (List UInt8))
  | [] => none
  | (type, ops) :: rest =>
    match matchTemplate ops s with
    | none => scanTemplates s rest
    | some sols => if type = .TX_MULTISIG ∧ !multisigMatches sols then none else some (type, sols)

def solver (s : CScript) : Option (TxnOutType × List (List UInt8)) :=
  if s.isPayToScriptHash then some (.TX_SCRIPTHASH, [(s.drop 2).take 20])
  else scanTemplates s mTemplates

/-- `ExtractToBridge`: the bridge and the address of a `**Z**` notary. -/
def extractToBridge (script1 : CScript) : Option (CString × CString) :=
  match script1.getOp with
  | none => none
  | some (opcode1, _, rest) =>
    if opcode1 = CScript.OP_RETURN ∧ 1 < script1.length then
      let str_shift := if rest.getOp.any fun op => op.1 = CScript.OP_PUSHDATA1 then 3 else 2
      let len_bytes := min (script1.getD (str_shift - 1) 0).toNat (script1.length - str_shift)
      let notary := CScript.toCString ((script1.drop str_shift).take len_bytes)
      let brdata := notary.drop 5
      let br_hash := brdata.take 64
      let dst_addr := brdata.drop 64
      if notary.startsWith "**Z**" ∧ brdata.length = 64 + 42 ∧ isHex br_hash ∧
          CString.startsWith dst_addr "0x" ∧ isHex (dst_addr.drop 2) then
        some (br_hash, dst_addr)
      else none
    else none

namespace AddressParams

variable (ap : AddressParams)

/-- `CPubKey(vch).GetID()`. Bytes of another length than their first one says are no key. -/
def pubKeyID (vch : List UInt8) : UInt160 :=
  let header := vch.headD 0
  let len := if header = 2 ∨ header = 3 then 33
    else if header = 4 ∨ header = 6 ∨ header = 7 then 65 else 0
  ap.Hash160 (if vch.length = len then vch else [])

def extractDestination (s : CScript) : Option CTxDestination :=
  match solver s with
  | some (.TX_PUBKEY, vch :: _) => some (.keyID (ap.pubKeyID vch))
  | some (.TX_PUBKEYHASH, vch :: _) => some (.keyID (.ofBytes vch))
  | some (.TX_SCRIPTHASH, vch :: _) => some (.scriptID (.ofBytes vch))
  | some (.TX_NULL_DATA, _) =>
    (extractToBridge s).map fun r => .ext (setHex r.1) ((setHex (r.2.drop 2)).setWidth 160)
  | _ => none

def extractDestinations (s : CScript) : List CTxDestination :=
  match solver s with
  | none | some (.TX_NULL_DATA, _) => []
  | some (.TX_MULTISIG, vSolutions) =>
    (vSolutions.drop 1).dropLast.map fun vch => .keyID (ap.pubKeyID vch)
  | some _ => (ap.extractDestination s).toList

end AddressParams

/-! ## Scripts of destinations -/

namespace CScript

/-- A push of 20 bytes. -/
theorem getOp_push20 {vch : List UInt8} (h : vch.length = 20) (rest : CScript) :
    getOp (0x14 :: (vch ++ rest)) = some (20, vch, rest) := by
  have htake : (vch ++ rest).take 20 = vch := by rw [← h, List.take_left]
  have hdrop : (vch ++ rest).drop 20 = rest := by rw [← h, List.drop_left]
  simp [getOp, OP_PUSHDATA4, OP_PUSHDATA1, OP_PUSHDATA2, h, htake, hdrop]

/-- An operation that pushes nothing. -/
theorem getOp_of_lt {b : UInt8} (h : OP_PUSHDATA4 < b.toNat) (rest : CScript) :
    getOp (b :: rest) = some (b.toNat, [], rest) := by
  simp [getOp, h]

end CScript

theorem solver_keyID (id : UInt160) :
    solver (CScript.setDestination (.keyID id)) = some (.TX_PUBKEYHASH, [id.toBytes]) := by
  have hlength : (CScript.setDestination (.keyID id)).length = 25 := by
    simp [CScript.setDestination]
  have hscript : CScript.setDestination (.keyID id) =
      0x76 :: 0xa9 :: 0x14 :: (id.toBytes ++ [0x88, 0xac]) := rfl
  have hpush := CScript.getOp_push20 id.length_toBytes [0x88, 0xac]
  have hp2sh : CScript.isPayToScriptHash (CScript.setDestination (.keyID id)) = false := by
    simp [CScript.isPayToScriptHash, hlength]
  have hdup : CScript.getOp (0x76 :: 0xa9 :: 0x14 :: (id.toBytes ++ [0x88, 0xac])) =
      some (0x76, [], 0xa9 :: 0x14 :: (id.toBytes ++ [0x88, 0xac])) :=
    CScript.getOp_of_lt (by decide) _
  have hhash : CScript.getOp (0xa9 :: 0x14 :: (id.toBytes ++ [0x88, 0xac])) =
      some (0xa9, [], 0x14 :: (id.toBytes ++ [0x88, 0xac])) :=
    CScript.getOp_of_lt (by decide) _
  have hend : CScript.getOp [0x88, 0xac] = some (0x88, [], [0xac]) := by decide
  have hsig : CScript.getOp [0xac] = some (0xac, [], []) := by decide
  rw [solver, hp2sh, if_neg Bool.false_ne_true, hscript]
  simp [scanTemplates, mTemplates, matchTemplate, matchOp, hdup, hhash, hpush, hend, hsig,
    CScript.OP_RETURN, CScript.OP_DUP, CScript.OP_HASH160, CScript.OP_EQUALVERIFY,
    CScript.OP_CHECKSIG]

theorem solver_scriptID (id : UInt160) :
    solver (CScript.setDestination (.scriptID id)) = some (.TX_SCRIPTHASH, [id.toBytes]) := by
  have hlength : (CScript.setDestination (.scriptID id)).length = 23 := by
    simp [CScript.setDestination]
  have hscript : CScript.setDestination (.scriptID id) =
      0xa9 :: 0x14 :: (id.toBytes ++ [0x87]) := rfl
  have hlast : (CScript.setDestination (.scriptID id)).getD 22 0 = 0x87 := by
    rw [hscript, List.getD_cons_succ, List.getD_cons_succ, List.getD_append_right _ _ _ _ (by simp)]
    simp
  have hp2sh : CScript.isPayToScriptHash (CScript.setDestination (.scriptID id)) = true := by
    rw [CScript.isPayToScriptHash, hlength, hlast]
    simp [hscript]
  have hid : ((CScript.setDestination (.scriptID id)).drop 2).take 20 = id.toBytes := by
    rw [hscript]
    simp
  rw [solver, hp2sh, if_pos rfl, hid]

/-- The first operation decides whether a template can match. -/
theorem matchTemplate_of_matchOp {op : TemplateOp} {ops : List TemplateOp} {s rest : CScript}
    {opcode1 : ℕ} {vch1 : List UInt8} (hop : s.getOp = some (opcode1, vch1, rest))
    (hkeys : op ≠ .OP_PUBKEYS) (hreturn : op ≠ .opcode CScript.OP_RETURN)
    (h : matchOp opcode1 vch1 op = none) : matchTemplate (op :: ops) s = none := by
  rw [matchTemplate]
  · simp [hop, hreturn, h]
  · rintro op' ops' rfl
    exact absurd rfl hkeys

/-- A script that starts with `OP_RETURN` is data. -/
theorem solver_return (rest : CScript) :
    ∃ sols, solver (0x6a :: rest) = some (.TX_NULL_DATA, sols) := by
  have hp2sh : CScript.isPayToScriptHash (0x6a :: rest) = false := by
    simp [CScript.isPayToScriptHash]
  have hop : CScript.getOp (0x6a :: rest) = some (0x6a, [], rest) :=
    CScript.getOp_of_lt (by decide) rest
  have hfirst {op : TemplateOp} (ops : List TemplateOp) (hkeys : op ≠ .OP_PUBKEYS)
      (hreturn : op ≠ .opcode CScript.OP_RETURN) (h : matchOp 0x6a [] op = none) :
      matchTemplate (op :: ops) (0x6a :: rest) = none :=
    matchTemplate_of_matchOp hop hkeys hreturn h
  have hend : matchTemplate [.opcode CScript.OP_RETURN] (0x6a :: rest) = some [] := by
    simp [matchTemplate, hop, CScript.OP_RETURN]
  rw [solver, hp2sh, if_neg Bool.false_ne_true, mTemplates]
  simp only [scanTemplates, hfirst _ (show TemplateOp.OP_PUBKEY ≠ _ by decide) (by decide)
    (by decide), hfirst _ (show TemplateOp.opcode CScript.OP_DUP ≠ _ by decide) (by decide)
    (by decide), hfirst _ (show TemplateOp.OP_SMALLINTEGER ≠ _ by decide) (by decide) (by decide)]
  cases matchTemplate [.opcode CScript.OP_RETURN, .OP_SMALLDATA] (0x6a :: rest) with
  | none => exact ⟨[], by simp [hend]⟩
  | some sols => exact ⟨sols, by simp⟩

namespace AddressParams

variable {ap : AddressParams}

/-- The script of an address pays to it, and to nothing else. -/
theorem extractDestinations_setDestination {dest : CTxDestination}
    (h : ∀ bridge address, dest ≠ .ext bridge address) :
    ap.extractDestinations (CScript.setDestination dest) = [dest] := by
  cases dest with
  | keyID id => simp [extractDestinations, extractDestination, solver_keyID]
  | scriptID id => simp [extractDestinations, extractDestination, solver_scriptID]
  | ext bridge address => exact absurd rfl (h bridge address)

theorem extractDestinations_return (rest : CScript) :
    ap.extractDestinations (0x6a :: rest) = [] := by
  obtain ⟨sols, hsols⟩ := solver_return rest
  simp [extractDestinations, hsols]

end AddressParams

end BitBay
