import BitBay.Governance.OnBehalf
import BitBay.Peg.Standard

/-!
# The texts that a block brings

When a block is connected, the texts of its notary outputs are read in three places: as votes,
as the control of an exchange transaction, and as marks of frozen coins. An exception in any of
them stops the block. Parts of a text are only taken where they exist, with one exception among
the votes, and the control of an exchange is converted with `std::stoi`, which raises for a text
that is no `int`.
-/
namespace BitBay

def CString.stoi (s : CString) : Except StdException ℤ :=
  match s.strtol10 with
  | none => .error .invalid_argument
  | some v => if -2 ^ 31 ≤ v ∧ v < 2 ^ 31 then .ok v else .error .out_of_range

def CString.IsInt (s : CString) : Prop := ∃ v, s.strtol10 = some v ∧ -2 ^ 31 ≤ v ∧ v < 2 ^ 31

theorem CString.stoi_returns_iff {s : CString} : (∃ v, s.stoi = .ok v) ↔ s.IsInt := by
  unfold stoi IsInt
  cases s.strtol10 with
  | none => simp
  | some v =>
    constructor
    · rintro ⟨w, hw⟩
      simp only at hw
      split_ifs at hw with hrange
      exact ⟨v, rfl, hrange⟩
    · rintro ⟨w, hw, hrange⟩
      cases hw
      exact ⟨v, if_pos hrange⟩

/-! ## Exchange transactions -/

section Exchange

variable (net : Params) (Hash : CString → UInt256)

/-- The first notary of the transaction that is meant for the exchange. -/
def exchangeNotary (vout : List CTxOut) : Option CString :=
  vout.findSome? fun out => (out.scriptPubKey.addressNotary net).filter (·.startsWith "XCH:")

def exchangeArgument (vout : List CTxOut) : Option CString :=
  (exchangeNotary net vout).bind fun sNotary => (sNotary.split ':')[1]?

def prevoutStream (vin : List CTxIn) : CString :=
  vin.flatMap fun inp => streamHash inp.prevout.hash ++ streamInt inp.prevout.n

/-- The control hash of a withdraw, from the liquid part or from the reserve. -/
def withdrawControl (kind : String) (tx : CTransaction) (out : CTxOut) : CString :=
  getHex (Hash (prevoutStream tx.vin ++ (streamString kind.toList ++
    (streamString (out.scriptPubKey.toAddress net) ++ streamInt64 out.nValue))))

/-- What `IsExchangeTx` makes of the arguments of the notary: whether it is an exchange
transaction, the output that is paid and the id of the withdraw. -/
def exchangeControl (tx : CTransaction) (vOutputArgs : List CString) :
    Except StdException (Bool × ℤ × UInt256) :=
  match vOutputArgs with
  | _ :: sOut :: rest => do
    let nOut ← sOut.stoi
    if nOut < 0 ∨ (tx.vout.length : ℤ) ≤ nOut then return (true, -1, 0)
    else
      match rest with
      | [] => return (true, -1, 0)
      | sControlHash :: _ =>
        let out := tx.vout.getD nOut.toNat default
        if withdrawControl net Hash "L" tx out = sControlHash ∨
            withdrawControl net Hash "R" tx out = sControlHash then
          return (true, nOut, setHex sControlHash)
        else return (true, -1, 0)
  | _ => return (true, -1, 0)

def isExchangeTx (tx : CTransaction) : Except StdException (Bool × ℤ × UInt256) :=
  match exchangeNotary net tx.vout with
  | none => return (false, -1, 0)
  | some sNotary => exchangeControl net Hash tx (sNotary.split ':')

/-- The notary that `accountmaintenance` writes, before the inputs are filled in. -/
def maintenanceNotary (vin : List CTxIn) : CString :=
  "XCH:M:".toList ++ getHex (Hash (prevoutStream vin ++ streamString "M".toList))

variable {net Hash}

theorem exchangeControl_returns_iff {tx : CTransaction} {vOutputArgs : List CString} :
    (∃ r, exchangeControl net Hash tx vOutputArgs = .ok r) ↔
      ∀ sOut, vOutputArgs[1]? = some sOut → sOut.IsInt := by
  match vOutputArgs with
  | [] | [_] => exact ⟨fun _ _ h => (nomatch h), fun _ => ⟨_, rfl⟩⟩
  | _ :: sOut :: rest =>
    have harg : (∀ s, some sOut = some s → CString.IsInt s) ↔ sOut.IsInt :=
      ⟨fun h => h sOut rfl, fun h s hs => Option.some.inj hs ▸ h⟩
    refine Iff.trans ?_ harg.symm
    rw [← CString.stoi_returns_iff, exchangeControl]
    cases sOut.stoi with
    | error e =>
      refine ⟨fun ⟨r, hr⟩ => ?_, fun ⟨v, hv⟩ => ?_⟩
      · cases hr
      · cases hv
    | ok nOut =>
      refine ⟨fun _ => ⟨nOut, rfl⟩, fun _ => ?_⟩
      rw [ok_bind]
      split_ifs
      · exact ⟨_, rfl⟩
      · cases rest with
        | nil => exact ⟨_, rfl⟩
        | cons sControlHash _ =>
          dsimp only
          split_ifs <;> exact ⟨_, rfl⟩

theorem isExchangeTx_returns_iff {tx : CTransaction} : (∃ r, isExchangeTx net Hash tx = .ok r) ↔
    ∀ sOut, exchangeArgument net tx.vout = some sOut → sOut.IsInt := by
  unfold isExchangeTx exchangeArgument
  cases exchangeNotary net tx.vout with
  | none => exact ⟨fun _ _ h => (nomatch h), fun _ => ⟨_, rfl⟩⟩
  | some sNotary => exact exchangeControl_returns_iff

end Exchange

/-! ## Marks of frozen coins -/

def freezeNotary (sNotary : CString) : Except StdException (Option (NotaryMark × List CString)) :=
  match notaryMark sNotary with
  | none => return none
  | some nMark => do
    let sOutputDef ← sNotary.substrFrom 5
    return some (nMark, sOutputDef.split ':')

/-- The five characters of the mark are there. -/
theorem length_of_notaryMark {sNotary : CString} {nMark : NotaryMark}
    (h : notaryMark sNotary = some nMark) : 5 ≤ sNotary.length := by
  have hlength {p : String} (hp : p.toList.length = 5) (hstarts : sNotary.startsWith p = true) :
      5 ≤ sNotary.length := hp ▸ (CString.startsWith_iff.mp hstarts).length_le
  unfold notaryMark at h
  split_ifs at h with hF hV hL hC
  · exact hlength rfl hF
  · exact hlength rfl hV
  · exact hlength rfl hL
  · exact hlength rfl hC

theorem freezeNotary_returns (sNotary : CString) : freezeNotary sNotary =
    .ok ((notaryMark sNotary).map fun nMark => (nMark, CString.split ':' (sNotary.drop 5))) := by
  unfold freezeNotary
  cases hmark : notaryMark sNotary with
  | none => rfl
  | some nMark =>
    simp only [CString.substrFrom_ok (length_of_notaryMark hmark), ok_bind]
    rfl

/-! ## All three -/

/-- The three readings return exactly when the innermost text of a vote is not the mark of the
consensus scope alone, and the first argument of an exchange notary starts with an `int`. -/
theorem notary_readings_return (env : NotaryEnv) (bridges : BridgesMap) (net : Params)
    (notary phash address_override : CString) (tx : CTransaction) :
    ((∃ r, env.notaryToProposal bridges notary phash address_override = .ok r) ∧
        (∃ r, isExchangeTx net env.Hash tx = .ok r) ∧ ∃ r, freezeNotary notary = .ok r) ↔
      env.innermost notary ≠ "**N**".toList ∧
        ∀ sOut, exchangeArgument net tx.vout = some sOut → sOut.IsInt := by
  rw [NotaryEnv.notaryToProposal_returns_iff, isExchangeTx_returns_iff]
  refine ⟨fun h => ⟨h.1, h.2.1⟩, fun h => ⟨h.1, h.2, ?_⟩⟩
  exact ⟨_, freezeNotary_returns notary⟩

def maintenanceHash (stream : CString) : UInt256 :=
  if stream = streamString "M".toList then
    0xaa227843bd1b0802d13d14b16653ff6d35b4635376c4181e9d46da779920ecfe
  else 0

/-- A network where no script has a destination. -/
def notaryNet : Params where
  pegFrozenTime := 0
  pegVFrozenTime := 0
  getHash _ := 0
  destinations _ := []
  isValidAddress _ := false

def maintenanceTx : CTransaction where
  vin := []
  vout := [⟨1, 0x6a :: 70 :: (maintenanceNotary maintenanceHash []).toBytes⟩]

/-- The mark alone raises in every node, and the transaction of the node's own maintenance
raises where the block that contains it is connected. -/
theorem notary_readings_raise :
    (∀ env : NotaryEnv, ∀ bridges phash address_override,
      env.notaryToProposal bridges "**N**".toList phash address_override =
        .error .out_of_range) ∧
      isExchangeTx notaryNet maintenanceHash maintenanceTx = .error .invalid_argument := by
  refine ⟨fun env bridges phash address_override => ?_, ?_⟩
  · have hplain : env.signed "**N**".toList = none := rfl
    rw [NotaryEnv.notaryToProposal_plain hplain, NotaryEnv.parse_mark_alone]
    rfl
  · have hnotary : exchangeNotary notaryNet maintenanceTx.vout =
        some (maintenanceNotary maintenanceHash []) := by decide
    have hsplit : (maintenanceNotary maintenanceHash []).split ':' = ["XCH".toList, "M".toList,
        getHex 0xaa227843bd1b0802d13d14b16653ff6d35b4635376c4181e9d46da779920ecfe] := by
      decide
    rw [isExchangeTx, hnotary]
    simp only [hsplit]
    rfl

end BitBay
