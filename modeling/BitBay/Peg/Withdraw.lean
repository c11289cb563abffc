import BitBay.Chain.ExchangeTx
import BitBay.Chain.FetchInputs
import BitBay.Peg.Moves
import BitBay.Wallet.CoinsToUse

/-!
# Withdraws of an exchange

`prepareliquidwithdraw` and `preparereservewithdraw` build the transaction that pays a user of the
exchange from its coins. The payment stands in front, behind the notaries that freeze a reserve.
Behind it follow the change of each address, the notary that names the payment with the id of
the withdraw, and what is given back of the fee.
-/
namespace BitBay

structure WithdrawCoin extends CCoinToUse where
  privkeybip32 : CString
  fractions : CFractions

inductive ExtKeyFailure
  | privateKey
  | publicKey
  | keyStore

def ExtKeyFailure.text : ExtKeyFailure → String
  | .privateKey => "Failed to add key/pubkey, private key is invalid, idx="
  | .publicKey => "Failed to add key/pubkey, public key is invalid, idx="
  | .keyStore => "Failed to add key/pubkey, idx="

structure WithdrawEnv where
  ap : AddressParams
  pegFrozenTime : ℕ
  pegVFrozenTime : ℕ
  getHash : CTransaction → UInt256
  nPegInterval : ℤ
  /-- `CPegData(text)`, and `ToString`. -/
  readPegData : CString → CPegData
  writePegData : CPegData → CString
  extKeyFailure : CString → Option ExtKeyFailure
  /-- `SignSignature`: the script for an input, with the keys of all inputs in the store. -/
  signSignature : List CString → CScript → CTransaction → ℕ → Option CScript

def WithdrawEnv.net (env : WithdrawEnv) : Params where
  pegFrozenTime := env.pegFrozenTime
  pegVFrozenTime := env.pegVFrozenTime
  getHash := env.getHash
  destinations s := (env.ap.extractDestinations s).map env.ap.toString
  isValidAddress := env.ap.isValid

/-- The arguments of a withdraw, and the times at which it looks at the clock. -/
structure WithdrawCall where
  txins : List (CString × CPegData × CString)
  pdBalance : CPegData
  pdExchange : CPegData
  pdPegShift : CPegData
  nAmountWithFee : ℤ
  sAddress : CString
  peglevel_exchange : CPegLevel
  nTime : ℕ
  nTimeCommon : ℕ
  nTimeNet : ℕ

/-- The transaction of a withdraw, which is hexed where it is handed back, and what refers to it. -/
structure WithdrawTx where
  withdrawIdXch : CString
  withdrawTxout : CString
  rawTx : CTransaction
  txouts : List (CString × CPegData × CString)

structure Withdraw extends WithdrawTx where
  pdBalance : CPegData
  pdExchange : CPegData
  pdPegShift : CPegData
  pdRequested : CPegData
  pdProcessed : CPegData

/-- Why a withdraw fails. Some failures leave the text of the caller; `undefined` is one that the
source does not survive. -/
inductive WithdrawFailure
  | failed (sErr : String)
  | silent
  | undefined

structure WithdrawKind where
  word : String
  letter : String
  maxInputs : ℕ
  nHave : CPegData → ℤ
  setHave : CPegData → ℤ → CPegData
  part : CPegLevel → CPegData → Except String CFractions
  /-- The value of a coin that can be taken, by the level of the exchange and of the network. -/
  nAvailable : CPegLevel → CPegLevel → CFractions → ℤ
  /-- What a coin contributes to the amount. -/
  nCovers : WithdrawCoin → ℤ
  /-- The index of the payment, by the number of inputs. -/
  nOut : ℕ → ℕ
  /-- The outputs in front, the values taken at each address and what change has to add. -/
  take : AddressParams → List CCoinToUse → ℤ → Option (List CTxOut × ValuesAt × ℤ)

section Checks

/-- The level of the network: the one of the exchange without its buffer. -/
def peglevelNet (peglevel_exchange : CPegLevel) : CPegLevel :=
  .ofSupply peglevel_exchange.nCycle peglevel_exchange.nCyclePrev 0
    (peglevel_exchange.nSupply - peglevel_exchange.nBuffer)
    (peglevel_exchange.nSupplyNext - peglevel_exchange.nBuffer)
    (peglevel_exchange.nSupplyNextNext - peglevel_exchange.nBuffer)

variable (kind : WithdrawKind) (env : WithdrawEnv) (call : WithdrawCall)

def withdrawRefused : Option String :=
  if ¬ env.ap.isValid call.sAddress then
    some ("Invalid BitBay address " ++ String.ofList call.sAddress)
  else if kind.maxInputs < call.txins.length then
    some ("Too much inputs for withdraw (max=" ++ toString kind.maxInputs ++ " " ++ kind.word ++ ")")
  else if call.nAmountWithFee < 0 then
    some ("Requested to withdraw negative " ++ toString call.nAmountWithFee)
  else if call.nAmountWithFee < 1000000 + 2 then
    some ("Requested to withdraw less than 1M fee " ++ toString call.nAmountWithFee)
  else if ¬ call.peglevel_exchange.IsValid then some "Not valid peglevel"
  else if ¬ call.pdBalance.IsValid then some "Not valid 'balance' pegdata"
  else if ¬ call.pdExchange.IsValid then some "Not valid 'exchange' pegdata"
  else if ¬ call.pdPegShift.IsValid then some "Not valid 'pegshift' pegdata"
  else if call.pdBalance.peglevel.nCycle ≠ call.peglevel_exchange.nCycle then
    some "Balance has other cycle than peglevel"
  else if kind.nHave call.pdBalance < call.nAmountWithFee then
    some ("Not enough " ++ kind.word ++ " " ++ toString (kind.nHave call.pdBalance) ++
      " on 'balance' to withdraw " ++ toString call.nAmountWithFee)
  else none

def frRequestedOf : Except WithdrawFailure CFractions :=
  match withdrawRefused kind env call with
  | some sErr => .error (.failed sErr)
  | none =>
    match kind.part call.peglevel_exchange call.pdBalance with
    | .error sErr => .error (.failed sErr)
    | .ok frBalance =>
      if frBalance.total < call.nAmountWithFee then
        .error (.failed ("Not enough " ++ kind.word ++ "(1) " ++ toString frBalance.total ++
          "  on 'balance' to withdraw " ++ toString call.nAmountWithFee))
      else .ok (frBalance.ratioPart call.nAmountWithFee)

/-- A coin from its text `txhash:nout`, its pegdata and its key. -/
def readTxin (txin : (CString × CPegData × CString) × ℕ) : Except WithdrawFailure WithdrawCoin :=
  let ((txhash_nout, pdTxin, privkeybip32), i) := txin
  let unrecognized :=
    WithdrawFailure.failed ("Txout is not recognized, format txhash:nout, idx=" ++ toString i)
  if privkeybip32 = [] then .error (.failed ("Txout bip32 key is empty, idx=" ++ toString i))
  else
    match CString.split ':' txhash_nout with
    | [sTxid, sNout] =>
      match sNout.strtol with
      | none => .error unrecognized
      | some nout =>
        match env.extKeyFailure privkeybip32 with
        | some failure => .error (.failed (failure.text ++ toString i))
        | none => .ok {
            txhash := setHex sTxid
            i := (nout % 2 ^ 64).toNat
            nValue := pdTxin.fractions.total
            nAvailableValue := kind.nAvailable call.peglevel_exchange
              (peglevelNet call.peglevel_exchange) pdTxin.fractions
            scriptPubKey := parseHex pdTxin.fractions.sReturnAddr
            nCycle := call.peglevel_exchange.nCycle
            privkeybip32
            fractions := pdTxin.fractions }
    | _ => .error unrecognized

def allOutputs (coins : List WithdrawCoin) : UInt320 → Option WithdrawCoin :=
  coins.foldl (fun m coin => Function.update m coin.fkey (some coin)) fun _ => none

/-- The coins of the inputs, which have to be enough for the amount. -/
def withdrawCoins : Except WithdrawFailure (List WithdrawCoin) := do
  let coins ← call.txins.zipIdx.mapM (readTxin kind env call)
  if 0 < call.nAmountWithFee - (coins.map kind.nCovers).sum then
    .error (.failed ("Not enough " ++ kind.word ++ " in inputs to next cycle withdraw " ++
      toString call.nAmountWithFee))
  else if coins = [] then .error .silent
  else .ok coins

end Checks

/-! ## Change -/

structure ChangeState where
  nTakeFromChangeLeft : ℤ
  mapTakeValuesAt : ValuesAt
  mapChangeOutputs : CTxDestination → Option ℕ := fun _ => none
  vout : List CTxOut

/-- The change of an address when something is left to be taken from it, and what is left then. -/
def changeAfter (nValueChange nTakeFromChangeLeft : ℤ) : ℤ × ℤ :=
  let s := if nTakeFromChangeLeft < nValueChange then (nValueChange - nTakeFromChangeLeft, 0)
    else (nValueChange, nTakeFromChangeLeft)
  if s.1 ≤ s.2 then (0, s.2 - s.1) else s

def addChange (mapInputValuesAt : ValuesAt) (st : ChangeState) (address : CTxDestination) :
    ChangeState :=
  let r := changeAfter (mapInputValuesAt address - st.mapTakeValuesAt address)
    st.nTakeFromChangeLeft
  if r.1 = 0 then { st with nTakeFromChangeLeft := r.2 }
  else {
    nTakeFromChangeLeft := r.2
    mapTakeValuesAt := st.mapTakeValuesAt.add address r.1
    mapChangeOutputs := Function.update st.mapChangeOutputs address (some st.vout.length)
    vout := st.vout ++ [⟨r.1, CScript.setDestination address⟩] }

/-! ## What is given back of the fee -/

def addValue (vout : List CTxOut) (nOut : ℕ) (v : ℤ) : List CTxOut :=
  vout.modify nOut fun out => { out with nValue := out.nValue + v }

section Fees

variable (mapInputValuesAt : ValuesAt) (st : ChangeState)

def feeToChange (s : ℤ × List CTxOut) (address : CTxDestination) : ℤ × List CTxOut :=
  match st.mapChangeOutputs address with
  | none => s
  | some nOut =>
    let nValueForFee := mapInputValuesAt address - st.mapTakeValuesAt address
    let s := if s.1 < nValueForFee then (0, addValue s.2 nOut s.1) else s
    if nValueForFee ≤ s.1 then (s.1 - nValueForFee, addValue s.2 nOut nValueForFee) else s

/-- An address without change gets an output for the fee. -/
def feeToOutput (s : ℤ × List CTxOut) (address : CTxDestination) : ℤ × List CTxOut :=
  match st.mapChangeOutputs address with
  | some _ => s
  | none =>
    let nValueForFee := mapInputValuesAt address - st.mapTakeValuesAt address
    let r := if s.1 < nValueForFee then (s.1, 0) else (nValueForFee, s.1)
    let nLeft := if r.1 ≤ r.2 then r.2 - r.1 else r.2
    if r.1 = 0 then (nLeft, s.2) else (nLeft, s.2 ++ [⟨r.1, CScript.setDestination address⟩])

def distributeFee (addresses : List CTxDestination) (nFeeMaintenance : ℤ) (vout : List CTxOut) :
    List CTxOut :=
  (addresses.foldl (feeToOutput mapInputValuesAt st)
    (addresses.foldl (feeToChange mapInputValuesAt st) (nFeeMaintenance, vout))).2

end Fees

/-! ## The transaction -/

def controlText (letter : String) (vin : List CTxIn) (sAddress : CString) (nAmount : ℤ) : CString :=
  prevoutStream vin ++ (streamString letter.toList ++ (streamString sAddress ++ streamInt64 nAmount))

def exchangeText (nOut : ℕ) (withdrawIdXch : CString) : CString :=
  "XCH:".toList ++ (CString.ofInt nOut ++ ':' :: withdrawIdXch)

/-- The transaction before the fee is given back, and the change that it has. -/
structure WithdrawDraft where
  st : ChangeState
  rawTx : CTransaction
  withdrawIdXch : CString

section Model

variable (kind : WithdrawKind) (env : WithdrawEnv) (call : WithdrawCall)

def nFeeRet : ℤ := 1000000

def WithdrawCall.nAmount : ℤ := call.nAmountWithFee - nFeeRet

/-- The inputs, the payment, the change and the notary of a withdraw to `dest`. -/
def draftWithdraw (dest : CTxDestination) (vCoins : List CCoinToUse) : Option WithdrawDraft :=
  (kind.take env.ap vCoins call.nAmount).map fun (front, mapTakeValuesAt, nValueToTakeFromChange) =>
    let st := (inputAddresses env.ap vCoins).foldl (addChange (inputValuesAt env.ap vCoins)) {
      nTakeFromChangeLeft := nValueToTakeFromChange + nFeeRet + 1
      mapTakeValuesAt
      vout := front ++ [⟨call.nAmount, CScript.setDestination dest⟩] }
    let vin := vCoins.map CCoinToUse.txIn
    let withdrawIdXch :=
      getHex (env.ap.Hash (controlText kind.letter vin call.sAddress call.nAmount))
    { st, withdrawIdXch
      rawTx := {
        nTime := call.nTime
        vin
        vout := st.vout ++
          [⟨1, pushNotaryText (exchangeText (kind.nOut vin.length) withdrawIdXch)⟩]
        nLockTime :=
          (((call.peglevel_exchange.nCycle + 1) * env.nPegInterval - 1) % 2 ^ 32).toNat } }

/-- `computeTxPegForNextCycle`: the fractions of the outputs, and of the fee. -/
def computeTxPegForNextCycle (rawTx : CTransaction) (nBlockTime : ℕ)
    (mapAllOutputs : UInt320 → Option WithdrawCoin) :
    Except WithdrawFailure (List CFractions × CFractions) :=
  if rawTx.vin.any fun inp => (mapAllOutputs inp.prevout.fkey).isNone then .error .silent
  else
    let used (fkey : UInt320) : Option WithdrawCoin :=
      if rawTx.vin.any fun inp => inp.prevout.fkey = fkey then mapAllOutputs fkey else none
    match calculateStandardFractions env.net {
        tx := rawTx
        nSupply := (peglevelNet call.peglevel_exchange).nSupplyNext.toNat
        nBlockTime
        mapInputs := fun fkey => (used fkey).map fun coin => ⟨coin.nValue, coin.scriptPubKey⟩
        mapInputsFractions := fun fkey => (used fkey).map (·.fractions)
        feesFractions := .zeroStd } with
    | .error sErr => .error (.failed sErr)
    | .ok r => .ok ((List.range rawTx.vout.length).map fun i =>
        (r.mapTestFractionsPool ⟨env.getHash rawTx, i⟩).getD {}, r.feesFractions)

def signInputs (vCoins : List WithdrawCoin) (rawTx : CTransaction) :
    Except WithdrawFailure CTransaction :=
  vCoins.zipIdx.foldlM (fun rawTx (coin, nIn) =>
    match env.signSignature (vCoins.map (·.privkeybip32)) coin.scriptPubKey rawTx nIn with
    | none => .error (.failed ("Fail on signing input " ++ toString nIn))
    | some scriptSig =>
      .ok { rawTx with vin := rawTx.vin.modify nIn fun inp => { inp with scriptSig } }) rawTx

def loadMaintenance (data : CString) : CFractions :=
  (CString.split ',' data).foldl (fun frMaintenance sArg =>
    if sArg.startsWith "AM:" then
      match CString.split ':' sArg with
      | _ :: sData :: _ =>
        let pd := env.readPegData sData
        if pd.IsValid then pd.fractions else frMaintenance
      | _ => frMaintenance
    else frMaintenance) .zeroStd

def replaceMaintenance (sData : CString) : List CString → Option (List CString)
  | [] => none
  | sArg :: rest =>
    match sArg.startsWith "AM:", CString.split ':' sArg with
    | true, am :: _ :: more => some (CString.join ':' (am :: sData :: more) :: rest)
    | _, _ => (replaceMaintenance sData rest).map (sArg :: ·)

def pegDataAt (fractions : CFractions) (peglevel : CPegLevel) : CPegData :=
  { fractions, peglevel, nLiquid := fractions.highOf peglevel, nReserve := fractions.lowOf peglevel }

def saveMaintenance (data : CString) (fractions : CFractions) (peglevel : CPegLevel) : CString :=
  let sData := env.writePegData (pegDataAt fractions peglevel)
  match replaceMaintenance sData (CString.split ',' data) with
  | some vArgs => CString.join ',' vArgs
  | none => (if data = [] then [] else data ++ [',']) ++ ("AM:".toList ++ sData)

/-- The key of an address: the one of its last coin, or none. -/
def bip32KeyAt (vCoins : List WithdrawCoin) (address : CTxDestination) : CString :=
  vCoins.foldl (fun key coin =>
    if env.ap.extractDestination coin.scriptPubKey = some address then coin.privkeybip32 else key) []

/-- The outputs that come back to the exchange, with their keys. The last output is passed over. -/
def returnedTxouts (vCoins : List WithdrawCoin) (rawTx : CTransaction) (outs : List CFractions)
    (nOut : ℕ) : List (CString × CPegData × CString) :=
  (rawTx.vout.zipIdx.dropLast.drop (nOut + 1)).filterMap fun (out, i) =>
    match env.ap.extractDestination out.scriptPubKey with
    | none => none
    | some address =>
      let privkeybip32 := bip32KeyAt env vCoins address
      let fractions := { outs.getD i {} with sReturnAddr := hexStr out.scriptPubKey }
      if privkeybip32 = [] then none
      else some (txoutText (env.getHash rawTx) i, pegDataAt fractions call.peglevel_exchange,
        privkeybip32)

def settleWithdraw (frRequested frProcessed frFeesMaintenance : CFractions) (tx : WithdrawTx) :
    Withdraw :=
  let frPegShift := call.pdPegShift.fractions + (frRequested - frProcessed)
  let frMaintenance :=
    loadMaintenance env call.pdPegShift.fractions.sReturnAddr + frFeesMaintenance
  { tx with
    pdBalance := kind.setHave
      { call.pdBalance with fractions := call.pdBalance.fractions - frRequested }
      (kind.nHave call.pdBalance - call.nAmountWithFee)
    pdExchange := { pegDataAt (call.pdExchange.fractions - frRequested) call.peglevel_exchange with
      nId := call.pdExchange.nId }
    pdPegShift := { call.pdPegShift with
      fractions := { frPegShift with
        sReturnAddr := saveMaintenance env frPegShift.sReturnAddr frMaintenance
          (peglevelNet call.peglevel_exchange) } }
    pdRequested := pegDataAt frRequested call.peglevel_exchange
    pdProcessed := pegDataAt frProcessed call.peglevel_exchange }

def finishWithdraw (frRequested : CFractions) (coins vCoins : List WithdrawCoin)
    (draft : WithdrawDraft) : Except WithdrawFailure Withdraw := do
  let nOut := kind.nOut draft.rawTx.vin.length
  let common ← computeTxPegForNextCycle env call draft.rawTx call.nTimeCommon (allOutputs coins)
  if common.1.length ≤ nOut then .error (.failed "No withdraw fractions")
  else
    let nFeeNetwork : ℤ := 200000 + 10000 * (draft.rawTx.vin.length + draft.rawTx.vout.length : ℕ)
    let toUse := vCoins.map (·.toCCoinToUse)
    let unsigned := { draft.rawTx with
      vout := distributeFee (inputValuesAt env.ap toUse) draft.st (inputAddresses env.ap toUse)
        (nFeeRet - nFeeNetwork) draft.rawTx.vout }
    let net ← computeTxPegForNextCycle env call unsigned call.nTimeNet (allOutputs coins)
    match net.1[nOut]? with
    | none => .error (.failed "No withdraw fractions (2)")
    | some frOut =>
      let rawTx ← signInputs env vCoins unsigned
      let frProcessed := frOut + common.2
      if frRequested.total ≠ call.nAmountWithFee then
        .error (.failed ("Mismatch requested and amount_with_fee " ++ toString frRequested.total ++
          " " ++ toString call.nAmountWithFee))
      else if frProcessed.total ≠ call.nAmountWithFee then
        .error (.failed ("Mismatch processed and amount_with_fee " ++ toString frProcessed.total ++
          " " ++ toString call.nAmountWithFee))
      else
        .ok (settleWithdraw kind env call frRequested frProcessed (common.2 - net.2) {
          withdrawIdXch := draft.withdrawIdXch
          withdrawTxout := txoutText (env.getHash rawTx) nOut
          rawTx
          txouts := returnedTxouts env call vCoins rawTx net.1 nOut })

def prepareWithdraw : Except WithdrawFailure Withdraw := do
  let frRequested ← frRequestedOf kind env call
  let coins ← withdrawCoins kind env call
  match env.ap.getDestination call.sAddress with
  | none => .error .undefined
  | some dest =>
    let vCoins := coins.mergeSort fun a b => !sortByAddress env.ap b.toCCoinToUse a.toCCoinToUse
    match draftWithdraw kind env call dest (vCoins.map (·.toCCoinToUse)) with
    | none => .error .undefined
    | some draft => finishWithdraw kind env call frRequested coins vCoins draft

end Model

/-! ## Liquid -/

def liquidWithdraw : WithdrawKind where
  word := "liquid"
  letter := "L"
  maxInputs := 30
  nHave pd := pd.nLiquid
  setHave pd nLiquid := { pd with nLiquid }
  part := liquidPart
  nAvailable _ peglevel_net fractions := fractions.high peglevel_net.nSupplyNext.toNat
  nCovers coin := coin.nAvailableValue
  nOut _ := 0
  take ap vCoins nValue := some ([], (takeLiquidAt ap vCoins nValue).1, 0)

def prepareliquidwithdraw (env : WithdrawEnv) (call : WithdrawCall) :
    Except WithdrawFailure Withdraw := prepareWithdraw liquidWithdraw env call

/-! ## Reserve -/

def PEG_MAKETX_FREEZE_VALUE : ℤ := 5590

/-- The notary that freezes the one payment behind the notaries. The index stands there three
times, so that inputs share the freeze. -/
def freezeText (nCoins : ℕ) : CString :=
  let out_index := CString.ofInt nCoins
  "**F**".toList ++ (out_index ++ ':' :: (out_index ++ ':' :: out_index))

def freezeOutputs (nCoins : ℕ) : List CTxOut :=
  List.replicate nCoins ⟨PEG_MAKETX_FREEZE_VALUE, pushNotaryText (freezeText nCoins)⟩

/-- Take a value from what is available at the addresses, in their order. The second component
is what is left to take. -/
def takeAvailable (availableAt : ValuesAt) : List CTxDestination → ValuesAt → ℤ → ValuesAt × ℤ
  | [], mapTakeValuesAt, nValueLeft => (mapTakeValuesAt, nValueLeft)
  | address :: rest, mapTakeValuesAt, nValueLeft =>
    if availableAt address = 0 then takeAvailable availableAt rest mapTakeValuesAt nValueLeft
    else
      let nValueToTake := min nValueLeft (availableAt address - mapTakeValuesAt address)
      let taken := mapTakeValuesAt.add address nValueToTake
      if nValueLeft - nValueToTake = 0 then (taken, 0)
      else takeAvailable availableAt rest taken (nValueLeft - nValueToTake)

/-- The notaries take from the reserves of all addresses, the payment then from the address of
the last input first. The last of no addresses is not there to be taken. -/
def takeReserveAt (ap : AddressParams) (vCoins : List CCoinToUse) (nValue : ℤ) :
    Option (List CTxOut × ValuesAt × ℤ) :=
  let addresses := inputAddresses ap vCoins
  let availableAt := availableValuesAt ap vCoins
  addresses.getLast?.map fun addressFrozenRef =>
    let notaries := takeAvailable availableAt addresses 0 (vCoins.length * PEG_MAKETX_FREEZE_VALUE)
    let payment := takeAvailable availableAt
      (addressFrozenRef :: addresses.filter (· ≠ addressFrozenRef)) notaries.1 nValue
    (freezeOutputs vCoins.length, payment.1, notaries.2 + payment.2)

def reserveWithdraw : WithdrawKind where
  word := "reserve"
  letter := "R"
  maxInputs := 20
  nHave pd := pd.nReserve
  setHave pd nReserve := { pd with nReserve }
  part := reservePart
  nAvailable peglevel_exchange _ fractions := fractions.low peglevel_exchange.nSupplyNext.toNat
  -- liquid coins can be withdrawn, too
  nCovers coin := coin.nValue
  nOut nInputs := nInputs
  take := takeReserveAt

def preparereservewithdraw (env : WithdrawEnv) (call : WithdrawCall) :
    Except WithdrawFailure Withdraw := prepareWithdraw reserveWithdraw env call

end BitBay
