import BitBay.Base.Numbers
import BitBay.Chain.NotaryScript
import BitBay.Governance.MapItems
import BitBay.Peg.Withdraw

/-!
# Withdraws on the chain

The scanner finds a withdraw by the notary that the builder has written. The notary is the only
one for the exchange, the payment stands at the index that it names, and what follows when the
fee is given back moves neither. The id is hashed again from the inputs and the payment, but
with the address that the payment has, while the builder hashes the address that it is given.
-/
namespace BitBay

/-! ## Texts -/

/-- Up to a hundred inputs are counted in two digits. -/
theorem length_ofInt_le {n : ℕ} (h : n < 100) : (CString.ofInt n).length ≤ 2 := by
  have hall : ∀ n : Fin 100, (Nat.toDigits 10 (n : ℕ)).length ≤ 2 := by decide +kernel
  rw [CString.ofInt_eq, if_pos (Int.natCast_nonneg n), Int.natAbs_natCast]
  exact hall ⟨n, h⟩

theorem byte_of_mem_ofInt {n : ℤ} {c : Char} (h : c ∈ CString.ofInt n) : c.toNat < 256 := by
  rcases CString.isNumeric_of_mem_ofInt h with rfl | hdigit
  · decide
  · omega

theorem byte_of_mem_getHex {hash : UInt256} {c : Char} (h : c ∈ getHex hash) : c.toNat < 256 := by
  have hall : ∀ a < 16, (hexChar a).toNat < 256 := by decide
  obtain ⟨a, ha, rfl⟩ := mem_getHex h
  exact hall a ha

section Notaries

variable {net : Params} {n : ℕ} {hash : UInt256}

theorem length_exchangeText (h : n < 100) : (exchangeText n (getHex hash)).length < 75 := by
  have hindex := length_ofInt_le h
  have hhash := length_getHex hash
  have hmark : "XCH:".toList.length = 4 := rfl
  rw [exchangeText, List.length_append, List.length_append, List.length_cons, hmark]
  omega

theorem byte_of_mem_exchangeText {c : Char} (h : c ∈ exchangeText n (getHex hash)) :
    c.toNat < 256 := by
  rcases List.mem_append.mp h with hmark | hrest
  · have hall : ∀ c ∈ "XCH:".toList, c.toNat < 256 := by simp
    exact hall c hmark
  · rcases List.mem_append.mp hrest with hindex | hid
    · exact byte_of_mem_ofInt hindex
    · rcases List.mem_cons.mp hid with rfl | hhash
      · decide
      · exact byte_of_mem_getHex hhash

theorem length_freezeText (h : n < 100) : (freezeText n).length < 75 := by
  have hindex := length_ofInt_le h
  have hmark : "**F**".toList.length = 5 := rfl
  simp only [freezeText, List.length_append, List.length_cons, hmark]
  omega

theorem byte_of_mem_freezeText {c : Char} (h : c ∈ freezeText n) : c.toNat < 256 := by
  simp only [freezeText, List.mem_append, List.mem_cons] at h
  rcases h with hmark | hindex | rfl | hindex | rfl | hindex
  · have hall : ∀ c ∈ "**F**".toList, c.toNat < 256 := by simp
    exact hall c hmark
  · exact byte_of_mem_ofInt hindex
  · decide
  · exact byte_of_mem_ofInt hindex
  · decide
  · exact byte_of_mem_ofInt hindex

/-- The arguments of the notary are its index and its id. -/
theorem split_exchangeText : CString.split ':' (exchangeText n (getHex hash)) =
    ["XCH".toList, CString.ofInt n, getHex hash] := by
  have hjoin : exchangeText n (getHex hash) =
      CString.join ':' ["XCH".toList, CString.ofInt n, getHex hash] := by
    simp [exchangeText, CString.join, List.intercalate]
  rw [hjoin, CString.split_join_eq_iff (by simp)]
  intro s hs
  simp only [List.mem_cons, List.not_mem_nil, or_false] at hs
  rcases hs with rfl | rfl | rfl
  · decide
  · exact CString.not_mem_ofInt (by decide) n
  · exact getHex_ne_colon

theorem stoi_ofInt (h : n < 100) : CString.stoi (CString.ofInt n) = .ok (n : ℤ) := by
  rw [CString.stoi, CString.strtol10_ofInt (by omega) (by omega)]
  exact if_pos (by omega)

end Notaries

/-! ## Outputs that the scanner passes over -/

/-- The output is no notary for the exchange. -/
def CTxOut.Quiet (net : Params) (out : CTxOut) : Prop :=
  (out.scriptPubKey.addressNotary net).filter (·.startsWith "XCH:") = none

def CTxOut.Pays (out : CTxOut) : Prop := ∃ dest, out.scriptPubKey = CScript.setDestination dest

section Scan

variable {net : Params} {env : WithdrawEnv} {vout vout' : List CTxOut} {out : CTxOut}

theorem exchangeNotary_append :
    exchangeNotary net (vout ++ vout') = (exchangeNotary net vout).or (exchangeNotary net vout') :=
  List.findSome?_append

theorem exchangeNotary_quiet (h : ∀ out ∈ vout, out.Quiet net) : exchangeNotary net vout = none :=
  List.findSome?_eq_none_iff.mpr h

/-- The scanner looks at the scripts only. -/
theorem exchangeNotary_congr (h : vout.map (·.scriptPubKey) = vout'.map (·.scriptPubKey)) :
    exchangeNotary net vout = exchangeNotary net vout' := by
  have hscripts (l : List CTxOut) : exchangeNotary net l =
      (l.map (·.scriptPubKey)).findSome? fun s =>
        (s.addressNotary net).filter (·.startsWith "XCH:") := by
    rw [List.findSome?_map]
    rfl
  rw [hscripts, h, ← hscripts]

theorem addressNotary_setDestination (dest : CTxDestination) :
    CScript.addressNotary env.net (CScript.setDestination dest) = none := by
  have haddress (h : ∀ bridge address, dest ≠ .ext bridge address) :
      CScript.addressNotary env.net (CScript.setDestination dest) = none := by
    simp [CScript.addressNotary, WithdrawEnv.net, AddressParams.extractDestinations_setDestination h]
  cases dest with
  | keyID id => exact haddress fun _ _ => by simp
  | scriptID id => exact haddress fun _ _ => by simp
  | ext bridge address =>
    -- The script of a destination behind a bridge is empty.
    have hempty : CScript.toNotary [] = none := rfl
    simp [CScript.addressNotary, CScript.setDestination, hempty]

theorem CTxOut.Pays.quiet (h : out.Pays) : out.Quiet env.net := by
  obtain ⟨dest, hdest⟩ := h
  rw [CTxOut.Quiet, hdest, addressNotary_setDestination]
  rfl

theorem addressNotary_pushNotaryText {notary : CString} (hlength : notary.length < 75)
    (hbytes : ∀ c ∈ notary, c.toNat < 256) :
    CScript.addressNotary env.net (pushNotaryText notary) = some notary := by
  have hnone : env.net.destinations (pushNotaryText notary) = [] :=
    List.map_eq_nil_iff.mpr (AddressParams.extractDestinations_return _)
  rw [CScript.addressNotary, if_pos hnone, toNotary_pushNotaryText (by omega) hbytes]

theorem freezeOutputs_quiet {n : ℕ} (h : n < 100) : ∀ out ∈ freezeOutputs n, out.Quiet env.net := by
  intro out hout
  have hstarts : CString.startsWith (freezeText n) "XCH:" = false := rfl
  rw [List.eq_of_mem_replicate hout, CTxOut.Quiet,
    addressNotary_pushNotaryText (length_freezeText h) fun c hc => byte_of_mem_freezeText hc]
  simp [hstarts]

/-- The notary of a withdraw is the one that the scanner takes. -/
theorem exchangeNotary_notary {n : ℕ} (h : n < 100) (hash : UInt256) (v : ℤ) :
    exchangeNotary env.net [⟨v, pushNotaryText (exchangeText n (getHex hash))⟩] =
      some (exchangeText n (getHex hash)) := by
  have hstarts : CString.startsWith (exchangeText n (getHex hash)) "XCH:" = true := rfl
  have hnotary : CScript.addressNotary env.net (pushNotaryText (exchangeText n (getHex hash))) =
      some (exchangeText n (getHex hash)) :=
    addressNotary_pushNotaryText (length_exchangeText h) fun c hc => byte_of_mem_exchangeText hc
  simp [exchangeNotary, hnotary, hstarts]

end Scan

/-! ## What the loops do to the outputs -/

structure ChangeFrom (base : List CTxOut) (st : ChangeState) : Prop where
  vout : ∃ changes, st.vout = base ++ changes ∧ ∀ out ∈ changes, out.Pays
  index : ∀ address nOut, st.mapChangeOutputs address = some nOut → base.length ≤ nOut

theorem ChangeFrom.addChange {base : List CTxOut} {st : ChangeState} (h : ChangeFrom base st)
    (values : ValuesAt) (address : CTxDestination) :
    ChangeFrom base (addChange values st address) := by
  unfold BitBay.addChange
  dsimp only
  split_ifs
  · exact ⟨h.vout, h.index⟩
  · obtain ⟨changes, hvout, hpays⟩ := h.vout
    refine ⟨⟨_, (congrArg (· ++ _) hvout).trans (List.append_assoc _ _ _), ?_⟩, ?_⟩
    · intro out hout
      rcases List.mem_append.mp hout with hold | hnew
      · exact hpays out hold
      · exact ⟨address, by rw [List.mem_singleton.mp hnew]⟩
    · intro address' nOut hindex
      by_cases haddress : address' = address
      · subst haddress
        simp only [Function.update_self, Option.some.injEq] at hindex
        rw [← hindex, hvout, List.length_append]
        exact Nat.le_add_right _ _
      · simp only [Function.update_of_ne haddress] at hindex
        exact h.index address' nOut hindex

theorem ChangeFrom.foldl {base : List CTxOut} {st : ChangeState} (h : ChangeFrom base st)
    (values : ValuesAt) (addresses : List CTxDestination) :
    ChangeFrom base (addresses.foldl (BitBay.addChange values) st) := by
  induction addresses generalizing st with
  | nil => exact h
  | cons address rest ih => exact ih (h.addChange values address)

/-- The first outputs are the same, and all have the same scripts. -/
structure SameFront (n : ℕ) (vout vout' : List CTxOut) : Prop where
  scripts : vout'.map (·.scriptPubKey) = vout.map (·.scriptPubKey)
  front : ∀ i < n, vout'[i]? = vout[i]?

theorem SameFront.refl (n : ℕ) (vout : List CTxOut) : SameFront n vout vout := ⟨rfl, fun _ _ => rfl⟩

theorem SameFront.trans {n : ℕ} {vout vout' vout'' : List CTxOut} (h : SameFront n vout vout')
    (h' : SameFront n vout' vout'') : SameFront n vout vout'' :=
  ⟨h'.scripts.trans h.scripts, fun i hi => (h'.front i hi).trans (h.front i hi)⟩

theorem sameFront_addValue {n nOut : ℕ} (h : n ≤ nOut) (vout : List CTxOut) (v : ℤ) :
    SameFront n vout (addValue vout nOut v) := by
  constructor
  · refine List.ext_getElem (by simp [addValue]) fun i hi hi' => ?_
    simp only [addValue, List.getElem_map, List.getElem_modify]
    split_ifs <;> rfl
  · intro i hi
    have hne : nOut ≠ i := by omega
    simp [addValue, hne]

section Fees

variable {values : ValuesAt} {st : ChangeState} {n : ℕ}

theorem sameFront_feeToChange (hindex : ∀ address nOut, st.mapChangeOutputs address = some nOut →
      n ≤ nOut) (s : ℤ × List CTxOut) (address : CTxDestination) :
    SameFront n s.2 (feeToChange values st s address).2 := by
  unfold feeToChange
  cases hchange : st.mapChangeOutputs address with
  | none => exact .refl n _
  | some nOut =>
    have hle := hindex address nOut hchange
    dsimp only
    split_ifs
    · exact (sameFront_addValue hle _ _).trans (sameFront_addValue hle _ _)
    · exact sameFront_addValue hle _ _
    · exact sameFront_addValue hle _ _
    · exact .refl n _

theorem sameFront_feesToChange (hindex : ∀ address nOut, st.mapChangeOutputs address = some nOut →
      n ≤ nOut) (addresses : List CTxDestination) (s : ℤ × List CTxOut) :
    SameFront n s.2 (addresses.foldl (feeToChange values st) s).2 := by
  induction addresses generalizing s with
  | nil => exact .refl n _
  | cons address rest ih => exact (sameFront_feeToChange hindex s address).trans (ih _)

theorem feesToOutput_append (addresses : List CTxDestination) (s : ℤ × List CTxOut) :
    ∃ fees, (addresses.foldl (feeToOutput values st) s).2 = s.2 ++ fees := by
  induction addresses generalizing s with
  | nil => exact ⟨[], (List.append_nil _).symm⟩
  | cons address rest ih =>
    have hstep : ∃ fees, (feeToOutput values st s address).2 = s.2 ++ fees := by
      unfold feeToOutput
      cases st.mapChangeOutputs address with
      | some nOut => exact ⟨[], (List.append_nil _).symm⟩
      | none =>
        dsimp only
        -- Only a fee that is not zero adds an output.
        split_ifs <;> first | exact ⟨[], (List.append_nil _).symm⟩ | exact ⟨_, rfl⟩
    obtain ⟨fees, hfees⟩ := hstep
    obtain ⟨more, hmore⟩ := ih (feeToOutput values st s address)
    exact ⟨fees ++ more, by rw [List.foldl_cons, hmore, hfees, List.append_assoc]⟩

/-- The fee that is given back changes values behind the payment and adds outputs at the end. -/
theorem distributeFee_front (hindex : ∀ address nOut, st.mapChangeOutputs address = some nOut →
      n ≤ nOut) (addresses : List CTxDestination) (nFee : ℤ) (vout : List CTxOut) :
    ∃ same fees, distributeFee values st addresses nFee vout = same ++ fees ∧
      SameFront n vout same := by
  obtain ⟨fees, hfees⟩ := @feesToOutput_append values st addresses
    (addresses.foldl (feeToChange values st) (nFee, vout))
  exact ⟨_, fees, hfees, sameFront_feesToChange hindex addresses (nFee, vout)⟩

end Fees

/-! ## What a withdraw hands back -/

/-- The transaction pays to a destination at an index, and its notary names the index and the
id of the withdraw. -/
structure NamesPayment (env : WithdrawEnv) (call : WithdrawCall) (letter : String)
    (dest : CTxDestination) (nOut : ℕ) (withdrawIdXch : CString) (rawTx : CTransaction) : Prop where
  payment : rawTx.vout[nOut]? = some ⟨call.nAmount, CScript.setDestination dest⟩
  notary : exchangeNotary env.net rawTx.vout = some (exchangeText nOut withdrawIdXch)
  id : withdrawIdXch =
    getHex (env.ap.Hash (controlText letter rawTx.vin call.sAddress call.nAmount))

/-- A kind of withdraw whose notaries are none for the exchange and whose payment is behind them. -/
structure WithdrawKind.Sound (kind : WithdrawKind) : Prop where
  letter : kind.letter = "L" ∨ kind.letter = "R"
  few : kind.maxInputs < 100
  index : ∀ n < 100, kind.nOut n < 100
  front : ∀ {ap : AddressParams} {vCoins : List CCoinToUse} {nValue : ℤ} {front : List CTxOut}
    {taken : ValuesAt × ℤ}, kind.take ap vCoins nValue = some (front, taken) →
    vCoins.length < 100 →
    front.length = kind.nOut vCoins.length ∧ ∀ env : WithdrawEnv, ∀ out ∈ front, out.Quiet env.net

theorem liquidWithdraw_sound : liquidWithdraw.Sound where
  letter := .inl rfl
  few := by decide
  index _ _ := Nat.zero_lt_succ 99
  front := by
    intro ap vCoins nValue front taken h _
    obtain ⟨rfl, rfl⟩ := Prod.mk.inj (Option.some.inj h)
    exact ⟨rfl, fun env out hout => absurd hout List.not_mem_nil⟩

theorem reserveWithdraw_sound : reserveWithdraw.Sound where
  letter := .inr rfl
  few := by decide
  index _ h := h
  front := by
    intro ap vCoins nValue front taken h hfew
    obtain ⟨addressFrozenRef, -, hfront⟩ := Option.map_eq_some_iff.mp h
    obtain ⟨rfl, -⟩ := Prod.mk.inj hfront
    exact ⟨List.length_replicate, fun env => freezeOutputs_quiet hfew⟩

section Results

variable {kind : WithdrawKind} {env : WithdrawEnv} {call : WithdrawCall} {letter : String}
  {dest : CTxDestination} {nOut : ℕ} {withdrawIdXch : CString} {rawTx rawTx' : CTransaction}

theorem prevoutStream_congr {vin vin' : List CTxIn}
    (h : vin'.map (·.prevout) = vin.map (·.prevout)) : prevoutStream vin' = prevoutStream vin := by
  have hprevouts (l : List CTxIn) : prevoutStream l =
      (l.map (·.prevout)).flatMap fun o => streamHash o.hash ++ streamInt o.n := by
    rw [List.flatMap_map]
    rfl
  rw [hprevouts, h, ← hprevouts]

/-- Where the fee is given back, the payment and its notary stay. -/
theorem NamesPayment.distribute (h : NamesPayment env call letter dest nOut withdrawIdXch rawTx)
    {values : ValuesAt} {st : ChangeState} {addresses : List CTxDestination} {nFee : ℤ}
    (hindex : ∀ address n, st.mapChangeOutputs address = some n → nOut + 1 ≤ n) :
    NamesPayment env call letter dest nOut withdrawIdXch
      { rawTx with vout := distributeFee values st addresses nFee rawTx.vout } := by
  obtain ⟨same, fees, hvout, hsame⟩ := @distributeFee_front values st _ hindex addresses nFee
    rawTx.vout
  refine ⟨?_, ?_, h.id⟩
  · have hpayment := (hsame.front nOut (Nat.lt_succ_self _)).trans h.payment
    simp only [hvout]
    exact List.getElem?_append_left (List.getElem?_eq_some_iff.mp hpayment).1 ▸ hpayment
  · simp only [hvout]
    rw [exchangeNotary_append, exchangeNotary_congr hsame.scripts, h.notary, Option.some_or]

/-- Signatures change neither the outputs nor what the inputs refer to. -/
theorem signInputs_keeps {vCoins : List WithdrawCoin}
    (h : signInputs env vCoins rawTx = .ok rawTx') :
    rawTx'.vout = rawTx.vout ∧ rawTx'.vin.map (·.prevout) = rawTx.vin.map (·.prevout) := by
  refine Run.foldlM_invariant (P := fun tx => tx.vout = rawTx.vout ∧
    tx.vin.map (·.prevout) = rawTx.vin.map (·.prevout)) ?_ ⟨rfl, rfl⟩ h
  rintro ⟨coin, nIn⟩ - tx tx' ⟨hvout, hvin⟩ hstep
  dsimp only at hstep
  split at hstep
  · cases hstep
  · obtain rfl := Except.ok.inj hstep
    refine ⟨hvout, ?_⟩
    rw [← hvin]
    refine List.ext_getElem (by simp) fun i hi hi' => ?_
    simp only [List.getElem_map, List.getElem_modify]
    split_ifs <;> rfl

theorem NamesPayment.sign (h : NamesPayment env call letter dest nOut withdrawIdXch rawTx)
    {vCoins : List WithdrawCoin} (hsign : signInputs env vCoins rawTx = .ok rawTx') :
    NamesPayment env call letter dest nOut withdrawIdXch rawTx' := by
  obtain ⟨hvout, hvin⟩ := signInputs_keeps hsign
  refine ⟨hvout ▸ h.payment, hvout ▸ h.notary, ?_⟩
  rw [h.id, controlText, controlText, prevoutStream_congr hvin]

/-- The draft pays behind the notaries in front, and change is behind the payment. -/
theorem draftWithdraw_names (hkind : kind.Sound) {vCoins : List CCoinToUse} {draft : WithdrawDraft}
    (hfew : vCoins.length < 100) (h : draftWithdraw kind env call dest vCoins = some draft) :
    NamesPayment env call kind.letter dest (kind.nOut vCoins.length) draft.withdrawIdXch
        draft.rawTx ∧
      draft.rawTx.vin.length = vCoins.length ∧
      ∀ address n, draft.st.mapChangeOutputs address = some n → kind.nOut vCoins.length + 1 ≤ n := by
  obtain ⟨⟨front, taken⟩, htake, rfl⟩ := Option.map_eq_some_iff.mp h
  obtain ⟨hlength, hquiet⟩ := hkind.front htake hfew
  have hstart : ChangeFrom (front ++ [⟨call.nAmount, CScript.setDestination dest⟩]) {
      nTakeFromChangeLeft := taken.2 + nFeeRet + 1
      mapTakeValuesAt := taken.1
      vout := front ++ [⟨call.nAmount, CScript.setDestination dest⟩] } :=
    ⟨⟨[], (List.append_nil _).symm, by simp⟩, by simp⟩
  have hbase := hstart.foldl (inputValuesAt env.ap vCoins) (inputAddresses env.ap vCoins)
  obtain ⟨changes, hvout, hpays⟩ := hbase.vout
  refine ⟨⟨?_, ?_, rfl⟩, List.length_map _, ?_⟩
  · simp only [hvout, ← hlength]
    simp
  · have hpayment : ∀ out ∈ [(⟨call.nAmount, CScript.setDestination dest⟩ : CTxOut)],
        out.Quiet env.net := by
      intro out hout
      exact CTxOut.Pays.quiet ⟨dest, by rw [List.mem_singleton.mp hout]⟩
    simp only [hvout, List.length_map]
    rw [exchangeNotary_append, exchangeNotary_append, exchangeNotary_append,
      exchangeNotary_quiet (hquiet env), exchangeNotary_quiet hpayment,
      exchangeNotary_quiet fun out hout => (hpays out hout).quiet, Option.none_or, Option.none_or,
      Option.none_or, exchangeNotary_notary (hkind.index _ hfew)]
  · intro address n hchange
    have hle := hbase.index address n hchange
    rw [List.length_append, hlength] at hle
    exact hle

structure WithdrawNames (env : WithdrawEnv) (call : WithdrawCall) (letter : String)
    (dest : CTxDestination) (nOut : ℕ) (w : Withdraw) : Prop where
  few : nOut < 100
  names : NamesPayment env call letter dest nOut w.withdrawIdXch w.rawTx
  txout : w.withdrawTxout = txoutText (env.getHash w.rawTx) nOut

theorem finishWithdraw_names (hkind : kind.Sound) {frRequested : CFractions}
    {coins vCoins : List WithdrawCoin} {draft : WithdrawDraft} {w : Withdraw}
    (hfew : vCoins.length < 100) (hdraft : draftWithdraw kind env call dest
      (vCoins.map (·.toCCoinToUse)) = some draft)
    (h : finishWithdraw kind env call frRequested coins vCoins draft = .ok w) :
    WithdrawNames env call kind.letter dest (kind.nOut vCoins.length) w := by
  have hlength : (vCoins.map (·.toCCoinToUse)).length = vCoins.length := List.length_map _
  obtain ⟨hnames, hvin, hindex⟩ := draftWithdraw_names hkind (hlength ▸ hfew) hdraft
  rw [hlength] at hnames hvin hindex
  obtain ⟨common, -, h⟩ := Run.bind_eq_ok.mp h
  split at h
  · cases h
  · obtain ⟨net, -, h⟩ := Run.bind_eq_ok.mp h
    split at h
    · cases h
    · obtain ⟨rawTx, hsign, h⟩ := Run.bind_eq_ok.mp h
      dsimp only at h
      split_ifs at h
      obtain rfl := Except.ok.inj h
      refine ⟨hkind.index _ hfew, NamesPayment.sign ?_ hsign, by rw [← hvin]; rfl⟩
      exact hnames.distribute hindex

/-- The coins are as many as the inputs that are given. -/
theorem length_withdrawCoins {coins : List WithdrawCoin} (h : withdrawCoins kind env call = .ok coins) :
    coins.length = call.txins.length := by
  obtain ⟨all, hall, h⟩ := Run.bind_eq_ok.mp h
  split_ifs at h
  obtain rfl := Except.ok.inj h
  rw [Run.length_mapM hall, List.length_zipIdx]

theorem withdrawRefused_few (h : withdrawRefused kind env call = none) :
    call.txins.length ≤ kind.maxInputs := by
  unfold withdrawRefused at h
  split_ifs at h
  omega

/-- Every successful withdraw names its payment. -/
theorem prepareWithdraw_names (hkind : kind.Sound) {w : Withdraw}
    (h : prepareWithdraw kind env call = .ok w) : ∃ dest nOut,
    env.ap.getDestination call.sAddress = some dest ∧
      WithdrawNames env call kind.letter dest nOut w := by
  obtain ⟨frRequested, hrequested, h⟩ := Run.bind_eq_ok.mp h
  obtain ⟨coins, hcoins, h⟩ := Run.bind_eq_ok.mp h
  have hfew : coins.length < 100 := by
    have hle : call.txins.length ≤ kind.maxInputs := by
      unfold frRequestedOf at hrequested
      split at hrequested
      · cases hrequested
      · rename_i hrefused
        exact withdrawRefused_few hrefused
    have hlength := length_withdrawCoins hcoins
    have hmax := hkind.few
    omega
  split at h
  · cases h
  · rename_i dest hdest
    dsimp only at h
    split at h
    · cases h
    · rename_i draft hdraft
      exact ⟨dest, _, hdest, finishWithdraw_names hkind (by rwa [List.length_mergeSort]) hdraft h⟩

end Results

/-! ## The scanner -/

section Scanner

variable {env : WithdrawEnv} {call : WithdrawCall} {letter : String} {dest : CTxDestination}
  {nOut : ℕ} {w : Withdraw}

/-- The address of a payment is the one of its destination. -/
theorem toAddress_setDestination (h : ∀ bridge address, dest ≠ .ext bridge address) :
    CScript.toAddress env.net (CScript.setDestination dest) = env.ap.toString dest := by
  simp [CScript.toAddress, WithdrawEnv.net, AddressParams.extractDestinations_setDestination h,
    List.intercalate]

def NamesPayment.Confirmed (env : WithdrawEnv) (call : WithdrawCall) (letter : String)
    (dest : CTxDestination) (rawTx : CTransaction) : Prop :=
  ∃ letter' : String, (letter' = "L" ∨ letter' = "R") ∧
    env.ap.Hash (controlText letter' rawTx.vin (env.ap.toString dest) call.nAmount) =
      env.ap.Hash (controlText letter rawTx.vin call.sAddress call.nAmount)

theorem WithdrawNames.control_iff (h : WithdrawNames env call letter dest nOut w)
    (hdest : ∀ bridge address, dest ≠ .ext bridge address) (letter' : String) :
    withdrawControl env.net env.ap.Hash letter' w.rawTx
        ⟨call.nAmount, CScript.setDestination dest⟩ = w.withdrawIdXch ↔
      env.ap.Hash (controlText letter' w.rawTx.vin (env.ap.toString dest) call.nAmount) =
        env.ap.Hash (controlText letter w.rawTx.vin call.sAddress call.nAmount) := by
  rw [withdrawControl, toAddress_setDestination hdest, h.names.id]
  exact getHex_injective.eq_iff

/-- What `IsExchangeTx` makes of a withdraw. -/
theorem WithdrawNames.isExchangeTx (h : WithdrawNames env call letter dest nOut w)
    (hdest : ∀ bridge address, dest ≠ .ext bridge address) :
    (NamesPayment.Confirmed env call letter dest w.rawTx ∧
      isExchangeTx env.net env.ap.Hash w.rawTx = .ok (true, nOut, setHex w.withdrawIdXch)) ∨
    (¬ NamesPayment.Confirmed env call letter dest w.rawTx ∧
      isExchangeTx env.net env.ap.Hash w.rawTx = .ok (true, -1, 0)) := by
  have hsplit : CString.split ':' (exchangeText nOut w.withdrawIdXch) =
      ["XCH".toList, CString.ofInt nOut, w.withdrawIdXch] := by
    rw [h.names.id]
    exact split_exchangeText
  have hlt : nOut < w.rawTx.vout.length := (List.getElem?_eq_some_iff.mp h.names.payment).1
  have hrange : ¬ ((nOut : ℤ) < 0 ∨ (w.rawTx.vout.length : ℤ) ≤ nOut) := by omega
  have hout : w.rawTx.vout.getD (nOut : ℤ).toNat default =
      ⟨call.nAmount, CScript.setDestination dest⟩ := by
    rw [Int.toNat_natCast, List.getD_eq_getElem?_getD, h.names.payment, Option.getD_some]
  have hcontrol := h.control_iff hdest
  rw [BitBay.isExchangeTx, h.names.notary]
  simp only [hsplit, exchangeControl, stoi_ofInt h.few, ok_bind, if_neg hrange, hout, hcontrol]
  by_cases hconfirmed : NamesPayment.Confirmed env call letter dest w.rawTx
  · obtain ⟨letter', hletter, hhash⟩ := hconfirmed
    refine .inl ⟨⟨letter', hletter, hhash⟩, if_pos ?_⟩
    rcases hletter with rfl | rfl
    · exact .inl hhash
    · exact .inr hhash
  · refine .inr ⟨hconfirmed, if_neg ?_⟩
    rintro (hhash | hhash)
    · exact hconfirmed ⟨"L", .inl rfl, hhash⟩
    · exact hconfirmed ⟨"R", .inr rfl, hhash⟩

def Withdraw.Recognised (env : WithdrawEnv) (call : WithdrawCall) (w : Withdraw) : Prop :=
  ∃ (nOut : ℕ) (wid : UInt256) (dest : CTxDestination),
    isExchangeTx env.net env.ap.Hash w.rawTx = .ok (true, nOut, wid) ∧
      w.withdrawTxout = txoutText (env.getHash w.rawTx) nOut ∧ getHex wid = w.withdrawIdXch ∧
      env.ap.getDestination call.sAddress = some dest ∧
      w.rawTx.vout[nOut]? = some ⟨call.nAmount, CScript.setDestination dest⟩

theorem WithdrawNames.recognised_iff (h : WithdrawNames env call letter dest nOut w)
    (hdest : env.ap.getDestination call.sAddress = some dest) :
    w.Recognised env call ↔ NamesPayment.Confirmed env call letter dest w.rawTx := by
  have hext := (AddressParams.toString_getDestination hdest).2
  constructor
  · rintro ⟨n, wid, -, hscan, -⟩
    rcases h.isExchangeTx hext with ⟨hconfirmed, -⟩ | ⟨-, hfailed⟩
    · exact hconfirmed
    · rw [hfailed] at hscan
      simp only [Except.ok.injEq, Prod.mk.injEq] at hscan
      omega
  · intro hconfirmed
    rcases h.isExchangeTx hext with ⟨-, hscan⟩ | ⟨hnot, -⟩
    · refine ⟨nOut, _, dest, hscan, h.txout, ?_, hdest, h.names.payment⟩
      rw [h.names.id, setHex_getHex]
    · exact absurd hconfirmed hnot

/-- Of the two addresses and the two letters, no two texts have one hash. -/
def ControlsApart (env : WithdrawEnv) (call : WithdrawCall) (w : Withdraw) : Prop :=
  ∀ dest, env.ap.getDestination call.sAddress = some dest →
    ∀ letter letter' : String, (letter = "L" ∨ letter = "R") → (letter' = "L" ∨ letter' = "R") →
      env.ap.Hash (controlText letter' w.rawTx.vin (env.ap.toString dest) call.nAmount) =
        env.ap.Hash (controlText letter w.rawTx.vin call.sAddress call.nAmount) →
      controlText letter' w.rawTx.vin (env.ap.toString dest) call.nAmount =
        controlText letter w.rawTx.vin call.sAddress call.nAmount

/-- The text of an id contains the address. -/
theorem controlText_injective {letter letter' : String} {vin : List CTxIn} {s s' : CString}
    {nAmount : ℤ} (hletter : letter = "L" ∨ letter = "R") (hletter' : letter' = "L" ∨ letter' = "R")
    (h : controlText letter' vin s' nAmount = controlText letter vin s nAmount) : s' = s := by
  have hlength : (streamString letter'.toList).length = (streamString letter.toList).length := by
    rcases hletter with rfl | rfl <;> rcases hletter' with rfl | rfl <;> rfl
  have hrest := (List.append_inj (List.append_cancel_left h) hlength).2
  exact streamString_inj (List.append_cancel_right hrest)

/-- An address in its own text has digits only. -/
theorem base58Text_eq_iff {s : CString} : base58Text s = s ↔ ∀ c ∈ s, (base58Digit c).isSome := by
  constructor
  · intro h c hc
    rw [← h] at hc
    exact List.mem_takeWhile_imp (p := fun c => (base58Digit c).isSome) hc
  · intro h
    have hlt : ∀ d ∈ s.filterMap base58Digit, d < 58 := by
      intro d hd
      obtain ⟨c, -, hc⟩ := List.mem_filterMap.mp hd
      exact (base58Char_digit hc).2
    have htext := (base58Text_map hlt).1
    rwa [map_base58Digit h] at htext

/-- The withdraw is recognised when its address has been given in its own text. -/
theorem WithdrawNames.recognised_of_digits (h : WithdrawNames env call letter dest nOut w)
    (hletter : letter = "L" ∨ letter = "R")
    (hdest : env.ap.getDestination call.sAddress = some dest)
    (hdigits : ∀ c ∈ call.sAddress, (base58Digit c).isSome) : w.Recognised env call := by
  have hsame : env.ap.toString dest = call.sAddress :=
    (AddressParams.toString_getDestination hdest).1.trans (base58Text_eq_iff.mpr hdigits)
  exact (h.recognised_iff hdest).mpr ⟨letter, hletter, by rw [hsame]⟩

/-- With another text for its address the withdraw is not recognised. -/
theorem WithdrawNames.digits_of_recognised (h : WithdrawNames env call letter dest nOut w)
    (hletter : letter = "L" ∨ letter = "R")
    (hdest : env.ap.getDestination call.sAddress = some dest) (hapart : ControlsApart env call w)
    (hrecognised : w.Recognised env call) : ∀ c ∈ call.sAddress, (base58Digit c).isSome := by
  obtain ⟨letter', hletter', hhash⟩ := (h.recognised_iff hdest).mp hrecognised
  have hsame : env.ap.toString dest = call.sAddress :=
    controlText_injective hletter hletter' (hapart dest hdest _ _ hletter hletter' hhash)
  have htext := (AddressParams.toString_getDestination hdest).1
  exact base58Text_eq_iff.mp (htext.symm.trans hsame)

/-- An id comes from the output that is named, and from all inputs. -/
theorem exchangeControl_wid {net : Params} {Hash : CString → UInt256} {tx : CTransaction}
    {vOutputArgs : List CString} {fExchange : Bool} {nOut : ℤ} {wid : UInt256}
    (h : exchangeControl net Hash tx vOutputArgs = .ok (fExchange, nOut, wid)) (hwid : wid ≠ 0) :
    ∃ (n : ℕ) (out : CTxOut) (letter : String), nOut = n ∧ tx.vout[n]? = some out ∧
      (letter = "L" ∨ letter = "R") ∧
      wid = Hash (controlText letter tx.vin (out.scriptPubKey.toAddress net) out.nValue) := by
  have hnone {b : Bool} {v : ℤ} (hok : (Except.ok (b, v, 0) : Except StdException _) =
      .ok (fExchange, nOut, wid)) : False := by
    simp only [Except.ok.injEq, Prod.mk.injEq] at hok
    exact hwid hok.2.2.symm
  match vOutputArgs, h with
  | [], h => exact (hnone h).elim
  | [_], h => exact (hnone h).elim
  | _ :: sOut :: rest, h =>
    obtain ⟨n, -, h⟩ := Run.bind_eq_ok.mp h
    split_ifs at h with hrange
    · exact (hnone h).elim
    · cases rest with
      | nil => exact (hnone h).elim
      | cons sControlHash more =>
        dsimp only at h
        split_ifs at h with hcontrol
        · have hlt : n.toNat < tx.vout.length := by omega
          have hout : tx.vout[n.toNat]? = some (tx.vout.getD n.toNat default) := by
            rw [List.getD_eq_getElem?_getD, List.getElem?_eq_getElem hlt, Option.getD_some]
          simp only [pure, Except.pure, Except.ok.injEq, Prod.mk.injEq] at h
          obtain ⟨-, rfl, rfl⟩ := h
          rcases hcontrol with hliquid | hreserve
          · refine ⟨_, _, "L", by omega, hout, .inl rfl, ?_⟩
            rw [← hliquid]
            exact setHex_getHex _
          · refine ⟨_, _, "R", by omega, hout, .inr rfl, ?_⟩
            rw [← hreserve]
            exact setHex_getHex _
        · exact (hnone h).elim

theorem isExchangeTx_wid {net : Params} {Hash : CString → UInt256} {tx : CTransaction}
    {fExchange : Bool} {nOut : ℤ} {wid : UInt256}
    (h : isExchangeTx net Hash tx = .ok (fExchange, nOut, wid)) (hwid : wid ≠ 0) :
    ∃ (n : ℕ) (out : CTxOut) (letter : String), nOut = n ∧ tx.vout[n]? = some out ∧
      (letter = "L" ∨ letter = "R") ∧
      wid = Hash (controlText letter tx.vin (out.scriptPubKey.toAddress net) out.nValue) := by
  rw [isExchangeTx] at h
  split at h
  · simp only [pure, Except.pure, Except.ok.injEq, Prod.mk.injEq] at h
    exact absurd h.2.2.symm hwid
  · exact exchangeControl_wid h hwid

theorem prepareWithdraw_recognised {kind : WithdrawKind} (hkind : kind.Sound)
    (h : prepareWithdraw kind env call = .ok w) :
    ((∀ c ∈ call.sAddress, (base58Digit c).isSome) → w.Recognised env call) ∧
      (ControlsApart env call w → w.Recognised env call →
        ∀ c ∈ call.sAddress, (base58Digit c).isSome) := by
  obtain ⟨dest, nOut, hdest, hnames⟩ := prepareWithdraw_names hkind h
  exact ⟨hnames.recognised_of_digits hkind.letter hdest,
    hnames.digits_of_recognised hkind.letter hdest⟩

end Scanner

/-- A withdraw is recognised exactly when its address is given in digits alone, and an id that is
found is the one of the output that is named. -/
theorem withdraw_recognised_iff (env : WithdrawEnv) (call : WithdrawCall) (w : Withdraw)
    (net : Params) (Hash : CString → UInt256) (tx : CTransaction) (fExchange : Bool) (nOut : ℤ)
    (wid : UInt256) :
    ((prepareliquidwithdraw env call = .ok w ∨ preparereservewithdraw env call = .ok w) →
      ((∀ c ∈ call.sAddress, (base58Digit c).isSome) → w.Recognised env call) ∧
        (ControlsApart env call w → w.Recognised env call →
          ∀ c ∈ call.sAddress, (base58Digit c).isSome)) ∧
    (isExchangeTx net Hash tx = .ok (fExchange, nOut, wid) → wid ≠ 0 →
      ∃ (n : ℕ) (out : CTxOut) (letter : String), nOut = n ∧ tx.vout[n]? = some out ∧
        (letter = "L" ∨ letter = "R") ∧
        wid = Hash (controlText letter tx.vin (out.scriptPubKey.toAddress net) out.nValue)) := by
  refine ⟨?_, isExchangeTx_wid⟩
  rintro (hliquid | hreserve)
  · exact prepareWithdraw_recognised liquidWithdraw_sound hliquid
  · exact prepareWithdraw_recognised reserveWithdraw_sound hreserve

/-! ## An address with a space in front -/

def textMarks (text : CString) : ℕ := text.count 'R' + 2 * text.count ' '

theorem textMarks_append (a b : CString) : textMarks (a ++ b) = textMarks a + textMarks b := by
  simp only [textMarks, List.count_append]
  ring

def markedPrefixes : AddressParams where
  pubkeyAddress := 25
  scriptAddress := 85
  Hash text := BitVec.ofNat 256 (1 + textMarks text)
  Hash160 _ := 0
  prefixes_ne := by decide

def withdrawNode : WithdrawEnv where
  ap := markedPrefixes
  pegFrozenTime := 100
  pegVFrozenTime := 400
  getHash tx := BitVec.ofNat 256 tx.vout.length
  nPegInterval := 200
  readPegData _ := {}
  writePegData _ := []
  extKeyFailure _ := none
  signSignature _ _ _ _ := some []

def withdrawLevel : CPegLevel := { nCycle := 1, nBuffer := 0 }

def liquidAccount (nLiquid : ℤ) : CPegData where
  fractions := .singleColumn 5 nLiquid
  peglevel := withdrawLevel
  nLiquid := nLiquid

/-- A withdraw of what is two more than the fee, from a coin of another address. -/
def smallWithdraw (sAddress : CString) : WithdrawCall where
  txins :=
    let pdTxin := liquidAccount 1000003
    let sReturnAddr := hexStr (CScript.setDestination (.keyID 1))
    [("01:0".toList, { pdTxin with fractions := { pdTxin.fractions with sReturnAddr } }, ['k'])]
  pdBalance := liquidAccount 1000002
  pdExchange := liquidAccount 1000002
  pdPegShift := {}
  nAmountWithFee := 1000002
  sAddress := sAddress
  peglevel_exchange := withdrawLevel
  nTime := 0
  nTimeCommon := 0
  nTimeNet := 0

def ownText : CString := markedPrefixes.toString (.keyID 2)

theorem ownText_destination : markedPrefixes.getDestination ownText = some (.keyID 2) :=
  AddressParams.getDestination_keyID 2

theorem spacedText_destination : markedPrefixes.getDestination (' ' :: ownText) = some (.keyID 2) :=
  (AddressParams.getDestination_space (by decide) ownText).trans ownText_destination

theorem ownText_withdrawn :
    (prepareliquidwithdraw withdrawNode (smallWithdraw ownText)).isOk = true := by decide +kernel

theorem spacedText_withdrawn :
    (prepareliquidwithdraw withdrawNode (smallWithdraw (' ' :: ownText))).isOk = true := by
  decide +kernel

/-- Two texts of one withdraw have one hash only when letter and address add the same marks. -/
theorem hash_controlText_eq {letter letter' : String} {vin : List CTxIn} {a b : CString} {n : ℤ}
    (h : markedPrefixes.Hash (controlText letter' vin a n) =
      markedPrefixes.Hash (controlText letter vin b n)) :
    BitVec.ofNat 256 (textMarks (streamString letter'.toList) + textMarks (streamString a)) =
      BitVec.ofNat 256 (textMarks (streamString letter.toList) + textMarks (streamString b)) := by
  have hsplit (l : String) (s : CString) : markedPrefixes.Hash (controlText l vin s n) =
      BitVec.ofNat 256 (textMarks (streamString l.toList) + textMarks (streamString s)) +
        BitVec.ofNat 256 (1 + textMarks (prevoutStream vin) + textMarks (streamInt64 n)) := by
    rw [← BitVec.ofNat_add]
    simp only [markedPrefixes, controlText, textMarks_append]
    congr 1
    ring
  rw [hsplit, hsplit] at h
  exact (BitVec.add_left_inj _).mp h

theorem ownText_apart (w : Withdraw) : ControlsApart withdrawNode (smallWithdraw ownText) w := by
  intro dest hdest letter letter' hletter hletter' h
  obtain rfl := Option.some.inj (ownText_destination.symm.trans hdest)
  have hmarks := hash_controlText_eq h
  have hne : BitVec.ofNat 256 (0 + textMarks (streamString ownText)) ≠
      BitVec.ofNat 256 (1 + textMarks (streamString ownText)) := by
    rw [BitVec.ofNat_add, BitVec.ofNat_add]
    exact fun hsame => absurd ((BitVec.add_left_inj _).mp hsame) (by decide)
  rcases hletter with rfl | rfl <;> rcases hletter' with rfl | rfl
  · rfl
  · exact absurd hmarks.symm hne
  · exact absurd hmarks hne
  · rfl

/-- A payment of 5 without inputs, with its notary. -/
def ownPayment : CTransaction where
  vin := []
  vout := [⟨5, CScript.setDestination (.keyID 2)⟩, ⟨1, pushNotaryText (exchangeText 0 (getHex 1))⟩]

theorem ownPayment_id : isExchangeTx withdrawNode.net markedPrefixes.Hash ownPayment =
    .ok (true, 0, 1) := by
  decide +kernel

theorem ownText_recognised :
    (∃ w, prepareliquidwithdraw withdrawNode (smallWithdraw ownText) = .ok w ∧
      w.Recognised withdrawNode (smallWithdraw ownText) ∧
      ∀ c ∈ (smallWithdraw ownText).sAddress, (base58Digit c).isSome) ∧
    ∃ (n : ℕ) (out : CTxOut) (letter : String), (0 : ℤ) = n ∧ ownPayment.vout[n]? = some out ∧
      (letter = "L" ∨ letter = "R") ∧ 1 = markedPrefixes.Hash (controlText letter ownPayment.vin
        (out.scriptPubKey.toAddress withdrawNode.net) out.nValue) := by
  obtain ⟨w, hw⟩ := Run.exists_of_isOk ownText_withdrawn
  have hdigits : ∀ c ∈ (smallWithdraw ownText).sAddress, (base58Digit c).isSome :=
    fun _ hc => isSome_of_mem_encodeBase58 hc
  obtain ⟨hbuilt, hscanned⟩ := withdraw_recognised_iff withdrawNode (smallWithdraw ownText) w
    withdrawNode.net markedPrefixes.Hash ownPayment true 0 1
  obtain ⟨hfound, hwritten⟩ := hbuilt (.inl hw)
  have hrecognised := hfound hdigits
  exact ⟨⟨w, hw, hrecognised, hwritten (ownText_apart w) hrecognised⟩,
    hscanned ownPayment_id (by decide)⟩

/-- A space in front of the address is let pass, and the withdraw is not recognised. -/
theorem spacedText_missed : ∃ w,
    prepareliquidwithdraw withdrawNode (smallWithdraw (' ' :: ownText)) = .ok w ∧
      ¬ w.Recognised withdrawNode (smallWithdraw (' ' :: ownText)) := by
  obtain ⟨w, hw⟩ := Run.exists_of_isOk spacedText_withdrawn
  obtain ⟨dest, nOut, hdest, hnames⟩ := prepareWithdraw_names liquidWithdraw_sound hw
  obtain rfl := Option.some.inj (spacedText_destination.symm.trans hdest)
  refine ⟨w, hw, fun hrecognised => ?_⟩
  obtain ⟨letter', hletter', hhash⟩ := (hnames.recognised_iff hdest).mp hrecognised
  have hmarks := hash_controlText_eq hhash
  rcases hletter' with rfl | rfl
  · revert hmarks
    decide +kernel
  · revert hmarks
    decide +kernel

end BitBay
