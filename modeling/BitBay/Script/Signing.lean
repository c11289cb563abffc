import BitBay.Script.Payments

/-!
# Signing

`SignSignature` finds out what the output of an input pays to, signs with the keys of a store
and tries the script that it has put together. It is done with a standard output exactly if the
store has as many of the keys as the output asks for. A script that is not complete yet keeps
the signatures that it has.
-/
namespace BitBay

open List

/-! ## Keys -/

structure SignParams (CKey : Type) extends ScriptParams where
  getPubKey : CKey → Vchtype

variable {CKey : Type}

/-- The second number of a signature or its opposite, whichever is at most half the order. -/
def lowS (s : ℕ) : ℕ := if curveOrder / 2 < s then curveOrder - s else s

/-- `CKey::Sign`, with the numbers that `ECDSA_do_sign` finds. -/
def keySign (ecdsaSign : CKey → UInt256 → Option (ℕ × ℕ)) (key : CKey) (hash : UInt256) :
    Option Vchtype :=
  (ecdsaSign key hash).map fun (r, s) => derSignature r (lowS s)

/-- Keys by the hashes of their public keys, and scripts by their hashes. -/
structure CBasicKeyStore (kp : SignParams CKey) where
  mapKeys : UInt160 → Option CKey
  mapScripts : UInt160 → Option CScript
  keyID : ∀ id key, mapKeys id = some key → kp.pubKeyID (kp.getPubKey key) = id
  scriptID : ∀ id script, mapScripts id = some script →
    kp.Hash160 script = id ∧ script.length ≤ MAX_SCRIPT_ELEMENT_SIZE

namespace CBasicKeyStore

variable {kp : SignParams CKey}

def empty : CBasicKeyStore kp where
  mapKeys _ := none
  mapScripts _ := none
  keyID _ _ h := by cases h
  scriptID _ _ h := by cases h

def addKey (store : CBasicKeyStore kp) (key : CKey) : CBasicKeyStore kp where
  mapKeys := Function.update store.mapKeys (kp.pubKeyID (kp.getPubKey key)) (some key)
  mapScripts := store.mapScripts
  keyID id key' h := by
    rw [Function.update_apply] at h
    split_ifs at h with hid
    · cases h
      exact hid.symm
    · exact store.keyID id key' h
  scriptID := store.scriptID

def addCScript (store : CBasicKeyStore kp) (redeemScript : CScript) : CBasicKeyStore kp :=
  if h : MAX_SCRIPT_ELEMENT_SIZE < redeemScript.length then store
  else
    { store with
      mapScripts := Function.update store.mapScripts (kp.Hash160 redeemScript) (some redeemScript)
      scriptID := fun id script hscript => by
        rw [Function.update_apply] at hscript
        split_ifs at hscript with hid
        · cases hscript
          exact ⟨hid.symm, not_lt.mp h⟩
        · exact store.scriptID id script hscript }

end CBasicKeyStore

/-- A store with the random numbers of one session, and the kind of hash that it signs. -/
structure Signer (kp : SignParams CKey) where
  store : CBasicKeyStore kp
  /-- `ECDSA_do_sign` -/
  ecdsaSign : CKey → UInt256 → Option (ℕ × ℕ)
  nHashType : ℕ

def CTransaction.setScriptSig (tx : CTransaction) (nIn : ℕ) (s : CScript) : CTransaction :=
  { tx with vin := tx.vin.modify nIn fun txin => { txin with scriptSig := s } }

namespace Signer

variable {kp : SignParams CKey} (signer : Signer kp)

/-! ## Solving -/

def sign1 (address : UInt160) (hash : UInt256) (scriptSigRet : CScript) : Option CScript :=
  match signer.store.mapKeys address with
  | none => none
  | some key =>
    match keySign signer.ecdsaSign key hash with
    | none => none
    | some vchSig => some (scriptSigRet ++ pushVch (vchSig ++ [UInt8.ofNat signer.nHashType]))

/-- The loop of `SignN`: the script and how many keys have signed. -/
def signLoop (nRequired : ℕ) (hash : UInt256) :
    List Vchtype → ℕ → CScript → CScript × ℕ
  | [], nSigned, scriptSig => (scriptSig, nSigned)
  | pubkey :: rest, nSigned, scriptSig =>
    if nSigned < nRequired then
      match signer.sign1 (kp.pubKeyID pubkey) hash scriptSig with
      | none => signLoop nRequired hash rest nSigned scriptSig
      | some scriptSig => signLoop nRequired hash rest (nSigned + 1) scriptSig
    else (scriptSig, nSigned)

def signN (multisigdata : List Vchtype) (hash : UInt256) (scriptSigRet : CScript) :
    CScript × Bool :=
  let nRequired := ((multisigdata.headD []).headD 0).toNat
  let r := signer.signLoop nRequired hash (multisigdata.drop 1).dropLast 0 scriptSigRet
  (r.1, r.2 = nRequired)

/-- `Solver` of a key store: the script that it has by then, and the kind of a script that it has
solved. -/
def solver (scriptPubKey : CScript) (hash : UInt256) : CScript × Option TxnOutType :=
  match BitBay.solver scriptPubKey with
  | none => ([], none)
  | some (.TX_NULL_DATA, _) => ([], none)
  | some (.TX_PUBKEY, vSolutions) =>
    match signer.sign1 (kp.pubKeyID (vSolutions.headD [])) hash [] with
    | none => ([], none)
    | some scriptSig => (scriptSig, some .TX_PUBKEY)
  | some (.TX_PUBKEYHASH, vSolutions) =>
    let keyID := UInt160.ofBytes (vSolutions.headD [])
    match signer.sign1 keyID hash [] with
    | none => ([], none)
    | some scriptSig =>
      (scriptSig ++ pushVch ((signer.store.mapKeys keyID).elim [] kp.getPubKey),
        some .TX_PUBKEYHASH)
  | some (.TX_SCRIPTHASH, vSolutions) =>
    match signer.store.mapScripts (UInt160.ofBytes (vSolutions.headD [])) with
    | none => ([], none)
    | some script => (script, some .TX_SCRIPTHASH)
  | some (.TX_MULTISIG, vSolutions) =>
    let r := signer.signN vSolutions hash [0]
    (r.1, if r.2 then some .TX_MULTISIG else none)

def signSignature (fromPubKey : CScript) (txTo : CTransaction) (nIn : ℕ) : CTransaction × Bool :=
  let hash := signatureHash kp.toScriptParams fromPubKey txTo nIn signer.nHashType
  match signer.solver fromPubKey hash with
  | (scriptSig, none) => (txTo.setScriptSig nIn scriptSig, false)
  | (subscript, some .TX_SCRIPTHASH) =>
    let txTo := txTo.setScriptSig nIn subscript
    let hash2 := signatureHash kp.toScriptParams subscript txTo nIn signer.nHashType
    let r := signer.solver subscript hash2
    let scriptSig := r.1 ++ pushVch subscript
    let txTo := txTo.setScriptSig nIn scriptSig
    if r.2 = none ∨ r.2 = some .TX_SCRIPTHASH then (txTo, false)
    else
      (txTo, (verifyScript kp.toScriptParams scriptSig fromPubKey
        ⟨txTo, nIn, STANDARD_SCRIPT_VERIFY_FLAGS, 0⟩).isSome)
  | (scriptSig, some _) =>
    let txTo := txTo.setScriptSig nIn scriptSig
    (txTo, (verifyScript kp.toScriptParams scriptSig fromPubKey
      ⟨txTo, nIn, STANDARD_SCRIPT_VERIFY_FLAGS, 0⟩).isSome)

end Signer

/-! ## Signatures of a store -/

def mapSigHashValues : List ℕ :=
  [SIGHASH_ALL, SIGHASH_ALL + SIGHASH_ANYONECANPAY, SIGHASH_NONE,
   SIGHASH_NONE + SIGHASH_ANYONECANPAY, SIGHASH_SINGLE, SIGHASH_SINGLE + SIGHASH_ANYONECANPAY]

namespace Signer

variable {kp : SignParams CKey}

def Signs (signer : Signer kp) (txTo : CTransaction) (nIn : ℕ) (code : CScript)
    (vchSig vchPubKey : Vchtype) : Prop :=
  ∃ key, kp.getPubKey key = vchPubKey ∧ ∃ r s,
    signer.ecdsaSign key (signatureHash kp.toScriptParams code txTo nIn signer.nHashType) =
      some (r, s) ∧
    vchSig = derSignature r (lowS s) ++ [UInt8.ofNat signer.nHashType]

/-- What is known of the curve, of hashes and of the stores for an output. -/
structure Lawful (signer : Signer kp) (o : StandardOutput) : Prop where
  hashType : signer.nHashType ∈ mapSigHashValues
  isSome : ∀ key hash, (signer.ecdsaSign key hash).isSome = true
  range : ∀ key hash r s, signer.ecdsaSign key hash = some (r, s) →
    r < curveOrder ∧ 0 < s ∧ s < curveOrder
  verify : ∀ key hash r s, signer.ecdsaSign key hash = some (r, s) →
    kp.verify (kp.getPubKey key) hash (derSignature r (lowS s)) = true
  /-- No other key of the output has the signature. -/
  own : ∀ key hash r s, signer.ecdsaSign key hash = some (r, s) →
    ∀ vchPubKey ∈ o.payment.keys,
      kp.verify vchPubKey hash (derSignature r (lowS s)) = true → vchPubKey = kp.getPubKey key
  /-- The hashes of keys and scripts do not collide with those of the output. -/
  keyID : ∀ key, ∀ vchPubKey ∈ o.payment.keys,
    kp.pubKeyID (kp.getPubKey key) = kp.pubKeyID vchPubKey → kp.getPubKey key = vchPubKey
  scriptID : ∀ script,
    signer.store.mapScripts (kp.Hash160 (o.payment.script kp.toScriptParams)) = some script →
      script = o.payment.script kp.toScriptParams
  /-- A signature is not the hash of a key. -/
  ne_id : ∀ key hash r s, signer.ecdsaSign key hash = some (r, s) →
    ∀ vchPubKey ∈ o.payment.keys,
      derSignature r (lowS s) ++ [UInt8.ofNat signer.nHashType] ≠ (kp.Hash160 vchPubKey).toBytes

variable {signer : Signer kp} {o : StandardOutput} {tx : CTransaction} {nIn : ℕ}

theorem lowS_pos {s : ℕ} (hpos : 0 < s) (h : s < curveOrder) : 0 < lowS s := by
  unfold lowS
  split_ifs <;> omega

theorem lowS_le {s : ℕ} : lowS s ≤ curveOrder / 2 := by
  have hodd : curveOrder = curveOrder / 2 + curveOrder / 2 + 1 := by decide
  unfold lowS
  split_ifs <;> omega

theorem mapSigHashValues_spec {n : ℕ} (h : n ∈ mapSigHashValues) :
    n < 256 ∧ SIGHASH_ALL ≤ n % SIGHASH_ANYONECANPAY ∧ n % SIGHASH_ANYONECANPAY ≤ SIGHASH_SINGLE := by
  have hall : ∀ n ∈ mapSigHashValues, n < 256 ∧ SIGHASH_ALL ≤ n % SIGHASH_ANYONECANPAY ∧
      n % SIGHASH_ANYONECANPAY ≤ SIGHASH_SINGLE := by decide
  exact hall n h

theorem length_signature_le {r s : ℕ} (hr : r < curveOrder) (nHashType : UInt8) :
    (derSignature r (lowS s) ++ [nHashType]).length ≤ 73 := by
  have hs : lowS s ≤ curveOrder / 2 := lowS_le
  have hR := BigEndian.length_signedBytes_le (n := r) (k := 32)
    (hr.trans_le (by decide))
  have hS := BigEndian.length_signedBytes_le (n := lowS s) (k := 31)
    (hs.trans_lt (by decide))
  simp only [List.length_append, length_derSignature, length_singleton]
  omega

theorem isValidPubKey_of_encoding {vchPubKey : Vchtype} (h : checkPubKeyEncoding vchPubKey = true) :
    isValidPubKey vchPubKey = true := by
  have hne := (Payment.head_of_checkPubKeyEncoding h).1
  simp only [checkPubKeyEncoding, isCompressedOrUncompressedPubKey] at h
  split_ifs at h <;> simp_all [isValidPubKey]

/-- A signature of the signer passes the checks. -/
theorem Lawful.signatureOf (h : signer.Lawful o) {code : CScript} {vchSig vchPubKey : Vchtype}
    (hsign : signer.Signs tx nIn code vchSig vchPubKey)
    (hkey : checkPubKeyEncoding vchPubKey = true) (flags : ℕ) :
    SignatureOf kp.toScriptParams ⟨tx, nIn, flags, 0⟩ code vchSig vchPubKey := by
  obtain ⟨key, rfl, r, s, hrs, rfl⟩ := hsign
  obtain ⟨hr, hs, hlt⟩ := h.range _ _ _ _ hrs
  obtain ⟨hbyte, htype⟩ := mapSigHashValues_spec h.hashType
  have hsize : (UInt8.ofNat signer.nHashType).toNat = signer.nHashType :=
    UInt8.toNat_ofNat_of_lt' hbyte
  have hencoding : checkSignatureEncoding
      (derSignature r (lowS s) ++ [UInt8.ofNat signer.nHashType]) flags = true :=
    (checkSignatureEncoding_iff flags _).mpr (.inr ⟨r, lowS s, UInt8.ofNat signer.nHashType, rfl,
      length_signature_le hr _, lowS_pos hs hlt, lowS_le, .inr (by rwa [hsize])⟩)
  simp [SignatureOf, signatureOk, encodingOk, hencoding, hkey, checkSig,
    isValidPubKey_of_encoding hkey, hsize, h.verify _ _ _ _ hrs]

/-- And of the keys of the output only its own one has it. -/
theorem Lawful.eq_of_checkSig (h : signer.Lawful o) {code : CScript}
    {vchSig vchPubKey vchPubKey' : Vchtype} (hsign : signer.Signs tx nIn code vchSig vchPubKey)
    (hmem : vchPubKey' ∈ o.payment.keys)
    (hcheck : checkSig kp.toScriptParams vchSig vchPubKey' code tx nIn 0 = true) :
    vchPubKey' = vchPubKey := by
  obtain ⟨key, rfl, r, s, hrs, rfl⟩ := hsign
  obtain ⟨hbyte, -⟩ := mapSigHashValues_spec h.hashType
  have hsize : (UInt8.ofNat signer.nHashType).toNat = signer.nHashType :=
    UInt8.toNat_ofNat_of_lt' hbyte
  refine h.own _ _ _ _ hrs _ hmem ?_
  simp only [checkSig] at hcheck
  split_ifs at hcheck
  simpa [hsize] using hcheck

/-! ## The script of a payment -/

def hasKey (signer : Signer kp) (vchPubKey : Vchtype) : Bool :=
  (signer.store.mapKeys (kp.pubKeyID vchPubKey)).isSome

variable (tx nIn) in
theorem Lawful.sign1_eq (h : signer.Lawful o) {vchPubKey : Vchtype}
    (hmem : vchPubKey ∈ o.payment.keys) (code scriptSig : CScript) :
    signer.sign1 (kp.pubKeyID vchPubKey)
        (signatureHash kp.toScriptParams code tx nIn signer.nHashType) scriptSig = none ∧
      signer.hasKey vchPubKey = false ∨
    ∃ vchSig, signer.sign1 (kp.pubKeyID vchPubKey)
        (signatureHash kp.toScriptParams code tx nIn signer.nHashType) scriptSig =
          some (scriptSig ++ pushVch vchSig) ∧
      signer.hasKey vchPubKey = true ∧ signer.Signs tx nIn code vchSig vchPubKey := by
  cases hkey : signer.store.mapKeys (kp.pubKeyID vchPubKey) with
  | none => exact .inl ⟨by simp [sign1, hkey], by simp [hasKey, hkey]⟩
  | some key =>
    obtain ⟨⟨r, s⟩, hrs⟩ := Option.isSome_iff_exists.mp (h.isSome key
      (signatureHash kp.toScriptParams code tx nIn signer.nHashType))
    refine .inr ⟨_, by simp [sign1, hkey, keySign, hrs], by simp [hasKey, hkey], key, ?_, r, s,
      hrs, rfl⟩
    exact h.keyID key vchPubKey hmem (signer.store.keyID _ _ hkey)

variable (tx nIn) in
/-- The loop over the keys takes the first keys that the store has. -/
theorem Lawful.signLoop_eq (h : signer.Lawful o) {keys : List Vchtype}
    (hkeys : ∀ key ∈ keys, key ∈ o.payment.keys) (code scriptSig : CScript)
    (nRequired nSigned : ℕ) :
    ∃ vchSigs, Forall₂ (signer.Signs tx nIn code) vchSigs
        ((keys.filter signer.hasKey).take (nRequired - nSigned)) ∧
      signer.signLoop nRequired
        (signatureHash kp.toScriptParams code tx nIn signer.nHashType) keys nSigned scriptSig =
          (scriptSig ++ pushAll vchSigs, nSigned + vchSigs.length) := by
  induction keys generalizing nSigned scriptSig with
  | nil => exact ⟨[], by simp, by simp [signLoop, pushAll]⟩
  | cons key keys ih =>
    have hrest : ∀ k ∈ keys, k ∈ o.payment.keys := fun k hk => hkeys k (mem_cons_of_mem _ hk)
    by_cases hlt : nSigned < nRequired
    · rcases h.sign1_eq tx nIn (hkeys key mem_cons_self) code scriptSig with
        ⟨hnone, hhas⟩ | ⟨vchSig, hsome, hhas, hsign⟩
      · obtain ⟨vchSigs, hsigs, hloop⟩ := ih hrest scriptSig nSigned
        exact ⟨vchSigs, by simpa [hhas] using hsigs, by simp [signLoop, hlt, hnone, hloop]⟩
      · obtain ⟨vchSigs, hsigs, hloop⟩ := ih hrest (scriptSig ++ pushVch vchSig) (nSigned + 1)
        refine ⟨vchSig :: vchSigs, ?_, ?_⟩
        · obtain ⟨k, hk⟩ := Nat.exists_eq_add_of_lt hlt
          rw [filter_cons_of_pos hhas, show nRequired - nSigned = k + 1 by omega, take_succ_cons]
          rw [show nRequired - (nSigned + 1) = k by omega] at hsigs
          exact .cons hsign hsigs
        · simp only [signLoop, hlt, if_true, hsome, hloop, pushAll, flatMap_cons, append_assoc,
            length_cons]
          rw [Nat.add_right_comm, Nat.add_assoc]
    · refine ⟨[], ?_, by simp [signLoop, hlt, pushAll]⟩
      rw [show nRequired - nSigned = 0 by omega]
      exact .nil

theorem pubKeyID_of_encoding {vchPubKey : Vchtype} (h : checkPubKeyEncoding vchPubKey = true) :
    kp.pubKeyID vchPubKey = kp.Hash160 vchPubKey := by
  simp only [checkPubKeyEncoding, isCompressedOrUncompressedPubKey] at h
  split_ifs at h <;> simp_all [AddressParams.pubKeyID]

variable (tx nIn) in
/-- `Solver` signs with the first keys of the payment that the store has. -/
theorem Lawful.solver_eq (h : signer.Lawful o) (hp : o.payment.Valid) :
    ∃ vchSigs values, o.payment.IsSpend vchSigs values ∧
      Forall₂ (signer.Signs tx nIn (o.payment.script kp.toScriptParams)) vchSigs
        ((o.payment.keys.filter signer.hasKey).take o.payment.nRequired) ∧
      signer.solver (o.payment.script kp.toScriptParams)
          (signatureHash kp.toScriptParams (o.payment.script kp.toScriptParams) tx nIn
            signer.nHashType) =
        (pushAll values, if vchSigs.length = o.payment.nRequired then
          some (o.payment.solution kp.toScriptParams).1 else none) := by
  have hsolver := @Payment.solver_script kp.toScriptParams o.payment hp
  obtain ⟨payment, fScriptHash⟩ := o
  cases payment with
  | pubKey key =>
    rcases h.sign1_eq tx nIn (show key ∈ [key] from mem_cons_self)
      ((Payment.pubKey key).script kp.toScriptParams) [] with
      ⟨hnone, hhas⟩ | ⟨vchSig, hsome, hhas, hsign⟩
    · refine ⟨[], [], rfl, ?_, ?_⟩
      · simp [Payment.keys, hhas]
      · simp [solver, hsolver, Payment.solution, hnone, Payment.nRequired, pushAll]
    · refine ⟨[vchSig], [vchSig], rfl, ?_, ?_⟩
      · simpa [Payment.keys, hhas, Payment.nRequired] using hsign
      · simp [solver, hsolver, Payment.solution, hsome, Payment.nRequired, pushAll]
  | keyID key =>
    have hkey : checkPubKeyEncoding key = true := hp.encoding key mem_cons_self
    rcases h.sign1_eq tx nIn (show key ∈ [key] from mem_cons_self)
      ((Payment.keyID key).script kp.toScriptParams) [] with
      ⟨hnone, hhas⟩ | ⟨vchSig, hsome, hhas, hsign⟩
    · rw [pubKeyID_of_encoding hkey] at hnone
      refine ⟨[], [], rfl, ?_, ?_⟩
      · simp [Payment.keys, hhas]
      · simp [solver, hsolver, Payment.solution, hnone, Payment.nRequired, pushAll]
    · refine ⟨[vchSig], [vchSig, key], rfl, ?_, ?_⟩
      · simpa [Payment.keys, hhas, Payment.nRequired] using hsign
      · obtain ⟨secret, hsecret⟩ := Option.isSome_iff_exists.mp hhas
        have hpub := h.keyID secret key mem_cons_self (signer.store.keyID _ _ hsecret)
        rw [pubKeyID_of_encoding hkey] at hsome hsecret
        simp [solver, hsolver, Payment.solution, hsome, hsecret, hpub, Payment.nRequired, pushAll]
  | multisig nRequired keys =>
    have hm : nRequired ≤ keys.length := hp.le_length
    have hn : keys.length ≤ 16 := hp.length_le
    have hsize : (UInt8.ofNat nRequired).toNat = nRequired :=
      UInt8.toNat_ofNat_of_lt' (by simp only [UInt8.size]; omega)
    obtain ⟨vchSigs, hsigs, hloop⟩ := h.signLoop_eq tx nIn
      (show ∀ key ∈ keys, key ∈ keys from fun _ hk => hk)
      ((Payment.multisig nRequired keys).script kp.toScriptParams) [0] nRequired 0
    refine ⟨vchSigs, [] :: vchSigs, .inr ⟨0, .inl rfl, by simp⟩, hsigs, ?_⟩
    have hpush : pushVch [] = [0] := by decide
    rw [solver, hsolver]
    simp only [Payment.solution, signN, headD_cons, hsize, drop_succ_cons, drop_zero,
      dropLast_concat, hloop, Payment.nRequired, pushAll, flatMap_cons, hpush, Nat.zero_add,
      decide_eq_true_eq]
    by_cases hfull : vchSigs.length = nRequired <;> simp [hfull]

/-! ## The script of an input -/

def contributes (signer : Signer kp) (o : StandardOutput) (vchPubKey : Vchtype) : Bool :=
  (!o.fScriptHash ||
    (signer.store.mapScripts (kp.Hash160 (o.payment.script kp.toScriptParams))).isSome) &&
    signer.hasKey vchPubKey

/-- The verification at the end of `SignSignature`. -/
theorem Lawful.verifyScript_eq (h : signer.Lawful o) (ho : o.Valid kp.toScriptParams)
    {vchSigs values : List Vchtype} {tx' : CTransaction} (htx : tx'.unsigned = tx.unsigned)
    (hspend : o.IsSpend kp.toScriptParams vchSigs values) {has : Vchtype → Bool}
    (hsigs : Forall₂ (signer.Signs tx nIn (o.payment.script kp.toScriptParams)) vchSigs
      ((o.payment.keys.filter has).take o.payment.nRequired)) :
    (verifyScript kp.toScriptParams (pushAll values) (o.scriptPubKey kp.toScriptParams)
      ⟨tx', nIn, STANDARD_SCRIPT_VERIFY_FLAGS, 0⟩).isSome =
        decide (vchSigs.length = o.payment.nRequired) := by
  have hsub : (o.payment.keys.filter has).take o.payment.nRequired <+ o.payment.keys :=
    (take_sublist _ _).trans filter_sublist
  have hlength : vchSigs.length ≤ o.payment.nRequired := by
    rw [hsigs.length_eq]
    exact length_take_le _ _
  have hmatch := sublistForall₂_iff.mpr ⟨_, hsigs, hsub⟩
  have hsigned : Forall₂ (SignatureOf kp.toScriptParams
      ⟨tx, nIn, STANDARD_SCRIPT_VERIFY_FLAGS, 0⟩ (o.payment.script kp.toScriptParams)) vchSigs
      ((o.payment.keys.filter has).take o.payment.nRequired) :=
    Matching.forall₂_of_mem hsigs fun vchSig key hkey hsign =>
      h.signatureOf hsign (ho.payment.encoding key (hsub.subset hkey)) _
  have hid : ∀ vchSig ∈ vchSigs, ∀ key ∈ o.payment.keys,
      vchSig ≠ (kp.Hash160 key).toBytes := by
    intro vchSig hmem key hkey
    obtain ⟨_, -, secret, -, r, s, hrs, rfl⟩ := Matching.exists_of_mem_sublistForall₂ hmatch hmem
    exact h.ne_id secret _ r s hrs key hkey
  have hempty : hasFlag STANDARD_SCRIPT_VERIFY_FLAGS SCRIPT_VERIFY_ALLOW_EMPTY_SIG = false := by
    decide
  rw [verifyScript_of_unsigned_eq htx, Bool.eq_iff_iff, decide_eq_true_eq]
  exact ho.verifyScript_iff hempty hspend hsub hsigned hlength hid

end Signer

theorem unsigned_setScriptSig (tx : CTransaction) (nIn : ℕ) (s : CScript) :
    (tx.setScriptSig nIn s).unsigned = tx.unsigned := by
  simp only [CTransaction.unsigned, CTransaction.setScriptSig, CTransaction.mk.injEq, true_and,
    and_true]
  refine ext_getElem? fun i => ?_
  simp only [getElem?_map, getElem?_modify]
  cases tx.vin[i]? with
  | none => rfl
  | some txin => by_cases h : nIn = i <;> simp [h]

theorem setScriptSig_setScriptSig (tx : CTransaction) (nIn : ℕ) (s s' : CScript) :
    (tx.setScriptSig nIn s).setScriptSig nIn s' = tx.setScriptSig nIn s' := by
  simp only [CTransaction.setScriptSig, CTransaction.mk.injEq, true_and, and_true]
  refine ext_getElem? fun i => ?_
  simp only [getElem?_modify]
  cases tx.vin[i]? with
  | none => rfl
  | some txin => by_cases h : nIn = i <;> simp [h]

namespace Signer

variable {kp : SignParams CKey} {signer : Signer kp} {o : StandardOutput} {tx : CTransaction}
  {nIn : ℕ}

theorem signSignature_of_solver {fromPubKey scriptSig : CScript} {whichType : TxnOutType}
    (hsolver : signer.solver fromPubKey
      (signatureHash kp.toScriptParams fromPubKey tx nIn signer.nHashType) =
        (scriptSig, some whichType)) (htype : whichType ≠ .TX_SCRIPTHASH) :
    signer.signSignature fromPubKey tx nIn = (tx.setScriptSig nIn scriptSig,
      (verifyScript kp.toScriptParams scriptSig fromPubKey
        ⟨tx.setScriptSig nIn scriptSig, nIn, STANDARD_SCRIPT_VERIFY_FLAGS, 0⟩).isSome) := by
  cases whichType with
  | TX_SCRIPTHASH => exact absurd rfl htype
  | _ => simp [signSignature, hsolver]

variable (tx nIn) in
/-- `SignSignature` leaves the signatures of the first keys of the output that the store has, and
it is done if these are as many as the output asks for. -/
theorem Lawful.signSignature_eq (h : signer.Lawful o) (ho : o.Valid kp.toScriptParams) :
    ∃ vchSigs values, o.IsSpend kp.toScriptParams vchSigs values ∧
      Forall₂ (signer.Signs tx nIn (o.payment.script kp.toScriptParams)) vchSigs
        ((o.payment.keys.filter (signer.contributes o)).take o.payment.nRequired) ∧
      signer.signSignature (o.scriptPubKey kp.toScriptParams) tx nIn =
        (tx.setScriptSig nIn (pushAll values),
          decide (vchSigs.length = o.payment.nRequired)) := by
  have hpos := ho.payment.pos
  cases hscript : o.fScriptHash with
  | false =>
    have hcontributes : signer.contributes o = signer.hasKey := by
      funext key
      simp [contributes, hscript]
    obtain ⟨vchSigs, values, hspend, hsigs, hsolver⟩ :=
      h.solver_eq tx nIn ho.payment
    have hspend' : o.IsSpend kp.toScriptParams vchSigs values := by
      simpa [StandardOutput.IsSpend, hscript] using hspend
    have hpubkey : o.scriptPubKey kp.toScriptParams = o.payment.script kp.toScriptParams := by
      simp [StandardOutput.scriptPubKey, hscript]
    have hverify := h.verifyScript_eq ho (unsigned_setScriptSig tx nIn (pushAll values)) hspend'
      hsigs
    refine ⟨vchSigs, values, hspend', hcontributes ▸ hsigs, ?_⟩
    rw [hpubkey] at hverify ⊢
    by_cases hfull : vchSigs.length = o.payment.nRequired
    · rw [if_pos hfull] at hsolver
      rw [signSignature_of_solver hsolver (Payment.solution_ne _ _), hverify]
    · rw [if_neg hfull] at hsolver
      simp [signSignature, hsolver, hfull]
  | true =>
    have hpubkey : BitBay.solver (o.scriptPubKey kp.toScriptParams) =
        some (.TX_SCRIPTHASH, [(kp.Hash160 (o.payment.script kp.toScriptParams)).toBytes]) := by
      simp [StandardOutput.scriptPubKey, hscript, solver_scriptID]
    cases hredeem : signer.store.mapScripts
        (kp.Hash160 (o.payment.script kp.toScriptParams)) with
    | none =>
      have hcontributes : signer.contributes o = fun _ => false := by
        funext key
        simp [contributes, hscript, hredeem]
      refine ⟨[], [], by simp [StandardOutput.IsSpend, hscript], by simp [hcontributes], ?_⟩
      simp [signSignature, solver, hpubkey, hredeem, pushAll, show ¬0 = o.payment.nRequired by omega]
    | some script =>
      obtain rfl := h.scriptID script hredeem
      have hcontributes : signer.contributes o = signer.hasKey := by
        funext key
        simp [contributes, hredeem]
      obtain ⟨vchSigs, below, hbelow, hsigs, hsolver⟩ :=
        h.solver_eq tx nIn ho.payment
      have hspend : o.IsSpend kp.toScriptParams vchSigs
          (below ++ [o.payment.script kp.toScriptParams]) := by
        simpa [StandardOutput.IsSpend, hscript] using hbelow
      have hverify := h.verifyScript_eq ho (unsigned_setScriptSig tx nIn
        (pushAll (below ++ [o.payment.script kp.toScriptParams]))) hspend hsigs
      have hpush : pushAll below ++ pushVch (o.payment.script kp.toScriptParams) =
          pushAll (below ++ [o.payment.script kp.toScriptParams]) := by simp [pushAll]
      refine ⟨vchSigs, _, hspend, hcontributes ▸ hsigs, ?_⟩
      rw [← signatureHash_of_unsigned_eq (unsigned_setScriptSig tx nIn
        (o.payment.script kp.toScriptParams))] at hsolver
      simp only [signSignature, solver.eq_def signer (o.scriptPubKey _), hpubkey, headD_cons,
        UInt160.ofBytes_toBytes, hredeem, hsolver, hpush, setScriptSig_setScriptSig]
      by_cases hfull : vchSigs.length = o.payment.nRequired
      · simp only [hfull, if_true, reduceCtorEq, Option.some_inj, Payment.solution_ne, or_self,
          if_false]
        rw [hverify]
        simp [hfull]
      · simp [hfull]

def Completes (signer : Signer kp) (o : StandardOutput) : Prop :=
  o.payment.nRequired ≤ (o.payment.keys.filter (signer.contributes o)).length

variable (tx nIn) in
theorem Lawful.signSignature_iff (h : signer.Lawful o) (ho : o.Valid kp.toScriptParams) :
    (signer.signSignature (o.scriptPubKey kp.toScriptParams) tx nIn).2 = true ↔
      signer.Completes o := by
  obtain ⟨vchSigs, values, -, hsigs, heq⟩ := h.signSignature_eq tx nIn ho
  have hlength := hsigs.length_eq
  rw [length_take] at hlength
  rw [heq, decide_eq_true_eq, hlength, Completes]
  omega

/-! ## All inputs -/

/-- The inputs of a transaction are signed one after another, until one fails. -/
def signInputs (signer : Signer kp) : List CScript → ℕ → CTransaction → Option CTransaction
  | [], _, txTo => some txTo
  | fromPubKey :: rest, nIn, txTo =>
    let r := signer.signSignature fromPubKey txTo nIn
    if r.2 then signInputs signer rest (nIn + 1) r.1 else none

def InputVerified (kp : SignParams CKey) (o : StandardOutput) (txTo : CTransaction) (nIn : ℕ) :
    Prop :=
  ∃ txin, txTo.vin[nIn]? = some txin ∧
    (verifyScript kp.toScriptParams txin.scriptSig (o.scriptPubKey kp.toScriptParams)
      ⟨txTo, nIn, STANDARD_SCRIPT_VERIFY_FLAGS, 0⟩).isSome = true

theorem getElem?_setScriptSig_of_ne {i : ℕ} (h : i ≠ nIn) (s : CScript) :
    (tx.setScriptSig nIn s).vin[i]? = tx.vin[i]? := by
  simp only [CTransaction.setScriptSig, getElem?_modify]
  cases tx.vin[i]? <;> simp [h.symm]

theorem length_setScriptSig (s : CScript) :
    (tx.setScriptSig nIn s).vin.length = tx.vin.length := by
  simp [CTransaction.setScriptSig]

/-- An input that has been signed stays verified, whatever the scripts of other inputs become. -/
theorem Lawful.inputVerified (h : signer.Lawful o) (ho : o.Valid kp.toScriptParams)
    {tx' : CTransaction} (hnIn : nIn < tx.vin.length)
    (hsigned : (signer.signSignature (o.scriptPubKey kp.toScriptParams) tx nIn).2 = true)
    (hinput : tx'.vin[nIn]? =
      (signer.signSignature (o.scriptPubKey kp.toScriptParams) tx nIn).1.vin[nIn]?)
    (htx : tx'.unsigned = tx.unsigned) : InputVerified kp o tx' nIn := by
  obtain ⟨vchSigs, values, hspend, hsigs, heq⟩ := h.signSignature_eq tx nIn ho
  have hverify := h.verifyScript_eq ho htx hspend hsigs
  rw [heq] at hsigned hinput
  refine ⟨{ tx.vin[nIn] with scriptSig := pushAll values }, ?_, by rw [hverify]; exact hsigned⟩
  rw [hinput]
  simp [CTransaction.setScriptSig, hnIn]

/-- Signing succeeds exactly if the store can complete every output, and then every input is
verified in the transaction that it ends with. -/
theorem signInputs_spec {outputs : List StandardOutput}
    (hlaws : ∀ o ∈ outputs, signer.Lawful o ∧ o.Valid kp.toScriptParams)
    (hlength : nIn + outputs.length = tx.vin.length) :
    ((∃ tx', signer.signInputs (outputs.map (·.scriptPubKey kp.toScriptParams)) nIn tx =
        some tx') ↔ ∀ o ∈ outputs, signer.Completes o) ∧
      ∀ tx', signer.signInputs (outputs.map (·.scriptPubKey kp.toScriptParams)) nIn tx =
        some tx' → tx'.unsigned = tx.unsigned ∧ (∀ i < nIn, tx'.vin[i]? = tx.vin[i]?) ∧
          ∀ i o, outputs[i]? = some o → InputVerified kp o tx' (nIn + i) := by
  induction outputs generalizing nIn tx with
  | nil => simp [signInputs]
  | cons o outputs ih =>
    obtain ⟨h, ho⟩ := hlaws o mem_cons_self
    have hrest := fun o' hmem => hlaws o' (mem_cons_of_mem o hmem)
    rw [length_cons] at hlength
    obtain ⟨_, values, -, -, heq⟩ := h.signSignature_eq tx nIn ho
    have hcompletes := h.signSignature_iff tx nIn ho
    have hverified {tx' : CTransaction} :=
      @Lawful.inputVerified _ _ signer o tx nIn h ho tx' (by omega)
    rw [map_cons, signInputs]
    cases hsigned : (signer.signSignature (o.scriptPubKey kp.toScriptParams) tx nIn).2 with
    | false =>
      have hnot : ¬signer.Completes o := fun hc => by simp [hcompletes.mpr hc] at hsigned
      simp [hnot]
    | true =>
      obtain ⟨hiff, hall⟩ := @ih (signer.signSignature (o.scriptPubKey kp.toScriptParams) tx nIn).1
        (nIn + 1) hrest
        (by rw [heq, length_setScriptSig]; omega)
      simp only [if_true]
      refine ⟨by rw [hiff, forall_mem_cons, and_iff_right (hcompletes.mp hsigned)], ?_⟩
      intro tx' htx'
      obtain ⟨hunsigned, hbefore, hafter⟩ := hall tx' htx'
      have hsame : tx'.unsigned = tx.unsigned := by
        rw [hunsigned, heq, unsigned_setScriptSig]
      refine ⟨hsame, fun i hi => ?_, fun i o' ho' => ?_⟩
      · rw [hbefore i (by omega), heq, getElem?_setScriptSig_of_ne (by omega)]
      · cases i with
        | zero =>
          cases ho'
          exact hverified hsigned (hbefore nIn (by omega)) hsame
        | succ i =>
          rw [← Nat.add_assoc, Nat.add_right_comm]
          exact hafter i o' ho'

/-- The wallet signs all inputs exactly if its store can complete every output, and then all of
them are verified in the transaction that has all the signatures. -/
theorem signInputs_iff {outputs : List StandardOutput}
    (hlaws : ∀ o ∈ outputs, signer.Lawful o ∧ o.Valid kp.toScriptParams)
    (hlength : outputs.length = tx.vin.length) :
    ((∃ tx', signer.signInputs (outputs.map (·.scriptPubKey kp.toScriptParams)) 0 tx =
        some tx') ↔ ∀ o ∈ outputs, signer.Completes o) ∧
      ∀ tx', signer.signInputs (outputs.map (·.scriptPubKey kp.toScriptParams)) 0 tx =
        some tx' → tx'.unsigned = tx.unsigned ∧
          ∀ i o, outputs[i]? = some o → InputVerified kp o tx' i := by
  obtain ⟨hiff, hall⟩ := signInputs_spec hlaws ((Nat.zero_add _).trans hlength)
  refine ⟨hiff, fun tx' htx' => ?_⟩
  obtain ⟨hunsigned, -, hverified⟩ := hall tx' htx'
  exact ⟨hunsigned, fun i o ho => Nat.zero_add i ▸ hverified i o ho⟩

end Signer

/-! ## A sample -/

/-- Two keys that sign with their last bytes, and hashes that keep these. -/
def sampleSigning : SignParams Bool where
  toScriptParams :=
    { sampleMachine with Hash160 := fun vch => BitVec.ofNat 160 (BigEndian.value vch) }
  getPubKey key := sampleKey (if key then 5 else 7)

def sampleSigner (key : Bool) : Signer sampleSigning where
  store := CBasicKeyStore.empty.addKey key
  ecdsaSign key _ := some (1, if key then 5 else 7)
  nHashType := SIGHASH_ALL

/-- An output of one of both keys, and one of the hash of the first key. -/
def sampleOutputs : List StandardOutput :=
  [⟨.multisig 1 [sampleKey 7, sampleKey 5], false⟩, ⟨.keyID (sampleKey 5), false⟩]

theorem sampleSigner_lawful (own : Bool) {o : StandardOutput}
    (hkeys : ∀ key ∈ o.payment.keys, key = sampleKey 5 ∨ key = sampleKey 7) :
    (sampleSigner own).Lawful o where
  hashType := show SIGHASH_ALL ∈ mapSigHashValues by decide
  isSome _ _ := rfl
  range key hash r s h := by
    cases h
    cases key <;> decide
  verify key hash r s h := by
    cases h
    cases key <;> rfl
  own key hash r s h vchPubKey hmem hverify := by
    cases h
    rcases hkeys vchPubKey hmem with rfl | rfl <;> cases key
    · exact absurd (show false = true from hverify) Bool.false_ne_true
    · rfl
    · rfl
    · exact absurd (show false = true from hverify) Bool.false_ne_true
  keyID key vchPubKey hmem h := by
    revert h
    rcases hkeys vchPubKey hmem with rfl | rfl <;> cases key <;> decide
  scriptID script h := by cases h
  ne_id key hash r s h vchPubKey hmem heq := by
    cases h
    have hlength := congrArg List.length heq
    rw [UInt160.length_toBytes] at hlength
    revert hlength
    change (derSignature 1 _ ++ [UInt8.ofNat SIGHASH_ALL]).length = 20 → False
    cases key <;> decide

theorem signInputs_iff_sample :
    ∃ tx', (sampleSigner true).signInputs
        (sampleOutputs.map (·.scriptPubKey sampleSigning.toScriptParams)) 0
        { vin := [{ prevout := ⟨1, 0⟩ }, { prevout := ⟨1, 1⟩ }], vout := [⟨5, []⟩] } = some tx' ∧
      ∀ i o, sampleOutputs[i]? = some o → Signer.InputVerified sampleSigning o tx' i := by
  have hlaws : ∀ o ∈ sampleOutputs,
      (sampleSigner true).Lawful o ∧ o.Valid sampleSigning.toScriptParams := by
    intro o ho
    rcases mem_pair.mp ho with rfl | rfl
    · exact ⟨sampleSigner_lawful true (by decide),
        ⟨by decide, by decide, by decide, by decide, by decide⟩, fun h => by cases h⟩
    · exact ⟨sampleSigner_lawful true (by decide),
        ⟨by decide, by decide, by decide, by decide, by decide⟩, fun h => by cases h⟩
  have hcompletes : ∀ o ∈ sampleOutputs, (sampleSigner true).Completes o := by
    intro o ho
    rcases mem_pair.mp ho with rfl | rfl
    · exact show 1 ≤ _ by decide
    · exact show 1 ≤ _ by decide
  let tx : CTransaction :=
    { vin := [{ prevout := ⟨1, 0⟩ }, { prevout := ⟨1, 1⟩ }], vout := [⟨5, []⟩] }
  obtain ⟨hiff, hall⟩ :=
    @Signer.signInputs_iff Bool sampleSigning (sampleSigner true) tx sampleOutputs hlaws rfl
  obtain ⟨tx', htx'⟩ := hiff.mpr hcompletes
  exact ⟨tx', htx', (hall tx' htx').2⟩

end BitBay
