import BitBay.Script.Combine

/-!
# Signing by several parties

A transaction goes from hand to hand. Whoever has it calls `signrawtransaction`, with all the
versions that have arrived so far, signs with the keys of a store of its own and passes the
result on. In whatever order that happens and whoever gets whose versions, nothing that has been
signed is lost: an input is complete exactly if those who have signed so far have enough of its
keys together, and the call says so.
-/
namespace BitBay

open List

variable {CKey : Type} {kp : SignParams CKey}

/-! ## The call -/

def CTransaction.scriptSig (tx : CTransaction) (i : ℕ) : CScript :=
  (tx.vin[i]?.map CTxIn.scriptSig).getD []

namespace Signer

/-- Inputs are not signed with `SIGHASH_SINGLE` when there is no output that belongs to them. -/
def signsInput (signer : Signer kp) (mergedTx : CTransaction) (i : ℕ) : Bool :=
  !(signer.nHashType % SIGHASH_ANYONECANPAY = SIGHASH_SINGLE) || i < mergedTx.vout.length

/-- `signrawtransaction` at one input: what becomes of the transaction, and whether the input is
complete. -/
def signRawInput (signer : Signer kp) (mapPrevOut : COutPoint → Option CScript)
    (txVariants : List CTransaction) (mergedTx : CTransaction) (i : ℕ) : CTransaction × Bool :=
  match mergedTx.vin[i]? with
  | none => (mergedTx, true)
  | some txin =>
    match mapPrevOut txin.prevout with
    | none => (mergedTx, false)
    | some prevPubKey =>
      let mergedTx := mergedTx.setScriptSig i []
      let mergedTx := if signer.signsInput mergedTx i then
        (signer.signSignature prevPubKey mergedTx i).1 else mergedTx
      -- The other signatures are merged in.
      let mergedTx := txVariants.foldl (fun tx txv => tx.setScriptSig i
        (combineSignatures kp.toScriptParams prevPubKey tx i (tx.scriptSig i) (txv.scriptSig i)))
        mergedTx
      (mergedTx, (verifyScript kp.toScriptParams (mergedTx.scriptSig i) prevPubKey
        ⟨mergedTx, i, STANDARD_SCRIPT_VERIFY_FLAGS, 0⟩).isSome)

def signRawLoop (signer : Signer kp) (mapPrevOut : COutPoint → Option CScript)
    (txVariants : List CTransaction) (first : CTransaction) : ℕ → CTransaction × Bool
  | 0 => (first, true)
  | n + 1 =>
    let r := signRawLoop signer mapPrevOut txVariants first n
    let s := signer.signRawInput mapPrevOut txVariants r.1 n
    (s.1, r.2 && s.2)

/-- `signrawtransaction`, from the transactions on; `none` when there is none. -/
def signRawTransaction (signer : Signer kp) (mapPrevOut : COutPoint → Option CScript) :
    List CTransaction → Option (CTransaction × Bool)
  | [] => none
  | first :: rest =>
    some (signer.signRawLoop mapPrevOut (first :: rest) first first.vin.length)

end Signer

/-! ## Versions of a transaction -/

/-- The versions of a transaction that the parties have, each with those who have signed it. -/
inductive Circulates (parties : Set (Signer kp)) (mapPrevOut : COutPoint → Option CScript)
    (tx0 : CTransaction) : List (Signer kp) → CTransaction → Prop
  | start : Circulates parties mapPrevOut tx0 [] tx0
  | sign {signer : Signer kp} (received : List (List (Signer kp) × CTransaction))
      {tx : CTransaction} {fComplete : Bool} (hparty : signer ∈ parties)
      (hreceived : ∀ r ∈ received, Circulates parties mapPrevOut tx0 r.1 r.2)
      (hsign : signer.signRawTransaction mapPrevOut (received.map Prod.snd) =
        some (tx, fComplete)) :
      Circulates parties mapPrevOut tx0 (signer :: received.flatMap Prod.fst) tx

/-- The transaction with the outputs that its inputs spend, before anyone has signed. -/
structure Spends (kp : SignParams CKey) (mapPrevOut : COutPoint → Option CScript)
    (tx0 : CTransaction) (outputs : List StandardOutput) : Prop where
  unsigned : tx0.unsigned = tx0
  length_eq : outputs.length = tx0.vin.length
  valid : ∀ o ∈ outputs, o.Valid kp.toScriptParams
  prevOut : ∀ (i : ℕ) (txin : CTxIn) (o : StandardOutput), tx0.vin[i]? = some txin →
    outputs[i]? = some o → mapPrevOut txin.prevout = some (o.scriptPubKey kp.toScriptParams)

def contributed (tx0 : CTransaction) (i : ℕ) (o : StandardOutput) (signers : List (Signer kp))
    (key : Vchtype) : Bool :=
  signers.any fun signer => signer.signsInput tx0 i && signer.contributes o key

def Enough (tx0 : CTransaction) (i : ℕ) (o : StandardOutput) (signers : List (Signer kp)) : Prop :=
  o.payment.nRequired ≤ (o.payment.keys.filter (contributed tx0 i o signers)).length

def PartySigns (parties : Set (Signer kp)) (tx0 : CTransaction) (i : ℕ) (o : StandardOutput)
    (vchSig key : Vchtype) : Prop :=
  ∃ signer ∈ parties, signer.Signs tx0 i (o.payment.script kp.toScriptParams) vchSig key

/-! ## Scripts of inputs -/

section Inputs

variable {tx tx' tx0 : CTransaction} {i j : ℕ} {s : CScript}

theorem scriptSig_setScriptSig (h : i < tx.vin.length) : (tx.setScriptSig i s).scriptSig i = s := by
  simp [CTransaction.scriptSig, CTransaction.setScriptSig, h]

theorem scriptSig_setScriptSig_of_ne (h : j ≠ i) :
    (tx.setScriptSig i s).scriptSig j = tx.scriptSig j := by
  rw [CTransaction.scriptSig, Signer.getElem?_setScriptSig_of_ne h, CTransaction.scriptSig]

theorem length_of_unsigned_eq (h : tx.unsigned = tx'.unsigned) :
    tx.vin.length = tx'.vin.length := by
  simpa [CTransaction.unsigned] using congrArg (fun tx => tx.vin.length) h

theorem vout_of_unsigned_eq (h : tx.unsigned = tx'.unsigned) : tx.vout = tx'.vout :=
  have hvout : tx.unsigned.vout = tx'.unsigned.vout := congrArg CTransaction.vout h
  hvout

theorem prevout_of_unsigned_eq (h : tx.unsigned = tx'.unsigned) (i : ℕ) :
    tx.vin[i]?.map CTxIn.prevout = tx'.vin[i]?.map CTxIn.prevout := by
  have hvin : tx.unsigned.vin[i]?.map CTxIn.prevout = tx'.unsigned.vin[i]?.map CTxIn.prevout := by
    rw [h]
  simpa [CTransaction.unsigned, Function.comp_def] using hvin

end Inputs

section Parties

variable {parties : Set (Signer kp)} {mapPrevOut : COutPoint → Option CScript}
  {tx tx0 : CTransaction} {outputs : List StandardOutput} {i : ℕ} {o : StandardOutput}
  {signer : Signer kp} {signers : List (Signer kp)}

theorem Signer.Signs.of_unsigned_eq {code : CScript} {vchSig key : Vchtype}
    (h : signer.Signs tx0 i code vchSig key) (htx : tx.unsigned = tx0.unsigned) :
    signer.Signs tx i code vchSig key := by
  obtain ⟨secret, hkey, r, s, hrs, hsig⟩ := h
  exact ⟨secret, hkey, r, s, by rw [signatureHash_of_unsigned_eq htx]; exact hrs, hsig⟩

/-- What the parties sign is what the checks let through. -/
theorem genuine_partySigns (hlaws : ∀ signer ∈ parties, signer.Lawful o)
    (ho : o.Valid kp.toScriptParams) (htx : tx.unsigned = tx0.unsigned) :
    Genuine kp.toScriptParams tx i o.payment (PartySigns parties tx0 i o) where
  signatureOf vchSig key hkey h := by
    obtain ⟨signer, hparty, hsign⟩ := h
    exact (hlaws signer hparty).signatureOf (hsign.of_unsigned_eq htx)
      (ho.payment.encoding key hkey) _
  own vchSig key h key' hkey' hcheck := by
    obtain ⟨signer, hparty, hsign⟩ := h
    exact (hlaws signer hparty).eq_of_checkSig (hsign.of_unsigned_eq htx) hkey' hcheck
  ne_id vchSig key h key' hkey' := by
    obtain ⟨signer, hparty, secret, -, r, s, hrs, rfl⟩ := h
    exact (hlaws signer hparty).ne_id secret _ r s hrs key' hkey'

/-- A store alone. -/
theorem Signer.Lawful.holds_signSignature (h : signer.Lawful o) (hparty : signer ∈ parties)
    (ho : o.Valid kp.toScriptParams) (htx : tx.unsigned = tx0.unsigned) (hi : i < tx.vin.length) :
    (signer.signSignature (o.scriptPubKey kp.toScriptParams) tx i).1.unsigned = tx.unsigned ∧
      (∀ j ≠ i, (signer.signSignature (o.scriptPubKey kp.toScriptParams) tx i).1.scriptSig j =
        tx.scriptSig j) ∧
      o.Holds kp.toScriptParams (PartySigns parties tx0 i o)
        {key | signer.contributes o key = true}
        ((signer.signSignature (o.scriptPubKey kp.toScriptParams) tx i).1.scriptSig i) := by
  obtain ⟨vchSigs, values, hspend, hsigs, heq⟩ := h.signSignature_eq tx i ho
  rw [heq, scriptSig_setScriptSig hi]
  refine ⟨unsigned_setScriptSig _ _ _, fun j hj => scriptSig_setScriptSig_of_ne hj, vchSigs,
    (o.payment.keys.filter (signer.contributes o)).take o.payment.nRequired, values, rfl, hspend,
    ?_⟩
  have hsub : (o.payment.keys.filter (signer.contributes o)).take o.payment.nRequired <+
      o.payment.keys := (take_sublist _ _).trans filter_sublist
  refine ⟨hsigs.imp fun vchSig key hsign => ⟨signer, hparty, hsign.of_unsigned_eq htx.symm⟩, hsub,
    length_take_le _ _, fun key hkey => (mem_filter.mp ((take_sublist _ _).subset hkey)).2, ?_⟩
  by_cases hfull : o.payment.nRequired ≤ (o.payment.keys.filter (signer.contributes o)).length
  · exact .inr (by rw [length_take]; omega)
  · rw [take_of_length_le (by omega)]
    exact .inl fun key hkey hK => mem_filter.mpr ⟨hkey, hK⟩

/-- Versions of the transaction are merged in. -/
theorem holds_foldl_combine (hlaws : ∀ signer ∈ parties, signer.Lawful o)
    (ho : o.Valid kp.toScriptParams) (htx : tx.unsigned = tx0.unsigned) (hi : i < tx.vin.length)
    {K : Set Vchtype} {received : List (List (Signer kp) × CTransaction)}
    (hK : o.Holds kp.toScriptParams (PartySigns parties tx0 i o) K (tx.scriptSig i))
    (hreceived : ∀ r ∈ received, o.Holds kp.toScriptParams (PartySigns parties tx0 i o)
      {key | contributed tx0 i o r.1 key = true} (r.2.scriptSig i)) :
    let tx' := (received.map Prod.snd).foldl (fun tx txv => tx.setScriptSig i
      (combineSignatures kp.toScriptParams (o.scriptPubKey kp.toScriptParams) tx i
        (tx.scriptSig i) (txv.scriptSig i))) tx
    tx'.unsigned = tx.unsigned ∧ (∀ j ≠ i, tx'.scriptSig j = tx.scriptSig j) ∧
      o.Holds kp.toScriptParams (PartySigns parties tx0 i o)
        (K ∪ {key | contributed tx0 i o (received.flatMap Prod.fst) key = true})
        (tx'.scriptSig i) := by
  induction received generalizing tx K with
  | nil => simpa [contributed] using hK
  | cons r received ih =>
    have hcombine := hK.combine ho (genuine_partySigns hlaws ho htx) (hreceived r mem_cons_self)
    rw [← scriptSig_setScriptSig (s := combineSignatures _ _ _ _ _ _) hi] at hcombine
    have hunsigned := unsigned_setScriptSig tx i (combineSignatures kp.toScriptParams
      (o.scriptPubKey kp.toScriptParams) tx i (tx.scriptSig i) (r.2.scriptSig i))
    obtain ⟨hsame, hothers, hholds⟩ := ih (hunsigned.trans htx)
      (by rw [Signer.length_setScriptSig]; exact hi) hcombine
      (fun r' hr' => hreceived r' (mem_cons_of_mem r hr'))
    refine ⟨hsame.trans hunsigned, fun j hj => ?_, ?_⟩
    · exact (hothers j hj).trans (scriptSig_setScriptSig_of_ne hj)
    · have hset : K ∪ {key | contributed tx0 i o r.1 key = true} ∪
          {key | contributed tx0 i o (received.flatMap Prod.fst) key = true} =
          K ∪ {key | contributed tx0 i o ((r :: received).flatMap Prod.fst) key = true} := by
        ext key
        simp [contributed, or_assoc]
      exact hset ▸ hholds

structure Version (parties : Set (Signer kp)) (tx0 : CTransaction) (outputs : List StandardOutput)
    (signers : List (Signer kp)) (tx : CTransaction) : Prop where
  unsigned : tx.unsigned = tx0.unsigned
  holds : ∀ (i : ℕ) (o : StandardOutput), outputs[i]? = some o →
    o.Holds kp.toScriptParams (PartySigns parties tx0 i o)
      {key | contributed tx0 i o signers key = true} (tx.scriptSig i)

/-- The party signs the input, unless there is no output that belongs to it. -/
theorem Signer.Lawful.holds_signs (h : signer.Lawful o) (hparty : signer ∈ parties)
    (ho : o.Valid kp.toScriptParams) (htx : tx.unsigned = tx0.unsigned) (hi : i < tx.vin.length) :
    let tx1 := tx.setScriptSig i []
    let tx2 := if signer.signsInput tx1 i then
      (signer.signSignature (o.scriptPubKey kp.toScriptParams) tx1 i).1 else tx1
    tx2.unsigned = tx0.unsigned ∧ (∀ j ≠ i, tx2.scriptSig j = tx.scriptSig j) ∧
      o.Holds kp.toScriptParams (PartySigns parties tx0 i o)
        {key | (signer.signsInput tx0 i && signer.contributes o key) = true} (tx2.scriptSig i) := by
  intro tx1 tx2
  have htx1 : tx1.unsigned = tx0.unsigned := (unsigned_setScriptSig tx i []).trans htx
  have hi1 : i < tx1.vin.length := by rwa [length_setScriptSig]
  have hsigns : signer.signsInput tx1 i = signer.signsInput tx0 i := by
    rw [signsInput, signsInput, vout_of_unsigned_eq htx1]
  have hothers {j : ℕ} (hj : j ≠ i) : tx1.scriptSig j = tx.scriptSig j :=
    scriptSig_setScriptSig_of_ne hj
  cases hsign : signer.signsInput tx0 i with
  | true =>
    obtain ⟨hunsigned, hsame, hholds⟩ := h.holds_signSignature hparty ho htx1 hi1
    have htx2 : tx2 = (signer.signSignature (o.scriptPubKey kp.toScriptParams) tx1 i).1 :=
      if_pos (hsigns.trans hsign)
    rw [htx2]
    exact ⟨hunsigned.trans htx1, fun j hj => (hsame j hj).trans (hothers hj), by
      simpa using hholds⟩
  | false =>
    have htx2 : tx2 = tx1 := if_neg (by rw [hsigns, hsign]; exact Bool.false_ne_true)
    rw [htx2]
    refine ⟨htx1, fun j hj => hothers hj, ?_⟩
    rw [scriptSig_setScriptSig hi]
    simpa using StandardOutput.holds_nil kp.toScriptParams o (PartySigns parties tx0 i o)

/-- One input of the call. -/
theorem signRawInput_spec (hspends : Spends kp mapPrevOut tx0 outputs)
    (hlaws : ∀ signer ∈ parties, ∀ o ∈ outputs, signer.Lawful o) (hparty : signer ∈ parties)
    {received : List (List (Signer kp) × CTransaction)}
    (hreceived : ∀ r ∈ received, Version parties tx0 outputs r.1 r.2)
    (htx : tx.unsigned = tx0.unsigned) (hio : outputs[i]? = some o) :
    let r := signer.signRawInput mapPrevOut (received.map Prod.snd) tx i
    r.1.unsigned = tx0.unsigned ∧ (∀ j ≠ i, r.1.scriptSig j = tx.scriptSig j) ∧
      o.Holds kp.toScriptParams (PartySigns parties tx0 i o)
        {key | contributed tx0 i o (signer :: received.flatMap Prod.fst) key = true}
        (r.1.scriptSig i) ∧
      (r.2 = true ↔ Enough tx0 i o (signer :: received.flatMap Prod.fst)) := by
  have hmem : o ∈ outputs := mem_of_getElem? hio
  have ho := hspends.valid o hmem
  have hi : i < tx.vin.length := by
    rw [length_of_unsigned_eq htx, ← hspends.length_eq]
    exact (List.getElem?_eq_some_iff.mp hio).1
  obtain ⟨txin, htxin⟩ : ∃ txin, tx.vin[i]? = some txin := ⟨_, getElem?_eq_getElem hi⟩
  have hprev : mapPrevOut txin.prevout = some (o.scriptPubKey kp.toScriptParams) := by
    have hprevout := prevout_of_unsigned_eq htx i
    rw [htxin] at hprevout
    obtain ⟨txin0, htxin0, heq⟩ := Option.map_eq_some_iff.mp hprevout.symm
    rw [← heq]
    exact hspends.prevOut i txin0 o htxin0 hio
  obtain ⟨hunsigned2, hothers2, hholds2⟩ :=
    (hlaws signer hparty o hmem).holds_signs hparty ho htx hi
  set tx2 := if signer.signsInput (tx.setScriptSig i []) i then
    (signer.signSignature (o.scriptPubKey kp.toScriptParams) (tx.setScriptSig i []) i).1
    else tx.setScriptSig i [] with htx2
  obtain ⟨hunsigned3, hothers3, hholds3⟩ := holds_foldl_combine
    (fun signer hparty => hlaws signer hparty o hmem) ho hunsigned2
    (by rw [length_of_unsigned_eq (hunsigned2.trans htx.symm)]; exact hi) hholds2
    (fun r hr => (hreceived r hr).holds i o hio)
  have hset : {key | (signer.signsInput tx0 i && signer.contributes o key) = true} ∪
      {key | contributed tx0 i o (received.flatMap Prod.fst) key = true} =
      {key | contributed tx0 i o (signer :: received.flatMap Prod.fst) key = true} := by
    ext key
    simp [contributed]
  rw [hset] at hholds3
  have hverify := hholds3.verifyScript_iff ho (genuine_partySigns
    (fun signer hparty => hlaws signer hparty o hmem) ho (hunsigned3.trans hunsigned2))
  simp only [Signer.signRawInput, htxin, hprev, ← htx2]
  refine ⟨hunsigned3.trans hunsigned2, fun j hj => (hothers3 j hj).trans (hothers2 j hj), hholds3,
    ?_⟩
  rw [hverify]
  simp [Enough]

/-- The loop over the inputs, by what one input does. -/
theorem signRawLoop_spec (hspends : Spends kp mapPrevOut tx0 outputs)
    (hlaws : ∀ signer ∈ parties, ∀ o ∈ outputs, signer.Lawful o) (hparty : signer ∈ parties)
    {received : List (List (Signer kp) × CTransaction)}
    (hreceived : ∀ r ∈ received, Version parties tx0 outputs r.1 r.2)
    (htx : tx.unsigned = tx0.unsigned) {n : ℕ} (hn : n ≤ outputs.length) :
    let r := signer.signRawLoop mapPrevOut (received.map Prod.snd) tx n
    r.1.unsigned = tx0.unsigned ∧
      (∀ i < n, ∀ o : StandardOutput, outputs[i]? = some o →
        o.Holds kp.toScriptParams (PartySigns parties tx0 i o)
          {key | contributed tx0 i o (signer :: received.flatMap Prod.fst) key = true}
          (r.1.scriptSig i)) ∧
      (r.2 = true ↔ ∀ i < n, ∀ o : StandardOutput, outputs[i]? = some o →
        Enough tx0 i o (signer :: received.flatMap Prod.fst)) := by
  induction n with
  | zero => exact ⟨htx, by simp, by simp [Signer.signRawLoop]⟩
  | succ n ih =>
    obtain ⟨hunsigned, hholds, hcomplete⟩ := ih (by omega)
    have hio : outputs[n]? = some outputs[n] := getElem?_eq_getElem hn
    obtain ⟨hunsigned', hothers, hholds', hcomplete'⟩ :=
      signRawInput_spec hspends hlaws hparty hreceived hunsigned hio
    refine ⟨hunsigned', fun i hi o ho => ?_, ?_⟩
    · rcases Nat.lt_succ_iff_lt_or_eq.mp hi with hlt | rfl
      · rw [Signer.signRawLoop, hothers i (by omega)]
        exact hholds i hlt o ho
      · obtain rfl := Option.some_inj.mp (hio.symm.trans ho)
        exact hholds'
    · rw [Signer.signRawLoop, Bool.and_eq_true, hcomplete, hcomplete']
      constructor
      · rintro ⟨hbefore, hnow⟩ i hi o ho
        rcases Nat.lt_succ_iff_lt_or_eq.mp hi with hlt | rfl
        · exact hbefore i hlt o ho
        · obtain rfl := Option.some_inj.mp (hio.symm.trans ho)
          exact hnow
      · exact fun h => ⟨fun i hi => h i (by omega), h n (by omega) _ hio⟩

/-- The call, for versions that hold what has been signed. -/
theorem signRawTransaction_spec (hspends : Spends kp mapPrevOut tx0 outputs)
    (hlaws : ∀ signer ∈ parties, ∀ o ∈ outputs, signer.Lawful o) (hparty : signer ∈ parties)
    {received : List (List (Signer kp) × CTransaction)}
    (hreceived : ∀ r ∈ received, Version parties tx0 outputs r.1 r.2) {fComplete : Bool}
    (hsign : signer.signRawTransaction mapPrevOut (received.map Prod.snd) = some (tx, fComplete)) :
    Version parties tx0 outputs (signer :: received.flatMap Prod.fst) tx ∧
      (fComplete = true ↔ ∀ (i : ℕ) (o : StandardOutput), outputs[i]? = some o →
        Enough tx0 i o (signer :: received.flatMap Prod.fst)) := by
  cases received with
  | nil => cases hsign
  | cons r received =>
    obtain ⟨hunsigned, -⟩ := hreceived r mem_cons_self
    have hlength : r.2.vin.length = outputs.length := by
      rw [length_of_unsigned_eq hunsigned, hspends.length_eq]
    have hloop := signRawLoop_spec hspends hlaws hparty hreceived hunsigned hlength.le
    have hbound {i : ℕ} {o : StandardOutput} (hio : outputs[i]? = some o) : i < r.2.vin.length :=
      hlength ▸ (List.getElem?_eq_some_iff.mp hio).1
    rw [map_cons, Signer.signRawTransaction, Option.some_inj] at hsign
    rw [map_cons] at hloop
    simp only [hsign] at hloop
    obtain ⟨hunsigned', hholds, hcomplete⟩ := hloop
    exact ⟨⟨hunsigned', fun i o hio => hholds i (hbound hio) o hio⟩, hcomplete.trans
      ⟨fun h i o hio => h i (hbound hio) o hio, fun h i _ o hio => h i o hio⟩⟩

theorem Circulates.version (hspends : Spends kp mapPrevOut tx0 outputs)
    (hlaws : ∀ signer ∈ parties, ∀ o ∈ outputs, signer.Lawful o)
    (h : Circulates parties mapPrevOut tx0 signers tx) :
    Version parties tx0 outputs signers tx := by
  induction h with
  | start =>
    refine ⟨rfl, fun i o hio => ?_⟩
    have hempty : tx0.scriptSig i = [] := by
      rw [← hspends.unsigned, CTransaction.scriptSig, CTransaction.unsigned, getElem?_map]
      cases tx0.vin[i]? <;> rfl
    rw [hempty]
    simpa [contributed] using StandardOutput.holds_nil kp.toScriptParams o
      (PartySigns parties tx0 i o)
  | sign received hparty _ hsign ih => exact (signRawTransaction_spec hspends hlaws hparty ih hsign).1

/-- Whatever the order in which the parties have signed and merged, the call says that the
transaction is complete exactly if those who have signed have enough keys for every output, and
an input is verified exactly if they have enough for its own. -/
theorem signRawTransaction_complete (hspends : Spends kp mapPrevOut tx0 outputs)
    (hlaws : ∀ signer ∈ parties, ∀ o ∈ outputs, signer.Lawful o) (hparty : signer ∈ parties)
    (received : List (List (Signer kp) × CTransaction))
    (hreceived : ∀ r ∈ received, Circulates parties mapPrevOut tx0 r.1 r.2) {fComplete : Bool}
    (hsign : signer.signRawTransaction mapPrevOut (received.map Prod.snd) = some (tx, fComplete)) :
    (fComplete = true ↔ ∀ (i : ℕ) (o : StandardOutput), outputs[i]? = some o →
        Enough tx0 i o (signer :: received.flatMap Prod.fst)) ∧
      ∀ (i : ℕ) (o : StandardOutput), outputs[i]? = some o →
        (Signer.InputVerified kp o tx i ↔
          Enough tx0 i o (signer :: received.flatMap Prod.fst)) := by
  obtain ⟨hversion, hcomplete⟩ := signRawTransaction_spec hspends hlaws hparty
    (fun r hr => (hreceived r hr).version hspends hlaws) hsign
  refine ⟨hcomplete, fun i o hio => ?_⟩
  have hmem : o ∈ outputs := mem_of_getElem? hio
  have ho := hspends.valid o hmem
  have hi : i < tx.vin.length := by
    rw [length_of_unsigned_eq hversion.unsigned, ← hspends.length_eq]
    exact (List.getElem?_eq_some_iff.mp hio).1
  have hverify := (hversion.holds i o hio).verifyScript_iff ho (genuine_partySigns
    (fun signer hparty => hlaws signer hparty o hmem) ho hversion.unsigned)
  have hinput : Signer.InputVerified kp o tx i ↔ (verifyScript kp.toScriptParams (tx.scriptSig i)
      (o.scriptPubKey kp.toScriptParams) ⟨tx, i, STANDARD_SCRIPT_VERIFY_FLAGS, 0⟩).isSome =
        true := by
    simp [Signer.InputVerified, CTransaction.scriptSig, hi]
  rw [hinput, hverify]
  simp [Enough]

end Parties

/-! ## A sample -/

def sampleSpend : CTransaction := { vin := [{ prevout := ⟨1, 0⟩ }], vout := [⟨5, []⟩] }

def sampleShared : StandardOutput := ⟨.multisig 2 [sampleKey 7, sampleKey 5], false⟩

/-- One party signs, and another one what the first has signed. -/
theorem signRawTransaction_complete_sample :
    ∃ tx1 fFirst tx2,
      (sampleSigner true).signRawTransaction
        (fun _ => some (sampleShared.scriptPubKey sampleSigning.toScriptParams)) [sampleSpend] =
          some (tx1, fFirst) ∧
      (sampleSigner false).signRawTransaction
        (fun _ => some (sampleShared.scriptPubKey sampleSigning.toScriptParams)) [tx1] =
          some (tx2, true) ∧
      Signer.InputVerified sampleSigning sampleShared tx2 0 := by
  let prev : COutPoint → Option CScript :=
    fun _ => some (sampleShared.scriptPubKey sampleSigning.toScriptParams)
  have hspends : Spends sampleSigning prev sampleSpend [sampleShared] := by
    refine ⟨by decide, rfl, fun o ho => ?_, fun i txin o _ ho => ?_⟩
    · obtain rfl := mem_singleton.mp ho
      exact ⟨⟨by decide, by decide, by decide, by decide, by decide⟩, fun h => by cases h⟩
    · obtain rfl := mem_singleton.mp (mem_of_getElem? ho)
      rfl
  have hlaws : ∀ signer ∈ Set.range sampleSigner, ∀ o ∈ [sampleShared], signer.Lawful o := by
    rintro _ ⟨key, rfl⟩ o ho
    obtain rfl := mem_singleton.mp ho
    exact sampleSigner_lawful key (by decide)
  obtain ⟨⟨tx1, fFirst⟩, hfirst⟩ : ∃ r,
      (sampleSigner true).signRawTransaction prev [sampleSpend] = some r := ⟨_, rfl⟩
  have hcirculates : Circulates (Set.range sampleSigner) prev sampleSpend [sampleSigner true] tx1 :=
    .sign [([], sampleSpend)] ⟨true, rfl⟩ (by
      intro r hr
      obtain rfl := mem_singleton.mp hr
      exact .start) hfirst
  obtain ⟨⟨tx2, fComplete⟩, hsecond⟩ : ∃ r,
      (sampleSigner false).signRawTransaction prev [tx1] = some r := ⟨_, rfl⟩
  have hboth := signRawTransaction_complete hspends hlaws ⟨false, rfl⟩
    [([sampleSigner true], tx1)] (by
      intro r hr
      obtain rfl := mem_singleton.mp hr
      exact hcirculates) hsecond
  have henough : Enough sampleSpend 0 sampleShared [sampleSigner false, sampleSigner true] :=
    show 2 ≤ _ by decide
  obtain rfl : fComplete = true := hboth.1.mpr fun i o ho => by
    have hi : i < 1 := (List.getElem?_eq_some_iff.mp ho).1
    obtain rfl : i = 0 := by omega
    obtain rfl := mem_singleton.mp (mem_of_getElem? ho)
    exact henough
  exact ⟨tx1, fFirst, tx2, hfirst, hsecond, (hboth.2 0 sampleShared rfl).mpr henough⟩

end BitBay
