import BitBay.Governance.NotaryForms

/-!
# Votes on behalf of an address

A signed notary lists keys and carries one signature. The vote is credited to the address that
the listed keys make up, and the signature is checked under the first of them. Signed notaries
may be nested: the proposal is the one of the innermost text, and the address that of the
outermost signature.
-/
namespace BitBay

namespace NotaryEnv

variable {env : NotaryEnv} {bridges : BridgesMap} {notary phash address_override : CString}
  {inner : SignedProposal} {r : NotaryResult}

/-! ## Unwrapping -/

theorem innermost_signed (h : env.signed notary = some inner) :
    env.innermost notary = env.innermost inner.proposal := by
  rw [innermost]
  split
  next inner' hinner =>
    rw [h, Option.some.injEq] at hinner
    rw [hinner]
  next hnone =>
    rw [h] at hnone
    cases hnone

theorem innermost_plain (h : env.signed notary = none) : env.innermost notary = notary := by
  rw [innermost]
  split
  next inner hinner =>
    rw [h] at hinner
    cases hinner
  next => rfl

def resultOf (env : NotaryEnv) (phash address_override : CString) : Option Proposal → NotaryResult
  | some p => ⟨p.pdatas, getHex (env.Hash p.stream), address_override⟩
  | none => ⟨[], phash, address_override⟩

/-- The address that a text is credited to: the one of its signature, if it has one. -/
def creditedTo (env : NotaryEnv) (notary address_override : CString) : CString :=
  ((env.signed notary).map SignedProposal.address).getD address_override

theorem notaryToProposal_signed (h : env.signed notary = some inner) :
    env.notaryToProposal bridges notary phash address_override =
      (env.notaryToProposal bridges inner.proposal phash []).map fun r =>
        { r with address_override := inner.address } := by
  rw [notaryToProposal]
  split
  next inner' hinner =>
    rw [h, Option.some.injEq] at hinner
    rw [hinner]
    cases env.notaryToProposal bridges inner'.proposal phash [] <;> rfl
  next hnone =>
    rw [h] at hnone
    cases hnone

theorem notaryToProposal_plain (h : env.signed notary = none) :
    env.notaryToProposal bridges notary phash address_override =
      (env.parse bridges notary).map (env.resultOf phash address_override) := by
  rw [notaryToProposal]
  split
  next inner hinner =>
    rw [h] at hinner
    cases hinner
  next =>
    cases env.parse bridges notary with
    | error e => rfl
    | ok found => cases found <;> rfl

/-- What is returned depends on the innermost text and on the outermost signature alone. -/
theorem notaryToProposal_eq (env : NotaryEnv) (bridges : BridgesMap)
    (notary phash address_override : CString) :
    env.notaryToProposal bridges notary phash address_override =
      (env.parse bridges (env.innermost notary)).map
        (env.resultOf phash (env.creditedTo notary address_override)) := by
  induction notary using innermost.induct env generalizing address_override with
  | case1 notary inner hsigned ih =>
    rw [notaryToProposal_signed hsigned, innermost_signed hsigned, creditedTo, hsigned, ih]
    cases env.parse bridges (env.innermost inner.proposal) with
    | error e => rfl
    | ok found => cases found <;> rfl
  | case2 notary hsigned =>
    rw [notaryToProposal_plain hsigned, innermost_plain hsigned, creditedTo, hsigned]
    rfl

/-- `NotaryToProposal` returns unless the innermost text is the mark that raises. -/
theorem notaryToProposal_returns_iff :
    (∃ r, env.notaryToProposal bridges notary phash address_override = .ok r) ↔
      env.innermost notary ≠ "**N**".toList := by
  rw [notaryToProposal_eq, ← @parse_returns_iff env bridges]
  constructor
  · rintro ⟨r, hr⟩
    cases hparse : env.parse bridges (env.innermost notary) with
    | error e =>
      rw [hparse] at hr
      cases hr
    | ok found => exact ⟨found, rfl⟩
  · rintro ⟨found, hfound⟩
    exact ⟨_, by rw [hfound]; rfl⟩

theorem address_of_returns
    (h : env.notaryToProposal bridges notary phash address_override = .ok r) :
    r.address_override = env.creditedTo notary address_override := by
  rw [notaryToProposal_eq] at h
  cases hparse : env.parse bridges (env.innermost notary) with
  | error e =>
    rw [hparse] at h
    cases h
  | ok found =>
    rw [hparse] at h
    cases found <;> cases h <;> rfl

/-! ## The signature -/

/-- The text is a signed notary with these members, and the first key has signed it. -/
structure CorrectlySigned (env : NotaryEnv) (notary : CString) (fields : SignedFields)
    (key : List UInt8) : Prop where
  mark : notary.startsWith "**S**" = true
  members : (env.read_string (notary.drop 5)).signedFields = some fields
  first : pubKeyOfText fields.pub1hex = some key
  signature : env.verifyCompact key (env.signedHash fields.proposal fields.nonce)
    (parseHex fields.sighex) = true

variable {fields : SignedFields} {key : List UInt8}

theorem CorrectlySigned.signed_eq (h : env.CorrectlySigned notary fields key) :
    env.signed notary = some ⟨fields.proposal, env.votedAddress fields.pubkeys⟩ := by
  simp [signed, h.mark, h.members, h.first, h.signature]

theorem signed_eq_some_iff : env.signed notary = some inner ↔
    ∃ fields key, env.CorrectlySigned notary fields key ∧
      inner = ⟨fields.proposal, env.votedAddress fields.pubkeys⟩ := by
  constructor
  · intro h
    unfold signed at h
    split_ifs at h with hmark
    simp only [Option.bind_eq_bind, Option.bind_eq_some_iff] at h
    obtain ⟨fields, hfields, key, hkey, hinner⟩ := h
    split_ifs at hinner with hverify
    exact ⟨fields, key, ⟨hmark, hfields, hkey, hverify⟩, (Option.some.inj hinner).symm⟩
  · rintro ⟨fields, key, h, rfl⟩
    exact h.signed_eq

/-- The first key stands in front of the list. -/
theorem head_pubkeys {jval : JsonValue} (h : jval.signedFields = some fields) :
    fields.pubkeys.head? = some fields.pub1hex := by
  simp only [JsonValue.signedFields, Option.bind_eq_bind, Option.bind_eq_some_iff] at h
  obtain ⟨_, -, pubs, -, _, -, _, -, _, -, pub1hex, hfirst, hfields⟩ := h
  obtain ⟨value, hvalue, htext⟩ := hfirst
  rw [← Option.some.inj hfields]
  cases pubs with
  | nil => cases hvalue
  | cons first rest =>
    cases hvalue
    cases value with
    | str s => exact htext
    | obj _ | array _ | bool _ | int _ | real | null => cases htext

/-- The address is the one of the signing key, of the script of two keys that starts with it,
or the text that counts for no address. -/
inductive MadeUp (env : NotaryEnv) (pubkeys : List CString) (key : List UInt8) : CString → Prop
  | single (hkeys : pubkeys.length = 1) : MadeUp env pubkeys key (env.keyAddress key)
  | pair {pubkey1 pubkey2 : CString} {key2 : List UInt8} (hkeys : pubkeys = [pubkey1, pubkey2])
      (hkey : pubKeyOfText pubkey2 = some key2) :
      MadeUp env pubkeys key (env.scriptAddress (multisig2 key key2))
  | invalid : MadeUp env pubkeys key "invalid".toList

theorem madeUp_votedAddress {pubkeys : List CString} {pub1hex : CString}
    (hhead : pubkeys.head? = some pub1hex) (hfirst : pubKeyOfText pub1hex = some key) :
    env.MadeUp pubkeys key (env.votedAddress pubkeys) := by
  match pubkeys, hhead with
  | [pubkey], hhead =>
    cases hhead
    simp only [votedAddress, hfirst, Option.map_some, Option.getD_some]
    exact .single rfl
  | [pubkey1, pubkey2], hhead =>
    cases hhead
    cases hsecond : pubKeyOfText pubkey2 with
    | none =>
      simp only [votedAddress, hfirst, hsecond]
      exact .invalid
    | some key2 =>
      simp only [votedAddress, hfirst, hsecond]
      exact .pair rfl hsecond
  | _ :: _ :: _ :: _, _ => exact .invalid

/-- One signature counts for the address. A text that is not correctly signed leaves the
reference alone; a signed one carries a signature under the first listed key, and the address is
the one of that key, or of the script of that key and a second one. -/
theorem override_needs_first_key
    (h : env.notaryToProposal bridges notary phash address_override = .ok r) :
    (∃ fields key, env.CorrectlySigned notary fields key ∧
        fields.pubkeys.head? = some fields.pub1hex ∧
        env.MadeUp fields.pubkeys key r.address_override) ∨
      ((∀ fields key, ¬ env.CorrectlySigned notary fields key) ∧
        r.address_override = address_override) := by
  rw [address_of_returns h, creditedTo]
  cases hsigned : env.signed notary with
  | none =>
    refine .inr ⟨fun fields key hcorrect => ?_, rfl⟩
    rw [hcorrect.signed_eq] at hsigned
    cases hsigned
  | some inner =>
    obtain ⟨fields, key, hcorrect, rfl⟩ := signed_eq_some_iff.mp hsigned
    have hhead := head_pubkeys hcorrect.members
    exact .inl ⟨fields, key, hcorrect, hhead, madeUp_votedAddress hhead hcorrect.first⟩

/-! ## Two keys and one signature -/

def sampleKey1 : CString :=
  "0279be667ef9dcbbac55a06295ce870b07029bfcdb2dce28d959f2815b16f81798".toList

def sampleKey2 : CString :=
  "02c6047f9441ed7d6d3045406e95c07cd85c778e4b8cef3ca7abac09b95c709ee5".toList

/-- The signature of the first key over the wrapped text and the nonce 7. -/
def sampleSignature : CString :=
  ("20f01d6b9018ab421dd410404cb869072065522bf85734008f105cf385a023a80f" ++
    "767b839a166c572d0c092b5a2e42977bb3f3dadea1da34884ef59b69605f9571").toList

def sampleProposal : CString := "**N**T[1,2,3]".toList

def twoKeysText : CString :=
  "\x7b\"k\":[\"".toList ++ sampleKey1 ++ "\",\"".toList ++ sampleKey2 ++
    "\"],\"m\":\"".toList ++ sampleProposal ++ "\",\"n\":7,\"s\":\"".toList ++ sampleSignature ++
    "\"\x7d".toList

def twoKeysValue : List (CString × JsonValue) :=
  [("k".toList, .array [.str sampleKey1, .str sampleKey2]), ("m".toList, .str sampleProposal),
    ("n".toList, .int 7), ("s".toList, .str sampleSignature)]

/-- The texts of the members fit in a text that joins them. -/
theorem texts_le_joined {key1 key2 proposal signature a b c d e : CString} {nonce : ℤ}
    (hb : 2 ≤ b.length) :
    ∀ m ∈ [("k".toList, JsonValue.array [.str key1, .str key2]), ("m".toList, .str proposal),
        ("n".toList, .int nonce), ("s".toList, .str signature)],
      (m.2.texts.map fun s => s.length + 1).sum ≤
        (a ++ key1 ++ b ++ key2 ++ c ++ proposal ++ d ++ signature ++ e).length := by
  simp only [List.forall_mem_cons, List.length_append]
  refine ⟨?_, ?_, ?_, ?_, by simp⟩ <;> simp [JsonValue.texts, JsonValue.get_str] <;> omega

def twoKeysEnv : NotaryEnv where
  Hash stream :=
    if stream = streamStrings [sampleProposal, "7".toList] then
      0xcad399061dc3988b700bc497cb7262078301d210744f1b922b99cc35f3c50f9a
    else 0x085a476c77ad085f6a6a58ca444f14613f94412415338fcca3c4a3e24b349f12
  isValidAddress _ := false
  keyAddress key :=
    if key = parseHex sampleKey1 then "BF8MAsLp7aSfb9g9qGSHwzDerit8nAZAJX".toList
    else "B54SJjUL2xndPGcjV4uiQFxogc5b3eMhts".toList
  scriptAddress _ := "bETfYffNVeAkVZWmsH4aN4y2yn4aW4kbaa".toList
  verifyCompact key hash sig := key = parseHex sampleKey1 ∧
    hash = 0xcad399061dc3988b700bc497cb7262078301d210744f1b922b99cc35f3c50f9a ∧
    sig = parseHex sampleSignature
  read_string text := if text = twoKeysText then .obj twoKeysValue else .null
  write_string _ := twoKeysText
  length_texts text members name value h hmem := by
    split_ifs at h with htext
    · cases h
      exact htext ▸ texts_le_joined (by decide) _ hmem

def twoKeysNotary : CString := "**S**".toList ++ twoKeysText

theorem pubKeyOfText_sampleKey1 : pubKeyOfText sampleKey1 = some (parseHex sampleKey1) := by
  rw [show sampleKey1 = _ from String.toList_ofList]
  decide

theorem pubKeyOfText_sampleKey2 : pubKeyOfText sampleKey2 = some (parseHex sampleKey2) := by
  rw [show sampleKey2 = _ from String.toList_ofList]
  decide

theorem hash_twoKeys (stream : CString) : twoKeysEnv.Hash stream =
    if stream = streamStrings [sampleProposal, "7".toList] then
      0xcad399061dc3988b700bc497cb7262078301d210744f1b922b99cc35f3c50f9a
    else 0x085a476c77ad085f6a6a58ca444f14613f94412415338fcca3c4a3e24b349f12 := rfl

theorem signedHash_sample : twoKeysEnv.signedHash sampleProposal 7 =
    0xcad399061dc3988b700bc497cb7262078301d210744f1b922b99cc35f3c50f9a := by
  have hnonce : CString.ofInt 7 = "7".toList := by decide
  rw [signedHash, hnonce, hash_twoKeys, if_pos rfl]

theorem verifyCompact_twoKeys (key : List UInt8) (hash : UInt256) (sig : List UInt8) :
    twoKeysEnv.verifyCompact key hash sig = true ↔ key = parseHex sampleKey1 ∧
      hash = 0xcad399061dc3988b700bc497cb7262078301d210744f1b922b99cc35f3c50f9a ∧
      sig = parseHex sampleSignature :=
  decide_eq_true_iff

theorem verifyCompact_sample : twoKeysEnv.verifyCompact (parseHex sampleKey1)
    (twoKeysEnv.signedHash sampleProposal 7) (parseHex sampleSignature) = true :=
  (verifyCompact_twoKeys _ _ _).mpr ⟨rfl, signedHash_sample, rfl⟩

theorem parseHex_sampleKey_ne : parseHex sampleKey2 ≠ parseHex sampleKey1 := by
  rw [show sampleKey1 = _ from String.toList_ofList, show sampleKey2 = _ from String.toList_ofList]
  decide

theorem correctlySigned_sample : twoKeysEnv.CorrectlySigned twoKeysNotary
    ⟨sampleSignature, sampleProposal, 7, [sampleKey1, sampleKey2], sampleKey1⟩
    (parseHex sampleKey1) where
  mark := rfl
  members := by
    have htext : twoKeysNotary.drop 5 = twoKeysText := List.drop_left' rfl
    rw [htext]
    simp only [twoKeysEnv, if_true]
    rfl
  first := pubKeyOfText_sampleKey1
  signature := by simp only [verifyCompact_sample]

/-- The vote of the two keys is credited to the address of their script. -/
theorem notaryToProposal_sample : twoKeysEnv.notaryToProposal ∅ twoKeysNotary [] [] =
    .ok ⟨(Proposal.consensus .tstakers ['1'] ['2'] ['3']).pdatas,
      getHex 0x085a476c77ad085f6a6a58ca444f14613f94412415338fcca3c4a3e24b349f12,
      "bETfYffNVeAkVZWmsH4aN4y2yn4aW4kbaa".toList⟩ := by
  have hplain : twoKeysEnv.signed sampleProposal = none := rfl
  have hparse : twoKeysEnv.parse ∅ sampleProposal =
      .ok (some (.consensus .tstakers ['1'] ['2'] ['3'])) := rfl
  have haddress : twoKeysEnv.votedAddress [sampleKey1, sampleKey2] =
      "bETfYffNVeAkVZWmsH4aN4y2yn4aW4kbaa".toList := by
    simp only [votedAddress, pubKeyOfText_sampleKey1, pubKeyOfText_sampleKey2]
    rfl
  have hhash : twoKeysEnv.Hash (Proposal.consensus .tstakers ['1'] ['2'] ['3']).stream =
      0x085a476c77ad085f6a6a58ca444f14613f94412415338fcca3c4a3e24b349f12 := by decide
  rw [notaryToProposal_signed correctlySigned_sample.signed_eq, notaryToProposal_plain hplain,
    hparse]
  simp only [Except.map, resultOf, hhash, haddress]

theorem override_needs_first_key_sample :
    ∃ fields key, twoKeysEnv.CorrectlySigned twoKeysNotary fields key ∧
      twoKeysEnv.MadeUp fields.pubkeys key "bETfYffNVeAkVZWmsH4aN4y2yn4aW4kbaa".toList := by
  rcases override_needs_first_key notaryToProposal_sample with ⟨fields, key, h⟩ | ⟨-, h⟩
  · exact ⟨fields, key, h.1, h.2.2⟩
  · exact absurd h (by decide)

/-- The second key of the script has not signed. -/
theorem second_key_unsigned : ∃ r, twoKeysEnv.notaryToProposal ∅ twoKeysNotary [] [] = .ok r ∧
    r.pdatas ≠ [] ∧
    r.address_override =
      twoKeysEnv.scriptAddress (multisig2 (parseHex sampleKey1) (parseHex sampleKey2)) ∧
    twoKeysEnv.verifyCompact (parseHex sampleKey2) (twoKeysEnv.signedHash sampleProposal 7)
      (parseHex sampleSignature) = false :=
  ⟨_, notaryToProposal_sample, List.cons_ne_nil _ _, rfl,
    Bool.eq_false_iff.mpr fun h =>
      parseHex_sampleKey_ne ((verifyCompact_twoKeys _ _ _).mp h).1⟩

end NotaryEnv

end BitBay
