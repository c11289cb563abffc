import BitBay.Governance.OnBehalf

/-!
# Writing a notary

`ProposalToNotary` turns the stored texts of a proposal into the text that a staker puts into a
coinstake. Numbers are written anew, and the links of a bridge are taken apart at commas,
although the parser has joined them with semicolons. So a bridge with one link comes back as it
was, and one with more links comes back as another proposal.
-/
namespace BitBay

open CString

/-! ## The writer -/

def bridgeObject (name symb urls_txt chain_id contract pegsteps microsteps : CString) :
    JsonValue :=
  .obj [("n".toList, .str name), ("s".toList, .str symb),
    ("l".toList, .array ((sortedTexts (urls_txt.split ',').toFinset).map .str)),
    ("i".toList, .int chain_id.atoi), ("c".toList, .str contract),
    ("p".toList, .int pegsteps.atoi), ("m".toList, .int microsteps.atoi)]

def bridgeJson : List CString → Option (Action × JsonValue)
  | action :: args =>
    match Action.ofText action, args with
    | some .add, name :: symb :: urls_txt :: chain_id :: contract :: pegsteps :: microsteps :: _ =>
      some (.add, bridgeObject name symb urls_txt chain_id contract pegsteps microsteps)
    | some .remove, name :: _ => some (.remove, .obj [("n".toList, .str name)])
    | _, _ => none
  | _ => none

namespace NotaryEnv

variable (env : NotaryEnv)

def trustedStakerText (list : TrustedList) : List CString → CString
  | action :: address_txt :: _ =>
    match Action.ofText action with
    | some action =>
      if env.isValidAddress address_txt then
        "**T**".toList ++ list.digit :: action.digit :: address_txt
      else []
    | none => []
  | _ => []

def consensusText : List CString → CString
  | consensus_type :: t1 :: t2 :: o :: _ =>
    match ConsensusType.ofText consensus_type with
    | some type => "**N**".toList ++ type.letter :: '[' ::
        (join ',' [ofInt t1.atoi, ofInt t2.atoi, ofInt o.atoi] ++ [']'])
    | none => []
  | _ => []

def bridgeText (args : List CString) : CString :=
  match bridgeJson args with
  | some (action, jb) => "**B**".toList ++ action.digit :: env.write_string jb
  | none => []

def merkleText : List CString → CString
  | action :: brname :: merkle :: amount :: _ =>
    if Action.ofText action = some .add then
      "**M**".toList ++ (env.bridgeHash brname ++ ("0x".toList ++ (merkle ++ ':' :: amount)))
    else []
  | _ => []

def timeLockPassText : List CString → CString
  | action :: pubkey_txt :: _ =>
    match Action.ofText action with
    | some action => "**X**".toList ++ action.digit :: pubkey_txt
    | none => []
  | _ => []

def signedObject (pubkeys_txt prop nonce sighex : CString) : JsonValue :=
  .obj [("k".toList, .array ((pubkeys_txt.split ';').map .str)), ("m".toList, .str prop),
    ("n".toList, .int nonce.atoi), ("s".toList, .str sighex)]

def onBehalfText : List CString → CString
  | [action, pubkeys_txt, propdata, nonce, sighex] =>
    if Action.ofText action = some .add then
      "**S**".toList ++ env.write_string
        (signedObject pubkeys_txt (CScript.toCString (parseHex propdata)) nonce sighex)
    else []
  | _ => []

/-- `ProposalToNotary`. It is given a scope and a time at least. -/
def proposalToNotary : List CString → CString
  | scope :: _ :: args =>
    match Scope.ofText scope with
    | some (.tstakers list) => env.trustedStakerText list args
    | some .consensus => consensusText args
    | some .bridge => env.bridgeText args
    | some .merkle => env.merkleText args
    | some .timelockpass => timeLockPassText args
    | some .onbehalf => env.onBehalfText args
    | none => []
  | _ => []

end NotaryEnv

/-! ## Reading what was written -/

section ReadBack

variable {env : NotaryEnv} {bridges : BridgesMap} {p : Proposal}

theorem proposalToNotary_tstakers (list : TrustedList) (action : Action) {address_txt : CString}
    (h : env.isValidAddress address_txt = true) :
    env.proposalToNotary (Proposal.tstakers list action address_txt).pdatas =
      "**T**".toList ++ list.digit :: action.digit :: address_txt := by
  simp [Proposal.pdatas, NotaryEnv.proposalToNotary, NotaryEnv.trustedStakerText, h]

theorem proposalToNotary_consensus (type : ConsensusType) (t1 t2 o : CString) :
    env.proposalToNotary (Proposal.consensus type t1 t2 o).pdatas =
      "**N**".toList ++ type.letter :: '[' ::
        (join ',' [ofInt t1.atoi, ofInt t2.atoi, ofInt o.atoi] ++ [']']) := by
  simp [Proposal.pdatas, NotaryEnv.proposalToNotary, NotaryEnv.consensusText]

theorem proposalToNotary_bridgeRemove (name : CString) :
    env.proposalToNotary (Proposal.bridgeRemove name).pdatas =
      "**B**".toList ++ '2' :: env.write_string (.obj [("n".toList, .str name)]) := by
  simp [Proposal.pdatas, NotaryEnv.proposalToNotary, NotaryEnv.bridgeText, bridgeJson,
    Action.digit]

theorem proposalToNotary_merkleAdd (brname merkle amount_txt : CString) :
    env.proposalToNotary (Proposal.merkleAdd brname merkle amount_txt).pdatas =
      "**M**".toList ++ (env.bridgeHash brname ++ ("0x".toList ++ (merkle ++ ':' :: amount_txt))) := by
  simp [Proposal.pdatas, NotaryEnv.proposalToNotary, NotaryEnv.merkleText]

theorem proposalToNotary_timelockpass (action : Action) (pubkey_txt : CString) :
    env.proposalToNotary (Proposal.timelockpass action pubkey_txt).pdatas =
      "**X**".toList ++ action.digit :: pubkey_txt := by
  simp [Proposal.pdatas, NotaryEnv.proposalToNotary, NotaryEnv.timeLockPassText]

/-! ## The links -/

def BridgeFields.linksText (b : BridgeFields) : CString :=
  join ';' (sortedTexts b.links.toFinset)

def BridgeFields.rewritten (b : BridgeFields) : BridgeFields :=
  { b with links := sortedTexts (b.linksText.split ',').toFinset }

@[simp] theorem mem_sortedTexts {s : CString} {texts : Finset CString} :
    s ∈ sortedTexts texts ↔ s ∈ texts := Finset.mem_sort _

@[simp] theorem sortedTexts_singleton (s : CString) : sortedTexts {s} = [s] :=
  Finset.sort_singleton _ s

theorem linksText_singleton {b : BridgeFields} {link : CString} (h : b.links = [link]) :
    b.linksText = link := by
  rw [BridgeFields.linksText, h]
  simp [join]

/-- The links survive when there is one and it has no comma. -/
theorem links_rewritten_iff {b : BridgeFields} : b.rewritten.links = b.links ↔
    ∃ link, b.links = [link] ∧ ',' ∉ link := by
  have hrewritten : b.rewritten.links = sortedTexts (b.linksText.split ',').toFinset := rfl
  constructor
  · intro h
    have hlinks : ∀ link ∈ b.links, ',' ∉ link := by
      intro link hlink
      rw [← h, hrewritten, mem_sortedTexts, List.mem_toFinset] at hlink
      exact not_mem_of_mem_split hlink
    have htext : ',' ∉ b.linksText := by
      intro hmem
      rcases mem_join hmem with hsep | ⟨link, hlink, hcomma⟩
      · exact absurd hsep (by decide)
      · rw [mem_sortedTexts, List.mem_toFinset] at hlink
        exact hlinks link hlink hcomma
    rw [hrewritten, split_of_not_mem htext] at h
    refine ⟨b.linksText, ?_, htext⟩
    rw [← h]
    simp
  · rintro ⟨link, hlinks, hcomma⟩
    rw [hrewritten, linksText_singleton hlinks, split_of_not_mem hcomma, hlinks]
    simp

/-- The stored links are not longer than the ones that were read. -/
theorem BridgeFields.Fits.length_linksText {b : BridgeFields} {length : ℕ} (h : b.Fits length) :
    b.linksText.length ≤ length := by
  have hperm : (sortedTexts b.links.toFinset).Perm b.links.dedup :=
    (List.perm_ext_iff_of_nodup (Finset.sort_nodup _ _) (List.nodup_dedup _)).mpr
      fun s => by rw [Finset.mem_sort, List.mem_toFinset, List.mem_dedup]
  calc b.linksText.length
      ≤ ((sortedTexts b.links.toFinset).map fun s => s.length + 1).sum := length_join_le _ _
    _ = (b.links.dedup.map fun s => s.length + 1).sum := (hperm.map _).sum_eq
    _ ≤ (b.links.map fun s => s.length + 1).sum :=
        ((List.dedup_sublist _).map _).sum_le_sum (by simp)
    _ ≤ length := h.links

theorem BridgeFields.Fits.link_length {b : BridgeFields} {length : ℕ} (h : b.Fits length)
    {link : CString} (hlink : link ∈ b.links) : link.length < length := by
  have hle := List.single_le_sum (l := b.links.map fun s => s.length + 1) (by simp) _
    (List.mem_map_of_mem hlink)
  have hlinks := h.links
  omega

/-- Two bridges that differ in their links alone are hashed alike only if they do not differ. -/
theorem stream_rewritten_iff {b : BridgeFields} {length : ℕ} (h : b.Fits length)
    (hlength : length < 2 ^ 64) :
    (Proposal.bridgeAdd b.rewritten).stream = (Proposal.bridgeAdd b).stream ↔
      b.rewritten.links = b.links := by
  constructor
  · intro hstream
    refine streamStrings_injective (fun s hs => ?_) (fun s hs => ?_)
      (List.append_cancel_right (List.append_cancel_left hstream))
    · have hpiece : s ∈ b.linksText.split ',' := by
        rw [← List.mem_toFinset, ← mem_sortedTexts]
        exact hs
      have hle := length_le_of_mem_split hpiece
      have htext := h.length_linksText
      omega
    · have hlt := h.link_length hs
      omega
  · intro hlinks
    simp only [Proposal.stream, hlinks]
    rfl

/-! ## Reading the text that was written -/

theorem mapM_get_str (links : List CString) :
    links.mapM (JsonValue.get_str ∘ JsonValue.str) = some links := by
  induction links with
  | nil => rfl
  | cons link rest ih =>
    rw [List.mapM_cons, ih]
    rfl

def BridgeFields.object (b : BridgeFields) : JsonValue :=
  bridgeObject b.name b.symb b.linksText (ofInt b.chain_id) b.contract (ofInt b.pegsteps)
    (ofInt b.microsteps)

theorem IsInt32.atoi_ofInt {n : ℤ} (h : IsInt32 n) : (ofInt n).atoi = n :=
  CString.atoi_ofInt h.1 h.2

theorem IsInt32.bmod {n : ℤ} (h : IsInt32 n) : n.bmod (2 ^ 32) = n := by
  obtain ⟨hlow, hhigh⟩ := h
  exact Int.bmod_eq_of_le (by omega) (by omega)

theorem bridgeAdd_object {b : BridgeFields} {length : ℕ} (h : b.Fits length) :
    b.object.bridgeAdd = some (.bridgeAdd b.rewritten) := by
  have hchain := h.chain_id.bmod
  have hpegsteps := h.pegsteps.bmod
  have hmicrosteps := h.microsteps.bmod
  norm_num at hchain hpegsteps hmicrosteps
  simp only [BridgeFields.object, bridgeObject, h.chain_id.atoi_ofInt, h.pegsteps.atoi_ofInt,
    h.microsteps.atoi_ofInt]
  simp [JsonValue.bridgeAdd, JsonValue.get_obj, JsonValue.find_value, JsonValue.get_str,
    JsonValue.get_array, JsonValue.get_int, hchain, hpegsteps, hmicrosteps]
  rw [mapM_get_str]
  rfl

theorem bridgeJson_pdatas (b : BridgeFields) :
    bridgeJson ((Proposal.bridgeAdd b).pdatas.drop 2) = some (.add, b.object) := by
  simp [Proposal.pdatas, bridgeJson]
  rfl

theorem proposalToNotary_bridgeAdd (b : BridgeFields) :
    env.proposalToNotary (Proposal.bridgeAdd b).pdatas =
      "**B**".toList ++ '1' :: env.write_string b.object := by
  simp [Proposal.pdatas, NotaryEnv.proposalToNotary, NotaryEnv.bridgeText, bridgeJson,
    Action.digit]
  rfl

def Proposal.rewritten : Proposal → Option Proposal
  | .consensus type t1 t2 o =>
    if (ofInt t1.atoi).all Char.isDigit ∧ (ofInt t2.atoi).all Char.isDigit ∧
        (ofInt o.atoi).all Char.isDigit then
      some (.consensus type (ofInt t1.atoi) (ofInt t2.atoi) (ofInt o.atoi))
    else none
  | .bridgeAdd b => some (.bridgeAdd b.rewritten)
  | p => some p

variable {notary : CString}

theorem comma_not_mem_ofInt (n : ℤ) : ',' ∉ ofInt n := not_mem_ofInt (by decide) n

/-- One text is read for every text that is written. -/
theorem parse_written (h : env.Holds bridges notary p)
    (hjson : ∀ action jb, bridgeJson (p.pdatas.drop 2) = some (action, jb) →
      env.read_string (env.write_string jb) = jb) :
    env.parse bridges (env.proposalToNotary p.pdatas) = .ok p.rewritten := by
  cases h with
  | tstakers haddress =>
    rw [proposalToNotary_tstakers _ _ haddress, NotaryEnv.parse_tstakers,
      NotaryEnv.trustedStaker_cons, if_pos haddress]
    rfl
  | @consensus type t1 t2 o _ _ _ =>
    have hsplit : split ',' (join ',' [ofInt t1.atoi, ofInt t2.atoi, ofInt o.atoi]) = _ :=
      (split_join_eq_iff (List.cons_ne_nil _ _)).mpr (by simp [comma_not_mem_ofInt])
    rw [proposalToNotary_consensus, NotaryEnv.parse_consensus, NotaryEnv.consensusVotes_brackets,
      hsplit]
    simp only [NotaryEnv.ofLetter_eq_some_iff.mpr rfl, Option.map_some]
    rfl
  | @bridgeAdd json_txt _ hadd =>
    obtain ⟨b, rfl, hfits⟩ := JsonValue.bridgeAdd_cases hadd
    have hread : env.read_string (env.write_string b.object) = b.object :=
      hjson .add b.object (bridgeJson_pdatas b)
    rw [proposalToNotary_bridgeAdd, NotaryEnv.parse_bridge, NotaryEnv.bridgeVote_add, hread,
      bridgeAdd_object hfits]
    rfl
  | @bridgeRemove json_txt _ hremove =>
    obtain ⟨name, rfl, -⟩ := JsonValue.bridgeRemove_cases hremove
    have hread := hjson .remove (.obj [("n".toList, .str name)])
      (by simp [Proposal.pdatas, bridgeJson])
    rw [proposalToNotary_bridgeRemove, NotaryEnv.parse_bridge, NotaryEnv.bridgeVote_remove, hread]
    rfl
  | @merkleAdd brhash brname merkle amount_txt hlength hbrname hne hmerkle hhex hamount =>
    have hname : env.bridgeHash brname = brhash :=
      hbrname ▸ (NotaryEnv.bridgeName_spec (hbrname ▸ hne)).2
    rw [proposalToNotary_merkleAdd, NotaryEnv.parse_merkle, hname,
      NotaryEnv.merkleAdd_form hlength hmerkle hhex hamount (hbrname ▸ hne), hbrname]
    rfl
  | timelockpass hkey =>
    rw [proposalToNotary_timelockpass, NotaryEnv.parse_timelockpass, NotaryEnv.timeLockPass_cons,
      if_pos hkey]
    rfl

/-- The text that is written is not a signed one. -/
theorem signed_written (h : env.Holds bridges notary p) :
    env.signed (env.proposalToNotary p.pdatas) = none := by
  have hmark {mark : String} (data1 : CString) (hne : "**S**".toList.isPrefixOf mark.toList = false)
      (hlength : mark.toList.length = 5) : env.signed (mark.toList ++ data1) = none := by
    refine if_neg fun hsigned => ?_
    have hprefix := List.prefix_of_prefix_length_le (startsWith_iff.mp hsigned)
      (List.prefix_append mark.toList data1) (hlength ▸ le_rfl)
    rw [← List.isPrefixOf_iff_prefix, hne] at hprefix
    cases hprefix
  cases h with
  | tstakers haddress => exact proposalToNotary_tstakers _ _ haddress ▸ hmark _ rfl rfl
  | consensus _ _ _ => exact @proposalToNotary_consensus env _ _ _ _ ▸ hmark _ rfl rfl
  | bridgeAdd hadd =>
    obtain ⟨b, rfl, -⟩ := JsonValue.bridgeAdd_cases hadd
    exact @proposalToNotary_bridgeAdd env b ▸ hmark _ rfl rfl
  | bridgeRemove hremove =>
    obtain ⟨name, rfl, -⟩ := JsonValue.bridgeRemove_cases hremove
    exact @proposalToNotary_bridgeRemove env name ▸ hmark _ rfl rfl
  | merkleAdd _ _ _ _ _ _ => exact @proposalToNotary_merkleAdd env _ _ _ ▸ hmark _ rfl rfl
  | timelockpass _ => exact @proposalToNotary_timelockpass env _ _ ▸ hmark _ rfl rfl

def Proposal.Rewritable : Proposal → Prop
  | .consensus _ t1 t2 o => ∀ votes ∈ [t1, t2, o], ∃ n : ℕ, n < 2 ^ 31 ∧ votes = ofInt n
  | .bridgeAdd b => ∃ link, b.links = [link] ∧ ',' ∉ link
  | _ => True

theorem pdatas_ne_nil (p : Proposal) : p.pdatas ≠ [] := by
  cases p <;> exact List.cons_ne_nil _ _

theorem ofInt_atoi_iff {votes : CString} (hdigits : votes.all Char.isDigit) :
    ofInt votes.atoi = votes ↔ ∃ n : ℕ, n < 2 ^ 31 ∧ votes = ofInt n := by
  constructor
  · intro heq
    have hnonneg : 0 ≤ votes.atoi := by
      by_contra hneg
      rw [← heq, ofInt_eq, if_neg hneg, List.all_cons] at hdigits
      exact absurd hdigits (by simp)
    have hrange := (int_range (votes.strtol10.getD 0)).2
    refine ⟨votes.atoi.toNat, ?_, ?_⟩
    · unfold atoi at hnonneg ⊢
      omega
    · rw [Int.toNat_of_nonneg hnonneg, heq]
  · rintro ⟨n, hn, rfl⟩
    rw [CString.atoi_ofInt (by omega) (by omega)]

/-- The votes that are needed come back when they are canonical. -/
theorem rewritten_consensus_iff {type : ConsensusType} {t1 t2 o : CString}
    (h1 : t1.all Char.isDigit) (h2 : t2.all Char.isDigit) (ho : o.all Char.isDigit) :
    (∃ p', (Proposal.consensus type t1 t2 o).rewritten = some p' ∧
        p'.pdatas = (Proposal.consensus type t1 t2 o).pdatas ∧
        env.Hash p'.stream = env.Hash (Proposal.consensus type t1 t2 o).stream) ↔
      (Proposal.consensus type t1 t2 o).Rewritable := by
  simp only [Proposal.Rewritable, List.forall_mem_cons, List.not_mem_nil, false_imp_iff,
    implies_true, and_true]
  rw [← ofInt_atoi_iff h1, ← ofInt_atoi_iff h2, ← ofInt_atoi_iff ho]
  constructor
  · rintro ⟨p', hp', hpdatas, -⟩
    rw [Proposal.rewritten] at hp'
    split_ifs at hp'
    cases hp'
    simpa [Proposal.pdatas] using hpdatas
  · rintro ⟨heq1, heq2, heqo⟩
    refine ⟨.consensus type t1 t2 o, ?_, rfl, rfl⟩
    rw [Proposal.rewritten, heq1, heq2, heqo, if_pos ⟨h1, h2, ho⟩]

/-- The texts and the hash come back exactly for the proposals that are rewritten as they were. -/
theorem rewritten_iff (h : env.Holds bridges notary p) (hsize : notary.length < 2 ^ 64)
    (hcollision : ∀ p', p.rewritten = some p' → env.Hash p'.stream = env.Hash p.stream →
      p'.stream = p.stream) :
    (∃ p', p.rewritten = some p' ∧ p'.pdatas = p.pdatas ∧
        env.Hash p'.stream = env.Hash p.stream) ↔ p.Rewritable := by
  cases h with
  | tstakers _ | merkleAdd _ _ _ _ _ _ | timelockpass _ =>
    exact iff_of_true ⟨_, rfl, rfl, rfl⟩ trivial
  | consensus h1 h2 ho => exact rewritten_consensus_iff h1 h2 ho
  | bridgeRemove hremove =>
    obtain ⟨name, rfl, -⟩ := JsonValue.bridgeRemove_cases hremove
    exact iff_of_true ⟨_, rfl, rfl, rfl⟩ trivial
  | @bridgeAdd json_txt _ hadd =>
    obtain ⟨b, rfl, hfits⟩ := JsonValue.bridgeAdd_cases hadd
    have hlength : json_txt.length < 2 ^ 64 := by
      rw [List.length_append, List.length_cons] at hsize
      omega
    rw [Proposal.Rewritable, ← links_rewritten_iff]
    constructor
    · rintro ⟨p', hp', -, hhash⟩
      have hstream := hcollision p' hp' hhash
      cases hp'
      exact (stream_rewritten_iff hfits hlength).mp hstream
    · intro hlinks
      have hsame : b.rewritten = b := by
        cases b
        exact congrArg (fun l => BridgeFields.mk _ _ l _ _ _ _) hlinks
      exact ⟨.bridgeAdd b.rewritten, rfl, by rw [hsame], by rw [hsame]⟩

/-- The texts and the hash of a proposal survive being written as a notary and read again exactly
when the proposal is rewritten as it was: the needed votes are canonical numbers of the `int`
range, and a bridge is added with one link, which has no comma. -/
theorem text_round_trip {phash address_override phash' address_override' : CString}
    {r : NotaryResult} (hplain : notary.startsWith "**S**" = false)
    (hsize : notary.length < 2 ^ 64)
    (h : env.notaryToProposal bridges notary phash address_override = .ok r)
    (haccepted : r.pdatas ≠ [])
    (hjson : ∀ action jb, bridgeJson (r.pdatas.drop 2) = some (action, jb) →
      env.read_string (env.write_string jb) = jb)
    (hcollision : ∀ p p', env.Holds bridges notary p →
      env.Holds bridges (env.proposalToNotary r.pdatas) p' →
      env.Hash p'.stream = env.Hash p.stream → p'.stream = p.stream) :
    (∃ r', env.notaryToProposal bridges (env.proposalToNotary r.pdatas) phash'
        address_override' = .ok r' ∧ r'.pdatas = r.pdatas ∧ r'.phash = r.phash) ↔
      ∀ p, env.Holds bridges notary p → p.Rewritable := by
  have hunsigned : env.signed notary = none := if_neg (by simp [hplain])
  rw [NotaryEnv.notaryToProposal_plain hunsigned] at h
  cases hparse : env.parse bridges notary with
  | error e =>
    rw [hparse] at h
    cases h
  | ok found =>
    cases found with
    | none =>
      rw [hparse] at h
      cases h
      exact absurd rfl haccepted
    | some p =>
      rw [hparse] at h
      cases h
      have hholds := NotaryEnv.parse_eq_some_iff.mp hparse
      have honly : (∀ p, env.Holds bridges notary p → p.Rewritable) ↔ p.Rewritable := by
        refine ⟨fun hall => hall p hholds, fun hp p' hp' => ?_⟩
        rw [NotaryEnv.Holds.parse hp'] at hparse
        cases hparse
        exact hp
      have hread := parse_written hholds hjson
      have hwritten : env.notaryToProposal bridges (env.proposalToNotary p.pdatas) phash'
          address_override' = .ok (env.resultOf phash' address_override' p.rewritten) := by
        rw [NotaryEnv.notaryToProposal_plain (signed_written hholds), hread]
        rfl
      have hcollision' (p' : Proposal) (hp' : p.rewritten = some p') :=
        hcollision p p' hholds (NotaryEnv.parse_eq_some_iff.mp (hp' ▸ hread))
      rw [honly, ← rewritten_iff hholds hsize hcollision']
      change (∃ r', env.notaryToProposal bridges (env.proposalToNotary p.pdatas) phash'
        address_override' = .ok r' ∧ _) ↔ _
      rw [hwritten]
      cases p.rewritten with
      | none =>
        refine iff_of_false ?_ (by simp)
        rintro ⟨r', hr', hpdatas, -⟩
        cases hr'
        exact absurd hpdatas.symm (pdatas_ne_nil p)
      | some p' =>
        constructor
        · rintro ⟨r', hr', hpdatas, hphash⟩
          cases hr'
          exact ⟨p', rfl, hpdatas, getHex_injective hphash⟩
        · rintro ⟨p'', hp'', hpdatas, hhash⟩
          cases hp''
          exact ⟨_, rfl, hpdatas, congrArg getHex hhash⟩

end ReadBack

/-! ## One link and two links -/

def linksBridge (links : List CString) : BridgeFields :=
  ⟨['A'], ['B'], links, 1, "0x1".toList, 3, 8⟩

def oneLink : List CString := ["https://a".toList]
def twoLinks : List CString := ["https://a".toList, "https://b".toList]
def joinedLinks : List CString := ["https://a;https://b".toList]

def linksBridgeText (links : List CString) : CString :=
  "\x7b\"n\":\"A\",\"s\":\"B\",\"l\":[".toList ++
    join ',' (links.map fun link => '"' :: (link ++ ['"'])) ++
    "],\"i\":1,\"c\":\"0x1\",\"p\":3,\"m\":8\x7d".toList

def linksBridgeObject (links : List CString) : List (CString × JsonValue) :=
  [("n".toList, .str ['A']), ("s".toList, .str ['B']), ("l".toList, .array (links.map .str)),
    ("i".toList, .int 1), ("c".toList, .str "0x1".toList), ("p".toList, .int 3),
    ("m".toList, .int 8)]

def linksEnv : NotaryEnv where
  Hash stream :=
    if stream = (Proposal.bridgeAdd (linksBridge oneLink)).stream then
      0x66d389877287cea924ecbbd09501b152267c6023c22e50d413897dcb85f5dbd7
    else if stream = (Proposal.bridgeAdd (linksBridge twoLinks)).stream then
      0x86cf635a9f155c9c77f85899f2339982b2e7ebf96fdea9341cdd3ad7991c7b85
    else 0xe30dea2dfb6fbacf40a8b66c13fcd38b64d15963111a7cf71a1062fe4d5fea72
  isValidAddress _ := false
  keyAddress _ := []
  scriptAddress _ := []
  verifyCompact _ _ _ := false
  read_string text :=
    if text = linksBridgeText oneLink then .obj (linksBridgeObject oneLink)
    else if text = linksBridgeText twoLinks then .obj (linksBridgeObject twoLinks)
    else if text = linksBridgeText joinedLinks then .obj (linksBridgeObject joinedLinks)
    else .null
  write_string value := match value with
    | .obj members => linksBridgeText (JsonValue.find_value members "l").texts
    | _ => []
  length_texts text members name value h hmem := by
    have hall (links : List CString) (hlinks : links ∈ [oneLink, twoLinks, joinedLinks])
        (m : CString × JsonValue) (hm : m ∈ linksBridgeObject links) :
        (m.2.texts.map fun s => s.length + 1).sum ≤ (linksBridgeText links).length := by
      have hcheck : ∀ links ∈ [oneLink, twoLinks, joinedLinks], ∀ m ∈ linksBridgeObject links,
          (m.2.texts.map fun s => s.length + 1).sum ≤ (linksBridgeText links).length := by
        decide
      exact hcheck links hlinks m hm
    split_ifs at h with h1 h2 h3
    · cases h
      exact h1 ▸ hall oneLink (by simp) _ hmem
    · cases h
      exact h2 ▸ hall twoLinks (by simp) _ hmem
    · cases h
      exact h3 ▸ hall joinedLinks (by simp) _ hmem

def linksNotary (links : List CString) : CString := "**B**".toList ++ '1' :: linksBridgeText links

theorem read_links {links : List CString} (h : links ∈ [oneLink, twoLinks, joinedLinks]) :
    linksEnv.read_string (linksBridgeText links) = .obj (linksBridgeObject links) := by
  simp only [List.mem_cons, List.not_mem_nil, or_false] at h
  have htwo : linksBridgeText twoLinks ≠ linksBridgeText oneLink := by decide
  have hone : linksBridgeText joinedLinks ≠ linksBridgeText oneLink := by decide
  have hjoined : linksBridgeText joinedLinks ≠ linksBridgeText twoLinks := by decide
  rcases h with rfl | rfl | rfl
  · simp [linksEnv]
  · simp [linksEnv, htwo]
  · simp [linksEnv, hone, hjoined]

theorem holds_links {links : List CString} (h : links ∈ [oneLink, twoLinks, joinedLinks]) :
    linksEnv.Holds ∅ (linksNotary links) (.bridgeAdd (linksBridge links)) := by
  refine .bridgeAdd ?_
  rw [read_links h]
  simp only [List.mem_cons, List.not_mem_nil, or_false] at h
  rcases h with rfl | rfl | rfl <;> rfl

theorem notaryToProposal_links {links : List CString} (h : links ∈ [oneLink, twoLinks, joinedLinks]) :
    linksEnv.notaryToProposal ∅ (linksNotary links) [] [] =
      .ok ⟨(Proposal.bridgeAdd (linksBridge links)).pdatas,
        getHex (linksEnv.Hash (Proposal.bridgeAdd (linksBridge links)).stream), []⟩ := by
  have hunsigned : linksEnv.signed (linksNotary links) = none := rfl
  rw [NotaryEnv.notaryToProposal_plain hunsigned, (holds_links h).parse]
  rfl

theorem linksText_two : (linksBridge twoLinks).linksText = "https://a;https://b".toList := by
  have hsorted : sortedTexts twoLinks.toFinset = twoLinks :=
    (List.toFinset_sort _ (by decide)).mpr (by decide)
  have hlinks : (linksBridge twoLinks).links = twoLinks := rfl
  rw [BridgeFields.linksText, hlinks, hsorted]
  decide

/-- The object that is written for the bridge holds the text of its links. -/
theorem object_links {links : List CString} {link : CString}
    (h : split ',' (linksBridge links).linksText = [link]) :
    (linksBridge links).object = .obj (linksBridgeObject [link]) := by
  have h1 : (ofInt 1).atoi = 1 := by decide
  have h3 : (ofInt 3).atoi = 3 := by decide
  have h8 : (ofInt 8).atoi = 8 := by decide
  rw [BridgeFields.object, bridgeObject, h]
  simp only [linksBridge, h1, h3, h8, List.toFinset_cons, List.toFinset_nil, insert_empty_eq,
    sortedTexts_singleton]
  rfl

theorem object_one : (linksBridge oneLink).object = .obj (linksBridgeObject oneLink) :=
  object_links (by rw [linksText_singleton rfl]; decide)

theorem object_two : (linksBridge twoLinks).object = .obj (linksBridgeObject joinedLinks) :=
  object_links (by rw [linksText_two]; decide)

theorem text_round_trip_sample : ∃ r',
    linksEnv.notaryToProposal ∅ (linksEnv.proposalToNotary
      (Proposal.bridgeAdd (linksBridge oneLink)).pdatas) [] [] = .ok r' ∧
    r'.pdatas = (Proposal.bridgeAdd (linksBridge oneLink)).pdatas ∧
    r'.phash = getHex (linksEnv.Hash (Proposal.bridgeAdd (linksBridge oneLink)).stream) := by
  have hwritten : linksEnv.proposalToNotary (Proposal.bridgeAdd (linksBridge oneLink)).pdatas =
      linksNotary oneLink := by
    rw [proposalToNotary_bridgeAdd, object_one]
    rfl
  have hholds := holds_links (show oneLink ∈ _ by simp)
  refine (text_round_trip (by decide) (by decide) (notaryToProposal_links (by simp))
    (List.cons_ne_nil _ _) ?_ ?_).mpr ?_
  · intro action jb hjb
    rw [bridgeJson_pdatas] at hjb
    cases hjb
    rw [object_one]
    exact read_links (show oneLink ∈ _ by simp)
  · intro p p' hp hp' _
    rw [hwritten] at hp'
    have hsame := hp.parse.symm.trans hp'.parse
    cases hsame
    rfl
  · intro p hp
    have hsame := hholds.parse.symm.trans hp.parse
    cases hsame
    exact ⟨"https://a".toList, rfl, by decide⟩

/-- Two links come back as one, under another hash. -/
theorem two_links_lost : ∃ r r',
    linksEnv.notaryToProposal ∅ (linksNotary twoLinks) [] [] = .ok r ∧ r.pdatas ≠ [] ∧
    linksEnv.notaryToProposal ∅ (linksEnv.proposalToNotary r.pdatas) [] [] = .ok r' ∧
    r'.phash ≠ r.phash := by
  have hwritten : linksEnv.proposalToNotary (Proposal.bridgeAdd (linksBridge twoLinks)).pdatas =
      linksNotary joinedLinks := by
    rw [proposalToNotary_bridgeAdd, object_two]
    rfl
  have hback := notaryToProposal_links (show joinedLinks ∈ _ by simp)
  rw [← hwritten] at hback
  have hhash : linksEnv.Hash (Proposal.bridgeAdd (linksBridge joinedLinks)).stream ≠
      linksEnv.Hash (Proposal.bridgeAdd (linksBridge twoLinks)).stream := by decide
  exact ⟨_, _, notaryToProposal_links (by simp), List.cons_ne_nil _ _, hback,
    fun h => hhash (getHex_injective h)⟩

end BitBay
