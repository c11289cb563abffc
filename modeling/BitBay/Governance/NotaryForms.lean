import BitBay.Governance.Notary

/-!
# The forms of a notary

`Holds` lists the texts that hold a proposal, one form for every scope and action. The parser
finds a proposal in a text exactly when the text has one of the forms, and it raises an
exception for one text alone: the mark of the consensus scope with nothing behind it.
-/
namespace BitBay

open CString

def TrustedList.digit : TrustedList → Char
  | tstakers1 => '1'
  | tstakers2 => '2'

def Action.digit : Action → Char
  | add => '1'
  | remove => '2'

namespace NotaryEnv

variable {env : NotaryEnv} {bridges : BridgesMap} {data1 notary : CString} {p : Proposal}

inductive Holds (env : NotaryEnv) (bridges : BridgesMap) : CString → Proposal → Prop
  | tstakers {list : TrustedList} {action : Action} {address_txt : CString}
      (haddress : env.isValidAddress address_txt = true) :
      Holds env bridges ("**T**".toList ++ list.digit :: action.digit :: address_txt)
        (.tstakers list action address_txt)
  | consensus {type : ConsensusType} {t1 t2 o : CString} (h1 : t1.all Char.isDigit)
      (h2 : t2.all Char.isDigit) (ho : o.all Char.isDigit) :
      Holds env bridges ("**N**".toList ++ type.letter :: '[' :: (join ',' [t1, t2, o] ++ [']']))
        (.consensus type t1 t2 o)
  | bridgeAdd {json_txt : CString} {p : Proposal}
      (hjson : (env.read_string json_txt).bridgeAdd = some p) :
      Holds env bridges ("**B**".toList ++ '1' :: json_txt) p
  | bridgeRemove {json_txt : CString} {p : Proposal}
      (hjson : (env.read_string json_txt).bridgeRemove = some p) :
      Holds env bridges ("**B**".toList ++ '2' :: json_txt) p
  | merkleAdd {brhash brname merkle amount_txt : CString} (hlength : brhash.length = 64)
      (hbrname : env.bridgeName bridges brhash = brname) (hne : brname ≠ [])
      (hmerkle : merkle.length = 64) (hhex : isHex merkle) (hamount : 0 < amount_txt.strtoll) :
      Holds env bridges
        ("**M**".toList ++ (brhash ++ ("0x".toList ++ (merkle ++ ':' :: amount_txt))))
        (.merkleAdd brname merkle amount_txt)
  | timelockpass {action : Action} {pubkey_txt : CString}
      (hkey : (pubKeyOfText pubkey_txt).isSome) :
      Holds env bridges ("**X**".toList ++ action.digit :: pubkey_txt)
        (.timelockpass action pubkey_txt)

/-! ## The mark -/

theorem parse_tstakers (data1 : CString) :
    env.parse bridges ("**T**".toList ++ data1) = env.trustedStaker data1 := by
  simp [parse, startsWith, substrFrom]

theorem parse_consensus (data1 : CString) :
    env.parse bridges ("**N**".toList ++ data1) = consensusVotes data1 := by
  simp [parse, startsWith, substrFrom]

theorem parse_bridge (data1 : CString) :
    env.parse bridges ("**B**".toList ++ data1) = env.bridgeVote data1 := by
  simp [parse, startsWith, substrFrom]

theorem parse_merkle (data1 : CString) :
    env.parse bridges ("**M**".toList ++ data1) = env.merkleAdd bridges data1 := by
  simp [parse, startsWith, substrFrom]

theorem parse_timelockpass (data1 : CString) :
    env.parse bridges ("**X**".toList ++ data1) = timeLockPass data1 := by
  simp [parse, startsWith, substrFrom]

/-- A text without one of the marks holds nothing. -/
theorem parse_mark (env : NotaryEnv) (bridges : BridgesMap) (notary : CString) :
    (∃ mark data1, mark ∈ ["**T**", "**N**", "**B**", "**M**", "**X**"] ∧
      notary = mark.toList ++ data1) ∨ env.parse bridges notary = .ok none := by
  by_cases h : ∃ mark, mark ∈ ["**T**", "**N**", "**B**", "**M**", "**X**"] ∧
      notary.startsWith mark = true
  · obtain ⟨mark, hmark, hstarts⟩ := h
    obtain ⟨data1, hnotary⟩ := startsWith_iff.mp hstarts
    exact .inl ⟨mark, data1, hmark, hnotary.symm⟩
  · right
    simp only [List.mem_cons, List.not_mem_nil, or_false, exists_eq_or_imp, exists_eq_left,
      not_or] at h
    obtain ⟨hT, hN, hB, hM, hX⟩ := h
    simp [parse, hT, hN, hB, hM, hX]

/-! ## One scope at a time -/

theorem digit_cases {c : Char} (h : c = '1' ∨ c = '2') : ∃ action : Action, c = action.digit :=
  h.elim (fun h => ⟨.add, h⟩) fun h => ⟨.remove, h⟩

theorem list_cases {c : Char} (h : c = '1' ∨ c = '2') : ∃ list : TrustedList, c = list.digit :=
  h.elim (fun h => ⟨.tstakers1, h⟩) fun h => ⟨.tstakers2, h⟩

theorem trustedStaker_cons (list : TrustedList) (action : Action) (address_txt : CString) :
    env.trustedStaker (list.digit :: action.digit :: address_txt) =
      .ok (if env.isValidAddress address_txt then some (.tstakers list action address_txt)
        else none) := by
  cases list <;> cases action <;>
    simp [trustedStaker, substr, substrFrom, TrustedList.digit, Action.digit] <;>
    split_ifs <;> rfl

theorem trustedStaker_other (h : ∀ (list : TrustedList) (action : Action) (address_txt : CString),
    data1 ≠ list.digit :: action.digit :: address_txt) : env.trustedStaker data1 = .ok none := by
  match data1 with
  | [] => simp [trustedStaker, substr]
  | [c] => simp [trustedStaker, substr]
  | c :: d :: address_txt =>
    by_cases hc : c = '1' ∨ c = '2'
    · by_cases hd : d = '1' ∨ d = '2'
      · obtain ⟨list, rfl⟩ := list_cases hc
        obtain ⟨action, rfl⟩ := digit_cases hd
        exact absurd rfl (h list action address_txt)
      · simp [trustedStaker, substr, hd]
    · simp [trustedStaker, substr, hc]

theorem timeLockPass_cons (action : Action) (pubkey_txt : CString) :
    timeLockPass (action.digit :: pubkey_txt) =
      .ok (if (pubKeyOfText pubkey_txt).isSome then some (.timelockpass action pubkey_txt)
        else none) := by
  cases action <;> simp [timeLockPass, substr, substrFrom, Action.digit] <;> split_ifs <;> rfl

theorem timeLockPass_other (h : ∀ (action : Action) (pubkey_txt : CString),
    data1 ≠ action.digit :: pubkey_txt) : timeLockPass data1 = .ok none := by
  match data1 with
  | [] => simp [timeLockPass, substr]
  | c :: pubkey_txt =>
    by_cases hc : c = '1' ∨ c = '2'
    · obtain ⟨action, rfl⟩ := digit_cases hc
      exact absurd rfl (h action pubkey_txt)
    · simp [timeLockPass, substr, hc]

theorem bridgeVote_add (json_txt : CString) :
    env.bridgeVote ('1' :: json_txt) = .ok (env.read_string json_txt).bridgeAdd := by
  simp [bridgeVote, substr, substrFrom]

theorem bridgeVote_remove (json_txt : CString) :
    env.bridgeVote ('2' :: json_txt) = .ok (env.read_string json_txt).bridgeRemove := by
  simp [bridgeVote, substr, substrFrom]

theorem bridgeVote_other (h1 : ∀ json_txt, data1 ≠ '1' :: json_txt)
    (h2 : ∀ json_txt, data1 ≠ '2' :: json_txt) : env.bridgeVote data1 = .ok none := by
  match data1 with
  | [] => simp [bridgeVote, substr]
  | c :: json_txt =>
    have hc1 : c ≠ '1' := fun hc => h1 json_txt (by rw [hc])
    have hc2 : c ≠ '2' := fun hc => h2 json_txt (by rw [hc])
    simp [bridgeVote, substr, hc1, hc2]

theorem consensusVotes_brackets (c : Char) (votes_txt : CString) :
    consensusVotes (c :: '[' :: (votes_txt ++ [']'])) = .ok (match votes_txt.split ',' with
      | [t1, t2, o] =>
        if t1.all Char.isDigit ∧ t2.all Char.isDigit ∧ o.all Char.isDigit then
          (ConsensusType.ofLetter [c]).map fun type => .consensus type t1 t2 o
        else none
      | _ => none) := by
  have hlast : List.drop (votes_txt.length + 2) (c :: '[' :: (votes_txt ++ [']'])) = [']'] := by
    simp
  have hvotes : votes_txt.length + 1 + 1 + 1 - 3 = votes_txt.length := by omega
  simp only [consensusVotes, substr, List.length_cons, List.length_append, List.length_nil,
    Nat.zero_add, Nat.add_sub_cancel, zero_le, if_true, ok_bind, List.drop_zero, List.take_succ_cons,
    List.take_zero, hvotes]
  rw [if_pos (by omega), if_pos (by omega), if_pos (by omega)]
  simp only [ok_bind, hlast, List.drop_succ_cons, List.drop_zero, List.take_succ_cons,
    List.take_zero, List.take_left, and_self, if_true]
  generalize CString.split ',' votes_txt = votes
  rcases votes with _ | ⟨t1, _ | ⟨t2, _ | ⟨o, _ | ⟨_, _⟩⟩⟩⟩
  · rfl
  · rfl
  · rfl
  · dsimp only
    split_ifs <;> rfl
  · rfl

theorem consensusVotes_other (hne : data1 ≠ [])
    (h : ∀ c votes_txt, data1 ≠ c :: '[' :: (votes_txt ++ [']'])) :
    consensusVotes data1 = .ok none := by
  obtain ⟨before, last, hlast⟩ := List.eq_nil_or_concat data1 |>.resolve_left hne
  have hve : (data1.drop (data1.length - 1)).take 1 = [last] := by
    rw [hlast]
    simp
  have hpos : 1 ≤ data1.length := List.length_pos_iff.mpr hne
  simp only [consensusVotes, substr_ok (Nat.zero_le _), substr_ok hpos,
    substr_ok (Nat.sub_le data1.length 1), ok_bind, hve]
  rw [if_neg]
  · rfl
  · rintro ⟨hvb, hend⟩
    match data1, hvb with
    | c :: d :: rest, hvb =>
      have hd : d = '[' := by simpa using hvb
      have hl : last = ']' := by simpa using hend
      rcases List.eq_nil_or_concat rest with rfl | ⟨votes, e, rfl⟩
      · have hends : [c] ++ [d] = before ++ [last] := by simpa using hlast
        have hdl := List.append_inj_right' hends rfl
        rw [hd, hl] at hdl
        exact absurd hdl (by decide)
      · have hends : c :: d :: votes ++ [e] = before ++ [last] := by simpa using hlast
        have hel := List.append_inj_right' hends rfl
        refine h c votes ?_
        rw [hd, List.concat_eq_append, hel, hl]

theorem not_mem_of_digits {s : CString} (h : s.all Char.isDigit) : ',' ∉ s :=
  fun hmem => absurd (List.all_eq_true.mp h ',' hmem) (by decide)

theorem ofLetter_eq_some_iff {c : Char} {type : ConsensusType} :
    ConsensusType.ofLetter [c] = some type ↔ c = type.letter := by
  constructor
  · intro h
    simpa using List.find?_some h
  · rintro rfl
    cases type <;> rfl

/-- The name that is found is one of the table and has the hash. -/
theorem bridgeName_spec {brhash : CString} (hne : env.bridgeName bridges brhash ≠ []) :
    env.bridgeName bridges brhash ∈ bridges.keys ∧
      env.bridgeHash (env.bridgeName bridges brhash) = brhash := by
  have hfold (names : List CString) : ∀ brname : CString, ∀ found,
      found = names.foldl (fun brname name =>
        if env.bridgeHash name = brhash then name else brname) brname →
      found = brname ∨ found ∈ names ∧ env.bridgeHash found = brhash := by
    induction names with
    | nil => exact fun _ _ h => .inl h
    | cons name rest ih =>
      intro brname found hfound
      rw [List.foldl_cons] at hfound
      rcases ih _ found hfound with h | ⟨hmem, hhash⟩
      · split_ifs at h with hname
        · exact .inr ⟨h ▸ List.mem_cons_self, h ▸ hname⟩
        · exact .inl h
      · exact .inr ⟨List.mem_cons_of_mem _ hmem, hhash⟩
  exact (hfold bridges.keys [] _ rfl).resolve_left hne

/-- The parts of the text of a merkle root, wherever they are cut. -/
theorem merkleAdd_eq (mdata : CString) : env.merkleAdd bridges mdata = .ok
    (if 132 ≤ mdata.length ∧ "0x".toList <+: (mdata.drop 64).take 66 ∧
        isHex (((mdata.drop 64).take 66).drop 2) ∧ (mdata.drop 130).take 1 = [':'] ∧
        0 < CString.strtoll (mdata.drop 131) ∧ env.bridgeName bridges (mdata.take 64) ≠ [] then
      some (.merkleAdd (env.bridgeName bridges (mdata.take 64)) (((mdata.drop 64).take 66).drop 2)
        (mdata.drop 131))
    else none) := by
  unfold merkleAdd
  by_cases hsize : 132 ≤ mdata.length
  · have hprefix : 2 ≤ ((mdata.drop 64).take 66).length := by
      rw [List.length_take, List.length_drop]
      omega
    rw [if_pos (by omega), substr_ok (Nat.zero_le _), substr_ok (by omega), substr_ok (by omega),
      substrFrom_ok (by omega)]
    simp only [ok_bind, startsWith_iff, substrFrom_ok hprefix, hsize, true_and, List.drop_zero]
    split_ifs with h1 h2 h3 h4 h5 <;> first | rfl | (exfalso; tauto)
  · rw [if_neg (by omega), if_neg fun h => hsize h.1]
    rfl

theorem merkleAdd_form {brhash merkle amount_txt : CString} (hlength : brhash.length = 64)
    (hmerkle : merkle.length = 64) (hhex : isHex merkle) (hamount : 0 < amount_txt.strtoll)
    (hne : env.bridgeName bridges brhash ≠ []) :
    env.merkleAdd bridges (brhash ++ ("0x".toList ++ (merkle ++ ':' :: amount_txt))) =
      .ok (some (.merkleAdd (env.bridgeName bridges brhash) merkle amount_txt)) := by
  have hone : 1 ≤ amount_txt.length := by
    rw [Nat.one_le_iff_ne_zero]
    intro h
    rw [List.length_eq_zero_iff.mp h] at hamount
    exact absurd hamount (by decide)
  have hx : ("0x".toList).length = 2 := rfl
  have htake : (brhash ++ ("0x".toList ++ (merkle ++ ':' :: amount_txt))).take 64 = brhash := by
    rw [← hlength, List.take_left]
  have hmid : ((brhash ++ ("0x".toList ++ (merkle ++ ':' :: amount_txt))).drop 64).take 66 =
      "0x".toList ++ merkle := by
    rw [← hlength, List.drop_left, ← List.append_assoc]
    exact List.take_left' (by simp [hmerkle])
  have hrest : (brhash ++ ("0x".toList ++ (merkle ++ ':' :: amount_txt))).drop 130 =
      ':' :: amount_txt := by
    rw [← List.append_assoc, ← List.append_assoc]
    exact List.drop_left' (by simp [hlength, hmerkle])
  have hafter : (brhash ++ ("0x".toList ++ (merkle ++ ':' :: amount_txt))).drop 131 =
      amount_txt := by
    rw [show 131 = 130 + 1 from rfl, ← List.drop_drop, hrest]
    rfl
  rw [merkleAdd_eq, htake, hmid, hrest, hafter, if_pos]
  · rfl
  · refine ⟨?_, List.prefix_append _ _, hhex, rfl, hamount, hne⟩
    simp only [List.length_append, List.length_cons, hlength, hmerkle, hx]
    omega

/-! ## The parser finds the forms -/

theorem Holds.parse (h : env.Holds bridges notary p) :
    env.parse bridges notary = .ok (some p) := by
  cases h with
  | tstakers haddress => rw [parse_tstakers, trustedStaker_cons, if_pos haddress]
  | consensus h1 h2 ho =>
    have hsplit : split ',' (join ',' [_, _, _]) = [_, _, _] :=
      (split_join_eq_iff (List.cons_ne_nil _ _)).mpr (by
        simp only [List.forall_mem_cons]
        exact ⟨not_mem_of_digits h1, not_mem_of_digits h2, not_mem_of_digits ho, by simp⟩)
    rw [parse_consensus, consensusVotes_brackets, hsplit]
    simp only [h1, h2, ho, and_self, if_true, ofLetter_eq_some_iff.mpr rfl, Option.map_some]
  | bridgeAdd hjson => rw [parse_bridge, bridgeVote_add, hjson]
  | bridgeRemove hjson => rw [parse_bridge, bridgeVote_remove, hjson]
  | merkleAdd hlength hbrname hne hmerkle hhex hamount =>
    subst hbrname
    rw [parse_merkle, merkleAdd_form hlength hmerkle hhex hamount hne]
  | timelockpass hkey => rw [parse_timelockpass, timeLockPass_cons, if_pos hkey]

variable (env bridges) in
/-- The branch for the text returns nothing, or a proposal that the text holds. -/
def Finds (notary : CString) (r : Except StdException (Option Proposal)) : Prop :=
  r = .ok none ∨ ∃ p, r = .ok (some p) ∧ env.Holds bridges notary p

theorem finds_ite {c : Prop} [Decidable c] (h : c → env.Holds bridges notary p) :
    env.Finds bridges notary (.ok (if c then some p else none)) := by
  split_ifs with hc
  · exact .inr ⟨p, rfl, h hc⟩
  · exact .inl rfl

theorem trustedStaker_finds (data1 : CString) :
    env.Finds bridges ("**T**".toList ++ data1) (env.trustedStaker data1) := by
  by_cases hform : ∃ (list : TrustedList) (action : Action) (address_txt : CString),
      data1 = list.digit :: action.digit :: address_txt
  · obtain ⟨list, action, address_txt, rfl⟩ := hform
    rw [trustedStaker_cons]
    exact finds_ite .tstakers
  · push Not at hform
    exact .inl (trustedStaker_other hform)

theorem consensusVotes_finds (hne : data1 ≠ []) :
    env.Finds bridges ("**N**".toList ++ data1) (consensusVotes data1) := by
  by_cases hform : ∃ c votes_txt, data1 = c :: '[' :: (votes_txt ++ [']'])
  · obtain ⟨c, votes_txt, rfl⟩ := hform
    rw [consensusVotes_brackets]
    split
    next t1 t2 o hsplit =>
      cases htype : ConsensusType.ofLetter [c] with
      | none => exact .inl (by simp)
      | some type =>
        have hjoin : join ',' [t1, t2, o] = votes_txt := by
          rw [← hsplit]
          exact List.intercalate_splitOn ','
        rw [ofLetter_eq_some_iff.mp htype, ← hjoin]
        exact finds_ite fun ⟨h1, h2, ho⟩ => .consensus h1 h2 ho
    next => exact .inl rfl
  · push Not at hform
    exact .inl (consensusVotes_other hne hform)

theorem bridgeVote_finds (data1 : CString) :
    env.Finds bridges ("**B**".toList ++ data1) (env.bridgeVote data1) := by
  by_cases h1 : ∃ json_txt, data1 = '1' :: json_txt
  · obtain ⟨json_txt, rfl⟩ := h1
    rw [bridgeVote_add]
    cases hjson : (env.read_string json_txt).bridgeAdd with
    | none => exact .inl rfl
    | some p => exact .inr ⟨p, rfl, .bridgeAdd hjson⟩
  · by_cases h2 : ∃ json_txt, data1 = '2' :: json_txt
    · obtain ⟨json_txt, rfl⟩ := h2
      rw [bridgeVote_remove]
      cases hjson : (env.read_string json_txt).bridgeRemove with
      | none => exact .inl rfl
      | some p => exact .inr ⟨p, rfl, .bridgeRemove hjson⟩
    · push Not at h1 h2
      exact .inl (bridgeVote_other h1 h2)

theorem merkleAdd_finds (mdata : CString) :
    env.Finds bridges ("**M**".toList ++ mdata) (env.merkleAdd bridges mdata) := by
  rw [merkleAdd_eq]
  refine finds_ite fun ⟨hsize, ⟨merkle, hmerkle⟩, hhex, hsep, hamount, hne⟩ => ?_
  have hlength : ("0x".toList ++ merkle).length = 66 := by
    rw [hmerkle, List.length_take, List.length_drop]
    omega
  have hbrhash : (mdata.take 64).length = 64 := by
    rw [List.length_take]
    omega
  have hcut := List.take_append_drop 66 (mdata.drop 64)
  have hrest := List.take_append_drop 1 (mdata.drop 130)
  rw [List.drop_drop, ← hmerkle] at hcut
  rw [List.drop_drop, hsep] at hrest
  have hparts : mdata = mdata.take 64 ++ ("0x".toList ++ (merkle ++ ':' :: mdata.drop 131)) := by
    calc mdata = mdata.take 64 ++ mdata.drop 64 := (List.take_append_drop 64 mdata).symm
      _ = mdata.take 64 ++ ("0x".toList ++ merkle ++ mdata.drop 130) := by rw [← hcut]
      _ = mdata.take 64 ++ ("0x".toList ++ merkle ++ ([':'] ++ mdata.drop 131)) := by rw [← hrest]
      _ = _ := by rw [List.append_assoc]; rfl
  rw [← hmerkle] at hhex ⊢
  nth_rewrite 1 [hparts]
  refine .merkleAdd hbrhash rfl hne ?_ hhex hamount
  have hx : ("0x".toList).length = 2 := rfl
  rw [List.length_append] at hlength
  omega

theorem timeLockPass_finds (data1 : CString) :
    env.Finds bridges ("**X**".toList ++ data1) (timeLockPass data1) := by
  by_cases hform : ∃ (action : Action) (pubkey_txt : CString), data1 = action.digit :: pubkey_txt
  · obtain ⟨action, pubkey_txt, rfl⟩ := hform
    rw [timeLockPass_cons]
    exact finds_ite .timelockpass
  · push Not at hform
    exact .inl (timeLockPass_other hform)

theorem parse_finds (hne : notary ≠ "**N**".toList) :
    env.Finds bridges notary (env.parse bridges notary) := by
  rcases parse_mark env bridges notary with ⟨mark, data1, hmark, rfl⟩ | hnone
  · simp only [List.mem_cons, List.not_mem_nil, or_false] at hmark
    rcases hmark with rfl | rfl | rfl | rfl | rfl
    · rw [parse_tstakers]
      exact trustedStaker_finds data1
    · have hnil : data1 ≠ [] := by
        rintro rfl
        exact hne (List.append_nil _)
      rw [parse_consensus]
      exact consensusVotes_finds hnil
    · rw [parse_bridge]
      exact bridgeVote_finds data1
    · rw [parse_merkle]
      exact merkleAdd_finds data1
    · rw [parse_timelockpass]
      exact timeLockPass_finds data1
  · exact .inl hnone

theorem parse_mark_alone : env.parse bridges "**N**".toList = .error .out_of_range :=
  parse_consensus []

/-- The parser finds a proposal in the texts that hold one. -/
theorem parse_eq_some_iff : env.parse bridges notary = .ok (some p) ↔
    env.Holds bridges notary p := by
  refine ⟨fun h => ?_, Holds.parse⟩
  have hne : notary ≠ "**N**".toList := by
    rintro rfl
    rw [parse_mark_alone] at h
    cases h
  rcases parse_finds hne with hnone | ⟨p', hsome, hholds⟩
  · rw [hnone] at h
    cases h
  · rw [hsome] at h
    cases h
    exact hholds

/-- The parser returns from every text but one. -/
theorem parse_returns_iff : (∃ r, env.parse bridges notary = .ok r) ↔
    notary ≠ "**N**".toList := by
  constructor
  · rintro ⟨r, hr⟩ rfl
    rw [parse_mark_alone] at hr
    cases hr
  · intro hne
    rcases parse_finds hne with hnone | ⟨p, hsome, -⟩
    · exact ⟨_, hnone⟩
    · exact ⟨_, hsome⟩

end NotaryEnv

/-! ## The fields of a bridge -/

theorem int_range (n : ℤ) : -2 ^ 31 ≤ n.bmod (2 ^ 32) ∧ n.bmod (2 ^ 32) < 2 ^ 31 := by
  have hlow := Int.le_bmod (x := n) (m := 2 ^ 32) (by decide)
  have hhigh := Int.bmod_lt (x := n) (m := 2 ^ 32) (by decide)
  norm_num at hlow hhigh ⊢
  omega

def IsInt32 (n : ℤ) : Prop := -2 ^ 31 ≤ n ∧ n < 2 ^ 31

/-- The fields of a bridge, as a text of the length can hold them. -/
structure BridgeFields.Fits (b : BridgeFields) (length : ℕ) : Prop where
  name : b.name.length < length
  symb : b.symb.length < length
  links : (b.links.map fun s => s.length + 1).sum ≤ length
  contract : b.contract.length < length
  chain_id : IsInt32 b.chain_id
  pegsteps : IsInt32 b.pegsteps
  microsteps : IsInt32 b.microsteps

namespace JsonValue

theorem filterMap_of_mapM {values : List JsonValue} {links : List CString}
    (h : values.mapM get_str = some links) : values.filterMap get_str = links := by
  induction values generalizing links with
  | nil =>
    cases h
    rfl
  | cons value rest ih =>
    rw [List.mapM_cons] at h
    simp only [Option.bind_eq_bind, Option.bind_eq_some_iff] at h
    obtain ⟨link, hlink, others, hothers, heq⟩ := h
    cases heq
    rw [List.filterMap_cons_some hlink, ih hothers]

theorem isInt32_of_get_int {value : JsonValue} {n : ℤ} (h : value.get_int = some n) :
    IsInt32 n := by
  cases value with
  | int m =>
    cases h
    exact int_range m
  | _ => cases h

variable {env : NotaryEnv} {json_txt : CString} {p : Proposal}

theorem members_of_get_obj {jval : JsonValue} {members : List (CString × JsonValue)}
    (h : jval.get_obj = some members) : jval = obj members := by
  unfold get_obj at h
  split at h
  · rw [Option.some.inj h]
  · cases h

theorem length_of_get_str {members : List (CString × JsonValue)} {name : String} {s : CString}
    (hread : env.read_string json_txt = obj members)
    (h : (find_value members name).get_str = some s) : s.length < json_txt.length := by
  have htexts := env.length_texts _ _ _ _ hread
    (mem_of_find_value (eq_of_get_str h) (by simp))
  simpa [texts] using htexts

theorem bridgeAdd_cases (h : (env.read_string json_txt).bridgeAdd = some p) :
    ∃ b : BridgeFields, p = .bridgeAdd b ∧ b.Fits json_txt.length := by
  simp only [bridgeAdd, Option.bind_eq_bind, Option.bind_eq_some_iff] at h
  obtain ⟨members, hobj, name, hname, symb, hsymb, jlinks, hjlinks, chain_id, hchain, contract,
    hcontract, pegsteps, hpegsteps, microsteps, hmicrosteps, links, hlinks, heq⟩ := h
  have hread := members_of_get_obj hobj
  have htexts := env.length_texts _ _ _ _ hread
    (mem_of_find_value (eq_of_get_array hjlinks) (by simp))
  rw [texts, filterMap_of_mapM hlinks] at htexts
  exact ⟨_, (Option.some.inj heq).symm, length_of_get_str hread hname,
    length_of_get_str hread hsymb, htexts, length_of_get_str hread hcontract,
    isInt32_of_get_int hchain, isInt32_of_get_int hpegsteps, isInt32_of_get_int hmicrosteps⟩

theorem bridgeRemove_cases (h : (env.read_string json_txt).bridgeRemove = some p) :
    ∃ name : CString, p = .bridgeRemove name ∧ name.length < json_txt.length := by
  simp only [bridgeRemove, Option.bind_eq_bind, Option.bind_eq_some_iff] at h
  obtain ⟨members, hobj, name, hname, heq⟩ := h
  exact ⟨name, (Option.some.inj heq).symm, length_of_get_str (members_of_get_obj hobj) hname⟩

end JsonValue

end BitBay
