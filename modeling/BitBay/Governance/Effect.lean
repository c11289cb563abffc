import BitBay.Governance.NotaryText
import BitBay.Governance.MapItems
import BitBay.Governance.Tally
import BitBay.Library.MapEntries

/-!
# What an accepted proposal changes

The first vote for a proposal stores its texts under its hash, joined with commas. When the votes
are counted the texts are read again, and their number and contents decide what is changed. The
hash is taken over the values that were read from the notary, not over the stored texts. So two
notaries with one hash can store texts of different effect: a comma in a text changes the number
of the texts, and the links of a bridge are hashed without their number.
-/
namespace BitBay

open CString

/-! ## Storing the texts -/

def proposalKey (phash : CString) : CString := "proposalData_".toList ++ phash

namespace PegDB

variable {db : PegDB} {phash : CString} {datas : List CString}

def writeProposal (db : PegDB) (phash : CString) (datas : List CString) : PegDB :=
  db.write (proposalKey phash) (join ',' datas)

def readProposal (db : PegDB) (phash : CString) : Option (List CString) :=
  (db.read (proposalKey phash)).map (split ',')

theorem readProposal_writeProposal (db : PegDB) (phash : CString)
    (h : (join ',' datas).length ≤ Codec.MAX_SIZE) :
    (db.writeProposal phash datas).readProposal phash = some (split ',' (join ',' datas)) := by
  rw [readProposal, writeProposal, read_write h]
  rfl

theorem readProposal_long (db : PegDB) (phash : CString)
    (h : Codec.MAX_SIZE < (join ',' datas).length) :
    (db.writeProposal phash datas).readProposal phash = none := by
  rw [readProposal, writeProposal, read_write_long h]
  rfl

end PegDB

/-! ## Changes -/

def ConsensusType.index : ConsensusType → ℤ
  | tstakers => 1
  | consensus => 2
  | bridge => 3
  | merkle => 4
  | timelockpass => 5

inductive StateChange
  | none
  | consensus (type : ConsensusType) (votes : ConsensusVotes)
  | bridge (name : CString) (bdata : List CString)
  | bridgeErase (name : CString)
  | root (brname merkle : CString) (amount : ℤ)
  | pass (action : Action) (pubkey_txt : CString)

def changeOf : List CString → StateChange
  | scope :: _until :: args =>
    match Scope.ofText scope, args with
    -- The change of a trusted set asks for three texts and then reads the fourth one; a stored
    -- proposal has four, so that nothing is changed.
    | some (.tstakers _), _ => .none
    | some .consensus, [consensus_type, t1_votes, t2_votes, o_votes] =>
      match ConsensusType.ofText consensus_type with
      | some type => .consensus type ⟨t1_votes.atoi, t2_votes.atoi, o_votes.atoi⟩
      | none => .none
    | some .bridge, [action, name, symb, urls_txt, chain_id_txt, contract, pegsteps_txt,
        microsteps_txt] =>
      if Action.ofText action = some .add then
        .bridge name [name, symb, urls_txt, chain_id_txt.cStr, contract, pegsteps_txt.cStr,
          microsteps_txt.cStr]
      else .none
    | some .bridge, [action, name] =>
      if Action.ofText action = some .remove then .bridgeErase name else .none
    | some .merkle, [action, brname, merkle, amount_txt] =>
      if Action.ofText action = some .add then .root brname merkle amount_txt.strtoll else .none
    | some .timelockpass, [action, pubkey_txt] =>
      match Action.ofText action with
      | some action => .pass action pubkey_txt
      | none => .none
    | _, _ => .none
  | _ => .none

structure AcceptedStates where
  consensus : SortedMap ℤ ConsensusVotes
  bridges : BridgesMap
  timeLockPasses : Finset CString
  /-- The texts of `ACCEPTED_BRIDGES_PAUSE`. -/
  bridgesPause : Finset CString
  /-- Whether `ReadMerkleIn` finds a root. -/
  merkleIn : CString → Bool
  merkles : List MerkleInfo

def merklePause : CString :=
  "899104002d6f8e009ec6dee6844cba6603d02dc351812e422c9e166e3e670506".toList

def merkleResume : CString :=
  "b677f2790c4aabe172484a329694cfb54ec9cd93b38a3d2082b6d456f5e96f2d".toList

def AcceptedStates.pause (st : AcceptedStates) : Bool :=
  st.bridgesPause.card = 1 ∧ "true".toList ∈ st.bridgesPause

def NotaryEnv.merkleInfo (env : NotaryEnv) (nHeight : ℕ) (brname merkle : CString) (amount : ℤ) :
    MerkleInfo where
  hash := merkle.toBytes
  bridge := brname.toBytes
  brhash := (env.bridgeHash brname).toBytes
  amount := Int64.ofInt amount
  ntime := UInt32.ofNat nHeight

def StateChange.apply (env : NotaryEnv) (nHeight : ℕ) (st : AcceptedStates) : StateChange → AcceptedStates
  | .none => st
  | .consensus type votes => { st with consensus := st.consensus.insert type.index votes }
  | .bridge name bdata => { st with bridges := st.bridges.insert name bdata }
  | .bridgeErase name => { st with bridges := st.bridges.erase name }
  | .root brname merkle amount =>
    if merkle = merklePause then { st with bridgesPause := {"true".toList} }
    else if merkle = merkleResume then { st with bridgesPause := {"false".toList} }
    else if st.pause ∨ st.merkleIn merkle then st
    else { st with
      merkles := st.merkles ++ [env.merkleInfo nHeight brname merkle amount]
      merkleIn := Function.update st.merkleIn merkle true }
  | .pass .add pubkey_txt => { st with timeLockPasses := insert pubkey_txt st.timeLockPasses }
  | .pass .remove pubkey_txt => { st with timeLockPasses := st.timeLockPasses.erase pubkey_txt }

/-- The states after the texts were written under the hash, read again and accepted. -/
def applyWritten (env : NotaryEnv) (db : PegDB) (nHeight : ℕ) (r : NotaryResult) (st : AcceptedStates) :
    AcceptedStates :=
  match (db.writeProposal r.phash r.pdatas).readProposal r.phash with
  | some datas => (changeOf datas).apply env nHeight st
  | none => st

/-! ## Texts with commas -/

namespace Proposal

def scope : Proposal → Scope
  | .tstakers list _ _ => .tstakers list
  | .consensus _ _ _ _ => .consensus
  | .bridgeAdd _ => .bridge
  | .bridgeRemove _ => .bridge
  | .merkleAdd _ _ _ => .merkle
  | .timelockpass _ _ => .timelockpass

def texts : Proposal → List CString
  | .tstakers _ _ address_txt => [address_txt]
  | .consensus _ t1_votes t2_votes o_votes => [t1_votes, t2_votes, o_votes]
  | .bridgeAdd b => b.name :: b.symb :: b.contract :: b.links
  | .bridgeRemove name => [name]
  | .merkleAdd brname merkle amount_txt => [brname, merkle, amount_txt]
  | .timelockpass _ pubkey_txt => [pubkey_txt]

/-- The stored texts come back as they were: none of them has a comma, and together they are not
too long. -/
structure Intact (p : Proposal) : Prop where
  comma : ∀ text ∈ p.texts, ',' ∉ text
  length : (join ',' p.pdatas).length ≤ Codec.MAX_SIZE

/-- The number of links, of which a proposal for another scope has none. -/
def linkCount : Proposal → ℕ
  | .bridgeAdd b => b.links.length
  | _ => 0

end Proposal

theorem not_mem_scope (scope : Scope) : ',' ∉ scope.text := by
  rcases scope with (_ | _) | _ | _ | _ | _ | _ <;> decide

theorem not_mem_action (action : Action) : ',' ∉ action.text := by
  cases action <;> decide

theorem not_mem_type (type : ConsensusType) : ',' ∉ type.text := by
  cases type <;> decide

theorem not_mem_noUntil : ',' ∉ Proposal.noUntil := by decide

theorem not_mem_linksText {b : BridgeFields} {c : Char} (hc : c ≠ ';')
    (h : ∀ link ∈ b.links, c ∉ link) : c ∉ b.linksText := by
  intro hmem
  rcases mem_join hmem with hsep | ⟨link, hlink, hin⟩
  · exact hc hsep
  · rw [mem_sortedTexts, List.mem_toFinset] at hlink
    exact h link hlink hin

theorem not_mem_linksText_iff {b : BridgeFields} :
    ',' ∉ b.linksText ↔ ∀ link ∈ b.links, ',' ∉ link := by
  refine ⟨fun h link hlink hcomma => h (mem_join_of_mem ?_ hcomma), not_mem_linksText (by decide)⟩
  rwa [mem_sortedTexts, List.mem_toFinset]

/-- The stored texts have a comma where the texts of the notary do. -/
theorem comma_pdatas_iff (p : Proposal) :
    (∀ field ∈ p.pdatas, ',' ∉ field) ↔ ∀ text ∈ p.texts, ',' ∉ text := by
  cases p with
  | bridgeAdd b =>
    have hlinks : ',' ∉ join ';' (sortedTexts b.links.toFinset) ↔ ∀ link ∈ b.links, ',' ∉ link :=
      not_mem_linksText_iff
    simp only [Proposal.pdatas, Proposal.texts, List.forall_mem_cons, List.not_mem_nil,
      false_imp_iff, implies_true, and_true, not_mem_scope, not_mem_action, not_mem_noUntil,
      comma_not_mem_ofInt, not_false_eq_true, true_and, hlinks]
    tauto
  | _ =>
    simp only [Proposal.pdatas, Proposal.texts, List.forall_mem_cons, List.not_mem_nil,
      false_imp_iff, implies_true, and_true, not_mem_scope, not_mem_action, not_mem_type,
      not_mem_noUntil, not_false_eq_true, true_and]

/-! ## The change of the stored texts -/

def Proposal.change : Proposal → StateChange
  | .tstakers _ _ _ => .none
  | .consensus type t1_votes t2_votes o_votes =>
      .consensus type ⟨t1_votes.atoi, t2_votes.atoi, o_votes.atoi⟩
  | .bridgeAdd b => .bridge b.name [b.name, b.symb, b.linksText, ofInt b.chain_id, b.contract,
      ofInt b.pegsteps, ofInt b.microsteps]
  | .bridgeRemove name => .bridgeErase name
  | .merkleAdd brname merkle amount_txt => .root brname merkle amount_txt.strtoll
  | .timelockpass action pubkey_txt => .pass action pubkey_txt

theorem cStr_number (n : ℤ) : (ofInt n).cStr = ofInt n := by
  rw [cStr, List.takeWhile_eq_self_iff]
  intro c hc
  rcases isNumeric_of_mem_ofInt hc with rfl | h
  · decide
  · exact decide_eq_true (by omega)

theorem changeOf_pdatas (p : Proposal) : changeOf p.pdatas = p.change := by
  cases p with
  | bridgeAdd b =>
    simp [Proposal.pdatas, Proposal.change, changeOf, cStr_number]
    rfl
  | _ => simp [Proposal.pdatas, Proposal.change, changeOf]

/-- How many texts have to stand behind the action. -/
def Scope.count (action : CString) : Scope → Option ℕ
  | tstakers _ => none
  | consensus => some 3
  | bridge => (Action.ofText action).map fun
    | .add => 7
    | .remove => 1
  | merkle => some 3
  | timelockpass => some 1
  | onbehalf => none

theorem changeOf_of_count {scope : Scope} {u action : CString} {rest : List CString}
    (h : scope.count action ≠ some rest.length) :
    changeOf (scope.text :: u :: action :: rest) = .none := by
  simp only [changeOf, Scope.ofText_text]
  split
  next => rfl
  next => exfalso; simp_all [Scope.count]
  next => exact if_neg fun hadd => by simp_all [Scope.count]
  next => exact if_neg fun hremove => by simp_all [Scope.count]
  next => exact if_neg fun hadd => by simp_all [Scope.count]
  next => exfalso; simp_all [Scope.count]
  next => rfl

/-- A comma behind the action gives more texts than the scope asks for. -/
theorem changeOf_join {scope : Scope} {action : CString} {args : List CString}
    (haction : ',' ∉ action) (hcount : ∀ n, scope.count action = some n → n ≤ args.length)
    (hcomma : ∃ s ∈ args, ',' ∈ s) :
    changeOf (split ',' (join ',' (scope.text :: Proposal.noUntil :: action :: args))) = .none := by
  have hmore := length_lt_flatMap_split hcomma
  rw [split_join (List.cons_ne_nil _ _)]
  simp only [List.flatMap_cons, split_of_not_mem (not_mem_scope scope),
    split_of_not_mem not_mem_noUntil, split_of_not_mem haction, List.singleton_append]
  refine changeOf_of_count fun h => ?_
  have hle := hcount _ h
  omega

/-- A comma gives the stored proposal more texts, and nothing is changed. -/
theorem changeOf_comma {p : Proposal} (h : ∃ field ∈ p.pdatas, ',' ∈ field) :
    changeOf (split ',' (join ',' p.pdatas)) = .none := by
  have hargs {scope : Scope} {action : CString} {args : List CString} (haction : ',' ∉ action)
      (hmem : ∃ field ∈ scope.text :: Proposal.noUntil :: action :: args, ',' ∈ field) :
      ∃ s ∈ args, ',' ∈ s := by
    obtain ⟨field, hfield, hcomma⟩ := hmem
    simp only [List.mem_cons] at hfield
    rcases hfield with rfl | rfl | rfl | hfield
    · exact absurd hcomma (not_mem_scope scope)
    · exact absurd hcomma not_mem_noUntil
    · exact absurd hcomma haction
    · exact ⟨field, hfield, hcomma⟩
  cases p with
  | consensus type t1 t2 o =>
    exact changeOf_join (not_mem_type type) (by simp [Scope.count]) (hargs (not_mem_type type) h)
  | tstakers list action _ | timelockpass action _ =>
    exact changeOf_join (not_mem_action action) (by simp [Scope.count])
      (hargs (not_mem_action action) h)
  | bridgeAdd _ | merkleAdd _ _ _ =>
    exact changeOf_join (not_mem_action .add) (by simp [Scope.count])
      (hargs (not_mem_action .add) h)
  | bridgeRemove _ =>
    exact changeOf_join (not_mem_action .remove) (by simp [Scope.count])
      (hargs (not_mem_action .remove) h)

/-- What is changed once the texts were written and read again. -/
theorem applyWritten_intact {env : NotaryEnv} {db : PegDB} {nHeight : ℕ} {r : NotaryResult}
    {p : Proposal} (hr : r.pdatas = p.pdatas) (h : p.Intact) (st : AcceptedStates) :
    applyWritten env db nHeight r st = p.change.apply env nHeight st := by
  have hsplit := (split_join_eq_iff (pdatas_ne_nil p)).mpr ((comma_pdatas_iff p).mpr h.comma)
  have hread : (db.writeProposal r.phash r.pdatas).readProposal r.phash = some p.pdatas := by
    rw [hr, PegDB.readProposal_writeProposal db r.phash h.length, hsplit]
  unfold applyWritten
  simp only [hread, changeOf_pdatas]

theorem applyWritten_not_intact {env : NotaryEnv} {db : PegDB} {nHeight : ℕ} {r : NotaryResult}
    {p : Proposal} (hr : r.pdatas = p.pdatas) (h : ¬ p.Intact) (st : AcceptedStates) :
    applyWritten env db nHeight r st = st := by
  by_cases hlength : (join ',' p.pdatas).length ≤ Codec.MAX_SIZE
  · have hcomma : ∃ field ∈ p.pdatas, ',' ∈ field := by
      by_contra hnone
      push Not at hnone
      exact h ⟨(comma_pdatas_iff p).mp hnone, hlength⟩
    have hread := PegDB.readProposal_writeProposal db r.phash hlength
    unfold applyWritten
    simp only [hr, hread, changeOf_comma hcomma, StateChange.apply]
  · have hread := PegDB.readProposal_long db r.phash (not_le.mp hlength)
    unfold applyWritten
    rw [hr, hread]

/-! ## Proposals with one stream -/

section Streams

variable {rest rest' : CString}

theorem streamInt_append {a b : ℤ} (ha : IsInt32 a) (hb : IsInt32 b)
    (h : streamInt a ++ rest = streamInt b ++ rest') : a = b ∧ rest = rest' := by
  have hlength (n : ℤ) : (streamInt n).length = 4 := by
    rw [streamInt, CScript.toCString, List.length_map, Wire.length_leBytes]
  obtain ⟨hints, hrest⟩ := List.append_inj h ((hlength a).trans (hlength b).symm)
  have hnat := congrArg Wire.leNat (toCString_injective hints)
  have hlt (n : ℤ) : (n % 2 ^ 32).toNat < 256 ^ 4 := by
    norm_num
    omega
  rw [Wire.leNat_leBytes 4 _ (hlt a), Wire.leNat_leBytes 4 _ (hlt b)] at hnat
  unfold IsInt32 at ha hb
  exact ⟨by omega, hrest⟩

theorem streamInt64_injective {a b : ℤ} (ha : -2 ^ 63 ≤ a ∧ a < 2 ^ 63)
    (hb : -2 ^ 63 ≤ b ∧ b < 2 ^ 63) (h : streamInt64 a = streamInt64 b) : a = b := by
  have hnat := congrArg Wire.leNat (toCString_injective h)
  have hlt (n : ℤ) : (n % 2 ^ 64).toNat < 256 ^ 8 := by
    norm_num
    omega
  rw [Wire.leNat_leBytes 8 _ (hlt a), Wire.leNat_leBytes 8 _ (hlt b)] at hnat
  omega

theorem strtoll_range (s : CString) : -2 ^ 63 ≤ s.strtoll ∧ s.strtoll < 2 ^ 63 := by
  unfold strtoll strtol
  dsimp only
  split
  · norm_num
  · rw [Option.getD_some]
    omega

theorem atoi_range (s : CString) : IsInt32 s.atoi := int_range _

/-- As many texts on both sides are the same texts. -/
theorem streamStrings_append {l l' : List CString} (hl : ∀ s ∈ l, s.length < 2 ^ 64)
    (hl' : ∀ s ∈ l', s.length < 2 ^ 64) (hlength : l.length = l'.length)
    (h : streamStrings l ++ rest = streamStrings l' ++ rest') : l = l' ∧ rest = rest' := by
  induction l generalizing l' with
  | nil =>
    rw [List.length_eq_zero_iff.mp hlength.symm] at h ⊢
    exact ⟨rfl, h⟩
  | cons s others ih =>
    cases l' with
    | nil => cases hlength
    | cons s' others' =>
      obtain ⟨hs, hothers⟩ := List.forall_mem_cons.mp hl
      obtain ⟨hs', hothers'⟩ := List.forall_mem_cons.mp hl'
      rw [streamStrings_cons, streamStrings_cons, List.append_assoc, List.append_assoc] at h
      obtain ⟨heq, htail⟩ := streamString_append hs hs' h
      obtain ⟨hsame, hrest⟩ := ih hothers hothers' (Nat.succ.inj hlength) htail
      exact ⟨by rw [heq, hsame], hrest⟩

end Streams

/-- The texts of a proposal have sizes of 64 bits, its numbers are of the `int` range. -/
def Proposal.Sized : Proposal → Prop
  | .bridgeAdd b => b.Fits (2 ^ 64 - 1)
  | p => ∀ text ∈ p.texts, text.length < 2 ^ 64

inductive HashedAlike : Proposal → Proposal → Prop
  | same {p : Proposal} : HashedAlike p p
  | consensus {type : ConsensusType} {t1 t2 o t1' t2' o' : CString} (h1 : t1.atoi = t1'.atoi)
      (h2 : t2.atoi = t2'.atoi) (ho : o.atoi = o'.atoi) :
      HashedAlike (.consensus type t1 t2 o) (.consensus type t1' t2' o')
  | merkle {brname merkle amount amount' : CString} (h : amount.strtoll = amount'.strtoll) :
      HashedAlike (.merkleAdd brname merkle amount) (.merkleAdd brname merkle amount')
  | bridge {b b' : BridgeFields} (hname : b.name = b'.name) (hsymb : b.symb = b'.symb)
      (htail : streamStrings b.links ++ (streamInt b.chain_id ++ (streamString b.contract ++
        (streamInt b.pegsteps ++ streamInt b.microsteps))) =
        streamStrings b'.links ++ (streamInt b'.chain_id ++ (streamString b'.contract ++
        (streamInt b'.pegsteps ++ streamInt b'.microsteps)))) :
      HashedAlike (.bridgeAdd b) (.bridgeAdd b')

theorem length_scope (scope : Scope) : scope.text.length < 2 ^ 64 := by
  rcases scope with (_ | _) | _ | _ | _ | _ | _ <;> decide

theorem length_action (action : Action) : action.text.length < 2 ^ 64 := by
  cases action <;> decide

theorem length_type (type : ConsensusType) : type.text.length < 2 ^ 64 := by
  cases type <;> decide

theorem scope_injective : Function.Injective Scope.text := fun a b h =>
  Option.some.inj ((Scope.ofText_text a).symm.trans (h ▸ Scope.ofText_text b))

theorem action_injective : Function.Injective Action.text := fun a b h =>
  Option.some.inj ((Action.ofText_text a).symm.trans (h ▸ Action.ofText_text b))

theorem type_injective : Function.Injective ConsensusType.text := fun a b h =>
  Option.some.inj ((ConsensusType.ofText_text a).symm.trans (h ▸ ConsensusType.ofText_text b))

theorem stream_scope (p : Proposal) : ∃ rest, p.stream = streamString p.scope.text ++ rest := by
  cases p <;> simp only [Proposal.stream, Proposal.scope, streamStrings_cons, List.append_assoc] <;>
    exact ⟨_, rfl⟩

theorem scope_eq {p p' : Proposal} (h : p.stream = p'.stream) : p.scope = p'.scope := by
  obtain ⟨rest, hp⟩ := stream_scope p
  obtain ⟨rest', hp'⟩ := stream_scope p'
  rw [hp, hp'] at h
  exact scope_injective (streamString_append (length_scope _) (length_scope _) h).1

/-- A bridge that is added is not hashed like one that is removed. -/
theorem stream_add_ne_remove (b : BridgeFields) (name : CString) :
    (Proposal.bridgeAdd b).stream ≠ (Proposal.bridgeRemove name).stream := by
  intro h
  simp only [Proposal.stream, streamStrings_cons, List.append_assoc] at h
  have haction := (streamString_append (length_scope _) (length_scope _) h).2
  have hsame := (streamString_append (length_action _) (length_action _) haction).1
  exact absurd (action_injective hsame) (by decide)

/-- One stream leaves open how numbers were written and where the links of a bridge end. -/
theorem hashedAlike_of_stream {p p' : Proposal} (hp : p.Sized) (hp' : p'.Sized)
    (h : p.stream = p'.stream) : HashedAlike p p' := by
  have hscope := scope_eq h
  cases p with
  | tstakers list action address_txt =>
    cases p' with
    | tstakers list' action' address_txt' =>
      have hsizes (list : TrustedList) (action : Action) (address_txt : CString)
          (hs : (Proposal.tstakers list action address_txt).Sized) :
          ∀ s ∈ [(Scope.tstakers list).text, action.text, address_txt], s.length < 2 ^ 64 := by
        simp only [List.forall_mem_cons]
        exact ⟨length_scope _, length_action _, hs _ (List.mem_singleton_self _), by simp⟩
      have hlist := streamStrings_injective (hsizes _ _ _ hp) (hsizes _ _ _ hp') h
      simp only [List.cons.injEq, and_true] at hlist
      obtain ⟨-, haction, haddress⟩ := hlist
      cases hscope
      rw [action_injective haction, haddress]
      exact .same
    | _ => cases hscope
  | consensus type t1 t2 o =>
    cases p' with
    | consensus type' t1' t2' o' =>
      have hsizes (type : ConsensusType) :
          ∀ s ∈ [Scope.consensus.text, type.text], s.length < 2 ^ 64 := by
        simp only [List.forall_mem_cons]
        exact ⟨length_scope _, length_type _, by simp⟩
      obtain ⟨hlist, hints⟩ := streamStrings_append (hsizes type) (hsizes type') rfl h
      simp only [List.cons.injEq, and_true, true_and] at hlist
      obtain ⟨h1, hints⟩ := streamInt_append (atoi_range _) (atoi_range _) hints
      obtain ⟨h2, hint⟩ := streamInt_append (atoi_range _) (atoi_range _) hints
      rw [← List.append_nil (streamInt o.atoi), ← List.append_nil (streamInt o'.atoi)] at hint
      have ho := (streamInt_append (atoi_range _) (atoi_range _) hint).1
      rw [type_injective hlist]
      exact .consensus h1 h2 ho
    | _ => cases hscope
  | bridgeAdd b =>
    cases p' with
    | bridgeAdd b' =>
      have hsizes (b : BridgeFields) (hb : b.Fits (2 ^ 64 - 1)) :
          ∀ s ∈ [Scope.bridge.text, Action.add.text, b.name, b.symb], s.length < 2 ^ 64 := by
        simp only [List.forall_mem_cons]
        exact ⟨length_scope _, length_action _, hb.name.trans (by decide),
          hb.symb.trans (by decide), by simp⟩
      obtain ⟨hlist, htail⟩ := streamStrings_append (hsizes b hp) (hsizes b' hp') rfl h
      simp only [List.cons.injEq, and_true, true_and] at hlist
      exact .bridge hlist.1 hlist.2 htail
    | bridgeRemove name => exact absurd h (stream_add_ne_remove b name)
    | _ => cases hscope
  | bridgeRemove name =>
    cases p' with
    | bridgeRemove name' =>
      have hsizes (name : CString) (hs : (Proposal.bridgeRemove name).Sized) :
          ∀ s ∈ [Scope.bridge.text, Action.remove.text, name], s.length < 2 ^ 64 := by
        simp only [List.forall_mem_cons]
        exact ⟨length_scope _, length_action _, hs _ (List.mem_singleton_self _), by simp⟩
      have hlist := streamStrings_injective (hsizes _ hp) (hsizes _ hp') h
      simp only [List.cons.injEq, and_true, true_and] at hlist
      rw [hlist]
      exact .same
    | bridgeAdd b => exact absurd h.symm (stream_add_ne_remove b name)
    | _ => cases hscope
  | merkleAdd brname merkle amount =>
    cases p' with
    | merkleAdd brname' merkle' amount' =>
      have hsizes (brname merkle amount : CString)
          (hs : (Proposal.merkleAdd brname merkle amount).Sized) :
          ∀ s ∈ [Scope.merkle.text, Action.add.text, brname, merkle], s.length < 2 ^ 64 := by
        simp only [List.forall_mem_cons]
        exact ⟨length_scope _, length_action _, hs _ (by simp [Proposal.texts]),
          hs _ (by simp [Proposal.texts]), by simp⟩
      obtain ⟨hlist, hint⟩ := streamStrings_append (hsizes _ _ _ hp) (hsizes _ _ _ hp') rfl h
      simp only [List.cons.injEq, and_true, true_and] at hlist
      rw [hlist.1, hlist.2]
      exact .merkle (streamInt64_injective (strtoll_range _) (strtoll_range _) hint)
    | _ => cases hscope
  | timelockpass action pubkey_txt =>
    cases p' with
    | timelockpass action' pubkey_txt' =>
      have hsizes (action : Action) (pubkey_txt : CString)
          (hs : (Proposal.timelockpass action pubkey_txt).Sized) :
          ∀ s ∈ [Scope.timelockpass.text, action.text, pubkey_txt], s.length < 2 ^ 64 := by
        simp only [List.forall_mem_cons]
        exact ⟨length_scope _, length_action _, hs _ (List.mem_singleton_self _), by simp⟩
      have hlist := streamStrings_injective (hsizes _ _ hp) (hsizes _ _ hp') h
      simp only [List.cons.injEq, and_true, true_and] at hlist
      rw [action_injective hlist.1, hlist.2]
      exact .same
    | _ => cases hscope

/-! ## Accepted notaries -/

theorem BridgeFields.Fits.mono {b : BridgeFields} {length length' : ℕ} (h : b.Fits length)
    (hle : length ≤ length') : b.Fits length' :=
  ⟨h.name.trans_le hle, h.symb.trans_le hle, h.links.trans hle, h.contract.trans_le hle, h.chain_id,
    h.pegsteps, h.microsteps⟩

theorem BridgeFields.Fits.length_links {b : BridgeFields} (h : b.Fits (2 ^ 64 - 1)) :
    ∀ s ∈ b.links, s.length < 2 ^ 64 := by
  intro s hs
  have hle := List.single_le_sum (by simp) _ (List.mem_map_of_mem (f := fun s => s.length + 1) hs)
  have hsum := h.links
  omega

namespace NotaryEnv

variable {env : NotaryEnv} {bridges : BridgesMap} {notary phash address_override : CString}
  {r : NotaryResult} {p : Proposal}

theorem Holds.sized (h : env.Holds bridges notary p) (hsize : notary.length < 2 ^ 64)
    (hkeys : ∀ name ∈ bridges.keys, name.length < 2 ^ 64) : p.Sized := by
  cases h with
  | tstakers _ | timelockpass _ =>
    intro text htext
    rw [List.mem_singleton.mp htext]
    simp only [List.length_append, List.length_cons] at hsize
    omega
  | @consensus type t1 t2 o _ _ _ =>
    intro text htext
    have hle : text.length ≤ (join ',' [t1, t2, o]).length := length_le_join ',' htext
    simp only [List.length_append, List.length_cons] at hsize
    omega
  | bridgeAdd hjson =>
    obtain ⟨b, rfl, hfits⟩ := JsonValue.bridgeAdd_cases hjson
    refine hfits.mono ?_
    simp only [List.length_append, List.length_cons] at hsize
    omega
  | bridgeRemove hjson =>
    obtain ⟨name, rfl, hlength⟩ := JsonValue.bridgeRemove_cases hjson
    intro text htext
    rw [List.mem_singleton.mp htext]
    simp only [List.length_append, List.length_cons] at hsize
    omega
  | merkleAdd _ hbrname hne _ _ _ =>
    have hname := hkeys _ (bridgeName_spec (hbrname.symm ▸ hne)).1
    rw [hbrname] at hname
    simp only [List.length_append, List.length_cons] at hsize
    simp only [Proposal.Sized, Proposal.texts, List.forall_mem_cons]
    exact ⟨hname, by omega, by omega, by simp⟩

theorem length_innermost_le (env : NotaryEnv) (notary : CString) :
    (env.innermost notary).length ≤ notary.length := by
  induction notary using innermost.induct env with
  | case1 notary inner hsigned ih =>
    rw [innermost_signed hsigned]
    exact ih.trans (length_signed hsigned).le
  | case2 notary hsigned => rw [innermost_plain hsigned]

/-- `NotaryToProposal` accepts the notary, with the proposal that its innermost text holds. -/
structure Accepts (env : NotaryEnv) (bridges : BridgesMap) (notary : CString) (p : Proposal)
    (r : NotaryResult) : Prop where
  returns : ∃ phash address_override,
    env.notaryToProposal bridges notary phash address_override = .ok r
  holds : env.Holds bridges (env.innermost notary) p
  pdatas : r.pdatas = p.pdatas
  phash : r.phash = getHex (env.Hash p.stream)

theorem accepts_of_returns
    (h : env.notaryToProposal bridges notary phash address_override = .ok r)
    (haccepted : r.pdatas ≠ []) : ∃ p, env.Accepts bridges notary p r := by
  have hreturns := h
  rw [notaryToProposal_eq] at h
  cases hparse : env.parse bridges (env.innermost notary) with
  | error e =>
    rw [hparse] at h
    cases h
  | ok found =>
    rw [hparse] at h
    cases found with
    | none =>
      cases h
      exact absurd rfl haccepted
    | some p =>
      cases h
      exact ⟨p, ⟨_, _, hreturns⟩, parse_eq_some_iff.mp hparse, rfl, rfl⟩

theorem Accepts.sized (h : env.Accepts bridges notary p r) (hsize : notary.length < 2 ^ 64)
    (hkeys : ∀ name ∈ bridges.keys, name.length < 2 ^ 64) : p.Sized :=
  h.holds.sized ((length_innermost_le env notary).trans_lt hsize) hkeys

end NotaryEnv

/-! ## One hash and one effect -/

def AcceptedStates.fresh : AcceptedStates := ⟨∅, ∅, ∅, ∅, fun _ => false, []⟩

section Effects

variable {env : NotaryEnv} {p p' : Proposal} {r r' : NotaryResult}

theorem apply_consensus_ne (type : ConsensusType) (votes : ConsensusVotes) (nHeight : ℕ) :
    (StateChange.consensus type votes).apply env nHeight .fresh ≠ .fresh := by
  intro h
  have hmap := congrArg AcceptedStates.consensus h
  simp only [StateChange.apply, AcceptedStates.fresh] at hmap
  have hlookup := congrArg (fun m => m.lookup type.index) hmap
  simp at hlookup

theorem apply_bridge_ne (name : CString) (bdata : List CString) (nHeight : ℕ) :
    (StateChange.bridge name bdata).apply env nHeight .fresh ≠ .fresh := by
  intro h
  have hmap := congrArg AcceptedStates.bridges h
  simp only [StateChange.apply, AcceptedStates.fresh] at hmap
  have hlookup := congrArg (fun m => m.lookup name) hmap
  simp at hlookup

theorem apply_root_ne (brname merkle : CString) (amount : ℤ) (nHeight : ℕ) :
    (StateChange.root brname merkle amount).apply env nHeight .fresh ≠ .fresh := by
  intro h
  simp only [StateChange.apply] at h
  split_ifs at h with hpause hresume hstop
  · exact absurd (congrArg AcceptedStates.bridgesPause h) (Finset.singleton_ne_empty _)
  · exact absurd (congrArg AcceptedStates.bridgesPause h) (Finset.singleton_ne_empty _)
  · simp [AcceptedStates.pause, AcceptedStates.fresh] at hstop
  · exact absurd (congrArg AcceptedStates.merkles h) (by simp [AcceptedStates.fresh])

theorem HashedAlike.symm (h : HashedAlike p p') : HashedAlike p' p := by
  cases h with
  | same => exact .same
  | consensus h1 h2 ho => exact .consensus h1.symm h2.symm ho.symm
  | merkle h => exact .merkle h.symm
  | bridge hname hsymb htail => exact .bridge hname.symm hsymb.symm htail.symm

/-- The proposals of one stream that differ change something. -/
theorem HashedAlike.change_ne (h : HashedAlike p p') (hne : p ≠ p') (nHeight : ℕ) :
    p.change.apply env nHeight .fresh ≠ .fresh := by
  cases h with
  | same => exact absurd rfl hne
  | consensus => exact apply_consensus_ne _ _ _
  | merkle => exact apply_root_ne _ _ _ _
  | bridge => exact apply_bridge_ne _ _ _

/-- With as many links on both sides the bridges are the same. -/
theorem bridge_eq {b b' : BridgeFields} (hb : b.Fits (2 ^ 64 - 1)) (hb' : b'.Fits (2 ^ 64 - 1))
    (hname : b.name = b'.name) (hsymb : b.symb = b'.symb)
    (hlength : b.links.length = b'.links.length)
    (htail : streamStrings b.links ++ (streamInt b.chain_id ++ (streamString b.contract ++
        (streamInt b.pegsteps ++ streamInt b.microsteps))) =
      streamStrings b'.links ++ (streamInt b'.chain_id ++ (streamString b'.contract ++
        (streamInt b'.pegsteps ++ streamInt b'.microsteps)))) : b = b' := by
  obtain ⟨hlinks, hchain⟩ := streamStrings_append hb.length_links hb'.length_links hlength htail
  obtain ⟨hchain, hcontract⟩ := streamInt_append hb.chain_id hb'.chain_id hchain
  obtain ⟨hcontract, hpegsteps⟩ := streamString_append (hb.contract.trans (by decide))
    (hb'.contract.trans (by decide)) hcontract
  obtain ⟨hpegsteps, hmicrosteps⟩ := streamInt_append hb.pegsteps hb'.pegsteps hpegsteps
  rw [← List.append_nil (streamInt b.microsteps),
    ← List.append_nil (streamInt b'.microsteps)] at hmicrosteps
  have hmicro := (streamInt_append hb.microsteps hb'.microsteps hmicrosteps).1
  cases b
  cases b'
  simp_all

/-- With the same effect the texts behind the links are the same, and so are the links. -/
theorem links_eq_of_effect {b b' : BridgeFields} (hb : b.Fits (2 ^ 64 - 1))
    (hb' : b'.Fits (2 ^ 64 - 1)) (hname : b.name = b'.name)
    (htail : streamStrings b.links ++ (streamInt b.chain_id ++ (streamString b.contract ++
        (streamInt b.pegsteps ++ streamInt b.microsteps))) =
      streamStrings b'.links ++ (streamInt b'.chain_id ++ (streamString b'.contract ++
        (streamInt b'.pegsteps ++ streamInt b'.microsteps))))
    (h : (Proposal.bridgeAdd b).change.apply env 0 .fresh =
      (Proposal.bridgeAdd b').change.apply env 0 .fresh) : b.links = b'.links := by
  have hmap := congrArg AcceptedStates.bridges h
  simp only [StateChange.apply, Proposal.change] at hmap
  have hlookup := congrArg (fun m => m.lookup b.name) hmap
  simp only [SortedMap.lookup_insert, hname, if_true, Option.some.injEq, List.cons.injEq,
    and_true] at hlookup
  obtain ⟨-, -, -, hchain, hcontract, hpegsteps, hmicrosteps⟩ := hlookup
  rw [ofInt_injective hchain, hcontract, ofInt_injective hpegsteps,
    ofInt_injective hmicrosteps] at htail
  exact streamStrings_injective hb.length_links hb'.length_links (List.append_cancel_right htail)

/-- Texts that came back as they were have one effect when the links are as many. -/
theorem HashedAlike.same_change_iff (h : HashedAlike p p') (hp : p.Sized) (hp' : p'.Sized) :
    (∀ nHeight st, p.change.apply env nHeight st = p'.change.apply env nHeight st) ↔
      p.linkCount = p'.linkCount := by
  cases h with
  | same => simp
  | consensus h1 h2 ho => simp [Proposal.change, Proposal.linkCount, h1, h2, ho]
  | merkle h => simp [Proposal.change, Proposal.linkCount, h]
  | @bridge b b' hname hsymb htail =>
    constructor
    · intro hsame
      exact congrArg List.length (links_eq_of_effect hp hp' hname htail (hsame 0 .fresh))
    · intro hlength nHeight st
      rw [bridge_eq hp hp' hname hsymb hlength htail]

theorem HashedAlike.same_effect_iff (h : HashedAlike p p') (hp : p.Sized) (hp' : p'.Sized)
    (hr : r.pdatas = p.pdatas) (hr' : r'.pdatas = p'.pdatas) :
    (∀ db nHeight st, applyWritten env db nHeight r st = applyWritten env db nHeight r' st) ↔
      (p.Intact ↔ p'.Intact) ∧ (p.Intact → p.linkCount = p'.linkCount) := by
  by_cases hi : p.Intact <;> by_cases hi' : p'.Intact
  · simp only [applyWritten_intact hr hi, applyWritten_intact hr' hi', hi, hi', true_and,
      forall_true_left]
    rw [← h.same_change_iff hp hp']
    exact ⟨fun hall => hall fun _ => none, fun hall _ => hall⟩
  · refine iff_of_false (fun hall => ?_) (by tauto)
    have hne : p ≠ p' := fun heq => hi' (heq ▸ hi)
    have heq := hall (fun _ => none) 0 .fresh
    rw [applyWritten_intact hr hi, applyWritten_not_intact hr' hi'] at heq
    exact h.change_ne hne 0 heq
  · refine iff_of_false (fun hall => ?_) (by tauto)
    have hne : p' ≠ p := fun heq => hi (heq ▸ hi')
    have heq := hall (fun _ => none) 0 .fresh
    rw [applyWritten_intact hr' hi', applyWritten_not_intact hr hi] at heq
    exact h.symm.change_ne hne 0 heq.symm
  · simp only [applyWritten_not_intact hr hi, applyWritten_not_intact hr' hi', hi, hi',
      implies_true, false_imp_iff, and_self]

/-- Of two accepted notaries whose proposals are hashed over one stream, the stored texts have the
same effect on all states exactly when both or none of them come back as they were, and then
bridges have as many links. -/
theorem effect_of_stream {bridges : BridgesMap} {notary notary' : CString}
    (h : env.Accepts bridges notary p r) (h' : env.Accepts bridges notary' p' r')
    (hsize : notary.length < 2 ^ 64) (hsize' : notary'.length < 2 ^ 64)
    (hkeys : ∀ name ∈ bridges.keys, name.length < 2 ^ 64) (hstream : p.stream = p'.stream) :
    (∀ db nHeight st, applyWritten env db nHeight r st = applyWritten env db nHeight r' st) ↔
      (p.Intact ↔ p'.Intact) ∧ (p.Intact → p.linkCount = p'.linkCount) := by
  have hp := h.sized hsize hkeys
  have hp' := h'.sized hsize' hkeys
  exact (hashedAlike_of_stream hp hp' hstream).same_effect_iff hp hp' h.pdatas h'.pdatas

end Effects

/-! ## One root and three texts of its amount -/

def votedRoot : CString := List.replicate 64 'a'

def rootBridges : BridgesMap :=
  (∅ : BridgesMap).insert ['A'] [['A'], ['B'], "https://a".toList, ['1'], "0x1".toList, ['3'], ['8']]

def rootBrhash : CString :=
  "505d8c9423a2a48169a2e6ab1542edfff3ab89ad48e59cf98aecca3a6a63d5c6".toList

def rootNotary (amount_txt : CString) : CString :=
  "**M**".toList ++ (rootBrhash ++ ("0x".toList ++ (votedRoot ++ ':' :: amount_txt)))

def rootProposal (amount_txt : CString) : Proposal := .merkleAdd ['A'] votedRoot amount_txt

def rootEnv : NotaryEnv where
  Hash stream :=
    if stream = streamString ['A'] then
      0x505d8c9423a2a48169a2e6ab1542edfff3ab89ad48e59cf98aecca3a6a63d5c6
    else 0xff6af289cb1224e4acaaa0e313351890ee1f2f0e95bb3e4ffeeff3601fdcdd61
  isValidAddress _ := false
  keyAddress _ := []
  scriptAddress _ := []
  verifyCompact _ _ _ := false
  read_string _ := .null
  write_string _ := []
  length_texts _ _ _ _ h _ := nomatch h

def rootResult (amount_txt : CString) : NotaryResult :=
  ⟨(rootProposal amount_txt).pdatas, getHex (rootEnv.Hash (rootProposal amount_txt).stream), []⟩

theorem accepts_root {amount_txt : CString} (h : 0 < amount_txt.strtoll) :
    rootEnv.Accepts rootBridges (rootNotary amount_txt) (rootProposal amount_txt)
      (rootResult amount_txt) := by
  have hplain : rootEnv.signed (rootNotary amount_txt) = none := rfl
  have hname : rootEnv.bridgeName rootBridges rootBrhash = ['A'] := by decide
  have hholds : rootEnv.Holds rootBridges (rootNotary amount_txt) (rootProposal amount_txt) :=
    .merkleAdd rfl hname (by decide) rfl (by decide) h
  refine ⟨⟨[], [], ?_⟩, ?_, rfl, rfl⟩
  · rw [NotaryEnv.notaryToProposal_plain hplain, hholds.parse]
    rfl
  · rwa [NotaryEnv.innermost_plain hplain]

theorem intact_five : (rootProposal ['5']).Intact :=
  ⟨by decide, by decide⟩

/-- The amounts 5 and 05 are stored as they were written, with one effect. -/
theorem effect_of_stream_sample :
    (applyWritten rootEnv · · (rootResult ['5']) ·) =
      (applyWritten rootEnv · · (rootResult "05".toList) ·) := by
  have hintact : (rootProposal "05".toList).Intact := ⟨by decide, by decide⟩
  funext db nHeight st
  exact (effect_of_stream (accepts_root (by decide)) (accepts_root (by decide))
    (by decide +kernel) (by decide +kernel) (by decide +kernel) (by decide +kernel)).mpr
    ⟨iff_of_true intact_five hintact, fun _ => rfl⟩ db nHeight st

/-- A comma behind the amount is hashed like no comma, but the stored texts change nothing. -/
theorem comma_loses_root :
    rootEnv.Accepts rootBridges (rootNotary ['5']) (rootProposal ['5']) (rootResult ['5']) ∧
    rootEnv.Accepts rootBridges (rootNotary "5,6".toList) (rootProposal "5,6".toList)
      (rootResult "5,6".toList) ∧
    (rootProposal ['5']).stream = (rootProposal "5,6".toList).stream ∧
    ∃ db nHeight st, applyWritten rootEnv db nHeight (rootResult ['5']) st ≠
      applyWritten rootEnv db nHeight (rootResult "5,6".toList) st := by
  have hcomma : ¬ (rootProposal "5,6".toList).Intact := fun h =>
    h.comma "5,6".toList (by simp [rootProposal, Proposal.texts]) (by decide)
  refine ⟨accepts_root (by decide), accepts_root (by decide), by decide, fun _ => none, 0,
    .fresh, ?_⟩
  rw [applyWritten_intact rfl intact_five, applyWritten_not_intact rfl hcomma]
  exact apply_root_ne _ _ _ _

end BitBay
