import BitBay.Governance.Store
import BitBay.Library.SortedMap
import Mathlib.Data.Finset.Sort
import Mathlib.Data.Char
import Mathlib.Data.List.Lex

/-!
# Proposals in notaries

A staker votes with a text in an output of its coinstake. The text names a scope in its first
five characters, and the fields of the proposal follow. The proposal has a hash, taken over a
stream of its fields, and a vector of texts that the database keeps under this hash. A text may
also wrap the text of another voter, with the keys and the signature of that voter.

Signatures, addresses and the JSON library are left to `NotaryEnv`.
-/
namespace BitBay

/-! ## Parts of texts -/

/-- The exceptions of the standard library that reading a text can raise. -/
inductive StdException
  | out_of_range
  | invalid_argument
  deriving DecidableEq

@[simp] theorem ok_bind {α β : Type} (a : α) (f : α → Except StdException β) :
    ((Except.ok a : Except StdException α) >>= f) = f a := rfl

@[simp] theorem pure_ok {α : Type} (a : α) : (pure a : Except StdException α) = .ok a := rfl

namespace CString

def substr (s : CString) (pos n : ℕ) : Except StdException CString :=
  if pos ≤ s.length then .ok ((s.drop pos).take n) else .error .out_of_range

def substrFrom (s : CString) (pos : ℕ) : Except StdException CString :=
  if pos ≤ s.length then .ok (s.drop pos) else .error .out_of_range

variable {s : CString} {pos : ℕ}

@[simp] theorem substr_ok (h : pos ≤ s.length) (n : ℕ) :
    s.substr pos n = .ok ((s.drop pos).take n) := if_pos h

@[simp] theorem substrFrom_ok (h : pos ≤ s.length) : s.substrFrom pos = .ok (s.drop pos) :=
  if_pos h

theorem startsWith_iff {p : String} : s.startsWith p = true ↔ p.toList <+: s :=
  List.isPrefixOf_iff_prefix

end CString

/-- The texts of a `std::set` in its order. -/
def sortedTexts (texts : Finset CString) : List CString := texts.sort (· ≤ ·)

/-! ## JSON values -/

inductive JsonValue
  | obj (members : List (CString × JsonValue))
  | array (values : List JsonValue)
  | str (s : CString)
  | bool (b : Bool)
  | int (n : ℤ)
  | real
  | null

namespace JsonValue

/-- `get_str`; the accessors throw at a value of another type. -/
def get_str : JsonValue → Option CString
  | str s => some s
  | _ => none

def get_array : JsonValue → Option (List JsonValue)
  | array values => some values
  | _ => none

/-- `get_obj`, where an empty object is read no further. -/
def get_obj : JsonValue → Option (List (CString × JsonValue))
  | obj (m :: members) => some (m :: members)
  | _ => none

def get_int64 : JsonValue → Option ℤ
  | int n => some (n.bmod (2 ^ 64))
  | _ => none

def get_int : JsonValue → Option ℤ
  | int n => some (n.bmod (2 ^ 32))
  | _ => none

def find_value (members : List (CString × JsonValue)) (name : String) : JsonValue :=
  ((members.find? fun m => m.1 = name.toList).map Prod.snd).getD null

def texts : JsonValue → List CString
  | str s => [s]
  | array values => values.filterMap get_str
  | _ => []

/-- The texts before the first value that is none. -/
def leadingTexts : List JsonValue → List CString
  | str s :: rest => s :: leadingTexts rest
  | _ => []

theorem eq_of_get_str {value : JsonValue} {s : CString} (h : value.get_str = some s) :
    value = str s := by
  cases value <;> cases h
  rfl

theorem eq_of_get_array {value : JsonValue} {values : List JsonValue}
    (h : value.get_array = some values) : value = array values := by
  cases value <;> cases h
  rfl

/-- A value that is found is the one of a member. -/
theorem mem_of_find_value {members : List (CString × JsonValue)} {name : String}
    {value : JsonValue} (h : find_value members name = value) (hne : value ≠ null) :
    (name.toList, value) ∈ members := by
  unfold find_value at h
  cases hfind : members.find? fun m => m.1 = name.toList with
  | none =>
    rw [hfind] at h
    exact absurd h.symm hne
  | some m =>
    have hname : m.1 = name.toList := by simpa using List.find?_some hfind
    rw [hfind] at h
    rw [← hname, ← h]
    exact List.mem_of_find?_eq_some hfind

end JsonValue

/-! ## Proposals -/

inductive TrustedList
  | tstakers1
  | tstakers2
  deriving DecidableEq

inductive Action
  | add
  | remove
  deriving DecidableEq

inductive ConsensusType
  | tstakers
  | consensus
  | bridge
  | merkle
  | timelockpass
  deriving DecidableEq

def TrustedList.text : TrustedList → CString
  | tstakers1 => "tstakers1".toList
  | tstakers2 => "tstakers2".toList

def Action.text : Action → CString
  | add => "add".toList
  | remove => "remove".toList

def ConsensusType.text : ConsensusType → CString
  | tstakers => "tstakers".toList
  | consensus => "consensus".toList
  | bridge => "bridge".toList
  | merkle => "merkle".toList
  | timelockpass => "timelockpass".toList

inductive Scope
  | tstakers (list : TrustedList)
  | consensus
  | bridge
  | merkle
  | timelockpass
  | onbehalf
  deriving DecidableEq

def Scope.text : Scope → CString
  | tstakers list => list.text
  | consensus => "consensus".toList
  | bridge => "bridge".toList
  | merkle => "merkle".toList
  | timelockpass => "timelockpass".toList
  | onbehalf => "onbehalf".toList

def Scope.ofText (s : CString) : Option Scope :=
  [tstakers .tstakers1, tstakers .tstakers2, consensus, bridge, merkle, timelockpass,
    onbehalf].find? fun scope => s = scope.text

def Action.ofText (s : CString) : Option Action := [add, remove].find? fun action => s = action.text

def ConsensusType.ofText (s : CString) : Option ConsensusType :=
  [tstakers, consensus, bridge, merkle, timelockpass].find? fun type => s = type.text

@[simp] theorem Scope.ofText_text (scope : Scope) : ofText scope.text = some scope := by
  rcases scope with (_ | _) | _ | _ | _ | _ | _ <;> rfl

@[simp] theorem Action.ofText_text (action : Action) : ofText action.text = some action := by
  cases action <;> rfl

@[simp] theorem ConsensusType.ofText_text (type : ConsensusType) : ofText type.text = some type := by
  cases type <;> rfl

def ConsensusType.letter : ConsensusType → Char
  | tstakers => 'T'
  | consensus => 'N'
  | bridge => 'B'
  | merkle => 'M'
  | timelockpass => 'X'

def ConsensusType.ofLetter (s : CString) : Option ConsensusType :=
  [tstakers, consensus, bridge, merkle, timelockpass].find? fun type => s = [type.letter]

structure BridgeFields where
  name : CString
  symb : CString
  links : List CString
  chain_id : ℤ
  contract : CString
  pegsteps : ℤ
  microsteps : ℤ
  deriving DecidableEq

inductive Proposal
  | tstakers (list : TrustedList) (action : Action) (address_txt : CString)
  | consensus (type : ConsensusType) (t1_votes t2_votes o_votes : CString)
  | bridgeAdd (bridge : BridgeFields)
  | bridgeRemove (name : CString)
  | merkleAdd (brname merkle amount_txt : CString)
  | timelockpass (action : Action) (pubkey_txt : CString)
  deriving DecidableEq

def streamInt64 (n : ℤ) : CString := CScript.toCString (Wire.leBytes 8 (n % 2 ^ 64).toNat)

namespace Proposal

def stream : Proposal → CString
  | .tstakers list action address_txt =>
      streamStrings [(Scope.tstakers list).text, action.text, address_txt]
  | .consensus type t1 t2 o => streamStrings [Scope.consensus.text, type.text] ++
      (streamInt t1.atoi ++ (streamInt t2.atoi ++ streamInt o.atoi))
  | .bridgeAdd b => streamStrings [Scope.bridge.text, Action.add.text, b.name, b.symb] ++
      -- the links stand in their order, without their number
      (streamStrings b.links ++ (streamInt b.chain_id ++ (streamString b.contract ++
        (streamInt b.pegsteps ++ streamInt b.microsteps))))
  | .bridgeRemove name => streamStrings [Scope.bridge.text, Action.remove.text, name]
  | .merkleAdd brname merkle amount_txt =>
      streamStrings [Scope.merkle.text, Action.add.text, brname, merkle] ++
        streamInt64 amount_txt.strtoll
  | .timelockpass action pubkey_txt =>
      streamStrings [Scope.timelockpass.text, action.text, pubkey_txt]

def noUntil : CString := "0".toList

def pdatas : Proposal → List CString
  | .tstakers list action address_txt =>
      [(Scope.tstakers list).text, noUntil, action.text, address_txt]
  | .consensus type t1 t2 o => [Scope.consensus.text, noUntil, type.text, t1, t2, o]
  | .bridgeAdd b => [Scope.bridge.text, noUntil, Action.add.text, b.name, b.symb,
      CString.join ';' (sortedTexts b.links.toFinset), CString.ofInt b.chain_id, b.contract,
      CString.ofInt b.pegsteps, CString.ofInt b.microsteps]
  | .bridgeRemove name => [Scope.bridge.text, noUntil, Action.remove.text, name]
  | .merkleAdd brname merkle amount_txt =>
      [Scope.merkle.text, noUntil, Action.add.text, brname, merkle, amount_txt]
  | .timelockpass action pubkey_txt =>
      [Scope.timelockpass.text, noUntil, action.text, pubkey_txt]

end Proposal

/-! ## Keys -/

/-- `CPubKey::GetLen`: the length of a key by its first byte. -/
def pubKeyLen (header : UInt8) : ℕ :=
  if header = 2 ∨ header = 3 then 33
  else if header = 4 ∨ header = 6 ∨ header = 7 then 65
  else 0

def pubKeyOfText (text : CString) : Option (List UInt8) :=
  match parseHex text with
  | [] => none
  | header :: rest =>
    if pubKeyLen header = rest.length + 1 then some (header :: rest) else none

def multisig2 (key1 key2 : List UInt8) : CScript :=
  0x52 :: UInt8.ofNat key1.length :: key1 ++ (UInt8.ofNat key2.length :: key2 ++ [0x52, 0xae])

/-! ## Reading a notary -/

/-- The bridges of the chain: the arguments of every name. -/
abbrev BridgesMap := SortedMap CString (List CString)

/-- What reading a notary calls: hashing, addresses, signatures and the JSON library. -/
structure NotaryEnv where
  /-- The hash of a stream. -/
  Hash : CString → UInt256
  /-- `CBitcoinAddress(s).IsValid()` -/
  isValidAddress : CString → Bool
  /-- `CBitcoinAddress(key.GetID()).ToString()` -/
  keyAddress : List UInt8 → CString
  /-- `CBitcoinAddress(script.GetID()).ToString()` -/
  scriptAddress : CScript → CString
  /-- `key.VerifyCompact(hash, sig)` -/
  verifyCompact : List UInt8 → UInt256 → List UInt8 → Bool
  /-- The value that `json_spirit::read_string` leaves. -/
  read_string : CString → JsonValue
  write_string : JsonValue → CString
  /-- The texts of a member stand in the text that was read, each behind a quote. -/
  length_texts : ∀ text members name value, read_string text = .obj members →
    (name, value) ∈ members → (value.texts.map fun s => s.length + 1).sum ≤ text.length

structure SignedFields where
  sighex : CString
  proposal : CString
  nonce : ℤ
  pubkeys : List CString
  pub1hex : CString

/-- The text that a signed notary wraps, and the address it is credited to. -/
structure SignedProposal where
  proposal : CString
  address : CString

/-- What `NotaryToProposal` returns, with the two references it was given. -/
structure NotaryResult where
  pdatas : List CString
  phash : CString
  address_override : CString
  deriving DecidableEq

namespace JsonValue

/-- The proposal of `**B**1`; any exception means none. -/
def bridgeAdd (jval : JsonValue) : Option Proposal := do
  let jobj ← jval.get_obj
  let name ← (find_value jobj "n").get_str
  let symb ← (find_value jobj "s").get_str
  let jlinks ← (find_value jobj "l").get_array
  let chain_id ← (find_value jobj "i").get_int
  let contract ← (find_value jobj "c").get_str
  let pegsteps ← (find_value jobj "p").get_int
  let microsteps ← (find_value jobj "m").get_int
  let links ← jlinks.mapM get_str
  return .bridgeAdd { name, symb, links, chain_id, contract, pegsteps, microsteps }

def bridgeRemove (jval : JsonValue) : Option Proposal := do
  let jobj ← jval.get_obj
  let name ← (find_value jobj "n").get_str
  return .bridgeRemove name

/-- The members of `**S**`. An exception keeps what was assigned before it, and without the
first key nothing is done. -/
def signedFields (jval : JsonValue) : Option SignedFields := do
  let jobj ← jval.get_obj
  let pubs ← (find_value jobj "k").get_array
  let sighex ← (find_value jobj "s").get_str
  let proposal ← (find_value jobj "m").get_str
  let nonce ← (find_value jobj "n").get_int64
  let pub1hex ← pubs.head?.bind get_str
  return { sighex, proposal, nonce, pubkeys := leadingTexts pubs, pub1hex }

variable {jval : JsonValue} {fields : SignedFields}

theorem proposal_mem (h : jval.signedFields = some fields) :
    ∃ members, jval = obj members ∧ ("m".toList, str fields.proposal) ∈ members := by
  simp only [signedFields, Option.bind_eq_bind, Option.bind_eq_some_iff] at h
  obtain ⟨members, hobj, _, -, _, -, proposal, hproposal, _, -, _, -, hfields⟩ := h
  refine ⟨members, ?_, ?_⟩
  · unfold get_obj at hobj
    split at hobj
    · rw [Option.some.inj hobj]
    · exact absurd hobj (by simp)
  · rw [← Option.some.inj hfields]
    exact mem_of_find_value (eq_of_get_str hproposal) (by simp)

end JsonValue

namespace NotaryEnv

variable (env : NotaryEnv) (bridges : BridgesMap)

def trustedStaker (data1 : CString) : Except StdException (Option Proposal) := do
  let list ← data1.substr 0 1
  if list = ['1'] ∨ list = ['2'] then
    let action ← data1.substr 1 1
    if action = ['1'] ∨ action = ['2'] then
      let address_txt ← data1.substrFrom 2
      if env.isValidAddress address_txt then
        return some (.tstakers (if list = ['2'] then .tstakers2 else .tstakers1)
          (if action = ['2'] then .remove else .add) address_txt)
      else return none
    else return none
  else return none

def consensusVotes (data1 : CString) : Except StdException (Option Proposal) := do
  let consensus_type_t ← data1.substr 0 1
  let vb ← data1.substr 1 1
  let ve ← data1.substr (data1.length - 1) 1
  if vb = ['['] ∧ ve = [']'] then
    let votes_txt ← data1.substr 2 (data1.length - 3)
    match votes_txt.split ',' with
    | [t1_votes, t2_votes, o_votes] =>
      if t1_votes.all Char.isDigit ∧ t2_votes.all Char.isDigit ∧ o_votes.all Char.isDigit then
        return (ConsensusType.ofLetter consensus_type_t).map fun type =>
          .consensus type t1_votes t2_votes o_votes
      else return none
    | _ => return none
  else return none

def bridgeVote (data1 : CString) : Except StdException (Option Proposal) := do
  let action ← data1.substr 0 1
  if action = ['1'] ∨ action = ['2'] then
    let json_txt ← data1.substrFrom 1
    if action = ['2'] then return (env.read_string json_txt).bridgeRemove
    else return (env.read_string json_txt).bridgeAdd
  else return none

def bridgeHash (name : CString) : CString := getHex (env.Hash (streamString name))

def bridgeName (brhash : CString) : CString :=
  bridges.keys.foldl (fun brname name => if env.bridgeHash name = brhash then name else brname) []

def merkleAdd (mdata : CString) : Except StdException (Option Proposal) := do
  if 64 + 66 + 1 + 1 ≤ mdata.length then
    let brhash ← mdata.substr 0 64
    let merkle0x ← mdata.substr 64 66
    let sep ← mdata.substr (64 + 66) 1
    let amount_txt ← mdata.substrFrom (64 + 66 + 1)
    if merkle0x.startsWith "0x" then
      let merkle ← merkle0x.substrFrom 2
      let brname := env.bridgeName bridges brhash
      if (isHex merkle ∧ sep = [':'] ∧ 0 < amount_txt.strtoll) ∧ brname ≠ [] then
        return some (.merkleAdd brname merkle amount_txt)
      else return none
    else return none
  else return none

def timeLockPass (data1 : CString) : Except StdException (Option Proposal) := do
  let action ← data1.substr 0 1
  if action = ['1'] ∨ action = ['2'] then
    let pubkey_txt ← data1.substrFrom 1
    if (pubKeyOfText pubkey_txt).isSome then
      return some (.timelockpass (if action = ['2'] then .remove else .add) pubkey_txt)
    else return none
  else return none

/-- The proposal of a notary that is not signed. No text starts with two of the marks. -/
def parse (notary : CString) : Except StdException (Option Proposal) := do
  if notary.startsWith "**T**" then env.trustedStaker (← notary.substrFrom 5)
  else if notary.startsWith "**N**" then consensusVotes (← notary.substrFrom 5)
  else if notary.startsWith "**B**" then env.bridgeVote (← notary.substrFrom 5)
  else if notary.startsWith "**M**" then env.merkleAdd bridges (← notary.substrFrom 5)
  else if notary.startsWith "**X**" then timeLockPass (← notary.substrFrom 5)
  else return none

/-- The address of the listed keys: of one key, or of the script of two. -/
def votedAddress (pubkeys : List CString) : CString :=
  match pubkeys with
  | [pubkey] => ((pubKeyOfText pubkey).map env.keyAddress).getD "invalid".toList
  | [pubkey1, pubkey2] =>
    match pubKeyOfText pubkey1, pubKeyOfText pubkey2 with
    | some key1, some key2 => env.scriptAddress (multisig2 key1 key2)
    | _, _ => "invalid".toList
  | _ => "invalid".toList

/-- What is signed: the wrapped text and the nonce. -/
def signedHash (proposal : CString) (nonce : ℤ) : UInt256 :=
  env.Hash (streamStrings [proposal, CString.ofInt nonce])

/-- The text in a signed notary, when the signature is one of the first key. -/
def signed (notary : CString) : Option SignedProposal :=
  if notary.startsWith "**S**" then do
    let fields ← (env.read_string (notary.drop 5)).signedFields
    let key ← pubKeyOfText fields.pub1hex
    if env.verifyCompact key (env.signedHash fields.proposal fields.nonce)
        (parseHex fields.sighex) then
      some ⟨fields.proposal, env.votedAddress fields.pubkeys⟩
    else none
  else none

theorem length_signed {env : NotaryEnv} {notary : CString} {inner : SignedProposal}
    (h : env.signed notary = some inner) : inner.proposal.length < notary.length := by
  unfold signed at h
  split_ifs at h with hmark
  simp only [Option.bind_eq_bind, Option.bind_eq_some_iff] at h
  obtain ⟨fields, hfields, key, -, hinner⟩ := h
  split_ifs at hinner
  obtain ⟨members, hread, hmem⟩ := JsonValue.proposal_mem hfields
  have hlength := env.length_texts _ _ _ _ hread hmem
  simp only [JsonValue.texts, List.map_cons, List.map_nil, List.sum_singleton,
    List.length_drop] at hlength
  rw [← Option.some.inj hinner]
  dsimp only
  omega

def notaryToProposal (notary phash address_override : CString) :
    Except StdException NotaryResult :=
  match _hinner : env.signed notary with
  | some inner => do
    -- the address that the wrapped text may name itself is skipped
    let result ← notaryToProposal inner.proposal phash []
    return { result with address_override := inner.address }
  | none => do
    match ← env.parse bridges notary with
    | some p => return ⟨p.pdatas, getHex (env.Hash p.stream), address_override⟩
    | none => return ⟨[], phash, address_override⟩
termination_by notary.length
decreasing_by exact length_signed _hinner

def innermost (notary : CString) : CString :=
  match _hinner : env.signed notary with
  | some inner => innermost inner.proposal
  | none => notary
termination_by notary.length
decreasing_by exact length_signed _hinner

end NotaryEnv

end BitBay
