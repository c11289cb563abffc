import BitBay.Governance.StateData
import BitBay.Library.Run

/-!
# The storage of governance over a run

Votes write the texts of their proposals, and accepted proposals change a state of a cycle: the
state is read under its hash, changed, and written under a new hash. A reorganization goes on from
the hashes of an older cycle, so every value that was ever written may be read again. Separators
in the texts of a proposal are kept out by no check.
-/
namespace BitBay

open CString
open Codec (MAX_SIZE)

/-! ## The steps -/

inductive Record
  | proposal (phash : CString) (pdatas : List CString)
  | state (data : StateData)

structure CycleStates where
  timeLockPasses : UInt256
  consensus : UInt256
  bridges : UInt256
  deriving DecidableEq

/-- The database, the cycles that were connected, and the values that were written. -/
structure Governance where
  db : PegDB
  cycles : List CycleStates
  written : List Record

def Action.onKeys (pubkey_txt : CString) (pubkeys : Finset CString) : Action → Finset CString
  | add => insert pubkey_txt pubkeys
  | remove => pubkeys.erase pubkey_txt

namespace Governance

variable (env : NotaryEnv) (g : Governance)

def writeProposal (phash : CString) (pdatas : List CString) : Governance where
  db := g.db.writeProposal phash pdatas
  cycles := g.cycles
  written := .proposal phash pdatas :: g.written

def writeState (data : StateData) : Governance where
  db := (g.db.writeStateData env data).1
  cycles := g.cycles
  written := .state data :: g.written

def addCycle (cycle : CycleStates) : Governance := { g with cycles := cycle :: g.cycles }

/-- The first vote of a cycle for a proposal: `CalculateBlockBridgeVotes` writes its texts unless
they can be read already. -/
def vote (bridges : BridgesMap) (notary : CString) : Governance :=
  match env.notaryToProposal bridges notary [] [] with
  | .ok r =>
    if r.phash ≠ [] ∧ g.db.readProposal r.phash = none then g.writeProposal r.phash r.pdatas else g
  | .error _ => g

def accept (phash : CString) (base : CycleStates) : Option Governance :=
  match g.db.readProposal phash with
  | none => some g
  | some datas =>
    match changeOf datas with
    | .none => some g
    | .consensus type votes =>
      (g.db.readCycleStateData2 base.consensus).map fun updated_consensus =>
        let data := StateData.consensus (updated_consensus.insert type.index votes)
        (g.writeState env data).addCycle { base with consensus := env.Hash data.stream }
    | .bridge name bdata =>
      (g.db.readCycleStateData3 base.bridges).map fun bridges =>
        let data := StateData.bridges (bridges.insert name bdata)
        (g.writeState env data).addCycle { base with bridges := env.Hash data.stream }
    | .bridgeErase name =>
      (g.db.readCycleStateData3 base.bridges).map fun bridges =>
        let data := StateData.bridges (bridges.erase name)
        (g.writeState env data).addCycle { base with bridges := env.Hash data.stream }
    | .root _ merkle _ =>
      -- a root itself is kept in records of another kind
      if merkle = merklePause then some (g.writeState env (.keys {"true".toList}))
      else if merkle = merkleResume then some (g.writeState env (.keys {"false".toList}))
      else some g
    | .pass action pubkey_txt =>
      (g.db.readCycleStateData1 base.timeLockPasses).map fun pubkeys =>
        let data := StateData.keys (action.onKeys pubkey_txt pubkeys)
        (g.writeState env data).addCycle { base with timeLockPasses := env.Hash data.stream }

/-- What can happen: a vote in a block, or a proposal accepted from the states of any cycle. -/
inductive Event
  | vote (bridges : BridgesMap) (notary : CString)
  | accept (phash : CString) (base : CycleStates)

def step (g : Governance) : Event → Option Governance
  | .vote bridges notary => some (g.vote env bridges notary)
  | .accept phash base => if base ∈ g.cycles then g.accept env phash base else none

/-- The needed votes at the start: four of the first trusted set for every type. -/
def mapProposalConsensusInit : SortedMap ℤ ConsensusVotes :=
  .ofEntries ([.tstakers, .consensus, .bridge, .merkle, .timelockpass].map fun type =>
    (ConsensusType.index type, ⟨4, 0, 0⟩))

/-- What is written before the first cycle, with the sets of the network. -/
def init (sTrustedStakers1Init sTrustedStakers2Init setTimeLockPassesInit : Finset CString) :
    Governance :=
  let datas := [.keys sTrustedStakers1Init, .keys sTrustedStakers2Init,
    .consensus mapProposalConsensusInit, .bridges ∅, .keys setTimeLockPassesInit]
  (datas.foldl (writeState env) ⟨fun _ => none, [], []⟩).addCycle
    { timeLockPasses := env.Hash (StateData.keys setTimeLockPassesInit).stream
      consensus := env.Hash (StateData.consensus mapProposalConsensusInit).stream
      bridges := env.Hash (StateData.bridges ∅).stream }

end Governance

/-! ## Values and their keys -/

namespace Record

variable {env : NotaryEnv} {db : PegDB} {record : Record}

def key (env : NotaryEnv) : Record → CString
  | proposal phash _ => proposalKey phash
  | state data => stateDataKey (env.Hash data.stream)

def text : Record → CString
  | proposal _ pdatas => join ',' pdatas
  | state data => data.text

def ReadsBack (env : NotaryEnv) (db : PegDB) : Record → Prop
  | proposal phash pdatas => db.readProposal phash = some pdatas
  | state data => data.ReadsBack env db

end Record

/-- No text of the proposal has a comma, and none of a bridge to be added has a bar. -/
structure Proposal.Plain (p : Proposal) : Prop where
  comma : ∀ text ∈ p.texts, ',' ∉ text
  bar : ∀ b, p = .bridgeAdd b → ∀ text ∈ p.texts, '|' ∉ text

def Record.Shaped (env : NotaryEnv) : Record → Prop
  | proposal _ pdatas => ∃ bridges notary p,
      env.Holds bridges notary p ∧ p.Plain ∧ pdatas = p.pdatas
  | state data => data.Shaped

theorem proposalKey_injective : Function.Injective proposalKey :=
  fun _ _ h => List.append_cancel_left h

theorem stateDataKey_injective : Function.Injective stateDataKey :=
  fun _ _ h => getHex_injective (List.append_cancel_left h)

theorem proposalKey_ne (phash : CString) (hash : UInt256) :
    proposalKey phash ≠ stateDataKey hash := by
  intro h
  exact absurd (List.cons.inj h).1 (by decide)

theorem Record.readsBack {env : NotaryEnv} {db : PegDB} {record : Record}
    (h : record.Shaped env) (hstored : db (record.key env) = some record.text)
    (hsize : record.text.length ≤ MAX_SIZE) : record.ReadsBack env db := by
  have hread := PegDB.read_of_stored hstored hsize
  cases record with
  | proposal phash pdatas =>
    obtain ⟨_, _, p, -, hplain, rfl⟩ := h
    have hread : db.read (proposalKey phash) = some (join ',' p.pdatas) := hread
    rw [ReadsBack, PegDB.readProposal, hread, Option.map_some, Option.some.injEq]
    exact (split_join_eq_iff (pdatas_ne_nil p)).mpr ((comma_pdatas_iff p).mpr hplain.comma)
  | state data => exact StateData.Shaped.readsBack h hread

/-! ## The invariant -/

theorem NotaryEnv.Holds.pubkey_isSome {env : NotaryEnv} {bridges : BridgesMap} {notary : CString}
    {action : Action} {pubkey_txt : CString}
    (h : env.Holds bridges notary (.timelockpass action pubkey_txt)) :
    (pubKeyOfText pubkey_txt).isSome := by
  generalize hp : Proposal.timelockpass action pubkey_txt = p at h
  cases h with
  | timelockpass hkey =>
    cases hp
    exact hkey
  | bridgeAdd hjson =>
    obtain ⟨b, rfl, -⟩ := JsonValue.bridgeAdd_cases hjson
    cases hp
  | bridgeRemove hjson =>
    obtain ⟨name, rfl, -⟩ := JsonValue.bridgeRemove_cases hjson
    cases hp
  | _ => cases hp

namespace Governance

variable {env : NotaryEnv} {g g' : Governance} {data : StateData} {phash : CString}
  {pdatas : List CString} {cycle base : CycleStates}

/-- The values fit into the database, and none of their hashes collide. -/
structure Storable (env : NotaryEnv) (g : Governance) : Prop where
  size : ∀ record ∈ g.written, record.text.length ≤ MAX_SIZE
  collision : ∀ data data', .state data ∈ g.written → .state data' ∈ g.written →
    env.Hash data.stream = env.Hash data'.stream → data.stream = data'.stream

theorem Storable.of_subset (h : g'.Storable env) (hsub : g.written ⊆ g'.written) :
    g.Storable env :=
  ⟨fun record hrecord => h.size record (hsub hrecord),
    fun data data' hdata hdata' => h.collision data data' (hsub hdata) (hsub hdata')⟩

structure Covers (env : NotaryEnv) (g : Governance) (cycle : CycleStates) : Prop where
  timeLockPasses : ∃ datas, .state (.keys datas) ∈ g.written ∧
    cycle.timeLockPasses = env.Hash (StateData.keys datas).stream
  consensus : ∃ datas, .state (.consensus datas) ∈ g.written ∧
    cycle.consensus = env.Hash (StateData.consensus datas).stream
  bridges : ∃ datas, .state (.bridges datas) ∈ g.written ∧
    cycle.bridges = env.Hash (StateData.bridges datas).stream

theorem Covers.of_subset (h : g.Covers env cycle) (hsub : g.written ⊆ g'.written) :
    g'.Covers env cycle where
  timeLockPasses := h.timeLockPasses.imp fun _ hdatas => ⟨hsub hdatas.1, hdatas.2⟩
  consensus := h.consensus.imp fun _ hdatas => ⟨hsub hdatas.1, hdatas.2⟩
  bridges := h.bridges.imp fun _ hdatas => ⟨hsub hdatas.1, hdatas.2⟩

/-- Every value that was written stands under its key, and was made by plain proposals. -/
structure Sound (env : NotaryEnv) (g : Governance) : Prop where
  stored : ∀ record ∈ g.written, g.db (record.key env) = some record.text
  shaped : ∀ record ∈ g.written, record.Shaped env
  proposals : ∀ phash, g.db (proposalKey phash) ≠ none →
    ∃ pdatas, .proposal phash pdatas ∈ g.written
  cycles : ∀ cycle ∈ g.cycles, g.Covers env cycle

theorem Sound.readsBack (h : g.Sound env) (hstorable : g.Storable env) {record : Record}
    (hrecord : record ∈ g.written) : record.ReadsBack env g.db :=
  Record.readsBack (h.shaped record hrecord) (h.stored record hrecord)
    (hstorable.size record hrecord)

theorem db_writeState (env : NotaryEnv) (g : Governance) (data : StateData) :
    (g.writeState env data).db =
      Function.update g.db (stateDataKey (env.Hash data.stream)) (some data.text) := rfl

theorem db_writeProposal (g : Governance) (phash : CString) (pdatas : List CString) :
    (g.writeProposal phash pdatas).db =
      Function.update g.db (proposalKey phash) (some (join ',' pdatas)) := rfl

theorem subset_writeState (env : NotaryEnv) (g : Governance) (data : StateData) :
    g.written ⊆ (g.writeState env data).written := List.subset_cons_self _ _

theorem subset_writeProposal (g : Governance) (phash : CString) (pdatas : List CString) :
    g.written ⊆ (g.writeProposal phash pdatas).written := List.subset_cons_self _ _

/-- A state may only be written over by one of the same text. -/
theorem Sound.writeState (h : g.Sound env) (hshaped : data.Shaped)
    (hstorable : (g.writeState env data).Storable env) : (g.writeState env data).Sound env where
  stored record hrecord := by
    rcases List.mem_cons.mp hrecord with rfl | hold
    · exact Function.update_self _ _ _
    · by_cases hkey : record.key env = stateDataKey (env.Hash data.stream)
      · rw [db_writeState, hkey, Function.update_self, Option.some.injEq]
        cases record with
        | proposal phash pdatas => exact absurd hkey (proposalKey_ne _ _)
        | state data' =>
          have hstream := hstorable.collision data data' List.mem_cons_self hrecord
            (stateDataKey_injective hkey).symm
          exact hshaped.text_eq (h.shaped _ hold) (hstorable.size _ List.mem_cons_self)
            (hstorable.size _ hrecord) hstream
      · exact (Function.update_of_ne hkey _ _).trans (h.stored record hold)
  shaped := List.forall_mem_cons.mpr ⟨hshaped, h.shaped⟩
  proposals phash hphash := by
    rw [db_writeState, Function.update_of_ne (proposalKey_ne _ _)] at hphash
    exact (h.proposals phash hphash).imp fun _ hmem => List.mem_cons_of_mem _ hmem
  cycles cycle hcycle := (h.cycles cycle hcycle).of_subset (subset_writeState env g data)

/-- The texts of a proposal are written where none can be read yet. -/
theorem Sound.writeProposal (h : g.Sound env) (hread : g.db.readProposal phash = none)
    (hshaped : (Record.proposal phash pdatas).Shaped env)
    (hstorable : (g.writeProposal phash pdatas).Storable env) :
    (g.writeProposal phash pdatas).Sound env where
  stored record hrecord := by
    rcases List.mem_cons.mp hrecord with rfl | hold
    · exact Function.update_self _ _ _
    · have hne : record.key env ≠ proposalKey phash := by
        intro hkey
        cases record with
        | proposal phash' pdatas' =>
          have hback := h.readsBack (hstorable.of_subset (subset_writeProposal g _ _)) hold
          rw [Record.ReadsBack, proposalKey_injective hkey, hread] at hback
          cases hback
        | state data => exact proposalKey_ne _ _ hkey.symm
      exact (Function.update_of_ne hne _ _).trans (h.stored record hold)
  shaped := List.forall_mem_cons.mpr ⟨hshaped, h.shaped⟩
  proposals phash' hphash := by
    by_cases hkey : phash' = phash
    · exact ⟨pdatas, hkey ▸ List.mem_cons_self⟩
    · rw [db_writeProposal, Function.update_of_ne fun hsame => hkey (proposalKey_injective hsame)]
        at hphash
      exact (h.proposals phash' hphash).imp fun _ hmem => List.mem_cons_of_mem _ hmem
  cycles cycle hcycle := (h.cycles cycle hcycle).of_subset (subset_writeProposal g _ _)

theorem Sound.addCycle (h : g.Sound env) (hcovers : g.Covers env cycle) :
    (g.addCycle cycle).Sound env where
  stored := h.stored
  shaped := h.shaped
  proposals := h.proposals
  cycles c hc := by
    rcases List.mem_cons.mp hc with rfl | hold
    · exact ⟨hcovers.timeLockPasses, hcovers.consensus, hcovers.bridges⟩
    · obtain ⟨h1, h2, h3⟩ := h.cycles c hold
      exact ⟨h1, h2, h3⟩

/-! ## The states at the start -/

theorem shaped_consensusInit : (StateData.consensus mapProposalConsensusInit).Shaped := by
  have hvotes : IsInt32 4 ∧ IsInt32 0 := by
    unfold IsInt32
    omega
  have hentries : mapProposalConsensusInit.entries =
      [(1, ⟨4, 0, 0⟩), (2, ⟨4, 0, 0⟩), (3, ⟨4, 0, 0⟩), (4, ⟨4, 0, 0⟩), (5, ⟨4, 0, 0⟩)] := rfl
  refine ⟨List.mem_cons_self, fun e he => ?_⟩
  rw [hentries] at he
  have htype : 1 ≤ e.1 ∧ e.1 ≤ 5 ∧ e.2 = ⟨4, 0, 0⟩ := by
    simp only [List.mem_cons, List.not_mem_nil, or_false] at he
    rcases he with rfl | rfl | rfl | rfl | rfl <;> decide
  obtain ⟨hlow, hhigh, hvalue⟩ := htype
  refine ⟨⟨hlow, hhigh⟩, ?_, ?_, ?_⟩ <;> rw [hvalue]
  · exact hvotes.1
  · exact hvotes.2
  · exact hvotes.2

theorem Sound.foldl {datas : List StateData} (h : g.Sound env) (hdatas : ∀ data ∈ datas, data.Shaped)
    (hstorable : (datas.foldl (Governance.writeState env) g).Storable env) :
    (datas.foldl (Governance.writeState env) g).Sound env := by
  have hsub (datas : List StateData) (g : Governance) :
      g.written ⊆ (datas.foldl (Governance.writeState env) g).written := by
    induction datas generalizing g with
    | nil => exact List.Subset.refl _
    | cons data rest ih => exact List.Subset.trans (subset_writeState env g data) (ih _)
  induction datas generalizing g with
  | nil => exact h
  | cons data rest ih =>
    obtain ⟨hdata, hrest⟩ := List.forall_mem_cons.mp hdatas
    exact ih (h.writeState hdata (hstorable.of_subset (hsub rest _))) hrest hstorable

variable {sTrustedStakers1Init sTrustedStakers2Init setTimeLockPassesInit : Finset CString}

theorem sound_init (h1 : (StateData.keys sTrustedStakers1Init).Shaped)
    (h2 : (StateData.keys sTrustedStakers2Init).Shaped)
    (hpasses : (StateData.keys setTimeLockPassesInit).Shaped)
    (hstorable : (init env sTrustedStakers1Init sTrustedStakers2Init
      setTimeLockPassesInit).Storable env) :
    (init env sTrustedStakers1Init sTrustedStakers2Init setTimeLockPassesInit).Sound env := by
  have hempty : (⟨fun _ => none, [], []⟩ : Governance).Sound env :=
    ⟨by simp, by simp, fun phash h => absurd rfl h, by simp⟩
  have hbridges : (StateData.bridges ∅).Shaped := fun e he => absurd he List.not_mem_nil
  refine (hempty.foldl ?_ ⟨hstorable.size, hstorable.collision⟩).addCycle ?_
  · simp only [List.forall_mem_cons]
    exact ⟨h1, h2, shaped_consensusInit, hbridges, hpasses, by simp⟩
  · exact ⟨⟨_, by simp [Governance.writeState], rfl⟩, ⟨_, by simp [Governance.writeState], rfl⟩,
      ⟨_, by simp [Governance.writeState], rfl⟩⟩

/-! ## One step -/

section Step

variable {bridges : BridgesMap} {notary : CString} {datas : List CString}

/-- What a vote does: it writes the texts of its proposal where none can be read, or nothing. -/
theorem vote_cases (env : NotaryEnv) (g : Governance) (bridges : BridgesMap) (notary : CString) :
    g.vote env bridges notary = g ∨ ∃ p, env.Holds bridges (env.innermost notary) p ∧
      g.db.readProposal (getHex (env.Hash p.stream)) = none ∧
      g.vote env bridges notary = g.writeProposal (getHex (env.Hash p.stream)) p.pdatas := by
  unfold vote
  rw [NotaryEnv.notaryToProposal_eq]
  cases hparse : env.parse bridges (env.innermost notary) with
  | error e => exact .inl rfl
  | ok found =>
    cases found with
    | none => exact .inl (if_neg fun h => h.1 rfl)
    | some p =>
      simp only [Except.map, NotaryEnv.resultOf]
      split_ifs with hwrite
      · exact .inr ⟨p, NotaryEnv.parse_eq_some_iff.mp hparse, hwrite.2, rfl⟩
      · exact .inl rfl

theorem subset_vote (env : NotaryEnv) (g : Governance) (bridges : BridgesMap) (notary : CString) :
    g.written ⊆ (g.vote env bridges notary).written := by
  rcases vote_cases env g bridges notary with h | ⟨p, -, -, h⟩ <;> rw [h]
  · exact List.Subset.refl _
  · exact subset_writeProposal g _ _

theorem Sound.vote (h : g.Sound env)
    (hplain : ∀ p, env.Holds bridges (env.innermost notary) p → p.Plain)
    (hstorable : (g.vote env bridges notary).Storable env) :
    (g.vote env bridges notary).Sound env := by
  rcases vote_cases env g bridges notary with hvote | ⟨p, hholds, hread, hvote⟩
  · rwa [hvote]
  · rw [hvote] at hstorable ⊢
    exact h.writeProposal hread ⟨_, _, p, hholds, hplain p hholds, rfl⟩ hstorable

/-- What accepting does: nothing, a new state of the pause, or a new state of the cycle. -/
theorem subset_accept (h : g.accept env phash base = some g') : g.written ⊆ g'.written := by
  unfold accept at h
  split at h
  · cases h
    exact List.Subset.refl _
  · split at h
    · cases h
      exact List.Subset.refl _
    · obtain ⟨_, -, rfl⟩ := Option.map_eq_some_iff.mp h
      exact subset_writeState env g _
    · obtain ⟨_, -, rfl⟩ := Option.map_eq_some_iff.mp h
      exact subset_writeState env g _
    · obtain ⟨_, -, rfl⟩ := Option.map_eq_some_iff.mp h
      exact subset_writeState env g _
    · split_ifs at h <;> cases h
      · exact subset_writeState env g _
      · exact subset_writeState env g _
      · exact List.Subset.refl _
    · obtain ⟨_, -, rfl⟩ := Option.map_eq_some_iff.mp h
      exact subset_writeState env g _

/-- The texts that are read for a proposal are those of a plain one. -/
theorem Sound.readProposal (h : g.Sound env) (hg : g.Storable env)
    (hread : g.db.readProposal phash = some datas) :
    ∃ bridges notary p, env.Holds bridges notary p ∧ p.Plain ∧ datas = p.pdatas := by
  have hstored : g.db (proposalKey phash) ≠ none := by
    intro hnone
    rw [PegDB.readProposal, PegDB.read, hnone] at hread
    cases hread
  obtain ⟨pdatas, hmem⟩ := h.proposals phash hstored
  have hback : g.db.readProposal phash = some pdatas := h.readsBack hg hmem
  rw [hread] at hback
  cases hback
  exact h.shaped _ hmem

theorem Sound.readData1 (h : g.Sound env) (hg : g.Storable env) (hbase : g.Covers env base) :
    ∃ datas, g.db.readCycleStateData1 base.timeLockPasses = some datas ∧
      (StateData.keys datas).Shaped := by
  obtain ⟨datas, hmem, hhash⟩ := hbase.timeLockPasses
  exact ⟨datas, hhash ▸ h.readsBack hg hmem, h.shaped _ hmem⟩

theorem Sound.readData2 (h : g.Sound env) (hg : g.Storable env) (hbase : g.Covers env base) :
    ∃ datas, g.db.readCycleStateData2 base.consensus = some datas ∧
      (StateData.consensus datas).Shaped := by
  obtain ⟨datas, hmem, hhash⟩ := hbase.consensus
  exact ⟨datas, hhash ▸ h.readsBack hg hmem, h.shaped _ hmem⟩

theorem Sound.readData3 (h : g.Sound env) (hg : g.Storable env) (hbase : g.Covers env base) :
    ∃ datas, g.db.readCycleStateData3 base.bridges = some datas ∧
      (StateData.bridges datas).Shaped := by
  obtain ⟨datas, hmem, hhash⟩ := hbase.bridges
  exact ⟨datas, hhash ▸ h.readsBack hg hmem, h.shaped _ hmem⟩

/-! ### Changed values keep their shapes -/

theorem shaped_insert_votes {votes : SortedMap ℤ ConsensusVotes}
    (h : (StateData.consensus votes).Shaped) (type : ConsensusType) (t1 t2 o : CString) :
    (StateData.consensus (votes.insert type.index ⟨t1.atoi, t2.atoi, o.atoi⟩)).Shaped := by
  refine ⟨(SortedMap.mem_insert _ _ _ _).mpr (.inr h.1), fun e he => ?_⟩
  rcases SortedMap.mem_entries_insert.mp he with rfl | ⟨hold, -⟩
  · have htype : 1 ≤ type.index ∧ type.index ≤ 5 := by cases type <;> decide
    exact ⟨htype, atoi_range t1, atoi_range t2, atoi_range o⟩
  · exact h.2 e hold

theorem shaped_insert_bridge {datas : BridgesMap} {b : BridgeFields}
    (h : (StateData.bridges datas).Shaped) (hplain : (Proposal.bridgeAdd b).Plain) :
    (StateData.bridges (datas.insert b.name [b.name, b.symb, b.linksText, ofInt b.chain_id,
      b.contract, ofInt b.pegsteps, ofInt b.microsteps])).Shaped := by
  have hargs {c : Char} (hsep : c ≠ ';') (hnumber : ¬ IsNumeric c)
      (htexts : ∀ text ∈ (Proposal.bridgeAdd b).texts, c ∉ text) :
      ∀ arg ∈ [b.name, b.symb, b.linksText, ofInt b.chain_id, b.contract, ofInt b.pegsteps,
        ofInt b.microsteps], c ∉ arg := by
    simp only [Proposal.texts, List.forall_mem_cons] at htexts ⊢
    obtain ⟨hname, hsymb, hcontract, hlinks⟩ := htexts
    exact ⟨hname, hsymb, not_mem_linksText hsep hlinks, not_mem_ofInt hnumber _, hcontract,
      not_mem_ofInt hnumber _, not_mem_ofInt hnumber _, by simp⟩
  intro e he
  rcases SortedMap.mem_entries_insert.mp he with rfl | ⟨hold, -⟩
  · exact ⟨rfl, rfl, hargs (by decide) (by decide) hplain.comma,
      hargs (by decide) (by decide) (hplain.bar b rfl)⟩
  · exact h e hold

theorem shaped_erase_bridge {datas : BridgesMap} (h : (StateData.bridges datas).Shaped)
    (name : CString) : (StateData.bridges (datas.erase name)).Shaped :=
  fun e he => h e (SortedMap.mem_entries_erase.mp he).1

theorem shaped_pass {pubkeys : Finset CString} {pubkey_txt : CString}
    (h : (StateData.keys pubkeys).Shaped) (hkey : (pubKeyOfText pubkey_txt).isSome)
    (hcomma : ',' ∉ pubkey_txt) (action : Action) :
    (StateData.keys (action.onKeys pubkey_txt pubkeys)).Shaped := by
  have hne : pubkey_txt ≠ [] := by
    rintro rfl
    exact absurd hkey (by decide)
  cases action with
  | add =>
    intro s hs
    rcases Finset.mem_insert.mp hs with rfl | hold
    · exact ⟨hne, hcomma⟩
    · exact h s hold
  | remove => exact fun s hs => h s (Finset.mem_of_mem_erase hs)

theorem shaped_pause {s : CString} (hne : s ≠ []) (hcomma : ',' ∉ s) :
    (StateData.keys {s}).Shaped := by
  intro s' hs'
  rw [Finset.mem_singleton.mp hs']
  exact ⟨hne, hcomma⟩

theorem Sound.accept (h : g.Sound env) (hbase : g.Covers env base)
    (haccept : g.accept env phash base = some g') (hstorable : g'.Storable env) :
    g'.Sound env := by
  have hg := hstorable.of_subset (subset_accept haccept)
  unfold Governance.accept at haccept
  cases hread : g.db.readProposal phash with
  | none =>
    rw [hread] at haccept
    cases haccept
    exact h
  | some datas =>
    obtain ⟨bridges, notary, p, hholds, hplain, rfl⟩ := h.readProposal hg hread
    simp only [hread, changeOf_pdatas] at haccept
    have hold (data : StateData) := hbase.of_subset (subset_writeState env g data)
    have hnew (data : StateData) : .state data ∈ (g.writeState env data).written :=
      List.mem_cons_self
    cases p with
    | tstakers list action address_txt =>
      cases haccept
      exact h
    | consensus type t1 t2 o =>
      obtain ⟨votes, hvotes, hshaped⟩ := h.readData2 hg hbase
      simp only [Proposal.change, hvotes, Option.map_some, Option.some.injEq] at haccept
      subst haccept
      exact (h.writeState (shaped_insert_votes hshaped type t1 t2 o) ⟨hstorable.size,
        hstorable.collision⟩).addCycle ⟨(hold _).timeLockPasses, ⟨_, hnew _, rfl⟩, (hold _).bridges⟩
    | bridgeAdd b =>
      obtain ⟨datas, hdatas, hshaped⟩ := h.readData3 hg hbase
      simp only [Proposal.change, hdatas, Option.map_some, Option.some.injEq] at haccept
      subst haccept
      exact (h.writeState (shaped_insert_bridge hshaped hplain) ⟨hstorable.size,
        hstorable.collision⟩).addCycle ⟨(hold _).timeLockPasses, (hold _).consensus,
        ⟨_, hnew _, rfl⟩⟩
    | bridgeRemove name =>
      obtain ⟨datas, hdatas, hshaped⟩ := h.readData3 hg hbase
      simp only [Proposal.change, hdatas, Option.map_some, Option.some.injEq] at haccept
      subst haccept
      exact (h.writeState (shaped_erase_bridge hshaped name) ⟨hstorable.size,
        hstorable.collision⟩).addCycle ⟨(hold _).timeLockPasses, (hold _).consensus,
        ⟨_, hnew _, rfl⟩⟩
    | merkleAdd brname merkle amount_txt =>
      simp only [Proposal.change] at haccept
      split_ifs at haccept <;> cases haccept
      · exact h.writeState (shaped_pause (by decide) (by decide)) hstorable
      · exact h.writeState (shaped_pause (by decide) (by decide)) hstorable
      · exact h
    | timelockpass action pubkey_txt =>
      obtain ⟨pubkeys, hpubkeys, hshaped⟩ := h.readData1 hg hbase
      have hkey := hholds.pubkey_isSome
      have hcomma := hplain.comma pubkey_txt (List.mem_singleton_self _)
      simp only [Proposal.change, hpubkeys, Option.map_some, Option.some.injEq] at haccept
      subst haccept
      exact (h.writeState (shaped_pass hshaped hkey hcomma action) ⟨hstorable.size,
        hstorable.collision⟩).addCycle ⟨⟨_, hnew _, rfl⟩, (hold _).consensus, (hold _).bridges⟩

/-! ### The states through the database -/

structure Reads (db : PegDB) (cycle : CycleStates) (st : AcceptedStates) : Prop where
  timeLockPasses : db.readCycleStateData1 cycle.timeLockPasses = some st.timeLockPasses
  consensus : db.readCycleStateData2 cycle.consensus = some st.consensus
  bridges : db.readCycleStateData3 cycle.bridges = some st.bridges

variable {st : AcceptedStates}

/-- Nothing that is written later changes what is read for a cycle. -/
theorem Reads.of_subset (h : Reads g.db base st) (hbase : g.Covers env base) (hsound : g.Sound env)
    (hsound' : g'.Sound env) (hg : g.Storable env) (hg' : g'.Storable env)
    (hsub : g.written ⊆ g'.written) : Reads g'.db base st where
  timeLockPasses := by
    obtain ⟨datas, hmem, hhash⟩ := hbase.timeLockPasses
    have hold : g.db.readCycleStateData1 _ = some datas := hsound.readsBack hg hmem
    have hnew : g'.db.readCycleStateData1 _ = some datas := hsound'.readsBack hg' (hsub hmem)
    rw [← h.timeLockPasses, hhash, hold, hnew]
  consensus := by
    obtain ⟨datas, hmem, hhash⟩ := hbase.consensus
    have hold : g.db.readCycleStateData2 _ = some datas := hsound.readsBack hg hmem
    have hnew : g'.db.readCycleStateData2 _ = some datas := hsound'.readsBack hg' (hsub hmem)
    rw [← h.consensus, hhash, hold, hnew]
  bridges := by
    obtain ⟨datas, hmem, hhash⟩ := hbase.bridges
    have hold : g.db.readCycleStateData3 _ = some datas := hsound.readsBack hg hmem
    have hnew : g'.db.readCycleStateData3 _ = some datas := hsound'.readsBack hg' (hsub hmem)
    rw [← h.bridges, hhash, hold, hnew]

/-- The new cycle is read as the change of the proposal made of the old one. -/
theorem Sound.accept_reads (h : g.Sound env) (hbase : base ∈ g.cycles)
    (haccept : g.accept env phash base = some g') (hstorable : g'.Storable env)
    (hread : g.db.readProposal phash = some datas) (hst : Reads g.db base st) (nHeight : ℕ) :
    ∃ cycle ∈ g'.cycles, Reads g'.db cycle ((changeOf datas).apply env nHeight st) := by
  have hcovers := h.cycles base hbase
  have hsub := subset_accept haccept
  have hsound' := h.accept hcovers haccept hstorable
  have hg := hstorable.of_subset hsub
  have hkept : Reads g'.db base st := hst.of_subset hcovers h hsound' hg hstorable hsub
  have hnew (data : StateData) (hmem : .state data ∈ g'.written) : data.ReadsBack env g'.db := by
    have hback := hsound'.readsBack hstorable hmem
    exact hback
  unfold Governance.accept at haccept
  simp only [hread] at haccept
  cases hchange : changeOf datas with
  | none =>
    simp only [hchange, Option.some.injEq] at haccept
    exact ⟨base, haccept ▸ hbase, hkept⟩
  | consensus type votes =>
    simp only [hchange, hst.consensus, Option.map_some, Option.some.injEq] at haccept
    subst haccept
    exact ⟨_, List.mem_cons_self, hkept.timeLockPasses, hnew _ List.mem_cons_self, hkept.bridges⟩
  | bridge name bdata =>
    simp only [hchange, hst.bridges, Option.map_some, Option.some.injEq] at haccept
    subst haccept
    exact ⟨_, List.mem_cons_self, hkept.timeLockPasses, hkept.consensus, hnew _ List.mem_cons_self⟩
  | bridgeErase name =>
    simp only [hchange, hst.bridges, Option.map_some, Option.some.injEq] at haccept
    subst haccept
    exact ⟨_, List.mem_cons_self, hkept.timeLockPasses, hkept.consensus, hnew _ List.mem_cons_self⟩
  | root brname merkle amount =>
    -- the pause is no state of the cycle that proposals are read from
    have hsame : Reads g'.db base ((StateChange.root brname merkle amount).apply env nHeight st) := by
      simp only [StateChange.apply]
      split_ifs <;> exact ⟨hkept.timeLockPasses, hkept.consensus, hkept.bridges⟩
    simp only [hchange] at haccept
    split_ifs at haccept <;> cases haccept <;> exact ⟨base, hbase, hsame⟩
  | pass action pubkey_txt =>
    simp only [hchange, hst.timeLockPasses, Option.map_some, Option.some.injEq] at haccept
    subst haccept
    have hkeys := hnew _ List.mem_cons_self
    cases action <;> exact ⟨_, List.mem_cons_self, hkeys, hkept.consensus, hkept.bridges⟩

end Step

/-! ## Runs -/

def Event.Plain (env : NotaryEnv) : Event → Prop
  | .vote bridges notary => ∀ p, env.Holds bridges (env.innermost notary) p → p.Plain
  | .accept _ _ => True

variable {event : Event} {events : List Event}

theorem subset_step (h : g.step env event = some g') : g.written ⊆ g'.written := by
  cases event with
  | vote bridges notary =>
    cases h
    exact subset_vote env g bridges notary
  | accept phash base =>
    rw [step] at h
    split_ifs at h
    exact subset_accept h

theorem Sound.step (h : g.Sound env) (hplain : event.Plain env) (hstep : g.step env event = some g')
    (hstorable : g'.Storable env) : g'.Sound env := by
  cases event with
  | vote bridges notary =>
    cases hstep
    exact h.vote hplain hstorable
  | accept phash base =>
    rw [Governance.step] at hstep
    split_ifs at hstep with hbase
    exact h.accept (h.cycles base hbase) hstep hstorable

theorem Sound.run (h : g.Storable env → g.Sound env) (hplain : ∀ event ∈ events, event.Plain env)
    (hrun : events.foldlM (Governance.step env) g = some g') : g'.Storable env → g'.Sound env :=
  Run.foldlM_some_invariant (P := fun g => g.Storable env → g.Sound env)
    (fun event hevent _ _ hsound hstep hstorable =>
      (hsound (hstorable.of_subset (subset_step hstep))).step (hplain event hevent) hstep hstorable)
    h hrun

variable {sTrustedStakers1Init sTrustedStakers2Init setTimeLockPassesInit : Finset CString}

/-- In a run whose votes are for plain proposals, every value that was written is read back as it
was, whatever was written after it. -/
theorem storage_lossless (h1 : ∀ s ∈ sTrustedStakers1Init, s ≠ [] ∧ ',' ∉ s)
    (h2 : ∀ s ∈ sTrustedStakers2Init, s ≠ [] ∧ ',' ∉ s)
    (hpasses : ∀ s ∈ setTimeLockPassesInit, s ≠ [] ∧ ',' ∉ s)
    (hplain : ∀ event ∈ events, event.Plain env)
    (hrun : events.foldlM (step env)
      (init env sTrustedStakers1Init sTrustedStakers2Init setTimeLockPassesInit) = some g)
    (hsize : ∀ record ∈ g.written, record.text.length ≤ MAX_SIZE)
    (hcollision : ∀ data data', .state data ∈ g.written → .state data' ∈ g.written →
      env.Hash data.stream = env.Hash data'.stream → data.stream = data'.stream) :
    ∀ record ∈ g.written, record.ReadsBack env g.db := by
  have hsound := Sound.run (sound_init h1 h2 hpasses) hplain hrun ⟨hsize, hcollision⟩
  exact fun record hrecord => hsound.readsBack ⟨hsize, hcollision⟩ hrecord

/-! ## A vote that is stored and accepted -/

def votedConsensus : SortedMap ℤ ConsensusVotes :=
  mapProposalConsensusInit.insert (ConsensusType.index .tstakers) ⟨1, 2, 3⟩

/-- A text that is read as null has no members. -/
theorem length_texts_null (text : CString) (members : List (CString × JsonValue)) (name : CString)
    (value : JsonValue) (h : JsonValue.null = .obj members) (_ : (name, value) ∈ members) :
    (value.texts.map fun s => s.length + 1).sum ≤ text.length := by
  cases h

def storageEnv : NotaryEnv where
  Hash stream :=
    if stream = [] then 0x56944c5d3f98413ef45cf54545538103cc9f298e0575820ad3591376e2e0f65d
    else if stream = mapProposalConsensusInit.entries.flatMap StateData.votesStream then
      0x954f231580a63ea8dae3d53d92e2068350ccb65753f69c8b3f71d0e0c17aed75
    else if stream = votedConsensus.entries.flatMap StateData.votesStream then
      0x9bb6b7ff81b5ec5e4c0094668901368122a360260e7805f199598a57cb379444
    else if stream = streamStrings [NotaryEnv.sampleKey1] then
      0x59ebd448c26cd5e84ed78dceae98c34ae4f78fd1caf2c25ffdaeb68e04d45324
    else 0x085a476c77ad085f6a6a58ca444f14613f94412415338fcca3c4a3e24b349f12
  isValidAddress _ := false
  keyAddress _ := []
  scriptAddress _ := []
  verifyCompact _ _ _ := false
  read_string _ := .null
  write_string _ := []
  length_texts := length_texts_null

def votedProposal : Proposal := .consensus .tstakers ['1'] ['2'] ['3']

def votedHash : CString := getHex (storageEnv.Hash votedProposal.stream)

theorem parse_voted :
    storageEnv.parse ∅ NotaryEnv.sampleProposal = .ok (some votedProposal) := rfl

theorem vote_voted : storageEnv.notaryToProposal ∅ NotaryEnv.sampleProposal [] [] =
    .ok ⟨votedProposal.pdatas, votedHash, []⟩ := by
  have hplain : storageEnv.signed NotaryEnv.sampleProposal = none := rfl
  rw [NotaryEnv.notaryToProposal_plain hplain, parse_voted]
  rfl

def startCycle : CycleStates where
  timeLockPasses := storageEnv.Hash (StateData.keys {NotaryEnv.sampleKey1}).stream
  consensus := storageEnv.Hash (StateData.consensus mapProposalConsensusInit).stream
  bridges := storageEnv.Hash (StateData.bridges ∅).stream

/-- The node before and after the vote, and after the proposal was accepted. -/
def startState : Governance := init storageEnv ∅ ∅ {NotaryEnv.sampleKey1}

def votedState : Governance := startState.writeProposal votedHash votedProposal.pdatas

def acceptedState : Governance :=
  (votedState.writeState storageEnv (.consensus votedConsensus)).addCycle
    { startCycle with consensus := storageEnv.Hash (StateData.consensus votedConsensus).stream }

def storedDatas : List StateData := [.consensus votedConsensus, .keys {NotaryEnv.sampleKey1},
  .bridges ∅, .consensus mapProposalConsensusInit, .keys ∅, .keys ∅]

theorem written_sample {record : Record} (h : record ∈ acceptedState.written) :
    record = .proposal votedHash votedProposal.pdatas ∨
      ∃ data ∈ storedDatas, record = .state data := by
  simp only [acceptedState, votedState, startState, init, addCycle, writeProposal,
    Governance.writeState, List.foldl_cons, List.foldl_nil, List.mem_cons, List.not_mem_nil,
    or_false] at h
  simp only [storedDatas, List.mem_cons, List.not_mem_nil, or_false]
  rcases h with rfl | rfl | rfl | rfl | rfl | rfl | rfl <;> simp

/-- The streams of the values, each one another hash. -/
theorem streams_sample {data : StateData} (h : data ∈ storedDatas) :
    data.stream ∈ [votedConsensus.entries.flatMap StateData.votesStream,
      streamStrings [NotaryEnv.sampleKey1], [],
      mapProposalConsensusInit.entries.flatMap StateData.votesStream] := by
  simp only [storedDatas, List.mem_cons, List.not_mem_nil, or_false] at h ⊢
  have hnone : sortedTexts ∅ = [] := Finset.sort_empty _
  rcases h with rfl | rfl | rfl | rfl | rfl | rfl
  · exact .inl rfl
  · exact .inr (.inl (by rw [StateData.stream, sortedTexts_singleton]))
  · exact .inr (.inr (.inl rfl))
  · exact .inr (.inr (.inr rfl))
  · exact .inr (.inr (.inl (by rw [StateData.stream, hnone]; rfl)))
  · exact .inr (.inr (.inl (by rw [StateData.stream, hnone]; rfl)))

theorem texts_sample {data : StateData} (h : data ∈ storedDatas) : data.text.length ≤ MAX_SIZE := by
  have hnone : sortedTexts ∅ = [] := Finset.sort_empty _
  simp only [storedDatas, List.mem_cons, List.not_mem_nil, or_false] at h
  rcases h with rfl | rfl | rfl | rfl | rfl | rfl
  · decide
  · rw [StateData.text, sortedTexts_singleton]
    decide
  · decide
  · decide
  · rw [StateData.text, hnone]
    decide
  · rw [StateData.text, hnone]
    decide

theorem storable_sample : acceptedState.Storable storageEnv where
  size record hrecord := by
    rcases written_sample hrecord with rfl | ⟨data, hdata, rfl⟩
    · decide
    · exact texts_sample hdata
  collision data data' hdata hdata' hhash := by
    have hstored {data : StateData} (h : .state data ∈ acceptedState.written) :
        data ∈ storedDatas := by
      rcases written_sample h with hrecord | ⟨_, hmem, hrecord⟩
      · cases hrecord
      · cases hrecord
        exact hmem
    have hdistinct : ∀ stream ∈ [votedConsensus.entries.flatMap StateData.votesStream,
        streamStrings [NotaryEnv.sampleKey1], [],
        mapProposalConsensusInit.entries.flatMap StateData.votesStream],
        ∀ stream' ∈ [votedConsensus.entries.flatMap StateData.votesStream,
        streamStrings [NotaryEnv.sampleKey1], [],
        mapProposalConsensusInit.entries.flatMap StateData.votesStream],
        storageEnv.Hash stream = storageEnv.Hash stream' → stream = stream' := by decide
    exact hdistinct _ (streams_sample (hstored hdata)) _ (streams_sample (hstored hdata')) hhash

theorem plain_key : ∀ s ∈ ({NotaryEnv.sampleKey1} : Finset CString), s ≠ [] ∧ ',' ∉ s := by
  intro s hs
  rw [Finset.mem_singleton.mp hs]
  decide

theorem run_sample : [Event.vote ∅ NotaryEnv.sampleProposal, .accept votedHash startCycle].foldlM
    (step storageEnv) startState = some acceptedState := by
  have hvoted : votedState.Storable storageEnv :=
    storable_sample.of_subset (subset_writeState storageEnv votedState (.consensus votedConsensus))
  have hstart : startState.Sound storageEnv :=
    sound_init (by simp [StateData.Shaped]) (by simp [StateData.Shaped]) plain_key
      (hvoted.of_subset (subset_writeProposal startState _ _))
  have hnone : startState.db.readProposal votedHash = none := by
    cases hread : startState.db (proposalKey votedHash) with
    | none => simp [PegDB.readProposal, PegDB.read, hread]
    | some text =>
      obtain ⟨pdatas, hmem⟩ := hstart.proposals votedHash (by simp [hread])
      simp [startState, init, addCycle, Governance.writeState] at hmem
  have hvote : startState.vote storageEnv ∅ NotaryEnv.sampleProposal = votedState := by
    simp only [Governance.vote, vote_voted]
    exact if_pos ⟨by decide, hnone⟩
  have hproposal : votedState.db.readProposal votedHash = some votedProposal.pdatas := by
    have hsize : (join ',' votedProposal.pdatas).length ≤ MAX_SIZE := by decide
    have hread := PegDB.readProposal_writeProposal startState.db votedHash hsize
    rwa [(split_join_eq_iff (pdatas_ne_nil _)).mpr (by decide)] at hread
  have hbase : votedState.db.readCycleStateData2 startCycle.consensus =
      some mapProposalConsensusInit := by
    have hmem : Record.state (.consensus mapProposalConsensusInit) ∈ startState.written := by
      simp [startState, init, addCycle, Governance.writeState]
    have hkept : votedState.db (stateDataKey
        (storageEnv.Hash (StateData.consensus mapProposalConsensusInit).stream)) =
        some (StateData.consensus mapProposalConsensusInit).text := by
      rw [votedState, db_writeProposal, Function.update_of_ne (proposalKey_ne _ _).symm]
      exact hstart.stored _ hmem
    have hsize : (StateData.consensus mapProposalConsensusInit).text.length ≤ MAX_SIZE :=
      texts_sample (by simp [storedDatas])
    have hback : (StateData.consensus mapProposalConsensusInit).ReadsBack storageEnv
        votedState.db := shaped_consensusInit.readsBack (PegDB.read_of_stored hkept hsize)
    exact hback
  have haccept : votedState.accept storageEnv votedHash startCycle = some acceptedState := by
    unfold Governance.accept
    simp only [hproposal, changeOf_pdatas, votedProposal, Proposal.change, hbase, Option.map_some]
    rfl
  have hfirst : step storageEnv startState (.vote ∅ NotaryEnv.sampleProposal) = some votedState :=
    congrArg some hvote
  have hsecond : step storageEnv votedState (.accept votedHash startCycle) = some acceptedState :=
    (if_pos List.mem_cons_self).trans haccept
  simp only [List.foldlM_cons, List.foldlM_nil, Option.bind_eq_bind, hfirst, hsecond,
    Option.bind_some]
  rfl

/-- The needed votes that were accepted are read back. -/
theorem storage_lossless_sample :
    acceptedState.db.readCycleStateData2 (storageEnv.Hash (StateData.consensus votedConsensus).stream) =
      some votedConsensus := by
  have hplain : ∀ event ∈ [Event.vote ∅ NotaryEnv.sampleProposal, .accept votedHash startCycle],
      event.Plain storageEnv := by
    simp only [List.forall_mem_cons, Event.Plain, List.not_mem_nil, false_imp_iff, implies_true,
      and_true]
    intro p hp
    have hplain : storageEnv.signed NotaryEnv.sampleProposal = none := rfl
    rw [NotaryEnv.innermost_plain hplain] at hp
    have hsame : p = votedProposal := by simpa [parse_voted] using hp.parse.symm
    rw [hsame]
    exact ⟨by decide, fun b hb => nomatch hb⟩
  exact storage_lossless (by simp) (by simp) plain_key hplain run_sample storable_sample.size
    storable_sample.collision (.state (.consensus votedConsensus)) List.mem_cons_self

/-! ## A key with a comma -/

def commaNotary : CString :=
  "**X**".toList ++ Action.digit .add :: (NotaryEnv.sampleKey1 ++ ",zz".toList)

def commaProposal : Proposal := .timelockpass .add (NotaryEnv.sampleKey1 ++ ",zz".toList)

/-- The proposal is accepted, and comes back with one text more, whatever is stored before. -/
theorem commaProposal_lost (env : NotaryEnv) (bridges : BridgesMap) (db : PegDB) : ∃ r,
    env.notaryToProposal bridges commaNotary [] [] = .ok r ∧ r.pdatas ≠ [] ∧
    (db.writeProposal r.phash r.pdatas).readProposal r.phash ≠ some r.pdatas := by
  have hplain : env.signed commaNotary = none := rfl
  have hholds : env.Holds bridges commaNotary commaProposal := .timelockpass (by decide)
  refine ⟨env.resultOf [] [] (some commaProposal), ?_, List.cons_ne_nil _ _, fun hback => ?_⟩
  · rw [NotaryEnv.notaryToProposal_plain hplain, hholds.parse]
    rfl
  · have hread : (db.writeProposal (getHex (env.Hash commaProposal.stream))
        commaProposal.pdatas).readProposal (getHex (env.Hash commaProposal.stream)) =
        some commaProposal.pdatas := hback
    rw [PegDB.readProposal_writeProposal _ _ (by decide), Option.some.injEq,
      split_join_eq_iff (pdatas_ne_nil _), comma_pdatas_iff] at hread
    exact hread (NotaryEnv.sampleKey1 ++ ",zz".toList) (List.mem_singleton_self _) (by decide)

/-- The proposal with a comma in its key on a node that has stored nothing yet. -/
theorem comma_in_key_lost : ∃ r,
    storageEnv.notaryToProposal ∅ commaNotary [] [] = .ok r ∧ r.pdatas ≠ [] ∧
    (PegDB.writeProposal (fun _ => none) r.phash r.pdatas).readProposal r.phash ≠ some r.pdatas :=
  commaProposal_lost storageEnv ∅ fun _ => none

end Governance

end BitBay
