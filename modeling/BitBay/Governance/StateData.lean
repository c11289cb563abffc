import BitBay.Governance.Effect

/-!
# The stored states of governance

A set of keys, the table of needed votes and the table of bridges are each written as one text,
under the hash of a stream of their contents. All three share one prefix of the keys, and the
streams do not say which of the three they are. The texts are split again at commas, and within an
entry at colons or bars.
-/
namespace BitBay

open CString
open Codec (MAX_SIZE)

/-! ## Reading and writing -/

inductive StateData
  | keys (datas : Finset CString)
  | consensus (datas : SortedMap ℤ ConsensusVotes)
  | bridges (datas : BridgesMap)

namespace StateData

def votesStream (e : ℤ × ConsensusVotes) : CString :=
  streamInt e.1 ++ (streamInt e.2.tstakers1 ++ (streamInt e.2.tstakers2 ++ streamInt e.2.ostakers))

def votesText (e : ℤ × ConsensusVotes) : CString :=
  join ':' [ofInt e.1, ofInt e.2.tstakers1, ofInt e.2.tstakers2, ofInt e.2.ostakers]

def bridgeText (e : CString × List CString) : CString := join '|' (e.1 :: e.2)

def stream : StateData → CString
  | keys datas => streamStrings (sortedTexts datas)
  | consensus datas => datas.entries.flatMap votesStream
  | bridges datas => datas.entries.flatMap fun e => streamStrings (e.1 :: e.2)

def text : StateData → CString
  | keys datas => join ',' (sortedTexts datas)
  | consensus datas => join ',' (datas.entries.map votesText)
  | bridges datas => join ',' (datas.entries.map bridgeText)

end StateData

/-- The texts between the commas that are not empty, each once and in order. -/
def pieces (data_txt : CString) : List CString :=
  (sortedTexts (split ',' data_txt).toFinset).filter (· ≠ [])

/-- One entry of the votes; any other number of arguments stops the reading. -/
def votesEntry (consensus_txt : CString) : Option (ℤ × ConsensusVotes) :=
  match split ':' consensus_txt with
  | [type, t1, t2, o] => some (type.atoi, ⟨t1.atoi, t2.atoi, o.atoi⟩)
  | _ => none

def bridgeEntry (vdatas_txt : CString) : Option (CString × List CString) :=
  match split '|' vdatas_txt with
  | [] => none
  | vdata_key :: vdata_val => some (vdata_key, vdata_val)

def stateDataKey (hash : UInt256) : CString := "intervalStateData_".toList ++ getHex hash

namespace PegDB

variable (env : NotaryEnv) (db : PegDB)

def writeStateData (data : StateData) : PegDB × UInt256 :=
  (db.write (stateDataKey (env.Hash data.stream)) data.text, env.Hash data.stream)

def writeCycleStateData1 (datas : Finset CString) : PegDB × UInt256 :=
  db.writeStateData env (.keys datas)

def writeCycleStateData2 (datas : SortedMap ℤ ConsensusVotes) : PegDB × UInt256 :=
  db.writeStateData env (.consensus datas)

def writeCycleStateData3 (datas : BridgesMap) : PegDB × UInt256 :=
  db.writeStateData env (.bridges datas)

def readCycleStateData1 (hash : UInt256) : Option (Finset CString) :=
  (db.read (stateDataKey hash)).map fun data_txt => (pieces data_txt).toFinset

def readCycleStateData2 (hash : UInt256) : Option (SortedMap ℤ ConsensusVotes) :=
  (db.read (stateDataKey hash)).bind fun data_txt =>
    ((pieces data_txt).mapM votesEntry).map .ofEntries

def readCycleStateData3 (hash : UInt256) : Option BridgesMap :=
  (db.read (stateDataKey hash)).map fun datas_txt =>
    .ofEntries ((pieces datas_txt).filterMap bridgeEntry)

end PegDB

namespace StateData

variable {env : NotaryEnv} {db : PegDB} {data data' : StateData}

def ReadsBack (env : NotaryEnv) (db : PegDB) : StateData → Prop
  | keys datas => db.readCycleStateData1 (env.Hash (keys datas).stream) = some datas
  | consensus datas => db.readCycleStateData2 (env.Hash (consensus datas).stream) = some datas
  | bridges datas => db.readCycleStateData3 (env.Hash (bridges datas).stream) = some datas

/-! ## Values that come apart as they were -/

/-- An entry of the votes, for a type and in the range of an `int`. -/
structure VotesShape (e : ℤ × ConsensusVotes) : Prop where
  type : 1 ≤ e.1 ∧ e.1 ≤ 5
  tstakers1 : IsInt32 e.2.tstakers1
  tstakers2 : IsInt32 e.2.tstakers2
  ostakers : IsInt32 e.2.ostakers

/-- An entry of a bridge: seven arguments without a separator, the first of them the key. -/
structure BridgeShape (e : CString × List CString) : Prop where
  count : e.2.length = 7
  name : e.2.head? = some e.1
  comma : ∀ arg ∈ e.2, ',' ∉ arg
  bar : ∀ arg ∈ e.2, '|' ∉ arg

def Shaped : StateData → Prop
  | keys datas => ∀ s ∈ datas, s ≠ [] ∧ ',' ∉ s
  | consensus datas => 1 ∈ datas.keys ∧ ∀ e ∈ datas.entries, VotesShape e
  | bridges datas => ∀ e ∈ datas.entries, BridgeShape e

theorem mem_pieces {x data_txt : CString} :
    x ∈ pieces data_txt ↔ x ∈ split ',' data_txt ∧ x ≠ [] := by
  simp [pieces]

/-- Texts that are not empty and have no comma are the pieces of their join. -/
theorem mem_pieces_join {l : List CString} (h : ∀ s ∈ l, s ≠ [] ∧ ',' ∉ s) {x : CString} :
    x ∈ pieces (join ',' l) ↔ x ∈ l := by
  rw [mem_pieces]
  by_cases hl : l = []
  · have hsplit : split ',' (join ',' []) = [[]] := rfl
    simp [hl, hsplit]
  · rw [(split_join_eq_iff hl).mpr fun s hs => (h s hs).2]
    exact ⟨And.left, fun hx => ⟨hx, (h x hx).1⟩⟩

theorem mapM_of_isSome {α β : Type} {f : α → Option β} {l : List α} (h : ∀ x ∈ l, (f x).isSome) :
    l.mapM f = some (l.filterMap f) := by
  induction l with
  | nil => rfl
  | cons x rest ih =>
    obtain ⟨hx, hrest⟩ := List.forall_mem_cons.mp h
    obtain ⟨y, hy⟩ := Option.isSome_iff_exists.mp hx
    simp [List.mapM_cons, hy, ih hrest]

section Entries

variable {K V : Type} [LinearOrder K] {m : SortedMap K V} {entryText : K × V → CString}
  {entry : CString → Option (K × V)}

/-- The entries are read from the pieces of their joined texts. -/
theorem mem_read_entries (htext : ∀ e ∈ m.entries, entryText e ≠ [] ∧ ',' ∉ entryText e)
    (hentry : ∀ e ∈ m.entries, entry (entryText e) = some e) (e : K × V) :
    e ∈ (pieces (join ',' (m.entries.map entryText))).filterMap entry ↔ e ∈ m.entries := by
  have hpieces {x : CString} : x ∈ pieces (join ',' (m.entries.map entryText)) ↔
      ∃ e ∈ m.entries, entryText e = x := by
    rw [mem_pieces_join (List.forall_mem_map.mpr htext), List.mem_map]
  simp only [List.mem_filterMap, hpieces]
  constructor
  · rintro ⟨_, ⟨e', he', rfl⟩, hread⟩
    rw [hentry e' he'] at hread
    exact Option.some.inj hread ▸ he'
  · exact fun he => ⟨_, ⟨e, he, rfl⟩, hentry e he⟩

end Entries

theorem votesText_plain (e : ℤ × ConsensusVotes) : votesText e ≠ [] ∧ ',' ∉ votesText e := by
  constructor
  · intro h
    rw [votesText, join_cons _ _ (List.cons_ne_nil _ _)] at h
    simp at h
  · intro hmem
    rcases mem_join hmem with hsep | ⟨s, hs, hcomma⟩
    · exact absurd hsep (by decide)
    · simp only [List.mem_cons, List.not_mem_nil, or_false] at hs
      rcases hs with rfl | rfl | rfl | rfl <;> exact not_mem_ofInt (by decide) _ hcomma

theorem votesEntry_votesText {e : ℤ × ConsensusVotes} (h : VotesShape e) :
    votesEntry (votesText e) = some e := by
  have hsplit : split ':' (votesText e) =
      [ofInt e.1, ofInt e.2.tstakers1, ofInt e.2.tstakers2, ofInt e.2.ostakers] := by
    refine (split_join_eq_iff (List.cons_ne_nil _ _)).mpr ?_
    simp [not_mem_ofInt (c := ':') (by decide)]
  have htype : (ofInt e.1).atoi = e.1 := by
    have htype := h.type
    exact atoi_ofInt (by omega) (by omega)
  rw [votesEntry, hsplit]
  simp only [htype, atoi_ofInt h.tstakers1.1 h.tstakers1.2, atoi_ofInt h.tstakers2.1 h.tstakers2.2,
    atoi_ofInt h.ostakers.1 h.ostakers.2]

theorem BridgeShape.args {e : CString × List CString} (h : BridgeShape e) :
    ∃ rest, e.2 = e.1 :: rest := by
  obtain ⟨name, args⟩ := e
  cases args with
  | nil => exact absurd h.name (by simp)
  | cons arg rest =>
    have hname : arg = name := by simpa using h.name
    exact ⟨rest, by rw [hname]⟩

/-- No text of an entry has the character. -/
theorem BridgeShape.forall_cons {e : CString × List CString} (h : BridgeShape e) {c : Char}
    (hargs : ∀ arg ∈ e.2, c ∉ arg) : ∀ s ∈ e.1 :: e.2, c ∉ s := by
  obtain ⟨rest, hrest⟩ := h.args
  rw [hrest] at hargs ⊢
  exact List.forall_mem_cons.mpr ⟨hargs _ List.mem_cons_self, hargs⟩

theorem bridgeText_plain {e : CString × List CString} (h : BridgeShape e) :
    bridgeText e ≠ [] ∧ ',' ∉ bridgeText e := by
  obtain ⟨rest, hrest⟩ := h.args
  constructor
  · intro hnil
    rw [bridgeText, hrest, join_cons _ _ (List.cons_ne_nil _ _)] at hnil
    simp at hnil
  · intro hmem
    rcases mem_join hmem with hsep | ⟨s, hs, hcomma⟩
    · exact absurd hsep (by decide)
    · exact h.forall_cons h.comma s hs hcomma

theorem bridgeEntry_bridgeText {e : CString × List CString} (h : BridgeShape e) :
    bridgeEntry (bridgeText e) = some e := by
  have hsplit : split '|' (bridgeText e) = e.1 :: e.2 :=
    (split_join_eq_iff (List.cons_ne_nil _ _)).mpr (h.forall_cons h.bar)
  rw [bridgeEntry, hsplit]

/-- A value of the shapes is read back from its text. -/
theorem Shaped.readsBack (h : data.Shaped)
    (hread : db.read (stateDataKey (env.Hash data.stream)) = some data.text) :
    data.ReadsBack env db := by
  cases data with
  | keys datas =>
    rw [ReadsBack, PegDB.readCycleStateData1, hread, Option.map_some, Option.some.injEq]
    ext s
    have hplain : ∀ s ∈ sortedTexts datas, s ≠ [] ∧ ',' ∉ s := fun s hs =>
      h s (mem_sortedTexts.mp hs)
    rw [List.mem_toFinset, text, mem_pieces_join hplain, mem_sortedTexts]
  | consensus datas =>
    have hentry : ∀ e ∈ datas.entries, votesEntry (votesText e) = some e := fun e he =>
      votesEntry_votesText (h.2 e he)
    have hall : ∀ x ∈ pieces (consensus datas).text, (votesEntry x).isSome := by
      intro x hx
      rw [text, mem_pieces_join (List.forall_mem_map.mpr fun e _ => votesText_plain e),
        List.mem_map] at hx
      obtain ⟨e, he, rfl⟩ := hx
      rw [hentry e he]
      rfl
    rw [ReadsBack, PegDB.readCycleStateData2, hread, Option.bind_some, mapM_of_isSome hall,
      Option.map_some, Option.some.injEq]
    exact SortedMap.ofEntries_eq (mem_read_entries (fun e _ => votesText_plain e) hentry)
  | bridges datas =>
    rw [ReadsBack, PegDB.readCycleStateData3, hread, Option.map_some, Option.some.injEq]
    exact SortedMap.ofEntries_eq (mem_read_entries (fun e he => bridgeText_plain (h e he))
      fun e he => bridgeEntry_bridgeText (h e he))

/-! ## One stream and one text -/

theorem bridges_stream (datas : BridgesMap) :
    (bridges datas).stream = streamStrings (datas.entries.flatMap fun e => e.1 :: e.2) :=
  List.flatMap_assoc.symm

theorem length_of_keys {datas : Finset CString} (h : (keys datas).text.length ≤ MAX_SIZE) :
    ∀ s ∈ sortedTexts datas, s.length < 2 ^ 64 := fun _ hs =>
  ((length_le_join ',' hs).trans h).trans_lt (by decide)

theorem length_of_bridges {datas : BridgesMap} (h : (bridges datas).text.length ≤ MAX_SIZE) :
    ∀ s ∈ datas.entries.flatMap fun e => e.1 :: e.2, s.length < 2 ^ 64 := by
  intro s hs
  obtain ⟨e, he, hse⟩ := List.mem_flatMap.mp hs
  have hentry : s.length ≤ (bridgeText e).length := length_le_join '|' hse
  have htext : (bridgeText e).length ≤ (bridges datas).text.length :=
    length_le_join ',' (List.mem_map_of_mem he)
  exact ((hentry.trans htext).trans h).trans_lt (by decide)

theorem votesStream_append {e e' : ℤ × ConsensusVotes} {rest rest' : CString} (he : VotesShape e)
    (he' : VotesShape e') (h : votesStream e ++ rest = votesStream e' ++ rest') :
    e = e' ∧ rest = rest' := by
  have hrange {e : ℤ × ConsensusVotes} (he : VotesShape e) : IsInt32 e.1 := by
    have htype := he.type
    unfold IsInt32
    omega
  simp only [votesStream, List.append_assoc] at h
  obtain ⟨htype, h⟩ := streamInt_append (hrange he) (hrange he') h
  obtain ⟨h1, h⟩ := streamInt_append he.tstakers1 he'.tstakers1 h
  obtain ⟨h2, h⟩ := streamInt_append he.tstakers2 he'.tstakers2 h
  obtain ⟨ho, h⟩ := streamInt_append he.ostakers he'.ostakers h
  exact ⟨Prod.ext htype (ConsensusVotes.ext h1 h2 ho), h⟩

theorem votesStream_ne_nil (e : ℤ × ConsensusVotes) (rest : CString) :
    votesStream e ++ rest ≠ [] := by
  intro h
  have hlength := congrArg List.length h
  simp [votesStream, streamInt, CScript.toCString, Wire.length_leBytes] at hlength

theorem votesStreams_injective {l l' : List (ℤ × ConsensusVotes)} (hl : ∀ e ∈ l, VotesShape e)
    (hl' : ∀ e ∈ l', VotesShape e) (h : l.flatMap votesStream = l'.flatMap votesStream) :
    l = l' := by
  induction l generalizing l' with
  | nil =>
    cases l' with
    | nil => rfl
    | cons e' rest' => exact absurd h.symm (votesStream_ne_nil e' _)
  | cons e rest ih =>
    cases l' with
    | nil => exact absurd h (votesStream_ne_nil e _)
    | cons e' rest' =>
      obtain ⟨he, hrest⟩ := List.forall_mem_cons.mp hl
      obtain ⟨he', hrest'⟩ := List.forall_mem_cons.mp hl'
      obtain ⟨heq, htail⟩ := votesStream_append he he' h
      rw [heq, ih hrest hrest' htail]

/-- Entries of seven arguments are found in the row of their texts. -/
theorem bridgeEntries_injective {l l' : List (CString × List CString)}
    (hl : ∀ e ∈ l, BridgeShape e) (hl' : ∀ e ∈ l', BridgeShape e)
    (h : (l.flatMap fun e => e.1 :: e.2) = l'.flatMap fun e => e.1 :: e.2) : l = l' := by
  induction l generalizing l' with
  | nil =>
    cases l' with
    | nil => rfl
    | cons e' rest' => cases h
  | cons e rest ih =>
    cases l' with
    | nil => cases h
    | cons e' rest' =>
      obtain ⟨he, hrest⟩ := List.forall_mem_cons.mp hl
      obtain ⟨he', hrest'⟩ := List.forall_mem_cons.mp hl'
      have hcount : (e.1 :: e.2).length = (e'.1 :: e'.2).length := by
        rw [List.length_cons, List.length_cons, he.count, he'.count]
      obtain ⟨hfirst, htail⟩ := List.append_inj h hcount
      obtain ⟨hname, hargs⟩ := List.cons.inj hfirst
      rw [Prod.ext hname hargs, ih hrest hrest' htail]

/-- A key set is not streamed like bridges, whose names stand twice in a row. -/
theorem entries_nil_of_sortedTexts {datas : Finset CString} {l : List (CString × List CString)}
    (hl : ∀ e ∈ l, BridgeShape e) (h : sortedTexts datas = l.flatMap fun e => e.1 :: e.2) :
    l = [] := by
  cases l with
  | nil => rfl
  | cons e rest =>
    obtain ⟨args, hargs⟩ := (hl e List.mem_cons_self).args
    have hnodup : (sortedTexts datas).Nodup := Finset.sort_nodup datas _
    rw [h, List.flatMap_cons, hargs] at hnodup
    exact absurd List.mem_cons_self (List.nodup_cons.mp hnodup).1

/-- The number 1 is streamed like a text of one zero byte before empty texts. -/
theorem texts_of_streamInt_one {l : List CString} {rest : CString} (hl : ∀ s ∈ l, s.length < 2 ^ 64)
    (h : streamStrings l = streamInt 1 ++ rest) : ∃ l', l = ['\x00'] :: [] :: l' := by
  have hone : streamInt 1 = streamString ['\x00'] ++ (streamString [] ++ streamString []) := rfl
  have hshort (c : CString) (hc : c.length ≤ 1) : c.length < 2 ^ 64 := hc.trans_lt (by decide)
  have hcons {first rest : CString} (h : streamStrings [] = streamString first ++ rest) : False :=
    streamString_ne_nil first (List.append_eq_nil_iff.mp h.symm).1
  rw [hone, List.append_assoc, List.append_assoc] at h
  cases l with
  | nil => exact (hcons h).elim
  | cons s l' =>
    obtain ⟨hs, hl'⟩ := List.forall_mem_cons.mp hl
    rw [streamStrings_cons] at h
    obtain ⟨rfl, htail⟩ := streamString_append hs (hshort ['\x00'] le_rfl) h
    cases l' with
    | nil => exact (hcons htail).elim
    | cons s' l'' =>
      rw [streamStrings_cons] at htail
      obtain ⟨rfl, -⟩ :=
        streamString_append (hl' s' List.mem_cons_self) (hshort [] zero_le_one) htail
      exact ⟨l'', rfl⟩

/-- The votes begin with the number of the first type. -/
theorem consensus_stream {datas : SortedMap ℤ ConsensusVotes} (h : (consensus datas).Shaped) :
    ∃ rest, (consensus datas).stream = streamInt 1 ++ rest := by
  obtain ⟨hone, hshape⟩ := h
  obtain ⟨entries, sorted⟩ := datas
  cases entries with
  | nil => exact absurd hone List.not_mem_nil
  | cons e rest =>
    have hfirst : e.1 = 1 := by
      have hle := (hshape e List.mem_cons_self).type.1
      rcases List.mem_cons.mp hone with h | h
      · exact h.symm
      · have hlt := (List.pairwise_cons.mp sorted).1 1 h
        omega
    refine ⟨streamInt e.2.tstakers1 ++ (streamInt e.2.tstakers2 ++ (streamInt e.2.ostakers ++
      rest.flatMap votesStream)), ?_⟩
    simp only [stream, List.flatMap_cons, votesStream, List.append_assoc, hfirst]

/-- Neither key sets nor bridges are streamed like votes. -/
theorem consensus_stream_ne {datas : SortedMap ℤ ConsensusVotes} (h : (consensus datas).Shaped)
    (hdata : data.Shaped) (hsize : data.text.length ≤ MAX_SIZE)
    (hstream : data.stream = (consensus datas).stream) : ∃ datas', data = consensus datas' := by
  obtain ⟨rest, hrest⟩ := consensus_stream h
  rw [hrest] at hstream
  cases data with
  | keys datas' =>
    obtain ⟨l', hl'⟩ := texts_of_streamInt_one (length_of_keys hsize) hstream
    have hnil : [] ∈ sortedTexts datas' := by simp [hl']
    exact absurd rfl (hdata [] (mem_sortedTexts.mp hnil)).1
  | consensus datas' => exact ⟨datas', rfl⟩
  | bridges datas' =>
    rw [bridges_stream] at hstream
    obtain ⟨l', hl'⟩ := texts_of_streamInt_one (length_of_bridges hsize) hstream
    obtain ⟨entries, sorted⟩ := datas'
    cases entries with
    | nil => cases hl'
    | cons e entries =>
      obtain ⟨args, hargs⟩ := (hdata e List.mem_cons_self).args
      simp [hargs] at hl'
      obtain ⟨hzero, hnil, -⟩ := hl'
      exact absurd (hzero.symm.trans hnil) (by simp)

/-- Values of the shapes with one stream have one text, of whatever kind they are. -/
theorem Shaped.text_eq (h : data.Shaped) (h' : data'.Shaped) (hsize : data.text.length ≤ MAX_SIZE)
    (hsize' : data'.text.length ≤ MAX_SIZE) (hstream : data.stream = data'.stream) :
    data.text = data'.text := by
  have hmixed {datas : Finset CString} {datas' : BridgesMap} (hb : (bridges datas').Shaped)
      (hsize : (keys datas).text.length ≤ MAX_SIZE) (hsize' : (bridges datas').text.length ≤ MAX_SIZE)
      (hstream : (keys datas).stream = (bridges datas').stream) :
      (keys datas).text = (bridges datas').text := by
    rw [bridges_stream] at hstream
    have htexts := streamStrings_injective (length_of_keys hsize) (length_of_bridges hsize') hstream
    have hnil := entries_nil_of_sortedTexts hb htexts
    rw [hnil] at htexts
    rw [text, text, htexts, hnil]
    rfl
  cases data with
  | consensus datas =>
    obtain ⟨datas', rfl⟩ := consensus_stream_ne h h' hsize' hstream.symm
    rw [text, text, votesStreams_injective h.2 h'.2 hstream]
  | keys datas =>
    cases data' with
    | keys datas' =>
      rw [text, text, streamStrings_injective (length_of_keys hsize) (length_of_keys hsize') hstream]
    | consensus datas' =>
      obtain ⟨_, hdata⟩ := consensus_stream_ne h' h hsize hstream
      cases hdata
    | bridges datas' => exact hmixed h' hsize hsize' hstream
  | bridges datas =>
    cases data' with
    | keys datas' => exact (hmixed h hsize' hsize hstream.symm).symm
    | consensus datas' =>
      obtain ⟨_, hdata⟩ := consensus_stream_ne h' h hsize hstream
      cases hdata
    | bridges datas' =>
      rw [bridges_stream, bridges_stream] at hstream
      rw [text, text, bridgeEntries_injective h h' (streamStrings_injective
        (length_of_bridges hsize) (length_of_bridges hsize') hstream)]

end StateData

end BitBay
