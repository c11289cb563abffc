import BitBay.Bridge.HexText
import BitBay.Bridge.Mint
import BitBay.Bridge.Pushes

/-!
# The codec of mint scripts

The decoder finds the fields of a mint by their position, which depends on the two counts in
the script. The fields that a bridge can emit are read back as they were written. The decoder
builds the script again at the end. So it accepts encodings only.
-/
namespace BitBay

variable {bp : BridgeParams} {m m' : MintSigScript}

/-- The prefixes of `chainparams.cpp`: of the main net, and of the test nets. -/
def BridgeParams.OfNetwork (bp : BridgeParams) : Prop :=
  bp.pubkeyAddress = [25] ∧ bp.scriptAddress = [85] ∨
    bp.pubkeyAddress = [111] ∧ bp.scriptAddress = [196]

/-- The text of more than eight bytes: `ValueString` prints a shorter push as a number. -/
def IsLongHex (s : CString) : Prop :=
  ∃ b : List UInt8, 8 < b.length ∧ b.length < 2 ^ 32 ∧ s = hexStr b

namespace MintSigScript

/-- The fields that `DecodeAndValidateMintSigScript` hands back, without its counters. -/
def fields (m : MintSigScript) :
    CBitcoinAddress × List ℤ × ℤ × ℤ × CString × CString × List CString :=
  (m.addr_dest, m.sections, m.section_peg, m.nonce, m.from_addr, m.leaf, m.proofs)

structure Emitted (bp : BridgeParams) (m : MintSigScript) : Prop where
  version : m.addr_dest.vchVersion = bp.pubkeyAddress ∨ m.addr_dest.vchVersion = bp.scriptAddress
  data : m.addr_dest.getData.length < 2 ^ 32
  sections : ∀ v ∈ m.sections, 0 ≤ v ∧ v < 2 ^ 63
  section_peg : 0 ≤ m.section_peg ∧ m.section_peg < 2 ^ 31
  nonce : 0 ≤ m.nonce ∧ m.nonce < 2 ^ 31
  from_addr : IsLongHex m.from_addr
  leaf : IsLongHex m.leaf
  proofs : ∀ proof ∈ m.proofs, IsLongHex proof

def Countable (m : MintSigScript) : Prop := 7 + m.sections.length + m.proofs.length < 2 ^ 31

def ops (m : MintSigScript) : List (ℕ × List UInt8) :=
  [vchOp m.addr_dest.getData, numberOp m.sections.length] ++ m.sections.map numberOp ++
    [numberOp m.section_peg, numberOp m.nonce, vchOp (parseHex m.from_addr),
      vchOp (parseHex m.leaf), numberOp m.proofs.length] ++
    m.proofs.map fun proof => vchOp (parseHex proof)

def pieces (m : MintSigScript) : List CScript :=
  [pushVch m.addr_dest.getData, pushInt64 m.sections.length] ++ m.sections.map pushInt64 ++
    [pushInt64 m.section_peg, pushInt64 m.nonce, pushVch (parseHex m.from_addr),
      pushVch (parseHex m.leaf), pushInt64 m.proofs.length] ++
    m.proofs.map fun proof => pushVch (parseHex proof)

theorem flatten_pieces (m : MintSigScript) : m.pieces.flatten = m.encode := by
  simp [pieces, encode]

/-- The script depends on nothing but the fields. -/
theorem encode_congr (h : m.fields = m'.fields) : m.encode = m'.encode := by
  simp only [fields, Prod.mk.injEq] at h
  obtain ⟨haddr, hsections, hpeg, hnonce, hfrom, hleaf, hproofs⟩ := h
  simp only [encode, haddr, hsections, hpeg, hnonce, hfrom, hleaf, hproofs]

end MintSigScript

/-! ## Fields of the script -/

theorem IsLongHex.parseHex_length {s : CString} (h : IsLongHex s) : (parseHex s).length < 2 ^ 32 := by
  obtain ⟨b, -, hlength, rfl⟩ := h
  rwa [parseHex_hexStr]

theorem IsLongHex.valueString {s : CString} (h : IsLongHex s) : valueString (parseHex s) = s := by
  obtain ⟨b, hlong, -, rfl⟩ := h
  rw [parseHex_hexStr, BitBay.valueString, if_neg hlong.not_ge]

theorem toInt32_of_nonneg {v : ℤ} (h0 : 0 ≤ v) (h : v < 2 ^ 31) : toInt32 v = v := by
  unfold toInt32
  rw [Int.bmod_eq_of_le (by omega) (by omega)]

theorem readAddress_getData (hbp : bp.OfNetwork) {a : CBitcoinAddress}
    (hversion : a.vchVersion = bp.pubkeyAddress ∨ a.vchVersion = bp.scriptAddress)
    (a' : CBitcoinAddress) : readAddress bp a.getData a' = a := by
  obtain ⟨vchVersion, vchData⟩ := a
  simp only at hversion
  rcases hbp with ⟨hpubkey, hscript⟩ | ⟨hpubkey, hscript⟩ <;>
    rcases hversion with rfl | rfl <;>
    simp [readAddress, CBitcoinAddress.getData, hpubkey, hscript]

/-- Numbers of a script, read by the decoder. -/
theorem getNumberFromScript_toInt32 {n : ℤ} (h0 : 0 ≤ n) (h : n < 2 ^ 31) :
    toInt32 (getNumberFromScript (numberOp n).1 (numberOp n).2) = n := by
  rw [getNumberFromScript_numberOp h0 (by omega), toInt32_of_nonneg h0 h]

/-- The loop over the sections. -/
theorem foldl_sections {l : List ℤ} (hl : ∀ v ∈ l, 0 ≤ v ∧ v < 2 ^ 63) {k : ℕ} (hk : 2 ≤ k)
    (hsize : (k + l.length : ℤ) ≤ 2 + m.sections_size) :
    ((l.map numberOp).zipIdx k).foldl (readMintField bp) m =
      { m with sections := m.sections ++ l } := by
  induction l generalizing m k with
  | nil => simp
  | cons v rest ih =>
    have hv := hl v List.mem_cons_self
    rw [List.length_cons] at hsize
    have hread : readMintField bp m (numberOp v, k) = { m with sections := m.sections ++ [v] } := by
      unfold readMintField
      simp only
      rw [if_neg (by omega), if_neg (by omega), if_pos (by omega),
        getNumberFromScript_numberOp hv.1 hv.2]
    rw [List.map_cons, List.zipIdx_cons, List.foldl_cons, hread,
      ih (fun w hw => hl w (List.mem_cons_of_mem _ hw)) (by omega) (by push_cast at hsize ⊢; omega)]
    simp

/-- The loop over the proofs. -/
theorem foldl_proofs {l : List CString} (hl : ∀ proof ∈ l, IsLongHex proof) {k : ℕ}
    (h0 : 0 ≤ m.sections_size) (hk : 7 + m.sections_size ≤ k)
    (hsize : (k + l.length : ℤ) ≤ 7 + m.sections_size + m.proofs_size) :
    ((l.map fun proof => vchOp (parseHex proof)).zipIdx k).foldl (readMintField bp) m =
      { m with proofs := m.proofs ++ l } := by
  induction l generalizing m k with
  | nil => simp
  | cons proof rest ih =>
    have hproof := hl proof List.mem_cons_self
    rw [List.length_cons] at hsize
    have hread : readMintField bp m (vchOp (parseHex proof), k) =
        { m with proofs := m.proofs ++ [proof] } := by
      unfold readMintField
      simp only
      rw [if_neg (by omega), if_neg (by omega), if_neg (by omega), if_neg (by omega),
        if_neg (by omega), if_neg (by omega), if_neg (by omega), if_neg (by omega),
        if_pos (by omega)]
      simp only [vchOp, hproof.valueString]
    rw [List.map_cons, List.zipIdx_cons, List.foldl_cons, hread,
      ih (fun w hw => hl w (List.mem_cons_of_mem _ hw)) (k := k + 1) (by exact h0)
        (by push_cast; omega) (by push_cast at hsize ⊢; omega)]
    simp

/-- One of the five fields between the sections and the proofs. -/
theorem readMintField_middle {k : ℕ} (i : ℕ) (hi : i < 5) (op : ℕ × List UInt8)
    (h0 : 0 ≤ m.sections_size) (hk : (k : ℤ) = 2 + m.sections_size + i) :
    readMintField bp m (op, k) =
      if i = 0 then { m with section_peg := toInt32 (getNumberFromScript op.1 op.2) }
      else if i = 1 then { m with nonce := toInt32 (getNumberFromScript op.1 op.2) }
      else if i = 2 then { m with from_addr := valueString op.2 }
      else if i = 3 then { m with leaf := valueString op.2 }
      else { m with proofs_size := toInt32 (getNumberFromScript op.1 op.2) } := by
  unfold readMintField
  simp only
  rw [if_neg (by omega), if_neg (by omega), if_neg (by omega)]
  split_ifs <;> first | rfl | omega

theorem foldl_middle {k : ℕ} {section_peg nonce size : ℤ} {from_addr leaf : CString}
    (h0 : 0 ≤ m.sections_size) (hk : (k : ℤ) = 2 + m.sections_size)
    (hpeg : 0 ≤ section_peg ∧ section_peg < 2 ^ 31) (hnonce : 0 ≤ nonce ∧ nonce < 2 ^ 31)
    (hfrom : IsLongHex from_addr) (hleaf : IsLongHex leaf) (hcount : 0 ≤ size ∧ size < 2 ^ 31) :
    ([numberOp section_peg, numberOp nonce, vchOp (parseHex from_addr), vchOp (parseHex leaf),
      numberOp size].zipIdx k).foldl (readMintField bp) m =
      { m with section_peg, nonce, from_addr, leaf, proofs_size := size } := by
  have hpeg := getNumberFromScript_toInt32 hpeg.1 hpeg.2
  have hnonce := getNumberFromScript_toInt32 hnonce.1 hnonce.2
  have hcount := getNumberFromScript_toInt32 hcount.1 hcount.2
  simp only [List.zipIdx_cons, List.zipIdx_nil, List.foldl_cons, List.foldl_nil]
  rw [readMintField_middle 0 (by decide) (numberOp section_peg) h0 (by simpa using hk),
    if_pos rfl, hpeg,
    readMintField_middle 1 (by decide) (numberOp nonce) (by exact h0) (by push_cast; omega),
    if_neg (by decide), if_pos rfl, hnonce,
    readMintField_middle 2 (by decide) (vchOp (parseHex from_addr)) (by exact h0)
      (by push_cast; omega), if_neg (by decide), if_neg (by decide), if_pos rfl,
    readMintField_middle 3 (by decide) (vchOp (parseHex leaf)) (by exact h0)
      (by push_cast; omega), if_neg (by decide), if_neg (by decide), if_neg (by decide), if_pos rfl,
    readMintField_middle 4 (by decide) (numberOp size) (by exact h0) (by push_cast; omega),
    if_neg (by decide), if_neg (by decide), if_neg (by decide), if_neg (by decide), hcount]
  simp only [vchOp, hfrom.valueString, hleaf.valueString]

/-! ## Round trip -/

namespace MintSigScript

def counted (m : MintSigScript) : MintSigScript :=
  { m with sections_size := m.sections.length, proofs_size := m.proofs.length }

theorem Emitted.pushes (h : m.Emitted bp) (hsize : m.sections.length < 2 ^ 63)
    (hproofs_size : m.proofs.length < 2 ^ 63) : List.Forall₂ Pushes m.pieces m.ops := by
  have hsections : List.Forall₂ Pushes (m.sections.map pushInt64) (m.sections.map numberOp) := by
    rw [List.forall₂_map_left_iff, List.forall₂_map_right_iff, List.forall₂_same]
    exact fun v hv => pushes_number (h.sections v hv).1 (h.sections v hv).2
  have hproofs : List.Forall₂ Pushes (m.proofs.map fun proof => pushVch (parseHex proof))
      (m.proofs.map fun proof => vchOp (parseHex proof)) := by
    rw [List.forall₂_map_left_iff, List.forall₂_map_right_iff, List.forall₂_same]
    exact fun proof hproof => pushes_vch (h.proofs proof hproof).parseHex_length
  have hfront : List.Forall₂ Pushes [pushVch m.addr_dest.getData, pushInt64 m.sections.length]
      [vchOp m.addr_dest.getData, numberOp m.sections.length] :=
    .cons (pushes_vch h.data) (.cons (pushes_number (by omega) (by omega)) .nil)
  have hmiddle : List.Forall₂ Pushes
      [pushInt64 m.section_peg, pushInt64 m.nonce, pushVch (parseHex m.from_addr),
        pushVch (parseHex m.leaf), pushInt64 m.proofs.length]
      [numberOp m.section_peg, numberOp m.nonce, vchOp (parseHex m.from_addr),
        vchOp (parseHex m.leaf), numberOp m.proofs.length] :=
    .cons (pushes_number h.section_peg.1 (by have := h.section_peg.2; omega))
      (.cons (pushes_number h.nonce.1 (by have := h.nonce.2; omega))
        (.cons (pushes_vch h.from_addr.parseHex_length)
          (.cons (pushes_vch h.leaf.parseHex_length)
            (.cons (pushes_number (by omega) (by omega)) .nil))))
  exact List.rel_append (List.rel_append (List.rel_append hfront hsections) hmiddle) hproofs

/-- The loop of the decoder over the operations of the script. -/
theorem Emitted.foldl_ops (hbp : bp.OfNetwork) (h : m.Emitted bp) (hcounts : m.Countable) :
    m.ops.zipIdx.foldl (readMintField bp) {} = m.counted := by
  unfold Countable at hcounts
  have hsize := getNumberFromScript_toInt32 (n := m.sections.length) (by omega) (by omega)
  have hfront : ([vchOp m.addr_dest.getData, numberOp m.sections.length].zipIdx).foldl
      (readMintField bp) {} = { addr_dest := m.addr_dest, sections_size := m.sections.length } := by
    simp [readMintField, hsize, vchOp, readAddress_getData hbp h.version]
  unfold ops
  rw [List.zipIdx_append, List.zipIdx_append, List.zipIdx_append, List.foldl_append,
    List.foldl_append, List.foldl_append, hfront, foldl_sections h.sections (by simp) (by simp),
    foldl_middle (by simp) (by simp; omega) h.section_peg h.nonce h.from_addr h.leaf
      (by omega : 0 ≤ (m.proofs.length : ℤ) ∧ (m.proofs.length : ℤ) < 2 ^ 31),
    foldl_proofs h.proofs (by simp) (by simp; omega) (by simp; omega)]
  simp [counted]

theorem Emitted.readPushes_encode (h : m.Emitted bp) (hsize : m.sections.length < 2 ^ 63)
    (hproofs_size : m.proofs.length < 2 ^ 63) : readPushes m.encode = some m.ops := by
  rw [← flatten_pieces]
  exact readPushes_flatten (h.pushes hsize hproofs_size)

theorem Emitted.decode_encode (hbp : bp.OfNetwork) (h : m.Emitted bp) (hcounts : m.Countable) :
    decodeAndValidateMintSigScript bp m.encode = some m.counted := by
  have hencode : m.counted.encode = m.encode := encode_congr rfl
  have hcounts' := hcounts
  unfold Countable at hcounts'
  unfold decodeAndValidateMintSigScript
  rw [h.readPushes_encode (by omega) (by omega)]
  simp only [h.foldl_ops hbp hcounts, hencode, if_true]

/-- What is accepted is built again from the fields. -/
theorem encode_of_decode {s : CScript} (h : decodeAndValidateMintSigScript bp s = some m) :
    m.encode = s := by
  unfold decodeAndValidateMintSigScript at h
  cases hops : readPushes s with
  | none => simp [hops] at h
  | some ops =>
    simp only [hops, Option.ite_none_right_eq_some, Option.some.injEq] at h
    obtain ⟨hencode, rfl⟩ := h
    exact hencode

/-- The fields that a bridge can emit make the round trip, and every accepted script is the
encoding of its fields. So two accepted scripts with the same fields are one. -/
theorem mint_codec (hbp : bp.OfNetwork) :
    (∀ m : MintSigScript, m.Emitted bp → m.Countable →
      ∃ m', decodeAndValidateMintSigScript bp m.encode = some m' ∧ m'.fields = m.fields) ∧
    (∀ s m, decodeAndValidateMintSigScript bp s = some m → m.encode = s) ∧
    ∀ s s' m m', decodeAndValidateMintSigScript bp s = some m →
      decodeAndValidateMintSigScript bp s' = some m' → s ≠ s' → m.fields ≠ m'.fields := by
  refine ⟨fun m h hcounts => ⟨m.counted, h.decode_encode hbp hcounts, rfl⟩, fun s m => encode_of_decode, ?_⟩
  intro s s' m m' hs hs' hne hfields
  apply hne
  rw [← encode_of_decode hs, ← encode_of_decode hs', encode_congr hfields]

/-! ## Fields that are not read back -/

/-- The decoder with a negative count of the sections takes no push for a section. -/
theorem sections_foldl_of_nonpos (l : List ((ℕ × List UInt8) × ℕ)) (hl : ∀ op ∈ l, 2 ≤ op.2)
    (h : m.sections_size ≤ 0) : (l.foldl (readMintField bp) m).sections = m.sections := by
  induction l generalizing m with
  | nil => rfl
  | cons op rest ih =>
    have hidx := hl op List.mem_cons_self
    have hstep : (readMintField bp m op).sections = m.sections ∧
        (readMintField bp m op).sections_size = m.sections_size := by
      unfold readMintField
      simp only
      rw [if_neg (by omega), if_neg (by omega), if_neg (by omega)]
      split_ifs <;> exact ⟨rfl, rfl⟩
    have hrest := ih (m := readMintField bp m op)
      (fun op' h' => hl op' (List.mem_cons_of_mem _ h')) (by rw [hstep.2]; exact h)
    rw [List.foldl_cons, hrest, hstep.1]

/-- A count from `2 ^ 31` on is negative as an `int`. -/
theorem Emitted.sections_of_overflow (h : m.Emitted bp) (hlow : 2 ^ 31 ≤ m.sections.length)
    (hhigh : m.sections.length < 2 ^ 32) (hproofs_size : m.proofs.length < 2 ^ 63)
    (hdecode : decodeAndValidateMintSigScript bp m.encode = some m') : m'.sections = [] := by
  have hcount : toInt32 m.sections.length ≤ 0 := by
    unfold toInt32
    rw [Int.bmod_def]
    split <;> omega
  unfold decodeAndValidateMintSigScript at hdecode
  rw [h.readPushes_encode (by omega) hproofs_size] at hdecode
  simp only [Option.ite_none_right_eq_some, Option.some.injEq] at hdecode
  rw [← hdecode.2]
  unfold ops
  rw [List.append_assoc, List.append_assoc, List.zipIdx_append, List.foldl_append,
    sections_foldl_of_nonpos]
  · simp [readMintField]
  · intro op hop
    have hidx := List.le_snd_of_mem_zipIdx hop
    simpa using hidx
  · simpa [readMintField, getNumberFromScript_numberOp (n := m.sections.length) (by omega) (by omega)]
      using hcount

end MintSigScript

def sampleMintFields : MintSigScript where
  addr_dest := ⟨[25], List.replicate 20 7⟩
  sections := [0, 300000]
  section_peg := 0
  nonce := 1
  from_addr := hexStr (List.replicate 20 0x11)
  leaf := hexStr sampleLeaf

example : sampleMintFields.encode = sampleMintScript := by decide

theorem sampleMintFields_emitted (sections : List ℤ) (h : ∀ v ∈ sections, 0 ≤ v ∧ v < 2 ^ 63) :
    { sampleMintFields with sections }.Emitted sampleBridgeParams where
  version := .inl rfl
  data := (by decide : sampleMintFields.addr_dest.getData.length < 2 ^ 32)
  sections := h
  section_peg := (by decide : (0 : ℤ) ≤ 0 ∧ (0 : ℤ) < 2 ^ 31)
  nonce := (by decide : (0 : ℤ) ≤ 1 ∧ (1 : ℤ) < 2 ^ 31)
  from_addr := ⟨_, by decide, by decide, rfl⟩
  leaf := ⟨_, by decide, by decide, rfl⟩
  proofs := fun _ h => absurd h List.not_mem_nil

/-- The sample makes the round trip. -/
theorem mint_codec_sample :
    sampleBridgeParams.OfNetwork ∧ sampleMintFields.Emitted sampleBridgeParams ∧
      sampleMintFields.Countable ∧
      ∃ m', decodeAndValidateMintSigScript sampleBridgeParams sampleMintFields.encode = some m' ∧
        m'.fields = sampleMintFields.fields := by
  have hnet : sampleBridgeParams.OfNetwork := .inl ⟨rfl, rfl⟩
  have hemitted := sampleMintFields_emitted sampleMintFields.sections (by decide)
  have hcounts : sampleMintFields.Countable := (by decide : 7 + 2 + 0 < 2 ^ 31)
  exact ⟨hnet, hemitted, hcounts,
    (MintSigScript.mint_codec hnet).1 sampleMintFields hemitted hcounts⟩

/-- A sender of two bytes is read as a decimal number, whose script is another one. Of `2 ^ 31`
sections none is read. -/
theorem mint_fields_not_read_back :
    (decodeAndValidateMintSigScript sampleBridgeParams
      { sampleMintFields with from_addr := "0102".toList }.encode).isNone = true ∧
    ∀ m', decodeAndValidateMintSigScript sampleBridgeParams
      { sampleMintFields with sections := List.replicate (2 ^ 31) 0 }.encode = some m' →
        m'.sections ≠ List.replicate (2 ^ 31) 0 := by
  refine ⟨by decide, fun m' hdecode heq => ?_⟩
  have hemitted := sampleMintFields_emitted (List.replicate (2 ^ 31) 0)
    (fun v hv => by rw [List.eq_of_mem_replicate hv]; decide)
  have hempty := hemitted.sections_of_overflow (by rw [List.length_replicate])
    (by rw [List.length_replicate]; norm_num) (by decide) hdecode
  have hlength := congrArg List.length (heq.symm.trans hempty)
  rw [List.length_replicate, List.length_nil] at hlength
  exact absurd hlength (by norm_num)

end BitBay
