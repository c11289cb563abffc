import BitBay.Bridge.Draw
import BitBay.Bridge.MintCodec

/-!
# Mints of untrusted scripts

The decoder of mint scripts builds the script again, and a negative number would not come out
as it went in. So the sections of an accepted script are not negative. Their number and the
index of the section come from the script as they are, and the steps from a vote: whether the
columns of a mint stay in bounds depends on these.
-/
namespace BitBay

open Finset Windows

variable {bp : BridgeParams} {m : MintSigScript} {s : CScript}

/-! ## Sections of accepted scripts -/

/-- The loop of the decoder behind the count of the sections. -/
theorem sections_foldl (l : List (ℕ × List UInt8)) {k : ℕ} (hk : 2 ≤ k) :
    ((l.zipIdx k).foldl (readMintField bp) m).sections = m.sections ++
      (l.take (2 + m.sections_size - k).toNat).map fun op => getNumberFromScript op.1 op.2 := by
  induction l generalizing m k with
  | nil => simp
  | cons op rest ih =>
    rw [List.zipIdx_cons, List.foldl_cons]
    by_cases hin : (k : ℤ) < 2 + m.sections_size
    · have hread : readMintField bp m (op, k) =
          { m with sections := m.sections ++ [getNumberFromScript op.1 op.2] } := by
        unfold readMintField
        simp only
        rw [if_neg (by omega), if_neg (by omega), if_pos (by omega)]
      have hcount : (2 + m.sections_size - k).toNat = (2 + m.sections_size - (k + 1 : ℕ)).toNat + 1 := by
        push_cast
        omega
      rw [hread, ih (by omega), hcount, List.take_succ_cons, List.map_cons]
      simp
    · have hstep : (readMintField bp m (op, k)).sections = m.sections ∧
          (readMintField bp m (op, k)).sections_size = m.sections_size := by
        unfold readMintField
        simp only
        rw [if_neg (by omega), if_neg (by omega), if_neg (by omega)]
        split_ifs <;> exact ⟨rfl, rfl⟩
      have hnone : (2 + m.sections_size - k).toNat = 0 := by omega
      have hnext : (2 + m.sections_size - (k + 1 : ℕ)).toNat = 0 := by
        push_cast
        omega
      rw [ih (by omega), hstep.1, hstep.2, hnone, hnext]
      simp

/-- The first two fields are read before the sections. -/
theorem foldl_front (op0 op1 : ℕ × List UInt8) (tail : List (ℕ × List UInt8)) :
    ((op0 :: op1 :: tail).zipIdx.foldl (readMintField bp) {}).sections =
      (tail.take (toInt32 (getNumberFromScript op1.1 op1.2)).toNat).map
        fun op => getNumberFromScript op.1 op.2 := by
  rw [List.zipIdx_cons, List.zipIdx_cons, List.foldl_cons, List.foldl_cons, sections_foldl _ (by simp)]
  simp [readMintField]

theorem addr_foldl (l : List (ℕ × List UInt8)) {k : ℕ} (hk : 1 ≤ k) :
    ((l.zipIdx k).foldl (readMintField bp) m).addr_dest = m.addr_dest := by
  induction l generalizing m k with
  | nil => rfl
  | cons op rest ih =>
    have hstep : (readMintField bp m (op, k)).addr_dest = m.addr_dest := by
      unfold readMintField
      simp only
      rw [if_neg (by omega)]
      split_ifs <;> rfl
    rw [List.zipIdx_cons, List.foldl_cons, ih (by omega), hstep]

/-- The address holds no more bytes than its push. -/
theorem readAddress_length (vch : List UInt8) :
    (readAddress bp vch {}).getData.length ≤ vch.length := by
  have hpushed (pref : List UInt8) (a : CBitcoinAddress) (ha : a.getData.length ≤ vch.length) :
      (if pref.isPrefixOf vch then (⟨pref, vch.drop pref.length⟩ : CBitcoinAddress)
        else a).getData.length ≤ vch.length := by
    split_ifs with h
    · have hle := (List.isPrefixOf_iff_prefix.mp h).length_le
      simp only [CBitcoinAddress.getData, List.length_append, List.length_drop]
      omega
    · exact ha
  exact hpushed _ _ (hpushed _ _ (Nat.zero_le _))

theorem readPushes_head {op : ℕ × List UInt8} {ops : List (ℕ × List UInt8)}
    (h : readPushes s = some (op :: ops)) : op.2.length < 2 ^ 32 := by
  unfold readPushes at h
  cases hlength : s.length with
  | zero =>
    rw [hlength] at h
    cases h
  | succ k =>
    rw [hlength, readPushes.go] at h
    split_ifs at h
    · cases h
    · split at h
      · cases h
      · rename_i opcode vch rest hop
        split_ifs at h
        obtain ⟨behind, -, hcons⟩ := Option.map_eq_some_iff.mp h
        cases hcons
        exact getOp_length hop

/-- The pushes at the front of a mint script. -/
theorem encode_front (m : MintSigScript) : ∃ rest, m.encode = ([pushVch m.addr_dest.getData,
    pushInt64 m.sections.length] ++ m.sections.map pushInt64).flatten ++ rest := by
  refine ⟨pushInt64 m.section_peg ++ pushInt64 m.nonce ++ pushVch (parseHex m.from_addr) ++
    pushVch (parseHex m.leaf) ++ pushInt64 m.proofs.length ++
    (m.proofs.map fun proof => pushVch (parseHex proof)).flatten, ?_⟩
  simp only [MintSigScript.encode, List.flatten_append, List.flatten_cons, List.flatten_nil,
    List.append_nil, List.append_assoc]

/-- Values that are read from the operations of all of them are read from their own. -/
theorem map_eq_of_take {α β : Type} {l : List β} {f : β → α} {g : α → β} {behind : List α} {n : ℕ}
    (hle : l.length ≤ n) (h : l = ((l.map f ++ behind).take n).map g) : ∀ v ∈ l, g (f v) = v := by
  have hfront : (l.map f ++ behind).take n = l.map f ++ behind.take (n - l.length) := by
    rw [List.take_append, List.length_map, List.take_of_length_le (by simpa using hle)]
  rw [hfront, List.map_append, List.map_map] at h
  have htake := congrArg (List.take l.length) h
  rw [List.take_length, List.take_left' (by simp)] at htake
  intro v hv
  have hmap : l.map (g ∘ f) = l.map id := by rw [List.map_id, ← htake]
  exact List.map_inj_left.mp hmap v hv

/-- The sections of an accepted script come out of their pushes as they went in. -/
theorem sections_of_decode (h : decodeAndValidateMintSigScript bp s = some m) :
    ∀ v ∈ m.sections, (-2 ^ 63 ≤ v ∧ v < 2 ^ 63) ∧
      getNumberFromScript (numberOp v).1 (numberOp v).2 = v := by
  unfold decodeAndValidateMintSigScript at h
  cases hops : readPushes s with
  | none => simp [hops] at h
  | some ops =>
    simp only [hops, Option.ite_none_right_eq_some, Option.some.injEq] at h
    obtain ⟨hencode, hm⟩ := h
    rw [hm] at hencode
    match ops, hops, hm with
    | [], _, hm => simp [← hm]
    | [op0], _, hm => simp [← hm, readMintField]
    | op0 :: op1 :: tail, hops, hm =>
      have hsections : m.sections =
          (tail.take (toInt32 (getNumberFromScript op1.1 op1.2)).toNat).map
            fun op => getNumberFromScript op.1 op.2 := by
        rw [← hm, foldl_front]
      generalize hcount : (toInt32 (getNumberFromScript op1.1 op1.2)).toNat = count at hsections
      have hle : m.sections.length ≤ count := by
        rw [hsections, List.length_map]
        exact List.length_take_le _ _
      have hsmall : count < 2 ^ 31 := by
        have hlt := Int.bmod_lt (x := getNumberFromScript op1.1 op1.2) (m := 2 ^ 32) (by decide)
        rw [← hcount, toInt32]
        norm_num at hlt ⊢
        omega
      have hbounds : ∀ v ∈ m.sections, -2 ^ 63 ≤ v ∧ v < 2 ^ 63 := by
        intro v hv
        rw [hsections] at hv
        obtain ⟨op, -, rfl⟩ := List.mem_map.mp hv
        exact getNumberFromScript_bounds _ _
      have haddr : m.addr_dest.getData.length < 2 ^ 32 := by
        have hread : m.addr_dest = readAddress bp op0.2 {} := by
          rw [← hm, List.zipIdx_cons, List.foldl_cons, addr_foldl _ le_rfl]
          simp [readMintField]
        rw [hread]
        exact lt_of_le_of_lt (readAddress_length _) (readPushes_head hops)
      -- the script begins with the pushes of the address, the count and the sections
      have hpushes : List.Forall₂ Pushes
          ([pushVch m.addr_dest.getData, pushInt64 m.sections.length] ++ m.sections.map pushInt64)
          ([vchOp m.addr_dest.getData, numberOp m.sections.length] ++ m.sections.map numberOp) := by
        refine List.rel_append
          (.cons (pushes_vch haddr) (.cons (pushes_number (by omega) (by omega)) .nil)) ?_
        rw [List.forall₂_map_left_iff, List.forall₂_map_right_iff, List.forall₂_same]
        exact fun v hv => pushes_int64 (hbounds v hv).1 (hbounds v hv).2
      obtain ⟨rest, hrest⟩ := encode_front m
      rw [← hencode, hrest] at hops
      obtain ⟨behind, hall⟩ := readPushes_front hpushes hops
      have htail : tail = m.sections.map numberOp ++ behind := by
        simpa using congrArg (List.drop 2) hall
      rw [htail] at hsections
      exact fun v hv => ⟨hbounds v hv, map_eq_of_take hle hsections v hv⟩

/-- The sections of an accepted script are not negative. -/
theorem sections_nonneg (h : decodeAndValidateMintSigScript bp s = some m) :
    ∀ v ∈ m.sections, 0 ≤ v := by
  intro v hv
  obtain ⟨hbounds, hread⟩ := sections_of_decode h v hv
  by_contra hneg
  exact getNumberFromScript_neg (not_le.mp hneg) hbounds.1 hread

namespace CCompressedFractions

variable {c : CCompressedFractions} {pool r fr : CFractions} {d d' : Draw}

/-! ## Draws of values that are not negative -/

variable (c) in
/-- All values are at least zero. -/
structure NonnegValues : Prop where
  fps : ∀ v ∈ c.fps, 0 ≤ v
  fms : ∀ v ∈ c.fms, 0 ≤ v

/-- A draw from a pool without negative columns that has none itself. -/
structure Draw.Clean (d : Draw) (pool : CFractions) : Prop where
  splits : d.Splits pool
  nonneg : d.fr.Nonneg

theorem Draw.Clean.takes {a b : ℕ} {q : Columns} (h : d.Clean pool) (ht : d.Takes d' a b q)
    (hs : d'.Splits pool) (hq : ∀ x, 0 ≤ q x) : d'.Clean pool where
  splits := hs
  nonneg := by
    intro x
    rw [ht.fr]
    exact add_nonneg (h.nonneg x) (hq x)

theorem Draw.Clean.takeValue (h : d.Clean pool) (supply1 supply2 : ℕ) {value : ℤ} (hv : 0 ≤ value) :
    (∃ d', d.takeValue supply1 supply2 value = .ok d' ∧ d'.Clean pool) ∨
      ∃ e, d.takeValue supply1 supply2 value = .error e ∧ e = .short := by
  rcases lt_or_ge (window d.frPool.cols supply1 supply2) value with hshort | hle
  · right
    refine ⟨.short, ?_, rfl⟩
    simp only [Draw.takeValue, CFractions.total_midPart]
    rw [if_pos hshort]
  · left
    obtain ⟨d', hd'⟩ := Draw.takeValue_total hle hv
    obtain ⟨q, hpart⟩ := Draw.takeValue_ok hd'
    exact ⟨d', hd', h.takes hpart.toTakes (h.splits.takeValue hd') (hpart.nonneg h.splits.left hv)⟩

theorem Draw.Clean.microStep {start : ℕ} {q : Draw × ℤ} (h : q.1.Clean pool)
    {m : ℤ × ℕ} (hv : 0 ≤ m.1) : ∃ q', c.microStep start q m = .ok q' ∧ q'.1.Clean pool := by
  obtain ⟨q', hq'⟩ : ∃ q', c.microStep start q (m.1, m.2) = .ok q' := microStep_total hv
  obtain ⟨cols, htakes, hcase⟩ := microStep_ok hq'
  have hsplits := microStep_splits h.splits hq'
  refine ⟨q', hq', ?_⟩
  rcases hcase with ⟨part, hshort, hleft, rfl, rfl⟩ | ⟨hleft, hpart⟩
  · exact h.takes htakes hsplits (h.splits.left.midPart _ _)
  · exact h.takes htakes hsplits (hpart.nonneg h.splits.left hv)

theorem Draw.Clean.pegStep (hc : c.NonnegValues) (h : d.Clean pool) {s : ℤ × ℕ} (hv : 0 ≤ s.1) :
    (∃ d', c.pegStep d s = .ok d' ∧ d'.Clean pool) ∨ ∃ e, c.pegStep d s = .error e ∧ e = .short := by
  simp only [CCompressedFractions.pegStep]
  split_ifs with hsection
  · have hmicro := Run.foldlM_or (f := c.microStep (s.2 * c.pegStepSize)) (l := c.fms.zipIdx)
      (P := fun q => q.1.Clean pool) (Q := fun _ => False)
      (fun m hm q hq => Or.inl (Draw.Clean.microStep hq (hc.fms _ (List.fst_mem_of_mem_zipIdx hm))))
      (s := (d, 0)) h
    obtain ⟨q, hq, hclean⟩ := hmicro.resolve_right fun h => h.elim fun _ hfalse => hfalse.2
    rw [hq]
    by_cases hpos : 0 < q.2
    · simpa only [bind, Except.bind, if_pos hpos] using hclean.takeValue _ _ hpos.le
    · left
      refine ⟨q.1, ?_, hclean⟩
      simp only [bind, Except.bind, if_neg hpos]
      rfl
  · exact h.takeValue _ _ hv

/-- Values that are not negative are drawn without a division by zero, and no column that is
drawn is negative. -/
theorem decompress_nonneg (hc : c.NonnegValues) (hpool : pool.Nonneg) (hpeg : 0 < c.nPegSteps)
    (hmicro : 0 < c.nMicroSteps) : ∃ fr, c.decompress pool = some fr ∧ fr.Nonneg := by
  have hsteps := Run.foldlM_or (f := c.pegStep) (l := c.fps.zipIdx) (P := fun d => d.Clean pool)
    (Q := fun e => e = .short)
    (fun s hs d hd => hd.pegStep hc (hc.fps _ (List.fst_mem_of_mem_zipIdx hs)))
    (s := { frPool := pool }) ⟨Draw.splits_start hpool, fun _ => le_rfl⟩
  rw [decompress, if_neg (by omega)]
  rcases hsteps with ⟨d, hd, hclean⟩ | ⟨e, he, rfl⟩
  · exact ⟨d.fr, by rw [hd], hclean.nonneg⟩
  · exact ⟨default, by rw [he], CFractions.nonneg_default⟩

theorem spread_nonneg {v : ℤ} (hv : 0 ≤ v) (size j : ℕ) : 0 ≤ spread v size j := by
  have hdiv : 0 ≤ v.tdiv size := Int.tdiv_nonneg hv (Int.natCast_nonneg size)
  unfold spread
  split_ifs <;> omega

theorem getD_nonneg {l : List ℤ} (h : ∀ v ∈ l, 0 ≤ v) (i : ℕ) : 0 ≤ l.getD i 0 := by
  rw [List.getD_eq_getElem?_getD]
  cases hi : l[i]? with
  | none => exact le_rfl
  | some v => exact h v (List.mem_of_getElem? hi)

theorem requested_nonneg (hc : c.NonnegValues) (h : c.requested = some r) : r.Nonneg := by
  unfold requested at h
  split_ifs at h
  cases h
  intro x
  rw [CFractions.cols_withCols]
  unfold requestedCols
  split
  · exact spread_nonneg (getD_nonneg hc.fms _) _ _
  · split_ifs
    · exact spread_nonneg (getD_nonneg hc.fps _) _ _
    · exact le_rfl

end CCompressedFractions

/-! ## Steps and section of a mint -/

/-- The fractions of a mint are made without leaving the columns or the sections and without a
division by zero, and no column of them is negative: what is requested, and what is drawn. -/
def MintSigScript.Safe (m : MintSigScript) (bridge : CBridgeInfo) (frBridgePool : CFractions) : Prop :=
  ∃ cfrLeafFromBridge frLeafFromBridge frDeduct,
    CCompressedFractions.ofSections m.sections m.section_peg bridge.pegSteps bridge.microSteps =
      some cfrLeafFromBridge ∧
    cfrLeafFromBridge.requested = some frLeafFromBridge ∧
    bridge.decompress m frBridgePool = some frDeduct ∧
    frLeafFromBridge.Nonneg ∧ frDeduct.Nonneg

/-- What the steps of a bridge and the section have to be, the steps as they arrive: there are
some, with a column for every micro step, and the section lies in the columns. -/
structure MintSigScript.FitsSteps (m : MintSigScript) (n k : ℕ) : Prop where
  pegSteps : 0 < n
  microSteps : 0 < k
  columns : 0 < PEG_SIZE / n / k
  sections : n + k ≤ m.sections.length
  nonneg : 0 ≤ m.section_peg
  inside : m.section_peg * (PEG_SIZE / n : ℕ) + k * (PEG_SIZE / n / k : ℕ) ≤ PEG_SIZE

section Bounds

variable {bridge : CBridgeInfo} {frBridgePool : CFractions}

/-- The fields of the compressed fractions that a mint is decoded into. -/
theorem ofSections_eq_some {c : CCompressedFractions} :
    CCompressedFractions.ofSections m.sections m.section_peg bridge.pegSteps bridge.microSteps =
        some c ↔
      c.nPegSteps + c.nMicroSteps ≤ m.sections.length ∧
      c = ⟨(bridge.pegSteps % 2 ^ 16).toNat, (bridge.microSteps % 2 ^ 8).toNat, m.section_peg,
        m.sections.take (bridge.pegSteps % 2 ^ 16).toNat,
        (m.sections.drop (bridge.pegSteps % 2 ^ 16).toNat).take (bridge.microSteps % 2 ^ 8).toNat⟩ := by
  simp only [CCompressedFractions.ofSections]
  constructor
  · intro h
    split_ifs at h with hshort
    cases h
    exact ⟨not_lt.mp hshort, rfl⟩
  · rintro ⟨hle, rfl⟩
    rw [if_neg (not_lt.mpr hle)]

theorem requested_isSome_iff (c : CCompressedFractions) : c.requested.isSome ↔
    0 < c.nPegSteps ∧ 0 < c.nMicroSteps ∧ 0 < c.microStepSize ∧ 0 ≤ c.nSection ∧
      c.nSection * c.pegStepSize + c.nMicroSteps * c.microStepSize ≤ PEG_SIZE := by
  unfold CCompressedFractions.requested
  split_ifs with hbad
  · simp only [Option.isSome_none, Bool.false_eq_true, false_iff]
    omega
  · simp only [Option.isSome_some, true_iff]
    omega

theorem MintSigScript.Safe.fits (h : m.Safe bridge frBridgePool) :
    m.FitsSteps (bridge.pegSteps % 2 ^ 16).toNat (bridge.microSteps % 2 ^ 8).toNat := by
  obtain ⟨c, r, fr, hc, hr, -, -, -⟩ := h
  obtain ⟨hle, rfl⟩ := ofSections_eq_some.mp hc
  obtain ⟨hpeg, hmicro, hsize, hnonneg, hinside⟩ :=
    (requested_isSome_iff _).mp (Option.isSome_of_eq_some hr)
  exact ⟨hpeg, hmicro, hsize, hle, hnonneg, hinside⟩

/-- The mint of an accepted script stays in bounds if and only if the section and the steps of
the bridge fit. -/
theorem mint_in_bounds_iff (hdecode : decodeAndValidateMintSigScript bp s = some m)
    (hpool : frBridgePool.Nonneg) :
    m.Safe bridge frBridgePool ↔
      m.FitsSteps (bridge.pegSteps % 2 ^ 16).toNat (bridge.microSteps % 2 ^ 8).toNat := by
  constructor
  · exact MintSigScript.Safe.fits
  · intro h
    have hnonneg := sections_nonneg hdecode
    obtain ⟨c, hc⟩ : ∃ c, CCompressedFractions.ofSections m.sections m.section_peg bridge.pegSteps
        bridge.microSteps = some c := ⟨_, ofSections_eq_some.mpr ⟨h.sections, rfl⟩⟩
    obtain ⟨-, hvalue⟩ := ofSections_eq_some.mp hc
    have hvalues : c.NonnegValues := by
      rw [hvalue]
      exact ⟨fun v hv => hnonneg v (List.mem_of_mem_take hv),
        fun v hv => hnonneg v (List.mem_of_mem_drop (List.mem_of_mem_take hv))⟩
    have hfits : c.requested.isSome := by
      rw [requested_isSome_iff, hvalue]
      exact ⟨h.pegSteps, h.microSteps, h.columns, h.nonneg, h.inside⟩
    obtain ⟨hpeg, hmicro, -⟩ := (requested_isSome_iff c).mp hfits
    obtain ⟨r, hr⟩ := Option.isSome_iff_exists.mp hfits
    obtain ⟨fr, hfr, hfrnonneg⟩ := CCompressedFractions.decompress_nonneg hvalues hpool hpeg hmicro
    have hdraw : bridge.decompress m frBridgePool = some fr := by
      rw [CBridgeInfo.decompress, hc]
      exact hfr
    exact ⟨c, r, fr, hc, hr, hdraw, CCompressedFractions.requested_nonneg hvalues hr, hfrnonneg⟩

end Bounds

/-- The sample script is accepted and stays in bounds. -/
theorem sampleMint_in_bounds : ∃ m,
    decodeAndValidateMintSigScript sampleBridgeParams sampleMintScript = some m ∧
      m.Safe sampleBridge (CFractions.singleColumn 5 1000000) := by
  have hok : (decodeAndValidateMintSigScript sampleBridgeParams sampleMintScript).map
      (fun m => (m.section_peg, m.sections)) = some (0, [0, 300000]) := by decide
  obtain ⟨m, hm, hfields⟩ := Option.map_eq_some_iff.mp hok
  obtain ⟨hsection, hsections⟩ := Prod.mk.inj hfields
  refine ⟨m, hm, (mint_in_bounds_iff hm (CFractions.singleColumn_nonneg (by decide) 5)).mpr ?_⟩
  exact ⟨by decide, by decide, by decide, by rw [hsections]; decide, by rw [hsection],
    by rw [hsection]; decide⟩

/-- The sample script with section 1, behind the only peg step of the bridge. -/
def sampleSectionScript : CScript :=
  [21, 25] ++ List.replicate 20 7 ++ [0x52, 0, 3, 0xe0, 0x93, 0x04, 0x51, 0x51, 20] ++
    List.replicate 20 0x11 ++ [32] ++ sampleLeaf ++ [0]

/-- The script is accepted and has as many sections as the bridge has steps, but what is
requested would be written behind the columns. -/
theorem section_out_of_bounds : ∃ m,
    decodeAndValidateMintSigScript sampleBridgeParams sampleSectionScript = some m ∧
      sampleBridge.pegSteps + sampleBridge.microSteps = m.sections.length ∧
      ¬ m.Safe sampleBridge (CFractions.singleColumn 5 1000000) := by
  have hok : (decodeAndValidateMintSigScript sampleBridgeParams sampleSectionScript).map
      (fun m => (m.section_peg, m.sections)) = some (1, [0, 300000]) := by decide
  obtain ⟨m, hm, hfields⟩ := Option.map_eq_some_iff.mp hok
  obtain ⟨hsection, hsections⟩ := Prod.mk.inj hfields
  refine ⟨m, hm, by rw [hsections]; rfl, ?_⟩
  intro hsafe
  have hinside := hsafe.fits.inside
  rw [hsection] at hinside
  exact absurd hinside (by decide)

end BitBay
