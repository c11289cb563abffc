import BitBay.Bridge.MerkleTree
import BitBay.Chain.BridgeBurns

/-!
# The merkle tree of a bridge cycle

At the end of a cycle the leaves of a bridge are inserted into a tree in the order of their
texts, and the root and the path of every leaf are written. A mint brings the path as its
proofs. The tree hashes two nodes as bytes, the smaller bytes first, and the mint compares
their texts; both hash the same block.
-/
namespace BitBay

open HashTree

def sha256_keccak_cmp_lt (a b : List UInt8) : Bool := List.lex a b fun x y => decide (x < y)

def keccakBlock (l r : List UInt8) : List UInt8 :=
  if sha256_keccak_cmp_lt l r then l ++ r else r ++ l

section Model

variable (bp : BridgeParams) (leaves : List CString)

def sha256_keccak (l r : List UInt8) : List UInt8 := bp.eth_keccak256 (keccakBlock l r)

/-- `Hash(text)`, which throws on a text of another length. -/
def hashOfText (s : CString) : Option (List UInt8) :=
  if s.length ≠ 64 then none else hexToBytes s

def leavesSorted : List CString := leaves.dedup.insertionSort (· ≤ ·)

def cycleTree : Option (HashTree (List UInt8)) :=
  ((leavesSorted leaves).mapM hashOfText).bind TreeT.insertLeaves

def cycleMerkle : Option CString :=
  (cycleTree leaves).map fun tree => hexStr (tree.root (sha256_keccak bp))

def leafPath (leaf : CString) : Option (List CString) :=
  (cycleTree leaves).map fun tree =>
    (TreeT.path (sha256_keccak bp) tree ((leavesSorted leaves).idxOf leaf)).map hexStr

/-! ## Hashed blocks -/

def mintBlock (branch proof : CString) : Option (List UInt8) :=
  if proof = branch then none
  else
    let below := List.lex proof branch (fun a b => decide (a < b))
    match hexToBytes (if below then proof else branch),
      hexToBytes (if below then branch else proof) with
    | some b1, some b2 => if b1.length = 32 ∧ b2.length = 32 then some (b1 ++ b2) else none
    | _, _ => none

def treeBlocks : Set (List UInt8) :=
  {block | ∃ tree, cycleTree leaves = some tree ∧
    ∃ p ∈ tree.pairs (sha256_keccak bp), block = keccakBlock p.1 p.2}

def proofBlocks (leaf : CString) (proofs : List CString) : Set (List UInt8) :=
  {block | ∃ branch proof, Steps (mintBranch bp) leaf proofs branch proof ∧
    mintBlock branch proof = some block}

/-- The blocks have different hashes, and none of them is a leaf. -/
structure Binding (blocks : Set (List UInt8)) : Prop where
  injOn : Set.InjOn bp.eth_keccak256 blocks
  leaf_ne : ∀ block ∈ blocks, hexStr (bp.eth_keccak256 block) ∉ leaves

end Model

def IsHash (s : CString) : Prop := ∃ b : List UInt8, b.length = 32 ∧ s = hexStr b

variable {bp : BridgeParams} {leaves : List CString} {leaf : CString} {tree : HashTree (List UInt8)}
  {a b : List UInt8}

theorem Binding.mono {blocks blocks' : Set (List UInt8)} (h : Binding bp leaves blocks)
    (hsub : blocks' ⊆ blocks) : Binding bp leaves blocks' :=
  ⟨h.injOn.mono hsub, fun block hblock => h.leaf_ne block (hsub hblock)⟩

/-! ## One step -/

theorem mintBranch_eq (branch proof : CString) : mintBranch bp branch proof =
    (mintBlock branch proof).map fun block => hexStr (bp.eth_keccak256 block) := by
  unfold mintBranch mintBlock
  by_cases heq : proof = branch
  · rw [if_pos heq, if_pos heq]
    rfl
  · rw [if_neg heq, if_neg heq]
    dsimp only
    generalize List.lex proof branch (fun a b => decide (a < b)) = below
    rcases hexToBytes (if below then proof else branch) with _ | b1
    · rfl
    rcases hexToBytes (if below then branch else proof) with _ | b2
    · rfl
    dsimp only
    split <;> rfl

theorem lex_flip (hne : a ≠ b) :
    (List.lex b a fun x y => decide (x < y)) = !List.lex a b fun x y => decide (x < y) := by
  rw [Bool.eq_iff_iff, Bool.not_eq_true', List.lex_eq_true_iff_lt, List.lex_eq_false_iff_ge]
  exact ⟨List.le_of_lt, fun hle => List.not_le.mp fun hle' => hne (List.le_antisymm hle' hle)⟩

/-- The texts of two hashes are compared as their bytes are. -/
theorem mintBlock_hexStr (ha : a.length = 32) (hb : b.length = 32) (hne : a ≠ b) :
    mintBlock (hexStr a) (hexStr b) = some (keccakBlock a b) := by
  have hnil {x : List UInt8} (hx : x.length = 32) : x ≠ [] := by
    rintro rfl
    simp at hx
  have htext : hexStr b ≠ hexStr a := fun h => hne (hexStr_injective h).symm
  have hlex : (List.lex (hexStr b) (hexStr a) fun x y => decide (x < y)) =
      !sha256_keccak_cmp_lt a b := by
    rw [lex_hexStr (hb.trans ha.symm), lex_flip hne, sha256_keccak_cmp_lt]
  unfold mintBlock keccakBlock
  rw [if_neg htext, hlex]
  cases sha256_keccak_cmp_lt a b <;>
    simp [hexToBytes_hexStr (hnil ha), hexToBytes_hexStr (hnil hb), ha, hb]

theorem keccakBlock_comm (hne : a ≠ b) : keccakBlock a b = keccakBlock b a := by
  have hflip : sha256_keccak_cmp_lt b a = !sha256_keccak_cmp_lt a b := lex_flip hne
  unfold keccakBlock
  rw [hflip]
  cases sha256_keccak_cmp_lt a b <;> rfl

/-- One step of `ComputeMintMerkleRoot` from a node of the tree. -/
theorem mintBranch_hexStr (ha : a.length = 32) (hb : b.length = 32) (hne : a ≠ b) :
    mintBranch bp (hexStr a) (hexStr b) = some (hexStr (sha256_keccak bp a b)) := by
  rw [mintBranch_eq, mintBlock_hexStr ha hb hne]
  rfl

/-- The node is one half of the block that is hashed above it. -/
theorem mintBlock_some {proof : CString} {block : List UInt8} (ha : a.length = 32)
    (h : mintBlock (hexStr a) proof = some block) :
    ∃ x : List UInt8, x.length = 32 ∧ (block = a ++ x ∨ block = x ++ a) := by
  have hnil : a ≠ [] := by
    rintro rfl
    simp at ha
  unfold mintBlock at h
  by_cases heq : proof = hexStr a
  · simp [heq] at h
  rw [if_neg heq] at h
  dsimp only at h
  generalize List.lex proof (hexStr a) (fun a b => decide (a < b)) = below at h
  cases below with
  | true =>
    simp only [if_true, hexToBytes_hexStr hnil] at h
    rcases hproof : hexToBytes proof with _ | x
    · simp [hproof] at h
    simp only [hproof, Option.ite_none_right_eq_some, Option.some.injEq] at h
    exact ⟨x, h.1.1, .inr h.2.symm⟩
  | false =>
    simp only [Bool.false_eq_true, if_false, hexToBytes_hexStr hnil] at h
    rcases hproof : hexToBytes proof with _ | x
    · simp [hproof] at h
    simp only [hproof, Option.ite_none_right_eq_some, Option.some.injEq] at h
    exact ⟨x, h.1.2, .inl h.2.symm⟩

/-- Halves of a block that was hashed for two nodes. -/
theorem half_of_keccakBlock {x l r : List UInt8} (ha : a.length = 32) (hx : x.length = 32)
    (hl : l.length = 32) (hr : r.length = 32) (h : a ++ x = keccakBlock l r ∨ x ++ a = keccakBlock l r) :
    a = l ∨ a = r := by
  unfold keccakBlock at h
  split_ifs at h
  · rcases h with h | h
    · exact .inl (List.append_inj h (ha.trans hl.symm)).1
    · exact .inr (List.append_inj h (hx.trans hl.symm)).2
  · rcases h with h | h
    · exact .inr (List.append_inj h (ha.trans hr.symm)).1
    · exact .inl (List.append_inj h (hx.trans hr.symm)).2

/-- Nodes that the verifier reaches are texts of hashes. -/
theorem isHash_of_computeMintMerkleRoot (hhash : ∀ block, (bp.eth_keccak256 block).length = 32)
    (hleaf : IsHash leaf) {proofs : List CString} {branch : CString}
    (h : computeMintMerkleRoot bp leaf proofs = some branch) : IsHash branch := by
  unfold computeMintMerkleRoot at h
  induction proofs using List.reverseRecOn generalizing branch with
  | nil =>
    obtain rfl : leaf = branch := by simpa using h
    exact hleaf
  | append_singleton before proof _ =>
    rw [List.foldlM_append, Option.bind_eq_bind, Option.bind_eq_some_iff] at h
    obtain ⟨last, -, h⟩ := h
    have hlast : mintBranch bp last proof = some branch := by simpa using h
    rw [mintBranch_eq, Option.map_eq_some_iff] at hlast
    obtain ⟨block, -, rfl⟩ := hlast
    exact ⟨_, hhash block, rfl⟩

/-! ## The tree of the leaves -/

theorem mem_leavesSorted : leaf ∈ leavesSorted leaves ↔ leaf ∈ leaves := by
  rw [leavesSorted, (List.perm_insertionSort _ _).mem_iff, List.mem_dedup]

theorem nodup_leavesSorted : (leavesSorted leaves).Nodup :=
  (List.perm_insertionSort _ _).nodup_iff.mpr (List.nodup_dedup _)

theorem hashOfText_hexStr (hb : b.length = 32) : hashOfText (hexStr b) = some b := by
  have hnil : b ≠ [] := by
    rintro rfl
    simp at hb
  rw [hashOfText, length_hexStr, hb, if_neg (by decide), hexToBytes_hexStr hnil]

/-- The texts of hashes are read. -/
theorem mapM_hashOfText {l : List CString} (hl : ∀ s ∈ l, IsHash s) :
    ∃ hs, l.mapM hashOfText = some hs ∧ l = hs.map hexStr ∧ ∀ b ∈ hs, b.length = 32 := by
  induction l with
  | nil => exact ⟨[], rfl, rfl, fun _ h => absurd h List.not_mem_nil⟩
  | cons s rest ih =>
    obtain ⟨b, hb, rfl⟩ := hl s List.mem_cons_self
    obtain ⟨hs, hread, rfl, hlength⟩ := ih fun s' hs' => hl s' (List.mem_cons_of_mem _ hs')
    refine ⟨b :: hs, ?_, rfl, List.forall_mem_cons.mpr ⟨hb, hlength⟩⟩
    rw [List.mapM_cons, hashOfText_hexStr hb, hread]
    rfl

/-- The tree has the leaves, each once, in the order of the set. -/
theorem cycleTree_some (hne : leaves ≠ []) (hleaves : ∀ leaf ∈ leaves, IsHash leaf) :
    ∃ tree, cycleTree leaves = some tree ∧ TreeT.Complete tree ∧
      tree.leaves.map hexStr = leavesSorted leaves ∧ ∀ b ∈ tree.leaves, b.length = 32 := by
  obtain ⟨hs, hread, hsorted, hlength⟩ :=
    mapM_hashOfText (l := leavesSorted leaves) fun s hs => hleaves s (mem_leavesSorted.mp hs)
  have hnonempty : hs ≠ [] := by
    rintro rfl
    obtain ⟨leaf, hleaf⟩ := List.exists_mem_of_ne_nil _ hne
    rw [← mem_leavesSorted, hsorted] at hleaf
    exact absurd hleaf List.not_mem_nil
  rcases htree : TreeT.insertLeaves hs with _ | tree
  · cases hs with
    | nil => exact absurd rfl hnonempty
    | cons b rest => simp [TreeT.insertLeaves] at htree
  obtain ⟨hcomplete, rfl⟩ := TreeT.insertLeaves_some htree
  refine ⟨tree, ?_, hcomplete, hsorted.symm, hlength⟩
  rw [cycleTree, hread, Option.bind_some, htree]

theorem length_root (hhash : ∀ block, (bp.eth_keccak256 block).length = 32)
    (hlength : ∀ b ∈ tree.leaves, b.length = 32) :
    (tree.root (sha256_keccak bp)).length = 32 := by
  have hmem : tree.root (sha256_keccak bp) ∈ tree.leaves ∨ _ := tree.root_mem
  rcases hmem with hroot | ⟨p, -, hroot⟩
  · exact hlength _ hroot
  · rw [hroot]
    exact hhash _

theorem length_pairs (hhash : ∀ block, (bp.eth_keccak256 block).length = 32)
    (hlength : ∀ b ∈ tree.leaves, b.length = 32) :
    ∀ p ∈ tree.pairs (sha256_keccak bp), p.1.length = 32 ∧ p.2.length = 32 := by
  induction tree with
  | leaf a => exact fun p hp => absurd hp List.not_mem_nil
  | node left right ihl ihr =>
    have hl := fun b hb => hlength b (leaves_left_subset hb)
    have hr := fun b hb => hlength b (leaves_right_subset hb)
    intro p hp
    rw [pairs, List.mem_cons, List.mem_append] at hp
    rcases hp with rfl | hp | hp
    · exact ⟨length_root hhash hl, length_root hhash hr⟩
    · exact ihl hl p hp
    · exact ihr hr p hp

/-! ## Proofs of leaves -/

theorem keccakBlock_inj {l r l' r' : List UInt8} (hl : l.length = 32) (hr : r.length = 32)
    (hl' : l'.length = 32) (hr' : r'.length = 32) (h : keccakBlock l r = keccakBlock l' r') :
    (l, r) = (l', r') ∨ (l, r) = (r', l') := by
  unfold keccakBlock at h
  split_ifs at h <;>
    [obtain ⟨h1, h2⟩ := List.append_inj h (hl.trans hl'.symm);
     obtain ⟨h1, h2⟩ := List.append_inj h (hl.trans hr'.symm);
     obtain ⟨h1, h2⟩ := List.append_inj h (hr.trans hl'.symm);
     obtain ⟨h1, h2⟩ := List.append_inj h (hr.trans hr'.symm)] <;>
    subst h1 h2 <;> simp

/-- On the way up from a leaf no node stands beside its own hash, so the steps agree. -/
theorem Binding.agrees (hhash : ∀ block, (bp.eth_keccak256 block).length = 32)
    (htree : cycleTree leaves = some tree) (hleaves : tree.leaves.map hexStr = leavesSorted leaves)
    (hlength : ∀ b ∈ tree.leaves, b.length = 32) (h : Binding bp leaves (treeBlocks bp leaves)) :
    tree.Agrees (sha256_keccak bp) (mintBranch bp) hexStr := by
  have hpairs := length_pairs hhash hlength
  have hblock : ∀ p ∈ tree.pairs (sha256_keccak bp), keccakBlock p.1 p.2 ∈ treeBlocks bp leaves :=
    fun p hp => ⟨tree, htree, p, hp, rfl⟩
  have hinj : tree.Injective (sha256_keccak bp) := by
    intro p hp q hq heq
    have hsame := h.injOn (hblock p hp) (hblock q hq) heq
    exact keccakBlock_inj (hpairs p hp).1 (hpairs p hp).2 (hpairs q hq).1 (hpairs q hq).2 hsame
  have hsep : tree.Separated (sha256_keccak bp) := by
    rintro a ha p hp rfl
    apply h.leaf_ne _ (hblock p hp)
    rw [← mem_leavesSorted, ← hleaves]
    exact List.mem_map_of_mem ha
  have hnodup : tree.leaves.Nodup := List.Nodup.of_map hexStr (hleaves ▸ nodup_leavesSorted)
  intro p hp
  have hne := pairs_ne hinj hsep hnodup p hp
  obtain ⟨hl, hr⟩ := hpairs p hp
  refine ⟨mintBranch_hexStr hl hr hne, ?_⟩
  rw [mintBranch_hexStr hr hl hne.symm, sha256_keccak, sha256_keccak, keccakBlock_comm hne]

/-- The written path of a leaf leads to the written root. -/
theorem Binding.computeMintMerkleRoot_leafPath
    (hhash : ∀ block, (bp.eth_keccak256 block).length = 32)
    (hleaves : ∀ leaf ∈ leaves, IsHash leaf) (h : Binding bp leaves (treeBlocks bp leaves))
    (hleaf : leaf ∈ leaves) : ∃ proofs, leafPath bp leaves leaf = some proofs ∧
      computeMintMerkleRoot bp leaf proofs = cycleMerkle bp leaves := by
  obtain ⟨tree, htree, hcomplete, hsorted, hlength⟩ :=
    cycleTree_some (List.ne_nil_of_mem hleaf) hleaves
  have hindex : (leavesSorted leaves)[(leavesSorted leaves).idxOf leaf]? = some leaf :=
    List.getElem?_idxOf (mem_leavesSorted.mpr hleaf)
  obtain ⟨b, hb, rfl⟩ : ∃ b, tree.leaves[(leavesSorted leaves).idxOf leaf]? = some b ∧
      hexStr b = leaf := by
    have hmap := hindex
    nth_rewrite 1 [← hsorted] at hmap
    rwa [List.getElem?_map, Option.map_eq_some_iff] at hmap
  have hagrees := h.agrees hhash htree hsorted hlength
  have hproof : HashTree.Proof (sha256_keccak bp) tree b _ := TreeT.proof_path hcomplete hb
  have hroot := hproof.foldlM hagrees
  refine ⟨_, by rw [leafPath, htree, Option.map_some], ?_⟩
  rw [computeMintMerkleRoot, hroot, cycleMerkle, htree, Option.map_some]

/-- Only leaves have proofs. -/
theorem Binding.mem_of_computeMintMerkleRoot
    (hhash : ∀ block, (bp.eth_keccak256 block).length = 32)
    (hne : leaves ≠ []) (hleaves : ∀ leaf ∈ leaves, IsHash leaf) {proofs : List CString}
    (h : Binding bp leaves (treeBlocks bp leaves ∪ proofBlocks bp leaf proofs))
    (hleaf : IsHash leaf) (hinner : ∀ block ∈ treeBlocks bp leaves,
      leaf ≠ hexStr (bp.eth_keccak256 block))
    (hroot : computeMintMerkleRoot bp leaf proofs = cycleMerkle bp leaves) : leaf ∈ leaves := by
  obtain ⟨tree, htree, -, hsorted, hlength⟩ := cycleTree_some hne hleaves
  have hpairs := length_pairs hhash hlength
  rw [computeMintMerkleRoot, cycleMerkle, htree, Option.map_some] at hroot
  have hstep {b q c : CString} (hsteps : Steps (mintBranch bp) leaf proofs b q)
      (hc : mintBranch bp b q = some c) : ∃ block ∈ proofBlocks bp leaf proofs,
        c = hexStr (bp.eth_keccak256 block) ∧ mintBlock b q = some block := by
    rw [mintBranch_eq, Option.map_eq_some_iff] at hc
    obtain ⟨block, hblock, rfl⟩ := hc
    exact ⟨block, ⟨b, q, hsteps, hblock⟩, rfl, hblock⟩
  have hfound := mem_of_foldlM (f := hexStr) (t := tree) ?_ ?_ hroot
  · rcases hfound with ⟨a, ha, rfl⟩ | ⟨p, hp, hx⟩
    · rw [← mem_leavesSorted, ← hsorted]
      exact List.mem_map_of_mem ha
    · exact absurd hx (hinner _ ⟨tree, htree, p, hp, rfl⟩)
  · -- No step ends at a leaf.
    intro a ha b q hsteps hc
    obtain ⟨block, hblock, hhashed, -⟩ := hstep hsteps hc
    apply h.leaf_ne block (.inr hblock)
    rw [← mem_leavesSorted, ← hsorted, ← hhashed]
    exact List.mem_map_of_mem ha
  · -- A step to an inner node hashes its block.
    intro p hp b q hsteps hc
    obtain ⟨block, hblock, hhashed, hmint⟩ := hstep hsteps hc
    have hsame : block = keccakBlock p.1 p.2 :=
      h.injOn (.inr hblock) (.inl ⟨tree, htree, p, hp, rfl⟩) (hexStr_injective hhashed).symm
    obtain ⟨before, after, -, hbefore⟩ := hsteps
    obtain ⟨x, hx, rfl⟩ := isHash_of_computeMintMerkleRoot hhash hleaf hbefore
    obtain ⟨y, hy, hhalf⟩ := mintBlock_some hx hmint
    have hhalves := half_of_keccakBlock hx hy (hpairs p hp).1 (hpairs p hp).2
      (hhalf.imp (fun h => h.symm.trans hsame) fun h => h.symm.trans hsame)
    exact hhalves.imp (congrArg hexStr) (congrArg hexStr)

/-- Every leaf is proved by its path, when the blocks of the tree do not collide with each other
or with a leaf. And only leaves and inner nodes are proved by some list of texts, when also the
blocks hashed for it do not. -/
theorem merkle_proofs (hhash : ∀ block, (bp.eth_keccak256 block).length = 32)
    (hne : leaves ≠ []) (hleaves : ∀ leaf ∈ leaves, IsHash leaf) :
    ∃ root, cycleMerkle bp leaves = some root ∧
      (Binding bp leaves (treeBlocks bp leaves) → ∀ leaf ∈ leaves,
        ∃ proofs, leafPath bp leaves leaf = some proofs ∧
          computeMintMerkleRoot bp leaf proofs = some root) ∧
      ∀ leaf proofs, IsHash leaf →
        Binding bp leaves (treeBlocks bp leaves ∪ proofBlocks bp leaf proofs) →
        (∀ block ∈ treeBlocks bp leaves, leaf ≠ hexStr (bp.eth_keccak256 block)) →
        computeMintMerkleRoot bp leaf proofs = some root → leaf ∈ leaves := by
  obtain ⟨tree, htree, -⟩ := cycleTree_some hne hleaves
  have hroot : cycleMerkle bp leaves = some (hexStr (tree.root (sha256_keccak bp))) := by
    rw [cycleMerkle, htree, Option.map_some]
  refine ⟨_, hroot, ?_, ?_⟩
  · intro h leaf hleaf
    obtain ⟨proofs, hpath, hcompute⟩ := h.computeMintMerkleRoot_leafPath hhash hleaves hleaf
    exact ⟨proofs, hpath, hcompute.trans hroot⟩
  · intro leaf proofs hleaf h hinner hcompute
    exact h.mem_of_computeMintMerkleRoot hhash hne hleaves hleaf hinner (hcompute.trans hroot.symm)

/-! ## The leaves of a cycle -/

def CycleState.leafTexts (st : CycleState) (brhash : UInt256) : List CString :=
  (st.bridge_cycle_burn_txouts brhash).map (·.leaf)

/-- Every leaf is the hash of a burn. -/
theorem isHash_of_collectCycle {pegdb queue : MapFractions} {nPegSupplyIndex : ℤ} {nHeight : ℕ}
    {cycle : List CycleBlock} {st : CycleState} {brhash : UInt256}
    (hhash : ∀ block, (bp.eth_keccak256 block).length = 32)
    (h : collectCycle bp pegdb nPegSupplyIndex nHeight cycle queue = some st)
    (hleaf : leaf ∈ st.leafTexts brhash) : IsHash leaf := by
  obtain ⟨burn, hburn, rfl⟩ := List.mem_map.mp hleaf
  obtain ⟨a, -, -, hmade⟩ := ((collectCycle_added h).leaves brhash burn).mp hburn
  simp only [cycleLeaf, Option.bind_eq_bind, Option.bind_eq_some_iff] at hmade
  obtain ⟨fractions, -, fc1, -, hmade⟩ := hmade
  obtain rfl := Option.some.inj hmade
  exact ⟨_, hhash _, rfl⟩

/-- The paths that are written at the end of a cycle lead to the root that is written. -/
theorem leafPath_of_collectCycle {pegdb queue : MapFractions} {nPegSupplyIndex : ℤ} {nHeight : ℕ}
    {cycle : List CycleBlock} {st : CycleState} {brhash : UInt256}
    (hhash : ∀ block, (bp.eth_keccak256 block).length = 32)
    (h : collectCycle bp pegdb nPegSupplyIndex nHeight cycle queue = some st)
    (hbind : Binding bp (st.leafTexts brhash) (treeBlocks bp (st.leafTexts brhash)))
    (hleaf : leaf ∈ st.leafTexts brhash) : ∃ proofs, leafPath bp (st.leafTexts brhash) leaf = some proofs ∧
      computeMintMerkleRoot bp leaf proofs = cycleMerkle bp (st.leafTexts brhash) :=
  hbind.computeMintMerkleRoot_leafPath hhash (fun _ hl => isHash_of_collectCycle hhash h hl) hleaf

/-! ## Sample trees -/

def sampleHash (n : ℕ) : List UInt8 := List.replicate 32 (UInt8.ofNat n)

def sampleNode : List UInt8 :=
  [0x34, 0x6d, 0x8c, 0x96, 0xa2, 0x45, 0x42, 0x13, 0xfc, 0xc0, 0xda, 0xff, 0x3c, 0x96, 0xad, 0x03,
    0x98, 0x14, 0x81, 0x81, 0xb9, 0xfa, 0x64, 0x88, 0xf7, 0xae, 0x2c, 0x0a, 0xf5, 0xb2, 0x0a, 0xa0]

def sampleRoot : List UInt8 :=
  [0x1d, 0x61, 0x4f, 0xa3, 0xc8, 0xde, 0x62, 0x93, 0x8b, 0x09, 0x48, 0x97, 0x24, 0x94, 0xf9, 0xa3,
    0x85, 0x85, 0x75, 0xdb, 0x69, 0xce, 0x1d, 0x34, 0xc7, 0x79, 0x26, 0xf3, 0x07, 0x32, 0xc9, 0x81]

def sampleKeccak : BridgeParams :=
  { sampleBridgeParams with
    eth_keccak256 := fun block => if block = sampleHash 1 ++ sampleHash 2 then sampleNode
      else if block = sampleHash 3 ++ sampleNode then sampleRoot else List.replicate 32 0 }

/-- Three leaves, of which the first two are one level below the third. -/
def sampleLeaves : List CString := [3, 1, 2].map fun n => hexStr (sampleHash n)

theorem sampleKeccak_length (block : List UInt8) :
    (sampleKeccak.eth_keccak256 block).length = 32 := by
  change (if _ then _ else if _ then _ else _ : List UInt8).length = 32
  split_ifs <;> rfl

def sampleTree : HashTree (List UInt8) :=
  .node (.node (.leaf (sampleHash 1)) (.leaf (sampleHash 2))) (.leaf (sampleHash 3))

def sampleBlocks : Set (List UInt8) :=
  {sampleHash 1 ++ sampleHash 2, sampleHash 3 ++ sampleNode}

theorem binding_sample : Binding sampleKeccak sampleLeaves sampleBlocks := by
  constructor
  · rintro _ (rfl | rfl) _ (rfl | rfl) heq
    · rfl
    · exact absurd heq (by decide)
    · exact absurd heq (by decide)
    · rfl
  · rintro _ (rfl | rfl) <;> decide

theorem treeBlocks_sample : treeBlocks sampleKeccak sampleLeaves ⊆ sampleBlocks := by
  rintro _ ⟨tree, htree, p, hp, rfl⟩
  obtain rfl : sampleTree = tree := Option.some.inj ((by rfl :
    some sampleTree = cycleTree sampleLeaves).trans htree)
  have hpairs : sampleTree.pairs (sha256_keccak sampleKeccak) =
      [(sampleNode, sampleHash 3), (sampleHash 1, sampleHash 2)] := by rfl
  rw [hpairs, List.mem_cons, List.mem_singleton] at hp
  rcases hp with rfl | rfl
  · exact .inr (by rfl)
  · exact .inl (by rfl)

def sampleProofs : List CString := [2, 3].map fun n => hexStr (sampleHash n)

theorem proofBlocks_sample :
    proofBlocks sampleKeccak (hexStr (sampleHash 1)) sampleProofs ⊆ sampleBlocks := by
  rintro block ⟨branch, q, ⟨before, after, hsplit, hbefore⟩, hblock⟩
  rcases before with _ | ⟨q₁, _ | ⟨q₂, before⟩⟩
  · obtain ⟨rfl, -⟩ := List.cons.inj hsplit
    obtain rfl := Option.some.inj hbefore
    exact .inl (Option.some.inj (hblock.symm.trans (by rfl)))
  · obtain ⟨rfl, hrest⟩ := List.cons.inj hsplit
    obtain ⟨rfl, -⟩ := List.cons.inj hrest
    obtain rfl : hexStr sampleNode = branch := Option.some.inj ((by rfl :
      some (hexStr sampleNode) = List.foldlM (mintBranch sampleKeccak) (hexStr (sampleHash 1))
        [hexStr (sampleHash 2)]).trans hbefore)
    exact .inr (Option.some.inj (hblock.symm.trans (by rfl)))
  · simp [sampleProofs] at hsplit

/-- The first leaf is proved, and its proof is one of a leaf. -/
theorem merkle_proofs_sample :
    ∃ root, cycleMerkle sampleKeccak sampleLeaves = some root ∧
      (∃ proofs, leafPath sampleKeccak sampleLeaves (hexStr (sampleHash 1)) = some proofs ∧
        computeMintMerkleRoot sampleKeccak (hexStr (sampleHash 1)) proofs = some root) ∧
      (computeMintMerkleRoot sampleKeccak (hexStr (sampleHash 1)) sampleProofs = some root →
        hexStr (sampleHash 1) ∈ sampleLeaves) := by
  have hleaves : ∀ leaf ∈ sampleLeaves, IsHash leaf := by
    intro leaf hleaf
    obtain ⟨n, -, rfl⟩ := List.mem_map.mp hleaf
    exact ⟨_, List.length_replicate, rfl⟩
  obtain ⟨root, hroot, hprove, hbind⟩ :=
    merkle_proofs sampleKeccak_length (List.cons_ne_nil _ _) hleaves
  refine ⟨root, hroot, hprove (binding_sample.mono treeBlocks_sample) _ (by decide), ?_⟩
  refine hbind _ _ ⟨_, List.length_replicate, rfl⟩
    (binding_sample.mono (Set.union_subset treeBlocks_sample proofBlocks_sample)) ?_
  intro block hblock
  rcases treeBlocks_sample hblock with rfl | rfl <;> decide

/-- A leaf that is the hash of its neighbours stands beside this hash, and the verifier rejects
equal nodes. And below a leaf that is the hash of two texts each of them has a proof. -/
theorem leaf_is_node :
    (leafPath sampleKeccak [hexStr (sampleHash 1), hexStr (sampleHash 2), hexStr sampleNode]
        (hexStr (sampleHash 1)) = some [hexStr (sampleHash 2), hexStr sampleNode] ∧
      computeMintMerkleRoot sampleKeccak (hexStr (sampleHash 1))
        [hexStr (sampleHash 2), hexStr sampleNode] = none) ∧
    cycleMerkle sampleKeccak [hexStr sampleNode] = some (hexStr sampleNode) ∧
      (∀ block, block ∉ treeBlocks sampleKeccak [hexStr sampleNode]) ∧
      computeMintMerkleRoot sampleKeccak (hexStr (sampleHash 1)) [hexStr (sampleHash 2)] =
        some (hexStr sampleNode) ∧
      hexStr (sampleHash 1) ∉ [hexStr sampleNode] := by
  refine ⟨⟨by rfl, by rfl⟩, by rfl, ?_, by rfl, by decide⟩
  rintro block ⟨tree, htree, p, hp, -⟩
  obtain rfl : HashTree.leaf sampleNode = tree := Option.some.inj ((by rfl :
    some (HashTree.leaf sampleNode) = cycleTree [hexStr sampleNode]).trans htree)
  exact absurd hp List.not_mem_nil

end BitBay
