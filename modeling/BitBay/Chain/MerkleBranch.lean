import BitBay.Base.Script
import BitBay.Library.LevelTree

/-!
# Merkle branches of blocks

A block keeps its merkle tree in one vector, level behind level. `BuildMerkleTree` fills it,
`GetMerkleBranch` walks up from a transaction, and `CheckMerkleBranch` goes the same way with the
branch alone. Each does its own index arithmetic; all three follow the levels of a `LevelTree`.

Reads outside of the vector are `none`. Sizes are those of blocks, far below what an `int` holds.
-/
namespace BitBay

structure CMerkleBlock extends CBlock where
  vMerkleTree : List UInt256 := []
  deriving DecidableEq

namespace CMerkleBlock

variable (net : Params)
  /- `Hash` of the bytes of two hashes. -/
  (Hash : UInt256 → UInt256 → UInt256)

def pushPair (j nSize i : ℕ) (vMerkleTree : List UInt256) : Option (List UInt256) := do
  let i2 := min (i + 1) (nSize - 1)
  let left ← vMerkleTree[j + i]?
  let right ← vMerkleTree[j + i2]?
  some (vMerkleTree ++ [Hash left right])

def pushLevel (j nSize : ℕ) (vMerkleTree : List UInt256) : Option (List UInt256) :=
  (List.range ((nSize + 1) / 2)).foldlM
    (fun vMerkleTree k => pushPair Hash j nSize (2 * k) vMerkleTree) vMerkleTree

/-- `for (int nSize = vtx.size(); nSize > 1; nSize = (nSize + 1) / 2)` of `BuildMerkleTree`. -/
def pushLevels (j nSize : ℕ) (vMerkleTree : List UInt256) : Option (List UInt256) :=
  if 1 < nSize then do
    let vMerkleTree ← pushLevel Hash j nSize vMerkleTree
    pushLevels (j + nSize) ((nSize + 1) / 2) vMerkleTree
  else some vMerkleTree
termination_by nSize

/-- `BuildMerkleTree`: the root, and the block with its tree. -/
def buildMerkleTree (block : CMerkleBlock) : Option (UInt256 × CMerkleBlock) := do
  let vMerkleTree ← pushLevels Hash 0 block.vtx.length (block.vtx.map net.getHash)
  some (vMerkleTree.getLast?.getD 0, { block with vMerkleTree })

def branchOf (vMerkleTree : List UInt256) (nIndex j nSize : ℕ) : Option (List UInt256) :=
  if 1 < nSize then do
    let i := min (nIndex ^^^ 1) (nSize - 1)
    let node ← vMerkleTree[j + i]?
    let rest ← branchOf vMerkleTree (nIndex >>> 1) (j + nSize) ((nSize + 1) / 2)
    some (node :: rest)
  else some []
termination_by nSize

/-- `GetMerkleBranch`, which builds the tree when there is none yet. -/
def getMerkleBranch (block : CMerkleBlock) (nIndex : ℕ) :
    Option (List UInt256 × CMerkleBlock) := do
  let block ← if block.vMerkleTree = [] then (block.buildMerkleTree net Hash).map Prod.snd
    else some block
  let vMerkleBranch ← branchOf block.vMerkleTree nIndex 0 block.vtx.length
  some (vMerkleBranch, block)

/-- `CheckMerkleBranch`. The index is an `int` here: a transaction without a block has -1. -/
def checkMerkleBranch (hash : UInt256) (vMerkleBranch : List UInt256) (nIndex : ℤ) : UInt256 :=
  if nIndex = -1 then 0
  else (vMerkleBranch.foldl (fun s otherside =>
    (if s.2 % 2 = 1 then Hash otherside s.1 else Hash s.1 otherside, s.2 / 2)) (hash, nIndex)).1

variable {net Hash} {front level : List UInt256} {block built : CMerkleBlock} {i j nSize : ℕ}

/-! ## Building the tree -/

theorem pushPair_eq {vMerkleTree : List UInt256} {left right : UInt256}
    (hleft : vMerkleTree[j + i]? = some left)
    (hright : vMerkleTree[j + min (i + 1) (nSize - 1)]? = some right) :
    pushPair Hash j nSize i vMerkleTree = some (vMerkleTree ++ [Hash left right]) := by
  simp [pushPair, hleft, hright]

/-- The pairs up to the `m`-th are the first `m` parents. -/
theorem pushPairs_eq (hj : front.length = j) (hsize : level.length = nSize) {m : ℕ}
    (hm : m ≤ (nSize + 1) / 2) :
    (List.range m).foldlM (fun vMerkleTree k => pushPair Hash j nSize (2 * k) vMerkleTree)
      (front ++ level) = some (front ++ level ++ (LevelTree.parents Hash level).take m) := by
  induction m with
  | zero => simp
  | succ m ih =>
    have hread (k : ℕ) (hk : k < level.length) :
        (front ++ level ++ (LevelTree.parents Hash level).take m)[j + k]? = some (level[k]) := by
      grind
    have hleft : 2 * m < level.length := by omega
    have hright : min (2 * m + 1) (nSize - 1) < level.length := by omega
    have hparent : (LevelTree.parents Hash level)[m]? =
        some (Hash level[2 * m] level[min (2 * m + 1) (nSize - 1)]) := by
      subst hsize
      exact LevelTree.getElem?_parents Hash (List.getElem?_eq_getElem hleft)
        (List.getElem?_eq_getElem hright)
    rw [List.range_succ, List.foldlM_append, ih (by omega), List.take_add_one, hparent,
      Option.toList_some, ← List.append_assoc, ← pushPair_eq (hread _ hleft) (hread _ hright)]
    simp

theorem pushLevel_eq (hj : front.length = j) (hsize : level.length = nSize) :
    pushLevel Hash j nSize (front ++ level) =
      some (front ++ level ++ LevelTree.parents Hash level) := by
  refine (pushPairs_eq hj hsize le_rfl).trans ?_
  rw [List.take_of_length_le (by simp [hsize])]

/-- The loop appends the nodes above the level that it starts with. -/
theorem pushLevels_eq (hj : front.length = j) (hsize : level.length = nSize) :
    pushLevels Hash j nSize (front ++ level) = some (front ++ LevelTree.nodes Hash level) := by
  induction level using LevelTree.nodes.induct Hash generalizing front j nSize with
  | case1 level h ih =>
    unfold pushLevels LevelTree.nodes
    rw [if_pos (hsize ▸ h), if_pos h, pushLevel_eq hj hsize]
    have hrest : pushLevels Hash (j + nSize) ((nSize + 1) / 2)
        (front ++ level ++ LevelTree.parents Hash level) =
        some (front ++ level ++ LevelTree.nodes Hash (LevelTree.parents Hash level)) :=
      ih (by simp [hj, hsize]) (by simp [hsize])
    simpa using hrest
  | case2 level h =>
    unfold pushLevels LevelTree.nodes
    rw [if_neg (hsize ▸ h), if_neg h]

theorem buildMerkleTree_eq (block : CMerkleBlock) :
    block.buildMerkleTree net Hash =
      some ((LevelTree.nodes Hash (block.vtx.map net.getHash)).getLast?.getD 0,
        { block with vMerkleTree := LevelTree.nodes Hash (block.vtx.map net.getHash) }) := by
  have hlevels : pushLevels Hash 0 block.vtx.length (block.vtx.map net.getHash) =
      some (LevelTree.nodes Hash (block.vtx.map net.getHash)) :=
    pushLevels_eq (List.length_nil) (List.length_map _)
  unfold buildMerkleTree
  rw [hlevels]
  rfl

/-! ## Walking up -/

/-- The loop reads the siblings off the vector of all nodes. -/
theorem branchOf_eq (hj : front.length = j) (hsize : level.length = nSize) :
    branchOf (front ++ LevelTree.nodes Hash level) i j nSize =
      some (LevelTree.path Hash level i) := by
  induction level, i using LevelTree.path.induct Hash generalizing front j nSize with
  | case1 level i h ih =>
    have hnode : (front ++ LevelTree.nodes Hash level)[j + min (i ^^^ 1) (nSize - 1)]? =
        some (LevelTree.sibling level i h) := by
      rw [← hj, ← hsize, LevelTree.getElem?_nodes front (by omega), LevelTree.getElem?_sibling h]
    have hrest : branchOf (front ++ level ++ LevelTree.nodes Hash (LevelTree.parents Hash level))
        (i / 2) (j + nSize) ((nSize + 1) / 2) =
        some (LevelTree.path Hash (LevelTree.parents Hash level) (i / 2)) :=
      ih (by simp [hj, hsize]) (by simp [hsize])
    have hall : front ++ LevelTree.nodes Hash level =
        front ++ level ++ LevelTree.nodes Hash (LevelTree.parents Hash level) := by
      conv_lhs => unfold LevelTree.nodes
      rw [if_pos h, List.append_assoc]
    unfold branchOf LevelTree.path
    rw [← hall] at hrest
    simp [hsize ▸ h, h, hnode, hrest, Nat.shiftRight_one]
  | case2 level i h =>
    unfold branchOf LevelTree.path
    rw [if_neg (hsize ▸ h), dif_neg h]

/-- The verifier climbs, with its index as an `int`. -/
theorem checkMerkleBranch_eq (hash : UInt256) (vMerkleBranch : List UInt256) (i : ℕ) :
    checkMerkleBranch Hash hash vMerkleBranch i = LevelTree.climb Hash hash i vMerkleBranch := by
  have hindex : (i : ℤ) ≠ -1 := by omega
  unfold checkMerkleBranch
  rw [if_neg hindex]
  clear hindex
  induction vMerkleBranch generalizing hash i with
  | nil => rfl
  | cons otherside rest ih =>
    have hodd : (i : ℤ) % 2 = 1 ↔ i % 2 = 1 := by omega
    have hhalf : (i : ℤ) / 2 = (i / 2 : ℕ) := by omega
    rw [List.foldl_cons, LevelTree.climb]
    simp only [hodd, hhalf]
    exact ih _ _

/-- What a block with an up to date tree gives back. -/
theorem getMerkleBranch_of_built (hbuilt : built.vMerkleTree =
      LevelTree.nodes Hash (built.vtx.map net.getHash)) (hne : built.vtx ≠ []) :
    built.getMerkleBranch net Hash i =
      some (LevelTree.path Hash (built.vtx.map net.getHash) i, built) := by
  have hnonempty : built.vMerkleTree ≠ [] :=
    hbuilt ▸ LevelTree.nodes_ne_nil (by simpa using hne)
  have hbranch : branchOf ([] ++ LevelTree.nodes Hash (built.vtx.map net.getHash)) i 0
      built.vtx.length = some (LevelTree.path Hash (built.vtx.map net.getHash) i) :=
    branchOf_eq List.length_nil (List.length_map _)
  rw [List.nil_append, ← hbuilt] at hbranch
  unfold getMerkleBranch
  simp [hnonempty, hbranch]

/-- Whatever tree the block has before it is built, the branches that are taken from it then
verify, and a block without a tree gives the same branches. -/
theorem merkle_branches_verify (block : CMerkleBlock) (i : ℕ) (hi : i < block.vtx.length) :
    ∃ root built vMerkleBranch,
      block.buildMerkleTree net Hash = some (root, built) ∧
      built.toCBlock = block.toCBlock ∧
      built.getMerkleBranch net Hash i = some (vMerkleBranch, built) ∧
      (block.vMerkleTree = [] →
        block.getMerkleBranch net Hash i = some (vMerkleBranch, built)) ∧
      checkMerkleBranch Hash (net.getHash (block.vtx.get ⟨i, hi⟩)) vMerkleBranch i = root := by
  have hne : block.vtx ≠ [] := List.ne_nil_of_length_pos (by omega)
  have hleaf : (block.vtx.map net.getHash)[i]? = some (net.getHash (block.vtx.get ⟨i, hi⟩)) := by
    simp [hi]
  have hbuild : block.buildMerkleTree net Hash = _ := buildMerkleTree_eq block
  set built : CMerkleBlock :=
    { block with vMerkleTree := LevelTree.nodes Hash (block.vtx.map net.getHash) } with hb
  have hbranch : built.getMerkleBranch net Hash i = _ := getMerkleBranch_of_built rfl hne
  refine ⟨_, built, _, hbuild, rfl, hbranch, fun hempty => ?_, ?_⟩
  · -- The call builds the tree first and goes on as on the block that has it.
    have hnonempty : built.vMerkleTree ≠ [] :=
      LevelTree.nodes_ne_nil (by simpa using hne)
    rw [← hbranch]
    unfold getMerkleBranch
    rw [if_pos hempty, if_neg hnonempty, hbuild]
    rfl
  · rw [checkMerkleBranch_eq, LevelTree.climb_path hleaf]
    rfl

/-! ## Three transactions

The last one is its own sibling. Hashes are sums here. -/

def sampleNet : Params where
  pegFrozenTime := 0
  pegVFrozenTime := 0
  getHash tx := BitVec.ofNat 256 tx.nTime
  destinations _ := []
  isValidAddress _ := false

def sampleHash (a b : UInt256) : UInt256 := 3 * a + 5 * b + 1

def sampleBlock : CMerkleBlock where
  vtx := [{ nTime := 1, vin := [], vout := [] }, { nTime := 2, vin := [], vout := [] },
    { nTime := 4, vin := [], vout := [] }]

theorem third_branch_verifies :
    ∃ root built vMerkleBranch,
      sampleBlock.buildMerkleTree sampleNet sampleHash = some (root, built) ∧
      built.toCBlock = sampleBlock.toCBlock ∧
      built.getMerkleBranch sampleNet sampleHash 2 = some (vMerkleBranch, built) ∧
      (sampleBlock.vMerkleTree = [] →
        sampleBlock.getMerkleBranch sampleNet sampleHash 2 = some (vMerkleBranch, built)) ∧
      checkMerkleBranch sampleHash (sampleNet.getHash (sampleBlock.vtx.get ⟨2, by decide⟩))
        vMerkleBranch (2 : ℕ) = root :=
  merkle_branches_verify sampleBlock 2 (by decide)

end CMerkleBlock

end BitBay
