import BitBay.Library.HashTree

/-!
# The merkle tree of merklecpp

Leaves are inserted one after the other: into the left subtree of a node while it is not full,
then into the right one, and a full tree becomes the left child of a new root. So every left
subtree is full and no right one is higher. The bits of an index lead from the root to the leaf
with this index; a bit above the height of a subtree is skipped.
-/
namespace BitBay

namespace TreeT

open HashTree

variable {α : Type*} (hash : α → α → α)

def size : HashTree α → ℕ
  | .leaf _ => 1
  | .node left right => size left + size right + 1

def height : HashTree α → ℕ
  | .leaf _ => 1
  | .node left right => max (height left) (height right) + 1

def isFull (n : HashTree α) : Bool := size n = 2 ^ height n - 1

/-- `insert_leaf`. The insertion stack only keeps the way to the last leaf for the next one. -/
def insertLeaf : HashTree α → α → HashTree α
  | .leaf b, a => .node (.leaf b) (.leaf a)
  | .node left right, a =>
    if isFull (.node left right) then .node (.node left right) (.leaf a)
    else if isFull left then .node left (insertLeaf right a)
    else .node (insertLeaf left a) right

/-- The tree of inserted leaves; an empty tree has no root. -/
def insertLeaves : List α → Option (HashTree α)
  | [] => none
  | a :: rest => some (rest.foldl insertLeaf (.leaf a))

/-- `walk_to`, with the hashes beside the way, the last one first. -/
def walk (index : ℕ) : ℕ → HashTree α → List α
  | 0, _ => []
  | 1, _ => []
  | height + 2, cur =>
    if TreeT.height cur = height + 2 then
      match cur with
      | .leaf _ => []
      | .node left right =>
        if index.testBit height then walk index (height + 1) right ++ [left.root hash]
        else walk index (height + 1) left ++ [right.root hash]
    else walk index (height + 1) cur

def path (n : HashTree α) (index : ℕ) : List α := walk hash index (height n) n

/-! ## Shape -/

/-- Every left subtree is full and no lower than the right one. -/
def Complete : HashTree α → Prop
  | .leaf _ => True
  | .node left right => isFull left ∧ height right ≤ height left ∧ Complete left ∧ Complete right

variable {hash} {n left right : HashTree α} {a : α}

theorem height_pos (n : HashTree α) : 0 < height n := by
  cases n <;> simp [height]

theorem size_eq (n : HashTree α) : size n + 1 = 2 * n.leaves.length := by
  induction n with
  | leaf a => rfl
  | node left right ihl ihr =>
    rw [size, leaves, List.length_append]
    omega

theorem length_leaves_le (n : HashTree α) : n.leaves.length ≤ 2 ^ (height n - 1) := by
  induction n with
  | leaf a => simp [leaves, height]
  | node left right ihl ihr =>
    have hl := height_pos left
    have hr := height_pos right
    have hmax : max (height left) (height right) =
        max (height left) (height right) - 1 + 1 := by omega
    have hle (k : ℕ) (h : k ≤ max (height left) (height right)) :
        2 ^ (k - 1) ≤ 2 ^ (max (height left) (height right) - 1) :=
      Nat.pow_le_pow_right (by decide) (by omega)
    have hleft := hle _ (le_max_left _ _)
    have hright := hle _ (le_max_right _ _)
    rw [leaves, List.length_append, height, Nat.add_sub_cancel, hmax, pow_succ]
    omega

/-- A full tree has all the leaves its height allows. -/
theorem isFull_iff (n : HashTree α) : isFull n = true ↔ n.leaves.length = 2 ^ (height n - 1) := by
  have hsize := size_eq n
  have hpos := height_pos n
  have hpow : 2 ^ height n = 2 * 2 ^ (height n - 1) := by
    rw [← pow_succ', Nat.sub_add_cancel hpos]
  have hone : 0 < 2 ^ (height n - 1) := by positivity
  rw [isFull, decide_eq_true_eq]
  omega

theorem height_of_complete (h : height right ≤ height left) :
    height (.node left right) = height left + 1 := by
  rw [height, max_eq_left h]

/-- Where there is room left, an insertion adds the leaf at the end and keeps the height. -/
theorem insertLeaf_of_not_full (hn : Complete n) (hfull : isFull n = false) (a : α) :
    Complete (insertLeaf n a) ∧ height (insertLeaf n a) = height n ∧
      (insertLeaf n a).leaves = n.leaves ++ [a] := by
  induction n with
  | leaf b => exact absurd ((isFull_iff (.leaf b)).mpr rfl) (by simp [hfull])
  | node left right _ ih =>
    obtain ⟨hleft, hle, hcl, hcr⟩ := hn
    rw [insertLeaf, if_neg (by simp [hfull]), if_pos hleft]
    cases hright : isFull right with
    | false =>
      obtain ⟨hc, hh, hl⟩ := ih hcr hright
      refine ⟨⟨hleft, hh ▸ hle, hcl, hc⟩, ?_, ?_⟩
      · rw [height, height, hh]
      · rw [leaves, leaves, hl, List.append_assoc]
    | true =>
      -- The right subtree is lower, else the tree would be full.
      have hlower : height right < height left := by
        refine lt_of_le_of_ne hle fun heq => ?_
        have hall : isFull (.node left right) = true := by
          have hpow : 2 ^ height left = 2 * 2 ^ (height left - 1) := by
            rw [← pow_succ', Nat.sub_add_cancel (height_pos left)]
          rw [isFull_iff] at hleft hright ⊢
          rw [height_of_complete hle, leaves, List.length_append, hleft, hright, heq,
            Nat.add_sub_cancel, hpow]
          omega
        rw [hall] at hfull
        exact absurd hfull (by decide)
      have hnew : insertLeaf right a = .node right (.leaf a) := by
        cases right with
        | leaf b => rfl
        | node l r => rw [insertLeaf, if_pos hright]
      have hone : height (.leaf a : HashTree α) ≤ height right := height_pos right
      have hheight : height (insertLeaf right a) = height right + 1 := by
        rw [hnew, height_of_complete hone]
      refine ⟨⟨hleft, by omega, hcl, ?_⟩, ?_, ?_⟩
      · rw [hnew]
        exact ⟨hright, hone, hcr, trivial⟩
      · rw [height_of_complete (by omega), height_of_complete hle]
      · rw [leaves, hnew, leaves, leaves, leaves, List.append_assoc]

/-- One insertion. -/
theorem complete_insertLeaf (hn : Complete n) (a : α) :
    Complete (insertLeaf n a) ∧ (insertLeaf n a).leaves = n.leaves ++ [a] := by
  cases hfull : isFull n with
  | false =>
    obtain ⟨hc, -, hl⟩ := insertLeaf_of_not_full hn hfull a
    exact ⟨hc, hl⟩
  | true =>
    have hnew : insertLeaf n a = .node n (.leaf a) := by
      cases n with
      | leaf b => rfl
      | node left right => rw [insertLeaf, if_pos hfull]
    rw [hnew]
    exact ⟨⟨hfull, height_pos n, hn, trivial⟩, rfl⟩

/-- The tree has the inserted leaves in their order. -/
theorem insertLeaves_some {l : List α} (h : insertLeaves l = some n) :
    Complete n ∧ n.leaves = l := by
  cases l with
  | nil => simp [insertLeaves] at h
  | cons a rest =>
    obtain rfl := Option.some.inj h
    suffices hloop : ∀ n : HashTree α, Complete n →
        Complete (rest.foldl insertLeaf n) ∧ (rest.foldl insertLeaf n).leaves = n.leaves ++ rest from
      hloop (.leaf a) trivial
    induction rest with
    | nil => exact fun n hn => ⟨hn, (List.append_nil _).symm⟩
    | cons b rest ih =>
      intro n hn
      obtain ⟨hc, hl⟩ := complete_insertLeaf hn b
      obtain ⟨hc', hl'⟩ := ih rfl _ hc
      exact ⟨hc', by rw [List.foldl_cons, hl', hl, List.append_assoc, List.singleton_append]⟩

/-! ## Paths -/

/-- The bits below a height lead to the leaf with this index. -/
theorem proof_walk (hn : Complete n) {h index : ℕ} (hh : height n ≤ h)
    (ha : n.leaves[index % 2 ^ (h - 1)]? = some a) : Proof hash n a (walk hash index h n) := by
  induction h generalizing n with
  | zero => exact absurd hh (height_pos n).not_ge
  | succ h ih =>
    cases h with
    | zero =>
      cases n with
      | leaf b =>
        obtain rfl : b = a := by simpa [leaves, Nat.mod_one] using ha
        exact .leaf b
      | node left right =>
        have hleft := height_pos left
        rw [height] at hh
        omega
    | succ k =>
      have hmod : index % 2 ^ (k + 1) = index % 2 ^ k + 2 ^ k * (index.testBit k).toNat := by
        rw [Nat.mod_pow_succ, Nat.toNat_testBit]
      have hlt : index % 2 ^ k < 2 ^ k := Nat.mod_lt _ (by positivity)
      rw [show k + 1 + 1 - 1 = k + 1 from rfl] at ha
      unfold walk
      by_cases hheight : height n = k + 2
      · rw [if_pos hheight]
        cases n with
        | leaf b => simp [height] at hheight
        | node left right =>
          obtain ⟨hfull, hle, hcl, hcr⟩ := hn
          rw [height_of_complete hle] at hheight
          have hleft : height left = k + 1 := by omega
          have hcount : left.leaves.length = 2 ^ k := by
            rw [(isFull_iff left).mp hfull, hleft, Nat.add_sub_cancel]
          dsimp only
          cases hbit : index.testBit k with
          | true =>
            rw [hbit, Bool.toNat_true, mul_one] at hmod
            rw [if_pos rfl]
            refine .right (ih hcr (by omega) ?_)
            rw [hmod, leaves, List.getElem?_append_right (by omega), hcount,
              Nat.add_sub_cancel] at ha
            exact ha
          | false =>
            rw [hbit, Bool.toNat_false, mul_zero, add_zero] at hmod
            rw [if_neg Bool.false_ne_true]
            refine .left (ih hcl (by omega) ?_)
            rw [hmod, leaves, List.getElem?_append_left (by omega)] at ha
            exact ha
      · rw [if_neg hheight]
        refine ih hn (by omega) ?_
        -- The bit is above the leaves of the subtree.
        have hindex := (List.getElem?_eq_some_iff.mp ha).1
        have hpow : 2 ^ (height n - 1) ≤ 2 ^ k := Nat.pow_le_pow_right (by decide) (by omega)
        have hlow : index % 2 ^ (k + 1) < 2 ^ k := by
          have hcount := length_leaves_le n
          omega
        cases hbit : index.testBit k with
        | true =>
          rw [hbit, Bool.toNat_true] at hmod
          omega
        | false =>
          rw [hbit, Bool.toNat_false, mul_zero, add_zero] at hmod
          rwa [hmod] at ha

/-- The path of an index is the proof of its leaf. -/
theorem proof_path (hn : Complete n) {index : ℕ} (ha : n.leaves[index]? = some a) :
    Proof hash n a (path hash n index) := by
  refine proof_walk hn le_rfl ?_
  have hindex := (List.getElem?_eq_some_iff.mp ha).1
  rw [Nat.mod_eq_of_lt (lt_of_lt_of_le hindex (length_leaves_le n))]
  exact ha

end TreeT

end BitBay
