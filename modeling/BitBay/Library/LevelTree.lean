import Mathlib.Data.List.Basic
import Mathlib.Data.Nat.Bitwise
import Mathlib.Tactic

/-!
# Trees by levels

A tree over a list of leaves that is built level by level: neighbours are combined, and the last
node of an odd level is combined with itself. The nodes stand in one list, the leaves first and
the root at the end.

A path lists the siblings of the nodes above a leaf. Climbing it from the leaf leads to the root,
for any number of leaves.
-/
namespace BitBay.LevelTree

variable {α : Type*} (combine : α → α → α)

def parents : List α → List α
  | [] => []
  | [a] => [combine a a]
  | a :: b :: rest => combine a b :: parents rest

@[simp] theorem length_parents (l : List α) : (parents combine l).length = (l.length + 1) / 2 := by
  fun_induction parents combine l <;> grind

/-- A node is combined from two neighbours, or twice from the last node. -/
theorem getElem?_parents {l : List α} {k : ℕ} {a b : α} (ha : l[2 * k]? = some a)
    (hb : l[min (2 * k + 1) (l.length - 1)]? = some b) :
    (parents combine l)[k]? = some (combine a b) := by
  induction l using parents.induct generalizing k with
  | case1 => simp at ha
  | case2 c => cases k <;> grind [parents]
  | case3 c d rest ih =>
    cases k with
    | zero => grind [parents]
    | succ k =>
      have hrest : 2 * k < rest.length := by grind
      have hmin : min (2 * (k + 1) + 1) ((c :: d :: rest).length - 1) =
          min (2 * k + 1) (rest.length - 1) + 1 + 1 := by simp; omega
      rw [hmin] at hb
      simpa [parents] using ih (by simpa [mul_add] using ha) (by simpa using hb)

def nodes (l : List α) : List α :=
  if 1 < l.length then l ++ nodes (parents combine l) else l
termination_by l.length
decreasing_by simp; omega

/-- What stands beside a node of a level, which is the node itself at the end of an odd level. -/
def sibling (l : List α) (i : ℕ) (h : 1 < l.length) : α :=
  l.get ⟨min (i ^^^ 1) (l.length - 1), by omega⟩

def path (l : List α) (i : ℕ) : List α :=
  if h : 1 < l.length then sibling l i h :: path (parents combine l) (i / 2) else []
termination_by l.length
decreasing_by simp; omega

def climb (node : α) (i : ℕ) : List α → α
  | [] => node
  | other :: rest =>
    climb (if i % 2 = 1 then combine other node else combine node other) (i / 2) rest

variable {combine} {l : List α} {i : ℕ}

theorem xor_one (i : ℕ) : i ^^^ 1 = if i % 2 = 1 then i - 1 else i + 1 := by
  split_ifs with h
  · exact Nat.xor_one_of_odd (Nat.odd_iff.mpr h)
  · exact Nat.xor_one_of_even (Nat.even_iff.mpr (by omega))

theorem getElem?_sibling (h : 1 < l.length) :
    l[min (i ^^^ 1) (l.length - 1)]? = some (sibling l i h) := by
  unfold sibling
  rw [List.getElem?_eq_getElem (by omega)]
  rfl

/-- A node and its sibling make up the node above them. -/
theorem getElem?_parents_half {a : α} (h : 1 < l.length) (ha : l[i]? = some a) :
    (parents combine l)[i / 2]? =
      some (if i % 2 = 1 then combine (sibling l i h) a else combine a (sibling l i h)) := by
  have hi : i < l.length := (List.getElem?_eq_some_iff.mp ha).1
  have hsibling := getElem?_sibling (i := i) h
  rw [xor_one] at hsibling
  split_ifs at hsibling ⊢ with hodd
  · refine getElem?_parents combine ?_ ?_
    · rwa [show min (i - 1) (l.length - 1) = 2 * (i / 2) by omega] at hsibling
    · rwa [show min (2 * (i / 2) + 1) (l.length - 1) = i by omega]
  · refine getElem?_parents combine ?_ ?_
    · rwa [show 2 * (i / 2) = i by omega]
    · rwa [show 2 * (i / 2) + 1 = i + 1 by omega]

theorem nodes_ne_nil (h : l ≠ []) : nodes combine l ≠ [] := by
  unfold nodes
  split_ifs <;> simp [h]

theorem getLast?_nodes (h : 1 < l.length) :
    (nodes combine l).getLast? = (nodes combine (parents combine l)).getLast? := by
  have hne : parents combine l ≠ [] := List.ne_nil_of_length_pos (by simp; omega)
  conv_lhs => unfold nodes
  rw [if_pos h, List.getLast?_append_of_ne_nil _ (nodes_ne_nil hne)]

/-- The path of a leaf climbs to the last node. -/
theorem climb_path {a : α} (ha : l[i]? = some a) :
    (nodes combine l).getLast? = some (climb combine a i (path combine l i)) := by
  induction l, i using path.induct combine generalizing a with
  | case1 l i h ih =>
    unfold path
    rw [getLast?_nodes h, dif_pos h, climb]
    exact ih (getElem?_parents_half h ha)
  | case2 l i h =>
    have hi : i < l.length := (List.getElem?_eq_some_iff.mp ha).1
    obtain ⟨b, rfl⟩ : ∃ b, l = [b] := List.length_eq_one_iff.mp (by omega)
    obtain rfl : i = 0 := by simpa using hi
    unfold nodes path
    simpa [climb] using ha

/-! ## Levels in one list -/

/-- The level behind `front` is read from the list of all nodes. -/
theorem getElem?_nodes (front : List α) (hi : i < l.length) :
    (front ++ nodes combine l)[front.length + i]? = l[i]? := by
  unfold nodes
  split_ifs <;> grind

end BitBay.LevelTree
