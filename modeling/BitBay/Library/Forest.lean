import Mathlib.Data.List.Basic
import Mathlib.Logic.Relation
import Mathlib.Tactic

/-!
# Forests of blocks

A forest is given by the predecessor of each node; the height counts the nodes before
it. `path` lists a node and its ancestors, `above` the part of it down to an ancestor.
`findFork` walks from two nodes to an ancestor of both, and finds one when there is one.

The walks carry fuel. A height bounds their length, so `path` and `above` never stop early.
-/
namespace BitBay

structure Forest (α : Type) where
  prev : α → Option α
  height : α → ℕ
  height_prev : ∀ {a b}, prev b = some a → height b = height a + 1

namespace Forest

variable {α : Type} (f : Forest α)

def Ancestor (a b : α) : Prop := Relation.ReflTransGen (fun y x => f.prev y = some x) b a

def pathAux : ℕ → α → List α
  | 0, b => [b]
  | n + 1, b => b :: match f.prev b with
    | none => []
    | some p => pathAux n p

def path (b : α) : List α := f.pathAux (f.height b) b

def lower (h : ℕ) : ℕ → α → Option α
  | 0, b => some b
  | n + 1, b => if h < f.height b then (f.prev b).bind (lower h n) else some b

section Walks

variable [DecidableEq α]

def aboveAux (stop : α) : ℕ → α → List α
  | 0, _ => []
  | n + 1, b => if b = stop then [] else b :: match f.prev b with
    | none => []
    | some p => aboveAux stop n p

/-- The part of the path of `b` down to `stop`, without `stop`. -/
def above (stop b : α) : List α := f.aboveAux stop (f.height b + 1) b

/-- Go back from both nodes, the second one first, until they meet. -/
def findForkAux : ℕ → α → α → Option α
  | 0, _, _ => none
  | n + 1, a, b =>
    if a = b then some a
    else (f.lower (f.height a) (f.height b) b).bind fun b' =>
      if a = b' then some a
      else (f.prev a).bind fun p => findForkAux n p b'

def findFork (a b : α) : Option α := f.findForkAux (f.height a + 1) a b

end Walks

variable {f} {a b c x : α}

/-! ## Ancestors -/

theorem Ancestor.refl (a : α) : f.Ancestor a a := Relation.ReflTransGen.refl

theorem Ancestor.trans (h : f.Ancestor a b) (h' : f.Ancestor b c) : f.Ancestor a c :=
  Relation.ReflTransGen.trans h' h

theorem ancestor_of_prev (h : f.prev b = some a) : f.Ancestor a b := Relation.ReflTransGen.single h

theorem Ancestor.height_le (h : f.Ancestor a b) : f.height a ≤ f.height b := by
  induction h with
  | refl => exact le_rfl
  | tail _ hprev ih => exact (Nat.le_succ _).trans ((f.height_prev hprev).ge.trans ih)

theorem ancestor_iff : f.Ancestor a b ↔ a = b ∨ ∃ p, f.prev b = some p ∧ f.Ancestor a p := by
  constructor
  · intro h
    rcases Relation.ReflTransGen.cases_head h with heq | ⟨p, hp, hrest⟩
    · exact Or.inl heq.symm
    · exact Or.inr ⟨p, hp, hrest⟩
  · rintro (rfl | ⟨p, hp, hrest⟩)
    · exact Ancestor.refl a
    · exact hrest.trans (ancestor_of_prev hp)

theorem Ancestor.eq_of_height (h : f.Ancestor a b) (hheight : f.height b ≤ f.height a) : a = b := by
  rcases ancestor_iff.mp h with heq | ⟨p, hp, hrest⟩
  · exact heq
  · have hle := hrest.height_le
    have hstep := f.height_prev hp
    omega

/-- A proper ancestor is an ancestor of the predecessor. -/
theorem Ancestor.of_lt (h : f.Ancestor a b) (hlt : f.height a < f.height b) :
    ∃ p, f.prev b = some p ∧ f.Ancestor a p := by
  rcases ancestor_iff.mp h with rfl | hprev
  · exact absurd hlt (lt_irrefl _)
  · exact hprev

/-- Two ancestors of a node are on one path. -/
theorem Ancestor.of_height_le (ha : f.Ancestor a c) (hb : f.Ancestor b c)
    (hle : f.height a ≤ f.height b) : f.Ancestor a b := by
  induction ha using Relation.ReflTransGen.head_induction_on generalizing b with
  | refl =>
    obtain rfl := hb.eq_of_height hle
    exact Ancestor.refl _
  | @head c p hp hrest ih =>
    rcases ancestor_iff.mp hb with rfl | ⟨p', hp', hb'⟩
    · exact Relation.ReflTransGen.head hp hrest
    · obtain rfl : p' = p := Option.some.inj (hp'.symm.trans hp)
      exact ih hb' hle

/-! ## Paths -/

theorem path_of_prev (h : f.prev b = some a) : f.path b = b :: f.path a := by
  rw [path, f.height_prev h, pathAux, h]
  rfl

theorem path_of_root (h : f.prev b = none) : f.path b = [b] := by
  unfold path
  cases f.height b with
  | zero => rfl
  | succ n => rw [pathAux, h]

/-- Induction along the path of a node. -/
theorem path_induction {P : α → Prop} (root : ∀ b, f.prev b = none → P b)
    (step : ∀ a b, f.prev b = some a → P a → P b) (b : α) : P b := by
  induction hn : f.height b generalizing b with
  | zero =>
    cases hb : f.prev b with
    | none => exact root b hb
    | some p => rw [f.height_prev hb] at hn; omega
  | succ n ih =>
    cases hb : f.prev b with
    | none => exact root b hb
    | some p => exact step p b hb (ih p (by rw [f.height_prev hb] at hn; omega))

theorem mem_path : x ∈ f.path b ↔ f.Ancestor x b := by
  induction b using f.path_induction with
  | root b hb => simp [path_of_root hb, ancestor_iff (b := b), hb]
  | step a b hb ih => simp [path_of_prev hb, ancestor_iff (b := b), hb, ih]

theorem head_path (b : α) : (f.path b).head? = some b := by
  cases hb : f.prev b with
  | none => rw [path_of_root hb]; rfl
  | some p => rw [path_of_prev hb]; rfl

theorem lower_ancestor {h n : ℕ} (hb : f.lower h n b = some c) : f.Ancestor c b := by
  induction n generalizing b with
  | zero =>
    obtain rfl := Option.some.inj hb
    exact Ancestor.refl _
  | succ n ih =>
    rw [lower] at hb
    split_ifs at hb
    · obtain ⟨p, hp, hc⟩ := Option.bind_eq_some_iff.mp hb
      exact (ih hc).trans (ancestor_of_prev hp)
    · obtain rfl := Option.some.inj hb
      exact Ancestor.refl _

/-- Going back to the height of a common ancestor, or above it, does not fail. -/
theorem lower_isSome {h n : ℕ} (hc : f.Ancestor c b) (hh : f.height c ≤ h)
    (hn : f.height b ≤ n) : ∃ b', f.lower h n b = some b' ∧ f.Ancestor c b' ∧ f.height b' ≤ h := by
  induction n generalizing b with
  | zero => exact ⟨b, rfl, hc, by omega⟩
  | succ n ih =>
    rw [lower]
    split_ifs with hlt
    · obtain ⟨p, hp, hcp⟩ := hc.of_lt (by omega)
      rw [hp]
      exact ih hcp (by rw [f.height_prev hp] at hn; omega)
    · exact ⟨b, rfl, hc, not_lt.mp hlt⟩

section Walks

variable [DecidableEq α] {stop : α}

theorem above_self (f : Forest α) (b : α) : f.above b b = [] := by
  rw [above, aboveAux, if_pos rfl]

theorem above_of_prev (hne : b ≠ stop) (h : f.prev b = some a) :
    f.above stop b = b :: f.above stop a := by
  rw [above, aboveAux, if_neg hne, h, f.height_prev h]
  rfl

/-- The path is what is above an ancestor, and then the path of the ancestor. -/
theorem path_eq_above (h : f.Ancestor stop b) : f.path b = f.above stop b ++ f.path stop := by
  induction b using f.path_induction with
  | root b hb =>
    rcases ancestor_iff.mp h with rfl | ⟨p, hp, -⟩
    · rw [above_self, List.nil_append]
    · simp [hb] at hp
  | step a b hb ih =>
    rcases ancestor_iff.mp h with rfl | ⟨p, hp, hstop⟩
    · rw [above_self, List.nil_append]
    · obtain rfl : p = a := Option.some.inj (hp.symm.trans hb)
      have hne : b ≠ stop := by
        rintro rfl
        have hle := hstop.height_le
        have hstep := f.height_prev hb
        omega
      rw [above_of_prev hne hb, path_of_prev hb, ih hstop]
      rfl

theorem mem_above (h : f.Ancestor stop b) :
    x ∈ f.above stop b ↔ f.Ancestor x b ∧ f.height stop < f.height x := by
  induction b using f.path_induction with
  | root b hb =>
    rcases ancestor_iff.mp h with rfl | ⟨p, hp, -⟩
    · rw [above_self]
      refine iff_of_false List.not_mem_nil fun hx => ?_
      exact absurd hx.1.height_le hx.2.not_ge
    · simp [hb] at hp
  | step a b hb ih =>
    rcases ancestor_iff.mp h with rfl | ⟨p, hp, hstop⟩
    · rw [above_self]
      refine iff_of_false List.not_mem_nil fun hx => ?_
      exact absurd hx.1.height_le hx.2.not_ge
    · obtain rfl : p = a := Option.some.inj (hp.symm.trans hb)
      have hlt : f.height stop < f.height b := by
        have hle := hstop.height_le
        have hstep := f.height_prev hb
        omega
      have hne : b ≠ stop := by
        rintro rfl
        exact lt_irrefl _ hlt
      rw [above_of_prev hne hb, List.mem_cons, ih hstop, ancestor_iff (b := b)]
      constructor
      · rintro (rfl | ⟨hx, hx'⟩)
        · exact ⟨Or.inl rfl, hlt⟩
        · exact ⟨Or.inr ⟨p, hb, hx⟩, hx'⟩
      · rintro ⟨rfl | ⟨p', hp', hx⟩, hx'⟩
        · exact Or.inl rfl
        · obtain rfl : p' = p := Option.some.inj (hp'.symm.trans hb)
          exact Or.inr ⟨hx, hx'⟩

theorem above_append (hstop : f.Ancestor stop c) (h : f.Ancestor c b) :
    f.above stop b = f.above c b ++ f.above stop c := by
  have hpath := path_eq_above (hstop.trans h)
  rw [path_eq_above h, path_eq_above hstop, ← List.append_assoc] at hpath
  exact (List.append_cancel_right hpath).symm

/-- A node above an ancestor is the first one of what is above it there. -/
theorem above_eq_cons (hstop : f.Ancestor stop b) (hlt : f.height stop < f.height b) :
    ∃ l, f.above stop b = b :: l := by
  obtain ⟨p, hp, -⟩ := hstop.of_lt hlt
  have hne : b ≠ stop := by
    rintro rfl
    exact lt_irrefl _ hlt
  exact ⟨_, above_of_prev hne hp⟩

/-- The heights fall along a branch. -/
theorem pairwise_above (h : f.Ancestor stop b) :
    (f.above stop b).Pairwise fun x y => f.height y < f.height x := by
  induction b using f.path_induction with
  | root b hb =>
    rcases ancestor_iff.mp h with rfl | ⟨p, hp, -⟩
    · simp [above_self]
    · simp [hb] at hp
  | step a b hb ih =>
    rcases ancestor_iff.mp h with rfl | ⟨p, hp, hstop⟩
    · simp [above_self]
    · obtain rfl : p = a := Option.some.inj (hp.symm.trans hb)
      have hstep := f.height_prev hb
      have hne : b ≠ stop := by
        rintro rfl
        have hle := hstop.height_le
        omega
      rw [above_of_prev hne hb, List.pairwise_cons]
      refine ⟨fun y hy => ?_, ih hstop⟩
      have hle := ((mem_above hstop).mp hy).1.height_le
      omega

/-! ## The fork -/

theorem findForkAux_ancestor {n : ℕ} (h : f.findForkAux n a b = some c) :
    f.Ancestor c a ∧ f.Ancestor c b := by
  induction n generalizing a b with
  | zero => cases h
  | succ n ih =>
    rw [findForkAux] at h
    split_ifs at h with heq
    · obtain rfl := Option.some.inj h
      exact ⟨Ancestor.refl _, heq ▸ Ancestor.refl _⟩
    · obtain ⟨b', hb', h⟩ := Option.bind_eq_some_iff.mp h
      have hlow := lower_ancestor hb'
      split_ifs at h with heq'
      · obtain rfl := Option.some.inj h
        exact ⟨Ancestor.refl _, heq' ▸ hlow⟩
      · obtain ⟨p, hp, h⟩ := Option.bind_eq_some_iff.mp h
        obtain ⟨hc, hc'⟩ := ih h
        exact ⟨hc.trans (ancestor_of_prev hp), hc'.trans hlow⟩

/-- The fork is an ancestor of both nodes. -/
theorem findFork_ancestor (h : f.findFork a b = some c) : f.Ancestor c a ∧ f.Ancestor c b :=
  findForkAux_ancestor h

theorem findForkAux_isSome {n : ℕ} (hn : f.height a < n) (ha : f.Ancestor c a)
    (hb : f.Ancestor c b) : ∃ x, f.findForkAux n a b = some x := by
  induction n generalizing a b with
  | zero => omega
  | succ n ih =>
    rw [findForkAux]
    split_ifs with heq
    · exact ⟨a, rfl⟩
    · obtain ⟨b', hb', hcb', hle⟩ := lower_isSome hb ha.height_le le_rfl
      rw [hb', Option.bind_some]
      split_ifs with heq'
      · exact ⟨a, rfl⟩
      · -- at equal heights two different nodes are both above `c`
        have hlt : f.height c < f.height a := by
          by_contra hnot
          have hca := ha.eq_of_height (not_lt.mp hnot)
          subst hca
          exact heq' (hcb'.eq_of_height hle)
        obtain ⟨p, hp, hcp⟩ := ha.of_lt hlt
        rw [hp, Option.bind_some]
        exact ih (by rw [f.height_prev hp] at hn; omega) hcp hcb'

/-- Nodes with a common ancestor have a fork. -/
theorem findFork_isSome (ha : f.Ancestor c a) (hb : f.Ancestor c b) :
    ∃ x, f.findFork a b = some x :=
  findForkAux_isSome (Nat.lt_succ_self _) ha hb

theorem findForkAux_height_le {n : ℕ} (h : f.findForkAux n a b = some c) (ha : f.Ancestor x a)
    (hb : f.Ancestor x b) : f.height x ≤ f.height c := by
  induction n generalizing a b with
  | zero => cases h
  | succ n ih =>
    rw [findForkAux] at h
    split_ifs at h with heq
    · obtain rfl := Option.some.inj h
      exact ha.height_le
    · obtain ⟨b', hb', hxb', hle⟩ := lower_isSome hb ha.height_le le_rfl
      rw [hb', Option.bind_some] at h
      split_ifs at h with heq'
      · obtain rfl := Option.some.inj h
        exact ha.height_le
      · obtain ⟨p, hp, h⟩ := Option.bind_eq_some_iff.mp h
        rcases ancestor_iff.mp ha with rfl | ⟨p', hp', hxp⟩
        · exact absurd (hxb'.eq_of_height hle) heq'
        · obtain rfl : p' = p := Option.some.inj (hp'.symm.trans hp)
          exact ih h hxp hxb'

/-- The fork is the highest ancestor of both nodes. -/
theorem findFork_eq_some_iff : f.findFork a b = some c ↔
    f.Ancestor c a ∧ f.Ancestor c b ∧
      ∀ x, f.Ancestor x a → f.Ancestor x b → f.height x ≤ f.height c := by
  constructor
  · intro h
    obtain ⟨hca, hcb⟩ := findFork_ancestor h
    exact ⟨hca, hcb, fun x ha hb => findForkAux_height_le h ha hb⟩
  · rintro ⟨hca, hcb, hhigh⟩
    obtain ⟨x, hx⟩ := findFork_isSome hca hcb
    obtain ⟨hxa, hxb⟩ := findFork_ancestor hx
    have hcx := hca.of_height_le hxa (findForkAux_height_le hx hca hcb)
    rw [hx, hcx.eq_of_height (hhigh x hxa hxb)]

end Walks

/-! ## Connecting up a path -/

variable (f) in
/-- The nodes of the list lead from the first node to the last one. -/
inductive Links : α → List α → α → Prop
  | nil (a : α) : Links a [] a
  | cons {a b c : α} {l : List α} : f.prev b = some a → Links b l c → Links a (b :: l) c

variable {l : List α}

theorem Links.snoc (h : f.Links a l b) (hc : f.prev c = some b) : f.Links a (l ++ [c]) c := by
  induction h with
  | nil a => exact Links.cons hc (Links.nil c)
  | cons hprev _ ih => exact Links.cons hprev (ih hc)

theorem Links.height_le (h : f.Links a l b) : f.height a ≤ f.height b := by
  induction h with
  | nil a => exact le_rfl
  | cons hprev _ ih => exact (Nat.le_succ _).trans ((f.height_prev hprev).ge.trans ih)

theorem links_above [DecidableEq α] (h : f.Ancestor a b) : f.Links a (f.above a b).reverse b := by
  induction b using f.path_induction with
  | root b hb =>
    rcases ancestor_iff.mp h with rfl | ⟨p, hp, -⟩
    · rw [above_self]
      exact Links.nil a
    · simp [hb] at hp
  | step c b hb ih =>
    rcases ancestor_iff.mp h with rfl | ⟨p, hp, hac⟩
    · rw [above_self]
      exact Links.nil a
    · obtain rfl : p = c := Option.some.inj (hp.symm.trans hb)
      have hne : b ≠ a := by
        rintro rfl
        have hle := hac.height_le
        have hstep := f.height_prev hb
        omega
      rw [above_of_prev hne hb, List.reverse_cons]
      exact (ih hac).snoc hb

end Forest

end BitBay
