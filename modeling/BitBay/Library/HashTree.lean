import Mathlib.Data.List.Basic
import Mathlib.Tactic

/-!
# Hash trees

A binary tree whose inner nodes combine what stands at their children. A proof of a leaf lists
what stands beside the way from the leaf to the root; a verifier goes this way with one step
for each entry of the proof. It comes to the root when its steps agree with the tree, and comes
to the root from a leaf only when its steps do not collide with those of the tree.

The verifier has its own form of the nodes, and its step can fail.
-/
namespace BitBay

inductive HashTree (α : Type*) where
  | leaf (a : α)
  | node (left right : HashTree α)

namespace HashTree

variable {α β : Type*} (combine : α → α → α)

def root : HashTree α → α
  | leaf a => a
  | node left right => combine left.root right.root

def leaves : HashTree α → List α
  | leaf a => [a]
  | node left right => left.leaves ++ right.leaves

def pairs : HashTree α → List (α × α)
  | leaf _ => []
  | node left right => (left.root combine, right.root combine) :: (left.pairs ++ right.pairs)

/-- The way from a leaf to the root, with the roots of the trees beside it. -/
inductive Proof : HashTree α → α → List α → Prop
  | leaf (a : α) : Proof (leaf a) a []
  | left {left right : HashTree α} {a : α} {path : List α} (h : Proof left a path) :
      Proof (node left right) a (path ++ [right.root combine])
  | right {left right : HashTree α} {a : α} {path : List α} (h : Proof right a path) :
      Proof (node left right) a (path ++ [left.root combine])

variable {combine} {t l r : HashTree α} {a : α} {path : List α}

theorem root_mem (t : HashTree α) :
    t.root combine ∈ t.leaves ∨ ∃ p ∈ t.pairs combine, t.root combine = combine p.1 p.2 := by
  cases t with
  | leaf a => exact .inl List.mem_cons_self
  | node left right => exact .inr ⟨_, List.mem_cons_self, rfl⟩

theorem leaves_left_subset : l.leaves ⊆ (node l r).leaves := List.subset_append_left _ _

theorem leaves_right_subset : r.leaves ⊆ (node l r).leaves := List.subset_append_right _ _

theorem pairs_left_subset : l.pairs combine ⊆ (node l r).pairs combine :=
  fun _ hp => List.mem_cons_of_mem _ (List.mem_append_left _ hp)

theorem pairs_right_subset : r.pairs combine ⊆ (node l r).pairs combine :=
  fun _ hp => List.mem_cons_of_mem _ (List.mem_append_right _ hp)

/-! ## A verifier -/

section Verifier

variable (combine) (step : β → β → Option β) (f : α → β)

/-- The step above a node goes to its parent, whatever child it comes from. -/
def Agrees (t : HashTree α) : Prop :=
  ∀ p ∈ t.pairs combine, step (f p.1) (f p.2) = some (f (combine p.1 p.2)) ∧
    step (f p.2) (f p.1) = some (f (combine p.1 p.2))

def Steps (x : β) (proof : List β) (b q : β) : Prop :=
  ∃ before after, proof = before ++ q :: after ∧ before.foldlM step x = some b

variable {combine} {step f} {x : β} {proof : List β}

/-- Every proof of a leaf leads to the root. -/
theorem Proof.foldlM (h : Proof combine t a path) (hstep : t.Agrees combine step f) :
    (path.map f).foldlM step (f a) = some (f (t.root combine)) := by
  induction h with
  | leaf a => rfl
  | @left left right a path _ ih =>
    rw [List.map_append, List.foldlM_append, ih fun p hp => hstep p (pairs_left_subset hp)]
    simpa [root] using (hstep _ List.mem_cons_self).1
  | @right left right a path _ ih =>
    rw [List.map_append, List.foldlM_append, ih fun p hp => hstep p (pairs_right_subset hp)]
    simpa [root] using (hstep _ List.mem_cons_self).2

theorem Steps.append {b q : β} (h : Steps step x proof b q) (more : List β) :
    Steps step x (proof ++ more) b q := by
  obtain ⟨before, after, rfl, hbefore⟩ := h
  exact ⟨before, after ++ more, by simp, hbefore⟩

/-- A way that ends at the root started at a leaf or at an inner node, unless one of its steps
goes to a leaf, or to an inner node from beside the children. -/
theorem mem_of_foldlM
    (hleaf : ∀ a ∈ t.leaves, ∀ b q, Steps step x proof b q → step b q ≠ some (f a))
    (hnode : ∀ p ∈ t.pairs combine, ∀ b q, Steps step x proof b q →
      step b q = some (f (combine p.1 p.2)) → b = f p.1 ∨ b = f p.2)
    (h : proof.foldlM step x = some (f (t.root combine))) :
    (∃ a ∈ t.leaves, x = f a) ∨ ∃ p ∈ t.pairs combine, x = f (combine p.1 p.2) := by
  induction proof using List.reverseRecOn generalizing t with
  | nil =>
    have hx : x = f (t.root combine) := by simpa using h
    rcases t.root_mem with hroot | ⟨p, hp, hroot⟩
    · exact .inl ⟨_, hroot, hx⟩
    · exact .inr ⟨p, hp, by rw [hx, hroot]⟩
  | append_singleton before q ih =>
    rw [List.foldlM_append, Option.bind_eq_bind, Option.bind_eq_some_iff] at h
    obtain ⟨b, hbefore, hlast⟩ := h
    have hlast : step b q = some (f (t.root combine)) := by simpa using hlast
    have hsteps : Steps step x (before ++ [q]) b q := ⟨before, [], rfl, hbefore⟩
    cases t with
    | leaf a => exact absurd hlast (hleaf a List.mem_cons_self b q hsteps)
    | node left right =>
      rcases hnode _ List.mem_cons_self b q hsteps hlast with hb | hb
      · have hrest := ih (t := left)
          (fun a ha b' q' h' => hleaf a (leaves_left_subset ha) b' q' (h'.append _))
          (fun p hp b' q' h' => hnode p (pairs_left_subset hp) b' q' (h'.append _)) (hb ▸ hbefore)
        refine hrest.imp ?_ ?_
        · exact fun ⟨a, ha, hx⟩ => ⟨a, leaves_left_subset ha, hx⟩
        · exact fun ⟨p, hp, hx⟩ => ⟨p, pairs_left_subset hp, hx⟩
      · have hrest := ih (t := right)
          (fun a ha b' q' h' => hleaf a (leaves_right_subset ha) b' q' (h'.append _))
          (fun p hp b' q' h' => hnode p (pairs_right_subset hp) b' q' (h'.append _)) (hb ▸ hbefore)
        refine hrest.imp ?_ ?_
        · exact fun ⟨a, ha, hx⟩ => ⟨a, leaves_right_subset ha, hx⟩
        · exact fun ⟨p, hp, hx⟩ => ⟨p, pairs_right_subset hp, hx⟩

end Verifier

/-! ## Different children -/

/-- No two pairs of the tree collide, in whatever order they are combined. -/
def Injective (combine : α → α → α) (t : HashTree α) : Prop :=
  ∀ p ∈ t.pairs combine, ∀ q ∈ t.pairs combine, combine p.1 p.2 = combine q.1 q.2 →
    p = q ∨ p = q.swap

/-- No leaf stands for a pair of the tree. -/
def Separated (combine : α → α → α) (t : HashTree α) : Prop :=
  ∀ a ∈ t.leaves, ∀ p ∈ t.pairs combine, a ≠ combine p.1 p.2

/-- Two trees in a tree without collisions have different roots when their leaves differ. -/
theorem root_ne_of_disjoint (hinj : t.Injective combine) (hsep : t.Separated combine)
    {s s' : HashTree α} (hs : s.leaves ⊆ t.leaves) (hs' : s'.leaves ⊆ t.leaves)
    (hpairs : s.pairs combine ⊆ t.pairs combine) (hpairs' : s'.pairs combine ⊆ t.pairs combine)
    (hdisjoint : s.leaves.Disjoint s'.leaves) : s.root combine ≠ s'.root combine := by
  induction s generalizing s' with
  | leaf a =>
    cases s' with
    | leaf b =>
      rintro rfl
      exact hdisjoint List.mem_cons_self List.mem_cons_self
    | node left' right' => exact hsep a (hs List.mem_cons_self) _ (hpairs' List.mem_cons_self)
  | node left right ihl ihr =>
    cases s' with
    | leaf b => exact (hsep b (hs' List.mem_cons_self) _ (hpairs List.mem_cons_self)).symm
    | node left' right' =>
      intro heq
      have hl := List.Subset.trans leaves_left_subset hs
      have hpl := List.Subset.trans pairs_left_subset hpairs
      have hleft := @ihl left' hl (List.Subset.trans leaves_left_subset hs') hpl
        (List.Subset.trans pairs_left_subset hpairs')
        (fun a ha ha' => hdisjoint (leaves_left_subset ha) (leaves_left_subset ha'))
      have hcross := @ihl right' hl (List.Subset.trans leaves_right_subset hs') hpl
        (List.Subset.trans pairs_right_subset hpairs')
        (fun a ha ha' => hdisjoint (leaves_left_subset ha) (leaves_right_subset ha'))
      rcases hinj _ (hpairs List.mem_cons_self) _ (hpairs' List.mem_cons_self) heq with h | h
      · exact hleft (congrArg Prod.fst h)
      · exact hcross (congrArg Prod.fst h)

/-- Different leaves make the children of every node different. -/
theorem pairs_ne (hinj : t.Injective combine) (hsep : t.Separated combine)
    (hnodup : t.leaves.Nodup) : ∀ p ∈ t.pairs combine, p.1 ≠ p.2 := by
  suffices hsub : ∀ s : HashTree α, s.leaves ⊆ t.leaves → s.pairs combine ⊆ t.pairs combine →
      s.leaves.Nodup → ∀ p ∈ s.pairs combine, p.1 ≠ p.2 from
    hsub t (List.Subset.refl _) (List.Subset.refl _) hnodup
  intro s hleaves hpairs hnodup
  induction s with
  | leaf a => exact fun p hp => absurd hp List.not_mem_nil
  | node left right ihl ihr =>
    obtain ⟨hl, hr, hdisjoint⟩ := List.nodup_append'.mp hnodup
    have hll := List.Subset.trans leaves_left_subset hleaves
    have hlr := List.Subset.trans leaves_right_subset hleaves
    have hpl := List.Subset.trans pairs_left_subset hpairs
    have hpr := List.Subset.trans pairs_right_subset hpairs
    intro p hp
    rw [pairs, List.mem_cons, List.mem_append] at hp
    rcases hp with rfl | hp | hp
    · exact root_ne_of_disjoint hinj hsep hll hlr hpl hpr hdisjoint
    · exact ihl hll hpl hl p hp
    · exact ihr hlr hpr hr p hp

end HashTree

end BitBay
