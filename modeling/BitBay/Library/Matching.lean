import Mathlib.Tactic
import Mathlib.Data.List.Forall2

/-!
# Greedy matching in order

Elements of one list are matched with elements of another, both in their order; elements of the
second may be left out. It is enough to try once and never go back: an element takes the first
partner that fits. The search may also stop as soon as fewer partners than elements are left.
-/
namespace BitBay.Matching

open List

variable {α β : Type} {R : α → β → Prop}

theorem length_le_of_sublistForall₂ {xs : List α} {ys : List β} (h : SublistForall₂ R xs ys) :
    xs.length ≤ ys.length := by
  induction h with
  | nil => exact Nat.zero_le _
  | cons _ _ ih => exact Nat.succ_le_succ ih
  | cons_right _ ih => exact ih.trans (Nat.le_succ _)

/-- The elements behind the first have a matching with the same partners. -/
theorem SublistForall₂.tail {x : α} {xs : List α} {ys : List β}
    (h : SublistForall₂ R (x :: xs) ys) : SublistForall₂ R xs ys := by
  generalize hl : x :: xs = l at h
  induction h with
  | nil => cases hl
  | cons _ h _ =>
    cases hl
    exact .cons_right h
  | cons_right _ ih => exact .cons_right (ih hl)

/-- Taking the first partner that fits loses nothing. -/
theorem sublistForall₂_cons_of_rel {x : α} {y : β} {xs : List α} {ys : List β} (hxy : R x y) :
    SublistForall₂ R (x :: xs) (y :: ys) ↔ SublistForall₂ R xs ys := by
  refine ⟨fun h => ?_, fun h => .cons hxy h⟩
  cases h with
  | cons _ h => exact h
  | cons_right h => exact SublistForall₂.tail h

/-- A partner that does not fit is left out. -/
theorem sublistForall₂_cons_of_not_rel {x : α} {y : β} {xs : List α} {ys : List β}
    (hxy : ¬R x y) : SublistForall₂ R (x :: xs) (y :: ys) ↔ SublistForall₂ R (x :: xs) ys := by
  refine ⟨fun h => ?_, fun h => .cons_right h⟩
  cases h with
  | cons h _ => exact absurd h hxy
  | cons_right h => exact h

/-- What is matched has a partner. -/
theorem exists_of_mem_sublistForall₂ {xs : List α} {ys : List β} (h : SublistForall₂ R xs ys)
    {x : α} (hx : x ∈ xs) : ∃ y ∈ ys, R x y := by
  induction h with
  | nil => cases hx
  | @cons a b xs ys hab _ ih =>
    rcases mem_cons.mp hx with rfl | hrest
    · exact ⟨b, mem_cons_self, hab⟩
    · obtain ⟨y, hy, hxy⟩ := ih hrest
      exact ⟨y, mem_cons_of_mem _ hy, hxy⟩
  | cons_right _ ih =>
    obtain ⟨y, hy, hxy⟩ := ih hx
    exact ⟨y, mem_cons_of_mem _ hy, hxy⟩

theorem exists_of_mem_forall₂ {xs : List α} {ys : List β} (h : Forall₂ R xs ys) {y : β}
    (hy : y ∈ ys) : ∃ x ∈ xs, R x y := by
  induction h with
  | nil => cases hy
  | @cons a b xs ys hab _ ih =>
    rcases mem_cons.mp hy with rfl | hrest
    · exact ⟨a, mem_cons_self, hab⟩
    · obtain ⟨x, hx, hxy⟩ := ih hrest
      exact ⟨x, mem_cons_of_mem _ hx, hxy⟩

/-- A matching with a relation that partners from the list also have. -/
theorem forall₂_of_mem {S : α → β → Prop} {xs : List α} {ys : List β} (h : Forall₂ R xs ys)
    (himp : ∀ x, ∀ y ∈ ys, R x y → S x y) : Forall₂ S xs ys := by
  induction h with
  | nil => exact .nil
  | cons hxy _ ih =>
    exact .cons (himp _ _ mem_cons_self hxy) (ih fun x y hy => himp x y (mem_cons_of_mem _ hy))

/-- What a partial function finds is matched with where it finds it. -/
theorem forall₂_filterMap {f : β → Option α} {ys : List β}
    (h : ∀ y ∈ ys, ∀ x, f y = some x → R x y) :
    Forall₂ R (ys.filterMap f) (ys.filter fun y => (f y).isSome) := by
  induction ys with
  | nil => exact .nil
  | cons y ys ih =>
    have hrest := ih fun y' hy' => h y' (mem_cons_of_mem _ hy')
    cases hy : f y with
    | none =>
      rw [filterMap_cons_none hy, filter_cons_of_neg (by simp [hy])]
      exact hrest
    | some x =>
      rw [filterMap_cons_some hy, filter_cons_of_pos (by simp [hy])]
      exact .cons (h y mem_cons_self x hy) hrest

/-- A matching of the lists backwards. -/
theorem sublistForall₂_reverse {xs : List α} {ys : List β} :
    SublistForall₂ R xs.reverse ys.reverse ↔ SublistForall₂ R xs ys := by
  have hback {xs : List α} {ys : List β} (h : SublistForall₂ R xs ys) :
      SublistForall₂ R xs.reverse ys.reverse := by
    obtain ⟨l, hmatch, hsub⟩ := sublistForall₂_iff.mp h
    exact sublistForall₂_iff.mpr ⟨l.reverse, rel_reverse hmatch, hsub.reverse⟩
  refine ⟨fun h => ?_, hback⟩
  have hxs := hback h
  rwa [reverse_reverse, reverse_reverse] at hxs

end BitBay.Matching
