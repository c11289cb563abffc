import Mathlib.Data.Fintype.Basic
import Mathlib.Data.Finset.Card
import Mathlib.Data.List.FinRange
import Mathlib.Tactic

/-!
# Tables of buckets

Buckets with places. An item may stand in several buckets, in each of them at one place of its
own, so a bucket either holds the item once or not at all, and the item's references are the
buckets that hold it.
-/
namespace BitBay

variable {B P I : Type*} {vv : B → P → Option I} {home : B → P} {b : B} {p : P} {i : I}
  {x : Option I}

section Cells

variable [DecidableEq B] [DecidableEq P]

def setCell (vv : B → P → Option I) (b : B) (p : P) (x : Option I) : B → P → Option I :=
  fun b' p' => if b' = b ∧ p' = p then x else vv b' p'

@[simp] theorem setCell_self : setCell vv b p x b p = x := by simp [setCell]

theorem setCell_of_ne {b' : B} {p' : P} (h : ¬(b' = b ∧ p' = p)) :
    setCell vv b p x b' p' = vv b' p' := by simp [setCell, h]

theorem setCell_eq_some {b' : B} {p' : P} (h : setCell vv b p x b' p' = some i) :
    (b' = b ∧ p' = p ∧ x = some i) ∨ ¬(b' = b ∧ p' = p) ∧ vv b' p' = some i := by
  unfold setCell at h
  split_ifs at h with hat
  · exact .inl ⟨hat.1, hat.2, h⟩
  · exact .inr ⟨hat, h⟩

end Cells

section References

variable [Fintype B] [DecidableEq I]

def references (vv : B → P → Option I) (home : B → P) (i : I) : Finset B :=
  Finset.univ.filter fun b => vv b (home b) = some i

@[simp] theorem mem_references : b ∈ references vv home i ↔ vv b (home b) = some i := by
  simp [references]

variable [DecidableEq B] [DecidableEq P]

/-- A place that neither held the item nor does so now. -/
theorem references_setCell_of_ne (hold : vv b p ≠ some i) (hnew : x ≠ some i) :
    references (setCell vv b p x) home i = references vv home i := by
  ext b'
  simp only [mem_references]
  by_cases hat : b' = b ∧ home b' = p
  · obtain ⟨rfl, rfl⟩ := hat
    simp [hold, hnew]
  · rw [setCell_of_ne hat]

theorem references_enter :
    references (setCell vv b (home b) (some i)) home i = insert b (references vv home i) := by
  ext b'
  by_cases hb : b' = b
  · subst hb
    simp
  · simp [hb, setCell_of_ne fun hat => hb hat.1]

theorem references_leave :
    references (setCell vv b (home b) none) home i = (references vv home i).erase b := by
  ext b'
  by_cases hb : b' = b
  · subst hb
    simp
  · simp [hb, setCell_of_ne fun hat => hb hat.1]

end References

section Places

variable {m n : ℕ} {vv : Fin m → Fin n → Option I}

def places (m n : ℕ) : List (Fin m × Fin n) := (List.finRange m).product (List.finRange n)

theorem nodup_places (m n : ℕ) : (places m n).Nodup :=
  (List.nodup_finRange m).product (List.nodup_finRange n)

theorem mem_places (c : Fin m × Fin n) : c ∈ places m n := by
  obtain ⟨b, p⟩ := c
  simp [places]

def cells (vv : Fin m → Fin n → Option I) : List I :=
  (places m n).filterMap fun c => vv c.1 c.2

theorem mem_cells : i ∈ cells vv ↔ ∃ b p, vv b p = some i := by
  simp [cells, places]

/-- An item stands in as many places as it has references. -/
theorem count_cells [DecidableEq I] {home : Fin m → Fin n}
    (hhome : ∀ b p, vv b p = some i → p = home b) :
    (cells vv).count i = (references vv home i).card := by
  have hcount : (cells vv).count i =
      ((places m n).filter fun c => vv c.1 c.2 = some i).length := by
    rw [cells, List.count_filterMap, List.countP_eq_length_filter]
    simp only [beq_eq_decide]
  have hnodup := (nodup_places m n).filter fun c => vv c.1 c.2 = some i
  have himage : ((places m n).filter fun c => vv c.1 c.2 = some i).toFinset =
      (references vv home i).image fun b => (b, home b) := by
    ext ⟨b, p⟩
    simp only [List.mem_toFinset, List.mem_filter, decide_eq_true_eq, Finset.mem_image,
      mem_references, Prod.mk.injEq]
    constructor
    · rintro ⟨-, hcell⟩
      obtain rfl := hhome b p hcell
      exact ⟨b, hcell, rfl, rfl⟩
    · rintro ⟨b, hcell, rfl, rfl⟩
      exact ⟨by simp [places], hcell⟩
  rw [hcount, ← List.toFinset_card_of_nodup hnodup, himage,
    Finset.card_image_of_injective _ fun b b' h => (Prod.mk.inj h).1]

end Places

end BitBay
