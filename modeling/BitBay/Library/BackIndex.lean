import Mathlib.Data.List.Nodup
import Mathlib.Tactic

/-!
# Lists with back pointers

A list whose elements know their own places. An element is taken out in constant time: it is
swapped with the last one, whose place is corrected, and the last place is dropped.
-/
namespace BitBay

open List

variable {I : Type*}

/-- `place` names the place of every element, and of nothing else. -/
def BackIndexed (l : List I) (place : I → Option ℕ) : Prop :=
  ∀ (p : ℕ) (i : I), l[p]? = some i ↔ place i = some p

namespace BackIndexed

variable {l : List I} {place place' : I → Option ℕ} {i j : I} {p q : ℕ}

theorem nil (h : ∀ i, place i = none) : BackIndexed [] place := fun p i => by simp [h]

theorem mem_iff (h : BackIndexed l place) : i ∈ l ↔ (place i).isSome = true := by
  rw [mem_iff_getElem?, Option.isSome_iff_exists]
  exact exists_congr fun p => h p i

theorem nodup (h : BackIndexed l place) : l.Nodup := by
  refine nodup_iff_getElem?_ne_getElem?.mpr fun p q hpq hq heq => hpq.ne ?_
  have hp : l[p]? = some l[p] := getElem?_eq_getElem (hpq.trans hq)
  have h1 := (h p _).mp hp
  have h2 := (h q _).mp (heq ▸ hp)
  exact Option.some.inj (h1.symm.trans h2)

theorem lt_length (h : BackIndexed l place) (hi : place i = some p) : p < l.length :=
  (List.getElem?_eq_some_iff.mp ((h p i).mpr hi)).1

theorem inj (h : BackIndexed l place) (hi : place i = some p) (hj : place j = some p) : i = j :=
  Option.some.inj (((h p i).mpr hi).symm.trans ((h p j).mpr hj))

theorem congr (h : BackIndexed l place) (heq : ∀ i, place' i = place i) : BackIndexed l place' :=
  fun p i => by rw [heq]; exact h p i

/-- A new element behind the last one. -/
theorem push (h : BackIndexed l place) (hi : place i = none) (hnew : place' i = some l.length)
    (hold : ∀ x, x ≠ i → place' x = place x) : BackIndexed (l ++ [i]) place' := by
  intro p x
  rw [getElem?_append]
  by_cases hx : x = i
  · subst hx
    rw [hnew, Option.some.injEq]
    split_ifs with hp
    · have hnot : l[p]? ≠ some x := fun hl => by simp [(h p x).mp hl] at hi
      exact iff_of_false hnot (by omega)
    · rw [getElem?_singleton]
      split_ifs <;> simp <;> omega
  · rw [hold x hx, ← h p x]
    split_ifs with hp
    · rfl
    · rw [getElem?_singleton, getElem?_eq_none (not_lt.mp hp)]
      split_ifs <;> simp [Ne.symm hx]

/-- Two elements change places. -/
theorem swap (h : BackIndexed l place) (hi : place i = some p) (hj : place j = some q)
    (hinew : place' i = some q) (hjnew : place' j = some p)
    (hold : ∀ x, x ≠ i → x ≠ j → place' x = place x) :
    BackIndexed ((l.set p j).set q i) place' := by
  have hp := h.lt_length hi
  have hq := h.lt_length hj
  intro r x
  rw [getElem?_set, length_set, getElem?_set]
  by_cases hxi : x = i
  · subst hxi
    rw [hinew, Option.some.injEq]
    split_ifs with hqr hpr
    · simp [hqr]
    · refine iff_of_false (fun heq => hqr ?_) hqr
      cases heq
      rw [← hpr]
      exact Option.some.inj (hj.symm.trans hi)
    · refine iff_of_false (fun heq => hpr ?_) hqr
      exact Option.some.inj (hi.symm.trans ((h r x).mp heq))
  by_cases hxj : x = j
  · subst hxj
    rw [hjnew, Option.some.injEq]
    split_ifs with hqr hpr
    · refine iff_of_false (fun heq => hxi (Option.some.inj heq).symm) fun hpr => hxi ?_
      exact h.inj (hj.trans (by rw [hqr, hpr])) hi
    · simp [hpr]
    · refine iff_of_false (fun heq => hqr ?_) hpr
      exact Option.some.inj (hj.symm.trans ((h r x).mp heq))
  · rw [hold x hxi hxj]
    split_ifs with hqr hpr
    · refine iff_of_false (fun heq => hxi (Option.some.inj heq).symm) fun heq => hxj ?_
      exact h.inj heq (hqr ▸ hj)
    · refine iff_of_false (fun heq => hxj (Option.some.inj heq).symm) fun heq => hxi ?_
      exact h.inj heq (hpr ▸ hi)
    · exact h r x

/-- The last element leaves. -/
theorem pop (h : BackIndexed l place) (hi : place i = some (l.length - 1)) (hnew : place' i = none)
    (hold : ∀ x, x ≠ i → place' x = place x) : BackIndexed l.dropLast place' := by
  intro p x
  have hlt := h.lt_length hi
  rw [dropLast_eq_take, getElem?_take]
  by_cases hx : x = i
  · subst hx
    rw [hnew]
    refine iff_of_false ?_ (by simp)
    split_ifs with hp
    · intro heq
      have heq := (h p x).mp heq
      rw [hi, Option.some.injEq] at heq
      omega
    · simp
  · rw [hold x hx, ← h p x]
    split_ifs with hp
    · rfl
    · refine iff_of_false (by simp) fun heq => hx ?_
      have hplt := (List.getElem?_eq_some_iff.mp heq).1
      have hlast : p = l.length - 1 := by omega
      exact h.inj ((h p x).mp heq) (hlast ▸ hi)

end BackIndexed

end BitBay
