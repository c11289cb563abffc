import Mathlib.Algebra.BigOperators.Group.Finset.Basic
import Mathlib.Order.Basic
import Mathlib.Tactic

/-!
# Ordered maps

A finite map kept as a list of entries with strictly increasing keys, the way an
ordered container iterates. A key without an entry reads as the default value,
and `modify` creates the entry it needs.

`SortedMap.sum` adds a weight over all entries; `sum_modify` is the accounting
rule used by every ledger kept in such a map.
-/
namespace BitBay

/-- Entries in the order of their keys, no key twice. -/
structure SortedMap (K V : Type*) [LinearOrder K] where
  entries : List (K × V)
  sorted : (entries.map Prod.fst).Pairwise (· < ·)

namespace SortedMap

variable {K V M : Type*} [LinearOrder K]

def insertEntry (k : K) (v : V) : List (K × V) → List (K × V)
  | [] => [(k, v)]
  | e :: rest =>
    if k < e.1 then (k, v) :: e :: rest
    else if k = e.1 then (k, v) :: rest
    else e :: insertEntry k v rest

theorem mem_keys_insertEntry (k x : K) (v : V) (l : List (K × V)) :
    x ∈ (insertEntry k v l).map Prod.fst ↔ x = k ∨ x ∈ l.map Prod.fst := by
  induction l with
  | nil => simp [insertEntry]
  | cons e rest ih =>
    unfold insertEntry
    split_ifs with hlt heq
    · simp
    · simp [heq]
    · simp only [List.map_cons, List.mem_cons, ih]
      tauto

theorem sorted_insertEntry (k : K) (v : V) {l : List (K × V)}
    (h : (l.map Prod.fst).Pairwise (· < ·)) :
    ((insertEntry k v l).map Prod.fst).Pairwise (· < ·) := by
  induction l with
  | nil => simp [insertEntry]
  | cons e rest ih =>
    obtain ⟨hhead, hrest⟩ := List.pairwise_cons.mp h
    unfold insertEntry
    split_ifs with hlt heq
    · refine List.pairwise_cons.mpr ⟨fun x hx => ?_, h⟩
      rcases List.mem_cons.mp hx with rfl | hx
      · exact hlt
      · exact hlt.trans (hhead x hx)
    · exact List.pairwise_cons.mpr ⟨fun x hx => heq ▸ hhead x hx, hrest⟩
    · refine List.pairwise_cons.mpr ⟨fun x hx => ?_, ih hrest⟩
      rcases (mem_keys_insertEntry k x v rest).mp hx with rfl | hx
      · exact lt_of_le_of_ne (not_lt.mp hlt) (Ne.symm heq)
      · exact hhead x hx

def find (x : K) : List (K × V) → Option V
  | [] => none
  | e :: rest => if x = e.1 then some e.2 else find x rest

theorem find_eq_none {x : K} {l : List (K × V)} (h : ∀ e ∈ l, x ≠ e.1) : find x l = none := by
  induction l with
  | nil => rfl
  | cons e rest ih =>
    rw [find, if_neg (h e List.mem_cons_self)]
    exact ih fun e' he' => h e' (List.mem_cons_of_mem e he')

theorem find_insertEntry (k x : K) (v : V) (l : List (K × V)) :
    find x (insertEntry k v l) = if x = k then some v else find x l := by
  induction l with
  | nil => rfl
  | cons e rest ih =>
    rcases lt_trichotomy k e.1 with hlt | heq | hgt
    · simp [insertEntry, find, hlt]
    · by_cases hx : x = k <;> simp [insertEntry, find, ← heq, hx]
    · have hne : k ≠ e.1 := hgt.ne'
      by_cases hx : x = e.1 <;> simp [insertEntry, find, hgt.not_gt, hne, ih, hx, hne.symm]

theorem insertEntry_insertEntry (k : K) (v v' : V) (l : List (K × V)) :
    insertEntry k v' (insertEntry k v l) = insertEntry k v' l := by
  induction l with
  | nil => simp [insertEntry]
  | cons e rest ih =>
    rcases lt_trichotomy k e.1 with hlt | heq | hgt
    · simp [insertEntry, hlt]
    · simp [insertEntry, ← heq]
    · simp [insertEntry, hgt.not_gt, hgt.ne', ih]

/-! ## The operations -/

def empty : SortedMap K V := ⟨[], List.Pairwise.nil⟩

instance : EmptyCollection (SortedMap K V) := ⟨empty⟩

instance : Inhabited (SortedMap K V) := ⟨∅⟩

def keys (m : SortedMap K V) : List K := m.entries.map Prod.fst

def count (m : SortedMap K V) : ℕ := m.entries.length

instance : Membership K (SortedMap K V) := ⟨fun m k => k ∈ m.keys⟩

instance (m : SortedMap K V) (k : K) : Decidable (k ∈ m) :=
  inferInstanceAs (Decidable (k ∈ m.keys))

def insert (m : SortedMap K V) (k : K) (v : V) : SortedMap K V :=
  ⟨insertEntry k v m.entries, sorted_insertEntry k v m.sorted⟩

/-- The value at `k`, or the default value where there is none. -/
def get [Inhabited V] (m : SortedMap K V) (k : K) : V := (find k m.entries).getD default

/-- Change the value at `k`, starting from the default value where there is none. -/
def modify [Inhabited V] (m : SortedMap K V) (k : K) (g : V → V) : SortedMap K V :=
  m.insert k (g (m.get k))

def sum [AddCommMonoid M] (w : V → M) (m : SortedMap K V) : M :=
  (m.entries.map (fun e => w e.2)).sum

@[simp] theorem not_mem_empty (k : K) : ¬ k ∈ (∅ : SortedMap K V) := List.not_mem_nil

@[simp] theorem sum_empty [AddCommMonoid M] (w : V → M) :
    (∅ : SortedMap K V).sum w = 0 := rfl

theorem mem_insert (m : SortedMap K V) (k x : K) (v : V) :
    x ∈ m.insert k v ↔ x = k ∨ x ∈ m := mem_keys_insertEntry k x v m.entries

theorem insert_insert (m : SortedMap K V) (k : K) (v v' : V) :
    (m.insert k v).insert k v' = m.insert k v' := by
  simp [insert, insertEntry_insertEntry]

section Default

variable [Inhabited V]

@[simp] theorem get_empty (k : K) : (∅ : SortedMap K V).get k = default := rfl

theorem get_insert (m : SortedMap K V) (k x : K) (v : V) :
    (m.insert k v).get x = if x = k then v else m.get x := by
  unfold get insert
  rw [find_insertEntry]
  split_ifs <;> rfl

@[simp] theorem get_insert_self (m : SortedMap K V) (k : K) (v : V) :
    (m.insert k v).get k = v := by simp [get_insert]

/-- A property of all values, after one of them was replaced. -/
theorem forall_get_insert {P : K → V → Prop} {m : SortedMap K V} {k : K} {v : V}
    (hm : ∀ x, P x (m.get x)) (hv : P k v) (x : K) : P x ((m.insert k v).get x) := by
  rw [get_insert]
  split_ifs with hx
  · exact hx ▸ hv
  · exact hm x

theorem get_modify (m : SortedMap K V) (k x : K) (g : V → V) :
    (m.modify k g).get x = if x = k then g (m.get k) else m.get x := get_insert m k x _

@[simp] theorem get_modify_self (m : SortedMap K V) (k : K) (g : V → V) :
    (m.modify k g).get k = g (m.get k) := by simp [get_modify]

theorem mem_modify (m : SortedMap K V) (k x : K) (g : V → V) :
    x ∈ m.modify k g ↔ x = k ∨ x ∈ m := mem_insert m k x _

theorem get_of_not_mem {m : SortedMap K V} {k : K} (h : k ∉ m) : m.get k = default := by
  have hnone : find k m.entries = none :=
    find_eq_none fun e he hk => h (hk ▸ List.mem_map_of_mem he)
  simp [get, hnone]

theorem get_of_mem_entries {m : SortedMap K V} {e : K × V} (he : e ∈ m.entries) :
    m.get e.1 = e.2 := by
  obtain ⟨l, hl⟩ := m
  simp only [get] at he ⊢
  induction l with
  | nil => cases he
  | cons e' rest ih =>
    obtain ⟨hhead, hrest⟩ := List.pairwise_cons.mp hl
    rcases List.mem_cons.mp he with rfl | he
    · simp [find]
    · have hne : e.1 ≠ e'.1 := (hhead _ (List.mem_map_of_mem he)).ne'
      simpa [find, hne] using ih hrest he

/-- A property of all values, after one of them was changed. -/
theorem forall_get_modify {P : K → V → Prop} {m : SortedMap K V} {k : K} {g : V → V}
    (hm : ∀ x, P x (m.get x)) (hg : P k (m.get k) → P k (g (m.get k))) (x : K) :
    P x ((m.modify k g).get x) := forall_get_insert hm (hg (hm k)) x

end Default

/-! ## Accounting -/

section Sum

variable [AddCommGroup M]

private theorem sum_insertEntry (w : V → M) (k : K) (v : V) {l : List (K × V)}
    (h : (l.map Prod.fst).Pairwise (· < ·)) :
    ((insertEntry k v l).map (fun e => w e.2)).sum =
      (l.map (fun e => w e.2)).sum + (w v - ((find k l).map w).getD 0) := by
  induction l with
  | nil => simp [insertEntry, find]
  | cons e rest ih =>
    obtain ⟨hhead, hrest⟩ := List.pairwise_cons.mp h
    unfold insertEntry
    split_ifs with hlt heq
    · have hnone : find k (e :: rest) = none := by
        refine find_eq_none fun e' he' => ?_
        rcases List.mem_cons.mp he' with rfl | he'
        · exact hlt.ne
        · exact (hlt.trans (hhead _ (List.mem_map_of_mem he'))).ne
      simp only [hnone, List.map_cons, List.sum_cons, Option.map_none, Option.getD_none]
      abel
    · simp only [find, if_pos heq, List.map_cons, List.sum_cons, Option.map_some, Option.getD_some]
      abel
    · simp only [find, if_neg heq, List.map_cons, List.sum_cons, ih hrest]
      abel

/-- Writing one value changes the total by the difference of the weights. -/
theorem sum_insert [Inhabited V] {w : V → M} (hw : w default = 0) (m : SortedMap K V) (k : K)
    (v : V) : (m.insert k v).sum w = m.sum w + (w v - w (m.get k)) := by
  have hget : ((find k m.entries).map w).getD 0 = w (m.get k) := by
    unfold get
    cases find k m.entries <;> simp [hw]
  rw [← hget]
  exact sum_insertEntry w k v m.sorted

theorem sum_modify [Inhabited V] {w : V → M} (hw : w default = 0) (m : SortedMap K V) (k : K)
    (g : V → V) : (m.modify k g).sum w = m.sum w + (w (g (m.get k)) - w (m.get k)) :=
  sum_insert hw m k _

/-- The same for a total over a fixed set of keys, present or not. -/
theorem sum_get_insert [Inhabited V] (w : V → M) (m : SortedMap K V) {k : K} {s : Finset K}
    (hk : k ∈ s) (v : V) :
    ∑ x ∈ s, w ((m.insert k v).get x) = ∑ x ∈ s, w (m.get x) + (w v - w (m.get k)) := by
  have hrest : ∑ x ∈ s.erase k, w ((m.insert k v).get x) = ∑ x ∈ s.erase k, w (m.get x) :=
    Finset.sum_congr rfl fun x hx => by simp [get_insert, Finset.ne_of_mem_erase hx]
  rw [← Finset.add_sum_erase s _ hk, ← Finset.add_sum_erase s (fun x => w (m.get x)) hk, hrest,
    get_insert_self]
  abel

/-- What holds of every weight and is closed under addition holds of the total. -/
theorem sum_induction [Inhabited V] {P : M → Prop} {w : V → M} {m : SortedMap K V} (hzero : P 0)
    (hadd : ∀ a b, P a → P b → P (a + b)) (hm : ∀ k, P (w (m.get k))) : P (m.sum w) := by
  have hall : ∀ e ∈ m.entries, P (w e.2) := fun e he => get_of_mem_entries he ▸ hm e.1
  unfold sum
  generalize m.entries = l at hall
  induction l with
  | nil => exact hzero
  | cons e rest ih =>
    exact hadd _ _ (hall e List.mem_cons_self)
      (ih fun e' he' => hall e' (List.mem_cons_of_mem e he'))

end Sum

end SortedMap

end BitBay
