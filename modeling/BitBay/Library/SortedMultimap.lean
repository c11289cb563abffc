import Mathlib.Order.Basic
import Mathlib.Data.List.Sort
import Mathlib.Tactic

/-!
# Ordered multimaps

A multimap kept as a list of entries in the order of their keys, the way an ordered container
iterates. A new entry goes behind the entries of its key. Iterators are places in the list, and
`find` gives the first entry of a key.

What an operation does to the entries is said up to their order: `perm_insert` and `perm_eraseAt`
carry membership, size and repetitions at once.
-/
namespace BitBay

/-- Entries in the order of their keys. -/
structure SortedMultimap (K V : Type*) [LinearOrder K] where
  entries : List (K × V)
  sorted : (entries.map Prod.fst).Pairwise (· ≤ ·)

namespace SortedMultimap

variable {K V : Type*} [LinearOrder K]

def insertEntry (k : K) (v : V) (l : List (K × V)) : List (K × V) :=
  l.orderedInsert (fun e e' => e.1 < e'.1) (k, v)

theorem perm_insertEntry (k : K) (v : V) (l : List (K × V)) :
    (insertEntry k v l).Perm ((k, v) :: l) := List.perm_orderedInsert _ _ l

theorem sorted_insertEntry (k : K) (v : V) {l : List (K × V)}
    (h : (l.map Prod.fst).Pairwise (· ≤ ·)) :
    ((insertEntry k v l).map Prod.fst).Pairwise (· ≤ ·) := by
  induction l with
  | nil => simp [insertEntry]
  | cons e rest ih =>
    obtain ⟨hhead, hrest⟩ := List.pairwise_cons.mp h
    rw [insertEntry, List.orderedInsert_cons]
    split_ifs with hlt
    · refine List.pairwise_cons.mpr ⟨fun x hx => ?_, h⟩
      rcases List.mem_cons.mp hx with rfl | hx
      · exact le_of_lt hlt
      · exact (le_of_lt hlt).trans (hhead x hx)
    · refine List.pairwise_cons.mpr ⟨fun x hx => ?_, ih hrest⟩
      have hperm := (perm_insertEntry k v rest).map Prod.fst
      rcases List.mem_cons.mp (hperm.mem_iff.mp hx) with rfl | hx
      · exact not_lt.mp hlt
      · exact hhead x hx

instance : EmptyCollection (SortedMultimap K V) := ⟨⟨[], List.Pairwise.nil⟩⟩

def insert (m : SortedMultimap K V) (k : K) (v : V) : SortedMultimap K V :=
  ⟨insertEntry k v m.entries, sorted_insertEntry k v m.sorted⟩

def size (m : SortedMultimap K V) : ℕ := m.entries.length

def count (m : SortedMultimap K V) (k : K) : ℕ := m.entries.countP fun e => e.1 = k

def find (m : SortedMultimap K V) (k : K) : Option ℕ := m.entries.findIdx? fun e => e.1 = k

def equalRange (m : SortedMultimap K V) (k : K) : List V :=
  (m.entries.filter fun e => e.1 = k).map Prod.snd

/-- The map without the entries of a key. -/
def eraseKey (m : SortedMultimap K V) (k : K) : SortedMultimap K V :=
  ⟨m.entries.filter fun e => e.1 ≠ k, m.sorted.sublist (List.filter_sublist.map _)⟩

/-- The map without the entry at a place. -/
def eraseAt (m : SortedMultimap K V) (it : ℕ) : SortedMultimap K V :=
  ⟨m.entries.eraseIdx it, m.sorted.sublist ((List.eraseIdx_sublist _ _).map _)⟩

variable {m : SortedMultimap K V} {k : K} {v : V} {e : K × V} {it : ℕ}

theorem perm_insert : (m.insert k v).entries.Perm ((k, v) :: m.entries) :=
  perm_insertEntry k v m.entries

@[simp] theorem mem_entries_insert : e ∈ (m.insert k v).entries ↔ e = (k, v) ∨ e ∈ m.entries := by
  rw [perm_insert.mem_iff, List.mem_cons]

@[simp] theorem mem_entries_empty : e ∉ (∅ : SortedMultimap K V).entries := List.not_mem_nil

@[simp] theorem mem_equalRange : v ∈ m.equalRange k ↔ (k, v) ∈ m.entries := by
  simp only [equalRange, List.mem_map, List.mem_filter]
  grind

@[simp] theorem mem_entries_eraseKey : e ∈ (m.eraseKey k).entries ↔ e ∈ m.entries ∧ e.1 ≠ k := by
  simp [eraseKey]

theorem perm_eraseAt (h : m.entries[it]? = some e) :
    m.entries.Perm (e :: (m.eraseAt it).entries) := by
  obtain ⟨hlt, rfl⟩ := List.getElem?_eq_some_iff.mp h
  exact (List.getElem_cons_eraseIdx_perm hlt).symm

theorem getElem?_of_find (h : m.find k = some it) : ∃ v, m.entries[it]? = some (k, v) := by
  obtain ⟨hlt, hkey, -⟩ := List.findIdx?_eq_some_iff_getElem.mp h
  have hk : m.entries[it].1 = k := of_decide_eq_true hkey
  exact ⟨m.entries[it].2, by rw [List.getElem?_eq_getElem hlt, ← hk]⟩

end SortedMultimap
end BitBay
