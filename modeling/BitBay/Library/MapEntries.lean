import BitBay.Library.SortedMap

/-!
# Ordered maps and their entries

An ordered map is determined by what is found under its keys. So it can be taken apart into its
entries, in any order and with repetitions, and built again from them.
-/
namespace BitBay.SortedMap

variable {K V : Type*} [LinearOrder K]

def lookup (m : SortedMap K V) (k : K) : Option V := find k m.entries

/-- The map without its entry at `k`. -/
def erase (m : SortedMap K V) (k : K) : SortedMap K V :=
  ⟨m.entries.filter fun e => e.1 ≠ k, m.sorted.sublist (List.filter_sublist.map _)⟩

variable {m m' : SortedMap K V} {k x : K} {v : V}

@[simp] theorem lookup_empty (k : K) : (∅ : SortedMap K V).lookup k = none := rfl

@[simp] theorem lookup_insert (m : SortedMap K V) (k x : K) (v : V) :
    (m.insert k v).lookup x = if x = k then some v else m.lookup x :=
  find_insertEntry k x v m.entries

theorem find_eq_some_iff {l : List (K × V)} (h : (l.map Prod.fst).Pairwise (· < ·)) :
    find k l = some v ↔ (k, v) ∈ l := by
  induction l with
  | nil => simp [find]
  | cons e rest ih =>
    obtain ⟨hhead, hrest⟩ := List.pairwise_cons.mp h
    rw [find, List.mem_cons]
    split_ifs with hk
    · have hout : (k, v) ∉ rest := fun hmem =>
        absurd (hhead k (List.mem_map_of_mem hmem)) (hk ▸ lt_irrefl _)
      rw [or_iff_left hout, Option.some.injEq, Prod.ext_iff]
      exact ⟨fun h => ⟨hk, h.symm⟩, fun h => h.2.symm⟩
    · rw [ih hrest]
      refine ⟨.inr, fun hmem => hmem.resolve_left fun heq => hk ?_⟩
      rw [← heq]

theorem lookup_eq_some_iff : m.lookup k = some v ↔ (k, v) ∈ m.entries :=
  find_eq_some_iff m.sorted

@[simp] theorem mem_entries_erase {e : K × V} :
    e ∈ (m.erase k).entries ↔ e ∈ m.entries ∧ e.1 ≠ k := by
  simp [erase]

@[simp] theorem lookup_erase (m : SortedMap K V) (k x : K) :
    (m.erase k).lookup x = if x = k then none else m.lookup x := by
  refine Option.ext fun v => ?_
  rw [lookup_eq_some_iff, mem_entries_erase, ← lookup_eq_some_iff]
  split_ifs with hx
  · simp [hx]
  · simp [hx]

theorem mem_entries_insert {e : K × V} :
    e ∈ (m.insert k v).entries ↔ e = (k, v) ∨ e ∈ m.entries ∧ e.1 ≠ k := by
  obtain ⟨x, w⟩ := e
  rw [← lookup_eq_some_iff, ← lookup_eq_some_iff, lookup_insert]
  split_ifs with hx
  · simp [hx, eq_comm]
  · simp [hx]

theorem pairwise_entries (m : SortedMap K V) : m.entries.Pairwise fun e e' => e.1 < e'.1 :=
  List.pairwise_map.mp m.sorted

/-- Entries in the order of their keys are determined by which there are. -/
theorem eq_of_pairwise_lt {l l' : List (K × V)} (hl : l.Pairwise fun e e' => e.1 < e'.1)
    (hl' : l'.Pairwise fun e e' => e.1 < e'.1) (hmem : ∀ e, e ∈ l ↔ e ∈ l') : l = l' := by
  have hnodup {l : List (K × V)} (h : l.Pairwise fun e e' => e.1 < e'.1) : l.Nodup :=
    h.imp fun hlt heq => absurd (heq ▸ hlt) (lt_irrefl _)
  have hperm := (List.perm_ext_iff_of_nodup (hnodup hl) (hnodup hl')).mpr hmem
  exact hperm.eq_of_pairwise (fun e e' _ _ hlt hgt => absurd hgt hlt.asymm) hl hl'

/-- Two maps in which the same is found are equal. -/
theorem ext_lookup (h : ∀ k, m.lookup k = m'.lookup k) : m = m' := by
  have hmem : ∀ e, e ∈ m.entries ↔ e ∈ m'.entries := fun ⟨k, v⟩ => by
    rw [← lookup_eq_some_iff, ← lookup_eq_some_iff, h]
  have heq := eq_of_pairwise_lt m.pairwise_entries m'.pairwise_entries hmem
  obtain ⟨entries, sorted⟩ := m
  obtain ⟨entries', sorted'⟩ := m'
  cases heq
  rfl

def ofEntries (l : List (K × V)) : SortedMap K V := l.foldl (fun m e => m.insert e.1 e.2) ∅

/-- A map is built again from its entries, in any order and with repetitions. -/
theorem ofEntries_eq {l : List (K × V)} (h : ∀ e, e ∈ l ↔ e ∈ m.entries) : ofEntries l = m := by
  have hfold (l : List (K × V)) (hl : ∀ e ∈ l, e ∈ m.entries) :
      ∀ start : SortedMap K V, ∀ k, (l.foldl (fun m e => m.insert e.1 e.2) start).lookup k =
        if k ∈ l.map Prod.fst then m.lookup k else start.lookup k := by
    induction l with
    | nil => exact fun start k => by simp
    | cons e rest ih =>
      intro start k
      obtain ⟨he, hrest⟩ := List.forall_mem_cons.mp hl
      have hfound : m.lookup e.1 = some e.2 := lookup_eq_some_iff.mpr he
      rw [List.foldl_cons, ih hrest, lookup_insert]
      simp only [List.map_cons, List.mem_cons]
      by_cases hin : k ∈ rest.map Prod.fst
      · simp only [hin, or_true, if_true]
      · by_cases hk : k = e.1
        · rw [if_neg hin, if_pos hk, if_pos (.inl hk), hk, hfound]
        · simp only [hin, hk, or_false, if_false]
  refine ext_lookup fun k => ?_
  rw [ofEntries, hfold l (fun e he => (h e).mp he)]
  split_ifs with hin
  · rfl
  · cases hlookup : m.lookup k with
    | none => rfl
    | some v => exact absurd (List.mem_map_of_mem ((h _).mpr (lookup_eq_some_iff.mp hlookup))) hin

end BitBay.SortedMap
