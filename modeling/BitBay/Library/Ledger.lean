import Mathlib.Data.List.Perm.Basic
import Mathlib.Tactic

/-!
# Created and spent entries

A ledger lists the entries that were created, each under a key, and the keys that were spent.
It is worth what its unspent entries are worth. Created entries add their value and spent ones
take it away, if every key is created once and nothing is spent twice.
-/
namespace BitBay.Ledger

variable {κ α : Type} [DecidableEq κ] (value : α → ℤ)

/-- The value of the entries whose keys are not spent. -/
def worth (created : List (κ × α)) (spent : List κ) : ℤ :=
  ((created.filter fun c => c.1 ∉ spent).map fun c => value c.2).sum

variable {value} {created new : List (κ × α)} {spent taken : List κ}

theorem worth_create (h : ∀ c ∈ new, c.1 ∉ spent) :
    worth value (new ++ created) spent =
      (new.map fun c => value c.2).sum + worth value created spent := by
  have hnew : new.filter (fun c => c.1 ∉ spent) = new := by
    refine List.filter_eq_self.mpr fun c hc => ?_
    simpa using h c hc
  rw [worth, List.filter_append, List.map_append, List.sum_append, hnew]
  rfl

/-- The entries under some keys, of a ledger that has each key once. -/
theorem filter_perm_map {entry : κ → α} (hkeys : (created.map Prod.fst).Nodup)
    (htaken : taken.Nodup) (hcreated : ∀ k ∈ taken, (k, entry k) ∈ created) :
    (created.filter fun c => c.1 ∈ taken).Perm (taken.map fun k => (k, entry k)) := by
  have hnodup : created.Nodup := hkeys.of_map _
  have hmap : (taken.map fun k => (k, entry k)).Nodup :=
    htaken.map fun a b hab => (Prod.mk.inj hab).1
  refine (List.perm_ext_iff_of_nodup (hnodup.filter _) hmap).mpr fun c => ?_
  simp only [List.mem_filter, decide_eq_true_eq, List.mem_map]
  constructor
  · rintro ⟨hc, hk⟩
    have hsame : (c.1, entry c.1) = c :=
      List.inj_on_of_nodup_map hkeys (hcreated c.1 hk) hc rfl
    exact ⟨c.1, hk, hsame⟩
  · rintro ⟨k, hk, rfl⟩
    exact ⟨hcreated k hk, hk⟩

theorem worth_spend {entry : κ → α} (hkeys : (created.map Prod.fst).Nodup) (htaken : taken.Nodup)
    (hcreated : ∀ k ∈ taken, (k, entry k) ∈ created) (hunspent : ∀ k ∈ taken, k ∉ spent) :
    worth value created (taken ++ spent) =
      worth value created spent - (taken.map fun k => value (entry k)).sum := by
  have hsplit := List.filter_append_perm (fun c : κ × α => decide (c.1 ∈ taken))
    (created.filter fun c => c.1 ∉ spent)
  have htake : ((created.filter fun c => c.1 ∉ spent).filter fun c => c.1 ∈ taken) =
      created.filter fun c => c.1 ∈ taken := by
    rw [List.filter_filter]
    refine List.filter_congr fun c _ => ?_
    by_cases hk : c.1 ∈ taken
    · simp [hk, hunspent c.1 hk]
    · simp [hk]
  have hrest : ((created.filter fun c => c.1 ∉ spent).filter fun c => !decide (c.1 ∈ taken)) =
      created.filter fun c => c.1 ∉ taken ++ spent := by
    rw [List.filter_filter]
    refine List.filter_congr fun c _ => ?_
    simp [not_or]
  rw [htake, hrest] at hsplit
  have hsum := ((filter_perm_map hkeys htaken hcreated).append_right
    (created.filter fun c => c.1 ∉ taken ++ spent)).symm.trans hsplit
  have hvalue := (hsum.map fun c => value c.2).sum_eq
  rw [List.map_append, List.sum_append, List.map_map] at hvalue
  simp only [worth, Function.comp_def] at hvalue ⊢
  linarith

end BitBay.Ledger
