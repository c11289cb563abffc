import Mathlib.Data.Finset.Card
import Mathlib.Data.Set.Basic
import Mathlib.Logic.Relation
import Mathlib.Tactic

/-!
# Walks and work queues

`follow` takes a step as long as there is one. It ends where no step is left, and it ends at all
when a rank goes up along the steps.

`drain` works off a queue of keys. It takes the elements below a key out of a store and queues the
keys of those that pass. In the end it has taken out what the queue leads to, whatever the order,
and it has worked off the keys of all elements that passed.
-/
namespace BitBay.WorkQueue

/-! ## Walks -/

section Walks

variable {α : Type*} (next : α → Option α)

/-- Step from `a` until no step is left; `none` when `fuel` looks do not get there. -/
def follow : ℕ → α → Option α
  | 0, _ => none
  | fuel + 1, a =>
    match next a with
    | none => some a
    | some b => follow fuel b

def EndsAt (a b : α) : Prop := Relation.ReflTransGen (fun x y => next x = some y) a b ∧ next b = none

variable {next} {fuel : ℕ} {a b c : α}

theorem endsAt_of_follow (h : follow next fuel a = some b) : EndsAt next a b := by
  fun_induction follow next fuel a with
  | case1 => cases h
  | case2 fuel a hend =>
    cases h
    exact ⟨.refl, hend⟩
  | case3 fuel a c hstep ih =>
    obtain ⟨hpath, hend⟩ := ih h
    exact ⟨.head hstep hpath, hend⟩

theorem EndsAt.unique (hb : EndsAt next a b) (hc : EndsAt next a c) : b = c := by
  have hstop {x y : α} (hx : next x = none)
      (h : Relation.ReflTransGen (fun x y => next x = some y) x y) : x = y := by
    rcases h.cases_head with heq | ⟨z, hz, -⟩
    · exact heq
    · rw [hx] at hz
      cases hz
  have hunique : Relator.RightUnique fun x y => next x = some y :=
    fun x y z hy hz => Option.some.inj (hy.symm.trans hz)
  rcases Relation.ReflTransGen.total_of_right_unique hunique hb.1 hc.1 with h | h
  · exact hstop hb.2 h
  · exact (hstop hc.2 h).symm

/-- The elements of a higher rank become fewer with every step. -/
theorem isSome_follow [DecidableEq α] (S : Finset α) (rank : α → ℕ)
    (hstep : ∀ x y, next x = some y → y ∈ S ∧ rank x < rank y)
    (hfuel : (S.filter fun x => rank a < rank x).card < fuel) : (follow next fuel a).isSome := by
  induction fuel generalizing a with
  | zero => omega
  | succ fuel ih =>
    rw [follow]
    cases hnext : next a with
    | none => rfl
    | some b =>
      obtain ⟨hmem, hrank⟩ := hstep a b hnext
      refine ih ?_
      have hlt : S.filter (fun x => rank b < rank x) ⊂ S.filter fun x => rank a < rank x := by
        refine (Finset.ssubset_iff_of_subset fun x hx => ?_).mpr ⟨b, ?_, ?_⟩
        · grind
        · grind
        · grind
      have := Finset.card_lt_card hlt
      omega

end Walks

/-! ## Work queues -/

section Queues

variable {α κ : Type*} (prev own : α → κ) (ok : α → Bool)

/-- What the keys lead to: an element of the store below one of them, and an element below one
that is reached and passes. -/
inductive Reached (store : List α) (keys : List κ) : α → Prop
  | start {a : α} (hmem : a ∈ store) (hkey : prev a ∈ keys) : Reached store keys a
  | next {a b : α} (ha : Reached store keys a) (hok : ok a = true) (hmem : b ∈ store)
      (hkey : prev b = own a) : Reached store keys b

section

variable {prev own ok} {store : List α} {keys : List κ} {a : α}

theorem Reached.mem (h : Reached prev own ok store keys a) : a ∈ store := by
  cases h with
  | start hmem => exact hmem
  | next _ _ hmem => exact hmem

theorem not_reached_nil : ¬ Reached prev own ok store [] a := by
  intro h
  induction h with
  | start _ hkey => cases hkey
  | next _ _ _ _ ih => exact ih

end

variable [DecidableEq κ]

def below (store : List α) (key : κ) : List α := store.filter fun a => prev a = key

def queued (store : List α) (key : κ) : List κ := ((below prev store key).filter ok).map own

/-- Work off a queue. The result is what is left in the store, and all keys that were in the
queue at some time; `none` when `fuel` keys are not all. -/
def drain : ℕ → List α → List κ → Option (List α × List κ)
  | _, store, [] => some (store, [])
  | 0, _, _ :: _ => none
  | fuel + 1, store, key :: queue =>
    (drain fuel (store.filter fun a => prev a ≠ key) (queue ++ queued prev own ok store key)).map
      fun (left, keys) => (left, key :: keys)

variable {prev own ok} {store left : List α} {keys queue : List κ} {key : κ} {a : α} {fuel : ℕ}

theorem mem_queued {k : κ} :
    k ∈ queued prev own ok store key ↔ ∃ a ∈ store, prev a = key ∧ ok a = true ∧ own a = k := by
  simp [queued, below, and_assoc, and_left_comm]

/-- What the first key leads to is below it, or is led to by what it leaves. -/
theorem reached_cons : Reached prev own ok store (key :: queue) a ↔
    a ∈ store ∧ prev a = key ∨ Reached prev own ok (store.filter fun a => prev a ≠ key)
      (queue ++ queued prev own ok store key) a := by
  constructor
  · intro h
    induction h with
    | start hmem hkey => grind [Reached.start]
    | @next c b ha hok hmem hkey ih =>
      by_cases hb : prev b = key
      · exact .inl ⟨hmem, hb⟩
      · have hleft : b ∈ store.filter fun a => prev a ≠ key := by simp [hmem, hb]
        refine .inr ?_
        rcases ih with ⟨hc, hckey⟩ | ih
        · refine .start hleft (List.mem_append_right _ (mem_queued.mpr ?_))
          exact ⟨c, hc, hckey, hok, hkey.symm⟩
        · exact .next ih hok hleft hkey
  · rintro (⟨hmem, hkey⟩ | h)
    · exact .start hmem (hkey ▸ List.mem_cons_self)
    · induction h with
      | @start b hmem hkey =>
        have hb : b ∈ store := List.mem_of_mem_filter hmem
        rcases List.mem_append.mp hkey with hkey | hkey
        · exact .start hb (List.mem_cons_of_mem _ hkey)
        · obtain ⟨c, hc, hckey, hok, hown⟩ := mem_queued.mp hkey
          exact .next (.start hc (hckey ▸ List.mem_cons_self)) hok hb hown.symm
      | next _ hok hmem hkey ih => exact .next ih hok (List.mem_of_mem_filter hmem) hkey

/-- What is left is what the queue does not lead to. -/
theorem mem_left_of_drain (h : drain prev own ok fuel store queue = some (left, keys)) :
    a ∈ left ↔ a ∈ store ∧ ¬ Reached prev own ok store queue a := by
  fun_induction drain prev own ok fuel store queue generalizing left keys with
  | case1 fuel store =>
    cases h
    simp [not_reached_nil]
  | case2 => cases h
  | case3 fuel store key queue ih =>
    obtain ⟨⟨left', keys'⟩, hrest, heq⟩ := Option.map_eq_some_iff.mp h
    cases heq
    rw [ih hrest, reached_cons]
    simp
    tauto

/-- The keys are those of the queue and those of the elements that pass. -/
theorem mem_keys_of_drain (h : drain prev own ok fuel store queue = some (left, keys)) :
    key ∈ keys ↔ key ∈ queue ∨ ∃ a, Reached prev own ok store queue a ∧ ok a = true ∧ own a = key := by
  fun_induction drain prev own ok fuel store queue generalizing left keys with
  | case1 fuel store =>
    cases h
    simp [not_reached_nil]
  | case2 => cases h
  | case3 fuel store first queue ih =>
    obtain ⟨⟨left', keys'⟩, hrest, heq⟩ := Option.map_eq_some_iff.mp h
    cases heq
    simp only [List.mem_cons, ih hrest, reached_cons, List.mem_append, mem_queued]
    grind

/-- Every key that is worked off was in the queue or belongs to an element taken out. -/
theorem isSome_drain (h : store.length + queue.length ≤ fuel) :
    (drain prev own ok fuel store queue).isSome := by
  fun_induction drain prev own ok fuel store queue with
  | case1 => rfl
  | case2 => simp at h
  | case3 fuel store key queue ih =>
    have hsplit := List.length_eq_length_filter_add (l := store) fun a => decide (prev a = key)
    have hpass : (queued prev own ok store key).length ≤ (below prev store key).length := by
      rw [queued, List.length_map]
      exact List.length_filter_le _ _
    have hnot : (store.filter fun a => !decide (prev a = key)) =
        store.filter fun a => decide (prev a ≠ key) := by simp
    rw [Option.isSome_map]
    refine ih ?_
    rw [hnot] at hsplit
    simp only [below, List.length_append, List.length_cons] at hpass h ⊢
    omega

end Queues
end BitBay.WorkQueue
