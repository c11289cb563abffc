import BitBay.Library.Run

/-!
# Loops over the items of a text

A reader takes one item off the front of a list, or finds none. The loop hands every item to a
step together with what is left, until nothing is left or the step fails. The length of the
list is enough fuel, so the loop is used through its equations and rules alone.

`Reaches` is the same loop as a relation. It also has the states of runs that fail later on.
-/
namespace BitBay.Scan

variable {α β σ ε : Type}

def Shrinks (next : List α → Option (β × List α)) : Prop :=
  ∀ s b rest, next s = some (b, rest) → rest.length < s.length

/-- The loop with fuel; `stop` is what happens where no item can be read. -/
def loop (next : List α → Option (β × List α)) (step : β → List α → σ → Except ε σ)
    (stop : σ → Except ε σ) : ℕ → List α → σ → Except ε σ
  | 0, _, st => .ok st
  | fuel + 1, s, st =>
    if s.isEmpty then .ok st
    else match next s with
      | none => stop st
      | some (b, rest) => step b rest st >>= loop next step stop fuel rest

def run (next : List α → Option (β × List α)) (step : β → List α → σ → Except ε σ)
    (stop : σ → Except ε σ) (s : List α) (st : σ) : Except ε σ :=
  loop next step stop s.length s st

variable {next : List α → Option (β × List α)} {step : β → List α → σ → Except ε σ}
  {stop : σ → Except ε σ}

@[simp] theorem run_nil (st : σ) : run next step stop [] st = .ok st := rfl

/-- More fuel than there are elements changes nothing. -/
theorem loop_eq_run (hnext : Shrinks next) {fuel : ℕ} {s : List α} (h : s.length ≤ fuel) (st : σ) :
    loop next step stop fuel s st = run next step stop s st := by
  induction fuel using Nat.strong_induction_on generalizing s st with
  | _ fuel ih =>
    unfold run
    cases s with
    | nil => cases fuel <;> rfl
    | cons a s =>
      obtain ⟨fuel, rfl⟩ : ∃ k, fuel = k + 1 := ⟨fuel - 1, by simp at h; omega⟩
      simp only [List.length_cons, loop, List.isEmpty_cons, Bool.false_eq_true, if_false]
      cases hs : next (a :: s) with
      | none => rfl
      | some r =>
        obtain ⟨b, rest⟩ := r
        have hrest := hnext _ _ _ hs
        simp only [List.length_cons] at h hrest
        dsimp only
        congr 1
        funext st
        rw [ih fuel (by omega) (by omega), ih s.length (by omega) (by omega)]

/-- The loop takes one item. -/
theorem run_of_next (hnext : Shrinks next) {s rest : List α} {b : β} (h : next s = some (b, rest))
    (st : σ) : run next step stop s st = step b rest st >>= run next step stop rest := by
  have hlt := hnext s b rest h
  obtain ⟨k, hk⟩ : ∃ k, s.length = k + 1 := ⟨s.length - 1, by omega⟩
  have hne : s.isEmpty = false := by
    cases s with
    | nil => simp at hk
    | cons a s => rfl
  have hrun : run next step stop s st = step b rest st >>= loop next step stop k rest := by
    rw [run, hk, loop, hne, h]
    rfl
  rw [hrun]
  congr 1
  funext st
  exact loop_eq_run hnext (by omega) st

theorem run_of_none {s : List α} (hne : s ≠ []) (h : next s = none) (st : σ) :
    run next step stop s st = stop st := by
  cases s with
  | nil => exact absurd rfl hne
  | cons a s => simp [run, loop, h]

/-- What the loop comes to, by the item at the front. -/
theorem run_cases (step : β → List α → σ → Except ε σ) (stop : σ → Except ε σ)
    (hnext : Shrinks next) (s : List α) (st : σ) :
    s = [] ∧ run next step stop s st = .ok st ∨
      s ≠ [] ∧ next s = none ∧ run next step stop s st = stop st ∨
      ∃ b rest, next s = some (b, rest) ∧
        run next step stop s st = step b rest st >>= run next step stop rest := by
  by_cases hne : s = []
  · exact .inl ⟨hne, by rw [hne, run_nil]⟩
  · cases h : next s with
    | none => exact .inr (.inl ⟨hne, rfl, run_of_none hne h st⟩)
    | some r => exact .inr (.inr ⟨r.1, r.2, rfl, run_of_next hnext h st⟩)

/-! ## Rules -/

/-- The lists and states that the loop comes by. -/
inductive Reaches (next : List α → Option (β × List α)) (step : β → List α → σ → Except ε σ)
    (s : List α) (st : σ) : List α → σ → Prop
  | refl : Reaches next step s st s st
  | tail {mid rest : List α} {b : β} {st₁ st₂ : σ} : Reaches next step s st mid st₁ →
      next mid = some (b, rest) → step b rest st₁ = .ok st₂ → Reaches next step s st rest st₂

theorem Reaches.head {s mid rest : List α} {b : β} {st st₁ st₂ : σ} (hb : next s = some (b, mid))
    (hstep : step b mid st = .ok st₁) (h : Reaches next step mid st₁ rest st₂) :
    Reaches next step s st rest st₂ := by
  induction h with
  | refl => exact .tail .refl hb hstep
  | tail _ hnext hst ih => exact .tail ih hnext hst

/-- An invariant of the steps holds in all that is reached. -/
theorem Reaches.invariant {P : List α → σ → Prop}
    (hstep : ∀ s b rest st st', next s = some (b, rest) → step b rest st = .ok st' →
      P s st → P rest st')
    {s rest : List α} {st st' : σ} (h : Reaches next step s st rest st') (h0 : P s st) :
    P rest st' := by
  induction h with
  | refl => exact h0
  | tail _ hnext hst ih => exact hstep _ _ _ _ _ hnext hst ih

/-- A loop that ends has come by the end of the list. -/
theorem reaches_of_run (hnext : Shrinks next) (hstop : ∀ st st', stop st ≠ .ok st') {s : List α}
    {st st' : σ} (h : run next step stop s st = .ok st') : Reaches next step s st [] st' := by
  generalize hn : s.length = n
  induction n using Nat.strong_induction_on generalizing s st with
  | _ n ih =>
    rcases run_cases step stop hnext s st with
      ⟨rfl, hrun⟩ | ⟨-, -, hrun⟩ | ⟨b, rest, hb, hrun⟩
    · rw [hrun] at h
      cases h
      exact .refl
    · rw [hrun] at h
      exact absurd h (hstop st st')
    · rw [hrun, Run.bind_eq_ok] at h
      obtain ⟨mid, hmid, hrest⟩ := h
      exact .head hb hmid (ih rest.length (hn ▸ hnext _ _ _ hb) hrest rfl)

/-- A loop whose steps do what those of another one do, where these succeed. -/
theorem run_mono {step' : β → List α → σ → Except ε σ} {stop' : σ → Except ε σ}
    (hnext : Shrinks next) (hstop : ∀ st st', stop st ≠ .ok st')
    (hstep : ∀ b rest st st', step b rest st = .ok st' → step' b rest st = .ok st')
    {s : List α} {st st' : σ} (h : run next step stop s st = .ok st') :
    run next step' stop' s st = .ok st' := by
  generalize hn : s.length = n
  induction n using Nat.strong_induction_on generalizing s st with
  | _ n ih =>
    rcases run_cases step stop hnext s st with ⟨rfl, hrun⟩ | ⟨-, -, hrun⟩ | ⟨b, rest, hb, hrun⟩
    · rw [hrun] at h
      exact h
    · exact absurd (hrun ▸ h) (hstop st st')
    · rw [hrun, Run.bind_eq_ok] at h
      obtain ⟨mid, hmid, hrest⟩ := h
      rw [run_of_next hnext hb, hstep b rest st mid hmid]
      exact ih rest.length (hn ▸ hnext _ _ _ hb) hrest rfl

end BitBay.Scan
