import Mathlib.Tactic

/-!
# Runs that may fail

Rules for computations in `Except`: what a successful sequence tells about its
steps, and the invariant rules of `List.foldlM`. The invariant of `foldlM_rule`
may mention the elements that are still to come, so an accounting invariant can
say what they will add.

`allOk` is the loop of a function that returns a flag and keeps the state that a
failed step left behind.
-/
namespace BitBay.Run

variable {ε α β σ : Type}

theorem bind_eq_ok {x : Except ε α} {f : α → Except ε β} {b : β} :
    (x >>= f) = .ok b ↔ ∃ a, x = .ok a ∧ f a = .ok b := by
  cases x with
  | error e => simp [bind, Except.bind]
  | ok a => simp [bind, Except.bind]

theorem exists_of_isOk {x : Except ε α} (h : x.isOk = true) : ∃ a, x = .ok a := by
  cases x with
  | error e => cases h
  | ok a => exact ⟨a, rfl⟩

theorem length_mapM {f : α → Except ε β} {l : List α} {r : List β} (h : l.mapM f = .ok r) :
    r.length = l.length := by
  induction l generalizing r with
  | nil =>
    obtain rfl := Except.ok.inj h
    rfl
  | cons a rest ih =>
    rw [List.mapM_cons, bind_eq_ok] at h
    obtain ⟨b, -, h⟩ := h
    obtain ⟨bs, hbs, h⟩ := bind_eq_ok.mp h
    obtain rfl := Except.ok.inj h
    rw [List.length_cons, List.length_cons, ih hbs]

theorem eq_ok_of_toOption {x : Except ε α} {a : α} (h : x.toOption = some a) : x = .ok a := by
  cases x with
  | error e => cases h
  | ok b =>
    cases h
    rfl

/-- The invariant rule for a fold: `P` is about the elements left and the state. -/
theorem foldlM_rule {f : σ → α → Except ε σ} {P : List α → σ → Prop}
    (hstep : ∀ a rest s s', P (a :: rest) s → f s a = .ok s' → P rest s') {l : List α} {s s' : σ}
    (h0 : P l s) (h : l.foldlM f s = .ok s') : P [] s' := by
  induction l generalizing s with
  | nil =>
    cases h
    exact h0
  | cons a rest ih =>
    rw [List.foldlM_cons, bind_eq_ok] at h
    obtain ⟨mid, hfirst, hrest⟩ := h
    exact ih (hstep a rest s mid h0 hfirst) hrest

/-- A fold none of whose steps fails; `P` is about the elements left. -/
theorem foldlM_total {f : σ → α → Except ε σ} {P : List α → σ → Prop}
    (hstep : ∀ a rest s, P (a :: rest) s → ∃ s', f s a = .ok s' ∧ P rest s') {l : List α} {s : σ}
    (h0 : P l s) : ∃ s', l.foldlM f s = .ok s' ∧ P [] s' := by
  induction l generalizing s with
  | nil => exact ⟨s, rfl, h0⟩
  | cons a rest ih =>
    obtain ⟨mid, hfirst, hmid⟩ := hstep a rest s h0
    obtain ⟨s', hrest, hs'⟩ := ih hmid
    refine ⟨s', ?_, hs'⟩
    rw [List.foldlM_cons, hfirst]
    exact hrest

/-- An invariant of the state alone. -/
theorem foldlM_invariant {f : σ → α → Except ε σ} {P : σ → Prop} {l : List α}
    (hstep : ∀ a ∈ l, ∀ s s', P s → f s a = .ok s' → P s') {s s' : σ}
    (h0 : P s) (h : l.foldlM f s = .ok s') : P s' := by
  have hrule := foldlM_rule (P := fun rest s => (∀ a ∈ rest, a ∈ l) ∧ P s)
    (fun a rest s s' hP hs => ⟨fun b hb => hP.1 b (List.mem_cons_of_mem a hb),
      hstep a (hP.1 a List.mem_cons_self) s s' hP.2 hs⟩) ⟨fun a ha => ha, h0⟩ h
  exact hrule.2

/-- A measure that every step changes by the weight of its element. -/
theorem foldlM_sum {M : Type*} [AddCommMonoid M] {f : σ → α → Except ε σ} {P : σ → Prop}
    {m : σ → M} {w : α → M} {l : List α}
    (hP : ∀ a ∈ l, ∀ s s', P s → f s a = .ok s' → P s')
    (hstep : ∀ a ∈ l, ∀ s s', P s → f s a = .ok s' → m s' = m s + w a) {s s' : σ}
    (h0 : P s) (h : l.foldlM f s = .ok s') : m s' = m s + (l.map w).sum := by
  induction l generalizing s with
  | nil =>
    cases h
    simp
  | cons a rest ih =>
    rw [List.foldlM_cons, bind_eq_ok] at h
    obtain ⟨mid, hfirst, hrest⟩ := h
    have hmid := hstep a List.mem_cons_self s mid h0 hfirst
    have hend := ih (fun b hb => hP b (List.mem_cons_of_mem a hb))
      (fun b hb => hstep b (List.mem_cons_of_mem a hb))
      (hP a List.mem_cons_self s mid h0 hfirst) hrest
    rw [hend, hmid, List.map_cons, List.sum_cons, add_assoc]

/-- A run whose steps another function takes as well. -/
theorem foldlM_ok_mono {f g : σ → α → Except ε σ} {l : List α}
    (hstep : ∀ a ∈ l, ∀ s s', f s a = .ok s' → g s a = .ok s') {s s' : σ}
    (h : l.foldlM f s = .ok s') : l.foldlM g s = .ok s' := by
  induction l generalizing s with
  | nil => exact h
  | cons a rest ih =>
    rw [List.foldlM_cons, bind_eq_ok] at h ⊢
    obtain ⟨mid, hfirst, hrest⟩ := h
    exact ⟨mid, hstep a List.mem_cons_self s mid hfirst,
      ih (fun b hb => hstep b (List.mem_cons_of_mem a hb)) hrest⟩

/-- A fold whose steps keep an invariant or fail in one of the ways `Q`. -/
theorem foldlM_or {f : σ → α → Except ε σ} {P : σ → Prop} {Q : ε → Prop} {l : List α}
    (hstep : ∀ a ∈ l, ∀ s, P s → (∃ s', f s a = .ok s' ∧ P s') ∨ ∃ e, f s a = .error e ∧ Q e)
    {s : σ} (h0 : P s) :
    (∃ s', l.foldlM f s = .ok s' ∧ P s') ∨ ∃ e, l.foldlM f s = .error e ∧ Q e := by
  induction l generalizing s with
  | nil => exact .inl ⟨s, rfl, h0⟩
  | cons a rest ih =>
    rw [List.foldlM_cons]
    rcases hstep a List.mem_cons_self s h0 with ⟨mid, hfirst, hmid⟩ | ⟨e, hfail, he⟩
    · rw [hfirst]
      exact ih (fun b hb => hstep b (List.mem_cons_of_mem a hb)) hmid
    · rw [hfail]
      exact .inr ⟨e, rfl, he⟩

/-- The invariant rule for a fold over the elements with their places. -/
theorem foldlM_zipIdx_rule {f : σ → α × ℕ → Except ε σ} {P : ℕ → σ → Prop} {l : List α}
    (hstep : ∀ i a s s', l[i]? = some a → P i s → f s (a, i) = .ok s' → P (i + 1) s') {s s' : σ}
    (h0 : P 0 s) (h : l.zipIdx.foldlM f s = .ok s') : P l.length s' := by
  suffices hall : ∀ (rest : List α) (k : ℕ) (s : σ), l.drop k = rest → P k s →
      (rest.zipIdx k).foldlM f s = .ok s' → P (k + rest.length) s' by
    simpa using hall l 0 s rfl h0 h
  intro rest
  induction rest with
  | nil =>
    intro k s _ hP hs
    cases hs
    exact hP
  | cons a rest ih =>
    intro k s hdrop hP hs
    rw [List.zipIdx_cons, List.foldlM_cons, bind_eq_ok] at hs
    obtain ⟨mid, hfirst, hrest⟩ := hs
    have hget : l[k]? = some a := by rw [← List.head?_drop, hdrop, List.head?_cons]
    have htail : l.drop (k + 1) = rest := by rw [← List.tail_drop, hdrop, List.tail_cons]
    have hend := ih (k + 1) mid htail (hstep k a s mid hget hP hfirst) hrest
    rwa [List.length_cons, Nat.add_comm rest.length, ← Nat.add_assoc]

/-- A fold over the elements with their places none of whose steps fails. -/
theorem foldlM_zipIdx_total {f : σ → α × ℕ → Except ε σ} {P : ℕ → σ → Prop} {l : List α}
    (hstep : ∀ i a s, l[i]? = some a → P i s → ∃ s', f s (a, i) = .ok s' ∧ P (i + 1) s') {s : σ}
    (h0 : P 0 s) : ∃ s', l.zipIdx.foldlM f s = .ok s' := by
  suffices hall : ∀ (rest : List α) (k : ℕ) (s : σ), l.drop k = rest → P k s →
      ∃ s', (rest.zipIdx k).foldlM f s = .ok s' from hall l 0 s rfl h0
  intro rest
  induction rest with
  | nil =>
    intro k s _ _
    exact ⟨s, rfl⟩
  | cons a rest ih =>
    intro k s hdrop hP
    have hget : l[k]? = some a := by rw [← List.head?_drop, hdrop, List.head?_cons]
    have htail : l.drop (k + 1) = rest := by rw [← List.tail_drop, hdrop, List.tail_cons]
    obtain ⟨mid, hfirst, hmid⟩ := hstep k a s hget hP
    obtain ⟨s', hrest⟩ := ih (k + 1) mid htail hmid
    refine ⟨s', ?_⟩
    rw [List.zipIdx_cons, List.foldlM_cons, bind_eq_ok]
    exact ⟨mid, hfirst, hrest⟩

/-! ## Runs without a report -/

section Options

variable {f : σ → α → Option σ} {l : List α} {s s' : σ}

/-- The invariant rule for a fold in `Option`: `P` is about the elements left and the state. -/
theorem foldlM_some_rule {P : List α → σ → Prop}
    (hstep : ∀ a rest s s', P (a :: rest) s → f s a = some s' → P rest s')
    (h0 : P l s) (h : l.foldlM f s = some s') : P [] s' := by
  induction l generalizing s with
  | nil =>
    cases h
    exact h0
  | cons a rest ih =>
    rw [List.foldlM_cons, Option.bind_eq_bind, Option.bind_eq_some_iff] at h
    obtain ⟨mid, hfirst, hrest⟩ := h
    exact ih (hstep a rest s mid h0 hfirst) hrest

/-- An invariant of the state alone. -/
theorem foldlM_some_invariant {P : σ → Prop}
    (hstep : ∀ a ∈ l, ∀ s s', P s → f s a = some s' → P s') (h0 : P s)
    (h : l.foldlM f s = some s') : P s' := by
  have hrule := foldlM_some_rule (P := fun rest s => (∀ a ∈ rest, a ∈ l) ∧ P s)
    (fun a rest s s' hP hs => ⟨fun b hb => hP.1 b (List.mem_cons_of_mem a hb),
      hstep a (hP.1 a List.mem_cons_self) s s' hP.2 hs⟩) ⟨fun a ha => ha, h0⟩ h
  exact hrule.2

/-- A relation between the state and what the steps so far have added to a list. -/
theorem foldlM_some_append (added : α → List β) {P : σ → List β → Prop}
    (hstep : ∀ a ∈ l, ∀ s s' done, P s done → f s a = some s' → P s' (done ++ added a))
    {done : List β} (h0 : P s done) (h : l.foldlM f s = some s') :
    P s' (done ++ l.flatMap added) := by
  induction l generalizing s done with
  | nil =>
    cases h
    simpa using h0
  | cons a rest ih =>
    rw [List.foldlM_cons, Option.bind_eq_bind, Option.bind_eq_some_iff] at h
    obtain ⟨mid, hfirst, hrest⟩ := h
    rw [List.flatMap_cons, ← List.append_assoc]
    exact ih (fun b hb => hstep b (List.mem_cons_of_mem a hb))
      (hstep a List.mem_cons_self s mid done h0 hfirst) hrest

/-- A fold that is simulated step by step by another one. -/
theorem foldlM_some_map {τ : Type} {g : τ → β → Option τ} (state : σ → τ) (arg : α → β)
    (hstep : ∀ a ∈ l, ∀ s s', f s a = some s' → g (state s) (arg a) = some (state s'))
    (h : l.foldlM f s = some s') : (l.map arg).foldlM g (state s) = some (state s') := by
  induction l generalizing s with
  | nil =>
    cases h
    rfl
  | cons a rest ih =>
    rw [List.foldlM_cons, Option.bind_eq_bind, Option.bind_eq_some_iff] at h
    obtain ⟨mid, hfirst, hrest⟩ := h
    rw [List.map_cons, List.foldlM_cons, hstep a List.mem_cons_self s mid hfirst]
    exact ih (fun b hb => hstep b (List.mem_cons_of_mem a hb)) hrest

/-- A fold whose steps succeed where an invariant holds. -/
theorem foldlM_some_total {P : σ → Prop}
    (hstep : ∀ a ∈ l, ∀ s, P s → ∃ s', f s a = some s' ∧ P s') (h0 : P s) :
    ∃ s', l.foldlM f s = some s' ∧ P s' := by
  induction l generalizing s with
  | nil => exact ⟨s, rfl, h0⟩
  | cons a rest ih =>
    obtain ⟨mid, hfirst, hmid⟩ := hstep a List.mem_cons_self s h0
    rw [List.foldlM_cons, hfirst]
    exact ih (fun b hb => hstep b (List.mem_cons_of_mem a hb)) hmid

theorem eq_some_get {o : Option (α × β)} (h : o.isSome = true) :
    o = some ((o.get h).1, (o.get h).2) := by
  rw [Prod.mk.eta, Option.some_get]

/-- Every element of a successful fold was stepped over, from where the elements before it led. -/
theorem foldlM_some_at {a : α} (ha : a ∈ l) (h : l.foldlM f s = some s') :
    ∃ done rest t t', l = done ++ a :: rest ∧ done.foldlM f s = some t ∧ f t a = some t' := by
  induction l generalizing s with
  | nil => cases ha
  | cons b rest ih =>
    rw [List.foldlM_cons, Option.bind_eq_bind, Option.bind_eq_some_iff] at h
    obtain ⟨mid, hfirst, hrest⟩ := h
    rcases List.mem_cons.mp ha with rfl | ha
    · exact ⟨[], rest, s, mid, rfl, rfl, hfirst⟩
    · obtain ⟨done, rest', t, t', rfl, hdone, hstep⟩ := ih ha hrest
      refine ⟨b :: done, rest', t, t', rfl, ?_, hstep⟩
      rw [List.foldlM_cons, hfirst]
      exact hdone

theorem foldlM_some_mem {a : α} (ha : a ∈ l) (h : l.foldlM f s = some s') :
    ∃ t t', f t a = some t' := by
  obtain ⟨done, rest, t, t', -, -, hstep⟩ := foldlM_some_at ha h
  exact ⟨t, t', hstep⟩

end Options

/-! ## Loops with a flag -/

/-- Run the steps until one fails. The state is what the last step left. -/
def allOk (step : α → σ → Bool × σ) : List α → σ → Bool × σ
  | [], s => (true, s)
  | a :: rest, s => match step a s with
    | (false, s') => (false, s')
    | (true, s') => allOk step rest s'

section AllOk

variable {step : α → σ → Bool × σ} {a : α} {l l' : List α} {s s' : σ}

@[simp] theorem allOk_nil : allOk step [] s = (true, s) := rfl

theorem allOk_cons_true (h : step a s = (true, s')) :
    allOk step (a :: l) s = allOk step l s' := by
  simp only [allOk, h]

theorem allOk_cons_false (h : step a s = (false, s')) :
    allOk step (a :: l) s = (false, s') := by
  simp only [allOk, h]

/-- The invariant rule for a loop that does not fail: `P` is about the steps left. -/
theorem allOk_rule {P : List α → σ → Prop}
    (hstep : ∀ a rest s s', P (a :: rest) s → step a s = (true, s') → P rest s')
    (h0 : P l s) (h : allOk step l s = (true, s')) : P [] s' := by
  induction l generalizing s with
  | nil =>
    cases h
    exact h0
  | cons a rest ih =>
    rcases hs : step a s with ⟨ok, mid⟩
    cases ok with
    | false =>
      rw [allOk_cons_false hs] at h
      cases h
    | true =>
      rw [allOk_cons_true hs] at h
      exact ih (hstep a rest s mid h0 hs) h

end AllOk

end BitBay.Run
