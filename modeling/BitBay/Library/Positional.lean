import Mathlib.Data.Nat.Digits.Lemmas
import Mathlib.Data.List.TakeWhile
import Mathlib.Tactic

/-!
# Digits in two bases

A list of digits, the highest one first, is written in another base with as many zeros in front
as it has itself. Behind the zeros both lists are the digits of one number, so that writing
them back gives the first list again.
-/
namespace BitBay.Positional

/-- The number that digits stand for, the highest one first. -/
def value (b : ℕ) (l : List ℕ) : ℕ := l.foldl (fun n d => n * b + d) 0

/-- The digits of a number, the lowest one first, and at most `fuel` of them. -/
def lowDigits (b : ℕ) : ℕ → ℕ → List ℕ
  | 0, _ => []
  | fuel + 1, n => if n = 0 then [] else n % b :: lowDigits b fuel (n / b)

def digits (b n : ℕ) : List ℕ := (lowDigits b n n).reverse

def zeros (l : List ℕ) : ℕ := (l.takeWhile fun d => decide (d = 0)).length

def rebase (b c : ℕ) (l : List ℕ) : List ℕ := List.replicate (zeros l) 0 ++ digits c (value b l)

variable {b c fuel n : ℕ} {l : List ℕ}

theorem value_eq (b : ℕ) (l : List ℕ) : value b l = Nat.ofDigits b l.reverse := by
  induction l using List.reverseRecOn with
  | nil => rfl
  | append_singleton l d ih =>
    have hvalue : value b (l ++ [d]) = value b l * b + d := by simp [value]
    rw [hvalue, ih, List.reverse_append, List.reverse_singleton, List.singleton_append,
      Nat.ofDigits_cons]
    ring

theorem lowDigits_eq (hb : 1 < b) (h : n ≤ fuel) : lowDigits b fuel n = Nat.digits b n := by
  induction fuel generalizing n with
  | zero => simp [lowDigits, Nat.le_zero.mp h]
  | succ fuel ih =>
    by_cases hn : n = 0
    · simp [lowDigits, hn]
    · have hlt : n / b < n := Nat.div_lt_self (by omega) hb
      rw [Nat.digits_def' hb (by omega), ← ih (by omega), lowDigits, if_neg hn]

theorem digits_eq (hb : 1 < b) (n : ℕ) : digits b n = (Nat.digits b n).reverse := by
  rw [digits, lowDigits_eq hb le_rfl]

theorem digits_lt (hb : 1 < b) {d : ℕ} (h : d ∈ digits b n) : d < b := by
  rw [digits_eq hb, List.mem_reverse] at h
  exact Nat.digits_lt_base hb h

theorem value_digits (hb : 1 < b) (n : ℕ) : value b (digits b n) = n := by
  rw [digits_eq hb, value_eq, List.reverse_reverse, Nat.ofDigits_digits]

/-- The digits of a number do not start with a zero. -/
theorem zeros_digits (hb : 1 < b) (n : ℕ) : zeros (digits b n) = 0 := by
  cases hdigits : digits b n with
  | nil => rfl
  | cons d rest =>
    have hn : n ≠ 0 := by
      rintro rfl
      rw [digits_eq hb] at hdigits
      simp at hdigits
    have hlast := Nat.getLast_digit_ne_zero b hn
    have hrev : Nat.digits b n = rest.reverse ++ [d] := by
      rw [digits_eq hb] at hdigits
      rw [← List.reverse_reverse (Nat.digits b n), hdigits, List.reverse_cons]
    have hd : d ≠ 0 := by
      simp only [hrev, List.getLast_append_singleton] at hlast
      exact hlast
    simp [zeros, hd]

@[simp] theorem value_replicate_append (b k : ℕ) (l : List ℕ) :
    value b (List.replicate k 0 ++ l) = value b l := by
  rw [value_eq, value_eq, List.reverse_append, List.reverse_replicate,
    Nat.ofDigits_append_replicate_zero]

@[simp] theorem zeros_replicate_append (k : ℕ) (l : List ℕ) :
    zeros (List.replicate k 0 ++ l) = k + zeros l := by
  induction k with
  | zero => simp
  | succ k ih =>
    rw [List.replicate_succ, List.cons_append, zeros, List.takeWhile_cons_of_pos (by simp),
      List.length_cons, ← zeros, ih]
    omega

/-- A list is its zeros and the digits of its number. -/
theorem zeros_append_digits (hb : 1 < b) (h : ∀ d ∈ l, d < b) :
    List.replicate (zeros l) 0 ++ digits b (value b l) = l := by
  induction l with
  | nil => rw [digits_eq hb]; simp [zeros, value]
  | cons d rest ih =>
    have hrest := ih fun e he => h e (List.mem_cons_of_mem d he)
    by_cases hd : d = 0
    · subst hd
      have hvalue : value b (0 :: rest) = value b rest := by
        simpa using value_replicate_append b 1 rest
      have hzeros : zeros (0 :: rest) = zeros rest + 1 := by simp [zeros]
      rw [hvalue, hzeros, List.replicate_succ, List.cons_append, hrest]
    · have hzeros : zeros (d :: rest) = 0 := by simp [zeros, hd]
      have hlast : ∀ hne : (d :: rest).reverse ≠ [], (d :: rest).reverse.getLast hne ≠ 0 := by
        intro hne
        simpa using hd
      rw [hzeros, digits_eq hb, value_eq, Nat.digits_ofDigits b hb _ (fun e he => h e
        (List.mem_reverse.mp he)) hlast, List.reverse_reverse, List.replicate_zero, List.nil_append]

theorem rebase_lt (hc : 1 < c) {d : ℕ} (h : d ∈ rebase b c l) : d < c := by
  rcases List.mem_append.mp h with hzero | hdigit
  · rw [List.eq_of_mem_replicate hzero]
    omega
  · exact digits_lt hc hdigit

/-- Written back, the digits are what they were. -/
theorem rebase_rebase (hb : 1 < b) (hc : 1 < c) (h : ∀ d ∈ l, d < b) :
    rebase c b (rebase b c l) = l := by
  have hzeros : zeros (rebase b c l) = zeros l := by
    rw [rebase, zeros_replicate_append, zeros_digits hc, Nat.add_zero]
  have hvalue : value c (rebase b c l) = value b l := by
    rw [rebase, value_replicate_append, value_digits hc]
  rw [rebase, hzeros, hvalue]
  exact zeros_append_digits hb h

end BitBay.Positional
