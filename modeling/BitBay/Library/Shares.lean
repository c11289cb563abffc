import BitBay.Library.Apportion

/-!
# Shares of a value

A value is shared out over a family in proportion to what each place holds. Every share is
rounded down, and the units that are left then go to the first places that hold something, one
unit to each. A second share of the same value, from what the first one has left, is rounded
as the first one only when no remainder comes too close to the whole.
-/
namespace BitBay.Shares

open Apportion Finset

section Definitions

variable {n : ℕ} (f : Fin n → ℤ) (v : ℤ)

def rank (x : Fin n) : ℕ := #{y | y < x ∧ 0 < f y}

/-- The units that are left of the value when every share is rounded down. -/
def leftover : ℤ := v - ∑ x, f x * v / ∑ y, f y

def share (x : Fin n) : ℤ :=
  f x * v / ∑ y, f y + if 0 < f x ∧ rank f x < leftover f v then 1 else 0

/-- No share is rounded differently when the value is shared out once more: where a unit is
handed out the remainder covers the value and something stays, and where none is the remainder
stays below the whole by more than the value. -/
structure RoundsTwice : Prop where
  unit : ∀ x, 0 < f x → rank f x < leftover f v → v ≤ f x * v % ∑ y, f y ∧ 2 ≤ f x
  none : ∀ x, 0 < f x → leftover f v ≤ rank f x → f x * v % (∑ y, f y) + v < ∑ y, f y

end Definitions

variable {n : ℕ} {f : Fin n → ℤ} {v : ℤ}

/-! ## The walk in one round -/

section Walk

variable {cap q : Fin n → ℤ} {start fuel idx a b : ℕ} {left : ℤ}

def room (cap q : Fin n → ℤ) (a b : ℕ) : ℕ := #{y : Fin n | a ≤ y ∧ y < b ∧ q y < cap y}

theorem room_empty (h : b ≤ a) : room cap q a b = 0 := by
  rw [room, card_eq_zero, filter_eq_empty_iff]
  rintro y - ⟨hy, hyb, -⟩
  omega

theorem room_step (hab : a < b) (ha : a < n) :
    room cap q a b = (if q ⟨a, ha⟩ < cap ⟨a, ha⟩ then 1 else 0) + room cap q (a + 1) b := by
  have hnot : (⟨a, ha⟩ : Fin n) ∉ ({y : Fin n | a + 1 ≤ y ∧ y < b ∧ q y < cap y} : Finset (Fin n)) := by
    simp
  have hcases : ∀ y : Fin n, a ≤ y ∧ y < b ∧ q y < cap y ↔
      (y = ⟨a, ha⟩ ∧ q y < cap y) ∨ (a + 1 ≤ y ∧ y < b ∧ q y < cap y) := by
    intro y
    rw [Fin.ext_iff]
    dsimp only
    omega
  unfold room
  split_ifs with h
  · rw [add_comm, ← card_insert_of_notMem hnot]
    congr 1
    ext y
    simp only [mem_filter, mem_univ, true_and, mem_insert, hcases]
    refine or_congr_left (and_iff_left_of_imp ?_)
    rintro rfl
    exact h
  · rw [zero_add]
    congr 1
    ext y
    simp only [mem_filter, mem_univ, true_and, hcases]
    refine or_iff_right ?_
    rintro ⟨rfl, hlt⟩
    exact h hlt

theorem room_update {x : Fin n} (v : ℤ) (hx : (x : ℕ) < a) :
    room cap (Function.update q x v) a b = room cap q a b := by
  unfold room
  congr 1
  ext y
  simp only [mem_filter, mem_univ, true_and]
  refine and_congr_right fun hy => ?_
  have hne : y ≠ x := by
    rintro rfl
    omega
  rw [Function.update_of_ne hne]

/-- A walk with no more units than there are columns with room ahead of it gives them to the
first of these. -/
theorem topUp_once (hfuel : n ≤ fuel + idx) (hleft : left ≤ room cap q idx n) (i : Fin n) :
    (topUp cap start fuel idx left q).2 i = q i +
      if idx ≤ i ∧ q i < cap i ∧ room cap q idx i < left then 1 else 0 := by
  induction fuel generalizing idx left q with
  | zero =>
    rw [topUp, if_neg, add_zero]
    have := i.2
    omega
  | succ fuel ih =>
    rcases le_or_gt left 0 with hl | hl
    · rw [topUp, if_pos hl, if_neg, add_zero]
      omega
    have hidx : idx < n := by
      by_contra hpast
      rw [room_empty (not_lt.mp hpast)] at hleft
      omega
    rw [room_step hidx hidx] at hleft
    -- Behind the last column the walk begins again, with nothing left to give.
    have hwrap : ∀ {left : ℤ} {q : Fin n → ℤ}, left ≤ room cap q (idx + 1) n →
        (topUp cap start fuel (wrap n start idx) left q).2 i = q i +
          if idx + 1 ≤ i ∧ q i < cap i ∧ room cap q (idx + 1) i < left then 1 else 0 := by
      intro left q hroom
      rcases Nat.lt_or_ge (idx + 1) n with hlt | hge
      · rw [wrap, if_neg (not_le.mpr hlt)]
        exact ih (by omega) hroom
      · rw [room_empty hge] at hroom
        have hdone : (topUp cap start fuel (wrap n start idx) left q).2 = q := by
          cases fuel with
          | zero => rfl
          | succ fuel => rw [topUp, if_pos (by omega)]
        rw [hdone, if_neg, add_zero]
        omega
    by_cases hq : q ⟨idx, hidx⟩ < cap ⟨idx, hidx⟩
    · rw [if_pos hq] at hleft
      rw [topUp_give start fuel hl hidx hq, hwrap (by rw [room_update _ (Nat.lt_succ_self idx)]; omega),
        room_update _ (Nat.lt_succ_self idx)]
      rcases eq_or_ne i ⟨idx, hidx⟩ with rfl | hi
      · have hfirst : (room cap q idx idx : ℤ) < left := by
          rw [room_empty le_rfl]
          exact_mod_cast hl
        rw [Function.update_self, if_neg (by simp), if_pos ⟨le_rfl, hq, hfirst⟩, add_zero]
      · rw [Function.update_of_ne hi]
        congr 1
        refine if_congr ?_ rfl rfl
        have hne : (i : ℕ) ≠ idx := fun h => hi (Fin.ext h)
        constructor
        · rintro ⟨hle, hroom, hlt⟩
          refine ⟨by omega, hroom, ?_⟩
          rw [room_step (by omega) hidx, if_pos hq]
          omega
        · rintro ⟨hle, hroom, hlt⟩
          rw [room_step (by omega) hidx, if_pos hq] at hlt
          exact ⟨by omega, hroom, by omega⟩
    · rw [if_neg hq, zero_add] at hleft
      rw [topUp_skip start fuel hl hidx hq, hwrap hleft]
      congr 1
      refine if_congr ?_ rfl rfl
      constructor
      · rintro ⟨hle, hroom, hlt⟩
        refine ⟨by omega, hroom, ?_⟩
        rw [room_step (by omega) hidx, if_neg hq, zero_add]
        exact hlt
      · rintro ⟨hle, hroom, hlt⟩
        have hne : idx ≠ i := by
          rintro rfl
          exact hq hroom
        rw [room_step (by omega) hidx, if_neg hq, zero_add] at hlt
        exact ⟨by omega, hroom, hlt⟩

end Walk

/-! ## Shares -/

section Share

theorem leftover_mul : leftover f v * ∑ y, f y = ∑ x, f x * v % ∑ y, f y := by
  have hrow : ∀ x, f x * v % ∑ y, f y = f x * v - (f x * v / ∑ y, f y) * ∑ y, f y := by
    intro x
    rw [Int.emod_def, mul_comm (∑ y, f y)]
  simp only [hrow, sum_sub_distrib, ← sum_mul, leftover]
  ring

theorem leftover_nonneg (hpos : 0 < ∑ y, f y) : 0 ≤ leftover f v := by
  have hsum : 0 ≤ leftover f v * ∑ y, f y := by
    rw [leftover_mul]
    exact sum_nonneg fun x _ => Int.emod_nonneg _ hpos.ne'
  exact nonneg_of_mul_nonneg_left hsum hpos

/-- With no unit left the shares are the rounded ones. -/
theorem share_of_leftover (h : leftover f v ≤ 0) : share f v = fun x => f x * v / ∑ y, f y := by
  funext x
  rw [share, if_neg, add_zero]
  rintro ⟨-, hlt⟩
  omega

@[simp] theorem share_zero (f : Fin n → ℤ) : share f 0 = 0 := by
  have hnone : leftover f 0 ≤ 0 := by simp [leftover]
  rw [share_of_leftover hnone]
  funext x
  simp

theorem share_of_zero {x : Fin n} (h : f x = 0) : share f v x = 0 := by
  simp [share, h]

/-- The share of the whole is all of it. -/
theorem leftover_all (hpos : 0 < v) (hall : v = ∑ y, f y) : leftover f v = 0 := by
  have hfloor : ∀ x, f x * v / v = f x := fun x => Int.mul_ediv_cancel _ hpos.ne'
  rw [leftover, ← hall]
  simp only [hfloor, ← hall, sub_self]

variable (hf : ∀ x, 0 ≤ f x) (hv : 0 < v) (hlt : v < ∑ y, f y)

include hf hv hlt in
/-- A share is less than what is there, where something is. -/
theorem floor_lt_iff (x : Fin n) : f x * v / ∑ y, f y < f x ↔ 0 < f x := by
  have hpos : 0 < ∑ y, f y := hv.trans hlt
  constructor
  · intro h
    rcases (hf x).eq_or_lt with hzero | hx
    · rw [← hzero] at h
      simp at h
    · exact hx
  · intro hx
    apply Int.ediv_lt_of_lt_mul hpos
    exact mul_lt_mul_of_pos_left hlt hx

include hf hv hlt in
theorem room_floor {start : ℕ} (hstart : ∀ y : Fin n, y < start → f y = 0) (x : ℕ) :
    room f (fun y => f y * v / ∑ z, f z) start x = #{y : Fin n | y < x ∧ 0 < f y} := by
  unfold room
  congr 1
  ext y
  simp only [mem_filter, mem_univ, true_and, floor_lt_iff hf hv hlt]
  constructor
  · exact fun h => h.2
  · rintro ⟨hyx, hy⟩
    refine ⟨not_lt.mp fun hlow => ?_, hyx, hy⟩
    rw [hstart y hlow] at hy
    exact lt_irrefl 0 hy

include hf hv hlt in
/-- No more units are left than there are places that hold something. -/
theorem leftover_le : leftover f v ≤ #{y | 0 < f y} := by
  have hpos : 0 < ∑ y, f y := hv.trans hlt
  have hsum : leftover f v * ∑ y, f y ≤ #{y | 0 < f y} * ∑ y, f y := by
    calc leftover f v * ∑ y, f y = ∑ x, f x * v % ∑ y, f y := leftover_mul
      _ ≤ ∑ x, if 0 < f x then ∑ y, f y else 0 := by
        refine sum_le_sum fun x _ => ?_
        split_ifs with hx
        · exact (Int.emod_lt_of_pos _ hpos).le
        · have hzero : f x = 0 := le_antisymm (not_lt.mp hx) (hf x)
          simp [hzero]
      _ = #{y | 0 < f y} * ∑ y, f y := by
        rw [sum_ite, sum_const, sum_const_zero, add_zero, nsmul_eq_mul]
  exact le_of_mul_le_mul_right hsum hpos

include hf hv hlt in
/-- The walk over the rounded shares ends in the shares. -/
theorem topUp_share {start fuel : ℕ} (hstart : ∀ y : Fin n, y < start → f y = 0)
    (hfuel : n ≤ fuel + start) :
    (topUp f start fuel start (leftover f v) (fun x => f x * v / ∑ y, f y)).2 = share f v := by
  have hroom := room_floor hf hv hlt hstart
  have hall : leftover f v ≤ room f (fun x => f x * v / ∑ y, f y) start n := by
    rw [hroom]
    refine (leftover_le hf hv hlt).trans_eq ?_
    congr 2
    ext y
    simp
  funext x
  rw [topUp_once hfuel hall, share, hroom]
  congr 1
  refine if_congr ?_ rfl rfl
  rw [floor_lt_iff hf hv hlt, rank]
  refine and_iff_right_of_imp ?_
  rintro ⟨hx, -⟩
  by_contra hlow
  rw [hstart x (not_le.mp hlow)] at hx
  exact lt_irrefl 0 hx

include hf hv hlt in
theorem sum_share : ∑ x, share f v x = v := by
  have hpos : 0 < ∑ y, f y := hv.trans hlt
  obtain ⟨left, hleft⟩ := Int.eq_ofNat_of_zero_le (leftover_nonneg (v := v) hpos)
  have hn : 0 < n := by
    by_contra hzero
    obtain rfl : n = 0 := by omega
    simp at hpos
  have hdone : (topUp f 0 ((left + 1) * n) 0 left (fun x => f x * v / ∑ y, f y)).1 = 0 := by
    refine topUp_complete 0 left _ (fun i hi => absurd hi (Nat.not_lt_zero _)) ?_ _ _ ?_ le_rfl hn
    · rw [← hleft, leftover, sum_sub_distrib]
      omega
    · exact Nat.mul_le_mul_right n (Nat.le_succ left)
  have hshare : (topUp f 0 ((left + 1) * n) 0 (leftover f v) fun x => f x * v / ∑ y, f y).2 =
      share f v :=
    topUp_share hf hv hlt (fun y hy => absurd hy (Nat.not_lt_zero _)) (by nlinarith)
  have hwalk := topUp_sum f 0 ((left + 1) * n) 0 left fun x => f x * v / ∑ y, f y
  rw [hdone, add_zero, ← hleft, hshare] at hwalk
  rw [hwalk, leftover]
  ring

/-- The shares of all that is there are what is there. -/
theorem share_all (hf : ∀ x, 0 ≤ f x) : share f (∑ y, f y) = f := by
  funext x
  rcases (Finset.sum_nonneg fun y _ => hf y).eq_or_lt with hzero | hpos
  · have hnone : f x = 0 := (Finset.sum_eq_zero_iff_of_nonneg fun y _ => hf y).mp hzero.symm x
      (Finset.mem_univ x)
    rw [share_of_zero hnone, hnone]
  · rw [share_of_leftover (leftover_all hpos rfl).le]
    exact Int.mul_ediv_cancel _ hpos.ne'

/-- The shares of a value that is there make up the value. -/
theorem sum_share_of_le (hf : ∀ x, 0 ≤ f x) (hv : 0 ≤ v) (hle : v ≤ ∑ y, f y) :
    ∑ x, share f v x = v := by
  rcases hv.eq_or_lt with rfl | hpos
  · simp
  rcases hle.eq_or_lt with rfl | hlt
  · rw [share_all hf]
  · exact sum_share hf hpos hlt

end Share

/-! ## Shares of the rest -/

section Again

/-- What is shared out once more, from what a unit more or less than the rounded share leaves. -/
theorem floor_again {w t u : ℤ} (hrest : 0 < t - v) :
    (w - (w * v / t + u)) * v / (t - v) = w * v / t + (w * v % t - u * v) / (t - v) := by
  have hsplit : (w - (w * v / t + u)) * v = w * v % t - u * v + (w * v / t) * (t - v) := by
    have hdiv := Int.emod_add_mul_ediv (w * v) t
    linear_combination - hdiv
  rw [hsplit, Int.add_mul_ediv_right _ _ hrest.ne', add_comm]

/-- Half of what is there, at most. -/
theorem two_floor_le {w t : ℤ} (hw : 0 ≤ w) (hpos : 0 < t) (htwice : 2 * v ≤ t) :
    2 * (w * v / t) ≤ w := by
  have hle := Int.ediv_mul_le (w * v) hpos.ne'
  nlinarith

/-- The shares of the rest are those of the whole if and only if the rounding allows it. -/
theorem share_again_iff (hf : ∀ x, 0 ≤ f x) (hv : 0 ≤ v) (htwice : 2 * v ≤ ∑ y, f y) :
    share (f - share f v) v = share f v ↔ RoundsTwice f v := by
  rcases hv.eq_or_lt with rfl | hv
  · simp only [share_zero, true_iff]
    have hzero : leftover f 0 = 0 := by simp [leftover]
    refine ⟨fun x _ hunit => ?_, fun x hx _ => ?_⟩
    · rw [hzero] at hunit
      omega
    · have hle := single_le_sum (fun y _ => hf y) (mem_univ x)
      simpa using hx.trans_le hle
  have hlt : v < ∑ y, f y := by omega
  have hrest : 0 < ∑ y, f y - v := by omega
  have htotal : ∑ y, (f - share f v) y = ∑ y, f y - v := by
    simp only [Pi.sub_apply, sum_sub_distrib, sum_share hf hv hlt]
  have hfloor : ∀ x, (f - share f v) x * v / (∑ y, f y - v) = f x * v / ∑ y, f y +
      (f x * v % ∑ y, f y - (if 0 < f x ∧ rank f x < leftover f v then 1 else 0) * v) /
        (∑ y, f y - v) := fun x => floor_again hrest
  have hmod : ∀ x, 0 ≤ f x * v % ∑ y, f y ∧ f x * v % ∑ y, f y < ∑ y, f y := fun x =>
    ⟨Int.emod_nonneg _ (by omega), Int.emod_lt_of_pos _ (by omega)⟩
  constructor
  · intro hsame
    refine ⟨fun x hx hunit => ?_, fun x hx hunit => ?_⟩
    · have hcol := congrFun hsame x
      obtain ⟨hlow, hhigh⟩ := hmod x
      rw [share, share, htotal, hfloor, if_pos ⟨hx, hunit⟩, one_mul] at hcol
      have hdown : (f x * v % ∑ y, f y - v) / (∑ y, f y - v) < 1 :=
        Int.ediv_lt_of_lt_mul hrest (by omega)
      split_ifs at hcol with hagain
      · refine ⟨?_, ?_⟩
        · have hzero : 0 ≤ (f x * v % ∑ y, f y - v) / (∑ y, f y - v) := by omega
          have := (Int.ediv_nonneg_iff_of_pos hrest).mp hzero
          omega
        · have hleft := hagain.1
          have hfloor_nonneg := Int.ediv_nonneg (mul_nonneg (hf x) hv.le) (by omega : 0 ≤ ∑ y, f y)
          rw [Pi.sub_apply, share, if_pos ⟨hx, hunit⟩] at hleft
          omega
      · omega
    · have hcol := congrFun hsame x
      obtain ⟨hlow, hhigh⟩ := hmod x
      rw [share, share, htotal, hfloor, if_neg fun h => h.2.not_ge hunit, zero_mul, sub_zero] at hcol
      have hup : 0 ≤ (f x * v % ∑ y, f y) / (∑ y, f y - v) := Int.ediv_nonneg hlow hrest.le
      by_contra hover
      have hone : 1 ≤ (f x * v % ∑ y, f y) / (∑ y, f y - v) :=
        (Int.le_ediv_iff_mul_le hrest).mpr (by omega)
      split_ifs at hcol <;> omega
  · intro hrounds
    -- Each place keeps its rounded share and stays above zero.
    have hplace : ∀ x, (f - share f v) x * v / (∑ y, f y - v) = f x * v / ∑ y, f y ∧
        (0 < (f - share f v) x ↔ 0 < f x) := by
      intro x
      obtain ⟨hlow, hhigh⟩ := hmod x
      have htwo := two_floor_le (v := v) (hf x) (by omega) htwice
      have hsplit := Int.emod_add_mul_ediv (f x * v) (∑ y, f y)
      rw [hfloor]
      simp only [Pi.sub_apply, share]
      rcases (hf x).eq_or_lt with hzero | hx
      · simp [← hzero]
      · rcases lt_or_ge (rank f x : ℤ) (leftover f v) with hunit | hunit
        · have hround := hrounds.unit x hx hunit
          have hkept : (f x * v % ∑ y, f y - v) / (∑ y, f y - v) = 0 :=
            Int.ediv_eq_zero_of_lt (by omega) (by omega)
          rw [if_pos ⟨hx, hunit⟩, one_mul, hkept, add_zero]
          refine ⟨rfl, iff_of_true ?_ hx⟩
          by_contra hnone
          have hone : f x * v / ∑ y, f y = 1 := by omega
          have htwo : f x = 2 := by omega
          rw [hone, htwo] at hsplit
          rw [htwo] at hround
          omega
        · have hround := hrounds.none x hx hunit
          have hkept : (f x * v % ∑ y, f y) / (∑ y, f y - v) = 0 :=
            Int.ediv_eq_zero_of_lt hlow (by omega)
          rw [if_neg fun h => h.2.not_ge hunit, zero_mul, sub_zero, hkept, add_zero]
          exact ⟨rfl, iff_of_true (by omega) hx⟩
    have hleftover : leftover (f - share f v) v = leftover f v := by
      rw [leftover, htotal, leftover]
      simp only [fun x => (hplace x).1]
    have hrank : ∀ x, rank (f - share f v) x = rank f x := by
      intro x
      simp only [rank, fun y => (hplace y).2]
    funext x
    rw [share, share, htotal, (hplace x).1, hleftover, hrank]
    simp only [(hplace x).2]

/-- A value that comes from one place is not rounded. -/
theorem roundsTwice_single {k : Fin n} {w : ℤ} (hw : 0 < w) (hlt : v < w) :
    RoundsTwice (fun x => if x = k then w else 0) v := by
  have hsum : ∑ x, (if x = k then w else 0) = w := by simp
  have hfloor : ∑ x, (if x = k then w else 0) * v / w = v := by
    rw [sum_eq_single k]
    · rw [if_pos rfl, Int.mul_ediv_cancel_left v hw.ne']
    · intro x _ hx
      simp [hx]
    · exact fun h => absurd (mem_univ k) h
  have hnone : leftover (fun x => if x = k then w else 0) v = 0 := by
    rw [leftover, hsum, hfloor, sub_self]
  refine ⟨fun x _ hunit => ?_, fun x hx _ => ?_⟩
  · rw [hnone] at hunit
    omega
  · have hk : x = k := by
      by_contra hne
      simp [hne] at hx
    rw [hsum]
    simpa [hk] using hlt

end Again

end BitBay.Shares
