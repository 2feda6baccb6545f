import Mathlib.Algebra.BigOperators.Ring.Finset
import Mathlib.Algebra.Order.Archimedean.Basic
import Mathlib.Algebra.Order.BigOperators.Group.Finset

/-! Iterations of a contraction that stop early, with distances in an ordered field. An iterate is compared with later
iterates, so that no limit has to exist. -/

namespace Contraction

variable {F : Type*} [Field F] [LinearOrder F]

section Stopped

variable {α : Type*} (gap : α → α → F) (step : α → α)

/-- At most `k` steps; the first that moves by less than `e` is the last. -/
def settle (e : F) : ℕ → α → α
  | 0, x => x
  | k + 1, x => if gap (step x) x < e then step x else settle e k (step x)

/-- On the states of `s` the step shrinks distances by the factor `d`, and no two states are further apart than `D`. -/
structure Contracts (s : Set α) (d D : F) : Prop where
  refl : ∀ x, gap x x = 0
  symm : ∀ x y, gap x y = gap y x
  triangle : ∀ x y z, gap x z ≤ gap x y + gap y z
  maps : ∀ x ∈ s, step x ∈ s
  shrinks : ∀ x ∈ s, ∀ y ∈ s, gap (step x) (step y) ≤ d * gap x y
  bounded : ∀ x ∈ s, ∀ y ∈ s, gap x y ≤ D

variable {gap step} {s : Set α} {d D e : F}

theorem Contracts.iterate_mem (h : Contracts gap step s d D) {x : α} (hx : x ∈ s) (k : ℕ) : step^[k] x ∈ s := by
  induction k with
  | zero => exact hx
  | succ k ih =>
    rw [Function.iterate_succ_apply']
    exact h.maps _ ih

omit [Field F] in
/-- The last step was the last of all, or a short one. -/
theorem settle_cases (gap : α → α → F) (step : α → α) (e : F) (k : ℕ) (x : α) : settle gap step e k x = step^[k] x ∨
    ∃ m, settle gap step e k x = step (step^[m] x) ∧ gap (step (step^[m] x)) (step^[m] x) < e := by
  induction k generalizing x with
  | zero => exact .inl rfl
  | succ k ih =>
    unfold settle
    by_cases hs : gap (step x) x < e
    · rw [if_pos hs]
      exact .inr ⟨0, rfl, hs⟩
    · rw [if_neg hs]
      rcases ih (step x) with ha | ⟨m, he, hm⟩
      · exact .inl ha
      · exact .inr ⟨m + 1, he, hm⟩

theorem Contracts.settle_mem (h : Contracts gap step s d D) {x : α} (hx : x ∈ s) (k : ℕ) :
    settle gap step e k x ∈ s := by
  rcases settle_cases gap step e k x with he | ⟨m,he,-⟩
  · rw [he]
    exact h.iterate_mem hx k
  · rw [he]
    exact h.maps _ (h.iterate_mem hx m)

variable [IsStrictOrderedRing F]

theorem Contracts.nonneg (h : Contracts gap step s d D) (x y : α) : 0 ≤ gap x y := by
  have ht := h.triangle x y x
  rw [h.refl,h.symm y x] at ht
  linarith

theorem Contracts.iterate_gap (h : Contracts gap step s d D) (hd : 0 ≤ d) {x y : α} (hx : x ∈ s) (hy : y ∈ s) (k : ℕ) :
    gap (step^[k] x) (step^[k] y) ≤ d ^ k * gap x y := by
  induction k with
  | zero => simp
  | succ k ih =>
    rw [Function.iterate_succ_apply',Function.iterate_succ_apply',pow_succ',mul_assoc]
    calc gap (step (step^[k] x)) (step (step^[k] y))
        ≤ d * gap (step^[k] x) (step^[k] y) := h.shrinks _ (h.iterate_mem hx k) _ (h.iterate_mem hy k)
      _ ≤ d * (d ^ k*gap x y) := mul_le_mul_of_nonneg_left ih hd

theorem Contracts.gap_iterate (h : Contracts gap step s d D) (hd : 0 ≤ d) (hd1 : d < 1) {x : α} (hx : x ∈ s) (m : ℕ) :
    gap x (step^[m] x) ≤ gap x (step x) / (1 - d) := by
  have hp : 0 < 1 - d := sub_pos.mpr hd1
  induction m with
  | zero =>
    rw [Function.iterate_zero_apply,h.refl]
    exact div_nonneg (h.nonneg _ _) hp.le
  | succ m ih =>
    rw [Function.iterate_succ_apply']
    have hr := (h.shrinks _ hx _ (h.iterate_mem hx m)).trans (mul_le_mul_of_nonneg_left ih hd)
    have hs : gap x (step x) + d * (gap x (step x) / (1 - d)) = gap x (step x) / (1 - d) := by
      field_simp
      ring
    rw [← hs]
    exact (h.triangle _ (step x) _).trans (by linarith)

/-- However the iteration stops, further steps stay near. -/
theorem Contracts.settle_gap_iterate (h : Contracts gap step s d D) (hd : 0 ≤ d) (hd1 : d < 1) {x : α} (hx : x ∈ s)
    (k m : ℕ) : gap (settle gap step e k x) (step^[m] (settle gap step e k x)) ≤ max (e*d / (1 - d)) (D*d ^ k) := by
  rcases settle_cases gap step e k x with he | ⟨j,he,hs⟩
  · rw [he,← Function.iterate_add_apply,Nat.add_comm,Function.iterate_add_apply]
    refine le_trans ?_ (le_max_right _ _)
    calc gap (step^[k] x) (step^[k] (step^[m] x))
        ≤ d ^ k * gap x (step^[m] x) := h.iterate_gap hd hx (h.iterate_mem hx m) k
      _ ≤ d ^ k * D := mul_le_mul_of_nonneg_left (h.bounded _ hx _ (h.iterate_mem hx m)) (pow_nonneg hd k)
      _ = D * d ^ k := mul_comm _ _
  · rw [he]
    refine le_trans ?_ (le_max_left _ _)
    have hj := h.iterate_mem hx j
    have hm : gap (step (step^[j] x)) (step (step (step^[j] x))) ≤ e * d := by
      calc gap (step (step^[j] x)) (step (step (step^[j] x)))
          ≤ d * gap (step^[j] x) (step (step^[j] x)) := h.shrinks _ hj _ (h.maps _ hj)
        _ ≤ d * e := by
          rw [h.symm]
          exact mul_le_mul_of_nonneg_left hs.le hd
        _ = e * d := mul_comm _ _
    exact (h.gap_iterate hd hd1 (h.maps _ hj) m).trans (div_le_div_of_nonneg_right hm (sub_pos.mpr hd1).le)

theorem Contracts.settle_gap_settle [Archimedean F] (h : Contracts gap step s d D) (hd : 0 ≤ d) (hd1 : d < 1) {x y : α}
    (hx : x ∈ s) (hy : y ∈ s) (k : ℕ) :
    gap (settle gap step e k x) (settle gap step e k y) ≤ 2 * max (e*d / (1 - d)) (D*d ^ k) := by
  set near := max (e*d / (1 - d)) (D*d ^ k)
  have hi (m : ℕ) : gap (settle gap step e k x) (settle gap step e k y) ≤ 2 * near + d ^ m * D := by
    have hl := h.settle_gap_iterate (e := e) hd hd1 hx k m
    have hr := h.settle_gap_iterate (e := e) hd hd1 hy k m
    have hx' := h.settle_mem (e := e) hx k
    have hy' := h.settle_mem (e := e) hy k
    have hmi := (h.iterate_gap hd hx' hy' m).trans
      (mul_le_mul_of_nonneg_left (h.bounded _ hx' _ hy') (pow_nonneg hd m))
    rw [h.symm] at hr
    have hfi := h.triangle (settle gap step e k x) (step^[m] (settle gap step e k x)) (settle gap step e k y)
    have hs := h.triangle (step^[m] (settle gap step e k x)) (step^[m] (settle gap step e k y))
      (settle gap step e k y)
    linarith
  -- the last summand is as small as one likes, after enough steps
  by_contra hf
  rw [not_le] at hf
  have hD : 0 < D := by
    by_contra hD
    have := hi 0
    rw [pow_zero,one_mul] at this
    linarith
  obtain ⟨m,hm⟩ := exists_pow_lt_of_lt_one (div_pos (sub_pos.mpr hf) hD) hd1
  rw [lt_div_iff₀ hD] at hm
  have := hi m
  linarith

end Stopped

section Spread

variable {ι : Type*} (N : Finset ι) (w : ι → ι → F)

/-- Every node of `N` hands on at most what it has. -/
structure Substochastic : Prop where
  nonneg : ∀ u ∈ N, ∀ v ∈ N, 0 ≤ w u v
  sum_le_one : ∀ u ∈ N, ∑ v ∈ N, w u v ≤ 1

variable {N w} [IsStrictOrderedRing F]

theorem Substochastic.sum_le (h : Substochastic N w) {z : ι → F} (hz : ∀ u ∈ N, 0 ≤ z u) :
    ∑ v ∈ N, ∑ u ∈ N, z u * w u v ≤ ∑ u ∈ N, z u := by
  rw [Finset.sum_comm]
  refine Finset.sum_le_sum (fun u hu => ?_)
  rw [← Finset.mul_sum]
  exact mul_le_of_le_one_right (hz u hu) (h.sum_le_one u hu)

theorem Substochastic.sum_abs_le (h : Substochastic N w) (z : ι → F) :
    ∑ v ∈ N, |∑ u ∈ N, z u * w u v| ≤ ∑ u ∈ N, |z u| := by
  refine le_trans (Finset.sum_le_sum (fun v hv => ?_)) (h.sum_le (fun u _ => abs_nonneg (z u)))
  refine (Finset.abs_sum_le_sum_abs _ _).trans (Finset.sum_le_sum (fun u hu => ?_))
  rw [abs_mul,abs_of_nonneg (h.nonneg u hu v hv)]

end Spread

end Contraction
