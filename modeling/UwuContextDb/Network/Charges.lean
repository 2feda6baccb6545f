import Mathlib.Data.List.GetD
import Mathlib.Tactic.Positivity
import UwuContextDb.Network.Privacy

/-! Charges at the orders of the ledger: their sums, their differences, and their ε. -/

namespace UwuContextDb.Network

namespace RdpCharge

section Updates

variable {K : Type} {f : K → K → K}

@[simp] theorem length_updateEach (lefts rights : List K) : (updateEach f lefts rights).length = lefts.length := by
  induction lefts generalizing rights with
  | nil => cases rights <;> rfl
  | cons left lefts ih =>
    cases rights with
    | nil => rfl
    | cons right rights => simp [updateEach,ih]

theorem getD_updateEach [Zero K] (hz : f 0 0 = 0) {lefts rights : List K} (h : lefts.length = rights.length) (i : ℕ) :
    (updateEach f lefts rights).getD i 0 = f (lefts.getD i 0) (rights.getD i 0) := by
  induction lefts generalizing rights i with
  | nil =>
    obtain rfl := List.length_eq_zero_iff.mp h.symm
    simp [updateEach,hz]
  | cons left lefts ih =>
    cases rights with
    | nil => simp at h
    | cons right rights =>
      cases i with
      | zero => rfl
      | succ i => simpa [updateEach] using ih (by simpa using h) i

theorem forall_updateEach {P : K → Prop} (hf : ∀ a b, P a → P b → P (f a b)) {lefts rights : List K}
    (hl : ∀ a ∈ lefts, P a) (hr : ∀ b ∈ rights, P b) : ∀ c ∈ updateEach f lefts rights, P c := by
  induction lefts generalizing rights with
  | nil => cases rights <;> simp [updateEach]
  | cons left lefts ih =>
    cases rights with
    | nil => exact hl
    | cons right rights =>
      intro c hc
      rcases List.mem_cons.mp hc with rfl | hc
      · exact hf left right (hl left List.mem_cons_self) (hr right List.mem_cons_self)
      · exact ih (fun a ha => hl a (List.mem_cons_of_mem _ ha)) (fun b hb => hr b (List.mem_cons_of_mem _ hb)) c hc

end Updates

@[simp] theorem charged_zero {K : Type} [Field K] (i : ℕ) : (zero : RdpCharge K).charged i = 0 := by
  unfold charged zero
  rcases Nat.lt_or_ge i 8 with hi | hi
  · rw [List.getD_replicate _ hi]
  · rw [List.getD_eq_default _ _ (by simpa using hi)]

section Ordered

variable {K : Type} [Field K] [LinearOrder K] {charge other : RdpCharge K}

theorem Proper.charged_nonneg (h : charge.Proper) (i : ℕ) : 0 ≤ charge.charged i := by
  unfold charged
  rcases Nat.lt_or_ge i charge.epsilons.length with hi | hi
  · rw [List.getD_eq_getElem _ _ hi]
    exact h.nonneg _ (List.getElem_mem hi)
  · rw [List.getD_eq_default _ _ hi]

theorem zero_proper : (zero : RdpCharge K).Proper := ⟨rfl,rfl,fun _ h => (List.eq_of_mem_replicate h).ge⟩

theorem laplace_proper (epsilon : K) : (laplace epsilon).Proper := by
  refine ⟨rfl,rfl,fun part h => ?_⟩
  rw [List.eq_of_mem_replicate h]
  exact le_max_right _ _

theorem charged_addAssign (h : charge.Proper) (ho : other.Proper) (i : ℕ) :
    (charge.addAssign other).charged i = charge.charged i + other.charged i := by
  have hs : ¬ charge.orders ≠ other.orders := not_not.mpr (h.orders.trans ho.orders.symm)
  rw [addAssign,if_neg hs]
  exact getD_updateEach (add_zero 0) (h.length.trans ho.length.symm) i

theorem subAssign_proper (h : charge.Proper) (ho : other.Proper) : (charge.subAssign other).Proper := by
  have hs : ¬ charge.orders ≠ other.orders := not_not.mpr (h.orders.trans ho.orders.symm)
  rw [subAssign,if_neg hs]
  exact ⟨h.orders,by simp [h.length],forall_updateEach (fun a b _ _ => le_max_right _ _) h.nonneg ho.nonneg⟩

end Ordered

section Exact

variable {K : Type} [Field K] [LinearOrder K] [IsStrictOrderedRing K] {charge other : RdpCharge K}

theorem rdpOrders_pos : ∀ alpha ∈ (rdpOrders : List K), 0 ≤ alpha := by
  intro alpha h
  simp only [rdpOrders,List.mem_cons,List.not_mem_nil,or_false] at h
  rcases h with rfl | rfl | rfl | rfl | rfl | rfl | rfl | rfl <;> norm_num

theorem gaussian_proper (sensitivity sigma : K) : (gaussian sensitivity sigma).Proper := by
  refine ⟨rfl,rfl,fun part h => ?_⟩
  obtain ⟨alpha,ha,rfl⟩ := List.mem_map.mp h
  have hp := rdpOrders_pos alpha ha
  positivity

theorem addAssign_proper (h : charge.Proper) (ho : other.Proper) : (charge.addAssign other).Proper := by
  have hs : ¬ charge.orders ≠ other.orders := not_not.mpr (h.orders.trans ho.orders.symm)
  rw [addAssign,if_neg hs]
  exact ⟨h.orders,by simp [h.length],forall_updateEach (fun a b => add_nonneg) h.nonneg ho.nonneg⟩

theorem charged_subAssign (h : charge.Proper) (ho : other.Proper) {i : ℕ} (hl : other.charged i ≤ charge.charged i) :
    (charge.subAssign other).charged i = charge.charged i - other.charged i := by
  have hs : ¬ charge.orders ≠ other.orders := not_not.mpr (h.orders.trans ho.orders.symm)
  have hz : max ((0 : K) - 0) 0 = 0 := by simp
  rw [subAssign,if_neg hs]
  refine (getD_updateEach hz (h.length.trans ho.length.symm) i).trans ?_
  exact max_eq_left (sub_nonneg.mpr hl)

theorem forQuery_proper (floats : Floats K) (pol : DpPolicy K) : (PrivacyCost.forQuery floats pol).rdp.Proper := by
  unfold PrivacyCost.forQuery
  dsimp only
  split
  · exact addAssign_proper (addAssign_proper (gaussian_proper _ _) (laplace_proper _)) (laplace_proper _)
  · exact zero_proper

theorem epsilonDelta_mono (floats : Floats K) (delta : K) (h : charge.Proper) (ho : other.Proper)
    (he : ∀ i, charge.charged i ≤ other.charged i) :
    charge.epsilonDelta floats delta ≤ other.epsilonDelta floats delta := by
  have hp : List.Forall₂ (· ≤ ·) charge.epsilons other.epsilons := by
    refine List.forall₂_iff_get.mpr ⟨h.length.trans ho.length.symm,fun i hi hi' => ?_⟩
    have hi'' := he i
    unfold charged at hi''
    rwa [List.getD_eq_getElem _ _ hi,List.getD_eq_getElem _ _ hi'] at hi''
  have hf : ∀ (orders epsilons epsilons' : List K) (least least' : WithTop K), List.Forall₂ (· ≤ ·) epsilons epsilons' →
      least ≤ least' →
      (((orders.zip epsilons).filter (fun pair => decide (1 < pair.1))).map
          (fun pair => pair.2+floats.ln (1 / max delta (1 / 10 ^ 300)) / (pair.1 - 1))).foldl
            (fun least epsilon => min least (epsilon : WithTop K)) least ≤
        (((orders.zip epsilons').filter (fun pair => decide (1 < pair.1))).map
          (fun pair => pair.2+floats.ln (1 / max delta (1 / 10 ^ 300)) / (pair.1 - 1))).foldl
            (fun least epsilon => min least (epsilon : WithTop K)) least' := by
    intro orders
    induction orders with
    | nil => exact fun _ _ _ _ _ hl => hl
    | cons alpha orders ih =>
      intro epsilons epsilons' least least' hal hl
      cases hal with
      | nil => exact hl
      | cons ht hr =>
        rw [List.zip_cons_cons,List.zip_cons_cons,List.filter_cons,List.filter_cons]
        by_cases ha : 1 < alpha
        · rw [if_pos (by simpa using ha),if_pos (by simpa using ha)]
          refine ih _ _ _ _ hr (min_le_min hl ?_)
          exact WithTop.coe_le_coe.mpr (by linarith)
        · rw [if_neg (by simpa using ha),if_neg (by simpa using ha)]
          exact ih _ _ _ _ hr hl
  unfold epsilonDelta
  rw [h.orders,ho.orders]
  exact hf _ _ _ _ _ hp le_rfl

end Exact

end RdpCharge

end UwuContextDb.Network
