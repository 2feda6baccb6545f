import Mathlib.Algebra.BigOperators.Group.List.Basic
import Mathlib.Algebra.Order.Ring.Nat

/-! The multiple-choice knapsack: from each group at most one choice, within a budget, of the largest value. -/

namespace MultiChoice

variable {α V : Type} [AddCommMonoid V] [LinearOrder V] {cost : α → ℕ} {value : α → V}

/-- At most one choice of each group, in the order of the groups. -/
inductive Picks : List (List α) → List α → Prop
  | none : Picks [] []
  | skip {group : List α} {groups : List (List α)} {sel : List α} (h : Picks groups sel) : Picks (group::groups) sel
  | pick {group : List α} {groups : List (List α)} {sel : List α} {c : α} (hc : c ∈ group) (h : Picks groups sel) :
    Picks (group::groups) (c::sel)

def totalCost (cost : α → ℕ) (sel : List α) : ℕ := (sel.map cost).sum

def totalValue (value : α → V) (sel : List α) : V := (sel.map value).sum

@[simp] theorem totalCost_nil : totalCost cost [] = 0 := rfl

@[simp] theorem totalCost_concat (sel : List α) (c : α) : totalCost cost (sel++[c]) = totalCost cost sel + cost c := by
  simp [totalCost]

omit [LinearOrder V] in
@[simp] theorem totalValue_nil : totalValue value [] = 0 := rfl

omit [LinearOrder V] in
@[simp] theorem totalValue_concat (sel : List α) (c : α) :
    totalValue value (sel ++ [c]) = totalValue value sel + value c := by
  simp [totalValue]

variable {group : List α} {groups : List (List α)} {sel : List α}

theorem Picks.concat_skip (h : Picks groups sel) : Picks (groups++[group]) sel := by
  induction h with
  | none => exact .skip .none
  | skip h ih => exact .skip ih
  | pick hc h ih => exact .pick hc ih

theorem Picks.concat_pick {c : α} (h : Picks groups sel) (hc : c ∈ group) : Picks (groups++[group]) (sel++[c]) := by
  induction h with
  | none => exact .pick hc .none
  | skip h ih => exact .skip ih
  | pick hc' h ih => exact .pick hc' ih

theorem picks_concat : Picks (groups++[group]) sel ↔
    Picks groups sel ∨ ∃ c ∈ group, ∃ sel', Picks groups sel' ∧ sel = sel' ++ [c] := by
  constructor
  · intro h
    induction groups generalizing sel with
    | nil =>
      cases h with
      | skip h =>
        cases h
        exact .inl .none
      | pick hc h =>
        cases h
        exact .inr ⟨_,hc,[], .none,rfl⟩
    | cons g groups ih =>
      cases h with
      | skip h =>
        rcases ih h with h | ⟨c,hc,sel',hs',rfl⟩
        · exact .inl (.skip h)
        · exact .inr ⟨c,hc,sel', .skip hs',rfl⟩
      | pick hc' h =>
        rcases ih h with h | ⟨c,hc,sel',hs',rfl⟩
        · exact .inl (.pick hc' h)
        · exact .inr ⟨c,hc,_, .pick hc' hs',rfl⟩
  · rintro (h | ⟨c,hc,sel',h,rfl⟩)
    · exact h.concat_skip
    · exact h.concat_pick hc

/-- No selection within the budget is worth more than `v`. -/
def Bounded (cost : α → ℕ) (value : α → V) (groups : List (List α)) (budget : ℕ) (v : V) : Prop :=
  ∀ sel, Picks groups sel → totalCost cost sel ≤ budget → totalValue value sel ≤ v

theorem bounded_nil (bud : ℕ) : Bounded cost value [] bud 0 := by
  intro sel h hc
  cases h
  exact le_refl _

/-- The bound with one more group, from the bounds of the budgets that a choice of it leaves. -/
theorem Bounded.concat [IsOrderedAddMonoid V] {best : ℕ → V} {bud : ℕ} {v : V}
    (h : ∀ u ≤ bud, Bounded cost value groups u (best u)) (hk : best bud ≤ v)
    (hp : ∀ c ∈ group, cost c ≤ bud → best (bud - cost c)+value c ≤ v) :
    Bounded cost value (groups++[group]) bud v := by
  intro sel hs ho
  rcases picks_concat.mp hs with hs | ⟨c,hc,sel',hs',rfl⟩
  · exact (h bud le_rfl sel hs ho).trans hk
  · rw [totalCost_concat] at ho
    rw [totalValue_concat]
    have hr : totalValue value sel' ≤ best (bud - cost c) := h (bud - cost c) (Nat.sub_le _ _) sel' hs' (by omega)
    calc totalValue value sel' + value c ≤ best (bud - cost c) + value c := add_le_add_left hr _
      _ ≤ v := hp c hc (by omega)

/-- The selection is feasible, and none that is feasible is worth more. -/
structure Optimal (cost : α → ℕ) (value : α → V) (groups : List (List α)) (budget : ℕ) (sel : List α) : Prop where
  picks : Picks groups sel
  within : totalCost cost sel ≤ budget
  best : Bounded cost value groups budget (totalValue value sel)

end MultiChoice
