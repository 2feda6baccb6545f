import Mathlib.Algebra.BigOperators.Group.List.Basic
import Mathlib.Data.List.Nodup

/-! Sums over the rows of a list, taken group by group: the rows with one key are a group. -/

namespace Groups

variable {α κ M : Type} [DecidableEq κ] [AddCommMonoid M] (key : α → κ)

theorem sum_map_ite_eq {keys : List κ} (hn : keys.Nodup) (k : κ) (m : M) :
    (keys.map (fun other => if k = other then m else 0)).sum = if k ∈ keys then m else 0 := by
  induction keys with
  | nil => rfl
  | cons first keys ih =>
    obtain ⟨hf,he⟩ := List.nodup_cons.mp hn
    rw [List.map_cons,List.sum_cons,ih he]
    by_cases hk : k = first
    · subst hk
      simp [hf]
    · simp [hk]

/-- The sums of the groups of different keys add up to that of the rows with one of the keys. -/
theorem sum_groups {keys : List κ} (hn : keys.Nodup) (g : α → M) (rows : List α) :
    (keys.map (fun k => ((rows.filter (fun row => key row = k)).map g).sum)).sum =
      ((rows.filter (fun row => key row ∈ keys)).map g).sum := by
  induction rows with
  | nil => simp
  | cons row rows ih =>
    have hg : ∀ k, (((row::rows).filter (fun row => key row = k)).map g).sum =
        (if key row = k then g row else 0) + ((rows.filter (fun row => key row = k)).map g).sum := by
      intro k
      by_cases hk : key row = k <;> simp [hk]
    simp only [hg]
    rw [List.sum_map_add,ih,sum_map_ite_eq hn]
    by_cases hr : key row ∈ keys <;> simp [hr]

/-- The rows that meet a condition and the others. -/
theorem sum_filter_add_sum_filter_not (p : α → Prop) [DecidablePred p] (g : α → M) (rows : List α) :
    ((rows.filter p).map g).sum + ((rows.filter (fun row => ¬ p row)).map g).sum = (rows.map g).sum := by
  induction rows with
  | nil => simp
  | cons row rows ih =>
    rw [List.map_cons,List.sum_cons,← ih]
    by_cases hr : p row
    · simp [hr,add_assoc]
    · simp [hr,add_left_comm]

end Groups
