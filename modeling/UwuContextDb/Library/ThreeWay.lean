import Mathlib.Tactic.Tauto

/-! Three-way choice at one key: what one side changed over the base is taken, unless the other side
changed it too. -/

namespace ThreeWay

variable {α : Type} [DecidableEq α]

/-- Both sides changed the base, each in its own way. -/
def Conflict (base ours theirs : α) : Prop := theirs ≠ base ∧ ours ≠ base ∧ ours ≠ theirs

instance (base ours theirs : α) : Decidable (Conflict base ours theirs) := by
  unfold Conflict
  infer_instance

/-- The side that changed the base, or `resolved` where both did. -/
def choose (resolved base ours theirs : α) : α :=
  if theirs = base then ours else if ours = base ∨ ours = theirs then theirs else resolved

theorem choose_of_conflict {resolved base ours theirs : α} (h : Conflict base ours theirs) :
    choose resolved base ours theirs = resolved := by
  simp [choose,h.1,h.2.1,h.2.2]

/-- Without a conflict the resolution does not matter: theirs if they changed the base, else ours. -/
theorem choose_of_not_conflict {resolved base ours theirs : α} (h : ¬ Conflict base ours theirs) :
    choose resolved base ours theirs = if theirs = base then ours else theirs := by
  by_cases ht : theirs = base
  · simp [choose,ht]
  · have ho : ours = base ∨ ours = theirs := by
      unfold Conflict at h
      tauto
    simp [choose,ht,ho]

theorem Conflict.symm {β : Type} {base ours theirs : β} (h : Conflict base ours theirs) : Conflict base theirs ours :=
  ⟨h.2.1,h.1,h.2.2.symm⟩

/-- Exchanging the sides changes nothing. -/
theorem choose_comm (resolved base ours theirs : α) :
    choose resolved base theirs ours = choose resolved base ours theirs := by
  by_cases h : Conflict base ours theirs
  · rw [choose_of_conflict h,choose_of_conflict h.symm]
  · rw [choose_of_not_conflict h,choose_of_not_conflict (fun hc => h hc.symm)]
    by_cases ho : ours = base
    · by_cases ht : theirs = base
      · simp [ho,ht]
      · simp [ho,ht]
    · by_cases ht : theirs = base
      · simp [ho,ht]
      · have he : ours = theirs := by
          unfold Conflict at h
          tauto
        simp [ht,he]

end ThreeWay
