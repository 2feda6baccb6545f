import Mathlib.Data.List.Induction

/-! Values that are all made from one snapshot and written one after the other: the last one against the changes of all. -/

namespace LastWrite

variable {α β : Type} [DecidableEq α]

/-- What a value changes of its snapshot, changed of the current value. -/
def change (snapshot current value : α) : α := if value = snapshot then current else value

/-- The changes of all the values, one after the other. -/
def changes (snapshot : α) (values : List α) : α := values.foldl (change snapshot) snapshot

theorem changes_concat (snapshot : α) (values : List α) (value : α) :
    changes snapshot (values++[value]) = change snapshot (changes snapshot values) value := by
  simp [changes,List.foldl_append]

theorem changes_eq_snapshot_iff (snapshot : α) (values : List α) :
    changes snapshot values = snapshot ↔ ∀ v ∈ values, v = snapshot := by
  induction values using List.reverseRecOn with
  | nil => simp [changes]
  | append_singleton values v ih =>
    rw [changes_concat,change]
    by_cases hv : v = snapshot
    · simp [hv,ih,or_imp]
    · simp [hv]

theorem changes_eq_last_iff (snapshot : α) (earlier : List α) (last : α) :
    changes snapshot (earlier++[last]) = last ↔ (last = snapshot → ∀ v ∈ earlier, v = snapshot) := by
  rw [changes_concat,change]
  by_cases hl : last = snapshot
  · simp [hl,changes_eq_snapshot_iff]
  · simp [hl]

theorem foldl_part {part : β → α} {step : β → β → β} (snapshot : β)
    (h : ∀ cur v, part (step cur v) = change (part snapshot) (part cur) (part v))
    (values : List β) :
    part (values.foldl step snapshot) = changes (part snapshot) (values.map part) := by
  induction values using List.reverseRecOn with
  | nil => rfl
  | append_singleton values v ih =>
    rw [List.map_append,List.map_singleton,changes_concat,← ih,List.foldl_append]
    exact h _ v

/-- The last record shows in a part the changes of all exactly if what it leaves there as it was, all of them leave. -/
theorem part_eq_foldl_iff {part : β → α} {step : β → β → β} (snapshot : β)
    (h : ∀ cur v, part (step cur v) = change (part snapshot) (part cur) (part v)) (earlier : List β)
    (last : β) :
    part last = part ((earlier++[last]).foldl step snapshot) ↔
      (part last = part snapshot → ∀ v ∈ earlier, part v = part snapshot) := by
  rw [foldl_part snapshot h,List.map_append,List.map_singleton,eq_comm,changes_eq_last_iff,List.forall_mem_map]

end LastWrite
