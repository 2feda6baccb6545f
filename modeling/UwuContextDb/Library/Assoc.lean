import Mathlib.Data.List.Nodup
import Mathlib.Data.List.Induction

/-! Lists of keys and values, read by `List.lookup`, and what stands for the keys when one value after the other is put. -/

namespace Assoc

variable {α β : Type} [DecidableEq α] {rows : List (α × β)} {key : α} {value : β}

theorem lookup_cons_eq (key other : α) (value : β) (rows : List (α × β)) :
    ((other, value)::rows).lookup key = if key = other then some value else rows.lookup key := by
  by_cases hk : key = other
  · simp [hk]
  · have hb : (key == other) = false := by simpa using hk
    rw [List.lookup_cons,hb,if_neg hk]

theorem mem_of_lookup (h : rows.lookup key = some value) : (key, value) ∈ rows := by
  obtain ⟨front,back,rfl,-⟩ := List.lookup_eq_some_iff.mp h
  simp

theorem lookup_of_mem (hn : (rows.map Prod.fst).Nodup) (hm : (key, value) ∈ rows) : rows.lookup key = some value := by
  induction rows with
  | nil => cases hm
  | cons row rows ih =>
    obtain ⟨other,old⟩ := row
    obtain ⟨ho,hr⟩ := List.nodup_cons.mp hn
    rw [lookup_cons_eq]
    rcases List.mem_cons.mp hm with he | hm
    · obtain ⟨rfl,rfl⟩ := Prod.mk.inj he
      exact if_pos rfl
    · have hne : key ≠ other := by
        intro he
        exact ho (List.mem_map.mpr ⟨(key, value),hm,he⟩)
      rw [if_neg hne]
      exact ih hr hm

theorem lookup_eq_some_iff_mem (hn : (rows.map Prod.fst).Nodup) :
    rows.lookup key = some value ↔ (key, value) ∈ rows :=
  ⟨mem_of_lookup,lookup_of_mem hn⟩

theorem lookup_isSome_iff : (∃ value, rows.lookup key = some value) ↔ key ∈ rows.map Prod.fst := by
  constructor
  · intro h
    obtain ⟨value,hv⟩ := h
    exact List.mem_map.mpr ⟨_,mem_of_lookup hv,rfl⟩
  · intro h
    induction rows with
    | nil => cases h
    | cons row rows ih =>
      obtain ⟨other,old⟩ := row
      rw [lookup_cons_eq]
      by_cases hk : key = other
      · exact ⟨old,if_pos hk⟩
      · rw [if_neg hk]
        exact ih ((List.mem_cons.mp h).resolve_left hk)

theorem lookup_eq_none_iff : rows.lookup key = none ↔ ∀ value, (key, value) ∉ rows := by
  constructor
  · intro h value hm
    obtain ⟨found,hf⟩ := lookup_isSome_iff.mpr (List.mem_map_of_mem hm)
    rw [h] at hf
    cases hf
  · intro h
    cases hl : rows.lookup key with
    | none => rfl
    | some value => exact absurd (mem_of_lookup hl) (h value)

theorem lookup_map_key (f : α → β) (keys : List α) (key : α) :
    (keys.map (fun key => (key, f key))).lookup key = if key ∈ keys then some (f key) else none := by
  induction keys with
  | nil => rfl
  | cons first keys ih =>
    rw [List.map_cons,lookup_cons_eq,ih]
    by_cases hk : key = first
    · simp [hk]
    · simp [hk]

theorem exists_mem_of_lookup (h : rows.lookup key ≠ none) : ∃ value, (key, value) ∈ rows := by
  by_contra hn
  exact h (lookup_eq_none_iff.mpr (not_exists.mp hn))

/-- The rows once the key is given a value, which takes the place of the one it had. -/
def put (rows : List (α × β)) (key : α) (value : β) : List (α × β) :=
  (key, value)::rows.filter (fun row => row.1 ≠ key)

theorem lookup_filter_ne (rows : List (α × β)) (key other : α) :
    (rows.filter (fun row => row.1 ≠ key)).lookup other = if other = key then none else rows.lookup other := by
  induction rows with
  | nil => simp
  | cons row rows ih =>
    obtain ⟨held,value⟩ := row
    by_cases hh : held = key
    · subst hh
      rw [List.filter_cons_of_neg (by simp),ih,lookup_cons_eq]
      split_ifs <;> rfl
    · rw [List.filter_cons_of_pos (by simpa using hh),lookup_cons_eq,lookup_cons_eq,ih]
      by_cases ho : other = held
      · rw [if_pos ho,if_pos ho,if_neg (by rwa [ho])]
      · rw [if_neg ho,if_neg ho]

theorem lookup_put (rows : List (α × β)) (key other : α) (value : β) :
    (put rows key value).lookup other = if other = key then some value else rows.lookup other := by
  rw [put,lookup_cons_eq,lookup_filter_ne]
  split_ifs <;> rfl

/-- Nothing is changed by a value that is there already, and by no other. -/
theorem lookup_put_eq_iff (rows : List (α × β)) (key : α) (value : β) :
    (∀ other, (put rows key value).lookup other = rows.lookup other) ↔ rows.lookup key = some value := by
  simp only [lookup_put]
  constructor
  · intro h
    simpa using (h key).symm
  · intro h other
    split_ifs with ho
    · rw [ho,h]
    · rfl

/-- The rows once the key has a value, that given if it had none. -/
def orPut (rows : List (α × β)) (key : α) (value : β) : List (α × β) :=
  if (rows.lookup key).isSome then rows else put rows key value

theorem lookup_orPut (rows : List (α × β)) (key other : α) (value : β) :
    (orPut rows key value).lookup other =
      if other = key then some ((rows.lookup key).getD value) else rows.lookup other := by
  unfold orPut
  cases hk : rows.lookup key with
  | none => rw [if_neg (by simp),lookup_put,Option.getD_none]
  | some held =>
    rw [if_pos (by simp),Option.getD_some]
    split_ifs with ho
    · rw [ho,hk]
    · rfl

theorem lookup_map_value (f : α → β → β) (rows : List (α × β)) (key : α) :
    (rows.map (fun row => (row.1, f row.1 row.2))).lookup key = (rows.lookup key).map (f key) := by
  induction rows with
  | nil => rfl
  | cons row rows ih =>
    obtain ⟨held,value⟩ := row
    rw [List.map_cons,lookup_cons_eq,lookup_cons_eq,ih]
    split_ifs with hk
    · rw [hk]
      rfl
    · rfl

/-- The rows that no later row with their key follows. -/
def latest : List (α × β) → List (α × β)
  | [] => []
  | row::rows => if row.1 ∈ rows.map Prod.fst then latest rows else row::latest rows

theorem latest_sublist (rows : List (α × β)) : (latest rows).Sublist rows := by
  induction rows with
  | nil => exact List.Sublist.slnil
  | cons row rows ih =>
    rw [latest]
    split_ifs
    · exact ih.cons row
    · exact ih.cons_cons row

theorem latest_concat (rows : List (α × β)) (row : α × β) :
    latest (rows++[row]) = (latest rows).filter (fun held => held.1 ≠ row.1) ++ [row] := by
  induction rows with
  | nil => rfl
  | cons first rows ih =>
    rw [List.cons_append,latest,latest,ih]
    by_cases hl : first.1 ∈ rows.map Prod.fst
    · rw [if_pos hl,if_pos (by simp [hl])]
    · by_cases hr : first.1 = row.1
      · rw [if_pos (by simp [hr]),if_neg hl,List.filter_cons_of_neg (by simpa using hr)]
      · rw [if_neg (by simpa [hr] using hl),if_neg hl,List.filter_cons_of_pos (by simpa using hr),List.cons_append]

theorem foldl_put_perm (rows : List (α × β)) :
    (rows.foldl (fun held row => put held row.1 row.2) []).Perm (latest rows) := by
  induction rows using List.reverseRecOn with
  | nil => exact .nil
  | append_singleton rows row ih =>
    rw [List.foldl_append,latest_concat]
    exact ((ih.filter _).cons row).trans (List.perm_append_singleton row _).symm

theorem lookup_foldl_put (rows : List (α × β)) (key : α) :
    (rows.foldl (fun held row => put held row.1 row.2) []).lookup key =
      ((rows.filter (fun row => row.1 = key)).map Prod.snd).getLast? := by
  induction rows using List.reverseRecOn with
  | nil => rfl
  | append_singleton rows row ih =>
    rw [List.foldl_append,List.foldl_cons,List.foldl_nil,lookup_put,ih,List.filter_append,List.map_append]
    by_cases hk : row.1 = key
    · simp [hk]
    · rw [if_neg (Ne.symm hk)]
      simp [hk]

end Assoc
