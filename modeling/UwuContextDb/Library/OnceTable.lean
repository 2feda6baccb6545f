import Mathlib.Data.List.Nodup

/-! A table of bounded size that lets a key in once for as long as it remembers it: what is past is forgotten first, a
key that is still there is refused, and so is one that finds the table full. -/

namespace OnceTable

inductive Verdict | entered | repeated | full deriving DecidableEq

variable {K V : Type}

/-- The entries that `keep` still remembers. -/
def purge (keep : V → Bool) (table : List (K × V)) : List (K × V) := table.filter (fun e => keep e.2)

def holds [DecidableEq K] (key : K) (table : List (K × V)) : Bool := table.any (fun e => e.1 = key)

def enter [DecidableEq K] (keep : V → Bool) (capacity : ℕ) (key : K) (value : V) (table : List (K × V)) :
    Verdict × List (K × V) :=
  let remembered := purge keep table
  if holds key remembered then (.repeated, remembered)
  else if capacity ≤ remembered.length then (.full, remembered)
  else (.entered, remembered ++ [(key, value)])

variable {keep : V → Bool} {capacity : ℕ} {key : K} {value : V} {table : List (K × V)}

@[simp] theorem mem_purge {e : K × V} : e ∈ purge keep table ↔ e ∈ table ∧ keep e.2 = true := List.mem_filter

@[simp] theorem holds_iff [DecidableEq K] : holds key table = true ↔ ∃ v, (key, v) ∈ table := by
  constructor
  · intro h
    obtain ⟨⟨k,v⟩,hm,hk⟩ := List.any_eq_true.mp h
    obtain rfl : k = key := of_decide_eq_true hk
    exact ⟨v,hm⟩
  · rintro ⟨v,hm⟩
    exact List.any_eq_true.mpr ⟨(key, v),hm,decide_eq_true rfl⟩

def Distinct (table : List (K × V)) : Prop := (table.map Prod.fst).Nodup

theorem Distinct.purge (h : Distinct table) : Distinct (purge keep table) := h.sublist (List.filter_sublist.map _)

theorem Distinct.length_le {table' : List (K × V)} (h : Distinct table) (hs : table ⊆ table') :
    table.length ≤ table'.length :=
  (List.Nodup.of_map _ h).length_le_of_subset hs

variable [DecidableEq K]

theorem Distinct.enter (h : Distinct table) : Distinct (enter keep capacity key value table).2 := by
  unfold OnceTable.enter
  dsimp only
  split
  · exact h.purge
  · rename_i hn
    split
    · exact h.purge
    · unfold Distinct
      rw [List.map_append,List.map_singleton]
      apply List.nodup_append.mpr ⟨h.purge,by simp,?_⟩
      intro k hk k' hk' hq
      obtain ⟨e,he,rfl⟩ := List.mem_map.mp hk
      obtain rfl := List.mem_singleton.mp hk'
      exact hn (holds_iff.mpr ⟨e.2,hq ▸ he⟩)

theorem length_enter_le (h : table.length ≤ capacity) : (enter keep capacity key value table).2.length ≤ capacity := by
  have hp : (purge keep table).length ≤ table.length := List.length_filter_le _ _
  unfold enter
  dsimp only
  split
  · exact Nat.le_trans hp h
  · split
    · exact Nat.le_trans hp h
    · rw [List.length_append,List.length_singleton]
      omega

/-- A key is let in exactly if no entry of it is remembered and there is room. -/
theorem enter_entered : (enter keep capacity key value table).1 = .entered ↔
    (∀ v, (key, v) ∈ table → keep v = false) ∧ (purge keep table).length < capacity := by
  have hr : holds key (purge keep table) = false ↔ ∀ v, (key, v) ∈ table → keep v = false := by
    rw [← Bool.not_eq_true,holds_iff]
    simp
  unfold enter
  dsimp only
  rw [← hr]
  cases holds key (purge keep table) with
  | true => simp
  | false =>
    by_cases hf : capacity ≤ (purge keep table).length
    · simp [hf]
    · simp [hf,Nat.lt_of_not_le hf]

/-- What is in the table after a key has come: the entries remembered, and the key's own if it was let in. -/
theorem mem_enter {e : K × V} : e ∈ (enter keep capacity key value table).2 ↔
    (e ∈ table ∧ keep e.2 = true) ∨ ((enter keep capacity key value table).1 = .entered ∧ e = (key, value)) := by
  unfold enter
  dsimp only
  split
  · simp
  · split
    · simp
    · simp

theorem enter_of_refused (h : (enter keep capacity key value table).1 ≠ .entered) :
    (enter keep capacity key value table).2 = purge keep table := by
  revert h
  unfold enter
  dsimp only
  split
  · simp
  · split
    · simp
    · simp

/-- Of two tables that remember a key alike, the one that remembers no more entries gives no other verdict, unless the other
one is full. -/
theorem enter_congr {table' : List (K × V)} (hk : ∀ v, keep v = true → ((key, v) ∈ table ↔ (key, v) ∈ table'))
    (hr : (purge keep table').length ≤ (purge keep table).length)
    (hf : (enter keep capacity key value table).1 ≠ .full) :
    (enter keep capacity key value table').1 = (enter keep capacity key value table).1 := by
  have hh : holds key (purge keep table') = holds key (purge keep table) := by
    apply Bool.eq_iff_iff.mpr
    simp only [holds_iff,mem_purge]
    exact exists_congr (fun v => and_congr_left (fun he => (hk v he).symm))
  revert hf
  unfold enter
  dsimp only
  rw [hh]
  split
  · simp
  · by_cases hf : capacity ≤ (purge keep table).length
    · simp [hf]
    · have hf' : ¬ capacity ≤ (purge keep table').length := by omega
      simp [hf,hf']

end OnceTable
