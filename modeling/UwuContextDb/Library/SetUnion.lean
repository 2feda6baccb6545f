import Mathlib.Data.List.Nodup

/-! Sets kept as lists: the union appends the members of the second list that are not there yet, in their order. -/

namespace SetUnion

variable {α : Type} [DecidableEq α]

/-- The members of the second list are pushed one after another, unless they are contained. -/
def union (l r : List α) : List α := r.foldl (fun all a => if a ∈ all then all else all ++ [a]) l

/-- What a union appends. -/
def added (l : List α) : List α → List α
  | [] => []
  | a::r => if a ∈ l then added l r else a::added (l ++ [a]) r

theorem union_eq_append (l r : List α) : union l r = l ++ added l r := by
  induction r generalizing l with
  | nil => simp [union,added]
  | cons a r ih =>
    show union (if a ∈ l then l else l++[a]) r = _
    by_cases ha : a ∈ l
    · simp [ha,ih,added]
    · simp [ha,ih,added]

variable {l r : List α}

theorem mem_added_iff {a : α} : a ∈ added l r ↔ a ∈ r ∧ a ∉ l := by
  induction r generalizing l with
  | nil => simp [added]
  | cons b r ih =>
    by_cases hb : b ∈ l
    · simp only [added,hb,if_true,ih,List.mem_cons]
      constructor
      · intro h
        exact ⟨.inr h.1,h.2⟩
      · intro h
        exact ⟨h.1.resolve_left (fun ha => h.2 (ha ▸ hb)),h.2⟩
    · simp only [added,hb,if_false,List.mem_cons,ih,List.mem_append,List.not_mem_nil,or_false,not_or]
      by_cases ha : a = b
      · simp [ha,hb]
      · simp [ha]

theorem nodup_added (l r : List α) : (added l r).Nodup := by
  induction r generalizing l with
  | nil => exact .nil
  | cons a r ih =>
    by_cases ha : a ∈ l
    · simpa [added,ha] using ih l
    · simp only [added,ha,if_false,List.nodup_cons,mem_added_iff]
      exact ⟨by simp,ih _⟩

@[simp] theorem mem_union_iff {a : α} : a ∈ union l r ↔ a ∈ l ∨ a ∈ r := by
  rw [union_eq_append,List.mem_append,mem_added_iff]
  by_cases ha : a ∈ l <;> simp [ha]

theorem added_eq_nil (h : r ⊆ l) : added l r = [] := by
  apply List.eq_nil_iff_forall_not_mem.mpr
  intro a ha
  obtain ⟨hr,hl⟩ := mem_added_iff.mp ha
  exact hl (h hr)

theorem added_append {l front rest : List α} (h : front ⊆ l) : added l (front++rest) = added l rest := by
  induction front with
  | nil => rfl
  | cons a front ih =>
    obtain ⟨ha,hf⟩ := List.cons_subset.mp h
    simp [added,ha,ih hf]

theorem added_of_new (hr : r.Nodup) (hn : ∀ a ∈ r, a ∉ l) : added l r = r := by
  induction r generalizing l with
  | nil => rfl
  | cons a r ih =>
    obtain ⟨ha,hr⟩ := List.nodup_cons.mp hr
    simp only [added,hn a List.mem_cons_self,if_false]
    rw [ih hr]
    intro b hb hm
    rcases List.mem_append.mp hm with hm | hm
    · exact hn b (List.mem_cons_of_mem _ hb) hm
    · obtain rfl := List.mem_singleton.mp hm
      exact ha hb

/-- The second list is the first one with further members, each new and once. -/
def Continues (l r : List α) : Prop := ∃ rest, r = l ++ rest ∧ rest.Nodup ∧ ∀ a ∈ rest, a ∉ l

theorem Continues.union_comm (h : Continues l r) : union l r = union r l := by
  obtain ⟨rest,rfl,hr,hn⟩ := h
  rw [union_eq_append,union_eq_append,added_append (List.Subset.refl l),added_of_new hr hn,
    added_eq_nil (List.subset_append_left l rest),List.append_nil]

/-- As lists the unions in both orders are the same exactly if one list continues the other. -/
theorem union_comm_iff (l r : List α) : union l r = union r l ↔ Continues l r ∨ Continues r l := by
  constructor
  · intro h
    rw [union_eq_append,union_eq_append] at h
    rcases List.append_eq_append_iff.mp h with ⟨rest,hr,hd⟩ | ⟨rest,hl,hd⟩
    · have hn := nodup_added l r
      rw [hd] at hn
      refine .inl ⟨rest,hr,(List.nodup_append'.mp hn).1,?_⟩
      intro a ha
      exact (mem_added_iff.mp (hd ▸ List.mem_append_left _ ha : a ∈ added l r)).2
    · have hn := nodup_added r l
      rw [hd] at hn
      refine .inr ⟨rest,hl,(List.nodup_append'.mp hn).1,?_⟩
      intro a ha
      exact (mem_added_iff.mp (hd ▸ List.mem_append_left _ ha : a ∈ added r l)).2
  · intro h
    rcases h with h | h
    · exact h.union_comm
    · exact h.union_comm.symm

end SetUnion
