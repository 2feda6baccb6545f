import Mathlib.Data.List.Dedup
import Std.Data.ExtTreeMap.Lemmas

/-! Postings: each key has the list of the items filed under it. What is filed is related to the keys that each item
should have. -/

namespace Postings

variable {κ α : Type} {cmp : κ → κ → Ordering} [Std.TransCmp cmp] [DecidableEq α]

/-- The items under a key. -/
def under (table : Std.ExtTreeMap κ (List α) cmp) (k : κ) : List α := (table[k]?).getD []

def fileUnder (a : α) (table : Std.ExtTreeMap κ (List α) cmp) (k : κ) : Std.ExtTreeMap κ (List α) cmp :=
  table.insert k (if a ∈ under table k then under table k else under table k ++ [a])

def file (a : α) (table : Std.ExtTreeMap κ (List α) cmp) (keys : List κ) : Std.ExtTreeMap κ (List α) cmp :=
  keys.foldl (fileUnder a) table

def withdraw (a : α) (table : Std.ExtTreeMap κ (List α) cmp) : Std.ExtTreeMap κ (List α) cmp :=
  table.map (fun _ items => items.filter (· ≠ a))

/-- Whatever is under one of the keys, once. -/
def collect (table : Std.ExtTreeMap κ (List α) cmp) (keys : List κ) : List α := (keys.flatMap (under table)).dedup

variable {table : Std.ExtTreeMap κ (List α) cmp} {a b : α} {k k' : κ}

omit [DecidableEq α] in
@[simp] theorem under_empty : under (∅ : Std.ExtTreeMap κ (List α) cmp) k = [] := by
  simp [under]

theorem mem_under_fileUnder [Std.LawfulEqCmp cmp] : b ∈ under (fileUnder a table k) k' ↔
    b ∈ under table k' ∨ (b = a ∧ k' = k) := by
  by_cases hk : k' = k
  · subst hk
    have hs : under (fileUnder a table k') k' =
        if a ∈ under table k' then under table k' else under table k' ++ [a] := by
      simp [under,fileUnder]
    rw [hs]
    split
    · rename_i hm
      constructor
      · exact .inl
      · rintro (h | ⟨rfl,-⟩)
        · exact h
        · exact hm
    · simp
  · have hc : ¬ cmp k k' = .eq := by
      rw [Std.LawfulEqCmp.compare_eq_iff_eq]
      exact fun h => hk h.symm
    have ho : under (fileUnder a table k) k' = under table k' := by
      simp [under,fileUnder,Std.ExtTreeMap.getElem?_insert,hc]
    rw [ho]
    simp [hk]

theorem mem_under_file [Std.LawfulEqCmp cmp] {keys : List κ} : b ∈ under (file a table keys) k ↔
    b ∈ under table k ∨ (b = a ∧ k ∈ keys) := by
  induction keys generalizing table with
  | nil => simp [file]
  | cons first keys ih =>
    have hc : file a table (first::keys) = file a (fileUnder a table first) keys := rfl
    rw [hc,ih,mem_under_fileUnder,or_assoc,← and_or_left,List.mem_cons]

theorem mem_under_withdraw [Std.LawfulEqCmp cmp] : b ∈ under (withdraw a table) k ↔ b ∈ under table k ∧ b ≠ a := by
  unfold under withdraw
  rw [Std.ExtTreeMap.getElem?_map]
  cases table[k]? with
  | none => simp
  | some items => simp

@[simp] theorem mem_collect {keys : List κ} : a ∈ collect table keys ↔ ∃ k ∈ keys, a ∈ under table k := by
  simp [collect]

theorem nodup_collect (keys : List κ) : (collect table keys).Nodup := List.nodup_dedup _

/-- Each item is under the keys that `keysOf` gives it and under no other. -/
def Filed (table : Std.ExtTreeMap κ (List α) cmp) (keysOf : α → Option (List κ)) : Prop :=
  ∀ a k, a ∈ under table k ↔ ∃ keys, keysOf a = some keys ∧ k ∈ keys

variable {keysOf : α → Option (List κ)}

omit [DecidableEq α] in
theorem filed_empty : Filed (∅ : Std.ExtTreeMap κ (List α) cmp) (fun _ : α => none) := by
  intro a k
  simp

/-- An item that had no other keys than the ones it is given now. -/
theorem Filed.file [Std.LawfulEqCmp cmp] (h : Filed table keysOf) {keys : List κ}
    (ho : ∀ old, keysOf a = some old → old ⊆ keys) :
    Filed (file a table keys) (Function.update keysOf a (some keys)) := by
  intro b k
  rw [mem_under_file,h b k]
  by_cases hb : b = a
  · subst hb
    rw [Function.update_self]
    constructor
    · rintro (⟨old,he,hk⟩ | ⟨-,hk⟩)
      · exact ⟨keys,rfl,ho old he hk⟩
      · exact ⟨keys,rfl,hk⟩
    · rintro ⟨given,hg,hk⟩
      obtain rfl := Option.some.inj hg
      exact .inr ⟨rfl,hk⟩
  · rw [Function.update_of_ne hb]
    simp [hb]

theorem Filed.withdraw [Std.LawfulEqCmp cmp] (h : Filed table keysOf) (a : α) :
    Filed (withdraw a table) (Function.update keysOf a none) := by
  intro b k
  rw [mem_under_withdraw,h b k]
  by_cases hb : b = a
  · subst hb
    simp
  · rw [Function.update_of_ne hb]
    simp [hb]

theorem Filed.mem_collect (h : Filed table keysOf) {keys : List κ} :
    a ∈ collect table keys ↔ ∃ own, keysOf a = some own ∧ ∃ k ∈ own, k ∈ keys := by
  rw [Postings.mem_collect]
  constructor
  · rintro ⟨k,hk,hu⟩
    obtain ⟨own,ho,hm⟩ := (h a k).mp hu
    exact ⟨own,ho,k,hm,hk⟩
  · rintro ⟨own,ho,k,hm,hk⟩
    exact ⟨k,hk,(h a k).mpr ⟨own,ho,hm⟩⟩

end Postings
