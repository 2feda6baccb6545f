import Mathlib.Algebra.Order.Monoid.Unbundled.Basic
import Mathlib.Algebra.BigOperators.Group.List.Basic

/-! Label propagation on a weighted graph. In a round every node in turn takes the label that weighs most among its
neighbours, the least of several; rounds go on until one changes nothing or their number is spent. -/

namespace LabelPropagation

variable {α K : Type} [LinearOrder α] [LinearOrder K] [AddCommMonoid K]

section Rounds

variable (nodes : List α) (weight : α → α → K)

def neighbours (a : α) : List α := nodes.filter (fun b => b ≠ a ∧ 0 < weight a b)

/-- What a label weighs among the neighbours of a node. -/
def score (label : α → α) (a l : α) : K :=
  (((neighbours nodes weight a).filter (fun b => label b = l)).map (weight a)).sum

/-- The label that a node takes. -/
def Elects (label : α → α) (a l : α) : Prop :=
  (∃ b ∈ neighbours nodes weight a, label b = l) ∧
  ∀ b ∈ neighbours nodes weight a, score nodes weight label a (label b) < score nodes weight label a l ∨
    score nodes weight label a (label b) = score nodes weight label a l ∧ l ≤ label b

/-- The given nodes take their labels in turn. -/
inductive Round : List α → (α → α) → (α → α) → Prop
  | done {label : α → α} : Round [] label label
  | keep {a : α} {rest : List α} {label label' : α → α} : neighbours nodes weight a = [] →
      Round rest label label' → Round (a::rest) label label'
  | elect {a l : α} {rest : List α} {label label' : α → α} : Elects nodes weight label a l →
      Round rest (Function.update label a l) label' → Round (a::rest) label label'

/-- Rounds of all nodes, a given number of them at most, and none after one that changed nothing. -/
inductive Settles : ℕ → (α → α) → (α → α) → Prop
  | spent {label : α → α} : Settles 0 label label
  | stable {n : ℕ} {label : α → α} : Round nodes weight nodes label label → Settles (n + 1) label label
  | again {n : ℕ} {label label' label'' : α → α} : Round nodes weight nodes label label' → label' ≠ label →
      Settles n label' label'' → Settles (n + 1) label label''

end Rounds

variable {nodes : List α} {weight : α → α → K} {label label' label'' : α → α} {a l l' : α} {rest : List α}

theorem Elects.unique (h : Elects nodes weight label a l) (h' : Elects nodes weight label a l') : l = l' := by
  obtain ⟨⟨b,hb,rfl⟩,hm⟩ := h
  obtain ⟨⟨c,hc,rfl⟩,hm'⟩ := h'
  rcases hm c hc with hl | ⟨he,hle⟩
  · rcases hm' b hb with hl' | ⟨he',-⟩
    · exact absurd hl (lt_asymm hl')
    · exact absurd he' hl.ne'
  · rcases hm' b hb with hl' | ⟨-,hle'⟩
    · exact absurd he hl'.ne'
    · exact le_antisymm hle hle'

theorem Elects.neighbours_ne (h : Elects nodes weight label a l) : neighbours nodes weight a ≠ [] := by
  obtain ⟨⟨b,hb,-⟩,-⟩ := h
  exact List.ne_nil_of_mem hb

theorem Round.unique (h : Round nodes weight rest label label') (h' : Round nodes weight rest label label'') :
    label' = label'' := by
  induction h with
  | done =>
    cases h'
    rfl
  | keep hn _ ih =>
    cases h' with
    | keep _ hr => exact ih hr
    | elect he _ => exact absurd hn he.neighbours_ne
  | elect he _ ih =>
    cases h' with
    | keep hn _ => exact absurd hn he.neighbours_ne
    | elect he' hr =>
      obtain rfl := he.unique he'
      exact ih hr

theorem Settles.unique {n : ℕ} (h : Settles nodes weight n label label') (h' : Settles nodes weight n label label'') :
    label' = label'' := by
  induction h with
  | spent =>
    cases h'
    rfl
  | stable hr =>
    cases h' with
    | stable => rfl
    | again hr' hn _ => exact absurd (hr'.unique hr) hn
  | again hr hn _ ih =>
    cases h' with
    | stable hr' => exact absurd (hr.unique hr') hn
    | again hr' _ he =>
      obtain rfl := hr.unique hr'
      exact ih he

/-- A round changes the labels of its own nodes only. -/
theorem Round.frame (h : Round nodes weight rest label label') (ha : a ∉ rest) : label' a = label a := by
  induction h with
  | done => rfl
  | keep _ _ ih => exact ih (fun hm => ha (List.mem_cons_of_mem _ hm))
  | elect _ _ ih =>
    obtain ⟨hn,hr⟩ := not_or.mp (List.mem_cons.not.mp ha)
    rw [ih hr,Function.update_of_ne hn]

end LabelPropagation
