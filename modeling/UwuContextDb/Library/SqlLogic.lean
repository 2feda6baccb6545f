import Mathlib.Data.List.Basic

/-! The three-valued logic of SQL conditions: a comparison with NULL is unknown, and a condition selects the rows for
which it is true. -/

namespace SqlLogic

/-- A truth value, which NULL makes unknown. -/
abbrev Truth := Option Bool

def and3 : Truth → Truth → Truth
  | some false, _ => some false
  | _, some false => some false
  | some true, some true => some true
  | _, _ => none

def or3 : Truth → Truth → Truth
  | some true, _ => some true
  | _, some true => some true
  | some false, some false => some false
  | _, _ => none

def not3 : Truth → Truth := Option.map (!·)

/-- A comparison of two columns. -/
def compare3 {α β : Type} (p : α → β → Bool) : Option α → Option β → Truth
  | some a, some b => some (p a b)
  | _, _ => none

/-- What a `WHERE` asks of a condition. -/
def holds (t : Truth) : Bool := t == some true

/-- `EXISTS (SELECT 1 FROM rows WHERE ..)`, which is never unknown. -/
def exists3 {α : Type} (rows : List α) (condition : α → Truth) : Truth := some (rows.any (fun row => holds (condition row)))

@[simp] theorem holds_some (b : Bool) : holds (some b) = b := by cases b <;> rfl

@[simp] theorem holds_and3 (a b : Truth) : holds (and3 a b) = (holds a && holds b) := by
  rcases a with _ | _ | _ <;> rcases b with _ | _ | _ <;> rfl

@[simp] theorem holds_or3 (a b : Truth) : holds (or3 a b) = (holds a || holds b) := by
  rcases a with _ | _ | _ <;> rcases b with _ | _ | _ <;> rfl

@[simp] theorem holds_not3_some (b : Bool) : holds (not3 (some b)) = !b := by cases b <;> rfl

@[simp] theorem holds_compare3 {α β : Type} (p : α → β → Bool) (a : Option α) (b : Option β) :
    holds (compare3 p a b) = true ↔ ∃ x ∈ a, ∃ y ∈ b, p x y = true := by
  cases a with
  | none => simp [compare3,holds]
  | some a => cases b <;> simp [compare3,holds]

theorem holds_not_exists3 {α : Type} (rows : List α) (condition : α → Truth) :
    holds (not3 (exists3 rows condition)) = true ↔ ∀ row ∈ rows, holds (condition row) = false := by
  simp [exists3]

end SqlLogic
