import Mathlib.Algebra.Order.Group.MinMax
import Mathlib.Tactic.Linarith
import Mathlib.Tactic.Ring
import UwuContextDb.Core.Uri

/-! Preference pairs from a search tree: its best path against its worst, in exact arithmetic. -/

namespace UwuContextDb.Cdt

structure CognitiveState where
  graphDensity : ℚ
  recentErrors : List ContextUri
  activeHypotheses : List ContextUri

structure SearchNode where
  state : CognitiveState
  action : Option String
  value : ℚ
  children : List SearchNode
  depth : ℕ
  visits : ℕ
  valueSum : ℚ

section Choice

variable {α : Type} (score : α → ℚ)

end Choice

namespace SearchNode

def meanValue (node : SearchNode) : ℚ := if node.visits = 0 then node.value else node.valueSum / node.visits

end SearchNode

open SearchNode

/-- `f32::EPSILON` -/
def epsilon : ℚ := 1 / 8388608

def clampUnit (x : ℚ) : ℚ := min (max x 0) 1

section Paths

variable {choose : List SearchNode → Option ℕ}

end Paths

section Means

variable (f g : SearchNode → ℚ)

end Means

end UwuContextDb.Cdt
