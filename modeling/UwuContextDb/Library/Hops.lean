import Mathlib.Data.Set.Insert

/-! Nodes by their number of steps from a start, and the rounds of a search that takes one step at a time. -/

namespace Hops

variable {V W : Type} (step : V → V → Prop) (starts : V → Prop)

/-- The node is reached from a start in so many steps. -/
inductive ReachIn : ℕ → V → Prop
  | start {v : V} (h : starts v) : ReachIn 0 v
  | step {k : ℕ} {u v : V} (hu : ReachIn k u) (h : step u v) : ReachIn (k + 1) v

/-- The distance of the node from the starts is below `n`. -/
def Within (n : ℕ) (v : V) : Prop := ∃ k < n, ReachIn step starts k v

/-- Before the round `i`: the nodes expanded are those at a distance below `i`, and of those that `i` steps reach all
others are waiting. -/
structure Round (i : ℕ) (expanded waiting : V → Prop) : Prop where
  expanded_iff : ∀ v, expanded v ↔ Within step starts i v
  reached : ∀ v, waiting v → ReachIn step starts i v
  complete : ∀ v, ReachIn step starts i v → expanded v ∨ waiting v

variable {step starts}

variable {v : V} {step' : W → W → Prop} {starts' : W → Prop}

@[simp] theorem reachIn_zero_iff : ReachIn step starts 0 v ↔ starts v := by
  constructor
  · intro h
    cases h with
    | start h => exact h
  · exact .start

theorem reachIn_succ_iff {k : ℕ} : ReachIn step starts (k+1) v ↔ ∃ u, ReachIn step starts k u ∧ step u v := by
  constructor
  · intro h
    cases h with
    | step hu h => exact ⟨_,hu,h⟩
  · intro h
    obtain ⟨u,hu,h⟩ := h
    exact .step hu h

theorem eq_zero_of_no_step (hn : ∀ u v, starts u → ¬ step u v) {k : ℕ} (h : ReachIn step starts k v) : k = 0 := by
  induction h with
  | start _ => rfl
  | step hu h ih =>
    subst ih
    exact absurd h (hn _ _ (reachIn_zero_iff.mp hu))

@[simp] theorem not_within_zero : ¬ Within step starts 0 v := by
  intro h
  obtain ⟨k,hk,-⟩ := h
  omega

theorem Within.mono {m n : ℕ} (hm : m ≤ n) (h : Within step starts m v) : Within step starts n v := by
  obtain ⟨k,hk,hv⟩ := h
  exact ⟨k,by omega,hv⟩

theorem within_succ_iff {n : ℕ} : Within step starts (n+1) v ↔ Within step starts n v ∨ ReachIn step starts n v := by
  constructor
  · intro h
    obtain ⟨k,hk,hv⟩ := h
    rcases Nat.lt_or_eq_of_le (Nat.le_of_lt_succ hk) with hk | rfl
    · exact .inl ⟨k,hk,hv⟩
    · exact .inr hv
  · intro h
    rcases h with h | h
    · exact h.mono (Nat.le_succ n)
    · exact ⟨n,Nat.lt_succ_self n,h⟩

/-- Steps seen through a map that loses no step: the numbers of steps are the same. -/
theorem reachIn_map_iff {f : V → W} (ht : ∀ w, starts' w ↔ ∃ v, starts v ∧ f v = w)
    (hs : ∀ u w, step' (f u) w ↔ ∃ v, step u v ∧ f v = w) {k : ℕ} {w : W} :
    ReachIn step' starts' k w ↔ ∃ v, ReachIn step starts k v ∧ f v = w := by
  induction k generalizing w with
  | zero => simp [ht]
  | succ k ih =>
    simp only [reachIn_succ_iff,ih]
    constructor
    · intro h
      obtain ⟨_,⟨u,hu,rfl⟩,hw⟩ := h
      obtain ⟨v,huv,hv⟩ := (hs u w).mp hw
      exact ⟨v,⟨u,hu,huv⟩,hv⟩
    · intro h
      obtain ⟨v,⟨u,hu,huv⟩,hv⟩ := h
      exact ⟨f u,⟨u,hu,rfl⟩,(hs u w).mpr ⟨v,huv,hv⟩⟩

theorem within_map_iff {f : V → W} (hs : ∀ w, starts' w ↔ ∃ v, starts v ∧ f v = w)
    (ht : ∀ u w, step' (f u) w ↔ ∃ v, step u v ∧ f v = w) {n : ℕ} {w : W} :
    Within step' starts' n w ↔ ∃ v, Within step starts n v ∧ f v = w := by
  simp only [Within,reachIn_map_iff hs ht]
  constructor
  · intro h
    obtain ⟨k,hk,v,hv,hw⟩ := h
    exact ⟨v,⟨k,hk,hv⟩,hw⟩
  · intro h
    obtain ⟨v,⟨k,hk,hv⟩,hw⟩ := h
    exact ⟨k,hk,v,hv,hw⟩

namespace Round

variable {i : ℕ} {expanded waiting expanded' waiting' : V → Prop}

theorem zero : Round step starts 0 (fun _ => False) starts where
  expanded_iff := by simp
  reached _ h := .start h
  complete _ h := .inr (reachIn_zero_iff.mp h)

/-- The waiting nodes are expanded, and what they lead to waits, where it was not expanded before. -/
theorem advance (h : Round step starts i expanded waiting) (he : ∀ v, expanded' v ↔ expanded v ∨ waiting v)
    (ha : ∀ w, waiting' w → ∃ v, waiting v ∧ step v w)
    (hf : ∀ v w, waiting v → ¬ expanded v → step v w → expanded' w ∨ waiting' w) :
    Round step starts (i+1) expanded' waiting' := by
  have hn : ∀ v, expanded' v ↔ Within step starts (i+1) v := by
    intro v
    rw [he,within_succ_iff,← h.expanded_iff]
    constructor
    · intro hv
      exact hv.imp_right (h.reached v)
    · intro hv
      rcases hv with hv | hv
      · exact .inl hv
      · exact h.complete v hv
  refine ⟨hn,?_,?_⟩
  · intro w hw
    obtain ⟨v,hv,hvw⟩ := ha w hw
    exact .step (h.reached v hv) hvw
  · intro w hw
    obtain ⟨v,hv,hvw⟩ := reachIn_succ_iff.mp hw
    by_cases ho : expanded v
    · obtain ⟨k,hk,hvk⟩ := (h.expanded_iff v).mp ho
      exact .inl ((hn w).mpr ⟨k+1,by omega, .step hvk hvw⟩)
    · exact hf v w ((h.complete v hv).resolve_left ho) ho hvw

theorem within_of_none_waiting (h : Round step starts i expanded waiting) (ho : ∀ v, ¬ waiting v) {n : ℕ}
    (hn : i ≤ n) (v : V) :
    expanded v ↔ Within step starts n v := by
  have hr : Round step starts n expanded waiting := by
    induction n, hn using Nat.le_induction with
    | base => exact h
    | succ m _ ih => exact ih.advance (by simp [ho]) (fun w hw => absurd hw (ho w)) (fun u _ hu => absurd hu (ho u))
  exact hr.expanded_iff v

end Round

end Hops
