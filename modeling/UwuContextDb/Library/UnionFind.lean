import Mathlib.Logic.Relation
import Mathlib.Data.List.Nodup

/-! Union-find with path halving over parent pointers: which root a node leads to, and that the roots tell the
classes of the pairs that were joined. -/

namespace UnionFind

variable {V : Type} [DecidableEq V]

/-- The node leads to the root in so many steps. -/
inductive Leads (parent : V → Option V) : ℕ → V → V → Prop
  | root {r : V} (h : parent r = none) : Leads parent 0 r r
  | step {k : ℕ} {v p r : V} (hp : parent v = some p) (h : Leads parent k p r) : Leads parent (k + 1) v r

/-- Every node leads to its representative. -/
def Represents (parent : V → Option V) (rep : V → V) : Prop := ∀ v, ∃ k, Leads parent k v (rep v)

variable {parent : V → Option V} {rep : V → V}

omit [DecidableEq V] in
theorem Leads.root_parent {k : ℕ} {v r : V} (h : Leads parent k v r) : parent r = none := by
  induction h with
  | root h => exact h
  | step _ _ ih => exact ih

omit [DecidableEq V] in
theorem Leads.unique {k k' : ℕ} {v r r' : V} (h : Leads parent k v r) (h' : Leads parent k' v r') : k = k' ∧ r = r' := by
  induction h generalizing k' with
  | root h =>
    cases h' with
    | root _ => exact ⟨rfl, rfl⟩
    | step hp _ => simp [h] at hp
  | step hp _ ih =>
    cases h' with
    | root h => simp [h] at hp
    | step hp' h' =>
      obtain rfl := Option.some.inj (hp.symm.trans hp')
      obtain ⟨rfl, hr⟩ := ih h'
      exact ⟨rfl, hr⟩

omit [DecidableEq V] in
/-- The nodes on the way have parents, and are pairwise different. -/
theorem Leads.path {k : ℕ} {v r : V} (h : Leads parent k v r) :
    ∃ path : List V, path.length = k ∧ path.Nodup ∧ ∀ u ∈ path, (parent u).isSome ∧ ∃ j ≤ k, Leads parent j u r := by
  induction h with
  | root h => exact ⟨[], rfl, .nil, by simp⟩
  | @step k v p r hp h ih =>
    obtain ⟨path, he, hn, ha⟩ := ih
    refine ⟨v::path, by simp [he], List.nodup_cons.mpr ⟨?_, hn⟩, ?_⟩
    · intro hv
      obtain ⟨-, j, hj, hl⟩ := ha v hv
      have hk := (hl.unique (.step hp h)).1
      omega
    · intro u hu
      rcases List.mem_cons.mp hu with rfl | hu
      · exact ⟨by simp [hp], k + 1, Nat.le_refl _, .step hp h⟩
      · obtain ⟨hs, j, hj, hl⟩ := ha u hu
        exact ⟨hs, j, by omega, hl⟩

/-- A node that is pointed at its grandparent, or at its parent if that is a root: no node leads elsewhere. -/
theorem Leads.halve {v p : V} (hp : parent v = some p) {k : ℕ} {u r : V} (h : Leads parent k u r) :
    ∃ j ≤ k, Leads (Function.update parent v (some ((parent p).getD p))) j u r := by
  induction k using Nat.strongRecOn generalizing u with
  | _ k ih =>
    cases h with
    | root h =>
      have hu : r ≠ v := by
        rintro rfl
        simp [hp] at h
      exact ⟨0,Nat.le_refl _, .root (by rw [Function.update_of_ne hu,h])⟩
    | @step k _ q _ hu h =>
      by_cases hv : u = v
      · subst hv
        obtain rfl := Option.some.inj (hp.symm.trans hu)
        cases h with
        | root ho =>
          have hr : p ≠ u := by
            rintro rfl
            simp [hp] at ho
          refine ⟨1,by omega, .step (p := p) (by simp [ho]) (.root ?_)⟩
          rw [Function.update_of_ne hr,ho]
        | @step k _ q _ hq h =>
          obtain ⟨j,hj,hl⟩ := ih k (by omega) h
          exact ⟨j+1,by omega, .step (by simp [hq]) hl⟩
      · obtain ⟨j,hj,hl⟩ := ih k (by omega) h
        exact ⟨j+1,by omega, .step (by rw [Function.update_of_ne hv,hu]) hl⟩

theorem Represents.halve (h : Represents parent rep) {v p : V} (hp : parent v = some p) :
    Represents (Function.update parent v (some ((parent p).getD p))) rep := by
  intro u
  obtain ⟨k,hk⟩ := h u
  obtain ⟨j,-,hj⟩ := hk.halve hp
  exact ⟨j,hj⟩

/-- A root that is pointed at another one takes its nodes along. -/
theorem Represents.link (h : Represents parent rep) {r s : V} (hr : parent r = none) (hs : parent s = none) (hn : r ≠ s) :
    Represents (Function.update parent r (some s)) (fun v => if rep v = r then s else rep v) := by
  have ha : ∀ {k v q}, Leads parent k v q →
      ∃ j, Leads (Function.update parent r (some s)) j v (if q = r then s else q) := by
    intro k v q hl
    induction hl with
    | @root q hq =>
      by_cases hqr : q = r
      · subst hqr
        simp only [if_true]
        exact ⟨1, .step (Function.update_self _ _ _) (.root (by rw [Function.update_of_ne hn.symm,hs]))⟩
      · simp only [hqr,if_false]
        exact ⟨0, .root (by rw [Function.update_of_ne hqr,hq])⟩
    | @step _ v p q hp _ ih =>
      obtain ⟨j,hj⟩ := ih
      have hv : v ≠ r := by
        rintro rfl
        simp [hr] at hp
      exact ⟨j+1, .step (by rw [Function.update_of_ne hv,hp]) hj⟩
  intro v
  obtain ⟨k,hk⟩ := h v
  exact ha hk

/-- The representatives tell the classes of a relation. -/
def Classifies (rep : V → V) (rel : V → V → Prop) : Prop := ∀ u v, rep u = rep v ↔ Relation.EqvGen rel u v

omit [DecidableEq V] in
theorem classifies_id : Classifies (id : V → V) (fun _ _ => False) := by
  intro u v
  constructor
  · rintro rfl
    exact .refl _
  · intro h
    induction h with
    | rel _ _ h => exact h.elim
    | refl => rfl
    | symm _ _ _ ih => exact ih.symm
    | trans _ _ _ _ _ ih ih' => exact ih.trans ih'

/-- One more pair joins the classes of its ends. -/
theorem Classifies.join {rel rel' : V → V → Prop} (h : Classifies rep rel) {a b : V}
    (hr : ∀ u v, rel' u v ↔ rel u v ∨ (u = a ∧ v = b)) :
    Classifies (fun v => if rep v = rep a then rep b else rep v) rel' := by
  have ho : ∀ {u v}, rep u = rep v → Relation.EqvGen rel' u v := by
    intro u v huv
    exact ((h u v).mp huv).mono (fun x y hx => (hr x y).mpr (.inl hx))
  have hp : Relation.EqvGen rel' a b := .rel _ _ ((hr a b).mpr (.inr ⟨rfl,rfl⟩))
  intro u v
  constructor
  · intro huv
    by_cases hu : rep u = rep a
    · by_cases hv : rep v = rep a
      · exact ho (hu.trans hv.symm)
      · have hb : rep b = rep v := by simpa [hu,hv] using huv
        exact .trans _ _ _ (ho hu) (.trans _ _ _ hp (ho hb))
    · by_cases hv : rep v = rep a
      · have hub : rep u = rep b := by simpa [hu,hv] using huv
        exact .trans _ _ _ (ho hub) (.trans _ _ _ (.symm _ _ hp) (ho hv.symm))
      · exact ho (by simpa [hu,hv] using huv)
  · intro huv
    induction huv with
    | rel x y hx =>
      rcases (hr x y).mp hx with hx | ⟨rfl,rfl⟩
      · simp [(h x y).mpr (.rel _ _ hx)]
      · simp
    | refl => rfl
    | symm _ _ _ ih => exact ih.symm
    | trans _ _ _ _ _ ih ih' => exact ih.trans ih'

end UnionFind
