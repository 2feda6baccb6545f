import Mathlib.Data.List.TakeWhile
import UwuContextDb.Version.SqliteHistory

/-! What `is_ancestor` and `commits_to_rebase` compute on an acyclic commit graph. -/

namespace UwuContextDb.Version

open Search

namespace Dag

def Acyclic (g : Dag) : Prop := ∀ id, ∀ p ∈ g.parents id, ¬ Reaches g.parents p id

inductive FirstParents (g : Dag) : CommitId → List CommitId → Prop
  | root {id : CommitId} (h : g.firstParent id = none) : FirstParents g id [id]
  | step {id p : CommitId} {chain : List CommitId} (h : g.firstParent id = some p) (rest : FirstParents g p chain) :
    FirstParents g id (id::chain)

variable {g : Dag} {id p : CommitId} {chain : List CommitId}

theorem mem_parents_of_firstParent (h : g.firstParent id = some p) : p ∈ g.parents id := List.mem_of_head? h

theorem FirstParents.reaches (h : FirstParents g id chain) : ∀ c ∈ chain, Reaches g.parents id c := by
  induction h with
  | root h => simp [Relation.ReflTransGen.refl]
  | step h rest ih =>
    intro c hc
    rcases List.mem_cons.mp hc with rfl | hc
    · exact .refl
    · exact .head (mem_parents_of_firstParent h) (ih c hc)

/-- The walk down from a commit ends, for it meets none of the commits above again. -/
theorem exists_firstParents (hc : g.Acyclic) (n : ℕ) (above : Finset CommitId) (hk : above ⊆ g.keys.toFinset)
    (hb : ∀ a ∈ above, ∃ q ∈ g.parents a, Reaches g.parents q id) (hn : g.keys.toFinset.card ≤ above.card+n) :
    ∃ chain, FirstParents g id chain ∧ chain.length ≤ n + 1 := by
  induction n generalizing id above with
  | zero =>
    have hl : above = g.keys.toFinset := Finset.eq_of_subset_of_card_le hk (by omega)
    refine ⟨[id], .root ?_,le_rfl⟩
    cases hf : g.firstParent id with
    | none => rfl
    | some p =>
      have hp := mem_parents_of_firstParent hf
      have hi : id ∈ above := by
        rw [hl]
        by_contra ho
        rw [parents_eq_nil ho] at hp
        cases hp
      obtain ⟨q,hq,hr⟩ := hb id hi
      exact absurd hr (hc id q hq)
  | succ n ih =>
    cases hf : g.firstParent id with
    | none => exact ⟨[id], .root hf,by simp⟩
    | some p =>
      have hp := mem_parents_of_firstParent hf
      have hi : id ∉ above := fun hi => by
        obtain ⟨q,hq,hr⟩ := hb id hi
        exact hc id q hq hr
      have he : id ∈ g.keys.toFinset := by
        by_contra ho
        rw [parents_eq_nil ho] at hp
        cases hp
      obtain ⟨chain,hh,hle⟩ := @ih p (insert id above) (Finset.insert_subset he hk) (fun a ha => by
        rcases Finset.mem_insert.mp ha with rfl | ha
        · exact ⟨p,hp, .refl⟩
        · obtain ⟨q,hq,hr⟩ := hb a ha
          exact ⟨q,hq,hr.tail hp⟩) (by rw [Finset.card_insert_of_notMem hi]; omega)
      exact ⟨id::chain, .step hf hh,by simpa using hle⟩

end Dag

namespace SqliteVersionStore

open Dag (FirstParents)

variable {st : SqliteVersionStore} {onto cur : CommitId} {chain : List CommitId}

theorem commitsToRebase_of_chain (h : FirstParents st.dag cur chain) {fuel : ℕ} (hf : chain.length ≤ fuel)
    (own : List CommitId) : st.commitsToRebase onto fuel own cur =
      (chain.takeWhile (fun c => !st.isAncestor c onto)).reverse ++ own := by
  induction h generalizing fuel own with
  | root h =>
    obtain ⟨fuel,rfl⟩ : ∃ n, fuel = n + 1 := ⟨fuel - 1,by simp at hf; omega⟩
    unfold commitsToRebase
    rw [show st.firstParent _ = none from h]
    split <;> rename_i ha <;> simp [ha]
  | step h rest ih =>
    obtain ⟨fuel,rfl⟩ : ∃ n, fuel = n + 1 := ⟨fuel - 1,by simp at hf; omega⟩
    unfold commitsToRebase
    rw [show st.firstParent _ = some _ from h]
    split
    · rename_i ha
      simp [ha]
    · rename_i ha
      simp only
      rw [ih (by simpa using hf)]
      simp [ha]

theorem shared_reached (h : FirstParents st.dag cur chain) :
    ∀ c ∈ chain.dropWhile (fun c => !st.isAncestor c onto), Reaches st.dag.parents onto c := by
  induction h with
  | @root id h =>
    intro c hc
    by_cases ha : st.isAncestor id onto = true
    · obtain rfl : c = id := by simpa [ha] using hc
      exact (Dag.isAncestor_iff _ _ _).mp ha
    · simp [ha] at hc
  | @step id p chain h rest ih =>
    intro c hc
    by_cases ha : st.isAncestor id onto = true
    · rw [List.dropWhile_cons_of_neg (by simp [ha])] at hc
      exact ((Dag.isAncestor_iff _ _ _).mp ha).trans ((FirstParents.step h rest).reaches c hc)
    · rw [List.dropWhile_cons_of_pos (by simp [ha])] at hc
      exact ih c hc

theorem dag_acyclic (h : st.WellFormed) : st.dag.Acyclic := by
  have hl : ∀ {a b : CommitId}, b ∈ st.dag.parents a → b < a := fun {a b} hb => by
    cases hr : st.commits[a]? with
    | none => simp [dag,Dag.parents,hr] at hb
    | some row => exact (h.older a row hr b (parents_of_row hr ▸ hb)).2
  intro id p hp he
  have hle : ∀ {a b : CommitId}, Reaches st.dag.parents a b → b ≤ a := fun {a b} ha => by
    induction ha with
    | refl => exact le_rfl
    | tail _ hs ih => exact (hl hs).le.trans ih
  exact absurd (hle he) (not_le_of_gt (hl hp))

/-- `is_ancestor` is reachability, and `commits_to_rebase` the part of the chain of first parents that is not reachable
from the other head, however many rounds beyond those counted here the two loops may make. -/
theorem ancestry_exact (st : SqliteVersionStore) (hacyclic : st.dag.Acyclic) (branchHead ontoHead : CommitId) :
    (∀ a c, (st.isAncestor a c = true ↔ Reaches st.dag.parents c a) ∧ ∀ fuel, st.dag.edgeCount + 1 ≤ fuel →
      (a == c || (search st.dag.parents .stack (· == a) fuel [] [c]).1.isSome) = st.isAncestor a c) ∧
    ∃ own shared, FirstParents st.dag branchHead (own ++ shared) ∧
      (∀ c ∈ own, ¬ Reaches st.dag.parents ontoHead c) ∧ (∀ c ∈ shared, Reaches st.dag.parents ontoHead c) ∧
      ∀ fuel, st.commits.size + 1 ≤ fuel → st.commitsToRebase ontoHead fuel [] branchHead = own.reverse := by
  refine ⟨fun a c => ⟨Dag.isAncestor_iff _ _ _, fun fuel hf => ?_⟩, ?_⟩
  · have hp : pending st.dag.parents st.dag.keys.toFinset [] + [c].length ≤ fuel := by
      simpa [Dag.pending_eq_edgeCount] using hf
    have hs := search_isSome_iff (d := .stack) (· == a) (fun v => st.dag.parents_eq_nil) hp
    rw [Bool.eq_iff_iff, Bool.or_eq_true, hs, isAncestor, Dag.isAncestor_iff]
    simp only [beq_iff_eq, List.mem_singleton, exists_eq_left, exists_eq_right]
    exact ⟨fun h => h.elim (fun h => h ▸ .refl) id, .inr⟩
  · obtain ⟨chain, hh, hl⟩ := @Dag.exists_firstParents _ branchHead hacyclic st.commits.size ∅ (by simp)
      (by simp) (by rw [List.toFinset_card_of_nodup Std.ExtTreeMap.nodup_keys]; simp [dag])
    refine ⟨chain.takeWhile (fun c => !st.isAncestor c ontoHead), chain.dropWhile (fun c => !st.isAncestor c ontoHead),
      by rwa [List.takeWhile_append_dropWhile], fun c hc => ?_, shared_reached hh, fun fuel hf => ?_⟩
    · have hn := List.mem_takeWhile_imp hc
      rw [Bool.not_eq_true', ← Bool.not_eq_true, isAncestor, Dag.isAncestor_iff] at hn
      exact hn
    · rw [commitsToRebase_of_chain hh (by omega), List.append_nil]

theorem ancestry_exact_sample : let st := StateMachine.run (step sampleServices) empty aheadOps
    ∃ own shared, FirstParents st.dag 1 (own ++ shared) ∧ (∀ c ∈ own, ¬ Reaches st.dag.parents 0 c) ∧
      (∀ c ∈ shared, Reaches st.dag.parents 0 c) ∧
      ∀ fuel, st.commits.size + 1 ≤ fuel → st.commitsToRebase 0 fuel [] 1 = own.reverse :=
  (ancestry_exact _ (dag_acyclic (run_wellFormed _ _)) 1 0).2

end SqliteVersionStore

end UwuContextDb.Version
