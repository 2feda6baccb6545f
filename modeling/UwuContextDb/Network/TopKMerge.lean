import UwuContextDb.Library.Runs
import UwuContextDb.Network.Fabric

/-! The hits of several peers merged into the best few publications. -/

namespace UwuContextDb.Network

open RankedRuns
open Runs
open TopRows

variable {K : Type} [LinearOrder K]

def scoreHit [Field K] (hit : FederatedDiscoveryHit K) : FederatedDiscoveryHit K :=
  { hit with finalScore := clampUnit (hit.noisyScore * (7 / 20) + hit.qualityScore * (1 / 5) +
      hit.reputationBonus * (3 / 20) + hit.corroborationBonus * (3 / 20) + hit.lineageIndependence * (1 / 10) +
      if hit.derivativeAllowed then 1 / 20 else 0) }

abbrev NoWorse (a b : FederatedDiscoveryHit K) : Prop := b.finalScore ≤ a.finalScore

/-- What a merge of the scored hits into `k` is for. -/
structure IsTopK (scored : List (FederatedDiscoveryHit K)) (k : ℕ) (merged : List (FederatedDiscoveryHit K)) : Prop where
  short : merged.length ≤ k
  sorted : merged.Pairwise NoWorse
  once : (merged.map FederatedDiscoveryHit.publicationId).Nodup
  best : ∀ hit ∈ merged, hit ∈ scored ∧
    ∀ other ∈ scored, other.publicationId = hit.publicationId → other.finalScore ≤ hit.finalScore
  omitted : ∀ other ∈ scored, other.publicationId ∉ merged.map FederatedDiscoveryHit.publicationId →
    ∀ hit ∈ merged, other.finalScore ≤ hit.finalScore

omit [LinearOrder K] in
theorem dedupPublications_eq (hits : List (FederatedDiscoveryHit K)) :
    dedupPublications hits = hits.destutter (fun a b => a.publicationId ≠ b.publicationId) := by
  fun_induction dedupPublications hits with
  | case1 first second hits he ih =>
    rw [ih, List.destutter_cons', List.destutter_cons', List.destutter'_cons, if_neg (not_not.mpr he.symm)]
  | case2 first second hits hn ih =>
    rw [ih, List.destutter_cons', List.destutter_cons']
    rw [List.destutter'_cons, if_pos (Ne.symm hn)]
  | case3 hits hs =>
    cases hits with
    | nil => rfl
    | cons first hits =>
      cases hits with
      | nil => rfl
      | cons second hits => exact absurd rfl (hs first second hits)

theorem mergeHits_eq [Field K] (aggregatorTopK : ℕ) (hits : List (FederatedDiscoveryHit K)) (k : ℕ) :
    mergeHits aggregatorTopK hits k = (((hits.map scoreHit).insertionSort NoWorse).destutter
      (fun a b => a.publicationId ≠ b.publicationId)).take k := by
  rw [mergeHits,dedupPublications_eq,Nat.min_eq_left (le_max_right aggregatorTopK k)]
  rfl

section Merged

variable {scored : List (FederatedDiscoveryHit K)}

theorem le_of_find? {sorted : List (FederatedDiscoveryHit K)} (hs : sorted.Pairwise NoWorse) {id : Uuid}
    {hit other : FederatedDiscoveryHit K} (hf : sorted.find? (fun row => row.publicationId = id) = some hit)
    (ho : other ∈ sorted) (hi : other.publicationId = id) : other.finalScore ≤ hit.finalScore := by
  obtain ⟨-,before,after,rfl,he⟩ := List.find?_eq_some_iff_append.mp hf
  rcases List.mem_append.mp ho with hr | hb
  · have := he other hr
    simp [hi] at this
  · rcases List.mem_cons.mp hb with rfl | hb
    · exact le_rfl
    · exact (List.pairwise_cons.mp (List.pairwise_append.mp hs).2.1).1 other hb

/-- The first `k` of the sorted and thinned hits are what a merge is for as soon as their publications are distinct. -/
theorem isTopK_iff_nodup (scored : List (FederatedDiscoveryHit K)) (k : ℕ) :
    let merged := ((scored.insertionSort NoWorse).destutter (fun a b => a.publicationId ≠ b.publicationId)).take k
    IsTopK scored k merged ↔ (merged.map FederatedDiscoveryHit.publicationId).Nodup := by
  have htr : IsTrans (FederatedDiscoveryHit K) NoWorse := ⟨fun a b c hb hbc => le_trans hbc hb⟩
  have hto : Std.Total (NoWorse (K := K)) := ⟨fun a b => le_total b.finalScore a.finalScore⟩
  have hs : (scored.insertionSort NoWorse).Pairwise NoWorse := List.pairwise_insertionSort NoWorse scored
  have hm (hit) : hit ∈ scored.insertionSort NoWorse ↔ hit ∈ scored := List.mem_insertionSort _
  dsimp only
  generalize ht : (scored.insertionSort NoWorse).destutter (fun a b => a.publicationId ≠ b.publicationId) = thinned
  have hu : thinned.Sublist (scored.insertionSort NoWorse) := by
    rw [← ht]
    exact List.destutter_sublist _ _
  have hi (id : Uuid) : thinned.find? (fun row => row.publicationId = id) =
      (scored.insertionSort NoWorse).find? (fun row => row.publicationId = id) := by
    rw [← ht]
    exact find?_destutter FederatedDiscoveryHit.publicationId id _
  have hr := hs.sublist hu
  refine ⟨fun h => h.once,
    fun hc => ⟨List.length_take_le k thinned,hr.sublist (List.take_sublist k thinned),hc,
      fun hit hh => ?_,fun other ho hom hit hh => ?_⟩⟩
  · have hn : hit ∈ scored := (hm hit).mp (hu.subset (List.mem_of_mem_take hh))
    refine ⟨hn,fun other ho hd => ?_⟩
    have hf : thinned.find? (fun row => row.publicationId = hit.publicationId) = some hit := by
      rw [← List.take_append_drop k thinned,List.find?_append,find?_of_nodup hc hh]
      rfl
    exact le_of_find? hs ((hi _).symm.trans hf) ((hm other).mpr ho) hd
  · obtain ⟨first,hf⟩ : ∃ first, thinned.find? (fun row => row.publicationId = other.publicationId) = some first := by
      rw [← Option.isSome_iff_exists,hi,List.find?_isSome]
      exact ⟨other,(hm other).mpr ho,by simp⟩
    have he := le_of_find? hs ((hi _).symm.trans hf) ((hm other).mpr ho) rfl
    refine he.trans ?_
    have hd : first.publicationId = other.publicationId := by simpa using List.find?_some hf
    have hl : first ∈ thinned.drop k := by
      have hn := List.mem_of_find?_eq_some hf
      rw [← List.take_append_drop k thinned] at hn
      refine (List.mem_append.mp hn).resolve_left (fun ha => hom ?_)
      exact List.mem_map.mpr ⟨first,ha,hd⟩
    rw [← List.take_append_drop k thinned] at hr
    exact (List.pairwise_append.mp hr).2.2 hit hh first hl

end Merged

/-- The merge does what it is for exactly if ahead of each hit that comes back behind another publication's, by its score
and then its place, `k` publications have a hit. -/
theorem mergeHits_isTopK_iff [Field K] (aggregatorTopK : ℕ) (hits : List (FederatedDiscoveryHit K)) (k : ℕ) :
    IsTopK (hits.map scoreHit) k (mergeHits aggregatorTopK hits k) ↔
      let rows := (hits.map scoreHit).zipIdx
      ∀ a ∈ rows, ∀ b ∈ rows, ∀ c ∈ rows, Before NoWorse a b → Before NoWorse b c →
        a.1.publicationId = c.1.publicationId → b.1.publicationId ≠ c.1.publicationId →
          k ≤ ((rows.filter (fun row => Before NoWorse row c)).map (fun row => row.1.publicationId)).toFinset.card := by
  have ht : IsTrans (FederatedDiscoveryHit K) NoWorse := ⟨fun a b c ha hb => le_trans hb ha⟩
  have ho : Std.Total (NoWorse (K := K)) := ⟨fun a b => le_total b.finalScore a.finalScore⟩
  rw [mergeHits_eq]
  refine (isTopK_iff_nodup (hits.map scoreHit) k).trans ?_
  have hk : (((hits.map scoreHit).insertionSort NoWorse).destutter
      (fun a b => a.publicationId ≠ b.publicationId)).map FederatedDiscoveryHit.publicationId =
        (((hits.map scoreHit).insertionSort NoWorse).map FederatedDiscoveryHit.publicationId).destutter (· ≠ ·) :=
    List.map_destutter (fun a _ b _ => Iff.rfl)
  rw [List.map_take, hk]
  exact nodup_take_iff FederatedDiscoveryHit.publicationId (hits.map scoreHit) k

/-- Two hits of one publication stay where the score of another publication's lies between theirs. -/
theorem separated_duplicates_stay :
    let hit : ℕ → ℚ → FederatedDiscoveryHit ℚ := fun id noisy => ⟨id, "d", 0, false, 0, 0, 0, 0, noisy, 0, none⟩;
    (mergeHits 20 [hit 1 1, hit 2 (1 / 2), hit 1 0] 10).map FederatedDiscoveryHit.publicationId = [1, 2, 1] ∧
      ¬ IsTopK ([hit 1 1, hit 2 (1 / 2), hit 1 0].map scoreHit) 10
        (mergeHits 20 [hit 1 1, hit 2 (1 / 2), hit 1 0] 10) := by
  intro hit
  have hi : (mergeHits 20 [hit 1 1, hit 2 (1 / 2), hit 1 0] 10).map FederatedDiscoveryHit.publicationId =
      [1, 2, 1] := by
    rw [mergeHits_eq]
    decide +kernel
  refine ⟨hi, fun h => ?_⟩
  have ho := h.once
  rw [hi] at ho
  exact absurd ho (by decide)

end UwuContextDb.Network
