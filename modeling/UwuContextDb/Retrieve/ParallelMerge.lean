import UwuContextDb.Library.Runs
import UwuContextDb.Retrieve.Operators

/-! What the four merge strategies keep of the rows of the children. -/

namespace UwuContextDb.Retrieve

open Runs TopRows

/-- The result of `ParallelOp` from those of its children. -/
def parallelMerge (merge : QueryMergeStrategy) (children : List (List RetrievalHit)) : List RetrievalHit :=
  mergeHits merge children.length children.flatten

structure KeepsBest (hits out : List RetrievalHit) : Prop where
  once : (out.map RetrievalHit.uri).Nodup
  all : ∀ hit ∈ hits, hit.uri ∈ out.map RetrievalHit.uri
  best : ∀ hit ∈ out, hit ∈ hits ∧ ∀ other ∈ hits, other.uri = hit.uri → other.relevance ≤ hit.relevance

def standsBefore (a b : RetrievalHit × ℕ) : Prop :=
  b.1.relevance ≤ a.1.relevance ∧ (a.1.relevance ≤ b.1.relevance → a.2 < b.2)

def NoneBetween (hits : List RetrievalHit) : Prop :=
  ∀ a ∈ hits.zipIdx, ∀ b ∈ hits.zipIdx, ∀ c ∈ hits.zipIdx,
    standsBefore a b → standsBefore b c → a.1.uri = c.1.uri → b.1.uri = a.1.uri

theorem before_relevance : Before (fun a b => SortKey.relevance.before a b = true) = standsBefore := by
  funext a b
  simp [Before,standsBefore,SortKey.before]

theorem grouped_sort_iff (hits : List RetrievalHit) :
    Grouped ((SortKey.relevance.sort hits).map RetrievalHit.uri) ↔ NoneBetween hits := by
  have hr {rows : List (RetrievalHit × ℕ)} : rows.Sublist (hits.zipIdx.insertionSort
      (fun a b => SortKey.relevance.before a.1 b.1)) ↔ (∀ a ∈ rows, a ∈ hits.zipIdx) ∧ rows.Pairwise standsBefore := by
    rw [← before_relevance]
    exact sublist_insertionSort_iff (r := fun a b => SortKey.relevance.before a b = true)
  rw [SortKey.sort,insertionSort_eq_map_fst,List.map_map]
  constructor
  · intro h a ha b hb c hc hab hbc hu
    have hac : standsBefore a c := by
      rw [← before_relevance] at *
      exact hab.trans hbc
    have hi : ∀ row ∈ [a,b,c], row ∈ hits.zipIdx := by simp [ha,hb,hc]
    have hp : [a,b,c].Pairwise standsBefore := by simp [hab,hbc,hac]
    have hs := hr.mpr ⟨hi,hp⟩
    apply h
    simpa [hu] using hs.map (RetrievalHit.uri ∘ Prod.fst)
  · intro h u v hs
    obtain ⟨rows,hi,hm⟩ := List.sublist_map_iff.mp hs
    obtain ⟨he,hp⟩ := hr.mp hi
    obtain ⟨a,rest,rfl,ha,hm⟩ := List.map_eq_cons_iff.mp hm.symm
    obtain ⟨b,rest,rfl,hb,hm⟩ := List.map_eq_cons_iff.mp hm
    obtain ⟨c,rest,rfl,hc,hm⟩ := List.map_eq_cons_iff.mp hm
    have hab : standsBefore a b := (List.pairwise_cons.mp hp).1 b (by simp)
    have hbc : standsBefore b c := (List.pairwise_cons.mp (List.pairwise_cons.mp hp).2).1 c (by simp)
    have hu := h a (he a (by simp)) b (he b (by simp)) c (he c (by simp)) hab hbc (ha.trans hc.symm)
    exact hb.symm.trans (hu.trans ha)

variable {hits : List RetrievalHit}

theorem find?_sort_best {hit : RetrievalHit} (u : ContextUri)
    (h : (SortKey.relevance.sort hits).find? (fun a => a.uri = u) = some hit) :
    hit.uri = u ∧ hit ∈ hits ∧ ∀ other ∈ hits, other.uri = u → other.relevance ≤ hit.relevance := by
  obtain ⟨hu,before_,after,hs,hb⟩ := List.find?_eq_some_iff_append.mp h
  have ho : (SortKey.relevance.sort hits).Pairwise (fun a b => SortKey.relevance.before a b = true) :=
    List.pairwise_insertionSort _ hits
  have hm : ∀ a, a ∈ SortKey.relevance.sort hits ↔ a ∈ hits := fun a => List.mem_insertionSort _
  refine ⟨by simpa using hu,(hm hit).mp (by simp [hs]),?_⟩
  intro other ht ha
  have hi := (hm other).mpr ht
  rw [hs] at hi ho
  rcases List.mem_append.mp hi with hi | hi
  · exact absurd ha (by simpa using hb other hi)
  · rcases List.mem_cons.mp hi with rfl | hi
    · exact le_rfl
    · simpa [SortKey.before] using (List.pairwise_cons.mp (List.pairwise_append.mp ho).2.1).1 other hi

theorem keepsBest_dedupBest_iff (hits : List RetrievalHit) : KeepsBest hits (dedupBest hits) ↔ NoneBetween hits := by
  have hm : (dedupBest hits).map RetrievalHit.uri =
      ((SortKey.relevance.sort hits).map RetrievalHit.uri).destutter (· ≠ ·) :=
    List.map_destutter (fun _ _ _ _ => Iff.rfl)
  have hi : ∀ u, (dedupBest hits).find? (fun a => a.uri = u) =
      (SortKey.relevance.sort hits).find? (fun a => a.uri = u) := by
    intro u
    exact find?_destutter RetrievalHit.uri u _
  rw [← grouped_sort_iff,← nodup_destutter_iff,← hm]
  constructor
  · intro h
    exact h.once
  · intro ho
    refine ⟨ho,?_,?_⟩
    · intro hit hh
      have hs : ((SortKey.relevance.sort hits).find? (fun a => a.uri = hit.uri)).isSome :=
        List.find?_isSome.mpr ⟨hit,(List.mem_insertionSort _).mpr hh,by simp⟩
      rw [← hi] at hs
      obtain ⟨kept,hk,hu⟩ := List.find?_isSome.mp hs
      exact List.mem_map.mpr ⟨kept,hk,by simpa using hu⟩
    · intro hit hh
      cases hf : (dedupBest hits).find? (fun a => a.uri = hit.uri) with
      | none =>
        have hn := List.find?_eq_none.mp hf hit hh
        simp at hn
      | some kept =>
        obtain ⟨hu,hb⟩ := find?_sort_best hit.uri (hi hit.uri ▸ hf)
        obtain rfl : kept = hit := List.inj_on_of_nodup_map ho (List.mem_of_find?_eq_some hf) hh hu
        exact hb

def KeepsCommon (children : List (List RetrievalHit)) (out : List RetrievalHit) : Prop :=
  ∀ uri, uri ∈ out.map RetrievalHit.uri ↔ children ≠ [] ∧ ∀ child ∈ children, uri ∈ child.map RetrievalHit.uri

def rowsOf (uri : ContextUri) (hits : List RetrievalHit) : ℕ := hits.countP (fun hit => hit.uri = uri)

/-- A URI all children have is one row of each, and one that a child lacks has not as many rows as there are children. -/
def CountsAgree (children : List (List RetrievalHit)) : Prop :=
  ∀ uri ∈ children.flatten.map RetrievalHit.uri,
    ((∀ child ∈ children, uri ∈ child.map RetrievalHit.uri) → ∀ child ∈ children, rowsOf uri child = 1) ∧
    ((∃ child ∈ children, uri ∉ child.map RetrievalHit.uri) → rowsOf uri children.flatten ≠ children.length)

theorem rowsOf_pos_iff {u : ContextUri} : 0 < rowsOf u hits ↔ u ∈ hits.map RetrievalHit.uri := by
  simp [rowsOf,List.countP_pos_iff]

theorem rowsOf_flatten (u : ContextUri) (children : List (List RetrievalHit)) :
    rowsOf u children.flatten = (children.map (rowsOf u)).sum := List.countP_flatten

structure Counted (hits : List RetrievalHit) (grouped : List (ℕ × RetrievalHit)) : Prop where
  known : ∀ uri, uri ∈ grouped.map (fun g => g.2.uri) ↔ uri ∈ hits.map RetrievalHit.uri
  count : ∀ g ∈ grouped, g.1 = rowsOf g.2.uri hits

theorem Counted.countHit {hits : List RetrievalHit} {grouped : List (ℕ × RetrievalHit)} (h : Counted hits grouped)
    (hit : RetrievalHit) : Counted (hits++[hit]) (countHit grouped hit) := by
  have hr : ∀ u, rowsOf u (hits++[hit]) = rowsOf u hits + if hit.uri = u then 1 else 0 := by
    intro u
    by_cases hu : hit.uri = u <;> simp [rowsOf,hu]
  unfold Retrieve.countHit
  by_cases ha : hit.uri ∈ grouped.map (fun g => g.2.uri)
  · have hf : grouped.any (fun g => decide (g.2.uri = hit.uri)) = true := by simpa using ha
    rw [if_pos hf]
    have hu : ∀ g : ℕ × RetrievalHit, (if g.2.uri = hit.uri then
        (g.1+1, if g.2.relevance < hit.relevance then hit else g.2) else g).2.uri = g.2.uri := by
      intro g
      by_cases hg : g.2.uri = hit.uri
      · by_cases hb : g.2.relevance < hit.relevance <;> simp [hg,hb]
      · simp [hg]
    constructor
    · intro u
      have hm : (grouped.map (fun g => if g.2.uri = hit.uri then
          (g.1+1, if g.2.relevance < hit.relevance then hit else g.2) else g)).map (fun g => g.2.uri) =
          grouped.map (fun g => g.2.uri) := by
        rw [List.map_map]
        exact List.map_congr_left (fun g _ => hu g)
      rw [hm,h.known,List.map_append,List.mem_append]
      constructor
      · intro ho
        exact .inl ho
      · intro hn
        rcases hn with ho | hn
        · exact ho
        · obtain rfl : u = hit.uri := by simpa using hn
          exact (h.known _).mp ha
    · intro g hg
      obtain ⟨g,ho,rfl⟩ := List.mem_map.mp hg
      rw [hu,hr,← h.count g ho]
      by_cases hs : g.2.uri = hit.uri
      · simp [hs]
      · simp [hs,Ne.symm hs]
  · have hno : ¬ grouped.any (fun g => decide (g.2.uri = hit.uri)) = true := by simpa using ha
    rw [if_neg hno]
    have he : rowsOf hit.uri hits = 0 := by
      apply Nat.eq_zero_of_not_pos
      rwa [rowsOf_pos_iff,← h.known]
    constructor
    · intro u
      rw [List.map_append,List.map_append,List.mem_append,List.mem_append,h.known]
      rfl
    · intro g hg
      rw [hr]
      rcases List.mem_append.mp hg with ho | hn
      · have hne : hit.uri ≠ g.2.uri := fun hq => ha (List.mem_map.mpr ⟨g,ho,hq.symm⟩)
        rw [if_neg hne,h.count g ho,Nat.add_zero]
      · obtain rfl : g = (1, hit) := by simpa using hn
        simp [he]

theorem counted_foldl (hits : List RetrievalHit) : Counted hits (hits.foldl countHit []) := by
  induction hits using List.reverseRecOn with
  | nil => exact ⟨by simp,by simp⟩
  | append_singleton hits hit ih =>
    rw [List.foldl_append]
    exact ih.countHit hit

theorem mem_intersectHits {n : ℕ} {u : ContextUri} :
    u ∈ (intersectHits hits n).map RetrievalHit.uri ↔ u ∈ hits.map RetrievalHit.uri ∧ rowsOf u hits = n := by
  have hc := counted_foldl hits
  have hs : ∀ kept : List RetrievalHit, u ∈ (SortKey.relevance.sort kept).map RetrievalHit.uri ↔
      u ∈ kept.map RetrievalHit.uri := fun kept => (((List.perm_insertionSort _ kept).map _).mem_iff)
  rw [intersectHits,hs,← hc.known,List.map_map]
  constructor
  · intro h
    obtain ⟨g,hg,rfl⟩ := List.mem_map.mp h
    obtain ⟨hg,hn⟩ := List.mem_filter.mp hg
    exact ⟨List.mem_map.mpr ⟨g,hg,rfl⟩,(hc.count g hg).symm.trans (by simpa using hn)⟩
  · intro h
    obtain ⟨g,hg,rfl⟩ := List.mem_map.mp h.1
    exact List.mem_map.mpr ⟨g,List.mem_filter.mpr ⟨hg,by simpa using (hc.count g hg).trans h.2⟩,rfl⟩

theorem sum_eq_length_iff {counts : List ℕ} (h : ∀ n ∈ counts, 0 < n) : counts.sum = counts.length ↔
    ∀ n ∈ counts, n = 1 := by
  induction counts with
  | nil => simp
  | cons n counts ih =>
    obtain ⟨hn,hc⟩ := List.forall_mem_cons.mp h
    have hl : counts.length ≤ counts.sum := List.length_le_sum_of_one_le counts hc
    rw [List.sum_cons,List.length_cons,List.forall_mem_cons,← ih hc]
    omega

theorem keepsCommon_intersectHits_iff (children : List (List RetrievalHit)) :
    KeepsCommon children (intersectHits children.flatten children.length) ↔ CountsAgree children := by
  have hr : ∀ u, (∀ child ∈ children, u ∈ child.map RetrievalHit.uri) →
      (rowsOf u children.flatten = children.length ↔ ∀ child ∈ children, rowsOf u child = 1) := by
    intro u ha
    have hp : ∀ n ∈ children.map (rowsOf u), 0 < n := by
      intro n hn
      obtain ⟨child,hc,rfl⟩ := List.mem_map.mp hn
      exact rowsOf_pos_iff.mpr (ha child hc)
    rw [rowsOf_flatten,← List.length_map (rowsOf u),sum_eq_length_iff hp]
    exact List.forall_mem_map
  constructor
  · intro h u hu
    have he : children ≠ [] := by
      intro hl
      simp [hl] at hu
    constructor
    · intro ha
      exact (hr u ha).mp (mem_intersectHits.mp ((h u).mpr ⟨he,ha⟩)).2
    · intro hk hq
      obtain ⟨child,hc,hla⟩ := hk
      exact hla (((h u).mp (mem_intersectHits.mpr ⟨hu,hq⟩)).2 child hc)
  · intro h u
    rw [mem_intersectHits]
    constructor
    · intro hi
      refine ⟨?_,?_⟩
      · intro hl
        simp [hl] at hi
      · intro child hc
        by_contra hla
        exact (h u hi.1).2 ⟨child,hc,hla⟩ hi.2
    · intro ho
      obtain ⟨child,hc⟩ := List.exists_mem_of_ne_nil children ho.1
      obtain ⟨hit,hh,hu⟩ := List.mem_map.mp (ho.2 child hc)
      have hi : u ∈ children.flatten.map RetrievalHit.uri :=
        List.mem_map.mpr ⟨hit,List.mem_flatten.mpr ⟨child,hc,hh⟩,hu⟩
      exact ⟨hi,(hr u ho.2).mpr ((h u hi).1 ho.2)⟩

def firstNonEmpty (children : List (List RetrievalHit)) : List RetrievalHit :=
  (children.find? (fun child => !child.isEmpty)).getD []

theorem flatten_eq_firstNonEmpty_iff (children : List (List RetrievalHit)) :
    children.flatten = firstNonEmpty children ↔ (children.filter (fun child => !child.isEmpty)).length ≤ 1 := by
  induction children with
  | nil => simp [firstNonEmpty]
  | cons child children ih =>
    cases child with
    | nil => simpa [firstNonEmpty] using ih
    | cons hit child => simp [firstNonEmpty]

def Merged (children : List (List RetrievalHit)) (out : List RetrievalHit) : QueryMergeStrategy → Prop
  | .union => out.Perm children.flatten
  | .dedup => KeepsBest children.flatten out
  | .intersect => KeepsCommon children out
  | .first => out = firstNonEmpty children

def Plain (children : List (List RetrievalHit)) : QueryMergeStrategy → Prop
  | .union => True
  | .dedup => NoneBetween children.flatten
  | .intersect => CountsAgree children
  | .first => (children.filter (fun child => !child.isEmpty)).length ≤ 1

theorem merged_iff_plain (merge : QueryMergeStrategy) (children : List (List RetrievalHit)) :
    Merged children (parallelMerge merge children) merge ↔ Plain children merge := by
  cases merge with
  | union => exact iff_of_true (List.perm_insertionSort _ _) trivial
  | dedup => exact keepsBest_dedupBest_iff children.flatten
  | intersect => exact keepsCommon_intersectHits_iff children
  | first => exact flatten_eq_firstNonEmpty_iff children

def scoredHit (tenant : String) (score : ℚ) : RetrievalHit := sparseVectorHit (.ofTenant tenant) score

/-- A row between two of one URI, a child with one URI twice beside an empty one, and two children with rows. -/
theorem merges_of_children_lose_rows :
    ¬ Merged [[scoredHit "a" 1, scoredHit "b" 1], [scoredHit "a" 1]]
      (parallelMerge .dedup [[scoredHit "a" 1, scoredHit "b" 1], [scoredHit "a" 1]]) .dedup ∧
    ¬ Merged [[scoredHit "a" 1, scoredHit "a" 1], []]
      (parallelMerge .intersect [[scoredHit "a" 1, scoredHit "a" 1], []]) .intersect ∧
    ¬ Merged [[scoredHit "a" 1], [scoredHit "b" 1]]
    (parallelMerge .first [[scoredHit "a" 1], [scoredHit "b" 1]]) .first := by
  refine ⟨?_, ?_, ?_⟩
  · intro h
    have hm : (parallelMerge .dedup [[scoredHit "a" 1, scoredHit "b" 1], [scoredHit "a" 1]]).map RetrievalHit.uri =
        [.ofTenant "a", .ofTenant "b", .ofTenant "a"] := by decide +kernel
    have ho := h.once
    rw [hm] at ho
    exact absurd ho (by decide)
  · intro h
    have hm : (parallelMerge .intersect [[scoredHit "a" 1, scoredHit "a" 1], []]).map RetrievalHit.uri =
        [.ofTenant "a"] := by decide +kernel
    have hc := (h (.ofTenant "a")).mp (by simp [hm])
    exact absurd (hc.2 [] (by simp)) (by simp)
  · intro h
    have hl := congrArg List.length h
    simp [parallelMerge, mergeHits, firstNonEmpty] at hl

end UwuContextDb.Retrieve
