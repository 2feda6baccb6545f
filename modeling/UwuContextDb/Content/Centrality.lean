import Mathlib.Algebra.BigOperators.Field
import Mathlib.Algebra.Order.Group.MinMax
import UwuContextDb.Core.Uri
import UwuContextDb.Library.Assoc
import UwuContextDb.Library.Contraction

/-! Centrality scores of a graph, from scratch and from the scores of an earlier graph, in exact arithmetic. -/

namespace UwuContextDb.Content

open Assoc
open Contraction

/-- `GraphCentralityConfig`, which only its checked constructors build. -/
structure GraphCentralityConfig (F : Type) [Field F] [LinearOrder F] where
  maxNodes : ℕ
  maxHops : ℕ
  maxIterations : ℕ
  epsilon : F
  damping : F
  incrementalThreshold : ℕ
  maxNodes_pos : 0 < maxNodes
  maxHops_pos : 0 < maxHops
  maxIterations_pos : 0 < maxIterations
  epsilon_pos : 0 < epsilon
  damping_pos : 0 < damping
  damping_lt_one : damping < 1

variable {F : Type} [Field F]

namespace GraphCentralityConfig

variable [LinearOrder F]

def invalid (message : String) : ContextError :=
  .storage ("invalid graph centrality configuration: " ++ message)

def new (maxNodes maxHops maxIterations : ℕ) (epsilon damping : F) : Except ContextError (GraphCentralityConfig F) :=
  if hepsilon : epsilon ≤ 0 then .error (invalid "epsilon must be finite and positive")
  else if hdamping : damping ≤ 0 ∨ 1 ≤ damping then .error (invalid "damping must be finite and between zero and one")
  else if hnodes : maxNodes = 0 then .error (invalid "max_nodes must be greater than zero")
  else if hhops : maxHops = 0 then .error (invalid "max_hops must be greater than zero")
  else if hiterations : maxIterations = 0 then .error (invalid "max_iterations must be greater than zero")
  else .ok ⟨maxNodes, maxHops, maxIterations, epsilon, damping, maxNodes / 2, Nat.pos_of_ne_zero hnodes,
    Nat.pos_of_ne_zero hhops, Nat.pos_of_ne_zero hiterations, not_le.mp hepsilon, not_le.mp (fun h => hdamping (.inl h)),
    not_le.mp (fun h => hdamping (.inr h))⟩

theorem new_eq_ok {maxNodes maxHops maxIterations : ℕ} {epsilon damping : F} (hn : 0 < maxNodes) (hh : 0 < maxHops)
    (hi : 0 < maxIterations) (he : 0 < epsilon) (hd : 0 < damping ∧ damping < 1) :
    new maxNodes maxHops maxIterations epsilon damping = .ok ⟨maxNodes,maxHops,maxIterations,epsilon,damping,
      maxNodes / 2,hn,hh,hi,he,hd.1,hd.2⟩ := by
  have hd' : ¬ (damping ≤ 0 ∨ 1 ≤ damping) := by
    rw [not_or,not_le,not_le]
    exact hd
  rw [new,dif_neg (not_le.mpr he),dif_neg hd',dif_neg hn.ne',dif_neg hh.ne',dif_neg hi.ne']

def withIncrementalThreshold (config : GraphCentralityConfig F) (threshold : ℕ) :
    Except ContextError (GraphCentralityConfig F) :=
  if threshold = 0 then .error (.storage "incremental threshold must be positive")
  else .ok { config with incrementalThreshold := threshold }

end GraphCentralityConfig

abbrev Ranks (F : Type) := List (String × F)

def rank (ranks : Ranks F) (node : String) : F := (ranks.lookup node).getD 0

section Graph

variable (nodes : List String) (edges : List (String × String))

def outgoing (node : String) : List String := (edges.filter (fun edge => edge.1 = node)).map Prod.snd

def sources : List String := (edges.map Prod.fst).dedup

def addTo (next : Ranks F) (target : String) (contribution : F) : Ranks F :=
  next.map (fun row => (row.1, if row.1 = target then row.2 + contribution else row.2))

/-- A node that no edge leaves spreads its rank over all nodes; the share of a target outside the nodes is lost. -/
def rankStep (damping : F) (ranks : Ranks F) : Ranks F :=
  let n : F := nodes.length
  let dangling := ((nodes.filter (fun node => (outgoing edges node).isEmpty)).map (rank ranks)).sum / n
  let next := nodes.map (fun node => (node, (1 - damping) / n + damping * dangling))
  (sources edges).foldl (fun next source =>
    let targets := outgoing edges source
    let contribution := damping * rank ranks source / targets.length
    targets.foldl (fun next target => addTo next target contribution) next) next

variable [LinearOrder F]

def rankDelta (next ranks : Ranks F) : F := (nodes.map (fun node => |rank next node - rank ranks node|)).sum

def rankLoop (config : GraphCentralityConfig F) (ranks : Ranks F) : Ranks F :=
  settle (rankDelta nodes) (rankStep nodes edges config.damping) config.epsilon config.maxIterations ranks

def toScores (ranks : Ranks F) : Ranks F :=
  ranks.map (fun row => (row.1, min (max (row.2 * nodes.length) 0) 1))

def pagerankScores (config : GraphCentralityConfig F) : Ranks F :=
  if nodes.isEmpty then []
  else toScores nodes (rankLoop nodes edges config (nodes.map (fun node => (node, 1 / (nodes.length : F)))))

def solvePagerank (ranks : Ranks F) (config : GraphCentralityConfig F) : Option (Ranks F) :=
  if nodes.isEmpty then some [] else some (toScores nodes (rankLoop nodes edges config ranks))

def adjacency (node : String) : List String :=
  edges.flatMap (fun edge => (if edge.1 = node then [edge.2] else []) ++ (if edge.2 = node then [edge.1] else []))

/-- The nodes within `maxHops` of the seeds, unless there are too many. -/
def dirtyRegion (threshold maxHops : ℕ) : List (String × ℕ) → List String → Option (List String)
  | [], dirty => some dirty
  | (node, depth)::queue, dirty =>
    if node ∈ dirty then dirtyRegion threshold maxHops queue dirty
    else if threshold < dirty.length + 1 then none
    else
      dirtyRegion threshold maxHops
        (queue ++ if depth < maxHops then (adjacency edges node).map (fun neighbor => (neighbor, depth + 1)) else [])
        (node::dirty)
termination_by queue dirty => (threshold - dirty.length, queue.length)

def previousRanks (previous : Ranks F) : Ranks F :=
  nodes.map (fun node => (node, (previous.lookup node).getD 1 / nodes.length))

def incrementalPagerankScores (previous : Ranks F) (dirtySeeds : List String) (config : GraphCentralityConfig F) :
    Option (Ranks F) :=
  if previous.isEmpty ∨ dirtySeeds.isEmpty then none
  else
    match dirtyRegion edges config.incrementalThreshold config.maxHops
        ((dirtySeeds.filter (fun seed => seed ∈ nodes)).map (fun seed => (seed, 0))) [] with
    | none => none
    | some _ =>
      let ranks := previousRanks nodes previous
      let total := (ranks.map Prod.snd).sum
      if total ≤ 0 then none
      else solvePagerank nodes edges (ranks.map (fun row => (row.1, row.2 / total))) config

end Graph

section Rows

variable {nodes : List String} {edges : List (String × String)}

theorem rank_map (f : String → F) (node : String) : rank (nodes.map (fun v => (v, f v))) node =
    if node ∈ nodes then f node else 0 := by
  induction nodes with
  | nil => rfl
  | cons v nodes ih =>
    unfold rank at ih ⊢
    rw [List.map_cons,lookup_cons_eq]
    by_cases hv : node = v
    · simp [hv]
    · simpa [hv] using ih

theorem rank_mapped {g : F → F} (hg : g 0 = 0) (ranks : Ranks F) (node : String) :
    rank (ranks.map (fun row => (row.1, g row.2))) node = g (rank ranks node) := by
  induction ranks with
  | nil => exact hg.symm
  | cons row ranks ih =>
    obtain ⟨name,v⟩ := row
    unfold rank at ih ⊢
    rw [List.map_cons,lookup_cons_eq,lookup_cons_eq]
    split
    · rfl
    · exact ih

theorem addTo_foldl (f : String → F) (contribution : F) (targets : List String) :
    targets.foldl (fun next tgt => addTo next tgt contribution) (nodes.map (fun v => (v, f v))) =
      nodes.map (fun v => (v, f v+targets.count v*contribution)) := by
  induction targets generalizing f with
  | nil => simp
  | cons tgt targets ih =>
    have ha : addTo (nodes.map (fun v => (v, f v))) tgt contribution =
        nodes.map (fun v => (v, if v = tgt then f v+contribution else f v)) := by
      simp [addTo]
    rw [List.foldl_cons,ha,ih]
    refine List.map_congr_left (fun v _ => ?_)
    by_cases hv : v = tgt
    · subst hv
      rw [if_pos rfl,List.count_cons_self]
      push_cast
      ring_nf
    · rw [if_neg hv,List.count_cons_of_ne (Ne.symm hv)]

theorem sources_foldl (f : String → F) (targets : String → List String) (contribution : String → F)
    (from_ : List String) :
    from_.foldl (fun next src =>
      (targets src).foldl (fun next tgt => addTo next tgt (contribution src)) next)
        (nodes.map (fun v => (v, f v))) =
      nodes.map (fun v => (v, f v+(from_.map (fun src => (targets src).count v*contribution src)).sum)) := by
  induction from_ generalizing f with
  | nil => simp
  | cons src from_ ih =>
    rw [List.foldl_cons,addTo_foldl,ih]
    simp only [List.map_cons,List.sum_cons,add_assoc]

theorem mem_sources_iff (node : String) : node ∈ sources edges ↔ (outgoing edges node).isEmpty = false := by
  simp [sources,outgoing]

/-- The part of the rank of `u` that goes to `v`. -/
def share (nodes : List String) (edges : List (String × String)) (u v : String) : F :=
  if (outgoing edges u).isEmpty then 1 / nodes.length else (outgoing edges u).count v / (outgoing edges u).length

theorem rankStep_eq (hn : nodes.Nodup) (damping : F) {ranks : Ranks F} (ht : ∀ u ∉ nodes, rank ranks u = 0) :
    rankStep nodes edges damping ranks = nodes.map (fun v => (v, (1 - damping) / nodes.length +
      damping * ∑ u ∈ nodes.toFinset, rank ranks u*share nodes edges u v)) := by
  unfold rankStep
  dsimp only
  rw [sources_foldl]
  refine List.map_congr_left (fun v _ => Prod.ext rfl ?_)
  have hd : ((nodes.filter (fun node => (outgoing edges node).isEmpty)).map (rank ranks)).sum / nodes.length =
      ∑ u ∈ nodes.toFinset with (outgoing edges u).isEmpty = true, rank ranks u * share nodes edges u v := by
    rw [← List.sum_toFinset _ (hn.filter _),List.toFinset_filter,Finset.sum_div]
    refine Finset.sum_congr rfl (fun u hu => ?_)
    rw [share,if_pos (Finset.mem_filter.mp hu).2,mul_one_div]
  have hs : ((sources edges).map (fun src => (outgoing edges src).count v *
        (damping*rank ranks src / (outgoing edges src).length))).sum =
      ∑ u ∈ nodes.toFinset with ¬ (outgoing edges u).isEmpty = true, damping * (rank ranks u*share nodes edges u v) := by
    have hk : (sources edges).Nodup := List.nodup_dedup _
    rw [← List.sum_toFinset _ hk]
    refine (Finset.sum_subset_zero_on_sdiff (fun u hu => ?_) (fun u hu => ?_) (fun u hu => ?_)).symm
    · rw [List.mem_toFinset]
      exact (mem_sources_iff u).mpr (by simpa using (Finset.mem_filter.mp hu).2)
    · -- an edge from outside the nodes brings nothing
      obtain ⟨hr,ho⟩ := Finset.mem_sdiff.mp hu
      have hno := (mem_sources_iff u).mp (List.mem_toFinset.mp hr)
      have hou : u ∉ nodes := by
        intro hi
        exact ho (Finset.mem_filter.mpr ⟨List.mem_toFinset.mpr hi,by simp [hno]⟩)
      rw [ht u hou]
      simp
    · rw [share,if_neg (Finset.mem_filter.mp hu).2]
      ring
  rw [hd,hs,← Finset.mul_sum,add_assoc,← mul_add,Finset.sum_filter_add_sum_filter_not]

theorem share_sum_le [LinearOrder F] [IsStrictOrderedRing F] (hn : nodes.Nodup) (u : String) :
    ∑ v ∈ nodes.toFinset, share (F := F) nodes edges u v ≤ 1 := by
  unfold share
  by_cases he : (outgoing edges u).isEmpty
  · simp only [if_pos he,Finset.sum_const,List.toFinset_card_of_nodup hn,nsmul_eq_mul]
    rw [mul_one_div]
    exact div_self_le_one _
  · simp only [if_neg he]
    rw [← Finset.sum_div,← Nat.cast_sum]
    have hc : ∑ v ∈ nodes.toFinset, (outgoing edges u).count v ≤ (outgoing edges u).length := by
      have ha : ∀ v ∈ (outgoing edges u : Multiset String), v ∈ nodes.toFinset ∪ (outgoing edges u).toFinset := by
        intro v hv
        exact Finset.mem_union_right _ (List.mem_toFinset.mpr hv)
      have hl := Multiset.sum_count_eq_card ha
      simp only [Multiset.coe_count,Multiset.coe_card] at hl
      rw [← hl]
      exact Finset.sum_le_sum_of_subset Finset.subset_union_left
    exact div_le_one_of_le₀ (Nat.cast_le.mpr hc) (Nat.cast_nonneg _)

end Rows

section Solved

variable [LinearOrder F] {nodes : List String} {edges : List (String × String)}

structure Distributed (nodes : List String) (ranks : Ranks F) : Prop where
  keys : ranks.map Prod.fst = nodes
  nonneg : ∀ node, 0 ≤ rank ranks node
  outside : ∀ node ∉ nodes, rank ranks node = 0
  total : ∑ v ∈ nodes.toFinset, rank ranks v ≤ 1

theorem rankDelta_eq (hn : nodes.Nodup) (next ranks : Ranks F) :
    rankDelta nodes next ranks = ∑ v ∈ nodes.toFinset, |rank next v - rank ranks v| :=
  (List.sum_toFinset _ hn).symm

theorem rank_rankStep (hn : nodes.Nodup) (damping : F) {ranks : Ranks F} (h : Distributed nodes ranks) {v : String}
    (hv : v ∈ nodes) : rank (rankStep nodes edges damping ranks) v = (1 - damping) / nodes.length +
      damping * ∑ u ∈ nodes.toFinset, rank ranks u * share nodes edges u v := by
  rw [rankStep_eq hn damping h.outside,rank_map,if_pos hv]

theorem Distributed.of_map {f : String → F} (hn : ∀ v ∈ nodes, 0 ≤ f v) (hs : ∑ v ∈ nodes.toFinset, f v ≤ 1) :
    Distributed nodes (nodes.map (fun v => (v, f v))) := by
  refine ⟨by simp [Function.comp_def],fun v => ?_,fun v hv => by rw [rank_map,if_neg hv],?_⟩
  · rw [rank_map]
    split
    · rename_i hv
      exact hn v hv
    · exact le_rfl
  · rw [Finset.sum_congr rfl (fun v hv => by rw [rank_map,if_pos (List.mem_toFinset.mp hv)])]
    exact hs

variable [IsStrictOrderedRing F]

theorem share_substochastic (hn : nodes.Nodup) : Substochastic nodes.toFinset (share (F := F) nodes edges) where
  nonneg u _ v _ := by
    unfold share
    split
    · exact div_nonneg zero_le_one (Nat.cast_nonneg _)
    · exact div_nonneg (Nat.cast_nonneg _) (Nat.cast_nonneg _)
  sum_le_one u _ := share_sum_le hn u

theorem Distributed.rankStep (hn : nodes.Nodup) (hnd : nodes ≠ []) {damping : F} (hd : 0 ≤ damping)
    (hd1 : damping ≤ 1) {ranks : Ranks F} (h : Distributed nodes ranks) :
    Distributed nodes (rankStep nodes edges damping ranks) := by
  have hh : Substochastic nodes.toFinset (share (F := F) nodes edges) := share_substochastic hn
  rw [rankStep_eq hn damping h.outside]
  refine Distributed.of_map (fun v hv => ?_) ?_
  · have hs : 0 ≤ ∑ u ∈ nodes.toFinset, rank ranks u * share nodes edges u v := by
      refine Finset.sum_nonneg (fun u hu => mul_nonneg (h.nonneg u) ?_)
      exact hh.nonneg u hu v (List.mem_toFinset.mpr hv)
    exact add_nonneg (div_nonneg (sub_nonneg.mpr hd1) (Nat.cast_nonneg _)) (mul_nonneg hd hs)
  · have hl : (nodes.length : F) ≠ 0 := Nat.cast_ne_zero.mpr (by simpa using hnd)
    have hs := (hh.sum_le (fun u _ => h.nonneg u)).trans h.total
    rw [Finset.sum_add_distrib,Finset.sum_const,List.toFinset_card_of_nodup hn,nsmul_eq_mul,
      mul_div_cancel₀ _ hl,← Finset.mul_sum]
    have := mul_le_mul_of_nonneg_left hs hd
    linarith

theorem rankStep_contracts (hn : nodes.Nodup) (hs : nodes ≠ []) {damping : F} (hd : 0 ≤ damping)
    (hd1 : damping ≤ 1) :
    Contracts (rankDelta nodes) (rankStep nodes edges damping) {ranks | Distributed nodes ranks} damping 2 where
  refl x := by simp [rankDelta]
  symm x y := by simp only [rankDelta,abs_sub_comm]
  triangle x y z := by
    rw [rankDelta_eq hn,rankDelta_eq hn,rankDelta_eq hn,← Finset.sum_add_distrib]
    exact Finset.sum_le_sum (fun v _ => abs_sub_le _ _ _)
  maps x hx := Distributed.rankStep hn hs hd hd1 hx
  shrinks x hx y hy := by
    rw [rankDelta_eq hn,rankDelta_eq hn]
    have hm : ∀ v ∈ nodes.toFinset,
        |rank (rankStep nodes edges damping x) v - rank (rankStep nodes edges damping y) v| =
          damping * |∑ u ∈ nodes.toFinset, (rank x u - rank y u) * share nodes edges u v| := by
      intro v hv
      rw [rank_rankStep hn damping hx (List.mem_toFinset.mp hv),
        rank_rankStep hn damping hy (List.mem_toFinset.mp hv),add_sub_add_left_eq_sub,← mul_sub,
        ← Finset.sum_sub_distrib,abs_mul,abs_of_nonneg hd]
      simp only [sub_mul]
    rw [Finset.sum_congr rfl hm,← Finset.mul_sum]
    exact mul_le_mul_of_nonneg_left ((share_substochastic hn).sum_abs_le _) hd
  bounded x hx y hy := by
    rw [rankDelta_eq hn]
    have hp : ∑ v ∈ nodes.toFinset, |rank x v - rank y v| ≤ ∑ v ∈ nodes.toFinset, (rank x v+rank y v) := by
      refine Finset.sum_le_sum (fun v _ => (abs_sub _ _).trans ?_)
      rw [abs_of_nonneg (hx.nonneg v),abs_of_nonneg (hy.nonneg v)]
    rw [Finset.sum_add_distrib] at hp
    have hx1 := hx.total
    have hy1 := hy.total
    linarith

theorem toScores_gap (nodes : List String) (x y : Ranks F) :
    rankDelta nodes (toScores nodes x) (toScores nodes y) ≤ nodes.length * rankDelta nodes x y := by
  unfold rankDelta
  rw [← List.sum_map_mul_left]
  refine List.sum_le_sum (fun v _ => ?_)
  have hz : min (max ((0 : F)*nodes.length) 0) 1 = 0 := by simp
  rw [toScores,toScores,rank_mapped (g := fun r => min (max (r*(nodes.length : F)) 0) 1) hz,
    rank_mapped (g := fun r => min (max (r*(nodes.length : F)) 0) 1) hz]
  have hc (a b : F) : |min (max a 0) 1 - min (max b 0) 1| ≤ |a - b| :=
    (abs_min_sub_min_le_max _ _ _ _).trans (max_le (abs_max_sub_max_le_abs _ _ _) (by simp))
  refine (hc _ _).trans ?_
  rw [← sub_mul,abs_mul,abs_of_nonneg (Nat.cast_nonneg _ : (0 : F) ≤ nodes.length),mul_comm]

theorem uniform_distributed (hn : nodes.Nodup) :
    Distributed nodes (nodes.map (fun node => (node, 1 / (nodes.length : F)))) := by
  refine Distributed.of_map (fun v _ => div_nonneg zero_le_one (Nat.cast_nonneg _)) ?_
  rw [Finset.sum_const,List.toFinset_card_of_nodup hn,nsmul_eq_mul,mul_one_div]
  exact div_self_le_one _

theorem previous_distributed (ho : nodes.Nodup) {previous : Ranks F} (hp : ∀ row ∈ previous, 0 ≤ row.2) :
    let total := ((previousRanks nodes previous).map Prod.snd).sum
    Distributed nodes ((previousRanks nodes previous).map (fun row => (row.1, row.2 / total))) := by
  have hn : ∀ v, 0 ≤ (previous.lookup v).getD 1 / (nodes.length : F) := by
    intro v
    refine div_nonneg ?_ (Nat.cast_nonneg _)
    cases hl : previous.lookup v with
    | none => exact zero_le_one
    | some score =>
      exact hp (v, score) (mem_of_lookup hl)
  have ht : ((previousRanks nodes previous).map Prod.snd).sum =
      ∑ v ∈ nodes.toFinset, (previous.lookup v).getD 1 / (nodes.length : F) := by
    rw [List.sum_toFinset _ ho,previousRanks,List.map_map]
    rfl
  dsimp only
  rw [ht,previousRanks,List.map_map]
  refine Distributed.of_map (fun v _ => div_nonneg (hn v) (Finset.sum_nonneg (fun v _ => hn v))) ?_
  rw [← Finset.sum_div]
  exact div_self_le_one _

omit [IsStrictOrderedRing F] in
theorem incrementalPagerankScores_eq_some {previous scores : Ranks F} {dirtySeeds : List String}
    {cfg : GraphCentralityConfig F}
    (h : incrementalPagerankScores nodes edges previous dirtySeeds cfg = some scores) :
    let total := ((previousRanks nodes previous).map Prod.snd).sum
    solvePagerank nodes edges ((previousRanks nodes previous).map (fun row => (row.1, row.2 / total))) cfg =
      some scores := by
  unfold incrementalPagerankScores at h
  split at h
  · cases h
  · split at h
    · cases h
    · dsimp only at h
      split at h
      · cases h
      · exact h

/-- Scores from earlier scores are near those computed from scratch. -/
theorem incremental_scores_near [Archimedean F] {nodes : List String} (hnodup : nodes.Nodup)
    (edges : List (String × String)) (config : GraphCentralityConfig F) {previous : Ranks F}
    (hprevious : ∀ row ∈ previous, 0 ≤ row.2) (dirtySeeds : List String) {scores : Ranks F}
    (h : incrementalPagerankScores nodes edges previous dirtySeeds config = some scores) :
    (nodes.map (fun node => |rank scores node - rank (pagerankScores nodes edges config) node|)).sum ≤
      2 * nodes.length * max (config.epsilon * config.damping / (1 - config.damping))
        (2 * config.damping ^ config.maxIterations) := by
  have hs := incrementalPagerankScores_eq_some h
  dsimp only at hs
  unfold solvePagerank at hs
  split at hs
  · rename_i he
    obtain rfl := List.isEmpty_iff.mp he
    simp
  · rename_i he
    have hn : nodes ≠ [] := fun h => he (List.isEmpty_iff.mpr h)
    obtain rfl := Option.some.inj hs
    rw [pagerankScores, if_neg he]
    have hc : Contracts (rankDelta nodes) (rankStep nodes edges config.damping) {ranks | Distributed nodes ranks}
        config.damping 2 :=
      rankStep_contracts hnodup hn config.damping_pos.le config.damping_lt_one.le
    have ha := hc.settle_gap_settle config.damping_pos.le config.damping_lt_one
      (previous_distributed hnodup hprevious) (uniform_distributed hnodup) config.maxIterations (e := config.epsilon)
    refine (toScores_gap nodes _ _).trans ?_
    refine (mul_le_mul_of_nonneg_left ha (Nat.cast_nonneg _)).trans (le_of_eq ?_)
    ring

theorem incremental_scores_near_chain : ∃ config : GraphCentralityConfig ℚ, ∃ scores,
    GraphCentralityConfig.new 256 3 32 (1 / 100000) (17 / 20) = .ok config ∧
      incrementalPagerankScores ["a", "b"] [("a", "b")] [("a", 1 / 2)] ["a"] config = some scores ∧
      ((["a", "b"] : List String).map (fun node =>
          |rank scores node - rank (pagerankScores ["a", "b"] [("a", "b")] config) node|)).sum ≤
        2 * (["a", "b"] : List String).length * max (config.epsilon * config.damping / (1 - config.damping))
          (2 * config.damping ^ config.maxIterations) := by
  obtain ⟨config, hc, hh, ht⟩ : ∃ config : GraphCentralityConfig ℚ,
      GraphCentralityConfig.new 256 3 32 (1 / 100000) (17 / 20) = .ok config ∧ config.maxHops = 3 ∧
        config.incrementalThreshold = 128 :=
    ⟨_, GraphCentralityConfig.new_eq_ok (by decide) (by decide) (by decide) (by norm_num) (by norm_num), rfl, rfl⟩
  have hr : (dirtyRegion [("a", "b")] 128 3 [("a", 0)] []).isSome = true := by
    simp [dirtyRegion, adjacency]
  obtain ⟨region, hr⟩ := Option.isSome_iff_exists.mp hr
  have ho : ¬ ((previousRanks ["a", "b"] [("a", (1 : ℚ) / 2)]).map Prod.snd).sum ≤ 0 := by
    have hoth : ¬ "b" = "a" := by decide
    norm_num [previousRanks, lookup_cons_eq, hoth]
  have he : (["a"].filter (fun seed => seed ∈ ["a", "b"])).map (fun seed => (seed, 0)) = [("a", 0)] := by decide
  have hm : (incrementalPagerankScores ["a", "b"] [("a", "b")] [("a", 1 / 2)] ["a"] config).isSome = true := by
    rw [incrementalPagerankScores, if_neg (by decide), he, hh, ht, hr]
    dsimp only
    rw [if_neg ho, solvePagerank, if_neg (by decide), Option.isSome_some]
  obtain ⟨scores, hs⟩ := Option.isSome_iff_exists.mp hm
  refine ⟨config, scores, hc, hs, incremental_scores_near (by decide) _ config ?_ ["a"] hs⟩
  intro row hw
  rw [List.mem_singleton.mp hw]
  norm_num

end Solved

end UwuContextDb.Content
