import Mathlib.Algebra.Order.BigOperators.Group.List
import Mathlib.Tactic.FieldSimp
import UwuContextDb.Library.Assoc
import UwuContextDb.Library.Groups
import UwuContextDb.Marketplace.Entries

/-! `InfluenceAnalyzer`: the ranks of entries that cite each other, in exact arithmetic. -/

namespace UwuContextDb.Marketplace

open Assoc Groups

section Data

variable (K : Type)

structure PageRankConfig where
  dampingFactor : K
  convergenceTolerance : K
  maxIterations : ℕ
  maxNodes : ℕ
  bridgeSaturationCitations : ℕ
  riskyBridgeCutoff : K

structure InfluenceScore where
  entryId : MarketId
  pagerank : K
  adoptionCount : ℕ
  citationCount : ℕ
  betweenness : K

end Data

variable {K : Type} [Field K] [LinearOrder K]

/-- `PageRankConfig::validate`; the checks that a number is finite have no counterpart. -/
def PageRankConfig.validate (config : PageRankConfig K) : Except String Unit :=
  if ¬ (0 ≤ config.dampingFactor ∧ config.dampingFactor < 1) then .error "damping_factor must be finite and in (0, 1)"
  else if config.convergenceTolerance ≤ 0 then .error "convergence_tolerance must be finite and positive"
  else if config.maxIterations = 0 ∨ config.maxNodes = 0 then .error "PageRank bounds must be non-zero"
  else if config.bridgeSaturationCitations = 0 then .error "bridge_saturation_citations must be non-zero"
  else if ¬ (0 ≤ config.riskyBridgeCutoff ∧ config.riskyBridgeCutoff ≤ 1) then
    .error "risky_bridge_cutoff must be finite and in [0, 1]"
  else .ok ()

/-- `InfluenceAnalyzer`, as `new` builds it, with what has been recorded: under each entry those that cite it, and under
each entry the agents that adopt it, in the order in which the maps iterate. -/
structure InfluenceAnalyzer (K : Type) [Field K] [LinearOrder K] where
  config : PageRankConfig K
  valid : config.validate = .ok ()
  citations : List (MarketId × List MarketId)
  adoptions : List (MarketId × List AgentId)

abbrev EntryRanks (K : Type) := List (MarketId × K)

def pushUniqueMarketId (ids : List MarketId) (id : MarketId) : List MarketId := if id ∈ ids then ids else ids ++ [id]

namespace InfluenceAnalyzer

variable (analyzer : InfluenceAnalyzer K)

def recorded : List MarketId :=
  (analyzer.adoptions.map Prod.fst).foldl pushUniqueMarketId
    (analyzer.citations.foldl (fun ids row => row.2.foldl pushUniqueMarketId (pushUniqueMarketId ids row.1)) [])

/-- `all_entries`, sorted and truncated. -/
def allEntries : List MarketId := (analyzer.recorded.insertionSort (· ≤ ·)).take analyzer.config.maxNodes

def references : List (MarketId × MarketId) :=
  analyzer.citations.flatMap (fun row => row.2.map (fun citing => (citing, row.1)))

def outgoing (entry : MarketId) : List MarketId :=
  (analyzer.references.filter (fun reference => reference.1 = entry)).map Prod.snd

def isDangling (entry : MarketId) : Bool := (analyzer.outgoing entry).isEmpty

def incoming (entry : MarketId) : List MarketId :=
  (analyzer.references.filter (fun reference => reference.2 = entry)).map Prod.fst

def rank (ranks : EntryRanks K) (entry : MarketId) : K := (ranks.lookup entry).getD 0

def initial : EntryRanks K := analyzer.allEntries.map (fun entry => (entry, 1 / (analyzer.allEntries.length : K)))

def base (ranks : EntryRanks K) : K :=
  let n : K := analyzer.allEntries.length
  let danglingMass := ((analyzer.allEntries.filter analyzer.isDangling).map (rank ranks)).sum / n
  (1 - analyzer.config.dampingFactor) / n + analyzer.config.dampingFactor * danglingMass

def iterate (ranks : EntryRanks K) : EntryRanks K :=
  analyzer.allEntries.map (fun entry => (entry, (analyzer.incoming entry).foldl (fun sum citing =>
    let outDegree := (analyzer.outgoing citing).length
    if 0 < outDegree then sum + analyzer.config.dampingFactor * rank ranks citing / outDegree else sum)
      (analyzer.base ranks)))

def delta (next ranks : EntryRanks K) : K := (analyzer.allEntries.map (fun entry => |rank next entry - rank ranks entry|)).sum

def iterations : ℕ → EntryRanks K → List (EntryRanks K)
  | 0, _ => []
  | k + 1, ranks =>
    let next := analyzer.iterate ranks
    next::if analyzer.delta next ranks < analyzer.config.convergenceTolerance then [] else iterations k next

def rankings : List (EntryRanks K) :=
  if analyzer.allEntries.isEmpty then [] else analyzer.iterations analyzer.config.maxIterations analyzer.initial

def score (ranks : EntryRanks K) (entry : MarketId) : InfluenceScore K :=
  let maxRank := max ((ranks.map Prod.snd).foldl max 0) (1 / 8388608)
  let adoptionCount := ((analyzer.adoptions.lookup entry).map List.length).getD 0
  let citationCount := ((analyzer.citations.lookup entry).map List.length).getD 0
  ⟨entry, clamp (rank ranks entry / maxRank) 0 1, adoptionCount, citationCount,
    clamp ((citationCount : K) / ((citationCount + analyzer.config.bridgeSaturationCitations : ℕ) : K)) 0 1⟩

def Precedes (a b : InfluenceScore K) : Prop :=
  b.pagerank < a.pagerank ∨ (a.pagerank = b.pagerank ∧ b.citationCount ≤ a.citationCount)

instance decidablePrecedes : DecidableRel (Precedes (K := K)) := fun _ _ => inferInstanceAs (Decidable (_ ∨ _))

def analyze : List (InfluenceScore K) :=
  (analyzer.allEntries.map (analyzer.score ((analyzer.rankings.getLast?).getD analyzer.initial))).insertionSort Precedes

section Mass

variable [IsStrictOrderedRing K] {analyzer}

omit [IsStrictOrderedRing K] in
theorem nodup_recorded : analyzer.recorded.Nodup := by
  have hp : ∀ (ids : List MarketId) (id : MarketId), ids.Nodup → (pushUniqueMarketId ids id).Nodup := by
    intro ids id h
    unfold pushUniqueMarketId
    split_ifs with hi
    · exact h
    · rw [List.nodup_append]
      refine ⟨h, List.nodup_singleton id, ?_⟩
      intro other ho _ hs he
      obtain rfl := List.mem_singleton.mp hs
      exact hi (he ▸ ho)
  have ha : ∀ (new ids : List MarketId), ids.Nodup → (new.foldl pushUniqueMarketId ids).Nodup := by
    intro new
    induction new with
    | nil => exact fun ids h => h
    | cons id new ih => exact fun ids h => ih _ (hp ids id h)
  have hc : ∀ (rows : List (MarketId × List MarketId)) (ids : List MarketId), ids.Nodup →
      (rows.foldl (fun ids row => row.2.foldl pushUniqueMarketId (pushUniqueMarketId ids row.1)) ids).Nodup := by
    intro rows
    induction rows with
    | nil => exact fun ids h => h
    | cons row rows ih => exact fun ids h => ih _ (ha _ _ (hp ids row.1 h))
  exact ha _ _ (hc _ _ List.nodup_nil)

omit [IsStrictOrderedRing K] in
theorem nodup_allEntries : analyzer.allEntries.Nodup :=
  ((List.perm_insertionSort (· ≤ ·) analyzer.recorded).nodup_iff.mpr nodup_recorded).sublist (List.take_sublist _ _)

omit [LinearOrder K] [IsStrictOrderedRing K] in
theorem rank_map (f : MarketId → K) (es : List MarketId) (e : MarketId) :
    rank (es.map (fun e => (e, f e))) e = if e ∈ es then f e else 0 := by
  rw [rank, lookup_map_key]
  split_ifs <;> rfl

def part (analyzer : InfluenceAnalyzer K) (ranks : EntryRanks K) (citing : MarketId) : K :=
  analyzer.config.dampingFactor * rank ranks citing / (analyzer.outgoing citing).length

omit [IsStrictOrderedRing K] in
theorem iterate_eq (ranks : EntryRanks K) : analyzer.iterate ranks =
    analyzer.allEntries.map (fun e =>
      (e, analyzer.base ranks + ((analyzer.incoming e).map (analyzer.part ranks)).sum)) := by
  have hf : ∀ (citings : List MarketId) (sum : K), citings.foldl (fun sum citing =>
      if 0 < (analyzer.outgoing citing).length then
        sum + analyzer.config.dampingFactor * rank ranks citing / (analyzer.outgoing citing).length
      else sum) sum = sum + (citings.map (analyzer.part ranks)).sum := by
    intro citings
    induction citings with
    | nil => simp
    | cons citing citings ih =>
      intro sum
      rw [List.foldl_cons, ih, List.map_cons, List.sum_cons, ← add_assoc]
      split_ifs with hd
      · rfl
      · have hz : (analyzer.outgoing citing).length = 0 := by omega
        simp [part, hz]
  unfold iterate
  exact List.map_congr_left (fun e _ => Prod.ext rfl (hf _ _))

structure Balanced (analyzer : InfluenceAnalyzer K) (ranks : EntryRanks K) : Prop where
  pos : ∀ entry ∈ analyzer.allEntries, 0 < rank ranks entry
  sum_eq : (analyzer.allEntries.map (rank ranks)).sum = 1

def lost (analyzer : InfluenceAnalyzer K) (ranks : EntryRanks K) : K :=
  ((analyzer.references.filter (fun reference => reference.2 ∉ analyzer.allEntries)).map
    (fun reference => analyzer.part ranks reference.1)).sum

variable {ranks : EntryRanks K}

theorem sum_parts (ho : ∀ entry, entry ∉ analyzer.allEntries → rank ranks entry = 0) :
    (analyzer.references.map (fun reference => analyzer.part ranks reference.1)).sum =
      analyzer.config.dampingFactor *
        ((analyzer.allEntries.filter (fun entry => ¬ analyzer.isDangling entry)).map (rank ranks)).sum := by
  have hi := sum_filter_add_sum_filter_not (fun reference => reference.1 ∈ analyzer.allEntries)
    (fun reference => analyzer.part ranks reference.1) analyzer.references
  have hz : ((analyzer.references.filter (fun reference => ¬ reference.1 ∈ analyzer.allEntries)).map
      (fun reference => analyzer.part ranks reference.1)).sum = 0 := by
    refine List.sum_eq_zero (fun v hv => ?_)
    obtain ⟨reference,hr,rfl⟩ := List.mem_map.mp hv
    have hn : reference.1 ∉ analyzer.allEntries := by simpa using (List.mem_filter.mp hr).2
    simp [part,ho _ hn]
  have hg : ∀ entry, ((analyzer.references.filter (fun reference => reference.1 = entry)).map
      (fun reference => analyzer.part ranks reference.1)).sum =
      if ¬ analyzer.isDangling entry then analyzer.config.dampingFactor * rank ranks entry else 0 := by
    intro entry
    have hp : (analyzer.references.filter (fun reference => reference.1 = entry)).map
        (fun reference => analyzer.part ranks reference.1) =
        List.replicate (analyzer.outgoing entry).length (analyzer.part ranks entry) := by
      refine List.eq_replicate_iff.mpr ⟨by simp [outgoing],fun v hv => ?_⟩
      obtain ⟨reference,hr,rfl⟩ := List.mem_map.mp hv
      have hq : reference.1 = entry := by simpa using (List.mem_filter.mp hr).2
      rw [hq]
    rw [hp,List.sum_replicate,nsmul_eq_mul,part,isDangling]
    cases ht : analyzer.outgoing entry with
    | nil => simp
    | cons cited rest =>
      have hne : (((cited::rest).length : ℕ) : K) ≠ 0 := Nat.cast_ne_zero.mpr (by simp)
      rw [if_pos (by simp)]
      field_simp
  have hf : ∀ es : List MarketId, (es.map (fun entry =>
      if ¬ analyzer.isDangling entry then analyzer.config.dampingFactor*rank ranks entry else 0)).sum =
      analyzer.config.dampingFactor *
        ((es.filter (fun entry => ¬ analyzer.isDangling entry)).map (rank ranks)).sum := by
    intro es
    induction es with
    | nil => simp
    | cons entry es ih =>
      rw [List.map_cons,List.sum_cons,ih]
      by_cases he : analyzer.isDangling entry <;> simp [he,mul_add]
  rw [← hi,hz,add_zero,← sum_groups Prod.fst nodup_allEntries]
  simp only [hg]
  exact hf _

theorem sum_iterate (ho : ∀ e, e ∉ analyzer.allEntries → rank ranks e = 0)
    (hm : analyzer.allEntries ≠ []) :
    (analyzer.allEntries.map (rank (analyzer.iterate ranks))).sum =
      1 - analyzer.config.dampingFactor +
        analyzer.config.dampingFactor * (analyzer.allEntries.map (rank ranks)).sum - analyzer.lost ranks := by
  have hr : analyzer.allEntries.map (rank (analyzer.iterate ranks)) = analyzer.allEntries.map (fun e =>
      analyzer.base ranks+((analyzer.incoming e).map (analyzer.part ranks)).sum) := by
    refine List.map_congr_left (fun e he => ?_)
    rw [iterate_eq,rank_map,if_pos he]
  have hi : (analyzer.allEntries.map (fun e =>
      ((analyzer.incoming e).map (analyzer.part ranks)).sum)).sum =
      ((analyzer.references.filter (fun reference => reference.2 ∈ analyzer.allEntries)).map
        (fun reference => analyzer.part ranks reference.1)).sum := by
    rw [← sum_groups Prod.snd nodup_allEntries]
    simp only [incoming,List.map_map,Function.comp_def]
  have hs := sum_filter_add_sum_filter_not (fun reference => reference.2 ∈ analyzer.allEntries)
    (fun reference => analyzer.part ranks reference.1) analyzer.references
  have hd := sum_filter_add_sum_filter_not (fun e => analyzer.isDangling e = true) (rank ranks)
    analyzer.allEntries
  have hn : ((analyzer.allEntries.length : ℕ) : K) ≠ 0 :=
    Nat.cast_ne_zero.mpr (fun h => hm (List.length_eq_zero_iff.mp h))
  have hb : (analyzer.allEntries.map (fun _ => analyzer.base ranks)).sum = 1 - analyzer.config.dampingFactor +
      analyzer.config.dampingFactor *
        ((analyzer.allEntries.filter analyzer.isDangling).map (rank ranks)).sum := by
    rw [List.map_const',List.sum_replicate,nsmul_eq_mul,base]
    field_simp
  rw [hr,List.sum_map_add,hb,hi,← hd,lost]
  rw [sum_parts ho] at hs
  simp only [Bool.decide_eq_true] at hd ⊢
  rw [mul_add,← hs]
  ring

omit [IsStrictOrderedRing K] in
theorem rank_iterate_of_not_mem (ranks : EntryRanks K) {e : MarketId} (he : e ∉ analyzer.allEntries) :
    rank (analyzer.iterate ranks) e = 0 := by
  rw [iterate_eq, rank_map, if_neg he]

omit [IsStrictOrderedRing K] in
theorem damping_bounds : 0 ≤ analyzer.config.dampingFactor ∧ analyzer.config.dampingFactor < 1 := by
  have hv := analyzer.valid
  unfold PageRankConfig.validate at hv
  by_contra h
  rw [if_pos h] at hv
  cases hv

omit [IsStrictOrderedRing K] in
theorem maxIterations_pos : 0 < analyzer.config.maxIterations := by
  have hv := analyzer.valid
  unfold PageRankConfig.validate at hv
  split_ifs at hv with _ _ hb
  exact Nat.pos_of_ne_zero (fun h => hb (.inl h))

structure Ranked (analyzer : InfluenceAnalyzer K) (ranks : EntryRanks K) : Prop extends Balanced analyzer ranks where
  outside : ∀ entry, entry ∉ analyzer.allEntries → rank ranks entry = 0

theorem Ranked.part_nonneg (h : Ranked analyzer ranks) (citing : MarketId) : 0 ≤ analyzer.part ranks citing := by
  have hr : 0 ≤ rank ranks citing := by
    by_cases hc : citing ∈ analyzer.allEntries
    · exact (h.pos citing hc).le
    · exact (h.outside citing hc).ge
  exact div_nonneg (mul_nonneg damping_bounds.1 hr) (Nat.cast_nonneg _)

def Closed (analyzer : InfluenceAnalyzer K) : Prop :=
  ∀ reference ∈ analyzer.references, reference.1 ∈ analyzer.allEntries → reference.2 ∈ analyzer.allEntries

theorem Ranked.lost_eq_zero_iff (h : Ranked analyzer ranks) :
    analyzer.lost ranks = 0 ↔ analyzer.config.dampingFactor = 0 ∨ analyzer.Closed := by
  have hz : analyzer.lost ranks = 0 ↔ ∀ reference ∈ analyzer.references, reference.2 ∉ analyzer.allEntries →
      analyzer.part ranks reference.1 = 0 := by
    unfold lost
    constructor
    · intro hs reference hr hc
      refine List.all_zero_of_le_zero_le_of_sum_eq_zero (fun v hv => ?_) hs
        (List.mem_map.mpr ⟨reference,List.mem_filter.mpr ⟨hr,by simpa using hc⟩,rfl⟩)
      obtain ⟨other, -,rfl⟩ := List.mem_map.mp hv
      exact h.part_nonneg other.1
    · intro hpr
      refine List.sum_eq_zero (fun v hv => ?_)
      obtain ⟨reference,hr,rfl⟩ := List.mem_map.mp hv
      obtain ⟨hm,hc⟩ := List.mem_filter.mp hr
      exact hpr reference hm (by simpa using hc)
  rw [hz]
  constructor
  · intro hpr
    by_cases hd : analyzer.config.dampingFactor = 0
    · exact .inl hd
    · refine .inr (fun reference hr ht => ?_)
      by_contra hc
      have he : (analyzer.outgoing reference.1).length ≠ 0 := by
        intro hn
        have hm : reference.2 ∈ analyzer.outgoing reference.1 :=
          List.mem_map.mpr ⟨reference,List.mem_filter.mpr ⟨hr,by simp⟩,rfl⟩
        rw [List.length_eq_zero_iff.mp hn] at hm
        cases hm
      have hp := hpr reference hr hc
      rw [part,div_eq_zero_iff,mul_eq_zero] at hp
      rcases hp with (hp | hp) | hp
      · exact hd hp
      · exact (h.pos _ ht).ne' hp
      · exact he (Nat.cast_eq_zero.mp hp)
  · rintro (hd | hl) reference hr hc
    · simp [part,hd]
    · have ht : reference.1 ∉ analyzer.allEntries := fun ht => hc (hl reference hr ht)
      simp [part,h.outside _ ht]

theorem Ranked.balanced_iterate_iff (h : Ranked analyzer ranks) (ho : analyzer.allEntries ≠ []) :
    Balanced analyzer (analyzer.iterate ranks) ↔ analyzer.config.dampingFactor = 0 ∨ analyzer.Closed := by
  have hs := sum_iterate h.outside ho
  rw [h.sum_eq,mul_one,sub_add_cancel] at hs
  have hb : 0 < analyzer.base ranks := by
    have hn : (0 : K) < analyzer.allEntries.length := Nat.cast_pos.mpr (List.length_pos_of_ne_nil ho)
    have ha : 0 ≤ ((analyzer.allEntries.filter analyzer.isDangling).map (rank ranks)).sum := by
      refine List.sum_nonneg (fun v hv => ?_)
      obtain ⟨e,he,rfl⟩ := List.mem_map.mp hv
      exact (h.pos e (List.mem_of_mem_filter he)).le
    have hd := @damping_bounds K _ _ analyzer
    exact add_pos_of_pos_of_nonneg (div_pos (sub_pos.mpr hd.2) hn)
      (mul_nonneg hd.1 (div_nonneg ha hn.le))
  rw [← h.lost_eq_zero_iff]
  constructor
  · intro hl
    rw [hl.sum_eq] at hs
    linarith
  · intro hlo
    refine ⟨fun e he => ?_,by rw [hs,hlo,sub_zero]⟩
    rw [iterate_eq,rank_map,if_pos he]
    refine add_pos_of_pos_of_nonneg hb (List.sum_nonneg (fun v hv => ?_))
    obtain ⟨citing, -,rfl⟩ := List.mem_map.mp hv
    exact h.part_nonneg citing

theorem ranked_initial (hs : analyzer.allEntries ≠ []) : Ranked analyzer analyzer.initial := by
  have hn : (0 : K) < analyzer.allEntries.length := Nat.cast_pos.mpr (List.length_pos_of_ne_nil hs)
  refine ⟨⟨fun e he => ?_, ?_⟩,fun e he => ?_⟩
  · rw [initial,rank_map,if_pos he]
    exact one_div_pos.mpr hn
  · have hc : analyzer.allEntries.map (rank analyzer.initial) =
        analyzer.allEntries.map (fun _ => 1 / (analyzer.allEntries.length : K)) := by
      refine List.map_congr_left (fun e he => ?_)
      rw [initial,rank_map,if_pos he]
    rw [hc,List.map_const',List.sum_replicate,nsmul_eq_mul,mul_one_div_cancel hn.ne']
  · rw [initial,rank_map,if_neg he]

theorem balanced_iterations {k : ℕ} (hs : analyzer.allEntries ≠ [])
    (hk : analyzer.config.dampingFactor = 0 ∨ analyzer.Closed) (h : Ranked analyzer ranks) :
    ∀ after ∈ analyzer.iterations k ranks, Balanced analyzer after := by
  induction k generalizing ranks with
  | zero => simp [iterations]
  | succ k ih =>
    have hn : Balanced analyzer (analyzer.iterate ranks) := (h.balanced_iterate_iff hs).mpr hk
    intro after ha
    rw [iterations] at ha
    rcases List.mem_cons.mp ha with rfl | ha
    · exact hn
    · split_ifs at ha
      · cases ha
      · exact ih ⟨hn,fun e he => rank_iterate_of_not_mem ranks he⟩ after ha

end Mass

/-- After every iteration all ranks are positive and add up to one exactly if no kept entry cites one that is cut off, or
citations do not count at all. -/
theorem balanced_rankings_iff [IsStrictOrderedRing K] (analyzer : InfluenceAnalyzer K) :
    (∀ ranks ∈ analyzer.rankings, Balanced analyzer ranks) ↔
      analyzer.config.dampingFactor = 0 ∨ analyzer.Closed := by
  unfold rankings
  by_cases hs : analyzer.allEntries = []
  · rw [hs]
    refine iff_of_true (by simp) (.inr ?_)
    intro reference _ hc
    rw [hs] at hc
    cases hc
  · rw [if_neg (by simpa using hs)]
    have hr := ranked_initial hs
    constructor
    · intro h
      obtain ⟨k, hk⟩ := Nat.exists_eq_succ_of_ne_zero (@maxIterations_pos K _ _ analyzer).ne'
      rw [hk, iterations] at h
      exact (hr.balanced_iterate_iff hs).mp (h _ List.mem_cons_self)
    · exact fun he => balanced_iterations hs he hr

def sampleAnalyzer (maxNodes : ℕ) (hpos : 0 < maxNodes) (citations : List (MarketId × List MarketId)) :
    InfluenceAnalyzer ℚ :=
  ⟨⟨17 / 20, 1 / 1000000, 64, maxNodes, 5, 1 / 2⟩, by
    have hne : maxNodes ≠ 0 := hpos.ne'
    simp only [PageRankConfig.validate, hne]
    norm_num, citations, []⟩

theorem balanced_rankings_iff_sample :
    (∀ ranks ∈ (sampleAnalyzer 2 (by decide) [(2, [1])]).rankings, Balanced (sampleAnalyzer 2 (by decide) [(2, [1])]) ranks) ↔
      (sampleAnalyzer 2 (by decide) [(2, [1])]).config.dampingFactor = 0 ∨ (sampleAnalyzer 2 (by decide) [(2, [1])]).Closed :=
  balanced_rankings_iff _

/-- Of two entries one is kept, which cites the other: after one iteration a rank of 3 / 20 is left. -/
theorem mass_lost : ∃ ranks ∈ (sampleAnalyzer 1 (by decide) [(2, [1])]).rankings,
    ((sampleAnalyzer 1 (by decide) [(2, [1])]).allEntries.map (rank ranks)).sum = 3 / 20 := by
  refine ⟨_, List.mem_cons_self, ?_⟩
  decide +kernel

end InfluenceAnalyzer

end UwuContextDb.Marketplace
