import Mathlib.Tactic.Positivity
import UwuContextDb.Library.TopRows

/-! Self-consistency voting: samples are put together with the nearest representative, and the largest group wins. -/

namespace UwuContextDb.Consolidation

structure ConsistencyVoteCluster where
  representative : List Char
  votes : ℕ
  members : List (List Char)
  meanSimilarity : ℚ

structure SelfConsistencyReport where
  requestedSamples : ℕ
  sampleCount : ℕ
  completeness : ℚ
  majorityVotes : ℕ
  majorityRatio : ℚ
  voteEntropy : ℚ
  confidenceVariance : ℚ
  accepted : Bool
  clusters : List ConsistencyVoteCluster

/-- `tokens`: the ASCII words of more than two letters. -/
def wordsOf (value : List Char) : Finset (List Char) :=
  (((value.splitOnP (fun ch => !ch.isAlphanum)).filter (2 < ·.length)).map (·.map Char.toLower)).toFinset

def similarity (left right : List Char) : ℚ :=
  if wordsOf left = ∅ ∧ wordsOf right = ∅ then 1
  else if (wordsOf left ∪ wordsOf right).card = 0 then 0
  else (wordsOf left ∩ wordsOf right).card / (wordsOf left ∪ wordsOf right).card

/-- `max_by` over the clusters: the last one that is most similar, with its place. -/
def nearest (sample : List Char) (clusters : List ConsistencyVoteCluster) : Option (ConsistencyVoteCluster × ℕ) :=
  match clusters.zipIdx with
  | [] => none
  | first::rest => some (rest.foldl (fun a b =>
      if similarity sample b.1.representative < similarity sample a.1.representative then a else b) first)

def joinCluster (sample : List Char) (cluster : ConsistencyVoteCluster) : ConsistencyVoteCluster :=
  let members := cluster.members ++ [sample]
  { cluster with
    members := members
    votes := cluster.votes + 1
    meanSimilarity := (members.map (fun member => similarity member cluster.representative)).sum / max members.length 1 }

def addSample (threshold : ℚ) (clusters : List ConsistencyVoteCluster) (sample : List Char) :
    List ConsistencyVoteCluster :=
  match (nearest sample clusters).filter (threshold ≤ similarity sample ·.1.representative) with
  | some (_, i) => clusters.modify i (joinCluster sample)
  | none => clusters ++ [⟨sample, 1, [sample], 1⟩]

/-- The order of the clusters: more votes first, and more similar members among equals. -/
def Leads (a b : ConsistencyVoteCluster) : Prop :=
  b.votes < a.votes ∨ a.votes = b.votes ∧ b.meanSimilarity ≤ a.meanSimilarity

instance : DecidableRel Leads := fun _ _ => inferInstanceAs (Decidable (_ ∨ _))

def clusterSamples (samples : List (List Char)) (threshold : ℚ) : List ConsistencyVoteCluster :=
  (samples.foldl (addSample threshold) []).insertionSort Leads

def unitClamp (x : ℚ) : ℚ := max 0 (min x 1)

/-- `entropy`, over the logarithm. -/
def entropy (ln : ℚ → ℚ) (clusters : List ConsistencyVoteCluster) (sampleCount : ℕ) : ℚ :=
  if sampleCount ≤ 1 then 0
  else
    let raw := (clusters.map (fun cluster =>
      let p : ℚ := cluster.votes / sampleCount
      if p ≤ 0 then 0 else -p * ln p)).sum
    unitClamp (raw / max (ln sampleCount) (1 / 1000000))

def reportFromClusters (ln : ℚ → ℚ) (clusters : List ConsistencyVoteCluster)
    (requestedSamples sampleCount minValidSamples : ℕ) (minMajorityRatio : ℚ) : SelfConsistencyReport :=
  let majorityVotes := (clusters.head?.map (·.votes)).getD 0
  let majorityRatio : ℚ := majorityVotes / (max requestedSamples 1 : ℕ)
  { requestedSamples, sampleCount
    completeness := sampleCount / (max requestedSamples 1 : ℕ)
    majorityVotes, majorityRatio
    voteEntropy := entropy ln clusters sampleCount
    confidenceVariance := unitClamp ((clusters.head?.map (1 - ·.meanSimilarity)).getD 1)
    accepted := max minValidSamples 2 ≤ sampleCount ∧ minMajorityRatio ≤ majorityRatio
    clusters }

def Agrees (representative sample : List Char) : Prop :=
  sample = representative ∨ ∃ word ∈ wordsOf sample, word ∈ wordsOf representative

instance (representative sample : List Char) : Decidable (Agrees representative sample) :=
  inferInstanceAs (Decidable (_ ∨ _))

def AcceptedAgrees (ln : ℚ → ℚ) (samples : List (List Char)) (threshold : ℚ) (requestedSamples minValidSamples : ℕ)
    (minMajorityRatio : ℚ) : Prop :=
  (reportFromClusters ln (clusterSamples samples threshold) requestedSamples samples.length minValidSamples
    minMajorityRatio).accepted = true →
  ∃ leading others, clusterSamples samples threshold = leading::others ∧ (∀ c ∈ others, c.votes ≤ leading.votes) ∧
    minMajorityRatio ≤ leading.votes / (max requestedSamples 1 : ℕ) ∧
    ∀ sample ∈ leading.members, Agrees leading.representative sample

section Similarity

variable {left right : List Char}

theorem similarity_self (text : List Char) : similarity text text = 1 := by
  unfold similarity
  by_cases hn : wordsOf text = ∅
  · simp [hn]
  · simp [hn]

theorem similarity_pos (h : 0 < similarity left right) :
    wordsOf left = ∅ ∧ wordsOf right = ∅ ∨ ∃ word ∈ wordsOf left, word ∈ wordsOf right := by
  by_cases hn : wordsOf left = ∅ ∧ wordsOf right = ∅
  · exact .inl hn
  · right
    by_contra hs
    have hr : wordsOf left ∩ wordsOf right = ∅ := by
      ext word
      simpa using fun hl hi => hs ⟨word,hl,hi⟩
    simp [similarity,hn,hr] at h

theorem similarity_wordless (hl : wordsOf left = ∅) (hr : wordsOf right = ∅) : similarity left right = 1 :=
  if_pos ⟨hl,hr⟩

end Similarity

variable {c : ConsistencyVoteCluster} {i : ℕ}

section Clusters

variable {threshold : ℚ} {sample : List Char} {samples : List (List Char)} {clusters : List ConsistencyVoteCluster}

theorem nearest_spec (h : nearest sample clusters = some (c, i)) :
    clusters[i]? = some c ∧ ∀ d ∈ clusters, similarity sample d.representative ≤ similarity sample c.representative := by
  let r : ConsistencyVoteCluster × ℕ → ConsistencyVoteCluster × ℕ → Prop :=
    fun a b => similarity sample a.1.representative ≤ similarity sample b.1.representative
  have : Std.Refl r := ⟨fun _ => le_rfl⟩
  have : IsTrans _ r := ⟨fun _ _ _ => le_trans⟩
  unfold nearest at h
  split at h
  · cases h
  next first rest hz =>
    obtain ⟨hm,hb⟩ := @TopRows.foldl_best _ r _ _ (fun a b =>
      if similarity sample b.1.representative < similarity sample a.1.representative then a else b) (fun a b => by
        by_cases hl : similarity sample b.1.representative < similarity sample a.1.representative
        · exact .inl ⟨if_pos hl,hl.le⟩
        · exact .inr ⟨if_neg hl,not_lt.mp hl⟩) rest first
    rw [Option.some.inj h,← hz] at hm hb
    refine ⟨List.mem_zipIdx_iff_getElem?.mp hm,fun d hd => ?_⟩
    obtain ⟨j,hj⟩ := List.mem_iff_getElem?.mp hd
    exact hb (d, j) (List.mem_zipIdx_iff_getElem?.mpr hj)

theorem nearest_none (h : nearest sample clusters = none) : clusters = [] := by
  unfold nearest at h
  split at h
  next hz => simpa using hz
  · cases h

/-- What holds of the clusters of these samples: each sample is in one, no less similar than asked to the representative,
and only one representative is without words. -/
structure Clustered (threshold : ℚ) (samples : List (List Char)) (clusters : List ConsistencyVoteCluster) : Prop where
  members : (clusters.flatMap (·.members)).Perm samples
  each : ∀ c ∈ clusters, c.votes = c.members.length ∧ c.representative ∈ c.members ∧
    ∀ m ∈ c.members, threshold ≤ similarity m c.representative
  wordless : clusters.Pairwise (fun c d => ¬ (wordsOf c.representative = ∅ ∧ wordsOf d.representative = ∅))

theorem Clustered.join (h : Clustered threshold samples clusters)
    (hc : clusters[i]? = some c) (hsi : threshold ≤ similarity sample c.representative) :
    Clustered threshold (samples++[sample]) (clusters.modify i (joinCluster sample)) := by
  obtain ⟨hi,hg⟩ := List.getElem?_eq_some_iff.mp hc
  obtain ⟨front,d,back,hs,hl,ho⟩ := List.exists_of_modify (joinCluster sample) hi
  obtain rfl : d = c := by simpa [hs,← hl] using hc
  rw [ho]
  have hme := h.members
  have hw := h.wordless
  rw [hs] at hme hw
  refine ⟨?_,fun e he => ?_,?_⟩
  · have hp : ((front++joinCluster sample d::back).flatMap (·.members)).Perm
        ((front++d::back).flatMap (·.members)++[sample]) := by
      simp only [List.flatMap_append,List.flatMap_cons,joinCluster,List.append_assoc]
      exact (List.perm_append_comm.append_left _).append_left _
    exact hp.trans (hme.append_right _)
  · rcases List.mem_append.mp he with hf | hb
    · exact h.each e (by rw [hs]; exact List.mem_append_left _ hf)
    · rcases List.mem_cons.mp hb with rfl | hb
      · obtain ⟨hv,hr,ha⟩ := h.each d (by rw [hs]; simp)
        refine ⟨by simp [joinCluster,hv],List.mem_append_left _ hr,fun m hm => ?_⟩
        rcases List.mem_append.mp hm with hm | hm
        · exact ha m hm
        · rw [List.mem_singleton.mp hm]
          exact hsi
      · exact h.each e (by rw [hs]; simp [hb])
  · simpa [List.pairwise_append,joinCluster] using hw

theorem Clustered.open (h : Clustered threshold samples clusters) (hl : threshold ≤ 1)
    (hf : ∀ c ∈ clusters, similarity sample c.representative < threshold) :
    Clustered threshold (samples++[sample]) (clusters++[⟨sample,1,[sample],1⟩]) := by
  refine ⟨by simpa using h.members.append_right [sample],fun c hc => ?_,?_⟩
  · rcases List.mem_append.mp hc with hc | hc
    · exact h.each c hc
    · obtain rfl := List.mem_singleton.mp hc
      refine ⟨rfl,List.mem_singleton_self _,fun m hm => ?_⟩
      rw [List.mem_singleton.mp hm,similarity_self]
      exact hl
  · refine List.pairwise_append.mpr ⟨h.wordless,List.pairwise_singleton _ _,fun c hc d hd hn => ?_⟩
    obtain rfl := List.mem_singleton.mp hd
    have ho := similarity_wordless hn.2 hn.1
    exact absurd (hf c hc) (by rw [ho]; exact not_lt.mpr hl)

theorem addSample_clustered (hl : threshold ≤ 1) (h : Clustered threshold samples clusters) (sample : List Char) :
    Clustered threshold (samples++[sample]) (addSample threshold clusters sample) := by
  unfold addSample
  cases hn : nearest sample clusters with
  | none =>
    obtain rfl := nearest_none hn
    exact h.open hl (by simp)
  | some best =>
    obtain ⟨hg,hb⟩ := nearest_spec hn
    by_cases hs : threshold ≤ similarity sample best.1.representative
    · simp only [Option.filter_some,hs,decide_true,if_true]
      exact h.join hg hs
    · simp only [Option.filter_some,hs,decide_false,Bool.false_eq_true,if_false]
      exact h.open hl (fun c hc => (hb c hc).trans_lt (not_le.mp hs))

theorem foldl_clustered (hl : threshold ≤ 1) (done : List (List Char)) (h : Clustered threshold done clusters) :
    Clustered threshold (done++samples) (samples.foldl (addSample threshold) clusters) := by
  induction samples generalizing done clusters with
  | nil => simpa using h
  | cons sample samples ih => simpa using ih (done++[sample]) (addSample_clustered hl h sample)

theorem clusterSamples_clustered (hl : threshold ≤ 1) (samples : List (List Char)) :
    Clustered threshold samples (clusterSamples samples threshold) := by
  have h : Clustered threshold samples (samples.foldl (addSample threshold) []) :=
    foldl_clustered hl [] ⟨.nil,by simp, .nil⟩
  have hp := List.perm_insertionSort Leads (samples.foldl (addSample threshold) [])
  refine ⟨(hp.flatMap_right _).trans h.members,fun c hc => h.each c (hp.subset hc),?_⟩
  exact (hp.pairwise_iff (fun hn => fun hd => hn hd.symm)).mpr h.wordless

/-- A sample of a cluster agrees with the representative, or both are without words. -/
theorem Clustered.agrees_or (h : Clustered threshold samples clusters) (hp : 0 < threshold)
    (hc : c ∈ clusters) (hs : sample ∈ c.members) :
    wordsOf sample = ∅ ∧ wordsOf c.representative = ∅ ∨ Agrees c.representative sample :=
  (similarity_pos (hp.trans_le ((h.each c hc).2.2 sample hs))).imp_right Or.inr

theorem Clustered.mem_samples (h : Clustered threshold samples clusters) (hc : c ∈ clusters)
    (hs : sample ∈ c.members) : sample ∈ samples :=
  h.members.subset (List.mem_flatMap.mpr ⟨c,hc,hs⟩)

/-- All samples agree with their representatives exactly if no two different ones are without words. -/
theorem Clustered.agree_iff (h : Clustered threshold samples clusters) (hp : 0 < threshold) :
    (∀ c ∈ clusters, ∀ sample ∈ c.members, Agrees c.representative sample) ↔
      ∀ a ∈ samples, ∀ b ∈ samples, wordsOf a = ∅ → wordsOf b = ∅ → a = b := by
  constructor
  · intro hg
    -- a sample without words is in the one cluster with such a representative, and is equal to it
    have hr : ∀ a ∈ samples, wordsOf a = ∅ → ∃ c ∈ clusters, a = c.representative := by
      intro a ha hn
      obtain ⟨c,hc,hm⟩ := List.mem_flatMap.mp (h.members.symm.subset ha)
      obtain he | ⟨word,hw,-⟩ := hg c hc a hm
      · exact ⟨c,hc,he⟩
      · simp [hn] at hw
    intro a ha b hb hn hn'
    obtain ⟨c,hc,rfl⟩ := hr a ha hn
    obtain ⟨d,hd,rfl⟩ := hr b hb hn'
    by_contra hne
    have : Std.Symm (fun c d : ConsistencyVoteCluster =>
        ¬ (wordsOf c.representative = ∅ ∧ wordsOf d.representative = ∅)) := ⟨fun _ _ hcd hdc => hcd hdc.symm⟩
    exact h.wordless.forall hc hd (fun he => hne (congrArg _ he)) ⟨hn,hn'⟩
  · intro ho c hc sample hs
    refine (h.agrees_or hp hc hs).elim (fun hn => .inl ?_) id
    exact ho sample (h.mem_samples hc hs) _ (h.mem_samples hc (h.each c hc).2.1) hn.1 hn.2

/-- Each cluster has as many votes as the ones after it. -/
theorem clusterSamples_leads {samples : List (List Char)} {leading : ConsistencyVoteCluster}
    {others : List ConsistencyVoteCluster} (h : clusterSamples samples threshold = leading::others) :
    ∀ c ∈ others, c.votes ≤ leading.votes := by
  have : IsTrans _ Leads := ⟨fun a b c ha hb => by
    obtain ha | ⟨ha,hs⟩ := ha <;> obtain hb | ⟨hb,hs'⟩ := hb
    · exact .inl (hb.trans ha)
    · exact .inl (hb ▸ ha)
    · exact .inl (ha ▸ hb)
    · exact .inr ⟨ha.trans hb,hs'.trans hs⟩⟩
  have : Std.Total Leads := ⟨fun a b => by
    unfold Leads
    rcases lt_trichotomy a.votes b.votes with hl | he | hl
    · exact .inr (.inl hl)
    · exact (le_total b.meanSimilarity a.meanSimilarity).imp (fun hs => .inr ⟨he,hs⟩)
        (fun hs => .inr ⟨he.symm,hs⟩)
    · exact .inl (.inl hl)⟩
  have ho : (clusterSamples samples threshold).Pairwise Leads := List.pairwise_insertionSort _ _
  rw [h] at ho
  exact fun c hc => ((List.pairwise_cons.mp ho).1 c hc).elim Nat.le_of_lt (fun he => he.1.ge)

end Clusters

def WordlessAgree (samples : List (List Char)) : Prop :=
  ∀ a ∈ samples, ∀ b ∈ samples, wordsOf a = ∅ → wordsOf b = ∅ → a = b

/-- The samples are parted into clusters, each with its votes and with samples as similar as asked. They all agree with
their representatives exactly if no two different samples are without words, and then so do those of the leading cluster
of what is accepted. -/
theorem voting_iff (ln : ℚ → ℚ) (samples : List (List Char)) {threshold : ℚ} (hpos : 0 < threshold) (hle : threshold ≤ 1) :
    ((clusterSamples samples threshold).flatMap (·.members)).Perm samples ∧
      ((clusterSamples samples threshold).map (·.votes)).sum = samples.length ∧
      (∀ c ∈ clusterSamples samples threshold, c.votes = c.members.length ∧ c.representative ∈ c.members ∧
        ∀ sample ∈ c.members, threshold ≤ similarity sample c.representative) ∧
      ((∀ c ∈ clusterSamples samples threshold, ∀ sample ∈ c.members, Agrees c.representative sample) ↔
        WordlessAgree samples) ∧
      (WordlessAgree samples → ∀ requestedSamples minValidSamples minMajorityRatio,
        AcceptedAgrees ln samples threshold requestedSamples minValidSamples minMajorityRatio) := by
  have h : Clustered threshold samples (clusterSamples samples threshold) := clusterSamples_clustered hle samples
  refine ⟨h.members, ?_, h.each, h.agree_iff hpos, fun ha requestedSamples minValidSamples minMajorityRatio hac => ?_⟩
  · rw [List.map_congr_left (fun c hc => (h.each c hc).1), ← List.length_flatMap]
    exact h.members.length_eq
  · have hp : max minValidSamples 2 ≤ samples.length ∧ minMajorityRatio ≤
        (((clusterSamples samples threshold).head?.map (·.votes)).getD 0 : ℕ) / (max requestedSamples 1 : ℕ) :=
      of_decide_eq_true hac
    cases hl : clusterSamples samples threshold with
    | nil =>
      have he := h.members.length_eq
      rw [hl] at he
      exact absurd ((le_max_right _ _).trans hp.1) (by rw [← he]; decide)
    | cons leading others =>
      rw [hl] at hp
      refine ⟨leading, others, rfl, clusterSamples_leads hl, hp.2, ?_⟩
      exact (h.agree_iff hpos).mpr ha leading (hl ▸ List.mem_cons_self)

theorem voting_one :
    ((clusterSamples ["cache the graph".toList, "graph the cache".toList] 1).map (·.votes)).sum = 2 :=
  (voting_iff id _ (by decide) le_rfl).2.1

/-- Two different texts without ASCII words are counted as agreeing. -/
theorem wordless_accepted : ¬ ∀ (ln : ℚ → ℚ) (samples : List (List Char)) (threshold : ℚ), 0 < threshold → threshold ≤ 1 →
    ∀ requestedSamples minValidSamples minMajorityRatio,
      AcceptedAgrees ln samples threshold requestedSamples minValidSamples minMajorityRatio := by
  intro h
  obtain ⟨leading, others, hc, -, -, ha⟩ :=
    h id [['是'], ['否']] 1 (by decide) le_rfl 2 2 1 (by decide +kernel)
  have hv : (clusterSamples [['是'], ['否']] 1).map (fun c => (c.representative, c.members)) =
      [(['是'], [['是'], ['否']])] := by
    decide +kernel
  rw [hc, List.map_cons] at hv
  obtain ⟨hr, hm⟩ := Prod.ext_iff.mp (List.cons.inj hv).1
  have hd : ¬ Agrees ['是'] ['否'] := by decide +kernel
  simp only at hr hm
  rw [hr, hm] at ha
  exact hd (ha ['否'] (by simp))

end UwuContextDb.Consolidation
