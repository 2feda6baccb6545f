import UwuContextDb.Library.Groups
import UwuContextDb.Library.LabelPropagation
import UwuContextDb.Library.TopRows
import UwuContextDb.Marketplace.Community

/-! The graph of a detection: what its tables hold for any order of the entries and any order of iteration. -/

namespace UwuContextDb.Marketplace

open Upsert (upsert upsertAll getElem?_upsertAll_empty)

variable {α : Type}

theorem mem_sortDedup [LinearOrder α] {items : List α} {a : α} : a ∈ sortDedup items ↔ a ∈ items := by
  rw [sortDedup,(List.pairwise_insertionSort _ items).destutter_eq_dedup,List.mem_dedup,List.mem_insertionSort]

theorem nodup_sortDedup [LinearOrder α] (items : List α) : (sortDedup items).Nodup := by
  rw [sortDedup,(List.pairwise_insertionSort _ items).destutter_eq_dedup]
  exact List.nodup_dedup _

theorem pairwise_sortDedup [LinearOrder α] (items : List α) : (sortDedup items).Pairwise (· ≤ ·) :=
  (List.pairwise_insertionSort _ items).sublist (List.destutter_sublist _ _)

theorem eq_sortDedup [LinearOrder α] {sorted items : List α} (hs : sorted.Pairwise (· ≤ ·))
    (hn : sorted.Nodup) (hm : ∀ a, a ∈ sorted ↔ a ∈ items) : sorted = sortDedup items :=
  ((List.perm_ext_iff_of_nodup hn (nodup_sortDedup items)).mpr
    (fun a => (hm a).trans mem_sortDedup.symm)).eq_of_pairwise' hs (pairwise_sortDedup items)

theorem sortDedup_congr [LinearOrder α] {items items' : List α} (hm : ∀ a, a ∈ items ↔ a ∈ items') :
    sortDedup items = sortDedup items' :=
  eq_sortDedup (pairwise_sortDedup items) (nodup_sortDedup items) (fun a => mem_sortDedup.trans (hm a))

section Weights

variable {F : Type} (entries : List (MarketEntry F))

def publishers : List AgentId := sortDedup (entries.map (·.publisher))

def published (agent : AgentId) (domain : String) : ℕ :=
  entries.countP (fun entry => entry.publisher = agent ∧ entry.domain = domain)

def publishedDomains : List String := (entries.map (·.domain)).dedup

def sharedWeight (a b : AgentId) : ℚ :=
  let shared : ℕ := ((publishedDomains entries).map (fun d => min (published entries a d) (published entries b d))).sum
  let total : ℕ := ((publishedDomains entries).map (fun d => published entries a d + published entries b d)).sum
  clampUnit (2 * shared / total)

variable {entries}

theorem mem_publishers {a : AgentId} : a ∈ publishers entries ↔ ∃ e ∈ entries, e.publisher = a := by
  rw [publishers,mem_sortDedup,List.mem_map]

theorem published_pos {a : AgentId} {d : String} :
    0 < published entries a d ↔ ∃ e ∈ entries, e.publisher = a ∧ e.domain = d := by
  simp [published,List.countP_pos_iff]

theorem sharedWeight_comm (a b : AgentId) : sharedWeight entries a b = sharedWeight entries b a := by
  unfold sharedWeight
  simp only [min_comm,add_comm]

theorem agentDomains_perm {entries' : List (MarketEntry F)} (h : entries'.Perm entries) :
    agentDomains entries' = agentDomains entries := by
  have : RightCommutative (fun (count : ℕ) (_ : Unit) => count+1) := ⟨fun _ _ _ => rfl⟩
  exact Upsert.upsertAll_perm (h.map _)

theorem mem_agentDomains {a : AgentId} : a ∈ agentDomains entries ↔ a ∈ publishers entries := by
  rw [Std.ExtTreeMap.mem_iff_isSome_getElem?,agentDomains,getElem?_upsertAll_empty,mem_publishers]
  simp

theorem domains_eq (a : AgentId) : (agentDomains entries).getD a ∅ =
    upsertAll (fun count _ => count+1) 0 ∅
      ((entries.filter (fun e => e.publisher = a)).map (fun e => (e.domain, ()))) := by
  rw [agentDomains,Upsert.getD_upsertAll_empty,List.filter_map,List.map_map]
  rfl

theorem getElem?_domains (a : AgentId) (d : String) : ((agentDomains entries).getD a ∅)[d]? =
    if 0 < published entries a d then some (published entries a d) else none := by
  have hc : ∀ (values : List Unit) (n : ℕ), values.foldl (fun count _ => count+1) n = n + values.length := by
    intro values
    induction values with
    | nil => exact fun n => rfl
    | cons _ values ih =>
      intro n
      rw [List.foldl_cons,ih,List.length_cons]
      omega
  have hk : d ∈ ((entries.filter (fun e => e.publisher = a)).map (fun e => (e.domain, ()))).map (·.1) ↔
      0 < published entries a d := by
    rw [published_pos]
    simp [and_assoc]
  have hl : ((((entries.filter (fun e => e.publisher = a)).map (fun e => (e.domain, ()))).filter
      (fun row => row.1 = d)).map (·.2)).length = published entries a d := by
    rw [List.length_map,List.filter_map,List.length_map,List.filter_filter,published,List.countP_eq_length_filter]
    refine congrArg List.length (List.filter_congr (fun e _ => ?_))
    simp [Bool.and_comm]
  rw [domains_eq,getElem?_upsertAll_empty,hc,Nat.zero_add,hl]
  simp only [hk]

theorem domains_toList_perm (a : AgentId) : ((agentDomains entries).getD a ∅).toList.Perm
    (((publishedDomains entries).filter (fun d => 0 < published entries a d)).map (fun d => (d, published entries a d))) := by
  have hn : (publishedDomains entries).Nodup := List.nodup_dedup _
  refine Upsert.toList_perm (hn.filter _) (fun d => ?_)
  have hk : d ∈ (publishedDomains entries).filter (fun d => 0 < published entries a d) ↔ 0 < published entries a d := by
    rw [List.mem_filter,decide_eq_true_iff]
    refine and_iff_right_of_imp (fun hp => ?_)
    obtain ⟨e,he,-,rfl⟩ := published_pos.mp hp
    exact List.mem_dedup.mpr (List.mem_map_of_mem he)
  simp only [getElem?_domains,hk]

theorem sum_domains_toList (a : AgentId) {v : String × ℕ → ℕ} (hv : ∀ d, v (d, 0) = 0) :
    ((((agentDomains entries).getD a ∅).toList).map v).sum =
      ((publishedDomains entries).map (fun d => v (d, published entries a d))).sum := by
  have hn : (((publishedDomains entries).filter (fun d => ¬ 0 < published entries a d)).map
      (fun d => v (d, published entries a d))).sum = 0 := by
    refine List.sum_eq_zero (fun x hx => ?_)
    obtain ⟨d,hd,rfl⟩ := List.mem_map.mp hx
    have hp : published entries a d = 0 := by simpa using (List.mem_filter.mp hd).2
    rw [hp,hv]
  have hs := Groups.sum_filter_add_sum_filter_not (fun d => 0 < published entries a d)
    (fun d => v (d, published entries a d)) (publishedDomains entries)
  rw [hn,add_zero] at hs
  rw [((domains_toList_perm a).map v).sum_eq,List.map_map,← hs]
  rfl

theorem sum_filterMap {α : Type} (f : α → Option ℕ) (items : List α) :
    (items.filterMap f).sum = (items.map (fun item => (f item).getD 0)).sum := by
  induction items with
  | nil => rfl
  | cons item items ih => cases hi : f item <;> simp [hi,ih]

theorem sharedDomainWeight_eq (hash : HashRun) (a b : AgentId) :
    sharedDomainWeight hash a b ((agentDomains entries).getD a ∅) ((agentDomains entries).getD b ∅) =
      sharedWeight entries a b := by
  have hs : ((hash.order (.shared a b) ((agentDomains entries).getD a ∅).toList).filterMap (fun row =>
        ((agentDomains entries).getD b ∅)[row.1]?.map (min row.2))).sum =
      ((publishedDomains entries).map (fun d => min (published entries a d) (published entries b d))).sum := by
    have hv : ∀ (d : String) (n : ℕ), ((((agentDomains entries).getD b ∅)[d]?.map (min n)).getD 0) =
        min n (published entries b d) := by
      intro d n
      rw [getElem?_domains]
      split_ifs with hp
      · rfl
      · rw [Nat.eq_zero_of_not_pos hp,Nat.min_zero]
        rfl
    rw [((hash.perm _ _).filterMap _).sum_eq,sum_filterMap,sum_domains_toList]
    · simp only [hv]
    · intro d
      rw [hv,Nat.zero_min]
  have ho : ∀ site (agent : AgentId), ((hash.order site ((agentDomains entries).getD agent ∅).toList).map (·.2)).sum =
      ((publishedDomains entries).map (published entries agent)).sum := by
    intro site agent
    rw [((hash.perm _ _).map _).sum_eq,sum_domains_toList agent (fun _ => rfl)]
  rw [sharedDomainWeight,sharedWeight,hs,ho,ho,← List.sum_map_add]
  split_ifs with hz
  · simp [hz,clampUnit]
  · rfl

end Weights

section Edges

def Connects (nodes : List AgentId) (weight : AgentId → AgentId → ℚ) (edges : NameMap (NameMap ℚ)) : Prop :=
  ∀ a ∈ nodes, edges[a]? = none ∧ LabelPropagation.neighbours nodes weight a = [] ∨
    ∃ neighbors, edges[a]? = some neighbors ∧ LabelPropagation.neighbours nodes weight a ≠ [] ∧
      ∀ b, neighbors[b]? = if b ∈ LabelPropagation.neighbours nodes weight a then some (weight a b) else none

theorem mem_pairs_iff {α : Type} {items : List α} (ho : items.Nodup) {a b : α} :
    (a, b) ∈ pairs items ∨ (b, a) ∈ pairs items ↔ a ∈ items ∧ b ∈ items ∧ a ≠ b := by
  induction items with
  | nil => simp [pairs]
  | cons first items ih =>
    obtain ⟨hf,hi⟩ := List.nodup_cons.mp ho
    have hp : ∀ x y : α, (x, y) ∈ pairs (first::items) ↔ x = first ∧ y ∈ items ∨ (x, y) ∈ pairs items := by
      intro x y
      simp [pairs,eq_comm,and_comm]
    rw [hp,hp,or_or_or_comm,ih hi,List.mem_cons,List.mem_cons]
    constructor
    · rintro ((⟨rfl,hb⟩ | ⟨rfl,ha⟩) | ⟨ha,hb,hn⟩)
      · exact ⟨.inl rfl, .inr hb,fun h => hf (h ▸ hb)⟩
      · exact ⟨.inr ha, .inl rfl,fun h => hf (h ▸ ha)⟩
      · exact ⟨.inr ha, .inr hb,hn⟩
    · rintro ⟨rfl | ha,rfl | hb,hn⟩
      · exact absurd rfl hn
      · exact .inl (.inl ⟨rfl,hb⟩)
      · exact .inl (.inr ⟨rfl,ha⟩)
      · exact .inr ⟨ha,hb,hn⟩

variable {F : Type} {entries : List (MarketEntry F)} {agents : List AgentId}

theorem mem_edgeRows (hash : HashRun) (hn : agents.Nodup) (ha : ∀ a, a ∈ agents ↔ a ∈ publishers entries)
    {a b : AgentId} {weight : ℚ} : (a, b, weight) ∈ (pairs agents).flatMap (edgesOf hash (agentDomains entries)) ↔
      (a ∈ publishers entries ∧ b ∈ publishers entries ∧ a ≠ b) ∧ 0 < sharedWeight entries a b ∧
        weight = sharedWeight entries a b := by
  have hr : ∀ pair : AgentId × AgentId, (a, b, weight) ∈ edgesOf hash (agentDomains entries) pair ↔
      (pair = (a, b) ∨ pair = (b, a)) ∧ 0 < sharedWeight entries a b ∧ weight = sharedWeight entries a b := by
    rintro ⟨left,right⟩
    have hc := @sharedWeight_comm _ entries left right
    rw [edgesOf,sharedDomainWeight_eq]
    dsimp only
    split_ifs with hw
    · constructor
      · intro h
        cases h
      · rintro ⟨he | he,ho,-⟩
        · obtain ⟨rfl,rfl⟩ := Prod.mk.inj he
          exact absurd ho (not_lt.mpr hw)
        · obtain ⟨rfl,rfl⟩ := Prod.mk.inj he
          rw [← hc] at ho
          exact absurd ho (not_lt.mpr hw)
    · simp only [List.mem_cons,List.not_mem_nil,or_false,Prod.mk.injEq]
      constructor
      · rintro (⟨rfl,rfl,rfl⟩ | ⟨rfl,rfl,rfl⟩)
        · exact ⟨.inl ⟨rfl,rfl⟩,not_le.mp hw,rfl⟩
        · exact ⟨.inr ⟨rfl,rfl⟩,hc ▸ not_le.mp hw,hc⟩
      · rintro ⟨⟨rfl,rfl⟩ | ⟨rfl,rfl⟩,-,rfl⟩
        · exact .inl ⟨rfl,rfl,rfl⟩
        · exact .inr ⟨rfl,rfl,hc.symm⟩
  rw [← ha,← ha,← mem_pairs_iff hn]
  simp only [List.mem_flatMap,hr]
  constructor
  · rintro ⟨pair,hp,rfl | rfl,hw⟩
    · exact ⟨.inl hp,hw⟩
    · exact ⟨.inr hp,hw⟩
  · rintro ⟨hp | hp,hw⟩
    · exact ⟨_,hp, .inl rfl,hw⟩
    · exact ⟨_,hp, .inr rfl,hw⟩

theorem edgeRows_same (hash : HashRun) (hn : agents.Nodup) (ha : ∀ a, a ∈ agents ↔ a ∈ publishers entries) :
    ∀ a b weight weight', (a, b, weight) ∈ (pairs agents).flatMap (edgesOf hash (agentDomains entries)) →
      (a, b, weight') ∈ (pairs agents).flatMap (edgesOf hash (agentDomains entries)) → weight = weight' := by
  intro a b weight weight' h h'
  obtain ⟨-,-,rfl⟩ := (mem_edgeRows hash hn ha).mp h
  obtain ⟨-,-,rfl⟩ := (mem_edgeRows hash hn ha).mp h'
  rfl

theorem edges_congr (hash hash' : HashRun) {agents' : List AgentId} (hn : agents.Nodup)
    (ha : ∀ a, a ∈ agents ↔ a ∈ publishers entries) (hn' : agents'.Nodup)
    (ha' : ∀ a, a ∈ agents' ↔ a ∈ publishers entries) :
    edges hash (agentDomains entries) agents = edges hash' (agentDomains entries) agents' := by
  refine Upsert.nested_congr ?_ (edgeRows_same hash hn ha)
  rintro ⟨a,b,weight⟩
  rw [mem_edgeRows hash hn ha,mem_edgeRows hash' hn' ha']

theorem mem_neighbours {a b : AgentId} (ha : a ∈ publishers entries) :
    b ∈ LabelPropagation.neighbours (publishers entries) (sharedWeight entries) a ↔
      (a ∈ publishers entries ∧ b ∈ publishers entries ∧ a ≠ b) ∧ 0 < sharedWeight entries a b := by
  simp only [LabelPropagation.neighbours,List.mem_filter,decide_eq_true_eq,ha,true_and,ne_comm,and_assoc]

theorem connects_edges (hash : HashRun) (hn : agents.Nodup) (hg : ∀ a, a ∈ agents ↔ a ∈ publishers entries) :
    Connects (publishers entries) (sharedWeight entries) (edges hash (agentDomains entries) agents) := by
  intro a ha
  have hr : ∀ b weight, (a, b, weight) ∈ (pairs agents).flatMap (edgesOf hash (agentDomains entries)) ↔
      b ∈ LabelPropagation.neighbours (publishers entries) (sharedWeight entries) a ∧ weight = sharedWeight entries a b := by
    intro b weight
    rw [mem_edgeRows hash hn hg,mem_neighbours ha]
    exact and_assoc.symm
  cases he : (edges hash (agentDomains entries) agents)[a]? with
  | none =>
    refine .inl ⟨rfl,List.eq_nil_iff_forall_not_mem.mpr (fun b hb => ?_)⟩
    exact Upsert.nested_eq_none.mp he (List.mem_map_of_mem ((hr b _).mpr ⟨hb,rfl⟩))
  | some neighbors =>
    refine .inr ⟨neighbors,rfl,?_,fun b => Option.ext (fun weight => ?_)⟩
    · intro hi
      have ho : (edges hash (agentDomains entries) agents)[a]? = none := by
        refine Upsert.nested_eq_none.mpr (fun hm => ?_)
        obtain ⟨⟨_,b,weight⟩,hw,rfl⟩ := List.mem_map.mp hm
        have hb := ((hr b weight).mp hw).1
        rw [hi] at hb
        cases hb
      rw [ho] at he
      cases he
    · rw [Upsert.getElem?_nested (edgeRows_same hash hn hg) he,hr]
      split_ifs with hb
      · simp [hb,eq_comm]
      · simp [hb]

end Edges

end UwuContextDb.Marketplace

/-! The labels of a detection are those of label propagation on the graph of the shared domains. -/

namespace UwuContextDb.Marketplace

open Upsert (upsertAll getElem?_upsertAll_empty)
open LabelPropagation (neighbours score Elects Round Settles)

def Outranked (row best : AgentId × ℚ) : Prop := row.2 < best.2 ∨ row.2 = best.2 ∧ best.1 ≤ row.1

instance Outranked.isRefl : Std.Refl Outranked := ⟨fun _ => .inr ⟨rfl, le_rfl⟩⟩

instance Outranked.isTrans : IsTrans (AgentId × ℚ) Outranked where
  trans x y z hxy hyz := by
    rcases hxy with hlt | ⟨heq, hle⟩
    · rcases hyz with hlt' | ⟨heq', -⟩
      · exact .inl (hlt.trans hlt')
      · exact .inl (hlt.trans_eq heq')
    · rcases hyz with hlt' | ⟨heq', hle'⟩
      · exact .inl (heq.trans_lt hlt')
      · exact .inr ⟨heq.trans heq', hle'.trans hle⟩

theorem exists_bestLabel {rows : List (AgentId × ℚ)} (hr : rows ≠ []) : ∃ best ∈ rows, bestLabel rows = some best ∧
    ∀ row ∈ rows, Outranked row best := by
  obtain ⟨first,rest,rfl⟩ := List.exists_cons_of_ne_nil hr
  have hc : ∀ best row : AgentId × ℚ,
      (if row.2 < best.2 ∨ row.2 = best.2 ∧ best.1 < row.1 then best else row) = best ∧ Outranked row best ∨
      (if row.2 < best.2 ∨ row.2 = best.2 ∧ best.1 < row.1 then best else row) = row ∧ Outranked best row := by
    intro best row
    split_ifs with hl
    · exact .inl ⟨rfl,hl.imp_right (And.imp_right le_of_lt)⟩
    · obtain ⟨he,hi⟩ := not_or.mp hl
      refine .inr ⟨rfl,?_⟩
      rcases (not_lt.mp he).lt_or_eq with hlt | hs
      · exact .inl hlt
      · exact .inr ⟨hs,not_lt.mp (fun hlt => hi ⟨hs.symm,hlt⟩)⟩
  obtain ⟨hb,hm⟩ := TopRows.foldl_best hc rest first
  exact ⟨_,hb,rfl,hm⟩

section Visits

variable {nodes : List AgentId} {weight : AgentId → AgentId → ℚ} {edges : NameMap (NameMap ℚ)} {hash : HashRun}
  {round : ℕ} {labels : NameMap AgentId} {label : AgentId → AgentId} {a : AgentId}

def Reads (nodes : List AgentId) (labels : NameMap AgentId) (label : AgentId → AgentId) : Prop :=
  ∀ a, labels[a]? = if a ∈ nodes then some (label a) else none

theorem Reads.getD (h : Reads nodes labels label) (ha : a ∈ nodes) (default : AgentId) :
    labels.getD a default = label a := by
  rw [Upsert.getD_eq,h,if_pos ha,Option.getD_some]

theorem Reads.insert (h : Reads nodes labels label) (ha : a ∈ nodes) (l : AgentId) :
    Reads nodes (labels.insert a l) (Function.update label a l) := by
  intro b
  rw [Std.ExtTreeMap.getElem?_insert,Function.update_apply,h b]
  by_cases hb : a = b
  · subst hb
    simp [ha]
  · simp [hb,Ne.symm hb]

theorem getElem?_labelScores (hn : nodes.Nodup) (h : Reads nodes labels label) {neighbors : NameMap ℚ}
    (he : ∀ b, neighbors[b]? = if b ∈ neighbours nodes weight a then some (weight a b) else none) (l : AgentId) :
    (labelScores hash round labels a neighbors)[l]? =
      if l ∈ (neighbours nodes weight a).map label then some (score nodes weight label a l) else none := by
  have hr : ((hash.order (.neighbors round a) neighbors.toList).map (fun row =>
      (labels.getD row.1 row.1, row.2))).Perm ((neighbours nodes weight a).map (fun b => (label b, weight a b))) := by
    refine ((hash.perm _ _).map _).trans (((Upsert.toList_perm (hn.filter _) he).map _).trans (.of_eq ?_))
    rw [List.map_map]
    refine List.map_congr_left (fun b hb => ?_)
    rw [Function.comp_apply,h.getD (List.mem_of_mem_filter hb)]
  rw [labelScores,Upsert.upsertAll_perm hr,getElem?_upsertAll_empty,List.map_map,List.filter_map,List.map_map,
    score,List.sum_eq_foldl]
  rfl

theorem visit_spec (ho : nodes.Nodup) (hd : Connects nodes weight edges) (h : Reads nodes labels label)
    (ha : a ∈ nodes) (changed : Bool) :
    neighbours nodes weight a = [] ∧ visit hash edges round (labels, changed) a = (labels, changed) ∨
      ∃ l, Elects nodes weight label a l ∧
        Reads nodes (visit hash edges round (labels, changed) a).1 (Function.update label a l) ∧
        ((visit hash edges round (labels, changed) a).2 = true ↔ changed = true ∨ label a ≠ l) := by
  rcases hd a ha with ⟨hno,hi⟩ | ⟨neighbors,hm,hn,hnei⟩
  · left
    refine ⟨hi,?_⟩
    rw [visit,hno]
  · right
    have hc := @getElem?_labelScores nodes weight hash round labels label a ho h neighbors hnei
    have hr : ∀ l total,
        (l, total) ∈ hash.order (.labelScores round a) (labelScores hash round labels a neighbors).toList ↔
        l ∈ (neighbours nodes weight a).map label ∧ total = score nodes weight label a l := by
      intro l total
      rw [(hash.perm _ _).mem_iff,Std.ExtTreeMap.mem_toList_iff_getElem?_eq_some,hc]
      split_ifs with hl
      · simp [hl,eq_comm]
      · simp [hl]
    have hw : hash.order (.labelScores round a) (labelScores hash round labels a neighbors).toList ≠ [] := by
      obtain ⟨b,hb⟩ := List.exists_mem_of_ne_nil _ hn
      exact List.ne_nil_of_mem ((hr (label b) _).mpr ⟨List.mem_map_of_mem hb,rfl⟩)
    obtain ⟨⟨best,total⟩,hbe,he,hmo⟩ := exists_bestLabel hw
    obtain ⟨hca,rfl⟩ := (hr best total).mp hbe
    refine ⟨best,⟨List.mem_map.mp hca,fun b hb => ?_⟩,?_⟩
    · exact hmo (label b, _) ((hr (label b) _).mpr ⟨List.mem_map_of_mem hb,rfl⟩)
    · rw [visit,hm]
      dsimp only
      rw [he,h a,if_pos ha]
      dsimp only
      split_ifs with hs
      · obtain rfl := Option.some.inj hs
        simpa using h
      · have hn : label a ≠ best := fun he => hs (congrArg some he)
        exact ⟨h.insert ha best,by simp [hn]⟩

theorem round_spec (hd : nodes.Nodup) (hg : Connects nodes weight edges) {rest : List AgentId}
    (he : rest.Nodup) (hn : ∀ a ∈ rest, a ∈ nodes) (h : Reads nodes labels label) (changed : Bool) :
    ∃ label', Round nodes weight rest label label' ∧
      Reads nodes (rest.foldl (visit hash edges round) (labels, changed)).1 label' ∧
      ((rest.foldl (visit hash edges round) (labels, changed)).2 = true ↔ changed = true ∨ label' ≠ label) := by
  induction rest generalizing labels label changed with
  | nil => exact ⟨label, .done,h,by simp⟩
  | cons a rest ih =>
    obtain ⟨hfr,he⟩ := List.nodup_cons.mp he
    obtain ⟨ha,hn⟩ := List.forall_mem_cons.mp hn
    rw [List.foldl_cons]
    rcases @visit_spec nodes weight edges hash round labels label a hd hg h ha changed with
      ⟨hi,hq⟩ | ⟨l,hel,hr,hf⟩
    · obtain ⟨label',ho,hr,hf⟩ := ih he hn h changed
      rw [hq]
      exact ⟨label', .keep hi ho,hr,hf⟩
    · obtain ⟨label',ho,hr',hf'⟩ := ih he hn hr
        (visit hash edges round (labels, changed) a).2
      refine ⟨label', .elect hel ho,hr',hf'.trans ?_⟩
      rw [hf,or_assoc]
      refine or_congr_right ?_
      have hw : label' a = l := by rw [ho.frame hfr,Function.update_self]
      by_cases hl : label a = l
      · subst hl
        simp
      · have hc : label' ≠ label := fun hq => hl (by rw [← hq,hw])
        simp [hl,hc]

theorem propagate_spec {agents : List AgentId} (hn : nodes.Nodup) (hd : Connects nodes weight edges)
    (ha : agents.insertionSort (· ≤ ·) = nodes) (h : Reads nodes labels label) (n : ℕ) :
    ∃ label', Settles nodes weight n label label' ∧ Reads nodes (propagate hash edges agents n round labels) label' := by
  induction n generalizing round labels label with
  | zero => exact ⟨label, .spent,h⟩
  | succ n ih =>
    obtain ⟨label',ho,hr,hf⟩ :=
      @round_spec nodes weight edges hash round labels label hn hd nodes hn (fun _ => id) h false
    rw [propagate,ha]
    dsimp only
    split_ifs with hc
    · obtain ⟨label'',hs,hr'⟩ := @ih (round+1) _ label' hr
      have he : label' ≠ label := (hf.mp hc).resolve_left (by simp)
      exact ⟨label'', .again ho he hs,hr'⟩
    · have hq : label' = label := by
        by_contra he
        exact hc (hf.mpr (.inr he))
      rw [hq] at ho hr
      exact ⟨label, .stable ho,hr⟩

end Visits

end UwuContextDb.Marketplace
