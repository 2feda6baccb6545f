import UwuContextDb.Marketplace.CommunityGraph

/-! The bridges of a detection: a community gets the entries of each of its domains that another community has too. -/

namespace UwuContextDb.Marketplace

open Upsert (upsertAll getElem?_upsertAll_empty)

theorem foldl_concat {α : Type} (items : List α) : items.foldl (fun kept item => kept++[item]) [] = items := by
  induction items using List.reverseRecOn with
  | nil => rfl
  | append_singleton items item ih => rw [List.foldl_concat,ih]

section Runs

variable {communities cur : List Community} {ids : ℕ → MarketId → Prop} {hash : HashRun}
  {domainEntries : NameMap (Std.ExtTreeSet MarketId compare)}

def Bridged (communities : List Community) (ids : ℕ → MarketId → Prop) (current : List Community) : Prop :=
  current.length = communities.length ∧ ∀ i community, communities[i]? = some community →
    ∃ bridges : List MarketId, current[i]? = some { community with bridgeEntries := bridges } ∧
      bridges.Pairwise (· ≤ ·) ∧ bridges.Nodup ∧ ∀ id, id ∈ bridges ↔ ids i id

theorem bridged_start (h : ∀ community ∈ communities, community.bridgeEntries = []) :
    Bridged communities (fun _ _ => False) communities := by
  refine ⟨rfl,fun i community hc => ⟨[],?_, .nil, .nil,by simp⟩⟩
  rw [hc,← h community (List.mem_of_getElem? hc)]

theorem Bridged.congr (h : Bridged communities ids cur) {ids' : ℕ → MarketId → Prop}
    (hi : ∀ i id, ids i id ↔ ids' i id) : Bridged communities ids' cur := by
  obtain ⟨hl,ha⟩ := h
  refine ⟨hl,fun i community hc => ?_⟩
  obtain ⟨bridges,hu,hs,hn,hm⟩ := ha i community hc
  exact ⟨bridges,hu,hs,hn,fun id => (hm id).trans (hi i id)⟩

theorem Bridged.addBridges (h : Bridged communities ids cur) (idx : ℕ) (entryIds : List MarketId) :
    Bridged communities (fun i id => ids i id ∨ i = idx ∧ id ∈ entryIds)
      (cur.modify idx (·.addBridges entryIds)) := by
  obtain ⟨hl,ha⟩ := h
  refine ⟨by rw [List.length_modify,hl],fun i community hc => ?_⟩
  obtain ⟨bridges,hu,hs,hn,hm⟩ := ha i community hc
  rw [List.getElem?_modify,hu]
  by_cases hi : idx = i
  · subst hi
    refine ⟨sortDedup (bridges++entryIds),?_,pairwise_sortDedup _,nodup_sortDedup _,fun id => ?_⟩
    · simp [Community.addBridges]
    · rw [mem_sortDedup,List.mem_append,hm]
      simp
  · refine ⟨bridges,by simp [hi],hs,hn,fun id => ?_⟩
    rw [hm]
    simp [Ne.symm hi]

theorem Bridged.addAll (h : Bridged communities ids cur) (idxs : List ℕ) {items : ℕ → List MarketId}
    {entryIds : MarketId → Prop} (hi : ∀ idx id, id ∈ items idx ↔ entryIds id) :
    Bridged communities (fun i id => ids i id ∨ i ∈ idxs ∧ entryIds id)
      (idxs.foldl (fun cur idx => cur.modify idx (·.addBridges (items idx))) cur) := by
  induction idxs generalizing ids cur with
  | nil => exact h.congr (by simp)
  | cons idx idxs ih =>
    refine (ih (h.addBridges idx (items idx))).congr (fun i id => ?_)
    rw [hi,List.mem_cons,or_and_right,or_assoc]

theorem Bridged.bridge (h : Bridged communities ids cur) (row : String × List ℕ) :
    Bridged communities (fun i id => ids i id ∨ 2 ≤ row.2.length ∧ i ∈ row.2 ∧ id ∈ domainEntries.getD row.1 ∅)
      (bridge hash domainEntries cur row) := by
  rw [Marketplace.bridge,Upsert.getD_eq]
  split_ifs with hf
  · exact h.congr (fun i id => by simp [hf])
  · have ht : 2 ≤ row.2.length := not_lt.mp hf
    cases he : domainEntries[row.1]? with
    | none => exact h.congr (fun i id => by simp)
    | some entryIds =>
      have hi : ∀ idx id, id ∈ hash.order (.entryIds row.1 idx) entryIds.toList ↔ id ∈ entryIds := by
        intro idx id
        rw [(hash.perm _ _).mem_iff,Std.ExtTreeSet.mem_toList]
      exact (h.addAll row.2 hi).congr (fun i id => by simp [ht])

theorem Bridged.run (h : Bridged communities ids cur) (rows : List (String × List ℕ)) :
    Bridged communities (fun i id => ids i id ∨
        ∃ row ∈ rows, 2 ≤ row.2.length ∧ i ∈ row.2 ∧ id ∈ domainEntries.getD row.1 ∅)
      (rows.foldl (Marketplace.bridge hash domainEntries) cur) := by
  induction rows generalizing ids cur with
  | nil => exact h.congr (by simp)
  | cons row rows ih => exact (ih (h.bridge row)).congr (fun i id => by simp [or_assoc])

end Runs

theorem places_eq {rows : List (Community × ℕ)} (hn : ∀ row ∈ rows, row.1.domains.Nodup) (domain : String) :
    (((rows.flatMap (fun row => row.1.domains.map (fun domain => (domain, row.2)))).filter
      (fun row => row.1 = domain)).map (·.2)) = (rows.filter (fun row => domain ∈ row.1.domains)).map (·.2) := by
  induction rows with
  | nil => rfl
  | cons row rows ih =>
    obtain ⟨hr,hw⟩ := List.forall_mem_cons.mp hn
    have ho : ((row.1.domains.map (fun domain => (domain, row.2))).filter (fun row => row.1 = domain)).map (·.2) =
        if domain ∈ row.1.domains then [row.2] else [] := by
      rw [List.filter_map,List.map_map]
      change (row.1.domains.filter (fun d => d = domain)).map (fun _ => row.2) = _
      rw [List.filter_eq]
      split_ifs with hm
      · rw [List.count_eq_one_of_mem hr hm]
        rfl
      · rw [List.count_eq_zero_of_not_mem hm]
        rfl
    rw [List.flatMap_cons,List.filter_append,List.map_append,ih hw,ho,List.filter_cons]
    by_cases hm : domain ∈ row.1.domains <;> simp [hm]

variable {communities : List Community} {hash : HashRun} {domainEntries : NameMap (Std.ExtTreeSet MarketId compare)}

def places (communities : List Community) (domain : String) : List ℕ :=
  (communities.zipIdx.filter (fun row => domain ∈ row.1.domains)).map (·.2)

theorem mem_places {domain : String} {i : ℕ} :
    i ∈ places communities domain ↔ ∃ community, communities[i]? = some community ∧ domain ∈ community.domains := by
  simp only [places,List.mem_map,List.mem_filter,decide_eq_true_eq]
  constructor
  · rintro ⟨⟨community,_⟩,⟨hm,hd⟩,rfl⟩
    exact ⟨community,List.mk_mem_zipIdx_iff_getElem?.mp hm,hd⟩
  · rintro ⟨community,ha,hd⟩
    exact ⟨(community, i),⟨List.mk_mem_zipIdx_iff_getElem?.mpr ha,hd⟩,rfl⟩

theorem length_places (domain : String) :
    (places communities domain).length = communities.countP (fun community => domain ∈ community.domains) := by
  rw [places,List.length_map,← List.countP_eq_length_filter]
  conv_rhs => rw [← List.zipIdx_map_fst 0 communities,List.countP_map]
  rfl

theorem mem_domainToCommunities (hd : ∀ community ∈ communities, community.domains.Nodup) {row : String × List ℕ}
    (ht : 2 ≤ row.2.length) :
    row ∈ hash.order .bridged (domainToCommunities communities).toList ↔ row.2 = places communities row.1 := by
  have hr : ∀ other ∈ communities.zipIdx, other.1.domains.Nodup := by
    intro other ho
    refine hd other.1 ?_
    rw [← List.zipIdx_map_fst 0 communities]
    exact List.mem_map_of_mem ho
  rw [(hash.perm _ _).mem_iff,Std.ExtTreeMap.mem_toList_iff_getElem?_eq_some,domainToCommunities,
    getElem?_upsertAll_empty,foldl_concat,places_eq hr]
  split_ifs with hk
  · exact ⟨fun h => (Option.some.inj h).symm,fun h => congrArg some h.symm⟩
  · have hn : places communities row.1 = [] := by
      rw [places,← places_eq hr,List.map_eq_nil_iff,List.filter_eq_nil_iff]
      intro other ho hm
      exact hk (List.mem_map.mpr ⟨other,ho,of_decide_eq_true hm⟩)
    constructor
    · intro h
      cases h
    · intro h
      rw [h,hn] at ht
      exact absurd ht (by decide)

def bridgesOf (domainEntries : NameMap (Std.ExtTreeSet MarketId compare)) (communities : List Community)
    (community : Community) : List MarketId :=
  sortDedup ((community.domains.filter (fun domain => 2 ≤ communities.countP (fun other => domain ∈ other.domains))).flatMap
    (fun domain => (domainEntries.getD domain ∅).toList))

theorem bridges_eq (hs : ∀ community ∈ communities, community.bridgeEntries = [])
    (hm : ∀ community ∈ communities, community.domains.Nodup) :
    (hash.order .bridged (domainToCommunities communities).toList).foldl (bridge hash domainEntries) communities =
      communities.map (fun community =>
        { community with bridgeEntries := bridgesOf domainEntries communities community }) := by
  obtain ⟨hl,ha⟩ := @Bridged.run communities communities _ hash domainEntries (bridged_start hs)
    (hash.order .bridged (domainToCommunities communities).toList)
  generalize hru : (hash.order .bridged (domainToCommunities communities).toList).foldl (bridge hash domainEntries)
    communities = cur at hl ha ⊢
  refine List.ext_getElem? (fun i => ?_)
  rw [List.getElem?_map]
  cases hc : communities[i]? with
  | none =>
    rw [Option.map_none]
    exact List.getElem?_eq_none (hl ▸ List.getElem?_eq_none_iff.mp hc)
  | some community =>
    obtain ⟨bridges,hu,hr,hn,he⟩ := ha i community hc
    rw [hu,Option.map_some]
    have hq : bridges = bridgesOf domainEntries communities community := by
      refine eq_sortDedup hr hn (fun id => ?_)
      refine (he id).trans ?_
      simp only [false_or,List.mem_flatMap,List.mem_filter,decide_eq_true_eq,Std.ExtTreeSet.mem_toList]
      constructor
      · rintro ⟨row,hw,ht,hi,hid⟩
        have hp := (mem_domainToCommunities hm ht).mp hw
        rw [hp] at hi
        rw [hp,length_places] at ht
        obtain ⟨other,ho,hd⟩ := mem_places.mp hi
        rw [hc] at ho
        obtain rfl := Option.some.inj ho
        exact ⟨row.1,⟨hd,ht⟩,hid⟩
      · rintro ⟨domain,⟨hd,ht⟩,hid⟩
        rw [← length_places] at ht
        exact ⟨(domain, places communities domain),(mem_domainToCommunities hm ht).mpr rfl,ht,
          mem_places.mpr ⟨community,hc,hd⟩,hid⟩
    rw [hq]

end UwuContextDb.Marketplace

/-! What `CommunityDetector::detect` finds, for any order of the entries and any order of iteration. -/

namespace UwuContextDb.Marketplace

open Upsert (upsertAll getElem?_upsertAll_empty)
open LabelPropagation (Settles)

section Order

variable {α : Type} {count : α → ℕ} {name : α → String}

instance RanksBefore.total : Std.Total (RanksBefore count name) where
  total a b := by
    rcases lt_trichotomy (count a) (count b) with hlt | heq | hlt
    · exact .inr (.inl hlt)
    · exact (le_total (name a) (name b)).imp (fun hle => .inr ⟨heq.symm, hle⟩) (fun hle => .inr ⟨heq, hle⟩)
    · exact .inl (.inl hlt)

instance RanksBefore.isTrans : IsTrans α (RanksBefore count name) where
  trans a b c hab hbc := by
    rcases hab with hlt | ⟨heq, hle⟩
    · rcases hbc with hlt' | ⟨heq', -⟩
      · exact .inl (hlt'.trans hlt)
      · exact .inl (heq'.trans_lt hlt)
    · rcases hbc with hlt' | ⟨heq', hle'⟩
      · exact .inl (hlt'.trans_eq heq)
      · exact .inr ⟨heq'.trans heq, hle.trans hle'⟩

theorem insertionSort_perm {items items' : List α} (h : items.Perm items')
    (hn : ∀ a ∈ items, ∀ b ∈ items, name a = name b → a = b) :
    items.insertionSort (RanksBefore count name) = items'.insertionSort (RanksBefore count name) := by
  have hp := (List.perm_insertionSort (RanksBefore count name) items).trans
    (h.trans (List.perm_insertionSort (RanksBefore count name) items').symm)
  refine hp.eq_of_pairwise (fun a b ha hb hab hba => ?_) (List.pairwise_insertionSort _ _)
    (List.pairwise_insertionSort _ _)
  refine hn a ((List.mem_insertionSort _).mp ha) b (h.mem_iff.mpr ((List.mem_insertionSort _).mp hb)) ?_
  rcases hab with hl | ⟨he,hle⟩
  · rcases hba with hl' | ⟨he',-⟩
    · exact absurd hl (lt_asymm hl')
    · exact absurd he' hl.ne'
  · rcases hba with hl' | ⟨-,hle'⟩
    · exact absurd he hl'.ne'
    · exact le_antisymm hle hle'

end Order

section Groups

variable {F : Type} {entries entries' : List (MarketEntry F)} {hash hash' : HashRun} {minAgents : ℕ}
  {edges : NameMap (NameMap ℚ)} {label : AgentId} {members members' : List AgentId} {community : Community}

theorem domainScores_congr (domains : NameMap (NameMap ℕ)) :
    domainScores hash domains label members = domainScores hash' domains label members := by
  refine Upsert.upsertAll_perm (.flatMap_left _ (fun member _ => ?_))
  exact (hash.perm _ _).trans (hash'.perm _ _).symm

theorem communityOf_congr (h : entries'.Perm entries) (hm : members'.Perm members) :
    communityOf hash' minAgents entries' edges (label, members') =
      communityOf hash minAgents entries edges (label, members) := by
  have hs : sortDedup members' = sortDedup members := sortDedup_congr (fun _ => hm.mem_iff)
  have hc := @domainScores_congr hash' hash label (sortDedup members) (agentDomains entries)
  simp only [communityOf,hs,agentDomains_perm h,hc]
  generalize domainScores hash (agentDomains entries) label (sortDedup members) = scores
  have hd : (hash'.order (.domainScores label) scores.toList).insertionSort (RanksBefore (·.2) (·.1)) =
      (hash.order (.domainScores label) scores.toList).insertionSort (RanksBefore (·.2) (·.1)) := by
    refine insertionSort_perm ((hash'.perm _ _).trans (hash.perm _ _).symm) ?_
    rintro ⟨domain,n⟩ hr ⟨_,m⟩ hr' rfl
    rw [(hash'.perm _ _).mem_iff,Std.ExtTreeMap.mem_toList_iff_getElem?_eq_some] at hr hr'
    rw [hr] at hr'
    rw [Option.some.inj hr']
  rw [hd,h.countP_eq]

theorem communityOf_eq_some (h : communityOf hash minAgents entries edges (label, members) = some community) :
    community.id = "community-" ++ sanitizeDomainSegment label ∧ community.agents = sortDedup members ∧
    minAgents ≤ community.agents.length ∧ community.bridgeEntries = [] ∧ community.domains.Nodup := by
  have hn : ∀ scores : NameMap ℕ, (((hash.order (.domainScores label) scores.toList).insertionSort
      (RanksBefore (·.2) (·.1))).map (·.1)).Nodup := by
    intro scores
    have hp := (List.perm_insertionSort (RanksBefore (·.2) (·.1)) _).trans (hash.perm (.domainScores label) scores.toList)
    refine (hp.map _).nodup_iff.mpr ?_
    rw [Std.ExtTreeMap.map_fst_toList_eq_keys]
    exact Std.ExtTreeMap.nodup_keys
  simp only [communityOf] at h
  by_cases hf : (sortDedup members).length < minAgents
  · rw [if_pos hf] at h
    cases h
  · rw [if_neg hf] at h
    obtain rfl := Option.some.inj h
    exact ⟨rfl,rfl,not_lt.mp hf,rfl,hn _⟩

theorem exists_communityOf (h : minAgents ≤ (sortDedup members).length) :
    ∃ community, communityOf hash minAgents entries edges (label, members) = some community := by
  simp only [communityOf,if_neg (not_lt.mpr h)]
  exact ⟨_,rfl⟩

end Groups

section Outcome

variable {F : Type} (config : CommunityConfig) (entries : List (MarketEntry F)) (label : AgentId → AgentId)

def Settled : Prop :=
  Settles (publishers entries) (sharedWeight entries) config.maxLabelIterations id label

def carriers (l : AgentId) : List AgentId := (publishers entries).filter (fun agent => label agent = l)

def DistinctNames : Prop :=
  ∀ label, Settled config entries label → ∀ l l', config.minAgents ≤ (carriers entries label l).length →
    config.minAgents ≤ (carriers entries label l').length → sanitizeDomainSegment l = sanitizeDomainSegment l' → l = l'

def settledCommunities : List Community :=
  (sortDedup ((publishers entries).map label)).filterMap (fun l =>
    communityOf HashRun.asSorted config.minAgents entries
      (edges HashRun.asSorted (agentDomains entries) (publishers entries)) (l, carriers entries label l))

def outcome : List Community :=
  let communities := settledCommunities config entries label
  communities.map (fun community =>
    { community with bridgeEntries := bridgesOf (domainEntries entries) communities community })

variable {config entries label} {entries' : List (MarketEntry F)}

theorem sortDedup_carriers (l : AgentId) : sortDedup (carriers entries label l) = carriers entries label l :=
  (eq_sortDedup ((pairwise_sortDedup _).filter _) ((nodup_sortDedup _).filter _) (fun _ => Iff.rfl)).symm

theorem mem_carriers {l a : AgentId} : a ∈ carriers entries label l ↔ a ∈ publishers entries ∧ label a = l := by
  rw [carriers,List.mem_filter,decide_eq_true_iff]

def OfLabel (config : CommunityConfig) (entries : List (MarketEntry F)) (label : AgentId → AgentId) (l : AgentId)
    (community : Community) : Prop :=
  community.id = "community-" ++ sanitizeDomainSegment l ∧ community.agents = carriers entries label l ∧
    config.minAgents ≤ community.agents.length

variable {community : Community}

theorem ofLabel_of_eq_some {l : AgentId} (h : communityOf HashRun.asSorted config.minAgents entries
      (edges HashRun.asSorted (agentDomains entries) (publishers entries)) (l, carriers entries label l) = some community) :
    OfLabel config entries label l community := by
  obtain ⟨hi,ha,hm,-⟩ := communityOf_eq_some h
  exact ⟨hi,ha.trans (sortDedup_carriers l),hm⟩

theorem mem_settledCommunities (h : community ∈ settledCommunities config entries label) :
    config.minAgents ≤ (publishers entries).length ∧ community.bridgeEntries = [] ∧ community.domains.Nodup := by
  obtain ⟨l,-,hl⟩ := List.mem_filterMap.mp h
  obtain ⟨-,ha,hm,hb,hd⟩ := communityOf_eq_some hl
  refine ⟨hm.trans ?_,hb,hd⟩
  rw [ha,sortDedup_carriers]
  exact List.length_filter_le _ _

theorem pairwise_outcome {r : Community → Community → Prop} (hr : ∀ l l' community community', l ≠ l' →
    OfLabel config entries label l community → OfLabel config entries label l' community' → r community community') :
    (outcome config entries label).Pairwise r := by
  refine List.pairwise_map.mpr (List.pairwise_filterMap.mpr ((nodup_sortDedup _).imp ?_))
  intro l l' hn community hl community' hl'
  have ho : OfLabel config entries label l community := ofLabel_of_eq_some hl
  have ho' : OfLabel config entries label l' community' := ofLabel_of_eq_some hl'
  exact hr l l' _ _ hn ho ho'

theorem mem_outcome (h : community ∈ outcome config entries label) :
    ∃ l, OfLabel config entries label l community := by
  obtain ⟨other,ho,rfl⟩ := List.mem_map.mp h
  obtain ⟨l,-,hl⟩ := List.mem_filterMap.mp ho
  have hf : OfLabel config entries label l other := ofLabel_of_eq_some hl
  exact ⟨l,hf⟩

theorem grouped_toList_perm {labels : NameMap AgentId} {agents : List AgentId}
    (ha : ∀ a, a ∈ agents ↔ a ∈ publishers entries) (hr : Reads (publishers entries) labels label) :
    (grouped labels agents).toList.Perm ((sortDedup ((publishers entries).map label)).map (fun l =>
      (l, agents.filter (fun agent => label agent = l)))) := by
  refine Upsert.toList_perm (nodup_sortDedup _) (fun l => ?_)
  have ho : agents.map (fun agent => (labels.getD agent agent, agent)) = agents.map (fun agent => (label agent, agent)) :=
    List.map_congr_left (fun agent hg => by rw [hr.getD ((ha agent).mp hg)])
  have hk : l ∈ (agents.map (fun agent => (label agent, agent))).map (·.1) ↔
      l ∈ sortDedup ((publishers entries).map label) := by
    simp [mem_sortDedup,ha]
  have hm : (((agents.map (fun agent => (label agent, agent))).filter (fun row => row.1 = l)).map (·.2)) =
      agents.filter (fun agent => label agent = l) := by
    rw [List.filter_map,List.map_map]
    exact List.map_id _
  rw [grouped,ho,getElem?_upsertAll_empty,foldl_concat,hm]
  simp only [hk]

theorem domainEntries_perm (h : entries'.Perm entries) : domainEntries entries' = domainEntries entries := by
  have : RightCommutative (fun (ids : Std.ExtTreeSet MarketId compare) id => ids.insert id) :=
    ⟨fun ids id id' => Std.ExtTreeSet.ext_mem (fun other => by simp [or_left_comm])⟩
  exact Upsert.upsertAll_perm (h.map _)

theorem bridgesOf_perm {communities communities' : List Community} (h : communities.Perm communities')
    (entryIds : NameMap (Std.ExtTreeSet MarketId compare)) (community : Community) :
    bridgesOf entryIds communities community = bridgesOf entryIds communities' community := by
  simp only [bridgesOf,h.countP_eq]

end Outcome

section Detection

variable {F : Type} {entries entries' : List (MarketEntry F)}

variable {agents : List AgentId} {label : AgentId → AgentId} {config : CommunityConfig}

theorem reads_ownLabels (hn : ∀ a, a ∈ agents ↔ a ∈ publishers entries) :
    Reads (publishers entries) (ownLabels agents) id := by
  intro a
  have hm : ∀ v, (a, v) ∈ agents.map (fun agent => (agent, agent)) ↔ a ∈ publishers entries ∧ v = a := by
    intro v
    rw [← hn,List.mem_map]
    constructor
    · rintro ⟨agent,hg,he⟩
      obtain ⟨rfl,rfl⟩ := Prod.mk.inj he
      exact ⟨hg,rfl⟩
    · rintro ⟨ha,rfl⟩
      exact ⟨_,ha,rfl⟩
  refine Option.ext (fun v => ?_)
  rw [ownLabels,Upsert.getElem?_setAll,hm]
  · split_ifs with ha
    · simp [ha,eq_comm]
    · simp [ha]
  · intro k v v' hv hv'
    obtain ⟨_,-,hg⟩ := List.mem_map.mp hv
    obtain ⟨_,-,hg'⟩ := List.mem_map.mp hv'
    cases hg
    cases hg'
    rfl

theorem mem_iterated (hash : HashRun) (a : AgentId) :
    a ∈ hash.order .agents (agentDomains entries).keys ↔ a ∈ publishers entries := by
  rw [(hash.perm _ _).mem_iff,Std.ExtTreeMap.mem_keys,mem_agentDomains]

theorem nodup_iterated (hash : HashRun) : (hash.order .agents (agentDomains entries).keys).Nodup :=
  (hash.perm _ _).nodup_iff.mpr Std.ExtTreeMap.nodup_keys

theorem size_agentDomains : (agentDomains entries).size = (publishers entries).length := by
  rw [← Std.ExtTreeMap.length_keys]
  exact ((List.perm_ext_iff_of_nodup Std.ExtTreeMap.nodup_keys (nodup_sortDedup _)).mpr (fun a => by
    rw [Std.ExtTreeMap.mem_keys,mem_agentDomains,publishers])).length_eq

theorem groups_perm (cfg : CommunityConfig) (hash : HashRun) (h : entries'.Perm entries) {labels : NameMap AgentId}
    (hr : Reads (publishers entries) labels label)
    (hn : agents.Nodup) (ha : ∀ a, a ∈ agents ↔ a ∈ publishers entries) :
    ((hash.order .grouped (grouped labels agents).toList).filterMap (communityOf hash cfg.minAgents entries'
      (edges hash (agentDomains entries) agents))).Perm (settledCommunities cfg entries label) := by
  refine (((hash.perm _ _).trans (grouped_toList_perm ha hr)).filterMap _).trans (.of_eq ?_)
  rw [List.filterMap_map]
  refine List.filterMap_congr (fun l _ => ?_)
  have hm : (agents.filter (fun agent => label agent = l)).Perm (carriers entries label l) :=
    ((List.perm_ext_iff_of_nodup hn (nodup_sortDedup _)).mpr ha).filter _
  rw [Function.comp_apply,edges_congr hash HashRun.asSorted hn ha (nodup_sortDedup _) (fun _ => Iff.rfl)]
  exact communityOf_congr h hm

theorem detect_spec (detector : CommunityDetector) (hash : HashRun) (h : entries'.Perm entries) :
    ∃ label, ∃ communities : List Community, Settled detector.config entries label ∧
      communities.Perm (outcome detector.config entries label) ∧
      detector.detect hash entries' = communities.insertionSort (RanksBefore (·.entryCount) (·.id)) := by
  have ha := @mem_iterated F entries hash
  have hn := @nodup_iterated F entries hash
  generalize hk : hash.order .agents (agentDomains entries).keys = agents at ha hn
  have ho : agents.insertionSort (· ≤ ·) = publishers entries :=
    eq_sortDedup (List.pairwise_insertionSort _ _) ((List.perm_insertionSort _ _).nodup_iff.mpr hn)
      (fun a => by rw [List.mem_insertionSort,ha,publishers,mem_sortDedup])
  obtain ⟨label,hs,hr⟩ := @propagate_spec _ _ _ hash 0 _ _ agents (nodup_sortDedup _)
    (connects_edges hash hn ha) ho (reads_ownLabels ha) detector.config.maxLabelIterations
  have hp := groups_perm detector.config hash h hr hn ha
  refine ⟨label,?_⟩
  rw [CommunityDetector.detect,agentDomains_perm h,domainEntries_perm h,hk]
  dsimp only
  split_ifs with hf
  · rw [size_agentDomains] at hf
    have hno : settledCommunities detector.config entries label = [] :=
      List.eq_nil_iff_forall_not_mem.mpr (fun community hc =>
        absurd hf (not_lt.mpr (mem_settledCommunities hc).1))
    refine ⟨[],hs, .of_eq ?_,rfl⟩
    rw [outcome,hno]
    rfl
  · refine ⟨_,hs,?_,rfl⟩
    rw [bridges_eq (fun community hc => (mem_settledCommunities (hp.mem_iff.mp hc)).2.1)
      (fun community hc => (mem_settledCommunities (hp.mem_iff.mp hc)).2.2)]
    simp only [bridgesOf_perm hp]
    exact hp.map _

theorem communityId_inj {l l' : AgentId} :
    "community-" ++ sanitizeDomainSegment l = "community-" ++ sanitizeDomainSegment l' ↔
      sanitizeDomainSegment l = sanitizeDomainSegment l' := by
  generalize "community-" = start
  constructor
  · intro h
    exact String.toList_inj.mp (by simpa using congrArg String.toList h)
  · exact congrArg _

theorem exists_mem_outcome {l : AgentId}
    (hi : config.minAgents ≤ (carriers entries label l).length) {a : AgentId} (ha : a ∈ carriers entries label l) :
    ∃ community ∈ outcome config entries label, OfLabel config entries label l community := by
  obtain ⟨community,hc⟩ := @exists_communityOf F entries HashRun.asSorted config.minAgents
    (edges HashRun.asSorted (agentDomains entries) (publishers entries)) l (carriers entries label l)
    (by rwa [sortDedup_carriers])
  obtain ⟨hp,rfl⟩ := mem_carriers.mp ha
  have hm : community ∈ settledCommunities config entries label :=
    List.mem_filterMap.mpr ⟨label a,mem_sortDedup.mpr (List.mem_map_of_mem hp),hc⟩
  have ho : OfLabel config entries label (label a) community := ofLabel_of_eq_some hc
  exact ⟨_,List.mem_map_of_mem hm,ho⟩

theorem nodup_ids_iff (hc : 0 < config.minAgents) (label : AgentId → AgentId) :
    ((outcome config entries label).map (·.id)).Nodup ↔
      ∀ l l', config.minAgents ≤ (carriers entries label l).length → config.minAgents ≤ (carriers entries label l').length →
        sanitizeDomainSegment l = sanitizeDomainSegment l' → l = l' := by
  constructor
  · intro hn l l' hm hm' hna
    obtain ⟨a,ha⟩ := List.exists_mem_of_length_pos (hc.trans_le hm)
    obtain ⟨a',ha'⟩ := List.exists_mem_of_length_pos (hc.trans_le hm')
    obtain ⟨community,he,hi,hg,-⟩ := exists_mem_outcome hm ha
    obtain ⟨community',he',hi',hg',-⟩ := exists_mem_outcome hm' ha'
    obtain rfl := List.inj_on_of_nodup_map hn he he' (hi.trans ((communityId_inj.mpr hna).trans hi'.symm))
    have ho : a ∈ carriers entries label l' := by rwa [← hg',hg]
    exact (mem_carriers.mp ha).2.symm.trans (mem_carriers.mp ho).2
  · intro hd
    refine List.pairwise_map.mpr (pairwise_outcome ?_)
    rintro l l' community community' hne ⟨hi,hg,hm⟩ ⟨hi',hg',hm'⟩ hq
    rw [hg] at hm
    rw [hg'] at hm'
    exact hne (hd l l' hm hm' (communityId_inj.mp (hi.symm.trans (hq.trans hi'))))

theorem CommunityDetector.minAgents_pos (detector : CommunityDetector) : 0 < detector.config.minAgents := by
  have hv := detector.valid
  rw [CommunityConfig.validate] at hv
  split_ifs at hv with hm
  omega

/-- A detection returns disjoint communities of enough agents, always; their ids differ, and no order matters, exactly if
no two labels that enough agents carry have one sanitised name. -/
theorem communities_iff (detector : CommunityDetector) (entries : List (MarketEntry F)) :
    ((∀ hash, (detector.detect hash entries).Pairwise (fun c c' => c.agents.Disjoint c'.agents) ∧
        (∀ c ∈ detector.detect hash entries, c.agents.Nodup ∧ detector.config.minAgents ≤ c.agents.length) ∧
        ((detector.detect hash entries).map (·.id)).Nodup) ∧
      ∀ hash hash' entries', entries'.Perm entries →
        detector.detect hash' entries' = detector.detect hash entries) ↔
    DistinctNames detector.config entries := by
  constructor
  · rintro ⟨hids, -⟩ label hs
    obtain ⟨label', communities, hs', hp, hd⟩ := detect_spec detector HashRun.asSorted (.refl entries)
    obtain rfl := hs.unique hs'
    refine (nodup_ids_iff detector.minAgents_pos label).mp ?_
    have hn := (hids HashRun.asSorted).2.2
    rw [hd] at hn
    exact ((((List.perm_insertionSort _ _).trans hp).map _).nodup_iff).mp hn
  · intro hi
    constructor
    · intro hash
      obtain ⟨label, communities, hs, hp, hd⟩ := detect_spec detector hash (.refl entries)
      have hm := (List.perm_insertionSort (RanksBefore (·.entryCount) (·.id)) communities).trans hp
      rw [hd]
      refine ⟨?_, fun c hc => ?_, ?_⟩
      · refine (hm.pairwise_iff List.Disjoint.symm).mpr (pairwise_outcome ?_)
        rintro l l' c c' hne ⟨-, hg, -⟩ ⟨-, hg', -⟩ a ha ha'
        rw [hg, mem_carriers] at ha
        rw [hg', mem_carriers] at ha'
        exact hne (ha.2.symm.trans ha'.2)
      · obtain ⟨l, -, hg, hmi⟩ := mem_outcome (hm.mem_iff.mp hc)
        refine ⟨?_, hmi⟩
        rw [hg]
        exact (nodup_sortDedup _).filter _
      · exact ((hm.map _).nodup_iff).mpr ((nodup_ids_iff detector.minAgents_pos label).mpr (hi label hs))
    · intro hash hash' entries' he
      obtain ⟨label, communities, hs, hp, hd⟩ := detect_spec detector hash (.refl entries)
      obtain ⟨label', communities', hs', hp', hd'⟩ := detect_spec detector hash' he
      obtain rfl := hs.unique hs'
      have hn := (nodup_ids_iff detector.minAgents_pos label).mpr (hi label hs)
      rw [hd, hd']
      refine insertionSort_perm (hp'.trans hp.symm) (fun c hc c' hc' hid => ?_)
      exact List.inj_on_of_nodup_map hn (hp'.mem_iff.mp hc) (hp'.mem_iff.mp hc') hid

end Detection

def sampleAgentEntry (id : MarketId) (publisher : AgentId) (domain : String) : MarketEntry Unit :=
  ⟨id, publisher, domain, .fact, "", [], (), (), .new, none, .publicDomain, .fact, .fact, none, 0, none⟩

def twinEntries : List (MarketEntry Unit) :=
  [sampleAgentEntry 1 "A" "d1", sampleAgentEntry 2 "B1" "d1", sampleAgentEntry 3 "a" "d2", sampleAgentEntry 4 "b1" "d2"]

def defaultDetector : CommunityDetector := ⟨.default, rfl⟩

def backwardRun : HashRun where
  order site items :=
    match site with
    | .grouped => items.reverse
    | _ => items
  perm site items := by cases site <;> simp

/-- Both communities have one id, and come in either order. -/
theorem twin_ids_collide :
    (defaultDetector.detect HashRun.asSorted twinEntries).map (fun c => (c.id, c.agents)) =
      [("community-b1", ["A", "B1"]), ("community-b1", ["a", "b1"])] ∧
    ¬((defaultDetector.detect HashRun.asSorted twinEntries).map (·.id)).Nodup ∧
    defaultDetector.detect backwardRun twinEntries ≠ defaultDetector.detect HashRun.asSorted twinEntries := by
  decide +kernel

end UwuContextDb.Marketplace
