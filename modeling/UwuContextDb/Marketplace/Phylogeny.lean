import UwuContextDb.Library.SetUnion
import UwuContextDb.Library.Unfolding
import UwuContextDb.Marketplace.Entries

/-! `CrossAgentPhylogeny`: from an entry up to an origin, and the tree of all that was derived from it. -/

namespace UwuContextDb.Marketplace

open Unfolding
open Relation (ReflTransGen TransGen)

inductive LineageAction | origin | derived | merged | corrected | deprecated deriving DecidableEq

structure LineageNode where
  marketId : MarketId
  publisher : AgentId
  action : LineageAction
  parentIds : List MarketId
  timestamp : DateTime
  deriving DecidableEq

structure PhylogenyLabel where
  entryId : MarketId
  publisher : AgentId
  action : LineageAction
  depth : ℕ
  deriving DecidableEq

abbrev PhylogenyNode := RoseTree PhylogenyLabel

structure PhylogeneticTree where
  root : PhylogenyNode
  totalNodes : ℕ
  maxDepth : ℕ
  agentsInvolved : List AgentId
  originAgent : AgentId
  originTime : DateTime

mutual
def collectAgents : PhylogenyNode → List AgentId → List AgentId
  | .node label children, agents =>
    collectAgentsOf children (if label.publisher ∈ agents then agents else agents ++ [label.publisher])

def collectAgentsOf : List PhylogenyNode → List AgentId → List AgentId
  | [], agents => agents
  | child::children, agents => collectAgentsOf children (collectAgents child agents)
end

mutual
def maxDepthOf : PhylogenyNode → ℕ
  | .node label children => (maxDepthOfAll children).getD label.depth

def maxDepthOfAll : List PhylogenyNode → Option ℕ
  | [] => none
  | child::children => some ((maxDepthOfAll children).elim (maxDepthOf child) (max (maxDepthOf child)))
end

/-- `CrossAgentPhylogeny`: the recorded nodes, one for each id, in the order in which the map iterates. -/
structure CrossAgentPhylogeny where
  lineages : List LineageNode
  distinct : (lineages.map (·.marketId)).Nodup

variable {node leaf root : LineageNode} {fuel : ℕ}

namespace CrossAgentPhylogeny

def new : CrossAgentPhylogeny := ⟨[], List.nodup_nil⟩

def record (phylogeny : CrossAgentPhylogeny) (node : LineageNode) : CrossAgentPhylogeny where
  lineages := node::phylogeny.lineages.filter (fun held => held.marketId ≠ node.marketId)
  distinct := by
    rw [List.map_cons, List.nodup_cons]
    refine ⟨?_, phylogeny.distinct.sublist (List.filter_sublist.map _)⟩
    simp

variable (phylogeny : CrossAgentPhylogeny)

def get (id : MarketId) : Option LineageNode := phylogeny.lineages.find? (fun node => node.marketId = id)

def firstParent (node : LineageNode) : Option LineageNode := node.parentIds.findSome? phylogeny.get

/-- `find_origin`, as far as the fuel goes. -/
def findOrigin : ℕ → LineageNode → Option LineageNode
  | 0, _ => none
  | fuel + 1, node =>
    match phylogeny.firstParent node with
    | none => some node
    | some parent => if parent.action = .origin then some parent else findOrigin fuel parent

def children (node : LineageNode) : List LineageNode :=
  phylogeny.lineages.filter (fun other => node.marketId ∈ other.parentIds)

def label (node : LineageNode) (depth : ℕ) : PhylogenyLabel := ⟨node.marketId, node.publisher, node.action, depth⟩

/-- `build_tree`, as far as the fuel goes. -/
def buildTree (fuel : ℕ) (node : LineageNode) (depth : ℕ) : Option PhylogenyNode :=
  unfold phylogeny.children label fuel node depth

/-- `phylogeny`; none where the fuel does not suffice for the recursions. -/
def phylogenyOf (fuel : ℕ) (leafId : MarketId) : Option (Option PhylogeneticTree) :=
  match phylogeny.get leafId with
  | none => some none
  | some leaf => do
    let root ← phylogeny.findOrigin fuel leaf
    let tree ← phylogeny.buildTree fuel root 0
    return some ⟨tree, phylogeny.lineages.length, maxDepthOf tree, collectAgents tree [], root.publisher, root.timestamp⟩

/-- The walk up the first recorded parents from a node ends at a root: at an origin, or where no parent is recorded. -/
inductive Climbs : LineageNode → LineageNode → Prop
  | top {node : LineageNode} : phylogeny.firstParent node = none → Climbs node node
  | atOrigin {node parent : LineageNode} : phylogeny.firstParent node = some parent → parent.action = .origin →
      Climbs node parent
  | up {node parent root : LineageNode} : phylogeny.firstParent node = some parent → parent.action ≠ .origin →
      Climbs parent root → Climbs node root

def descents (node : LineageNode) : Set (LineageNode × List LineageNode) :=
  {way | Walk phylogeny.children node [] way.1 way.2}

def Acyclic : Prop := ∀ node, ¬ TransGen (Child phylogeny.children) node node

structure Describes (leaf root : LineageNode) (tree : PhylogeneticTree) : Prop where
  recorded : root ∈ phylogeny.lineages
  ancestor : ReflTransGen (Child phylogeny.children) root leaf
  noParent : phylogeny.firstParent root = none
  atRoot : tree.root.labels.head? = some (label root 0)
  descendants : ∀ id, id ∈ tree.root.labels.map (·.entryId) ↔
    ∃ node, ReflTransGen (Child phylogeny.children) root node ∧ node.marketId = id
  totalNodes : tree.totalNodes = tree.root.labels.length
  deepest : tree.maxDepth ∈ tree.root.labels.map (·.depth)
  depth_le : ∀ label ∈ tree.root.labels, label.depth ≤ tree.maxDepth
  agents_nodup : tree.agentsInvolved.Nodup
  agents : ∀ agent, agent ∈ tree.agentsInvolved ↔ agent ∈ tree.root.labels.map (·.publisher)
  origin : tree.originAgent = root.publisher ∧ tree.originTime = root.timestamp

section Climb

variable {phylogeny}

theorem get_eq_some {id : MarketId} (h : phylogeny.get id = some node) :
    node ∈ phylogeny.lineages ∧ node.marketId = id := by
  refine ⟨List.mem_of_find?_eq_some h,?_⟩
  simpa using List.find?_some h

theorem firstParent_eq_some {parent : LineageNode} (h : phylogeny.firstParent node = some parent) :
    parent ∈ phylogeny.lineages ∧ parent.marketId ∈ node.parentIds := by
  obtain ⟨id,hi,hg⟩ := List.exists_of_findSome?_eq_some h
  obtain ⟨hm,rfl⟩ := get_eq_some hg
  exact ⟨hm,hi⟩

theorem Climbs.unique {root' : LineageNode} (h : Climbs phylogeny node root) (h' : Climbs phylogeny node root') :
    root = root' := by
  induction h with
  | top hn =>
    cases h' with
    | top => rfl
    | atOrigin hp => rw [hn] at hp; cases hp
    | up hp => rw [hn] at hp; cases hp
  | atOrigin hp ho =>
    cases h' with
    | top hn => rw [hn] at hp; cases hp
    | atOrigin hp' => rw [hp] at hp'; exact Option.some.inj hp'
    | up hp' ht => rw [hp] at hp'; exact absurd (Option.some.inj hp' ▸ ho) ht
  | up hp ht _ ih =>
    cases h' with
    | top hn => rw [hn] at hp; cases hp
    | atOrigin hp' ho => rw [hp] at hp'; exact absurd (Option.some.inj hp' ▸ ho) ht
    | up hp' _ hc =>
      rw [hp] at hp'
      obtain rfl := Option.some.inj hp'
      exact ih hc

theorem climbs_of_findOrigin (h : phylogeny.findOrigin fuel node = some root) : Climbs phylogeny node root := by
  induction fuel generalizing node with
  | zero => cases h
  | succ fuel ih =>
    rw [findOrigin] at h
    cases hp : phylogeny.firstParent node with
    | none =>
      rw [hp] at h
      obtain rfl := Option.some.inj h
      exact .top hp
    | some parent =>
      rw [hp] at h
      dsimp only at h
      split_ifs at h with ho
      · obtain rfl := Option.some.inj h
        exact .atOrigin hp ho
      · exact .up hp ho (ih h)

theorem findOrigin_of_climbs (h : Climbs phylogeny node root) :
    ∃ enough, ∀ fuel, phylogeny.findOrigin (enough+fuel) node = some root := by
  induction h with
  | top hn => exact ⟨1,fun fuel => by rw [Nat.add_comm,findOrigin,hn]⟩
  | atOrigin hp ho =>
    exact ⟨1,fun fuel => by rw [Nat.add_comm,findOrigin,hp]; exact if_pos ho⟩
  | up hp ht _ ih =>
    obtain ⟨enough,he⟩ := ih
    refine ⟨enough+1,fun fuel => ?_⟩
    rw [Nat.add_right_comm,findOrigin,hp]
    exact (if_neg ht).trans (he fuel)

theorem Climbs.ancestor (h : Climbs phylogeny leaf root) (hl : leaf ∈ phylogeny.lineages) :
    root ∈ phylogeny.lineages ∧ ReflTransGen (Child phylogeny.children) root leaf := by
  have hc : ∀ {node parent : LineageNode}, node ∈ phylogeny.lineages → phylogeny.firstParent node = some parent →
      parent ∈ phylogeny.lineages ∧ Child phylogeny.children parent node := by
    intro node parent hn hp
    obtain ⟨hm,hi⟩ := firstParent_eq_some hp
    exact ⟨hm,List.mem_filter.mpr ⟨hn,by simpa using hi⟩⟩
  induction h with
  | top _ => exact ⟨hl, .refl⟩
  | atOrigin hp _ =>
    obtain ⟨hm,hs⟩ := hc hl hp
    exact ⟨hm, .single hs⟩
  | up hp _ _ ih =>
    obtain ⟨hm,hs⟩ := hc hl hp
    exact ⟨(ih hm).1,(ih hm).2.tail hs⟩

end Climb

section Tree

variable {phylogeny} {depth : ℕ}

mutual
theorem collectAgents_eq (tree : PhylogenyNode) (agents : List AgentId) :
    collectAgents tree agents = SetUnion.union agents (tree.labels.map (·.publisher)) := by
  obtain ⟨label, children⟩ := tree
  rw [collectAgents, collectAgentsOf_eq children]
  rfl

theorem collectAgentsOf_eq (trees : List PhylogenyNode) (agents : List AgentId) :
    collectAgentsOf trees agents = SetUnion.union agents ((labelsAll trees).map (·.publisher)) := by
  cases trees with
  | nil => rfl
  | cons tree trees =>
    rw [collectAgentsOf,collectAgents_eq tree,collectAgentsOf_eq trees,labelsAll,List.map_append]
    exact List.foldl_append.symm
end

theorem maxDepthOfAll_eq (trees : List PhylogenyNode) : maxDepthOfAll trees = (trees.map maxDepthOf).max? := by
  induction trees with
  | nil => rfl
  | cons tree trees ih => rw [maxDepthOfAll,ih,List.map_cons,List.max?_cons]

variable {tree : PhylogenyNode}

theorem maxDepthOf_buildTree (h : phylogeny.buildTree fuel node depth = some tree) :
    depth ≤ maxDepthOf tree ∧ maxDepthOf tree ∈ tree.labels.map (·.depth) ∧
      ∀ label ∈ tree.labels, label.depth ≤ maxDepthOf tree := by
  induction fuel generalizing node depth tree with
  | zero => cases h
  | succ fuel ih =>
    obtain ⟨trees,ht,rfl⟩ := unfold_succ_eq_some_iff.mp h
    have hb : ∀ below ∈ trees, ∃ child, phylogeny.buildTree fuel child (depth+1) = some below := by
      intro below hm
      obtain ⟨child,-,hc⟩ := List.mem_map.mp (ht ▸ List.mem_map_of_mem hm)
      exact ⟨child,hc⟩
    rw [maxDepthOf,maxDepthOfAll_eq,RoseTree.labels,labelsAll_eq_flatMap]
    cases ha : (trees.map maxDepthOf).max? with
    | none =>
      obtain rfl : trees = [] := by simpa using ha
      simp [label]
    | some greatest =>
      obtain ⟨hg,hl⟩ := List.max?_eq_some_iff.mp ha
      obtain ⟨below,hm,rfl⟩ := List.mem_map.mp hg
      obtain ⟨child,hc⟩ := hb below hm
      obtain ⟨hd,hat,-⟩ := ih hc
      rw [Option.getD_some]
      refine ⟨Nat.le_of_succ_le hd,?_,List.forall_mem_cons.mpr ⟨Nat.le_of_succ_le hd,?_⟩⟩
      · rw [List.map_cons,List.map_flatMap]
        exact List.mem_cons_of_mem _ (List.mem_flatMap.mpr ⟨below,hm,hat⟩)
      · intro other ho
        obtain ⟨sibling,hs,ho⟩ := List.mem_flatMap.mp ho
        obtain ⟨child',hc'⟩ := hb sibling hs
        exact ((ih hc').2.2 other ho).trans (hl _ (List.mem_map_of_mem hs))

theorem children_nodup (node : LineageNode) : (phylogeny.children node).Nodup :=
  (phylogeny.distinct.of_map _).filter _

theorem eq_of_marketId {other : LineageNode} (h : node ∈ phylogeny.lineages) (h' : other ∈ phylogeny.lineages)
    (he : node.marketId = other.marketId) : node = other :=
  List.inj_on_of_nodup_map phylogeny.distinct h h' he

theorem buildTree_ends_iff : (∃ fuel tree, phylogeny.buildTree fuel node depth = some tree) ↔
    NoCycleBelow phylogeny.children node := by
  have hn : ∀ node, ∀ child ∈ phylogeny.children node, child ∈ phylogeny.lineages :=
    fun _ _ h => (List.mem_filter.mp h).1
  exact unfold_ends_iff.trans (acc_iff_noCycleBelow hn)

theorem descendants_buildTree (h : phylogeny.buildTree fuel node 0 = some tree) (id : MarketId) :
    id ∈ tree.labels.map (·.entryId) ↔
      ∃ other, ReflTransGen (Child phylogeny.children) node other ∧ other.marketId = id := by
  have hl : tree.labels = _ := @labels_unfold _ _ _ _ node [] fuel tree h
  rw [hl,List.map_map]
  simp only [List.mem_map,mem_rows_iff h,@reachable_iff_walk _ _ node _ []]
  constructor
  · rintro ⟨row,hw,rfl⟩
    exact ⟨row.1,⟨row.2,hw⟩,rfl⟩
  · rintro ⟨other,⟨path,hw⟩,rfl⟩
    exact ⟨(other, path),hw,rfl⟩

theorem labels_buildTree_head (h : phylogeny.buildTree fuel node depth = some tree) :
    tree.labels.head? = some (label node depth) := by
  cases fuel with
  | zero => cases h
  | succ fuel =>
    obtain ⟨trees,-,rfl⟩ := unfold_succ_eq_some_iff.mp h
    rfl

end Tree

section Total

variable {phylogeny} {leafId : MarketId}

theorem phylogenyOf_eq_some {fuel : ℕ} {tree : PhylogeneticTree} (hl : phylogeny.get leafId = some leaf) :
    phylogeny.phylogenyOf fuel leafId = some (some tree) ↔
      ∃ root below, phylogeny.findOrigin fuel leaf = some root ∧ phylogeny.buildTree fuel root 0 = some below ∧
        tree = ⟨below,phylogeny.lineages.length,maxDepthOf below,collectAgents below [],root.publisher,
          root.timestamp⟩ := by
  rw [phylogenyOf,hl]
  simp only [Option.bind_eq_bind,Option.bind_eq_some_iff,Option.pure_def,Option.some.injEq]
  constructor
  · rintro ⟨root,hr,below,hb,ht⟩
    exact ⟨root,below,hr,hb,ht.symm⟩
  · rintro ⟨root,below,hr,hb,ht⟩
    exact ⟨root,hr,below,hb,ht.symm⟩

theorem phylogenyOf_ends_iff (hl : phylogeny.get leafId = some leaf) :
    (∃ fuel result, phylogeny.phylogenyOf fuel leafId = some result) ↔
      ∃ root, Climbs phylogeny leaf root ∧ NoCycleBelow phylogeny.children root := by
  constructor
  · rintro ⟨fuel,result,h⟩
    cases result with
    | none =>
      rw [phylogenyOf,hl] at h
      simp [Option.bind_eq_some_iff] at h
    | some tree =>
      obtain ⟨root,below,hr,hb,-⟩ := (phylogenyOf_eq_some hl).mp h
      exact ⟨root,climbs_of_findOrigin hr,buildTree_ends_iff.mp ⟨fuel,below,hb⟩⟩
  · rintro ⟨root,hc,hy⟩
    obtain ⟨enough,he⟩ := findOrigin_of_climbs hc
    obtain ⟨fuel,below,hb⟩ := (@buildTree_ends_iff _ _ 0).mpr hy
    exact ⟨enough+fuel,_,(phylogenyOf_eq_some hl).mpr
      ⟨root,below,he fuel,unfold_mono (Nat.le_add_left _ _) hb,rfl⟩⟩

theorem describes_iff {fuel : ℕ} {tree : PhylogeneticTree} (hl : phylogeny.get leafId = some leaf)
    (hc : Climbs phylogeny leaf root) (h : phylogeny.phylogenyOf fuel leafId = some (some tree)) :
    (∃ leaf root, phylogeny.get leafId = some leaf ∧ Describes phylogeny leaf root tree) ↔
      phylogeny.firstParent root = none ∧ (phylogeny.descents root).ncard = phylogeny.lineages.length := by
  obtain ⟨root',below,ho,hb,rfl⟩ := (phylogenyOf_eq_some hl).mp h
  obtain rfl := hc.unique (climbs_of_findOrigin ho)
  obtain ⟨hr,ha⟩ := hc.ancestor (get_eq_some hl).1
  have hn : (phylogeny.descents root).ncard = below.labels.length :=
    @ncard_walks _ _ _ label root [] fuel below children_nodup hb
  constructor
  · rintro ⟨leaf',root',-,hd⟩
    have hh : some (label root 0) = some (label root' 0) := (labels_buildTree_head hb).symm.trans hd.atRoot
    have hs : root = root' := eq_of_marketId hr hd.recorded (congrArg (·.entryId) (Option.some.inj hh))
    exact ⟨hs ▸ hd.noParent,hn.trans hd.totalNodes.symm⟩
  · rintro ⟨hP,ht⟩
    obtain ⟨-,he,hle⟩ := maxDepthOf_buildTree hb
    exact ⟨leaf,root,hl,{
      recorded := hr
      ancestor := ha
      noParent := hP
      atRoot := labels_buildTree_head hb
      descendants := descendants_buildTree hb
      totalNodes := ht.symm.trans hn
      deepest := he
      depth_le := hle
      agents_nodup := by
        rw [collectAgents_eq,SetUnion.union_eq_append,List.nil_append]
        exact SetUnion.nodup_added _ _
      agents := fun agent => by simp [collectAgents_eq]
      origin := ⟨rfl,rfl⟩ }⟩

end Total

/-- Phylogeny returns exactly if the walk up from the leaf ends and no cycle lies below its end. On acyclic lineages what it
returns describes the lineage exactly if that end has no recorded parent and every recorded node counts for one walk from it. -/
theorem phylogeny_describes_iff (leafId : MarketId) :
    ((∃ fuel result, phylogeny.phylogenyOf fuel leafId = some result) ∧
      (Acyclic phylogeny → ∀ fuel tree, phylogeny.phylogenyOf fuel leafId = some (some tree) →
        ∃ leaf root, phylogeny.get leafId = some leaf ∧ Describes phylogeny leaf root tree)) ↔
      phylogeny.get leafId = none ∨ ∃ leaf root, phylogeny.get leafId = some leaf ∧ Climbs phylogeny leaf root ∧
        NoCycleBelow phylogeny.children root ∧
        (Acyclic phylogeny → phylogeny.firstParent root = none ∧
          (phylogeny.descents root).ncard = phylogeny.lineages.length) := by
  cases hl : phylogeny.get leafId with
  | none =>
    refine iff_of_true ⟨⟨0, none, by rw [phylogenyOf, hl]⟩, fun _ fuel tree h => ?_⟩ (.inl rfl)
    rw [phylogenyOf, hl] at h
    cases h
  | some leaf =>
    rw [phylogenyOf_ends_iff hl]
    constructor
    · rintro ⟨⟨root, hc, hy⟩, hd⟩
      refine .inr ⟨leaf, root, rfl, hc, hy, fun ha => ?_⟩
      obtain ⟨fuel, result, h⟩ := (phylogenyOf_ends_iff hl).mpr ⟨root, hc, hy⟩
      cases result with
      | none =>
        rw [phylogenyOf, hl] at h
        simp [Option.bind_eq_some_iff] at h
      | some tree =>
        obtain ⟨leaf', root', hl', hd⟩ := hd ha fuel tree h
        exact (describes_iff hl hc h).mp ⟨leaf', root', hl.trans hl', hd⟩
    · rintro (hn | ⟨leaf', root, hl', hc, hy, hd⟩)
      · cases hn
      · obtain rfl := Option.some.inj hl'
        refine ⟨⟨root, hc, hy⟩, fun ha fuel tree h => ?_⟩
        obtain ⟨leaf', root', hl', hd⟩ := (describes_iff hl hc h).mpr (hd ha)
        exact ⟨leaf', root', hl.symm.trans hl', hd⟩

def culled : LineageNode := ⟨1, "publisher", .deprecated, [1], 0⟩

/-- The walk up from it never ends. -/
theorem culled_never_ends : ¬ ∃ fuel result, (new.record culled).phylogenyOf fuel 1 = some result := by
  have hl : (new.record culled).get 1 = some culled := by decide
  have ht : (new.record culled).firstParent culled = some culled := by decide
  have hc : ∀ {node root : LineageNode}, Climbs (new.record culled) node root → node ≠ culled := by
    intro node root h
    induction h with
    | top hn =>
      rintro rfl
      exact absurd hn (by decide)
    | atOrigin hp ho =>
      rintro rfl
      obtain rfl := Option.some.inj (ht.symm.trans hp)
      exact absurd ho (by decide)
    | up hp _ _ ih =>
      rintro rfl
      exact ih (Option.some.inj (hp.symm.trans ht))
  rw [phylogenyOf_ends_iff hl]
  rintro ⟨root, h, -⟩
  exact hc h rfl

end CrossAgentPhylogeny

end UwuContextDb.Marketplace
