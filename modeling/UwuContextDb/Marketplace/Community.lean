import Mathlib.Data.List.Destutter
import Std.Data.ExtTreeSet.Lemmas
import UwuContextDb.Core.WriteSecurity
import UwuContextDb.Library.Upsert
import UwuContextDb.Marketplace.Entries

/-! `CommunityDetector`: agents that publish in the same domains are neighbours, and a community is a group of agents
with one label after label propagation. -/

namespace UwuContextDb.Marketplace

open Upsert (upsert upsertAll)

abbrev NameMap (V : Type) := Std.ExtTreeMap String V compare

/-- The places of a detection that iterate over a `HashMap` or a `HashSet`. -/
inductive HashSite
  | agents
  | shared (left right : AgentId)
  | leftCounts (left right : AgentId)
  | rightCounts (left right : AgentId)
  | neighbors (round : ℕ) (agent : AgentId)
  | labelScores (round : ℕ) (agent : AgentId)
  | grouped
  | memberDomains (label member : AgentId)
  | domainScores (label : AgentId)
  | bridged
  | entryIds (domain : String) (idx : ℕ)

structure HashRun where
  order : {α : Type} → HashSite → List α → List α
  perm : ∀ {α : Type} (site : HashSite) (items : List α), (order site items).Perm items

def HashRun.asSorted : HashRun := ⟨fun _ items => items, fun _ items => .refl items⟩

/-- `sort` and then `dedup`. -/
def sortDedup {α : Type} [LinearOrder α] (items : List α) : List α := (items.insertionSort (· ≤ ·)).destutter (· ≠ ·)

def RanksBefore {α : Type} (count : α → ℕ) (name : α → String) (a b : α) : Prop :=
  count b < count a ∨ count b = count a ∧ name a ≤ name b

instance RanksBefore.decidable {α : Type} (count : α → ℕ) (name : α → String) : DecidableRel (RanksBefore count name) :=
  fun _ _ => inferInstanceAs (Decidable (_ ∨ _))

structure Community where
  id : String
  agents : List AgentId
  domains : List String
  entryCount : ℕ
  density : ℚ
  bridgeEntries : List MarketId
  deriving DecidableEq

structure CommunityConfig where
  minAgents : ℕ
  maxLabelIterations : ℕ

def CommunityConfig.default : CommunityConfig := ⟨2, 16⟩

def CommunityConfig.validate (config : CommunityConfig) : Except String Unit :=
  if config.minAgents < 2 then .error "min_agents must be at least 2"
  else if config.maxLabelIterations = 0 then .error "max_label_iterations must be non-zero"
  else .ok ()

/-- `CommunityDetector`; `new` checks the configuration. -/
structure CommunityDetector where
  config : CommunityConfig
  valid : config.validate = .ok ()

section Graph

variable {F : Type}

def agentDomains (entries : List (MarketEntry F)) : NameMap (NameMap ℕ) :=
  upsertAll (upsert (fun count _ => count + 1) 0) ∅ ∅ (entries.map (fun entry => (entry.publisher, (entry.domain, ()))))

def domainEntries (entries : List (MarketEntry F)) : NameMap (Std.ExtTreeSet MarketId compare) :=
  upsertAll (fun ids id => ids.insert id) ∅ ∅ (entries.map (fun entry => (entry.domain, entry.id)))

def clampUnit (x : ℚ) : ℚ := max 0 (min 1 x)

/-- `shared_domain_weight` of the domains of two agents. -/
def sharedDomainWeight (hash : HashRun) (left right : AgentId) (leftDomains rightDomains : NameMap ℕ) : ℚ :=
  let shared : ℕ := ((hash.order (.shared left right) leftDomains.toList).filterMap (fun row =>
    rightDomains[row.1]?.map (min row.2))).sum
  let total : ℕ := ((hash.order (.leftCounts left right) leftDomains.toList).map (·.2)).sum +
    ((hash.order (.rightCounts left right) rightDomains.toList).map (·.2)).sum
  if total = 0 then 0 else clampUnit (2 * shared / total)

def pairs {α : Type} : List α → List (α × α)
  | [] => []
  | left::rest => rest.map (fun right => (left, right)) ++ pairs rest

def edgesOf (hash : HashRun) (domains : NameMap (NameMap ℕ)) (pair : AgentId × AgentId) : List (AgentId × AgentId × ℚ) :=
  let weight := sharedDomainWeight hash pair.1 pair.2 (domains.getD pair.1 ∅) (domains.getD pair.2 ∅)
  if weight ≤ 0 then [] else [(pair.1, pair.2, weight), (pair.2, pair.1, weight)]

def edges (hash : HashRun) (domains : NameMap (NameMap ℕ)) (agents : List AgentId) : NameMap (NameMap ℚ) :=
  Upsert.nested 0 ((pairs agents).flatMap (edgesOf hash domains))

end Graph

section Labels

/-- The label of the greatest score, of several the least: what `max_by` finds. -/
def bestLabel : List (AgentId × ℚ) → Option (AgentId × ℚ)
  | [] => none
  | first::rest => some (rest.foldl (fun best row =>
      if row.2 < best.2 ∨ row.2 = best.2 ∧ best.1 < row.1 then best else row) first)

variable (hash : HashRun) (edges : NameMap (NameMap ℚ))

def labelScores (round : ℕ) (labels : NameMap AgentId) (agent : AgentId) (neighbors : NameMap ℚ) : NameMap ℚ :=
  upsertAll (· + ·) 0 ∅ ((hash.order (.neighbors round agent) neighbors.toList).map (fun row =>
    (labels.getD row.1 row.1, row.2)))

def visit (round : ℕ) (state : NameMap AgentId × Bool) (agent : AgentId) : NameMap AgentId × Bool :=
  match edges[agent]? with
  | none => state
  | some neighbors =>
    match bestLabel (hash.order (.labelScores round agent) (labelScores hash round state.1 agent neighbors).toList) with
    | none => state
    | some (best, _) => if state.1[agent]? = some best then state else (state.1.insert agent best, true)

def propagate (agents : List AgentId) : ℕ → ℕ → NameMap AgentId → NameMap AgentId
  | 0, _, labels => labels
  | left + 1, round, labels =>
    let (labels, changed) := (agents.insertionSort (· ≤ ·)).foldl (visit hash edges round) (labels, false)
    if changed then propagate agents left (round + 1) labels else labels

def ownLabels (agents : List AgentId) : NameMap AgentId :=
  upsertAll (fun _ label => label) "" ∅ (agents.map (fun agent => (agent, agent)))

end Labels

section Groups

variable {F : Type}

def sanitizeDomainSegment (value : String) : String :=
  let out := WriteSecurity.trimMatches (· == '-') (value.toList.map (fun c =>
    if c.isAlphanum || c == '-' || c == '_' then c.toLower else '-'))
  if out.isEmpty then "agent" else String.ofList out

def grouped (labels : NameMap AgentId) (agents : List AgentId) : NameMap (List AgentId) :=
  upsertAll (fun members agent => members ++ [agent]) [] ∅ (agents.map (fun agent => (labels.getD agent agent, agent)))

def communityInternalWeight (members : List AgentId) (edges : NameMap (NameMap ℚ)) : ℚ :=
  ((pairs members).map (fun pair => ((edges[pair.1]?.bind (fun neighbors => neighbors[pair.2]?)).getD 0))).sum

variable (hash : HashRun) (minAgents : ℕ) (entries : List (MarketEntry F)) (edges : NameMap (NameMap ℚ))

def domainScores (domains : NameMap (NameMap ℕ)) (label : AgentId) (members : List AgentId) : NameMap ℕ :=
  upsertAll (· + ·) 0 ∅ (members.flatMap (fun member =>
    hash.order (.memberDomains label member) (domains.getD member ∅).toList))

def communityOf (group : AgentId × List AgentId) : Option Community :=
  let members := sortDedup group.2
  if members.length < minAgents then none
  else
    let scores := domainScores hash (agentDomains entries) group.1 members
    let domains := ((hash.order (.domainScores group.1) scores.toList).insertionSort (RanksBefore (·.2) (·.1))).map (·.1)
    let entryCount := entries.countP (fun entry => entry.publisher ∈ members ∧ entry.domain ∈ domains)
    let maxEdges := members.length * (members.length - 1) / 2
    let density := if maxEdges = 0 then 0 else clampUnit (communityInternalWeight members edges / maxEdges)
    some ⟨"community-" ++ sanitizeDomainSegment group.1, members, domains, entryCount, density, []⟩

end Groups

def domainToCommunities (communities : List Community) : NameMap (List ℕ) :=
  upsertAll (fun idxs idx => idxs ++ [idx]) [] ∅ (communities.zipIdx.flatMap (fun row =>
    row.1.domains.map (fun domain => (domain, row.2))))

def Community.addBridges (community : Community) (entryIds : List MarketId) : Community :=
  { community with bridgeEntries := sortDedup (community.bridgeEntries ++ entryIds) }

def bridge (hash : HashRun) (domainEntries : NameMap (Std.ExtTreeSet MarketId compare)) (communities : List Community)
    (row : String × List ℕ) : List Community :=
  if row.2.length < 2 then communities
  else
    match domainEntries[row.1]? with
    | none => communities
    | some entryIds => row.2.foldl (fun communities idx =>
        communities.modify idx (·.addBridges (hash.order (.entryIds row.1 idx) entryIds.toList))) communities

def CommunityDetector.detect {F : Type} (detector : CommunityDetector) (hash : HashRun) (entries : List (MarketEntry F)) :
    List Community :=
  let domains := agentDomains entries
  if domains.size < detector.config.minAgents then []
  else
    let agents := hash.order .agents domains.keys
    let edges := edges hash domains agents
    let labels := propagate hash edges agents detector.config.maxLabelIterations 0 (ownLabels agents)
    let communities := (hash.order .grouped (grouped labels agents).toList).filterMap
      (communityOf hash detector.config.minAgents entries edges)
    let communities := (hash.order .bridged (domainToCommunities communities).toList).foldl
      (bridge hash (domainEntries entries)) communities
    communities.insertionSort (RanksBefore (·.entryCount) (·.id))

end UwuContextDb.Marketplace
