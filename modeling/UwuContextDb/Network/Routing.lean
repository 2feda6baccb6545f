import Mathlib.Data.List.Sort
import Mathlib.Data.String.Basic
import UwuContextDb.Network.Charges

/-! From a query to the peers it is sent to: options, governance, grants, trust routing, route learning and planning. -/

namespace UwuContextDb.Network

open KnowledgeNetworkError

inductive FederatedQueryIntent
  | fastLookup | highPrecision | highRecall | privacyCritical | crossDomainSynthesis | trainingCandidate | corroborationCheck
  deriving DecidableEq

inductive FederationReturnMode | fastPartial | balanced | exhaustive deriving DecidableEq

structure DiscoveryQuery (K : Type) where
  domains : List String
  minQuality : K
  licenseCompatible : Bool

structure MeshDiscoveryOpts where
  intent : FederatedQueryIntent
  returnMode : FederationReturnMode
  maxPeers : ℕ
  probePeers : ℕ
  fetchPeers : ℕ
  finalTopK : ℕ
  deadlineMs : ℕ
  peerTimeoutMs : ℕ
  maxConcurrency : ℕ

def MeshDiscoveryOpts.validate (opts : MeshDiscoveryOpts) : Except KnowledgeNetworkError Unit :=
  if opts.maxPeers = 0 then .error (planner "max_peers must be greater than zero")
  else if opts.probePeers = 0 ∨ opts.fetchPeers = 0 then
    .error (planner "probe_peers and fetch_peers must be greater than zero")
  else if opts.maxPeers < opts.probePeers ∨ opts.maxPeers < opts.fetchPeers then
    .error (planner "probe_peers and fetch_peers must not exceed max_peers")
  else if opts.finalTopK = 0 then .error (planner "final_top_k must be greater than zero")
  else if opts.deadlineMs = 0 ∨ opts.peerTimeoutMs = 0 then
    .error (planner "deadline_ms and peer_timeout_ms must be greater than zero")
  else if opts.deadlineMs < opts.peerTimeoutMs then .error (planner "peer_timeout_ms must not exceed deadline_ms")
  else if opts.maxConcurrency = 0 ∨ opts.maxPeers < opts.maxConcurrency then
    .error (planner "max_concurrency must be between 1 and max_peers")
  else .ok ()

structure QueryIntentClassifier (K : Type) where
  privacyDomainThreshold : ℕ
  highRecallDomainThreshold : ℕ
  highPrecisionQualityThreshold : K

section Options

variable {K : Type} [Field K] [LinearOrder K]

def QueryIntentClassifier.classify (classifier : QueryIntentClassifier K) (query : DiscoveryQuery K) :
    FederatedQueryIntent → FederatedQueryIntent
  | .privacyCritical => .privacyCritical
  | .trainingCandidate => .trainingCandidate
  | .corroborationCheck => .corroborationCheck
  | .crossDomainSynthesis => .crossDomainSynthesis
  | requested =>
    if query.licenseCompatible ∧ query.domains.length ≤ classifier.privacyDomainThreshold ∧ 9 / 10 ≤ query.minQuality then
      .privacyCritical
    else if classifier.highRecallDomainThreshold ≤ query.domains.length then .crossDomainSynthesis
    else if classifier.highPrecisionQualityThreshold ≤ query.minQuality then .highPrecision
    else requested

def QueryIntentClassifier.tuneOpts (classifier : QueryIntentClassifier K) (query : DiscoveryQuery K)
    (opts : MeshDiscoveryOpts) :
    MeshDiscoveryOpts :=
  let intent := classifier.classify query opts.intent
  let opts := { opts with intent := intent }
  match intent with
  | .fastLookup =>
    { opts with returnMode := .fastPartial, probePeers := max opts.probePeers 3, fetchPeers := max opts.fetchPeers 2 }
  | .highPrecision | .privacyCritical =>
    { opts with returnMode := .balanced, probePeers := max opts.probePeers 5, fetchPeers := max opts.fetchPeers 3 }
  | .highRecall | .crossDomainSynthesis =>
    { opts with
      returnMode := .exhaustive
      maxPeers := max opts.maxPeers 24
      probePeers := max opts.probePeers 12
      fetchPeers := max opts.fetchPeers 8 }
  | .trainingCandidate | .corroborationCheck =>
    { opts with
      returnMode := .balanced
      maxPeers := max opts.maxPeers 16
      probePeers := max opts.probePeers 8
      fetchPeers := max opts.fetchPeers 5 }

end Options

structure GovernancePolicy (K : Type) where
  minQueryQuality : K
  requireLicenseCompatibility : Bool
  requireKAnonymityForPrivateQueries : Bool
  maxFetchPeers : ℕ
  allowTrainingCandidates : Bool
  maxQueriesPerWindow : ℕ
  quotaWindow : ℕ
  maxConcurrentQueries : ℕ
  maxTrackedActors : ℕ

structure QuotaState where
  windowStarted : ℕ
  accepted : ℕ
  inFlight : ℕ

abbrev Quotas := List (AgentId × QuotaState)

namespace GovernancePolicy

variable {K : Type} [Field K] [LinearOrder K] (policy : GovernancePolicy K)

def validate : Except KnowledgeNetworkError Unit :=
  if policy.maxFetchPeers = 0 ∨ policy.maxQueriesPerWindow = 0 ∨ policy.quotaWindow = 0 ∨ policy.maxConcurrentQueries = 0 ∨
      policy.maxTrackedActors = 0 then
    .error (policyDenied "governance quotas and fanout limits must be positive")
  else .ok ()

/-- `HashMap::insert`. -/
def setQuota (quotas : Quotas) (actor : AgentId) (state : QuotaState) : Quotas :=
  (actor, state) :: quotas.filter (fun quota => quota.1 ≠ actor)

/-- `GovernanceEngine::acquire_query`; the map keeps what it did also where the query is refused. -/
def acquireQuery (quotas : Quotas) (actor : AgentId) (now : ℕ) : Except KnowledgeNetworkError Unit × Quotas :=
  match policy.validate with
  | .error error => (.error error, quotas)
  | .ok () =>
    let quotas := quotas.filter (fun quota => 0 < quota.2.inFlight ∨ now - quota.2.windowStarted < policy.quotaWindow)
    if (quotas.lookup actor).isNone ∧ policy.maxTrackedActors ≤ quotas.length then
      (.error (policyDenied "federation actor quota capacity exhausted"), quotas)
    else
      let state := (quotas.lookup actor).getD ⟨now, 0, 0⟩
      let state := if policy.quotaWindow ≤
        now - state.windowStarted then { state with windowStarted := now, accepted := 0 } else state
      if policy.maxQueriesPerWindow ≤ state.accepted then
        (.error (policyDenied "federation query rate quota exhausted"), setQuota quotas actor state)
      else if policy.maxConcurrentQueries ≤ state.inFlight then
        (.error (policyDenied "federation concurrent query quota exhausted"), setQuota quotas actor state)
      else (.ok (), setQuota quotas actor { state with accepted := state.accepted + 1, inFlight := state.inFlight + 1 })

/-- The drop of a `QueryPermit`. -/
def dropPermit (quotas : Quotas) (actor : AgentId) : Quotas :=
  quotas.map (fun quota => if quota.1 = actor then (actor, { quota.2 with inFlight := quota.2.inFlight - 1 }) else quota)

def authorizeQuery (actor : AgentId) (query : DiscoveryQuery K) (intent : FederatedQueryIntent) (dp : DpPolicy K) :
    Except KnowledgeNetworkError Unit :=
  if actor.isEmpty then .error (policyDenied "anonymous federation actor")
  else if query.minQuality < policy.minQueryQuality then
    .error (policyDenied "query quality threshold below governance policy")
  else if policy.requireLicenseCompatibility ∧ !query.licenseCompatible then
    .error (policyDenied "license-compatible discovery required")
  else if policy.requireKAnonymityForPrivateQueries ∧ intent = .privacyCritical ∧ dp.minKAnonymity < 2 then
    .error (policyDenied "privacy-critical query requires k-anonymity")
  else if intent = .trainingCandidate ∧ !policy.allowTrainingCandidates then
    .error (policyDenied "training candidate discovery disabled")
  else .ok ()

end GovernancePolicy

structure AccessGrant (K : Type) where
  subject : AgentId
  domains : List String
  maxEpsilon : K
  expiresAt : DateTime

section Grants

variable {K : Type} [Field K] [LinearOrder K]

/-- `AccessGrant::allows`, of an ε that is a number. -/
def AccessGrant.allows (grant : AccessGrant K) (subject : AgentId) (domains : List String) (epsilon : K)
    (now : DateTime) : Bool :=
  !grant.domains.isEmpty && !domains.isEmpty && grant.subject == subject && decide (now < grant.expiresAt) &&
    decide (0 ≤ epsilon) && decide (epsilon ≤ grant.maxEpsilon) && domains.all (fun d => grant.domains.contains d)

/-- `AccessGrantManager::authorize`. -/
def authorizeAccess (grants : List (AccessGrant K)) (subject : AgentId) (domains : List String)
    (epsilon : K) (now : DateTime) :
    Except KnowledgeNetworkError Unit :=
  if domains.isEmpty then .error (policyDenied "empty domain scope is not authorized")
  else if grants.any (fun grant => grant.allows subject domains epsilon now) then .ok ()
  else .error (policyDenied "no active access grant for requested domains")

end Grants

structure PeerCandidate (K : Type) where
  peer : AgentId
  capabilityMatch : K
  reputationHint : K

inductive BondLevel | observer | contributor | validator | authority deriving DecidableEq

def BondLevel.rank : BondLevel → ℕ
  | .observer => 0
  | .contributor => 1
  | .validator => 2
  | .authority => 3

structure PeerTrustProfile (K : Type) where
  bondLevel : BondLevel
  reputation : K
  latencyScore : K
  failureRate : K

structure TrustRouter (K : Type) where
  minReputation : K
  minBondLevel : BondLevel
  profiles : List (AgentId × PeerTrustProfile K)
  blacklist : List AgentId

structure PeerRouteScore (K : Type) where
  peer : AgentId
  capabilityMatch : K
  trust : K
  reputation : K
  latencyScore : K
  budgetScore : K
  diversityScore : K
  finalScore : K

structure RouteLearningState (K : Type) where
  attempts : ℕ
  successes : ℕ
  avgLatencyMs : K
  avgHitCount : K
  avgScore : K
  lastSeenAt : Option DateTime

structure RouteOutcome (K : Type) where
  peer : AgentId
  success : Bool
  latencyMs : ℕ
  hitCount : ℕ
  avgScore : K
  observedAt : DateTime

abbrev RouteOutcomeLearning (K : Type) := List (AgentId × RouteLearningState K)

section Routes

variable {K : Type} [Field K] [LinearOrder K]

/-- `f32::clamp` to the unit interval. -/
def clampUnit (x : K) : K := min (max x 0) 1

def boostCandidates (domainEdges : List (String × List AgentId)) (domains : List String)
    (candidates : List (PeerCandidate K)) :
    List (PeerCandidate K) :=
  let semanticPeers := domains.flatMap (fun domain => (domainEdges.lookup domain).getD [])
  candidates.map (fun candidate =>
    if candidate.peer ∈ semanticPeers then
      { candidate with capabilityMatch := clampUnit (candidate.capabilityMatch + 3 / 25) }
    else candidate)

def hasKAnonymity (peerCount : ℕ) (policy : DpPolicy K) : Bool :=
  !policy.enabled || decide (max policy.minKAnonymity 1 ≤ peerCount)

namespace TrustRouter

variable (router : TrustRouter K)

def profileOf (candidate : PeerCandidate K) : PeerTrustProfile K :=
  (router.profiles.lookup candidate.peer).getD ⟨.observer, candidate.reputationHint, 1 / 2, 0⟩

/-- What both filters of `route` let through. -/
def admits (candidate : PeerCandidate K) : Bool :=
  !router.blacklist.contains candidate.peer && !(decide ((router.profileOf candidate).reputation < router.minReputation) ||
    decide ((router.profileOf candidate).bondLevel.rank < router.minBondLevel.rank))

def scoreOf (candidate : PeerCandidate K) : PeerRouteScore K :=
  let profile := router.profileOf candidate
  let trust := match profile.bondLevel with
    | .observer => 7 / 20
    | .contributor => 11 / 20
    | .validator => 4 / 5
    | .authority => 1
  let finalScore := candidate.capabilityMatch * (3 / 10) + trust * (1 / 5) + profile.reputation * (3 / 20) +
    profile.latencyScore * (3 / 20) + 1 * (1 / 10) + 3 / 4 * (1 / 10) - profile.failureRate * (1 / 5)
  ⟨candidate.peer, candidate.capabilityMatch, trust, profile.reputation, profile.latencyScore, 1, 3 / 4,
    clampUnit finalScore⟩

/-- `sort_by` the final score, the greatest first; it is stable. -/
def sortScores (scores : List (PeerRouteScore K)) : List (PeerRouteScore K) :=
  scores.insertionSort (fun a b => b.finalScore ≤ a.finalScore)

def route (candidates : List (PeerCandidate K)) (limit : ℕ) : List (PeerRouteScore K) :=
  (sortScores ((candidates.filter router.admits).map router.scoreOf)).take limit

end TrustRouter

namespace RouteLearningState

def initial : RouteLearningState K := ⟨0, 0, 0, 0, 0, none⟩

def reliability (state : RouteLearningState K) : K :=
  if state.attempts = 0 then 1 / 2 else clampUnit (state.successes / state.attempts)

def utility (state : RouteLearningState K) : K :=
  let latency := clampUnit (1 - state.avgLatencyMs / 2000)
  let yieldScore := clampUnit (state.avgHitCount / 10)
  clampUnit (state.reliability * (7 / 20) + latency * (1 / 4) + yieldScore * (1 / 5) + state.avgScore * (1 / 5))

end RouteLearningState

namespace RouteOutcomeLearning

def record (learning : RouteOutcomeLearning K) (outcome : RouteOutcome K) : RouteOutcomeLearning K :=
  let state := (learning.lookup outcome.peer).getD .initial
  let attempts := state.attempts + 1
  let state : RouteLearningState K := ⟨attempts, if outcome.success then state.successes + 1 else state.successes,
    state.avgLatencyMs + (outcome.latencyMs - state.avgLatencyMs) / attempts,
    state.avgHitCount + (outcome.hitCount - state.avgHitCount) / attempts,
    state.avgScore + (outcome.avgScore - state.avgScore) / attempts, some outcome.observedAt⟩
  (outcome.peer, state) :: learning.filter (fun known => known.1 ≠ outcome.peer)

def routeBonus (learning : RouteOutcomeLearning K) (peer : AgentId) : K :=
  ((learning.lookup peer).map (fun state => (state.utility - 1 / 2) * (9 / 50))).getD 0

end RouteOutcomeLearning

def bonusOrder (learning : RouteOutcomeLearning K) (scores : List (PeerRouteScore K)) : List (PeerRouteScore K) :=
  TrustRouter.sortScores (scores.map (fun score =>
    { score with finalScore := clampUnit (score.finalScore + learning.routeBonus score.peer) }))

structure MeshQueryPlan (K : Type) where
  probePeers : List AgentId
  fetchPeers : List AgentId
  deadlineMs : ℕ
  topKPerPeer : ℕ
  finalTopK : ℕ
  privacyCost : PrivacyCost K

structure PlanningContext (K : Type) where
  opts : MeshDiscoveryOpts
  routeScores : List (PeerRouteScore K)
  dpPolicy : DpPolicy K

/-- `DefaultMeshQueryPlanner::plan`. -/
def defaultPlan (floats : Floats K) (ctx : PlanningContext K) : MeshQueryPlan K :=
  ⟨(ctx.routeScores.take ctx.opts.probePeers).map (·.peer), (ctx.routeScores.take ctx.opts.fetchPeers).map (·.peer),
    ctx.opts.deadlineMs, max (ctx.opts.finalTopK / max ctx.opts.fetchPeers 1) 1, ctx.opts.finalTopK,
    .forQuery floats ctx.dpPolicy⟩

def GovernancePolicy.authorizePlan (policy : GovernancePolicy K) (plan : MeshQueryPlan K) :
    Except KnowledgeNetworkError Unit :=
  if policy.maxFetchPeers < plan.fetchPeers.length then .error (policyDenied "fetch peer fanout exceeds governance policy")
  else .ok ()

/-- `TopologyOptimizer::peer_score`, with its `learning_weight`. -/
def peerScore (learningWeight : K) (intent : FederatedQueryIntent) (learning : RouteOutcomeLearning K)
    (peer : AgentId) : K :=
  let intentBonus : K := match intent with
    | .fastLookup => 1 / 25
    | .highPrecision => 3 / 50
    | .highRecall | .crossDomainSynthesis => 1 / 50
    | .privacyCritical => 2 / 25
    | .trainingCandidate | .corroborationCheck => 1 / 20
  clampUnit (1 / 2 + learning.routeBonus peer * learningWeight + intentBonus)

/-- `TopologyOptimizer::optimize_peer_order`: each peer once, the best first, and by name where two are as good. -/
def optimizePeerOrder (learningWeight : K) (intent : FederatedQueryIntent) (learning : RouteOutcomeLearning K)
    (peers : List AgentId) : List AgentId :=
  let score := peerScore learningWeight intent learning
  peers.eraseDups.insertionSort (fun a b => score b < score a ∨ (score a = score b ∧ a.toList ≤ b.toList))

end Routes

end UwuContextDb.Network
