import UwuContextDb.Network.Routing

/-! `FederatedKnowledgeFabric::discover`: one federated query, from its reservation to its settlement. -/

namespace UwuContextDb.Network

open KnowledgeNetworkError

inductive Timely (α : Type)
  | elapsed
  | done (value : α)

abbrev Answer (α : Type) := Timely (Except KnowledgeNetworkError α)

structure ProbeResponse (K : Type) where
  noisyMatchCount : ℕ
  noisyMaxScore : K

structure FederatedDiscoveryHit (K : Type) where
  publicationId : Uuid
  domain : String
  qualityScore : K
  derivativeAllowed : Bool
  relevance : K
  reputationBonus : K
  corroborationBonus : K
  lineageIndependence : K
  noisyScore : K
  finalScore : K
  sourcePeer : Option AgentId

structure CorroborationRecord where
  sources : List AgentId
  independentDomains : List String
  contradictions : ℕ

/-- `CorroborationGraph`, by the publication. -/
abbrev CorroborationGraph := List (Uuid × CorroborationRecord)

section Calls

variable {α : Type}

/-- What becomes of one call: which of the calls under way ends next, how long it took, what the limiter and the peer
gave before the peer's deadline, and whether the deadline of the whole query has passed by then. -/
structure Arrival (α : Type) where
  slot : ℕ
  elapsedMs : ℕ
  permit : Answer Unit
  answer : Answer α
  late : Bool

structure Schedule (α : Type) where
  arrivals : ℕ → Arrival α
  reached : AgentId → Bool

/-- A call that has ended. `handed` tells whether the transport was given the sketch. -/
structure Ended (α : Type) where
  peer : AgentId
  elapsedMs : ℕ
  handed : Bool
  result : Answer α

/-- The future of one call; `limits` are the peers that the concurrency limits know. -/
def callPeer (limits : Option (List AgentId)) (peer : AgentId) (arrival : Arrival α) : Ended α :=
  match limits with
  | none => ⟨peer, arrival.elapsedMs, true, arrival.answer⟩
  | some known =>
    if peer ∉ known then
      ⟨peer, arrival.elapsedMs, false, .done (.error (policyDenied s!"peer {peer} is absent from topology limits"))⟩
    else
      match arrival.permit with
      | .elapsed => ⟨peer, arrival.elapsedMs, false, .elapsed⟩
      | .done (.error error) => ⟨peer, arrival.elapsedMs, false, .done (.error error)⟩
      | .done (.ok ()) => ⟨peer, arrival.elapsedMs, true, arrival.answer⟩

structure Gathered (α : Type) where
  ended : List (Ended α)
  left : List AgentId

/-- The loop over `buffer_unordered`: at most `concurrency` calls are under way. Every round ends one, so the number of
peers is fuel enough. -/
def gatherFrom (concurrency : ℕ) (limits : Option (List AgentId)) (schedule : Schedule α) :
    ℕ → ℕ → List AgentId → List AgentId → Gathered α
  | 0, _, _, underWay => ⟨[], underWay⟩
  | fuel + 1, round, waiting, underWay =>
    let room := concurrency - underWay.length
    match underWay ++ waiting.take room with
    | [] => ⟨[], []⟩
    | first::others =>
      let arrival := schedule.arrivals round
      let slot := arrival.slot % (others.length + 1)
      let ended := callPeer limits ((first::others).getD slot first) arrival
      let underWay := (first::others).eraseIdx slot
      if arrival.late then ⟨[ended], underWay⟩ else
        let rest := gatherFrom concurrency limits schedule fuel (round + 1) (waiting.drop room) underWay
        ⟨ended::rest.ended, rest.left⟩

def gather (concurrency : ℕ) (limits : Option (List AgentId)) (schedule : Schedule α) (peers : List AgentId) : Gathered α :=
  gatherFrom concurrency limits schedule peers.length 0 peers []

def Gathered.handed (limits : Option (List AgentId)) (schedule : Schedule α) (gathered : Gathered α) : List AgentId :=
  (gathered.ended.filter (·.handed)).map (·.peer) ++
    gathered.left.filter (fun peer => schedule.reached peer && limits.all (·.contains peer))

def countFailed (ended : List (Ended α)) : ℕ :=
  ended.countP (fun call => match call.result with
    | .done (.error _) => true
    | _ => false)

def countTimedOut (ended : List (Ended α)) : ℕ :=
  ended.countP (fun call => match call.result with
    | .elapsed => true
    | _ => false)

def answers (ended : List (Ended α)) : List (Ended α × α) :=
  ended.filterMap (fun call => match call.result with
    | .done (.ok answer) => some (call, answer)
    | _ => none)

end Calls

structure FederatedKnowledgeFabric (K : Type) where
  localAgent : AgentId
  policy : DpPolicy K
  ledger : LedgerConfig K
  trustRouter : TrustRouter K
  intentClassifier : QueryIntentClassifier K
  domainEdges : List (String × List AgentId)
  learningWeight : K
  peerLimits : Option (List AgentId)
  governance : GovernancePolicy K
  grants : List (AccessGrant K)
  aggregatorTopK : ℕ

structure FabricState (K : Type) where
  ledger : InMemoryPrivacyBudgetLedger K
  learning : RouteOutcomeLearning K
  corroboration : CorroborationGraph
  quotas : Quotas

structure Surroundings (K : Type) where
  instant : ℕ
  now : DateTime
  candidates : Answer (List (PeerCandidate K))
  plan : PlanningContext K → Answer (MeshQueryPlan K)
  probes : Schedule (ProbeResponse K)
  fetches : Schedule (List (FederatedDiscoveryHit K))
  persistRoute : AgentId → Answer Unit
  persistReceipt : Answer Unit

structure ProgressiveMeshResult (K : Type) where
  hits : List (FederatedDiscoveryHit K)
  confidence : K
  missingPeerCount : ℕ
  failedPeerCount : ℕ
  timedOutPeerCount : ℕ
  cancelledPeerCount : ℕ
  privacyReceipts : List (PrivacyReceipt K)

/-- What a query returns and leaves. `reservation` is the receipt it was given, `probed` and `fetched` are the peers to
which the sketch was handed. -/
structure Discovery (K : Type) where
  result : Except KnowledgeNetworkError (ProgressiveMeshResult K)
  state : FabricState K
  reservation : Option (PrivacyReceipt K)
  probed : List AgentId
  fetched : List AgentId

def Discovery.handed {K : Type} (discovery : Discovery K) : List AgentId := discovery.probed ++ discovery.fetched

section Hits

variable {K : Type} [Field K] [LinearOrder K]

/-- `HashSet::insert`. -/
def insertOnce {α : Type} [DecidableEq α] (a : α) (set : List α) : List α := if a ∈ set then set else a::set

def observeHits (graph : CorroborationGraph) (hits : List (FederatedDiscoveryHit K)) : CorroborationGraph :=
  hits.foldl (fun graph hit =>
    let record := (graph.lookup hit.publicationId).getD ⟨[], [], 0⟩
    let sources := hit.sourcePeer.elim record.sources (fun peer => insertOnce peer record.sources)
    (hit.publicationId, ⟨sources, insertOnce hit.domain record.independentDomains, record.contradictions⟩) ::
      graph.filter (fun known => known.1 ≠ hit.publicationId)) graph

def enrichScores (graph : CorroborationGraph) (hits : List (FederatedDiscoveryHit K)) : List (FederatedDiscoveryHit K) :=
  hits.map (fun hit =>
    match graph.lookup hit.publicationId with
    | none => hit
    | some record =>
      let sourceBonus : K := min (max (record.sources.length / 4) 0) (1 / 5)
      let domainBonus : K := min (max (record.independentDomains.length / 3) 0) (1 / 5)
      let penalty : K := min (max (record.contradictions * (2 / 25)) 0) (3 / 10)
      { hit with
        corroborationBonus := clampUnit (hit.corroborationBonus + sourceBonus + domainBonus - penalty)
        lineageIndependence := clampUnit (hit.lineageIndependence + domainBonus) })

def GovernancePolicy.filterHits (policy : GovernancePolicy K) (hits : List (FederatedDiscoveryHit K)) :
    List (FederatedDiscoveryHit K) :=
  hits.filter (fun hit => !policy.requireLicenseCompatibility || hit.derivativeAllowed)

/-- `dedup_by_key` of the publication: of neighbours with one id the first stays. -/
def dedupPublications : List (FederatedDiscoveryHit K) → List (FederatedDiscoveryHit K)
  | first::second::hits =>
    if second.publicationId = first.publicationId then dedupPublications (first::hits)
    else first::dedupPublications (second::hits)
  | hits => hits
  termination_by hits => hits.length

/-- `StreamingTopKAggregator::merge`. -/
def mergeHits (aggregatorTopK : ℕ) (hits : List (FederatedDiscoveryHit K)) (finalTopK : ℕ) :
    List (FederatedDiscoveryHit K) :=
  let scored := hits.map (fun hit =>
    { hit with finalScore := clampUnit (hit.noisyScore * (7 / 20) + hit.qualityScore * (1 / 5) + hit.reputationBonus * (3 / 20) +
        hit.corroborationBonus * (3 / 20) + hit.lineageIndependence * (1 / 10) +
        if hit.derivativeAllowed then 1 / 20 else 0) })
  let sorted := scored.insertionSort (fun a b => b.finalScore ≤ a.finalScore)
  (dedupPublications sorted).take (min finalTopK (max aggregatorTopK finalTopK))

end Hits

namespace FederatedKnowledgeFabric

variable {K : Type} [Field K] [LinearOrder K] (fabric : FederatedKnowledgeFabric K) (around : Surroundings K)

/-- A query whose plan stands: its options, its receipt, and the state with the reservation. -/
structure Ready (K : Type) where
  opts : MeshDiscoveryOpts
  receipt : PrivacyReceipt K
  plan : MeshQueryPlan K
  state : FabricState K

/-- `PrivacyReservationGuard::refund_after_error`, on a ledger whose refunds do not fail. -/
def refundAfterError (state : FabricState K) (receipt : PrivacyReceipt K) (primary : KnowledgeNetworkError) : Discovery K :=
  match state.ledger.refund fabric.ledger receipt with
  | (.ok (), ledger) => ⟨.error primary, { state with ledger := ledger }, some receipt, [], []⟩
  | (.error refund, ledger) => ⟨.error (privacyBudgetExhausted
      s!"primary operation failed: {primary.text}; privacy refund failed: {refund.text}"), { state with ledger := ledger },
      some receipt, [], []⟩

/-- `PrivacyReservationGuard::refund`, where the query returns what it has so far. A guard whose refund fails is dropped,
and refunds once more. -/
def refundAndReturn (state : FabricState K) (receipt : PrivacyReceipt K)
    (result : PrivacyReceipt K → ProgressiveMeshResult K) : Discovery K :=
  match state.ledger.refund fabric.ledger receipt with
  | (.ok (), ledger) => ⟨.ok (result receipt), { state with ledger := ledger }, some receipt, [], []⟩
  | (.error error, ledger) =>
    ⟨.error error, { state with ledger := (ledger.refund fabric.ledger receipt).2 }, some receipt, [], []⟩

def authorize (state : FabricState K) (query : DiscoveryQuery K) (opts : MeshDiscoveryOpts) :
    Except KnowledgeNetworkError MeshDiscoveryOpts × Quotas :=
  match opts.validate with
  | .error error => (.error error, state.quotas)
  | .ok () =>
    match fabric.governance.acquireQuery state.quotas fabric.localAgent around.instant with
    | (.error error, quotas) => (.error error, quotas)
    | (.ok (), quotas) =>
      let tuned := fabric.intentClassifier.tuneOpts query opts
      let checked : Except KnowledgeNetworkError Unit := do
        tuned.validate
        fabric.governance.authorizeQuery fabric.localAgent query tuned.intent fabric.policy
        authorizeAccess fabric.grants fabric.localAgent query.domains fabric.policy.queryEpsilon around.now
      match checked with
      | .error error => (.error error, GovernancePolicy.dropPermit quotas fabric.localAgent)
      | .ok () => (.ok tuned, quotas)

def prepare (state : FabricState K) (query : DiscoveryQuery K) (opts : MeshDiscoveryOpts) :
    Except (Discovery K) (Ready K) :=
  match state.ledger.reserve fabric.ledger fabric.localAgent .query
    (.forQuery fabric.ledger.floats fabric.policy) around.now with
  | (.error error, ledger) => .error ⟨.error error, { state with ledger := ledger }, none, [], []⟩
  | (.ok receipt, ledger) =>
    let state := { state with ledger := ledger }
    match around.candidates with
    | .elapsed => .error (fabric.refundAfterError state receipt
        (transport "federated discovery deadline exceeded during candidate discovery"))
    | .done (.error error) => .error (fabric.refundAfterError state receipt error)
    | .done (.ok candidates) =>
      let candidates := boostCandidates fabric.domainEdges query.domains candidates
      if !hasKAnonymity candidates.length fabric.policy then
        .error (fabric.refundAndReturn state receipt (fun receipt =>
          ⟨[], 0, fabric.policy.minKAnonymity - candidates.length, 0, 0, 0, [receipt]⟩))
      else
        let routeScores := bonusOrder state.learning
          (fabric.trustRouter.route candidates (max opts.probePeers opts.fetchPeers))
        match around.plan ⟨opts, routeScores, fabric.policy⟩ with
        | .elapsed => .error (fabric.refundAfterError state receipt
            (planner "federated discovery deadline exceeded during planning"))
        | .done (.error error) => .error (fabric.refundAfterError state receipt error)
        | .done (.ok plan) =>
          match fabric.governance.authorizePlan plan with
          | .error error => .error (fabric.refundAfterError state receipt error)
          | .ok () => .ok ⟨opts, receipt, plan, state⟩

/-- `success` of a probe. -/
def probeSucceeds (probe : ProbeResponse K) : Bool := decide (0 < probe.noisyMatchCount) || decide (0 < probe.noisyMaxScore)

def probeOutcome (call : Ended (ProbeResponse K) × ProbeResponse K) : RouteOutcome K :=
  ⟨call.1.peer, probeSucceeds call.2, call.1.elapsedMs, call.2.noisyMatchCount, call.2.noisyMaxScore, around.now⟩

def fetchOutcome (call : Ended (List (FederatedDiscoveryHit K)) × List (FederatedDiscoveryHit K)) : RouteOutcome K :=
  let avgScore := if call.2.isEmpty then 0 else (call.2.map (·.finalScore)).sum / call.2.length
  ⟨call.1.peer, !call.2.isEmpty, call.1.elapsedMs, call.2.length, avgScore, around.now⟩

def probeOrder (ready : Ready K) : List AgentId :=
  optimizePeerOrder fabric.learningWeight ready.opts.intent ready.state.learning ready.plan.probePeers

def probe (ready : Ready K) : Gathered (ProbeResponse K) :=
  gather ready.opts.maxConcurrency fabric.peerLimits around.probes (fabric.probeOrder ready)

def responsive (probed : Gathered (ProbeResponse K)) : List AgentId :=
  ((answers probed.ended).filter (fun call => probeSucceeds call.2)).map (fun call => call.1.peer)

def persistRoutes : List AgentId → Except KnowledgeNetworkError Unit
  | [] => .ok ()
  | peer::peers =>
    match around.persistRoute peer with
    | .elapsed => .error (transport "federated discovery deadline exceeded while persisting route state")
    | .done (.error error) => .error error
    | .done (.ok ()) => persistRoutes peers

/-- The settlement of a query that has its hits: everything that can fail is persisted before the commit. A guard whose
commit fails is dropped, and refunds. -/
def settle (state : FabricState K) (receipt : PrivacyReceipt K) (result : PrivacyReceipt K → ProgressiveMeshResult K) :
    Discovery K :=
  match persistRoutes around (state.learning.map Prod.fst) with
  | .error error => fabric.refundAfterError state receipt error
  | .ok () =>
    match around.persistReceipt with
    | .elapsed => fabric.refundAfterError state receipt
        (transport "federated discovery deadline exceeded while persisting budget receipt")
    | .done (.error error) => fabric.refundAfterError state receipt error
    | .done (.ok ()) =>
      match state.ledger.commit fabric.ledger receipt with
      | (.ok (), ledger) =>
        ⟨.ok (result { receipt with committedAt := some around.now }), { state with ledger := ledger },
          some receipt, [], []⟩
      | (.error error, ledger) =>
        ⟨.error error, { state with ledger := (ledger.refund fabric.ledger receipt).2 }, some receipt, [], []⟩

def afterProbes (ready : Ready K) : RouteOutcomeLearning K :=
  ((answers (fabric.probe around ready).ended).map (probeOutcome around)).foldl RouteOutcomeLearning.record
    ready.state.learning

def fetchOrder (ready : Ready K) : List AgentId :=
  optimizePeerOrder fabric.learningWeight ready.opts.intent (fabric.afterProbes around ready)
    (ready.plan.fetchPeers.filter (fun peer => (responsive (fabric.probe around ready)).contains peer))

def fetch (ready : Ready K) : Gathered (List (FederatedDiscoveryHit K)) :=
  gather ready.opts.maxConcurrency fabric.peerLimits around.fetches (fabric.fetchOrder around ready)

def afterFetches (ready : Ready K) : RouteOutcomeLearning K :=
  ((answers (fabric.fetch around ready).ended).map (fetchOutcome around)).foldl RouteOutcomeLearning.record
    (fabric.afterProbes around ready)

def exchange (ready : Ready K) : Discovery K :=
  let probed := fabric.probe around ready
  let handed := probed.handed fabric.peerLimits around.probes
  let cancelled := (fabric.probeOrder ready).length - probed.ended.length
  if (responsive probed).isEmpty then
    let state := { ready.state with learning := fabric.afterProbes around ready }
    let discovery := fabric.refundAndReturn state ready.receipt (fun receipt =>
      ⟨[], 0, ready.plan.probePeers.length, countFailed probed.ended, countTimedOut probed.ended, cancelled, [receipt]⟩)
    { discovery with probed := handed }
  else
    let fetched := fabric.fetch around ready
    let hits := (answers fetched.ended).flatMap Prod.snd
    let corroboration := observeHits ready.state.corroboration hits
    let state := { ready.state with learning := fabric.afterFetches around ready, corroboration := corroboration }
    let hits := mergeHits fabric.aggregatorTopK
      (fabric.governance.filterHits (enrichScores corroboration hits)) ready.plan.finalTopK
    let confidence := if hits.isEmpty then 0 else clampUnit ((hits.length : K) / (max ready.plan.finalTopK 1 : ℕ))
    let discovery := fabric.settle around state ready.receipt (fun receipt =>
      ⟨hits, confidence, ready.plan.fetchPeers.length - (answers fetched.ended).length,
        countFailed probed.ended + countFailed fetched.ended, countTimedOut probed.ended + countTimedOut fetched.ended,
        cancelled + ((fabric.fetchOrder around ready).length - fetched.ended.length), [receipt]⟩)
    { discovery with probed := handed, fetched := fetched.handed fabric.peerLimits around.fetches }

def discover (state : FabricState K) (query : DiscoveryQuery K) (opts : MeshDiscoveryOpts) : Discovery K :=
  match fabric.authorize around state query opts with
  | (.error error, quotas) => ⟨.error error, { state with quotas := quotas }, none, [], []⟩
  | (.ok tuned, quotas) =>
    let discovery := match fabric.prepare around { state with quotas := quotas } query tuned with
      | .error discovery => discovery
      | .ok ready => fabric.exchange around ready
    { discovery with state := { discovery.state with
        quotas := GovernancePolicy.dropPermit discovery.state.quotas fabric.localAgent } }

end FederatedKnowledgeFabric

end UwuContextDb.Network
