import UwuContextDb.Network.Settlement

/-! How many peers are told of a query. -/

namespace UwuContextDb.Network

section Gather

variable {α : Type} {concurrency : ℕ} {limits : Option (List AgentId)} {schedule : Schedule α}

def Reachable (limits : Option (List AgentId)) (peer : AgentId) : Prop := limits.all (·.contains peer) = true

theorem callPeer_peer (peer : AgentId) (arrival : Arrival α) : (callPeer limits peer arrival).peer = peer := by
  cases limits with
  | none => rfl
  | some known =>
    by_cases hk : peer ∉ known
    · simp [callPeer,hk]
    · simp only [callPeer,if_neg hk]
      split <;> rfl

theorem callPeer_reachable {peer : AgentId} {arrival : Arrival α}
    (h : (callPeer limits peer arrival).handed = true ∨ ∃ answer,
      (callPeer limits peer arrival).result = .done (.ok answer)) :
    Reachable limits peer := by
  cases limits with
  | none => rfl
  | some known =>
    by_cases hk : peer ∉ known
    · simp [callPeer,hk] at h
    · simpa [Reachable] using not_not.mp hk

theorem mem_gatherFrom {fuel round : ℕ} {waiting underWay : List AgentId} :
    (∀ call ∈ (gatherFrom concurrency limits schedule fuel round waiting underWay).ended,
      call.peer ∈ underWay++waiting ∧
        (call.handed = true ∨ (∃ answer, call.result = .done (.ok answer)) → Reachable limits call.peer)) ∧
    ∀ peer ∈ (gatherFrom concurrency limits schedule fuel round waiting underWay).left, peer ∈ underWay ++ waiting := by
  induction fuel generalizing round waiting underWay with
  | zero => exact ⟨by simp [gatherFrom],fun peer h => List.mem_append_left _ h⟩
  | succ fuel ih =>
    unfold gatherFrom
    dsimp only
    generalize hro : concurrency - underWay.length = room
    have hs : ∀ peer ∈ underWay ++ waiting.take room, peer ∈ underWay ++ waiting := by
      intro peer hp
      rcases List.mem_append.mp hp with h | h
      · exact List.mem_append_left _ h
      · exact List.mem_append_right _ (List.mem_of_mem_take h)
    cases ho : underWay ++ waiting.take room with
    | nil => simp
    | cons first others =>
      rw [ho] at hs
      dsimp only
      generalize hsl : (schedule.arrivals round).slot % (others.length+1) = slot
      have hp : (first::others).getD slot first ∈ first::others := by
        have hl : slot < (first::others).length := hsl ▸ Nat.mod_lt _ (Nat.succ_pos _)
        rw [List.getD_eq_getElem (first::others) first hl]
        exact List.getElem_mem hl
      have hc : (callPeer limits ((first::others).getD slot first) (schedule.arrivals round)).peer ∈
          underWay ++ waiting := by
        rw [callPeer_peer]
        exact hs _ hp
      have he : ∀ peer ∈ (first::others).eraseIdx slot, peer ∈ underWay ++ waiting :=
        fun peer h => hs peer (List.mem_of_mem_eraseIdx h)
      have hr : ∀ peer ∈ (first::others).eraseIdx slot ++ waiting.drop room, peer ∈ underWay ++ waiting := by
        intro peer h
        rcases List.mem_append.mp h with h | h
        · exact he peer h
        · exact List.mem_append_right _ (List.mem_of_mem_drop h)
      split
      · refine ⟨fun call h => ?_,he⟩
        obtain rfl := List.mem_singleton.mp h
        refine ⟨hc,fun h => ?_⟩
        rw [callPeer_peer]
        exact callPeer_reachable h
      · obtain ⟨hn,hf⟩ := @ih (round+1) (waiting.drop room) ((first::others).eraseIdx slot)
        refine ⟨fun call h => ?_,fun peer h => hr peer (hf peer h)⟩
        rcases List.mem_cons.mp h with rfl | h
        · refine ⟨hc,fun h => ?_⟩
          rw [callPeer_peer]
          exact callPeer_reachable h
        · exact ⟨hr _ (hn call h).1,(hn call h).2⟩

def Schedule.eager : Schedule α := ⟨fun _ => ⟨0, 0, .done (.ok ()), .elapsed, false⟩, fun _ => true⟩

theorem gatherFrom_eager (hc : 0 < concurrency) {fuel round : ℕ} {waiting underWay : List AgentId}
    (hf : underWay.length+waiting.length ≤ fuel) :
    (gatherFrom (α := α) concurrency limits .eager fuel round waiting underWay).ended =
      (underWay++waiting).map (fun peer => callPeer limits peer (Schedule.eager.arrivals 0)) := by
  induction fuel generalizing round waiting underWay with
  | zero =>
    have hu : underWay = [] := List.eq_nil_of_length_eq_zero (by omega)
    have hw : waiting = [] := List.eq_nil_of_length_eq_zero (by omega)
    simp [gatherFrom,hu,hw]
  | succ fuel ih =>
    unfold gatherFrom
    dsimp only
    generalize hr : concurrency - underWay.length = room
    have hs : underWay ++ waiting = (underWay++waiting.take room) ++ waiting.drop room := by
      rw [List.append_assoc,List.take_append_drop]
    cases hn : underWay ++ waiting.take room with
    | nil =>
      obtain ⟨hu,ht⟩ := List.append_eq_nil_iff.mp hn
      have hw : waiting = [] := by
        rcases List.take_eq_nil_iff.mp ht with h | h
        · exact absurd h (by rw [← hr,hu]; simpa using hc.ne')
        · exact h
      simp [hu,hw]
    | cons first others =>
      have hl : others.length + 1 + (waiting.drop room).length = underWay.length + waiting.length := by
        rw [← List.length_cons (a := first),← hn,← List.length_append,← hs,List.length_append]
      rw [hs,hn]
      simp only [Schedule.eager,Nat.zero_mod,List.getD_cons_zero,List.eraseIdx_zero,List.tail_cons,
        Bool.false_eq_true,if_false,List.map_cons,List.cons_append]
      congr 1
      exact ih (by omega)

theorem handed_eager (hc : 0 < concurrency) {peers : List AgentId} {peer : AgentId} (hm : peer ∈ peers)
    (h : Reachable limits peer) : peer ∈ (gather (α := α) concurrency limits .eager peers).handed limits .eager := by
  refine List.mem_append_left _ (List.mem_map.mpr ⟨callPeer limits peer (Schedule.eager.arrivals 0),?_,callPeer_peer ..⟩)
  refine List.mem_filter.mpr ⟨?_,?_⟩
  · unfold gather
    rw [gatherFrom_eager hc (by simp)]
    exact List.mem_map_of_mem hm
  · cases limits with
    | none => rfl
    | some known =>
      have hk : peer ∈ known := by simpa [Reachable] using h
      simp [callPeer,hk,Schedule.eager]

end Gather

theorem mem_eraseDups_sort {α : Type} [DecidableEq α] (r : α → α → Prop) [DecidableRel r] (peers : List α) (peer : α) :
    peer ∈ peers.eraseDups.insertionSort r ↔ peer ∈ peers := by
  rw [List.mem_insertionSort,List.mem_eraseDups]

namespace TrustRouter

variable {K : Type} [Field K] [LinearOrder K] (router : TrustRouter K) {candidates : List (PeerCandidate K)} {lim : ℕ}

omit [Field K] in
theorem sortScores_perm (scores : List (PeerRouteScore K)) : (sortScores scores).Perm scores := List.perm_insertionSort ..

theorem route_length : (router.route candidates lim).length = min lim (candidates.filter router.admits).length := by
  unfold route
  rw [List.length_take,(sortScores_perm _).length_eq,List.length_map]

theorem scored_peers : ((sortScores ((candidates.filter router.admits).map router.scoreOf)).map (·.peer)).Perm
    ((candidates.filter router.admits).map (·.peer)) := by
  have hm : ((candidates.filter router.admits).map router.scoreOf).map (·.peer) =
      (candidates.filter router.admits).map (·.peer) := by
    rw [List.map_map]
    rfl
  exact hm ▸ (sortScores_perm _).map _

theorem route_nodup (h : (candidates.map (·.peer)).Nodup) : ((router.route candidates lim).map (·.peer)).Nodup := by
  have ha : ((candidates.filter router.admits).map (·.peer)).Nodup := h.sublist (List.filter_sublist.map _)
  exact ((scored_peers router).nodup_iff.mpr ha).sublist ((List.take_sublist _ _).map _)

end TrustRouter

section Bonus

variable {K : Type} [Field K] [LinearOrder K] (learning : RouteOutcomeLearning K) (scores : List (PeerRouteScore K))

theorem bonusOrder_peers : ((bonusOrder learning scores).map (·.peer)).Perm (scores.map (·.peer)) := by
  refine ((TrustRouter.sortScores_perm _).map _).trans (List.Perm.of_eq ?_)
  rw [List.map_map]
  rfl

end Bonus

theorem boostCandidates_peers {K : Type} [Field K] [LinearOrder K] (edges : List (String × List AgentId))
    (domains : List String) (candidates : List (PeerCandidate K)) :
    (boostCandidates edges domains candidates).map (·.peer) = candidates.map (·.peer) := by
  unfold boostCandidates
  rw [List.map_map]
  refine List.map_congr_left (fun candidate _ => ?_)
  rw [Function.comp]
  split <;> rfl

theorem boostCandidates_admitted {K : Type} [Field K] [LinearOrder K] (router : TrustRouter K)
    (edges : List (String × List AgentId)) (domains : List String) (candidates : List (PeerCandidate K)) :
    ((boostCandidates edges domains candidates).filter router.admits).length =
    (candidates.filter router.admits).length := by
  unfold boostCandidates
  rw [List.filter_map,List.length_map]
  congr 2
  funext candidate
  rw [Function.comp]
  split <;> rfl

namespace FederatedKnowledgeFabric

variable {K : Type} [Field K] [LinearOrder K] (fabric : FederatedKnowledgeFabric K) (around : Surroundings K)
  (state : FabricState K) (query : DiscoveryQuery K) (opts : MeshDiscoveryOpts)

/-- The admitted candidates that come first by their scores, as many as the query may probe. -/
def bestPeers (candidates : List (PeerCandidate K)) : List AgentId :=
  let opts := fabric.intentClassifier.tuneOpts query opts
  let routes := fabric.trustRouter.route (boostCandidates fabric.domainEdges query.domains candidates)
    (max opts.probePeers opts.fetchPeers)
  ((bonusOrder state.learning routes).take opts.probePeers).map (·.peer)

/-- Whatever the peers do, a private query that hands its sketch to one of them has planned to ask `minKAnonymity` of
them. -/
def KAnonymous : Prop := fabric.policy.enabled = true → ∀ probes fetches,
  (fabric.discover { around with probes := probes, fetches := fetches } state query opts).handed ≠ [] →
    ∃ ready, fabric.Probes { around with probes := probes, fetches := fetches } state query opts ready ∧
      fabric.policy.minKAnonymity ≤ ready.plan.probePeers.dedup.length

variable {fabric around state query opts}

variable {candidates : List (PeerCandidate K)} {ready : Ready K} {tuned : MeshDiscoveryOpts}

theorem bestPeers_length (h : (candidates.map (·.peer)).Nodup) :
    (fabric.bestPeers state query opts candidates).dedup.length =
      min (fabric.intentClassifier.tuneOpts query opts).probePeers
      (candidates.filter fabric.trustRouter.admits).length := by
  unfold bestPeers
  dsimp only
  generalize fabric.intentClassifier.tuneOpts query opts = tuned
  generalize hr : fabric.trustRouter.route (boostCandidates fabric.domainEdges query.domains candidates)
    (max tuned.probePeers tuned.fetchPeers) = routes
  have hl : routes.length =
      min (max tuned.probePeers tuned.fetchPeers) (candidates.filter fabric.trustRouter.admits).length := by
    rw [← hr,TrustRouter.route_length,boostCandidates_admitted]
  have ho : (routes.map (·.peer)).Nodup :=
    by
    rw [← hr]
    exact TrustRouter.route_nodup _ ((boostCandidates_peers fabric.domainEdges query.domains candidates).symm ▸ h)
  have hb : ((bonusOrder state.learning routes).map (·.peer)).Nodup := (bonusOrder_peers _ _).nodup_iff.mpr ho
  rw [List.dedup_eq_self.mpr (hb.sublist ((List.take_sublist _ _).map _)),List.length_map,List.length_take,
    ← List.length_map (f := fun score : PeerRouteScore K => score.peer),(bonusOrder_peers _ _).length_eq,
      List.length_map,hl]
  omega

theorem exchange_reachable (h : (fabric.exchange around ready).handed ≠ []) :
    ∃ peer ∈ ready.plan.probePeers, Reachable fabric.peerLimits peer := by
  have ho : ∀ peer ∈ fabric.probeOrder ready, peer ∈ ready.plan.probePeers :=
    fun peer hp => (mem_eraseDups_sort _ _ peer).mp hp
  obtain ⟨he,hl⟩ := @mem_gatherFrom _ ready.opts.maxConcurrency fabric.peerLimits around.probes
    (fabric.probeOrder ready).length 0 (fabric.probeOrder ready) []
  have hr : (fabric.probe around ready).handed fabric.peerLimits around.probes ≠ [] →
      ∃ peer ∈ ready.plan.probePeers, Reachable fabric.peerLimits peer := by
    intro hne
    obtain ⟨peer,hp⟩ := List.exists_mem_of_ne_nil _ hne
    rcases List.mem_append.mp hp with hm | hm
    · obtain ⟨call,hc,rfl⟩ := List.mem_map.mp hm
      obtain ⟨hc,hh⟩ := List.mem_filter.mp hc
      exact ⟨call.peer,ho _ (he call hc).1,(he call hc).2 (.inl hh)⟩
    · obtain ⟨hm,hre⟩ := List.mem_filter.mp hm
      exact ⟨peer,ho _ (hl peer hm),(Bool.and_eq_true_iff.mp hre).2⟩
  unfold exchange at h
  dsimp only at h
  split at h
  · refine hr (fun hn => h ?_)
    show _ ++ _ = []
    rw [hn,(List.append_eq_nil_iff.mp (refundAndReturn_silent _)).2]
    rfl
  · rename_i ht
    obtain ⟨call,hc,-⟩ := not_not.mp (mt (responsive_isEmpty _).mpr ht)
    obtain ⟨ended,hm,ha⟩ := List.mem_filterMap.mp hc
    refine ⟨ended.peer,ho _ (he ended hm).1,(he ended hm).2 (.inr ?_)⟩
    split at ha
    · rename_i answer hs
      exact ⟨answer,hs⟩
    · cases ha

theorem exchange_probed (ready : Ready K) :
    (fabric.exchange around ready).probed = (fabric.probe around ready).handed fabric.peerLimits around.probes := by
  unfold exchange
  dsimp only
  split <;> rfl

theorem authorize_ok {quotas : Quotas} (h : fabric.authorize around state query opts = (.ok tuned, quotas)) :
    tuned = fabric.intentClassifier.tuneOpts query opts ∧ 0 < tuned.maxConcurrency := by
  unfold authorize at h
  split at h
  · cases h
  · split at h
    · cases h
    · dsimp only at h
      split at h
      · cases h
      · rename_i hc
        obtain ⟨ht,-⟩ := Prod.mk.inj h
        obtain rfl := Except.ok.inj ht
        refine ⟨rfl,Nat.pos_of_ne_zero (fun hz => ?_)⟩
        obtain ⟨_,hv,_⟩ := StateMachine.bind_eq_ok.mp hc
        unfold MeshDiscoveryOpts.validate at hv
        simp [hz] at hv
        split_ifs at hv

theorem prepare_ok (h : fabric.prepare around state query tuned = .ok ready) :
    ready.opts = tuned ∧ ∃ candidates, around.candidates = .done (.ok candidates) ∧
      around.plan ⟨tuned,bonusOrder state.learning (fabric.trustRouter.route
        (boostCandidates fabric.domainEdges query.domains candidates) (max tuned.probePeers tuned.fetchPeers)),
        fabric.policy⟩ =
        .done (.ok ready.plan) := by
  unfold prepare at h
  split at h
  · cases h
  · dsimp only at h
    split at h
    · cases h
    · cases h
    · rename_i candidates hc
      split at h
      · cases h
      · split at h
        · cases h
        · cases h
        · rename_i plan hp
          split at h
          · cases h
          · obtain rfl := Except.ok.inj h
            exact ⟨rfl,candidates,hc,hp⟩

/-- The planner plans as `DefaultMeshQueryPlanner` does, when it answers with a plan. -/
def PlansByDefault (fabric : FederatedKnowledgeFabric K) (around : Surroundings K) : Prop :=
  ∀ ctx plan, around.plan ctx = .done (.ok plan) → plan = defaultPlan fabric.ledger.floats ctx

theorem Probes.planned (hp : PlansByDefault fabric around) (h : fabric.Probes around state query opts ready)
    (hc : around.candidates = .done (.ok candidates)) :
    ready.plan.probePeers = fabric.bestPeers state query opts candidates ∧ 0 < ready.opts.maxConcurrency := by
  obtain ⟨tuned,quotas,ha,hr⟩ := h
  obtain ⟨ht,ho⟩ := authorize_ok ha
  obtain ⟨hop,candidates',hc',hl⟩ := prepare_ok hr
  rw [hc] at hc'
  obtain rfl := Except.ok.inj (Timely.done.inj hc')
  rw [hp _ _ hl,hop,ht] at *
  exact ⟨rfl,ho⟩

/-- A private query asks enough peers exactly where it ends before its probes, or none of the best admitted candidates can
be reached, or enough peers are among them. -/
theorem discover_kAnonymous_iff (fabric : FederatedKnowledgeFabric K) (around : Surroundings K) (state : FabricState K)
    (query : DiscoveryQuery K) (opts : MeshDiscoveryOpts) (hplans : PlansByDefault fabric around) :
    (fabric.KAnonymous around state query opts ↔ (fabric.policy.enabled = true → ∀ candidates,
      around.candidates = .done (.ok candidates) → (∃ ready, fabric.Probes around state query opts ready) →
      (∃ peer ∈ fabric.bestPeers state query opts candidates, Reachable fabric.peerLimits peer) →
      fabric.policy.minKAnonymity ≤ (fabric.bestPeers state query opts candidates).dedup.length)) ∧
    ∀ candidates : List (PeerCandidate K), (candidates.map (·.peer)).Nodup →
      (fabric.bestPeers state query opts candidates).dedup.length =
        min (fabric.intentClassifier.tuneOpts query opts).probePeers
        (candidates.filter fabric.trustRouter.admits).length := by
  refine ⟨⟨fun ha hn candidates hc hr hre => ?_,
    fun hd hn probes fetches hh => ?_⟩, fun candidates ho => bestPeers_length ho⟩
  · obtain ⟨ready, hp⟩ := hr
    obtain ⟨peer, he, hrc⟩ := hre
    obtain ⟨hl, hco⟩ := hp.planned hplans hc
    -- every peer takes the call, so the sketch leaves
    let eager : Surroundings K := { around with probes := .eager, fetches := .eager }
    have hp' : fabric.Probes eager state query opts ready := hp
    have hor : peer ∈ fabric.probeOrder ready := (mem_eraseDups_sort _ _ peer).mpr (hl ▸ he)
    have hm : peer ∈ (fabric.discover eager state query opts).handed := by
      rw [(discover_of_probes hp').1]
      refine List.mem_append_left _ ?_
      rw [exchange_probed]
      exact handed_eager hco hor hrc
    obtain ⟨ready', hr', hk⟩ := ha hn .eager .eager (List.ne_nil_of_mem hm)
    obtain rfl := hp'.unique hr'
    exact hl ▸ hk
  · obtain ⟨ready, hp⟩ := probes_of_handed hh
    refine ⟨ready, hp, ?_⟩
    rw [(discover_of_probes hp).1] at hh
    obtain ⟨peer, he, hrc⟩ := exchange_reachable hh
    have hp' : fabric.Probes around state query opts ready := hp
    obtain ⟨_, _, _, hpr⟩ := id hp'
    obtain ⟨-, candidates, hc, -⟩ := prepare_ok hpr
    have hl := (hp'.planned hplans hc).1
    rw [hl] at he ⊢
    exact hd hn candidates hc ⟨ready, hp'⟩ ⟨peer, he, hrc⟩

theorem sampleAround_plans (candidates : List (PeerCandidate ℚ)) (matches_ : ℕ) :
    PlansByDefault sampleFabric (sampleAround candidates matches_) := by
  intro ctx plan h
  exact (Except.ok.inj (Timely.done.inj h)).symm

theorem discover_kAnonymous_iff_sample :
    (sampleFabric.KAnonymous (sampleAround sampleCandidates 2) sampleState sampleQuery sampleOpts ↔
      (sampleFabric.policy.enabled = true → ∀ candidates,
        (sampleAround sampleCandidates 2).candidates = .done (.ok candidates) →
        (∃ ready, sampleFabric.Probes (sampleAround sampleCandidates 2) sampleState sampleQuery sampleOpts ready) →
        (∃ peer ∈ sampleFabric.bestPeers sampleState sampleQuery sampleOpts candidates,
          Reachable sampleFabric.peerLimits peer) →
        sampleFabric.policy.minKAnonymity ≤
        (sampleFabric.bestPeers sampleState sampleQuery sampleOpts candidates).dedup.length)) ∧
    (sampleFabric.bestPeers sampleState sampleQuery sampleOpts sampleCandidates).dedup.length =
      min (sampleFabric.intentClassifier.tuneOpts sampleQuery sampleOpts).probePeers
        (sampleCandidates.filter sampleFabric.trustRouter.admits).length :=
  have h := discover_kAnonymous_iff sampleFabric (sampleAround sampleCandidates 2) sampleState sampleQuery sampleOpts
    (sampleAround_plans sampleCandidates 2)
  ⟨h.1, h.2 sampleCandidates (by decide)⟩

def doubtfulCandidates : List (PeerCandidate ℚ) := [⟨"p1", 1, 1 / 2⟩, ⟨"p2", 1 / 2, 1 / 2⟩, ⟨"p3", 1 / 4, 0⟩]

theorem discover_below_k : sampleFabric.policy.enabled = true ∧ sampleFabric.policy.minKAnonymity = 3 ∧
    (sampleFabric.discover (sampleAround doubtfulCandidates 2) sampleState sampleQuery sampleOpts).probed = ["p1", "p2"] ∧
    ¬ sampleFabric.KAnonymous (sampleAround doubtfulCandidates 2) sampleState sampleQuery sampleOpts := by
  refine ⟨by decide, by decide, by decide +kernel, fun ha => ?_⟩
  have hh : (sampleFabric.discover
      (sampleAround doubtfulCandidates 2) sampleState sampleQuery sampleOpts).handed ≠ [] := by
    decide +kernel
  obtain ⟨ready, hr, hk⟩ := ha (by decide) _ _ hh
  rw [(hr.planned (sampleAround_plans doubtfulCandidates 2) rfl).1] at hk
  exact absurd hk (by decide +kernel)

end FederatedKnowledgeFabric

end UwuContextDb.Network
