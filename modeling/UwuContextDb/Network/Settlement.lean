import UwuContextDb.Network.Fabric
import UwuContextDb.Network.LedgerAccounts

/-! How a query settles its reservation once the sketch has left. -/

namespace UwuContextDb.Network

variable {K : Type} [Field K] [LinearOrder K]

def Charged (config : LedgerConfig K) (ledger : InMemoryPrivacyBudgetLedger K) (receipt : PrivacyReceipt K) : Prop :=
  ∃ window, ledger.windowOf config receipt.actor receipt.scope = some window ∧ receipt.id ∈ window.reserved.map Prod.fst

instance (config : LedgerConfig K) (ledger : InMemoryPrivacyBudgetLedger K) (receipt : PrivacyReceipt K) :
    Decidable (Charged config ledger receipt) :=
  match h : ledger.windowOf config receipt.actor receipt.scope with
  | none => .isFalse (fun ⟨_, hwindow, _⟩ => by simp [h] at hwindow)
  | some window =>
    decidable_of_iff (receipt.id ∈ window.reserved.map Prod.fst)
      ⟨fun hmem => ⟨window, h, hmem⟩, fun ⟨_, hwindow, hmem⟩ => (Option.some.inj (h.symm.trans hwindow)) ▸ hmem⟩

namespace InMemoryPrivacyBudgetLedger

variable {cfg : LedgerConfig K} {ledger : InMemoryPrivacyBudgetLedger K} {receipt : PrivacyReceipt K}

theorem refund_discharges (h : Audit.TakesBack cfg ledger receipt) :
    ∃ ledger', ledger.refund cfg receipt = (.ok (), ledger') ∧ ¬ Charged cfg ledger' receipt := by
  rcases refund_cases cfg ledger receipt with ⟨hn,-⟩ | ⟨window,cost,-,-,-,he⟩
  · exact absurd h hn
  · refine ⟨_,he,?_⟩
    rintro ⟨window',hs,hm⟩
    rw [windowOf_setWindow,if_pos ⟨rfl,rfl⟩] at hs
    rw [← Option.some.inj hs] at hm
    obtain ⟨held,hh,hi⟩ := List.mem_map.mp hm
    exact absurd hi (by simpa using (List.mem_filter.mp hh).2)

theorem commit_charges (h : Audit.TakesBack cfg ledger receipt) :
    ∃ ledger', ledger.commit cfg receipt = (.ok (), ledger') ∧ Charged cfg ledger' receipt := by
  obtain ⟨window,hs,-,hm⟩ := h
  rcases commit_cases cfg ledger receipt with ⟨error,he⟩ | ⟨window',hs',hm',he⟩
  · unfold commit at he
    rw [hs] at he
    simp only [not_not.mpr hm,if_false] at he
    cases he
  · refine ⟨_,he,{ window' with committed := receipt.id :: window'.committed },?_,hm'⟩
    rw [windowOf_setWindow,if_pos ⟨rfl,rfl⟩]

theorem takesBack_reserve {ag : AgentId} {sc : BudgetScope} {cost : PrivacyCost K} {now : DateTime}
    {ledger' : InMemoryPrivacyBudgetLedger K} {audit : Audit K} (hs : audit.Sound cfg)
    (hl : audit.ledger = ledger) (h : ledger.reserve cfg ag sc cost now = (.ok receipt, ledger')) :
    Audit.TakesBack cfg ledger' receipt := by
  subst hl
  obtain ⟨-,hb,-⟩ := hs.current ag sc now
  rcases reserve_cases cfg audit.ledger ag sc cost now with ⟨error,he⟩ | ⟨-,he⟩
  · rw [he] at h
    cases h
  · rw [he] at h
    obtain ⟨hr,rfl⟩ := Prod.mk.inj h
    obtain rfl := Except.ok.inj hr
    refine ⟨_,(windowOf_setWindow cfg audit.ledger ag ag sc sc _).trans (if_pos ⟨rfl,rfl⟩),?_,by simp⟩
    exact fun hm => lt_irrefl _ (hb _ hm)

end InMemoryPrivacyBudgetLedger

namespace FederatedKnowledgeFabric

variable {fabric : FederatedKnowledgeFabric K} {around : Surroundings K} {state : FabricState K} {query : DiscoveryQuery K}
  {opts : MeshDiscoveryOpts} {receipt : PrivacyReceipt K}

theorem refundAfterError_discharges {primary : KnowledgeNetworkError}
    (h : Audit.TakesBack fabric.ledger state.ledger receipt) :
    ¬ Charged fabric.ledger (fabric.refundAfterError state receipt primary).state.ledger receipt := by
  obtain ⟨ledger',he,hn⟩ := InMemoryPrivacyBudgetLedger.refund_discharges h
  simp only [refundAfterError,he]
  exact hn

variable {result : PrivacyReceipt K → ProgressiveMeshResult K} {ready : Ready K}

theorem refundAndReturn_discharges (h : Audit.TakesBack fabric.ledger state.ledger receipt) :
    ¬ Charged fabric.ledger (fabric.refundAndReturn state receipt result).state.ledger receipt := by
  obtain ⟨ledger',he,hn⟩ := InMemoryPrivacyBudgetLedger.refund_discharges h
  simp only [refundAndReturn,he]
  exact hn

theorem refundAfterError_silent (primary : KnowledgeNetworkError) :
    (fabric.refundAfterError state receipt primary).handed = [] := by
  unfold refundAfterError
  split <;> rfl

theorem refundAndReturn_silent (result : PrivacyReceipt K → ProgressiveMeshResult K) :
    (fabric.refundAndReturn state receipt result).handed = [] := by
  unfold refundAndReturn
  split <;> rfl

theorem prepare_silent {discovery : Discovery K} (h : fabric.prepare around state query opts = .error discovery) :
    discovery.handed = [] := by
  unfold prepare at h
  split at h
  · cases h
    rfl
  · dsimp only at h
    split at h
    · cases h
      exact refundAfterError_silent _
    · cases h
      exact refundAfterError_silent _
    · split at h
      · cases h
        exact refundAndReturn_silent _
      · split at h
        · cases h
          exact refundAfterError_silent _
        · cases h
          exact refundAfterError_silent _
        · split at h
          · cases h
            exact refundAfterError_silent _
          · cases h

theorem prepare_takesBack {audit : Audit K} (hs : audit.Sound fabric.ledger)
    (hl : audit.ledger = state.ledger) (h : fabric.prepare around state query opts = .ok ready) :
    Audit.TakesBack fabric.ledger ready.state.ledger ready.receipt := by
  unfold prepare at h
  split at h
  · cases h
  · rename_i receipt ledger hr
    have ht := InMemoryPrivacyBudgetLedger.takesBack_reserve hs hl hr
    dsimp only at h
    split at h
    · cases h
    · cases h
    · split at h
      · cases h
      · split at h
        · cases h
        · cases h
        · split at h
          · cases h
          · obtain rfl := Except.ok.inj h
            exact ht

omit [Field K] [LinearOrder K] in
theorem persistRoutes_ok (peers : List AgentId) :
    persistRoutes around peers = .ok () ↔ ∀ peer ∈ peers, around.persistRoute peer = .done (.ok ()) := by
  induction peers with
  | nil => simp [persistRoutes]
  | cons peer peers ih =>
    unfold persistRoutes
    split
    · rename_i he
      simp [he]
    · rename_i error hr
      simp [hr]
    · rename_i hd
      simp [hd, ih]

def Persists (around : Surroundings K) (learning : RouteOutcomeLearning K) : Prop :=
  (∀ known ∈ learning, around.persistRoute known.1 = .done (.ok ())) ∧ around.persistReceipt = .done (.ok ())

theorem settle_charges (h : Audit.TakesBack fabric.ledger state.ledger receipt) :
    Charged fabric.ledger (fabric.settle around state receipt result).state.ledger receipt ↔
    Persists around state.learning := by
  have hr : persistRoutes around (state.learning.map Prod.fst) = .ok () ↔
      ∀ peer ∈ state.learning.map Prod.fst, around.persistRoute peer = .done (.ok ()) :=
        persistRoutes_ok (state.learning.map Prod.fst)
  simp only [List.mem_map,forall_exists_index,and_imp,forall_apply_eq_imp_iff₂] at hr
  unfold settle Persists
  cases hp : persistRoutes around (state.learning.map Prod.fst) with
  | error error =>
    refine iff_of_false (refundAfterError_discharges h) (fun ha => ?_)
    rw [hr.mpr ha.1] at hp
    cases hp
  | ok u =>
    rw [← hr]
    cases hre : around.persistReceipt with
    | elapsed => exact iff_of_false (refundAfterError_discharges h) (fun ha => by cases ha.2)
    | done answer =>
      cases answer with
      | error error => exact iff_of_false (refundAfterError_discharges h) (fun ha => by cases ha.2)
      | ok u =>
        obtain ⟨ledger',he,hc⟩ := InMemoryPrivacyBudgetLedger.commit_charges h
        simp only [he]
        exact iff_of_true hc ⟨hp,trivial⟩

def Completes (fabric : FederatedKnowledgeFabric K) (around : Surroundings K) (ready : Ready K) : Prop :=
  (∃ call ∈ answers (fabric.probe around ready).ended, probeSucceeds call.2 = true) ∧
    Persists around (fabric.afterFetches around ready)

theorem responsive_isEmpty (probed : Gathered (ProbeResponse K)) :
    (responsive probed).isEmpty = true ↔ ¬ ∃ call ∈ answers probed.ended, probeSucceeds call.2 = true := by
  simp [responsive,List.isEmpty_iff,List.filter_eq_nil_iff]

theorem exchange_charges (h : Audit.TakesBack fabric.ledger ready.state.ledger ready.receipt) :
    Charged fabric.ledger (fabric.exchange around ready).state.ledger ready.receipt ↔ fabric.Completes around ready := by
  unfold exchange Completes
  dsimp only
  split
  · rename_i he
    exact iff_of_false (refundAndReturn_discharges h) (fun ha => (responsive_isEmpty _).mp he ha.1)
  · rename_i hm
    have hm' := not_not.mp (mt (responsive_isEmpty _).mpr hm)
    simp only [hm',true_and]
    exact settle_charges h

def Probes (fabric : FederatedKnowledgeFabric K) (around : Surroundings K) (state : FabricState K)
    (query : DiscoveryQuery K) (opts : MeshDiscoveryOpts) (ready : Ready K) : Prop :=
  ∃ tuned quotas, fabric.authorize around state query opts = (.ok tuned, quotas) ∧
    fabric.prepare around { state with quotas := quotas } query tuned = .ok ready

theorem Probes.unique {ready ready' : Ready K} (h : fabric.Probes around state query opts ready)
    (h' : fabric.Probes around state query opts ready') : ready = ready' := by
  obtain ⟨tuned,quotas,ha,hp⟩ := h
  obtain ⟨tuned',quotas',ha',hp'⟩ := h'
  rw [ha] at ha'
  obtain ⟨ht,rfl⟩ := Prod.mk.inj ha'
  obtain rfl := Except.ok.inj ht
  exact Except.ok.inj (hp.symm.trans hp')

theorem probes_of_handed (h : (fabric.discover around state query opts).handed ≠ []) :
    ∃ ready, fabric.Probes around state query opts ready := by
  unfold discover at h
  split at h
  · exact absurd rfl h
  · rename_i tuned quotas ha
    cases hp : fabric.prepare around { state with quotas := quotas } query tuned with
    | error discovery =>
      refine absurd ?_ h
      simpa [Discovery.handed,hp] using prepare_silent hp
    | ok ready => exact ⟨ready,tuned,quotas,ha,hp⟩

theorem discover_of_probes (h : fabric.Probes around state query opts ready) :
    (fabric.discover around state query opts).handed = (fabric.exchange around ready).handed ∧
      (fabric.discover around state query opts).state.ledger = (fabric.exchange around ready).state.ledger ∧
      (fabric.discover around state query opts).reservation = (fabric.exchange around ready).reservation := by
  obtain ⟨tuned,quotas,ha,hp⟩ := h
  have he : fabric.discover around state query opts = { fabric.exchange around ready with
      state := { (fabric.exchange around ready).state with
        quotas := GovernancePolicy.dropPermit (fabric.exchange around ready).state.quotas fabric.localAgent } } := by
    unfold discover
    rw [ha]
    simp only [hp]
  rw [he]
  exact ⟨rfl,rfl,rfl⟩

theorem refundAfterError_reservation (primary : KnowledgeNetworkError) :
    (fabric.refundAfterError state receipt primary).reservation = some receipt := by
  unfold refundAfterError
  split <;> rfl

theorem refundAndReturn_reservation (result : PrivacyReceipt K → ProgressiveMeshResult K) :
    (fabric.refundAndReturn state receipt result).reservation = some receipt := by
  unfold refundAndReturn
  split <;> rfl

theorem settle_reservation (result : PrivacyReceipt K → ProgressiveMeshResult K) :
    (fabric.settle around state receipt result).reservation = some receipt := by
  unfold settle
  split
  · exact refundAfterError_reservation _
  · split
    · exact refundAfterError_reservation _
    · exact refundAfterError_reservation _
    · split <;> rfl

theorem exchange_reservation (ready : Ready K) : (fabric.exchange around ready).reservation = some ready.receipt := by
  unfold exchange
  dsimp only
  split
  · exact refundAndReturn_reservation _
  · exact settle_reservation _

/-- A query that handed its sketch to a peer stays charged exactly where a probe told of a match and everything was
persisted in time; every other end of it is refunded. -/
theorem discover_charged_iff [IsStrictOrderedRing K] (fabric : FederatedKnowledgeFabric K) (around : Surroundings K)
    (state : FabricState K) (query : DiscoveryQuery K) (opts : MeshDiscoveryOpts)
    (ops : List (InMemoryPrivacyBudgetLedger.Op K))
    (hledger : state.ledger = StateMachine.run (InMemoryPrivacyBudgetLedger.step fabric.ledger) .empty ops)
    (hhanded : (fabric.discover around state query opts).handed ≠ []) :
    ∃ ready, fabric.Probes around state query opts ready ∧
      (fabric.discover around state query opts).reservation = some ready.receipt ∧
      (Charged fabric.ledger (fabric.discover around state query opts).state.ledger ready.receipt ↔
        fabric.Completes around ready) := by
  obtain ⟨ready, hp⟩ := probes_of_handed hhanded
  obtain ⟨-, hs, hr⟩ := discover_of_probes hp
  refine ⟨ready, hp, hr.trans (exchange_reservation ready), ?_⟩
  obtain ⟨tuned, quotas, -, he⟩ := hp
  have hu : (StateMachine.run (Audit.step fabric.ledger) Audit.empty ops).ledger =
      { state with quotas := quotas }.ledger :=
    (Audit.run_ledger fabric.ledger ops).trans hledger.symm
  have ht : Audit.TakesBack fabric.ledger ready.state.ledger ready.receipt :=
    prepare_takesBack (Audit.sound_run fabric.ledger ops) hu he
  rw [hs]
  exact exchange_charges ht

def sampleFabric : FederatedKnowledgeFabric ℚ :=
  ⟨"agent", Audit.samplePolicy, Audit.sampleConfig, ⟨1 / 4, .observer, [], []⟩, ⟨1, 3, 4 / 5⟩, [], 0, none,
    ⟨0, false, true, 32, true, 8, 1000, 2, 16⟩, [⟨"agent", ["domain"], 1, 10⟩], 8⟩

def sampleState : FabricState ℚ := ⟨.empty, [], [], []⟩

def sampleQuery : DiscoveryQuery ℚ := ⟨["domain"], 0, false⟩

def sampleOpts : MeshDiscoveryOpts := ⟨.fastLookup, .fastPartial, 3, 3, 2, 4, 100, 50, 2⟩

def sampleCandidates : List (PeerCandidate ℚ) := [⟨"p1", 1, 1 / 2⟩, ⟨"p2", 1 / 2, 1 / 2⟩, ⟨"p3", 1 / 4, 1 / 2⟩]

def sampleAround (candidates : List (PeerCandidate ℚ)) (matches_ : ℕ) : Surroundings ℚ where
  instant := 0
  now := 0
  candidates := .done (.ok candidates)
  plan := fun ctx => .done (.ok (defaultPlan Audit.sampleConfig.floats ctx))
  probes := ⟨fun _ => ⟨0, 1, .done (.ok ()), .done (.ok ⟨matches_, 0⟩), false⟩, fun _ => true⟩
  fetches := ⟨fun _ => ⟨0, 1, .done (.ok ()), .done (.ok []), false⟩, fun _ => true⟩
  persistRoute := fun _ => .done (.ok ())
  persistReceipt := .done (.ok ())

theorem discover_charged_iff_sample :
    (sampleFabric.discover (sampleAround sampleCandidates 2) sampleState sampleQuery sampleOpts).handed ≠ [] ∧
    ∃ ready, sampleFabric.Probes (sampleAround sampleCandidates 2) sampleState sampleQuery sampleOpts ready ∧
      (sampleFabric.discover (sampleAround sampleCandidates 2) sampleState sampleQuery sampleOpts).reservation =
      some ready.receipt ∧
      (Charged sampleFabric.ledger
          (sampleFabric.discover
            (sampleAround sampleCandidates 2) sampleState sampleQuery sampleOpts).state.ledger ready.receipt ↔
        sampleFabric.Completes (sampleAround sampleCandidates 2) ready) := by
  have hh : (sampleFabric.discover (sampleAround sampleCandidates 2) sampleState sampleQuery sampleOpts).handed ≠
      [] := by
    decide +kernel
  exact ⟨hh, discover_charged_iff sampleFabric (sampleAround sampleCandidates 2) sampleState sampleQuery sampleOpts []
    rfl hh⟩

/-- Three peers have the sketch and none tells of a match: the reservation is refunded. -/
theorem discover_refunds_released :
    (sampleFabric.discover (sampleAround sampleCandidates 0) sampleState sampleQuery sampleOpts).handed =
    ["p1", "p2", "p3"] ∧
    ∃ receipt ∈ (sampleFabric.discover (sampleAround sampleCandidates 0) sampleState sampleQuery sampleOpts).reservation,
      ¬ Charged sampleFabric.ledger
        (sampleFabric.discover
          (sampleAround sampleCandidates 0) sampleState sampleQuery sampleOpts).state.ledger receipt := by
  decide +kernel

end FederatedKnowledgeFabric

end UwuContextDb.Network
