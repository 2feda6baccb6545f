import UwuContextDb.Marketplace.Voting

/-! `ReputationEngine`: what the feedback on an entry does to the reputation and the bond of its publisher. -/

namespace UwuContextDb.Marketplace

open Assoc StateMachine

inductive BondLevel | observer | contributor | validator | authority deriving DecidableEq

def BondLevel.toNat : BondLevel → ℕ
  | .observer => 0
  | .contributor => 1
  | .validator => 2
  | .authority => 3

section Data

variable (K : Type)

inductive AdoptionOutcome
  | adopted (confidenceGain : Reported K)
  | rejected (reason : String)
  | outdated
  | contradicted

structure FeedbackPayload where
  entryId : Uuid
  consumer : AgentId
  outcome : AdoptionOutcome K
  evidence : Option ContextUri
  timestamp : DateTime
  replayId : Uuid

structure MarketFeedback where
  payload : FeedbackPayload K
  publicKey : String
  signature : String

structure ReputationKpi where
  agent : AgentId
  entriesPublished : UInt32
  lastActive : DateTime
  adoptionRate : K
  avgQualityScore : K
  corroborationRate : K
  contradictionCount : UInt32
  downvoteCount : UInt32
  immuneContributions : UInt32
  composite : K

structure ReputationBond where
  agent : AgentId
  bondLevel : BondLevel
  accumulatedSince : DateTime
  decayFactor : K

structure EngineState where
  kpis : List (AgentId × ReputationKpi K)
  bonds : List (AgentId × ReputationBond K)
  replayIds : List Uuid

/-- A call of `submit_feedback` with the date it is given, what the clock reads when a publisher is registered, and what
the registry and the verifier answer it. -/
structure FeedbackCall where
  feedback : MarketFeedback K
  now : DateTime
  clock : DateTime
  publisherFor : Uuid → Option AgentId
  hasConsumption : Uuid → AgentId → Bool
  verify : FeedbackPayload K → String → String → Bool

inductive EngineOp
  | register (agent : AgentId) (clock : DateTime)
  | submitFeedback (call : FeedbackCall K)
  | recordImmuneContribution (agent : AgentId)
  | recalcBonds

end Data

inductive FeedbackError
  | unknownEntry
  | noConsumption
  | invalidSignature
  | stale
  | futureDated
  | replay
  | invalidConfidenceGain
  deriving DecidableEq

/-- `u32::saturating_add` of one. -/
def saturatingSucc (n : UInt32) : UInt32 := if n = 4294967295 then n else n + 1

theorem le_saturatingSucc (n : UInt32) : n.toNat ≤ (saturatingSucc n).toNat := by
  unfold saturatingSucc
  split_ifs with hm
  · exact le_rfl
  · have hl : n.toNat ≠ 4294967295 := fun h => hm (UInt32.toNat_inj.mp h)
    have hb := n.toNat_lt
    rw [UInt32.toNat_add]
    simp only [UInt32.reduceToNat]
    omega

variable {K : Type} [Field K] [LinearOrder K]

namespace AdoptionOutcome

def isNegative : AdoptionOutcome K → Bool
  | .rejected _ => true
  | .contradicted => true
  | _ => false

def isContradicted : AdoptionOutcome K → Bool
  | .contradicted => true
  | _ => false

/-- The confidence gain of an adoption is finite and in `[0, 1]`. -/
def isAdmissible : AdoptionOutcome K → Bool
  | .adopted confidenceGain => confidenceGain.unit.isSome
  | _ => true

end AdoptionOutcome

namespace ReputationKpi

/-- The record of an agent that `register` enters. -/
def new (agent : AgentId) (now : DateTime) : ReputationKpi K := ⟨agent, 0, now, 0, 0, 0, 0, 0, 0, 0⟩

/-- The weighted sum of `recompute`. -/
def score (kpi : ReputationKpi K) : K :=
  kpi.adoptionRate * (1 / 4) + kpi.avgQualityScore * (1 / 4) + kpi.corroborationRate * (1 / 5) +
    (1 - min ((kpi.contradictionCount.toNat : K) / 10) 1) * (3 / 20) + (1 - min ((kpi.downvoteCount.toNat : K) / 10) 1) * (1 / 10) +
    min ((kpi.immuneContributions.toNat : K) / 10) 1 * (1 / 20)

def recompute (kpi : ReputationKpi K) : ReputationKpi K :=
  { kpi with composite := clamp kpi.score 0 1 }

/-- What `submit_feedback` does to the publisher's record. -/
def update (kpi : ReputationKpi K) (outcome : AdoptionOutcome K) (now : DateTime) : ReputationKpi K :=
  let active := { kpi with lastActive := now }
  (match outcome with
    | .adopted _ =>
      { active with entriesPublished := saturatingSucc active.entriesPublished,
                    adoptionRate := min (active.adoptionRate * (9 / 10) + 1 / 10) 1 }
    | .rejected _ =>
      { active with downvoteCount := saturatingSucc active.downvoteCount,
                    adoptionRate := max (active.adoptionRate * (9 / 10)) 0 }
    | .contradicted =>
      { active with downvoteCount := saturatingSucc active.downvoteCount,
                    adoptionRate := max (active.adoptionRate * (9 / 10)) 0,
                    contradictionCount := saturatingSucc active.contradictionCount }
    | .outdated => active).recompute

end ReputationKpi

namespace ReputationBond

def new (agent : AgentId) (clock : DateTime) : ReputationBond K := ⟨agent, .observer, clock, 1 / 2⟩

def promoteIfQualified (bond : ReputationBond K) (kpi : ReputationKpi K) : ReputationBond K :=
  { bond with bondLevel :=
      if 9 / 10 ≤ kpi.composite ∧ 50 ≤ kpi.entriesPublished then .authority
      else if 10 ≤ kpi.entriesPublished ∧ 4 / 5 ≤ kpi.adoptionRate then .validator
      else if 3 ≤ kpi.entriesPublished ∧ 3 / 5 ≤ kpi.adoptionRate then .contributor
      else .observer }

def demote (bond : ReputationBond K) (level : BondLevel) : ReputationBond K := { bond with bondLevel := level }

end ReputationBond

namespace ReputationEngine

variable (calendar : Calendar)

def new : EngineState K := ⟨[], [], []⟩

def register (s : EngineState K) (agent : AgentId) (clock : DateTime) : EngineState K :=
  { s with kpis := orPut s.kpis agent (.new agent clock), bonds := orPut s.bonds agent (.new agent clock) }

/-- The publisher of the entry, after the checks that `submit_feedback` makes before it locks; none where a bound is no
date, which panics. -/
def validate (call : FeedbackCall K) : Option (Except FeedbackError AgentId) := do
  let payload := call.feedback.payload
  let oldest ← calendar.checked (call.now - 10 * 60 * 10 ^ 9)
  if payload.timestamp < oldest then return .error .stale
  let newest ← calendar.checked (call.now + 30 * 10 ^ 9)
  if newest < payload.timestamp then return .error .futureDated
  if !call.verify payload call.feedback.publicKey call.feedback.signature then return .error .invalidSignature
  if !payload.outcome.isAdmissible then return .error .invalidConfidenceGain
  return match call.publisherFor payload.entryId with
    | none => .error .unknownEntry
    | some publisher => if call.hasConsumption payload.entryId payload.consumer then .ok publisher else .error .noConsumption

def enroll (s : EngineState K) (publisher : AgentId) (clock : DateTime) : EngineState K :=
  if (s.kpis.lookup publisher).isSome then s else register s publisher clock

/-- What `submit_feedback` does once the replay id is entered. -/
def apply (s : EngineState K) (call : FeedbackCall K) (publisher : AgentId) : EngineState K :=
  let s := enroll s publisher call.clock
  let kpi := (s.kpis.lookup publisher).getD (.new publisher call.now)
  { s with kpis := put s.kpis publisher (kpi.update call.feedback.payload.outcome call.now),
           bonds :=
             match s.bonds.lookup publisher with
             | some bond =>
               if call.feedback.payload.outcome.isContradicted then put s.bonds publisher (bond.demote .contributor)
               else s.bonds
             | none => s.bonds }

/-- `submit_feedback`, with the state it leaves. -/
def submitFeedback (s : EngineState K) (call : FeedbackCall K) : Option (Except FeedbackError AgentId) × EngineState K :=
  match validate calendar call with
  | none => (none, s)
  | some (.error err) => (some (.error err), s)
  | some (.ok publisher) =>
    if call.feedback.payload.replayId ∈ s.replayIds then (some (.error .replay), s)
    else (some (.ok publisher), apply { s with replayIds := call.feedback.payload.replayId::s.replayIds } call publisher)

def recordImmuneContribution (s : EngineState K) (agent : AgentId) : EngineState K :=
  match s.kpis.lookup agent with
  | none => s
  | some kpi =>
    { s with kpis := put s.kpis agent { kpi with immuneContributions := saturatingSucc kpi.immuneContributions }.recompute }

/-- `recalc_bonds`: each bond is set from the record of its agent, in whatever order the map has them. -/
def recalcBonds (s : EngineState K) : EngineState K :=
  { s with bonds := s.bonds.map (fun row =>
      (row.1, ((s.kpis.lookup row.1).map row.2.promoteIfQualified).getD row.2)) }

def step (s : EngineState K) : EngineOp K → EngineState K
  | .register agent clock => register s agent clock
  | .submitFeedback call => (submitFeedback calendar s call).2
  | .recordImmuneContribution agent => recordImmuneContribution s agent
  | .recalcBonds => recalcBonds s

section Records

def Settled (kpi : ReputationKpi K) : Prop := kpi.recompute.composite = kpi.composite

instance decidableSettled (kpi : ReputationKpi K) : Decidable (Settled kpi) :=
  inferInstanceAs (Decidable (_ = _))

theorem settled_recompute (kpi : ReputationKpi K) : Settled kpi.recompute := rfl

theorem settled_update (kpi : ReputationKpi K) (out : AdoptionOutcome K) (now : DateTime) :
    Settled (kpi.update out now) := settled_recompute _

variable [IsStrictOrderedRing K]

theorem clamp_mono {x y : K} (h : x ≤ y) : clamp x 0 1 ≤ clamp y 0 1 := by
  have ho : (0 : K) ≤ 1 := zero_le_one
  unfold clamp
  split_ifs <;> linarith

theorem tenth_mono {m n : UInt32} (h : m.toNat ≤ n.toNat) :
    min ((m.toNat : K) / 10) 1 ≤ min ((n.toNat : K) / 10) 1 := by
  have hc : (m.toNat : K) ≤ n.toNat := Nat.cast_le.mpr h
  exact min_le_min_right 1 (by linarith)

theorem score_mono {kpi kpi' : ReputationKpi K} (ha : kpi'.adoptionRate ≤ kpi.adoptionRate)
    (hq : kpi'.avgQualityScore = kpi.avgQualityScore) (hr : kpi'.corroborationRate = kpi.corroborationRate)
    (hc : kpi.contradictionCount.toNat ≤ kpi'.contradictionCount.toNat)
    (hd : kpi.downvoteCount.toNat ≤ kpi'.downvoteCount.toNat)
    (hi : kpi'.immuneContributions = kpi.immuneContributions) : kpi'.score ≤ kpi.score := by
  have h1 := @tenth_mono K _ _ _ _ _ hc
  have h2 := @tenth_mono K _ _ _ _ _ hd
  unfold ReputationKpi.score
  rw [hq,hr,hi]
  linarith

variable {kpi : ReputationKpi K} {outcome : AdoptionOutcome K}

theorem adoptionRate_update_nonneg (h : 0 ≤ kpi.adoptionRate) (out : AdoptionOutcome K)
    (now : DateTime) : 0 ≤ (kpi.update out now).adoptionRate := by
  cases out with
  | adopted confidenceGain =>
    exact le_min (by linarith) zero_le_one
  | rejected reason => exact le_max_right _ _
  | contradicted => exact le_max_right _ _
  | outdated => exact h

theorem update_negative_le (h : 0 ≤ kpi.adoptionRate) (hn : outcome.isNegative) (now : DateTime) :
    (kpi.update outcome now).adoptionRate ≤ kpi.adoptionRate ∧
      (kpi.update outcome now).composite ≤ kpi.recompute.composite := by
  have ha : max (kpi.adoptionRate*(9 / 10)) 0 ≤ kpi.adoptionRate := max_le (by linarith) h
  cases outcome with
  | adopted confidenceGain => cases hn
  | outdated => cases hn
  | rejected reason =>
    exact ⟨ha,clamp_mono (score_mono ha rfl rfl le_rfl (le_saturatingSucc _) rfl)⟩
  | contradicted =>
    exact ⟨ha,clamp_mono (score_mono ha rfl rfl (le_saturatingSucc _) (le_saturatingSucc _) rfl)⟩

theorem composite_update_new_pos (hn : outcome.isNegative) (agent : AgentId) (clk now : DateTime) :
    0 < ((ReputationKpi.new agent clk : ReputationKpi K).update outcome now).composite := by
  have ht : min (((saturatingSucc 0).toNat : K) / 10) 1 ≤ 1 / 10 := by
    have ho : (saturatingSucc 0).toNat = 1 := rfl
    rw [ho,Nat.cast_one]
    exact min_le_left _ _
  have hz : min ((((0 : UInt32).toNat : ℕ) : K) / 10) 1 = 0 := by simp
  have hp : ∀ {x : K}, 0 < x → 0 < clamp x 0 1 := by
    intro x hx
    unfold clamp
    rw [if_neg hx.le.not_gt]
    split_ifs
    · exact zero_lt_one
    · exact hx
  have hs : 0 < ((ReputationKpi.new agent clk : ReputationKpi K).update outcome now).score := by
    cases outcome with
    | adopted confidenceGain => cases hn
    | outdated => cases hn
    | rejected reason =>
      simp only [ReputationKpi.update,ReputationKpi.new,ReputationKpi.recompute,ReputationKpi.score,hz,zero_mul,
        max_self]
      linarith
    | contradicted =>
      simp only [ReputationKpi.update,ReputationKpi.new,ReputationKpi.recompute,ReputationKpi.score,hz,zero_mul,
        max_self]
      linarith
  exact hp hs

end Records

section Steps

variable {calendar} {s : EngineState K}

theorem submitFeedback_cases (calendar : Calendar) (s : EngineState K) (call : FeedbackCall K) :
    ((∀ publisher, (submitFeedback calendar s call).1 ≠ some (.ok publisher)) ∧ (submitFeedback calendar s call).2 = s) ∨
    ∃ publisher, submitFeedback calendar s call = (some (.ok publisher),
      apply { s with replayIds := call.feedback.payload.replayId::s.replayIds } call publisher) := by
  unfold submitFeedback
  cases hv : validate calendar call with
  | none => exact .inl ⟨by simp,rfl⟩
  | some outcome =>
    cases outcome with
    | error err => exact .inl ⟨by simp,rfl⟩
    | ok publisher =>
      by_cases hr : call.feedback.payload.replayId ∈ s.replayIds
      · exact .inl ⟨by simp [hr],by simp [hr]⟩
      · exact .inr ⟨publisher,if_neg hr⟩

omit [LinearOrder K] in
theorem lookup_kpis_enroll (s : EngineState K) (publisher agent : AgentId) (clk : DateTime) :
    (enroll s publisher clk).kpis.lookup agent =
      if agent = publisher then some ((s.kpis.lookup publisher).getD (.new publisher clk)) else s.kpis.lookup agent := by
  unfold enroll
  split_ifs with hk ha ha
  · obtain ⟨kpi, hp⟩ := Option.isSome_iff_exists.mp hk
    rw [ha, hp, Option.getD_some]
  · rfl
  · rw [register, lookup_orPut, if_pos ha]
  · rw [register, lookup_orPut, if_neg ha]

omit [LinearOrder K] in
theorem lookup_bonds_enroll {s : EngineState K} {publisher : AgentId}
    (hk : (s.kpis.lookup publisher).isSome = (s.bonds.lookup publisher).isSome) (agent : AgentId) (clk : DateTime) :
    (enroll s publisher clk).bonds.lookup agent =
      if agent = publisher then some ((s.bonds.lookup publisher).getD (.new publisher clk))
      else s.bonds.lookup agent := by
  unfold enroll
  rw [hk]
  split_ifs with hn ha ha
  · obtain ⟨bond, hb⟩ := Option.isSome_iff_exists.mp hn
    rw [ha, hb, Option.getD_some]
  · rfl
  · rw [register, lookup_orPut, if_pos ha]
  · rw [register, lookup_orPut, if_neg ha]

theorem lookup_kpis_apply (s : EngineState K) (call : FeedbackCall K) (publisher agent : AgentId) :
    (apply s call publisher).kpis.lookup agent =
      if agent = publisher then
        some (((s.kpis.lookup publisher).getD (.new publisher call.clock)).update call.feedback.payload.outcome call.now)
      else s.kpis.lookup agent := by
  show (put _ publisher _).lookup agent = _
  rw [lookup_put,lookup_kpis_enroll,lookup_kpis_enroll,if_pos rfl,Option.getD_some]
  split_ifs <;> rfl

theorem lookup_bonds_apply {s : EngineState K} (call : FeedbackCall K) {publisher : AgentId}
    (hk : (s.kpis.lookup publisher).isSome = (s.bonds.lookup publisher).isSome) (agent : AgentId) :
    (apply s call publisher).bonds.lookup agent =
      if agent = publisher then
        some (if call.feedback.payload.outcome.isContradicted then
            ((s.bonds.lookup publisher).getD (.new publisher call.clock)).demote .contributor
          else (s.bonds.lookup publisher).getD (.new publisher call.clock))
      else s.bonds.lookup agent := by
  unfold apply
  simp only [lookup_bonds_enroll hk publisher,if_true]
  by_cases hc : call.feedback.payload.outcome.isContradicted
  · simp only [hc,if_true]
    rw [lookup_put]
    split_ifs with ha
    · rfl
    · rw [lookup_bonds_enroll hk,if_neg ha]
  · simp only [hc]
    exact lookup_bonds_enroll hk agent call.clock

end Steps

section Runs

variable [IsStrictOrderedRing K] {calendar} {s : EngineState K}

/-- A record with an adoption rate that is not negative, and either a settled score or no event at all. -/
def Believable (agent : AgentId) (kpi : ReputationKpi K) : Prop :=
  0 ≤ kpi.adoptionRate ∧ (Settled kpi ∨ ∃ clock, kpi = .new agent clock)

structure Kept (s : EngineState K) : Prop where
  keys : ∀ agent, (s.kpis.lookup agent).isSome = (s.bonds.lookup agent).isSome
  believable : ∀ agent kpi, s.kpis.lookup agent = some kpi → Believable agent kpi

omit [IsStrictOrderedRing K] in
theorem believable_new (agent : AgentId) (clk : DateTime) : Believable agent (.new agent clk : ReputationKpi K) :=
  ⟨le_rfl, .inr ⟨clk, rfl⟩⟩

omit [IsStrictOrderedRing K] in
theorem kept_new : Kept (new : EngineState K) := ⟨fun _ => rfl, by simp [new]⟩

omit [IsStrictOrderedRing K] in
theorem Kept.believable_getD (h : Kept s) (agent : AgentId) (clk : DateTime) :
    Believable agent ((s.kpis.lookup agent).getD (.new agent clk)) := by
  cases hk : s.kpis.lookup agent with
  | some kpi => exact h.believable agent kpi hk
  | none => exact believable_new agent clk

omit [IsStrictOrderedRing K] in
theorem Kept.register (h : Kept s) (agent : AgentId) (clk : DateTime) : Kept (register s agent clk) := by
  constructor
  · intro other
    rw [ReputationEngine.register, lookup_orPut, lookup_orPut]
    split_ifs
    · rfl
    · exact h.keys other
  · intro other kpi hk
    rw [ReputationEngine.register, lookup_orPut] at hk
    split_ifs at hk with ho
    · rw [← Option.some.inj hk, ho]
      exact h.believable_getD agent clk
    · exact h.believable other kpi hk

theorem Kept.apply (h : Kept s) (call : FeedbackCall K) (publisher : AgentId) : Kept (apply s call publisher) := by
  constructor
  · intro agent
    rw [lookup_kpis_apply,lookup_bonds_apply call (h.keys publisher)]
    split_ifs
    · rfl
    · rfl
    · exact h.keys agent
  · intro agent kpi hk
    rw [lookup_kpis_apply] at hk
    split_ifs at hk with ha
    · rw [← Option.some.inj hk]
      exact ⟨adoptionRate_update_nonneg (h.believable_getD publisher call.clock).1 _ _, .inl (settled_update _ _ _)⟩
    · exact h.believable agent kpi hk

omit [IsStrictOrderedRing K] in
theorem Kept.recordImmuneContribution (h : Kept s) (agent : AgentId) : Kept (recordImmuneContribution s agent) := by
  unfold ReputationEngine.recordImmuneContribution
  cases hk : s.kpis.lookup agent with
  | none => exact h
  | some kpi =>
    constructor
    · intro other
      rw [lookup_put]
      split_ifs with ho
      · rw [ho, ← h.keys agent, hk]
        rfl
      · exact h.keys other
    · intro other held hh
      rw [lookup_put] at hh
      split_ifs at hh
      · rw [← Option.some.inj hh]
        exact ⟨(h.believable agent kpi hk).1, .inl (settled_recompute _)⟩
      · exact h.believable other held hh

omit [IsStrictOrderedRing K] in
theorem Kept.recalcBonds (h : Kept s) : Kept (recalcBonds s) := by
  constructor
  · intro agent
    rw [ReputationEngine.recalcBonds, lookup_map_value (fun agent (bond : ReputationBond K) =>
      ((s.kpis.lookup agent).map bond.promoteIfQualified).getD bond), Option.isSome_map]
    exact h.keys agent
  · exact h.believable

theorem Kept.step (h : Kept s) (op : EngineOp K) : Kept (step calendar s op) := by
  cases op with
  | register agent clk => exact h.register agent clk
  | submitFeedback call =>
    rcases submitFeedback_cases calendar s call with ⟨-,hs⟩ | ⟨publisher,hu⟩
    · show Kept (submitFeedback calendar s call).2
      rwa [hs]
    · have he : Kept { s with replayIds := call.feedback.payload.replayId::s.replayIds } := ⟨h.keys,h.believable⟩
      show Kept (submitFeedback calendar s call).2
      rw [hu]
      exact he.apply call publisher
  | recordImmuneContribution agent => exact h.recordImmuneContribution agent
  | recalcBonds => exact h.recalcBonds

/-- What the engine says of an agent; one it has no record of counts as registered just now. -/
def adoptionRateOf (s : EngineState K) (agent : AgentId) : K := ((s.kpis.lookup agent).map (·.adoptionRate)).getD 0

def compositeOf (s : EngineState K) (agent : AgentId) : K := ((s.kpis.lookup agent).map (·.composite)).getD 0

def bondLevelOf (s : EngineState K) (agent : AgentId) : BondLevel :=
  ((s.bonds.lookup agent).map (·.bondLevel)).getD .observer

def NotRaised (s s' : EngineState K) (agent : AgentId) : Prop :=
  adoptionRateOf s' agent ≤ adoptionRateOf s agent ∧ compositeOf s' agent ≤ compositeOf s agent ∧
    (bondLevelOf s' agent).toNat ≤ (bondLevelOf s agent).toNat

instance decidableNotRaised (s s' : EngineState K) (agent : AgentId) : Decidable (NotRaised s s' agent) :=
  inferInstanceAs (Decidable (_ ∧ _ ∧ _))

def Untouched (s s' : EngineState K) (agent : AgentId) : Prop :=
  s'.kpis.lookup agent = s.kpis.lookup agent ∧ s'.bonds.lookup agent = s.bonds.lookup agent

def CanOnlyLose (s : EngineState K) (outcome : AdoptionOutcome K) (publisher : AgentId) : Prop :=
  (∃ kpi, s.kpis.lookup publisher = some kpi ∧ Settled kpi) ∧
    (outcome.isContradicted → bondLevelOf s publisher ≠ .observer)

omit [Field K] [LinearOrder K] [IsStrictOrderedRing K] in
theorem demote_le_iff (bond : ReputationBond K) :
    (bond.demote .contributor).bondLevel.toNat ≤ bond.bondLevel.toNat ↔ bond.bondLevel ≠ .observer := by
  cases hl : bond.bondLevel <;> simp [ReputationBond.demote, BondLevel.toNat]

theorem notRaised_apply_iff (h : Kept s) (call : FeedbackCall K) (publisher : AgentId)
    (hn : call.feedback.payload.outcome.isNegative) :
    NotRaised s (apply s call publisher) publisher ↔ CanOnlyLose s call.feedback.payload.outcome publisher := by
  have hk := lookup_kpis_apply s call publisher publisher
  have hb := lookup_bonds_apply call (h.keys publisher) publisher
  rw [if_pos rfl] at hk hb
  have he : (bondLevelOf (apply s call publisher) publisher).toNat ≤ (bondLevelOf s publisher).toNat ↔
      (call.feedback.payload.outcome.isContradicted → bondLevelOf s publisher ≠ .observer) := by
    have ho : bondLevelOf s publisher = ((s.bonds.lookup publisher).getD (.new publisher call.clock)).bondLevel := by
      unfold bondLevelOf
      cases s.bonds.lookup publisher <;> rfl
    rw [bondLevelOf,hb,ho]
    by_cases hc : call.feedback.payload.outcome.isContradicted
    · simpa [hc] using demote_le_iff _
    · simp [hc]
  unfold NotRaised CanOnlyLose
  rw [he,adoptionRateOf,adoptionRateOf,compositeOf,compositeOf,hk,← and_assoc]
  refine and_congr_left (fun _ => ?_)
  cases hkn : s.kpis.lookup publisher with
  | none =>
    have hp : 0 < (((ReputationKpi.new publisher call.clock : ReputationKpi K).update
        call.feedback.payload.outcome call.now)).composite := composite_update_new_pos hn _ _ _
    refine iff_of_false ?_ (by simp)
    rintro ⟨-,hl⟩
    exact absurd hl (not_le.mpr hp)
  | some kpi =>
    obtain ⟨hno,hs⟩ := h.believable publisher kpi hkn
    obtain ⟨ha,hm⟩ := update_negative_le hno hn call.now
    simp only [Option.map_some,Option.getD_some,Option.some.injEq,exists_eq_left']
    constructor
    · rintro ⟨-,hl⟩
      rcases hs with hs | ⟨clk,rfl⟩
      · exact hs
      · exact absurd hl (not_le.mpr (composite_update_new_pos hn publisher clk call.now))
    · intro hs
      exact ⟨ha,hm.trans_eq hs⟩

/-- Whatever has happened before: accepted negative feedback raises nothing of the publisher's and touches nobody else
exactly if the publisher can only lose by it, and refused feedback leaves everything as it was. -/
theorem negative_feedback_iff (calendar : Calendar) (ops : List (EngineOp K)) (call : FeedbackCall K) :
    (∀ publisher, (submitFeedback calendar (run (step calendar) new ops) call).1 = some (.ok publisher) →
      call.feedback.payload.outcome.isNegative →
      (NotRaised (run (step calendar) new ops) (submitFeedback calendar (run (step calendar) new ops) call).2 publisher ∧
        (∀ agent, agent ≠ publisher → Untouched (run (step calendar) new ops)
          (submitFeedback calendar (run (step calendar) new ops) call).2 agent) ↔
        CanOnlyLose (run (step calendar) new ops) call.feedback.payload.outcome publisher)) ∧
    ((∀ publisher, (submitFeedback calendar (run (step calendar) new ops) call).1 ≠ some (.ok publisher)) →
      (submitFeedback calendar (run (step calendar) new ops) call).2 = run (step calendar) new ops) := by
  have hk : Kept (run (step calendar) (new : EngineState K) ops) :=
    @run_preserves _ _ (step calendar) Kept (fun _ op hs => hs.step op) _ kept_new ops
  generalize run (step calendar) new ops = s at hk ⊢
  rcases submitFeedback_cases calendar s call with ⟨hr, hs⟩ | ⟨publisher, hu⟩
  · exact ⟨fun publisher ha => absurd ha (hr publisher), fun _ => hs⟩
  · rw [hu]
    have he : Kept { s with replayIds := call.feedback.payload.replayId::s.replayIds } :=
      ⟨hk.keys, hk.believable⟩
    refine ⟨fun other ha hn => ?_, fun hr => absurd rfl (hr publisher)⟩
    obtain rfl : publisher = other := by simpa using ha
    rw [and_iff_left]
    · exact notRaised_apply_iff he call publisher hn
    · intro agent hg
      constructor
      · rw [lookup_kpis_apply, if_neg hg]
      · rw [lookup_bonds_apply call (he.keys publisher), if_neg hg]

end Runs

/-- A rejection or a contradiction, accepted, of entry 1 of agent `p`. -/
def sampleCall (outcome : AdoptionOutcome ℚ) (replayId : Uuid) : FeedbackCall ℚ :=
  ⟨⟨⟨1, "c", outcome, none, 10 ^ 18, replayId⟩, "c", "valid"⟩, 10 ^ 18, 10 ^ 18, fun _ => some "p", fun _ _ => true,
    fun _ _ signature => signature = "valid"⟩

def sampleCalendar : Calendar := ⟨0, 10 ^ 20⟩

theorem negative_feedback_iff_sample :
    let s := run (step sampleCalendar) new [.register "p" 0, .submitFeedback (sampleCall .outdated 1)];
    let call := sampleCall (.rejected "") 2;
    (∀ publisher, (submitFeedback sampleCalendar s call).1 = some (.ok publisher) →
      call.feedback.payload.outcome.isNegative →
      (NotRaised s (submitFeedback sampleCalendar s call).2 publisher ∧
        (∀ agent, agent ≠ publisher → Untouched s (submitFeedback sampleCalendar s call).2 agent) ↔
        CanOnlyLose s call.feedback.payload.outcome publisher)) ∧
    ((∀ publisher, (submitFeedback sampleCalendar s call).1 ≠ some (.ok publisher)) →
      (submitFeedback sampleCalendar s call).2 = s) :=
  negative_feedback_iff sampleCalendar _ _

/-- A registered agent, contradicted once, has a score and a bond that it did not have. -/
theorem raised_by_contradiction :
    let s := run (step sampleCalendar) new [.register "p" 0];
    let after := submitFeedback sampleCalendar s (sampleCall .contradicted 1);
    after.1 = some (.ok "p") ∧ compositeOf s "p" = 0 ∧ compositeOf after.2 "p" = 9 / 40 ∧
      bondLevelOf s "p" = .observer ∧ bondLevelOf after.2 "p" = .contributor ∧ ¬ NotRaised s after.2 "p" := by
  decide +kernel

end ReputationEngine

end UwuContextDb.Marketplace
