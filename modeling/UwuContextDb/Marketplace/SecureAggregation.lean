import Mathlib.Algebra.Order.Field.Basic
import Mathlib.Algebra.BigOperators.Group.List.Basic
import Mathlib.Data.List.Sort
import Mathlib.Data.String.Basic
import Mathlib.Tactic.Linarith
import Mathlib.Tactic.Ring
import UwuContextDb.Core.Model
import UwuContextDb.Library.Run

/-! `SecureAggregationEngine`: contributions are clipped, noised, signed and split into shares, and an aggregator adds up
the contributions it validates. Numbers are those of an ordered field. -/

namespace UwuContextDb.Marketplace

open StateMachine

abbrev AgentId := String

section Numerals

-- Every module finds these numerals of a field by name.
scoped instance two_atLeastTwo : Nat.AtLeastTwo 2 := ⟨by decide⟩
scoped instance three_atLeastTwo : Nat.AtLeastTwo 3 := ⟨by decide⟩
scoped instance four_atLeastTwo : Nat.AtLeastTwo 4 := ⟨by decide⟩
scoped instance five_atLeastTwo : Nat.AtLeastTwo 5 := ⟨by decide⟩
scoped instance nine_atLeastTwo : Nat.AtLeastTwo 9 := ⟨by decide⟩
scoped instance ten_atLeastTwo : Nat.AtLeastTwo 10 := ⟨by decide⟩
scoped instance twenty_atLeastTwo : Nat.AtLeastTwo 20 := ⟨by decide⟩

end Numerals

section Data

variable (K : Type)

structure DpBudget where
  epsilon : K
  delta : K
  l1Sensitivity : K
  clipNorm : K

structure KnowledgeProvenancePayload where
  publisher : AgentId
  content : String
  evidenceUris : List ContextUri
  evidenceChainHash : String
  qualityScore : K
  confidence : K
  epistemicType : EpistemicType
  contentType : ContentType
  createdAt : DateTime
  deriving DecidableEq

structure KnowledgeProvenance where
  publisher : AgentId
  publicKey : String
  signature : String
  evidenceChainHash : String
  signedAt : DateTime
  deriving DecidableEq

structure PrivateContribution where
  contributor : AgentId
  entryId : Uuid
  value : K
  evidenceUris : List ContextUri
  qualityScore : K
  confidence : K
  epistemicType : EpistemicType
  contentType : ContentType
  createdAt : DateTime

structure ContributionCommitment where
  contributor : AgentId
  entryId : Uuid
  provenance : KnowledgeProvenance
  payloadHash : String
  clippedValue : K
  noisedValue : K
  noiseScale : K
  shareChecksum : String
  createdAt : DateTime

structure SecretShare where
  contributor : AgentId
  entryId : Uuid
  receiver : AgentId
  shareIndex : ℕ
  shareValue : K
  checksum : String

structure SharedContribution where
  commitment : ContributionCommitment K
  shares : List (SecretShare K)

structure SecureAggregationRejection where
  contributor : AgentId
  reason : String

structure SecureAggregateReport where
  entryId : Uuid
  participants : List AgentId
  aggregateValue : K
  meanValue : K
  epsilonSpent : K
  delta : K
  accepted : ℕ
  rejected : List SecureAggregationRejection
  aggregateHash : String

end Data

inductive SecureAggregationError
  | invalidBudget (reason : String)
  | emptyReceivers
  | invalidShareCount
  | invalidSignature (reason : String)
  | invalidChecksum (reason : String)
  | entryMismatch
  | duplicateContributor
  | serialization (reason : String)
  | noValidContributions
  deriving DecidableEq

/-- `Display`. -/
def SecureAggregationError.text : SecureAggregationError → String
  | .invalidBudget reason => s!"invalid DP budget: {reason}"
  | .emptyReceivers => "at least one share receiver is required"
  | .invalidShareCount => "share count does not match receivers"
  | .invalidSignature reason => s!"invalid provenance signature: {reason}"
  | .invalidChecksum reason => s!"invalid share checksum: {reason}"
  | .entryMismatch => "all contributions must target the same market entry"
  | .duplicateContributor => "duplicate contributor"
  | .serialization reason => s!"secure aggregation serialization: {reason}"
  | .noValidContributions => "no valid contributions to aggregate"

/-- What the protocol takes from other libraries: `blake3` in hexadecimal and as its first eight bytes, the hash of a
payload's JSON, the logarithm, `{:.6}` of a number and the text of a UUID. -/
structure AggregationLibraries (K : Type) where
  blake3 : String → String
  firstBytes : String → UInt64
  payloadHash : KnowledgeProvenancePayload K → Except String String
  jsonHash : List (String × String) → String
  ln : K → K
  fixed6 : K → String
  uuidText : Uuid → String

variable {K : Type} [Field K] [LinearOrder K]

/-- `KnowledgeSigner` and `ProvenanceVerifier`. -/
abbrev KnowledgeSigner (K : Type) := KnowledgeProvenancePayload K → Except String KnowledgeProvenance

abbrev ProvenanceVerifier (K : Type) := KnowledgeProvenancePayload K → KnowledgeProvenance → Except String Unit

namespace DpBudget

variable (budget : DpBudget K)

def validate : Except SecureAggregationError Unit :=
  if budget.epsilon ≤ 0 then .error (.invalidBudget "epsilon must be positive")
  else if ¬ (0 ≤ budget.delta ∧ budget.delta < 1) then .error (.invalidBudget "delta must be in [0, 1)")
  else if budget.l1Sensitivity ≤ 0 ∨
    budget.clipNorm ≤ 0 then .error (.invalidBudget "sensitivity and clip norm must be positive")
  else .ok ()

def noiseScale : K := budget.l1Sensitivity / budget.epsilon

end DpBudget

section Protocol

variable (libraries lib : AggregationLibraries K)

def evidenceChainHash (uris : List ContextUri) : String :=
  libraries.blake3 ("\n".intercalate ((uris.map (·.canonical)).insertionSort (· ≤ ·)))

def provenancePayload (contributor : AgentId) (entryId : Uuid) (qualityScore : K) (createdAt : DateTime) :
    KnowledgeProvenancePayload K where
  publisher := contributor
  content := "secure-aggregate:" ++ libraries.uuidText entryId
  evidenceUris := []
  evidenceChainHash := evidenceChainHash libraries []
  qualityScore := qualityScore
  confidence := 1
  epistemicType := .fact
  contentType := .metaMemory
  createdAt := createdAt

/-- `HashProvenanceVerifier`. -/
def hashVerifier : ProvenanceVerifier K := fun payload provenance =>
  if provenance.publisher ≠ payload.publisher then .error "publisher mismatch"
  else if provenance.evidenceChainHash ≠ payload.evidenceChainHash then .error "evidence chain hash mismatch"
  else do
    let expected ← libraries.payloadHash payload
    if provenance.signature ≠ expected then .error "signature hash mismatch" else .ok ()

def deterministicUnit (seed : String) : K := ((libraries.firstBytes seed).toNat : K) / (2 ^ 64 - 1)

/-- `f32::clamp`. -/
def clamp (value low high : K) : K := if value < low then low else if high < value then high else value

def deterministicLaplaceNoise (seed : String) (scale : K) : K :=
  let u := clamp (deterministicUnit libraries seed) (1 / 1000000) (1 - 1 / 1000000) - 1 / 2
  let sign : K := if u < 0 then -1 else 1;
  -scale * sign * libraries.ln (1 - 2 * |u|)

def shareChecksum (share : SecretShare K) : String :=
  libraries.blake3 (":".intercalate [share.contributor, libraries.uuidText share.entryId, share.receiver,
    toString share.shareIndex, libraries.fixed6 share.shareValue])

def sharesChecksum (shares : List (SecretShare K)) : String :=
  libraries.blake3 ("\n".intercalate ((shares.map (·.checksum)).insertionSort (· ≤ ·)))

/-- One share of `split_secret`, with its checksum. -/
def newShare (contributor : AgentId) (entryId : Uuid) (receiver : AgentId) (index : ℕ) (value : K) : SecretShare K :=
  let share : SecretShare K := ⟨contributor, entryId, receiver, index, value, ""⟩
  { share with checksum := shareChecksum libraries share }

/-- The loop of `split_secret` over the receivers left, after `sum` was given out: the last one gets the rest. -/
def splitFrom (contributor : AgentId) (entryId : Uuid) (secret : K) (seed : String) : ℕ → K → List AgentId →
    List (SecretShare K)
  | _, _, [] => []
  | index, sum, receiver::receivers =>
    let value := if receivers.isEmpty then secret - sum
      else deterministicUnit libraries (":".intercalate [seed, toString index, receiver]) * 2 - 1
    newShare libraries contributor entryId receiver index value ::
      splitFrom contributor entryId secret seed (index + 1) (sum + value) receivers

def splitSecret (contributor : AgentId) (entryId : Uuid) (secret : K) (receivers : List AgentId) (seed : String) :
    List (SecretShare K) :=
  splitFrom libraries contributor entryId secret seed 0 0 receivers

end Protocol

/-- `SecureAggregationEngine`, as `new` builds it. -/
structure SecureAggregationEngine (K : Type) [Field K] [LinearOrder K] where
  budget : DpBudget K
  receivers : List AgentId
  valid : budget.validate = .ok ()
  nonempty : receivers ≠ []

namespace SecureAggregationEngine

def new (budget : DpBudget K) (receivers : List AgentId) : Except SecureAggregationError (SecureAggregationEngine K) :=
  match hvalid : budget.validate with
  | .error e => .error e
  | .ok () => if hempty : receivers = [] then .error .emptyReceivers else .ok ⟨budget, receivers, hvalid, hempty⟩

variable (libraries lib : AggregationLibraries K) (engine : SecureAggregationEngine K)

def signedPayload (contributor : AgentId) (entryId : Uuid) (clipped : K) (createdAt : DateTime) :
    KnowledgeProvenancePayload K :=
  provenancePayload libraries contributor entryId (min |clipped| 1) createdAt

/-- `share_contribution`, at the clock reading `now`. -/
def shareContribution (contribution : PrivateContribution K) (signer : KnowledgeSigner K) (now : DateTime) :
    Except SecureAggregationError (SharedContribution K) := do
  let clipped := clamp contribution.value (-engine.budget.clipNorm) engine.budget.clipNorm
  let payload := signedPayload libraries contribution.contributor contribution.entryId clipped now
  let provenance ← (signer payload).mapError .invalidSignature
  let payloadHash ← (libraries.payloadHash payload).mapError .invalidSignature
  let noised := clipped + deterministicLaplaceNoise libraries payloadHash engine.budget.noiseScale
  let shares := splitSecret libraries contribution.contributor contribution.entryId noised engine.receivers payloadHash
  return ⟨⟨contribution.contributor, contribution.entryId, provenance, payloadHash, clipped, noised,
    engine.budget.noiseScale, sharesChecksum libraries shares, now⟩, shares⟩

def checkShare (pair : SecretShare K × AgentId) : Except SecureAggregationError Unit :=
  if pair.1.receiver ≠ pair.2 then .error (.invalidChecksum "receiver order mismatch")
  else if pair.1.checksum ≠ shareChecksum libraries pair.1 then .error (.invalidChecksum "share checksum mismatch")
  else .ok ()

def validateShared (shared : SharedContribution K) (entryId : Uuid) (verifier : ProvenanceVerifier K) :
    Except SecureAggregationError K :=
  if shared.commitment.entryId ≠ entryId then .error .entryMismatch
  else if shared.shares.length ≠ engine.receivers.length then .error .invalidShareCount
  else if sharesChecksum libraries shared.shares ≠ shared.commitment.shareChecksum then
    .error (.invalidChecksum "commitment checksum mismatch")
  else do
    forM (shared.shares.zip engine.receivers) (checkShare libraries)
    (verifier (signedPayload libraries shared.commitment.contributor shared.commitment.entryId
      shared.commitment.clippedValue
      shared.commitment.createdAt) shared.commitment.provenance).mapError .invalidSignature
    let reconstructed := (shared.shares.map (·.shareValue)).sum
    if 1 / 1000 < |reconstructed - shared.commitment.noisedValue| then .error (.invalidChecksum "share sum mismatch")
    else .ok reconstructed

/-- What the loop of `aggregate` has gathered; `seen` holds the participants as well. -/
structure Tally (K : Type) where
  participants : List AgentId
  aggregateValue : K
  rejected : List SecureAggregationRejection

/-- The body of the loop of `aggregate`. -/
def admitContribution (entryId : Uuid) (verifier : ProvenanceVerifier K) (tally : Tally K) (shared : SharedContribution K) :
    Except SecureAggregationError (Tally K) :=
  match engine.validateShared libraries shared entryId verifier with
  | .ok value =>
    if shared.commitment.contributor ∈ tally.participants then .error .duplicateContributor
    else .ok { tally with participants := tally.participants ++ [shared.commitment.contributor],
                          aggregateValue := tally.aggregateValue + value }
  | .error err => .ok { tally with rejected := tally.rejected ++ [⟨shared.commitment.contributor, err.text⟩] }

/-- `aggregate_hash`: strings always serialize. -/
def aggregateHash (entryId : Uuid) (tally : Tally K) : String :=
  libraries.jsonHash [("entry_id", libraries.uuidText entryId), ("aggregate", libraries.fixed6 tally.aggregateValue),
    ("participants", ",".intercalate tally.participants),
    ("rejected", ",".intercalate (tally.rejected.map (fun item => item.contributor ++ ":" ++ item.reason)))]

def aggregate (contributions : List (SharedContribution K)) (verifier : ProvenanceVerifier K) :
    Except SecureAggregationError (SecureAggregateReport K) :=
  match contributions with
  | [] => .error .entryMismatch
  | first::_ => do
    let tally ← contributions.foldlM (engine.admitContribution libraries first.commitment.entryId verifier) ⟨[], 0, []⟩
    let accepted := tally.participants.length
    if accepted = 0 then .error .noValidContributions
    else return ⟨first.commitment.entryId, tally.participants, tally.aggregateValue, tally.aggregateValue / (accepted : K),
      engine.budget.epsilon * (accepted : K), engine.budget.delta, accepted, tally.rejected,
      aggregateHash libraries first.commitment.entryId tally⟩

section Shares

variable {libraries lib : AggregationLibraries K} {contributor : AgentId} {entryId : Uuid} {secret : K} {seed : String}

omit [LinearOrder K] in
theorem length_splitFrom (index : ℕ) (sum : K) (receivers : List AgentId) :
    (splitFrom lib contributor entryId secret seed index sum receivers).length = receivers.length := by
  induction receivers generalizing index sum with
  | nil => rfl
  | cons receiver receivers ih => simp [splitFrom, ih]

omit [LinearOrder K] in
theorem sum_splitFrom (index : ℕ) (sum : K) {receivers : List AgentId} (hn : receivers ≠ []) :
    ((splitFrom lib contributor entryId secret seed index sum receivers).map (·.shareValue)).sum = secret - sum := by
  induction receivers generalizing index sum with
  | nil => exact absurd rfl hn
  | cons receiver receivers ih =>
    cases receivers with
    | nil => simp [splitFrom, newShare]
    | cons next receivers =>
      rw [splitFrom, List.map_cons, List.sum_cons, ih _ _ (List.cons_ne_nil _ _)]
      simp only [newShare]
      ring

omit [LinearOrder K] in
theorem checkShare_splitFrom (index : ℕ) (sum : K) (receivers : List AgentId) :
    forM ((splitFrom lib contributor entryId secret seed index sum receivers).zip receivers)
    (checkShare lib) = .ok () := by
  induction receivers generalizing index sum with
  | nil => rfl
  | cons receiver receivers ih =>
    have hc : ∀ v,
        checkShare lib (newShare lib contributor entryId receiver index v, receiver) = .ok () := by
      intro v
      simp [checkShare, newShare, shareChecksum]
    rw [splitFrom, List.zip_cons_cons, List.forM_cons, hc]
    exact ih _ _

end Shares

section Validation

variable [IsStrictOrderedRing K] {libraries lib : AggregationLibraries K} {engine : SecureAggregationEngine K}
    {verifier : ProvenanceVerifier K}

def commit (libraries : AggregationLibraries K) (engine : SecureAggregationEngine K)
    (contributor : AgentId) (entryId : Uuid) (provenance : KnowledgeProvenance) (payloadHash : String)
    (clipped noised : K) (createdAt : DateTime) : SharedContribution K :=
  let shares := splitSecret libraries contributor entryId noised engine.receivers payloadHash
  ⟨⟨contributor, entryId, provenance, payloadHash, clipped, noised, engine.budget.noiseScale,
    sharesChecksum libraries shares, createdAt⟩, shares⟩

variable {contributor : AgentId} {entryId : Uuid} {provenance : KnowledgeProvenance} {createdAt : DateTime}
  {shared : SharedContribution K}

theorem validateShared_commit {clipped : K}
    (hv : verifier (signedPayload lib contributor entryId clipped createdAt) provenance = .ok ())
    (payloadHash : String) (noised : K) :
    engine.validateShared lib
    (commit lib engine contributor entryId provenance payloadHash clipped noised createdAt) entryId
      verifier = .ok noised := by
  have hl : (splitSecret lib contributor entryId noised engine.receivers payloadHash).length =
      engine.receivers.length :=
    length_splitFrom 0 0 engine.receivers
  have hc : forM ((splitSecret lib contributor entryId noised engine.receivers payloadHash).zip engine.receivers)
      (checkShare lib) = .ok () := checkShare_splitFrom 0 0 engine.receivers
  have hs : ((splitSecret lib contributor entryId noised engine.receivers payloadHash).map
      (·.shareValue)).sum = noised := by
    rw [splitSecret,sum_splitFrom 0 0 engine.nonempty,sub_zero]
  have ho : ¬ 1 / 1000 < |noised - noised| := by
    rw [sub_self,abs_zero,not_lt]
    positivity
  simp only [validateShared,commit,ne_eq,not_true_eq_false,if_false,hl,hc,hv,hs,ho]
  rfl

omit [IsStrictOrderedRing K] in
theorem verified_of_validateShared {v : K}
    (h : engine.validateShared lib shared entryId verifier = .ok v) :
    verifier (signedPayload lib shared.commitment.contributor shared.commitment.entryId shared.commitment.clippedValue
      shared.commitment.createdAt) shared.commitment.provenance = .ok () := by
  unfold validateShared at h
  split at h
  · cases h
  · split at h
    · cases h
    · split at h
      · cases h
      · obtain ⟨_, -, h⟩ := bind_eq_ok.mp h
        obtain ⟨_, hv, -⟩ := bind_eq_ok.mp h
        cases ha : verifier (signedPayload lib shared.commitment.contributor shared.commitment.entryId
            shared.commitment.clippedValue shared.commitment.createdAt) shared.commitment.provenance with
        | ok _ => rfl
        | error e =>
          rw [ha] at hv
          cases hv

def Accepts (libraries : AggregationLibraries K) (engine : SecureAggregationEngine K) (verifier : ProvenanceVerifier K)
    (round : List (SharedContribution K)) (shared : SharedContribution K) (value : K) : Prop :=
  (∃ report, engine.aggregate libraries round verifier = .ok report) ∧ shared ∈ round ∧
    ∃ first ∈ round.head?, engine.validateShared libraries shared first.commitment.entryId verifier = .ok value

def Bounded (libraries : AggregationLibraries K) (engine : SecureAggregationEngine K) (verifier : ProvenanceVerifier K)
    (bound : K) : Prop :=
  ∀ round shared value, Accepts libraries engine verifier round shared value → |value| ≤ engine.budget.clipNorm + bound

def Covered (libraries : AggregationLibraries K) (engine : SecureAggregationEngine K)
    (verifier : ProvenanceVerifier K) : Prop :=
  ∀ round round' shared shared' value value', Accepts libraries engine verifier round shared value →
    Accepts libraries engine verifier round' shared' value' →
    signedPayload libraries shared.commitment.contributor shared.commitment.entryId shared.commitment.clippedValue
      shared.commitment.createdAt =
      signedPayload libraries shared'.commitment.contributor shared'.commitment.entryId shared'.commitment.clippedValue
        shared'.commitment.createdAt →
    shared.commitment.provenance = shared'.commitment.provenance → value = value'

def VerifiesNone (libraries : AggregationLibraries K) (verifier : ProvenanceVerifier K) : Prop :=
  ∀ contributor entryId clipped createdAt provenance,
    verifier (signedPayload libraries contributor entryId clipped createdAt) provenance ≠ .ok ()

variable (engine) in
theorem accepts_commit {clipped : K}
    (he : verifier (signedPayload libraries contributor entryId clipped createdAt) provenance = .ok ())
    (noised : K) :
    Accepts libraries engine verifier [commit libraries engine contributor entryId provenance "" clipped noised createdAt]
      (commit libraries engine contributor entryId provenance "" clipped noised createdAt) noised := by
  have hv : engine.validateShared libraries
      (commit libraries engine contributor entryId provenance "" clipped noised createdAt) entryId
      verifier = .ok noised := validateShared_commit he "" noised
  refine ⟨?_, by simp, _, rfl, hv⟩
  have ha : engine.admitContribution libraries entryId verifier ⟨[], 0, []⟩
      (commit libraries engine contributor entryId provenance "" clipped noised createdAt) =
        .ok ⟨[contributor], 0 + noised, []⟩ := by
    rw [admitContribution, hv]
    rfl
  have hr : [commit libraries engine contributor entryId provenance "" clipped noised createdAt].foldlM
      (engine.admitContribution libraries entryId verifier) ⟨[], 0, []⟩ = .ok ⟨[contributor], 0 + noised, []⟩ := by
    rw [List.foldlM_cons, ha]
    rfl
  refine ⟨⟨entryId, [contributor], 0 + noised, (0 + noised) / ((1 : ℕ) : K), engine.budget.epsilon * ((1 : ℕ) : K),
    engine.budget.delta, 1, [], aggregateHash libraries entryId ⟨[contributor], 0 + noised, []⟩⟩, ?_⟩
  show ([commit libraries engine contributor entryId provenance "" clipped noised createdAt].foldlM
    (engine.admitContribution libraries entryId verifier) ⟨[], 0, []⟩ >>= _) = _
  rw [hr]
  rfl

omit [IsStrictOrderedRing K] in
theorem verified_of_accepts {round : List (SharedContribution K)} {v : K}
    (h : Accepts lib engine verifier round shared v) : ¬ VerifiesNone lib verifier := by
  obtain ⟨-, -, first, -, hv⟩ := h
  intro hn
  exact hn _ _ _ _ _ (verified_of_validateShared hv)

theorem bounded_iff (bound : K) : Bounded lib engine verifier bound ↔ VerifiesNone lib verifier := by
  constructor
  · intro h contributor entryId clipped createdAt provenance hv
    have hb := h _ _ _ (accepts_commit engine hv (|engine.budget.clipNorm+bound| + 1))
    have hs := le_abs_self (engine.budget.clipNorm+bound)
    have hp := abs_nonneg (engine.budget.clipNorm+bound)
    rw [abs_of_nonneg (by linarith)] at hb
    linarith
  · intro h round shared v ha
    exact absurd h (verified_of_accepts ha)

theorem covered_iff : Covered lib engine verifier ↔ VerifiesNone lib verifier := by
  constructor
  · intro h contributor entryId clipped createdAt provenance hv
    have hs := h _ _ _ _ _ _ (accepts_commit engine hv 0) (accepts_commit engine hv 1) rfl rfl
    exact zero_ne_one hs
  · intro h round _ shared _ v _ ha
    exact absurd h (verified_of_accepts ha)

/-- What the protocol shares is validated and reconstructed. Accepted values are bounded, and covered by their signature,
exactly if the verifier accepts no signature at all. -/
theorem aggregate_sound_iff (libraries : AggregationLibraries K) (engine : SecureAggregationEngine K)
    (signer : KnowledgeSigner K) (verifier : ProvenanceVerifier K)
    (hsigner : ∀ payload provenance, signer payload = .ok provenance → verifier payload provenance = .ok ()) (bound : K) :
    (∀ contribution now shared, engine.shareContribution libraries contribution signer now = .ok shared →
      engine.validateShared libraries shared contribution.entryId verifier = .ok shared.commitment.noisedValue ∧
      (shared.shares.map (·.shareValue)).sum = shared.commitment.noisedValue) ∧
    (Bounded libraries engine verifier bound ↔ VerifiesNone libraries verifier) ∧
    (Covered libraries engine verifier ↔ VerifiesNone libraries verifier) := by
  refine ⟨?_, bounded_iff bound, covered_iff⟩
  intro contribution now shared h
  obtain ⟨provenance, hp, h⟩ := bind_eq_ok.mp h
  obtain ⟨payloadHash, -, h⟩ := bind_eq_ok.mp h
  obtain rfl := Except.ok.inj h
  have hv : verifier (signedPayload libraries contribution.contributor contribution.entryId
      (clamp contribution.value (-engine.budget.clipNorm) engine.budget.clipNorm) now) provenance = .ok () := by
    apply hsigner
    cases hs : signer (signedPayload libraries contribution.contributor contribution.entryId
        (clamp contribution.value (-engine.budget.clipNorm) engine.budget.clipNorm) now) with
    | ok _ =>
      rw [hs] at hp
      rw [Except.ok.inj hp]
    | error e =>
      rw [hs] at hp
      cases hp
  constructor
  · exact validateShared_commit hv payloadHash _
  · show ((splitSecret libraries _ _ _ engine.receivers payloadHash).map (·.shareValue)).sum = _
    rw [splitSecret, sum_splitFrom 0 0 engine.nonempty, sub_zero]

end Validation

def sampleLibraries : AggregationLibraries ℚ :=
  ⟨id, fun _ => 0, fun payload => .ok payload.content, fun _ => "", id, fun _ => "", fun _ => ""⟩

def sampleEngine : SecureAggregationEngine ℚ := ⟨⟨1, 0, 1, 1⟩, ["r"], by decide +kernel, by decide⟩

def sampleSigner : KnowledgeSigner ℚ := fun payload =>
    .ok ⟨payload.publisher, "", payload.content, payload.evidenceChainHash, 0⟩

theorem sampleSigner_verified (payload : KnowledgeProvenancePayload ℚ) (provenance : KnowledgeProvenance)
    (h : sampleSigner payload = .ok provenance) : hashVerifier sampleLibraries payload provenance = .ok () := by
  obtain rfl := Except.ok.inj h
  simp only [hashVerifier,ne_eq,not_true_eq_false,if_false,sampleLibraries]
  show (if payload.content ≠ payload.content then _ else _) = _
  rw [if_neg (not_not.mpr rfl)]

theorem aggregate_sound_iff_sample :
    (∀ contribution now shared, sampleEngine.shareContribution sampleLibraries contribution sampleSigner now = .ok shared →
      sampleEngine.validateShared sampleLibraries shared contribution.entryId (hashVerifier sampleLibraries) =
      .ok shared.commitment.noisedValue ∧
      (shared.shares.map (·.shareValue)).sum = shared.commitment.noisedValue) ∧
    (Bounded sampleLibraries sampleEngine (hashVerifier sampleLibraries) 14 ↔
      VerifiesNone sampleLibraries (hashVerifier sampleLibraries)) ∧
    (Covered sampleLibraries sampleEngine (hashVerifier sampleLibraries) ↔
      VerifiesNone sampleLibraries (hashVerifier sampleLibraries)) :=
  aggregate_sound_iff sampleLibraries sampleEngine sampleSigner (hashVerifier sampleLibraries) sampleSigner_verified 14

/-- What the signer signs for the clipped value one half of agent `a`. -/
def sampleProvenance : KnowledgeProvenance := ⟨"a", "", "secure-aggregate:", evidenceChainHash sampleLibraries [], 0⟩

/-- One signature, on the clipped value one half, lets one half and one thousand in. -/
theorem accepts_thousand : ∃ half thousand : SharedContribution ℚ,
    half.commitment.provenance = thousand.commitment.provenance ∧ half.commitment.clippedValue = 1 / 2 ∧
    thousand.commitment.clippedValue = 1 / 2 ∧
    Accepts sampleLibraries sampleEngine (hashVerifier sampleLibraries) [half] half (1 / 2) ∧
    Accepts sampleLibraries sampleEngine (hashVerifier sampleLibraries) [thousand] thousand 1000 ∧
    ¬ |(1000 : ℚ)| ≤ sampleEngine.budget.clipNorm + 14 := by
  have hv : hashVerifier sampleLibraries (signedPayload sampleLibraries "a" 0 (1 / 2) 0) sampleProvenance = .ok () :=
    sampleSigner_verified _ _ rfl
  refine ⟨commit sampleLibraries sampleEngine "a" 0 sampleProvenance "" (1 / 2) (1 / 2) 0,
    commit sampleLibraries sampleEngine "a" 0 sampleProvenance "" (1 / 2) 1000 0, rfl, rfl, rfl,
    accepts_commit sampleEngine hv (1 / 2), accepts_commit sampleEngine hv 1000, ?_⟩
  decide +kernel

end SecureAggregationEngine

end UwuContextDb.Marketplace
