import Mathlib.Data.Finset.Card
import UwuContextDb.Core.CachingLlm
import UwuContextDb.Core.Text
import UwuContextDb.Library.Words
import UwuContextDb.Marketplace.Entries

/-! `ConsensusTracker`: how many entries of other agents say what a new entry says. -/

namespace UwuContextDb.Marketplace

open UwuContextDb.Core
open Text (isWhitespace)

/-- What single precision arithmetic has beside the operations of `F`. -/
structure FloatOps (F : Type) where
  sqrt : F → F
  epsilon : F
  isFinite : F → Bool

structure ConsensusConfig (F : Type) where
  convergenceThreshold : F
  lexicalThresholdOffset : F
  establishedThreshold : ℕ
  vectorCandidateLimit : ℕ
  signatureDimensions : ℕ

inductive EstablishmentStatus | unverified | single | corroborated | established deriving DecidableEq

structure ConvergenceReport (F : Type) where
  newEntryId : MarketId
  independentSources : List (AgentId × MarketId × F)
  corroboration : ℕ
  status : EstablishmentStatus

section Texts

def splitWhitespace (text : String) : List String := (Words.words isWhitespace text.toList).map String.ofList

def fnvHash (token : String) : UInt64 :=
  (asBytes token).foldl (fun acc byte => (acc ^^^ byte.toUInt64) * 0x100000001b3) 0xcbf29ce484222325

variable {F : Type} [Zero F] [One F] [Add F] [Mul F] [Div F] [NatCast F] [LT F] [DecidableLT F]

def textSignatureVector (floats : FloatOps F) (text : String) (dimensions : ℕ) : List F :=
  let vector := (splitWhitespace text).foldl (fun (vector : List F) token =>
    vector.modify ((fnvHash token).toNat % vector.length) (· + 1)) (List.replicate dimensions 0)
  let norm := floats.sqrt ((vector.map (fun v => v * v)).foldl (· + ·) 0)
  if floats.epsilon < norm then vector.map (· / norm) else vector

def jaccardSimilarity (a b : String) : F :=
  let wa := (splitWhitespace a).toFinset
  let wb := (splitWhitespace b).toFinset
  if (wa ∪ wb).card = 0 then 0 else ((wa ∩ wb).card : F) / ((wa ∪ wb).card : F)

end Texts

section Tracker

variable {F : Type} [Zero F] [One F] [Add F] [Sub F] [Mul F] [Div F] [NatCast F] [LE F] [LT F] [DecidableLE F]
    [DecidableLT F]

def ConsensusConfig.validate (floats : FloatOps F) (config : ConsensusConfig F) : Except String Unit :=
  if !floats.isFinite config.convergenceThreshold ∨ ¬ (0 ≤ config.convergenceThreshold ∧ config.convergenceThreshold ≤ 1)
  then .error "convergence_threshold must be finite and in [0, 1]"
  else if !floats.isFinite config.lexicalThresholdOffset ∨ config.lexicalThresholdOffset < 0 ∨
      config.convergenceThreshold < config.lexicalThresholdOffset then
    .error "lexical_threshold_offset must be finite and between zero and convergence_threshold"
  else if config.establishedThreshold < 3 then .error "established_threshold must be at least 3"
  else if config.vectorCandidateLimit = 0 ∨ config.signatureDimensions = 0 then
    .error "consensus limits must be non-zero"
  else .ok ()

/-- `ConsensusTracker`, as `new` builds it; the index answers a search of a collection. -/
structure ConsensusTracker (F : Type) [Zero F] [One F] [LE F] [LT F] [DecidableLE F] [DecidableLT F]
    (floats : FloatOps F) where
  search : String → List F → ℕ → Option Json → Except ContextError (List (MarketIndexHit F))
  config : ConsensusConfig F
  valid : config.validate floats = .ok ()

namespace ConsensusTracker

variable {floats : FloatOps F} (tracker : ConsensusTracker F floats) (parseUuid : String → Option Uuid)
    (newEntry : MarketEntry F)

def vectorCandidates (existing : List (MarketEntry F)) : List (MarketEntry F) :=
  let hits := ((tracker.search "market" (textSignatureVector floats newEntry.principle tracker.config.signatureDimensions)
    tracker.config.vectorCandidateLimit (some (.obj [("domain", .str newEntry.domain)]))).toOption).getD []
  let ids := hits.filterMap (fun hit => (payloadMarketId hit.payload).bind parseUuid)
  existing.filter (fun entry => entry.id ∈ ids)

/-- The entries `check_convergence` walks: those the index names, or all where it names none. -/
def candidateEntries (existing : List (MarketEntry F)) : List (MarketEntry F) :=
  let candidates := tracker.vectorCandidates parseUuid newEntry existing
  if candidates.isEmpty then existing else candidates

/-- What the loop of `check_convergence` has found. -/
structure Convergence (F : Type) where
  independentSources : List (AgentId × MarketId × F)
  corroboration : ℕ

def compare (found : Convergence F) (entry : MarketEntry F) : Convergence F :=
  if entry.publisher = newEntry.publisher then found
  else if entry.domain ≠ newEntry.domain then found
  else
    let sim : F := jaccardSimilarity newEntry.principle entry.principle
    if tracker.config.convergenceThreshold - tracker.config.lexicalThresholdOffset ≤ sim then
      ⟨found.independentSources ++ [(entry.publisher, entry.id, sim)], found.corroboration + 1⟩
    else found

def status (corroboration : ℕ) : EstablishmentStatus :=
  if tracker.config.establishedThreshold ≤ corroboration then .established
  else if 2 ≤ corroboration then .corroborated
  else if 1 ≤ corroboration then .single
  else .unverified

def checkConvergence (existing : List (MarketEntry F)) : ConvergenceReport F :=
  let found := (tracker.candidateEntries parseUuid newEntry existing).foldl (tracker.compare newEntry) ⟨[], 1⟩
  ⟨newEntry.id, found.independentSources, found.corroboration, tracker.status found.corroboration⟩

/-- The entry says in the same domain what the new entry of another agent says. -/
def Supports (entry : MarketEntry F) : Prop :=
  entry.publisher ≠ newEntry.publisher ∧ entry.domain = newEntry.domain ∧
    tracker.config.convergenceThreshold - tracker.config.lexicalThresholdOffset ≤
      (jaccardSimilarity newEntry.principle entry.principle : F)

instance decidableSupports (entry : MarketEntry F) : Decidable (tracker.Supports newEntry entry) :=
  inferInstanceAs (Decidable (_ ∧ _ ∧ _))

def supporters (existing : List (MarketEntry F)) : List AgentId :=
  ((tracker.candidateEntries parseUuid newEntry existing).filter (tracker.Supports newEntry)).map (·.publisher)

variable {tracker parseUuid newEntry}

omit [Add F] [Mul F] in
theorem corroboration_compare (found : Convergence F) (e : MarketEntry F) :
    (tracker.compare newEntry found e).corroboration =
      found.corroboration + if tracker.Supports newEntry e then 1 else 0 := by
  unfold compare Supports
  split_ifs <;> simp_all

omit [Add F] [Mul F] in
theorem corroboration_foldl_compare (candidates : List (MarketEntry F)) (found : Convergence F) :
    (candidates.foldl (tracker.compare newEntry) found).corroboration =
      found.corroboration + (candidates.filter (tracker.Supports newEntry)).length := by
  induction candidates generalizing found with
  | nil => rfl
  | cons e candidates ih =>
    rw [List.foldl_cons, ih, corroboration_compare]
    by_cases h : tracker.Supports newEntry e
    · simp [h]
      omega
    · simp [h]

theorem corroboration_checkConvergence (existing : List (MarketEntry F)) :
    (tracker.checkConvergence parseUuid newEntry existing).corroboration =
      1 + (tracker.supporters parseUuid newEntry existing).length := by
  unfold supporters
  rw [List.length_map]
  exact corroboration_foldl_compare _ _

theorem status_checkConvergence (existing : List (MarketEntry F)) :
    (tracker.checkConvergence parseUuid newEntry existing).status = .established ↔
      tracker.config.establishedThreshold ≤ (tracker.checkConvergence parseUuid newEntry existing).corroboration := by
  show tracker.status _ = _ ↔ _
  unfold status
  split_ifs with ha
  · exact iff_of_true rfl ha
  all_goals exact iff_of_false (by decide) ha

end ConsensusTracker

/-- The count is that of the independent publishers, and an established entry has as many of them as it takes, exactly if
no publisher supports the entry twice. -/
theorem corroboration_distinct_iff {floats : FloatOps F} (tracker : ConsensusTracker F floats)
    (parseUuid : String → Option Uuid) (newEntry : MarketEntry F) (existing : List (MarketEntry F)) :
    ((tracker.checkConvergence parseUuid newEntry existing).corroboration =
        1 + (tracker.supporters parseUuid newEntry existing).toFinset.card ∧
      ((tracker.checkConvergence parseUuid newEntry existing).status = .established →
        tracker.config.establishedThreshold - 1 ≤ (tracker.supporters parseUuid newEntry existing).toFinset.card)) ↔
      (tracker.supporters parseUuid newEntry existing).Nodup := by
  rw [ConsensusTracker.status_checkConvergence, ConsensusTracker.corroboration_checkConvergence]
  have hc : (tracker.supporters parseUuid newEntry existing).toFinset.card =
      (tracker.supporters parseUuid newEntry existing).length ↔
      (tracker.supporters parseUuid newEntry existing).Nodup :=
    Multiset.toFinset_card_eq_card_iff_nodup
  constructor
  · rintro ⟨ho, -⟩
    exact hc.mp (by omega)
  · intro h
    have he := hc.mpr h
    exact ⟨by omega, by omega⟩

end Tracker

def sampleFloats : FloatOps ℚ := ⟨id, 1 / 8388608, fun _ => true⟩

def sampleTracker : ConsensusTracker ℚ sampleFloats := ⟨fun _ _ _ _ => .ok [], ⟨9 / 10, 1 / 5, 3, 64, 128⟩, by decide +kernel⟩

/-- One agent that says it twice establishes it. -/
theorem established_by_one :
    let report := sampleTracker.checkConvergence (fun _ => none) (sampleEntry 1 "a" "d" "x" 1)
      [sampleEntry 2 "b" "d" "x" 1, sampleEntry 3 "b" "d" "x" 1];
    report.corroboration = 3 ∧ report.status = .established ∧
    (sampleTracker.supporters (fun _ => none) (sampleEntry 1 "a" "d" "x" 1)
      [sampleEntry 2 "b" "d" "x" 1, sampleEntry 3 "b" "d" "x" 1]).toFinset.card = 1 := by
  decide +kernel

end UwuContextDb.Marketplace
