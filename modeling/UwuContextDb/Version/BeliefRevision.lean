import Mathlib.Algebra.Field.Rat
import Mathlib.Algebra.Order.Field.Basic
import Mathlib.Data.Prod.Lex
import Mathlib.Data.String.Basic
import UwuContextDb.Library.Runs
import UwuContextDb.Version.Model

/-! `AgmBeliefReviser`: what a belief base gives up for an incoming sentence. Numbers are those of an ordered field. -/

namespace UwuContextDb.Version

inductive BeliefPolarity | affirmed | negated deriving DecidableEq

structure BeliefPredicate where
  subject : String
  relation : String
  object : String
  deriving DecidableEq

structure BeliefLiteral where
  predicate : BeliefPredicate
  polarity : BeliefPolarity
  deriving DecidableEq

def BeliefLiteral.contradicts (literal other : BeliefLiteral) : Bool :=
  literal.predicate = other.predicate && literal.polarity ≠ other.polarity

structure BeliefSentence (K : Type) where
  uri : ContextUri
  sourceText : String
  literals : List BeliefLiteral
  entrenchment : K
  extractionConfidence : K
  rationale : Option String

structure BeliefConflict (K : Type) where
  incomingUri : ContextUri
  existingUri : ContextUri
  incomingLiteral : BeliefLiteral
  existingLiteral : BeliefLiteral
  severity : K

inductive BeliefRevisionAction | accept | contractExisting | rejectIncoming | defer deriving DecidableEq

structure BeliefRevisionDecision (K : Type) where
  action : BeliefRevisionAction
  incoming : BeliefSentence K
  contractions : List ContextUri
  conflicts : List (BeliefConflict K)
  retained : List ContextUri
  reason : String
  confidence : K
  contractionCost : K
  revisionDistance : K

structure AgmRevisionConfig (K : Type) where
  rejectMargin : K
  deferMargin : K
  maxComponentWidth : ℕ
  minExtractionConfidence : K
  complexityPenalty : K
  defaultEntrenchment : K
  symbolicExtractionConfidence : K
  advantageWeight : K

/-- What the revision takes from the standard library: `f32::sqrt`, and `format!` with `{:.3}`. -/
structure RevisionFloats (K : Type) where
  sqrt : K → K
  fixed3 : K → String

section Revision

variable {K : Type} [Field K] [LinearOrder K] (floats : RevisionFloats K)

def AgmRevisionConfig.validate (config : AgmRevisionConfig K) : Except VersionError Unit :=
  let fields := [("reject_margin", config.rejectMargin), ("defer_margin", config.deferMargin),
    ("min_extraction_confidence", config.minExtractionConfidence), ("complexity_penalty", config.complexityPenalty),
    ("default_entrenchment", config.defaultEntrenchment),
    ("symbolic_extraction_confidence", config.symbolicExtractionConfidence), ("advantage_weight", config.advantageWeight)]
  match fields.find? (fun field => !decide (0 ≤ field.2 ∧ field.2 ≤ 1)) with
  | some field => .error (.invalidConfig s!"{field.1} must be finite and in 0..=1")
  | none =>
    if config.maxComponentWidth = 0 then .error (.invalidConfig "max_component_width must be greater than zero")
    else .ok ()

/-- A reviser is made by `AgmBeliefReviser::new` of a valid configuration. -/
structure AgmBeliefReviser (K : Type) [Field K] [LinearOrder K] where
  config : AgmRevisionConfig K
  valid : config.validate = .ok ()

def detectConflicts (base : List (BeliefSentence K)) (incoming : BeliefSentence K) : List (BeliefConflict K) :=
  base.flatMap (fun existing => incoming.literals.flatMap (fun incomingLiteral =>
    (existing.literals.filter incomingLiteral.contradicts).map (fun existingLiteral =>
      ⟨incoming.uri, existing.uri, incomingLiteral, existingLiteral,
        min (max ((incoming.entrenchment + existing.entrenchment) / (1 + 1)) 0) 1⟩)))

def sentenceCost (sentence : BeliefSentence K) (complexityPenalty : K) : K :=
  min (max (sentence.entrenchment + floats.sqrt (sentence.literals.length : ℕ) * complexityPenalty) 0) (1 + 1)

def costOf (base : List (BeliefSentence K)) (complexityPenalty : K) (uri : ContextUri) : K :=
  ((base.reverse.find? (fun sentence => sentence.uri = uri)).map (sentenceCost floats · complexityPenalty)).getD 0

def componentConflictsResolved (component : List (BeliefConflict K)) (selected : List ContextUri) : Bool :=
  component.all (fun conflict => selected.contains conflict.existingUri)

def selectCandidates (component : List (BeliefConflict K)) : List ContextUri → List ContextUri → List ContextUri
  | selected, [] => selected
  | selected, candidate::candidates =>
    if componentConflictsResolved component (selected ++ [candidate]) then selected ++ [candidate]
    else selectCandidates component (selected ++ [candidate]) candidates

def candidateKey (cost : ContextUri → K) (uri : ContextUri) : K ×ₗ String := toLex (cost uri, uri.canonical)

def rankedCandidates (cost : ContextUri → K) (component : List (BeliefConflict K)) : List ContextUri :=
  (component.map (·.existingUri)).insertionSort (fun a b => candidateKey cost a ≤ candidateKey cost b)

def selectComponent (cost : ContextUri → K) (maxComponentWidth : ℕ)
    (component : List (BeliefConflict K)) : List ContextUri :=
  selectCandidates component [] (((rankedCandidates cost component).destutter (· ≠ ·)).take (max maxComponentWidth 1))

def componentsOf (conflicts : List (BeliefConflict K)) : List (List (BeliefConflict K)) :=
  (conflicts.map (·.incomingLiteral.predicate)).dedup.map (fun predicate =>
    conflicts.filter (fun conflict => conflict.incomingLiteral.predicate = predicate))

def minimalContractionSet (base : List (BeliefSentence K)) (conflicts : List (BeliefConflict K)) (maxComponentWidth : ℕ)
    (complexityPenalty : K) : List ContextUri :=
  ((componentsOf conflicts).flatMap
    (selectComponent (costOf floats base complexityPenalty) maxComponentWidth)).dedup.insertionSort
    (fun a b => a.canonical ≤ b.canonical)

def contractionCost (base : List (BeliefSentence K)) (contractions : List ContextUri) (complexityPenalty : K) : K :=
  ((contractions.filterMap (fun uri => base.find? (fun sentence => sentence.uri = uri))).map
    (sentenceCost floats · complexityPenalty)).sum

def revisionDistance (base : List (BeliefSentence K)) (contractions : List ContextUri) : K :=
  if base.isEmpty then 0 else min (max ((contractions.length : ℕ) / (base.length : ℕ)) 0) 1

def averageEntrenchment (base : List (BeliefSentence K)) (uris : List ContextUri) : K :=
  let beliefs := uris.filterMap (fun uri => base.find? (fun sentence => sentence.uri = uri))
  if beliefs.isEmpty then 0 else (beliefs.map (·.entrenchment)).sum / (beliefs.length : ℕ)

def retainedAfter (base : List (BeliefSentence K)) (contractions : List ContextUri) : List ContextUri :=
  (base.filter (fun belief => !contractions.contains belief.uri)).map (·.uri)

def AgmBeliefReviser.revise (reviser : AgmBeliefReviser K) (base : List (BeliefSentence K)) (incoming : BeliefSentence K) :
    BeliefRevisionDecision K :=
  let config := reviser.config
  let conflicts := detectConflicts base incoming
  if conflicts.isEmpty then
    ⟨.accept, incoming, [], conflicts, base.map (·.uri),
      "incoming belief is logically consistent with the belief base", 1, 0, 0⟩
  else
    let strongestExisting := ((conflicts.filterMap (fun conflict =>
      base.find? (fun sentence => sentence.uri = conflict.existingUri))).map (·.entrenchment)).foldl max 0
    if incoming.extractionConfidence < config.minExtractionConfidence then
      ⟨.defer, incoming, [], conflicts, base.map (·.uri),
        "incoming belief extraction confidence is too low for automatic AGM revision", 0, 0, 0⟩
    else if config.rejectMargin ≤ strongestExisting - incoming.entrenchment then
      ⟨.rejectIncoming, incoming, [], conflicts, base.map (·.uri), "incoming belief contradicts more entrenched knowledge",
        min (max (strongestExisting - incoming.entrenchment) 0) 1, 0, 0⟩
    else
      let candidates := minimalContractionSet floats base conflicts config.maxComponentWidth config.complexityPenalty
      let cost := contractionCost floats base candidates config.complexityPenalty
      let distance := revisionDistance base candidates
      let advantage := incoming.entrenchment - averageEntrenchment base candidates
      if |advantage| ≤ config.deferMargin ∧ !candidates.isEmpty then
        ⟨.defer, incoming, candidates, conflicts, retainedAfter base [],
          "conflicting beliefs have similar entrenchment; defer revision", 1 - min (max |advantage| 0) 1, cost, distance⟩
      else
        ⟨.contractExisting, incoming, candidates, conflicts, retainedAfter base candidates,
          s!"AGM partial-meet contraction removes the least entrenched inconsistent subset with weighted cost {
            floats.fixed3 cost}",
          min (max (max advantage 0 * config.advantageWeight + (1 - distance) * (1 - config.advantageWeight)) 0) 1,
          cost, distance⟩

end Revision

end UwuContextDb.Version

/-! When a revision leaves the base consistent with what came in, and gives up no more than that needs. -/

namespace UwuContextDb.Version

variable {K : Type} [Field K] [LinearOrder K]

def BeliefSentence.Contradicts (belief incoming : BeliefSentence K) : Prop :=
  ∃ literal ∈ incoming.literals, ∃ own ∈ belief.literals, literal.contradicts own = true

structure RestoresConsistency (base : List (BeliefSentence K)) (incoming : BeliefSentence K)
    (decision : BeliefRevisionDecision K) : Prop where
  consistent : ∀ belief ∈ base, belief.uri ∈ decision.retained → ¬ belief.Contradicts incoming
  needed : ∀ belief ∈ base, belief.uri ∈ decision.contractions → belief.Contradicts incoming
  covers : ∀ uri, uri ∈ base.map (·.uri) ↔ uri ∈ decision.retained ∨ uri ∈ decision.contractions
  disjoint : ∀ uri ∈ decision.retained, uri ∉ decision.contractions

def conflictsOn (base : List (BeliefSentence K)) (incoming : BeliefSentence K) (predicate : BeliefPredicate) :
    List (BeliefConflict K) :=
  (detectConflicts base incoming).filter (fun conflict => conflict.incomingLiteral.predicate = predicate)

def aheadOf (cost : ContextUri → K) (component : List (BeliefConflict K)) (uri : ContextUri) : List ContextUri :=
  ((rankedCandidates cost component).takeWhile (· ≠ uri)).destutter (· ≠ ·)

section Selection

variable {component : List (BeliefConflict K)} {uri : ContextUri} {cost : ContextUri → K}

omit [Field K] [LinearOrder K] in
theorem mem_selectCandidates {selected candidates : List ContextUri}
    (h : ∀ candidate ∈ candidates, candidate ∈ component.map (·.existingUri)) :
    uri ∈ selectCandidates component selected candidates ↔ uri ∈ selected ∨ uri ∈ candidates := by
  induction candidates generalizing selected with
  | nil => simp [selectCandidates]
  | cons candidate candidates ih =>
    unfold selectCandidates
    split
    · rename_i hr
      have ha : ∀ other ∈ candidate::candidates, other ∈ selected ++ [candidate] := by
        intro other ho
        obtain ⟨conflict, hc, rfl⟩ := List.mem_map.mp (h other ho)
        have hn := List.all_eq_true.mp hr conflict hc
        simpa using hn
      constructor
      · intro hm
        rcases List.mem_append.mp hm with hm | hm
        · exact .inl hm
        · exact .inr (List.mem_singleton.mp hm ▸ List.mem_cons_self)
      · rintro (hm | hm)
        · exact List.mem_append_left _ hm
        · exact ha uri hm
    · rw [ih (fun other ho => h other (List.mem_cons_of_mem _ ho))]
      simp [or_assoc]

omit [Field K] in
theorem mem_rankedCandidates : uri ∈ rankedCandidates cost component ↔ uri ∈ component.map (·.existingUri) :=
  List.mem_insertionSort _

omit [Field K] in
theorem mem_selectComponent {maxComponentWidth : ℕ} (hw : 0 < maxComponentWidth) :
    uri ∈ selectComponent cost maxComponentWidth component ↔
      uri ∈ rankedCandidates cost component ∧ (aheadOf cost component uri).length < maxComponentWidth := by
  have ht : max maxComponentWidth 1 = maxComponentWidth := max_eq_left hw
  have hc : ∀ candidate ∈ ((rankedCandidates cost component).destutter (· ≠ ·)).take maxComponentWidth,
      candidate ∈ rankedCandidates cost component :=
    fun candidate hm => (List.destutter_sublist _ _).subset (List.mem_of_mem_take hm)
  rw [selectComponent, ht, mem_selectCandidates (fun candidate hm =>
    mem_rankedCandidates.mp (hc candidate hm))]
  constructor
  · rintro (hm | hm)
    · cases hm
    · have hr := hc uri hm
      exact ⟨hr, (Runs.mem_take_destutter_iff hr _).mp hm⟩
  · rintro ⟨hr, ha⟩
    exact .inr ((Runs.mem_take_destutter_iff hr _).mpr ha)

end Selection

section Revised

variable {floats : RevisionFloats K} {base : List (BeliefSentence K)} {incoming : BeliefSentence K} {uri : ContextUri}

theorem mem_minimalContractionSet {maxComponentWidth : ℕ} (hw : 0 < maxComponentWidth) (penalty : K) :
    uri ∈ minimalContractionSet floats base (detectConflicts base incoming) maxComponentWidth penalty ↔
      ∃ predicate, uri ∈ rankedCandidates (costOf floats base penalty) (conflictsOn base incoming predicate) ∧
        (aheadOf (costOf floats base penalty) (conflictsOn base incoming predicate) uri).length < maxComponentWidth := by
  unfold minimalContractionSet componentsOf
  rw [List.mem_insertionSort,List.mem_dedup,List.mem_flatMap]
  constructor
  · rintro ⟨component,hc,hm⟩
    obtain ⟨predicate,-,rfl⟩ := List.mem_map.mp hc
    exact ⟨predicate,(mem_selectComponent hw).mp hm⟩
  · rintro ⟨predicate,hr,ha⟩
    obtain ⟨conflict,ho,-⟩ := List.mem_map.mp (mem_rankedCandidates.mp hr)
    obtain ⟨hd,hp⟩ := List.mem_filter.mp ho
    refine ⟨conflictsOn base incoming predicate,List.mem_map.mpr ⟨predicate,?_,rfl⟩,
      (mem_selectComponent hw).mpr ⟨hr,ha⟩⟩
    rw [List.mem_dedup]
    exact List.mem_map.mpr ⟨conflict,hd,of_decide_eq_true hp⟩

theorem mem_existingUris : uri ∈ (detectConflicts base incoming).map (·.existingUri) ↔
    ∃ belief ∈ base, belief.uri = uri ∧ belief.Contradicts incoming := by
  simp only [detectConflicts,BeliefSentence.Contradicts,List.mem_map,List.mem_flatMap,List.mem_filter]
  constructor
  · rintro ⟨conflict,⟨belief,hb,literal,hl,own,ho,rfl⟩,rfl⟩
    exact ⟨belief,hb,rfl,literal,hl,own,ho⟩
  · rintro ⟨belief,hb,rfl,literal,hl,own,ho⟩
    exact ⟨_,⟨belief,hb,literal,hl,own,ho,rfl⟩,rfl⟩

theorem AgmBeliefReviser.width_pos (reviser : AgmBeliefReviser K) : 0 < reviser.config.maxComponentWidth := by
  have hv := reviser.valid
  unfold AgmRevisionConfig.validate at hv
  dsimp only at hv
  split at hv
  · cases hv
  · split at hv
    · cases hv
    · omega

theorem revise_applied (reviser : AgmBeliefReviser K)
    (h : (reviser.revise floats base incoming).action = .accept ∨
      (reviser.revise floats base incoming).action = .contractExisting) :
    (reviser.revise floats base incoming).contractions = minimalContractionSet floats base (detectConflicts base incoming)
        reviser.config.maxComponentWidth reviser.config.complexityPenalty ∧
      (reviser.revise floats base incoming).retained =
        retainedAfter base (reviser.revise floats base incoming).contractions := by
  unfold AgmBeliefReviser.revise at h ⊢
  dsimp only at h ⊢
  split
  · rename_i hn
    rw [List.isEmpty_iff] at hn
    simp [hn,minimalContractionSet,componentsOf,retainedAfter]
  · rename_i hs
    rw [if_neg hs] at h
    split
    · rename_i hl
      simp [hl] at h
    · rename_i hl
      rw [if_neg hl] at h
      split
      · rename_i hr
        simp [hr] at h
      · rename_i hr
        rw [if_neg hr] at h
        split
        · rename_i hd
          rw [if_pos hd] at h
          simp at h
        · exact ⟨rfl,rfl⟩

end Revised

section Restored

variable (floats : RevisionFloats K) (reviser : AgmBeliefReviser K) (base : List (BeliefSentence K))
  (incoming : BeliefSentence K)

def FitsWidth : Prop :=
  (∀ belief ∈ base, belief.Contradicts incoming → ∃ predicate,
    belief.uri ∈ (conflictsOn base incoming predicate).map (·.existingUri) ∧
      (aheadOf (costOf floats base reviser.config.complexityPenalty) (conflictsOn base incoming predicate)
        belief.uri).length < reviser.config.maxComponentWidth) ∧
    ∀ belief ∈ base, ∀ other ∈ base, other.Contradicts incoming → belief.uri = other.uri → belief.Contradicts incoming

variable {floats reviser base incoming}

theorem revise_restores_iff
    (h : (reviser.revise floats base incoming).action = .accept ∨
      (reviser.revise floats base incoming).action = .contractExisting) :
    RestoresConsistency base incoming (reviser.revise floats base incoming) ↔ FitsWidth floats reviser base incoming := by
  obtain ⟨hco, hr⟩ := revise_applied reviser h
  generalize reviser.revise floats base incoming = decision at hco hr
  have hm : ∀ uri, uri ∈ decision.contractions ↔ ∃ predicate,
      uri ∈ (conflictsOn base incoming predicate).map (·.existingUri) ∧
        (aheadOf (costOf floats base reviser.config.complexityPenalty) (conflictsOn base incoming predicate)
          uri).length < reviser.config.maxComponentWidth := by
    intro uri
    rw [hco, mem_minimalContractionSet reviser.width_pos]
    simp only [mem_rankedCandidates]
  have hcn : ∀ uri ∈ decision.contractions, ∃ belief ∈ base, belief.uri = uri ∧ belief.Contradicts incoming := by
    intro uri hu
    obtain ⟨predicate, hon, -⟩ := (hm uri).mp hu
    apply mem_existingUris.mp
    exact (List.Sublist.map _ List.filter_sublist).subset hon
  have hk : ∀ uri, uri ∈ decision.retained ↔ uri ∈ base.map (·.uri) ∧ uri ∉ decision.contractions := by
    intro uri
    rw [hr, retainedAfter]
    simp only [List.mem_map, List.mem_filter, Bool.not_eq_true', List.contains_eq_mem, decide_eq_false_iff_not]
    constructor
    · rintro ⟨belief, ⟨hb, hn⟩, rfl⟩
      exact ⟨⟨belief, hb, rfl⟩, hn⟩
    · rintro ⟨⟨belief, hb, rfl⟩, hn⟩
      exact ⟨belief, ⟨hb, hn⟩, rfl⟩
  constructor
  · intro he
    have hf : ∀ belief ∈ base, belief.Contradicts incoming → belief.uri ∈ decision.contractions := by
      intro belief hb hc
      by_contra hn
      exact he.consistent belief hb
        ((hk _).mpr ⟨List.mem_map.mpr ⟨belief, hb, rfl⟩, hn⟩) hc
    refine ⟨fun belief hb hc => (hm _).mp (hf belief hb hc), ?_⟩
    intro belief hb other ht hc hu
    exact he.needed belief hb (hu ▸ hf other ht hc)
  · rintro ⟨hf, hs⟩
    refine ⟨?_, ?_, ?_, fun uri hu => ((hk uri).mp hu).2⟩
    · intro belief hb hrt hc
      exact ((hk _).mp hrt).2 ((hm _).mpr (hf belief hb hc))
    · intro belief hb ho
      obtain ⟨other, ht, hu, hc⟩ := hcn _ ho
      exact hs belief hb other ht hc hu.symm
    · intro uri
      rw [hk]
      constructor
      · intro hu
        by_cases ho : uri ∈ decision.contractions
        · exact .inr ho
        · exact .inl ⟨hu, ho⟩
      · rintro (⟨hu, -⟩ | ho)
        · exact hu
        · obtain ⟨belief, hb, rfl, -⟩ := hcn uri ho
          exact List.mem_map.mpr ⟨belief, hb, rfl⟩

/-- Two denials, of which a component of two gives up both. -/
theorem revise_restores_two :
    let floats : RevisionFloats ℚ := ⟨id, fun _ => "0.440"⟩
    let reviser : AgmBeliefReviser ℚ :=
      ⟨⟨9 / 50, 3 / 50, 2, 9 / 20, 3 / 25, 1 / 2, 11 / 20, 7 / 10⟩, by decide +kernel⟩
    let denial : String → BeliefSentence ℚ :=
      fun name => ⟨.ofTenant name, "sky is not blue", [⟨⟨"sky", "is", "blue"⟩, .negated⟩], 1 / 10, 1, none⟩
    let incoming : BeliefSentence ℚ :=
      ⟨.ofTenant "c", "sky is blue", [⟨⟨"sky", "is", "blue"⟩, .affirmed⟩], 9 / 10, 1, none⟩
    RestoresConsistency [denial "a", denial "b"] incoming (reviser.revise floats [denial "a", denial "b"] incoming) := by
  intro floats reviser denial incoming
  have ha : (reviser.revise floats [denial "a", denial "b"] incoming).action = .accept ∨
      (reviser.revise floats [denial "a", denial "b"] incoming).action = .contractExisting := by decide +kernel
  refine (revise_restores_iff ha).mpr ⟨fun belief hb _ => ⟨⟨"sky", "is", "blue"⟩, ?_⟩, ?_⟩
  · have hl : ∀ uri ∈ [denial "a", denial "b"].map (·.uri),
        uri ∈ (conflictsOn [denial "a", denial "b"] incoming ⟨"sky", "is", "blue"⟩).map (·.existingUri) ∧
          (aheadOf (costOf floats [denial "a", denial "b"] reviser.config.complexityPenalty)
            (conflictsOn [denial "a", denial "b"] incoming ⟨"sky", "is", "blue"⟩) uri).length <
            reviser.config.maxComponentWidth := by decide +kernel
    exact hl belief.uri (List.mem_map.mpr ⟨belief, hb, rfl⟩)
  · intro belief hb other ho hc _
    rcases List.mem_pair.mp hb with rfl | rfl
    · exact ⟨_, List.mem_singleton.mpr rfl, _, List.mem_singleton.mpr rfl, by decide +kernel⟩
    · exact ⟨_, List.mem_singleton.mpr rfl, _, List.mem_singleton.mpr rfl, by decide +kernel⟩

/-- Two denials, of which a component of one keeps the second. -/
theorem narrow_component_keeps_conflict :
    let floats : RevisionFloats ℚ := ⟨id, fun _ => "0.220"⟩
    let reviser : AgmBeliefReviser ℚ :=
      ⟨⟨9 / 50, 3 / 50, 1, 9 / 20, 3 / 25, 1 / 2, 11 / 20, 7 / 10⟩, by decide +kernel⟩
    let denial : String → BeliefSentence ℚ :=
      fun name => ⟨.ofTenant name, "sky is not blue", [⟨⟨"sky", "is", "blue"⟩, .negated⟩], 1 / 10, 1, none⟩
    let incoming : BeliefSentence ℚ :=
      ⟨.ofTenant "c", "sky is blue", [⟨⟨"sky", "is", "blue"⟩, .affirmed⟩], 9 / 10, 1, none⟩
    (reviser.revise floats [denial "a", denial "b"] incoming).action = .contractExisting ∧
      ¬ RestoresConsistency [denial "a", denial "b"] incoming
        (reviser.revise floats [denial "a", denial "b"] incoming) := by
  intro floats reviser denial incoming
  refine ⟨by decide +kernel, fun h => ?_⟩
  have hr : (denial "b").uri ∈ (reviser.revise floats [denial "a", denial "b"] incoming).retained := by
    decide +kernel
  exact h.consistent (denial "b") (by simp) hr
    ⟨_, List.mem_singleton.mpr rfl, _, List.mem_singleton.mpr rfl, by decide +kernel⟩

end Restored

end UwuContextDb.Version
