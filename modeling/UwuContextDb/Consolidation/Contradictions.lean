import Mathlib.Algebra.BigOperators.Intervals
import UwuContextDb.Core.WriteSecurity
import UwuContextDb.Library.Run

/-! `ConsistencyChecker::check`: the model classifies every pair of facts, and its list is counted before it is used. -/

namespace UwuContextDb.Consolidation

inductive Constraint | noContradiction | factRequiresEvidence | invalidationPropagation | noProfileConflict

structure ConsolidationProduct where
  uri : String
  contentType : ContentType
  content : String
  evidenceRequired : Bool
  evidenceUris : List String
  contradictionUris : List String
  status : ConsolidationStatus

structure ConstraintViolation where
  uri : String
  constraint : Constraint
  description : String

structure Classification (F : Type) where
  left : ℕ
  right : ℕ
  contradiction : Bool
  confidence : F
  rationale : String

/-- What the check takes from floating point and from the model: `is_finite` with the range `0.0..=1.0`, `{:.2}`, and the
parsed answer to the numbered claims and the number of pairs that the schema asks for. -/
structure CheckLibraries (F : Type) where
  isProbability : F → Bool
  twoDecimals : F → String
  completeJson : List (ℕ × String) → ℕ → Except String (List (Classification F))

def validateLlmContent (value field : String) : Except String String :=
  let trimmed := WriteSecurity.trimMatches Text.isWhitespace value.toList
  if trimmed = [] ∨ 4000 < trimmed.length then .error s!"invalid {field}: expected 1..=4000 characters"
  else .ok (String.ofList trimmed)

section Check

variable {F : Type} (libraries lib : CheckLibraries F) (products : List ConsolidationProduct)

def validateProbability (value : F) (field : String) : Except String F :=
  if libraries.isProbability value then .ok value
  else .error s!"invalid {field}: expected finite value in [0, 1]"

def ownViolations (p : ConsolidationProduct) : List ConstraintViolation :=
  (if p.content = "" then [⟨p.uri, .noContradiction, "empty content"⟩] else []) ++
  if p.contentType = .fact ∧ p.evidenceRequired ∧ p.evidenceUris = [] then
    [⟨p.uri, .factRequiresEvidence, s!"Fact '{p.uri}' has no evidence URIs"⟩]
  else []

def staleViolations (p : ConsolidationProduct) : List ConstraintViolation :=
  if p.status = .stale ∧ p.uri ∈ p.contradictionUris then
    [⟨p.uri, .invalidationPropagation, s!"product {p.uri} is stale and may be based on invalidated evidence"⟩]
  else []

def contradictionBetween (left right : ConsolidationProduct) (confidence : F) (rationale : String) : ConstraintViolation :=
  ⟨left.uri, .noContradiction,
    s!"contradiction between {left.uri} and {right.uri} (confidence={libraries.twoDecimals confidence}): {rationale}"⟩

def classify (facts : List ConsolidationProduct) (state : List (ℕ × ℕ) × List ConstraintViolation)
    (item : Classification F) : Except String (List (ℕ × ℕ) × List ConstraintViolation) := do
  let confidence ← validateProbability libraries item.confidence "contradiction confidence"
  if h : item.left < item.right ∧ item.right < facts.length ∧ (item.left, item.right) ∉ state.1 then
    let rationale ← validateLlmContent item.rationale "contradiction rationale"
    return ((item.left, item.right)::state.1, state.2 ++
      if item.contradiction then
        [contradictionBetween libraries (facts.get ⟨item.left, by omega⟩) (facts.get ⟨item.right, by omega⟩) confidence
          rationale]
      else [])
  else throw "contradiction classifier returned invalid or duplicate pair"

def factsOf : List ConsolidationProduct := products.filter (·.contentType = .fact)

def classifyPairs (facts : List ConsolidationProduct) : Except String (List ConstraintViolation) := do
  let expectedPairs := facts.length * (facts.length - 1) / 2
  let batch ← libraries.completeJson (facts.zipIdx.map (fun p => (p.2, p.1.content))) expectedPairs
  if batch.length ≠ expectedPairs then
    throw s!"contradiction classifier returned {batch.length} pairs; expected {expectedPairs}"
  else
    let state ← batch.foldlM (classify libraries facts) ([], [])
    return state.2

def check : Except String (List ConstraintViolation) := do
  let facts := factsOf products
  let contradictions ← (if 1 < facts.length then classifyPairs libraries facts else pure [])
  return products.flatMap ownViolations ++ contradictions ++ products.flatMap staleViolations

end Check

section Spec

variable {F : Type} {libraries lib : CheckLibraries F} {facts products : List ConsolidationProduct}

def Classification.pair (item : Classification F) : ℕ × ℕ := (item.left, item.right)

def Reports (libraries : CheckLibraries F) (facts : List ConsolidationProduct) (item : Classification F)
    (v : ConstraintViolation) : Prop :=
  ∃ left right rationale, facts[item.left]? = some left ∧ facts[item.right]? = some right ∧
    validateLlmContent item.rationale "contradiction rationale" = .ok rationale ∧
    v = contradictionBetween libraries left right item.confidence rationale

theorem validateProbability_eq_ok {value confidence : F} {field : String}
    (h : validateProbability lib value field = .ok confidence) : confidence = value := by
  unfold validateProbability at h
  split at h
  · exact (Except.ok.inj h).symm
  · cases h

theorem classify_eq_ok {st st' : List (ℕ × ℕ) × List ConstraintViolation} {item : Classification F}
    (h : classify lib facts st item = .ok st') :
    (item.left < item.right ∧ item.right < facts.length) ∧ item.pair ∉ st.1 ∧ st'.1 = item.pair::st.1 ∧
      ∃ reported, st'.2 = st.2 ++ reported ∧
        List.Forall₂ (Reports lib facts) ([item].filter (·.contradiction)) reported := by
  obtain ⟨confidence,hn,h⟩ := StateMachine.bind_eq_ok.mp h
  obtain rfl := validateProbability_eq_ok hn
  split at h
  next hp =>
    obtain ⟨rationale,hr,h⟩ := StateMachine.bind_eq_ok.mp h
    obtain rfl := Except.ok.inj h
    refine ⟨⟨hp.1,hp.2.1⟩,hp.2.2,rfl,_,rfl,?_⟩
    cases hc : item.contradiction with
    | false => simp [hc]
    | true =>
      have hl : item.left < facts.length := hp.1.trans hp.2.1
      simpa [hc] using
        ⟨facts.get ⟨item.left,hl⟩,facts.get ⟨item.right,hp.2.1⟩,rationale,by simp,by simp,hr,rfl⟩
  next => cases h

theorem foldlM_classify {batch : List (Classification F)} {st st' : List (ℕ × ℕ) × List ConstraintViolation}
    (h : batch.foldlM (classify lib facts) st = .ok st') :
    (∀ item ∈ batch, item.left < item.right ∧ item.right < facts.length) ∧ (batch.map (·.pair)).Nodup ∧
      (∀ item ∈ batch, item.pair ∉ st.1) ∧ ∃ reported, st'.2 = st.2 ++ reported ∧
        List.Forall₂ (Reports lib facts) (batch.filter (·.contradiction)) reported := by
  induction batch generalizing st with
  | nil =>
    obtain rfl := Except.ok.inj h
    exact ⟨by simp,by simp,by simp,[],by simp, .nil⟩
  | cons item batch ih =>
    rw [List.foldlM_cons] at h
    obtain ⟨middle,hi,he⟩ := StateMachine.bind_eq_ok.mp h
    obtain ⟨hg,hw,hs,reported,hp,hr⟩ := classify_eq_ok hi
    obtain ⟨ha,hd,hn,later,hl,hr'⟩ := ih he
    rw [hs] at hn
    refine ⟨List.forall_mem_cons.mpr ⟨hg,ha⟩,List.nodup_cons.mpr ⟨fun hm => ?_,hd⟩,
      List.forall_mem_cons.mpr ⟨hw,fun other ho hol => hn other ho (List.mem_cons_of_mem _ hol)⟩,
      reported++later,by rw [hl,hp,List.append_assoc],?_⟩
    · obtain ⟨other,ho,hq⟩ := List.mem_map.mp hm
      exact hn other ho (hq ▸ List.mem_cons_self)
    · rw [← List.singleton_append,List.filter_append]
      exact List.rel_append hr hr'

/-- A list of different pairs in order that is as long as there are pairs holds them all. -/
theorem mem_of_length_pairs {n : ℕ} {pairs : List (ℕ × ℕ)} (hn : pairs.Nodup)
    (hr : ∀ p ∈ pairs, p.1 < p.2 ∧ p.2 < n) (hl : pairs.length = n*(n - 1) / 2) {i j : ℕ} (hij : i < j)
    (hj : j < n) : (i, j) ∈ pairs := by
  classical
  let all : Finset (Σ _ : ℕ, ℕ) := (Finset.range n).sigma Finset.range
  let swap : ℕ × ℕ → Σ _ : ℕ, ℕ := fun p => ⟨p.2,p.1⟩
  have hw : Function.Injective swap := fun p q h => by
    injection h with hi he
    exact Prod.ext he hi
  have hc : all.card = (pairs.map swap).toFinset.card := by
    rw [List.toFinset_card_of_nodup (hn.map hw),List.length_map,hl,Finset.card_sigma,← Finset.sum_range_id]
    simp
  have hu : (pairs.map swap).toFinset ⊆ all := by
    intro s hs
    obtain ⟨p,hp,rfl⟩ := List.mem_map.mp (List.mem_toFinset.mp hs)
    exact Finset.mem_sigma.mpr ⟨Finset.mem_range.mpr (hr p hp).2,Finset.mem_range.mpr (hr p hp).1⟩
  have hm : (⟨j,i⟩ : Σ _ : ℕ, ℕ) ∈ all := by simp [all,hij,hj]
  rw [← Finset.eq_of_subset_of_card_le hu hc.le] at hm
  obtain ⟨p,hp,hq⟩ := List.mem_map.mp (List.mem_toFinset.mp hm)
  obtain rfl : p = (i, j) := hw hq
  exact hp

theorem classifyPairs_eq_ok {contradictions : List ConstraintViolation}
    (h : classifyPairs lib facts = .ok contradictions) :
    ∃ batch, lib.completeJson (facts.zipIdx.map (fun p => (p.2, p.1.content)))
        (facts.length*(facts.length - 1) / 2) = .ok batch ∧
      (∀ item ∈ batch, item.left < item.right ∧ item.right < facts.length) ∧
      (∀ i j, i < j → j < facts.length → (batch.map (·.pair)).count (i, j) = 1) ∧
      List.Forall₂ (Reports lib facts) (batch.filter (·.contradiction)) contradictions := by
  obtain ⟨batch,hb,h⟩ := StateMachine.bind_eq_ok.mp h
  by_cases hl : batch.length = facts.length * (facts.length - 1) / 2
  · rw [if_neg (not_not.mpr hl)] at h
    obtain ⟨st,hs,h⟩ := StateMachine.bind_eq_ok.mp h
    obtain rfl := Except.ok.inj h
    obtain ⟨hr,hn,-,reported,he,hrp⟩ := foldlM_classify hs
    refine ⟨batch,hb,hr,fun i j hij hj => List.count_eq_one_of_mem hn ?_,by simpa [he] using hrp⟩
    refine mem_of_length_pairs hn (fun p hp => ?_) (by rw [List.length_map,hl]) hij hj
    obtain ⟨item,hi,rfl⟩ := List.mem_map.mp hp
    exact hr item hi
  · rw [if_pos hl] at h
    cases h

/-- What is accepted: every pair of facts is classified once, and a contradiction is reported for each pair that is
classified so. With one fact there is nothing to classify. -/
theorem check_complete {violations : List ConstraintViolation} (h : check libraries products = .ok violations) :
    let facts := factsOf products
    ∃ batch contradictions,
      (1 < facts.length → libraries.completeJson (facts.zipIdx.map (fun p => (p.2, p.1.content)))
        (facts.length * (facts.length - 1) / 2) = .ok batch) ∧
      (∀ item ∈ batch, item.left < item.right ∧ item.right < facts.length) ∧
      (∀ i j, i < j → j < facts.length → (batch.map (·.pair)).count (i, j) = 1) ∧
      List.Forall₂ (Reports libraries facts) (batch.filter (·.contradiction)) contradictions ∧
      violations = products.flatMap ownViolations ++ contradictions ++ products.flatMap staleViolations := by
  intro facts
  obtain ⟨contradictions, hc, h⟩ := StateMachine.bind_eq_ok.mp h
  obtain rfl := Except.ok.inj h
  split at hc
  next hm =>
    obtain ⟨batch, hb, hr, ho, he⟩ := classifyPairs_eq_ok hc
    exact ⟨batch, contradictions, fun _ => hb, hr, ho, he, rfl⟩
  next hf =>
    obtain rfl := Except.ok.inj hc
    refine ⟨[], [], fun hm => absurd hm hf, by simp, fun i j hi hj => ?_, .nil, rfl⟩
    exact absurd (hi.trans_le (Nat.le_sub_one_of_lt hj)) (by change ¬ 1 < facts.length at hf; omega)

end Spec

def sampleLibraries : CheckLibraries Unit where
  isProbability _ := true
  twoDecimals _ := "0.90"
  completeJson _ _ := .ok [⟨0, 1, true, (), " opposite "⟩]

def sampleFacts : List ConsolidationProduct :=
  [⟨"uwu://t/a/f0", .fact, "on", false, [], [], .pending⟩, ⟨"uwu://t/a/f1", .fact, "off", false, [], [], .pending⟩]

theorem check_complete_pair :
    ∃ violations batch contradictions, check sampleLibraries sampleFacts = .ok violations ∧
      sampleLibraries.completeJson [(0, "on"), (1, "off")] 1 = .ok batch ∧
      (batch.map (·.pair)).count (0, 1) = 1 ∧
      List.Forall₂ (Reports sampleLibraries sampleFacts) (batch.filter (·.contradiction)) contradictions ∧
      violations = contradictions := by
  have ho : ∃ violations, check sampleLibraries sampleFacts = .ok violations := ⟨_, rfl⟩
  obtain ⟨violations, h⟩ := ho
  obtain ⟨batch, contradictions, hb, -, hc, hr, hv⟩ := check_complete h
  refine ⟨violations, batch, contradictions, h, hb (by decide), hc 0 1 (by decide) (by decide), hr, ?_⟩
  rw [hv, show sampleFacts.flatMap ownViolations = [] by simp [sampleFacts, ownViolations],
    show sampleFacts.flatMap staleViolations = [] by simp [sampleFacts, staleViolations], List.nil_append,
    List.append_nil]

end UwuContextDb.Consolidation
