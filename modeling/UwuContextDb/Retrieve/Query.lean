import UwuContextDb.Core.UriCodec
import UwuContextDb.Retrieve.Budget

/-! The query language, and what its predicates and sort keys say of a hit. -/

namespace UwuContextDb.Retrieve

inductive GraphRelation
  | evolvedFrom | evolvedTo | evidenceOf | entangledWith | contradicts | corroborates | derivedFrom | supersedes
  | drivesPolicy
  deriving DecidableEq

/-- `{:?}` of a relation. -/
def GraphRelation.debug : GraphRelation → String
  | .evolvedFrom => "EvolvedFrom"
  | .evolvedTo => "EvolvedTo"
  | .evidenceOf => "EvidenceOf"
  | .entangledWith => "EntangledWith"
  | .contradicts => "Contradicts"
  | .corroborates => "Corroborates"
  | .derivedFrom => "DerivedFrom"
  | .supersedes => "Supersedes"
  | .drivesPolicy => "DrivesPolicy"

inductive Scope
  | agent (agent : String)
  | tenant (tenant : String)
  | all

inductive Condition
  | typeEquals (ct : ContentType)
  | scopeEquals (scope : Scope)
  | transactionTimeBetween (start end_ : DateTime)
  | validTimeContains (mark : DateTime)
  | validTimeOverlaps (start end_ : DateTime)
  | bitemporal (validAt transactionAt : DateTime)
  | tagsContains (tags : List String)
  | qualityAbove (min : ℚ)
  | validOnly

structure Predicate where
  conditions : List Condition

def Predicate.isEmpty (p : Predicate) : Bool := p.conditions.isEmpty

inductive SortKey | relevance | recency | quality | natural deriving DecidableEq

inductive QueryMergeStrategy | union | intersect | first | dedup deriving DecidableEq

structure RelationExpand where
  kinds : List GraphRelation
  maxHops : ℕ

inductive Query
  | find (scope : Option ContextUri) (predicate : Predicate) (budget : ℕ) (order : SortKey)
      (expand : Option RelationExpand)
  | similar (queryEmbedding : List ℚ) (predicate : Predicate) (budget : ℕ) (expand : Option RelationExpand)
  | asOf (uri : ContextUri) (mark : AsOfTime) (level : ContentLevel)
  | traverse (start : ContextUri) (edges : List GraphRelation) (maxHops : ℕ) (predicate : Predicate)
  | composite (queries : List Query) (merge : QueryMergeStrategy)

/-- `updated_at.or(created_at)`. -/
def transactionTime (hit : RetrievalHit) : Option DateTime := hit.updatedAt.or hit.createdAt

/-- A record that is not invalidated, has begun by `begun` and whose end satisfies `open_`. -/
def validityHolds (hit : RetrievalHit) (begun : DateTime) (open_ : DateTime → Bool) : Bool :=
  match hit.metadata.validity with
  | none => true
  | some validity => validity.invalidatedBy.isNone && decide (validity.validFrom ≤ begun) &&
      (validity.validUntil.map open_).getD true

def isCurrentlyValid (now : DateTime) (hit : RetrievalHit) : Bool :=
  validityHolds hit now (fun until_ => decide (now < until_))

def validAt (hit : RetrievalHit) (mark : DateTime) : Bool := validityHolds hit mark (fun until_ => decide (mark < until_))

def validOverlaps (hit : RetrievalHit) (start end_ : DateTime) : Bool :=
  validityHolds hit end_ (fun until_ => decide (start ≤ until_))

/-- Whether some pair of neighbouring segments is `agent`, `agent`'s name. -/
def hasAgent (agent : String) : List String → Bool
  | a::b::rest => (a == "agent" && b == agent) || hasAgent agent (b::rest)
  | _ => false

def scopeMatches (uri : ContextUri) : Scope → Bool
  | .all => true
  | .tenant tenant => uri.tenant == tenant
  | .agent agent => hasAgent agent uri.path

def Condition.holds (now : DateTime) (hit : RetrievalHit) : Condition → Bool
  | .typeEquals ct => decide (hit.contentType = some ct)
  | .scopeEquals scope => scopeMatches hit.uri scope
  | .transactionTimeBetween start end_ =>
    ((transactionTime hit).map (fun ts => decide (start ≤ ts) && decide (ts ≤ end_))).getD false
  | .validTimeContains mark => validAt hit mark
  | .validTimeOverlaps start end_ => validOverlaps hit start end_
  | .bitemporal validTs transactionAt =>
    validAt hit validTs && ((transactionTime hit).map (fun ts => decide (ts ≤ transactionAt))).getD false
  | .tagsContains tags => tags.all (fun tag => hit.metadata.tags.any (fun existing => existing == tag))
  | .qualityAbove min => (hit.metadata.qualityScore.map (fun score => decide (min ≤ score))).getD false
  | .validOnly => isCurrentlyValid now hit

def predicateMatches (now : DateTime) (hit : RetrievalHit) (p : Predicate) : Bool :=
  p.conditions.all (fun c => c.holds now hit)

/-- The order of `Option`: `None` is below every value. -/
def optionLe {α : Type} [LE α] [DecidableLE α] : Option α → Option α → Bool
  | none, _ => true
  | some _, none => false
  | some a, some b => decide (a ≤ b)

/-- Whether a sort by `key` lets `a` stand before `b`: the comparison of the two is not `Greater`. -/
def SortKey.before : SortKey → RetrievalHit → RetrievalHit → Bool
  | .relevance, a, b => decide (b.relevance ≤ a.relevance)
  | .recency, a, b =>
    let later := optionLe (transactionTime b) (transactionTime a)
    let same := later && optionLe (transactionTime a) (transactionTime b)
    later && (!same || decide (b.relevance ≤ a.relevance))
  | .quality, a, b => optionLe b.metadata.qualityScore a.metadata.qualityScore
  | .natural, _, _ => true

/-- `SortOp::apply`: a stable sort, the best hit first. -/
def SortKey.sort (key : SortKey) (hits : List RetrievalHit) : List RetrievalHit :=
  hits.insertionSort (fun a b => key.before a b)

theorem optionLe_total {α : Type} [LinearOrder α] (a b : Option α) : optionLe a b ∨ optionLe b a := by
  cases a with
  | none => simp [optionLe]
  | some a =>
    cases b with
    | none => simp [optionLe]
    | some b => simpa [optionLe] using le_total a b

theorem optionLe_trans {α : Type} [LinearOrder α] {a b c : Option α} (ha : optionLe a b) (hb : optionLe b c) :
    optionLe a c := by
  cases a with
  | none => rfl
  | some a =>
    cases b with
    | none => simp [optionLe] at ha
    | some b =>
      cases c with
      | none => simp [optionLe] at hb
      | some c =>
        simp only [optionLe,decide_eq_true_eq] at *
        exact ha.trans hb

instance (key : SortKey) : Std.Total (fun a b => key.before a b = true) where
  total a b := by
    cases key with
    | relevance => simpa [SortKey.before] using le_total b.relevance a.relevance
    | recency =>
      have htime := optionLe_total (transactionTime a) (transactionTime b)
      have hrel := le_total a.relevance b.relevance
      simp only [SortKey.before, Bool.and_eq_true, Bool.or_eq_true, Bool.not_eq_true', decide_eq_true_eq]
      cases hab : optionLe (transactionTime a) (transactionTime b) <;>
        cases hba : optionLe (transactionTime b) (transactionTime a) <;> simp_all [or_comm]
    | quality => exact optionLe_total _ _
    | natural => exact Or.inl rfl

instance (key : SortKey) : IsTrans RetrievalHit (fun a b => key.before a b = true) where
  trans a b c hab hbc := by
    cases key with
    | relevance =>
      simp only [SortKey.before, decide_eq_true_eq] at *
      exact hbc.trans hab
    | recency =>
      simp only [SortKey.before, Bool.and_eq_true, Bool.or_eq_true, Bool.not_eq_true', decide_eq_true_eq] at *
      have hlater := optionLe_trans hbc.1 hab.1
      refine ⟨hlater, ?_⟩
      by_cases hca : optionLe (transactionTime a) (transactionTime c)
      · -- equal times all along: the relevances decide
        have hba := optionLe_trans hca hbc.1
        have hcb := optionLe_trans hab.1 hca
        have hrel₁ : b.relevance ≤ a.relevance := by simpa [hab.1, hba] using hab.2
        have hrel₂ : c.relevance ≤ b.relevance := by simpa [hbc.1, hcb] using hbc.2
        exact Or.inr (hrel₂.trans hrel₁)
      · simp [hca]
    | quality => exact optionLe_trans hbc hab
    | natural => rfl

@[simp] theorem SortKey.sort_natural (hits : List RetrievalHit) : SortKey.natural.sort hits = hits :=
  List.Pairwise.insertionSort_eq (List.pairwise_of_forall (fun _ _ => rfl))

end UwuContextDb.Retrieve
