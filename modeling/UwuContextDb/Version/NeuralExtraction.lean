import UwuContextDb.Core.ModelOutput
import UwuContextDb.Library.SetUnion
import UwuContextDb.Version.BeliefRevision

/-! `parse_neural_extraction`: the beliefs that a model's answer states. -/

namespace UwuContextDb.Version

open Core (fromAnswer)
open Text (isWhitespace)

structure RawBeliefLiteral where
  subject : String
  relation : Option String
  object : String
  polarity : Option String
  deriving DecidableEq

structure RawNeuralBeliefExtraction (K : Type) where
  literals : List RawBeliefLiteral
  confidence : K
  rationale : Option String
  deriving DecidableEq

structure NeuralBeliefExtraction (K : Type) where
  literals : List BeliefLiteral
  confidence : K
  rationale : String
  deriving DecidableEq

section Extraction

variable {K : Type} [LinearOrder K] [Zero K] [One K] (isAlphanumeric : Char → Bool)

/-- `normalize`; `to_ascii_lowercase` is that of the characters. -/
def normalize (text : String) : String :=
  let kept := text.toList.map (fun c =>
    let c := c.toLower
    if isAlphanumeric c || isWhitespace c || ['_', '-', '=', ':', '!'].contains c then c else ' ')
  String.ofList ([' '].intercalate (Words.words isWhitespace kept))

def RawBeliefLiteral.polarityOf (raw : RawBeliefLiteral) : BeliefPolarity :=
  if ["negated", "negative", "false", "not"].contains (raw.polarity.getD "affirmed") then .negated else .affirmed

def RawBeliefLiteral.literal (raw : RawBeliefLiteral) : Option BeliefLiteral :=
  let subject := normalize isAlphanumeric raw.subject
  let relation := normalize isAlphanumeric (raw.relation.getD "asserts")
  let object := normalize isAlphanumeric raw.object
  if subject.isEmpty || object.isEmpty then none else some ⟨⟨subject, relation, object⟩, raw.polarityOf⟩

def dedupeLiterals (literals : List BeliefLiteral) : List BeliefLiteral := SetUnion.union [] literals

def RawNeuralBeliefExtraction.kept (json : RawNeuralBeliefExtraction K) : List BeliefLiteral :=
  json.literals.filterMap (·.literal isAlphanumeric)

/-- What `parse_neural_extraction` makes of what was read. -/
def RawNeuralBeliefExtraction.extraction (json : RawNeuralBeliefExtraction K) : Option (NeuralBeliefExtraction K) :=
  if (json.kept isAlphanumeric).isEmpty then none
  else some ⟨dedupeLiterals (json.kept isAlphanumeric), min (max json.confidence 0) 1, json.rationale.getD ""⟩

/-- `parse_neural_extraction`, with `serde_json::from_str`; none where it panics. -/
def parseNeuralExtraction (fromStr : List Char → Option (RawNeuralBeliefExtraction K)) (raw : List Char) :
    Option (Option (NeuralBeliefExtraction K)) :=
  (fromAnswer fromStr raw).map (·.bind (·.extraction isAlphanumeric))

/-- Two readings leave the same: no literal, or the same literals, confidence and rationale. -/
def RawNeuralBeliefExtraction.Alike (json : RawNeuralBeliefExtraction K)
    (other : Option (RawNeuralBeliefExtraction K)) : Prop :=
  if json.kept isAlphanumeric = [] then ∀ read ∈ other, read.kept isAlphanumeric = []
  else ∃ read ∈ other, read.kept isAlphanumeric ≠ [] ∧
    dedupeLiterals (json.kept isAlphanumeric) = dedupeLiterals (read.kept isAlphanumeric) ∧
    min (max json.confidence 0) 1 = min (max read.confidence 0) 1 ∧ json.rationale.getD "" = read.rationale.getD ""

variable {isAlphanumeric}

theorem extraction_confidence [ZeroLEOneClass K] {json : RawNeuralBeliefExtraction K} {result : NeuralBeliefExtraction K}
    (h : json.extraction isAlphanumeric = some result) : 0 ≤ result.confidence ∧ result.confidence ≤ 1 := by
  unfold RawNeuralBeliefExtraction.extraction at h
  split_ifs at h
  obtain rfl := Option.some.inj h
  exact ⟨le_min (le_max_right _ _) zero_le_one,min_le_right _ _⟩

theorem alike_iff {json : RawNeuralBeliefExtraction K} {other : Option (RawNeuralBeliefExtraction K)} :
    json.Alike isAlphanumeric other ↔ json.extraction isAlphanumeric = other.bind (·.extraction isAlphanumeric) := by
  unfold RawNeuralBeliefExtraction.Alike RawNeuralBeliefExtraction.extraction
  by_cases hk : json.kept isAlphanumeric = []
  · cases other <;> simp [hk]
  · cases other with
    | none => simp [hk]
    | some read =>
      by_cases hr : read.kept isAlphanumeric = [] <;> simp [hk,hr]

end Extraction

end UwuContextDb.Version
