import UwuContextDb.Core.Json
import UwuContextDb.Core.Uri

/-! The core data model: content payloads, metadata and context entries. -/

namespace UwuContextDb

abbrev Uuid := Nat

/-- `DateTime<Utc>`, kept as nanoseconds since the epoch. -/
abbrev DateTime := Int

abbrev TenantId := Uuid
abbrev MvccVersion := Nat
abbrev ContentHash := String

structure BlobRef where
  hash : ContentHash
  size : Nat
  mimeType : String
  deriving DecidableEq

structure SchemaRef where
  format : String
  blob : Option BlobRef
  deriving DecidableEq

inductive MediaType | text | image | audio | video | binary deriving DecidableEq

inductive ContentLevel | l0 | l1 | l2 deriving DecidableEq

inductive EmbeddingNormalization | none | l2 deriving DecidableEq

structure EmbeddingSpaceId where
  model : String
  checkpoint : String
  preprocess : String
  dim : Nat
  normalization : EmbeddingNormalization
  deriving DecidableEq

structure EncodedEmbedding where
  space : EmbeddingSpaceId
  values : List ℚ
  deriving DecidableEq

mutual
inductive ContentPayload
  | text (sparse dense full : String)
  | image (thumbnail : List Nat) (features : EncodedEmbedding) (raw : BlobRef)
  | audio (transcript : String) (embedding : EncodedEmbedding) (raw : BlobRef)
  | structured (summary : String) (schema : Option SchemaRef) (data : Json)
  | composite (summary : String) (parts : List ContentPart)

inductive ContentPart
  | text (payload : ContentPayload)
  | image (payload : ContentPayload)
  | audio (payload : ContentPayload)
  | reference (uri : ContextUri)
end

def ContentPayload.sparseText : ContentPayload → String
  | .text sparse _ _ => sparse
  | .image _ _ _ => "[image]"
  | .audio transcript _ _ => transcript
  | .structured summary _ _ => summary
  | .composite summary _ => summary

inductive ContentType
  | fact | belief | hypothesis | heuristic | procedure | preference | profile | goal | skill | reflection
  | evidence | error | metaMemory
  deriving DecidableEq

def ContentType.asPathSegment : ContentType → String
  | .fact => "fact"
  | .belief => "belief"
  | .hypothesis => "hypothesis"
  | .heuristic => "heuristic"
  | .procedure => "procedure"
  | .preference => "preference"
  | .profile => "profile"
  | .goal => "goal"
  | .skill => "skill"
  | .reflection => "reflection"
  | .evidence => "evidence"
  | .error => "error"
  | .metaMemory => "meta"

inductive EpistemicType | fact | belief | hypothesis | heuristic | procedure deriving DecidableEq

inductive StateScope | short | mid | long deriving DecidableEq

structure ValidityRecord where
  validFrom : DateTime
  validUntil : Option DateTime
  invalidatedBy : Option ContextUri
  invalidationReason : Option String

inductive HalfLife | infinite | finite (days : ℚ)

inductive ConsolidationStatus | pending | inProgress | converged | stale deriving DecidableEq

structure LineageEntry where
  version : MvccVersion
  timestamp : DateTime
  changeSummary : String

structure ConsolidationMeta where
  source : String
  generation : Nat
  status : ConsolidationStatus
  patchCount : Nat
  lineage : List LineageEntry
  evidenceUris : List ContextUri
  corroboration : Nat
  halfLife : Option HalfLife
  entangledWith : List ContextUri

inductive DerivationRule
  | llm (promptTemplate model : String)
  | extractive (algorithm : String)
  | manual

structure DerivationChain where
  fullSource : ContentHash
  denseRule : DerivationRule
  sparseRule : DerivationRule
  lastRecomputed : DateTime

structure ContextMeta where
  contentType : Option ContentType
  stateScope : Option StateScope
  tags : List String
  epistemicType : Option EpistemicType
  qualityScore : Option ℚ
  validity : Option ValidityRecord
  consolidation : Option ConsolidationMeta
  custom : Json

/-- `ContextMeta::default()`. -/
def ContextMeta.empty : ContextMeta := ⟨none, none, [], none, none, none, none, .null⟩

structure ContextEntry where
  uri : ContextUri
  tenant : TenantId
  payload : ContentPayload
  mediaType : MediaType
  metadata : ContextMeta
  mvccVersion : MvccVersion
  createdAt : DateTime
  updatedAt : DateTime
  derivation : Option DerivationChain

namespace ContextEntry

/-- `ContextEntry::new_text`, at the clock reading `now`. -/
def newText (uri : ContextUri) (tenant : TenantId) (text : String) (now : DateTime) : ContextEntry :=
  ⟨uri, tenant, .text text text text, .text, .empty, 0, now, now, none⟩

/-- `ContextEntry::l0_text`. -/
def l0Text (e : ContextEntry) : String := e.payload.sparseText

end ContextEntry
end UwuContextDb

/-! Entries are compared by their printed bytes, which is to say by their values. -/

namespace UwuContextDb

mutual
def ContentPayload.beq : ContentPayload → ContentPayload → Bool
  | .text sparse dense full, .text sparse' dense' full' => sparse == sparse' && dense == dense' && full == full'
  | .image thumbnail features raw, .image thumbnail' features' raw' =>
    decide (thumbnail = thumbnail') && decide (features = features') && decide (raw = raw')
  | .audio transcript embedding raw, .audio transcript' embedding' raw' =>
    transcript == transcript' && decide (embedding = embedding') && decide (raw = raw')
  | .structured summary schema data, .structured summary' schema' data' =>
    summary == summary' && decide (schema = schema') && decide (data = data')
  | .composite summary parts, .composite summary' parts' => summary == summary' && ContentPart.beqAll parts parts'
  | _, _ => false

def ContentPart.beq : ContentPart → ContentPart → Bool
  | .text p, .text q => p.beq q
  | .image p, .image q => p.beq q
  | .audio p, .audio q => p.beq q
  | .reference uri, .reference uri' => decide (uri = uri')
  | _, _ => false

def ContentPart.beqAll : List ContentPart → List ContentPart → Bool
  | [], [] => true
  | p::ps, q::qs => p.beq q && ContentPart.beqAll ps qs
  | _, _ => false
end

mutual
theorem ContentPayload.beq_iff : ∀ p q : ContentPayload, p.beq q = true ↔ p = q
  | .text .., q => by cases q <;> simp [ContentPayload.beq, and_assoc]
  | .image .., q => by cases q <;> simp [ContentPayload.beq, and_assoc]
  | .audio .., q => by cases q <;> simp [ContentPayload.beq, and_assoc]
  | .structured .., q => by cases q <;> simp [ContentPayload.beq, and_assoc]
  | .composite _ parts, q => by cases q <;> simp [ContentPayload.beq, ContentPart.beqAll_iff parts]

theorem ContentPart.beq_iff : ∀ p q : ContentPart, p.beq q = true ↔ p = q
  | .text p, q => by cases q <;> simp [ContentPart.beq,ContentPayload.beq_iff p]
  | .image p, q => by cases q <;> simp [ContentPart.beq,ContentPayload.beq_iff p]
  | .audio p, q => by cases q <;> simp [ContentPart.beq,ContentPayload.beq_iff p]
  | .reference u, q => by cases q <;> simp [ContentPart.beq]

theorem ContentPart.beqAll_iff : ∀ ps qs : List ContentPart, ContentPart.beqAll ps qs = true ↔ ps = qs
  | [], qs => by cases qs <;> simp [ContentPart.beqAll]
  | p::ps, qs => by cases qs <;> simp [ContentPart.beqAll,ContentPart.beq_iff p,ContentPart.beqAll_iff ps]
end

instance : DecidableEq ContentPayload := fun p q => decidable_of_iff _ (ContentPayload.beq_iff p q)

deriving instance DecidableEq for ValidityRecord, HalfLife, LineageEntry, ConsolidationMeta,
  DerivationRule, DerivationChain, ContextMeta

deriving instance DecidableEq for ContextEntry

end UwuContextDb
