import UwuContextDb.Core.Model

/-! The derived `Serialize` and `Deserialize` implementations of the data model, and
their round trips. Unknown keys are ignored, missing ones are errors. -/

namespace UwuContextDb

open Json

def BlobRef.toValue (b : BlobRef) : Json :=
  obj [("hash", str b.hash), ("size", ofNat b.size), ("mime_type", str b.mimeType)]

def BlobRef.fromValue (v : Json) : Option BlobRef := do
  let hash ← (v.get? "hash").bind asString
  let size ← (v.get? "size").bind asNat
  let mimeType ← (v.get? "mime_type").bind asString
  return ⟨hash, size, mimeType⟩

@[simp] theorem BlobRef.fromValue_toValue (b : BlobRef) : fromValue b.toValue = some b := rfl

def SchemaRef.toValue (s : SchemaRef) : Json :=
  obj [("format", str s.format), ("blob", ofOption BlobRef.toValue s.blob)]

def SchemaRef.fromValue (v : Json) : Option SchemaRef := do
  let format ← (v.get? "format").bind asString
  let blob ← optionField BlobRef.fromValue (v.get? "blob")
  return ⟨format, blob⟩

@[simp] theorem SchemaRef.fromValue_toValue (s : SchemaRef) : fromValue s.toValue = some s := by
  obtain ⟨format,blob⟩ := s
  cases blob <;> rfl

def EmbeddingNormalization.toValue : EmbeddingNormalization → Json
  | .none => str "none"
  | .l2 => str "l2"

def EmbeddingNormalization.fromValue : Json → Option EmbeddingNormalization
  | .str "none" => some .none
  | .str "l2" => some .l2
  | _ => Option.none

@[simp] theorem EmbeddingNormalization.fromValue_toValue (n : EmbeddingNormalization) :
    fromValue n.toValue = some n := by cases n <;> rfl

def EmbeddingSpaceId.toValue (s : EmbeddingSpaceId) : Json :=
  obj [("model", str s.model), ("checkpoint", str s.checkpoint), ("preprocess", str s.preprocess),
    ("dim", ofNat s.dim), ("normalization", s.normalization.toValue)]

def EmbeddingSpaceId.fromValue (v : Json) : Option EmbeddingSpaceId := do
  let model ← (v.get? "model").bind asString
  let checkpoint ← (v.get? "checkpoint").bind asString
  let preprocess ← (v.get? "preprocess").bind asString
  let dim ← (v.get? "dim").bind asNat
  let normalization ← (v.get? "normalization").bind EmbeddingNormalization.fromValue
  return ⟨model, checkpoint, preprocess, dim, normalization⟩

@[simp] theorem EmbeddingSpaceId.fromValue_toValue (s : EmbeddingSpaceId) : fromValue s.toValue = some s := by
  obtain ⟨model,checkpoint,preprocess,dim,normalization⟩ := s
  cases normalization <;> rfl

def ofFloat (q : ℚ) : Json := num (.float q)

@[simp] theorem asFloat_ofFloat (q : ℚ) : asFloat (ofFloat q) = some q := rfl

def EncodedEmbedding.toValue (e : EncodedEmbedding) : Json :=
  obj [("space", e.space.toValue), ("values", ofList ofFloat e.values)]

def EncodedEmbedding.fromValue (v : Json) : Option EncodedEmbedding := do
  let space ← (v.get? "space").bind EmbeddingSpaceId.fromValue
  let values ← (v.get? "values").bind (listOf asFloat)
  return ⟨space, values⟩

@[simp] theorem EncodedEmbedding.fromValue_toValue (e : EncodedEmbedding) : fromValue e.toValue = some e := by
  simp [fromValue,toValue,get?,List.lookup_cons,listOf_ofList asFloat_ofFloat]

namespace ContextUri

/-- `uri_serde`: a URI is its canonical string. -/
def toValue (u : ContextUri) : Json := str u.canonical

def fromValue (v : Json) : Option ContextUri := do
  let s ← v.asString
  (parse s).toOption

end ContextUri

mutual
def ContentPayload.toValue : ContentPayload → Json
  | .text sparse dense full =>
    obj [("Text", obj [("sparse", str sparse), ("dense", str dense), ("full", str full)])]
  | .image thumbnail features raw =>
    obj [("Image", obj [("thumbnail", ofList ofNat thumbnail), ("features", features.toValue),
      ("raw", raw.toValue)])]
  | .audio transcript embedding raw =>
    obj [("Audio", obj [("transcript", str transcript), ("embedding", embedding.toValue),
      ("raw", raw.toValue)])]
  | .structured summary schema data =>
    obj [("Structured", obj [("summary", str summary), ("schema", ofOption SchemaRef.toValue schema),
      ("data", data)])]
  | .composite summary parts =>
    obj [("Composite", obj [("summary", str summary), ("parts", arr (partsToValue parts))])]

def partsToValue : List ContentPart → List Json
  | [] => []
  | p::ps => p.toValue :: partsToValue ps

def ContentPart.toValue : ContentPart → Json
  | .text payload => obj [("Text", payload.toValue)]
  | .image payload => obj [("Image", payload.toValue)]
  | .audio payload => obj [("Audio", payload.toValue)]
  | .reference uri => obj [("Reference", uri.toValue)]
end

mutual
/-- The payload inside at most `fuel` nested composites. -/
def decodePayload : Nat → Json → Option ContentPayload
  | 0, _ => none
  | fuel+1, v => do
    let (tag, body) ← v.variant?
    match tag with
    | "Text" =>
      let sparse ← (body.get? "sparse").bind asString
      let dense ← (body.get? "dense").bind asString
      let full ← (body.get? "full").bind asString
      return .text sparse dense full
    | "Image" =>
      let thumbnail ← (body.get? "thumbnail").bind (listOf asNat)
      let features ← (body.get? "features").bind EncodedEmbedding.fromValue
      let raw ← (body.get? "raw").bind BlobRef.fromValue
      return .image thumbnail features raw
    | "Audio" =>
      let transcript ← (body.get? "transcript").bind asString
      let embedding ← (body.get? "embedding").bind EncodedEmbedding.fromValue
      let raw ← (body.get? "raw").bind BlobRef.fromValue
      return .audio transcript embedding raw
    | "Structured" =>
      let summary ← (body.get? "summary").bind asString
      let schema ← optionField SchemaRef.fromValue (body.get? "schema")
      let data ← body.get? "data"
      return .structured summary schema data
    | "Composite" =>
      let summary ← (body.get? "summary").bind asString
      let parts ← (body.get? "parts").bind (listOf (decodePart fuel))
      return .composite summary parts
    | _ => none

def decodePart : Nat → Json → Option ContentPart
  | 0, _ => none
  | fuel+1, v => do
    let (tag, body) ← v.variant?
    match tag with
    | "Text" => (decodePayload fuel body).map .text
    | "Image" => (decodePayload fuel body).map .image
    | "Audio" => (decodePayload fuel body).map .audio
    | "Reference" => (ContextUri.fromValue body).map .reference
    | _ => none
end

/-- `serde_json::from_str::<ContentPayload>`. -/
def ContentPayload.fromValue (v : Json) : Option ContentPayload := decodePayload v.depth v

def ContentType.toValue : ContentType → Json
  | .fact => str "fact"
  | .belief => str "belief"
  | .hypothesis => str "hypothesis"
  | .heuristic => str "heuristic"
  | .procedure => str "procedure"
  | .preference => str "preference"
  | .profile => str "profile"
  | .goal => str "goal"
  | .skill => str "skill"
  | .reflection => str "reflection"
  | .evidence => str "evidence"
  | .error => str "error"
  | .metaMemory => str "meta"

def EpistemicType.toValue : EpistemicType → Json
  | .fact => str "Fact"
  | .belief => str "Belief"
  | .hypothesis => str "Hypothesis"
  | .heuristic => str "Heuristic"
  | .procedure => str "Procedure"

def StateScope.toValue : StateScope → Json
  | .short => str "Short"
  | .mid => str "Mid"
  | .long => str "Long"

def MediaType.toValue : MediaType → Json
  | .text => str "Text"
  | .image => str "Image"
  | .audio => str "Audio"
  | .video => str "Video"
  | .binary => str "Binary"

def DateTime.toValue (t : DateTime) : Json := num (.int t)

def ValidityRecord.toValue (r : ValidityRecord) : Json :=
  obj [("valid_from", DateTime.toValue r.validFrom), ("valid_until", ofOption DateTime.toValue r.validUntil),
    ("invalidated_by", ofOption ContextUri.toValue r.invalidatedBy),
    ("invalidation_reason", ofOption str r.invalidationReason)]

def HalfLife.toValue : HalfLife → Json
  | .infinite => obj [("kind", str "infinite")]
  | .finite days => obj [("kind", str "finite"), ("days", ofFloat days)]

def ConsolidationStatus.toValue : ConsolidationStatus → Json
  | .pending => str "Pending"
  | .inProgress => str "InProgress"
  | .converged => str "Converged"
  | .stale => str "Stale"

def LineageEntry.toValue (l : LineageEntry) : Json :=
  obj [("version", ofNat l.version), ("timestamp", DateTime.toValue l.timestamp),
    ("change_summary", str l.changeSummary)]

def ConsolidationMeta.toValue (c : ConsolidationMeta) : Json :=
  obj [("source", str c.source), ("generation", ofNat c.generation), ("status", c.status.toValue),
    ("patch_count", ofNat c.patchCount), ("lineage", ofList LineageEntry.toValue c.lineage),
    ("evidence_uris", ofList ContextUri.toValue c.evidenceUris), ("corroboration", ofNat c.corroboration),
    ("half_life", ofOption HalfLife.toValue c.halfLife),
    ("entangled_with", ofList ContextUri.toValue c.entangledWith)]

def DerivationRule.toValue : DerivationRule → Json
  | .llm promptTemplate model =>
    obj [("Llm", obj [("prompt_template", str promptTemplate), ("model", str model)])]
  | .extractive algorithm => obj [("Extractive", obj [("algorithm", str algorithm)])]
  | .manual => str "Manual"

def DerivationChain.toValue (d : DerivationChain) : Json :=
  obj [("full_source", str d.fullSource), ("dense_rule", d.denseRule.toValue),
    ("sparse_rule", d.sparseRule.toValue), ("last_recomputed", DateTime.toValue d.lastRecomputed)]

def ContextMeta.toValue (m : ContextMeta) : Json :=
  obj ([("content_type", ofOption ContentType.toValue m.contentType),
      ("state_scope", ofOption StateScope.toValue m.stateScope), ("tags", ofList str m.tags)] ++
    skipNone "epistemic_type" EpistemicType.toValue m.epistemicType ++
    skipNone "quality_score" ofFloat m.qualityScore ++
    skipNone "validity" ValidityRecord.toValue m.validity ++
    skipNone "consolidation" ConsolidationMeta.toValue m.consolidation ++ [("custom", m.custom)])

/-- `serde_json::to_value(&entry)`. -/
def ContextEntry.toValue (e : ContextEntry) : Json :=
  obj ([("uri", e.uri.toValue), ("tenant", ofNat e.tenant), ("payload", e.payload.toValue),
      ("media_type", e.mediaType.toValue), ("metadata", e.metadata.toValue),
      ("mvcc_version", ofNat e.mvccVersion), ("created_at", DateTime.toValue e.createdAt),
      ("updated_at", DateTime.toValue e.updatedAt)] ++
    skipNone "derivation" DerivationChain.toValue e.derivation)

example : ContentPayload.fromValue (ContentPayload.toValue (.text "a" "b" "c")) =
    some (.text "a" "b" "c") := by rfl

end UwuContextDb
