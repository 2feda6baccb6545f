import UwuContextDb.Core.Serde

/-! The derived `Deserialize` implementations of the metadata and of a whole entry. -/

namespace UwuContextDb

open Json

def Json.asReal : Json → Option ℚ
  | num (.float q) => some q
  | num (.int n) => some n
  | _ => none

def ContentType.fromPathSegment : String → Option ContentType
  | "fact" => some .fact
  | "belief" => some .belief
  | "hypothesis" => some .hypothesis
  | "heuristic" => some .heuristic
  | "procedure" => some .procedure
  | "preference" => some .preference
  | "profile" => some .profile
  | "goal" => some .goal
  | "skill" => some .skill
  | "reflection" => some .reflection
  | "evidence" => some .evidence
  | "error" => some .error
  | "meta" => some .metaMemory
  | _ => none

def ContentType.fromValue (v : Json) : Option ContentType := v.asString.bind fromPathSegment

def EpistemicType.fromValue : Json → Option EpistemicType
  | .str "Fact" => some .fact
  | .str "Belief" => some .belief
  | .str "Hypothesis" => some .hypothesis
  | .str "Heuristic" => some .heuristic
  | .str "Procedure" => some .procedure
  | _ => none

def StateScope.fromValue : Json → Option StateScope
  | .str "Short" => some .short
  | .str "Mid" => some .mid
  | .str "Long" => some .long
  | _ => none

def MediaType.fromValue : Json → Option MediaType
  | .str "Text" => some .text
  | .str "Image" => some .image
  | .str "Audio" => some .audio
  | .str "Video" => some .video
  | .str "Binary" => some .binary
  | _ => none

def DateTime.fromValue (v : Json) : Option DateTime := v.asInt

def ValidityRecord.fromValue (v : Json) : Option ValidityRecord := do
  let validFrom ← (v.get? "valid_from").bind DateTime.fromValue
  let validUntil ← optionField DateTime.fromValue (v.get? "valid_until")
  let invalidatedBy ← optionField ContextUri.fromValue (v.get? "invalidated_by")
  let invalidationReason ← optionField asString (v.get? "invalidation_reason")
  return ⟨validFrom, validUntil, invalidatedBy, invalidationReason⟩

def HalfLife.fromValue (v : Json) : Option HalfLife := do
  let kind ← (v.get? "kind").bind asString
  match kind with
  | "infinite" => return .infinite
  | "finite" =>
    let days ← (v.get? "days").bind asReal
    return .finite days
  | _ => none

def ConsolidationStatus.fromValue : Json → Option ConsolidationStatus
  | .str "Pending" => some .pending
  | .str "InProgress" => some .inProgress
  | .str "Converged" => some .converged
  | .str "Stale" => some .stale
  | _ => none

def LineageEntry.fromValue (v : Json) : Option LineageEntry := do
  let version ← (v.get? "version").bind asNat
  let timestamp ← (v.get? "timestamp").bind DateTime.fromValue
  let changeSummary ← (v.get? "change_summary").bind asString
  return ⟨version, timestamp, changeSummary⟩

def ConsolidationMeta.fromValue (v : Json) : Option ConsolidationMeta := do
  let source ← (v.get? "source").bind asString
  let generation ← (v.get? "generation").bind asNat
  let status ← (v.get? "status").bind ConsolidationStatus.fromValue
  let patchCount ← (v.get? "patch_count").bind asNat
  let lineage ← (v.get? "lineage").bind (listOf LineageEntry.fromValue)
  let evidenceUris ← (v.get? "evidence_uris").bind (listOf ContextUri.fromValue)
  let corroboration ← (v.get? "corroboration").bind asNat
  let halfLife ← optionField HalfLife.fromValue (v.get? "half_life")
  let entangledWith ← (v.get? "entangled_with").bind (listOf ContextUri.fromValue)
  return ⟨source, generation, status, patchCount, lineage, evidenceUris, corroboration, halfLife, entangledWith⟩

def DerivationRule.fromValue (v : Json) : Option DerivationRule :=
  match v with
  | .str "Manual" => some .manual
  | _ => do
    let (tag, body) ← v.variant?
    match tag with
    | "Llm" =>
      let promptTemplate ← (body.get? "prompt_template").bind asString
      let model ← (body.get? "model").bind asString
      return .llm promptTemplate model
    | "Extractive" =>
      let algorithm ← (body.get? "algorithm").bind asString
      return .extractive algorithm
    | _ => none

def DerivationChain.fromValue (v : Json) : Option DerivationChain := do
  let fullSource ← (v.get? "full_source").bind asString
  let denseRule ← (v.get? "dense_rule").bind DerivationRule.fromValue
  let sparseRule ← (v.get? "sparse_rule").bind DerivationRule.fromValue
  let lastRecomputed ← (v.get? "last_recomputed").bind DateTime.fromValue
  return ⟨fullSource, denseRule, sparseRule, lastRecomputed⟩

/-- A missing `custom` is read as `null`. -/
def ContextMeta.fromValue (v : Json) : Option ContextMeta := do
  let contentType ← optionField ContentType.fromValue (v.get? "content_type")
  let stateScope ← optionField StateScope.fromValue (v.get? "state_scope")
  let tags ← (v.get? "tags").bind (listOf asString)
  let epistemicType ← optionField EpistemicType.fromValue (v.get? "epistemic_type")
  let qualityScore ← optionField asReal (v.get? "quality_score")
  let validity ← optionField ValidityRecord.fromValue (v.get? "validity")
  let consolidation ← optionField ConsolidationMeta.fromValue (v.get? "consolidation")
  return ⟨contentType, stateScope, tags, epistemicType, qualityScore, validity, consolidation,
    (v.get? "custom").getD .null⟩

namespace ContextEntry

/-- `serde_json::from_str::<ContextEntry>`. -/
def fromValue (v : Json) : Option ContextEntry := do
  let uri ← (v.get? "uri").bind ContextUri.fromValue
  let tenant ← (v.get? "tenant").bind asNat
  let payload ← (v.get? "payload").bind ContentPayload.fromValue
  let mediaType ← (v.get? "media_type").bind MediaType.fromValue
  let metadata ← (v.get? "metadata").bind ContextMeta.fromValue
  let mvccVersion ← (v.get? "mvcc_version").bind asNat
  let createdAt ← (v.get? "created_at").bind DateTime.fromValue
  let updatedAt ← (v.get? "updated_at").bind DateTime.fromValue
  let derivation ← optionField DerivationChain.fromValue (v.get? "derivation")
  return ⟨uri, tenant, payload, mediaType, metadata, mvccVersion, createdAt, updatedAt, derivation⟩

theorem uri_of_fromValue {v : Json} {e : ContextEntry} (h : fromValue v = some e) :
    v.get? "uri" = some (str e.uri.canonical) := by
  obtain ⟨uri,hr,h⟩ := Option.bind_eq_some_iff.mp h
  obtain ⟨tenant,-,h⟩ := Option.bind_eq_some_iff.mp h
  obtain ⟨payload,-,h⟩ := Option.bind_eq_some_iff.mp h
  obtain ⟨mediaType,-,h⟩ := Option.bind_eq_some_iff.mp h
  obtain ⟨md,-,h⟩ := Option.bind_eq_some_iff.mp h
  obtain ⟨mvccVersion,-,h⟩ := Option.bind_eq_some_iff.mp h
  obtain ⟨createdAt,-,h⟩ := Option.bind_eq_some_iff.mp h
  obtain ⟨updatedAt,-,h⟩ := Option.bind_eq_some_iff.mp h
  obtain ⟨derivation,-,h⟩ := Option.bind_eq_some_iff.mp h
  cases h
  obtain ⟨field,hf,hr⟩ := Option.bind_eq_some_iff.mp hr
  obtain ⟨text,ht,hp⟩ := Option.bind_eq_some_iff.mp hr
  have hs : field = str text := by
    cases field with
    | str s => exact congrArg str (Option.some.inj ht)
    | _ => cases ht
  cases he : ContextUri.parse text with
  | error err => simp [he,Except.toOption] at hp
  | ok u =>
    have hu : u = uri := by simpa [he,Except.toOption] using hp
    rw [hf,hs,← hu,ContextUri.parse_canonical he]

end ContextEntry

/-- The URI is what parsing its text gives. -/
def ContextUri.Parsed (u : ContextUri) : Prop := parse u.canonical = .ok u

mutual
/-- Every URI that the payload refers to is what parsing its text gives. -/
def ContentPayload.Parsed : ContentPayload → Prop
  | .composite _ parts => partsParsed parts
  | _ => True

def partsParsed : List ContentPart → Prop
  | [] => True
  | p::ps => p.Parsed ∧ partsParsed ps

def ContentPart.Parsed : ContentPart → Prop
  | .text payload => payload.Parsed
  | .image payload => payload.Parsed
  | .audio payload => payload.Parsed
  | .reference uri => uri.Parsed
end

def ContextMeta.Parsed (m : ContextMeta) : Prop :=
  (∀ validity ∈ m.validity, ∀ uri ∈ validity.invalidatedBy, uri.Parsed) ∧
    ∀ c ∈ m.consolidation, (∀ uri ∈ c.evidenceUris, uri.Parsed) ∧ ∀ uri ∈ c.entangledWith, uri.Parsed

def ContextEntry.Parsed (e : ContextEntry) : Prop := e.uri.Parsed ∧ e.payload.Parsed ∧ e.metadata.Parsed

theorem ContextUri.fromValue_toValue_iff (u : ContextUri) : fromValue u.toValue = some u ↔ u.Parsed := by
  have h : fromValue u.toValue = (parse u.canonical).toOption := rfl
  rw [h]
  unfold Parsed
  cases parse u.canonical <;> simp [Except.toOption]

theorem Json.mapM_cons_eq_some {α β : Type} {f : α → Option β} {a : α} {as : List α} {b : β} {bs : List β} :
    (a::as).mapM f = some (b::bs) ↔ f a = some b ∧ as.mapM f = some bs := by
  rw [List.mapM_cons]
  cases f a <;> cases as.mapM f <;> simp

theorem Json.listOf_ofList_iff {α : Type} (enc : α → Json) (dec : Json → Option α) (xs : List α) :
    listOf dec (ofList enc xs) = some xs ↔ ∀ x ∈ xs, dec (enc x) = some x := by
  have h : listOf dec (ofList enc xs) = (xs.map enc).mapM dec := rfl
  rw [h]
  clear h
  induction xs with
  | nil => simp
  | cons x xs ih =>
    rw [List.map_cons,mapM_cons_eq_some,List.forall_mem_cons]
    exact and_congr_right (fun _ => ih)

mutual
theorem decodePayload_toValue : ∀ (p : ContentPayload) (fuel : ℕ), p.toValue.depth ≤ fuel →
    (decodePayload fuel p.toValue = some p ↔ p.Parsed)
  | p, 0, h => by cases p <;> simp [ContentPayload.toValue,depth] at h
  | .composite summary parts, fuel+1, h => by
    have hd : itemsDepth (partsToValue parts) ≤ fuel := by
      simp only [ContentPayload.toValue,depth,fieldsDepth] at h
      omega
    have hl : listOf (decodePart fuel) (arr (partsToValue parts)) = (partsToValue parts).mapM (decodePart fuel) := rfl
    simp only [ContentPayload.Parsed,← decodeParts_toValue parts fuel hd]
    cases hm : (partsToValue parts).mapM (decodePart fuel) <;>
      simp [decodePayload,ContentPayload.toValue,get?,List.lookup_cons,asString,hl,hm]
  | .text sparse dense full, fuel+1, h => by
    simp [decodePayload,ContentPayload.toValue,ContentPayload.Parsed,get?,List.lookup_cons,asString]
  | .image thumbnail features raw, fuel+1, h => by
    simp [decodePayload,ContentPayload.toValue,ContentPayload.Parsed,get?,List.lookup_cons,listOf_ofList asNat_ofNat]
  | .audio transcript embedding raw, fuel+1, h => by
    simp [decodePayload,ContentPayload.toValue,ContentPayload.Parsed,get?,List.lookup_cons,asString]
  | .structured summary schema data, fuel+1, h => by
    have hs : optionField SchemaRef.fromValue (some (ofOption SchemaRef.toValue schema)) = some schema := by
      cases schema with
      | none => rfl
      | some schema => exact congrArg (Option.map some) schema.fromValue_toValue
    simp [decodePayload,ContentPayload.toValue,ContentPayload.Parsed,get?,List.lookup_cons,asString,hs]

theorem decodeParts_toValue : ∀ (ps : List ContentPart) (fuel : ℕ), itemsDepth (partsToValue ps) ≤ fuel →
    ((partsToValue ps).mapM (decodePart fuel) = some ps ↔ partsParsed ps)
  | [], fuel, h => by simp [partsToValue,partsParsed]
  | p::ps, fuel, h => by
    have hm : p.toValue.depth ≤ fuel ∧ itemsDepth (partsToValue ps) ≤ fuel := max_le_iff.mp h
    simp only [partsToValue,partsParsed]
    rw [mapM_cons_eq_some,decodePart_toValue p fuel hm.1,decodeParts_toValue ps fuel hm.2]

theorem decodePart_toValue : ∀ (p : ContentPart) (fuel : ℕ), p.toValue.depth ≤ fuel →
    (decodePart fuel p.toValue = some p ↔ p.Parsed)
  | p, 0, h => by cases p <;> simp [ContentPart.toValue,depth] at h
  | .text payload, fuel+1, h | .image payload, fuel+1, h | .audio payload, fuel+1, h => by
    have hd : payload.toValue.depth ≤ fuel := by
      simp only [ContentPart.toValue,depth,fieldsDepth] at h
      omega
    simp [decodePart,ContentPart.toValue,ContentPart.Parsed,decodePayload_toValue payload fuel hd]
  | .reference uri, fuel+1, h => by
    simp [decodePart,ContentPart.toValue,ContentPart.Parsed,ContextUri.fromValue_toValue_iff]
end

section Fields

variable {α : Type} (enc : α → Json) (dec : Json → Option α)

/-- A field of an `Option` tells the value if its encoding is never `null`. -/
theorem Json.optionField_ofOption_iff (hn : ∀ a, enc a ≠ null) (o : Option α) :
    optionField dec (some (ofOption enc o)) = some o ↔ ∀ a ∈ o, dec (enc a) = some a := by
  cases o with
  | none => simp [optionField,ofOption]
  | some a =>
    have h : optionField dec (some (enc a)) = (dec (enc a)).map some := by
      cases he : enc a with
      | null => exact absurd he (hn a)
      | _ => rfl
    simp [ofOption,h]

theorem Json.optionField_map_iff (hn : ∀ a, enc a ≠ null) (o : Option α) :
    optionField dec (o.map enc) = some o ↔ ∀ a ∈ o, dec (enc a) = some a := by
  rw [← optionField_ofOption_iff enc dec hn]
  cases o <;> rfl

omit dec in
theorem Json.lookup_skipNone (key key' : String) (o : Option α) (rest : List (String × Json)) :
    (skipNone key enc o ++ rest).lookup key' =
      if key' = key then (o.map enc).or (rest.lookup key') else rest.lookup key' := by
  cases o with
  | none => simp [skipNone]
  | some a =>
    by_cases h : key' = key
    · simp [skipNone,h]
    · have hb : (key' == key) = false := beq_false_of_ne h
      simp [skipNone,List.lookup_cons,h,hb]

end Fields

theorem ValidityRecord.fromValue_toValue_iff (r : ValidityRecord) :
    fromValue r.toValue = some r ↔ ∀ uri ∈ r.invalidatedBy, uri.Parsed := by
  obtain ⟨validFrom,validUntil,invalidatedBy,reason⟩ := r
  have hu := optionField_ofOption_iff ContextUri.toValue ContextUri.fromValue (by rintro u ⟨⟩)
    invalidatedBy
  have ht := (optionField_ofOption_iff DateTime.toValue DateTime.fromValue (by rintro t ⟨⟩)
    validUntil).mpr (fun _ _ => rfl)
  have hr := (optionField_ofOption_iff str asString (by rintro t ⟨⟩) reason).mpr (fun _ _ => rfl)
  have hf : DateTime.fromValue (DateTime.toValue validFrom) = some validFrom := rfl
  simp only [ContextUri.fromValue_toValue_iff] at hu
  rw [← hu]
  cases hi : optionField ContextUri.fromValue (some (ofOption ContextUri.toValue invalidatedBy)) <;>
    simp [fromValue,toValue,get?,List.lookup_cons,hf,ht,hr,hi]

theorem DerivationRule.fromValue_toValue (r : DerivationRule) : fromValue r.toValue = some r := by cases r <;> rfl

theorem DerivationChain.fromValue_toValue (d : DerivationChain) : fromValue d.toValue = some d := by
  have ht : DateTime.fromValue (DateTime.toValue d.lastRecomputed) = some d.lastRecomputed := rfl
  simp [fromValue,toValue,get?,List.lookup_cons,asString,DerivationRule.fromValue_toValue,ht]

theorem LineageEntry.fromValue_toValue (l : LineageEntry) : fromValue l.toValue = some l := rfl

theorem ConsolidationStatus.fromValue_toValue (c : ConsolidationStatus) : fromValue c.toValue = some c := by
  cases c <;> rfl

theorem HalfLife.fromValue_toValue (l : HalfLife) : fromValue l.toValue = some l := by cases l <;> rfl

theorem ConsolidationMeta.fromValue_toValue_iff (c : ConsolidationMeta) :
    fromValue c.toValue = some c ↔ (∀ uri ∈ c.evidenceUris, uri.Parsed) ∧ ∀ uri ∈ c.entangledWith, uri.Parsed := by
  obtain ⟨source,generation,status,patchCount,lineage,evidence,corroboration,halfLife,entangled⟩ := c
  have he := listOf_ofList_iff ContextUri.toValue ContextUri.fromValue evidence
  have hg := listOf_ofList_iff ContextUri.toValue ContextUri.fromValue entangled
  have hl := listOf_ofList LineageEntry.fromValue_toValue lineage
  have hh := (optionField_ofOption_iff HalfLife.toValue HalfLife.fromValue (by rintro (_ | _) ⟨⟩) halfLife).mpr (fun l _ => l.fromValue_toValue)
  simp only [ContextUri.fromValue_toValue_iff] at he hg
  rw [← he,← hg]
  cases hi : listOf ContextUri.fromValue (ofList ContextUri.toValue evidence) <;>
    cases hj : listOf ContextUri.fromValue (ofList ContextUri.toValue entangled) <;>
    simp [fromValue,toValue,get?,List.lookup_cons,asString,ConsolidationStatus.fromValue_toValue,hl,hh,hi,hj]

theorem ContextMeta.fromValue_toValue_iff (m : ContextMeta) : fromValue m.toValue = some m ↔ m.Parsed := by
  obtain ⟨contentType,stateScope,tags,epistemicType,quality,validity,consolidation,custom⟩ := m
  have hc := (optionField_ofOption_iff ContentType.toValue ContentType.fromValue
    (by rintro (_ | _) ⟨⟩) contentType).mpr (by rintro (_ | _) _ <;> rfl)
  have hs := (optionField_ofOption_iff StateScope.toValue StateScope.fromValue
    (by rintro (_ | _) ⟨⟩) stateScope).mpr (by rintro (_ | _) _ <;> rfl)
  have ht : listOf asString (ofList str tags) = some tags := listOf_ofList (fun s => (rfl : asString (str s) = some s)) tags
  have he := (optionField_map_iff EpistemicType.toValue EpistemicType.fromValue
    (by rintro (_ | _) ⟨⟩) epistemicType).mpr (by rintro (_ | _) _ <;> rfl)
  have hq := (optionField_map_iff ofFloat asReal (by rintro q ⟨⟩) quality).mpr (fun _ _ => rfl)
  have hv := optionField_map_iff ValidityRecord.toValue ValidityRecord.fromValue (by rintro r ⟨⟩)
    validity
  have hn := optionField_map_iff ConsolidationMeta.toValue ConsolidationMeta.fromValue
    (by rintro c ⟨⟩) consolidation
  simp only [ValidityRecord.fromValue_toValue_iff,ConsolidationMeta.fromValue_toValue_iff] at hv hn
  rw [ContextMeta.Parsed,← hv,← hn]
  cases hi : optionField ValidityRecord.fromValue (validity.map ValidityRecord.toValue) <;>
    cases hj : optionField ConsolidationMeta.fromValue (consolidation.map ConsolidationMeta.toValue) <;>
    simp [fromValue,toValue,get?,List.lookup_cons,lookup_skipNone,hc,hs,ht,he,hq,hi,hj]

end UwuContextDb
