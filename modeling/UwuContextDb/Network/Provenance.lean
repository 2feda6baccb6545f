import UwuContextDb.Core.JsonText
import UwuContextDb.Marketplace.SecureAggregation
import UwuContextDb.Network.Privacy

/-! `verify_knowledge_provenance`, and what of a provenance its signature binds. -/

namespace UwuContextDb.Network

open KnowledgeNetworkError
open Marketplace (KnowledgeProvenancePayload KnowledgeProvenance AggregationLibraries evidenceChainHash)
open Text (jsonString jsonStrings delimits_jsonString delimits_jsonStrings)
open List (append_cancel_left count replicate)
open String (ofList toList_inj toList toList_ofList)

def epistemicName : EpistemicType → String
  | .fact => "Fact"
  | .belief => "Belief"
  | .hypothesis => "Hypothesis"
  | .heuristic => "Heuristic"
  | .procedure => "Procedure"

/-- What the verification takes from other libraries: the hashes; the texts of an `f32`, of which only finite ones have
a number, and of a time; `hex::decode`; and keys and signatures of `ed25519_dalek`. -/
structure SigningLibraries (K Key Signature : Type) where
  hashes : AggregationLibraries K
  isFinite : K → Bool
  numberText : K → String
  timeText : DateTime → String
  hexDecode : String → Except String (List UInt8)
  keyFromBytes : List UInt8 → Except String Key
  keyBytes : Key → List UInt8
  signatureFromBytes : List UInt8 → Except String Signature
  verify : Key → String → Signature → Bool

/-- The hash is free of collisions, a signature is one of one key for one message, and the texts of finite numbers and of
times can be read back. -/
structure SigningLibraries.Documented {K Key Signature : Type} (libraries : SigningLibraries K Key Signature) : Prop where
  collisionFree : Function.Injective libraries.hashes.blake3
  unforgeable : ∀ {key key' message message' signature}, libraries.verify key message signature = true →
    libraries.verify key' message' signature = true → key = key' ∧ message = message'
  number_inj : ∀ {x y}, libraries.isFinite x = true → libraries.isFinite y = true →
    libraries.numberText x = libraries.numberText y → x = y
  number_chars : ∀ {x}, libraries.isFinite x = true → ∀ c ∈ (libraries.numberText x).toList, c ∈ "0123456789+-.e".toList
  time_inj : Function.Injective libraries.timeText

section Verification

variable {K Key Signature : Type} (libraries lib : SigningLibraries K Key Signature)

def numberJson (x : K) : List Char := if libraries.isFinite x then (libraries.numberText x).toList else "null".toList

def jsonKey (name : String) : List Char := jsonString name ++ [':']

/-- `serde_json::to_vec` of a payload. -/
def payloadJson (payload : KnowledgeProvenancePayload K) : List Char :=
  '\x7b'::(jsonKey "publisher" ++ (jsonString payload.publisher ++
    ','::(jsonKey "content" ++ (jsonString payload.content ++
    ','::(jsonKey "evidence_uris" ++ (jsonStrings (payload.evidenceUris.map (·.canonical)) ++
    ','::(jsonKey "evidence_chain_hash" ++ (jsonString payload.evidenceChainHash ++
    ','::(jsonKey "quality_score" ++ (numberJson libraries payload.qualityScore ++
    ','::(jsonKey "confidence" ++ (numberJson libraries payload.confidence ++
    ','::(jsonKey "epistemic_type" ++ (jsonString (epistemicName payload.epistemicType) ++
    ','::(jsonKey "content_type" ++ (jsonString payload.contentType.asPathSegment ++
    ','::(jsonKey "created_at" ++ (jsonString (libraries.timeText payload.createdAt) ++ ['\x7d']))))))))))))))))))

def provenancePayloadHash (payload : KnowledgeProvenancePayload K) : String :=
  libraries.hashes.blake3 (String.ofList (payloadJson libraries payload))

def knowledgeSigningBytes (payload : KnowledgeProvenancePayload K) : String :=
  "knowledge-provenance-v1:" ++ provenancePayloadHash libraries payload

def verifyingKeyFromHex (publicKeyHex : String) : Except KnowledgeNetworkError Key :=
  match libraries.hexDecode publicKeyHex with
  | .error err => .error (policyDenied s!"invalid ed25519 public key: {err}")
  | .ok bytes =>
    if bytes.length ≠ 32 then .error (policyDenied "invalid ed25519 public key length")
    else
      match libraries.keyFromBytes bytes with
      | .error err => .error (policyDenied s!"invalid ed25519 public key: {err}")
      | .ok key => .ok key

/-- `verify_ed25519`. -/
def verifyEd25519 (key : Key) (message signature : String) : Except KnowledgeNetworkError Unit :=
  if "ed25519:".toList.isPrefixOf signature.toList then
    match libraries.hexDecode (String.ofList (signature.toList.drop "ed25519:".length)) with
    | .error err => .error (policyDenied s!"invalid ed25519 signature: {err}")
    | .ok bytes =>
      match libraries.signatureFromBytes bytes with
      | .error err => .error (policyDenied s!"invalid ed25519 signature: {err}")
      | .ok parsed =>
        if libraries.verify key message parsed then .ok () else .error (policyDenied "mesh payload signature mismatch")
  else .error (policyDenied "unsupported signature algorithm")

/-- `IdentityRegistry`, as far as verification reads it. -/
structure IdentityRegistry (Key : Type) where
  verifyingKeys : List (AgentId × Key)

def IdentityRegistry.verifyingKey (registry : IdentityRegistry Key) (signer : AgentId) (providedPublicKey : String) :
    Except KnowledgeNetworkError Key := do
  let provided ← verifyingKeyFromHex libraries providedPublicKey
  match registry.verifyingKeys.lookup signer with
  | none => .error (policyDenied s!"unknown mesh identity; explicit registration required: {signer}")
  | some registered =>
    if libraries.keyBytes registered ≠ libraries.keyBytes provided then
      .error (policyDenied s!"public key mismatch for mesh identity: {signer}")
    else .ok registered

def IdentityRegistry.verifyKnowledgeProvenance (registry : IdentityRegistry Key) (payload : KnowledgeProvenancePayload K)
    (provenance : KnowledgeProvenance) : Except KnowledgeNetworkError Unit :=
  if provenance.publisher ≠ payload.publisher then .error (policyDenied "knowledge provenance publisher mismatch")
  else if provenance.evidenceChainHash ≠ payload.evidenceChainHash then
    .error (policyDenied "knowledge provenance evidence chain mismatch")
  else do
    let key ← registry.verifyingKey libraries payload.publisher provenance.publicKey
    verifyEd25519 libraries key (knowledgeSigningBytes libraries payload) provenance.signature

def evidenceText (uris : List ContextUri) : String :=
  "\n".intercalate ((uris.map (·.canonical)).insertionSort (· ≤ ·))

def evidenceCuts (uris : List ContextUri) : List ℕ :=
  ((uris.map (·.canonical)).insertionSort (· ≤ ·)).map (fun text => text.toList.count '\n')

variable {libraries lib} {registry : IdentityRegistry Key} {payload payload' : KnowledgeProvenancePayload K}
  {provenance provenance' : KnowledgeProvenance}

theorem verified_of_ok (h : registry.verifyKnowledgeProvenance lib payload provenance = .ok ()) :
    provenance.publisher = payload.publisher ∧ provenance.evidenceChainHash = payload.evidenceChainHash ∧
    ∃ key bytes signature, lib.hexDecode (ofList (provenance.signature.toList.drop "ed25519:".length)) =
        .ok bytes ∧ lib.signatureFromBytes bytes = .ok signature ∧
      lib.verify key (knowledgeSigningBytes lib payload) signature = true := by
  unfold IdentityRegistry.verifyKnowledgeProvenance at h
  split_ifs at h with hp he
  refine ⟨not_not.mp hp,not_not.mp he,?_⟩
  obtain ⟨key,-,hk⟩ := StateMachine.bind_eq_ok.mp h
  unfold verifyEd25519 at hk
  split_ifs at hk
  split at hk
  · cases hk
  · rename_i bytes hb
    split at hk
    · cases hk
    · rename_i signature hs
      split_ifs at hk with hv
      exact ⟨key,bytes,signature,hb,hs,hv⟩

theorem payloadJson_eq (hl : lib.Documented)
    (h : registry.verifyKnowledgeProvenance lib payload provenance = .ok ())
    (h' : registry.verifyKnowledgeProvenance lib payload' provenance' = .ok ())
    (hs : provenance.signature = provenance'.signature) :
    payloadJson lib payload = payloadJson lib payload' := by
  obtain ⟨-,-,key,bytes,signature,hb,hp,hv⟩ := verified_of_ok h
  obtain ⟨-,-,key',bytes',signature',hb',hp',hv'⟩ := verified_of_ok h'
  rw [hs,hb'] at hb
  obtain rfl := Except.ok.inj hb
  rw [hp'] at hp
  obtain rfl := Except.ok.inj hp
  obtain ⟨-,hm⟩ := hl.unforgeable hv hv'
  have hh : provenancePayloadHash lib payload = provenancePayloadHash lib payload' := by
    unfold knowledgeSigningBytes at hm
    generalize "knowledge-provenance-v1:" = version at hm
    exact toList_inj.mp (by simpa using congrArg toList hm)
  unfold provenancePayloadHash at hh
  exact String.ofList_injective (hl.collisionFree hh)

theorem comma_notMem_numberJson (hl : lib.Documented) (x : K) : ',' ∉ numberJson lib x := by
  unfold numberJson
  split_ifs with hf
  · exact fun hm => absurd (hl.number_chars hf _ hm) (by decide)
  · decide

theorem numberJson_eq_iff (hl : lib.Documented) {x y : K} :
    numberJson lib x = numberJson lib y ↔ x = y ∨ lib.isFinite x = false ∧ lib.isFinite y = false := by
  have hn : ∀ {z : K}, lib.isFinite z = true → (lib.numberText z).toList ≠ "null".toList := by
    intro z hz he
    exact absurd (hl.number_chars hz 'n' (by rw [he]; decide)) (by decide)
  unfold numberJson
  constructor
  · intro h
    split_ifs at h with hx hy hy
    · exact .inl (hl.number_inj hx hy (toList_inj.mp h))
    · exact absurd h (hn hx)
    · exact absurd h.symm (hn hy)
    · exact .inr ⟨by simpa using hx,by simpa using hy⟩
  · rintro (rfl | ⟨hx,hy⟩)
    · rfl
    · simp [hx,hy]

theorem epistemicName_injective : Function.Injective epistemicName := by
  intro a b h
  cases a <;> cases b <;> first | rfl | exact absurd h (by decide)

theorem asPathSegment_injective : Function.Injective ContentType.asPathSegment := by
  intro a b h
  cases a <;> cases b <;> first | rfl | exact absurd h (by decide)

theorem payloadJson_fields (hl : lib.Documented)
    (h : payloadJson lib payload = payloadJson lib payload') :
    payload.publisher = payload'.publisher ∧ payload.content = payload'.content ∧
    payload.evidenceUris.map (·.canonical) = payload'.evidenceUris.map (·.canonical) ∧
    payload.evidenceChainHash = payload'.evidenceChainHash ∧
    numberJson lib payload.qualityScore = numberJson lib payload'.qualityScore ∧
    numberJson lib payload.confidence = numberJson lib payload'.confidence ∧
    payload.epistemicType = payload'.epistemicType ∧ payload.contentType = payload'.contentType ∧
    payload.createdAt = payload'.createdAt := by
  unfold payloadJson at h
  obtain ⟨hp,h⟩ := delimits_jsonString (append_cancel_left (List.cons.inj h).2)
  obtain ⟨hc,h⟩ := delimits_jsonString (append_cancel_left (List.cons.inj h).2)
  obtain ⟨hu,h⟩ := delimits_jsonStrings (append_cancel_left (List.cons.inj h).2)
  obtain ⟨hh,h⟩ := delimits_jsonString (append_cancel_left (List.cons.inj h).2)
  obtain ⟨hq,h⟩ := Words.append_cons_inj_left (comma_notMem_numberJson hl _)
    (comma_notMem_numberJson hl _) (append_cancel_left (List.cons.inj h).2)
  obtain ⟨hn,h⟩ := Words.append_cons_inj_left (comma_notMem_numberJson hl _)
    (comma_notMem_numberJson hl _) (append_cancel_left h)
  obtain ⟨he,h⟩ := delimits_jsonString (append_cancel_left h)
  obtain ⟨ho,h⟩ := delimits_jsonString (append_cancel_left (List.cons.inj h).2)
  obtain ⟨hr,-⟩ := delimits_jsonString (append_cancel_left (List.cons.inj h).2)
  exact ⟨hp,hc,hu,hh,hq,hn,epistemicName_injective he,asPathSegment_injective ho,hl.time_inj hr⟩

variable {uris uris' : List ContextUri}

theorem eq_of_texts (ht : uris.map (·.canonical) = uris'.map (·.canonical))
    (hs : List.Forall₂ (fun u u' => u.canonical = u'.canonical → u = u') uris uris') : uris = uris' := by
  induction hs with
  | nil => rfl
  | cons hu _ ih =>
    rw [List.map_cons,List.map_cons] at ht
    obtain ⟨hx,hr⟩ := List.cons.inj ht
    rw [hu hx,ih hr]

/-- Of two accepted provenances with one signature, all fields agree exactly if those do that no signature binds. -/
theorem agree_iff (hl : lib.Documented)
    (h : registry.verifyKnowledgeProvenance lib payload provenance = .ok ())
    (h' : registry.verifyKnowledgeProvenance lib payload' provenance' = .ok ())
    (hi : provenance.signature = provenance'.signature) :
    payload = payload' ∧ provenance = provenance' ↔
      provenance.signedAt = provenance'.signedAt ∧ provenance.publicKey = provenance'.publicKey ∧
      (lib.isFinite payload.qualityScore = true ∨ payload.qualityScore = payload'.qualityScore) ∧
      (lib.isFinite payload.confidence = true ∨ payload.confidence = payload'.confidence) ∧
      List.Forall₂ (fun u u' => u.canonical = u'.canonical → u = u')
        payload.evidenceUris payload'.evidenceUris := by
  constructor
  · rintro ⟨rfl,rfl⟩
    exact ⟨rfl,rfl, .inr rfl, .inr rfl,List.forall₂_same.mpr (fun _ _ _ => rfl)⟩
  · rintro ⟨hg,hk,hq,hc,hu⟩
    obtain ⟨hp,hco,ht,ha,hq',hc',hep,hn,hr⟩ := payloadJson_fields hl (payloadJson_eq hl h h' hi)
    have hs : ∀ {x y : K}, lib.isFinite x = true ∨ x = y → numberJson lib x = numberJson lib y → x = y := by
      rintro x y (hf | rfl) he
      · rcases (numberJson_eq_iff hl).mp he with hy | ⟨hx,-⟩
        · exact hy
        · rw [hf] at hx
          cases hx
      · rfl
    obtain ⟨ho,hh,-⟩ := verified_of_ok h
    obtain ⟨ho',hh',-⟩ := verified_of_ok h'
    have hb : provenance.publisher = provenance'.publisher := ho.trans (hp.trans ho'.symm)
    have hch : provenance.evidenceChainHash = provenance'.evidenceChainHash := hh.trans (ha.trans hh'.symm)
    have hql := hs hq hq'
    have hcn := hs hc hc'
    have hli := eq_of_texts ht hu
    constructor
    · cases payload
      cases payload'
      simp_all
    · cases provenance
      cases provenance'
      simp_all

theorem evidenceChainHash_eq (uris : List ContextUri) :
    evidenceChainHash lib.hashes uris = lib.hashes.blake3 (evidenceText uris) := rfl

theorem sorted_perm_iff :
    (uris.map (·.canonical)).insertionSort (· ≤ ·) = (uris'.map (·.canonical)).insertionSort (· ≤ ·) ↔
      (uris.map (·.canonical)).Perm (uris'.map (·.canonical)) := by
  constructor
  · intro h
    exact ((List.perm_insertionSort _ _).symm.trans (.of_eq h)).trans (List.perm_insertionSort _ _)
  · intro h
    exact ((List.perm_insertionSort _ _).trans (h.trans (List.perm_insertionSort _ _).symm)).eq_of_pairwise'
      (List.pairwise_insertionSort _ _) (List.pairwise_insertionSort _ _)

theorem sorted_of_cuts (ht : evidenceText uris = evidenceText uris')
    (hc : evidenceCuts uris = evidenceCuts uris') :
    (uris.map (·.canonical)).insertionSort (· ≤ ·) = (uris'.map (·.canonical)).insertionSort (· ≤ ·) := by
  unfold evidenceText at ht
  unfold evidenceCuts at hc
  generalize (uris.map (·.canonical)).insertionSort (· ≤ ·) = texts at ht hc ⊢
  generalize (uris'.map (·.canonical)).insertionSort (· ≤ ·) = texts' at ht hc ⊢
  have hj := congrArg toList ht
  rw [String.toList_intercalate,String.toList_intercalate] at hj
  have ho : (texts.map toList).map (count '\n') = (texts'.map toList).map (count '\n') := by
    rw [List.map_map,List.map_map]
    exact hc
  exact List.map_injective_iff.mpr (fun _ _ ht => toList_inj.mp ht) (Words.intercalate_inj_of_counts hj ho)

/-- The hash tells the multiset of the URIs exactly if their joined texts are not one text with different cuts, and
lists with the same texts are the same. -/
theorem evidenceChainHash_iff (hl : lib.Documented) (uris uris' : List ContextUri) :
    (evidenceChainHash lib.hashes uris = evidenceChainHash lib.hashes uris' ↔ uris.Perm uris') ↔
      (evidenceText uris = evidenceText uris' → evidenceCuts uris = evidenceCuts uris') ∧
      ((uris.map (·.canonical)).Perm (uris'.map (·.canonical)) → uris.Perm uris') := by
  rw [evidenceChainHash_eq,evidenceChainHash_eq,hl.collisionFree.eq_iff]
  have ht : (uris.map (·.canonical)).Perm (uris'.map (·.canonical)) → evidenceText uris = evidenceText uris' := by
    intro hp
    rw [evidenceText,evidenceText,sorted_perm_iff.mpr hp]
  constructor
  · intro hi
    refine ⟨fun he => ?_,fun hp => hi.mp (ht hp)⟩
    rw [evidenceCuts,evidenceCuts,sorted_perm_iff.mpr ((hi.mp he).map _)]
  · rintro ⟨hc,hp⟩
    exact ⟨fun he => hp (sorted_perm_iff.mp (sorted_of_cuts he (hc he))),fun h => ht (h.map _)⟩

/-- What a signature binds, and what the hash of the evidence tells. -/
theorem provenance_binds_iff (hlibraries : libraries.Documented) :
    (∀ payload payload' provenance provenance',
      registry.verifyKnowledgeProvenance libraries payload provenance = .ok () →
      registry.verifyKnowledgeProvenance libraries payload' provenance' = .ok () →
      provenance.signature = provenance'.signature →
      (payload = payload' ∧ provenance = provenance' ↔
        provenance.signedAt = provenance'.signedAt ∧ provenance.publicKey = provenance'.publicKey ∧
        (libraries.isFinite payload.qualityScore = true ∨ payload.qualityScore = payload'.qualityScore) ∧
        (libraries.isFinite payload.confidence = true ∨ payload.confidence = payload'.confidence) ∧
        List.Forall₂ (fun uri uri' => uri.canonical = uri'.canonical → uri = uri')
          payload.evidenceUris payload'.evidenceUris)) ∧
    ∀ uris uris', (evidenceChainHash libraries.hashes uris = evidenceChainHash libraries.hashes uris' ↔
        uris.Perm uris') ↔
      (evidenceText uris = evidenceText uris' → evidenceCuts uris = evidenceCuts uris') ∧
      ((uris.map (·.canonical)).Perm (uris'.map (·.canonical)) → uris.Perm uris') :=
  ⟨fun _ _ _ _ h h' hs => agree_iff hlibraries h h' hs, evidenceChainHash_iff hlibraries⟩

end Verification

def hexDigitValue (c : Char) : Except String ℕ :=
  if '0' ≤ c ∧ c ≤ '9' then .ok (c.toNat - 48)
  else if 'a' ≤ c ∧ c ≤ 'f' then .ok (c.toNat - 87)
  else if 'A' ≤ c ∧ c ≤ 'F' then .ok (c.toNat - 55)
  else .error "Invalid character"

def decodeHex : List Char → Except String (List UInt8)
  | [] => .ok []
  | [_] => .error "Odd number of digits"
  | high::low::rest => do
    let high ← hexDigitValue high
    let low ← hexDigitValue low
    return UInt8.ofNat (high * 16 + low)::(← decodeHex rest)

def sampleTexts : SigningLibraries Bool (List UInt8) (List UInt8) where
  hashes := ⟨id, fun _ => 0, fun _ => .ok "", fun _ => "", id, fun _ => "", fun _ => ""⟩
  isFinite _ := true
  numberText x := if x then "1.0" else "0.0"
  timeText t := "1970-01-01T00:00:00Z" ++ String.ofList (List.replicate t.toNat '+' ++ List.replicate (-t).toNat '-')
  hexDecode text := decodeHex text.toList
  keyFromBytes := .ok
  keyBytes := id
  signatureFromBytes := .ok
  verify _ _ _ := false

def samplePayload : KnowledgeProvenancePayload Bool :=
  ⟨"publisher", "content", [], "evidence", true, false, .fact, .fact, 0⟩

def sampleLibraries : SigningLibraries Bool (List UInt8) (List UInt8) :=
  { sampleTexts with
    verify := fun key message _ =>
      decide (key = List.replicate 32 0 ∧ message = knowledgeSigningBytes sampleTexts samplePayload) }

def sampleRegistry : IdentityRegistry (List UInt8) := ⟨[("publisher", List.replicate 32 0)]⟩

def sampleProvenance : KnowledgeProvenance :=
  ⟨"publisher", String.ofList (List.replicate (2 * 32) '0'),
    String.ofList ("ed25519:".toList ++ List.replicate (2 * 64) '0'), "evidence", 0⟩

theorem sample_verify_iff {key : List UInt8} {message : String} {signature : List UInt8} :
    sampleLibraries.verify key message signature = true ↔
      key = replicate 32 0 ∧ message = knowledgeSigningBytes sampleTexts samplePayload :=
  decide_eq_true_iff

theorem sampleLibraries_documented : sampleLibraries.Documented where
  collisionFree := Function.injective_id
  unforgeable h h' := by
    obtain ⟨hk,hm⟩ := sample_verify_iff.mp h
    obtain ⟨hk',hm'⟩ := sample_verify_iff.mp h'
    exact ⟨hk.trans hk'.symm,hm.trans hm'.symm⟩
  number_inj {x y} _ _ := by cases x <;> cases y <;> simp [sampleLibraries,sampleTexts]
  number_chars {x} _ c hc := by
    have hd : (sampleLibraries.numberText x).toList ⊆ "0123456789+-.e".toList := by cases x <;> decide
    exact hd hc
  time_inj (a : ℤ) (b : ℤ) h := by
    have ht := congrArg toList h
    simp only [sampleLibraries,sampleTexts,String.toList_append,toList_ofList] at ht
    have hr := append_cancel_left ht
    have hp := congrArg (count '+') hr
    have hi := congrArg (count '-') hr
    simp only [List.count_append,List.count_replicate] at hp hi
    have hs : a.toNat = b.toNat ∧ (-a).toNat = (-b).toNat := by simpa using And.intro hp hi
    rw [← Int.toNat_sub_toNat_neg a,← Int.toNat_sub_toNat_neg b,hs.1,hs.2]

theorem decodeHex_zeros (n : ℕ) : decodeHex (replicate (2*n) '0') = .ok (replicate n 0) := by
  induction n with
  | zero => rfl
  | succ n ih =>
    rw [Nat.mul_succ,List.replicate_succ,List.replicate_succ,decodeHex,ih]
    rfl

theorem verifyEd25519_eq_ok {K Key Signature : Type} {libraries : SigningLibraries K Key Signature} {key : Key}
    {message : String} {digits : List Char} {bytes : List UInt8} {signature : Signature}
    (hd : libraries.hexDecode (ofList digits) = .ok bytes)
    (hp : libraries.signatureFromBytes bytes = .ok signature)
    (hv : libraries.verify key message signature = true) :
    verifyEd25519 libraries key message (ofList ("ed25519:".toList++digits)) = .ok () := by
  unfold verifyEd25519
  generalize "ed25519:" = scheme
  have hs : scheme.toList.isPrefixOf (ofList (scheme.toList++digits)).toList = true := by
    rw [List.isPrefixOf_iff_prefix,toList_ofList]
    exact List.prefix_append _ _
  have hr : (ofList (scheme.toList++digits)).toList.drop scheme.length = digits := by
    rw [toList_ofList,← String.length_toList,List.drop_left]
  rw [if_pos hs,hr,hd]
  dsimp only
  rw [hp]
  exact if_pos hv

theorem knowledgeSigningBytes_verify {K Key Signature : Type} (libraries : SigningLibraries K Key Signature)
    (verify : Key → String → Signature → Bool) (payload : KnowledgeProvenancePayload K) :
    knowledgeSigningBytes { libraries with verify := verify } payload = knowledgeSigningBytes libraries payload := rfl

theorem sample_accepted (signedAt : DateTime) : sampleRegistry.verifyKnowledgeProvenance sampleLibraries samplePayload
    { sampleProvenance with signedAt := signedAt } = .ok () := by
  have hd : ∀ n, sampleLibraries.hexDecode (ofList (replicate (2*n) '0')) = .ok (replicate n 0) := by
    intro n
    show decodeHex (ofList (replicate (2*n) '0')).toList = _
    rw [toList_ofList,decodeHex_zeros]
  have hk : sampleRegistry.verifyingKey sampleLibraries "publisher" sampleProvenance.publicKey =
      .ok (replicate 32 0) := by
    rw [IdentityRegistry.verifyingKey,verifyingKeyFromHex,sampleProvenance,hd 32]
    rfl
  have hs : verifyEd25519 sampleLibraries (replicate 32 0)
      (knowledgeSigningBytes sampleLibraries samplePayload) sampleProvenance.signature = .ok () := by
    have hm : knowledgeSigningBytes sampleLibraries samplePayload =
        knowledgeSigningBytes sampleTexts samplePayload := knowledgeSigningBytes_verify sampleTexts _ _
    exact verifyEd25519_eq_ok (hd 64) rfl (sample_verify_iff.mpr ⟨rfl,hm⟩)
  rw [IdentityRegistry.verifyKnowledgeProvenance,if_neg (fun h => h rfl),if_neg (fun h => h rfl)]
  exact StateMachine.bind_eq_ok.mpr ⟨_,hk,hs⟩

def sampleUri : ContextUri := ⟨"a", ["a", "b"], none, "uwu://a/b"⟩

def otherUri : ContextUri := ⟨"c", ["c", "d"], none, "uwu://c/d"⟩

def joinedUri : ContextUri := ⟨"a", ["a", "b\nuwu:", "c", "d"], none, "uwu://a/b\nuwu://c/d"⟩

theorem evidenceText_pair : evidenceText [sampleUri,otherUri] = evidenceText [joinedUri] := by
  have hs : ([sampleUri,otherUri].map (·.canonical)).insertionSort (· ≤ ·) = ["uwu://a/b", "uwu://c/d"] :=
    List.Pairwise.insertionSort_eq (by decide)
  rw [evidenceText,hs]
  decide

theorem provenance_binds_sample :
    (samplePayload = samplePayload ∧ sampleProvenance = sampleProvenance) ∧
    (evidenceChainHash sampleLibraries.hashes [sampleUri, otherUri] =
        evidenceChainHash sampleLibraries.hashes [otherUri, sampleUri] ↔
      [sampleUri, otherUri].Perm [otherUri, sampleUri]) :=
  have hb := @provenance_binds_iff _ _ _ sampleLibraries sampleRegistry sampleLibraries_documented
  ⟨(hb.1 samplePayload samplePayload sampleProvenance sampleProvenance (sample_accepted 0) (sample_accepted 0)
      rfl).mpr ⟨rfl, rfl, .inl rfl, .inl rfl, .nil⟩,
    (hb.2 _ _).mpr ⟨fun _ => by decide, fun _ => .swap ..⟩⟩

/-- Neither the time of signing nor the ends of the URIs are bound. -/
theorem signedAt_unbound :
    let later := { sampleProvenance with signedAt := 1 };
    sampleLibraries.Documented ∧
    (sampleRegistry.verifyKnowledgeProvenance sampleLibraries samplePayload sampleProvenance = .ok () ∧
      sampleRegistry.verifyKnowledgeProvenance sampleLibraries samplePayload later = .ok () ∧
      sampleProvenance.signature = later.signature ∧ sampleProvenance ≠ later) ∧
    ContextUri.parse "uwu://a/b" = .ok sampleUri ∧ ContextUri.parse "uwu://c/d" = .ok otherUri ∧
    ContextUri.parse "uwu://a/b\nuwu://c/d" = .ok joinedUri ∧
    evidenceChainHash sampleLibraries.hashes [sampleUri, otherUri] =
      evidenceChainHash sampleLibraries.hashes [joinedUri] ∧
    ¬[sampleUri, otherUri].Perm [joinedUri] := by
  refine ⟨sampleLibraries_documented, ⟨sample_accepted 0, sample_accepted 1, rfl, ?_⟩, by decide, by decide, by decide,
    evidenceText_pair, ?_⟩
  · intro h
    exact absurd (congrArg KnowledgeProvenance.signedAt h) (by decide)
  · intro h
    exact absurd h.length_eq (by decide)

end UwuContextDb.Network
