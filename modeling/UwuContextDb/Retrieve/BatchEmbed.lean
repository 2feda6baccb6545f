import UwuContextDb.Core.CachingLlm
import UwuContextDb.Core.Model
import UwuContextDb.Core.Text

/-! The batched embeddings of `ParallelGenerator`, by content hash within one embedding space. -/

namespace UwuContextDb

def EmbeddingSpaceId.validate (space : EmbeddingSpaceId) : Except ContextError Unit :=
  if Text.isBlank space.model || Text.isBlank space.checkpoint || Text.isBlank space.preprocess || space.dim = 0 then
    .error (.unsupported "invalid embedding space identity")
  else .ok ()

namespace Retrieve

open UwuContextDb.Core Gather StateMachine

/-- What is asked of the floating-point numbers: the norm is the root of the sum of the squares, and it is off if it is
not finite or more than `1e-3` from one. -/
structure Floats (F : Type) where
  isFinite : F → Bool
  norm : List F → F
  normOff : F → Bool
  display : F → String

structure EncodedEmbedding (F : Type) where
  space : EmbeddingSpaceId
  values : List F

def EncodedEmbedding.new {F : Type} (floats : Floats F) (space : EmbeddingSpaceId) (values : List F) :
    Except ContextError (EncodedEmbedding F) := do
  space.validate
  if values.length ≠ space.dim || values.any (fun v => !floats.isFinite v) then
    .error (.unsupported
      ("invalid embedding: expected " ++ toString space.dim ++ " finite values, got " ++ toString values.length))
  else if space.normalization = .l2 && floats.normOff (floats.norm values) then
    .error (.unsupported ("embedding is not L2 normalized (norm=" ++ floats.display (floats.norm values) ++ ")"))
  else .ok ⟨space, values⟩

theorem EncodedEmbedding.values_of_new {F : Type} {floats : Floats F} {space : EmbeddingSpaceId} {values : List F}
    {emb : EncodedEmbedding F} (h : EncodedEmbedding.new floats space values = .ok emb) :
    emb = ⟨space,values⟩ := by
  obtain ⟨-,-,h⟩ := bind_eq_ok.mp h
  split at h
  · cases h
  · split at h
    · cases h
    · exact (Except.ok.inj h).symm

/-- `to_le_bytes` of a `u64`. -/
def leBytes (n : ℕ) : List UInt8 := (List.range 8).map (fun i => UInt8.ofNat (n / 256 ^ i))

def hashInput (fields : List (List UInt8)) : List UInt8 := (fields.map (fun field => leBytes field.length ++ field)).flatten

def embeddingContentHash (blake3 : List UInt8 → String) (space : EmbeddingSpaceId) (content : List UInt8) : String :=
  let normalization := match space.normalization with
    | .none => "none"
    | .l2 => "l2"
  blake3 (hashInput [asBytes space.model, asBytes space.checkpoint, asBytes space.preprocess, leBytes space.dim,
    asBytes normalization, content])

theorem embeddingContentHash_injective {blake3 : List UInt8 → String} (h : Function.Injective blake3)
    (space : EmbeddingSpaceId) : Function.Injective (embeddingContentHash blake3 space) := by
  intro content content' hs
  have hi := h hs
  simp only [hashInput,List.map_cons,List.map_nil,List.flatten_cons,List.flatten_nil,List.append_nil,
    List.append_cancel_left_eq] at hi
  exact (List.append_inj hi (by simp [leBytes])).2

/-- The `EmbeddingCache` port; the time to live is in seconds. -/
structure EmbeddingCache (F C : Type) where
  get : C → EmbeddingSpaceId → List UInt8 → Option (EncodedEmbedding F)
  put : C → List UInt8 → EncodedEmbedding F → ℕ → C

structure EmbeddingCacheEntry (F : Type) where
  embedding : EncodedEmbedding F
  ttl : ℕ

/-- `MemoryEmbeddingCache`: what is found in another space is not given. -/
def memoryEmbeddingCache {F M : Type} (blake3 : List UInt8 → String) (defaultTtl : ℕ)
    (entries : Cache M (EmbeddingCacheEntry F)) : EmbeddingCache F M where
  get cache space content := ((entries.get cache (embeddingContentHash blake3 space content)).map
    EmbeddingCacheEntry.embedding).filter (fun embedding => embedding.space = space)
  put cache content embedding ttl := entries.insert cache (embeddingContentHash blake3 embedding.space content)
    ⟨embedding, if ttl = 0 then defaultTtl else ttl⟩

section Generator

inductive EmbedError
  | context (err : ContextError)
  | llm (err : LlmError)

structure ParallelGenerator (F C : Type) where
  llm : LlmClient F
  embeddingSpace : EmbeddingSpaceId
  embedCache : EmbeddingCache F C
  embedCacheTtl : ℕ

variable {F C : Type} (blake3 : List UInt8 → String) (floats : Floats F) (generator : ParallelGenerator F C)

namespace ParallelGenerator

def cached (cache : C) (text : String) : Option (List F) :=
  (generator.embedCache.get cache generator.embeddingSpace (asBytes text)).map EncodedEmbedding.values

/-- The loaded vectors are checked and cached place by place, up to the first that does not belong to the space. -/
def store (loaded : List (EmbeddingVector F)) (missing : List String) :
    List (ℕ × String × ℕ) → C → Except ContextError Unit × C
  | [], cache => (.ok (), cache)
  | row::order, cache =>
    match loaded[row.2.2]?, missing[row.2.2]? with
    | some embedding, some text =>
      match EncodedEmbedding.new floats generator.embeddingSpace embedding.vector with
      | .error err => (.error err, cache)
      | .ok encoded =>
        store loaded missing order (generator.embedCache.put cache (asBytes text) encoded generator.embedCacheTtl)
    | _, _ => store loaded missing order cache

def batchEmbed (texts : List String) (cache : C) : BatchOutcome EmbedError (List F) C :=
  let s := split (fun text => embeddingContentHash blake3 generator.embeddingSpace (asBytes text))
    (generator.cached cache) texts
  let missingResult := EmbedError.context (.storage "missing embedding result")
  if s.missing.isEmpty then ⟨collect missingResult s.results, cache, []⟩
  else
    match generator.llm.embedBatch s.missing with
    | .error err => ⟨.error (.llm err), cache, [s.missing]⟩
    | .ok loaded =>
      if loaded.length ≠ s.missing.length then
        ⟨.error (.context (.storage (countMismatch loaded.length s.missing.length))), cache, [s.missing]⟩
      else
        let stored := generator.store floats loaded s.missing s.order cache
        match stored.1 with
        | .error err => ⟨.error (.context err), stored.2, [s.missing]⟩
        | .ok () => ⟨collect missingResult (fill (loaded.map EmbeddingVector.vector) s.order s.results), stored.2, [s.missing]⟩

def checked (embedding : EmbeddingVector F) : Except EmbedError (List F) :=
  ((EncodedEmbedding.new floats generator.embeddingSpace embedding.vector).mapError EmbedError.context).map
    EncodedEmbedding.values

def embedAlone (text : String) : Except EmbedError (List F) :=
  (generator.llm.embed text).mapError EmbedError.llm >>= generator.checked floats

variable {blake3 floats generator}

theorem checked_eq_ok_iff {emb : EmbeddingVector F} {vector : List F} :
    generator.checked floats emb = .ok vector ↔ vector = emb.vector ∧
      ∃ encoded, EncodedEmbedding.new floats generator.embeddingSpace emb.vector = .ok encoded := by
  unfold checked
  cases hn : EncodedEmbedding.new floats generator.embeddingSpace emb.vector with
  | error err => simp [Except.mapError,Except.map]
  | ok encoded => simp [Except.mapError,Except.map,EncodedEmbedding.values_of_new hn,eq_comm]

theorem mapM_checked {loaded : List (EmbeddingVector F)} {vectors : List (List F)} :
    loaded.mapM (generator.checked floats) = .ok vectors ↔ vectors = loaded.map EmbeddingVector.vector ∧
      ∀ emb ∈ loaded, ∃ encoded,
      EncodedEmbedding.new floats generator.embeddingSpace emb.vector = .ok encoded := by
  constructor
  · intro h
    have ha := mapM_eq_ok h
    clear h
    induction ha with
    | nil => simp
    | cons hb _ ih =>
      obtain ⟨rfl,hn⟩ := checked_eq_ok_iff.mp hb
      exact ⟨by rw [ih.1,List.map_cons],List.forall_mem_cons.mpr ⟨hn,ih.2⟩⟩
  · intro h
    rw [mapM_eq_ok_iff,h.1,List.map_map]
    apply List.map_congr_left
    intro emb hi
    exact toOption_eq_some.mpr (checked_eq_ok_iff.mpr ⟨rfl,h.2 emb hi⟩)

theorem store_eq_ok_iff {loaded : List (EmbeddingVector F)} {missing : List String}
    (hl : loaded.length = missing.length) (ord : List (ℕ × String × ℕ)) (cache : C) :
    (generator.store floats loaded missing ord cache).1 = .ok () ↔ ∀ row ∈ ord, ∀ emb,
      loaded[row.2.2]? = some emb →
        ∃ encoded, EncodedEmbedding.new floats generator.embeddingSpace emb.vector = .ok encoded := by
  induction ord generalizing cache with
  | nil => simp [store]
  | cons row ord ih =>
    rw [store,List.forall_mem_cons]
    cases ha : loaded[row.2.2]? with
    | none => simp [ih]
    | some emb =>
      have hb := (List.getElem?_eq_some_iff.mp ha).1
      rw [List.getElem?_eq_getElem (hl ▸ hb)]
      cases hn : EncodedEmbedding.new floats generator.embeddingSpace emb.vector with
      | error err => simp [hn]
      | ok encoded => simp [hn,ih]

theorem store_split_iff {texts : List String} {key : String → String} {cached : String → Option (List F)} (cache : C)
    {loaded : List (EmbeddingVector F)} (hl : loaded.length = (split key cached texts).missing.length) :
    (generator.store floats loaded (split key cached texts).missing (split key cached texts).order cache).1 = .ok () ↔
      ∀ emb ∈ loaded, ∃ encoded,
      EncodedEmbedding.new floats generator.embeddingSpace emb.vector = .ok encoded := by
  rw [store_eq_ok_iff hl]
  constructor
  · intro h emb hn
    obtain ⟨i,hi⟩ := List.mem_iff_getElem?.mp hn
    have hb := (List.getElem?_eq_some_iff.mp hi).1
    obtain ⟨row,hr,ha⟩ := (visited_split key cached texts).asked i (hl ▸ hb)
    exact h row hr emb (ha ▸ hi)
  · intro h row _ emb ht
    exact h emb (List.mem_of_getElem? ht)

theorem batchEmbed_eq_ok_iff (hk : Function.Injective blake3)
    (hp : ∀ texts, generator.llm.embedBatch texts = texts.mapM generator.llm.embed) (texts : List String) (cache : C)
    (vectors : List (List F)) :
    (generator.batchEmbed blake3 floats texts cache).result = .ok vectors ↔
      texts.mapM (resolve (generator.cached cache) (generator.embedAlone floats)) = .ok vectors := by
  have hj : Function.Injective
      (fun text => embeddingContentHash blake3 generator.embeddingSpace (asBytes text)) := by
    intro s t h
    exact asBytes_injective (embeddingContentHash_injective hk generator.embeddingSpace h)
  have ht := @store_split_iff F C floats generator texts
    (fun text => embeddingContentHash blake3 generator.embeddingSpace (asBytes text)) (generator.cached cache) cache
  have hn := (visited_split (fun text => embeddingContentHash blake3 generator.embeddingSpace (asBytes text))
    (generator.cached cache) texts).order_eq_nil
  rw [← fill_eq_iff hj,batchEmbed]
  generalize split (fun text => embeddingContentHash blake3 generator.embeddingSpace (asBytes text))
    (generator.cached cache) texts = s at ht hn
  have hd : ∀ found, s.missing.mapM (generator.embedAlone floats) = .ok found ↔
      ∃ loaded, s.missing.mapM generator.llm.embed = .ok loaded ∧ loaded.mapM (generator.checked floats) = .ok found := by
    intro found
    have hs : ∀ loaded, s.missing.mapM (fun text => (generator.llm.embed text).mapError EmbedError.llm) = .ok loaded ↔
        s.missing.mapM generator.llm.embed = .ok loaded := by
      intro loaded
      simp only [mapM_eq_ok_iff,toOption_mapError]
    simp only [← hs]
    exact mapM_bind_eq_ok
  simp only [hd,mapM_checked]
  cases hm : s.missing with
  | nil =>
    have ho := hn hm
    simp [collect_eq_ok_iff,ho,fill,pure,Except.pure]
  | cons text missing =>
    rw [← hm]
    have he : s.missing.isEmpty = false := by simp [hm]
    simp only [he,Bool.false_eq_true,if_false,hp]
    cases ha : s.missing.mapM generator.llm.embed with
    | error err => simp
    | ok loaded =>
      have hl : loaded.length = s.missing.length := (mapM_eq_ok ha).length_eq.symm
      have hi := ht hl
      simp only [hl,ne_eq,not_true,if_false]
      cases hr : (generator.store floats loaded s.missing s.order cache).1 with
      | error err =>
        rw [hr] at hi
        simp [← hi]
      | ok done =>
        have hv := hi.mp hr
        rw [collect_eq_ok_iff]
        constructor
        · intro h
          exact ⟨_,⟨loaded,rfl,rfl,hv⟩,h⟩
        · intro h
          obtain ⟨found,⟨loaded',hs,rfl,-⟩,h⟩ := h
          cases hs
          exact h

theorem sent_batchEmbed (texts : List String) (cache : C) : (generator.batchEmbed blake3 floats texts cache).sent =
    asked (split (fun text => embeddingContentHash blake3 generator.embeddingSpace (asBytes text))
      (generator.cached cache) texts).missing := by
  rw [batchEmbed]
  generalize split (fun text => embeddingContentHash blake3 generator.embeddingSpace (asBytes text))
    (generator.cached cache) texts = s
  by_cases he : s.missing.isEmpty
  · simp [asked,he]
  · simp only [asked,he,Bool.false_eq_true,if_false]
    cases generator.llm.embedBatch s.missing with
    | error err => rfl
    | ok loaded =>
      by_cases hl : loaded.length = s.missing.length
      · simp only [hl,ne_eq,not_true,if_false]
        cases (generator.store floats loaded s.missing s.order cache).1 <;> rfl
      · simp [hl]

theorem pointwise_batchEmbed (hk : Function.Injective blake3)
    (hp : ∀ texts, generator.llm.embedBatch texts = texts.mapM generator.llm.embed) (cache : C) :
    Pointwise (fun texts => (generator.batchEmbed blake3 floats texts cache).result)
      (fun texts => (generator.batchEmbed blake3 floats texts cache).sent) (generator.cached cache)
      (generator.embedAlone floats) := by
  apply pointwise_of_resolve
  · intro texts vectors
    exact batchEmbed_eq_ok_iff hk hp texts cache vectors
  · intro texts batch hb text ht
    rw [sent_batchEmbed] at hb
    obtain rfl := eq_of_mem_asked hb
    exact ((visited_split _ _ texts).missing text ht).2

end ParallelGenerator

variable {blake3 floats generator}

theorem batch_embeddings_pointwise {M : Type} {client : CachingLlmClient F M} (hkey : Function.Injective blake3)
    (hclient : ∀ texts, client.inner.embedBatch texts = texts.mapM client.inner.embed)
    (hgenerator : ∀ texts, generator.llm.embedBatch texts = texts.mapM generator.llm.embed) (cache : M) (cache' : C) :
    Pointwise (fun texts => (client.embedBatch blake3 texts cache).result)
      (fun texts => (client.embedBatch blake3 texts cache).sent) (client.cached blake3 cache) client.inner.embed ∧
    Pointwise (fun texts => (generator.batchEmbed blake3 floats texts cache').result)
      (fun texts => (generator.batchEmbed blake3 floats texts cache').sent) (generator.cached cache')
      (generator.embedAlone floats) :=
  ⟨client.pointwise_embedBatch hkey hclient cache, generator.pointwise_batchEmbed hkey hgenerator cache'⟩

end Generator

def sampleDigests : List (List UInt8 × String) :=
  let space := [asBytes "clip", asBytes "v1", asBytes "resize", leBytes 1, asBytes "none"]
  [(asBytes "embedding\x00alpha", "8da70d3f07e9cd96af2d729dadb31167b00b9abd4a888edbb4e8a67b90114070"),
    (asBytes "embedding\x00beta", "ca19996200ccd2408f5131dc428046822d031a3e980446a49f616ad112e9f2c0"),
    (hashInput (space ++ [asBytes "alpha"]), "235def4f78331223e4fb33199c8ee86a508f8e9109eaf33e358b147718e16f2a"),
    (hashInput (space ++ [asBytes "beta"]), "d7a986d010fea9c5c64c5018c781198acff932ba2182e6211f5c54f0891cc508")]

def sampleDigest (bytes : List UInt8) : String :=
  match sampleDigests.find? (fun digest => digest.1 = bytes) with
  | some digest => digest.2
  | none => String.ofList ('~'::bytes.map (fun byte => Char.ofNat byte.toNat))

theorem ofNat_toNat_injective : Function.Injective (fun byte : UInt8 => Char.ofNat byte.toNat) := by
  have hb : ∀ n < 256, (Char.ofNat n).toNat = n := by decide +kernel
  intro b c h
  apply UInt8.toNat_inj.mp
  rw [← hb b.toNat b.toNat_lt,← hb c.toNat c.toNat_lt]
  exact congrArg Char.toNat h

theorem sampleDigest_injective : Function.Injective sampleDigest := by
  have hi : ∀ d ∈ sampleDigests, ∀ d' ∈ sampleDigests, d.2 = d'.2 → d.1 = d'.1 := by decide +kernel
  have hm : ∀ d ∈ sampleDigests, d.2.toList.head? ≠ some '~' := by decide +kernel
  intro bytes bytes' h
  unfold sampleDigest at h
  cases hf : sampleDigests.find? (fun digest => digest.1 = bytes) with
  | some d =>
    have hd := List.mem_of_find?_eq_some hf
    have hb : d.1 = bytes := by simpa using List.find?_some hf
    cases hf' : sampleDigests.find? (fun digest => digest.1 = bytes') with
    | some d' =>
      have hb' : d'.1 = bytes' := by simpa using List.find?_some hf'
      simp only [hf,hf'] at h
      rw [← hb,← hb',hi d hd d' (List.mem_of_find?_eq_some hf') h]
    | none =>
      simp only [hf,hf'] at h
      exact absurd (by simp [h]) (hm d hd)
  | none =>
    cases hf' : sampleDigests.find? (fun digest => digest.1 = bytes') with
    | some d' =>
      simp only [hf,hf'] at h
      exact absurd (by simp [← h]) (hm d' (List.mem_of_find?_eq_some hf'))
    | none =>
      simp only [hf,hf',String.ofList_inj,List.cons.injEq,true_and] at h
      exact List.map_injective_iff.mpr ofNat_toNat_injective h

def sampleCache (V : Type) : Cache (List (String × V)) V :=
  ⟨fun cache key => cache.lookup key, fun cache key value => (key, value)::cache⟩

def sampleLlm : LlmClient ℕ :=
  ⟨fun text => .ok ⟨[text.length], "clip", 1, 1⟩, fun texts => texts.mapM (fun text => .ok ⟨[text.length], "clip", 1, 1⟩)⟩

def sampleFloats : Floats ℕ :=
  ⟨fun _ => true, fun values => Nat.sqrt (values.map (· ^ 2)).sum, fun norm => norm ≠ 1, toString⟩

def sampleClient : CachingLlmClient ℕ (List (String × EmbeddingVector ℕ)) := ⟨sampleLlm, sampleCache _⟩

def sampleEntries : List (String × EmbeddingVector ℕ) := [(embeddingCacheKey sampleDigest "beta", ⟨[9], "clip", 1, 1⟩)]

def sampleGenerator : ParallelGenerator ℕ (List (String × EmbeddingCacheEntry ℕ)) :=
  ⟨sampleLlm, ⟨"clip", "v1", "resize", 1, .none⟩, memoryEmbeddingCache sampleDigest 60 (sampleCache _), 60⟩

/-- With `beta` cached, two places of `alpha` and one of `beta` ask for `alpha` once. -/
theorem batch_embeddings_pointwise_sample :
    (Pointwise (fun texts => (sampleClient.embedBatch sampleDigest texts sampleEntries).result)
      (fun texts => (sampleClient.embedBatch sampleDigest texts sampleEntries).sent)
      (sampleClient.cached sampleDigest sampleEntries) sampleClient.inner.embed ∧
    Pointwise (fun texts => (sampleGenerator.batchEmbed sampleDigest sampleFloats texts []).result)
      (fun texts => (sampleGenerator.batchEmbed sampleDigest sampleFloats texts []).sent) (sampleGenerator.cached [])
      (sampleGenerator.embedAlone sampleFloats)) ∧
    (sampleClient.embedBatch sampleDigest ["alpha", "beta", "alpha"] sampleEntries).sent = [["alpha"]] ∧
    (sampleGenerator.batchEmbed sampleDigest sampleFloats ["alpha", "beta", "alpha"] []).sent = [["alpha", "beta"]] :=
  ⟨batch_embeddings_pointwise sampleDigest_injective (fun _ => rfl) (fun _ => rfl) sampleEntries [],
    by decide +kernel, by decide +kernel⟩

end Retrieve

end UwuContextDb
