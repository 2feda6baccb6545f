import Mathlib.Data.List.Forall2
import Mathlib.Data.String.Basic
import UwuContextDb.Library.Gather

/-! The embeddings of `CachingLlmClient`. -/

namespace UwuContextDb.Core

open Gather StateMachine

inductive LlmError
  | provider (message : String)
  | timeout
  | rateLimited
  deriving DecidableEq

structure EmbeddingVector (F : Type) where
  vector : List F
  modelId : String
  dim : ℕ
  version : UInt64

structure LlmClient (F : Type) where
  embed : String → Except LlmError (EmbeddingVector F)
  embedBatch : List String → Except LlmError (List (EmbeddingVector F))

structure Cache (M V : Type) where
  get : M → String → Option V
  insert : M → String → V → M

structure BatchOutcome (ε V M : Type) where
  result : Except ε (List V)
  cache : M
  sent : List (List String)

def asked (missing : List String) : List (List String) := if missing.isEmpty then [] else [missing]

theorem eq_of_mem_asked {missing batch : List String} (h : batch ∈ asked missing) : batch = missing := by
  unfold asked at h
  split at h
  · simp at h
  · simpa using h

def asBytes (text : String) : List UInt8 := text.toByteArray.data.toList

theorem asBytes_injective : Function.Injective asBytes := by
  intro s t h
  apply String.toByteArray_inj.mp
  exact ByteArray.ext (Array.toList_inj.mp h)

/-- The text of both messages of a provider that answers with too few or too many vectors. -/
def countMismatch (loaded missing : ℕ) : String :=
  "embedding provider returned " ++ toString loaded ++ " vectors for " ++ toString missing ++ " inputs"

section Client

variable {F M : Type}

structure CachingLlmClient (F M : Type) where
  inner : LlmClient F
  embeddings : Cache M (EmbeddingVector F)

variable (blake3 : List UInt8 → String) (client : CachingLlmClient F M)

def embeddingCacheKey (text : String) : String := blake3 (asBytes "embedding\x00" ++ asBytes text)

theorem embeddingCacheKey_injective {blake3 : List UInt8 → String} (h : Function.Injective blake3) :
    Function.Injective (embeddingCacheKey blake3) := by
  intro s t hs
  exact asBytes_injective (List.append_cancel_left (h hs))

namespace CachingLlmClient

def cached (cache : M) (text : String) : Option (EmbeddingVector F) :=
  client.embeddings.get cache (embeddingCacheKey blake3 text)

def load (missing : List String) : Except LlmError (List (EmbeddingVector F)) :=
  if missing.isEmpty then .ok [] else client.inner.embedBatch missing

def store (loaded : List (EmbeddingVector F)) (order : List (ℕ × String × ℕ)) (cache : M) : M :=
  order.foldl (fun cache row =>
    match loaded[row.2.2]? with
    | some embedding => client.embeddings.insert cache row.2.1 embedding
    | none => cache) cache

def embedBatch (texts : List String) (cache : M) : BatchOutcome LlmError (EmbeddingVector F) M :=
  let s := split (embeddingCacheKey blake3) (client.cached blake3 cache) texts
  match client.load s.missing with
  | .error err => ⟨.error err, cache, asked s.missing⟩
  | .ok loaded =>
    if loaded.length ≠ s.missing.length then
      ⟨.error (.provider (countMismatch loaded.length s.missing.length)), cache, asked s.missing⟩
    else
      ⟨collect (.provider "missing cached embedding") (fill loaded s.order s.results),
        client.store loaded s.order cache, asked s.missing⟩

/-- `embed`: the batch of one text, of which the last embedding is taken. -/
def embed (text : String) (cache : M) : Except LlmError (EmbeddingVector F) :=
  match (client.embedBatch blake3 [text] cache).result with
  | .error err => .error err
  | .ok embeddings => (embeddings.getLast?.map .ok).getD (.error (.provider "embedding provider returned no vectors"))

variable {blake3 client}

theorem load_eq (hp : ∀ texts, client.inner.embedBatch texts = texts.mapM client.inner.embed) (missing : List String) :
    client.load missing = missing.mapM client.inner.embed := by
  cases missing with
  | nil => rfl
  | cons text missing => exact hp (text::missing)

theorem embedBatch_eq_ok_iff (hk : Function.Injective blake3)
    (hp : ∀ texts, client.inner.embedBatch texts = texts.mapM client.inner.embed) (texts : List String) (cache : M)
    (embeddings : List (EmbeddingVector F)) :
    (client.embedBatch blake3 texts cache).result = .ok embeddings ↔
      texts.mapM (resolve (client.cached blake3 cache) client.inner.embed) = .ok embeddings := by
  rw [← fill_eq_iff (embeddingCacheKey_injective hk),embedBatch]
  generalize split (embeddingCacheKey blake3) (client.cached blake3 cache) texts = s
  simp only [load_eq hp]
  cases hl : s.missing.mapM client.inner.embed with
  | error err => simp
  | ok loaded =>
    have he : loaded.length = s.missing.length := (mapM_eq_ok hl).length_eq.symm
    simp [he,collect_eq_ok_iff]

theorem sent_embedBatch (texts : List String) (cache : M) : (client.embedBatch blake3 texts cache).sent =
    asked (split (embeddingCacheKey blake3) (client.cached blake3 cache) texts).missing := by
  rw [embedBatch]
  generalize split (embeddingCacheKey blake3) (client.cached blake3 cache) texts = s
  cases client.load s.missing with
  | error err => rfl
  | ok loaded => by_cases hl : loaded.length = s.missing.length <;> simp [hl]

theorem pointwise_embedBatch (hk : Function.Injective blake3)
    (hp : ∀ texts, client.inner.embedBatch texts = texts.mapM client.inner.embed) (cache : M) :
    Pointwise (fun texts => (client.embedBatch blake3 texts cache).result)
      (fun texts => (client.embedBatch blake3 texts cache).sent) (client.cached blake3 cache) client.inner.embed := by
  apply pointwise_of_resolve
  · intro texts embeddings
    exact embedBatch_eq_ok_iff hk hp texts cache embeddings
  · intro texts batch hb text ht
    rw [sent_embedBatch] at hb
    obtain rfl := eq_of_mem_asked hb
    exact ((visited_split _ _ texts).missing text ht).2

end CachingLlmClient

end Client

end UwuContextDb.Core
