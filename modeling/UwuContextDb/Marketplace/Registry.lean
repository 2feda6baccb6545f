import UwuContextDb.Core.CachingLlm
import UwuContextDb.Library.Assoc
import UwuContextDb.Marketplace.Entries

/-! `FederatedRegistry`: publications, the points that stand for them in the vector index, and local searches. -/

namespace UwuContextDb

/-- `Display`. -/
def ContextError.text : ContextError → String
  | .notFound message => s!"not found: {message}"
  | .invalidUri message => s!"invalid uri: {message}"
  | .storage message => s!"storage: {message}"
  | .versionConflict message => s!"version conflict: {message}"
  | .permissionDenied message => s!"permission denied: {message}"
  | .serialization message => s!"serialization: {message}"
  | .unsupported message => s!"unsupported: {message}"

namespace Marketplace

open UwuContextDb.Core Assoc StateMachine

variable {F : Type}

structure IndexPoint (F : Type) where
  uri : ContextUri
  vector : List F
  embeddingModelId : Option String
  embeddingDim : Option ℕ
  embeddingVersion : Option UInt64
  payload : Json

/-- What publishing takes from elsewhere: finiteness and JSON of a number, the text of an id, the topic of a name, and the
JSON of an entry. -/
structure RegistryLibraries (F T : Type) where
  isFinite : F → Bool
  number : F → Json
  uuidText : Uuid → String
  parseUuid : String → Except String Uuid
  newTopic : String → Except String T
  toValue : MarketEntry F → Except String Json

structure RegistryStores (F : Type) where
  points : List (ContextUri × IndexPoint F)
  publications : List (MarketId × MarketEntry F)

/-- A call of `publish`, with what the index and the mesh answer it. A point that is answered with an error may have been
stored all the same. -/
structure PublishCall (F : Type) where
  entry : MarketEntry F
  embedding : EmbeddingVector F
  upserted : Except ContextError Unit
  stored : Bool
  emitted : Except String Unit
  stored_of_ok : upserted = .ok () → stored = true

namespace FederatedRegistry

section Publish

variable {T : Type} (libraries lib : RegistryLibraries F T) (eventMesh : Bool)

def newPoint (call : PublishCall F) : Except ContextError (IndexPoint F) :=
  if call.embedding.vector.isEmpty ∨ call.embedding.vector.any (fun value => !libraries.isFinite value) then
    .error (.storage "market publication requires a non-empty finite embedding")
  else
    match ContextUri.parse ("uwu://market/" ++ call.entry.publisher ++ "/" ++ libraries.uuidText call.entry.id) with
    | .error error => .error (.storage ("invalid marketplace publication URI: " ++ error.text))
    | .ok uri => .ok ⟨uri, call.embedding.vector, some call.embedding.modelId, some call.embedding.dim,
        some call.embedding.version, .obj [("market_id", .str (libraries.uuidText call.entry.id)),
          ("domain", .str call.entry.domain), ("quality", libraries.number call.entry.qualityScore)]⟩

def upsert (s : RegistryStores F) (call : PublishCall F) (point : IndexPoint F) : RegistryStores F :=
  if call.stored then { s with points := put s.points point.uri point } else s

def insert (s : RegistryStores F) (entry : MarketEntry F) : RegistryStores F :=
  { s with publications := put s.publications entry.id entry }

def broadcast (call : PublishCall F) : Except ContextError Unit :=
  if eventMesh then do
    let _ ← (libraries.newTopic ("market.publish." ++ call.entry.domain)).mapError
      (fun error => .storage ("invalid marketplace publication topic: " ++ error))
    let _ ← (libraries.toValue call.entry).mapError (fun error => .storage ("serialize marketplace publication: " ++ error))
    call.emitted.mapError (fun error => .storage ("broadcast marketplace publication: " ++ error))
  else .ok ()

/-- `publish`, with the stores it leaves. -/
def publish (s : RegistryStores F) (call : PublishCall F) : Except ContextError Unit × RegistryStores F :=
  match newPoint libraries call with
  | .error error => (.error error, s)
  | .ok point =>
    match call.upserted with
    | .error error => (.error error, upsert s call point)
    | .ok () => (broadcast libraries eventMesh call, insert (upsert s call point) call.entry)

end Publish

section Search

inductive HitError
  | missingId
  | invalidId (error : String)
  | unknown (id : Uuid)
  deriving DecidableEq

def HitError.toContextError (uuidText : Uuid → String) : HitError → ContextError
  | .missingId => .storage "market index hit is missing string market_id"
  | .invalidId error => .storage ("market index hit has invalid market_id: " ++ error)
  | .unknown id => .storage ("market index references unknown publication " ++ uuidText id)

variable (parseUuid : String → Except String Uuid) (publications : List (MarketId × MarketEntry F))

def resolve (payload : Json) : Except HitError (MarketEntry F) :=
  match payloadMarketId payload with
  | none => .error .missingId
  | some text =>
    match parseUuid text with
    | .error error => .error (.invalidId error)
    | .ok id => (publications.lookup id).elim (.error (.unknown id)) .ok

/-- `search_local`, given what the index answers. -/
def searchLocal (uuidText : Uuid → String) (answer : Except ContextError (List (MarketIndexHit F))) :
    Except ContextError (List (MarketEntry F)) := do
  let hits ← answer
  (hits.mapM (fun hit => resolve parseUuid publications hit.payload)).mapError (HitError.toContextError uuidText)

end Search

section Steps

variable {T : Type} (libraries lib : RegistryLibraries F T) (eventMesh : Bool)

/-- The stores while calls of `publish` are under way, and the entries of those between their upsert and their insertion. -/
structure RegistryState (F : Type) where
  stores : RegistryStores F
  awaiting : List (MarketEntry F)

inductive RegistryStep (F : Type)
  | upsert (call : PublishCall F)
  | insert (i : ℕ)

def step (s : RegistryState F) : RegistryStep F → RegistryState F
  | .upsert call =>
    match newPoint libraries call with
    | .error _ => s
    | .ok point => ⟨upsert s.stores call point,
        match call.upserted with
        | .ok () => s.awaiting ++ [call.entry]
        | .error _ => s.awaiting⟩
  | .insert i =>
    match s.awaiting[i]? with
    | none => s
    | some entry => ⟨insert s.stores entry, s.awaiting.eraseIdx i⟩

def Registered (s : RegistryStores F) : Prop :=
  ∀ uri point, s.points.lookup uri = some point →
    ∃ entry, resolve libraries.parseUuid s.publications point.payload = .ok entry

def SameStores (s s' : RegistryStores F) : Prop :=
  (∀ uri, s'.points.lookup uri = s.points.lookup uri) ∧ ∀ id, s'.publications.lookup id = s.publications.lookup id

def NothingNew (s : RegistryStores F) (call : PublishCall F) : Prop :=
  ∀ point, newPoint libraries call = .ok point → call.stored = true →
    s.points.lookup point.uri = some point ∧
      (call.upserted = .ok () → s.publications.lookup call.entry.id = some call.entry)

def KnownEntry (s : RegistryState F) : RegistryStep F → Prop
  | .upsert call => ∀ point, newPoint libraries call = .ok point → call.stored = true →
      s.stores.publications.lookup call.entry.id ≠ none
  | .insert _ => True

variable {libraries lib eventMesh} {s : RegistryStores F}

theorem resolve_eq_ok_iff {parseUuid : String → Except String Uuid} {publications : List (MarketId × MarketEntry F)}
    {payload : Json} {entry : MarketEntry F} :
    resolve parseUuid publications payload = .ok entry ↔
      ∃ text id, payloadMarketId payload = some text ∧ parseUuid text = .ok id ∧ publications.lookup id = some entry := by
  unfold resolve
  cases payloadMarketId payload with
  | none => simp
  | some text =>
    cases hp : parseUuid text with
    | error error => simp [hp]
    | ok id => cases hl : publications.lookup id <;> simp [hp,hl]

variable {call : PublishCall F} {point : IndexPoint F}

theorem payload_newPoint (h : newPoint lib call = .ok point) :
    payloadMarketId point.payload = some (lib.uuidText call.entry.id) := by
  unfold newPoint at h
  split at h
  · cases h
  · split at h
    · cases h
    · cases h
      rfl

theorem sameStores_publish_iff (call : PublishCall F) :
    SameStores s (publish lib eventMesh s call).2 ↔ NothingNew lib s call := by
  unfold SameStores NothingNew publish
  cases hp : newPoint lib call with
  | error _ => simp
  | ok point =>
    cases hu : call.upserted with
    | error error =>
      simp only [upsert]
      cases hs : call.stored with
      | false => simp
      | true => simp [lookup_put_eq_iff]
    | ok _ => simp [upsert,insert,call.stored_of_ok hu,lookup_put_eq_iff]

theorem registered_insert (h : Registered lib s) (e : MarketEntry F) : Registered lib (insert s e) := by
  intro u point ho
  obtain ⟨held,hh⟩ := h u point ho
  obtain ⟨text,id,ht,hp,hl⟩ := resolve_eq_ok_iff.mp hh
  by_cases hi : id = e.id
  · exact ⟨e,resolve_eq_ok_iff.mpr ⟨text,id,ht,hp,by rw [insert,lookup_put,if_pos hi]⟩⟩
  · exact ⟨held,resolve_eq_ok_iff.mpr ⟨text,id,ht,hp,by rw [insert,lookup_put,if_neg hi,hl]⟩⟩

theorem registered_upsert_iff (hp : ∀ id, lib.parseUuid (lib.uuidText id) = .ok id)
    (h : Registered lib s) (ho : newPoint lib call = .ok point) :
    Registered lib (upsert s call point) ↔ (call.stored = true → s.publications.lookup call.entry.id ≠ none) := by
  have hr : ∀ entry, resolve lib.parseUuid s.publications point.payload = .ok entry ↔
      s.publications.lookup call.entry.id = some entry := by
    intro entry
    simp [resolve_eq_ok_iff,payload_newPoint ho,hp]
  unfold upsert
  cases call.stored with
  | false => simpa using h
  | true =>
    simp only [if_true,forall_const]
    constructor
    · intro hg
      obtain ⟨entry,he⟩ := hg point.uri point (by rw [lookup_put,if_pos rfl])
      rw [(hr entry).mp he]
      exact Option.some_ne_none entry
    · intro hk u held hh
      rw [lookup_put] at hh
      split_ifs at hh
      · obtain ⟨entry,he⟩ := Option.ne_none_iff_exists'.mp hk
        rw [← Option.some.inj hh]
        exact ⟨entry,(hr entry).mpr he⟩
      · exact h u held hh

theorem registered_step_iff (ha : ∀ id, lib.parseUuid (lib.uuidText id) = .ok id) (s : RegistryState F)
    (label : RegistryStep F) (h : Registered lib s.stores) :
    Registered lib (step lib s label).stores ↔ KnownEntry lib s label := by
  cases label with
  | upsert call =>
    cases hp : newPoint lib call with
    | error error =>
      have hs : step lib s (.upsert call) = s := by simp [step,hp]
      rw [hs]
      exact iff_of_true h (fun point h => by rw [hp] at h; cases h)
    | ok point =>
      have hs : (step lib s (.upsert call)).stores = upsert s.stores call point := by simp [step,hp]
      have hk : KnownEntry lib s (.upsert call) ↔
          (call.stored = true → s.stores.publications.lookup call.entry.id ≠ none) := by
        exact ⟨fun h => h point hp,fun h _ _ => h⟩
      rw [hs,hk]
      exact registered_upsert_iff ha h hp
  | insert i =>
    refine iff_of_true ?_ trivial
    cases he : s.awaiting[i]? with
    | none =>
      have hs : step lib s (.insert i) = s := by simp [step,he]
      rwa [hs]
    | some entry =>
      have hs : (step lib s (.insert i)).stores = insert s.stores entry := by simp [step,he]
      rw [hs]
      exact registered_insert h entry

def FromIndex (s : RegistryStores F) (hits : List (MarketIndexHit F)) : Prop :=
  ∀ hit ∈ hits, ∃ uri point, s.points.lookup uri = some point ∧ hit.payload = point.payload

theorem searchLocal_isOk_iff {hits : List (MarketIndexHit F)} :
    (∃ entries, searchLocal lib.parseUuid s.publications lib.uuidText (.ok hits) = .ok entries) ↔
      ∃ entries, hits.mapM (fun hit => resolve lib.parseUuid s.publications hit.payload) = .ok entries := by
  show (∃ entries, (hits.mapM (fun hit => resolve lib.parseUuid s.publications hit.payload)).mapError
    (HitError.toContextError lib.uuidText) = .ok entries) ↔ _
  cases hits.mapM (fun hit => resolve lib.parseUuid s.publications hit.payload) <;> simp [Except.mapError]

theorem registered_iff_searchable [Inhabited F] (libraries : RegistryLibraries F T) (s : RegistryStores F) :
    Registered libraries s ↔ ∀ hits, FromIndex s hits →
      ∃ entries, searchLocal libraries.parseUuid s.publications libraries.uuidText (.ok hits) = .ok entries := by
  simp only [searchLocal_isOk_iff]
  constructor
  · intro h hits hh
    refine mapM_isOk (fun hit hi => ?_)
    obtain ⟨u,point,hp,ha⟩ := hh hit hi
    rw [ha]
    exact h u point hp
  · intro h u point hp
    have hh : FromIndex s [⟨u,default,point.payload⟩] := by
      intro hit hi
      obtain rfl := List.mem_singleton.mp hi
      exact ⟨u,point,hp,rfl⟩
    obtain ⟨entries,he⟩ := h _ hh
    obtain ⟨e,-,hn⟩ := exists_mapM_of_mem he _ (List.mem_singleton_self _)
    exact ⟨e,hn⟩

/-- A failed call leaves the stores as they were exactly if it has stored nothing new, and all points refer to publications
all along a run exactly if they do at its start and no step stores a point of an entry that is not registered yet. Where
they do, and only there, no search fails. -/
theorem publication_atomic_iff [Inhabited F] (libraries : RegistryLibraries F T) (eventMesh : Bool)
    (hparse : ∀ id, libraries.parseUuid (libraries.uuidText id) = .ok id) :
    (∀ (s : RegistryStores F) call error, (publish libraries eventMesh s call).1 = .error error →
      (SameStores s (publish libraries eventMesh s call).2 ↔ NothingNew libraries s call)) ∧
    (∀ (s : RegistryState F) labels,
      (∀ front, front <+: labels → Registered libraries (run (step libraries) s front).stores) ↔
        Registered libraries s.stores ∧ Meets (step libraries) (KnownEntry libraries) s labels) ∧
    ∀ s : RegistryStores F, Registered libraries s ↔ ∀ hits, FromIndex s hits →
      ∃ entries, searchLocal libraries.parseUuid s.publications libraries.uuidText (.ok hits) = .ok entries := by
  refine ⟨fun s call _ _ => sameStores_publish_iff call, ?_, registered_iff_searchable libraries⟩
  intro s labels
  have ht : ∀ (s : RegistryState F) (label : RegistryStep F), Registered libraries s.stores →
      (Registered libraries (step libraries s label).stores ↔ KnownEntry libraries s label) := registered_step_iff hparse
  constructor
  · intro h
    have hs : Registered libraries s.stores := h [] List.nil_prefix
    exact ⟨hs, (meets_iff_invariant ht hs).mp h⟩
  · rintro ⟨hs, hm⟩
    exact (meets_iff_invariant ht hs).mpr hm

end Steps

def sampleLibraries : RegistryLibraries ℚ String where
  isFinite := fun _ => true
  number := fun _ => .null
  uuidText := fun id => String.ofList (List.replicate id 'i')
  parseUuid := fun text => .ok text.length
  newTopic := .ok
  toValue := fun entry => .ok (.str entry.principle)

/-- Entry 1 of agent `a`, published with an index that stores it and a mesh that answers. -/
def samplePublish (emitted : Except String Unit) : PublishCall ℚ :=
  ⟨sampleEntry 1 "a" "d" "x" 1, ⟨[1], "m", 1, 1⟩, .ok (), true, emitted, fun _ => rfl⟩

theorem publication_atomic_iff_sample :
    (∀ (s : RegistryStores ℚ) call error, (publish sampleLibraries true s call).1 = .error error →
      (SameStores s (publish sampleLibraries true s call).2 ↔ NothingNew sampleLibraries s call)) ∧
    (∀ (s : RegistryState ℚ) labels,
      (∀ front, front <+: labels → Registered sampleLibraries (run (step sampleLibraries) s front).stores) ↔
        Registered sampleLibraries s.stores ∧ Meets (step sampleLibraries) (KnownEntry sampleLibraries) s labels) ∧
    ∀ s : RegistryStores ℚ, Registered sampleLibraries s ↔ ∀ hits, FromIndex s hits →
      ∃ entries, searchLocal sampleLibraries.parseUuid s.publications sampleLibraries.uuidText (.ok hits) = .ok entries :=
  publication_atomic_iff sampleLibraries true (fun id => by simp [sampleLibraries])

/-- A broadcast that the mesh refuses leaves the point and the publication in the stores, and a search between the upsert and
the insertion of a call does not find the publication. -/
theorem published_in_part :
    let after := publish sampleLibraries true ⟨[], []⟩ (samplePublish (.error "closed"));
    let between := run (step sampleLibraries) ⟨⟨[], []⟩, []⟩ [.upsert (samplePublish (.ok ()))];
    after.1 = .error (.storage "broadcast marketplace publication: closed") ∧
    (after.2.points.length, after.2.publications.length) = (1, 1) ∧
    (between.stores.points.map (fun row =>
      (resolve sampleLibraries.parseUuid between.stores.publications row.2.payload).toOption.isSome)) = [false] := by
  decide +kernel

end FederatedRegistry

end Marketplace

end UwuContextDb
