import UwuContextDb.Content.Memory

/-! The tables of `SqliteContextStore`, and the transactions of its writes. -/

namespace UwuContextDb.Content

open StateMachine (bind_eq_ok)

/-- What the store takes from other libraries: the reading of a UUID, the rounding of a number to an `f32` where
that is finite, and the length of an entry's JSON text; and from SQLite how it reads a text as JSON, how it prints a
number that it took out of a JSON text, and how many variables a statement may bind. -/
structure StoreLibraries where
  parseUuid : String → Option Uuid
  toFloat32 : ℚ → Option ℚ
  jsonLength : ContextEntry → ℕ
  sqlJson : String → Option Json
  sqlNumber : Number → Number
  variableLimit : ℕ

inductive GraphRelation
  | evolvedFrom | evolvedTo | evidenceOf | entangledWith | contradicts | corroborates | derivedFrom | supersedes
  | drivesPolicy
  deriving DecidableEq

structure IndexPoint where
  uri : ContextUri
  vector : List ℚ
  embeddingModelId : Option String
  embeddingDim : Option ℕ
  embeddingVersion : Option ℕ
  payload : Json
  deriving DecidableEq

inductive IndexMutation
  | upsert (collection : String) (point : IndexPoint)
  | delete (collection : String) (uri : ContextUri)
  | rename (collection : String) (from_ : ContextUri) (point : Option IndexPoint)

inductive OutboxStatus | pending | processing | done | failed | dead deriving DecidableEq

/-- A row of `context_index_outbox`. -/
structure OutboxRow where
  id : ℕ
  mutation : IndexMutation
  uri : String
  version : Option MvccVersion
  status : OutboxStatus
  attempts : ℕ
  availableAt : DateTime
  leaseUntil : Option DateTime
  createdAt : DateTime

/-- A row of `context_entries`: the entry as its JSON text gives it, and the columns of the version and of the custom
metadata. -/
structure CurrentRow where
  entry : ContextEntry
  version : MvccVersion
  custom : Json

/-- A row of `context_versions`. -/
structure VersionRow where
  uri : String
  version : MvccVersion
  entry : ContextEntry

/-- A row of `context_relations`. -/
structure Edge where
  from_ : String
  to_ : String
  kind : GraphRelation
  deriving DecidableEq

def Edge.touches (uri : String) (edge : Edge) : Bool := edge.from_ = uri || edge.to_ = uri

/-- The edge with the ends replaced that are `from_`. -/
def Edge.renamed (from_ to_ : String) (edge : Edge) : Edge :=
  ⟨if edge.from_ = from_ then to_ else edge.from_, if edge.to_ = from_ then to_ else edge.to_, edge.kind⟩

structure SqliteTables where
  entries : Std.ExtTreeMap String CurrentRow
  versions : List VersionRow
  outbox : List OutboxRow
  relations : List Edge
  revisions : Std.ExtTreeMap String ℕ

def defaultCollection : String := "context"

def collectionFromEntry (entry : ContextEntry) : String :=
  ((entry.metadata.custom.get? "vector_collection").bind Json.asString).getD defaultCollection

def asNumber : Json → Option ℚ
  | .num (.int n) => some n
  | .num (.float q) => some q
  | _ => none

def pointFromEntry (libraries : StoreLibraries) (entry : ContextEntry) : Except ContextError (Option IndexPoint) :=
  match entry.metadata.custom.get? "embedding_vector" with
  | none => .ok none
  | some value =>
    match Json.listOf asNumber value with
    | none => .error (.serialization "embedding_vector is no list of numbers")
    | some numbers =>
      match numbers.mapM libraries.toFloat32 with
      | none => .error (.storage "embedding_vector must contain finite values")
      | some vector =>
        if vector.isEmpty then .error (.storage "embedding_vector must contain finite values") else
          .ok (some {
            uri := entry.uri
            vector := vector
            embeddingModelId := (entry.metadata.custom.get? "embedding_model_id").bind Json.asString
            embeddingDim := some vector.length
            embeddingVersion := (entry.metadata.custom.get? "embedding_version").bind Json.asNat
            payload := .obj [("collection", .str (collectionFromEntry entry)),
              ("content_type", Json.ofOption (fun ct => .str ct.asPathSegment) entry.metadata.contentType),
              ("mvcc_version", .ofNat entry.mvccVersion)] })

def upsertMutation (libraries : StoreLibraries) (entry : ContextEntry) (version : MvccVersion) :
    Except ContextError (Option IndexMutation) :=
  (pointFromEntry libraries { entry with mvccVersion := version }).map
    (fun point => point.map (.upsert (collectionFromEntry entry)))

def pointVersion (point : IndexPoint) : Option MvccVersion :=
  ((point.payload.get? "mvcc_version").bind Json.asNat).filter (fun v => decide (v < 2 ^ 63))

def mutationOrder : IndexMutation → String × Option MvccVersion
  | .upsert _ point => (point.uri.canonical, pointVersion point)
  | .delete _ uri => (uri.canonical, none)
  | .rename _ from_ point => ((point.map (·.uri.canonical)).getD from_.canonical, point.bind pointVersion)

namespace SqliteTables

variable (libraries lib : StoreLibraries) (st : SqliteTables)

def empty : SqliteTables := ⟨∅, [], [], [], ∅⟩

def validateTenantBinding (entry : ContextEntry) : Except ContextError Unit :=
  match libraries.parseUuid entry.uri.tenant with
  | some uriTenant =>
    if uriTenant = entry.tenant then .ok () else
      .error (.invalidUri s!"URI tenant {entry.uri.tenant} does not match entry tenant {uuidText entry.tenant}")
  | none => .ok ()

/-- `INSERT INTO context_versions`, whose key is the URI with the version. -/
def insertVersion (uri : String) (version : MvccVersion) (entry : ContextEntry) : Except ContextError SqliteTables :=
  if st.versions.any (fun row => row.uri = uri && row.version = version) then
    .error (.storage "write version failed: UNIQUE constraint failed: context_versions.uri, context_versions.mvcc_version")
  else .ok { st with versions := st.versions ++ [⟨uri, version, entry⟩] }

def versionsOf (uri : String) : List VersionRow := st.versions.filter (fun row => row.uri = uri)

/-- `enqueue_sqlite`; `id` stands for a time-ordered UUID. -/
def enqueue (mutation : IndexMutation) (now : DateTime) : SqliteTables :=
  let (uri, version) := mutationOrder mutation
  { st with outbox := st.outbox ++ [⟨st.outbox.length, mutation, uri, version, .pending, 0, now, none, now⟩] }

def enqueueAny (mutation : Option IndexMutation) (now : DateTime) : SqliteTables :=
  match mutation with
  | some mutation => st.enqueue mutation now
  | none => st

def bumpGraphRevision (scope : String) : SqliteTables :=
  { st with revisions := st.revisions.insert scope ((st.revisions[scope]?).getD 0 + 1) }

/-- `INSERT OR IGNORE INTO context_relations`. -/
def insertEdge (relations : List Edge) (edge : Edge) : List Edge :=
  if edge ∈ relations then relations else relations ++ [edge]

def writeInTx (entry : ContextEntry) (now : DateTime) : Except ContextError (MvccVersion × SqliteTables) := do
  validateTenantBinding libraries entry
  let entry ← WriteSecurity.sanitizeEntryForWrite entry
  let uri := entry.uri.canonical
  let version := ((st.entries[uri]?).map (·.version + 1)).getD 1
  let entry := { entry with updatedAt := now, mvccVersion := version }
  let tx ← insertVersion
    { st with entries := st.entries.insert uri ⟨entry, version, entry.metadata.custom⟩ } uri version entry
  return (version, tx)

def write (entry : ContextEntry) (now : DateTime) : Except ContextError (MvccVersion × SqliteTables) := do
  let (version, tx) ← st.writeInTx libraries entry now
  let mutation ← upsertMutation libraries entry version
  return (version, tx.enqueueAny mutation now)

/-- The collection of the latest version: `ORDER BY mvcc_version DESC LIMIT 1`. -/
def deletedCollection (uri : ContextUri) : String :=
  let latest := (st.versionsOf uri.canonical).foldl
    (fun best row => if best.all (fun b => decide (b.version ≤ row.version)) then some row else best)
      (none : Option VersionRow)
  (latest.map (fun row => collectionFromEntry row.entry)).getD defaultCollection

def delete (uri : ContextUri) (now : DateTime) : Except ContextError (Unit × SqliteTables) :=
  if uri.canonical ∉ st.entries then .error (.notFound uri.canonical) else
    let tx := enqueue { st with entries := st.entries.erase uri.canonical } (.delete (st.deletedCollection uri) uri) now
    let tx := { tx with versions := tx.versions.filter (fun row => row.uri ≠ uri.canonical) }
    let graphChanged := tx.relations.any (Edge.touches uri.canonical)
    let tx := { tx with relations := tx.relations.filter (fun edge => !(Edge.touches uri.canonical edge)) }
    .ok ((), if graphChanged then tx.bumpGraphRevision uri.tenant else tx)

/-- The updates of `context_versions` in a rename. -/
def renameVersions (from_ to_ : ContextUri) : Except ContextError SqliteTables :=
  if from_.canonical ≠ to_.canonical ∧ (st.versionsOf from_.canonical).any
      (fun row => (st.versionsOf to_.canonical).any (fun other => other.version = row.version)) then
    .error (.storage "rename version failed: UNIQUE constraint failed: context_versions.uri, context_versions.mvcc_version")
  else .ok { st with versions := st.versions.map (fun row =>
    if row.uri = from_.canonical then ⟨to_.canonical, row.version, { row.entry with uri := to_ }⟩ else row) }

/-- The updates of `context_relations` in a rename. -/
def renameRelations (from_ to_ : ContextUri) : SqliteTables :=
  let relations := st.relations.filter (Edge.touches from_.canonical)
  let kept := st.relations.filter (fun edge => !(Edge.touches from_.canonical edge))
  let tx := { st with
    relations := (relations.map (Edge.renamed from_.canonical to_.canonical)).foldl insertEdge kept }
  if relations.isEmpty then tx else tx.bumpGraphRevision from_.tenant

def rename (from_ to_ : ContextUri) (now : DateTime) : Except ContextError (Unit × SqliteTables) :=
  if from_.tenant ≠ to_.tenant then
    .error (.permissionDenied s!"cross-tenant rename is not allowed: {from_.tenant} -> {to_.tenant}")
  else
    match st.entries[from_.canonical]? with
    | none => .error (.notFound from_.canonical)
    | some row =>
      let entry := { row.entry with uri := to_, updatedAt := now }
      if from_.canonical ≠ to_.canonical ∧ to_.canonical ∈ st.entries then
        .error (.storage "rename failed: UNIQUE constraint failed: context_entries.uri")
      else do
        let tx := { st with entries := (st.entries.erase from_.canonical).insert to_.canonical ⟨entry, row.version, row.custom⟩ }
        let tx ← tx.renameVersions from_ to_
        let tx := tx.renameRelations from_ to_
        let point ← pointFromEntry libraries entry
        return ((), tx.enqueue (.rename (collectionFromEntry entry) from_ point) now)

def rollback (uri : ContextUri) (to_ : MvccVersion) (now : DateTime) : Except ContextError (Unit × SqliteTables) :=
  if 2 ^ 63 ≤ to_ then .error (.versionConflict s!"version {to_} exceeds the SQLite INTEGER range") else
    match st.versions.find? (fun row => row.uri = uri.canonical && row.version = to_) with
    | none => .error (.versionConflict s!"no version {to_} for {uri.canonical}")
    | some row =>
      let entry := { row.entry with uri := uri }
      if uri.canonical ∉ st.entries then .error (.notFound uri.canonical) else do
        let (version, tx) ← st.writeInTx libraries entry now
        let mutation ← upsertMutation libraries entry version
        return ((), tx.enqueueAny mutation now)

structure BatchWriteConfig where
  maxRowsPerChunk : ℕ
  maxBytesPerChunk : ℕ

/-- `BatchWriteConfig::default()`. -/
def BatchWriteConfig.standard : BatchWriteConfig := ⟨256, 4 * 1024 * 1024⟩

/-- How many entries the next chunk takes, after `count` of `bytes` bytes. -/
def takeChunk (config : BatchWriteConfig) : ℕ → ℕ → List ContextEntry → ℕ
  | _, _, [] => 0
  | count, bytes, entry::rest =>
    let size := libraries.jsonLength entry
    if config.maxRowsPerChunk ≤ count then 0
    else if 0 < count ∧ config.maxBytesPerChunk < bytes + size then 0
    else if config.maxBytesPerChunk ≤ bytes + size then 1
    else takeChunk config (count + 1) (bytes + size) rest + 1

/-- The loop of `BatchWriteConfig::chunks`: every chunk takes an entry, so the number of entries is fuel enough. -/
def chunksFrom (config : BatchWriteConfig) : ℕ → List ContextEntry → List (List ContextEntry)
  | fuel + 1, entry::rest =>
    let n := takeChunk libraries config 0 0 (entry::rest)
    (entry::rest).take n :: chunksFrom config fuel ((entry::rest).drop n)
  | _, _ => []

def chunks (config : BatchWriteConfig) (entries : List ContextEntry) : Except ContextError (List (List ContextEntry)) :=
  if config.maxRowsPerChunk = 0 ∨ config.maxBytesPerChunk = 0 then
    .error (.storage "batch write chunk limits must be greater than zero")
  else .ok (chunksFrom libraries config entries.length entries)

structure PreparedBatchRow where
  uri : String
  version : MvccVersion
  entry : ContextEntry
  isCurrent : Bool
  mutation : Option IndexMutation

/-- The loop of `prepare_batch_chunk`; `next` has the versions so far. A row is current where no later one has its
URI. -/
def prepareBatchChunk (now : DateTime) : Std.ExtTreeMap String MvccVersion → List ContextEntry →
    Except ContextError (List PreparedBatchRow)
  | _, [] => .ok []
  | next, input::rest => do
    validateTenantBinding libraries input
    let entry ← WriteSecurity.sanitizeEntryForWrite input
    let uri := entry.uri.canonical
    let version := (next[uri]?).getD 0 + 1
    let entry := { entry with updatedAt := now, mvccVersion := version }
    let mutation ← upsertMutation libraries entry version
    let rows ← prepareBatchChunk now (next.insert uri version) rest
    return ⟨uri, version, entry, rest.all (fun later => later.uri.canonical ≠ uri), mutation⟩ :: rows

/-- `SELECT uri, mvcc_version FROM context_entries WHERE uri IN (..)`. -/
def baseVersions (chunk : List ContextEntry) : Std.ExtTreeMap String MvccVersion :=
  chunk.foldl (fun base entry =>
    match st.entries[entry.uri.canonical]? with
    | some row => base.insert entry.uri.canonical row.version
    | none => base) ∅

def readBatchVersions (chunk : List ContextEntry) : Except ContextError (Std.ExtTreeMap String MvccVersion) :=
  if libraries.variableLimit < chunk.length then .error (.storage "read batch versions failed: too many SQL variables")
  else .ok (st.baseVersions chunk)

/-- `json(json_extract(value, '$.custom'))`, for a column that is `NOT NULL`: SQLite takes a string out of its quotes,
a truth value as a number and `null` as NULL. -/
def batchCustom : Json → Except ContextError Json
  | .null => .error (.storage "write batch current failed: NOT NULL constraint failed: context_entries.custom_json")
  | .bool b => .ok (.ofNat b.toNat)
  | .num n => .ok (.num (libraries.sqlNumber n))
  | .str s =>
    match libraries.sqlJson s with
    | some json => .ok json
    | none => .error (.storage "write batch current failed: malformed JSON")
  | json => .ok json

/-- `write batch current`, of the rows that are current. -/
def insertCurrent (entries : Std.ExtTreeMap String CurrentRow) (row : PreparedBatchRow) :
    Except ContextError (Std.ExtTreeMap String CurrentRow) :=
  if row.isCurrent then
    (batchCustom libraries row.entry.metadata.custom).map
      (fun custom => entries.insert row.uri ⟨row.entry, row.version, custom⟩)
  else .ok entries

/-- One chunk of `batch_write`. -/
def writeChunk (now : DateTime) (chunk : List ContextEntry) : Except ContextError (List MvccVersion × SqliteTables) := do
  let base ← st.readBatchVersions libraries chunk
  let rows ← prepareBatchChunk libraries now base chunk
  let entries ← rows.foldlM (insertCurrent libraries) st.entries
  let tx := { st with entries := entries }
  let tx ← rows.foldlM (fun tx row => tx.insertVersion row.uri row.version row.entry) tx
  return (rows.map (·.version), rows.foldl (fun tx row => tx.enqueueAny row.mutation now) tx)

/-- `ContentRepo::batch_write`: one transaction over all chunks. -/
def batchWrite (config : BatchWriteConfig) (entries : List ContextEntry) (now : DateTime) :
    Except ContextError (List MvccVersion × SqliteTables) :=
  if entries.isEmpty then .ok ([], st) else do
    let parts ← chunks libraries config entries
    parts.foldlM (fun written chunk => do
      let (versions, tx) ← writeChunk libraries written.2 now chunk
      return (written.1 ++ versions, tx)) ([], st)

def addEdge (from_ to_ : ContextUri) (kind : GraphRelation) : SqliteTables :=
  let edge : Edge := ⟨from_.canonical, to_.canonical, kind⟩
  if edge ∈ st.relations then st
  else { st with relations := insertEdge st.relations edge }.bumpGraphRevision from_.tenant

def removeEdge (from_ to_ : ContextUri) : SqliteTables :=
  let joins := fun (edge : Edge) => decide (edge.from_ = from_.canonical ∧ edge.to_ = to_.canonical)
  let tx := { st with relations := st.relations.filter (fun edge => !joins edge) }
  if st.relations.any joins then tx.bumpGraphRevision from_.tenant else tx

theorem addEdge_frame (from_ to_ : ContextUri) (kind : GraphRelation) : (st.addEdge from_ to_ kind).entries = st.entries ∧
    (st.addEdge from_ to_ kind).versions = st.versions ∧ (st.addEdge from_ to_ kind).outbox = st.outbox := by
  unfold addEdge
  dsimp only
  split <;> exact ⟨rfl,rfl,rfl⟩

theorem removeEdge_frame (from_ to_ : ContextUri) : (st.removeEdge from_ to_).entries = st.entries ∧
    (st.removeEdge from_ to_).versions = st.versions ∧ (st.removeEdge from_ to_).outbox = st.outbox := by
  unfold removeEdge
  dsimp only
  split <;> exact ⟨rfl,rfl,rfl⟩

def graphRevision (scope : String) : ℕ := (st.revisions[scope]?).getD 0

def loadEntry (uri : ContextUri) : Except ContextError ContextEntry :=
  match st.entries[uri.canonical]? with
  | some row => .ok row.entry
  | none => .error (.notFound uri.canonical)

/-- What `read` makes of an entry. -/
def payloadAt (entry : ContextEntry) (level : ContentLevel) : ContentPayload :=
  match entry.payload, level with
  | .text sparse dense _, .l0 => .text sparse dense sparse
  | .text sparse dense _, .l1 => .text sparse dense dense
  | payload, _ => payload

/-- `FsOps::read` of the table. -/
def read (uri : ContextUri) (level : ContentLevel) : Except ContextError ContentPayload :=
  (st.loadEntry uri).map (fun entry => payloadAt entry level)

section Specs

variable {libraries lib st} {tx : SqliteTables} {entry : ContextEntry} {version : MvccVersion} {now : DateTime}

/-- What `write_in_tx` leaves. -/
structure Written (libraries : StoreLibraries) (st : SqliteTables) (entry : ContextEntry) (now : DateTime)
    (version : MvccVersion) (tx : SqliteTables) (stored : ContextEntry) : Prop where
  valid : validateTenantBinding libraries entry = .ok ()
  redacted : ∃ clean, WriteSecurity.sanitizeEntryForWrite entry = .ok clean ∧
    stored = { clean with updatedAt := now, mvccVersion := version }
  version_eq : version = ((st.entries[stored.uri.canonical]?).map (·.version + 1)).getD 1
  fresh : ∀ row ∈ st.versions, row.uri = stored.uri.canonical → row.version ≠ version
  tables : tx = { st with
    entries := st.entries.insert stored.uri.canonical ⟨stored, version, stored.metadata.custom⟩
    versions := st.versions ++ [⟨stored.uri.canonical, version, stored⟩] }

theorem insertVersion_ok {uri : String} (h : st.insertVersion uri version entry = .ok tx) :
    (∀ row ∈ st.versions, row.uri = uri → row.version ≠ version) ∧
    tx = { st with versions := st.versions++[⟨uri,version,entry⟩] } := by
  unfold insertVersion at h
  split at h
  · cases h
  · rename_i hn
    refine ⟨fun row hr hu hv => hn (List.any_eq_true.mpr ⟨row,hr,?_⟩),(Except.ok.inj h).symm⟩
    simp [hu,hv]

theorem writeInTx_ok (h : st.writeInTx lib entry now = .ok (version, tx)) :
    ∃ stored, Written lib st entry now version tx stored := by
  unfold writeInTx at h
  obtain ⟨⟨⟩,hv,h⟩ := bind_eq_ok.mp h
  obtain ⟨clean,hc,h⟩ := bind_eq_ok.mp h
  obtain ⟨inserted,hi,h⟩ := bind_eq_ok.mp h
  obtain ⟨rfl,rfl⟩ := Prod.mk.inj (Except.ok.inj h)
  obtain ⟨hf,rfl⟩ := insertVersion_ok hi
  exact ⟨_,hv,⟨clean,hc,rfl⟩,rfl,hf,rfl⟩

theorem write_ok (h : st.write lib entry now = .ok (version, tx)) :
    ∃ inner chg, st.writeInTx lib entry now = .ok (version, inner) ∧
      upsertMutation lib entry version = .ok chg ∧ tx = inner.enqueueAny chg now := by
  unfold write at h
  obtain ⟨⟨version',inner⟩,hi,h⟩ := bind_eq_ok.mp h
  obtain ⟨chg,hm,h⟩ := bind_eq_ok.mp h
  obtain ⟨rfl,rfl⟩ := Prod.mk.inj (Except.ok.inj h)
  exact ⟨inner,chg,hi,hm,rfl⟩

structure Renamed (libraries : StoreLibraries) (st : SqliteTables) (from_ to_ : ContextUri)
    (now : DateTime) (tx : SqliteTables) (row : CurrentRow) (point : Option IndexPoint) : Prop where
  tenant : from_.tenant = to_.tenant
  source : st.entries[from_.canonical]? = some row
  target : from_.canonical = to_.canonical ∨ to_.canonical ∉ st.entries
  versions_apart : from_.canonical = to_.canonical ∨ ∀ old ∈ st.versionsOf from_.canonical,
    ∀ other ∈ st.versionsOf to_.canonical, other.version ≠ old.version
  point_eq : pointFromEntry libraries { row.entry with uri := to_, updatedAt := now } = .ok point
  entries : tx.entries = (st.entries.erase from_.canonical).insert to_.canonical
    ⟨{ row.entry with uri := to_, updatedAt := now }, row.version, row.custom⟩
  versions : tx.versions = st.versions.map (fun old =>
    if old.uri = from_.canonical then ⟨to_.canonical, old.version, { old.entry with uri := to_ }⟩ else old)
  relations : tx.relations = (st.renameRelations from_ to_).relations
  revisions : tx.revisions = (st.renameRelations from_ to_).revisions
  outbox : tx.outbox = (st.enqueue (.rename (collectionFromEntry row.entry) from_ point) now).outbox

variable {from_ to_ : ContextUri} {chunk : List ContextEntry} {versions : List MvccVersion}
  {entries : List ContextEntry}

theorem renameVersions_ok (h : st.renameVersions from_ to_ = .ok tx) :
    (from_.canonical = to_.canonical ∨ ∀ old ∈ st.versionsOf from_.canonical, ∀ other ∈ st.versionsOf to_.canonical,
      other.version ≠ old.version) ∧
    tx = { st with versions := st.versions.map (fun old =>
      if old.uri = from_.canonical then ⟨to_.canonical,old.version,{ old.entry with uri := to_ }⟩ else old) } := by
  unfold renameVersions at h
  split at h
  · cases h
  · rename_i hn
    refine ⟨?_,(Except.ok.inj h).symm⟩
    by_cases hs : from_.canonical = to_.canonical
    · exact .inl hs
    · refine .inr (fun old ho other ht he => hn ⟨hs,?_⟩)
      exact List.any_eq_true.mpr ⟨old,ho,List.any_eq_true.mpr ⟨other,ht,by simpa using he⟩⟩

theorem renameRelations_frame (from_ to_ : ContextUri) : (st.renameRelations from_ to_).entries = st.entries ∧
    (st.renameRelations from_ to_).versions = st.versions ∧ (st.renameRelations from_ to_).outbox = st.outbox := by
  unfold renameRelations
  dsimp only
  split <;> exact ⟨rfl,rfl,rfl⟩

theorem renameRelations_congr {st' : SqliteTables} (he : st'.relations = st.relations)
    (hr : st'.revisions = st.revisions) (from_ to_ : ContextUri) :
    (st'.renameRelations from_ to_).relations = (st.renameRelations from_ to_).relations ∧
      (st'.renameRelations from_ to_).revisions = (st.renameRelations from_ to_).revisions := by
  unfold renameRelations
  dsimp only
  rw [he]
  split
  · exact ⟨rfl,hr⟩
  · exact ⟨rfl,by simp only [bumpGraphRevision,hr]⟩

theorem rename_ok {u : Unit} (h : st.rename lib from_ to_ now = .ok (u, tx)) :
    ∃ row point, Renamed lib st from_ to_ now tx row point := by
  unfold rename at h
  split at h
  · cases h
  · rename_i ht
    split at h
    · cases h
    · rename_i row ho
      dsimp only at h
      split at h
      · cases h
      · rename_i ha
        obtain ⟨moved,hm,h⟩ := bind_eq_ok.mp h
        obtain ⟨point,hp,h⟩ := bind_eq_ok.mp h
        obtain ⟨-,rfl⟩ := Prod.mk.inj (Except.ok.inj h)
        obtain ⟨hap,rfl⟩ := renameVersions_ok hm
        obtain ⟨he,hv,hu⟩ := @renameRelations_frame
          { st with
            entries := (st.entries.erase from_.canonical).insert to_.canonical
              ⟨{ row.entry with uri := to_, updatedAt := now },row.version,row.custom⟩
            versions := st.versions.map (fun old =>
              if old.uri = from_.canonical then ⟨to_.canonical,old.version,{ old.entry with uri := to_ }⟩
                else old) } from_ to_
        obtain ⟨hr,hre⟩ := @renameRelations_congr st
          { st with
            entries := (st.entries.erase from_.canonical).insert to_.canonical
              ⟨{ row.entry with uri := to_, updatedAt := now },row.version,row.custom⟩
            versions := st.versions.map (fun old =>
              if old.uri = from_.canonical then ⟨to_.canonical,old.version,{ old.entry with uri := to_ }⟩ else old) }
          rfl rfl from_ to_
        refine ⟨row,point,not_not.mp ht,ho,?_,hap,hp,he,hv,hr,hre,?_⟩
        · by_cases hs : from_.canonical = to_.canonical
          · exact .inl hs
          · exact .inr (fun hme => ha ⟨hs,hme⟩)
        · simp only [enqueue,hu]
          rfl

structure Deleted (st : SqliteTables) (uri : ContextUri) (now : DateTime) (tx : SqliteTables) : Prop where
  live : uri.canonical ∈ st.entries
  entries : tx.entries = st.entries.erase uri.canonical
  versions : tx.versions = st.versions.filter (fun row => row.uri ≠ uri.canonical)
  outbox : tx.outbox = (st.enqueue (.delete (st.deletedCollection uri) uri) now).outbox
  relations : tx.relations = st.relations.filter (fun edge => !(edge.touches uri.canonical))
  revisions : tx.revisions =
    if st.relations.any (Edge.touches uri.canonical) then (st.bumpGraphRevision uri.tenant).revisions else st.revisions

theorem delete_ok {uri : ContextUri} {u : Unit} (h : st.delete uri now = .ok (u, tx)) : Deleted st uri now tx := by
  unfold delete at h
  split at h
  · cases h
  · rename_i hl
    obtain ⟨-,rfl⟩ := Prod.mk.inj (Except.ok.inj h)
    have hg : ∀ (graphChanged : Bool) (inner : SqliteTables),
        (if graphChanged then inner.bumpGraphRevision uri.tenant else inner).entries = inner.entries ∧
        (if graphChanged then inner.bumpGraphRevision uri.tenant else inner).versions = inner.versions ∧
        (if graphChanged then inner.bumpGraphRevision uri.tenant else inner).outbox = inner.outbox ∧
        (if graphChanged then inner.bumpGraphRevision uri.tenant else inner).relations = inner.relations ∧
        (if graphChanged then inner.bumpGraphRevision uri.tenant else inner).revisions =
          if graphChanged then (inner.bumpGraphRevision uri.tenant).revisions else inner.revisions := by
      intro graphChanged inner
      cases graphChanged <;> exact ⟨rfl,rfl,rfl,rfl,rfl⟩
    obtain ⟨he,hv,ho,hr,hre⟩ := hg _ _
    exact ⟨not_not.mp hl,he,hv,ho,hr,hre⟩

theorem rollback_ok {uri : ContextUri} {to_ : MvccVersion} {u : Unit}
    (h : st.rollback lib uri to_ now = .ok (u, tx)) :
    ∃ row version inner chg, st.versions.find? (fun row => row.uri = uri.canonical && row.version = to_) = some row ∧
      uri.canonical ∈ st.entries ∧ st.writeInTx lib { row.entry with uri := uri } now = .ok (version, inner) ∧
      upsertMutation lib { row.entry with uri := uri } version = .ok chg ∧
        tx = inner.enqueueAny chg now := by
  unfold rollback at h
  split at h
  · cases h
  · split at h
    · cases h
    · rename_i row hf
      dsimp only at h
      split at h
      · cases h
      · rename_i hl
        obtain ⟨⟨version,inner⟩,hi,h⟩ := bind_eq_ok.mp h
        obtain ⟨chg,hm,h⟩ := bind_eq_ok.mp h
        obtain ⟨-,rfl⟩ := Prod.mk.inj (Except.ok.inj h)
        exact ⟨row,version,inner,chg,hf,not_not.mp hl,hi,hm,rfl⟩

theorem enqueueAny_frame (chg : Option IndexMutation) (now : DateTime) :
    (st.enqueueAny chg now).entries = st.entries ∧ (st.enqueueAny chg now).versions = st.versions ∧
      (st.enqueueAny chg now).relations = st.relations ∧ (st.enqueueAny chg now).revisions = st.revisions := by
  cases chg <;> exact ⟨rfl,rfl,rfl,rfl⟩

theorem enqueueAll_frame (rows : List PreparedBatchRow) (now : DateTime) (st : SqliteTables) :
    (rows.foldl (fun tx row => tx.enqueueAny row.mutation now) st).entries = st.entries ∧
      (rows.foldl (fun tx row => tx.enqueueAny row.mutation now) st).versions = st.versions ∧
      (rows.foldl (fun tx row => tx.enqueueAny row.mutation now) st).relations = st.relations ∧
      (rows.foldl (fun tx row => tx.enqueueAny row.mutation now) st).revisions = st.revisions := by
  induction rows generalizing st with
  | nil => exact ⟨rfl,rfl,rfl,rfl⟩
  | cons row rows ih =>
    obtain ⟨he,hv,hr,hre⟩ := @enqueueAny_frame st row.mutation now
    obtain ⟨he',hv',hr',hre'⟩ := ih (st.enqueueAny row.mutation now)
    exact ⟨he'.trans he,hv'.trans hv,hr'.trans hr,hre'.trans hre⟩

def PreparedBatchRow.versionRow (row : PreparedBatchRow) : VersionRow := ⟨row.uri, row.version, row.entry⟩

/-- The row of `context_entries` that a batch makes of a row. -/
def PreparedBatchRow.currentRow (libraries : StoreLibraries) (row : PreparedBatchRow) : CurrentRow :=
  ⟨row.entry, row.version, (batchCustom libraries row.entry.metadata.custom).toOption.getD row.entry.metadata.custom⟩

theorem insertCurrent_ok {entries entries' : Std.ExtTreeMap String CurrentRow} {row : PreparedBatchRow}
    (h : insertCurrent lib entries row = .ok entries') :
    entries' = if row.isCurrent then entries.insert row.uri (row.currentRow lib) else entries := by
  unfold insertCurrent at h
  split at h
  · rename_i hc
    obtain ⟨custom,hu,rfl⟩ := StateMachine.map_eq_ok.mp h
    rw [if_pos hc,PreparedBatchRow.currentRow,hu]
    rfl
  · rename_i hc
    rw [if_neg hc,Except.ok.inj h]

theorem insertVersions_ok {rows : List PreparedBatchRow}
    (h : rows.foldlM (fun tx row => tx.insertVersion row.uri row.version row.entry) st = .ok tx) :
    tx = { st with versions := st.versions++rows.map PreparedBatchRow.versionRow } := by
  induction rows generalizing st with
  | nil =>
    cases h
    simp
  | cons row rows ih =>
    rw [List.foldlM_cons] at h
    obtain ⟨next,hn,h⟩ := bind_eq_ok.mp h
    obtain ⟨-,rfl⟩ := insertVersion_ok hn
    rw [ih h]
    simp [PreparedBatchRow.versionRow]

structure ChunkWritten (libraries : StoreLibraries) (st : SqliteTables) (now : DateTime) (chunk : List ContextEntry)
    (versions : List MvccVersion) (tx : SqliteTables) (rows : List PreparedBatchRow) : Prop where
  fits : chunk.length ≤ libraries.variableLimit
  prepared : prepareBatchChunk libraries now (st.baseVersions chunk) chunk = .ok rows
  returned : versions = rows.map (·.version)
  entries : rows.foldlM (insertCurrent libraries) st.entries = .ok tx.entries
  versions_eq : tx.versions = st.versions ++ rows.map PreparedBatchRow.versionRow
  relations : tx.relations = st.relations
  revisions : tx.revisions = st.revisions

theorem readBatchVersions_ok {base : Std.ExtTreeMap String MvccVersion}
    (h : st.readBatchVersions lib chunk = .ok base) :
    chunk.length ≤ lib.variableLimit ∧ base = st.baseVersions chunk := by
  unfold readBatchVersions at h
  split at h
  · cases h
  · rename_i hf
    exact ⟨Nat.le_of_not_lt hf,(Except.ok.inj h).symm⟩

theorem writeChunk_ok (h : st.writeChunk lib now chunk = .ok (versions, tx)) :
    ∃ rows, ChunkWritten lib st now chunk versions tx rows := by
  unfold writeChunk at h
  obtain ⟨base,hb,h⟩ := bind_eq_ok.mp h
  obtain ⟨rows,hr,h⟩ := bind_eq_ok.mp h
  obtain ⟨entries,he,h⟩ := bind_eq_ok.mp h
  obtain ⟨inserted,hi,h⟩ := bind_eq_ok.mp h
  obtain ⟨rfl,rfl⟩ := Prod.mk.inj (Except.ok.inj h)
  obtain rfl := insertVersions_ok hi
  obtain ⟨hc,hv,hl,hre⟩ := enqueueAll_frame rows now
    { st with
      entries := entries
      versions := st.versions++rows.map PreparedBatchRow.versionRow }
  obtain ⟨hf,rfl⟩ := readBatchVersions_ok hb
  exact ⟨rows,hf,hr,rfl,he.trans (congrArg _ hc.symm),hv,hl,hre⟩

theorem mem_of_chunks {cfg : BatchWriteConfig} {parts : List (List ContextEntry)} (h : chunks lib cfg entries = .ok parts) :
    ∀ part ∈ parts, ∀ entry ∈ part, entry ∈ entries := by
  have hf : ∀ fuel entries, ∀ part ∈ chunksFrom lib cfg fuel entries, ∀ entry ∈ part, entry ∈ entries := by
    intro fuel
    induction fuel with
    | zero => simp [chunksFrom]
    | succ fuel ih =>
      intro entries part hp entry he
      cases entries with
      | nil => simp [chunksFrom] at hp
      | cons first rest =>
        simp only [chunksFrom,List.mem_cons] at hp
        rcases hp with rfl | hp
        · exact List.mem_of_mem_take he
        · exact List.mem_of_mem_drop (ih _ part hp entry he)
  unfold chunks at h
  split at h
  · cases h
  · cases h
    exact hf entries.length entries

theorem batchWrite_preserves {cfg : BatchWriteConfig} {P : SqliteTables → Prop}
    (hc : ∀ st chunk versions tx, (∀ entry ∈ chunk, entry ∈ entries) → P st →
      writeChunk lib st now chunk = .ok (versions, tx) → P tx) (hs : P st)
    (h : st.batchWrite lib cfg entries now = .ok (versions, tx)) : P tx := by
  unfold batchWrite at h
  split at h
  · cases h
    exact hs
  · obtain ⟨parts,hp,h⟩ := bind_eq_ok.mp h
    have ht : ∀ written : List MvccVersion × SqliteTables, ∀ chunk ∈ parts, ∀ written', P written.2 →
        (do let (versions, tx) ← writeChunk lib written.2 now chunk
            return (written.1++versions, tx) : Except ContextError (List MvccVersion × SqliteTables)) = .ok written' →
          P written'.2 := by
      intro written chunk hm written' hw he
      obtain ⟨⟨chunkVersions,next⟩,hn,he⟩ := bind_eq_ok.mp he
      cases he
      exact hc written.2 chunk chunkVersions next (mem_of_chunks hp chunk hm) hw hn
    exact StateMachine.foldlM_preserves (P := fun written => P written.2) ht hs h

end Specs

section Steps

inductive Op
  | write (entry : ContextEntry) (now : DateTime)
  | batchWrite (entries : List ContextEntry) (now : DateTime)
  | delete (uri : ContextUri) (now : DateTime)
  | rename (from_ to_ : ContextUri) (now : DateTime)
  | rollback (uri : ContextUri) (to_ : MvccVersion) (now : DateTime)
  | addEdge (from_ to_ : ContextUri) (kind : GraphRelation)
  | removeEdge (from_ to_ : ContextUri)

variable (config : BatchWriteConfig)

def commit : Op → Except ContextError SqliteTables
  | .write entry now => (st.write libraries entry now).map Prod.snd
  | .batchWrite entries now => (st.batchWrite libraries config entries now).map Prod.snd
  | .delete uri now => (st.delete uri now).map Prod.snd
  | .rename from_ to_ now => (st.rename libraries from_ to_ now).map Prod.snd
  | .rollback uri to_ now => (st.rollback libraries uri to_ now).map Prod.snd
  | .addEdge from_ to_ kind => .ok (st.addEdge from_ to_ kind)
  | .removeEdge from_ to_ => .ok (st.removeEdge from_ to_)

def step (op : Op) : SqliteTables := (st.commit libraries config op).toOption.getD st

variable {libraries lib config st}

theorem step_of_ok {op : Op} {tx : SqliteTables} (h : st.commit lib config op = .ok tx) :
    st.step lib config op = tx := by
  rw [step,h]
  rfl

theorem step_of_error {op : Op} {e : ContextError} (h : st.commit lib config op = .error e) :
    st.step lib config op = st := by
  rw [step,h]
  rfl

end Steps

end SqliteTables

end UwuContextDb.Content
