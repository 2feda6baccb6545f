import UwuContextDb.Content.StoredRows
import UwuContextDb.Library.Calls

/-! The lifecycle journal, the cold storage, and the calls that the executor makes to them and to its backends. -/

namespace UwuContextDb.Lifecycle

open Content (GraphRelation IndexPoint SqliteTables StoreLibraries)
open Retrieve (Page PageRequest)

inductive LifecycleJobState | pending | running | retryable | succeeded | permanentlyFailed deriving DecidableEq

inductive LifecycleOperation | archive | delete | coldStorage deriving DecidableEq

/-- The derived `Debug`. -/
def LifecycleOperation.debugText : LifecycleOperation → String
  | .archive => "Archive"
  | .delete => "Delete"
  | .coldStorage => "ColdStorage"

structure LifecycleCheckpoint where
  manifest : Bool
  vector : Bool
  graph : Bool
  content : Bool
  blobs : Bool
  deriving DecidableEq

/-- `LifecycleCheckpoint::default()`. -/
def LifecycleCheckpoint.none : LifecycleCheckpoint := ⟨false, false, false, false, false⟩

structure LifecycleAudit where
  at_ : DateTime
  state : LifecycleJobState
  message : String
  deriving DecidableEq

structure LifecycleJob where
  id : Uuid
  idempotencyKey : String
  uri : ContextUri
  operation : LifecycleOperation
  state : LifecycleJobState
  attempts : ℕ
  maxAttempts : ℕ
  nextAttemptAt : DateTime
  checkpoint : LifecycleCheckpoint
  lastError : Option String
  audit : List LifecycleAudit
  revision : ℕ
  leaseOwner : Option Uuid
  leaseUntil : Option DateTime
  restoreCheckpoint : LifecycleCheckpoint
  deriving DecidableEq

structure ArchiveManifest where
  jobId : Uuid
  entry : ContextEntry
  blobs : List (BlobRef × List ℕ)
  edges : List (ContextUri × ContextUri × GraphRelation)
  vector : Option IndexPoint
  createdAt : DateTime
  deriving DecidableEq

/-- What the executor works on. The graph, the vectors and the blobs are kept as the ports of its tests keep them; a blob
has its hash as its key, and a manifest the key of its job. -/
structure Stores where
  clock : DateTime
  journal : Std.ExtTreeMap String LifecycleJob
  content : SqliteTables
  edges : List (ContextUri × ContextUri × GraphRelation)
  points : Std.ExtTreeMap String IndexPoint
  blobs : Std.ExtTreeMap String (BlobRef × List ℕ)
  cold : Std.ExtTreeMap String ArchiveManifest

inductive Call
  | now
  | upsert (job : LifecycleJob)
  | update (job : LifecycleJob)
  | claim (key : String) (owner : Uuid) (now : DateTime)
  | recoverable (now : DateTime)
  | getJob (key : String)
  | scanByPrefix (uriPrefix : String) (page : PageRequest)
  | write (entry : ContextEntry)
  | delete (uri : ContextUri)
  | edgesFor (uri : ContextUri)
  | addEdge (from_ to_ : ContextUri) (kind : GraphRelation)
  | removeEdge (from_ to_ : ContextUri)
  | getPoint (uri : ContextUri)
  | upsertPoint (point : IndexPoint)
  | deletePoint (uri : ContextUri)
  | getBlob (blob : BlobRef)
  | putBlob (data : List ℕ) (mimeType : String)
  | deleteBlob (blob : BlobRef)
  | putManifest (key : String) (manifest : ArchiveManifest)
  | getManifest (key : String)

def Call.Reply : Call → Type
  | .now => DateTime
  | .upsert _ => Except ContextError LifecycleJob
  | .update _ => Except ContextError Unit × LifecycleJob
  | .claim .. => Except ContextError (Option LifecycleJob)
  | .recoverable _ => List LifecycleJob
  | .getJob _ => Option LifecycleJob
  | .scanByPrefix .. => Except ContextError (Page ContextEntry)
  | .write _ => Except ContextError MvccVersion
  | .delete _ => Except ContextError Unit
  | .edgesFor _ => Except ContextError (List (ContextUri × ContextUri × GraphRelation))
  | .addEdge .. => Except ContextError Unit
  | .removeEdge .. => Except ContextError Unit
  | .getPoint _ => Except ContextError (Option IndexPoint)
  | .upsertPoint _ => Except ContextError Unit
  | .deletePoint _ => Except ContextError Unit
  | .getBlob _ => Except ContextError (List ℕ)
  | .putBlob .. => Except ContextError BlobRef
  | .deleteBlob _ => Except ContextError Unit
  | .putManifest .. => Except ContextError Unit
  | .getManifest _ => Except ContextError ArchiveManifest

/-- The circumstances of a call: the reading of the clock, an error that keeps the call from doing anything, and one that
keeps the journal's new file from being put in its place. -/
structure Circumstances where
  now : DateTime
  fault : Option ContextError
  unwritten : Option ContextError

section Journal

/-- `j.state` is one that is never left. -/
def LifecycleJobState.final : LifecycleJobState → Bool
  | .succeeded | .permanentlyFailed => true
  | _ => false

def seconds (n : ℕ) : Int := n * 10 ^ 9

/-- The condition on which `claim` gives a job out. -/
def LifecycleJob.claimable (job : LifecycleJob) (now : DateTime) : Bool :=
  decide (job.nextAttemptAt ≤ now) && !job.state.final && job.leaseUntil.all (fun until_ => decide (until_ ≤ now))

def LifecycleJob.leased (job : LifecycleJob) (owner : Uuid) (now : DateTime) : LifecycleJob :=
  { job with leaseOwner := some owner, leaseUntil := some (now + seconds 30), revision := job.revision + 1 }

variable (journal : Std.ExtTreeMap String LifecycleJob)

/-- `FileLifecycleJournal::upsert`, but for the writing of the file. -/
def upsertIn (job : LifecycleJob) : LifecycleJob × Std.ExtTreeMap String LifecycleJob :=
  match journal[job.idempotencyKey]? with
  | some existing => (existing, journal)
  | none => (job, journal.insert job.idempotencyKey job)

/-- `FileLifecycleJournal::update`, but for the writing of the file: the job with its new revision. -/
def updateIn (job : LifecycleJob) : Except ContextError (LifecycleJob × Std.ExtTreeMap String LifecycleJob) :=
  match journal[job.idempotencyKey]? with
  | none => .error (.notFound job.idempotencyKey)
  | some current =>
    if current.revision ≠ job.revision then
      .error (.versionConflict s!"stale lifecycle revision for {job.idempotencyKey}")
    else
      let job := { job with revision := job.revision + 1 }
      .ok (job, journal.insert job.idempotencyKey job)

/-- `FileLifecycleJournal::claim`, but for the writing of the file. -/
def claimIn (key : String) (owner : Uuid) (now : DateTime) :
    Option LifecycleJob × Std.ExtTreeMap String LifecycleJob :=
  match journal[key]? with
  | none => (none, journal)
  | some job => if job.claimable now then (some (job.leased owner now), journal.insert key (job.leased owner now)) else (none, journal)

/-- `FileLifecycleJournal::recoverable`. -/
def recoverableIn (now : DateTime) : List LifecycleJob :=
  (journal.toList.map Prod.snd).filter (fun job => job.claimable now)

end Journal

section Exec

variable (libraries : StoreLibraries) (blake3 : List ℕ → ContentHash)

def exec (c : Call) (t : Circumstances) (before : Stores) : c.Reply × Stores :=
  let w := { before with clock := max before.clock t.now }
  match c, t.fault with
  | .now, _ => (w.clock, w)
  | .recoverable now, none => (recoverableIn w.journal now, w)
  | .recoverable _, some _ => ([], w)
  | .getJob key, none => (w.journal[key]?, w)
  | .getJob _, some _ => (none, w)
  | .upsert _, some e => (.error e, w)
  | .upsert job, none =>
    match t.unwritten with
    | some e => (.error e, w)
    | none => (.ok (upsertIn w.journal job).1, { w with journal := (upsertIn w.journal job).2 })
  | .update job, some e => ((.error e, job), w)
  | .update job, none =>
    match updateIn w.journal job with
    | .error e => ((.error e, job), w)
    | .ok (job', journal) =>
      match t.unwritten with
      | some e => ((.error e, job'), w)
      | none => ((.ok (), job'), { w with journal := journal })
  | .claim .., some e => (.error e, w)
  | .claim key owner now, none =>
    match t.unwritten with
    | some e => (.error e, w)
    | none => (.ok (claimIn w.journal key owner now).1, { w with journal := (claimIn w.journal key owner now).2 })
  | .scanByPrefix .., some e => (.error e, w)
  | .scanByPrefix uriPrefix page, none => (w.content.scanByPrefix uriPrefix page, w)
  | .write _, some e => (.error e, w)
  | .write entry, none =>
    match w.content.write libraries entry w.clock with
    | .error e => (.error e, w)
    | .ok (version, content) => (.ok version, { w with content := content })
  | .delete _, some e => (.error e, w)
  | .delete uri, none =>
    match w.content.delete uri w.clock with
    | .error e => (.error e, w)
    | .ok (_, content) => (.ok (), { w with content := content })
  | .edgesFor _, some e => (.error e, w)
  | .edgesFor uri, none => (.ok (w.edges.filter (fun edge => edge.1 = uri ∨ edge.2.1 = uri)), w)
  | .addEdge .., some e => (.error e, w)
  | .addEdge from_ to_ kind, none =>
    (.ok (), { w with edges := if (from_, to_, kind) ∈ w.edges then w.edges else w.edges ++ [(from_, to_, kind)] })
  | .removeEdge .., some e => (.error e, w)
  | .removeEdge from_ to_, none =>
    (.ok (), { w with edges := w.edges.filter (fun edge => edge.1 ≠ from_ ∨ edge.2.1 ≠ to_) })
  | .getPoint _, some e => (.error e, w)
  | .getPoint uri, none => (.ok w.points[uri.canonical]?, w)
  | .upsertPoint _, some e => (.error e, w)
  | .upsertPoint point, none => (.ok (), { w with points := w.points.insert point.uri.canonical point })
  | .deletePoint _, some e => (.error e, w)
  | .deletePoint uri, none => (.ok (), { w with points := w.points.erase uri.canonical })
  | .getBlob _, some e => (.error e, w)
  | .getBlob blob, none =>
    match w.blobs[blob.hash]? with
    | some (_, data) => (.ok data, w)
    | none => (.error (.notFound blob.hash), w)
  | .putBlob .., some e => (.error e, w)
  | .putBlob data mimeType, none =>
    let blob : BlobRef := ⟨blake3 data, data.length, mimeType⟩
    (.ok blob, { w with blobs := w.blobs.insert blob.hash (blob, data) })
  | .deleteBlob _, some e => (.error e, w)
  | .deleteBlob blob, none => (.ok (), { w with blobs := w.blobs.erase blob.hash })
  | .putManifest .., some e => (.error e, w)
  | .putManifest key manifest, none =>
    match w.cold[key]? with
    | some existing =>
      if existing = manifest then (.ok (), w) else (.error (.versionConflict s!"cold manifest key collision: {key}"), w)
    | none => (.ok (), { w with cold := w.cold.insert key manifest })
  | .getManifest _, some e => (.error e, w)
  | .getManifest key, none =>
    match w.cold[key]? with
    | some manifest => (.ok manifest, w)
    | none => (.error (.storage "IO: No such file or directory (os error 2)"), w)

end Exec

end UwuContextDb.Lifecycle
