import UwuContextDb.Lifecycle.Model

/-! `LifecycleActionExecutor`: the programs of submission, execution and restoration. -/

namespace UwuContextDb.Lifecycle

open Content (GraphRelation IndexPoint)
open Retrieve (Page PageRequest errorText)

inductive LifecycleAction
  | keep
  | downgrade (toLevel : ContentLevel)
  | archive
  | consolidate
  | delete
  | freeze

abbrev Program := Prog Call Call.Reply

/-- A program that may fail, as one with `?` does. -/
abbrev Fallible := ExceptT ContextError Program

def Call.ask (c : Call) : Program c.Reply := Prog.ask c

def now : Program DateTime := Call.now.ask

def update (job : LifecycleJob) : Program (Except ContextError Unit × LifecycleJob) := (Call.update job).ask

def claim (key : String) (owner : Uuid) (now : DateTime) : Fallible (Option LifecycleJob) :=
  ExceptT.mk (Call.claim key owner now).ask

def scanByPrefix (uriPrefix : String) (page : PageRequest) : Fallible (Page ContextEntry) :=
  ExceptT.mk (Call.scanByPrefix uriPrefix page).ask

def write (entry : ContextEntry) : Fallible MvccVersion := ExceptT.mk (Call.write entry).ask

def delete (uri : ContextUri) : Fallible Unit := ExceptT.mk (Call.delete uri).ask

def edgesFor (uri : ContextUri) : Fallible (List (ContextUri × ContextUri × GraphRelation)) :=
  ExceptT.mk (Call.edgesFor uri).ask

def addEdge (from_ to_ : ContextUri) (kind : GraphRelation) : Fallible Unit := ExceptT.mk (Call.addEdge from_ to_ kind).ask

def removeEdge (from_ to_ : ContextUri) : Fallible Unit := ExceptT.mk (Call.removeEdge from_ to_).ask

def getPoint (uri : ContextUri) : Fallible (Option IndexPoint) := ExceptT.mk (Call.getPoint uri).ask

def upsertPoint (point : IndexPoint) : Fallible Unit := ExceptT.mk (Call.upsertPoint point).ask

def deletePoint (uri : ContextUri) : Fallible Unit := ExceptT.mk (Call.deletePoint uri).ask

def getBlob (blob : BlobRef) : Fallible (List ℕ) := ExceptT.mk (Call.getBlob blob).ask

def putBlob (data : List ℕ) (mimeType : String) : Fallible BlobRef := ExceptT.mk (Call.putBlob data mimeType).ask

def deleteBlob (blob : BlobRef) : Fallible Unit := ExceptT.mk (Call.deleteBlob blob).ask

def putManifest (key : String) (manifest : ArchiveManifest) : Fallible Unit :=
  ExceptT.mk (Call.putManifest key manifest).ask

def getManifest (key : String) : Fallible ArchiveManifest := ExceptT.mk (Call.getManifest key).ask

mutual
def collectBlobs : ContentPayload → List BlobRef
  | .image _ _ raw | .audio _ _ raw => [raw]
  | .structured _ (some schema) _ => schema.blob.toList
  | .composite _ parts => collectPartBlobs parts
  | _ => []

def collectPartBlobs : List ContentPart → List BlobRef
  | [] => []
  | .text p :: parts | .image p :: parts | .audio p :: parts => collectBlobs p ++ collectPartBlobs parts
  | .reference _ :: parts => collectPartBlobs parts
end

def readEntry (uri : ContextUri) : Fallible ContextEntry := do
  let page ← scanByPrefix uri.canonical (.new 1)
  match page.items.find? (fun e => e.uri = uri) with
  | some entry => return entry
  | none => throw (.notFound uri.canonical)

/-- What `read_entry` makes of the page it reads. -/
def entryOn (uri : ContextUri) (page : Page ContextEntry) : Fallible ContextEntry :=
  match page.items.find? (fun e => e.uri = uri) with
  | some entry => return entry
  | none => throw (.notFound uri.canonical)

abbrev OnJob := LifecycleJob → Program (Except ContextError Unit × LifecycleJob)

/-- `?` between two parts of `execute_phases`. -/
def OnJob.andThen (first second : OnJob) : OnJob := fun job => do
  let (result, job) ← first job
  match result with
  | .ok () => second job
  | .error e => return (.error e, job)

def phase (isSet : LifecycleCheckpoint → Bool) (set : LifecycleCheckpoint → LifecycleCheckpoint)
    (work : LifecycleJob → Fallible Unit) : OnJob := fun job =>
  if isSet job.checkpoint then return (.ok (), job) else do
    match ← (work job).run with
    | .ok () => update { job with checkpoint := set job.checkpoint }
    | .error e => return (.error e, job)

def manifestWork (job : LifecycleJob) : Fallible Unit := do
  let entry ← readEntry job.uri
  let blobData ← (collectBlobs entry.payload).mapM (fun b => do return (b, ← getBlob b))
  let edges ← edgesFor job.uri
  let vector ← getPoint job.uri
  let createdAt ← ExceptT.lift now
  putManifest job.idempotencyKey ⟨job.id, entry, blobData, edges, vector, createdAt⟩

def graphWork (job : LifecycleJob) : Fallible Unit := do
  let manifest ← getManifest job.idempotencyKey
  manifest.edges.forM (fun edge => removeEdge edge.1 edge.2.1)

def blobsWork (job : LifecycleJob) : Fallible Unit := do
  let manifest ← getManifest job.idempotencyKey
  manifest.blobs.forM (fun blob => deleteBlob blob.1)

def manifestPhase : OnJob := phase (·.manifest) (fun c => { c with manifest := true }) manifestWork

def vectorPhase : OnJob := phase (·.vector) (fun c => { c with vector := true }) (fun job => deletePoint job.uri)

def graphPhase : OnJob := phase (·.graph) (fun c => { c with graph := true }) graphWork

def contentPhase : OnJob := phase (·.content) (fun c => { c with content := true }) (fun job => delete job.uri)

def blobsPhase : OnJob := phase (·.blobs) (fun c => { c with blobs := true }) blobsWork

def executePhases : OnJob :=
  manifestPhase.andThen (vectorPhase.andThen (graphPhase.andThen (contentPhase.andThen blobsPhase)))

/-- `audit`, at the clock reading `at_`. -/
def LifecycleJob.audited (job : LifecycleJob) (at_ : DateTime) (message : String) : LifecycleJob :=
  { job with audit := job.audit ++ [⟨at_, job.state, message⟩] }

def concluded (result : Except ContextError Unit) (job : LifecycleJob) : Program LifecycleJob := do
  match result with
  | .ok () =>
    let job := { job with state := .succeeded, lastError := none }
    let job := job.audited (← now) "all references committed"
    return { job with leaseOwner := none, leaseUntil := none }
  | .error e =>
    let job := { job with
      lastError := some (errorText e)
      state := if job.maxAttempts ≤ job.attempts then .permanentlyFailed else .retryable }
    let job := { job with nextAttemptAt := (← now) + seconds (2 ^ min job.attempts 10) }
    let job := job.audited (← now) s!"execution failed: {errorText e}"
    return { job with leaseOwner := none, leaseUntil := none }

def execute (job : LifecycleJob) : Fallible LifecycleJob := do
  let job := { job with state := .running, attempts := job.attempts + 1 }
  let job := job.audited (← ExceptT.lift now) "attempt started"
  match ← ExceptT.lift (update job) with
  | (.error e, _) => throw e
  | (.ok (), job) =>
    let (result, job) ← ExceptT.lift (executePhases job)
    let job ← ExceptT.lift (concluded result job)
    match ← ExceptT.lift (update job) with
    | (.error e, _) => throw e
    | (.ok (), job) => return job

/-- One round of `run_pending`: nothing where the claim is not granted. -/
def attempt (key : String) (owner : Uuid) : Fallible (Option LifecycleJob) := do
  match ← claim key owner (← ExceptT.lift now) with
  | some current => return some (← execute current)
  | none => return none

/-- `run_pending`, under the owner it has drawn. -/
def runPending (owner : Uuid) : Fallible (List LifecycleJob) := do
  let jobs ← ExceptT.lift (Call.recoverable (← ExceptT.lift now)).ask
  let out ← jobs.mapM (fun job => attempt job.idempotencyKey owner)
  return out.reduceOption

def operationOf : LifecycleAction → Option LifecycleOperation
  | .archive => some .archive
  | .delete => some .delete
  | .downgrade .l0 | .downgrade .l1 => some .coldStorage
  | _ => none

/-- The job that `submit` makes, with an id that it has drawn. -/
def newJob (id : Uuid) (uri : ContextUri) (operation : LifecycleOperation) (now : DateTime) : LifecycleJob :=
  ⟨id, s!"{uri.canonical}:{operation.debugText}", uri, operation, .pending, 0, 5, now, .none, none,
    [⟨now, .pending, "accepted"⟩], 0, none, none, .none⟩

def submit (id : Uuid) (uri : ContextUri) (action : LifecycleAction) : Fallible LifecycleJob := do
  match operationOf action with
  | none => throw (.unsupported "lifecycle action has no destructive execution")
  | some operation => ExceptT.mk (Call.upsert (newJob id uri operation (← ExceptT.lift now))).ask

/-- One phase of `restore`: its work and then its checkpoint, unless the checkpoint is set. -/
def restorePhase (isSet : LifecycleCheckpoint → Bool) (set : LifecycleCheckpoint → LifecycleCheckpoint)
    (work : Fallible Unit) (job : LifecycleJob) : Fallible LifecycleJob :=
  if isSet job.restoreCheckpoint then return job else do
    work
    match ← ExceptT.lift (update { job with restoreCheckpoint := set job.restoreCheckpoint }) with
    | (.ok (), job) => return job
    | (.error e, _) => throw e

def restoreBlob (blob : BlobRef × List ℕ) : Fallible Unit := do
  let written ← putBlob blob.2 blob.1.mimeType
  if written.hash ≠ blob.1.hash then throw (.storage "restored blob hash mismatch")

/-- What `restore` does with the entry, from what `read_entry` gave. -/
def restoreEntry (entry : ContextEntry) : Except ContextError ContextEntry → Fallible Unit
  | .ok existing =>
    if existing ≠ entry then throw (.versionConflict s!"hot entry changed since cold snapshot: {entry.uri.canonical}")
      else return ()
  | .error (.notFound _) => do
    let _ ← write entry
    return ()
  | .error e => throw e

/-- The phases of `restore`. -/
def restorePhases (m : ArchiveManifest) (job : LifecycleJob) : Fallible Unit := do
  let job ← restorePhase (·.blobs) (fun c => { c with blobs := true }) (m.blobs.forM restoreBlob) job
  let job ← restorePhase (·.content) (fun c => { c with content := true })
    (do restoreEntry m.entry (← ExceptT.lift (readEntry m.entry.uri).run)) job
  let job ← restorePhase (·.graph) (fun c => { c with graph := true })
    (m.edges.forM (fun edge => addEdge edge.1 edge.2.1 edge.2.2)) job
  let _ ← restorePhase (·.vector) (fun c => { c with vector := true }) (m.vector.toList.forM upsertPoint) job
  return ()

/-- `restore` once no incomplete job stands in its way. -/
def restoreFrom (key : String) (m : ArchiveManifest) : Fallible Unit := do
  match ← ExceptT.lift (Call.getJob key).ask with
  | none => throw (.notFound key)
  | some job => restorePhases m job

def restore (key : String) : Fallible Unit := do
  let m ← getManifest key
  match ← ExceptT.lift (Call.getJob key).ask with
  | some job =>
    if job.state ≠ .succeeded then throw (.versionConflict s!"cannot restore incomplete lifecycle job {key}")
    else restoreFrom key m
  | none => restoreFrom key m

end UwuContextDb.Lifecycle
