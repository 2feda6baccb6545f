import UwuContextDb.Library.Calls
import UwuContextDb.Retrieve.Operators

/-! `SessionCompressorImpl`: the programs that queue and run the compression of a session, over a store that may fail. -/

namespace UwuContextDb.Session

open Retrieve (errorText)

abbrev CommitTaskId := Uuid

/-- The parts of a session that its compression reads; messages are those `serde_json` prints. -/
structure SessionHandle where
  sessionId : Uuid
  messages : List Json
  compressionIndex : ℕ
  archiveDir : ContextUri

structure FailureMetadata where
  message : String
  attempt : ℕ
  failedAt : DateTime
  retryable : Bool
  deriving DecidableEq

structure DoneMarker where
  taskId : CommitTaskId
  finishedAt : DateTime
  abstractUri : ContextUri
  overviewUri : ContextUri
  memoryDiffUri : ContextUri
  deriving DecidableEq

inductive TaskStatus
  | pending
  | processing (attempt : ℕ) (startedAt : DateTime)
  | done (marker : DoneMarker)
  | failed (failure : FailureMetadata)
  deriving DecidableEq

structure TaskRecord where
  taskId : CommitTaskId
  session : SessionHandle
  archiveUri : ContextUri
  status : TaskStatus
  attempt : ℕ
  createdAt : DateTime
  updatedAt : DateTime

structure MemoryChange where
  uri : ContextUri
  contentType : ContentType
  before : Option Json
  after : Option Json
  reason : String

structure MemoryDiff where
  adds : List MemoryChange
  updates : List MemoryChange
  deletes : List MemoryChange

structure MemoryCandidate where
  contentType : ContentType
  content : String
  sourceUri : ContextUri

inductive CandidateAction | skip | create | merge deriving DecidableEq

structure DedupDecision where
  candidate : MemoryCandidate
  action : CandidateAction
  mergeTarget : Option ContextUri
  reason : String

inductive Content
  | text (text : String)
  | record (record : TaskRecord)
  | diff (diff : MemoryDiff)
  | marker (marker : DoneMarker)

inductive Call
  | read (uri : ContextUri)
  | write (uri : ContextUri) (content : Content)
  | extract (archive : ContextUri)
  | deduplicate (candidates : List MemoryCandidate)
  | generateAbstract (uri : ContextUri)
  | aggregateUpward (root : ContextUri)
  | insertActive (id : CommitTaskId)
  | removeActive (id : CommitTaskId)
  | newUuid
  | now

abbrev Call.Reply : Call → Type
  | .read _ => Except ContextError Content
  | .write .. => Except ContextError Unit
  | .extract _ => Except ContextError (List MemoryCandidate)
  | .deduplicate _ => Except ContextError (List DedupDecision)
  | .generateAbstract _ | .aggregateUpward _ => Except ContextError String
  | .insertActive _ => Bool
  | .removeActive _ => Unit
  | .newUuid => Uuid
  | .now => DateTime

abbrev Program := Prog Call Call.Reply

/-- A program that may fail, as one with `?` does. -/
abbrev Fallible := ExceptT ContextError Program

def Call.ask (c : Call) : Program c.Reply := Prog.ask c

def now : Fallible DateTime := ExceptT.lift Call.now.ask

def read (uri : ContextUri) : Fallible Content := ExceptT.mk (Call.read uri).ask

def write (uri : ContextUri) (content : Content) : Fallible Unit := ExceptT.mk (Call.write uri content).ask

def extract (archive : ContextUri) : Fallible (List MemoryCandidate) := ExceptT.mk (Call.extract archive).ask

def deduplicate (candidates : List MemoryCandidate) : Fallible (List DedupDecision) :=
  ExceptT.mk (Call.deduplicate candidates).ask

def generateAbstract (uri : ContextUri) : Fallible String := ExceptT.mk (Call.generateAbstract uri).ask

def aggregateUpward (root : ContextUri) : Fallible String := ExceptT.mk (Call.aggregateUpward root).ask

def newUuid : Fallible Uuid := ExceptT.lift Call.newUuid.ask

def archiveFileUri (session : SessionHandle) : ContextUri :=
  (session.archiveDir.join session.compressionIndex.repr).join "messages.jsonl"

def stateUri (session : SessionHandle) (taskId : CommitTaskId) : ContextUri :=
  (session.archiveDir.join "tasks").join (Nat.repr taskId ++ ".json")

def diffUri (session : SessionHandle) : ContextUri :=
  (session.archiveDir.join session.compressionIndex.repr).join "memory_diff.json"

def doneUri (session : SessionHandle) : ContextUri := (session.archiveDir.join session.compressionIndex.repr).join ".done"

/-- What the compressor takes from its libraries: name-based UUIDs, and the messages as compressed and encoded JSON
lines. -/
structure Libraries where
  newV5 : String → Uuid
  encodeAll : List Json → Except ContextError String

section Programs

variable (libraries : Libraries) (session : SessionHandle)

def taskId : CommitTaskId :=
  libraries.newV5 (Nat.repr session.sessionId ++ ":" ++ session.compressionIndex.repr ++ ":" ++
    session.archiveDir.canonical)

def archivePayload : Except ContextError String := (libraries.encodeAll session.messages).map ("zstd+base64:" ++ ·)

def loadRecord (uri : ContextUri) : Fallible TaskRecord := do
  match ← read uri with
  | .record record => return record
  | _ => throw (.serialization "not a task record")

def saveRecord (record : TaskRecord) : Fallible Unit := write (stateUri record.session record.taskId) (.record record)

/-- The rest of `enqueue` where the record could not be loaded. -/
def createRecord : Fallible CommitTaskId := do
  let archive ← ExceptT.mk (pure (archivePayload libraries session))
  write (archiveFileUri session) (.text archive)
  let at_ ← now
  saveRecord ⟨taskId libraries session, session, archiveFileUri session, .pending, 0, at_, at_⟩
  return taskId libraries session

def enqueue : Fallible CommitTaskId := do
  match ← ExceptT.lift (loadRecord (stateUri session (taskId libraries session))).run with
  | .ok _ => return taskId libraries session
  | .error _ => createRecord libraries session

/-- One round of the loop of `execute_pipeline`. -/
def addDecision (diff : MemoryDiff) (decision : DedupDecision) : Fallible MemoryDiff := do
  match decision.action with
  | .create =>
    let targetUri := decision.candidate.sourceUri.join ("memories/" ++ Nat.repr (← newUuid))
    let abstractText ← generateAbstract targetUri
    return { diff with adds := diff.adds ++ [⟨targetUri, decision.candidate.contentType, none,
      some (.obj [("abstract", .str abstractText)]), decision.reason⟩] }
  | .merge =>
    match decision.mergeTarget with
    | none => throw (.storage "validated merge decision lost merge target")
    | some uri =>
      return { diff with updates := diff.updates ++ [⟨uri, decision.candidate.contentType, none,
        some (.obj [("merged", .bool true)]), decision.reason⟩] }
  | .skip => return diff

/-- `execute_pipeline` up to the overview. -/
def prepare (record : TaskRecord) : Fallible (MemoryDiff × ContextUri × String) := do
  let candidates ← extract record.archiveUri
  let decisions ← deduplicate candidates
  let diff ← decisions.foldlM addDecision ⟨[], [], []⟩
  match record.archiveUri.parent with
  | none => throw (.invalidUri "archive has no parent")
  | some parent =>
    let overview ← aggregateUpward parent
    if Text.isBlank overview then throw (.storage "semantic processor returned an empty overview")
    else return (diff, parent, overview)

/-- The writes at the end of `execute_pipeline`. -/
def publish (record : TaskRecord) (prepared : MemoryDiff × ContextUri × String) : Fallible DoneMarker := do
  write (diffUri record.session) (.diff prepared.1)
  let at_ ← now
  let done : DoneMarker := ⟨record.taskId, at_, record.archiveUri, prepared.2.1, diffUri record.session⟩
  write done.overviewUri (.text prepared.2.2)
  write (doneUri record.session) (.marker done)
  return done

def executePipeline (record : TaskRecord) : Fallible DoneMarker := do
  let prepared ← prepare record
  publish record prepared

/-- The record of the next attempt; `attempt` is a `u32`. -/
def TaskRecord.attempted (record : TaskRecord) (at_ : DateTime) : TaskRecord :=
  { record with
    attempt := (record.attempt + 1) % 2 ^ 32
    updatedAt := at_
    status := .processing ((record.attempt + 1) % 2 ^ 32) at_ }

/-- The end of `process_inner`, by what became of the pipeline. -/
def conclude (record : TaskRecord) : Except ContextError DoneMarker → Fallible DoneMarker
  | .ok done => do
    saveRecord { record with status := .done done, updatedAt := done.finishedAt }
    return done
  | .error e => do
    let at_ ← now
    saveRecord { record with updatedAt := at_, status := .failed ⟨errorText e, record.attempt, at_, true⟩ }
    throw e

def processInner (loaded : TaskRecord) : Fallible DoneMarker := do
  let at_ ← now
  let record := loaded.attempted at_
  saveRecord record
  conclude record (← ExceptT.lift (executePipeline record).run)

/-- `process` from the guard on. -/
def guarded (id : CommitTaskId) (record : TaskRecord) : Fallible DoneMarker := do
  if ← ExceptT.lift (Call.insertActive id).ask then
    let result ← ExceptT.lift (processInner record).run
    ExceptT.lift (Call.removeActive id).ask
    ExceptT.mk (pure result)
  else throw (.versionConflict "compression task is already processing")

def process (id : CommitTaskId) : Fallible DoneMarker := do
  let record ← loadRecord (stateUri session id)
  match record.status with
  | .done marker => return marker
  | _ => guarded id record

def run : Fallible DoneMarker := do
  let id ← enqueue libraries session
  process session id

def retry (id : CommitTaskId) : Fallible DoneMarker := process session id

def recover : Fallible DoneMarker := process session (taskId libraries session)

end Programs

structure World where
  texts : String → Option Content
  active : List CommitTaskId

/-- How a call turns out: a failing write may have taken effect. -/
structure Circumstances where
  fault : Option ContextError
  written : Bool
  candidates : List MemoryCandidate
  decisions : List DedupDecision
  text : String
  uuid : Uuid
  clock : DateTime

def Circumstances.answer {α : Type} (t : Circumstances) (a : α) : Except ContextError α :=
  match t.fault with
  | some e => .error e
  | none => .ok a

def World.set (w : World) (uri : ContextUri) (content : Content) : World :=
  { w with texts := Function.update w.texts uri.canonical (some content) }

def exec (c : Call) (t : Circumstances) (w : World) : c.Reply × World :=
  match c with
  | .read uri => ((t.answer (w.texts uri.canonical)).bind (fun found =>
      match found with
      | some content => .ok content
      | none => .error (.notFound uri.canonical)), w)
  | .write uri content => (t.answer (), if t.fault.isNone || t.written then w.set uri content else w)
  | .extract _ => (t.answer t.candidates, w)
  | .deduplicate _ => (t.answer t.decisions, w)
  | .generateAbstract _ => (t.answer t.text, w)
  | .aggregateUpward _ => (t.answer t.text, w)
  | .insertActive id => (decide (id ∉ w.active), { w with active := if id ∈ w.active then w.active else id::w.active })
  | .removeActive id => ((), { w with active := w.active.filter (· ≠ id) })
  | .newUuid => (t.uuid, w)
  | .now => (t.clock, w)

inductive Service
  | enqueue
  | run
  | retry (id : CommitTaskId)
  | recover

def Service.program (libraries : Libraries) (session : SessionHandle) : Service → Program Unit
  | .enqueue => do
    let _ ← (Session.enqueue libraries session).run
    return ()
  | .run => do
    let _ ← (Session.run libraries session).run
    return ()
  | .retry id => do
    let _ ← (Session.retry session id).run
    return ()
  | .recover => do
    let _ ← (Session.recover libraries session).run
    return ()

inductive Event
  | start (service : Service)
  | call (i : ℕ) (t : Circumstances)
  | crash (i : ℕ)

abbrev Callers := Pool Call Call.Reply Unit World

def Event.ofPool (libraries : Libraries) (session : SessionHandle) :
    Event → Pool.Event Call Call.Reply Unit Circumstances Empty
  | .start service => .start (fun _ => service.program libraries session)
  | .call i t => .call i t
  | .crash i => .crash i

def step (libraries : Libraries) (session : SessionHandle) (callers : Callers) (e : Event) : Callers :=
  callers.step exec (fun w _ => w) (e.ofPool libraries session)

def World.recordOf (w : World) (session : SessionHandle) (id : CommitTaskId) : Option TaskRecord :=
  match w.texts (stateUri session id).canonical with
  | some (.record record) => some record
  | _ => none

end UwuContextDb.Session
