import UwuContextDb.Lifecycle.Executor
import UwuContextDb.Sleeptime.Tasks

/-! `SleeptimeExecutor`: the program of a pass over a batch of entries. -/

namespace UwuContextDb.Sleeptime

open Content (StoreLibraries SqliteTables)
open Content.SqliteTables (BatchWriteConfig)
open Lifecycle (LifecycleJob Stores)
open Retrieve (Page PageRequest errorText)

structure SleeptimeProgress where
  cursor : Option ContextUri
  watermark : Option ContextUri
  attempt : ℕ
  lastError : Option String
  deriving DecidableEq

/-- `SleeptimeProgress::default()`. -/
def SleeptimeProgress.fresh : SleeptimeProgress := ⟨none, none, 0, none⟩

def SleeptimeProgress.attempted (state : SleeptimeProgress) : SleeptimeProgress :=
  { state with attempt := min (state.attempt + 1) (2 ^ 32 - 1) }

structure SleeptimeReport where
  cursor : Option ContextUri
  watermark : Option ContextUri
  attempt : ℕ
  completeness : ℚ
  signalCompleteness : ℚ
  tasksExecuted : ℕ
  contradictionsFound : ℕ
  entanglementsDetected : ℕ
  pruned : ℕ
  blindSpotsUpdated : ℕ
  calibrationSamples : ℕ
  qualityReassessed : ℕ
  qualityPromotedMid : ℕ
  qualityPromotedLong : ℕ
  qualityArchived : ℕ
  trainingCandidates : ℕ
  reviewTasks : ℕ
  reviewTasksWritten : ℕ
  cascadeRevalidationTasks : ℕ
  cascadeInvalidations : ℕ
  healthIssues : ℕ
  healthRepairsWritten : ℕ
  consistencyGuardTasks : ℕ
  consistencyGuardRepairs : ℕ
  activeLearningTasks : ℕ
  activeLearningTasksWritten : ℕ
  embeddingDriftSamples : ℕ
  embeddingDriftScore : ℚ
  embeddingDriftUpdates : ℕ
  curiosityTasks : ℕ
  curiosityTasksWritten : ℕ
  lifecycleSubmitted : ℕ
  lifecycleSucceeded : ℕ
  lifecycleFailed : ℕ

/-- `SleeptimeReport::default()`. -/
def SleeptimeReport.zero : SleeptimeReport :=
  ⟨none, none, 0, 0, 0, 0, 0, 0, 0, 0, 0, 0, 0, 0, 0, 0, 0, 0, 0, 0, 0, 0, 0, 0, 0, 0, 0, 0, 0, 0, 0, 0, 0, 0⟩

/-- What is bound to the executor; `hasLifecycle` tells whether a lifecycle executor is. -/
structure SleeptimeExecutor where
  rootScope : ContextUri
  batchLimit : ℕ
  hasLifecycle : Bool

/-- One pass: the tasks, each with what its planners decide, how many signals besides its centrality are known of a URI,
and the owners under which the lifecycle executor runs. -/
structure Pass where
  tasks : List (SleeptimeTask × Planners)
  observe : ContextUri → Except ContextError ℕ
  owners : Uuid × Uuid

inductive Call
  | stores (c : Lifecycle.Call)
  | load (key : String)
  | save (key : String) (progress : SleeptimeProgress)

def Call.Reply : Call → Type
  | .stores c => c.Reply
  | .load _ => Except ContextError (Option SleeptimeProgress)
  | .save .. => Except ContextError Unit

structure World where
  stores : Stores
  progress : Std.ExtTreeMap String SleeptimeProgress

/-- The circumstances of a call, and what other writers have done to the content since the last one. -/
structure Moment where
  circumstances : Lifecycle.Circumstances
  others : List SqliteTables.Op

section Exec

variable (libraries : StoreLibraries) (config : BatchWriteConfig)

def World.meanwhile (w : World) (others : List SqliteTables.Op) : World :=
  { w with stores := { w.stores with content := StateMachine.run (fun st op => st.step libraries config op) w.stores.content others } }

def exec (blake3 : List ℕ → ContentHash) (c : Call) (t : Moment) (before : World) : c.Reply × World :=
  let w := before.meanwhile libraries config t.others
  match c, t.circumstances.fault with
  | .stores c, _ =>
    let (r, stores) := Lifecycle.exec libraries blake3 c t.circumstances w.stores
    (r, { w with stores := stores })
  | .load _, some e => (.error e, w)
  | .load key, none => (.ok w.progress[key]?, w)
  | .save .., some e => (.error e, w)
  | .save key progress, none => (.ok (), { w with progress := w.progress.insert key progress })

end Exec

abbrev Program := Prog Call Call.Reply

abbrev Fallible := ExceptT ContextError Program

def onStores {α : Type} (p : Lifecycle.Program α) : Program α := p.embed Call.stores (fun _ r => r)

def lifecycle {α : Type} (p : Lifecycle.Fallible α) : Fallible α := ExceptT.mk (onStores p.run)

/-- A result that is passed on with `?`. -/
def given {α : Type} (r : Except ContextError α) : Fallible α := ExceptT.mk (.done r)

def load (key : String) : Fallible (Option SleeptimeProgress) := ExceptT.mk (Prog.ask (Call.load key))

def save (key : String) (progress : SleeptimeProgress) : Fallible Unit := ExceptT.mk (Prog.ask (Call.save key progress))

def write (entry : ContextEntry) : Fallible Unit := do
  let _ ← lifecycle (Lifecycle.write entry)
  return ()

def writeAll (copies : List ContextEntry) : Fallible Unit := copies.forM write

def submitArchive (p : Planners) (report : SleeptimeReport) (uri : ContextUri) : Fallible SleeptimeReport := do
  match ← ExceptT.lift (onStores (Lifecycle.submit (p.newId uri) uri .archive).run) with
  | .ok _ => return { report with lifecycleSubmitted := report.lifecycleSubmitted + 1 }
  | .error _ => return { report with lifecycleFailed := report.lifecycleFailed + 1 }

def submitFor (x : SleeptimeExecutor) (p : Planners) (report : SleeptimeReport) (uri : ContextUri) (route : QualityRoute) :
    Fallible SleeptimeReport :=
  if route.archives && x.hasLifecycle then submitArchive p report uri else return report

/-- `QualityReassessment`, for one entry. -/
def reassessOne (x : SleeptimeExecutor) (p : Planners) (report : SleeptimeReport) (entry : ContextEntry) :
    Fallible SleeptimeReport := do
  let outcome ← given (p.reassess entry)
  if !outcome.shouldWriteback then return report else do
    let report ← submitFor x p report entry.uri outcome.route
    write (reassessed entry outcome)
    return { report with
      qualityReassessed := report.qualityReassessed + 1
      qualityPromotedMid := report.qualityPromotedMid + if outcome.route = .compressToMidTerm then 1 else 0
      qualityPromotedLong := report.qualityPromotedLong + if outcome.route.promotesLong then 1 else 0
      qualityArchived := report.qualityArchived + if outcome.route.archives then 1 else 0
      trainingCandidates := report.trainingCandidates + if outcome.route = .includeInTraining then 1 else 0 }

def isRevalidation (task : CascadeInvalidationTask) : Bool := task.action = .revalidate

def taskWork (x : SleeptimeExecutor) (p : Planners) (entries : List ContextEntry) (report : SleeptimeReport) :
    SleeptimeTask → Fallible SleeptimeReport
  | .qualityReassessment =>
    entries.foldlM (reassessOne x p) { report with
      qualityReassessed := 0, qualityPromotedMid := 0, qualityPromotedLong := 0, qualityArchived :=
        0, trainingCandidates := 0 }
  | .consistencyCheck => do
    let violations ← given (p.check entries)
    return { report with contradictionsFound := violations }
  | .entanglementDetection => return { report with entanglementsDetected := (entries.map (fun e => p.entangled e.uri)).sum }
  | .ignoranceMapUpdate => return { report with blindSpotsUpdated := p.blindSpots }
  | .calibrationUpdate => return { report with calibrationSamples := p.labeledSamples }
  | .contextRotPrune => return { report with pruned := (entries.filter (fun e => decide (quality e < 1 / 10))).length }
  | .backwardEvolve => return report
  | .spacedRepetitionReview => do
    let tasks := p.review entries
    let copies := entries.filterMap (reviewed tasks)
    writeAll copies
    return { report with reviewTasks := tasks.length, reviewTasksWritten := report.reviewTasksWritten + copies.length }
  | .cascadeInvalidation => do
    let planned := (entries.filter isInvalidated).flatMap (fun e => p.cascade entries e.uri)
    writeAll ((cascade (p.cascade entries) entries).filter (hasTag "cascade:"))
    return { report with
      cascadeRevalidationTasks := report.cascadeRevalidationTasks + (planned.filter isRevalidation).length
      cascadeInvalidations := report.cascadeInvalidations + (planned.filter (fun task => !isRevalidation task)).length }
  | .knowledgeHealthDiagnosis => do
    let issues ← given (p.diagnose entries)
    let copies := (entries.map (repaired issues)).filter (hasTag "health:")
    writeAll copies
    return { report with healthIssues := issues.length, healthRepairsWritten := report.healthRepairsWritten + copies.length }
  | .activeConsistencyGuard => do
    let plan := p.guard entries
    let applied := guardAll p.now plan entries
    writeAll (applied.1.filter guardKeeps)
    return { report with consistencyGuardTasks := plan.length, consistencyGuardRepairs := applied.2.dedup.length }
  | .activeLearningLoop => do
    let tasks := p.learn entries
    writeAll ((entries.map (learned tasks)).filter (hasTag "active-learning:"))
    return { report with
      activeLearningTasks := tasks.length
      activeLearningTasksWritten := (entries.filter (fun e => !(learningFor tasks e).isEmpty)).length }
  | .embeddingDriftDetection => do
    let drift := p.drift entries
    writeAll ((drifted drift entries).filter (hasTag "embedding-drift:"))
    return { report with
      embeddingDriftSamples := drift.sampleSize
      embeddingDriftScore := max (max drift.psi drift.centroidShift) drift.normKl
      embeddingDriftUpdates := if drift.snapshot.isSome then (entries.take 1).length else 0 }
  | .curiosityExploration => do
    let tasks := p.explore entries
    writeAll ((entries.map (explored tasks)).filter (hasTag "curiosity:"))
    return { report with
      curiosityTasks := tasks.length
      curiosityTasksWritten := (entries.filter (fun e => !(curiosityFor tasks e).isEmpty)).length }

def runTask (x : SleeptimeExecutor) (entries : List ContextEntry) (report : SleeptimeReport)
    (task : SleeptimeTask × Planners) :
    Fallible SleeptimeReport := do
  let report ← taskWork x task.2 entries report task.1
  return { report with tasksExecuted := report.tasksExecuted + 1 }

section Pass

variable (chrono : Chrono) (x : SleeptimeExecutor)

def pageAfter (state : SleeptimeProgress) : PageRequest :=
  { PageRequest.new x.batchLimit with after := state.cursor.map (·.canonical) }

def batchOf (state : SleeptimeProgress) (items : List ContextEntry) : List ContextEntry :=
  ((items.filter (fun entry => state.cursor.all (fun cursor => ContextUri.cmp chrono entry.uri cursor == .gt))).filter
    (fun entry => state.watermark.all (fun watermark => (ContextUri.cmp chrono entry.uri watermark).isLE))).take
      x.batchLimit

def restarted (state : SleeptimeProgress) (entries : List ContextEntry) : SleeptimeProgress :=
  if entries.isEmpty && state.cursor.isSome then { state with cursor := none, watermark := none, attempt := 0 } else state

def scan (key target : String) : Fallible (SleeptimeProgress × List ContextEntry) := do
  let state := ((← load key).getD .fresh).attempted
  match ← ExceptT.lift (onStores (Lifecycle.scanByPrefix target (pageAfter x state)).run) with
  | .ok page =>
    let entries := batchOf chrono x state page.items
    return (restarted state entries, entries)
  | .error e => do
    save key { state with lastError := some (errorText e) }
    throw e

def signalsPerEntry : ℕ := 8

def observed (pass : Pass) (entries : List ContextEntry) : Except ContextError ℚ := do
  let known ← entries.mapM (fun entry => pass.observe entry.uri)
  let all : ℚ := (entries.length * signalsPerEntry : ℕ)
  return if entries.isEmpty then 0 else ((known.map (· + 1)).sum : ℕ) / all

def recover (owner : Uuid) (report : SleeptimeReport) : Fallible SleeptimeReport :=
  if x.hasLifecycle then do
    let jobs ← lifecycle (Lifecycle.runPending owner)
    let succeeded := (jobs.filter (fun job => job.state = .succeeded)).length
    return { report with
      lifecycleSucceeded := report.lifecycleSucceeded + succeeded
      lifecycleFailed := report.lifecycleFailed + (jobs.length - succeeded) }
  else return report

def process (pass : Pass) (entries : List ContextEntry) : Fallible SleeptimeReport := do
  let completeness ← given (observed pass entries)
  let report ← recover x pass.owners.1 { SleeptimeReport.zero with signalCompleteness := completeness }
  let report ← pass.tasks.foldlM (runTask x entries) report
  recover x pass.owners.2 report

def advanced (state : SleeptimeProgress) (entries : List ContextEntry) : SleeptimeProgress :=
  { state with cursor := (entries.getLast?.map (·.uri)).or state.cursor, lastError := none }

def progressKey (scope : ContextUri) : String := "sleeptime:" ++ scope.canonical

def runOnce (pass : Pass) (scope : ContextUri) : Fallible SleeptimeReport := do
  let root := x.rootScope.canonical
  let target := scope.canonical
  if target ≠ root ∧ (root ++ "/").toList.isPrefixOf target.toList = false then
    throw (.permissionDenied s!"sleeptime scope {target} is outside bound root {root}")
  else do
    let (state, entries) ← scan chrono x (progressKey scope) target
    let report ← process x pass entries
    let state := advanced state entries
    save (progressKey scope) state
    return { report with
      cursor := state.cursor
      watermark := state.watermark
      attempt := state.attempt
      completeness := if entries.length < x.batchLimit then 1 else 0 }

end Pass

end UwuContextDb.Sleeptime
