import UwuContextDb.Core.Model
import UwuContextDb.Library.Run

/-! Embedding migrations: their states in the files of a directory, and the workers that move them on. -/

namespace UwuContextDb.EmbeddingMigration

inductive Modality | text | image | audio deriving DecidableEq

inductive EmbeddingMigrationPhase | reindex | dualWrite | evaluating | cutover | complete deriving DecidableEq

def EmbeddingMigrationPhase.canTransition : EmbeddingMigrationPhase → EmbeddingMigrationPhase → Bool
  | .reindex, .dualWrite => true
  | .dualWrite, .evaluating => true
  | .evaluating, .cutover => true
  | .cutover, .complete => true
  | _, _ => false

structure ModalityCollections where
  source : String
  target : String
  deriving DecidableEq

structure MigrationEvaluationGate where
  minRecallAtK : ℚ
  minCosineMargin : ℚ
  deriving DecidableEq

structure PairedRetrievalMetrics where
  k : ℕ
  pairs : ℕ
  recallAtK : ℚ
  cosineMargin : ℚ
  deriving DecidableEq

structure EmbeddingMigrationState where
  id : String
  generation : ℕ
  sourceSpace : EmbeddingSpaceId
  targetSpace : EmbeddingSpaceId
  collections : List (Modality × ModalityCollections)
  phase : EmbeddingMigrationPhase
  gate : MigrationEvaluationGate
  evaluation : Option PairedRetrievalMetrics
  deriving DecidableEq

def EmbeddingMigrationState.Passing (state : EmbeddingMigrationState) : Prop :=
  ∃ metrics, state.evaluation = some metrics ∧ state.gate.minRecallAtK ≤ metrics.recallAtK ∧
    state.gate.minCosineMargin ≤ metrics.cosineMargin

/-- How a piece of a call ends; an addition that overflows its `u64` panics. -/
inductive Attempt (α : Type)
  | ok (a : α)
  | error (err : ContextError)
  | panic

def nextGeneration (generation : ℕ) : Option ℕ := if generation + 1 < 2 ^ 64 then some (generation + 1) else none

theorem eq_of_nextGeneration {generation next : ℕ} (h : nextGeneration generation = some next) : next = generation + 1 := by
  unfold nextGeneration at h
  split at h
  · exact (Option.some.inj h).symm
  · cases h

/-- `FileMigrationStateStore::path`. -/
def validId (id : String) : Bool := !id.isEmpty && id.toList.all (fun c => c.isAlphanum || c = '-' || c = '_')

def invalidId : ContextError := .storage "invalid migration id"

/-- `AtomicCutover::transition` up to its `compare_and_swap`: the state it read, moved on. -/
def prepareTransition (stored : Option EmbeddingMigrationState) (id : String) (expectedGeneration : ℕ)
    (nextPhase : EmbeddingMigrationPhase) : Attempt EmbeddingMigrationState :=
  match stored with
  | none => .error (.notFound id)
  | some state =>
    if state.generation ≠ expectedGeneration || !state.phase.canTransition nextPhase then
      .error (.versionConflict "invalid or stale migration transition")
    else if nextPhase = .cutover && state.evaluation.isNone then
      .error (.versionConflict "cutover requires evaluation")
    else if nextPhase = .cutover && state.evaluation.any (fun metrics =>
        metrics.recallAtK < state.gate.minRecallAtK || metrics.cosineMargin < state.gate.minCosineMargin) then
      .error (.versionConflict "evaluation gate failed")
    else
      match nextGeneration state.generation with
      | none => .panic
      | some generation => .ok { state with phase := nextPhase, generation := generation }

def storedGeneration (stored : Option EmbeddingMigrationState) : ℕ := (stored.map EmbeddingMigrationState.generation).getD 0

/-- The check of `compare_and_swap` on the state it read. -/
def checkGeneration (stored : Option EmbeddingMigrationState) (expectedGeneration : ℕ) (next : EmbeddingMigrationState) :
    Attempt Unit :=
  let conflict := ContextError.versionConflict ("migration generation expected " ++ toString expectedGeneration ++
    ", actual " ++ toString (storedGeneration stored) ++ ", next " ++ toString next.generation)
  if storedGeneration stored ≠ expectedGeneration then .error conflict
  else
    match nextGeneration expectedGeneration with
    | none => .panic
    | some generation => if next.generation ≠ generation then .error conflict else .ok ()

variable {stored : Option EmbeddingMigrationState} {expectedGeneration : ℕ} {next : EmbeddingMigrationState}

theorem ok_of_prepareTransition {id : String} {nextPhase : EmbeddingMigrationPhase}
    (h : prepareTransition stored id expectedGeneration nextPhase = .ok next) :
    ∃ st, stored = some st ∧ st.generation = expectedGeneration ∧ st.phase.canTransition nextPhase = true ∧
      (nextPhase = .cutover → st.Passing) ∧
      next = { st with phase := nextPhase, generation := expectedGeneration+1 } := by
  unfold prepareTransition at h
  cases stored with
  | none => simp at h
  | some st =>
    simp only at h
    by_cases hs : (st.generation ≠ expectedGeneration || !st.phase.canTransition nextPhase) = true
    · rw [if_pos hs] at h
      cases h
    · rw [if_neg hs] at h
      obtain ⟨hg,hp⟩ : st.generation = expectedGeneration ∧ st.phase.canTransition nextPhase = true := by
        simpa using hs
      split at h
      · cases h
      · rename_i hr
        split at h
        · cases h
        · rename_i ha
          refine ⟨st,rfl,hg,hp,?_,?_⟩
          · intro hc
            cases he : st.evaluation with
            | none => simp [hc,he] at hr
            | some metrics =>
              refine ⟨metrics,he,?_⟩
              simpa [hc,he] using ha
          · cases hn : nextGeneration st.generation with
            | none => simp [hn] at h
            | some generation =>
              simp only [hn,Attempt.ok.injEq] at h
              rw [← h,eq_of_nextGeneration hn,hg]

theorem ok_of_checkGeneration (h : checkGeneration stored expectedGeneration next = .ok ()) :
    storedGeneration stored = expectedGeneration ∧ next.generation = expectedGeneration + 1 := by
  simp only [checkGeneration] at h
  by_cases hs : storedGeneration stored = expectedGeneration
  · rw [if_neg (not_not.mpr hs)] at h
    cases hg : nextGeneration expectedGeneration with
    | none => simp [hg] at h
    | some generation =>
      simp only [hg] at h
      by_cases hn : next.generation = generation
      · exact ⟨hs,hn.trans (eq_of_nextGeneration hg)⟩
      · rw [if_pos hn] at h
        cases h
  · rw [if_pos hs] at h
    cases h

inductive Call
  | transition (id : String) (expectedGeneration : ℕ) (nextPhase : EmbeddingMigrationPhase)
  | save (expectedGeneration : ℕ) (next : EmbeddingMigrationState)

/-- Where a call is: it reads the state it moves on; in `compare_and_swap` it waits for the lock and, with the lock,
reads the file, writes the temporary file, renames it and syncs the directory. -/
inductive Stage
  | loading (id : String) (expectedGeneration : ℕ) (nextPhase : EmbeddingMigrationPhase)
  | saving (expectedGeneration : ℕ) (next : EmbeddingMigrationState)
  | locked (expectedGeneration : ℕ) (next : EmbeddingMigrationState)
  | checked (next : EmbeddingMigrationState)
  | written (next : EmbeddingMigrationState)
  | renamed (next : EmbeddingMigrationState)
  | done (result : Except ContextError EmbeddingMigrationState)
  | panicked
  | crashed

structure Worker where
  object : ℕ
  call : Call
  stage : Stage

inductive Lock | free | held (worker : ℕ) | poisoned deriving DecidableEq

structure System where
  files : String → Option EmbeddingMigrationState
  temps : String → ℕ → Option EmbeddingMigrationState
  locks : ℕ → Lock
  workers : List Worker

def System.start : System := ⟨fun _ => none, fun _ _ => none, fun _ => .free, []⟩

namespace System

variable (sys : System)

def put (i : ℕ) (w : Worker) (stage : Stage) : System := { sys with workers := sys.workers.set i { w with stage := stage } }

def setLock (object : ℕ) (lock : Lock) : System := { sys with locks := Function.update sys.locks object lock }

/-- The call leaves `compare_and_swap`, and its guard is dropped. -/
def finish (i : ℕ) (w : Worker) (result : Except ContextError EmbeddingMigrationState) : System :=
  (sys.setLock w.object .free).put i w (.done result)

def writeTemp (next : EmbeddingMigrationState) (content : Option EmbeddingMigrationState) : System :=
  { sys with temps := Function.update sys.temps next.id (Function.update (sys.temps next.id) next.generation content) }

def rename (next content : EmbeddingMigrationState) : System :=
  { sys.writeTemp next none with files := Function.update sys.files next.id (some content) }

/-- One piece of a call; `failure` is the error of the operating system there, if it has one. -/
def advance (i : ℕ) (w : Worker) (failure : Option ContextError) : System :=
  match w.stage with
  | .loading id expectedGeneration nextPhase =>
    if !validId id then sys.put i w (.done (.error invalidId))
    else
      match failure with
      | some err => sys.put i w (.done (.error err))
      | none =>
        match prepareTransition (sys.files id) id expectedGeneration nextPhase with
        | .error err => sys.put i w (.done (.error err))
        | .panic => sys.put i w .panicked
        | .ok next => sys.put i w (.saving expectedGeneration next)
  | .saving expectedGeneration next =>
    match sys.locks w.object with
    | .free => (sys.setLock w.object (.held i)).put i w (.locked expectedGeneration next)
    | .held _ => sys
    | .poisoned => sys.put i w (.done (.error (.storage "migration state lock poisoned")))
  | .locked expectedGeneration next =>
    if !validId next.id then sys.finish i w (.error invalidId)
    else
      match failure with
      | some err => sys.finish i w (.error err)
      | none =>
        match checkGeneration (sys.files next.id) expectedGeneration next with
        | .error err => sys.finish i w (.error err)
        | .panic => (sys.setLock w.object .poisoned).put i w .panicked
        | .ok () => sys.put i w (.checked next)
  | .checked next =>
    match failure with
    | some err => sys.finish i w (.error err)
    | none => (sys.writeTemp next (some next)).put i w (.written next)
  | .written next =>
    match failure with
    | some err => sys.finish i w (.error err)
    | none =>
      match sys.temps next.id next.generation with
      | none => sys.finish i w (.error (.storage "No such file or directory (os error 2)"))
      | some content => (sys.rename next content).put i w (.renamed next)
  | .renamed next =>
    match failure with
    | some err => sys.finish i w (.error err)
    | none => sys.finish i w (.ok next)
  | _ => sys

end System

/-- A call begins, a worker goes on, or the process ends; the next process finds the directory as it was left. -/
inductive Action
  | spawn (object : ℕ) (call : Call)
  | step (i : ℕ) (failure : Option ContextError)
  | crash

def Call.begin_ : Call → Stage
  | .transition id expectedGeneration nextPhase => .loading id expectedGeneration nextPhase
  | .save expectedGeneration next => .saving expectedGeneration next

def Worker.afterCrash (w : Worker) : Worker :=
  match w.stage with
  | .done _ => w
  | _ => { w with stage := .crashed }

def System.act (sys : System) : Action → System
  | .spawn object call => { sys with workers := sys.workers ++ [⟨object, call, call.begin_⟩] }
  | .step i failure =>
    match sys.workers[i]? with
    | none => sys
    | some w => sys.advance i w failure
  | .crash => { sys with locks := fun _ => .free, workers := sys.workers.map Worker.afterCrash }

theorem System.act_step {sys : System} {i : ℕ} {w : Worker} (hw : sys.workers[i]? = some w)
    (failure : Option ContextError) : sys.act (.step i failure) = sys.advance i w failure := by
  simp [System.act,hw]

theorem System.act_step_none {sys : System} {i : ℕ} (hi : sys.workers[i]? = none) (failure : Option ContextError) :
    sys.act (.step i failure) = sys := by
  simp [System.act,hi]

end UwuContextDb.EmbeddingMigration
