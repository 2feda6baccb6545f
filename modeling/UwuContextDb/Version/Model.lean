import Std.Data.ExtTreeMap
import UwuContextDb.Core.Model

/-! The version DAG model: commits, change sets, branches, tags, and the errors and
strategies of the `VersionStore` port. -/

namespace UwuContextDb.Version

inductive VersionError
  | notFound (message : String)
  | branchExists (message : String)
  | mergeConflict (message : String)
  | conflictSessionUnavailable (message : String)
  | conflictSessionIncomplete (message : String)
  | storage (message : String)
  | invalidConfig (message : String)
  deriving DecidableEq

/-- `if !condition { return Err(error) }`. -/
def ensure (condition : Bool) (error : VersionError) : Except VersionError Unit :=
  if condition then .ok () else .error error

@[simp] theorem ensure_ok {condition : Bool} {error : VersionError} {u : Unit} :
    ensure condition error = .ok u ↔ condition = true := by
  cases condition <;> simp [ensure]

/-- `CommitId::new()` never repeats an identifier: a store numbers its commits. -/
abbrev CommitId := ℕ

structure Author where
  agentId : Option String
  userId : Option String
  system : Bool
  deriving DecidableEq

def Author.ofSystem : Author := ⟨none, none, true⟩

/-- Letters, digits, dots, underscores, slashes and dashes; non-empty, at most 255 of them. -/
def validRefName (s : String) : Bool :=
  !s.isEmpty && s.length ≤ 255 && s.toList.all (fun c => c.isAlphanum || c == '.' || c == '_' || c == '/' || c == '-')

/-- A branch name that passed `BranchName::parse`. -/
structure BranchName where
  asStr : String
  valid : validRefName asStr = true
  deriving DecidableEq

def BranchName.parse (s : String) : Except VersionError BranchName :=
  if h : validRefName s = true then .ok ⟨s, h⟩
  else if s.isEmpty then .error (.storage "BranchName must not be empty")
  else if 255 < s.utf8ByteSize then .error (.storage s!"BranchName too long ({s.utf8ByteSize} > 255)")
  else .error (.storage s!"BranchName contains illegal chars (allowed: [A-Za-z0-9._/-]): {s}")

structure TagName where
  asStr : String
  valid : validRefName asStr = true
  deriving DecidableEq

structure UriChange where
  uri : ContextUri
  oldHash : Option ContentHash
  newHash : ContentHash
  diffSummary : String
  entry : ContextEntry

structure RenameOp where
  fromUri : ContextUri
  toUri : ContextUri

structure ChangeSet where
  adds : List ContextEntry
  updates : List UriChange
  deletes : List ContextUri
  renames : List RenameOp

def ChangeSet.empty : ChangeSet := ⟨[], [], [], []⟩

inductive CommitTrigger
  | autoConsolidation
  | sessionCommit (sessionId : Uuid) (compressionIndex : ℕ)
  | agentWrite (agentId action : String)
  | forkPromotion (forkName : String)
  | merge (branches : List BranchName)
  | userExplicit
  deriving DecidableEq

inductive ProvenanceRelation | derivedFrom | extractedFrom | mergedFrom | forkedFrom | triggeredBy
  deriving DecidableEq

structure ProvenanceLink where
  sourceUri : ContextUri
  sourceCommit : CommitId
  relation : ProvenanceRelation

structure CommitMeta where
  trigger : CommitTrigger
  changes : ChangeSet
  provenance : List ProvenanceLink

/-- `CommitMeta::default()`. -/
def CommitMeta.empty : CommitMeta := ⟨.autoConsolidation, .empty, []⟩

inductive BranchType | main | stateFork | experiment | collaboration | staging deriving DecidableEq

inductive BranchLifecycle
  | active
  | merged (into : BranchName) (commit : CommitId)
  | abandoned
  | archived
  deriving DecidableEq

structure Branch where
  name : BranchName
  head : CommitId
  createdFrom : CommitId
  createdAt : DateTime
  branchType : BranchType
  lifecycle : BranchLifecycle
  deriving DecidableEq

inductive TagType | immutable | mutable | semantic (condition : String) deriving DecidableEq

structure Tag where
  name : TagName
  target : CommitId
  tagType : TagType
  message : String
  createdBy : Author
  createdAt : DateTime
  deriving DecidableEq

inductive MergeStrategy | fastForward | threeWay | ours | theirs deriving DecidableEq

inductive ConflictStrategy | fail | ours | theirs deriving DecidableEq

/-- `KnowledgeMergeStrategy::ContradictionDetection { threshold }`. -/
structure KnowledgeMergeStrategy where
  threshold : ℚ

structure MergeResult where
  commit : CommitId
  conflicts : List ContextUri
  deriving DecidableEq

structure SquashResult where
  newCommit : CommitId
  squashedCount : ℕ

structure GcPolicy where
  keepRecent : ℕ
  maxAgeDays : ℤ

structure GcReport where
  removedCommits : ℕ
  freedSnapshots : ℕ

abbrev Snapshot := Std.ExtTreeMap String Json

/-- The LWW map merge and the contradiction detector are supplied from outside the repository.
`lwwMerge` gets each side's snapshot, clock and branch name; no `detector` may be injected. -/
structure Services where
  lwwMerge : Snapshot → ℕ → String → Snapshot → ℕ → String → Snapshot
  detector : Option (ℚ → Snapshot → Snapshot → Except VersionError (List ContextUri))

/-- The contradiction check of `knowledge_merge`. -/
def Services.detect (services : Services) (strategy : KnowledgeMergeStrategy) (fromSnap intoSnap : Snapshot) :
    Except VersionError (List ContextUri) :=
  match services.detector with
  | none => .error (.mergeConflict "ContradictionDetection requires an injected detector")
  | some detect => detect strategy.threshold fromSnap intoSnap

end UwuContextDb.Version
