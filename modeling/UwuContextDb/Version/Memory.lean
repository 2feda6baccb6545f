import UwuContextDb.Version.Dag
import UwuContextDb.Version.Snapshot

/-! `MemoryVersionStore`: the version store of the test kit, which keeps the whole snapshot of
every commit. -/

namespace UwuContextDb.Version

/-- The fields of a `Commit` that an operation reads. -/
structure MemoryCommit where
  parents : List CommitId
  author : Author
  timestamp : DateTime
  metadata : CommitMeta

/-- The maps of the store. A branch is kept under its scope and name, HEAD and the checked-out
branch under the scope. -/
structure MemoryVersionStore where
  commits : Std.ExtTreeMap CommitId MemoryCommit
  entrySnapshots : Std.ExtTreeMap CommitId Snapshot
  branches : Std.ExtTreeMap String (Std.ExtTreeMap String Branch)
  tags : Std.ExtTreeMap String (Std.ExtTreeMap String Tag)
  heads : Std.ExtTreeMap String CommitId
  attachedBranches : Std.ExtTreeMap String BranchName
  nextId : CommitId

def applyRenames (snapshot : Snapshot) (renames : List RenameOp) : Snapshot :=
  renames.foldl (fun snapshot r =>
    match snapshot[r.fromUri.canonical]? with
    | some v => (snapshot.erase r.fromUri.canonical).insert r.toUri.canonical v
    | none => snapshot) snapshot

/-- The snapshot of a commit: its parent's, with the adds, the updates, the deletes and the renames
applied one after the other. -/
def applyChanges (snapshot : Snapshot) (changes : ChangeSet) : Except VersionError Snapshot := do
  let snapshot := changes.adds.foldl (fun s e => s.insert e.uri.canonical e.toValue) snapshot
  checkUpdates changes.updates
  let snapshot := changes.updates.foldl (fun s upd => s.insert upd.uri.canonical upd.entry.toValue) snapshot
  let snapshot := changes.deletes.foldl (fun s uri => s.erase uri.canonical) snapshot
  return applyRenames snapshot changes.renames

def Author.ofTrigger (trigger : CommitTrigger) : Author := ⟨none, none, trigger = .autoConsolidation⟩

namespace MemoryVersionStore

def empty : MemoryVersionStore := ⟨∅, ∅, ∅, ∅, ∅, ∅, 0⟩

variable (st : MemoryVersionStore)

def dag : Dag := st.commits.map (fun _ c => c.parents)

def snapshot (id : CommitId) : Snapshot := (st.entrySnapshots[id]?).getD ∅

def optSnapshot : Option CommitId → Snapshot
  | some id => st.snapshot id
  | none => ∅

def scopeBranches (scope : String) : Std.ExtTreeMap String Branch := (st.branches[scope]?).getD ∅

def getBranch (scope : String) (name : BranchName) : Option Branch := (st.scopeBranches scope)[name.asStr]?

def branchHead (scope : String) (name : BranchName) : Except VersionError CommitId :=
  match st.getBranch scope name with
  | some b => .ok b.head
  | none => .error (.notFound s!"branch {name.asStr}")

def isAncestor (ancestor candidate : CommitId) : Bool := st.dag.isAncestor ancestor candidate

def mergeBase (a b : CommitId) : Option CommitId := st.dag.mergeBase a b

def setHead (scope : String) (id : CommitId) : MemoryVersionStore := { st with heads := st.heads.insert scope id }

def setBranch (scope name : String) (b : Branch) : MemoryVersionStore :=
  { st with branches := st.branches.insert scope ((st.scopeBranches scope).insert name b) }

/-- `if let Some(b) = branches.get_mut(&key) { b.head = id }`. -/
def moveBranch (scope : String) (name : BranchName) (id : CommitId) : MemoryVersionStore :=
  match st.getBranch scope name with
  | some b => st.setBranch scope name.asStr { b with head := id }
  | none => st

/-- `target_is_attached`, and HEAD follows. -/
def followHead (scope : String) (name : BranchName) (id : CommitId) : MemoryVersionStore :=
  if st.attachedBranches[scope]? = some name then st.setHead scope id else st

def insertCommit (c : MemoryCommit) (snapshot : Snapshot) : MemoryVersionStore :=
  { st with
    commits := st.commits.insert st.nextId c
    entrySnapshots := st.entrySnapshots.insert st.nextId snapshot
    nextId := st.nextId + 1 }

def advanceAttached (scope : String) (attached : Option BranchName) (id : CommitId) :
    Except VersionError MemoryVersionStore :=
  match attached with
  | none => .ok st
  | some name =>
    match st.getBranch scope name with
    | none => .error (.notFound s!"attached branch {name.asStr}")
    | some b =>
      if st.heads[scope]? = some b.head then .ok (st.setBranch scope name.asStr { b with head := id })
      else .error (.storage s!"HEAD and attached branch {name.asStr} diverged")

def commit (scope : ContextUri) (changes : ChangeSet) (metadata : CommitMeta) (now : DateTime) :
    Except VersionError (CommitId × MemoryVersionStore) := do
  let scopeKey := scope.canonical
  let parent := st.heads[scopeKey]?
  let snapshot ← applyChanges (st.optSnapshot parent) changes
  let moved ← st.advanceAttached scopeKey st.attachedBranches[scopeKey]? st.nextId
  let c : MemoryCommit := ⟨parent.toList, .ofTrigger metadata.trigger, now, metadata⟩
  return (st.nextId, (moved.insertCommit c snapshot).setHead scopeKey st.nextId)

def createBranch (scope : ContextUri) (name : BranchName) (from_ : CommitId) (bt : BranchType) (now : DateTime) :
    Except VersionError (Branch × MemoryVersionStore) := do
  let scopeKey := scope.canonical
  ensure (st.getBranch scopeKey name).isNone (.branchExists name.asStr)
  ensure (from_ ∈ st.commits) (.notFound s!"commit {from_}")
  let b : Branch := ⟨name, from_, from_, now, bt, .active⟩
  return (b, st.setBranch scopeKey name.asStr b)

def deleteBranch (scope : ContextUri) (name : BranchName) : Except VersionError (Unit × MemoryVersionStore) := do
  let scopeKey := scope.canonical
  ensure (st.getBranch scopeKey name).isSome (.notFound s!"branch {name.asStr}")
  return ((), { st with branches := st.branches.insert scopeKey ((st.scopeBranches scopeKey).erase name.asStr) })

def createTag (scope : ContextUri) (tag : Tag) : Except VersionError (Unit × MemoryVersionStore) :=
  let scopeKey := scope.canonical
  .ok ((), { st with tags := st.tags.insert scopeKey (((st.tags[scopeKey]?).getD ∅).insert tag.name.asStr tag) })

def switchHead (scope : ContextUri) (branch : BranchName) : Except VersionError (Unit × MemoryVersionStore) := do
  let scopeKey := scope.canonical
  let head ← st.branchHead scopeKey branch
  let tx := st.setHead scopeKey head
  return ((), { tx with attachedBranches := tx.attachedBranches.insert scopeKey branch })

/-- The walk of `log` along first parents. -/
def logFrom : ℕ → Option CommitId → List CommitId
  | 0, _ => []
  | _+1, none => []
  | max+1, some id =>
    match st.commits[id]? with
    | some c => id :: logFrom max c.parents.head?
    | none => []

/-- `log`: from the head of a branch or from HEAD, 20 commits unless told otherwise. -/
def log (scope : ContextUri) (branch : Option BranchName) (maxCount : Option ℕ) : List CommitId :=
  let start := match branch with
    | some name => (st.getBranch scope.canonical name).map (·.head)
    | none => st.heads[scope.canonical]?
  st.logFrom (maxCount.getD 20) start

/-- The loop body of `merge` at one URI: the value it leaves there, and whether it is a conflict. -/
def mergeUri (strategy : MergeStrategy) (base ours theirs : Option Json) : Option Json × Bool :=
  if theirs = base then (ours, false)
  else if ours = base ∨ ours = theirs then (theirs, false)
  else match strategy with
    | .theirs => (theirs, false)
    | .ours => (ours, false)
    | .threeWay => (ours, true)
    | .fastForward => (ours, true)

def invalidUri (uri : String) : VersionError := .storage s!"invalid snapshot URI: invalid uri: {uri}"

/-- A fast-forward of `into`; under its own strategy it also marks the branch active. -/
def fastForward (scopeKey : String) (into : BranchName) (fromHead : CommitId) (activate : Bool) :
    MergeResult × MemoryVersionStore :=
  let moved := match st.getBranch scopeKey into with
    | some b => st.setBranch scopeKey into.asStr
        { b with head := fromHead, lifecycle := if activate then .active else b.lifecycle }
    | none => st
  (⟨fromHead, []⟩, moved.followHead scopeKey into fromHead)

def merge (scope : ContextUri) (from_ into : BranchName) (strategy : MergeStrategy) (now : DateTime) :
    Except VersionError (MergeResult × MemoryVersionStore) := do
  let scopeKey := scope.canonical
  let fromHead ← st.branchHead scopeKey from_
  let intoHead ← st.branchHead scopeKey into
  if st.isAncestor intoHead fromHead then
    return st.fastForward scopeKey into fromHead (strategy = .fastForward)
  else
    ensure (strategy ≠ .fastForward) (.mergeConflict "cannot fast-forward: branches have diverged")
    let base := st.optSnapshot (st.mergeBase fromHead intoHead)
    let ours := st.snapshot intoHead
    let theirs := st.snapshot fromHead
    let (merged, conflicts) ← mergeSnapshots (mergeUri strategy) invalidUri base ours theirs
      (mergeKeys base ours theirs) ours
    let c : MemoryCommit := ⟨[intoHead, fromHead], .ofSystem, now, ⟨.merge [from_, into], .empty, []⟩⟩
    let tx := (st.insertCommit c merged).moveBranch scopeKey into st.nextId
    return (⟨st.nextId, conflicts⟩, tx.followHead scopeKey into st.nextId)

/-- `knowledge_merge`: only a diverged merge moves HEAD. -/
def knowledgeMerge (services : Services) (scope : ContextUri) (from_ into : BranchName)
    (strategy : KnowledgeMergeStrategy) (now : DateTime) : Except VersionError (MergeResult × MemoryVersionStore) := do
  let scopeKey := scope.canonical
  let fromHead ← st.branchHead scopeKey from_
  let intoHead ← st.branchHead scopeKey into
  if st.isAncestor intoHead fromHead then return (⟨fromHead, []⟩, st.moveBranch scopeKey into fromHead)
  else
    let ours := st.snapshot intoHead
    let theirs := st.snapshot fromHead
    let clock := fun id => clockOf ((st.commits[id]?).map (·.timestamp))
    let merged := services.lwwMerge theirs (clock fromHead) from_.asStr ours (clock intoHead) into.asStr
    let conflicts ← services.detect strategy theirs ours
    let tx := (st.insertCommit ⟨[intoHead, fromHead], .ofSystem, now, .empty⟩ merged).moveBranch scopeKey into st.nextId
    return (⟨st.nextId, conflicts⟩, tx.setHead scopeKey st.nextId)

def changedUris (base source : Snapshot) : List String :=
  (source.keys ++ base.keys).dedup.filter (fun uri => source[uri]? ≠ base[uri]?)

/-- `tv != bv && tv != sv`. -/
def isConflict (base source target : Snapshot) (uri : String) : Bool :=
  target[uri]? ≠ base[uri]? ∧ target[uri]? ≠ source[uri]?

def applyPicked (source : Snapshot) (skip : String → Bool) (uris : List String) (target : Snapshot) : Snapshot :=
  uris.foldl (fun t uri => if skip uri then t else setValue t uri source[uri]?) target

/-- `cherry_pick`: HEAD always moves, and a missing branch leaves the picked commit as the parent. -/
def cherryPick (scope : ContextUri) (commit : CommitId) (onto : BranchName) (strategy : ConflictStrategy)
    (now : DateTime) : Except VersionError (CommitId × MemoryVersionStore) :=
  let scopeKey := scope.canonical
  match st.commits[commit]? with
  | none => .error (.notFound s!"commit {commit}")
  | some source => do
    let sourceSnapshot := st.snapshot commit
    let baseSnapshot := st.optSnapshot source.parents.head?
    let targetHead := (st.getBranch scopeKey onto).map (·.head)
    let targetSnapshot := st.optSnapshot targetHead
    let changed := changedUris baseSnapshot sourceSnapshot
    let conflicts := changed.filter (isConflict baseSnapshot sourceSnapshot targetSnapshot)
    ensure (strategy ≠ .fail || conflicts.isEmpty) (.mergeConflict <|
      s!"cherry-pick {commit} onto {onto.asStr}: {conflicts.length} URI(s) conflicted: " ++ ", ".intercalate conflicts)
    let picked := applyPicked sourceSnapshot (fun uri => strategy = .ours && uri ∈ conflicts) changed targetSnapshot
    let c : MemoryCommit := ⟨(targetHead.elim [commit] (fun h => [h])), source.author, now, source.metadata⟩
    let tx := (st.insertCommit c picked).moveBranch scopeKey onto st.nextId
    return (st.nextId, tx.setHead scopeKey st.nextId)

/-- `rebase`: one pick of the branch's tip, which also moves `onto`. -/
def rebase (scope : ContextUri) (branch onto : BranchName) (strategy : ConflictStrategy) (now : DateTime) :
    Except VersionError (List CommitId) × MemoryVersionStore :=
  let scopeKey := scope.canonical
  match st.branchHead scopeKey branch, st.branchHead scopeKey onto with
  | .error e, _ => (.error e, st)
  | .ok _, .error e => (.error e, st)
  | .ok branchHead, .ok _ =>
    match st.cherryPick scope branchHead onto strategy now with
    | .error e => (.error e, st)
    | .ok (newTip, tx) =>
      match tx.getBranch scopeKey branch with
      | none => (.error (.notFound s!"branch {branch.asStr}"), tx)
      | some b =>
        if b.head ≠ branchHead then (.error (.storage "rebase branch CAS failed"), tx)
        else (.ok [newTip], (tx.setBranch scopeKey branch.asStr { b with head := newTip }).followHead
          scopeKey branch newTip)

/-- `commits.windows(2)`: every commit is the first parent of the next one. -/
def consecutive : List CommitId → Bool
  | a::b::rest => st.dag.firstParent b = some a && consecutive (b::rest)
  | _ => true

/-- `squash`: the branches of every scope move. -/
def squash (scope : ContextUri) (commits : List CommitId) (now : DateTime) :
    Except VersionError (SquashResult × MemoryVersionStore) :=
  match commits.head?, commits.getLast? with
  | some oldest, some newest => do
    ensure (2 ≤ commits.length) (.storage "squash needs >= 2 commits")
    let scopeKey := scope.canonical
    forM commits (fun c => ensure (c ∈ st.commits) (.notFound s!"commit {c}"))
    ensure (st.consecutive commits)
      (.storage "squash commits must be a consecutive first-parent range ordered oldest to newest")
    ensure (st.heads[scopeKey]? = some newest ||
        st.branches.toList.any (fun e => e.2.toList.any (fun b => b.2.head = newest)))
      (.storage "squash tip is not referenced by a branch or HEAD")
    let tx := st.insertCommit ⟨(st.dag.firstParent oldest).toList, .ofSystem, now, .empty⟩ (st.snapshot newest)
    let moved := { tx with branches := tx.branches.map (fun _ bs => bs.map (fun _ b =>
      if b.head = newest then { b with head := st.nextId } else b)) }
    return (⟨st.nextId, commits.length⟩,
      if st.heads[scopeKey]? = some newest then moved.setHead scopeKey st.nextId else moved)
  | _, _ => .error (.storage "squash needs >= 2 commits")

/-- The commits `gc` removes: all but the newest of HEAD's log. -/
def gcVictims (scope : ContextUri) (policy : GcPolicy) : List CommitId :=
  (st.log scope none none).drop policy.keepRecent

def gc (scope : ContextUri) (policy : GcPolicy) : GcReport × MemoryVersionStore :=
  let ids := st.gcVictims scope policy
  (⟨ids.length, (ids.filter (· ∈ st.entrySnapshots)).length⟩,
    { st with
      commits := ids.foldl (fun m id => m.erase id) st.commits
      entrySnapshots := ids.foldl (fun m id => m.erase id) st.entrySnapshots })

end MemoryVersionStore
end UwuContextDb.Version
