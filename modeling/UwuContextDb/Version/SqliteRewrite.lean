import Mathlib.Data.List.Sort
import UwuContextDb.Version.SqliteStore

/-! History rewriting in `SqliteVersionStore`: cherry-pick, rebase, squash, conflict sessions
and garbage collection. -/

namespace UwuContextDb.Version

inductive InteractiveOperation
  | cherryPick (commit : CommitId) (onto : BranchName)
  | rebase (branch onto : BranchName)

inductive ConflictValueOp | set | delete deriving DecidableEq

structure ConflictItem where
  uri : ContextUri
  base : Option ContentPayload
  ours : Option ContentPayload
  theirs : Option ContentPayload
  op : ConflictValueOp

structure ConflictSession where
  id : Uuid
  scope : ContextUri
  operation : InteractiveOperation
  base : Option CommitId
  target : CommitId
  commits : List CommitId
  conflicts : List ConflictItem
  cleanSnapshot : List (String × ContentPayload)

inductive ConflictResolution
  | ours
  | theirs
  | delete
  | manual (payload : ContentPayload)

abbrev ConflictResolutionSet := Std.ExtTreeMap String ConflictResolution

/-- `snapshot_to_payload_entries`: a value that does not read as a payload is left out. -/
def snapshotToPayloadEntries (snapshot : Snapshot) : List (String × ContentPayload) :=
  snapshot.toList.filterMap (fun (uri, raw) => (ContentPayload.fromValue raw).map (fun p => (uri, p)))

def payloadEntriesToSnapshot (entries : List (String × ContentPayload)) : Snapshot :=
  entries.foldl (fun snapshot e => snapshot.insert e.1 e.2.toValue) ∅

/-- `raw_to_payload` on an optional value. -/
def rawToPayload (raw : Option Json) : Option ContentPayload := raw.bind ContentPayload.fromValue

def ConflictResolution.value (conflict : ConflictItem) : ConflictResolution → Option Json
  | .ours => conflict.ours.map ContentPayload.toValue
  | .theirs => conflict.theirs.map ContentPayload.toValue
  | .delete => none
  | .manual payload => some payload.toValue

/-- The loop of `apply_session_resolutions`. -/
def resolveConflicts (resolutions : ConflictResolutionSet) :
    List ConflictItem → Snapshot → Except VersionError Snapshot
  | [], snapshot => .ok snapshot
  | conflict::conflicts, snapshot =>
    match resolutions[conflict.uri.canonical]? with
    | none => .error (.conflictSessionIncomplete conflict.uri.canonical)
    | some resolution => resolveConflicts resolutions conflicts
        (setValue snapshot conflict.uri.canonical (resolution.value conflict))

def applySessionResolutions (session : ConflictSession) (resolutions : ConflictResolutionSet) :
    Except VersionError Snapshot :=
  resolveConflicts resolutions session.conflicts (payloadEntriesToSnapshot session.cleanSnapshot)

namespace SqliteVersionStore

variable (st : SqliteVersionStore)

def isConflict (base commit target : Snapshot) (uri : String) : Bool :=
  target[uri]? ≠ base[uri]? ∧ target[uri]? ≠ commit[uri]?

def conflictItem (base commit target : Snapshot) (uri : String) : Option ConflictItem :=
  match ContextUri.parse uri with
  | .error _ => none
  | .ok u => some ⟨u, rawToPayload base[uri]?, rawToPayload target[uri]?, rawToPayload commit[uri]?,
      if commit[uri]?.isSome then .set else .delete⟩

def pickConflicts (base commit target : Snapshot) : List ConflictItem :=
  ((diffSnapshots base commit).filter (fun d => isConflict base commit target d.uri)).filterMap
    (fun d => conflictItem base commit target d.uri)

def cleanSnapshot (base commit target : Snapshot) : Snapshot :=
  applyDeltas target ((diffSnapshots base commit).filter (fun d => !isConflict base commit target d.uri))

def buildCherryPickSession (order : RowOrder) (scope : ContextUri) (commit target : CommitId)
    (onto : BranchName) (sessionId : Uuid) : Except VersionError ConflictSession := do
  let scopeKey := scope.canonical
  st.requireCommitScope commit scopeKey
  st.requireCommitScope target scopeKey
  let parent := st.firstParent commit
  let baseSnap := st.baseSnapshot order parent
  let commitSnap := st.reconstructSnapshot order commit
  let targetSnap := st.reconstructSnapshot order target
  return ⟨sessionId, scope, .cherryPick commit onto, parent, target, [commit],
    pickConflicts baseSnap commitSnap targetSnap,
    snapshotToPayloadEntries (cleanSnapshot baseSnap commitSnap targetSnap)⟩

/-- `commit_cherry_pick_snapshot`: HEAD follows only the branch it is attached to. -/
def commitCherryPickSnapshot (order : RowOrder) (scope : ContextUri) (commit target : CommitId)
    (ontoBranch : Option BranchName) (finalSnap : Snapshot) (now : DateTime) :
    Except VersionError (CommitId × SqliteVersionStore) := do
  let scopeKey := scope.canonical
  let deltas := diffSnapshots (st.reconstructSnapshot order target) finalSnap
  let author := (st.commits[commit]?).elim Author.ofSystem (·.author)
  let onto := ontoBranch.elim s!"{target}" (·.asStr)
  let (id, tx) ← st.insertCommit scopeKey [target] author s!"cherry-pick {commit} onto {onto}" now .empty deltas
  match ontoBranch with
  | none => return (id, tx)
  | some b =>
    let tx ← tx.updateBranchHead scopeKey b target id
    if (tx.heads[scopeKey]?).bind (·.attachedBranch) = some b.asStr then
      return (id, (tx.casHead scopeKey target id).2)
    else return (id, tx)

/-- The resolution a strategy gives to every conflict; under `Fail` there is none left to resolve. -/
def strategyResolution : ConflictStrategy → ConflictResolution
  | .fail => .ours
  | .ours => .ours
  | .theirs => .theirs

def strategyResolutions (strategy : ConflictStrategy) (conflicts : List ConflictItem) : ConflictResolutionSet :=
  conflicts.foldl (fun set c => set.insert c.uri.canonical (strategyResolution strategy)) ∅

/-- `BranchName::parse` of a commit identifier's text, which always succeeds; it only labels a
session that is not handed out. -/
def commitName : BranchName := ⟨"commit", by decide⟩

def cherryPickAtBranch (order : RowOrder) (scope : ContextUri) (commit target : CommitId)
    (ontoBranch : Option BranchName) (strategy : ConflictStrategy) (now : DateTime) :
    Except VersionError (CommitId × SqliteVersionStore) := do
  let session ← st.buildCherryPickSession order scope commit target (ontoBranch.getD commitName) 0
  let uris := session.conflicts.map (fun c => c.uri.canonical)
  ensure (strategy ≠ .fail || uris.isEmpty) (.mergeConflict <|
    s!"cherry-pick {commit} onto {target}: {uris.length} URI(s) conflicted: " ++ ", ".intercalate uris)
  let finalSnap ← applySessionResolutions session (strategyResolutions strategy session.conflicts)
  st.commitCherryPickSnapshot order scope commit target ontoBranch finalSnap now

def cherryPick (order : RowOrder) (scope : ContextUri) (commit : CommitId) (onto : BranchName)
    (strategy : ConflictStrategy) (now : DateTime) : Except VersionError (CommitId × SqliteVersionStore) := do
  let target ← st.branchHead scope.canonical onto
  st.cherryPickAtBranch order scope commit target (some onto) strategy now

def rebaseHalted (cid : CommitId) : VersionError → VersionError
  | .mergeConflict msg => .mergeConflict s!"rebase halted at {cid}: {msg}"
  | other => other

/-- The picking loop of `rebase`: every pick is a transaction of its own. -/
def pickAll (order : RowOrder) (scope : ContextUri) (strategy : ConflictStrategy) (clock : CommitId → DateTime) :
    SqliteVersionStore → List CommitId → CommitId → List CommitId → Outcome SqliteVersionStore (CommitId × List CommitId)
  | st, [], target, applied => ⟨.ok (target, applied), st⟩
  | st, cid::own, target, applied =>
    match st.cherryPickAtBranch order scope cid target none strategy (clock st.nextId) with
    | .ok (new, st) => pickAll order scope strategy clock st own new (applied ++ [new])
    | .error e => ⟨.error (rebaseHalted cid e), st⟩

/-- The last transaction of `rebase`: move `branch` to the new tip. -/
def finishRebase (scopeKey : String) (branch : BranchName) (expected : CommitId)
    (picked : Outcome SqliteVersionStore (CommitId × List CommitId)) : Outcome SqliteVersionStore (List CommitId) :=
  match picked.result with
  | .error e => ⟨.error e, picked.store⟩
  | .ok (target, applied) => .ofTx picked.store
      ((picked.store.updateBranchHead scopeKey branch expected target).map (fun tx => (applied, tx)))

def rebase (order : RowOrder) (scope : ContextUri) (branch onto : BranchName) (strategy : ConflictStrategy)
    (clock : CommitId → DateTime) : Outcome SqliteVersionStore (List CommitId) :=
  let scopeKey := scope.canonical
  match st.branchHead scopeKey branch, st.branchHead scopeKey onto with
  | .error e, _ => ⟨.error e, st⟩
  | .ok _, .error e => ⟨.error e, st⟩
  | .ok branchHead, .ok ontoHead =>
    let own := st.commitsToRebase ontoHead (st.commits.size + 1) [] branchHead
    finishRebase scopeKey branch branchHead (pickAll order scope strategy clock st own ontoHead [])

/-- `commits.windows(2)`: every commit is the first parent of the next one. -/
def consecutive : List CommitId → Bool
  | a::b::rest => st.firstParent b = some a && consecutive (b::rest)
  | _ => true

/-- Move every branch of the scope that stands on `old`. -/
def moveBranches (tx : SqliteVersionStore) (scopeKey : String) (old new : CommitId) : SqliteVersionStore :=
  { tx with branches := Function.update tx.branches scopeKey ((tx.branches scopeKey).map
      (fun _ b => if b.head = old then { b with head := new } else b)) }

def squash (order : RowOrder) (scope : ContextUri) (commits : List CommitId) (message : String) (now : DateTime) :
    Except VersionError (SquashResult × SqliteVersionStore) :=
  match commits.head?, commits.getLast? with
  | some oldest, some newest => do
    ensure (2 ≤ commits.length) (.storage "squash needs >= 2 commits")
    let scopeKey := scope.canonical
    forM commits (fun c => st.requireCommitScope c scopeKey)
    ensure (st.consecutive commits)
      (.storage "squash commits must be a consecutive first-parent range ordered oldest to newest")
    let parent := st.firstParent oldest
    let deltas := diffSnapshots (st.baseSnapshot order parent) (st.reconstructSnapshot order newest)
    let (id, tx) ← st.insertCommit scopeKey parent.toList .ofSystem message now .empty deltas
    ensure ((tx.branches scopeKey).toList.any (fun e => e.2.head = newest) || tx.getHead scopeKey = some newest)
      (.storage "squash tip is not referenced by a branch or HEAD")
    return (⟨id, commits.length⟩, ((tx.moveBranches scopeKey newest id).casHead scopeKey newest id).2)
  | _, _ => .error (.storage "squash needs >= 2 commits")

/-- `continue_conflict_session`, on a session the caller hands back. -/
def continueConflictSession (order : RowOrder) (session : ConflictSession) (resolutions : ConflictResolutionSet)
    (clock : CommitId → DateTime) : Outcome SqliteVersionStore (List CommitId) :=
  match applySessionResolutions session resolutions with
  | .error e => ⟨.error e, st⟩
  | .ok finalSnap =>
    match session.operation with
    | .cherryPick commit onto => .ofTx st
        ((st.commitCherryPickSnapshot order session.scope commit session.target (some onto) finalSnap
          (clock st.nextId)).map (fun (new, tx) => ([new], tx)))
    | .rebase branch _ =>
      match session.commits with
      | [] => ⟨.error (.conflictSessionUnavailable s!"{session.id}"), st⟩
      | first::rest =>
        match st.commitCherryPickSnapshot order session.scope first session.target none finalSnap (clock st.nextId) with
        | .error e => ⟨.error e, st⟩
        | .ok (new, st) => finishRebase session.scope.canonical branch session.target
            (pickAll order session.scope .fail clock st rest new [new])

end SqliteVersionStore

structure ScanOrder where
  order : List CommitId → List CommitId
  perm : ∀ ids, (order ids).Perm ids

def ScanOrder.asStored : ScanOrder := ⟨id, fun ids => .refl ids⟩

namespace SqliteVersionStore

variable (st : SqliteVersionStore)

/-- `protected_refs`: the commits HEAD, the branches and the tags of a scope point to. -/
def protectedRefs (scopeKey : String) : List CommitId :=
  (st.getHead scopeKey).toList ++ (st.branches scopeKey).toList.map (fun e => e.2.head) ++
    (st.tags scopeKey).toList.map (fun e => e.2.target)

/-- `protected`: everything reachable from a reference of the scope. -/
def protectedCommits (scopeKey : String) : List CommitId :=
  let refs := st.protectedRefs scopeKey
  Search.visitAll st.dag.parents (st.dag.edgeCount + refs.length) refs

def scopeCommits (scopeKey : String) : List (CommitId × DateTime) :=
  (st.commits.toList.filter (fun e => e.2.scope = scopeKey)).map (fun e => (e.1, e.2.timestamp))

def timestampOf (id : CommitId) : DateTime := (st.commitTimestamp id).getD 0

/-- `ORDER BY timestamp DESC LIMIT keep_recent`. -/
def recentCommits (scan : ScanOrder) (scopeKey : String) (policy : GcPolicy) : List CommitId :=
  ((scan.order ((st.scopeCommits scopeKey).map Prod.fst)).insertionSort
    (fun a b => st.timestampOf b ≤ st.timestampOf a)).take policy.keepRecent

def nanosPerDay : ℤ := 86400000000000

/-- The commits `gc` selects, oldest first: old enough, not reachable and not recent. -/
def gcVictims (recentScan victimScan : ScanOrder) (scopeKey : String) (policy : GcPolicy) (now : DateTime) :
    List CommitId :=
  let cutoff := now - policy.maxAgeDays * nanosPerDay
  let keep := st.protectedCommits scopeKey
  let recent := st.recentCommits recentScan scopeKey policy
  ((victimScan.order ((st.scopeCommits scopeKey).map Prod.fst)).filter
      (fun id => st.timestampOf id < cutoff && id ∉ keep && id ∉ recent)).insertionSort
    (fun a b => st.timestampOf a ≤ st.timestampOf b)

/-- Some commit names `id` as its parent, or some HEAD stands on it. -/
def isReferenced (id : CommitId) : Bool :=
  st.commits.toList.any (fun e => id ∈ e.2.parents) || st.heads.toList.any (fun e => e.2.commit = id)

/-- `DELETE FROM version_commits WHERE id = ? AND scope = ?`: both keys are `ON DELETE RESTRICT`. -/
def deleteCommit (scopeKey : String) (tx : SqliteVersionStore) (id : CommitId) :
    Except VersionError SqliteVersionStore :=
  match tx.commits[id]? with
  | none => .ok tx
  | some row =>
    if row.scope ≠ scopeKey then .ok tx
    else if tx.isReferenced id then .error (.storage "FOREIGN KEY constraint failed")
    else .ok { tx with commits := tx.commits.erase id }

def gc (recentScan victimScan : ScanOrder) (scope : ContextUri) (policy : GcPolicy) (now : DateTime) :
    Except VersionError (GcReport × SqliteVersionStore) := do
  let ids := st.gcVictims recentScan victimScan scope.canonical policy now
  let tx ← ids.foldlM (deleteCommit scope.canonical) st
  return (⟨ids.length, ids.length⟩, { tx with cache := ids.foldl (fun c id => c.erase id) tx.cache })

end SqliteVersionStore
end UwuContextDb.Version
