import UwuContextDb.Version.SqliteRewrite

/-! `PgVersionStore`: how it reads a snapshot and how it collects garbage. -/

namespace UwuContextDb.Version

open MapEdit

/-- The tables have the columns of the SQLite store, but nothing refers to a commit by a foreign key
except the rows written with it. `tables.cache` is L1, `checkpoints` is L2. -/
structure PgVersionStore where
  tables : SqliteVersionStore
  checkpoints : Std.ExtTreeMap CommitId Snapshot
  fresh : ∀ id ∈ tables.commits, id < tables.nextId
  older : ∀ (id : CommitId) (row : CommitRow), tables.commits[id]? = some row → ∀ p ∈ row.parents, p < id

namespace PgVersionStore

variable (st : PgVersionStore)

def snapshotReads (order : RowOrder) : SnapshotReads :=
  ⟨st.tables.firstParent, fun id => st.tables.cache[id]?.or st.checkpoints[id]?, st.tables.loadDeltas order⟩

def reconstructSnapshot (order : RowOrder) (id : CommitId) : Snapshot :=
  (st.snapshotReads order).reconstruct (st.tables.nextId + 1) id

/-- `DELETE FROM version_commits WHERE id = $1` for each of `ids`, and `cache_del_snapshot`. Parents, deltas
and checkpoints of a commit go with it. -/
def deleteCommits (ids : List CommitId) : PgVersionStore where
  tables :=
    { st.tables with
      commits := ids.foldl (fun m id => m.erase id) st.tables.commits
      cache := ids.foldl (fun m id => m.erase id) st.tables.cache }
  checkpoints := ids.foldl (fun m id => m.erase id) st.checkpoints
  fresh := fun id hid => st.fresh id ((mem_foldl_erase _ _ _).mp hid).1
  older := fun id row hrow => by
    rw [getElem?_foldl_erase] at hrow
    split at hrow
    · cases hrow
    · exact st.older id row hrow

/-- `gc`, with the query of the SQLite store. -/
def gc (recentScan victimScan : ScanOrder) (scope : ContextUri) (policy : GcPolicy) (now : DateTime) :
    Except VersionError (GcReport × PgVersionStore) :=
  let ids := st.tables.gcVictims recentScan victimScan scope.canonical policy now
  .ok (⟨ids.length, ids.length⟩, st.deleteCommits ids)

end PgVersionStore
end UwuContextDb.Version

/-! The operations of `PgVersionStore` that change its tables. HEAD is attached to no branch, and no
foreign key reaches a parent, a HEAD, a branch or a tag. -/

namespace UwuContextDb.Version

open MapEdit

namespace PgVersionStore

variable (st : PgVersionStore)

def empty : PgVersionStore := ⟨.empty, ∅, by simp [SqliteVersionStore.empty], by simp [SqliteVersionStore.empty]⟩

def baseSnapshot (order : RowOrder) (id : Option CommitId) : Snapshot :=
  (st.snapshotReads order).base (st.tables.nextId + 1) id

/-- The references of `tx`, over the commits at hand. -/
def withRefs (tx : SqliteVersionStore) : PgVersionStore :=
  { st with tables := { st.tables with heads := tx.heads, branches := tx.branches, tags := tx.tags } }

/-- `insert_commit_row` and `insert_deltas` under the next identifier. No parent may be listed twice; one
that was not drawn yet cannot be named. -/
def insertCommit (scope : String) (parents : List CommitId) (author : Author) (message : String)
    (now : DateTime) (metadata : CommitMeta) (deltas : List DeltaRow) :
    Except VersionError (CommitId × PgVersionStore) :=
  if hp : ∀ p ∈ parents, p < st.tables.nextId then
    if ¬ parents.Nodup then .error (.storage "duplicate key value violates unique constraint")
    else
      let id := st.tables.nextId
      let row : CommitRow := ⟨scope, parents, s!"tree-{id}", author, message, now, metadata, insertDeltas deltas⟩
      .ok (id,
        { st with
          tables := { st.tables with commits := st.tables.commits.insert id row, nextId := id + 1 }
          fresh := fun c hc => by
            rcases Std.ExtTreeMap.mem_insert.mp hc with heq | hmem
            · exact (compare_eq_iff_eq.mp heq) ▸ Nat.lt_succ_self _
            · exact Nat.lt_succ_of_lt (st.fresh c hmem)
          older := fun c r hr p hpar => by
            rw [Std.ExtTreeMap.getElem?_insert] at hr
            split at hr
            · rename_i heq
              obtain rfl : id = c := compare_eq_iff_eq.mp heq
              obtain rfl := Option.some.inj hr
              exact hp p hpar
            · exact st.older c r hr p hpar })
  else .error (.storage "unknown identifier")

def setHead (scope : String) (commit : CommitId) : PgVersionStore :=
  st.withRefs (st.tables.setHead scope ⟨commit, none⟩)

def updateHeadInTx (scope : String) (expected commit : CommitId) : Except VersionError PgVersionStore :=
  (st.tables.updateHeadInTx scope expected commit).map st.withRefs

def updateBranchHead (scope : String) (name : BranchName) (expected head : CommitId) :
    Except VersionError PgVersionStore :=
  (st.tables.updateBranchHead scope name expected head).map st.withRefs

/-- `advance_head_if_matches`, and the error of the callers when it does not match. -/
def advanceHead (scope : String) (expected commit : CommitId) (during : String) : Except VersionError PgVersionStore :=
  (st.tables.advanceHead scope expected commit during).map st.withRefs

/-- `commit`: the scope is locked, so that HEAD is still the parent. -/
def commit (scope : ContextUri) (changes : ChangeSet) (metadata : CommitMeta) (now : DateTime) :
    Except VersionError (CommitId × PgVersionStore) := do
  let scopeKey := scope.canonical
  let rows ← changeRows changes
  let (id, tx) ← st.insertCommit scopeKey (st.tables.getHead scopeKey).toList .ofSystem "" now metadata rows
  match st.tables.getHead scopeKey with
  | some expected =>
    let tx ← tx.updateHeadInTx scopeKey expected id
    return (id, tx)
  | none => return (id, tx.setHead scopeKey id)

/-- `create_branch`, from any identifier. -/
def createBranch (scope : ContextUri) (name : BranchName) (from_ : CommitId) (bt : BranchType) (now : DateTime) :
    Except VersionError (Branch × PgVersionStore) := do
  let scopeKey := scope.canonical
  ensure (st.tables.getBranch scopeKey name).isNone (.branchExists name.asStr)
  let b : Branch := ⟨name, from_, from_, now, bt, .active⟩
  return (b, st.withRefs (st.tables.setBranch scopeKey name.asStr b))

def deleteBranch (scope : ContextUri) (name : BranchName) : Except VersionError (Unit × PgVersionStore) :=
  let scopeKey := scope.canonical
  .ok ((), st.withRefs { st.tables with
    branches := Function.update st.tables.branches scopeKey ((st.tables.branches scopeKey).erase name.asStr) })

def switchHead (scope : ContextUri) (branch : BranchName) : Except VersionError (Unit × PgVersionStore) := do
  let scopeKey := scope.canonical
  let head ← st.tables.branchHead scopeKey branch
  return ((), st.setHead scopeKey head)

/-- `create_tag`: the author is not stored, and a tag that is replaced keeps its timestamp. -/
def createTag (scope : ContextUri) (tag : Tag) : Except VersionError (Unit × PgVersionStore) :=
  let scopeKey := scope.canonical
  let tags := st.tables.tags scopeKey
  let createdAt := (tags[tag.name.asStr]?).elim tag.createdAt (·.createdAt)
  let row : Tag := { tag with createdBy := .ofSystem, createdAt := createdAt }
  .ok ((), st.withRefs { st.tables with
    tags := Function.update st.tables.tags scopeKey (tags.insert tag.name.asStr row) })

/-- Move `into` and then HEAD, which must stand on the same commit. -/
def fastForward (scopeKey : String) (into : BranchName) (intoHead fromHead : CommitId) :
    Except VersionError (MergeResult × PgVersionStore) := do
  let tx ← st.updateBranchHead scopeKey into intoHead fromHead
  let tx ← tx.advanceHead scopeKey intoHead fromHead "merge"
  return (⟨fromHead, []⟩, tx)

/-- `merge`, which resolves a URI as the SQLite store does. -/
def merge (order : RowOrder) (scope : ContextUri) (from_ into : BranchName) (strategy : MergeStrategy)
    (now : DateTime) : Except VersionError (MergeResult × PgVersionStore) := do
  let scopeKey := scope.canonical
  let fromHead ← st.tables.branchHead scopeKey from_
  let intoHead ← st.tables.branchHead scopeKey into
  if st.tables.isAncestor intoHead fromHead then st.fastForward scopeKey into intoHead fromHead
  else
    let baseSnap := st.baseSnapshot order (st.tables.mergeBase fromHead intoHead)
    let fromSnap := st.reconstructSnapshot order fromHead
    let intoSnap := st.reconstructSnapshot order intoHead
    let (merged, conflicts) ← mergeSnapshots (SqliteVersionStore.mergeUri strategy) SqliteVersionStore.invalidUri
      baseSnap intoSnap fromSnap (mergeKeys baseSnap intoSnap fromSnap) intoSnap
    let (id, tx) ← st.insertCommit scopeKey [intoHead, fromHead] .ofSystem
      s!"merge {into.asStr} <- {from_.asStr} conflicts={conflicts.length}" now .empty (diffSnapshots intoSnap merged)
    let tx ← tx.updateBranchHead scopeKey into intoHead id
    let tx ← tx.advanceHead scopeKey intoHead id "merge"
    return (⟨id, conflicts⟩, tx)

def knowledgeMerge (services : Services) (order : RowOrder) (scope : ContextUri) (from_ into : BranchName)
    (strategy : KnowledgeMergeStrategy) (now : DateTime) : Except VersionError (MergeResult × PgVersionStore) := do
  let scopeKey := scope.canonical
  let fromHead ← st.tables.branchHead scopeKey from_
  let intoHead ← st.tables.branchHead scopeKey into
  if st.tables.isAncestor intoHead fromHead then st.fastForward scopeKey into intoHead fromHead
  else
    let fromSnap := st.reconstructSnapshot order fromHead
    let intoSnap := st.reconstructSnapshot order intoHead
    let merged := services.lwwMerge fromSnap (clockOf (st.tables.commitTimestamp fromHead)) from_.asStr
      intoSnap (clockOf (st.tables.commitTimestamp intoHead)) into.asStr
    let conflicts ← services.detect strategy fromSnap intoSnap
    let (id, tx) ← st.insertCommit scopeKey [intoHead, fromHead] .ofSystem
      s!"knowledge_merge {into.asStr} <- {from_.asStr} conflicts={conflicts.length}" now .empty
      (diffSnapshots intoSnap merged)
    let tx ← tx.updateBranchHead scopeKey into intoHead id
    let tx ← tx.advanceHead scopeKey intoHead id "rewrite"
    return (⟨id, conflicts⟩, tx)

/-- The `EXISTS` query of `build_cherry_pick_session`. -/
def requireCommit (id : CommitId) (scopeKey : String) : Except VersionError Unit :=
  ensure ((st.tables.commits[id]?).any (fun row => row.scope = scopeKey)) (.notFound s!"commit {id}")

def buildCherryPickSession (order : RowOrder) (scope : ContextUri) (commit target : CommitId)
    (onto : BranchName) (sessionId : Uuid) : Except VersionError ConflictSession := do
  let scopeKey := scope.canonical
  st.requireCommit commit scopeKey
  st.requireCommit target scopeKey
  let parent := st.tables.firstParent commit
  let baseSnap := st.baseSnapshot order parent
  let commitSnap := st.reconstructSnapshot order commit
  let targetSnap := st.reconstructSnapshot order target
  return ⟨sessionId, scope, .cherryPick commit onto, parent, target, [commit],
    SqliteVersionStore.pickConflicts baseSnap commitSnap targetSnap,
    snapshotToPayloadEntries (SqliteVersionStore.cleanSnapshot baseSnap commitSnap targetSnap)⟩

/-- `commit_cherry_pick_snapshot`: HEAD stays. -/
def commitCherryPickSnapshot (order : RowOrder) (scope : ContextUri) (commit target : CommitId)
    (ontoBranch : Option BranchName) (finalSnap : Snapshot) (now : DateTime) :
    Except VersionError (CommitId × PgVersionStore) := do
  let scopeKey := scope.canonical
  let deltas := diffSnapshots (st.reconstructSnapshot order target) finalSnap
  let author := (st.tables.commits[commit]?).elim Author.ofSystem (·.author)
  let onto := ontoBranch.elim s!"{target}" (·.asStr)
  let (id, tx) ← st.insertCommit scopeKey [target] author s!"cherry-pick {commit} onto {onto}" now .empty deltas
  match ontoBranch with
  | none => return (id, tx)
  | some b =>
    let tx ← tx.updateBranchHead scopeKey b target id
    return (id, tx)

def cherryPickAtBranch (order : RowOrder) (scope : ContextUri) (commit target : CommitId)
    (ontoBranch : Option BranchName) (strategy : ConflictStrategy) (now : DateTime) :
    Except VersionError (CommitId × PgVersionStore) := do
  let session ← st.buildCherryPickSession order scope commit target (ontoBranch.getD SqliteVersionStore.commitName) 0
  let uris := session.conflicts.map (fun c => c.uri.canonical)
  ensure (strategy ≠ .fail || uris.isEmpty) (.mergeConflict <|
    s!"cherry-pick {commit} onto {target}: {uris.length} URI(s) conflicted: " ++ ", ".intercalate uris)
  let finalSnap ← applySessionResolutions session (SqliteVersionStore.strategyResolutions strategy session.conflicts)
  st.commitCherryPickSnapshot order scope commit target ontoBranch finalSnap now

def cherryPick (order : RowOrder) (scope : ContextUri) (commit : CommitId) (onto : BranchName)
    (strategy : ConflictStrategy) (now : DateTime) : Except VersionError (CommitId × PgVersionStore) := do
  let target ← st.tables.branchHead scope.canonical onto
  st.cherryPickAtBranch order scope commit target (some onto) strategy now

/-- The picking loop of `rebase`: every pick is a transaction of its own. -/
def pickAll (order : RowOrder) (scope : ContextUri) (strategy : ConflictStrategy) (clock : CommitId → DateTime) :
    PgVersionStore → List CommitId → CommitId → List CommitId → Outcome PgVersionStore (CommitId × List CommitId)
  | st, [], target, applied => ⟨.ok (target, applied), st⟩
  | st, cid::own, target, applied =>
    match st.cherryPickAtBranch order scope cid target none strategy (clock st.tables.nextId) with
    | .ok (new, st) => pickAll order scope strategy clock st own new (applied ++ [new])
    | .error e => ⟨.error (SqliteVersionStore.rebaseHalted cid e), st⟩

/-- The last transaction of `rebase`: move `branch` to the new tip. -/
def finishRebase (scopeKey : String) (branch : BranchName) (expected : CommitId)
    (picked : Outcome PgVersionStore (CommitId × List CommitId)) : Outcome PgVersionStore (List CommitId) :=
  match picked.result with
  | .error e => ⟨.error e, picked.store⟩
  | .ok (target, applied) => .ofTx picked.store
      ((picked.store.updateBranchHead scopeKey branch expected target).map (fun tx => (applied, tx)))

def rebase (order : RowOrder) (scope : ContextUri) (branch onto : BranchName) (strategy : ConflictStrategy)
    (clock : CommitId → DateTime) : Outcome PgVersionStore (List CommitId) :=
  let scopeKey := scope.canonical
  match st.tables.branchHead scopeKey branch, st.tables.branchHead scopeKey onto with
  | .error e, _ => ⟨.error e, st⟩
  | .ok _, .error e => ⟨.error e, st⟩
  | .ok branchHead, .ok ontoHead =>
    let own := st.tables.commitsToRebase ontoHead (st.tables.commits.size + 1) [] branchHead
    finishRebase scopeKey branch branchHead (pickAll order scope strategy clock st own ontoHead [])

/-- `squash`: the new commit is stored, and no reference moves to it. -/
def squash (order : RowOrder) (scope : ContextUri) (commits : List CommitId) (message : String) (now : DateTime) :
    Except VersionError (SquashResult × PgVersionStore) :=
  match commits.head?, commits.getLast? with
  | some oldest, some newest => do
    ensure (2 ≤ commits.length) (.storage "squash needs >= 2 commits")
    let scopeKey := scope.canonical
    let parent := st.tables.firstParent oldest
    let deltas := diffSnapshots (st.baseSnapshot order parent) (st.reconstructSnapshot order newest)
    let (id, tx) ← st.insertCommit scopeKey parent.toList .ofSystem message now .empty deltas
    return (⟨id, commits.length⟩, tx)
  | _, _ => .error (.storage "squash needs >= 2 commits")

/-- `continue_conflict_session`, on a session the caller hands back. -/
def continueConflictSession (order : RowOrder) (session : ConflictSession) (resolutions : ConflictResolutionSet)
    (clock : CommitId → DateTime) : Outcome PgVersionStore (List CommitId) :=
  match applySessionResolutions session resolutions with
  | .error e => ⟨.error e, st⟩
  | .ok finalSnap =>
    match session.operation with
    | .cherryPick commit onto => .ofTx st
        ((st.commitCherryPickSnapshot order session.scope commit session.target (some onto) finalSnap
          (clock st.tables.nextId)).map (fun (new, tx) => ([new], tx)))
    | .rebase branch _ =>
      match session.commits with
      | [] => ⟨.error (.conflictSessionUnavailable s!"{session.id}"), st⟩
      | first::rest =>
        match st.commitCherryPickSnapshot order session.scope first session.target none finalSnap
            (clock st.tables.nextId) with
        | .error e => ⟨.error e, st⟩
        | .ok (new, st) => finishRebase session.scope.canonical branch session.target
            (pickAll order session.scope .fail clock st rest new [new])

/-- `cache_put_snapshot` after a read; an identifier not yet drawn cannot be asked for. -/
def remember (order : RowOrder) (id : CommitId) : PgVersionStore :=
  if id < st.tables.nextId then
    { st with tables := { st.tables with cache := st.tables.cache.insert id (st.reconstructSnapshot order id) } }
  else st

def evict (id : CommitId) : PgVersionStore :=
  { st with tables := { st.tables with cache := st.tables.cache.erase id } }

/-- `checkpoint_put` after a read, for a commit that is stored. -/
def checkpointPut (order : RowOrder) (id : CommitId) : PgVersionStore :=
  if id ∈ st.tables.commits then { st with checkpoints := st.checkpoints.insert id (st.reconstructSnapshot order id) }
  else st

/-- A checkpoint that `checkpoint_prune` drops. -/
def checkpointPrune (id : CommitId) : PgVersionStore := { st with checkpoints := st.checkpoints.erase id }

end PgVersionStore
end UwuContextDb.Version
