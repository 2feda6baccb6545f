import UwuContextDb.Version.Dag
import UwuContextDb.Version.Snapshot

/-! `SqliteVersionStore`: its tables, the reads over them and the statements its
transactions are made of. -/

namespace UwuContextDb.Version

/-- A row of `version_commits` with its rows in `version_commit_parents` and
`version_entry_deltas`, which are written and deleted with it. -/
structure CommitRow where
  scope : String
  parents : List CommitId
  treeHash : ContentHash
  author : Author
  message : String
  timestamp : DateTime
  metadata : CommitMeta
  deltas : DeltaTable

/-- A row of `version_heads`. -/
structure HeadRow where
  commit : CommitId
  attachedBranch : Option String
  deriving DecidableEq

structure SqliteVersionStore where
  commits : Std.ExtTreeMap CommitId CommitRow
  heads : Std.ExtTreeMap String HeadRow
  branches : String → Std.ExtTreeMap String Branch
  tags : String → Std.ExtTreeMap String Tag
  cache : Std.ExtTreeMap CommitId Snapshot
  nextId : CommitId

/-- An operation's result and the store it leaves; a transaction that fails leaves it alone. -/
structure Outcome (σ α : Type) where
  result : Except VersionError α
  store : σ

/-- `tx.commit()` on success, roll back otherwise. -/
def Outcome.ofTx {σ α : Type} (st : σ) : Except VersionError (α × σ) → Outcome σ α
  | .ok (a, tx) => ⟨.ok a, tx⟩
  | .error e => ⟨.error e, st⟩

namespace SqliteVersionStore

def empty : SqliteVersionStore := ⟨∅, ∅, fun _ => ∅, fun _ => ∅, ∅, 0⟩

section Reads

variable (st : SqliteVersionStore)

def dag : Dag := st.commits.map (fun _ row => row.parents)

def firstParent (id : CommitId) : Option CommitId := st.dag.firstParent id

/-- `load_deltas`, which has no `ORDER BY`. -/
def loadDeltas (order : RowOrder) (id : CommitId) : List DeltaRow :=
  order.order id ((st.commits[id]?).elim [] (fun row => row.deltas.rows))

def snapshotReads (order : RowOrder) : SnapshotReads := ⟨st.firstParent, fun id => st.cache[id]?, st.loadDeltas order⟩

/-- `reconstruct_snapshot`: every walk to older commits ends before the identifiers drawn so far do. The
L2 checkpoints are always empty: their insert leaves out a column that is `NOT NULL` without a default. -/
def reconstructSnapshot (order : RowOrder) (id : CommitId) : Snapshot :=
  (st.snapshotReads order).reconstruct (st.nextId + 1) id

def baseSnapshot (order : RowOrder) (id : Option CommitId) : Snapshot :=
  (st.snapshotReads order).base (st.nextId + 1) id

def getHead (scope : String) : Option CommitId := (st.heads[scope]?).map (·.commit)

def getBranch (scope : String) (name : BranchName) : Option Branch := (st.branches scope)[name.asStr]?

def branchHead (scope : String) (name : BranchName) : Except VersionError CommitId :=
  match st.getBranch scope name with
  | some b => .ok b.head
  | none => .error (.notFound s!"branch {name.asStr}")

def commitTimestamp (id : CommitId) : Option DateTime := (st.commits[id]?).map (·.timestamp)

def requireCommitScope (id : CommitId) (scope : String) : Except VersionError Unit :=
  match st.commits[id]? with
  | some row => if row.scope = scope then .ok () else .error (.notFound s!"commit {id} in scope {scope}")
  | none => .error (.notFound s!"commit {id}")

def isAncestor (ancestor candidate : CommitId) : Bool := st.dag.isAncestor ancestor candidate

def mergeBase (a b : CommitId) : Option CommitId := st.dag.mergeBase a b

/-- `commits_to_rebase`: the first-parent chain down to an ancestor of `onto`, oldest first. -/
def commitsToRebase (ontoHead : CommitId) : ℕ → List CommitId → CommitId → List CommitId
  | 0, own, _ => own
  | fuel+1, own, cur =>
    if st.isAncestor cur ontoHead then own else
      match st.firstParent cur with
      | some p => commitsToRebase ontoHead fuel (cur::own) p
      | none => cur::own

end Reads

section Statements

variable (tx : SqliteVersionStore)

/-- `insert_commit_row` and `insert_deltas` under the next identifier. Every parent must exist,
and none may be listed twice. -/
def insertCommit (scope : String) (parents : List CommitId) (author : Author) (message : String)
    (now : DateTime) (metadata : CommitMeta) (deltas : List DeltaRow) :
    Except VersionError (CommitId × SqliteVersionStore) :=
  if ∃ p ∈ parents, p ∉ tx.commits then .error (.storage "FOREIGN KEY constraint failed")
  else if ¬ parents.Nodup then .error (.storage "UNIQUE constraint failed")
  else
    let row : CommitRow :=
      ⟨scope, parents, s!"tree-{tx.nextId}", author, message, now, metadata, insertDeltas deltas⟩
    .ok (tx.nextId, { tx with commits := tx.commits.insert tx.nextId row, nextId := tx.nextId + 1 })

def setHead (scope : String) (head : HeadRow) : SqliteVersionStore :=
  { tx with heads := tx.heads.insert scope head }

def setBranch (scope name : String) (b : Branch) : SqliteVersionStore :=
  { tx with branches := Function.update tx.branches scope ((tx.branches scope).insert name b) }

@[simp] theorem heads_setBranch (sc name : String) (b : Branch) : (tx.setBranch sc name b).heads = tx.heads := rfl

@[simp] theorem getElem?_setHead (sc sc' : String) (head : HeadRow) :
    (tx.setHead sc head).heads[sc']? = if sc = sc' then some head else tx.heads[sc']? := by
  simp [setHead,Std.ExtTreeMap.getElem?_insert]

@[simp] theorem getElem?_setBranch (sc name sc' name' : String) (b : Branch) :
    ((tx.setBranch sc name b).branches sc')[name']? =
      if sc = sc' ∧ name = name' then some b else (tx.branches sc')[name']? := by
  by_cases hs : sc = sc'
  · subst hs
    simp [setBranch,Std.ExtTreeMap.getElem?_insert]
  · simp [setBranch,hs,Function.update_of_ne (Ne.symm hs)]

theorem getElem?_eraseBranch (sc name sc' name' : String) :
    (Function.update tx.branches sc ((tx.branches sc).erase name) sc')[name']? =
      if sc = sc' ∧ name = name' then none else (tx.branches sc')[name']? := by
  by_cases hs : sc = sc'
  · subst hs
    simp [Std.ExtTreeMap.getElem?_erase]
  · simp [hs,Function.update_of_ne (Ne.symm hs)]

/-- `UPDATE version_heads SET commit_id = ? WHERE scope = ? AND commit_id = ?`: the rows affected. -/
def casHead (scope : String) (expected commit : CommitId) : Bool × SqliteVersionStore :=
  match tx.heads[scope]? with
  | some head => if head.commit = expected then (true, tx.setHead scope ⟨commit, head.attachedBranch⟩) else (false, tx)
  | none => (false, tx)

/-- `UPDATE version_branches SET head = ? WHERE scope = ? AND name = ? AND head = ?`. -/
def casBranch (scope name : String) (expected head : CommitId) : Bool × SqliteVersionStore :=
  match (tx.branches scope)[name]? with
  | some b => if b.head = expected then (true, tx.setBranch scope name { b with head := head }) else (false, tx)
  | none => (false, tx)

def updateHeadInTx (scope : String) (expected commit : CommitId) : Except VersionError SqliteVersionStore :=
  match tx.casHead scope expected commit with
  | (true, tx) => .ok tx
  | (false, _) => .error (.storage s!"HEAD for {scope} changed concurrently")

def updateBranchHead (scope : String) (name : BranchName) (expected head : CommitId) :
    Except VersionError SqliteVersionStore :=
  match tx.casBranch scope name.asStr expected head with
  | (true, tx) => .ok tx
  | (false, _) => .error (.storage s!"branch {name.asStr} changed concurrently")

/-- `advance_head_if_matches`, and the error of the callers when it does not match. -/
def advanceHead (scope : String) (expected commit : CommitId) (during : String) :
    Except VersionError SqliteVersionStore :=
  match tx.casHead scope expected commit with
  | (true, tx) => .ok tx
  | (false, _) => .error (.storage s!"HEAD changed concurrently during {during}")

/-- The branch update of `commit`, when HEAD is attached. -/
def advanceAttached (scope : String) (attached : Option String) (expected head : CommitId) :
    Except VersionError SqliteVersionStore :=
  match attached with
  | none => .ok tx
  | some branch =>
    match tx.casBranch scope branch expected head with
    | (true, tx) => .ok tx
    | (false, _) => .error (.storage s!"attached branch {branch} changed concurrently")

end Statements

end SqliteVersionStore
end UwuContextDb.Version

/-! The operations of `SqliteVersionStore` that change the store. -/

namespace UwuContextDb.Version

namespace SqliteVersionStore

variable (st : SqliteVersionStore)

/-- `commit`: the parent is HEAD, and an attached branch moves with it. -/
def commit (scope : ContextUri) (changes : ChangeSet) (metadata : CommitMeta) (now : DateTime) :
    Except VersionError (CommitId × SqliteVersionStore) := do
  let scopeKey := scope.canonical
  let rows ← changeRows changes
  let (id, tx) ← st.insertCommit scopeKey (st.getHead scopeKey).toList .ofSystem "" now metadata rows
  match st.heads[scopeKey]? with
  | some head =>
    let tx ← tx.advanceAttached scopeKey head.attachedBranch head.commit id
    let tx ← tx.updateHeadInTx scopeKey head.commit id
    return (id, tx)
  | none => return (id, tx.setHead scopeKey ⟨id, none⟩)

def createBranch (scope : ContextUri) (name : BranchName) (from_ : CommitId) (bt : BranchType) (now : DateTime) :
    Except VersionError (Branch × SqliteVersionStore) := do
  let scopeKey := scope.canonical
  ensure (st.getBranch scopeKey name).isNone (.branchExists name.asStr)
  st.requireCommitScope from_ scopeKey
  let b : Branch := ⟨name, from_, from_, now, bt, .active⟩
  return (b, st.setBranch scopeKey name.asStr b)

/-- `delete_branch`: the key of the attached branch is `ON DELETE RESTRICT`. -/
def deleteBranch (scope : ContextUri) (name : BranchName) : Except VersionError (Unit × SqliteVersionStore) :=
  let scopeKey := scope.canonical
  if (st.heads[scopeKey]?).bind (·.attachedBranch) = some name.asStr ∧ name.asStr ∈ st.branches scopeKey then
    .error (.storage "FOREIGN KEY constraint failed")
  else
    .ok ((), { st with branches := Function.update st.branches scopeKey ((st.branches scopeKey).erase name.asStr) })

/-- `switch_head`: an `UPDATE`, which leaves a scope without HEAD alone. -/
def switchHead (scope : ContextUri) (branch : BranchName) : Except VersionError (Unit × SqliteVersionStore) := do
  let scopeKey := scope.canonical
  let head ← st.branchHead scopeKey branch
  match st.heads[scopeKey]? with
  | some _ => return ((), st.setHead scopeKey ⟨head, some branch.asStr⟩)
  | none => return ((), st)

/-- `create_tag`: an existing tag of the name is replaced. -/
def createTag (scope : ContextUri) (tag : Tag) : Except VersionError (Unit × SqliteVersionStore) := do
  let scopeKey := scope.canonical
  st.requireCommitScope tag.target scopeKey
  return ((), { st with tags := Function.update st.tags scopeKey ((st.tags scopeKey).insert tag.name.asStr tag) })

/-- Move `into` and then HEAD, which must stand on the same commit. -/
def fastForward (scopeKey : String) (into : BranchName) (intoHead fromHead : CommitId) :
    Except VersionError (MergeResult × SqliteVersionStore) := do
  let tx ← st.updateBranchHead scopeKey into intoHead fromHead
  let tx ← tx.advanceHead scopeKey intoHead fromHead "merge"
  return (⟨fromHead, []⟩, tx)

/-- The loop body of `merge` at one URI: the value it leaves there, and whether it is a conflict. -/
def mergeUri (strategy : MergeStrategy) (base ours theirs : Option Json) : Option Json × Bool :=
  if theirs = base then (ours, false)
  else if ours = base ∨ ours = theirs then (theirs, false)
  else match strategy with
    | .theirs => (theirs, false)
    | .fastForward => (theirs, false)
    | .ours => (ours, false)
    | .threeWay => (ours, true)

def invalidUri (uri : String) : VersionError := .storage s!"invalid uri: {uri}"

def merge (order : RowOrder) (scope : ContextUri) (from_ into : BranchName) (strategy : MergeStrategy)
    (now : DateTime) : Except VersionError (MergeResult × SqliteVersionStore) := do
  let scopeKey := scope.canonical
  let fromHead ← st.branchHead scopeKey from_
  let intoHead ← st.branchHead scopeKey into
  if st.isAncestor intoHead fromHead then st.fastForward scopeKey into intoHead fromHead
  else
    let baseSnap := st.baseSnapshot order (st.mergeBase fromHead intoHead)
    let fromSnap := st.reconstructSnapshot order fromHead
    let intoSnap := st.reconstructSnapshot order intoHead
    let (merged, conflicts) ← mergeSnapshots (mergeUri strategy) invalidUri baseSnap intoSnap fromSnap
      (mergeKeys baseSnap intoSnap fromSnap) intoSnap
    let (id, tx) ← st.insertCommit scopeKey [intoHead, fromHead] .ofSystem
      s!"merge {into.asStr} <- {from_.asStr} conflicts={conflicts.length}" now .empty (diffSnapshots intoSnap merged)
    let tx ← tx.updateBranchHead scopeKey into intoHead id
    let tx ← tx.advanceHead scopeKey intoHead id "merge"
    return (⟨id, conflicts⟩, tx)

def knowledgeMerge (services : Services) (order : RowOrder) (scope : ContextUri) (from_ into : BranchName)
    (strategy : KnowledgeMergeStrategy) (now : DateTime) :
    Except VersionError (MergeResult × SqliteVersionStore) := do
  let scopeKey := scope.canonical
  let fromHead ← st.branchHead scopeKey from_
  let intoHead ← st.branchHead scopeKey into
  if st.isAncestor intoHead fromHead then st.fastForward scopeKey into intoHead fromHead
  else
    let fromSnap := st.reconstructSnapshot order fromHead
    let intoSnap := st.reconstructSnapshot order intoHead
    let merged := services.lwwMerge fromSnap (clockOf (st.commitTimestamp fromHead)) from_.asStr
      intoSnap (clockOf (st.commitTimestamp intoHead)) into.asStr
    let conflicts ← services.detect strategy fromSnap intoSnap
    let (id, tx) ← st.insertCommit scopeKey [intoHead, fromHead] .ofSystem
      s!"knowledge_merge {into.asStr} <- {from_.asStr} conflicts={conflicts.length}" now .empty
      (diffSnapshots intoSnap merged)
    let tx ← tx.updateBranchHead scopeKey into intoHead id
    let tx ← tx.advanceHead scopeKey intoHead id "rewrite"
    return (⟨id, conflicts⟩, tx)

end SqliteVersionStore
end UwuContextDb.Version
