import UwuContextDb.Version.SnapshotCache

/-! Runs of `PgVersionStore`, with its two levels of snapshots, against the plain replay of its rows. -/

namespace UwuContextDb.Version

open MapEdit StateMachine

/-- A call of the version store, or what happens to a checkpoint. `remember` and `evict` are about L1. -/
inductive PgOp
  | call (op : SqliteOp)
  | checkpointPut (id : CommitId)
  | checkpointPrune (id : CommitId)

variable {message : String} {metadata : CommitMeta} {onto : Option BranchName} {clock : CommitId → DateTime}
  {branch : BranchName}

namespace PgVersionStore

def afterTx {α : Type} (st : PgVersionStore) (r : Except VersionError (α × PgVersionStore)) : PgVersionStore :=
  (Outcome.ofTx st r).store

def step (services : Services) (order : RowOrder) (st : PgVersionStore) : PgOp → PgVersionStore
  | .call (.commit scope changes metadata now) => st.afterTx (st.commit scope changes metadata now)
  | .call (.createBranch scope name from_ bt now) => st.afterTx (st.createBranch scope name from_ bt now)
  | .call (.deleteBranch scope name) => st.afterTx (st.deleteBranch scope name)
  | .call (.switchHead scope branch) => st.afterTx (st.switchHead scope branch)
  | .call (.createTag scope tag) => st.afterTx (st.createTag scope tag)
  | .call (.merge _ scope from_ into strategy now) => st.afterTx (st.merge order scope from_ into strategy now)
  | .call (.knowledgeMerge _ scope from_ into strategy now) =>
    st.afterTx (st.knowledgeMerge services order scope from_ into strategy now)
  | .call (.cherryPick _ scope picked onto strategy now) => st.afterTx (st.cherryPick order scope picked onto strategy now)
  | .call (.rebase _ scope branch onto strategy clock) => (st.rebase order scope branch onto strategy clock).store
  | .call (.squash _ scope commits message now) => st.afterTx (st.squash order scope commits message now)
  | .call (.continueConflictSession _ session resolutions clock) =>
    (st.continueConflictSession order session resolutions clock).store
  | .call (.gc recentScan victimScan scope policy now) => st.afterTx (st.gc recentScan victimScan scope policy now)
  | .call (.remember _ id) => st.remember order id
  | .call (.evict id) => st.evict id
  | .checkpointPut id => st.checkpointPut order id
  | .checkpointPrune id => st.checkpointPrune id

inductive Grows : PgVersionStore → PgVersionStore → Prop
  | refs (st st' : PgVersionStore) (hc : st'.tables.commits = st.tables.commits) (hn : st'.tables.nextId = st.tables.nextId)
    (hk : st'.tables.cache = st.tables.cache) (hp : st'.checkpoints = st.checkpoints) : Grows st st'
  | insert (st st' : PgVersionStore) (row : CommitRow)
    (hc : st'.tables.commits = st.tables.commits.insert st.tables.nextId row)
    (hn : st'.tables.nextId = st.tables.nextId + 1) (hk : st'.tables.cache = st.tables.cache)
    (hp : st'.checkpoints = st.checkpoints) : Grows st st'
  | trans {st tx st' : PgVersionStore} (h : Grows st tx) (h' : Grows tx st') : Grows st st'

variable {st st' tx tx' : PgVersionStore} {scope : String} {id expected head : CommitId}

theorem grows_refl (st : PgVersionStore) : Grows st st := .refs st st rfl rfl rfl rfl

theorem grows_withRefs (st : PgVersionStore) (tbl : SqliteVersionStore) : Grows st (st.withRefs tbl) :=
  .refs st _ rfl rfl rfl rfl

theorem afterTx_cases {α : Type} {motive : PgVersionStore → Prop} {r : Except VersionError (α × PgVersionStore)}
    (hs : motive st) (ho : ∀ a tx, r = .ok (a, tx) → motive tx) : motive (st.afterTx r) := by
  cases r with
  | error e => exact hs
  | ok p => exact ho p.1 p.2 rfl

theorem updateBranchHead_grows {name : BranchName} (h : st.updateBranchHead scope name expected head = .ok st') :
    Grows st st' := by
  obtain ⟨tbl,-,rfl⟩ := map_eq_ok.mp h
  exact grows_withRefs st tbl

theorem insertCommit_grows {parents : List CommitId} {author : Author} {now : DateTime} {deltas : List DeltaRow}
    (h : st.insertCommit scope parents author message now metadata deltas = .ok (id, tx)) : Grows st tx := by
  unfold insertCommit at h
  split at h
  · split at h
    · cases h
    · cases h
      exact .insert st _ _ rfl rfl rfl rfl
  · cases h

section Picks

variable {order : RowOrder} {scope : ContextUri} {commit target new : CommitId} {strategy : ConflictStrategy}

theorem commitCherryPickSnapshot_grows {finalSnap : Snapshot} {now : DateTime}
    (h : st.commitCherryPickSnapshot order scope commit target onto finalSnap now = .ok (new, st')) : Grows st st' := by
  simp only [commitCherryPickSnapshot,bind_eq_ok] at h
  obtain ⟨⟨id,tx⟩,hi,h⟩ := h
  cases onto with
  | none =>
    obtain ⟨-,rfl⟩ := Prod.mk.inj (Except.ok.inj h)
    exact insertCommit_grows hi
  | some b =>
    obtain ⟨tx',hb,hr⟩ := bind_eq_ok.mp h
    obtain ⟨-,rfl⟩ := Prod.mk.inj (Except.ok.inj hr)
    exact (insertCommit_grows hi).trans (updateBranchHead_grows hb)

theorem cherryPickAtBranch_grows {now : DateTime}
    (h : st.cherryPickAtBranch order scope commit target onto strategy now = .ok (new, st')) : Grows st st' := by
  simp only [cherryPickAtBranch,bind_eq_ok] at h
  obtain ⟨ses,-,u,-,finalSnap,-,hc⟩ := h
  exact commitCherryPickSnapshot_grows hc

theorem pickAll_grows {own applied : List CommitId} :
    Grows st (pickAll order scope strategy clock st own target applied).store := by
  induction own generalizing st target applied with
  | nil => exact grows_refl st
  | cons cid own ih =>
    rw [pickAll]
    cases hp : st.cherryPickAtBranch order scope cid target none strategy (clock st.tables.nextId) with
    | error e => exact grows_refl st
    | ok r => exact (cherryPickAtBranch_grows hp).trans ih

theorem finishRebase_grows {scopeKey : String} {expected : CommitId}
    {picked : Outcome PgVersionStore (CommitId × List CommitId)} (h : Grows st picked.store) :
    Grows st (finishRebase scopeKey branch expected picked).store := by
  unfold finishRebase
  cases hr : picked.result with
  | error e => exact h
  | ok r =>
    show Grows st (afterTx picked.store _)
    refine afterTx_cases (motive := fun s => Grows st s) h (fun applied tx ho => ?_)
    obtain ⟨tx',hb,he⟩ := map_eq_ok.mp ho
    obtain ⟨-,rfl⟩ := Prod.mk.inj he
    exact h.trans (updateBranchHead_grows hb)

end Picks

section Operations

variable {order : RowOrder} {scope : ContextUri} {from_ into : BranchName} {now : DateTime} {res : MergeResult}

end Operations

structure Exact (st : PgVersionStore) (order : RowOrder) : Prop where
  l1 : st.tables.Caches order st.tables.cache
  l2 : st.tables.Caches order st.checkpoints

variable {order : RowOrder}

theorem aged (st : PgVersionStore) : st.tables.Aged := ⟨st.fresh,st.older⟩

theorem Exact.hit (h : st.Exact order) {snap : Snapshot} (hi : st.tables.cache[id]?.or st.checkpoints[id]? = some snap) :
    id < st.tables.nextId ∧ snap = st.tables.replaySnapshot order id := by
  cases hl1 : st.tables.cache[id]? with
  | none => exact h.l2 id snap (by simpa [hl1] using hi)
  | some s => exact h.l1 id snap (by simpa [hl1] using hi)

theorem Exact.reconstruct (h : st.Exact order) (id : CommitId) :
    st.reconstructSnapshot order id = st.tables.replaySnapshot order id :=
  SqliteVersionStore.reconstruct_of_caches st.aged _ (fun _ _ hi => h.hit hi) id

theorem Exact.grows (h : st.Exact order) (hg : Grows st st') : st'.Exact order := by
  induction hg with
  | refs st st' hc hn hk hp => exact ⟨hk ▸ h.l1.of_commits hc hn,hp ▸ h.l2.of_commits hc hn⟩
  | insert st st' row hc hn hk hp =>
    exact ⟨hk ▸ h.l1.insertCommit st.aged hc hn,hp ▸ h.l2.insertCommit st.aged hc hn⟩
  | trans h₁ h₂ ih₁ ih₂ => exact ih₂ (ih₁ h)

theorem Exact.remember (h : st.Exact order) (id : CommitId) : (st.remember order id).Exact order := by
  unfold PgVersionStore.remember
  split
  · rename_i hi
    rw [h.reconstruct id]
    exact ⟨(h.l1.insert hi).of_commits rfl rfl,h.l2.of_commits rfl rfl⟩
  · exact h

theorem Exact.evict (h : st.Exact order) (id : CommitId) : (st.evict id).Exact order :=
  ⟨(h.l1.erase id).of_commits rfl rfl,h.l2.of_commits rfl rfl⟩

theorem Exact.checkpointPut (h : st.Exact order) (id : CommitId) : (st.checkpointPut order id).Exact order := by
  unfold PgVersionStore.checkpointPut
  split
  · rename_i hi
    rw [h.reconstruct id]
    exact ⟨h.l1,h.l2.insert (st.fresh id hi)⟩
  · exact h

theorem Exact.checkpointPrune (h : st.Exact order) (id : CommitId) : (st.checkpointPrune id).Exact order :=
  ⟨h.l1,h.l2.erase id⟩

/-- The collection of `ids` takes nothing from below a snapshot at hand: those that stay at either level replay
to the same without the rows of the victims. -/
def Undisturbed (st : PgVersionStore) (order : RowOrder) (ids : List CommitId) : Prop :=
  ∀ id : CommitId, id ∈ st.tables.cache ∨ id ∈ st.checkpoints → id ∉ ids →
    ((st.tables.snapshotReads order).uncached.forget ids).reconstruct (st.tables.nextId + 1) id =
      st.tables.replaySnapshot order id

def KeepsSnapshots (order : RowOrder) (st : PgVersionStore) : PgOp → Prop
  | .call (.gc recentScan victimScan scope policy now) =>
    st.Undisturbed order (st.tables.gcVictims recentScan victimScan scope.canonical policy now)
  | _ => True

end PgVersionStore

section Sample

open SqliteVersionStore (sampleScope sampleServices sampleEntry mainBranch addSample)

end Sample

end UwuContextDb.Version
