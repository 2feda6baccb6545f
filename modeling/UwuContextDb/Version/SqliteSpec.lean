import UwuContextDb.Library.Run
import UwuContextDb.Version.SqliteRewrite

/-! What a successful operation of `SqliteVersionStore` did: one lemma for each statement and
each transaction. -/

namespace UwuContextDb.Version

open StateMachine

/-- The branch `name` of the scope, set to `head`. -/
def SqliteVersionStore.moveBranch (tx : SqliteVersionStore) (scope name : String) (b : Branch) (head : CommitId) :
    SqliteVersionStore := tx.setBranch scope name { b with head := head }

namespace SqliteVersionStore

variable {st tx tx' : SqliteVersionStore} {sc name : String} {id expected head : CommitId}

/-- The store after `insert_commit_row`. -/
def withCommit (st : SqliteVersionStore) (row : CommitRow) : SqliteVersionStore :=
  { st with commits := st.commits.insert st.nextId row, nextId := st.nextId + 1 }

variable {now : DateTime} {md : CommitMeta} {branch : BranchName} {u : Unit} {res : MergeResult}
  {ord : RowOrder} {from_ into : BranchName} {commit tgt : CommitId} {onto : Option BranchName}
  {strat : ConflictStrategy} {f : CommitId → Except VersionError Unit}

theorem insertCommit_ok {parents : List CommitId} {author : Author} {message : String} {deltas : List DeltaRow}
    (h : st.insertCommit sc parents author message now md deltas = .ok (id, tx)) :
    (∀ p ∈ parents, p ∈ st.commits) ∧ id = st.nextId ∧ ∃ row : CommitRow, row.scope = sc ∧
      row.parents = parents ∧ row.timestamp = now ∧ row.deltas = insertDeltas deltas ∧ tx = st.withCommit row := by
  unfold insertCommit at h
  split at h
  · cases h
  · rename_i hp
    split at h
    · cases h
    · cases h
      exact ⟨by simpa using hp,rfl,_,rfl,rfl,rfl,rfl,rfl⟩

theorem casHead_true (h : tx.casHead sc expected head = (true, tx')) :
    ∃ row, tx.heads[sc]? = some row ∧ row.commit = expected ∧ tx' = tx.setHead sc ⟨head,row.attachedBranch⟩ := by
  unfold casHead at h
  split at h
  · rename_i row hr
    split at h
    · rename_i he
      cases h
      exact ⟨row,hr,he,rfl⟩
    · cases h
  · cases h

theorem casBranch_true (h : tx.casBranch sc name expected head = (true, tx')) :
    ∃ b, (tx.branches sc)[name]? = some b ∧ b.head = expected ∧ tx' = tx.moveBranch sc name b head := by
  unfold casBranch at h
  split at h
  · rename_i b hb
    split at h
    · rename_i he
      cases h
      exact ⟨b,hb,he,rfl⟩
    · cases h
  · cases h

theorem updateHeadInTx_ok (h : tx.updateHeadInTx sc expected head = .ok tx') :
    ∃ row, tx.heads[sc]? = some row ∧ row.commit = expected ∧ tx' = tx.setHead sc ⟨head,row.attachedBranch⟩ := by
  unfold updateHeadInTx at h
  split at h
  · rename_i hc
    cases h
    exact casHead_true hc
  · cases h

theorem advanceHead_ok {during : String} (h : tx.advanceHead sc expected head during = .ok tx') :
    ∃ row, tx.heads[sc]? = some row ∧ row.commit = expected ∧ tx' = tx.setHead sc ⟨head,row.attachedBranch⟩ := by
  unfold advanceHead at h
  split at h
  · rename_i hc
    cases h
    exact casHead_true hc
  · cases h

theorem updateBranchHead_ok (h : tx.updateBranchHead sc branch expected head = .ok tx') :
    ∃ b, (tx.branches sc)[branch.asStr]? = some b ∧ b.head = expected ∧
      tx' = tx.moveBranch sc branch.asStr b head := by
  unfold updateBranchHead at h
  split at h
  · rename_i hc
    cases h
    exact casBranch_true hc
  · cases h

theorem advanceAttached_ok {attached : Option String}
    (h : tx.advanceAttached sc attached expected head = .ok tx') :
    (attached = none ∧ tx' = tx) ∨ ∃ name b, attached = some name ∧ (tx.branches sc)[name]? = some b ∧
      b.head = expected ∧ tx' = tx.moveBranch sc name b head := by
  cases attached with
  | none =>
    cases h
    exact .inl ⟨rfl,rfl⟩
  | some name =>
    simp only [advanceAttached] at h
    split at h
    · rename_i hc
      cases h
      obtain ⟨b,hb,he,rfl⟩ := casBranch_true hc
      exact .inr ⟨name,b,rfl,hb,he,rfl⟩
    · cases h

theorem branchHead_ok (h : st.branchHead sc branch = .ok head) :
    ∃ b, (st.branches sc)[branch.asStr]? = some b ∧ b.head = head := by
  unfold branchHead getBranch at h
  split at h
  · rename_i b hb
    cases h
    exact ⟨b,hb,rfl⟩
  · cases h

def InScope (st : SqliteVersionStore) (id : CommitId) (scope : String) : Prop :=
  ∃ row, st.commits[id]? = some row ∧ row.scope = scope

theorem InScope.mem (h : st.InScope id sc) : id ∈ st.commits := by
  obtain ⟨row,hr,-⟩ := h
  exact MapEdit.mem_of_getElem? hr

theorem requireCommitScope_ok : st.requireCommitScope id sc = .ok u ↔ st.InScope id sc := by
  unfold requireCommitScope InScope
  cases hr : st.commits[id]? with
  | none => simp
  | some row => by_cases hs : row.scope = sc <;> simp [hs]

inductive CommitMoves (st tx : SqliteVersionStore) (scope : String) (id : CommitId) : SqliteVersionStore → Prop
  | first (h : st.heads[scope]? = none) : CommitMoves st tx scope id (tx.setHead scope ⟨id, none⟩)
  | detached (row : HeadRow) (h : st.heads[scope]? = some row) (hd : row.attachedBranch = none) :
    CommitMoves st tx scope id (tx.setHead scope ⟨id, none⟩)
  | attached (row : HeadRow) (name : String) (b : Branch) (h : st.heads[scope]? = some row)
    (ha : row.attachedBranch = some name) (hb : (st.branches scope)[name]? = some b)
    (he : b.head = row.commit) :
    CommitMoves st tx scope id ((tx.moveBranch scope name b id).setHead scope ⟨id, some name⟩)

theorem commit_ok {sc : ContextUri} {changes : ChangeSet}
    (h : st.commit sc changes md now = .ok (id, tx')) :
    ∃ rows row, changeRows changes = .ok rows ∧ (∀ p ∈ row.parents, p ∈ st.commits) ∧ id = st.nextId ∧
      row.scope = sc.canonical ∧ row.parents = (st.getHead sc.canonical).toList ∧ row.timestamp = now ∧
      row.deltas = insertDeltas rows ∧ CommitMoves st (st.withCommit row) sc.canonical id tx' := by
  simp only [commit,bind_eq_ok] at h
  obtain ⟨rows,hr,⟨id',tx⟩,hi,h⟩ := h
  obtain ⟨hp,rfl,row,hs,hpa,ht,hd,rfl⟩ := insertCommit_ok hi
  refine ⟨rows,row,hr,hpa ▸ hp,?_⟩
  cases hh : st.heads[sc.canonical]? with
  | none =>
    simp only [hh,pure,Except.pure,Except.ok.injEq,Prod.mk.injEq] at h
    obtain ⟨rfl,rfl⟩ := h
    exact ⟨rfl,hs,hpa,ht,hd, .first hh⟩
  | some head =>
    simp only [hh,bind_eq_ok,pure,Except.pure,Except.ok.injEq,Prod.mk.injEq] at h
    obtain ⟨tx1,hbr,tx2,hhe,rfl,rfl⟩ := h
    rcases advanceAttached_ok hbr with ⟨ha,rfl⟩ | ⟨name,b,ha,hb,he,rfl⟩
    · obtain ⟨row2,hr2,-,rfl⟩ := updateHeadInTx_ok hhe
      obtain rfl : head = row2 := Option.some.inj (hh.symm.trans hr2)
      rw [ha]
      exact ⟨rfl,hs,hpa,ht,hd, .detached head hh ha⟩
    · obtain ⟨row2,hr2,-,rfl⟩ := updateHeadInTx_ok hhe
      obtain rfl : head = row2 := Option.some.inj (hh.symm.trans hr2)
      rw [ha]
      exact ⟨rfl,hs,hpa,ht,hd, .attached head name b hh ha hb he⟩

theorem createBranch_ok {sc : ContextUri} {name : BranchName} {bt : BranchType} {b : Branch}
    (h : st.createBranch sc name head bt now = .ok (b, tx')) :
    (st.branches sc.canonical)[name.asStr]? = none ∧
      st.InScope head sc.canonical ∧ b = ⟨name,head,head,now,bt, .active⟩ ∧
      tx' = st.setBranch sc.canonical name.asStr b := by
  simp only [createBranch,bind_eq_ok,ensure_ok,pure,Except.pure,Except.ok.injEq,Prod.mk.injEq] at h
  obtain ⟨-,hn,u,hs,rfl,rfl⟩ := h
  exact ⟨by simpa [getBranch] using hn,requireCommitScope_ok.mp hs,rfl,rfl⟩

theorem deleteBranch_ok {sc : ContextUri} {name : BranchName} (h : st.deleteBranch sc name = .ok (u, tx')) :
    ¬ ((st.heads[sc.canonical]?).bind (·.attachedBranch) = some name.asStr ∧ name.asStr ∈ st.branches sc.canonical) ∧
      tx' = { st with branches := (Function.update st.branches sc.canonical
        ((st.branches sc.canonical).erase name.asStr)) } := by
  unfold deleteBranch at h
  simp only at h
  split at h
  · cases h
  · rename_i hn
    cases h
    exact ⟨hn,rfl⟩

theorem switchHead_ok {sc : ContextUri} (h : st.switchHead sc branch = .ok (u, tx')) :
    ∃ b, (st.branches sc.canonical)[branch.asStr]? = some b ∧
      ((st.heads[sc.canonical]? = none ∧ tx' = st) ∨
        ∃ row, st.heads[sc.canonical]? = some row ∧ tx' = st.setHead sc.canonical ⟨b.head,some branch.asStr⟩) := by
  simp only [switchHead,bind_eq_ok] at h
  obtain ⟨head,he,h⟩ := h
  obtain ⟨b,hb,rfl⟩ := branchHead_ok he
  refine ⟨b,hb,?_⟩
  cases hh : st.heads[sc.canonical]? with
  | none =>
    simp only [hh,pure,Except.pure,Except.ok.injEq,Prod.mk.injEq] at h
    exact .inl ⟨rfl,h.2.symm⟩
  | some row =>
    simp only [hh,pure,Except.pure,Except.ok.injEq,Prod.mk.injEq] at h
    exact .inr ⟨row,rfl,h.2.symm⟩

theorem createTag_ok {sc : ContextUri} {tag : Tag} (h : st.createTag sc tag = .ok (u, tx')) :
    st.InScope tag.target sc.canonical ∧
      tx' = { st with tags := (Function.update st.tags sc.canonical
        ((st.tags sc.canonical).insert tag.name.asStr tag)) } := by
  simp only [createTag,bind_eq_ok,pure,Except.pure,Except.ok.injEq,Prod.mk.injEq] at h
  obtain ⟨u,hs,-,rfl⟩ := h
  exact ⟨requireCommitScope_ok.mp hs,rfl⟩

/-- A merge moves `into` and HEAD, which stood on the same commit, to `new`. -/
def MergeMoves (st tx : SqliteVersionStore) (scope into : String) (intoHead new : CommitId)
    (tx' : SqliteVersionStore) : Prop :=
  ∃ b row, (st.branches scope)[into]? = some b ∧ b.head = intoHead ∧ st.heads[scope]? = some row ∧
    row.commit = intoHead ∧ tx' = (tx.moveBranch scope into b new).setHead scope ⟨new, row.attachedBranch⟩

theorem mergeMoves_of_ok {tx0 tx1 : SqliteVersionStore} {into : BranchName} {new : CommitId} {during : String}
    (hh : tx.heads = st.heads) (hb : tx.branches = st.branches)
    (h0 : tx.updateBranchHead sc into expected new = .ok tx0)
    (h1 : tx0.advanceHead sc expected new during = .ok tx1) :
    MergeMoves st tx sc into.asStr expected new tx1 := by
  obtain ⟨b,hb0,he,rfl⟩ := updateBranchHead_ok h0
  obtain ⟨row,hr,hc,rfl⟩ := advanceHead_ok h1
  have hr' : tx.heads[sc]? = some row := hr
  exact ⟨b,row,by rw [← hb,hb0],he,by rw [← hh,hr'],hc,rfl⟩

theorem fastForward_ok {into : BranchName} {nh fh : CommitId}
    (h : st.fastForward sc into nh fh = .ok (res, tx')) :
    res = ⟨fh,[]⟩ ∧ MergeMoves st st sc into.asStr nh fh tx' := by
  simp only [fastForward,bind_eq_ok,pure,Except.pure,Except.ok.injEq,Prod.mk.injEq] at h
  obtain ⟨tx0,h0,tx1,h1,rfl,rfl⟩ := h
  exact ⟨rfl,mergeMoves_of_ok rfl rfl h0 h1⟩

inductive Merged (st : SqliteVersionStore) (order : RowOrder) (scope : String) (into : BranchName)
    (fromHead intoHead : CommitId) (merged : Snapshot → List ContextUri → Prop) :
    MergeResult → SqliteVersionStore → Prop
  | fastForward (tx' : SqliteVersionStore) (ha : st.isAncestor intoHead fromHead = true)
    (hm : MergeMoves st st scope into.asStr intoHead fromHead tx') :
    Merged st order scope into fromHead intoHead merged ⟨fromHead, []⟩ tx'
  | diverged (tx' : SqliteVersionStore) (row : CommitRow) (snap : Snapshot) (conflicts : List ContextUri)
    (ha : st.isAncestor intoHead fromHead = false) (hmerged : merged snap conflicts)
    (hp : ∀ p ∈ row.parents, p ∈ st.commits) (hs : row.scope = scope) (hpar : row.parents = [intoHead, fromHead])
    (hd : row.deltas = insertDeltas (diffSnapshots (st.reconstructSnapshot order intoHead) snap))
    (hm : MergeMoves st (st.withCommit row) scope into.asStr intoHead st.nextId tx') :
    Merged st order scope into fromHead intoHead merged ⟨st.nextId, conflicts⟩ tx'

theorem merge_ok {sc : ContextUri} {strat : MergeStrategy}
    (h : st.merge ord sc from_ into strat now = .ok (res, tx')) :
    ∃ fh nh, st.branchHead sc.canonical from_ = .ok fh ∧ st.branchHead sc.canonical into = .ok nh ∧
      Merged st ord sc.canonical into fh nh (fun snap conflicts =>
        let base := st.baseSnapshot ord (st.mergeBase fh nh)
        let theirs := st.reconstructSnapshot ord fh
        let ours := st.reconstructSnapshot ord nh
        mergeSnapshots (mergeUri strat) invalidUri base ours theirs (mergeKeys base ours theirs) ours =
          .ok (snap, conflicts)) res tx' := by
  simp only [merge,bind_eq_ok] at h
  obtain ⟨fh,hf,nh,hi,h⟩ := h
  refine ⟨fh,nh,hf,hi,?_⟩
  split at h
  · rename_i ha
    obtain ⟨rfl,hm⟩ := fastForward_ok h
    exact .fastForward tx' ha hm
  · rename_i ha
    simp only [bind_eq_ok,pure,Except.pure,Except.ok.injEq,Prod.mk.injEq] at h
    obtain ⟨⟨snap,conflicts⟩,he,⟨id,tx⟩,hn,tx0,h0,tx1,h1,rfl,rfl⟩ := h
    obtain ⟨hp,rfl,row,hs,hr,-,hd,rfl⟩ := insertCommit_ok hn
    exact .diverged tx1 row snap conflicts (by simpa using ha) he (hr ▸ hp) hs hr hd
      (mergeMoves_of_ok rfl rfl h0 h1)

theorem knowledgeMerge_ok {svc : Services} {sc : ContextUri} {strat : KnowledgeMergeStrategy}
    (h : st.knowledgeMerge svc ord sc from_ into strat now = .ok (res, tx')) :
    ∃ fh nh, st.branchHead sc.canonical from_ = .ok fh ∧ st.branchHead sc.canonical into = .ok nh ∧
      Merged st ord sc.canonical into fh nh (fun snap conflicts =>
        let theirs := st.reconstructSnapshot ord fh
        let ours := st.reconstructSnapshot ord nh
        snap = svc.lwwMerge theirs (clockOf (st.commitTimestamp fh)) from_.asStr ours
          (clockOf (st.commitTimestamp nh)) into.asStr ∧
        svc.detect strat theirs ours = .ok conflicts) res tx' := by
  simp only [knowledgeMerge,bind_eq_ok] at h
  obtain ⟨fh,hf,nh,hi,h⟩ := h
  refine ⟨fh,nh,hf,hi,?_⟩
  split at h
  · rename_i ha
    obtain ⟨rfl,hm⟩ := fastForward_ok h
    exact .fastForward tx' ha hm
  · rename_i ha
    simp only [bind_eq_ok,pure,Except.pure,Except.ok.injEq,Prod.mk.injEq] at h
    obtain ⟨conflicts,he,⟨id,tx⟩,hn,tx0,h0,tx1,h1,rfl,rfl⟩ := h
    obtain ⟨hp,rfl,row,hs,hr,-,hd,rfl⟩ := insertCommit_ok hn
    exact .diverged tx1 row _ conflicts (by simpa using ha) ⟨rfl,he⟩ (hr ▸ hp) hs hr hd
      (mergeMoves_of_ok rfl rfl h0 h1)

/-- How `commit_cherry_pick_snapshot` moves the references: the branch it picks onto, and HEAD
if it is attached to that branch and stands on the target. -/
inductive PickMoves (st tx : SqliteVersionStore) (scope : String) (target new : CommitId) :
    Option BranchName → SqliteVersionStore → Prop
  | none : PickMoves st tx scope target new none tx
  | branch (b : BranchName) (br : Branch) (hb : (st.branches scope)[b.asStr]? = some br) (he : br.head = target)
    (hn : ∀ row, st.heads[scope]? = some row → row.attachedBranch = some b.asStr → row.commit ≠ target) :
    PickMoves st tx scope target new (some b) (tx.moveBranch scope b.asStr br new)
  | attached (b : BranchName) (br : Branch) (row : HeadRow) (hb : (st.branches scope)[b.asStr]? = some br)
    (he : br.head = target) (hh : st.heads[scope]? = some row) (ha : row.attachedBranch = some b.asStr)
    (hc : row.commit = target) :
    PickMoves st tx scope target new (some b) ((tx.moveBranch scope b.asStr br new).setHead scope ⟨new, some b.asStr⟩)

theorem commitCherryPickSnapshot_ok {sc : ContextUri} {finalSnap : Snapshot}
    (h : st.commitCherryPickSnapshot ord sc commit tgt onto finalSnap now = .ok (id, tx')) :
    id = st.nextId ∧ tgt ∈ st.commits ∧ ∃ row : CommitRow, row.scope = sc.canonical ∧ row.parents = [tgt] ∧
      row.timestamp = now ∧ row.deltas = insertDeltas (diffSnapshots (st.reconstructSnapshot ord tgt) finalSnap) ∧
      PickMoves st (st.withCommit row) sc.canonical tgt st.nextId onto tx' := by
  simp only [commitCherryPickSnapshot,bind_eq_ok] at h
  obtain ⟨⟨id',tx⟩,hi,h⟩ := h
  obtain ⟨hp,rfl,row,hs,hr,ht,hd,rfl⟩ := insertCommit_ok hi
  cases onto with
  | none =>
    simp only [pure,Except.pure,Except.ok.injEq,Prod.mk.injEq] at h
    obtain ⟨rfl,rfl⟩ := h
    exact ⟨rfl,by simpa using hp,row,hs,hr,ht,hd, .none⟩
  | some b =>
    simp only [bind_eq_ok] at h
    obtain ⟨tx0,h0,h⟩ := h
    obtain ⟨br,hb,he,rfl⟩ := updateBranchHead_ok h0
    refine ⟨?_,by simpa using hp,row,hs,hr,ht,hd,?_⟩
    · split at h <;> simp_all [pure,Except.pure]
    · have hhe : ((st.withCommit row).moveBranch sc.canonical b.asStr br st.nextId).heads = st.heads := rfl
      rw [hhe] at h
      cases hh : st.heads[sc.canonical]? with
      | none =>
        simp only [hh,Option.bind_none,reduceCtorEq,if_false,pure,Except.pure,Except.ok.injEq,Prod.mk.injEq] at h
        obtain ⟨rfl,rfl⟩ := h
        exact .branch b br hb he (by simp [hh])
      | some head =>
        by_cases ha : head.attachedBranch = some b.asStr
        · by_cases hc : head.commit = tgt
          · simp only [hh,Option.bind_some,ha,if_true,casHead,hhe,hc,pure,Except.pure,Except.ok.injEq,
              Prod.mk.injEq] at h
            obtain ⟨rfl,rfl⟩ := h
            exact .attached b br head hb he hh ha hc
          · simp only [hh,Option.bind_some,ha,if_true,casHead,hhe,hc,if_false,pure,Except.pure,
              Except.ok.injEq,Prod.mk.injEq] at h
            obtain ⟨rfl,rfl⟩ := h
            exact .branch b br hb he (by simp_all)
        · simp only [hh,Option.bind_some,ha,if_false,pure,Except.pure,Except.ok.injEq,Prod.mk.injEq] at h
          obtain ⟨rfl,rfl⟩ := h
          exact .branch b br hb he (by simp_all)

theorem cherryPickAtBranch_ok {sc : ContextUri}
    (h : st.cherryPickAtBranch ord sc commit tgt onto strat now = .ok (id, tx')) :
    ∃ ses finalSnap, st.buildCherryPickSession ord sc commit tgt (onto.getD commitName) 0 = .ok ses ∧
      ¬ (strat = .fail ∧ ses.conflicts ≠ []) ∧
      applySessionResolutions ses (strategyResolutions strat ses.conflicts) = .ok finalSnap ∧
      st.commitCherryPickSnapshot ord sc commit tgt onto finalSnap now = .ok (id, tx') := by
  simp only [cherryPickAtBranch,bind_eq_ok,ensure_ok] at h
  obtain ⟨ses,hs,-,hn,finalSnap,hf,h⟩ := h
  refine ⟨ses,finalSnap,hs,?_,hf,h⟩
  rintro ⟨rfl,he⟩
  simp [he] at hn

theorem buildCherryPickSession_ok {sc : ContextUri}
    {onto : BranchName} {sessionId : Uuid} {ses : ConflictSession}
    (h : st.buildCherryPickSession ord sc commit tgt onto sessionId = .ok ses) :
    st.InScope commit sc.canonical ∧ st.InScope tgt sc.canonical ∧
      ses.conflicts = pickConflicts (st.baseSnapshot ord (st.firstParent commit))
        (st.reconstructSnapshot ord commit) (st.reconstructSnapshot ord tgt) ∧
      ses.cleanSnapshot = snapshotToPayloadEntries (cleanSnapshot (st.baseSnapshot ord (st.firstParent commit))
        (st.reconstructSnapshot ord commit) (st.reconstructSnapshot ord tgt)) := by
  simp only [buildCherryPickSession,bind_eq_ok,requireCommitScope_ok,pure,Except.pure,Except.ok.injEq] at h
  obtain ⟨-,hc,-,ht,rfl⟩ := h
  exact ⟨hc,ht,rfl,rfl⟩

theorem buildCherryPickSession_isOk (ord : RowOrder) {sc : ContextUri}
    (onto : BranchName) (sessionId : Uuid) (hc : st.InScope commit sc.canonical)
    (ht : st.InScope tgt sc.canonical) :
    ∃ session, st.buildCherryPickSession ord sc commit tgt onto sessionId = .ok session := by
  have hc : st.requireCommitScope commit sc.canonical = .ok () := requireCommitScope_ok.mpr hc
  have ht : st.requireCommitScope tgt sc.canonical = .ok () := requireCommitScope_ok.mpr ht
  simp only [buildCherryPickSession,hc,ht,bind,Except.bind,pure,Except.pure]
  exact ⟨_,rfl⟩

theorem pickAll_invariant (inv : SqliteVersionStore → CommitId → Prop) {sc : ContextUri}
    {clock : CommitId → DateTime} (hp : ∀ s commit tgt snap now new s', inv s tgt →
      s.commitCherryPickSnapshot ord sc commit tgt none snap now = .ok (new, s') → inv s' new)
    {own : List CommitId} {tgt : CommitId} {applied : List CommitId} (hs : inv st tgt) :
    (∃ tip, inv (pickAll ord sc strat clock st own tgt applied).store tip) ∧
      ∀ tip ids, (pickAll ord sc strat clock st own tgt applied).result = .ok (tip, ids) →
        inv (pickAll ord sc strat clock st own tgt applied).store tip := by
  induction own generalizing st tgt applied with
  | nil =>
    refine ⟨⟨tgt,hs⟩,fun tip ids h => ?_⟩
    cases h
    exact hs
  | cons cid own ih =>
    simp only [pickAll]
    split
    · rename_i new st' ho
      obtain ⟨ses,snap,-,-,-,hc⟩ := cherryPickAtBranch_ok ho
      exact ih (hp _ _ _ _ _ _ _ hs hc)
    · refine ⟨⟨tgt,hs⟩,fun tip ids h => ?_⟩
      cases h

theorem finishRebase_store (sc : String) (br : BranchName) (expected : CommitId)
    (picked : Outcome SqliteVersionStore (CommitId × List CommitId)) :
    (finishRebase sc br expected picked).store = picked.store ∨
      ∃ b target applied, picked.result = .ok (target, applied) ∧
        (picked.store.branches sc)[br.asStr]? = some b ∧ b.head = expected ∧
        (finishRebase sc br expected picked).store = picked.store.moveBranch sc br.asStr b target := by
  unfold finishRebase
  split
  · exact .inl rfl
  · rename_i target applied hr
    cases hu : picked.store.updateBranchHead sc br expected target with
    | error e => exact .inl rfl
    | ok tx =>
      obtain ⟨b,hb,he,rfl⟩ := updateBranchHead_ok hu
      exact .inr ⟨b,target,applied,hr,hb,he,rfl⟩

theorem forM_ok {ids : List CommitId} (h : forM ids f = .ok u) : ∀ c ∈ ids, f c = .ok () := by
  induction ids with
  | nil => simp
  | cons c ids ih =>
    rw [List.forM_cons,bind_eq_ok] at h
    obtain ⟨v,hv,h⟩ := h
    intro c' hc'
    rcases List.mem_cons.mp hc' with rfl | hc'
    · exact hv
    · exact ih h c' hc'

def TipReferenced (st : SqliteVersionStore) (scope : String) (newest : CommitId) : Prop :=
  (∃ (name : String) (b : Branch), (st.branches scope)[name]? = some b ∧ b.head = newest) ∨ st.getHead scope = some newest

theorem tip_any {newest : CommitId} : (st.branches sc).toList.any (fun e => e.2.head = newest) = true ↔
    ∃ (name : String) (b : Branch), (st.branches sc)[name]? = some b ∧ b.head = newest := by
  simp only [List.any_eq_true,decide_eq_true_eq,Prod.exists,Std.ExtTreeMap.mem_toList_iff_getElem?_eq_some]

theorem forM_isOk {ids : List CommitId} (h : ∀ c ∈ ids, f c = .ok ()) : forM ids f = .ok () := by
  induction ids with
  | nil => rfl
  | cons c ids ih =>
    obtain ⟨hc,hi⟩ := List.forall_mem_cons.mp h
    rw [List.forM_cons,hc]
    exact ih hi

theorem squash_ok {sc : ContextUri} {cs : List CommitId} {message : String}
    {res : SquashResult} (h : st.squash ord sc cs message now = .ok (res, tx')) :
    ∃ oldest nw, cs.head? = some oldest ∧ cs.getLast? = some nw ∧ 2 ≤ cs.length ∧
      (∀ c ∈ cs, st.InScope c sc.canonical) ∧
      st.consecutive cs = true ∧ st.TipReferenced sc.canonical nw ∧ res = ⟨st.nextId,cs.length⟩ ∧
      ∃ row : CommitRow, row.scope = sc.canonical ∧ row.parents = (st.firstParent oldest).toList ∧
        (∀ p ∈ row.parents, p ∈ st.commits) ∧ row.timestamp = now ∧
        row.deltas = insertDeltas (diffSnapshots (st.baseSnapshot ord (st.firstParent oldest))
          (st.reconstructSnapshot ord nw)) ∧
        tx' = (((st.withCommit row).moveBranches sc.canonical nw st.nextId).casHead sc.canonical nw
          st.nextId).2 := by
  unfold squash at h
  split at h
  · rename_i oldest nw ho hn
    simp only [bind_eq_ok,ensure_ok,pure,Except.pure,Except.ok.injEq,Prod.mk.injEq] at h
    obtain ⟨-,hl,u,hsc,-,hco,⟨id,tx⟩,hi,-,hr,rfl,rfl⟩ := h
    obtain ⟨hp,rfl,row,hs,ha,ht,hd,rfl⟩ := insertCommit_ok hi
    refine ⟨oldest,nw,ho,hn,by simpa using hl,?_,hco,?_,rfl,row,hs,ha,ha ▸ hp,ht,hd,rfl⟩
    · intro c hc
      exact requireCommitScope_ok.mp (forM_ok hsc c hc)
    · rw [Bool.or_eq_true] at hr
      exact hr.imp tip_any.mp of_decide_eq_true
  · cases h

end SqliteVersionStore
end UwuContextDb.Version
