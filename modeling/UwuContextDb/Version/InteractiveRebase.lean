import UwuContextDb.Version.CherryPick

/-! Conflict sessions: what `begin_cherry_pick` and `begin_rebase` hand out, and what becomes of them. -/

namespace UwuContextDb.Version

open StateMachine

namespace SqliteVersionStore

section Begin

variable (st : SqliteVersionStore)

/-- `begin_cherry_pick`. A session that is persisted is stored apart from the version tables. -/
def beginCherryPick (order : RowOrder) (scope : ContextUri) (commit : CommitId) (onto : BranchName) (sessionId : Uuid) :
    Except VersionError ConflictSession := do
  let target ← st.branchHead scope.canonical onto
  st.buildCherryPickSession order scope commit target onto sessionId

/-- `begin_rebase`: the session is about the first commit, the others are queued. -/
def beginRebase (order : RowOrder) (scope : ContextUri) (branch onto : BranchName) (sessionId : Uuid) :
    Except VersionError ConflictSession := do
  let scopeKey := scope.canonical
  let sourceHead ← st.branchHead scopeKey branch
  let targetHead ← st.branchHead scopeKey onto
  match st.commitsToRebase targetHead (st.commits.size + 1) [] sourceHead with
  | [] => return ⟨sessionId, scope, .rebase branch onto, some targetHead, targetHead, [], [], []⟩
  | first::rest =>
    let session ← st.buildCherryPickSession order scope first targetHead branch sessionId
    return { session with operation := .rebase branch onto, commits := first::rest }

/-- `begin_rebase`, the caller's resolutions of what it reports, and `continue_conflict_session`. -/
def interactiveRebase (order : RowOrder) (scope : ContextUri) (branch onto : BranchName) (sessionId : Uuid)
    (resolve : ConflictSession → ConflictResolutionSet) (clock : CommitId → DateTime) :
    Outcome SqliteVersionStore (List CommitId) :=
  match st.beginRebase order scope branch onto sessionId with
  | .error e => ⟨.error e, st⟩
  | .ok session => st.continueConflictSession order session (resolve session) clock

/-- The changes of `commits`, one commit after the other, over a snapshot. -/
def replayedOver (order : RowOrder) (target : Snapshot) (commits : List CommitId) : Snapshot :=
  commits.foldl (fun snap c => applyDeltas snap
    (diffSnapshots (st.baseSnapshot order (st.firstParent c)) (st.reconstructSnapshot order c))) target

/-- A rebase through a session is complete: the branch stands on the last of the new commits, `onto` where it was,
and away from the conflicts the new snapshot has the changes of every replayed commit over the one of `onto`. -/
def RebaseCompletes (order : RowOrder) (scope : ContextUri) (branch onto : BranchName) (session : ConflictSession)
    (out : Outcome SqliteVersionStore (List CommitId)) : Prop :=
  ∃ ids last, out.result = .ok ids ∧ ids.getLast? = some last ∧
    out.store.branchHead scope.canonical branch = .ok last ∧
    out.store.branchHead scope.canonical onto = st.branchHead scope.canonical onto ∧
    ∀ uri : String, (∀ c ∈ session.conflicts, c.uri.canonical ≠ uri) →
      (out.store.reconstructSnapshot order last)[uri]? =
        (st.replayedOver order (st.reconstructSnapshot order session.target) session.commits)[uri]?

end Begin

variable {st st' : SqliteVersionStore} {ord : RowOrder} {sc : ContextUri} {session : ConflictSession}
  {resolutions : ConflictResolutionSet} {clk : CommitId → DateTime}

variable {sessionId : Uuid} {branch onto : BranchName}

theorem commitsToRebase_self (fuel : ℕ) (head : CommitId) : st.commitsToRebase head fuel [] head = [] := by
  cases fuel with
  | zero => rfl
  | succ fuel =>
    have hs : st.isAncestor head head = true := Dag.isAncestor_self _ _
    simp [commitsToRebase,hs]

theorem beginRebase_ok (h : st.beginRebase ord sc branch onto sessionId = .ok session) :
    session.scope = sc ∧ session.operation = .rebase branch onto ∧
      (session.commits ≠ [] → st.branchHead sc.canonical branch ≠ .ok session.target) := by
  simp only [beginRebase,bind_eq_ok] at h
  obtain ⟨sourceHead,hb,targetHead,-,h⟩ := h
  split at h
  · obtain rfl := Except.ok.inj h
    exact ⟨rfl,rfl,fun hn => absurd rfl hn⟩
  · rename_i first rest ho
    simp only [buildCherryPickSession,bind_eq_ok,pure,Except.pure,Except.ok.injEq] at h
    obtain ⟨inner,⟨u,-,v,-,rfl⟩,rfl⟩ := h
    refine ⟨rfl,rfl,fun _ hs => ?_⟩
    obtain rfl : sourceHead = targetHead := Except.ok.inj (hb.symm.trans hs)
    rw [commitsToRebase_self] at ho
    cases ho

theorem pickAll_branches {strat : ConflictStrategy} {own applied : List CommitId} {tgt : CommitId} :
    (pickAll ord sc strat clk st own tgt applied).store.branches = st.branches := by
  have ha : (∃ _ : CommitId, (pickAll ord sc strat clk st own tgt applied).store.branches = st.branches) ∧ _ :=
    pickAll_invariant (fun s _ => s.branches = st.branches) (fun s commit tgt snap now new s' hs hp => by
      obtain ⟨-,-,row,-,-,-,-,hm⟩ := commitCherryPickSnapshot_ok hp
      cases hm
      exact hs) rfl
  obtain ⟨⟨-,h⟩,-⟩ := ha
  exact h

theorem finishRebase_moved {br : BranchName} {expected : CommitId}
    {picked : Outcome SqliteVersionStore (CommitId × List CommitId)}
    (h : picked.store.branchHead sc.canonical br ≠ .ok expected) :
    (∃ e, (finishRebase sc.canonical br expected picked).result = .error e) ∧
      (finishRebase sc.canonical br expected picked).store = picked.store := by
  unfold finishRebase
  split
  · exact ⟨⟨_,rfl⟩,rfl⟩
  · rename_i tgt applied hr
    cases hu : picked.store.updateBranchHead sc.canonical br expected tgt with
    | error e => exact ⟨⟨e,rfl⟩,rfl⟩
    | ok tx =>
      obtain ⟨b,hb,he,-⟩ := updateBranchHead_ok hu
      exact absurd (by simp [branchHead,getBranch,hb,he]) h

theorem beginRebase_continue (h : st.beginRebase ord sc branch onto sessionId = .ok session) :
    (∃ e, (st.continueConflictSession ord session resolutions clk).result = .error e) ∧
      (st.continueConflictSession ord session resolutions clk).store.branches = st.branches := by
  obtain ⟨hs,ho,hm⟩ := beginRebase_ok h
  simp only [continueConflictSession]
  split
  · exact ⟨⟨_,rfl⟩,rfl⟩
  · rw [ho,hs]
    simp only
    split
    · exact ⟨⟨_,rfl⟩,rfl⟩
    · rename_i first rest hc
      split
      · exact ⟨⟨_,rfl⟩,rfl⟩
      · rename_i new tx hcm
        obtain ⟨-,-,row,-,-,-,-,hv⟩ := commitCherryPickSnapshot_ok hcm
        cases hv
        have hb : (pickAll ord sc .fail clk (st.withCommit row) rest new [new]).store.branches = st.branches :=
          pickAll_branches
        have hh : (pickAll ord sc .fail clk (st.withCommit row) rest new [new]).store.branchHead
            sc.canonical branch ≠
            .ok session.target := by
          rw [branchHead,getBranch,hb]
          exact hm (by simp [hc])
        obtain ⟨he,ht⟩ := finishRebase_moved hh
        exact ⟨he,by rw [ht,hb]⟩

/-- An interactive rebase completes in no store: whatever is resolved, it ends in an error. -/
theorem interactiveRebase_not_completes (st : SqliteVersionStore) (order : RowOrder) (scope : ContextUri)
    (branch onto : BranchName) (sessionId : Uuid) (resolve : ConflictSession → ConflictResolutionSet)
    (clock : CommitId → DateTime) (session : ConflictSession) :
    ¬ st.RebaseCompletes order scope branch onto session
      (st.interactiveRebase order scope branch onto sessionId resolve clock) := by
  rintro ⟨ids, last, ho, -⟩
  unfold interactiveRebase at ho
  split at ho
  · cases ho
  · rename_i session' hb
    have hf : (∃ e, (st.continueConflictSession order session' (resolve session') clock).result = .error e) ∧ _ :=
      beginRebase_continue hb
    obtain ⟨⟨e, he⟩, -⟩ := hf
    rw [he] at ho
    cases ho

/-- `main` and `dev` change one entry in different ways. -/
def conflictOps : List SqliteOp :=
  [addSample, .createBranch sampleScope mainBranch 0 .main 0, .createBranch sampleScope devBranch 0 .experiment 0,
    .switchHead sampleScope devBranch, .commit sampleScope ⟨[sampleEntry "a" "two"], [], [], []⟩ .empty 1,
    .switchHead sampleScope mainBranch, .commit sampleScope ⟨[sampleEntry "a" "three"], [], [], []⟩ .empty 2]

def resolveTheirs (session : ConflictSession) : ConflictResolutionSet :=
  strategyResolutions .theirs session.conflicts

/-- `dev` has one commit to rebase onto `main`, which stops on the one conflict there is. With that resolved,
the session still ends in an error, and `dev` stays. -/
theorem interactiveRebase_fails :
    ((run (step sampleServices) empty conflictOps).rebase .asStored sampleScope devBranch mainBranch .fail
        (fun _ => 3)).result = .error (.mergeConflict
          "rebase halted at 1: cherry-pick 1 onto 2: 1 URI(s) conflicted: uwu://t/a") ∧
      (((run (step sampleServices) empty conflictOps).beginRebase .asStored sampleScope devBranch mainBranch 0).map
        (fun session => (session.conflicts.map (fun c => c.uri.canonical), session.commits))) = .ok (["uwu://t/a"], [1]) ∧
      ((run (step sampleServices) empty conflictOps).interactiveRebase .asStored sampleScope devBranch mainBranch 0
        resolveTheirs (fun _ => 3)).result = .error (.storage "branch dev changed concurrently") := by
  refine ⟨?_, ?_, ?_⟩ <;> rfl

end SqliteVersionStore
end UwuContextDb.Version
