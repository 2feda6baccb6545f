import UwuContextDb.Version.InteractiveRebase

/-! Persisted conflict sessions: the calls that continue and abort them by their identifier, one statement or
transaction at a time, in any order and among the other calls of the store. -/

namespace UwuContextDb.Version

open StateMachine
open SqliteVersionStore (commitCherryPickSnapshot_ok branchHead getBranch insertCommit buildCherryPickSession_ok
  mem_pickConflicts commitName branchHead_ok casBranch sampleServices)

/-- The `status` of a row of `version_conflict_sessions`. -/
inductive SessionStatus | open_ | completed | aborted deriving DecidableEq

structure SessionRow where
  session : ConflictSession
  status : SessionStatus

/-- Where a call of `continue_conflict_session_by_id` stands. -/
inductive Phase
  | loaded (session : ConflictSession) (resolutions : ConflictResolutionSet)
  | picking (session : ConflictSession) (branch : BranchName) (target : CommitId) (done rest : List CommitId)
  | applied (ids : List CommitId)
  | returned (result : Except VersionError (List CommitId))

structure Continuation where
  id : Uuid
  phase : Phase
  txs : List (SqliteVersionStore × SqliteVersionStore)

structure SessionState where
  store : SqliteVersionStore
  sessions : Std.ExtTreeMap Uuid SessionRow
  calls : ℕ → Option Continuation
  nextSession : Uuid

/-- `ConflictSessionUnavailable`. -/
def sessionUnavailable (id : Uuid) : VersionError := .conflictSessionUnavailable s!"{id}"

/-- What `continue_conflict_session` ends in. -/
def Phase.ofResult : Except VersionError (List CommitId) → Phase
  | .ok ids => .applied ids
  | .error e => .returned (.error e)

/-- The phase and the tables after a transaction that goes on to `next`. -/
def Phase.afterTx {α : Type} (st : SqliteVersionStore) (next : α → Phase) :
    Except VersionError (α × SqliteVersionStore) → Phase × SqliteVersionStore
  | .ok (a, tx) => (next a, tx)
  | .error e => (.returned (.error e), st)

/-- The next transaction of `continue_conflict_session`: the resolved snapshot is committed first; a rebase then
picks its other commits one by one, and moves the branch at the end. -/
def Phase.advance (order : RowOrder) (now : DateTime) (st : SqliteVersionStore) : Phase → Phase × SqliteVersionStore
  | .loaded session resolutions =>
    match applySessionResolutions session resolutions with
    | .error e => (.returned (.error e), st)
    | .ok finalSnap =>
      match session.operation with
      | .cherryPick commit onto => Phase.afterTx st (fun new => .applied [new])
          (st.commitCherryPickSnapshot order session.scope commit session.target (some onto) finalSnap now)
      | .rebase branch _ =>
        match session.commits with
        | [] => (.returned (.error (sessionUnavailable session.id)), st)
        | first::rest => Phase.afterTx st (fun new => .picking session branch new [new] rest)
            (st.commitCherryPickSnapshot order session.scope first session.target none finalSnap now)
  | .picking session branch target done (cid::rest) =>
    Phase.afterTx st (fun new => .picking session branch new (done ++ [new]) rest)
      ((st.cherryPickAtBranch order session.scope cid target none .fail now).mapError (SqliteVersionStore.rebaseHalted cid))
  | .picking session branch target done [] => Phase.afterTx st (fun _ => .applied done)
      ((st.updateBranchHead session.scope.canonical branch session.target target).map (fun tx => ((), tx)))
  | .applied ids => (.applied ids, st)
  | .returned result => (.returned result, st)

namespace SessionState

def empty : SessionState := ⟨.empty, ∅, fun _ => none, 0⟩

variable (s : SessionState)

def setCall (k : ℕ) (c : Continuation) : SessionState := { s with calls := Function.update s.calls k (some c) }

def persistConflictSession (session : ConflictSession) : SessionState :=
  { s with sessions := s.sessions.insert session.id ⟨session, .open_⟩ }

def loadConflictSession (id : Uuid) : Except VersionError ConflictSession :=
  match s.sessions[id]? with
  | some ⟨session, .open_⟩ => .ok session
  | _ => .error (sessionUnavailable id)

def markConflictSessionStatus (id : Uuid) (status : SessionStatus) : Except VersionError SessionState :=
  match s.sessions[id]? with
  | some ⟨session, .open_⟩ => .ok { s with sessions := s.sessions.insert id ⟨session, status⟩ }
  | _ => .error (sessionUnavailable id)

/-- `begin_cherry_pick` and `begin_rebase` with persistence; a rebase that has nothing to do is not stored. -/
def beginSession (order : RowOrder) (scope : ContextUri) : InteractiveOperation → SessionState
  | .cherryPick commit onto =>
    match s.store.beginCherryPick order scope commit onto s.nextSession with
    | .ok session => { s.persistConflictSession session with nextSession := s.nextSession + 1 }
    | .error _ => s
  | .rebase branch onto =>
    match s.store.beginRebase order scope branch onto s.nextSession with
    | .ok session =>
      if session.commits = [] then s
      else { s.persistConflictSession session with nextSession := s.nextSession + 1 }
    | .error _ => s

/-- The first statement of `continue_conflict_session_by_id`. -/
def startContinuation (k : ℕ) (id : Uuid) (resolutions : ConflictResolutionSet) : SessionState :=
  match s.calls k with
  | some _ => s
  | none =>
    match s.loadConflictSession id with
    | .ok session => s.setCall k ⟨id, .loaded session resolutions, []⟩
    | .error e => s.setCall k ⟨id, .returned (.error e), []⟩

/-- The next statement or transaction of a call, which the storage may refuse with `fault`. -/
def advanceCall (k : ℕ) (order : RowOrder) (now : DateTime) (fault : Option String) : SessionState :=
  match s.calls k with
  | none => s
  | some c =>
    match c.phase, fault with
    | .returned _, _ => s
    | _, some message => s.setCall k { c with phase := .returned (.error (.storage message)) }
    | .applied ids, none =>
      match s.markConflictSessionStatus c.id .completed with
      | .ok tx => tx.setCall k { c with phase := .returned (.ok ids) }
      | .error e => s.setCall k { c with phase := .returned (.error e) }
    | phase, none =>
      let (phase', tx) := phase.advance order now s.store
      { s with store := tx }.setCall k ⟨c.id, phase', c.txs ++ [(s.store, tx)]⟩

def abortConflictSession (id : Uuid) : SessionState :=
  match s.markConflictSessionStatus id .aborted with
  | .ok tx => tx
  | .error _ => s

end SessionState

inductive SessionLabel
  | begin (order : RowOrder) (scope : ContextUri) (operation : InteractiveOperation)
  | continueById (k : ℕ) (id : Uuid) (resolutions : ConflictResolutionSet)
  | advance (k : ℕ) (order : RowOrder) (now : DateTime) (fault : Option String)
  | abort (id : Uuid)
  | other (op : SqliteOp)

def SessionState.step (services : Services) (s : SessionState) : SessionLabel → SessionState
  | .begin order scope operation => s.beginSession order scope operation
  | .continueById k id resolutions => s.startContinuation k id resolutions
  | .advance k order now fault => s.advanceCall k order now fault
  | .abort id => s.abortConflictSession id
  | .other op => { s with store := s.store.step services op }

section Uninterrupted

variable {order : RowOrder} {clk : CommitId → DateTime}

def advanceTx (order : RowOrder) (clock : CommitId → DateTime) (p : Phase × SqliteVersionStore) :
    Phase × SqliteVersionStore := p.1.advance order (clock p.2.nextId) p.2

end Uninterrupted

def Continuation.Committed (c : Continuation) : Prop := ∃ t ∈ c.txs, t.2 ≠ t.1

structure SessionState.AtMostOnce (s : SessionState) : Prop where
  once : ∀ i j c d, s.calls i = some c → s.calls j = some d → c.id = d.id → c.Committed → d.Committed → i = j
  aborted : ∀ i c row, s.calls i = some c → s.sessions[c.id]? = some row → row.status = .aborted → ¬ c.Committed
  failed : ∀ i c e, s.calls i = some c → c.phase = .returned (.error e) → ¬ c.Committed

def SessionState.Untaken (s : SessionState) (id : Uuid) : Prop :=
  (∀ row, s.sessions[id]? = some row → row.status ≠ .aborted) ∧
    ∀ i c, s.calls i = some c → c.id = id → ¬ c.Committed

def SqliteVersionStore.CanCommit (st : SqliteVersionStore) (session : ConflictSession)
    (resolutions : ConflictResolutionSet) : Prop :=
  (∃ snap, applySessionResolutions session resolutions = .ok snap) ∧ session.target ∈ st.commits ∧
    match session.operation with
    | .cherryPick _ onto => st.branchHead session.scope.canonical onto = .ok session.target
    | .rebase _ _ => session.commits ≠ []

def SqliteVersionStore.CanPick (st : SqliteVersionStore) (order : RowOrder) (scope : ContextUri)
    (cid target : CommitId) : Prop :=
  st.InScope cid scope.canonical ∧ st.InScope target scope.canonical ∧
    ¬ SqliteVersionStore.PickRefused .fail (st.baseSnapshot order (st.firstParent cid))
      (st.reconstructSnapshot order target) (st.reconstructSnapshot order cid)

def Phase.CanAdvance (st : SqliteVersionStore) (order : RowOrder) : Phase → Prop
  | .loaded session resolutions => st.CanCommit session resolutions
  | .picking session _ target _ (cid::_) => st.CanPick order session.scope cid target
  | .picking session branch _ _ [] => st.branchHead session.scope.canonical branch = .ok session.target
  | .applied _ => True
  | .returned _ => True

def Phase.IsLoaded : Phase → Prop
  | .loaded _ _ => True
  | _ => False

def Phase.Underway : Phase → Prop
  | .picking .. => True
  | .applied _ => True
  | _ => False

def SessionState.StepOk (s : SessionState) : SessionLabel → Prop
  | .advance k order _ fault => ∀ c, s.calls k = some c →
    (c.phase.IsLoaded → fault = none → c.phase.CanAdvance s.store order → s.Untaken c.id) ∧
      (c.phase.Underway → fault = none ∧ c.phase.CanAdvance s.store order)
  | .abort id => (∃ session, s.sessions[id]? = some ⟨session, .open_⟩) → s.Untaken id
  | _ => True

variable {tx : SqliteVersionStore} {session : ConflictSession} {phase : Phase}

section Transaction

variable {st : SqliteVersionStore} {order : RowOrder} {now : DateTime} {scope : ContextUri} {cid target : CommitId}

theorem commitCherryPickSnapshot_isOk_iff (ord : RowOrder) (sc : ContextUri) (cid : CommitId)
    (onto : Option BranchName) (snap : Snapshot) (now : DateTime) :
    (∃ r, st.commitCherryPickSnapshot ord sc cid target onto snap now = .ok r) ↔
      target ∈ st.commits ∧ ∀ b, onto = some b → st.branchHead sc.canonical b = .ok target := by
  constructor
  · rintro ⟨⟨new,tx⟩,h⟩
    obtain ⟨-,ht,row,-,-,-,-,hm⟩ := commitCherryPickSnapshot_ok h
    refine ⟨ht,?_⟩
    rintro b rfl
    cases hm with
    | branch b br hb he hn => simp [branchHead,getBranch,hb,he]
    | attached b br row hb he hh ha hc => simp [branchHead,getBranch,hb,he]
  · rintro ⟨ht,hb⟩
    cases onto with
    | some b =>
      obtain ⟨tx,hx⟩ := SqliteVersionStore.commitCherryPickSnapshot_isOk ord cid snap now ht (hb b rfl)
      exact ⟨_,hx⟩
    | none =>
      have hp : ¬ ∃ p ∈ [target], p ∉ st.commits := by simpa using ht
      simp only [SqliteVersionStore.commitCherryPickSnapshot,insertCommit,hp,
        List.nodup_singleton,not_true_eq_false,if_false,bind,Except.bind]
      exact ⟨_,rfl⟩

theorem cherryPickAtBranch_isOk_iff (now : DateTime) :
    (∃ r, st.cherryPickAtBranch order scope cid target none .fail now = .ok r) ↔ st.CanPick order scope cid target := by
  constructor
  · rintro ⟨⟨new,tx⟩,h⟩
    obtain ⟨session,snap,hs,hf,hn,hco⟩ := SqliteVersionStore.cherryPickAtBranch_ok h
    obtain ⟨hc,ht,ho,-⟩ := buildCherryPickSession_ok hs
    refine ⟨hc,ht,?_⟩
    rintro ⟨-,u,hu⟩
    obtain ⟨c,hm,-⟩ := mem_pickConflicts.mpr hu
    exact hf ⟨rfl,List.ne_nil_of_mem (ho ▸ hm)⟩
  · rintro ⟨hc,ht,hl⟩
    obtain ⟨session,hs⟩ := SqliteVersionStore.buildCherryPickSession_isOk order commitName 0 hc ht
    obtain ⟨-,-,ho,hl'⟩ := buildCherryPickSession_ok hs
    obtain ⟨snap,hn,-⟩ := SqliteVersionStore.applySessionResolutions_pick .fail ho hl'
    obtain ⟨r,hr⟩ := (commitCherryPickSnapshot_isOk_iff order scope cid none snap now).mpr ⟨ht.mem,fun _ h => nomatch h⟩
    have hi : session.conflicts = [] := by
      by_contra he
      obtain ⟨c,hm⟩ := List.exists_mem_of_ne_nil _ he
      exact hl ⟨rfl,c.uri.canonical,mem_pickConflicts.mp ⟨c,ho ▸ hm,rfl⟩⟩
    refine ⟨r,?_⟩
    simp only [SqliteVersionStore.cherryPickAtBranch,Option.getD_none,hs,hi,List.map_nil,List.isEmpty_nil,
      Bool.or_true,ensure,if_true,bind,Except.bind]
    rw [hi] at hn
    rw [hn]
    exact hr

theorem updateBranchHead_isOk_iff {br : BranchName} {expected : CommitId} {key : String} (head : CommitId) :
    (∃ tx, st.updateBranchHead key br expected head = .ok tx) ↔ st.branchHead key br = .ok expected := by
  constructor
  · rintro ⟨tx,h⟩
    obtain ⟨b,hb,he,-⟩ := SqliteVersionStore.updateBranchHead_ok h
    simp [branchHead,getBranch,hb,he]
  · intro h
    obtain ⟨b,hb,he⟩ := branchHead_ok h
    simp [SqliteVersionStore.updateBranchHead,casBranch,hb,he]

theorem afterTx_error {α : Type} {next : α → Phase} {r : Except VersionError (α × SqliteVersionStore)}
    (h : ¬ ∃ p, r = .ok p) : ∃ e, Phase.afterTx st next r = (.returned (.error e), st) := by
  cases r with
  | error e => exact ⟨e,rfl⟩
  | ok p => exact absurd ⟨p,rfl⟩ h

theorem commitCherryPickSnapshot_ne {new : CommitId} {onto : Option BranchName} {snap : Snapshot}
    (h : st.commitCherryPickSnapshot order scope cid target onto snap now = .ok (new, tx)) : tx ≠ st := by
  obtain ⟨-,-,row,-,-,-,-,hm⟩ := commitCherryPickSnapshot_ok h
  obtain ⟨-,-,hn⟩ := hm.refs
  rintro rfl
  exact Nat.succ_ne_self _ hn.symm

theorem advance_loaded {resolutions : ConflictResolutionSet}
    (h : st.CanCommit session resolutions) :
    ((Phase.loaded session resolutions).advance order now st).1.Underway ∧
      ((Phase.loaded session resolutions).advance order now st).2 ≠ st := by
  obtain ⟨⟨snap,hs⟩,ht,ho⟩ := h
  simp only [Phase.advance,hs]
  cases hp : session.operation with
  | cherryPick commit onto =>
    rw [hp] at ho
    obtain ⟨⟨new,tx⟩,hr⟩ := (commitCherryPickSnapshot_isOk_iff order session.scope commit (some onto) snap now).mpr
      ⟨ht,fun b hb => Option.some.inj hb ▸ ho⟩
    simp only [hr]
    exact ⟨trivial,commitCherryPickSnapshot_ne hr⟩
  | rebase br onto =>
    rw [hp] at ho
    cases hc : session.commits with
    | nil => exact absurd hc ho
    | cons first rest =>
      obtain ⟨⟨new,tx⟩,hr⟩ := (commitCherryPickSnapshot_isOk_iff order session.scope first none snap now).mpr
        ⟨ht,fun _ h => nomatch h⟩
      simp only [hr]
      exact ⟨trivial,commitCherryPickSnapshot_ne hr⟩

theorem advance_underway (hp : phase.Underway) (h : phase.CanAdvance st order) :
    (phase.advance order now st).1.Underway := by
  cases phase with
  | loaded session resolutions => exact hp.elim
  | applied ids => trivial
  | returned result => exact hp.elim
  | picking session br target done rest =>
    cases rest with
    | nil =>
      obtain ⟨tx,ht⟩ := (updateBranchHead_isOk_iff target).mpr h
      simp only [Phase.advance,ht]
      trivial
    | cons cid rest =>
      obtain ⟨r,hr⟩ := (cherryPickAtBranch_isOk_iff now).mpr h
      simp only [Phase.advance,hr]
      trivial

theorem advance_error (h : ¬ phase.CanAdvance st order) :
    ∃ e, phase.advance order now st = (.returned (.error e), st) := by
  cases phase with
  | applied ids => exact absurd trivial h
  | returned result => exact absurd trivial h
  | loaded session resolutions =>
    simp only [Phase.advance]
    split
    · exact ⟨_,rfl⟩
    · rename_i snap hs
      split
      · rename_i commit onto ho
        refine afterTx_error (fun hk => h ?_)
        obtain ⟨ht,hb⟩ := (commitCherryPickSnapshot_isOk_iff _ _ _ _ _ _).mp hk
        refine ⟨⟨snap,hs⟩,ht,?_⟩
        rw [ho]
        exact hb onto rfl
      · rename_i br onto ho
        split
        · exact ⟨_,rfl⟩
        · rename_i first rest hc
          refine afterTx_error (fun hk => h ?_)
          obtain ⟨ht,-⟩ := (commitCherryPickSnapshot_isOk_iff _ _ _ _ _ _).mp hk
          refine ⟨⟨snap,hs⟩,ht,?_⟩
          rw [ho,hc]
          exact List.cons_ne_nil _ _
  | picking session br target done rest =>
    cases rest with
    | nil =>
      refine afterTx_error (fun ⟨p,hp⟩ => h ?_)
      obtain ⟨tx,hx,-⟩ := map_eq_ok.mp hp
      exact (updateBranchHead_isOk_iff target).mp ⟨tx,hx⟩
    | cons cid rest =>
      refine afterTx_error (fun ⟨p,hp⟩ => h ?_)
      cases hi : st.cherryPickAtBranch order session.scope cid target none .fail now with
      | error e =>
        rw [hi] at hp
        cases hp
      | ok r => exact (cherryPickAtBranch_isOk_iff now).mp ⟨r,hi⟩

end Transaction

namespace SessionState

variable {s s' : SessionState} {k : ℕ} {c : Continuation}

/-- What holds in every run: a call has committed from its first transaction on, its session stays stored, and
a session is completed by a call that returned. -/
structure Sound (s : SessionState) : Prop where
  loaded : ∀ k c, s.calls k = some c → c.phase.IsLoaded → ¬ c.Committed
  underway : ∀ k c, s.calls k = some c → c.phase.Underway → c.Committed
  stored : ∀ k c, s.calls k = some c → c.phase.IsLoaded ∨ c.phase.Underway → c.id ∈ s.sessions
  completed : ∀ id row, s.sessions[id]? = some row → row.status = .completed →
    ∃ k c ids, s.calls k = some c ∧ c.id = id ∧ c.phase = .returned (.ok ids) ∧ c.Committed

theorem calls_update {d : Continuation} {j : ℕ} (h : Function.update s.calls k (some c) j = some d) :
    (j = k ∧ d = c) ∨ (j ≠ k ∧ s.calls j = some d) := by
  by_cases hj : j = k
  · subst hj
    rw [Function.update_self] at h
    exact .inl ⟨rfl,(Option.some.inj h).symm⟩
  · rw [Function.update_of_ne hj] at h
    exact .inr ⟨hj,h⟩

theorem Sound.setCall (h : s.Sound) (ha : s'.calls = Function.update s.calls k (some c))
    (hk : ∀ id, id ∈ s.sessions → id ∈ s'.sessions)
    (ho : ∀ d ids, s.calls k = some d → d.phase ≠ .returned (.ok ids))
    (hl : c.phase.IsLoaded → ¬ c.Committed) (hu : c.phase.Underway → c.Committed)
    (ht : c.phase.IsLoaded ∨ c.phase.Underway → c.id ∈ s'.sessions)
    (hm : ∀ id row, s'.sessions[id]? = some row → row.status = .completed → s.sessions[id]? = some row ∨
      id = c.id ∧ (∃ ids, c.phase = .returned (.ok ids)) ∧ c.Committed) : s'.Sound := by
  constructor
  · intro j d hd hp
    rw [ha] at hd
    rcases calls_update hd with ⟨-,rfl⟩ | ⟨-,hd⟩
    · exact hl hp
    · exact h.loaded j d hd hp
  · intro j d hd hp
    rw [ha] at hd
    rcases calls_update hd with ⟨-,rfl⟩ | ⟨-,hd⟩
    · exact hu hp
    · exact h.underway j d hd hp
  · intro j d hd hp
    rw [ha] at hd
    rcases calls_update hd with ⟨-,rfl⟩ | ⟨-,hd⟩
    · exact ht hp
    · exact hk _ (h.stored j d hd hp)
  · intro id row hr hs
    rcases hm id row hr hs with hr | ⟨rfl,⟨ids,hi⟩,hc⟩
    · obtain ⟨j,d,ids,hd,hid,hp,hc⟩ := h.completed id row hr hs
      have hj : j ≠ k := by
        rintro rfl
        exact ho d ids hd hp
      exact ⟨j,d,ids,by rw [ha,Function.update_of_ne hj,hd],hid,hp,hc⟩
    · exact ⟨k,c,ids,by rw [ha,Function.update_self],rfl,hi,hc⟩

theorem Sound.setSessions (h : s.Sound) (hc : s'.calls = s.calls) (hk : ∀ id, id ∈ s.sessions → id ∈ s'.sessions)
    (ho : ∀ (id : Uuid) (row : SessionRow), s'.sessions[id]? = some row → row.status = .completed →
      s.sessions[id]? = some row) :
    s'.Sound := by
  constructor
  · rw [hc]
    exact h.loaded
  · rw [hc]
    exact h.underway
  · intro j d hd hp
    rw [hc] at hd
    exact hk _ (h.stored j d hd hp)
  · intro id row hr hs
    rw [hc]
    exact h.completed id row (ho id row hr hs) hs

theorem atMostOnce_setCall (h : s.AtMostOnce) (ha : s'.calls = Function.update s.calls k (some c))
    (hw : ∀ (id : Uuid) (row : SessionRow), row.status = .aborted →
      (s'.sessions[id]? = some row ↔ s.sessions[id]? = some row)) :
    s'.AtMostOnce ↔ (c.Committed → (∀ row, s.sessions[c.id]? = some row → row.status ≠ .aborted) ∧
      (∀ e, c.phase ≠ .returned (.error e)) ∧
      ∀ j d, j ≠ k → s.calls j = some d → d.id = c.id → ¬ d.Committed) := by
  have hk : s'.calls k = some c := by rw [ha,Function.update_self]
  have ht : ∀ j d, j ≠ k → s.calls j = some d → s'.calls j = some d := by
    intro j d hj hd
    rw [ha,Function.update_of_ne hj,hd]
  constructor
  · intro h' hc
    refine ⟨fun row hr hs => ?_,fun e he => h'.failed k c e hk he hc,fun j d hj hd hid hdc => hj ?_⟩
    · exact h'.aborted k c row hk ((hw c.id row hs).mpr hr) hs hc
    · exact h'.once j k d c (ht j d hj hd) hk hid hdc hc
  · intro hn
    constructor
    · intro i j d d' hd hd' hid hdc hdc'
      rw [ha] at hd hd'
      rcases calls_update hd with ⟨rfl,rfl⟩ | ⟨hi,ho⟩ <;> rcases calls_update hd' with ⟨rfl,rfl⟩ | ⟨hj,ho'⟩
      · rfl
      · exact absurd hdc' ((hn hdc).2.2 j d' hj ho' hid.symm)
      · exact absurd hdc ((hn hdc').2.2 i d hi ho hid)
      · exact h.once i j d d' ho ho' hid hdc hdc'
    · intro j d row hd hr hs hdc
      have hr' := (hw d.id row hs).mp hr
      rw [ha] at hd
      rcases calls_update hd with ⟨rfl,rfl⟩ | ⟨hj,hd⟩
      · exact (hn hdc).1 row hr' hs
      · exact h.aborted j d row hd hr' hs hdc
    · intro j d e hd he hdc
      rw [ha] at hd
      rcases calls_update hd with ⟨rfl,rfl⟩ | ⟨hj,hd⟩
      · exact (hn hdc).2.1 e he
      · exact h.failed j d e hd he hdc

theorem AtMostOnce.setSessions (h : s.AtMostOnce) (hc : s'.calls = s.calls)
    (hr : ∀ (id : Uuid) (row : SessionRow), row.status = .aborted → s'.sessions[id]? = some row →
      s.sessions[id]? = some row) : s'.AtMostOnce := by
  constructor
  · rw [hc]
    exact h.once
  · intro i d row hd ho hs
    rw [hc] at hd
    exact h.aborted i d row hd (hr _ row hs ho) hs
  · rw [hc]
    exact h.failed

theorem getElem?_insertRow {id id' : Uuid} {new row : SessionRow} (hn : new.status ≠ row.status)
    (h : (s.sessions.insert id new)[id']? = some row) : s.sessions[id']? = some row := by
  rw [Std.ExtTreeMap.getElem?_insert] at h
  split at h
  · exact absurd (congrArg SessionRow.status (Option.some.inj h)) hn
  · exact h

theorem loadConflictSession_ok {id : Uuid} (h : s.loadConflictSession id = .ok session) :
    s.sessions[id]? = some ⟨session, .open_⟩ := by
  unfold loadConflictSession at h
  split at h
  · rename_i hr
    rw [hr,Except.ok.inj h]
  · cases h

theorem markConflictSessionStatus_cases (s : SessionState) (id : Uuid) (status : SessionStatus) :
    (∃ session, s.sessions[id]? = some ⟨session, .open_⟩ ∧ s.markConflictSessionStatus id status =
      .ok { s with sessions := s.sessions.insert id ⟨session,status⟩ }) ∨
    ((∀ session, s.sessions[id]? ≠ some ⟨session, .open_⟩) ∧
      s.markConflictSessionStatus id status = .error (sessionUnavailable id)) := by
  unfold markConflictSessionStatus
  split
  · rename_i session hr
    exact .inl ⟨session,hr,rfl⟩
  · rename_i hn
    exact .inr ⟨fun session hr => hn session hr,rfl⟩

section Persist

variable {order : RowOrder} {scope : ContextUri} {operation : InteractiveOperation}

theorem beginSession_cases (s : SessionState) (ord : RowOrder) (sc : ContextUri) (operation : InteractiveOperation) :
    s.beginSession ord sc operation = s ∨ ∃ ses, s.beginSession ord sc operation =
      { s.persistConflictSession ses with nextSession := s.nextSession+1 } := by
  cases operation with
  | cherryPick commit onto =>
    simp only [beginSession]
    split
    · exact .inr ⟨_,rfl⟩
    · exact .inl rfl
  | rebase br onto =>
    simp only [beginSession]
    split
    · split
      · exact .inl rfl
      · exact .inr ⟨_,rfl⟩
    · exact .inl rfl

theorem Sound.beginSession (h : s.Sound) : (s.beginSession order scope operation).Sound := by
  rcases beginSession_cases s order scope operation with he | ⟨session,he⟩ <;> rw [he]
  · exact h
  · exact h.setSessions rfl (fun id hi => Std.ExtTreeMap.mem_insert.mpr (.inr hi))
      (fun id row hr hs => getElem?_insertRow (by simp [hs]) hr)

theorem AtMostOnce.beginSession (h : s.AtMostOnce) : (s.beginSession order scope operation).AtMostOnce := by
  rcases beginSession_cases s order scope operation with he | ⟨session,he⟩ <;> rw [he]
  · exact h
  · exact h.setSessions rfl (fun id row hs hr => getElem?_insertRow (by simp [hs]) hr)

end Persist

section Start

variable {id : Uuid} {resolutions : ConflictResolutionSet}

theorem startContinuation_cases (s : SessionState) (k : ℕ) (id : Uuid) (resolutions : ConflictResolutionSet) :
    s.startContinuation k id resolutions = s ∨ s.calls k = none ∧ ∃ phase,
      s.startContinuation k id resolutions = s.setCall k ⟨id,phase,[]⟩ ∧
        ((phase.IsLoaded ∧ id ∈ s.sessions) ∨ ∃ e, phase = .returned (.error e)) := by
  unfold startContinuation
  split
  · exact .inl rfl
  · rename_i hk
    split
    · rename_i session hl
      have hi : id ∈ s.sessions := MapEdit.mem_of_getElem? (loadConflictSession_ok hl)
      exact .inr ⟨hk,_,rfl, .inl ⟨trivial,hi⟩⟩
    · exact .inr ⟨hk,_,rfl, .inr ⟨_,rfl⟩⟩

theorem not_committed_nil : ¬ Continuation.Committed ⟨id,phase,[]⟩ := by
  simp [Continuation.Committed]

theorem Sound.startContinuation (h : s.Sound) : (s.startContinuation k id resolutions).Sound := by
  rcases startContinuation_cases s k id resolutions with he | ⟨hk,phase,he,hh⟩ <;> rw [he]
  · exact h
  · refine h.setCall rfl (fun _ hi => hi) (fun d ids hd => by simp [hk] at hd) (fun _ => not_committed_nil) ?_ ?_
      (fun _ _ hr _ => .inl hr)
    · intro hu
      rcases hh with ⟨hl,-⟩ | ⟨e,rfl⟩
      · cases phase <;> simp [Phase.IsLoaded,Phase.Underway] at hl hu
      · exact hu.elim
    · intro hp
      rcases hh with ⟨-,hi⟩ | ⟨e,rfl⟩
      · exact hi
      · rcases hp with hp | hp <;> exact hp.elim

theorem AtMostOnce.startContinuation (h : s.AtMostOnce) : (s.startContinuation k id resolutions).AtMostOnce := by
  rcases startContinuation_cases s k id resolutions with he | ⟨hk,phase,he,hp⟩ <;> rw [he]
  · exact h
  · have hn : (s.setCall k ⟨id,phase,[]⟩).AtMostOnce ↔ _ := atMostOnce_setCall h rfl (fun _ _ _ => Iff.rfl)
    exact hn.mpr (fun hc => absurd hc not_committed_nil)

end Start

section Abort

variable {id : Uuid}

theorem Sound.abortConflictSession (h : s.Sound) : (s.abortConflictSession id).Sound := by
  unfold SessionState.abortConflictSession
  rcases markConflictSessionStatus_cases s id .aborted with ⟨session,hr,he⟩ | ⟨-,he⟩ <;> rw [he]
  · exact h.setSessions rfl (fun id hi => Std.ExtTreeMap.mem_insert.mpr (.inr hi))
      (fun id row hr hs => getElem?_insertRow (by simp [hs]) hr)
  · exact h

theorem atMostOnce_abort (h : s.AtMostOnce) : (s.abortConflictSession id).AtMostOnce ↔
    ((∃ session, s.sessions[id]? = some ⟨session, .open_⟩) → s.Untaken id) := by
  unfold SessionState.abortConflictSession
  rcases markConflictSessionStatus_cases s id .aborted with ⟨session,hr,he⟩ | ⟨ho,he⟩ <;> rw [he]
  · constructor
    · intro h' _
      refine ⟨fun row hr' hs => ?_,fun i c hc hi hcc => ?_⟩
      · rw [hr] at hr'
        cases hr'
        cases hs
      · subst hi
        exact h'.aborted i c ⟨session, .aborted⟩ hc (Std.ExtTreeMap.getElem?_insert_self ..) rfl hcc
    · intro hu
      obtain ⟨-,hn⟩ := hu ⟨session,hr⟩
      refine ⟨h.once,fun i c row hc hr' hs => ?_,h.failed⟩
      have hr'' : (s.sessions.insert id ⟨session, .aborted⟩)[c.id]? = some row := hr'
      rw [Std.ExtTreeMap.getElem?_insert] at hr''
      split at hr''
      · rename_i hi
        exact hn i c hc (compare_eq_iff_eq.mp hi).symm
      · exact h.aborted i c row hc hr'' hs
  · exact iff_of_true h (fun ⟨session,hr⟩ => absurd hr (ho session))

end Abort

section Advance

variable {order : RowOrder} {now : DateTime} {fault : Option String}

theorem committed_append {id : Uuid} {txs : List (SqliteVersionStore × SqliteVersionStore)}
    {st : SqliteVersionStore} : Continuation.Committed ⟨id,phase,txs++[(st, tx)]⟩ ↔
      (∃ t ∈ txs, t.2 ≠ t.1) ∨ tx ≠ st := by
  simp [Continuation.Committed,or_and_right,exists_or]

/-- What the next step of a call does: nothing to a call that returned; it stops at a fault, or where it cannot
go on; it commits or goes on; and a call that is through marks its session. -/
inductive Advances (s : SessionState) (k : ℕ) (c : Continuation) (order : RowOrder) (fault : Option String) :
    SessionState → Prop
  | idle (h : ¬ c.phase.IsLoaded ∧ ¬ c.phase.Underway) : Advances s k c order fault s
  | stops (e : VersionError) (txs : List (SqliteVersionStore × SqliteVersionStore))
    (hp : c.phase.IsLoaded ∨ c.phase.Underway) (ht : (∃ t ∈ txs, t.2 ≠ t.1) ↔ c.Committed)
    (h : ¬ (fault = none ∧ c.phase.CanAdvance s.store order) ∨
      ∃ ids, c.phase = .applied ids ∧ ∀ session, s.sessions[c.id]? ≠ some ⟨session, .open_⟩) :
    Advances s k c order fault (s.setCall k ⟨c.id, .returned (.error e), txs⟩)
  | goes (phase : Phase) (tx : SqliteVersionStore) (hp : c.phase.IsLoaded ∨ c.phase.Underway) (hunder : phase.Underway)
    (hf : fault = none) (hcan : c.phase.CanAdvance s.store order) (hne : c.phase.IsLoaded → tx ≠ s.store) :
    Advances s k c order fault ({ s with store := tx }.setCall k ⟨c.id, phase, c.txs ++ [(s.store, tx)]⟩)
  | completes (ids : List CommitId) (session : ConflictSession) (hp : c.phase = .applied ids) (hf : fault = none)
    (hrow : s.sessions[c.id]? = some ⟨session, .open_⟩) : Advances s k c order fault
      ({ s with sessions := s.sessions.insert c.id ⟨session, .completed⟩ }.setCall k ⟨c.id, .returned (.ok ids), c.txs⟩)

theorem advances_transaction (s : SessionState) (k : ℕ) (c : Continuation) (ord : RowOrder) (now : DateTime)
    (hp : c.phase.IsLoaded ∨ c.phase.Underway) : Advances s k c ord none
      ({ s with store := (c.phase.advance ord now s.store).2 }.setCall k
        ⟨c.id,(c.phase.advance ord now s.store).1,c.txs++[(s.store, (c.phase.advance ord now s.store).2)]⟩) := by
  by_cases hc : c.phase.CanAdvance s.store ord
  · refine .goes _ _ hp ?_ rfl hc ?_
    · rcases hp with hp | hp
      · cases hh : c.phase <;> rw [hh] at hp hc <;> try exact hp.elim
        exact (advance_loaded hc).1
      · exact advance_underway hp hc
    · intro hp
      cases hh : c.phase <;> rw [hh] at hp hc <;> try exact hp.elim
      exact (advance_loaded hc).2
  · have hs : ∃ e, c.phase.advance ord now s.store = (.returned (.error e), s.store) := advance_error hc
    obtain ⟨e,he⟩ := hs
    rw [he]
    refine .stops e _ hp ?_ (.inl (fun h => hc h.2))
    simp [Continuation.Committed,or_and_right,exists_or]

theorem advanceCall_advances (hc : s.calls k = some c) :
    Advances s k c order fault (s.advanceCall k order now fault) := by
  obtain ⟨id,phase,txs⟩ := c
  simp only [advanceCall,hc]
  cases fault with
  | some message =>
    cases phase with
    | returned result => exact .idle (by simp [Phase.IsLoaded,Phase.Underway])
    | applied ids => exact .stops _ txs (.inr trivial) Iff.rfl (.inl (by simp))
    | loaded session resolutions => exact .stops _ txs (.inl trivial) Iff.rfl (.inl (by simp))
    | picking session br target done rest => exact .stops _ txs (.inr trivial) Iff.rfl (.inl (by simp))
  | none =>
    cases phase with
    | returned result => exact .idle (by simp [Phase.IsLoaded,Phase.Underway])
    | loaded session resolutions =>
      exact advances_transaction s k ⟨id, .loaded session resolutions,txs⟩ order now (.inl trivial)
    | picking session br target done rest =>
      exact advances_transaction s k ⟨id, .picking session br target done rest,txs⟩ order now (.inr trivial)
    | applied ids =>
      rcases markConflictSessionStatus_cases s id .completed with ⟨session,hr,he⟩ | ⟨hn,he⟩
      · simp only [he]
        exact .completes ids session rfl rfl hr
      · simp only [he]
        exact .stops _ txs (.inr trivial) Iff.rfl (.inr ⟨ids,rfl,hn⟩)

theorem not_returned (hp : c.phase.IsLoaded ∨ c.phase.Underway) (hc : s.calls k = some c) :
    ∀ d ids, s.calls k = some d → d.phase ≠ .returned (.ok ids) := by
  intro d ids hd he
  obtain rfl := Option.some.inj (hc.symm.trans hd)
  rw [he] at hp
  rcases hp with hp | hp <;> exact hp.elim

theorem not_loaded_of_underway (h : phase.Underway) : ¬ phase.IsLoaded := by
  cases phase <;> simp_all [Phase.Underway,Phase.IsLoaded]

theorem Sound.advances (h : s.Sound) (hc : s.calls k = some c) (ha : Advances s k c order fault s') : s'.Sound := by
  cases ha with
  | idle => exact h
  | stops e txs hp ht hs =>
    refine h.setCall rfl (fun _ hi => hi) (not_returned hp hc) (fun hl => hl.elim) (fun hu => hu.elim) ?_
      (fun _ _ hr _ => .inl hr)
    intro hp'
    rcases hp' with hp' | hp' <;> exact hp'.elim
  | goes phase tx hp hn hf hca he =>
    refine h.setCall rfl (fun _ hi => hi) (not_returned hp hc) (fun hl => absurd hl (not_loaded_of_underway hn))
      (fun _ => committed_append.mpr ?_) (fun _ => h.stored k c hc hp) (fun _ _ hr _ => .inl hr)
    rcases hp with hp | hp
    · exact .inr (he hp)
    · exact .inl (h.underway k c hc hp)
  | completes ids session hp hf hr =>
    have hn : c.phase.Underway := by
      rw [hp]
      trivial
    refine h.setCall rfl (fun _ hi => Std.ExtTreeMap.mem_insert.mpr (.inr hi)) (not_returned (.inr hn) hc)
      (fun hl => hl.elim) (fun hu => hu.elim) ?_ ?_
    · intro hp'
      rcases hp' with hp' | hp' <;> exact hp'.elim
    · intro id row hr' _
      have hg : (s.sessions.insert c.id ⟨session, .completed⟩)[id]? = some row := hr'
      rw [Std.ExtTreeMap.getElem?_insert] at hg
      split at hg
      · rename_i hi
        exact .inr ⟨(compare_eq_iff_eq.mp hi).symm,⟨ids,rfl⟩,h.underway k c hc hn⟩
      · exact .inl hg

theorem open_of_underway (hs : s.Sound) (h : s.AtMostOnce) (hc : s.calls k = some c) (hp : c.phase.Underway) :
    ∃ session, s.sessions[c.id]? = some ⟨session, .open_⟩ := by
  have hcc := hs.underway k c hc hp
  obtain ⟨row,hr⟩ : ∃ row, s.sessions[c.id]? = some row :=
    Option.isSome_iff_exists.mp (Std.ExtTreeMap.isSome_getElem?_iff_mem.mpr (hs.stored k c hc (.inr hp)))
  obtain ⟨session,status⟩ := row
  cases status with
  | open_ => exact ⟨session,hr⟩
  | aborted => exact absurd hcc (h.aborted k c _ hc hr rfl)
  | completed =>
    obtain ⟨j,d,ids,hd,hi,hh,hdc⟩ := hs.completed _ _ hr rfl
    obtain rfl := h.once j k d c hd hc hi hdc hcc
    exact absurd hh (not_returned (.inr hp) hc d ids hd)

theorem atMostOnce_advances (hs : s.Sound) (h : s.AtMostOnce) (hc : s.calls k = some c)
    (ha : Advances s k c order fault s') : s'.AtMostOnce ↔
      (c.phase.IsLoaded → fault = none → c.phase.CanAdvance s.store order → s.Untaken c.id) ∧
        (c.phase.Underway → fault = none ∧ c.phase.CanAdvance s.store order) := by
  cases ha with
  | idle hidl => exact iff_of_true h ⟨fun hl => absurd hl hidl.1,fun hu => absurd hu hidl.2⟩
  | stops e txs hp ht ho =>
    have hn : (s.setCall k ⟨c.id, .returned (.error e),txs⟩).AtMostOnce ↔ _ :=
      atMostOnce_setCall h rfl (fun _ _ _ => Iff.rfl)
    rw [hn]
    rcases hp with hp | hp
    · have he : ¬ Continuation.Committed ⟨c.id, .returned (.error e),txs⟩ := fun hcc =>
        hs.loaded k c hc hp (ht.mp hcc)
      refine iff_of_true (fun hcc => absurd hcc he) ⟨fun _ hf hca => ?_,
        fun hu => absurd hp (not_loaded_of_underway hu)⟩
      rcases ho with ho | ⟨ids,hids,-⟩
      · exact absurd ⟨hf,hca⟩ ho
      · rw [hids] at hp
        exact hp.elim
    · have hcc : Continuation.Committed ⟨c.id, .returned (.error e),txs⟩ := ht.mpr (hs.underway k c hc hp)
      refine iff_of_false (fun hal => (hal hcc).2.1 e rfl) (fun hk => ?_)
      rcases ho with ho | ⟨ids,-,hcl⟩
      · exact ho (hk.2 hp)
      · obtain ⟨session,hr⟩ := open_of_underway hs h hc hp
        exact hcl session hr
  | goes phase tx hp hun hf hca hne =>
    have hn : ({ s with store := tx }.setCall k ⟨c.id,phase,c.txs++[(s.store, tx)]⟩).AtMostOnce ↔ _ :=
      atMostOnce_setCall h rfl (fun _ _ _ => Iff.rfl)
    rw [hn]
    have hph : ∀ e, phase ≠ .returned (.error e) := by
      rintro e rfl
      exact hun.elim
    rcases hp with hp | hp
    · have hcc : Continuation.Committed ⟨c.id,phase,c.txs++[(s.store, tx)]⟩ := committed_append.mpr (.inr (hne hp))
      constructor
      · intro hal
        obtain ⟨hw,-,hh⟩ := hal hcc
        refine ⟨fun _ _ _ => ⟨hw,fun j d hd hi => ?_⟩,fun hu => absurd hp (not_loaded_of_underway hu)⟩
        by_cases hj : j = k
        · subst hj
          obtain rfl := Option.some.inj (hc.symm.trans hd)
          exact hs.loaded j c hc hp
        · exact hh j d hj hd hi
      · rintro ⟨hk,-⟩ -
        obtain ⟨hw,hh⟩ := hk hp hf hca
        exact ⟨hw,hph,fun j d _ hd hi => hh j d hd hi⟩
    · have hcc := hs.underway k c hc hp
      refine iff_of_true (fun _ => ⟨fun row hr hs' => h.aborted k c row hc hr hs' hcc,hph,?_⟩)
        ⟨fun hl => absurd hl (not_loaded_of_underway hp),fun _ => ⟨hf,hca⟩⟩
      exact fun j d hj hd hi hdc => hj (h.once j k d c hd hc hi hdc hcc)
  | completes ids session hp hf hr =>
    have hun : c.phase.Underway := by
      rw [hp]
      trivial
    have hcc := hs.underway k c hc hun
    have hw : ∀ (id : Uuid) (row : SessionRow), row.status = .aborted →
        ((s.sessions.insert c.id ⟨session, .completed⟩)[id]? = some row ↔ s.sessions[id]? = some row) := by
      intro id row hst
      rw [Std.ExtTreeMap.getElem?_insert]
      split
      · rename_i hi
        obtain rfl := compare_eq_iff_eq.mp hi
        rw [hr]
        constructor <;> rintro ⟨⟩ <;> cases hst
      · exact Iff.rfl
    have hn : ({ s with sessions := s.sessions.insert c.id ⟨session, .completed⟩ }.setCall k
        ⟨c.id, .returned (.ok ids),c.txs⟩).AtMostOnce ↔ _ := atMostOnce_setCall h rfl hw
    rw [hn]
    refine iff_of_true (fun _ => ⟨fun row hr' hs' => h.aborted k c row hc hr' hs' hcc,by simp,?_⟩)
      ⟨fun hl => absurd hl (not_loaded_of_underway hun),fun _ => ⟨hf,by rw [hp]; trivial⟩⟩
    exact fun j d hj hd hi hdc => hj (h.once j k d c hd hc hi hdc hcc)

end Advance

section Run

variable {svc : Services} {l : SessionLabel}

theorem step_sound (h : s.Sound) : (s.step svc l).Sound := by
  cases l with
  | begin order scope operation => exact h.beginSession
  | continueById k id resolutions => exact h.startContinuation
  | abort id => exact h.abortConflictSession
  | other op => exact ⟨h.loaded,h.underway,h.stored,h.completed⟩
  | advance k order now fault =>
    cases hc : s.calls k with
    | none =>
      have hi : s.advanceCall k order now fault = s := by simp [advanceCall,hc]
      show (s.advanceCall k order now fault).Sound
      rwa [hi]
    | some c => exact h.advances hc (advanceCall_advances hc)

theorem step_atMostOnce (hs : s.Sound) (h : s.AtMostOnce) : (s.step svc l).AtMostOnce ↔ s.StepOk l := by
  cases l with
  | begin order scope operation => exact iff_of_true h.beginSession trivial
  | continueById k id resolutions => exact iff_of_true h.startContinuation trivial
  | abort id => exact atMostOnce_abort h
  | other op => exact iff_of_true ⟨h.once,h.aborted,h.failed⟩ trivial
  | advance k order now fault =>
    cases hc : s.calls k with
    | none =>
      have hi : s.advanceCall k order now fault = s := by simp [advanceCall,hc]
      refine iff_of_true ?_ (fun c hc' => by simp [hc] at hc')
      show (s.advanceCall k order now fault).AtMostOnce
      rwa [hi]
    | some c =>
      rw [show s.step svc (.advance k order now fault) = s.advanceCall k order now fault from rfl,
        atMostOnce_advances hs h hc (advanceCall_advances hc)]
      constructor
      · intro ho c' hc'
        obtain rfl := Option.some.inj (hc.symm.trans hc')
        exact ho
      · exact fun ho => ho c hc

theorem empty_sound : empty.Sound := by
  constructor <;> simp [empty]

theorem empty_atMostOnce : empty.AtMostOnce := by
  constructor <;> simp [empty]

/-- All along a run sessions take effect at most once exactly if every step of it meets the condition. -/
theorem run_atMostOnce_iff (services : Services) (labels : List SessionLabel) :
    (∀ before, before <+: labels → (run (step services) empty before).AtMostOnce) ↔
      Meets (step services) StepOk empty labels := by
  have ht : ∀ s l, s.Sound ∧ s.AtMostOnce →
      ((step services s l).Sound ∧ (step services s l).AtMostOnce ↔ s.StepOk l) := by
    intro s l ⟨hs, h⟩
    rw [step_atMostOnce hs h]
    exact and_iff_right (step_sound hs)
  rw [← meets_iff_invariant ht ⟨empty_sound, empty_atMostOnce⟩]
  have ho : ∀ ls, (run (step services) empty ls).Sound :=
    run_preserves (fun s l hs => step_sound hs) empty_sound
  exact ⟨fun h ls hp => ⟨ho ls, h ls hp⟩, fun h ls hp => (h ls hp).2⟩

end Run

/-- The session of a conflict between `main` and `dev`, a continuation of it that has loaded it, and its abort. -/
def abortedLabels : List SessionLabel :=
  SqliteVersionStore.conflictOps.map .other ++
    [.begin .asStored SqliteVersionStore.sampleScope (.cherryPick 1 SqliteVersionStore.mainBranch),
      .continueById 0 0 ((∅ : ConflictResolutionSet).insert "uwu://t/a" .theirs), .abort 0, .advance 0 .asStored 3 none]

/-- The session of a rebase of `dev` onto `main`, continued by one call. -/
def rebaseLabels : List SessionLabel :=
  SqliteVersionStore.conflictOps.map .other ++
    [.begin .asStored SqliteVersionStore.sampleScope (.rebase SqliteVersionStore.devBranch SqliteVersionStore.mainBranch),
      .continueById 0 0 ((∅ : ConflictResolutionSet).insert "uwu://t/a" .theirs), .advance 0 .asStored 3 none,
      .advance 0 .asStored 4 none]

def trace (c : Continuation) : Uuid × Bool × Bool :=
  (c.id, c.txs.any (fun t => t.2.nextId ≠ t.1.nextId), match c.phase with | .returned (.error _) => true | _ => false)

theorem committed_of_trace {id : Uuid} {failed : Bool} (h : trace c = (id, true, failed)) : c.Committed := by
  have ha : c.txs.any (fun t => t.2.nextId ≠ t.1.nextId) = true := congrArg (fun p => p.2.1) h
  obtain ⟨t,ht,hn⟩ := List.any_eq_true.mp ha
  refine ⟨t,ht,fun he => ?_⟩
  simp [he] at hn

/-- The first call commits after the abort; the second leaves a commit behind and returns an error. -/
theorem run_not_atMostOnce :
    ¬ (run (step SqliteVersionStore.sampleServices) empty abortedLabels).AtMostOnce ∧
      ¬ (run (step SqliteVersionStore.sampleServices) empty rebaseLabels).AtMostOnce := by
  constructor
  · intro h
    have ha : ((run (step sampleServices) empty abortedLabels).calls 0).map trace =
        some (0, true, false) := by rfl
    have hr : ((run (step sampleServices) empty abortedLabels).sessions[(0 : Uuid)]?).map
        (·.status) = some .aborted := by rfl
    obtain ⟨c, hc, ht⟩ := Option.map_eq_some_iff.mp ha
    obtain ⟨row, hr, hs⟩ := Option.map_eq_some_iff.mp hr
    have hi : c.id = 0 := congrArg Prod.fst ht
    exact h.aborted 0 c row hc (hi ▸ hr) hs (committed_of_trace ht)
  · intro h
    have ha : ((run (step sampleServices) empty rebaseLabels).calls 0).map trace =
        some (0, true, true) := by rfl
    obtain ⟨c, hc, ht⟩ := Option.map_eq_some_iff.mp ha
    have hf : (match c.phase with | .returned (.error _) => true | _ => false) = true :=
      congrArg (fun p => p.2.2) ht
    split at hf
    · rename_i e he
      exact h.failed 0 c e hc he (committed_of_trace ht)
    · cases hf

end SessionState

end UwuContextDb.Version
