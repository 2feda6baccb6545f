import UwuContextDb.Version.AttachedHead
import UwuContextDb.Version.PgCache

/-! The references that `SqliteVersionStore` and `PgVersionStore` expose after the same calls. -/

namespace UwuContextDb.Version

open StateMachine

structure Refs where
  head : String → Option CommitId
  branches : String → Std.ExtTreeMap String Branch

structure Refs.Advanced (refs refs' : Refs) (scope name : String) (id : CommitId) : Prop where
  head : refs'.head = Function.update refs.head scope (some id)
  branches : ∃ b, (refs.branches scope)[name]? = some b ∧
    refs'.branches = Function.update refs.branches scope ((refs.branches scope).insert name { b with head := id })

def SqliteVersionStore.refs (st : SqliteVersionStore) : Refs := ⟨st.getHead, st.branches⟩

def PgVersionStore.refs (st : PgVersionStore) : Refs := st.tables.refs

def SqliteVersionStore.attached (st : SqliteVersionStore) (scope : String) : Option String :=
  (st.heads[scope]?).bind (·.attachedBranch)

inductive RefCall
  | createBranch (scope : ContextUri) (name : BranchName) (from_ : CommitId) (bt : BranchType) (now : DateTime)
  | switchHead (scope : ContextUri) (branch : BranchName)
  | commit (scope : ContextUri) (changes : ChangeSet) (metadata : CommitMeta) (now : DateTime)

/-- Both stores, with the branch that the last successful `switch_head` of each scope named: the tables of
`PgVersionStore` do not have it. -/
structure Backends where
  sqlite : SqliteVersionStore
  pg : PgVersionStore
  checkedOut : String → Option String

namespace Backends

def new : Backends := ⟨.empty, .empty, fun _ => none⟩

variable (s : Backends)

def step : RefCall → Backends
  | .createBranch scope name from_ bt now =>
    { s with
      sqlite := s.sqlite.afterTx (s.sqlite.createBranch scope name from_ bt now)
      pg := s.pg.afterTx (s.pg.createBranch scope name from_ bt now) }
  | .switchHead scope branch =>
    { sqlite := s.sqlite.afterTx (s.sqlite.switchHead scope branch)
      pg := s.pg.afterTx (s.pg.switchHead scope branch)
      checkedOut := if (s.pg.switchHead scope branch).isOk then
        Function.update s.checkedOut scope.canonical (some branch.asStr) else s.checkedOut }
  | .commit scope changes metadata now =>
    { s with
      sqlite := s.sqlite.afterTx (s.sqlite.commit scope changes metadata now)
      pg := s.pg.afterTx (s.pg.commit scope changes metadata now) }

def SameRefs : Prop := s.sqlite.refs = s.pg.refs

def Advances : RefCall → Prop
  | .commit scope changes metadata now =>
    (∀ name id tx, s.sqlite.attached scope.canonical = some name →
      s.sqlite.commit scope changes metadata now = .ok (id, tx) →
      s.sqlite.refs.Advanced tx.refs scope.canonical name id) ∧
    ∀ name id tx, s.checkedOut scope.canonical = some name → s.pg.commit scope changes metadata now = .ok (id, tx) →
      s.pg.refs.Advanced tx.refs scope.canonical name id
  | _ => True

/-- No commit is made where a branch is checked out, and a branch is created from a commit of its scope. -/
def Uniform : RefCall → Prop
  | .createBranch scope name from_ _ _ =>
    (s.pg.tables.getBranch scope.canonical name).isSome = true ∨ s.sqlite.InScope from_ scope.canonical
  | .switchHead _ _ => True
  | .commit scope changes _ _ => s.checkedOut scope.canonical = none ∨ checkUpdates changes.updates ≠ .ok ()

end Backends

namespace SqliteVersionStore

variable {st tx : SqliteVersionStore} {scope : ContextUri} {changes : ChangeSet} {metadata : CommitMeta} {now : DateTime}
  {id : CommitId}

theorem getHead_setHead (st : SqliteVersionStore) (sc : String) (row : HeadRow) :
    (st.setHead sc row).getHead = Function.update st.getHead sc (some row.commit) := by
  funext other
  by_cases ho : sc = other
  · subst ho
    simp [getHead]
  · rw [Function.update_of_ne (Ne.symm ho)]
    simp [getHead,ho]

theorem commit_advanced {name : String} (ht : st.attached scope.canonical = some name)
    (h : st.commit scope changes metadata now = .ok (id, tx)) : st.refs.Advanced tx.refs scope.canonical name id := by
  obtain ⟨rows,row,-,-,-,-,-,-,-,hm⟩ := commit_ok h
  cases hm with
  | first hn => simp [attached,hn] at ht
  | detached head hh hd => simp [attached,hh,hd] at ht
  | attached head name' b hh ha hb he =>
    obtain rfl : name' = name := by simpa [attached,hh,ha] using ht
    exact ⟨getHead_setHead _ _ _,b,hb,rfl⟩

theorem commit_detached (ht : st.attached scope.canonical = none)
    (h : st.commit scope changes metadata now = .ok (id, tx)) :
    id = st.nextId ∧ ∃ row :
    CommitRow, row.scope = scope.canonical ∧ tx = (st.withCommit row).setHead scope.canonical ⟨id,none⟩ := by
  obtain ⟨rows,row,-,-,hi,hs,-,-,-,hm⟩ := commit_ok h
  refine ⟨hi,row,hs,?_⟩
  cases hm with
  | first hn => rfl
  | detached head hh hd => rfl
  | attached head name b hh ha hb he => simp [attached,hh,ha] at ht

theorem commit_error {e : VersionError} (h : checkUpdates changes.updates = .error e) :
    st.commit scope changes metadata now = .error e := by
  simp [commit,changeRows,h,bind,Except.bind]

end SqliteVersionStore

namespace PgVersionStore

variable {st tx : PgVersionStore} {scope : ContextUri} {changes : ChangeSet} {metadata : CommitMeta} {now : DateTime}
  {id : CommitId}

section Insert

variable {scopeKey : String} {parents : List CommitId} {author : Author} {message : String} {deltas : List DeltaRow}

theorem insertCommit_refs (h : st.insertCommit scopeKey parents author message now metadata deltas = .ok (id, tx)) :
    id = st.tables.nextId ∧ tx.tables.nextId = st.tables.nextId + 1 ∧ tx.refs = st.refs ∧
    tx.tables.heads = st.tables.heads := by
  unfold insertCommit at h
  split at h
  · split at h
    · cases h
    · cases h
      exact ⟨rfl,rfl,rfl,rfl⟩
  · cases h

theorem insertCommit_isOk (hp : ∀ p ∈ parents, p < st.tables.nextId) (hn : parents.Nodup) :
    ∃ tx, st.insertCommit scopeKey parents author message now metadata deltas = .ok (st.tables.nextId, tx) := by
  unfold insertCommit
  rw [dif_pos hp,if_neg (not_not.mpr hn)]
  exact ⟨_,rfl⟩

end Insert

theorem commit_ok (h : st.commit scope changes metadata now = .ok (id, tx)) :
    id = st.tables.nextId ∧ tx.tables.nextId = st.tables.nextId + 1 ∧
      tx.refs = ⟨Function.update st.refs.head scope.canonical (some id),st.refs.branches⟩ := by
  simp only [commit,bind_eq_ok] at h
  obtain ⟨rows,-,⟨id',inner⟩,hi,h⟩ := h
  obtain ⟨rfl,hn,hr,-⟩ := insertCommit_refs hi
  have hh : inner.tables.getHead = st.refs.head := congrArg Refs.head hr
  have hb : inner.tables.branches = st.refs.branches := congrArg Refs.branches hr
  cases hp : st.tables.getHead scope.canonical with
  | none =>
    simp only [hp,pure,Except.pure,Except.ok.injEq,Prod.mk.injEq] at h
    obtain ⟨rfl,rfl⟩ := h
    refine ⟨rfl,hn,?_⟩
    rw [← hh,← hb]
    exact congrArg (fun head => Refs.mk head _) (SqliteVersionStore.getHead_setHead _ _ _)
  | some expected =>
    simp only [hp,bind_eq_ok,pure,Except.pure,Except.ok.injEq,Prod.mk.injEq] at h
    obtain ⟨moved,hm,rfl,rfl⟩ := h
    obtain ⟨tbl,ht,rfl⟩ := map_eq_ok.mp hm
    obtain ⟨row,-,-,rfl⟩ := SqliteVersionStore.updateHeadInTx_ok ht
    refine ⟨rfl,hn,?_⟩
    rw [← hh,← hb]
    exact congrArg (fun head => Refs.mk head _) (SqliteVersionStore.getHead_setHead _ _ _)

theorem commit_isOk (md : CommitMeta) (now : DateTime)
    (hd : ∀ head, st.tables.getHead scope.canonical = some head → head < st.tables.nextId)
    (h : checkUpdates changes.updates = .ok ()) :
    ∃ tx, st.commit scope changes md now = .ok (st.tables.nextId, tx) := by
  have hn : ∀ p ∈ (st.tables.getHead scope.canonical).toList, p < st.tables.nextId := by
    intro p hp
    exact hd p (by simpa using hp)
  have ho : (st.tables.getHead scope.canonical).toList.Nodup := by
    cases st.tables.getHead scope.canonical <;> simp
  have hr : ∃ rows, changeRows changes = .ok rows := ⟨_,by rw [changeRows,h]; rfl⟩
  obtain ⟨rows,hr⟩ := hr
  obtain ⟨inner,hi⟩ :
      ∃ inner, st.insertCommit scope.canonical (st.tables.getHead scope.canonical).toList .ofSystem "" now
      md rows = .ok (st.tables.nextId, inner) := insertCommit_isOk hn ho
  obtain ⟨-,-,-,hh⟩ := insertCommit_refs hi
  cases ha : st.tables.heads[scope.canonical]? with
  | none =>
    have hg : st.tables.getHead scope.canonical = none := by simp [SqliteVersionStore.getHead,ha]
    rw [hg] at hi
    simp only [commit,hr,hi,hg,bind,Except.bind]
    exact ⟨_,rfl⟩
  | some row =>
    have hg : st.tables.getHead scope.canonical = some row.commit := by simp [SqliteVersionStore.getHead,ha]
    rw [hg] at hi
    simp only [commit,hr,hi,hg,bind,Except.bind,updateHeadInTx,SqliteVersionStore.updateHeadInTx,
      SqliteVersionStore.casHead,hh,ha,if_true,Except.map]
    exact ⟨_,rfl⟩

theorem commit_error {e : VersionError} (h : checkUpdates changes.updates = .error e) :
    st.commit scope changes metadata now = .error e := by
  simp [commit,changeRows,h,bind,Except.bind]

end PgVersionStore

namespace Backends

variable {s : Backends}

structure Paired (s : Backends) : Prop where
  sameRefs : s.SameRefs
  nextId : s.pg.tables.nextId = s.sqlite.nextId
  checkedOut : ∀ scope, s.checkedOut scope = s.sqlite.attached scope
  sound : s.sqlite.RefsSound
  headed : ∀ (id : CommitId) (row : CommitRow), s.sqlite.commits[id]? = some row → row.scope ∈ s.sqlite.heads

theorem paired_new : new.Paired :=
  ⟨rfl,rfl,fun scope => by
    simp [new,SqliteVersionStore.attached,SqliteVersionStore.empty],SqliteVersionStore.refsSound_empty,
      fun id row h => by simp [new,SqliteVersionStore.empty] at h⟩

namespace Paired

theorem head_eq (h : s.Paired) : s.pg.tables.getHead = s.sqlite.getHead := (congrArg Refs.head h.sameRefs).symm

theorem branches_eq (h : s.Paired) : s.pg.tables.branches = s.sqlite.branches := (congrArg Refs.branches h.sameRefs).symm

theorem branchHead_eq (h : s.Paired) (sc : String) (name : BranchName) :
    s.pg.tables.branchHead sc name = s.sqlite.branchHead sc name := by
  simp [SqliteVersionStore.branchHead,SqliteVersionStore.getBranch,h.branches_eq]

theorem head_lt (h : s.Paired) (sc : String) :
    ∀ head, s.pg.tables.getHead sc = some head → head < s.pg.tables.nextId := by
  intro head hh
  rw [h.head_eq] at hh
  obtain ⟨row,hr,rfl⟩ := Option.map_eq_some_iff.mp hh
  rw [h.nextId]
  exact h.sound.fresh row.commit (h.sound.head sc row hr).mem

section Commit

variable {scope : ContextUri} {changes : ChangeSet}

theorem not_advances (h : s.Paired) (md : CommitMeta) (now : DateTime) (ho : s.checkedOut scope.canonical ≠ none)
    (hv : checkUpdates changes.updates = .ok ()) : ¬ s.Advances (.commit scope changes md now) := by
  rintro ⟨-,hp⟩
  obtain ⟨name,hn⟩ := Option.ne_none_iff_exists'.mp ho
  obtain ⟨tx,ht⟩ := PgVersionStore.commit_isOk md now (h.head_lt scope.canonical) hv
  obtain ⟨-,-,he⟩ := PgVersionStore.commit_ok ht
  obtain ⟨b,hb,hr⟩ := (hp name _ tx hn ht).branches
  have hs : (s.pg.tables.branches scope.canonical)[name]? = some { b with head := s.pg.tables.nextId } := by
    have hr : s.pg.tables.branches = _ := (congrArg Refs.branches he).symm.trans hr
    rw [hr,Function.update_self,Std.ExtTreeMap.getElem?_insert_self]
  have hh : b.head = s.pg.tables.nextId := congrArg Branch.head (Option.some.inj (hb.symm.trans hs))
  have hl : b.head < s.sqlite.nextId := by
    refine h.sound.fresh b.head (h.sound.branch scope.canonical name b ?_).mem
    rw [← h.branches_eq]
    exact hb
  rw [hh,h.nextId] at hl
  exact absurd hl (lt_irrefl _)

theorem commit (h : s.Paired) (md : CommitMeta) (now : DateTime)
    (hk : s.Uniform (.commit scope changes md now)) : (s.step (.commit scope changes md now)).Paired := by
  cases hc : checkUpdates changes.updates with
  | error e =>
    have hs : s.step (.commit scope changes md now) = s := by
      simp only [step,SqliteVersionStore.commit_error hc,PgVersionStore.commit_error hc]
      rfl
    rw [hs]
    exact h
  | ok u =>
    have hu : s.checkedOut scope.canonical = none := hk.resolve_right (not_not.mpr hc)
    obtain ⟨sqlite,hq⟩ := h.sound.commit_ok scope md now hc
    obtain ⟨pg,hp⟩ := PgVersionStore.commit_isOk md now (h.head_lt scope.canonical) hc
    obtain ⟨-,hn,he⟩ := PgVersionStore.commit_ok hp
    have hd : s.sqlite.attached scope.canonical = none := (h.checkedOut scope.canonical).symm.trans hu
    obtain ⟨-,row,ho,rfl⟩ := SqliteVersionStore.commit_detached hd hq
    have hs : s.step (.commit scope changes md now) =
        { s with sqlite := (s.sqlite.withCommit row).setHead scope.canonical ⟨s.sqlite.nextId,none⟩, pg := pg } := by
      simp only [step,hq,hp]
      rfl
    rw [hs]
    refine ⟨?_,?_,?_,?_,?_⟩
    · show (⟨_,_⟩ : Refs) = pg.refs
      rw [he,SqliteVersionStore.getHead_setHead]
      simp only [PgVersionStore.refs,SqliteVersionStore.refs,h.head_eq,h.branches_eq,h.nextId]
      rfl
    · show pg.tables.nextId = s.sqlite.nextId + 1
      rw [hn,h.nextId]
    · intro other
      show s.checkedOut other = _
      rw [h.checkedOut other]
      by_cases ht : scope.canonical = other
      · subst ht
        simpa [SqliteVersionStore.attached] using hd
      · simp [SqliteVersionStore.attached,ht,SqliteVersionStore.withCommit]
    · exact (h.sound.withCommit row).setHead (SqliteVersionStore.inScope_nextId ho) (by simp)
    · intro id r hr
      show r.scope ∈ s.sqlite.heads.insert scope.canonical _
      have hr : (s.sqlite.commits.insert s.sqlite.nextId row)[id]? = some r := hr
      rw [Std.ExtTreeMap.getElem?_insert] at hr
      split at hr
      · obtain rfl := Option.some.inj hr
        rw [ho]
        exact Std.ExtTreeMap.mem_insert_self
      · exact Std.ExtTreeMap.mem_insert.mpr (.inr (h.headed id r hr))

end Commit

section Refs

variable {scope : ContextUri} {name branch : BranchName} {from_ : CommitId} {bt : BranchType} {now : DateTime}

theorem createBranch (h : s.Paired) (hk : s.Uniform (.createBranch scope name from_ bt now)) :
    (s.step (.createBranch scope name from_ bt now)).Paired := by
  cases hg : s.sqlite.getBranch scope.canonical name with
  | some b =>
    have hg' : s.pg.tables.getBranch scope.canonical name = some b := by
      simpa [SqliteVersionStore.getBranch,h.branches_eq] using hg
    have hs : s.step (.createBranch scope name from_ bt now) = s := by
      simp only [step,SqliteVersionStore.createBranch,PgVersionStore.createBranch,hg,hg']
      rfl
    rw [hs]
    exact h
  | none =>
    have hg' : s.pg.tables.getBranch scope.canonical name = none := by
      simpa [SqliteVersionStore.getBranch,h.branches_eq] using hg
    have hc : s.sqlite.InScope from_ scope.canonical := hk.resolve_left (by simp [hg'])
    have hr : s.sqlite.requireCommitScope from_ scope.canonical = .ok () :=
      SqliteVersionStore.requireCommitScope_ok.mpr hc
    have hs : s.step (.createBranch scope name from_ bt now) =
        { s with
          sqlite := s.sqlite.setBranch scope.canonical name.asStr ⟨name,from_,from_,now,bt, .active⟩
          pg := s.pg.withRefs (s.pg.tables.setBranch scope.canonical name.asStr ⟨name,from_,from_,now,
            bt, .active⟩) } := by
      simp only [step,SqliteVersionStore.createBranch,PgVersionStore.createBranch,hg,hg',hr]
      rfl
    rw [hs]
    refine ⟨?_,h.nextId,h.checkedOut,?_,h.headed⟩
    · show (⟨s.sqlite.getHead,_⟩ : Refs) = ⟨s.pg.tables.getHead,_⟩
      rw [← h.head_eq]
      simp only [PgVersionStore.withRefs,SqliteVersionStore.setBranch,h.branches_eq]
    · refine h.sound.setBranch hc (fun row ho ha => ?_)
      obtain ⟨b,hb,-⟩ := h.sound.attached scope.canonical row name.asStr ho ha
      simp [SqliteVersionStore.getBranch,hb] at hg

theorem not_sameRefs (h : s.Paired) (hk : ¬ s.Uniform (.createBranch scope name from_ bt now)) :
    ¬ (s.step (.createBranch scope name from_ bt now)).SameRefs := by
  intro hs
  obtain ⟨ho,hc⟩ := not_or.mp hk
  have he' : s.pg.tables.getBranch scope.canonical name = none := by
    cases hg : s.pg.tables.getBranch scope.canonical name with
    | none => rfl
    | some b => simp [hg] at ho
  have he : s.sqlite.getBranch scope.canonical name = none := by
    simpa [SqliteVersionStore.getBranch,h.branches_eq] using he'
  obtain ⟨e,hq⟩ : ∃ e, s.sqlite.requireCommitScope from_ scope.canonical = .error e := by
    cases hr : s.sqlite.requireCommitScope from_ scope.canonical with
    | error e => exact ⟨e,rfl⟩
    | ok u => exact absurd (SqliteVersionStore.requireCommitScope_ok.mp hr) hc
  have ht : s.step (.createBranch scope name from_ bt now) =
      { s with pg := s.pg.withRefs (s.pg.tables.setBranch scope.canonical name.asStr ⟨name,from_,from_,now,bt, .active⟩) } := by
    simp only [step,SqliteVersionStore.createBranch,PgVersionStore.createBranch,he,he',hq]
    rfl
  rw [ht] at hs
  have hb : s.sqlite.branches =
      (s.pg.tables.setBranch scope.canonical name.asStr ⟨name,from_,from_,now,bt, .active⟩).branches :=
    congrArg Refs.branches hs
  have hn : (s.sqlite.branches scope.canonical)[name.asStr]? = none := he
  rw [hb,SqliteVersionStore.getElem?_setBranch,if_pos ⟨rfl,rfl⟩] at hn
  cases hn

theorem switchHead (h : s.Paired) : (s.step (.switchHead scope branch)).Paired := by
  cases hg : (s.sqlite.branches scope.canonical)[branch.asStr]? with
  | none =>
    have hh : s.sqlite.branchHead scope.canonical branch = .error (.notFound s!"branch {branch.asStr}") := by
      simp [SqliteVersionStore.branchHead,SqliteVersionStore.getBranch,hg]
    have hh' := (h.branchHead_eq scope.canonical branch).trans hh
    have hs : s.step (.switchHead scope branch) = s := by
      simp only [step,SqliteVersionStore.switchHead,PgVersionStore.switchHead,hh,hh']
      rfl
    rw [hs]
    exact h
  | some b =>
    have hh : s.sqlite.branchHead scope.canonical branch = .ok b.head := by
      simp [SqliteVersionStore.branchHead,SqliteVersionStore.getBranch,hg]
    have hh' := (h.branchHead_eq scope.canonical branch).trans hh
    have hi := h.sound.branch scope.canonical branch.asStr b hg
    obtain ⟨row,hw,hc⟩ := id hi
    have hm : scope.canonical ∈ s.sqlite.heads := hc ▸ h.headed b.head row hw
    obtain ⟨old,hl⟩ := Option.isSome_iff_exists.mp (Std.ExtTreeMap.isSome_getElem?_iff_mem.mpr hm)
    have hs : s.step (.switchHead scope branch) =
        ⟨s.sqlite.setHead scope.canonical ⟨b.head,some branch.asStr⟩,s.pg.setHead scope.canonical b.head,
          Function.update s.checkedOut scope.canonical (some branch.asStr)⟩ := by
      simp only [step,SqliteVersionStore.switchHead,PgVersionStore.switchHead,hh,hh',bind,Except.bind,hl]
      rfl
    rw [hs]
    refine ⟨?_,h.nextId,?_,?_,?_⟩
    · show (⟨_,_⟩ : Refs) = ⟨(s.pg.tables.setHead scope.canonical _).getHead,s.pg.tables.branches⟩
      rw [SqliteVersionStore.getHead_setHead,SqliteVersionStore.getHead_setHead,h.head_eq,h.branches_eq]
      rfl
    · intro other
      by_cases ho : scope.canonical = other
      · subst ho
        simp [SqliteVersionStore.attached]
      · show Function.update s.checkedOut scope.canonical (some branch.asStr) other = _
        rw [Function.update_of_ne (Ne.symm ho),h.checkedOut other]
        simp [SqliteVersionStore.attached,ho]
    · refine h.sound.setHead hi (fun name hn => ?_)
      obtain rfl := Option.some.inj hn
      exact ⟨b,hg,rfl⟩
    · intro id r hr
      exact Std.ExtTreeMap.mem_insert.mpr (.inr (h.headed id r hr))

end Refs

theorem step (h : s.Paired) (call : RefCall) (ho : s.Uniform call) : (s.step call).Paired := by
  cases call with
  | createBranch scope name from_ bt now => exact h.createBranch ho
  | switchHead scope branch => exact h.switchHead
  | commit scope changes metadata now => exact h.commit metadata now ho

theorem advances_iff (h : s.Paired) (call : RefCall) : s.Advances call ∧ (s.step call).SameRefs ↔ s.Uniform call := by
  constructor
  · rintro ⟨ha,hs⟩
    by_contra ho
    cases call with
    | createBranch scope name from_ bt now => exact h.not_sameRefs ho hs
    | switchHead scope branch => exact ho trivial
    | commit scope changes metadata now =>
      obtain ⟨hu,hv⟩ := not_or.mp ho
      exact h.not_advances metadata now hu (not_not.mp hv) ha
  · intro ho
    refine ⟨?_,(h.step call ho).sameRefs⟩
    cases call with
    | createBranch scope name from_ bt now => trivial
    | switchHead scope branch => trivial
    | commit scope changes metadata now =>
      refine ⟨fun name id tx => SqliteVersionStore.commit_advanced,fun name id tx hn ht => ?_⟩
      rcases ho with hno | he
      · simp [hno] at hn
      · cases hc : checkUpdates changes.updates with
        | error e => simp [PgVersionStore.commit_error hc] at ht
        | ok u => exact absurd hc he

end Paired

/-- **A commit of an attached HEAD moves HEAD and its branch** in `SqliteVersionStore`, in every state, and no branch
in `PgVersionStore`. Over a run of both stores, every commit advances what is checked out and the references stay
the same exactly if every call is uniform. -/
theorem commit_advances_iff (calls : List RefCall) :
    (∀ (st : SqliteVersionStore) scope changes metadata now name id tx, st.attached scope.canonical = some name →
      st.commit scope changes metadata now = .ok (id, tx) → st.refs.Advanced tx.refs scope.canonical name id) ∧
    (∀ (st : PgVersionStore) scope changes metadata now id tx, st.commit scope changes metadata now = .ok (id, tx) →
      tx.refs = ⟨Function.update st.refs.head scope.canonical (some id), st.refs.branches⟩) ∧
    (((∀ front call, front ++ [call] <+: calls → (run step new front).Advances call) ∧
      ∀ front, front <+: calls → (run step new front).SameRefs) ↔ Meets step Uniform new calls) := by
  refine ⟨fun st scope changes metadata now name id tx => SqliteVersionStore.commit_advanced,
    fun st scope changes metadata now id tx h => (PgVersionStore.commit_ok h).2.2, ?_⟩
  have hi : ∀ s : Backends, ∀ call ∈ calls, s.Paired → (s.Advances call ∧ (s.step call).SameRefs ↔ s.Uniform call) :=
    fun s call _ h => h.advances_iff call
  have hs : ∀ s : Backends, ∀ call ∈ calls, s.Paired → s.Uniform call → (s.step call).Paired :=
    fun s call _ h ho => h.step call ho
  rw [← meets_congr hi hs paired_new, meets_iff_front]
  constructor
  · rintro ⟨ha, hm⟩ front call hp
    have hn := hm (front ++ [call]) hp
    rw [run_append] at hn
    exact ⟨ha front call hp, hn⟩
  · intro h
    refine ⟨fun front call hp => (h front call hp).1, fun front hp => ?_⟩
    induction front using List.reverseRecOn with
    | nil => exact paired_new.sameRefs
    | append_singleton front call =>
      rw [run_append]
      exact (h front call hp).2

section Sample

open SqliteVersionStore (sampleScope sampleEntry mainBranch)

/-- `main` is checked out when the second commit is made. -/
def commitOnMain : List RefCall :=
  [.commit sampleScope ⟨[sampleEntry "a" "one"], [], [], []⟩ .empty 0, .createBranch sampleScope mainBranch 0 .main 1,
    .switchHead sampleScope mainBranch, .commit sampleScope ⟨[sampleEntry "b" "two"], [], [], []⟩ .empty 2]

theorem commit_leaves_branch : ¬ ((∀ front call, front ++ [call] <+: commitOnMain → (run step new front).Advances call) ∧
    ∀ front, front <+: commitOnMain → (run step new front).SameRefs) := by
  rintro ⟨-, hs⟩
  have hr := congrArg Refs.branches (hs commitOnMain (List.prefix_refl _))
  have hq : (((run step new commitOnMain).sqlite.branches sampleScope.canonical)["main"]?).map (·.head) = some 1 := by
    decide
  have hp : (((run step new commitOnMain).pg.tables.branches sampleScope.canonical)["main"]?).map (·.head) = some 0 := by
    decide
  have hs : (run step new commitOnMain).sqlite.branches = (run step new commitOnMain).pg.tables.branches := hr
  rw [hs, hp] at hq
  exact absurd hq (by decide)

end Sample

end Backends

end UwuContextDb.Version
