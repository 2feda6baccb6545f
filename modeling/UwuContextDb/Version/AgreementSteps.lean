import UwuContextDb.Version.Agreement
import UwuContextDb.Version.CherryPick
import UwuContextDb.Version.GcSafety

/-! What each operation does to two stores that agree, and when they still agree afterwards. -/

namespace UwuContextDb.Version

open MapEdit StateMachine ThreeWay

namespace SqliteVersionStore

def attachedBranch (s : SqliteVersionStore) (scope : String) : Option String :=
  (s.heads[scope]?).bind (·.attachedBranch)

end SqliteVersionStore

namespace Agree

variable {m : MemoryVersionStore} {s : SqliteVersionStore}

variable {m' : MemoryVersionStore} {s' : SqliteVersionStore}

theorem of_withCommit {c : MemoryCommit} {row : CommitRow}
    {snap : Snapshot} (h : Agree m s) (hp : c.parents = row.parents) (ht : c.timestamp = row.timestamp)
    (hs : ∀ t, HasSnapshot (s.withCommit row).commits s.nextId t → snap = t)
    (hm : (m.insertCommit c snap).SameMaps m') (hc : s'.commits = (s.withCommit row).commits)
    (hn : s'.nextId = (s.withCommit row).nextId) (hr : SameRefs m' s') (ho : s'.Consistent) (hu : s'.RefsSound)
    (hh : ∀ scope : String, (s.getHead scope).isSome = true ∨ scope = row.scope → (s'.getHead scope).isSome = true) :
    Agree m' s' :=
  ⟨hr,(h.sameCommits.withCommit h.consistent hp ht hs).of_refs hm hc hn,ho,hu,h.headed.withCommit hc hh⟩

theorem of_refs (h : Agree m s) (hm : m.SameMaps m')
    (hc : s'.commits = s.commits) (hn : s'.nextId = s.nextId) (hr : SameRefs m' s') (ho : s'.Consistent)
    (hu : s'.RefsSound)
    (hh : ∀ scope : String, (s.getHead scope).isSome = true → (s'.getHead scope).isSome = true) : Agree m' s' :=
  ⟨hr,h.sameCommits.of_refs hm hc hn,ho,hu,h.headed.mono (fun id scope hi => by
    obtain ⟨row,hw,hs⟩ := hi
    exact .inl ⟨row,hc ▸ hw,hs⟩) hh⟩

section Commit

variable {scope : ContextUri} {changes : ChangeSet} {metadata : CommitMeta} {now : DateTime}

theorem advanceAttached_ok (h : Agree m s) (scope : String) (id : CommitId) :
    ∃ moved, m.advanceAttached scope m.attachedBranches[scope]? id = .ok moved ∧ m.SameMaps moved ∧
      ((m.attachedBranches[scope]? = none ∧ moved = m) ∨ ∃ (name : BranchName) (b : Branch),
        m.attachedBranches[scope]? = some name ∧
        moved = m.setBranch scope name.asStr { b with head := id }) := by
  have ha := h.sameRefs.attached scope
  cases hm : m.attachedBranches[scope]? with
  | none => exact ⟨m,rfl,⟨rfl,rfl,rfl⟩, .inl ⟨rfl,rfl⟩⟩
  | some name =>
    rw [hm] at ha
    obtain ⟨row,hr,ht⟩ := Option.bind_eq_some_iff.mp ha.symm
    obtain ⟨b,hb,he⟩ := h.refs.attached scope row name.asStr hr ht
    have hbr := h.sameRefs.branch scope name.asStr
    rw [hb] at hbr
    obtain ⟨b',hb',hh⟩ := Option.map_eq_some_iff.mp hbr
    have hh : b'.head = b.head := hh
    have hg : m.getBranch scope name = some b' := hb'
    have hs : m.heads[scope]? = some b'.head := by
      rw [h.sameRefs.head,SqliteVersionStore.getHead,hr,hh,he]
      rfl
    refine ⟨m.setBranch scope name.asStr { b' with head := id },?_,⟨rfl,rfl,rfl⟩, .inr ⟨name,b',rfl,rfl⟩⟩
    simp [MemoryVersionStore.advanceAttached,hg,hs]

theorem commit_sameRefs (h : Agree m s) {moved : MemoryVersionStore} {s' : SqliteVersionStore} {row : CommitRow}
    {scope : String} (c : MemoryCommit) (snap : Snapshot)
    (hm : (m.attachedBranches[scope]? = none ∧ moved = m) ∨ ∃ (name : BranchName) (b : Branch),
      m.attachedBranches[scope]? = some name ∧ moved = m.setBranch scope name.asStr { b with head := s.nextId })
    (hv : SqliteVersionStore.CommitMoves s (s.withCommit row) scope s.nextId s') :
    SameRefs ((moved.insertCommit c snap).setHead scope s.nextId) s' := by
  have ht := h.sameRefs.attached scope
  cases hv with
  | first ho =>
    rw [ho] at ht
    rcases hm with ⟨-,rfl⟩ | ⟨name,b,hn,-⟩
    · exact (h.sameRefs.insertCommit c snap row).setHead (by simp [SqliteVersionStore.withCommit,ho]) s.nextId
    · simp [hn] at ht
  | detached head hr hd =>
    rw [hr] at ht
    rcases hm with ⟨-,rfl⟩ | ⟨name,b,hn,-⟩
    · exact (h.sameRefs.insertCommit c snap row).setHead (by simp [SqliteVersionStore.withCommit,hr,hd]) s.nextId
    · simp [hn,hd] at ht
  | attached head name b hr ha hb he =>
    rw [hr] at ht
    rcases hm with ⟨hno,-⟩ | ⟨name',b',hn,rfl⟩
    · simp [hno,ha] at ht
    · obtain rfl : name'.asStr = name := by simpa [hn,ha] using ht
      have hmv : SameRefs (m.setBranch scope name'.asStr { b' with head := s.nextId })
          (s.moveBranch scope name'.asStr b s.nextId) := h.sameRefs.setBranch rfl
      refine SameRefs.setHead (hmv.insertCommit c snap row) ?_ s.nextId
      show (s.heads[scope]?).bind (·.attachedBranch) = some name'.asStr
      simp [hr,ha]

theorem commit (h : Agree m s) (svc : Services) (he : s.StepSeparable (.commit scope changes metadata now)) :
    Agree (m.afterTx (m.commit scope changes metadata now)) (s.afterTx (s.commit scope changes metadata now)) := by
  have hco := (SqliteVersionStore.step_extends svc _ h.consistent he).1
  have hu := SqliteVersionStore.step_refsSound svc (.commit scope changes metadata now) h.refs trivial
  have hb : m.optSnapshot (s.getHead scope.canonical) = s.headSnapshot .asStored scope := by
    refine h.optSnapshot_eq .asStored (fun id hi => ?_)
    obtain ⟨row,hr,rfl⟩ := Option.map_eq_some_iff.mp hi
    exact (h.refs.head _ row hr).mem
  cases hh : checkUpdates changes.updates with
  | error e =>
    have hm : m.commit scope changes metadata now = .error e := by
      simp [MemoryVersionStore.commit,applyChanges,hh,bind,Except.bind]
    have hs : s.commit scope changes metadata now = .error e := by
      simp [SqliteVersionStore.commit,changeRows,hh,bind,Except.bind]
    rw [hm,hs]
    exact h
  | ok u =>
    obtain ⟨tx,hx⟩ := h.refs.commit_ok scope metadata now hh
    obtain ⟨rows,row,-,-,-,hs,hp,ht,-,ho⟩ := SqliteVersionStore.commit_ok hx
    obtain ⟨-,-,-,-,snap,hap,hsn⟩ := SqliteVersionStore.commit_hasSnapshot h.consistent he hx
    have hi := h.sameCommits.nextId
    obtain ⟨moved,hv,ha,hca⟩ := h.advanceAttached_ok scope.canonical s.nextId
    have hst : s.step svc (.commit scope changes metadata now) = tx := by
      simp [SqliteVersionStore.step,SqliteVersionStore.afterTx,hx,Outcome.ofTx]
    rw [hst] at hco hu
    obtain ⟨hc,hk,hn⟩ := ho.refs
    let c : MemoryCommit := ⟨(s.getHead scope.canonical).toList, .ofTrigger metadata.trigger,now,metadata⟩
    let m' := (moved.insertCommit c snap).setHead scope.canonical s.nextId
    have hm : m.commit scope changes metadata now = .ok (s.nextId, m') := by
      simp [MemoryVersionStore.commit,hb,hap,hv,hi,h.sameRefs.head,bind,Except.bind,pure,Except.pure,
        m',c]
    have ha' : (m.insertCommit c snap).SameMaps m' := by
      refine ⟨?_,?_,?_⟩
      · show moved.commits.insert moved.nextId c = m.commits.insert m.nextId c
        rw [ha.commits,ha.nextId]
      · show moved.entrySnapshots.insert moved.nextId snap = m.entrySnapshots.insert m.nextId snap
        rw [ha.entrySnapshots,ha.nextId]
      · show moved.nextId + 1 = m.nextId + 1
        rw [ha.nextId]
    have hw : ∀ t, HasSnapshot (s.withCommit row).commits s.nextId t → snap = t := by
      intro t hsnp
      rw [hc] at hsn
      exact (hsn (by simp)).unique hsnp
    rw [hm,hx]
    refine h.of_withCommit hp.symm ht.symm hw ha' hc hn (h.commit_sameRefs c snap hca ho) hco hu ?_
    intro scope' hsc
    have hsc : (s.getHead scope').isSome = true ∨ scope.canonical = scope' := by
      rw [← hs]
      exact hsc.imp_right Eq.symm
    cases ho <;> exact SqliteVersionStore.getHead_setHead_isSome _ _ _ _ hsc

end Commit

section References

variable {scope : ContextUri} {name : BranchName}

theorem createBranch {from_ : CommitId} {bt : BranchType} {now : DateTime} (h : Agree m s) (svc : Services)
    (hsc : s.getBranch scope.canonical name = none → from_ ∈ s.commits → s.InScope from_ scope.canonical) :
    Agree (m.step svc (.createBranch scope name from_ bt now))
    (s.step svc (.createBranch scope name from_ bt now)) := by
  have ho := (SqliteVersionStore.step_extends svc (.createBranch scope name from_ bt now) h.consistent trivial).1
  have hu := SqliteVersionStore.step_refsSound svc (.createBranch scope name from_ bt now) h.refs trivial
  have hn := h.getBranch_isNone scope.canonical name
  cases hb : s.getBranch scope.canonical name with
  | some b =>
    have hmb : (m.getBranch scope.canonical name).isNone = false := by simp [hn,hb]
    have hm : m.createBranch scope name from_ bt now = .error (.branchExists name.asStr) := by
      simp [MemoryVersionStore.createBranch,hmb,ensure,bind,Except.bind]
    have hs : s.createBranch scope name from_ bt now = .error (.branchExists name.asStr) := by
      simp [SqliteVersionStore.createBranch,hb,ensure,bind,Except.bind]
    simp only [MemoryVersionStore.step,SqliteVersionStore.step,hm,hs]
    exact h
  | none =>
    have hmb : (m.getBranch scope.canonical name).isNone = true := by simp [hn,hb]
    by_cases he : from_ ∈ s.commits
    · let b : Branch := ⟨name,from_,from_,now,bt, .active⟩
      have hi : s.requireCommitScope from_ scope.canonical = .ok () :=
        SqliteVersionStore.requireCommitScope_ok.mpr (hsc hb he)
      have hm : m.createBranch scope name from_ bt now = .ok (b, m.setBranch scope.canonical name.asStr b) := by
        simp [MemoryVersionStore.createBranch,hmb,(h.mem_commits_iff from_).mpr he,ensure,bind,Except.bind,pure,
          Except.pure,b]
      have hs : s.createBranch scope name from_ bt now = .ok (b, s.setBranch scope.canonical name.asStr b) := by
        simp [SqliteVersionStore.createBranch,hb,hi,ensure,bind,Except.bind,pure,Except.pure,b]
      simp only [SqliteVersionStore.step,hs] at ho hu
      simp only [MemoryVersionStore.step,SqliteVersionStore.step,hm,hs]
      exact h.of_refs ⟨rfl,rfl,rfl⟩ rfl rfl (h.sameRefs.setBranch rfl) ho hu (fun _ hs => hs)
    · have hmm : from_ ∉ m.commits := fun hc => he ((h.mem_commits_iff from_).mp hc)
      have hr : s.commits[from_]? = none := by simpa using he
      have hm : m.createBranch scope name from_ bt now = .error (.notFound s!"commit {from_}") := by
        simp [MemoryVersionStore.createBranch,hmb,hmm,ensure,bind,Except.bind]
      have hs : s.createBranch scope name from_ bt now = .error (.notFound s!"commit {from_}") := by
        simp [SqliteVersionStore.createBranch,hb,SqliteVersionStore.requireCommitScope,hr,ensure,bind,Except.bind]
      simp only [MemoryVersionStore.step,SqliteVersionStore.step,hm,hs]
      exact h

theorem deleteBranch (h : Agree m s) (svc : Services) (hf : s.attachedBranch scope.canonical ≠ some name.asStr) :
    Agree (m.step svc (.deleteBranch scope name)) (s.step svc (.deleteBranch scope name)) := by
  have hc := (SqliteVersionStore.step_extends svc (.deleteBranch scope name) h.consistent trivial).1
  have hu := SqliteVersionStore.step_refsSound svc (.deleteBranch scope name) h.refs trivial
  let s' : SqliteVersionStore :=
    { s with
      branches := Function.update s.branches scope.canonical ((s.branches scope.canonical).erase name.asStr) }
  have hs : s.deleteBranch scope name = .ok ((), s') := if_neg (fun hk => hf hk.1)
  have hg : ∀ scope' name' : String, (s'.branches scope')[name']? =
      if scope.canonical = scope' ∧ name.asStr = name' then none else (s.branches scope')[name']? :=
    SqliteVersionStore.getElem?_eraseBranch s scope.canonical name.asStr
  simp only [SqliteVersionStore.step,hs] at hc hu
  have hb := h.sameRefs.branch scope.canonical name.asStr
  cases hm : m.getBranch scope.canonical name with
  | none =>
    have hd : m.deleteBranch scope name = .error (.notFound s!"branch {name.asStr}") := by
      simp [MemoryVersionStore.deleteBranch,hm,ensure,bind,Except.bind]
    simp only [MemoryVersionStore.step,SqliteVersionStore.step,hd,hs]
    have hr : SameRefs m s' := by
      refine ⟨fun scope' name' => ?_,h.sameRefs.head,h.sameRefs.attached⟩
      rw [hg]
      split
      · rename_i he
        rw [← he.1,← he.2]
        exact congrArg (Option.map (·.head)) hm
      · exact h.sameRefs.branch scope' name'
    exact h.of_refs ⟨rfl,rfl,rfl⟩ rfl rfl hr hc hu (fun _ hs => hs)
  | some b =>
    let m' : MemoryVersionStore :=
      { m with branches := m.branches.insert scope.canonical ((m.scopeBranches scope.canonical).erase name.asStr) }
    have hd : m.deleteBranch scope name = .ok ((), m') := by
      simp [MemoryVersionStore.deleteBranch,hm,ensure,bind,Except.bind,pure,Except.pure,m']
    simp only [MemoryVersionStore.step,SqliteVersionStore.step,hd,hs]
    have hr : SameRefs m' s' := by
      refine ⟨fun scope' name' => ?_,h.sameRefs.head,h.sameRefs.attached⟩
      rw [hg]
      by_cases hsc : scope.canonical = scope'
      · subst hsc
        have ho := h.sameRefs.branch scope.canonical name'
        by_cases hn : name.asStr = name' <;>
          simp [m',MemoryVersionStore.scopeBranches,Std.ExtTreeMap.getElem?_erase,hn] at ho ⊢
        exact ho
      · have ho := h.sameRefs.branch scope' name'
        simpa [m',MemoryVersionStore.scopeBranches,Std.ExtTreeMap.getElem?_insert,hsc] using ho
    exact h.of_refs ⟨rfl,rfl,rfl⟩ rfl rfl hr hc hu (fun _ hs => hs)

theorem switchHead (h : Agree m s) (svc : Services) :
    Agree (m.step svc (.switchHead scope name)) (s.step svc (.switchHead scope name)) := by
  have hn := (SqliteVersionStore.step_extends svc (.switchHead scope name) h.consistent trivial).1
  have hu := SqliteVersionStore.step_refsSound svc (.switchHead scope name) h.refs trivial
  have he := h.branchHead_eq scope.canonical name
  cases hb : s.branchHead scope.canonical name with
  | error e =>
    have hm : m.switchHead scope name = .error e := by
      simp [MemoryVersionStore.switchHead,he,hb,bind,Except.bind]
    have hs : s.switchHead scope name = .error e := by
      simp [SqliteVersionStore.switchHead,hb,bind,Except.bind]
    simp only [MemoryVersionStore.step,SqliteVersionStore.step,hm,hs]
    exact h
  | ok head =>
    have ha := h.headed head scope.canonical (h.branchHead_inScope hb)
    obtain ⟨row,hr⟩ : ∃ row, s.heads[scope.canonical]? = some row := by
      cases hh : s.heads[scope.canonical]? with
      | none => simp [SqliteVersionStore.getHead,hh] at ha
      | some row => exact ⟨row,rfl⟩
    let m' : MemoryVersionStore :=
      { m with
        heads := m.heads.insert scope.canonical head
        attachedBranches := m.attachedBranches.insert scope.canonical name }
    let s' := s.setHead scope.canonical ⟨head,some name.asStr⟩
    have hm : m.switchHead scope name = .ok ((), m') := by
      simp [MemoryVersionStore.switchHead,he,hb,MemoryVersionStore.setHead,bind,Except.bind,pure,Except.pure,m']
    have hs : s.switchHead scope name = .ok ((), s') := by
      simp [SqliteVersionStore.switchHead,hb,hr,bind,Except.bind,pure,Except.pure,s']
    simp only [SqliteVersionStore.step,hs] at hn hu
    simp only [MemoryVersionStore.step,SqliteVersionStore.step,hm,hs]
    have hf : SameRefs m' s' := by
      refine ⟨h.sameRefs.branch,fun scope' => ?_,fun scope' => ?_⟩
      · have ho := h.sameRefs.head scope'
        rw [SqliteVersionStore.getHead] at ho ⊢
        rw [SqliteVersionStore.getElem?_setHead]
        by_cases hc : scope.canonical = scope' <;> simp [m',Std.ExtTreeMap.getElem?_insert,hc,ho]
      · have ho := h.sameRefs.attached scope'
        rw [SqliteVersionStore.getElem?_setHead]
        by_cases hc : scope.canonical = scope' <;> simp [m',Std.ExtTreeMap.getElem?_insert,hc,ho]
    exact h.of_refs ⟨rfl,rfl,rfl⟩ rfl rfl hf hn hu
      (fun scope' hs => SqliteVersionStore.getHead_setHead_isSome _ _ _ _ (.inl hs))

theorem createTag {tag : Tag} (h : Agree m s) (svc : Services) :
    Agree (m.step svc (.createTag scope tag)) (s.step svc (.createTag scope tag)) := by
  have hc := (SqliteVersionStore.step_extends svc (.createTag scope tag) h.consistent trivial).1
  have ho := SqliteVersionStore.step_refsSound svc (.createTag scope tag) h.refs trivial
  have hm : m.SameMaps (m.step svc (.createTag scope tag)) := ⟨rfl,rfl,rfl⟩
  have hr : SameRefs (m.step svc (.createTag scope tag)) s :=
    ⟨h.sameRefs.branch,h.sameRefs.head,h.sameRefs.attached⟩
  cases hs : s.createTag scope tag with
  | error e =>
    simp only [SqliteVersionStore.step,hs]
    exact h.of_refs hm rfl rfl hr h.consistent h.refs (fun _ hs => hs)
  | ok r =>
    obtain ⟨u,tx⟩ := r
    obtain ⟨-,rfl⟩ := SqliteVersionStore.createTag_ok hs
    simp only [SqliteVersionStore.step,hs] at hc ho ⊢
    exact h.of_refs hm rfl rfl ⟨hr.branch,hr.head,hr.attached⟩ hc ho (fun _ hs => hs)

end References

/-- The collections of the two stores delete different commits: one that the SQLite store may delete is
not reachable from HEAD, one that the memory store deletes is. They agree when neither deletes any. -/
theorem gc {recentScan victimScan : ScanOrder} {scope : ContextUri} {pol : GcPolicy} {now : DateTime}
    (h : Agree m s) (svc : Services) (hm : m.gcVictims scope pol = [])
    (hs : s.gcVictims recentScan victimScan scope.canonical pol now = [] ∨
      ¬ s.Deletable (s.gcVictims recentScan victimScan scope.canonical pol now)) :
    Agree (m.step svc (.gc recentScan victimScan scope pol now))
      (s.step svc (.gc recentScan victimScan scope pol now)) := by
  have he : m.step svc (.gc recentScan victimScan scope pol now) = m := by
    simp [MemoryVersionStore.step,MemoryVersionStore.gc,hm]
  have hq : s.step svc (.gc recentScan victimScan scope pol now) = s := by
    rcases hs with hn | hb
    · simp [SqliteVersionStore.step,SqliteVersionStore.gc,hn,SqliteVersionStore.afterTx,Outcome.ofTx,bind,
        Except.bind,pure,Except.pure]
    · cases hg : s.gc recentScan victimScan scope pol now with
      | error e => simp [SqliteVersionStore.step,hg,SqliteVersionStore.afterTx,Outcome.ofTx]
      | ok r =>
        obtain ⟨ids,tx,rfl,ht,-⟩ := SqliteVersionStore.gc_ok hg
        have hd := (SqliteVersionStore.deleteAll_ok_iff SqliteVersionStore.gcVictims_nodup
          (fun id => SqliteVersionStore.gcVictims_stored)).mp ht
        exact absurd hd.1 hb
  rw [he,hq]
  exact h

theorem remember (h : Agree m s) (ord : RowOrder) (id : CommitId) : Agree m (s.remember ord id) := by
  have hc := h.consistent.remember ord id
  unfold SqliteVersionStore.remember at hc ⊢
  split
  · rename_i hl
    rw [if_pos hl] at hc
    exact h.of_refs ⟨rfl,rfl,rfl⟩ rfl rfl ⟨h.sameRefs.branch,h.sameRefs.head,h.sameRefs.attached⟩ hc
      (h.refs.of_commits rfl rfl h.refs.fresh (fun _ _ hi _ => hi)) (fun _ hs => hs)
  · exact h

theorem evict (h : Agree m s) (id : CommitId) : Agree m (s.evict id) :=
  h.of_refs ⟨rfl,rfl,rfl⟩ rfl rfl ⟨h.sameRefs.branch,h.sameRefs.head,h.sameRefs.attached⟩ (h.consistent.evict id)
    (h.refs.of_commits rfl rfl h.refs.fresh (fun _ _ hi _ => hi)) (fun _ hs => hs)

end Agree
end UwuContextDb.Version
