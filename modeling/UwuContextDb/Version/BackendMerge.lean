import UwuContextDb.Version.RewriteAgreement

/-! Merge in `MemoryVersionStore` and in `SqliteVersionStore`, on histories built by the same operations. -/

namespace UwuContextDb.Version

open MapEdit StateMachine ThreeWay
open SqliteVersionStore (Parses)

abbrev StorePair := MemoryVersionStore × SqliteVersionStore

namespace StorePair

def empty : StorePair := (.empty, .empty)

def step (services : Services) (p : StorePair) (op : SqliteOp) : StorePair := (p.1.step services op, p.2.step services op)

end StorePair

namespace SqliteVersionStore

/-- A conflict that `ThreeWay` has to report at a URI that does not parse. -/
def Blocked (s : SqliteVersionStore) (order : RowOrder) (strategy : MergeStrategy) (fromHead intoHead : CommitId) : Prop :=
  strategy = .threeWay ∧ ∃ uri : String, Conflict (s.baseSnapshot order (s.mergeBase fromHead intoHead))[uri]?
    (s.reconstructSnapshot order intoHead)[uri]? (s.reconstructSnapshot order fromHead)[uri]? ∧ ¬ Parses uri

def Mergeable (s : SqliteVersionStore) (order : RowOrder) (scope : ContextUri) (from_ into : BranchName)
    (strategy : MergeStrategy) : Prop :=
  ∃ fromHead intoHead, s.branchHead scope.canonical from_ = .ok fromHead ∧
    s.branchHead scope.canonical into = .ok intoHead ∧
    (s.isAncestor intoHead fromHead = true ∨ strategy ≠ .fastForward ∧ ¬ s.Blocked order strategy fromHead intoHead)

/-- The condition under which the stores agree on a merge: HEAD is attached to `into`, or has nowhere to go,
and diverged branches are not to be fast-forwarded. -/
def MergeSafe (s : SqliteVersionStore) (order : RowOrder) (scope : ContextUri) (from_ into : BranchName)
    (strategy : MergeStrategy) : Prop :=
  ∀ fromHead intoHead, s.branchHead scope.canonical from_ = .ok fromHead →
    s.branchHead scope.canonical into = .ok intoHead →
    if s.isAncestor intoHead fromHead = true then
      s.getHead scope.canonical = some intoHead ∧ (s.attachedBranch scope.canonical = some into.asStr ∨ fromHead = intoHead)
    else strategy ≠ .fastForward ∧
      (s.Blocked order strategy fromHead intoHead ∨ s.attachedBranch scope.canonical = some into.asStr)

end SqliteVersionStore

section Agreement

variable (m : MemoryVersionStore) (s : SqliteVersionStore) (order : RowOrder) (scope : ContextUri) (from_ into : BranchName)
  (strategy : MergeStrategy) (now : DateTime)

structure MergeAgrees : Prop where
  memory : (∃ r, m.merge scope from_ into strategy now = .ok r) ↔ s.Mergeable order scope from_ into strategy
  sqlite : (∃ r, s.merge order scope from_ into strategy now = .ok r) ↔ s.Mergeable order scope from_ into strategy
  /-- The merged maps and the references are the same. -/
  same : ∀ rm m' rs s', m.merge scope from_ into strategy now = .ok (rm, m') →
    s.merge order scope from_ into strategy now = .ok (rs, s') →
    (∀ order', m'.snapshot rm.commit = s'.reconstructSnapshot order' rs.commit) ∧ SameRefs m' s'
  /-- A fast-forward of diverged branches is refused. -/
  refused : ∀ fromHead intoHead, s.branchHead scope.canonical from_ = .ok fromHead →
    s.branchHead scope.canonical into = .ok intoHead → s.isAncestor intoHead fromHead = false → strategy = .fastForward →
    (∃ msg, m.merge scope from_ into strategy now = .error (.mergeConflict msg)) ∧
      ∃ msg, s.merge order scope from_ into strategy now = .error (.mergeConflict msg)

end Agreement

namespace Agree

variable {m : MemoryVersionStore} {s : SqliteVersionStore} {order : RowOrder} {scope : ContextUri} {from_ into : BranchName}
  {strategy : MergeStrategy} {now : DateTime} {fromHead : CommitId} {b : Branch}

theorem blocked_iff : s.Blocked order strategy fromHead b.head ↔
    ∃ e, s.mergedSnapshot order strategy fromHead b.head = .error e := by
  have ho : (∃ r, s.mergedSnapshot order strategy fromHead b.head = .ok r) ↔
      ¬ s.Blocked order strategy fromHead b.head := mergeSnapshots_mergeUri_isOk
  cases hm : s.mergedSnapshot order strategy fromHead b.head with
  | error e =>
    rw [hm] at ho
    simpa using ho
  | ok r =>
    rw [hm] at ho
    simpa using ho

theorem merge_blocked (h : Agree m s) (now : DateTime) (hf : s.branchHead scope.canonical from_ = .ok fromHead)
    (hb : (s.branches scope.canonical)[into.asStr]? = some b) (ha : s.isAncestor b.head fromHead = false)
    (hl : s.Blocked order strategy fromHead b.head) :
    (∃ e, m.merge scope from_ into strategy now = .error e) ∧
    ∃ e, s.merge order scope from_ into strategy now = .error e := by
  obtain ⟨e,he⟩ := blocked_iff.mp hl
  have hn : strategy ≠ .fastForward := by
    rw [hl.1]
    decide
  have hfm := (h.branchHead_inScope hf).mem
  have hbm := (h.branchHead_inScope (SqliteVersionStore.branchHead_of_branch hb)).mem
  refine ⟨?_,e,SqliteVersionStore.merge_error now hf hb ha he⟩
  rw [MemoryVersionStore.merge_diverged now ((h.branchHead_eq _ from_).trans hf)
    ((h.branchHead_eq _ into).trans (SqliteVersionStore.branchHead_of_branch hb)) (by rw [h.isAncestor_eq,ha]) hn]
  cases hm : m.mergedSnapshot strategy fromHead b.head with
  | error e' => exact ⟨e',rfl⟩
  | ok r =>
    rw [h.mergedSnapshot_ok_iff order hn hfm hbm,he] at hm
    cases hm

theorem merge_memory_iff (h : Agree m s) (ord : RowOrder) (now : DateTime) :
    (∃ r, m.merge scope from_ into strategy now = .ok r) ↔ s.Mergeable ord scope from_ into strategy := by
  constructor
  · rintro ⟨r,hr⟩
    have hr' := hr
    simp only [MemoryVersionStore.merge,bind_eq_ok] at hr'
    obtain ⟨fromHead,hf,nh,hi,-⟩ := hr'
    rw [h.branchHead_eq] at hf hi
    refine ⟨fromHead,nh,hf,hi,?_⟩
    obtain ⟨b,hb,rfl⟩ := SqliteVersionStore.branchHead_ok hi
    by_cases ha : s.isAncestor b.head fromHead = true
    · exact .inl ha
    · have ha : s.isAncestor b.head fromHead = false := by simpa using ha
      refine .inr ⟨?_,fun hl => ?_⟩
      · rintro rfl
        rw [MemoryVersionStore.merge_refused now ((h.branchHead_eq _ from_).trans hf) ((h.branchHead_eq _ into).trans hi)
          (by rw [h.isAncestor_eq,ha])] at hr
        cases hr
      · obtain ⟨⟨e,he⟩,-⟩ := h.merge_blocked now hf hb ha hl
        rw [he] at hr
        cases hr
  · rintro ⟨fromHead,nh,hf,hi,hc⟩
    obtain ⟨b,hb,rfl⟩ := SqliteVersionStore.branchHead_ok hi
    have hm := (h.branchHead_eq _ from_).trans hf
    have hmi := (h.branchHead_eq _ into).trans hi
    by_cases ha : s.isAncestor b.head fromHead = true
    · exact ⟨_,MemoryVersionStore.merge_ancestor strategy now hm hmi (by rw [h.isAncestor_eq,ha])⟩
    · obtain ⟨hn,hl⟩ := hc.resolve_left ha
      have ha : s.isAncestor b.head fromHead = false := by simpa using ha
      rw [MemoryVersionStore.merge_diverged now hm hmi (by rw [h.isAncestor_eq,ha]) hn]
      cases hs : s.mergedSnapshot ord strategy fromHead b.head with
      | error e => exact absurd (blocked_iff.mpr ⟨e,hs⟩) hl
      | ok r =>
        rw [(h.mergedSnapshot_ok_iff ord hn (h.branchHead_inScope hf).mem (h.branchHead_inScope hi).mem r).mpr hs]
        exact ⟨_,rfl⟩

theorem merge_sqlite_iff (h : Agree m s) (hf : s.branchHead scope.canonical from_ = .ok fromHead)
    (hb : (s.branches scope.canonical)[into.asStr]? = some b) (now : DateTime) :
    (∃ r, s.merge order scope from_ into strategy now = .ok r) ↔
      s.getHead scope.canonical = some b.head ∧
        (s.isAncestor b.head fromHead = true ∨ ¬ s.Blocked order strategy fromHead b.head) := by
  by_cases ha : s.isAncestor b.head fromHead = true
  · rw [SqliteVersionStore.merge_ancestor order strategy now hf hb ha]
    by_cases hh : s.getHead scope.canonical = some b.head <;> simp [hh,ha]
  · have ha : s.isAncestor b.head fromHead = false := by simpa using ha
    rw [blocked_iff]
    cases hm : s.mergedSnapshot order strategy fromHead b.head with
    | error e => simp [SqliteVersionStore.merge_error now hf hb ha hm,ha]
    | ok r =>
      obtain ⟨row,-,-,-,-,hs⟩ := SqliteVersionStore.merge_diverged now hf (h.branchHead_inScope hf).mem
        (h.branchHead_inScope (SqliteVersionStore.branchHead_of_branch hb)).mem hb ha hm
      rw [hs]
      by_cases hh : s.getHead scope.canonical = some b.head <;> simp [hh,ha]

theorem merge_sqlite_refused (h : Agree m s) (hf : s.branchHead scope.canonical from_ = .ok fromHead)
    (hb : (s.branches scope.canonical)[into.asStr]? = some b) (ha : s.isAncestor b.head fromHead = false) (now : DateTime)
    (msg : String) : s.merge order scope from_ into .fastForward now ≠ .error (.mergeConflict msg) := by
  have hn : ¬ s.Blocked order .fastForward fromHead b.head := fun hl => by simpa using hl.1
  cases hm : s.mergedSnapshot order .fastForward fromHead b.head with
  | error e => exact absurd (blocked_iff.mpr ⟨e,hm⟩) hn
  | ok r =>
    obtain ⟨row,-,-,-,-,hs⟩ := SqliteVersionStore.merge_diverged now hf (h.branchHead_inScope hf).mem
      (h.branchHead_inScope (SqliteVersionStore.branchHead_of_branch hb)).mem hb ha hm
    rw [hs]
    by_cases hh : s.getHead scope.canonical = some b.head <;> simp [hh]

theorem merge_same {m' : MemoryVersionStore} {s' : SqliteVersionStore} {c : CommitId} (h' : Agree m' s')
    (hc : c ∈ s'.commits) :
    (∀ order', m'.snapshot c = s'.reconstructSnapshot order' c) ∧ SameRefs m' s' :=
  ⟨fun order' => h'.snapshot_eq order' hc,h'.sameRefs⟩

theorem merge_mergeable_iff (h : Agree m s) (now : DateTime) (hs : s.MergeSafe order scope from_ into strategy) :
    (∃ r, s.merge order scope from_ into strategy now = .ok r) ↔ s.Mergeable order scope from_ into strategy := by
  constructor
  · rintro ⟨⟨res,s'⟩,hr⟩
    obtain ⟨fromHead,nh,hf,hi,-⟩ := SqliteVersionStore.merge_ok hr
    obtain ⟨b,hb,rfl⟩ := SqliteVersionStore.branchHead_ok hi
    refine ⟨fromHead,b.head,hf,hi,?_⟩
    have hs := hs fromHead b.head hf hi
    obtain ⟨-,hc⟩ := (h.merge_sqlite_iff hf hb now).mp ⟨_,hr⟩
    by_cases ha : s.isAncestor b.head fromHead = true
    · exact .inl ha
    · rw [if_neg ha] at hs
      exact .inr ⟨hs.1,hc.resolve_left ha⟩
  · rintro ⟨fromHead,nh,hf,hi,hc⟩
    obtain ⟨b,hb,rfl⟩ := SqliteVersionStore.branchHead_ok hi
    have hs := hs fromHead b.head hf hi
    rw [h.merge_sqlite_iff hf hb now]
    by_cases ha : s.isAncestor b.head fromHead = true
    · rw [if_pos ha] at hs
      exact ⟨hs.1, .inl ha⟩
    · rw [if_neg ha] at hs
      obtain ⟨-,hl⟩ := hc.resolve_left ha
      exact ⟨h.getHead_of_attached hb (hs.2.resolve_left hl), .inr hl⟩

theorem mergeAgrees_of_safe (h : Agree m s) (svc : Services) (now : DateTime)
    (hsa : s.MergeSafe order scope from_ into strategy) : MergeAgrees m s order scope from_ into strategy now := by
  have hq := h.merge_mergeable_iff now hsa
  refine ⟨h.merge_memory_iff order now,hq,?_,?_⟩
  · intro rm m' rs s' hm hs
    obtain ⟨fromHead,nh,hf,hi,hc⟩ := hq.mp ⟨_,hs⟩
    obtain ⟨b,hb,rfl⟩ := SqliteVersionStore.branchHead_ok hi
    have hsa := hsa fromHead b.head hf hi
    have hmf := (h.branchHead_eq _ from_).trans hf
    have hmi := (h.branchHead_eq _ into).trans hi
    have ht : m.step svc (.merge order scope from_ into strategy now) = m' := by
      simp [MemoryVersionStore.step,MemoryVersionStore.afterTx,hm,Outcome.ofTx]
    have hss : s.step svc (.merge order scope from_ into strategy now) = s' := by
      simp [SqliteVersionStore.step,SqliteVersionStore.afterTx,hs,Outcome.ofTx]
    by_cases ha : s.isAncestor b.head fromHead = true
    · rw [if_pos ha] at hsa
      have hg : Agree (m.step svc (.merge order scope from_ into strategy now))
          (s.step svc (.merge order scope from_ into strategy now)) :=
        h.merge_ancestor svc hf hb ha hsa.1 hsa.2
      rw [ht,hss] at hg
      rw [MemoryVersionStore.merge_ancestor strategy now hmf hmi (by rw [h.isAncestor_eq,ha])] at hm
      rw [SqliteVersionStore.merge_ancestor order strategy now hf hb ha,if_pos hsa.1] at hs
      obtain ⟨rfl,rfl⟩ := Prod.mk.inj (Except.ok.inj hs)
      have hr : rm.commit = fromHead := by rw [← (Prod.mk.inj (Except.ok.inj hm)).1]
      rw [hr]
      exact merge_same hg (h.branchHead_inScope hf).mem
    · rw [if_neg ha] at hsa
      obtain ⟨hn,hl⟩ := hc.resolve_left ha
      have ha : s.isAncestor b.head fromHead = false := by simpa using ha
      have hat := hsa.2.resolve_left hl
      have hg : Agree (m.step svc (.merge order scope from_ into strategy now))
          (s.step svc (.merge order scope from_ into strategy now)) :=
        h.merge_diverged svc hf hb ha hn hat
      rw [ht,hss] at hg
      rw [MemoryVersionStore.merge_diverged now hmf hmi (by rw [h.isAncestor_eq,ha]) hn,map_eq_ok] at hm
      obtain ⟨r,-,hm⟩ := hm
      have hr : rm.commit = s.nextId := by rw [← (Prod.mk.inj hm).1]; exact h.sameCommits.nextId
      cases hms : s.mergedSnapshot order strategy fromHead b.head with
      | error e => exact absurd (blocked_iff.mpr ⟨e,hms⟩) hl
      | ok r =>
        obtain ⟨row,-,-,-,-,hs'⟩ := SqliteVersionStore.merge_diverged now hf (h.branchHead_inScope hf).mem
          (h.branchHead_inScope hi).mem hb ha hms
        rw [hs',if_pos (h.getHead_of_attached hb hat)] at hs
        obtain ⟨rfl,rfl⟩ := Prod.mk.inj (Except.ok.inj hs)
        rw [hr]
        refine merge_same hg ?_
        show s.nextId ∈ (s.withCommit row).commits
        simp
  · intro fromHead nh hf hi ha hst
    have hsa := hsa fromHead nh hf hi
    simp [ha,hst] at hsa

theorem mergeSafe_of_agrees (h : Agree m s) (hg : MergeAgrees m s order scope from_ into strategy now) :
    s.MergeSafe order scope from_ into strategy := by
  intro fromHead nh hf hi
  obtain ⟨b,hb,rfl⟩ := SqliteVersionStore.branchHead_ok hi
  have hmf := (h.branchHead_eq _ from_).trans hf
  have hmi := (h.branchHead_eq _ into).trans hi
  by_cases ha : s.isAncestor b.head fromHead = true
  · rw [if_pos ha]
    obtain ⟨hh,-⟩ := (h.merge_sqlite_iff hf hb now).mp (hg.sqlite.mpr ⟨fromHead,b.head,hf,hi, .inl ha⟩)
    have hs := SqliteVersionStore.merge_ancestor order strategy now hf hb ha
    rw [if_pos hh] at hs
    obtain ⟨-,hr⟩ := hg.same _ _ _ _
      (MemoryVersionStore.merge_ancestor strategy now hmf hmi (by rw [h.isAncestor_eq,ha])) hs
    exact ⟨hh,(h.sameRefs.fastForward_iff hb hh fromHead _).mp hr⟩
  · rw [if_neg ha]
    have ha : s.isAncestor b.head fromHead = false := by simpa using ha
    have hn : strategy ≠ .fastForward := by
      rintro rfl
      obtain ⟨-,msg,hmsg⟩ := hg.refused fromHead b.head hf hi ha rfl
      exact h.merge_sqlite_refused hf hb ha now msg hmsg
    refine ⟨hn,?_⟩
    by_cases hl : s.Blocked order strategy fromHead b.head
    · exact .inl hl
    · have he : s.Mergeable order scope from_ into strategy := ⟨fromHead,b.head,hf,hi, .inr ⟨hn,hl⟩⟩
      obtain ⟨hh,-⟩ := (h.merge_sqlite_iff hf hb now).mp (hg.sqlite.mpr he)
      cases hms : s.mergedSnapshot order strategy fromHead b.head with
      | error e => exact absurd (blocked_iff.mpr ⟨e,hms⟩) hl
      | ok r =>
        have hfm := (h.branchHead_inScope hf).mem
        have hbm := (h.branchHead_inScope hi).mem
        obtain ⟨row,-,-,-,-,hs⟩ := SqliteVersionStore.merge_diverged now hf hfm hbm hb ha hms
        rw [if_pos hh] at hs
        have hm := MemoryVersionStore.merge_diverged now hmf hmi (by rw [h.isAncestor_eq,ha]) hn
        rw [(h.mergedSnapshot_ok_iff order hn hfm hbm r).mpr hms] at hm
        obtain ⟨-,hr⟩ := hg.same _ _ _ _ hm hs
        exact .inr ((h.sameRefs.mergeCommit_iff h.sameCommits.nextId hb hh (Nat.ne_of_lt (h.refs.fresh _ hbm))).mp hr)

end Agree

namespace StorePair

def MergeStep (s : SqliteVersionStore) (order : RowOrder) (scope : ContextUri) (from_ into : BranchName)
    (strategy : MergeStrategy) : Prop :=
  ∀ fromHead intoHead, s.branchHead scope.canonical from_ = .ok fromHead →
    s.branchHead scope.canonical into = .ok intoHead →
    if s.isAncestor intoHead fromHead = true then
      s.attachedBranch scope.canonical = some into.asStr ∨ fromHead = intoHead
    else s.Blocked order strategy fromHead intoHead ∨
      if strategy = .fastForward then s.getHead scope.canonical ≠ some intoHead
      else s.attachedBranch scope.canonical = some into.asStr

def KnowledgeStep (services : Services) (s : SqliteVersionStore) (order : RowOrder) (scope : ContextUri)
    (from_ into : BranchName) (strategy : KnowledgeMergeStrategy) : Prop :=
  ∀ fromHead intoHead, s.branchHead scope.canonical from_ = .ok fromHead →
    s.branchHead scope.canonical into = .ok intoHead →
    if s.isAncestor intoHead fromHead = true then fromHead = intoHead
    else (∃ e, services.detect strategy (s.reconstructSnapshot order fromHead) (s.reconstructSnapshot order intoHead) =
        .error e) ∨
      s.getHead scope.canonical = some intoHead ∧ ∀ name, s.attachedBranch scope.canonical = some name → name = into.asStr

def StepAgrees (services : Services) (p : StorePair) : SqliteOp → Prop
  | .commit scope changes metadata now => p.2.StepSeparable (.commit scope changes metadata now)
  | .createBranch scope name from_ _ _ =>
    p.2.getBranch scope.canonical name = none → from_ ∈ p.2.commits → p.2.InScope from_ scope.canonical
  | .deleteBranch scope name => p.2.attachedBranch scope.canonical ≠ some name.asStr
  | .merge order scope from_ into strategy _ => MergeStep p.2 order scope from_ into strategy
  | .knowledgeMerge order scope from_ into strategy _ => KnowledgeStep services p.2 order scope from_ into strategy
  | .cherryPick order scope commit onto strategy _ => Agree.PickAgrees p.2 order scope commit onto strategy
  | .rebase order scope branch onto strategy _ => Agree.RebaseAgrees p.2 order scope branch onto strategy
  | .squash _ scope commits _ _ => Agree.SquashAgrees p.2 scope commits
  | .continueConflictSession order session resolutions clock =>
    p.2.step services (.continueConflictSession order session resolutions clock) = p.2
  | .gc recentScan victimScan scope policy now => p.1.gcVictims scope policy = [] ∧
      (p.2.gcVictims recentScan victimScan scope.canonical policy now = [] ∨
        ¬ p.2.Deletable (p.2.gcVictims recentScan victimScan scope.canonical policy now))
  | _ => True

variable {m : MemoryVersionStore} {s : SqliteVersionStore} {order : RowOrder} {scope : ContextUri} {from_ into : BranchName}
  {now : DateTime}

variable {strategy : MergeStrategy}

theorem merge_missing (h : Agree m s) (svc : Services)
    (hn : ¬ ∃ fromHead nh, s.branchHead scope.canonical from_ = .ok fromHead ∧
      s.branchHead scope.canonical into = .ok nh) :
    Agree (m.step svc (.merge order scope from_ into strategy now))
      (s.step svc (.merge order scope from_ into strategy now)) := by
  have hm : ∃ e, m.merge scope from_ into strategy now = .error e := by
    cases hr : m.merge scope from_ into strategy now with
    | error e => exact ⟨e,rfl⟩
    | ok r =>
      obtain ⟨fromHead,nh,hf,hi,-⟩ := (h.merge_memory_iff order now).mp ⟨r,hr⟩
      exact absurd ⟨fromHead,nh,hf,hi⟩ hn
  have hs : ∃ e, s.merge order scope from_ into strategy now = .error e := by
    cases hr : s.merge order scope from_ into strategy now with
    | error e => exact ⟨e,rfl⟩
    | ok r =>
      obtain ⟨fromHead,nh,hf,hi,-⟩ := SqliteVersionStore.merge_ok hr
      exact absurd ⟨fromHead,nh,hf,hi⟩ hn
  obtain ⟨e,he⟩ := hm
  obtain ⟨e',he'⟩ := hs
  simp only [MemoryVersionStore.step,SqliteVersionStore.step,he,he']
  exact h

theorem merge_idle (h : Agree m s) (svc : Services) {b : Branch}
    (hf : s.branchHead scope.canonical from_ = .ok b.head) (hb : (s.branches scope.canonical)[into.asStr]? = some b)
    (hh : s.getHead scope.canonical ≠ some b.head) :
    Agree (m.step svc (.merge order scope from_ into strategy now))
      (s.step svc (.merge order scope from_ into strategy now)) := by
  have ha : s.isAncestor b.head b.head = true := by simp [SqliteVersionStore.isAncestor,Dag.isAncestor_self]
  have hi := SqliteVersionStore.branchHead_of_branch hb
  have hm := MemoryVersionStore.merge_ancestor strategy now ((h.branchHead_eq _ from_).trans hf)
    ((h.branchHead_eq _ into).trans hi) (by rw [h.isAncestor_eq,ha])
  have hs := SqliteVersionStore.merge_ancestor order strategy now hf hb ha
  rw [if_neg hh] at hs
  have he : m.attachedBranches[scope.canonical]? ≠ some into := fun ht =>
    hh (h.getHead_of_attached hb ((h.sameRefs.attached_iff _ into).mp ht))
  have hr := h.sameRefs.branch scope.canonical into.asStr
  rw [hb] at hr
  obtain ⟨b',hb',-⟩ := Option.map_eq_some_iff.mp hr
  have hg : m.getBranch scope.canonical into = some b' := hb'
  have hre : SameRefs (m.setBranch scope.canonical into.asStr
      { b' with head := b.head, lifecycle := if strategy = .fastForward then .active else b'.lifecycle }) s := by
    have hl : s.setBranch scope.canonical into.asStr b = s := SqliteVersionStore.moveBranch_self hb
    rw [← hl]
    exact h.sameRefs.setBranch rfl
  simp only [MemoryVersionStore.step,SqliteVersionStore.step,hm,hs]
  have hme : (m.fastForward scope.canonical into b.head (strategy = .fastForward)).2 = m.setBranch scope.canonical
      into.asStr { b' with head := b.head, lifecycle := if strategy = .fastForward then .active else b'.lifecycle } := by
    simp only [MemoryVersionStore.fastForward,hg,MemoryVersionStore.followHead]
    rw [if_neg]
    · simp
    · exact he
  show Agree (m.fastForward scope.canonical into b.head (strategy = .fastForward)).2 s
  rw [hme]
  exact h.of_refs ⟨rfl,rfl,rfl⟩ rfl rfl hre h.consistent h.refs (fun _ hs => hs)

theorem merge_agree (h : Agree m s) (svc : Services) (ho : MergeStep s order scope from_ into strategy) :
    Agree (m.step svc (.merge order scope from_ into strategy now))
      (s.step svc (.merge order scope from_ into strategy now)) := by
  by_cases hex : ∃ fromHead nh, s.branchHead scope.canonical from_ = .ok fromHead ∧
      s.branchHead scope.canonical into = .ok nh
  · obtain ⟨fromHead,nh,hf,hi⟩ := hex
    have ho := ho fromHead nh hf hi
    obtain ⟨b,hb,rfl⟩ := SqliteVersionStore.branchHead_ok hi
    by_cases ha : s.isAncestor b.head fromHead = true
    · rw [if_pos ha] at ho
      by_cases hh : s.getHead scope.canonical = some b.head
      · exact h.merge_ancestor svc hf hb ha hh ho
      · rcases ho with ht | rfl
        · exact absurd (h.getHead_of_attached hb ht) hh
        · exact merge_idle h svc hf hb hh
    · rw [if_neg ha] at ho
      have ha : s.isAncestor b.head fromHead = false := by simpa using ha
      rcases ho with hbl | hl
      · obtain ⟨⟨e,he⟩,e',he'⟩ := h.merge_blocked now hf hb ha hbl
        simp only [MemoryVersionStore.step,SqliteVersionStore.step,he,he']
        exact h
      · by_cases hff : strategy = .fastForward
        · rw [if_pos hff] at hl
          subst hff
          have hm := MemoryVersionStore.merge_refused now ((h.branchHead_eq _ from_).trans hf)
            ((h.branchHead_eq _ into).trans hi) (by rw [h.isAncestor_eq,ha])
          have hs : ∃ e, s.merge order scope from_ into .fastForward now = .error e := by
            cases hr : s.merge order scope from_ into .fastForward now with
            | error e => exact ⟨e,rfl⟩
            | ok r => exact absurd ((h.merge_sqlite_iff hf hb now).mp ⟨r,hr⟩).1 hl
          obtain ⟨e,he⟩ := hs
          simp only [MemoryVersionStore.step,SqliteVersionStore.step,hm,he]
          exact h
        · rw [if_neg hff] at hl
          exact h.merge_diverged svc hf hb ha hff hl
  · exact merge_missing h svc hex

theorem knowledgeMerge_agree (h : Agree m s) (svc : Services) {strat : KnowledgeMergeStrategy}
    (ho : KnowledgeStep svc s order scope from_ into strat) :
    Agree (m.step svc (.knowledgeMerge order scope from_ into strat now))
      (s.step svc (.knowledgeMerge order scope from_ into strat now)) := by
  cases hf : s.branchHead scope.canonical from_ with
  | error e =>
    simp only [MemoryVersionStore.step,MemoryVersionStore.knowledgeMerge,SqliteVersionStore.step,
      SqliteVersionStore.knowledgeMerge,h.branchHead_eq,hf,bind,Except.bind]
    exact h
  | ok fromHead =>
    cases hi : s.branchHead scope.canonical into with
    | error e =>
      simp only [MemoryVersionStore.step,MemoryVersionStore.knowledgeMerge,SqliteVersionStore.step,
        SqliteVersionStore.knowledgeMerge,h.branchHead_eq,hf,hi,bind,Except.bind]
      exact h
    | ok nh =>
      have ho := ho fromHead nh hf hi
      obtain ⟨b,hb,rfl⟩ := SqliteVersionStore.branchHead_ok hi
      by_cases ha : s.isAncestor b.head fromHead = true
      · rw [if_pos ha] at ho
        subst ho
        exact h.knowledgeMerge_idle svc order strat now hf hb
      · rw [if_neg ha] at ho
        exact h.knowledgeMerge_diverged hf hb (by simpa using ha) ho

theorem step_agree (svc : Services) (op : SqliteOp) {p : StorePair} (h : Agree p.1 p.2)
    (ho : StepAgrees svc p op) :
    Agree (step svc p op).1 (step svc p op).2 := by
  cases op with
  | commit scope changes md now => exact h.commit svc ho
  | createBranch scope name from_ bt now => exact h.createBranch svc ho
  | deleteBranch scope name => exact h.deleteBranch svc ho
  | switchHead scope br => exact h.switchHead svc
  | createTag scope tag => exact h.createTag svc
  | merge order scope from_ into strategy now => exact merge_agree h svc ho
  | knowledgeMerge order scope from_ into strategy now => exact knowledgeMerge_agree h svc ho
  | cherryPick order scope commit onto strategy now => exact h.cherryPick svc ho
  | rebase order scope br onto strategy clk => exact h.rebase svc ho
  | squash order scope cs message now => exact h.squash svc ho
  | continueConflictSession order ses resolutions clk =>
    have hs : p.2.step svc (.continueConflictSession order ses resolutions clk) = p.2 := ho
    show Agree p.1 (p.2.step svc (.continueConflictSession order ses resolutions clk))
    rw [hs]
    exact h
  | gc recentScan victimScan scope pol now => exact h.gc svc ho.1 ho.2
  | remember order id => exact h.remember order id
  | evict id => exact h.evict id

theorem run_agree (svc : Services) (ops : List SqliteOp)
    (ho : Meets (step svc) (StepAgrees svc) empty ops) :
    Agree (run (step svc) empty ops).1 (run (step svc) empty ops).2 := by
  have hs : ∀ (p : StorePair) (op : SqliteOp), Agree p.1 p.2 → StepAgrees svc p op →
      Agree (step svc p op).1 (step svc p op).2 := fun _ op hp hop => step_agree svc op hp hop
  exact run_invariant hs agree_empty ho

/-- After a history whose calls meet their conditions, the stores agree on a merge exactly when HEAD is attached
to its target or has nowhere to go, and it is no fast-forward of diverged branches. -/
theorem merge_agrees_iff (services : Services) (ops : List SqliteOp)
    (hok : Meets (step services) (StepAgrees services) empty ops) (order : RowOrder) (scope : ContextUri)
    (from_ into : BranchName) (strategy : MergeStrategy) (now : DateTime) :
    MergeAgrees (run (step services) empty ops).1 (run (step services) empty ops).2 order scope from_ into strategy now ↔
      (run (step services) empty ops).2.MergeSafe order scope from_ into strategy := by
  have h := run_agree services ops hok
  exact ⟨h.mergeSafe_of_agrees, h.mergeAgrees_of_safe services now⟩

section Sample

open SqliteVersionStore (sampleServices sampleScope sampleEntry mainBranch devBranch aheadOps)

/-- `dev` is ahead of `main`, which is checked out. -/
def readyOps : List SqliteOp := aheadOps ++ [.switchHead sampleScope mainBranch]

theorem merge_agrees_ready : MergeAgrees (run (step sampleServices) empty readyOps).1
    (run (step sampleServices) empty readyOps).2 .asStored sampleScope devBranch mainBranch .threeWay 2 := by
  refine (merge_agrees_iff sampleServices readyOps ?_ .asStored sampleScope devBranch mainBranch .threeWay 2).mpr ?_
  · exact ⟨ChangeSet.separable_of_renames_nil rfl _, fun _ _ => ⟨_, rfl, rfl⟩, fun _ _ => ⟨_, rfl, rfl⟩, trivial,
      ChangeSet.separable_of_renames_nil rfl _, trivial, trivial⟩
  · intro fromHead intoHead hf hi
    obtain rfl : 1 = fromHead := Except.ok.inj hf
    obtain rfl : 0 = intoHead := Except.ok.inj hi
    rw [if_pos (by decide)]
    exact ⟨by decide, .inl (by decide)⟩

/-- Both branches have moved on, and `main` is checked out. -/
def divergedOps : List SqliteOp := readyOps ++ [.commit sampleScope ⟨[sampleEntry "c" "three"], [], [], []⟩ .empty 2]

theorem merge_not_agrees :
    ¬ ∀ (services : Services) (ops : List SqliteOp) (order : RowOrder) (scope : ContextUri) (from_ into : BranchName)
      (strategy : MergeStrategy) (now : DateTime), MergeAgrees (run (step services) empty ops).1
        (run (step services) empty ops).2 order scope from_ into strategy now := by
  intro h
  have ha := h sampleServices divergedOps .asStored sampleScope devBranch mainBranch .fastForward 3
  obtain ⟨-, msg, hm⟩ := ha.refused 1 2 rfl rfl (by decide) rfl
  have ho : ((run (step sampleServices) empty divergedOps).2.merge .asStored sampleScope devBranch mainBranch .fastForward
      3).toOption.isSome = true := by decide
  rw [hm] at ho
  cases ho

end Sample

end StorePair
end UwuContextDb.Version
