import UwuContextDb.Version.AttachedHead
import UwuContextDb.Version.ChangeReplay

/-! When `MemoryVersionStore` and `SqliteVersionStore` hold the same history. -/

namespace UwuContextDb.Version

open MapEdit StateMachine
open SqliteVersionStore (empty branchHead getBranch isAncestor mergeBase parents_of_row commitTimestamp)
open Std.ExtTreeMap (getElem?_insert ext_getElem? getElem?_map)

structure SameRefs (m : MemoryVersionStore) (s : SqliteVersionStore) : Prop where
  branch : ∀ scope name : String,
    ((m.scopeBranches scope)[name]?).map (·.head) = ((s.branches scope)[name]?).map (·.head)
  head : ∀ scope : String, m.heads[scope]? = s.getHead scope
  attached : ∀ scope : String, (m.attachedBranches[scope]?).map (·.asStr) = (s.heads[scope]?).bind (·.attachedBranch)

structure SameCommits (m : MemoryVersionStore) (s : SqliteVersionStore) : Prop where
  nextId : m.nextId = s.nextId
  dag : m.dag = s.dag
  timestamp : ∀ id : CommitId, (m.commits[id]?).map (·.timestamp) = s.commitTimestamp id
  snapshot : ∀ id t, HasSnapshot s.commits id t → m.snapshot id = t

def SqliteVersionStore.Headed (s : SqliteVersionStore) : Prop :=
  ∀ (id : CommitId) (scope : String), s.InScope id scope → (s.getHead scope).isSome = true

structure Agree (m : MemoryVersionStore) (s : SqliteVersionStore) : Prop where
  sameRefs : SameRefs m s
  sameCommits : SameCommits m s
  consistent : s.Consistent
  refs : s.RefsSound
  headed : s.Headed

theorem agree_empty : Agree .empty .empty where
  sameRefs := by constructor <;> simp [MemoryVersionStore.empty,empty,
    MemoryVersionStore.scopeBranches,SqliteVersionStore.getHead]
  sameCommits := by
    refine ⟨rfl,rfl,fun id => rfl,fun id t h => ?_⟩
    have hm := h.mem
    simp [empty] at hm
  consistent := SqliteVersionStore.consistent_empty
  refs := SqliteVersionStore.refsSound_empty
  headed := by
    rintro id scope ⟨row,hr,-⟩
    simp [empty] at hr

namespace Agree

variable {m : MemoryVersionStore} {s : SqliteVersionStore} {scope : String} {id : CommitId}

theorem branchHead_eq (h : Agree m s) (sc : String) (name : BranchName) :
    m.branchHead sc name = s.branchHead sc name := by
  have hb := h.sameRefs.branch sc name.asStr
  unfold MemoryVersionStore.branchHead branchHead MemoryVersionStore.getBranch
    getBranch
  cases hm : (m.scopeBranches sc)[name.asStr]? with
  | none =>
    cases hs : (s.branches sc)[name.asStr]? with
    | none => rfl
    | some b => simp [hm,hs] at hb
  | some b =>
    cases hs : (s.branches sc)[name.asStr]? with
    | none => simp [hm,hs] at hb
    | some b' => simpa [hm,hs] using hb

theorem getBranch_isNone (h : Agree m s) (sc : String) (name : BranchName) :
    (m.getBranch sc name).isNone = (s.getBranch sc name).isNone := by
  have hb := congrArg Option.isNone (h.sameRefs.branch sc name.asStr)
  simpa [MemoryVersionStore.getBranch,getBranch] using hb

theorem isAncestor_eq (h : Agree m s) (a c : CommitId) : m.isAncestor a c = s.isAncestor a c := by
  unfold MemoryVersionStore.isAncestor isAncestor
  rw [h.sameCommits.dag]

theorem mergeBase_eq (h : Agree m s) (a b : CommitId) : m.mergeBase a b = s.mergeBase a b := by
  unfold MemoryVersionStore.mergeBase mergeBase
  rw [h.sameCommits.dag]

theorem mem_commits_iff (h : Agree m s) (id : CommitId) : id ∈ m.commits ↔ id ∈ s.commits := by
  have hm : id ∈ m.dag ↔ id ∈ m.commits := by simp [MemoryVersionStore.dag]
  have hs : id ∈ s.dag ↔ id ∈ s.commits := by simp [SqliteVersionStore.dag]
  rw [← hm,← hs,h.sameCommits.dag]

theorem snapshot_eq (h : Agree m s) (ord : RowOrder) (hi : id ∈ s.commits) :
    m.snapshot id = s.reconstructSnapshot ord id :=
  h.sameCommits.snapshot id _ (SqliteVersionStore.hasSnapshot_reconstruct h.consistent ord hi)

theorem optSnapshot_eq (h : Agree m s) (ord : RowOrder) {p : Option CommitId} (hp : ∀ id, p = some id → id ∈ s.commits) :
    m.optSnapshot p = s.baseSnapshot ord p := by
  cases p with
  | none => rfl
  | some id => exact h.snapshot_eq ord (hp id rfl)

theorem mem_of_reaches (h : Agree m s) {c a : CommitId} (hc : c ∈ s.commits) (hr : Search.Reaches s.dag.parents c a) :
    a ∈ s.commits := by
  induction hr with
  | refl => exact hc
  | @tail b a _ he ih =>
    have hm : a ∈ s.dag.parents b := he
    cases ho : s.commits[b]? with
    | none => simp [SqliteVersionStore.dag,Dag.parents,ho] at hm
    | some row =>
      rw [parents_of_row ho] at hm
      exact (h.consistent.older b row ho a hm).1

theorem mergeBase_mem (h : Agree m s) {a b base : CommitId} (ha : a ∈ s.commits) (hb : s.mergeBase a b = some base) :
    base ∈ s.commits := h.mem_of_reaches ha (Dag.mergeBase_reaches hb).1

theorem branchHead_inScope (h : Agree m s) {name : BranchName} (hb : s.branchHead scope name = .ok id) :
    s.InScope id scope := SqliteVersionStore.branchHead_inScope h.refs hb

end Agree

section Refs

variable {m : MemoryVersionStore} {s : SqliteVersionStore} {scope name : String} {id : CommitId}

theorem MemoryVersionStore.getElem?_setBranch (m : MemoryVersionStore) (sc name sc' name' : String) (b : Branch) :
    ((m.setBranch sc name b).scopeBranches sc')[name']? =
      if sc = sc' ∧ name = name' then some b else (m.scopeBranches sc')[name']? := by
  by_cases hs : sc = sc'
  · subst hs
    simp [setBranch,scopeBranches,getElem?_insert]
  · simp [setBranch,scopeBranches,hs,getElem?_insert]

theorem SameRefs.setBranch (h : SameRefs m s) {b b' : Branch} (hb : b.head = b'.head) :
    SameRefs (m.setBranch scope name b) (s.setBranch scope name b') where
  branch scope' name' := by
    rw [MemoryVersionStore.getElem?_setBranch,SqliteVersionStore.getElem?_setBranch]
    split
    · simpa using hb
    · exact h.branch scope' name'
  head := h.head
  attached := h.attached

theorem SameRefs.setHead (h : SameRefs m s) {attached : Option String}
    (ha : (s.heads[scope]?).bind (·.attachedBranch) = attached) (id : CommitId) :
    SameRefs (m.setHead scope id) (s.setHead scope ⟨id,attached⟩) where
  branch := h.branch
  head scope' := by
    have hm := h.head scope'
    rw [SqliteVersionStore.getHead] at hm ⊢
    rw [SqliteVersionStore.getElem?_setHead]
    by_cases hs : scope = scope' <;> simp [MemoryVersionStore.setHead,getElem?_insert,hs,hm]
  attached scope' := by
    have hm : (m.setHead scope id).attachedBranches = m.attachedBranches := rfl
    rw [hm,h.attached,SqliteVersionStore.getElem?_setHead]
    split
    · rename_i hs
      subst hs
      exact ha
    · rfl

theorem SameRefs.insertCommit (h : SameRefs m s) (c : MemoryCommit) (snap : Snapshot) (row : CommitRow) :
    SameRefs (m.insertCommit c snap) (s.withCommit row) := ⟨h.branch,h.head,h.attached⟩

theorem SameRefs.moveBranch (h : SameRefs m s) {br : BranchName} {b : Branch}
    (hb : (s.branches scope)[br.asStr]? = some b) (id : CommitId) :
    SameRefs (m.moveBranch scope br id) (s.moveBranch scope br.asStr b id) := by
  have hm := h.branch scope br.asStr
  rw [hb] at hm
  obtain ⟨b',hb',-⟩ := Option.map_eq_some_iff.mp hm
  have hg : m.getBranch scope br = some b' := hb'
  simp only [MemoryVersionStore.moveBranch,hg,SqliteVersionStore.moveBranch]
  exact h.setBranch rfl

end Refs

section Commits

variable {m : MemoryVersionStore} {s : SqliteVersionStore}

theorem SameCommits.withCommit (h : SameCommits m s) (hs : s.Consistent) {c : MemoryCommit} {row : CommitRow}
    {snap : Snapshot} (hp : c.parents = row.parents) (ht : c.timestamp = row.timestamp)
    (ha : ∀ t, HasSnapshot (s.withCommit row).commits s.nextId t → snap = t) :
    SameCommits (m.insertCommit c snap) (s.withCommit row) where
  nextId := by
    show m.nextId + 1 = s.nextId + 1
    rw [h.nextId]
  dag := by
    have hm : (m.insertCommit c snap).dag = m.dag.insert m.nextId c.parents := by
      refine ext_getElem? (fun k => ?_)
      simp only [MemoryVersionStore.dag,MemoryVersionStore.insertCommit,getElem?_map,getElem?_insert]
      split <;> rfl
    have hs : (s.withCommit row).dag = s.dag.insert s.nextId row.parents := by
      refine ext_getElem? (fun k => ?_)
      simp only [SqliteVersionStore.dag,SqliteVersionStore.withCommit,getElem?_map,getElem?_insert]
      split <;> rfl
    rw [hm,hs,h.dag,h.nextId,hp]
  timestamp id := by
    simp only [MemoryVersionStore.insertCommit,commitTimestamp,SqliteVersionStore.withCommit,
      getElem?_insert,h.nextId]
    split
    · simpa using ht
    · exact h.timestamp id
  snapshot id t hi := by
    have hg : (m.insertCommit c snap).snapshot id = if s.nextId = id then snap else m.snapshot id := by
      simp only [MemoryVersionStore.snapshot,MemoryVersionStore.insertCommit,getElem?_insert,
        h.nextId,compare_eq_iff_eq]
      split <;> rfl
    rw [hg]
    by_cases hn : s.nextId = id
    · subst hn
      rw [if_pos rfl]
      exact ha t hi
    · rw [if_neg hn]
      have he : id ∈ s.commits := by simpa [hn] using hi.mem
      obtain ⟨t',ht'⟩ := hs.recorded id he
      have hk := SqliteVersionStore.keepsSnapshots_withCommit hs row id t' ht' hi.mem
      rw [h.snapshot id t' ht',hk.unique hi]

theorem hasSnapshot_diff {s : SqliteVersionStore} (hs : s.Consistent) {row : CommitRow} {ord : RowOrder}
    {dst t : Snapshot} (hp : ∀ p ∈ row.parents, p ∈ s.commits)
    (hd : row.deltas = insertDeltas (diffSnapshots (s.baseSnapshot ord row.parents.head?) dst))
    (h : HasSnapshot (s.withCommit row).commits s.nextId t) : dst = t := by
  have hw : ∀ e ∈ row.deltas.edits, e.2.isWrite = true := by
    rw [hd]
    exact SqliteVersionStore.diffRows_isWrite
  have ht' : (s.withCommit row).Consistent :=
    hs.withCommit hp (fun base _ => .of_writes hw row.deltas.edits_keys_nodup)
  rw [← SqliteVersionStore.reconstructSnapshot_new hs.toWellFormed hp hd]
  exact SqliteVersionStore.reconstructSnapshot_eq ht' ord h

structure MemoryVersionStore.SameMaps (m m' : MemoryVersionStore) : Prop where
  commits : m'.commits = m.commits
  entrySnapshots : m'.entrySnapshots = m.entrySnapshots
  nextId : m'.nextId = m.nextId

theorem MemoryVersionStore.moveBranch_sameMaps (m : MemoryVersionStore) (sc : String) (name : BranchName)
    (id : CommitId) : m.SameMaps (m.moveBranch sc name id) := by
  unfold moveBranch
  split <;> exact ⟨rfl,rfl,rfl⟩

theorem MemoryVersionStore.followHead_sameMaps (m : MemoryVersionStore) (sc : String) (name : BranchName)
    (id : CommitId) : m.SameMaps (m.followHead sc name id) := by
  unfold followHead
  split <;> exact ⟨rfl,rfl,rfl⟩

theorem MemoryVersionStore.SameMaps.trans {m m' m'' : MemoryVersionStore} (h : m.SameMaps m') (h' : m'.SameMaps m'') :
    m.SameMaps m'' :=
  ⟨h'.commits.trans h.commits,h'.entrySnapshots.trans h.entrySnapshots,h'.nextId.trans h.nextId⟩

theorem SameCommits.of_refs {m' : MemoryVersionStore} {s' : SqliteVersionStore} (h : SameCommits m s)
    (hm : m.SameMaps m') (hc : s'.commits = s.commits) (hn : s'.nextId = s.nextId) : SameCommits m' s' where
  nextId := by rw [hm.nextId,hn,h.nextId]
  dag := by
    rw [MemoryVersionStore.dag,SqliteVersionStore.dag,hm.commits,hc]
    exact h.dag
  timestamp id := by
    rw [commitTimestamp,hm.commits,hc]
    exact h.timestamp id
  snapshot id t hi := by
    rw [hc] at hi
    rw [MemoryVersionStore.snapshot,hm.entrySnapshots]
    exact h.snapshot id t hi

end Commits

section Heads

variable {s s' : SqliteVersionStore} {scope : String}

theorem SqliteVersionStore.getHead_setHead_isSome (s : SqliteVersionStore) (sc sc' : String) (row : HeadRow)
    (h : (s.getHead sc').isSome = true ∨ sc = sc') : ((s.setHead sc row).getHead sc').isSome = true := by
  unfold getHead
  rw [getElem?_setHead]
  by_cases hs : sc = sc'
  · simp [hs]
  · simpa [hs,getHead] using h.resolve_right hs

theorem SqliteVersionStore.Headed.mono (h : s.Headed)
    (hc : ∀ id scope, s'.InScope id scope → s.InScope id scope ∨ (s'.getHead scope).isSome = true)
    (hh : ∀ scope : String, (s.getHead scope).isSome = true → (s'.getHead scope).isSome = true) : s'.Headed := by
  intro id scope hi
  rcases hc id scope hi with hi | hi
  · exact hh scope (h id scope hi)
  · exact hi

theorem SqliteVersionStore.Headed.withCommit {row : CommitRow} (h : s.Headed)
    (hc : s'.commits = (s.withCommit row).commits)
    (hh : ∀ scope : String, (s.getHead scope).isSome = true ∨ scope = row.scope → (s'.getHead scope).isSome = true) :
    s'.Headed := by
  refine h.mono (fun id scope hi => ?_) (fun scope hs => hh scope (.inl hs))
  obtain ⟨r,hr,hs⟩ := hi
  rw [hc] at hr
  simp only [commits_withCommit,getElem?_insert] at hr
  split at hr
  · obtain rfl := Option.some.inj hr
    exact .inr (hh scope (.inr hs.symm))
  · exact .inl ⟨r,hr,hs⟩

end Heads

end UwuContextDb.Version
