import UwuContextDb.Library.DepthFirst
import UwuContextDb.Library.TopRows
import UwuContextDb.Version.SqliteRun

/-! `SqliteVersionStore::log`: the walk from HEAD stops at the limit and is sorted afterwards. -/

namespace UwuContextDb.Version

open Search

structure LogOpts where
  maxCount : Option ℕ
  branch : Option BranchName

/-- A commit as `load_commit` gives it. -/
structure Commit where
  id : CommitId
  row : CommitRow

namespace SqliteVersionStore

variable (st : SqliteVersionStore)

def loadCommit (id : CommitId) : Option Commit := (st.commits[id]?).map (fun row => ⟨id, row⟩)

def logStart (scope : ContextUri) (branch : Option BranchName) : Option CommitId :=
  match branch with
  | some name => (st.getBranch scope.canonical name).map (·.head)
  | none => st.getHead scope.canonical

/-- The loop of `log`: the identifiers visited, the stack, the commits collected. -/
def logLoop (max : Option ℕ) : ℕ → List CommitId → List CommitId → List Commit → List Commit
  | 0, _, _, out => out
  | _+1, _, [], out => out
  | fuel+1, visited, id::stack, out =>
    if id ∈ visited then logLoop max fuel visited stack out
    else
      let out' := out ++ (st.loadCommit id).toList
      if max.any (fun n => decide (n ≤ out'.length)) then out'
      else logLoop max fuel (id::visited) (push .stack (st.dag.parents id) stack) out'

/-- `out.sort_by_key(|commit| Reverse(commit.timestamp))`. -/
def newestFirst (commits : List Commit) : List Commit :=
  commits.insertionSort (fun a b => b.row.timestamp ≤ a.row.timestamp)

def log (scope : ContextUri) (opts : LogOpts) : List Commit :=
  match st.logStart scope opts.branch with
  | none => []
  | some head => newestFirst (st.logLoop opts.maxCount (st.dag.edgeCount + 1) [] [head] [])

structure LogsAll (scope : ContextUri) (branch : Option BranchName) (all : List Commit) : Prop where
  reachable : ∀ c, c ∈ all ↔ ∃ head, st.logStart scope branch = some head ∧ Reaches st.dag.parents head c.id ∧
    st.commits[c.id]? = some c.row
  once : (all.map (·.id)).Nodup
  descending : all.Pairwise (fun a b => b.row.timestamp ≤ a.row.timestamp)

variable {st}

def visitOrder (st : SqliteVersionStore) (fuel : ℕ) (visited stack : List CommitId) : List Commit :=
  (depthFirst st.dag.parents fuel visited stack).filterMap st.loadCommit

variable {id : CommitId} {visited stack : List CommitId}

theorem parents_of_unknown (h : st.loadCommit id = none) : st.dag.parents id = [] := by
  have hn : st.commits[id]? = none := by simpa [loadCommit] using h
  simp [Dag.parents,dag,hn]

theorem visitOrder_cons {fuel : ℕ} (h : id ∉ visited) :
    st.visitOrder (fuel+1) visited (id::stack) =
      (st.loadCommit id).toList ++ st.visitOrder fuel (id::visited) (push .stack (st.dag.parents id) stack) := by
  unfold visitOrder
  simp only [depthFirst,h,if_false,List.filterMap_cons]
  cases st.loadCommit id <;> rfl

theorem visitOrder_skip {fuel : ℕ} (h : id ∈ visited) :
    st.visitOrder (fuel+1) visited (id::stack) = st.visitOrder fuel visited stack := by
  simp only [visitOrder,depthFirst,h,if_true]

theorem logLoop_none (fuel : ℕ) (vis stack : List CommitId) (out : List Commit) :
    st.logLoop none fuel vis stack out = out ++ st.visitOrder fuel vis stack := by
  induction fuel generalizing vis stack out with
  | zero => simp [logLoop,visitOrder,depthFirst]
  | succ fuel ih =>
    cases stack with
    | nil => simp [logLoop,visitOrder,depthFirst]
    | cons id stack =>
      by_cases h : id ∈ vis
      · simp only [logLoop,h,if_true,ih,visitOrder_skip h]
      · simp only [logLoop,h,if_false,Option.any_none,Bool.false_eq_true,ih,visitOrder_cons h,List.append_assoc]

theorem logLoop_some {n : ℕ} (fuel : ℕ) (vis stack : List CommitId) {out : List Commit} (ho : out.length < n) :
    st.logLoop (some n) fuel vis stack out = out ++ (st.visitOrder fuel vis stack).take (n - out.length) := by
  induction fuel generalizing vis stack out with
  | zero => simp [logLoop,visitOrder,depthFirst]
  | succ fuel ih =>
    cases stack with
    | nil => simp [logLoop,visitOrder,depthFirst]
    | cons id stack =>
      by_cases h : id ∈ vis
      · simp only [logLoop,h,if_true,ih vis stack ho,visitOrder_skip h]
      · rw [visitOrder_cons h]
        simp only [logLoop,h,if_false,Option.any_some,decide_eq_true_eq]
        cases ha : st.loadCommit id with
        | none =>
          have ht : ¬ n ≤ (out++(none : Option Commit).toList).length := by simp; omega
          rw [if_neg ht,ih _ _ (by simpa using ho)]
          simp
        | some c =>
          by_cases hf : n ≤ out.length + 1
          · have hn : n - out.length = 1 := by omega
            simp [hf,hn]
          · have hm : n - out.length = (n - (out.length+1)) + 1 := by omega
            have hl : ¬ n ≤ (out++(some c).toList).length := by simpa using hf
            rw [if_neg hl,ih _ _ (by simp; omega),hm]
            simp

theorem logLoop_zero (fuel : ℕ) (head : CommitId) :
    st.logLoop (some 0) (fuel+1) [] [head] [] = (st.visitOrder (fuel+1) [] [head]).take 1 := by
  rw [visitOrder_cons List.not_mem_nil]
  cases hl : st.loadCommit head with
  | some c => simp [logLoop,hl]
  | none =>
    have hn : st.visitOrder fuel [head] [] = [] := by
      cases fuel <;> simp [visitOrder,depthFirst]
    simp [logLoop,hl,parents_of_unknown hl,push,hn]

theorem logLoop_limited (n fuel : ℕ) (head : CommitId) :
    st.logLoop (some n) (fuel+1) [] [head] [] = (st.visitOrder (fuel+1) [] [head]).take (max n 1) := by
  cases n with
  | zero => exact logLoop_zero fuel head
  | succ n =>
    rw [logLoop_some (fuel+1) [] [head] (Nat.succ_pos n),Nat.max_eq_left (Nat.succ_pos n)]
    rfl

theorem mem_visitOrder {head : CommitId} {c : Commit} :
    c ∈ st.visitOrder (st.dag.edgeCount+1) [] [head] ↔
      Reaches st.dag.parents head c.id ∧ st.commits[c.id]? = some c.row := by
  have hm : ∀ id, id ∈ depthFirst st.dag.parents (st.dag.edgeCount+1) [] [head] ↔ Reaches st.dag.parents head id := by
    intro id
    rw [mem_depthFirst_iff (fun v => st.dag.parents_eq_nil) (by simp [Dag.pending_eq_edgeCount])]
    simp
  unfold visitOrder
  rw [List.mem_filterMap]
  constructor
  · rintro ⟨id,hi,hl⟩
    obtain ⟨row,hr,rfl⟩ := Option.map_eq_some_iff.mp hl
    exact ⟨(hm id).mp hi,hr⟩
  · rintro ⟨he,hr⟩
    exact ⟨c.id,(hm c.id).mpr he,by simp [loadCommit,hr]⟩

theorem visitOrder_nodup (fuel : ℕ) (stack : List CommitId) : ((st.visitOrder fuel [] stack).map (·.id)).Nodup := by
  have hs : ∀ ids : List CommitId, ((ids.filterMap st.loadCommit).map (·.id)).Sublist ids := by
    intro ids
    induction ids with
    | nil => exact .slnil
    | cons id ids ih =>
      cases hl : st.loadCommit id with
      | none =>
        rw [List.filterMap_cons_none hl]
        exact ih.cons _
      | some c =>
        obtain ⟨row,-,rfl⟩ := Option.map_eq_some_iff.mp hl
        rw [List.filterMap_cons_some hl,List.map_cons]
        exact ih.cons_cons _
  exact (hs _).nodup depthFirst_fresh.1

theorem log_logsAll (sc : ContextUri) (br : Option BranchName) : st.LogsAll sc br (st.log sc ⟨none,br⟩) := by
  unfold log
  cases hs : st.logStart sc br with
  | none =>
    constructor <;> simp [hs]
  | some head =>
    simp only [logLoop_none,List.nil_append,newestFirst]
    constructor
    · intro c
      rw [List.mem_insertionSort,mem_visitOrder]
      simp [hs]
    · exact ((List.perm_insertionSort _ _).map _).nodup_iff.mpr (visitOrder_nodup _ _)
    · exact @List.pairwise_insertionSort _ (fun a b : Commit => b.row.timestamp ≤ a.row.timestamp) _
        ⟨fun a b => le_total b.row.timestamp a.row.timestamp⟩ ⟨fun a b c ha hb => hb.trans ha⟩ _

/-- Depth first from the start of the log, a later parent before an earlier one, each of the first `n` commits is at
least as recent as all that come after them; for no commits at all there must be none. -/
def RecentFirst (st : SqliteVersionStore) (scope : ContextUri) (branch : Option BranchName) (n : ℕ) : Prop :=
  ∀ head order, st.logStart scope branch = some head → Preorder st.dag.parents ∅ [head] order →
    let commits := order.filterMap st.loadCommit
    (n = 0 → commits = []) ∧ ∀ a ∈ commits.take n, ∀ b ∈ commits.drop n, b.row.timestamp ≤ a.row.timestamp

theorem recentFirst_iff {sc : ContextUri} {br : Option BranchName} {n : ℕ} {head : CommitId}
    (h : st.logStart sc br = some head) : st.RecentFirst sc br n ↔
      (n = 0 → st.visitOrder (st.dag.edgeCount+1) [] [head] = []) ∧
        ∀ a ∈ (st.visitOrder (st.dag.edgeCount+1) [] [head]).take n,
        ∀ b ∈ (st.visitOrder (st.dag.edgeCount+1) [] [head]).drop n, b.row.timestamp ≤ a.row.timestamp := by
  have hw : Preorder st.dag.parents ∅ [head] (depthFirst st.dag.parents (st.dag.edgeCount+1) [] [head]) := by
    have hp := @preorder_depthFirst _ _ st.dag.parents st.dag.keys.toFinset (fun v => st.dag.parents_eq_nil)
      (st.dag.edgeCount+1) [] [head] (by simp [Dag.pending_eq_edgeCount])
    have he : {u : CommitId | u ∈ ([] : List CommitId)} = ∅ := by
      ext u
      simp
    rwa [he] at hp
  constructor
  · intro hr
    exact hr head _ h hw
  · intro hr head' ord h' ho
    obtain rfl : head = head' := Option.some.inj (h.symm.trans h')
    obtain rfl := ho.unique hw
    exact hr

/-- The log without limit is as it should be; the log of `n` commits begins it exactly if the walk comes to the most recent
commits first. -/
theorem log_limited_iff (st : SqliteVersionStore) (scope : ContextUri) (branch : Option BranchName) (n : ℕ) :
    (st.LogsAll scope branch (st.log scope ⟨none, branch⟩) ∧
      st.log scope ⟨some n, branch⟩ = (st.log scope ⟨none, branch⟩).take n) ↔ st.RecentFirst scope branch n := by
  rw [and_iff_right (log_logsAll scope branch)]
  unfold log
  cases hs : st.logStart scope branch with
  | none => simp [RecentFirst, hs]
  | some head =>
    simp only [logLoop_none, logLoop_limited, List.nil_append, recentFirst_iff hs]
    generalize st.visitOrder (st.dag.edgeCount + 1) [] [head] = commits
    cases n with
    | zero =>
      cases commits with
      | nil => simp [newestFirst]
      | cons c commits => simp [newestFirst]
    | succ n =>
      have ht : Std.Total (fun a b : Commit => b.row.timestamp ≤ a.row.timestamp) :=
        ⟨fun a b => le_total b.row.timestamp a.row.timestamp⟩
      have hr : IsTrans Commit (fun a b : Commit => b.row.timestamp ≤ a.row.timestamp) :=
        ⟨fun a b c ha hb => hb.trans ha⟩
      rw [Nat.max_eq_left (Nat.succ_pos n), newestFirst, newestFirst, TopRows.insertionSort_take_iff]
      simp

def mergedOps : List SqliteOp :=
  [addSample, .createBranch sampleScope mainBranch 0 .main 0, .createBranch sampleScope devBranch 0 .experiment 0,
    .switchHead sampleScope devBranch, .commit sampleScope ⟨[sampleEntry "b" "two"], [], [], []⟩ .empty 1,
    .switchHead sampleScope mainBranch, .commit sampleScope ⟨[sampleEntry "c" "three"], [], [], []⟩ .empty 2,
    .merge .asStored sampleScope devBranch mainBranch .threeWay 3]

/-- The two commits collected are the merge and its older parent. -/
theorem log_not_limited : ¬ ∀ (ops : List SqliteOp) (n : ℕ),
    let st := StateMachine.run (step sampleServices) empty ops
    st.log sampleScope ⟨some n, none⟩ = (st.log sampleScope ⟨none, none⟩).take n := by
  intro h
  have hi := congrArg (fun commits => commits.map (·.id)) (h mergedOps 2)
  revert hi
  decide +kernel

end SqliteVersionStore
end UwuContextDb.Version
