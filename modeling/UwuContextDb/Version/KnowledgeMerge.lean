import Mathlib.Data.String.Basic
import UwuContextDb.Version.MemoryFrame

/-! `knowledge_merge` of a branch whose head the other branch already has in its history. -/

namespace UwuContextDb.Version

open StateMachine Search MapEdit

/-- The order in which `LwwMap` compares the clock and the node of two writes. -/
def Wins (clock : ℕ) (node : String) (clock' : ℕ) (node' : String) : Prop := clock' < clock ∨ clock = clock' ∧ node' < node

instance (clock : ℕ) (node : String) (clock' : ℕ) (node' : String) : Decidable (Wins clock node clock' node') :=
  inferInstanceAs (Decidable (_ ∨ _))

/-- `LwwMap` keeps, of every key, the value with the greater clock, and of equal clocks the one with the greater node. -/
def Services.KeepsGreater (services : Services) : Prop :=
  ∀ (theirs ours : Snapshot) (clock clock' : ℕ) (node node' uri : String),
    (Wins clock node clock' node' →
      (services.lwwMerge theirs clock node ours clock' node')[uri]? = (theirs[uri]?).or ours[uri]?) ∧
    (Wins clock' node' clock node →
      (services.lwwMerge theirs clock node ours clock' node')[uri]? = (ours[uri]?).or theirs[uri]?)

/-- Every URI of `theirs` is kept as `ours` has it: it has it alike, or has it and wins. -/
def Overrides (ours : Snapshot) (clock' : ℕ) (node' : String) (theirs : Snapshot) (clock : ℕ) (node : String) : Prop :=
  ∀ (uri : String) (v : Json), theirs[uri]? = some v →
    ours[uri]? = some v ∨ uri ∈ ours ∧ Wins clock' node' clock node

variable {node node' : String}

theorem Wins.asymm {clk clk' : ℕ} (h : Wins clk node clk' node') : ¬ Wins clk' node' clk node := by
  intro h'
  rcases h with hl | ⟨rfl,hn⟩
  · rcases h' with hl' | ⟨rfl,-⟩
    · omega
    · omega
  · rcases h' with hl' | ⟨-,hn'⟩
    · omega
    · exact lt_asymm hn hn'

theorem Wins.total (hn : node ≠ node') (clk clk' : ℕ) :
    Wins clk node clk' node' ∨ Wins clk' node' clk node := by
  rcases Nat.lt_trichotomy clk clk' with hl | rfl | hg
  · exact .inr (.inl hl)
  · rcases lt_or_gt_of_ne hn with hl | hg
    · exact .inr (.inr ⟨rfl,hl⟩)
    · exact .inl (.inr ⟨rfl,hg⟩)
  · exact .inl (.inl hg)

theorem Services.KeepsGreater.merge_eq_iff {svc : Services} (h : svc.KeepsGreater)
    (hn : node ≠ node') (theirs ours : Snapshot) (clk clk' : ℕ) :
    svc.lwwMerge theirs clk node ours clk' node' = ours ↔ Overrides ours clk' node' theirs clk node := by
  rw [Std.ExtTreeMap.ext_getElem?_iff]
  unfold Overrides
  rcases Wins.total hn clk clk' with hi | hi
  · constructor
    · intro hq u v hv
      have hu := hq u
      rw [(h theirs ours clk clk' node node' u).1 hi,hv,Option.some_or] at hu
      exact .inl hu.symm
    · intro he u
      rw [(h theirs ours clk clk' node node' u).1 hi]
      cases hv : theirs[u]? with
      | none => rfl
      | some v =>
        rcases he u v hv with ho | ⟨-,hl⟩
        · rw [ho,Option.some_or]
        · exact absurd hl hi.asymm
  · constructor
    · intro hq u v hv
      have hu := hq u
      rw [(h theirs ours clk clk' node node' u).2 hi,hv] at hu
      cases ho : ours[u]? with
      | none => simp [ho] at hu
      | some w => exact .inr ⟨mem_of_getElem? ho,hi⟩
    · intro he u
      rw [(h theirs ours clk clk' node node' u).2 hi]
      cases hv : theirs[u]? with
      | none => rw [Option.or_none]
      | some v =>
        have hme : u ∈ ours := by
          rcases he u v hv with ho | ⟨hme,-⟩
          · exact mem_of_getElem? ho
          · exact hme
        obtain ⟨w,hw⟩ := Option.isSome_iff_exists.mp (Std.ExtTreeMap.isSome_getElem?_iff_mem.mpr hme)
        rw [hw,Option.some_or]

namespace Dag

theorem le_of_reaches {g : Dag} (h : ∀ c, ∀ p ∈ g.parents c, p < c) {c a : CommitId}
    (hr : Reaches g.parents c a) : a ≤ c := by
  induction hr with
  | refl => exact Nat.le_refl _
  | tail _ he ih => exact (h _ _ he).le.trans ih

end Dag

namespace SqliteVersionStore

variable {st tx : SqliteVersionStore} {ord : RowOrder} {svc : Services} {sc : ContextUri}
    {from_ into : BranchName}
  {strat : KnowledgeMergeStrategy} {now : DateTime} {fromHead intoHead : CommitId} {res : MergeResult}

theorem WellFormed.parents_lt (h : st.WellFormed) : ∀ c, ∀ p ∈ st.dag.parents c, p < c := by
  intro c p hp
  cases hr : st.commits[c]? with
  | none => simp [dag,Dag.parents,hr] at hp
  | some row =>
    rw [parents_of_row hr] at hp
    exact (h.older c row hr p hp).2

/-- `into` has the same map from URIs to contents as before. -/
def Keeps (st tx : SqliteVersionStore) (order : RowOrder) (scope : ContextUri) (into : BranchName)
    (intoHead : CommitId) : Prop :=
  ∃ head, tx.branchHead scope.canonical into = .ok head ∧
    tx.reconstructSnapshot order head = st.reconstructSnapshot order intoHead

theorem MergeMoves.branchHead {tx' : SqliteVersionStore} {new : CommitId}
    (h : MergeMoves st tx sc.canonical into.asStr intoHead new tx') : tx'.branchHead sc.canonical into = .ok new := by
  obtain ⟨b,row,-,-,-,-,rfl⟩ := h
  have hg : ((tx.moveBranch sc.canonical into.asStr b new).branches sc.canonical)[into.asStr]? =
      some { b with head := new } := by
    simp [moveBranch,SqliteVersionStore.setBranch]
  exact branchHead_of_branch hg

theorem MergeMoves.reconstructSnapshot {tx' : SqliteVersionStore} {sc into : String} {new : CommitId}
    (h : MergeMoves st tx sc into intoHead new tx') (ord : RowOrder) (id : CommitId) :
    tx'.reconstructSnapshot ord id = tx.reconstructSnapshot ord id := by
  obtain ⟨b,row,-,-,-,-,rfl⟩ := h
  exact reconstructSnapshot_congr rfl rfl rfl ord id

theorem keeps_iff_of_ancestor (ht : st.WellFormed) (hl : svc.KeepsGreater)
    (hf : st.branchHead sc.canonical from_ = .ok fromHead) (hn : st.branchHead sc.canonical into = .ok intoHead)
    (hr : Reaches st.dag.parents intoHead fromHead)
    (h : st.knowledgeMerge svc ord sc from_ into strat now = .ok (res, tx)) :
    Keeps st tx ord sc into intoHead ↔ fromHead = intoHead ∨
      Overrides (st.reconstructSnapshot ord intoHead) (clockOf (st.commitTimestamp intoHead)) into.asStr
        (st.reconstructSnapshot ord fromHead) (clockOf (st.commitTimestamp fromHead)) from_.asStr := by
  obtain ⟨fromHead',intoHead',hf',hn',hme⟩ := knowledgeMerge_ok h
  obtain rfl : fromHead = fromHead' := Except.ok.inj (hf.symm.trans hf')
  obtain rfl : intoHead = intoHead' := Except.ok.inj (hn.symm.trans hn')
  cases hme with
  | fastForward _ ha hm =>
    have hb := (Dag.isAncestor_iff _ _ _).mp ha
    have he : fromHead = intoHead :=
      Nat.le_antisymm (Dag.le_of_reaches ht.parents_lt hr) (Dag.le_of_reaches ht.parents_lt hb)
    refine iff_of_true ⟨fromHead,hm.branchHead,?_⟩ (.inl he)
    rw [hm.reconstructSnapshot,he]
  | diverged _ row snap conflicts ha hsn hp hs hpa hd hm =>
    have hne : fromHead ≠ intoHead := by
      rintro rfl
      simp [isAncestor,Dag.isAncestor_self] at ha
    have ho : from_.asStr ≠ into.asStr := by
      intro hna
      apply hne
      have hsa : st.branchHead sc.canonical from_ = st.branchHead sc.canonical into := by
        rw [MemoryVersionStore.asStr_inj hna]
      exact Except.ok.inj (hf.symm.trans (hsa.trans hn))
    have hw : (st.withCommit row).reconstructSnapshot ord st.nextId = snap :=
      reconstructSnapshot_new ht hp (by rw [hpa]; exact hd)
    rw [or_iff_right hne,← hl.merge_eq_iff ho,← hsn.1]
    constructor
    · intro hk
      obtain ⟨head,hh,hrd⟩ := hk
      obtain rfl : st.nextId = head := Except.ok.inj (hm.branchHead.symm.trans hh)
      rw [← hrd,hm.reconstructSnapshot,hw]
    · intro he
      exact ⟨st.nextId,hm.branchHead,by rw [hm.reconstructSnapshot,hw,he]⟩

end SqliteVersionStore

namespace MemoryVersionStore

variable {m m' : MemoryVersionStore} {svc : Services} {sc : ContextUri} {from_ into : BranchName}
  {strat : KnowledgeMergeStrategy} {now : DateTime} {fromHead intoHead : CommitId} {res : MergeResult}

def Older (m : MemoryVersionStore) : Prop :=
  ∀ (id : CommitId) (c : MemoryCommit), m.commits[id]? = some c → ∀ p ∈ c.parents, p < id

inductive Extends (m m' : MemoryVersionStore) : Prop
  | same (h : m'.commits = m.commits)
  | new (c : MemoryCommit) (hp : ∀ p ∈ c.parents, p < m.nextId) (h : m'.commits = m.commits.insert m.nextId c)

theorem Older.parents_lt (h : m.Older) : ∀ c, ∀ p ∈ m.dag.parents c, p < c := by
  intro c p hp
  cases hc : m.commits[c]? with
  | none => simp [dag,Dag.parents,hc] at hp
  | some commit => exact h c commit hc p (by simpa [dag,Dag.parents,hc] using hp)

theorem Extends.older (he : Extends m m') (h : m.Older) : m'.Older := by
  cases he with
  | same hc =>
    unfold Older
    rw [hc]
    exact h
  | new c hp hc =>
    intro id c' hg
    rw [hc,Std.ExtTreeMap.getElem?_insert] at hg
    split at hg
    · rename_i hq
      obtain rfl : m.nextId = id := by simpa using hq
      obtain rfl := Option.some.inj hg
      exact hp
    · exact h id c' hg

section Steps

variable (hm : m.RefsFresh)
include hm

theorem commit_extends {changes : ChangeSet} {metadata : CommitMeta} {id : CommitId}
    (h : m.commit sc changes metadata now = .ok (id, m')) : Extends m m' := by
  simp only [commit,bind_eq_ok,pure,Except.pure,Except.ok.injEq,Prod.mk.injEq] at h
  obtain ⟨snap,-,moved,ho,rfl,rfl⟩ := h
  have ha : m.SameMaps moved := by
    unfold advanceAttached at ho
    split at ho
    · obtain rfl := Except.ok.inj ho
      exact ⟨rfl,rfl,rfl⟩
    · split at ho
      · cases ho
      · split at ho
        · obtain rfl := Except.ok.inj ho
          exact ⟨rfl,rfl,rfl⟩
        · cases ho
  refine .new ⟨(m.heads[sc.canonical]?).toList, .ofTrigger metadata.trigger,now,metadata⟩ ?_ ?_
  · intro p hp
    exact hm.heads _ _ (by simpa using hp)
  · show moved.commits.insert moved.nextId _ = _
    rw [ha.commits,ha.nextId]

theorem merge_extends {mstrategy : MergeStrategy}
    (h : m.merge sc from_ into mstrategy now = .ok (res, m')) : Extends m m' := by
  have hn := h
  simp only [merge,bind_eq_ok] at hn
  obtain ⟨fromHead,hf,intoHead,hi,-⟩ := hn
  by_cases ha : m.isAncestor intoHead fromHead = true
  · rw [merge_ancestor mstrategy now hf hi ha] at h
    obtain ⟨-,rfl⟩ := Prod.mk.inj (Except.ok.inj h)
    exact .same (fastForward_sameMaps m _ _ _ _).commits
  · have ha : m.isAncestor intoHead fromHead = false := by simpa using ha
    by_cases hs : mstrategy = .fastForward
    · subst hs
      rw [merge_refused now hf hi ha] at h
      cases h
    · rw [merge_diverged now hf hi ha hs,map_eq_ok] at h
      obtain ⟨r,-,hr⟩ := h
      obtain ⟨-,rfl⟩ := Prod.mk.inj hr
      refine .new _ ?_ (mergeCommit_sameMaps m sc from_ into fromHead intoHead r.1 now).commits
      intro p hp
      rcases List.mem_pair.mp hp with rfl | rfl
      · exact hm.branchHead hi
      · exact hm.branchHead hf

theorem knowledgeMerge_extends (h : m.knowledgeMerge svc sc from_ into strat now = .ok (res, m')) :
    Extends m m' := by
  have hn := h
  simp only [knowledgeMerge,bind_eq_ok] at hn
  obtain ⟨fromHead,hf,intoHead,hi,-⟩ := hn
  by_cases ha : m.isAncestor intoHead fromHead = true
  · rw [knowledgeMerge_ancestor svc strat now hf hi ha] at h
    obtain ⟨-,rfl⟩ := Prod.mk.inj (Except.ok.inj h)
    exact .same (moveBranch_sameMaps m _ _ _).commits
  · rw [knowledgeMerge_diverged now hf hi (by simpa using ha),map_eq_ok] at h
    obtain ⟨conflicts,-,hr⟩ := h
    obtain ⟨-,rfl⟩ := Prod.mk.inj hr
    refine .new _ ?_ (knowledgeCommit_sameMaps m sc into fromHead intoHead _ now).commits
    intro p hp
    rcases List.mem_pair.mp hp with rfl | rfl
    · exact hm.branchHead hi
    · exact hm.branchHead hf

theorem cherryPick_extends {commit id : CommitId} {onto : BranchName} {cstrategy : ConflictStrategy}
    (h : m.cherryPick sc commit onto cstrategy now = .ok (id, m')) : Extends m m' := by
  unfold cherryPick at h
  dsimp only at h
  split at h
  · cases h
  · rename_i src hc
    simp only [bind_eq_ok,pure,Except.pure,Except.ok.injEq,Prod.mk.injEq] at h
    obtain ⟨-,-,rfl,rfl⟩ := h
    refine .new ⟨((m.getBranch sc.canonical onto).map (fun b : Branch => b.head)).elim [commit] (fun h => [h]),
      src.author,now,src.metadata⟩
      ?_ (moveBranch_sameMaps _ _ _ _).commits
    cases hb : m.getBranch sc.canonical onto with
    | none =>
      intro p hp
      obtain rfl : p = commit := by simpa [hb] using hp
      exact hm.commits _ (mem_of_getElem? hc)
    | some b =>
      intro p hp
      obtain rfl : p = b.head := by simpa [hb] using hp
      exact hm.branches _ _ b hb

theorem rebase_extends (br onto : BranchName) (cstrategy : ConflictStrategy) (now : DateTime) :
    Extends m (m.rebase sc br onto cstrategy now).2 := by
  unfold rebase
  dsimp only
  split
  · exact .same rfl
  · exact .same rfl
  · split
    · exact .same rfl
    · rename_i newTip tx hi
      have ht := cherryPick_extends hm hi
      split
      · exact ht
      · split
        · exact ht
        · cases ht with
          | same h => exact .same ((followHead_sameMaps _ _ _ _).commits.trans h)
          | new c hp h => exact .new c hp ((followHead_sameMaps _ _ _ _).commits.trans h)

theorem squash_extends {commits : List CommitId} {sres : SquashResult} (ho : m.Older)
    (h : m.squash sc commits now = .ok (sres, m')) : Extends m m' := by
  obtain ⟨oldest,nw,hq⟩ := squash_ok h
  rw [squash_isOk now hq] at h
  obtain ⟨-,rfl⟩ := Prod.mk.inj (Except.ok.inj h)
  refine .new _ ?_ (squashed_sameMaps m sc.canonical oldest nw now).commits
  intro p hp
  have hl := ho.parents_lt oldest p (List.mem_of_mem_head? (by simpa [Dag.firstParent] using hp))
  exact hl.trans (hm.commits oldest (hq.stored oldest (List.mem_of_mem_head? hq.first)))

theorem step_older (svc : Services) (op : SqliteOp) (h : m.Older) : (m.step svc op).Older := by
  cases op with
  | commit sc changes metadata now => exact afterTx_cases h (fun _ _ ho => (commit_extends hm ho).older h)
  | createBranch sc name from_ bt now =>
    refine afterTx_cases h (fun b m' ho => ?_)
    simp only [createBranch,bind_eq_ok,pure,Except.pure,Except.ok.injEq,Prod.mk.injEq] at ho
    obtain ⟨-,-,-,-,-,rfl⟩ := ho
    exact h
  | deleteBranch sc name =>
    refine afterTx_cases h (fun u m' ho => ?_)
    simp only [deleteBranch,bind_eq_ok,pure,Except.pure,Except.ok.injEq,Prod.mk.injEq] at ho
    obtain ⟨-,-,-,rfl⟩ := ho
    exact h
  | switchHead sc br =>
    refine afterTx_cases h (fun u m' ho => ?_)
    simp only [switchHead,bind_eq_ok,pure,Except.pure,Except.ok.injEq,Prod.mk.injEq] at ho
    obtain ⟨head,-,-,rfl⟩ := ho
    exact h
  | createTag sc tag => exact h
  | merge ord sc from_ into strat now => exact afterTx_cases h (fun _ _ ho => (merge_extends hm ho).older h)
  | knowledgeMerge ord sc from_ into strat now =>
    exact afterTx_cases h (fun _ _ ho => (knowledgeMerge_extends hm ho).older h)
  | cherryPick ord sc commit onto strat now =>
    exact afterTx_cases h (fun _ _ ho => (cherryPick_extends hm ho).older h)
  | rebase ord sc br onto strat clk => exact (rebase_extends hm br onto strat _).older h
  | squash ord sc commits message now => exact afterTx_cases h (fun _ _ ho => (squash_extends hm h ho).older h)
  | continueConflictSession ord ses resolutions clk => exact h
  | gc recentScan victimScan sc pol now =>
    intro id c hg
    have hg : ((m.gcVictims sc pol).foldl (fun commits v => commits.erase v) m.commits)[id]? = some c := hg
    rw [getElem?_foldl_erase] at hg
    split at hg
    · cases hg
    · exact h id c hg
  | remember ord id => exact h
  | evict id => exact h

end Steps

theorem run_older (svc : Services) (ops : List SqliteOp) : (run (step svc) empty ops).Older := by
  have hi : (run (step svc) empty ops).RefsFresh ∧ (run (step svc) empty ops).Older :=
    @run_preserves _ _ (step svc) (fun m => m.RefsFresh ∧ m.Older)
      (fun m op h => ⟨step_refsFresh svc op h.1,step_older h.1 svc op h.2⟩) empty
      ⟨refsFresh_empty,by simp [Older,empty]⟩ ops
  exact hi.2

/-- `into` has the same map from URIs to contents as before. -/
def Keeps (m m' : MemoryVersionStore) (scope : ContextUri) (into : BranchName) (intoHead : CommitId) : Prop :=
  ∃ head, m'.branchHead scope.canonical into = .ok head ∧ m'.snapshot head = m.snapshot intoHead

def commitClock (m : MemoryVersionStore) (id : CommitId) : ℕ := clockOf ((m.commits[id]?).map (fun c => c.timestamp))

theorem branchHead_moveBranch {id head : CommitId} (h : m.branchHead sc.canonical into = .ok id) :
    (m.moveBranch sc.canonical into head).branchHead sc.canonical into = .ok head := by
  unfold MemoryVersionStore.branchHead at h
  split at h
  · rename_i b hb
    have ho := @branch_moveBranch sc.canonical into head m b hb
    obtain ⟨b',hb',rfl⟩ := Option.map_eq_some_iff.mp ho
    simp [MemoryVersionStore.branchHead,getBranch,hb']
  · cases h

theorem keeps_iff_of_ancestor (hm : m.Older) (hl : svc.KeepsGreater)
    (hf : m.branchHead sc.canonical from_ = .ok fromHead) (hn : m.branchHead sc.canonical into = .ok intoHead)
    (hc : Reaches m.dag.parents intoHead fromHead)
    (h : m.knowledgeMerge svc sc from_ into strat now = .ok (res, m')) :
    Keeps m m' sc into intoHead ↔ fromHead = intoHead ∨
      Overrides (m.snapshot intoHead) (m.commitClock intoHead) into.asStr
        (m.snapshot fromHead) (m.commitClock fromHead) from_.asStr := by
  by_cases ha : m.isAncestor intoHead fromHead = true
  · have hb := (Dag.isAncestor_iff _ _ _).mp ha
    have he : fromHead = intoHead :=
      Nat.le_antisymm (Dag.le_of_reaches hm.parents_lt hc) (Dag.le_of_reaches hm.parents_lt hb)
    rw [knowledgeMerge_ancestor svc strat now hf hn ha] at h
    obtain ⟨-,rfl⟩ := Prod.mk.inj (Except.ok.inj h)
    refine iff_of_true ⟨fromHead,branchHead_moveBranch hn,?_⟩ (.inl he)
    rw [he,MemoryVersionStore.snapshot,(moveBranch_sameMaps m _ _ _).entrySnapshots]
    rfl
  · have hne : fromHead ≠ intoHead := by
      rintro rfl
      exact ha (Dag.isAncestor_self _ _)
    have ho : from_.asStr ≠ into.asStr := by
      intro hna
      apply hne
      have hs : m.branchHead sc.canonical from_ = m.branchHead sc.canonical into := by rw [asStr_inj hna]
      exact Except.ok.inj (hf.symm.trans (hs.trans hn))
    rw [knowledgeMerge_diverged now hf hn (by simpa using ha),map_eq_ok] at h
    obtain ⟨conflicts,-,hr⟩ := h
    obtain ⟨-,rfl⟩ := Prod.mk.inj hr
    rw [or_iff_right hne,← hl.merge_eq_iff ho]
    show _ ↔ m.lwwSnapshot svc from_ into fromHead intoHead = _
    generalize m.lwwSnapshot svc from_ into fromHead intoHead = snap
    have hh : (m.knowledgeCommit sc into fromHead intoHead snap now).branchHead sc.canonical into = .ok m.nextId :=
      @branchHead_moveBranch (m.insertCommit _ snap) sc into intoHead m.nextId hn
    have hre : (m.knowledgeCommit sc into fromHead intoHead snap now).snapshot m.nextId = snap := by
      rw [MemoryVersionStore.snapshot,(knowledgeCommit_sameMaps m sc into fromHead intoHead snap now).entrySnapshots]
      simp [MemoryVersionStore.insertCommit]
    constructor
    · intro hk
      obtain ⟨head,hh',hs⟩ := hk
      obtain rfl : m.nextId = head := Except.ok.inj (hh.symm.trans hh')
      rw [← hs,hre]
    · intro he
      exact ⟨m.nextId,hh,hre.trans he⟩

end MemoryVersionStore

/-- Where the head of one branch is in the history of the other, a knowledge merge into the latter keeps what it has exactly
if the heads are one commit, or what it has overrides the older snapshot. -/
theorem knowledgeMerge_keeps_iff (services : Services) (hlww : services.KeepsGreater)
    (ops : List SqliteOp) (order : RowOrder) (scope : ContextUri) (from_ into : BranchName)
    (strategy : KnowledgeMergeStrategy) (now : DateTime) (fromHead intoHead : CommitId) (res : MergeResult) :
    (∀ tx, let st := run (SqliteVersionStore.step services) .empty ops
      st.branchHead scope.canonical from_ = .ok fromHead → st.branchHead scope.canonical into = .ok intoHead →
      Reaches st.dag.parents intoHead fromHead →
        st.knowledgeMerge services order scope from_ into strategy now = .ok (res, tx) →
      (st.Keeps tx order scope into intoHead ↔ fromHead = intoHead ∨
        Overrides (st.reconstructSnapshot order intoHead) (clockOf (st.commitTimestamp intoHead)) into.asStr
          (st.reconstructSnapshot order fromHead) (clockOf (st.commitTimestamp fromHead)) from_.asStr)) ∧
    (∀ m', let m := run (MemoryVersionStore.step services) .empty ops
      m.branchHead scope.canonical from_ = .ok fromHead → m.branchHead scope.canonical into = .ok intoHead →
      Reaches m.dag.parents intoHead fromHead → m.knowledgeMerge services scope from_ into strategy now = .ok (res, m') →
      (m.Keeps m' scope into intoHead ↔ fromHead = intoHead ∨
        Overrides (m.snapshot intoHead) (m.commitClock intoHead) into.asStr
          (m.snapshot fromHead) (m.commitClock fromHead) from_.asStr)) := by
  constructor
  · intro tx st hf hn hr h
    exact SqliteVersionStore.keeps_iff_of_ancestor
      (SqliteVersionStore.run_wellFormed services ops) hlww hf hn hr h
  · intro m' m hf hn hr h
    exact MemoryVersionStore.keeps_iff_of_ancestor (MemoryVersionStore.run_older services ops) hlww hf hn hr h

section Sample

open SqliteVersionStore (sampleScope sampleEntry addSample mainBranch devBranch)

def lwwServices : Services :=
  ⟨fun theirs clock node ours clock' node' =>
    if Wins clock node clock' node' then ours ∪ theirs else theirs ∪ ours, some (fun _ _ _ => .ok [])⟩

theorem lwwServices_keepsGreater : lwwServices.KeepsGreater := by
  intro theirs ours clk clk' node node' u
  constructor
  · intro hw
    show (if _ then _ else _ : Snapshot)[u]? = _
    rw [if_pos hw,Std.ExtTreeMap.getElem?_union]
  · intro hw
    show (if _ then _ else _ : Snapshot)[u]? = _
    rw [if_neg hw.asymm,Std.ExtTreeMap.getElem?_union]

/-- One entry on two branches, then a change to it on `main`. -/
def changedOn (changes : ChangeSet) (now : DateTime) : List SqliteOp :=
  [addSample, .createBranch sampleScope mainBranch 0 .main 0, .createBranch sampleScope devBranch 0 .experiment 0,
    .switchHead sampleScope mainBranch, .commit sampleScope changes .empty now]

def updatedOps : List SqliteOp := changedOn ⟨[sampleEntry "a" "two"], [], [], []⟩ 1000000000

theorem knowledgeMerge_keeps_updated :
    (∃ tx, (run (SqliteVersionStore.step lwwServices) .empty updatedOps).knowledgeMerge lwwServices .asStored sampleScope
      devBranch mainBranch ⟨0⟩ 2000000000 = .ok (⟨2, []⟩, tx) ∧
      (run (SqliteVersionStore.step lwwServices) .empty updatedOps).Keeps tx .asStored sampleScope mainBranch 1) ∧
    (∃ m', (run (MemoryVersionStore.step lwwServices) .empty updatedOps).knowledgeMerge lwwServices sampleScope
      devBranch mainBranch ⟨0⟩ 2000000000 = .ok (⟨2, []⟩, m') ∧
      (run (MemoryVersionStore.step lwwServices) .empty updatedOps).Keeps m' sampleScope mainBranch 1) := by
  have h := knowledgeMerge_keeps_iff lwwServices lwwServices_keepsGreater updatedOps .asStored sampleScope
    devBranch mainBranch
    ⟨0⟩ 2000000000 0 1 ⟨2, []⟩
  constructor
  · refine ⟨_, rfl, (h.1 _ rfl rfl ((Dag.isAncestor_iff _ _ _).mp (by decide +kernel)) rfl).mpr (.inr ?_)⟩
    intro uri v hv
    have hk : ((run (SqliteVersionStore.step lwwServices) .empty updatedOps).reconstructSnapshot .asStored 0).keys.all
        (fun uri => uri ∈ (run (SqliteVersionStore.step lwwServices) .empty updatedOps).reconstructSnapshot
          .asStored 1) = true := by
      decide +kernel
    refine .inr ⟨?_, .inl (by decide +kernel)⟩
    simpa using List.all_eq_true.mp hk uri (Std.ExtTreeMap.mem_keys.mpr (mem_of_getElem? hv))
  · refine ⟨_, rfl, (h.2 _ rfl rfl ((Dag.isAncestor_iff _ _ _).mp (by decide +kernel)) rfl).mpr (.inr ?_)⟩
    intro uri v hv
    have hk : ((run (MemoryVersionStore.step lwwServices) .empty updatedOps).snapshot 0).keys.all
        (fun uri => uri ∈ (run (MemoryVersionStore.step lwwServices) .empty updatedOps).snapshot 1) = true := by
      decide +kernel
    refine .inr ⟨?_, .inl (by decide +kernel)⟩
    simpa using List.all_eq_true.mp hk uri (Std.ExtTreeMap.mem_keys.mpr (mem_of_getElem? hv))

def deletedOps : List SqliteOp := changedOn ⟨[], [], [sampleScope.join "a"], []⟩ 1000000000

/-- What `main` deleted, the merge of the older `dev` brings back. -/
theorem knowledgeMerge_resurrects :
    Reaches (run (SqliteVersionStore.step lwwServices) .empty deletedOps).dag.parents 1 0 ∧
    (∃ tx, (run (SqliteVersionStore.step lwwServices) .empty deletedOps).knowledgeMerge lwwServices .asStored sampleScope
      devBranch mainBranch ⟨0⟩ 2000000000 = .ok (⟨2, []⟩, tx) ∧
      ¬ (run (SqliteVersionStore.step lwwServices) .empty deletedOps).Keeps tx .asStored sampleScope mainBranch 1) ∧
    (∃ m', (run (MemoryVersionStore.step lwwServices) .empty deletedOps).knowledgeMerge lwwServices sampleScope
      devBranch mainBranch ⟨0⟩ 2000000000 = .ok (⟨2, []⟩, m') ∧
      ¬ (run (MemoryVersionStore.step lwwServices) .empty deletedOps).Keeps m' sampleScope mainBranch 1) := by
  refine ⟨(Dag.isAncestor_iff _ _ _).mp (by decide +kernel), ⟨_, rfl, ?_⟩, ⟨_, rfl, ?_⟩⟩
  · intro hk
    obtain ⟨head, hh, hr⟩ := hk
    obtain rfl : 2 = head := Except.ok.inj hh
    have he := congrArg (fun snap : Snapshot => decide ((sampleScope.join "a").canonical ∈ snap)) hr
    exact absurd he (by decide +kernel)
  · intro hk
    obtain ⟨head, hh, hr⟩ := hk
    obtain rfl : 2 = head := Except.ok.inj hh
    have he := congrArg (fun snap : Snapshot => decide ((sampleScope.join "a").canonical ∈ snap)) hr
    exact absurd he (by decide +kernel)

end Sample

end UwuContextDb.Version
