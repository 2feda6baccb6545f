import UwuContextDb.Version.AgreementSteps

/-! Merges in the two stores: what each returns, and when they move the same references. -/

namespace UwuContextDb.Version

open MapEdit StateMachine ThreeWay
open SqliteVersionStore (Parses)

variable {conflict : Bool}

section Snapshots

variable {pick : Option Json → Option Json → Option Json → Option Json × Bool} {invalid invalid' : String → VersionError}
  {base ours theirs merged : Snapshot} {keys : List String}

variable {u : String} {strategy : MergeStrategy}

theorem conflictUri_isOk :
    (∃ us, conflictUri invalid u conflict = .ok us) ↔ (conflict = true → Parses u) := by
  cases conflict with
  | false => simp [conflictUri]
  | true =>
    unfold Parses
    cases hp : ContextUri.parse u <;> simp [conflictUri,hp,Except.toOption]

theorem conflictUri_ok_congr {us : List ContextUri} :
    conflictUri invalid u conflict = .ok us ↔ conflictUri invalid' u conflict = .ok us := by
  cases conflict with
  | false => rfl
  | true => cases hp : ContextUri.parse u <;> simp [conflictUri,hp]

theorem mergeSnapshots_cons (u : String) : mergeSnapshots pick invalid base ours theirs (u::keys) merged =
    (conflictUri invalid u (pick base[u]? ours[u]? theirs[u]?).2 >>= fun conflicted =>
      (mergeSnapshots pick invalid base ours theirs keys
        (setValue merged u (pick base[u]? ours[u]? theirs[u]?).1)).map (fun r => (r.1, conflicted++r.2))) := by
  cases hp : pick base[u]? ours[u]? theirs[u]? with
  | mk v conflict =>
    simp only [mergeSnapshots,hp]
    cases conflictUri invalid u conflict with
    | error e => rfl
    | ok us => cases mergeSnapshots pick invalid base ours theirs keys (setValue merged u v) <;> rfl

theorem mergeSnapshots_ok_congr {r : Snapshot × List ContextUri} :
    mergeSnapshots pick invalid base ours theirs keys merged = .ok r ↔
      mergeSnapshots pick invalid' base ours theirs keys merged = .ok r := by
  induction keys generalizing merged r with
  | nil => rfl
  | cons u keys ih =>
    simp only [mergeSnapshots_cons,bind_eq_ok,map_eq_ok]
    constructor
    · rintro ⟨us,hu,a,ha,rfl⟩
      exact ⟨us,conflictUri_ok_congr.mp hu,a,ih.mp ha,rfl⟩
    · rintro ⟨us,hu,a,ha,rfl⟩
      exact ⟨us,conflictUri_ok_congr.mp hu,a,ih.mpr ha,rfl⟩

theorem mergeSnapshots_isOk : (∃ r, mergeSnapshots pick invalid base ours theirs keys merged = .ok r) ↔
    ∀ uri ∈ keys, (pick base[uri]? ours[uri]? theirs[uri]?).2 = true → Parses uri := by
  induction keys generalizing merged with
  | nil => simp [mergeSnapshots]
  | cons uri keys ih =>
    simp only [mergeSnapshots_cons,bind_eq_ok,map_eq_ok,List.forall_mem_cons]
    constructor
    · rintro ⟨r,us,hu,a,ha,-⟩
      exact ⟨conflictUri_isOk.mp ⟨us,hu⟩,ih.mp ⟨a,ha⟩⟩
    · rintro ⟨hp,hr⟩
      have hc : ∃ us, conflictUri invalid uri (pick base[uri]? ours[uri]? theirs[uri]?).2 = .ok us :=
        conflictUri_isOk.mpr hp
      obtain ⟨us,hu⟩ := hc
      obtain ⟨a,ha⟩ := ih.mpr hr
      exact ⟨_,us,hu,a,ha,rfl⟩

theorem mergeUri_conflict {b o t : Option Json} :
    (SqliteVersionStore.mergeUri strategy b o t).2 = true ↔ strategy = .threeWay ∧ Conflict b o t := by
  unfold SqliteVersionStore.mergeUri Conflict
  by_cases ht : t = b
  · simp [ht]
  · by_cases ho : o = b ∨ o = t
    · simp only [ht,ho,if_true,if_false,Bool.false_eq_true,false_iff]
      tauto
    · cases strategy <;> simp [ht,ho]
      tauto

theorem mergeUri_eq (h : strategy ≠ .fastForward) :
    MemoryVersionStore.mergeUri strategy = SqliteVersionStore.mergeUri strategy := by
  funext b o t
  cases strategy with
  | fastForward => exact absurd rfl h
  | _ => rfl

theorem mem_mergeKeys_of_conflict (h : Conflict base[u]? ours[u]? theirs[u]?) :
    u ∈ mergeKeys base ours theirs := by
  have hm : u ∈ base ∨ u ∈ theirs := by
    by_contra hn
    push Not at hn
    exact h.1 (by simp [hn.1,hn.2])
  simp only [mergeKeys,List.mem_dedup,List.mem_append,Std.ExtTreeMap.mem_keys]
  exact .inl hm

theorem mergeSnapshots_mergeUri_isOk {strategy : MergeStrategy} :
    (∃ r, mergeSnapshots (SqliteVersionStore.mergeUri strategy) invalid base ours theirs (mergeKeys base ours theirs) ours =
      .ok r) ↔ ¬ (strategy = .threeWay ∧ ∃ u : String, Conflict base[u]? ours[u]? theirs[u]? ∧ ¬ Parses u) := by
  rw [mergeSnapshots_isOk]
  simp only [mergeUri_conflict]
  constructor
  · rintro h ⟨hs,u,hc,hn⟩
    exact hn (h u (mem_mergeKeys_of_conflict hc) ⟨hs,hc⟩)
  · intro h u _ hc
    by_contra hn
    exact h ⟨hc.1,u,hc.2,hn⟩

end Snapshots

variable {e : VersionError} {snap : Snapshot} {conflicts : List ContextUri}

namespace SqliteVersionStore

variable {s tx : SqliteVersionStore} {scope : String} {into : BranchName} {b : Branch}

/-- `into` and HEAD set to `new`; HEAD stays on the branch it is attached to. -/
def moved (s : SqliteVersionStore) (scope into : String) (b : Branch) (new : CommitId) : SqliteVersionStore :=
  (s.moveBranch scope into b new).setHead scope ⟨new, s.attachedBranch scope⟩

theorem updateBranchHead_eq (hb : (tx.branches scope)[into.asStr]? = some b) (new : CommitId) :
    tx.updateBranchHead scope into b.head new = .ok (tx.moveBranch scope into.asStr b new) := by
  simp [updateBranchHead,casBranch,hb,moveBranch]

theorem advanceHead_eq (tx : SqliteVersionStore) (scope : String) (expected new : CommitId) (during : String) :
    tx.advanceHead scope expected new during = if tx.getHead scope = some expected
      then .ok (tx.setHead scope ⟨new,tx.attachedBranch scope⟩)
      else .error (.storage s!"HEAD changed concurrently during {during}") := by
  unfold advanceHead casHead getHead attachedBranch
  cases hh : tx.heads[scope]? with
  | none => simp
  | some row => by_cases hc : row.commit = expected <;> simp [hc]

theorem insertCommit_isOk (scope : String) {parents : List CommitId} (author : Author) (message : String) (now : DateTime)
    (metadata : CommitMeta) (deltas : List DeltaRow) (hp : ∀ p ∈ parents, p ∈ s.commits) (hn : parents.Nodup) :
    ∃ row : CommitRow, row.scope = scope ∧ row.parents = parents ∧ row.timestamp = now ∧
      row.deltas = insertDeltas deltas ∧
      s.insertCommit scope parents author message now metadata deltas = .ok (s.nextId, s.withCommit row) := by
  have hp' : ¬ ∃ p ∈ parents, p ∉ s.commits := by simpa using hp
  have hi : s.insertCommit scope parents author message now metadata deltas = .ok (s.nextId, s.withCommit
      ⟨scope,parents,s!"tree-{s.nextId}",author,message,now,metadata,insertDeltas deltas⟩) := by
    simp [insertCommit,hp',hn,withCommit]
  exact ⟨_,rfl,rfl,rfl,rfl,hi⟩

theorem fastForward_eq (hb : (s.branches scope)[into.asStr]? = some b) (fromHead : CommitId) :
    s.fastForward scope into b.head fromHead = if s.getHead scope = some b.head
      then .ok (⟨fromHead,[]⟩, s.moved scope into.asStr b fromHead)
      else .error (.storage "HEAD changed concurrently during merge") := by
  have hh : (s.moveBranch scope into.asStr b fromHead).getHead scope = s.getHead scope := rfl
  simp only [fastForward,updateBranchHead_eq hb,advanceHead_eq,hh,bind,Except.bind]
  by_cases hc : s.getHead scope = some b.head <;> simp only [hc,if_true,if_false] <;> rfl

theorem mergeCommit_eq (hb : (s.branches scope)[into.asStr]? = some b) (row : CommitRow) (during : String)
    (conflicts : List ContextUri) :
    ((s.withCommit row).updateBranchHead scope into b.head s.nextId >>= fun tx =>
      tx.advanceHead scope b.head s.nextId during >>= fun tx => pure ((⟨s.nextId,conflicts⟩ : MergeResult), tx)) =
      if s.getHead scope = some b.head
        then .ok (⟨s.nextId,conflicts⟩, (s.withCommit row).moved scope into.asStr b s.nextId)
        else .error (.storage s!"HEAD changed concurrently during {during}") := by
  have hb' : ((s.withCommit row).branches scope)[into.asStr]? = some b := hb
  have hh : ((s.withCommit row).moveBranch scope into.asStr b s.nextId).getHead scope = s.getHead scope := rfl
  simp only [updateBranchHead_eq hb',advanceHead_eq,hh,bind,Except.bind]
  by_cases hc : s.getHead scope = some b.head
  · simp only [hc,if_true]
    rfl
  · simp only [hc,if_false]

/-- The three-way merge of `merge`. -/
def mergedSnapshot (s : SqliteVersionStore) (order : RowOrder) (strategy : MergeStrategy) (fromHead intoHead : CommitId) :
    Except VersionError (Snapshot × List ContextUri) :=
  let base := s.baseSnapshot order (s.mergeBase fromHead intoHead)
  let ours := s.reconstructSnapshot order intoHead
  let theirs := s.reconstructSnapshot order fromHead
  mergeSnapshots (mergeUri strategy) invalidUri base ours theirs (mergeKeys base ours theirs) ours

section Merge

variable {ord : RowOrder} {scope : ContextUri} {from_ : BranchName} {strategy : MergeStrategy} {fromHead : CommitId}

theorem branchHead_of_branch {scope : String} (hb : (s.branches scope)[into.asStr]? = some b) :
    s.branchHead scope into = .ok b.head := by
  simp [branchHead,getBranch,hb]

theorem merge_ancestor (ord : RowOrder) (strategy : MergeStrategy) (now : DateTime)
    (hf : s.branchHead scope.canonical from_ = .ok fromHead)
    (hb : (s.branches scope.canonical)[into.asStr]? = some b) (ha : s.isAncestor b.head fromHead = true) :
    s.merge ord scope from_ into strategy now = if s.getHead scope.canonical = some b.head
      then .ok (⟨fromHead,[]⟩, s.moved scope.canonical into.asStr b fromHead)
      else .error (.storage "HEAD changed concurrently during merge") := by
  simp only [merge,hf,branchHead_of_branch hb,ha,bind,Except.bind,if_true]
  exact fastForward_eq hb fromHead

theorem merge_error (now : DateTime) (hf : s.branchHead scope.canonical from_ = .ok fromHead)
    (hb : (s.branches scope.canonical)[into.asStr]? = some b) (ha : s.isAncestor b.head fromHead = false)
    (hm : s.mergedSnapshot ord strategy fromHead b.head = .error e) :
    s.merge ord scope from_ into strategy now = .error e := by
  simp only [mergedSnapshot] at hm
  simp only [merge,hf,branchHead_of_branch hb,ha,hm,bind,Except.bind,Bool.false_eq_true,if_false]

theorem merge_diverged (now : DateTime)
    (hf : s.branchHead scope.canonical from_ = .ok fromHead) (hfm : fromHead ∈ s.commits) (hbm : b.head ∈ s.commits)
    (hb : (s.branches scope.canonical)[into.asStr]? = some b) (ha : s.isAncestor b.head fromHead = false)
    (hm : s.mergedSnapshot ord strategy fromHead b.head = .ok (snap, conflicts)) :
    ∃ row : CommitRow, row.scope = scope.canonical ∧ row.parents = [b.head,fromHead] ∧ row.timestamp = now ∧
      row.deltas = insertDeltas (diffSnapshots (s.reconstructSnapshot ord b.head) snap) ∧
      s.merge ord scope from_ into strategy now = if s.getHead scope.canonical = some b.head
        then .ok (⟨s.nextId,conflicts⟩, (s.withCommit row).moved scope.canonical into.asStr b s.nextId)
        else .error (.storage "HEAD changed concurrently during merge") := by
  have hn : b.head ≠ fromHead := by
    rintro he
    simp [he,isAncestor,Dag.isAncestor_self] at ha
  have ho : ∀ p ∈ [b.head,fromHead], p ∈ s.commits := by simp [hfm,hbm]
  obtain ⟨row,hs,hp,ht,hd,hi⟩ := insertCommit_isOk scope.canonical Author.ofSystem
    s!"merge {into.asStr} <- {from_.asStr} conflicts={conflicts.length}" now .empty
    (diffSnapshots (s.reconstructSnapshot ord b.head) snap) ho (by simp [hn])
  refine ⟨row,hs,hp,ht,hd,?_⟩
  simp only [mergedSnapshot] at hm
  simp only [merge,hf,branchHead_of_branch hb,ha,hm,hi,bind,Except.bind,Bool.false_eq_true,if_false]
  exact mergeCommit_eq hb row "merge" conflicts

end Merge

section KnowledgeMerge

variable {ord : RowOrder} {scope : ContextUri} {from_ : BranchName} {svc : Services}
  {strategy : KnowledgeMergeStrategy} {fromHead : CommitId}

/-- The last-writer-wins merge of `knowledge_merge`. -/
def lwwSnapshot (s : SqliteVersionStore) (services : Services) (order : RowOrder) (from_ into : BranchName)
    (fromHead intoHead : CommitId) : Snapshot :=
  services.lwwMerge (s.reconstructSnapshot order fromHead) (clockOf (s.commitTimestamp fromHead)) from_.asStr
    (s.reconstructSnapshot order intoHead) (clockOf (s.commitTimestamp intoHead)) into.asStr

theorem knowledgeMerge_ancestor (svc : Services) (ord : RowOrder) (strategy : KnowledgeMergeStrategy)
    (now : DateTime) (hf : s.branchHead scope.canonical from_ = .ok fromHead)
    (hb : (s.branches scope.canonical)[into.asStr]? = some b) (ha : s.isAncestor b.head fromHead = true) :
    s.knowledgeMerge svc ord scope from_ into strategy now = if s.getHead scope.canonical = some b.head
      then .ok (⟨fromHead,[]⟩, s.moved scope.canonical into.asStr b fromHead)
      else .error (.storage "HEAD changed concurrently during merge") := by
  simp only [knowledgeMerge,hf,branchHead_of_branch hb,ha,bind,Except.bind,if_true]
  exact fastForward_eq hb fromHead

theorem knowledgeMerge_error (now : DateTime) (hf : s.branchHead scope.canonical from_ = .ok fromHead)
    (hb : (s.branches scope.canonical)[into.asStr]? = some b) (ha : s.isAncestor b.head fromHead = false)
    (hd : svc.detect strategy (s.reconstructSnapshot ord fromHead) (s.reconstructSnapshot ord b.head) = .error e) :
    s.knowledgeMerge svc ord scope from_ into strategy now = .error e := by
  simp only [knowledgeMerge,hf,branchHead_of_branch hb,ha,hd,bind,Except.bind,Bool.false_eq_true,if_false]

theorem knowledgeMerge_diverged (now : DateTime)
    (hf : s.branchHead scope.canonical from_ = .ok fromHead) (hm : fromHead ∈ s.commits) (hbm : b.head ∈ s.commits)
    (hb : (s.branches scope.canonical)[into.asStr]? = some b) (ha : s.isAncestor b.head fromHead = false)
    (he : svc.detect strategy (s.reconstructSnapshot ord fromHead) (s.reconstructSnapshot ord b.head) =
      .ok conflicts) :
    ∃ row : CommitRow, row.scope = scope.canonical ∧ row.parents = [b.head,fromHead] ∧ row.timestamp = now ∧
      row.deltas = insertDeltas (diffSnapshots (s.reconstructSnapshot ord b.head)
        (s.lwwSnapshot svc ord from_ into fromHead b.head)) ∧
      s.knowledgeMerge svc ord scope from_ into strategy now = if s.getHead scope.canonical = some b.head
        then .ok (⟨s.nextId,conflicts⟩, (s.withCommit row).moved scope.canonical into.asStr b s.nextId)
        else .error (.storage "HEAD changed concurrently during rewrite") := by
  have hn : b.head ≠ fromHead := by
    rintro hq
    simp [hq,isAncestor,Dag.isAncestor_self] at ha
  have ho : ∀ p ∈ [b.head,fromHead], p ∈ s.commits := by simp [hm,hbm]
  obtain ⟨row,hs,hp,ht,hd,hi⟩ := insertCommit_isOk scope.canonical Author.ofSystem
    s!"knowledge_merge {into.asStr} <- {from_.asStr} conflicts={conflicts.length}" now .empty
    (diffSnapshots (s.reconstructSnapshot ord b.head) (s.lwwSnapshot svc ord from_ into fromHead b.head))
    ho (by simp [hn])
  refine ⟨row,hs,hp,ht,hd,?_⟩
  simp only [lwwSnapshot] at hi
  simp only [knowledgeMerge,hf,branchHead_of_branch hb,ha,he,hi,bind,Except.bind,Bool.false_eq_true,if_false]
  exact mergeCommit_eq hb row "rewrite" conflicts

end KnowledgeMerge

end SqliteVersionStore

namespace MemoryVersionStore

variable {m : MemoryVersionStore} {scope : ContextUri} {from_ into : BranchName} {strategy : MergeStrategy}
  {fromHead nh : CommitId}

/-- The three-way merge of `merge`. -/
def mergedSnapshot (m : MemoryVersionStore) (strategy : MergeStrategy) (fromHead intoHead : CommitId) :
    Except VersionError (Snapshot × List ContextUri) :=
  let base := m.optSnapshot (m.mergeBase fromHead intoHead)
  let ours := m.snapshot intoHead
  let theirs := m.snapshot fromHead
  mergeSnapshots (mergeUri strategy) invalidUri base ours theirs (mergeKeys base ours theirs) ours

/-- The commit of a diverged merge, and `into` moved to it. -/
def mergeCommit (m : MemoryVersionStore) (scope : ContextUri) (from_ into : BranchName) (fromHead intoHead : CommitId)
    (snap : Snapshot) (now : DateTime) : MemoryVersionStore :=
  (m.insertCommit ⟨[intoHead, fromHead], .ofSystem, now, ⟨.merge [from_, into], .empty, []⟩⟩ snap).moveBranch
    scope.canonical into m.nextId

theorem merge_ancestor (strategy : MergeStrategy) (now : DateTime) (hf : m.branchHead scope.canonical from_ = .ok fromHead)
    (hi : m.branchHead scope.canonical into = .ok nh) (ha : m.isAncestor nh fromHead = true) :
    m.merge scope from_ into strategy now =
    .ok (m.fastForward scope.canonical into fromHead (strategy = .fastForward)) := by
  simp only [merge,hf,hi,ha,bind,Except.bind,if_true]
  rfl

theorem merge_refused (now : DateTime) (hf : m.branchHead scope.canonical from_ = .ok fromHead)
    (hi : m.branchHead scope.canonical into = .ok nh) (ha : m.isAncestor nh fromHead = false) :
    m.merge scope from_ into .fastForward now = .error (.mergeConflict "cannot fast-forward: branches have diverged") := by
  simp [merge,hf,hi,ha,ensure,bind,Except.bind]

theorem merge_diverged (now : DateTime) (hf : m.branchHead scope.canonical from_ = .ok fromHead)
    (hi : m.branchHead scope.canonical into = .ok nh) (ha : m.isAncestor nh fromHead = false)
    (hs : strategy ≠ .fastForward) : m.merge scope from_ into strategy now =
      (m.mergedSnapshot strategy fromHead nh).map (fun r => (⟨m.nextId,r.2⟩,
        (m.mergeCommit scope from_ into fromHead nh r.1 now).followHead scope.canonical into m.nextId)) := by
  simp only [merge,mergedSnapshot,hf,hi,ha,hs,ensure,bind,Except.bind,Bool.false_eq_true,if_false,ne_eq,
    not_false_eq_true,decide_true,if_true]
  split
  · rename_i e he
    rw [he]
    rfl
  · rename_i r hr
    rw [hr]
    rfl

theorem fastForward_sameMaps (m : MemoryVersionStore) (scope : String) (into : BranchName) (fromHead : CommitId)
    (activate : Bool) : m.SameMaps (m.fastForward scope into fromHead activate).2 := by
  refine SameMaps.trans ?_ (followHead_sameMaps _ scope into fromHead)
  split <;> exact ⟨rfl,rfl,rfl⟩

theorem mergeCommit_sameMaps (m : MemoryVersionStore) (scope : ContextUri) (from_ into : BranchName)
    (fromHead nh : CommitId) (snap : Snapshot) (now : DateTime) :
    (m.insertCommit ⟨[nh,fromHead], .ofSystem,now,⟨.merge [from_,into], .empty,[]⟩⟩ snap).SameMaps
      ((m.mergeCommit scope from_ into fromHead nh snap now).followHead scope.canonical into m.nextId) :=
  (moveBranch_sameMaps _ _ _ _).trans (followHead_sameMaps _ _ _ _)

section KnowledgeMerge

variable {svc : Services} {kstrategy : KnowledgeMergeStrategy}

def lwwSnapshot (m : MemoryVersionStore) (services : Services) (from_ into : BranchName) (fromHead intoHead : CommitId) :
    Snapshot :=
  let clock := fun id => clockOf ((m.commits[id]?).map (·.timestamp))
  services.lwwMerge (m.snapshot fromHead) (clock fromHead) from_.asStr (m.snapshot intoHead) (clock intoHead) into.asStr

/-- The commit of a knowledge merge, with `into` and HEAD moved to it. -/
def knowledgeCommit (m : MemoryVersionStore) (scope : ContextUri) (into : BranchName) (fromHead intoHead : CommitId)
    (snap : Snapshot) (now : DateTime) : MemoryVersionStore :=
  ((m.insertCommit ⟨[intoHead, fromHead], .ofSystem, now, .empty⟩ snap).moveBranch scope.canonical into
    m.nextId).setHead scope.canonical m.nextId

theorem knowledgeMerge_ancestor (svc : Services) (kstrategy : KnowledgeMergeStrategy) (now : DateTime)
    (hf : m.branchHead scope.canonical from_ = .ok fromHead) (hi : m.branchHead scope.canonical into = .ok nh)
    (ha : m.isAncestor nh fromHead = true) : m.knowledgeMerge svc scope from_ into kstrategy now =
      .ok (⟨fromHead,[]⟩, m.moveBranch scope.canonical into fromHead) := by
  simp only [knowledgeMerge,hf,hi,ha,bind,Except.bind,if_true]
  rfl

theorem knowledgeMerge_diverged (now : DateTime) (hf : m.branchHead scope.canonical from_ = .ok fromHead)
    (hi : m.branchHead scope.canonical into = .ok nh) (ha : m.isAncestor nh fromHead = false) :
    m.knowledgeMerge svc scope from_ into kstrategy now =
      (svc.detect kstrategy (m.snapshot fromHead) (m.snapshot nh)).map (fun conflicts => (⟨m.nextId,conflicts⟩,
        m.knowledgeCommit scope into fromHead nh (m.lwwSnapshot svc from_ into fromHead nh) now)) := by
  simp only [knowledgeMerge,hf,hi,ha,bind,Except.bind,Bool.false_eq_true,if_false]
  split
  · rename_i e he
    rw [he]
    rfl
  · rename_i conflicts hc
    rw [hc]
    rfl

theorem knowledgeCommit_sameMaps (m : MemoryVersionStore) (scope : ContextUri) (into : BranchName)
    (fromHead nh : CommitId) (snap : Snapshot) (now : DateTime) :
    (m.insertCommit ⟨[nh,fromHead], .ofSystem,now, .empty⟩ snap).SameMaps
      (m.knowledgeCommit scope into fromHead nh snap now) :=
  (moveBranch_sameMaps _ scope.canonical into m.nextId).trans ⟨rfl,rfl,rfl⟩

end KnowledgeMerge

end MemoryVersionStore

variable {row : CommitRow}

section Refs

variable {m : MemoryVersionStore} {s : SqliteVersionStore} {scope : String} {into : BranchName} {b : Branch}

theorem SameRefs.attached_iff (h : SameRefs m s) (scope : String) (name : BranchName) :
    m.attachedBranches[scope]? = some name ↔ s.attachedBranch scope = some name.asStr := by
  have ha := h.attached scope
  rw [SqliteVersionStore.attachedBranch,← ha]
  cases hm : m.attachedBranches[scope]? with
  | none => simp
  | some name' =>
    obtain ⟨text,hv⟩ := name
    obtain ⟨text',hv'⟩ := name'
    simp

theorem SameRefs.followHead_iff (h : SameRefs m s) (into : BranchName) {old : CommitId}
    (hh : s.getHead scope = some old) (new : CommitId) :
    SameRefs (m.followHead scope into new) (s.setHead scope ⟨new,s.attachedBranch scope⟩) ↔
      s.attachedBranch scope = some into.asStr ∨ new = old := by
  by_cases ha : m.attachedBranches[scope]? = some into
  · have hs := (h.attached_iff scope into).mp ha
    simp only [MemoryVersionStore.followHead,ha,if_true,hs,true_or,iff_true]
    exact h.setHead hs new
  · have hs : ¬ s.attachedBranch scope = some into.asStr := fun hs => ha ((h.attached_iff scope into).mpr hs)
    simp only [MemoryVersionStore.followHead,ha,if_false,hs,false_or]
    constructor
    · intro hr
      have hn := hr.head scope
      rw [h.head,hh,SqliteVersionStore.getHead,SqliteVersionStore.getElem?_setHead,if_pos rfl] at hn
      exact (Option.some.inj hn).symm
    · rintro rfl
      obtain ⟨row,ho,hc⟩ := Option.map_eq_some_iff.mp hh
      have he : s.heads[scope]? = some ⟨new,s.attachedBranch scope⟩ := by
        rw [SqliteVersionStore.attachedBranch,ho,← hc]
        rfl
      rw [SqliteVersionStore.setHead_self he]
      exact h

theorem SameRefs.fastForward_iff (h : SameRefs m s) (hb : (s.branches scope)[into.asStr]? = some b)
    (hh : s.getHead scope = some b.head) (new : CommitId) (activate : Bool) :
    SameRefs (m.fastForward scope into new activate).2 (s.moved scope into.asStr b new) ↔
      s.attachedBranch scope = some into.asStr ∨ new = b.head := by
  have hm := h.branch scope into.asStr
  rw [hb] at hm
  obtain ⟨b',hb',-⟩ := Option.map_eq_some_iff.mp hm
  have hg : m.getBranch scope into = some b' := hb'
  simp only [MemoryVersionStore.fastForward,hg,SqliteVersionStore.moved]
  have ho : SameRefs (m.setBranch scope into.asStr
      { b' with head := new, lifecycle := if activate then .active else b'.lifecycle })
      (s.moveBranch scope into.asStr b new) := h.setBranch rfl
  exact ho.followHead_iff into hh new

theorem SameRefs.mergeCommit_iff (h : SameRefs m s) (hi : m.nextId = s.nextId) {scope : ContextUri} {from_ : BranchName}
    {fromHead : CommitId} {now : DateTime}
    (hb : (s.branches scope.canonical)[into.asStr]? = some b) (hh : s.getHead scope.canonical = some b.head)
    (hf : b.head ≠ s.nextId) :
    SameRefs ((m.mergeCommit scope from_ into fromHead b.head snap now).followHead scope.canonical into m.nextId)
      ((s.withCommit row).moved scope.canonical into.asStr b s.nextId) ↔
      s.attachedBranch scope.canonical = some into.asStr := by
  have hm : SameRefs (m.mergeCommit scope from_ into fromHead b.head snap now)
      ((s.withCommit row).moveBranch scope.canonical into.asStr b s.nextId) := by
    unfold MemoryVersionStore.mergeCommit
    rw [hi]
    exact (h.insertCommit _ snap row).moveBranch hb s.nextId
  rw [hi,SqliteVersionStore.moved]
  have hif := hm.followHead_iff into hh s.nextId
  exact hif.trans (or_iff_left (Ne.symm hf))

end Refs

namespace Agree

variable {m : MemoryVersionStore} {s : SqliteVersionStore}

theorem getHead_of_attached (h : Agree m s) {scope : String} {into : BranchName} {b : Branch}
    (hb : (s.branches scope)[into.asStr]? = some b) (ha : s.attachedBranch scope = some into.asStr) :
    s.getHead scope = some b.head := by
  obtain ⟨row,hr,ht⟩ := Option.bind_eq_some_iff.mp ha
  obtain ⟨b',hb',he⟩ := h.refs.attached scope row into.asStr hr ht
  obtain rfl := Option.some.inj (hb.symm.trans hb')
  simp [SqliteVersionStore.getHead,hr,he]

theorem mergedSnapshot_ok_iff (h : Agree m s) (ord : RowOrder) {strategy : MergeStrategy} {fromHead nh : CommitId}
    (hs : strategy ≠ .fastForward) (hf : fromHead ∈ s.commits) (hi : nh ∈ s.commits)
    (r : Snapshot × List ContextUri) :
    m.mergedSnapshot strategy fromHead nh = .ok r ↔ s.mergedSnapshot ord strategy fromHead nh = .ok r := by
  have hb : m.optSnapshot (s.mergeBase fromHead nh) = s.baseSnapshot ord (s.mergeBase fromHead nh) :=
    h.optSnapshot_eq ord (fun id hd => h.mergeBase_mem hf hd)
  simp only [MemoryVersionStore.mergedSnapshot,SqliteVersionStore.mergedSnapshot,h.mergeBase_eq,hb,
    h.snapshot_eq ord hf,h.snapshot_eq ord hi,mergeUri_eq hs]
  exact mergeSnapshots_ok_congr

section Merge

variable {ord : RowOrder} {scope : ContextUri} {from_ into : BranchName} {strategy : MergeStrategy} {now : DateTime}
  {fromHead : CommitId} {b : Branch}

theorem snapshot_diff (h : Agree m s) (hb : b.head ∈ s.commits)
    (hf : fromHead ∈ s.commits) (hp : row.parents = [b.head,fromHead])
    (hd : row.deltas = insertDeltas (diffSnapshots (s.reconstructSnapshot ord b.head) snap)) (t : Snapshot)
    (ht : HasSnapshot (s.withCommit row).commits s.nextId t) : snap = t := by
  have hs : ∀ p ∈ row.parents, p ∈ s.commits := by
    rw [hp]
    simp [hb,hf]
  have hd' : row.deltas = insertDeltas (diffSnapshots (s.baseSnapshot ord row.parents.head?) snap) := by
    rw [hp]
    exact hd
  exact hasSnapshot_diff h.consistent hs hd' ht

theorem merge_refsSound (h : Agree m s) (svc : Services) (hf : s.branchHead scope.canonical from_ = .ok fromHead)
    (hb : (s.branches scope.canonical)[into.asStr]? = some b)
    (ho : s.attachedBranch scope.canonical = some into.asStr ∨ fromHead = b.head) :
    (s.step svc (.merge ord scope from_ into strategy now)).RefsSound := by
  refine SqliteVersionStore.step_refsSound svc _ h.refs (fun row name fromHead' hr ha hf' hi => ?_)
  obtain rfl := Except.ok.inj (hf.symm.trans hf')
  rw [SqliteVersionStore.branchHead_of_branch hb] at hi
  rw [← Except.ok.inj hi]
  refine ho.imp_left (fun ht => ?_)
  rw [SqliteVersionStore.attachedBranch,hr] at ht
  exact Option.some.inj (ha.symm.trans ht)

theorem merge_ancestor (h : Agree m s) (svc : Services) (hf : s.branchHead scope.canonical from_ = .ok fromHead)
    (hb : (s.branches scope.canonical)[into.asStr]? = some b) (ha : s.isAncestor b.head fromHead = true)
    (hh : s.getHead scope.canonical = some b.head)
    (hk : s.attachedBranch scope.canonical = some into.asStr ∨ fromHead = b.head) :
    Agree (m.step svc (.merge ord scope from_ into strategy now))
      (s.step svc (.merge ord scope from_ into strategy now)) := by
  have hc := (SqliteVersionStore.step_extends svc (.merge ord scope from_ into strategy now)
    h.consistent trivial).1
  have ho : (s.step svc (.merge ord scope from_ into strategy now)).RefsSound :=
    h.merge_refsSound svc hf hb hk
  have hm := MemoryVersionStore.merge_ancestor strategy now ((h.branchHead_eq _ from_).trans hf)
    ((h.branchHead_eq _ into).trans (SqliteVersionStore.branchHead_of_branch hb)) (by rw [h.isAncestor_eq,ha])
  have hs := SqliteVersionStore.merge_ancestor ord strategy now hf hb ha
  rw [if_pos hh] at hs
  simp only [SqliteVersionStore.step,hs] at hc ho
  simp only [MemoryVersionStore.step,SqliteVersionStore.step,hm,hs]
  exact h.of_refs (MemoryVersionStore.fastForward_sameMaps _ _ _ _ _) rfl rfl
    ((h.sameRefs.fastForward_iff hb hh fromHead _).mpr hk) hc ho
    (fun scope' hs => SqliteVersionStore.getHead_setHead_isSome _ _ _ _ (.inl hs))

theorem merge_diverged (h : Agree m s) (svc : Services) (hf : s.branchHead scope.canonical from_ = .ok fromHead)
    (hb : (s.branches scope.canonical)[into.asStr]? = some b) (ha : s.isAncestor b.head fromHead = false)
    (hr : strategy ≠ .fastForward) (hat : s.attachedBranch scope.canonical = some into.asStr) :
    Agree (m.step svc (.merge ord scope from_ into strategy now))
      (s.step svc (.merge ord scope from_ into strategy now)) := by
  have hfm := (h.branchHead_inScope hf).mem
  have hi := h.branchHead_inScope (SqliteVersionStore.branchHead_of_branch hb)
  have hm := MemoryVersionStore.merge_diverged now ((h.branchHead_eq _ from_).trans hf)
    ((h.branchHead_eq _ into).trans (SqliteVersionStore.branchHead_of_branch hb)) (by rw [h.isAncestor_eq,ha]) hr
  cases hms : s.mergedSnapshot ord strategy fromHead b.head with
  | error e =>
    have hs := SqliteVersionStore.merge_error now hf hb ha hms
    have her : ∃ e', m.mergedSnapshot strategy fromHead b.head = .error e' := by
      cases hmm : m.mergedSnapshot strategy fromHead b.head with
      | error e' => exact ⟨e',rfl⟩
      | ok r =>
        rw [h.mergedSnapshot_ok_iff ord hr hfm hi.mem,hms] at hmm
        cases hmm
    obtain ⟨e',he'⟩ := her
    rw [he'] at hm
    simp only [MemoryVersionStore.step,SqliteVersionStore.step,hm,hs]
    exact h
  | ok r =>
    obtain ⟨snap,conflicts⟩ := r
    obtain ⟨row,hsc,hp,ht,hd,hs⟩ := SqliteVersionStore.merge_diverged now hf hfm hi.mem hb ha hms
    have hh := h.getHead_of_attached hb hat
    rw [(h.mergedSnapshot_ok_iff ord hr hfm hi.mem _).mpr hms] at hm
    rw [if_pos hh] at hs
    have hc := (SqliteVersionStore.step_extends svc (.merge ord scope from_ into strategy now)
      h.consistent trivial).1
    have ho : (s.step svc (.merge ord scope from_ into strategy now)).RefsSound :=
      h.merge_refsSound svc hf hb (.inl hat)
    simp only [SqliteVersionStore.step,hs] at hc ho
    simp only [MemoryVersionStore.step,SqliteVersionStore.step,hm,hs]
    refine h.of_withCommit hp.symm ht.symm (h.snapshot_diff hi.mem hfm hp hd)
      (MemoryVersionStore.mergeCommit_sameMaps m scope from_ into fromHead b.head snap now) rfl rfl ?_ hc ho ?_
    · exact (h.sameRefs.mergeCommit_iff h.sameCommits.nextId hb hh
        (Nat.ne_of_lt (h.refs.fresh _ hi.mem))).mpr hat
    · intro scope' hs
      exact SqliteVersionStore.getHead_setHead_isSome _ _ _ _ (hs.imp_right (fun hs => hsc ▸ hs.symm))

end Merge

section KnowledgeMerge

variable {ord : RowOrder} {scope : ContextUri} {from_ into : BranchName} {svc : Services}
  {strategy : KnowledgeMergeStrategy} {now : DateTime} {fromHead : CommitId} {b : Branch}

theorem knowledgeMerge_idle (h : Agree m s) (svc : Services) (ord : RowOrder) (strategy : KnowledgeMergeStrategy)
    (now : DateTime) (hf : s.branchHead scope.canonical from_ = .ok b.head)
    (hb : (s.branches scope.canonical)[into.asStr]? = some b) :
    Agree (m.step svc (.knowledgeMerge ord scope from_ into strategy now))
      (s.step svc (.knowledgeMerge ord scope from_ into strategy now)) := by
  have ha : s.isAncestor b.head b.head = true := by simp [SqliteVersionStore.isAncestor,Dag.isAncestor_self]
  have hm := MemoryVersionStore.knowledgeMerge_ancestor svc strategy now ((h.branchHead_eq _ from_).trans hf)
    ((h.branchHead_eq _ into).trans (SqliteVersionStore.branchHead_of_branch hb)) (by rw [h.isAncestor_eq,ha])
  have hs := SqliteVersionStore.knowledgeMerge_ancestor svc ord strategy now hf hb ha
  have hi : s.step svc (.knowledgeMerge ord scope from_ into strategy now) = s := by
    by_cases hh : s.getHead scope.canonical = some b.head
    · rw [if_pos hh] at hs
      obtain ⟨row,hr,hc⟩ := Option.map_eq_some_iff.mp hh
      have he : s.heads[scope.canonical]? = some ⟨b.head,s.attachedBranch scope.canonical⟩ := by
        rw [SqliteVersionStore.attachedBranch,hr,← hc]
        rfl
      simp only [SqliteVersionStore.step,hs,SqliteVersionStore.moved,SqliteVersionStore.moveBranch_self hb,
        SqliteVersionStore.setHead_self he]
      rfl
    · rw [if_neg hh] at hs
      simp only [SqliteVersionStore.step,hs]
      rfl
  rw [hi]
  simp only [MemoryVersionStore.step,hm]
  have hre : SameRefs (m.moveBranch scope.canonical into b.head) s := by
    have ho := h.sameRefs.moveBranch hb b.head
    rwa [SqliteVersionStore.moveBranch_self hb] at ho
  exact h.of_refs (MemoryVersionStore.moveBranch_sameMaps _ _ _ _) rfl rfl hre h.consistent h.refs (fun _ hs => hs)

theorem lwwSnapshot_eq (h : Agree m s) (svc : Services) (ord : RowOrder) (from_ into : BranchName)
    (hf : fromHead ∈ s.commits) (hb : b.head ∈ s.commits) :
    m.lwwSnapshot svc from_ into fromHead b.head = s.lwwSnapshot svc ord from_ into fromHead b.head := by
  simp only [MemoryVersionStore.lwwSnapshot,SqliteVersionStore.lwwSnapshot,h.sameCommits.timestamp,
    h.snapshot_eq ord hf,h.snapshot_eq ord hb]

theorem knowledgeMerge_diverged (h : Agree m s) (hf : s.branchHead scope.canonical from_ = .ok fromHead)
    (hb : (s.branches scope.canonical)[into.asStr]? = some b) (ha : s.isAncestor b.head fromHead = false)
    (hk : (∃ e, svc.detect strategy (s.reconstructSnapshot ord fromHead) (s.reconstructSnapshot ord b.head) =
      .error e) ∨ s.getHead scope.canonical = some b.head ∧
        ∀ name, s.attachedBranch scope.canonical = some name → name = into.asStr) :
    Agree (m.step svc (.knowledgeMerge ord scope from_ into strategy now))
      (s.step svc (.knowledgeMerge ord scope from_ into strategy now)) := by
  have hfm := (h.branchHead_inScope hf).mem
  have hbm := (h.branchHead_inScope (SqliteVersionStore.branchHead_of_branch hb)).mem
  have hm : m.knowledgeMerge svc scope from_ into strategy now = _ :=
    MemoryVersionStore.knowledgeMerge_diverged now ((h.branchHead_eq _ from_).trans hf)
      ((h.branchHead_eq _ into).trans (SqliteVersionStore.branchHead_of_branch hb)) (by rw [h.isAncestor_eq,ha])
  rw [h.snapshot_eq ord hfm,h.snapshot_eq ord hbm,h.lwwSnapshot_eq svc ord from_ into hfm hbm] at hm
  cases hde : svc.detect strategy (s.reconstructSnapshot ord fromHead) (s.reconstructSnapshot ord b.head) with
  | error e =>
    have hs := SqliteVersionStore.knowledgeMerge_error now hf hb ha hde
    rw [hde] at hm
    simp only [MemoryVersionStore.step,SqliteVersionStore.step,hm,hs]
    exact h
  | ok conflicts =>
    obtain ⟨hh,hat⟩ := hk.resolve_left (by
      rintro ⟨e,he⟩
      rw [hde] at he
      cases he)
    obtain ⟨row,hsc,hp,ht,hd,hs⟩ := SqliteVersionStore.knowledgeMerge_diverged now hf hfm hbm hb ha hde
    rw [hde] at hm
    rw [if_pos hh] at hs
    have hc := (SqliteVersionStore.step_extends svc (.knowledgeMerge ord scope from_ into strategy now)
      h.consistent trivial).1
    have ho := SqliteVersionStore.step_refsSound svc (.knowledgeMerge ord scope from_ into strategy now) h.refs
      (fun row name _ hr ha _ _ => .inl (hat name (by simp [SqliteVersionStore.attachedBranch,hr,ha])))
    simp only [SqliteVersionStore.step,hs] at hc ho
    simp only [MemoryVersionStore.step,SqliteVersionStore.step,hm,hs]
    refine h.of_withCommit hp.symm ht.symm (h.snapshot_diff hbm hfm hp hd)
      (MemoryVersionStore.knowledgeCommit_sameMaps m scope into fromHead b.head _ now) rfl rfl ?_ hc ho ?_
    · have hv : SameRefs ((m.insertCommit ⟨[b.head,fromHead], .ofSystem,now, .empty⟩
          (s.lwwSnapshot svc ord from_ into fromHead b.head)).moveBranch scope.canonical into s.nextId)
          ((s.withCommit row).moveBranch scope.canonical into.asStr b s.nextId) :=
        (h.sameRefs.insertCommit _ _ row).moveBranch hb s.nextId
      show SameRefs (m.knowledgeCommit scope into fromHead b.head _ now)
        ((s.withCommit row).moved scope.canonical into.asStr b s.nextId)
      rw [MemoryVersionStore.knowledgeCommit,h.sameCommits.nextId]
      exact hv.setHead rfl s.nextId
    · intro scope' hs
      exact SqliteVersionStore.getHead_setHead_isSome _ _ _ _ (hs.imp_right (fun hs => hsc ▸ hs.symm))

end KnowledgeMerge

end Agree

end UwuContextDb.Version
