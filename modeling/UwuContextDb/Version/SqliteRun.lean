import UwuContextDb.Version.Memory
import UwuContextDb.Version.SqliteSpec

/-! Runs of `SqliteVersionStore`: the operations a caller may issue, one after the other, and
what any of them does to the stored commits. -/

namespace UwuContextDb.Version

open StateMachine

/-- A call of the version store, with the clock it reads and the row orders it meets. Reads
only matter for the snapshot cache: `remember` fills an entry and `evict` loses one. -/
inductive SqliteOp
  | commit (scope : ContextUri) (changes : ChangeSet) (metadata : CommitMeta) (now : DateTime)
  | createBranch (scope : ContextUri) (name : BranchName) (from_ : CommitId) (bt : BranchType) (now : DateTime)
  | deleteBranch (scope : ContextUri) (name : BranchName)
  | switchHead (scope : ContextUri) (branch : BranchName)
  | createTag (scope : ContextUri) (tag : Tag)
  | merge (order : RowOrder) (scope : ContextUri) (from_ into : BranchName) (strategy : MergeStrategy) (now : DateTime)
  | knowledgeMerge (order : RowOrder) (scope : ContextUri) (from_ into : BranchName)
    (strategy : KnowledgeMergeStrategy) (now : DateTime)
  | cherryPick (order : RowOrder) (scope : ContextUri) (commit : CommitId) (onto : BranchName)
    (strategy : ConflictStrategy) (now : DateTime)
  | rebase (order : RowOrder) (scope : ContextUri) (branch onto : BranchName) (strategy : ConflictStrategy)
    (clock : CommitId → DateTime)
  | squash (order : RowOrder) (scope : ContextUri) (commits : List CommitId) (message : String) (now : DateTime)
  | continueConflictSession (order : RowOrder) (session : ConflictSession) (resolutions : ConflictResolutionSet)
    (clock : CommitId → DateTime)
  | gc (recentScan victimScan : ScanOrder) (scope : ContextUri) (policy : GcPolicy) (now : DateTime)
  | remember (order : RowOrder) (id : CommitId)
  | evict (id : CommitId)

def SqliteOp.isCommit : SqliteOp → Bool
  | .commit .. => true
  | _ => false

def SqliteOp.isRewrite : SqliteOp → Bool
  | .commit .. | .gc .. | .remember .. | .evict .. => false
  | _ => true

namespace SqliteVersionStore

def afterTx {α : Type} (st : SqliteVersionStore) (r : Except VersionError (α × SqliteVersionStore)) :
    SqliteVersionStore := (Outcome.ofTx st r).store

/-- `cache_put_snapshot` after a read; an identifier not yet drawn cannot be asked for. -/
def remember (st : SqliteVersionStore) (order : RowOrder) (id : CommitId) : SqliteVersionStore :=
  if id < st.nextId then { st with cache := st.cache.insert id (st.reconstructSnapshot order id) } else st

def evict (st : SqliteVersionStore) (id : CommitId) : SqliteVersionStore :=
  { st with cache := st.cache.erase id }

def step (services : Services) (st : SqliteVersionStore) : SqliteOp → SqliteVersionStore
  | .commit scope changes metadata now => st.afterTx (st.commit scope changes metadata now)
  | .createBranch scope name from_ bt now => st.afterTx (st.createBranch scope name from_ bt now)
  | .deleteBranch scope name => st.afterTx (st.deleteBranch scope name)
  | .switchHead scope branch => st.afterTx (st.switchHead scope branch)
  | .createTag scope tag => st.afterTx (st.createTag scope tag)
  | .merge order scope from_ into strategy now => st.afterTx (st.merge order scope from_ into strategy now)
  | .knowledgeMerge order scope from_ into strategy now =>
    st.afterTx (st.knowledgeMerge services order scope from_ into strategy now)
  | .cherryPick order scope commit onto strategy now =>
    st.afterTx (st.cherryPick order scope commit onto strategy now)
  | .rebase order scope branch onto strategy clock => (st.rebase order scope branch onto strategy clock).store
  | .squash order scope commits message now => st.afterTx (st.squash order scope commits message now)
  | .continueConflictSession order session resolutions clock =>
    (st.continueConflictSession order session resolutions clock).store
  | .gc recentScan victimScan scope policy now => st.afterTx (st.gc recentScan victimScan scope policy now)
  | .remember order id => st.remember order id
  | .evict id => st.evict id

/-- What happens to commits, cache and identifiers: commits are added over existing parents,
removed when nothing refers to them, and cached. -/
inductive Evolves : SqliteVersionStore → SqliteVersionStore → Prop
  | refs (st st' : SqliteVersionStore) (hc : st'.commits = st.commits) (hk : st'.cache = st.cache)
    (hn : st'.nextId = st.nextId) : Evolves st st'
  | insert (st : SqliteVersionStore) (row : CommitRow) (hp : ∀ p ∈ row.parents, p ∈ st.commits)
    (hw : ∀ e ∈ row.deltas.edits, e.2.isWrite = true) : Evolves st (st.withCommit row)
  | delete (st : SqliteVersionStore) (id : CommitId) (h : st.isReferenced id = false) :
    Evolves st { st with commits := st.commits.erase id }
  | remember (st : SqliteVersionStore) (order : RowOrder) (id : CommitId) : Evolves st (st.remember order id)
  | evict (st : SqliteVersionStore) (id : CommitId) : Evolves st (st.evict id)
  | trans {st tx st' : SqliteVersionStore} (h : Evolves st tx) (h' : Evolves tx st') : Evolves st st'

inductive Grows : SqliteVersionStore → SqliteVersionStore → Prop
  | refs (st st' : SqliteVersionStore) (hc : st'.commits = st.commits) (hk : st'.cache = st.cache)
    (hn : st'.nextId = st.nextId) : Grows st st'
  | insert (st : SqliteVersionStore) (row : CommitRow) (hp : ∀ p ∈ row.parents, p ∈ st.commits)
    (hw : ∀ e ∈ row.deltas.edits, e.2.isWrite = true) : Grows st (st.withCommit row)
  | trans {st tx st' : SqliteVersionStore} (h : Grows st tx) (h' : Grows tx st') : Grows st st'

variable {st st' tx tx' : SqliteVersionStore}

theorem Grows.evolves (h : Grows st st') : Evolves st st' := by
  induction h with
  | refs st st' hc hk hn => exact .refs st st' hc hk hn
  | insert st row hp hw => exact .insert st row hp hw
  | trans h h' ih ih' => exact .trans ih ih'

theorem afterTx_cases {α : Type} {motive : SqliteVersionStore → Prop}
    {r : Except VersionError (α × SqliteVersionStore)} (hs : motive st)
    (ho : ∀ a tx, r = .ok (a, tx) → motive tx) : motive (st.afterTx r) := by
  cases r with
  | error e => exact hs
  | ok p => exact ho p.1 p.2 rfl

theorem Evolves.rfl : Evolves st st := .refs st st (Eq.refl _) (Eq.refl _) (Eq.refl _)

theorem Grows.rfl : Grows st st := .refs st st (Eq.refl _) (Eq.refl _) (Eq.refl _)

theorem diffRows_isWrite {src dst : Snapshot} :
    ∀ e ∈ (insertDeltas (diffSnapshots src dst)).edits, e.2.isWrite = true := by
  rintro ⟨u,w⟩ he
  have hm := MapEdit.mem_of_lastEdit (mem_edits_insertDeltas.mp he)
  rcases mem_diffSnapshots.mp hm with ⟨v,hw,-⟩ | ⟨hw,-⟩ <;> simp [hw,MapEdit.Edit.isWrite]

theorem Grows.commitDiff {row : CommitRow} {src dst : Snapshot} (hp : ∀ p ∈ row.parents, p ∈ st.commits)
    (hd : row.deltas = insertDeltas (diffSnapshots src dst)) (hc : tx'.commits = (st.withCommit row).commits)
    (hk : tx'.cache = st.cache) (hn : tx'.nextId = st.nextId+1) : Grows st tx' :=
  .trans (.insert st row hp (hd ▸ diffRows_isWrite)) (.refs _ _ hc hk hn)

section Moves

variable {scope into : String} {nh tgt new : CommitId}

theorem MergeMoves.refs (h : MergeMoves st tx scope into nh new tx') :
    tx'.commits = tx.commits ∧ tx'.cache = tx.cache ∧ tx'.nextId = tx.nextId := by
  obtain ⟨b,row,-,-,-,-,rfl⟩ := h
  exact ⟨rfl,rfl,rfl⟩

theorem CommitMoves.refs {id : CommitId} (h : CommitMoves st tx scope id tx') :
    tx'.commits = tx.commits ∧ tx'.cache = tx.cache ∧ tx'.nextId = tx.nextId := by
  cases h <;> exact ⟨rfl,rfl,rfl⟩

variable {onto : Option BranchName} {order : RowOrder}

theorem PickMoves.refs (h : PickMoves st tx scope tgt new onto tx') :
    tx'.commits = tx.commits ∧ tx'.cache = tx.cache ∧ tx'.nextId = tx.nextId := by
  cases h <;> exact ⟨rfl,rfl,rfl⟩

theorem Merged.grows {into : BranchName} {fh : CommitId}
    {merged : Snapshot → List ContextUri → Prop} {res : MergeResult}
    (h : Merged st order scope into fh nh merged res tx') : Grows st tx' := by
  cases h with
  | fastForward _ ha hm =>
    obtain ⟨hc,hk,hn⟩ := hm.refs
    exact .refs _ _ hc hk hn
  | diverged _ row snap conflicts ha he hp hs hr hd hm =>
    obtain ⟨hc,hk,hn⟩ := hm.refs
    exact .commitDiff hp hd hc hk hn

theorem commitCherryPickSnapshot_grows {sc : ContextUri} {commit : CommitId}
    {finalSnap : Snapshot} {now : DateTime}
    (h : st.commitCherryPickSnapshot order sc commit tgt onto finalSnap now = .ok (new, tx')) :
    Grows st tx' := by
  obtain ⟨rfl,ht,row,hs,hp,-,hd,hm⟩ := commitCherryPickSnapshot_ok h
  obtain ⟨hc,hk,hn⟩ := hm.refs
  exact .commitDiff (by simpa [hp] using ht) hd hc hk hn

theorem pickAll_grows {sc : ContextUri} {strat : ConflictStrategy}
    {clk : CommitId → DateTime} {own applied : List CommitId} :
    Grows st (pickAll order sc strat clk st own tgt applied).store := by
  have ha : (∃ _ : CommitId, Grows st (pickAll order sc strat clk st own tgt applied).store) ∧ _ :=
    pickAll_invariant (fun s _ => Grows st s)
      (fun s commit tgt snap now new s' hs hp => hs.trans (commitCherryPickSnapshot_grows hp)) .rfl
  obtain ⟨⟨tip,h⟩,-⟩ := ha
  exact h

theorem finishRebase_grows {br : BranchName} {expected : CommitId}
    {picked : Outcome SqliteVersionStore (CommitId × List CommitId)} (h : Grows st picked.store) :
    Grows st (finishRebase scope br expected picked).store := by
  rcases finishRebase_store scope br expected picked with
    hs | ⟨b,tgt,applied,-,-,-,hs⟩
  · exact hs ▸ h
  · rw [hs]
    exact h.trans (.refs _ _ rfl rfl rfl)

end Moves

theorem casHead_refs (tx : SqliteVersionStore) (sc : String) (expected head : CommitId) :
    (tx.casHead sc expected head).2.commits = tx.commits ∧ (tx.casHead sc expected head).2.cache = tx.cache ∧
      (tx.casHead sc expected head).2.nextId = tx.nextId := by
  unfold casHead
  split
  · split <;> exact ⟨rfl,rfl,rfl⟩
  · exact ⟨rfl,rfl,rfl⟩

variable {scope : String} {id : CommitId} {ids : List CommitId} {recentScan victimScan : ScanOrder}
  {policy : GcPolicy} {now : DateTime}

theorem deleteCommit_ok (h : deleteCommit scope tx id = .ok tx') :
    tx' = tx ∨ ∃ row, tx.commits[id]? = some row ∧ row.scope = scope ∧ tx.isReferenced id = false ∧
      tx' = { tx with commits := tx.commits.erase id } := by
  unfold deleteCommit at h
  split at h
  · cases h
    exact .inl rfl
  · rename_i row ho
    split at h
    · cases h
      exact .inl rfl
    · rename_i hs
      split at h
      · cases h
      · rename_i hr
        cases h
        exact .inr ⟨row,ho,by simpa using hs,by simpa using hr,rfl⟩

theorem deleteAll_invariant (inv : SqliteVersionStore → Prop)
    (hd : ∀ s id s', id ∈ ids → inv s → deleteCommit scope s id = .ok s' → inv s') (ht : inv st)
    (h : ids.foldlM (deleteCommit scope) st = .ok tx) : inv tx := by
  induction ids generalizing st with
  | nil =>
    cases h
    exact ht
  | cons id ids ih =>
    rw [List.foldlM_cons,bind_eq_ok] at h
    obtain ⟨s,hs,h⟩ := h
    exact ih (fun s id' s' hi => hd s id' s' (List.mem_cons_of_mem _ hi)) (hd st id s (by simp) ht hs) h

theorem gc_ok {sc : ContextUri}
    {report : GcReport} (h : st.gc recentScan victimScan sc policy now = .ok (report, tx')) :
    ∃ ids tx, ids = st.gcVictims recentScan victimScan sc.canonical policy now ∧
      ids.foldlM (deleteCommit sc.canonical) st = .ok tx ∧ report = ⟨ids.length,ids.length⟩ ∧
      tx' = { tx with cache := (ids.foldl (fun c id => c.erase id) tx.cache) } := by
  simp only [gc,bind_eq_ok,pure,Except.pure,Except.ok.injEq,Prod.mk.injEq] at h
  obtain ⟨tx,ht,rfl,rfl⟩ := h
  exact ⟨_,tx,rfl,ht,rfl,rfl⟩

theorem mem_protectedCommits :
    id ∈ st.protectedCommits scope ↔ ∃ r ∈ st.protectedRefs scope, Search.Reaches st.dag.parents r id :=
  Search.mem_visitAll_iff (fun v => st.dag.parents_eq_nil) (by simp [Dag.pending_eq_edgeCount])

theorem mem_gcVictims :
    id ∈ st.gcVictims recentScan victimScan scope policy now ↔
      id ∈ (st.scopeCommits scope).map Prod.fst ∧ st.timestampOf id < now - policy.maxAgeDays * nanosPerDay ∧
        id ∉ st.protectedCommits scope ∧ id ∉ st.recentCommits recentScan scope policy := by
  simp [gcVictims,List.mem_insertionSort,(victimScan.perm _).mem_iff,and_assoc]

/-- The deletions of `gc` touch commits only, and only those they are given. -/
structure Deleted (st : SqliteVersionStore) (ids : List CommitId) (tx : SqliteVersionStore) : Prop where
  heads : tx.heads = st.heads
  branches : tx.branches = st.branches
  tags : tx.tags = st.tags
  cache : tx.cache = st.cache
  nextId : tx.nextId = st.nextId
  subset : ∀ (id : CommitId) (row : CommitRow), tx.commits[id]? = some row → st.commits[id]? = some row
  kept : ∀ (id : CommitId) (row : CommitRow), st.commits[id]? = some row → id ∉ ids → tx.commits[id]? = some row

theorem deleted_of_ok (h : ids.foldlM (deleteCommit scope) st = .ok tx) : st.Deleted ids tx := by
  refine deleteAll_invariant (st.Deleted ids) ?_ ⟨rfl,rfl,rfl,rfl,rfl,fun _ _ h => h,fun _ _ h _ => h⟩ h
  intro s id s' hi hs hd
  rcases deleteCommit_ok hd with rfl | ⟨row,-,-,-,rfl⟩
  · exact hs
  · refine ⟨hs.heads,hs.branches,hs.tags,hs.cache,hs.nextId,fun c r hr => ?_,fun c r hr hc => ?_⟩
    · rw [Std.ExtTreeMap.getElem?_erase] at hr
      split at hr
      · simp at hr
      · exact hs.subset c r hr
    · have hn : id ≠ c := by
        rintro rfl
        exact hc hi
      simpa [Std.ExtTreeMap.getElem?_erase,hn] using hs.kept c r hr hc

theorem evictAll_evolves : Evolves st { st with cache := (ids.foldl (fun c id => c.erase id) st.cache) } := by
  induction ids generalizing st with
  | nil => exact .rfl
  | cons id ids ih => exact .trans (.evict st id) ih

theorem gc_evolves {sc : ContextUri}
    {report : GcReport} (h : st.gc recentScan victimScan sc policy now = .ok (report, tx')) : Evolves st tx' := by
  obtain ⟨ids,tx,-,ht,-,rfl⟩ := gc_ok h
  have he : Evolves st tx := by
    refine deleteAll_invariant (Evolves st) ?_ Evolves.rfl ht
    intro s id s' _ hs hd
    rcases deleteCommit_ok hd with rfl | ⟨row,-,-,hr,rfl⟩
    · exact hs
    · exact hs.trans (.delete s id hr)
  exact he.trans evictAll_evolves

theorem commit_evolves {sc : ContextUri} {changes : ChangeSet} {md : CommitMeta}
    (h : st.commit sc changes md now = .ok (id, tx')) :
    ∃ rows row, changeRows changes = .ok rows ∧ (∀ p ∈ row.parents, p ∈ st.commits) ∧ id = st.nextId ∧
      row.parents = (st.getHead sc.canonical).toList ∧ row.deltas = insertDeltas rows ∧
      Evolves (st.withCommit row) tx' := by
  obtain ⟨rows,row,hr,hp,hi,-,ha,-,hd,hm⟩ := commit_ok h
  obtain ⟨hc,hk,hn⟩ := hm.refs
  exact ⟨rows,row,hr,hp,hi,ha,hd, .refs _ _ hc hk hn⟩

theorem step_grows (svc : Services) {op : SqliteOp} (h : op.isRewrite = true) : Grows st (st.step svc op) := by
  cases op with
  | commit scope changes md now => simp [SqliteOp.isRewrite] at h
  | createBranch scope name from_ bt now =>
    refine afterTx_cases .rfl (fun b tx ho => ?_)
    obtain ⟨-,-,-,rfl⟩ := createBranch_ok ho
    exact .refs _ _ rfl rfl rfl
  | deleteBranch scope name =>
    refine afterTx_cases .rfl (fun u tx ho => ?_)
    obtain ⟨-,rfl⟩ := deleteBranch_ok ho
    exact .refs _ _ rfl rfl rfl
  | switchHead scope br =>
    refine afterTx_cases .rfl (fun u tx ho => ?_)
    obtain ⟨b,-,⟨-,rfl⟩ | ⟨row,-,rfl⟩⟩ := switchHead_ok ho
    · exact .rfl
    · exact .refs _ _ rfl rfl rfl
  | createTag scope tag =>
    refine afterTx_cases .rfl (fun u tx ho => ?_)
    obtain ⟨-,rfl⟩ := createTag_ok ho
    exact .refs _ _ rfl rfl rfl
  | merge order scope from_ into strat now =>
    refine afterTx_cases .rfl (fun res tx ho => ?_)
    obtain ⟨fh,nh,-,-,hm⟩ := merge_ok ho
    exact hm.grows
  | knowledgeMerge order scope from_ into strat now =>
    refine afterTx_cases .rfl (fun res tx ho => ?_)
    obtain ⟨fh,nh,-,-,hm⟩ := knowledgeMerge_ok ho
    exact hm.grows
  | cherryPick order scope commit onto strat now =>
    refine afterTx_cases .rfl (fun id tx ho => ?_)
    simp only [cherryPick,bind_eq_ok] at ho
    obtain ⟨tgt,-,ho⟩ := ho
    obtain ⟨ses,finalSnap,-,-,-,hco⟩ := cherryPickAtBranch_ok ho
    exact commitCherryPickSnapshot_grows hco
  | rebase order scope br onto strat clk =>
    simp only [step,rebase]
    split
    · exact .rfl
    · exact .rfl
    · exact finishRebase_grows pickAll_grows
  | squash order scope cs message now =>
    refine afterTx_cases .rfl (fun res tx ho => ?_)
    obtain ⟨oldest,nw,-,-,-,-,-,-,-,row,-,-,hp,-,hd,rfl⟩ := squash_ok ho
    obtain ⟨hc,hk,hn⟩ := casHead_refs ((st.withCommit row).moveBranches scope.canonical nw st.nextId)
      scope.canonical nw st.nextId
    exact .commitDiff hp hd hc hk hn
  | continueConflictSession order ses resolutions clk =>
    simp only [step,continueConflictSession]
    split
    · exact .rfl
    · split
      · refine afterTx_cases .rfl (fun ids tx ho => ?_)
        obtain ⟨⟨new,tx1⟩,hco,he⟩ := map_eq_ok.mp ho
        obtain ⟨-,rfl⟩ := Prod.mk.inj he
        exact commitCherryPickSnapshot_grows hco
      · split
        · exact .rfl
        · split
          · exact .rfl
          · rename_i new st1 hco
            exact finishRebase_grows ((commitCherryPickSnapshot_grows hco).trans pickAll_grows)
  | gc recentScan victimScan scope policy now => simp [SqliteOp.isRewrite] at h
  | remember order id => simp [SqliteOp.isRewrite] at h
  | evict id => simp [SqliteOp.isRewrite] at h

theorem step_evolves (svc : Services) {op : SqliteOp} (h : op.isCommit = false) : Evolves st (st.step svc op) := by
  cases ho : op.isRewrite with
  | true => exact (step_grows svc ho).evolves
  | false =>
    cases op with
    | commit scope changes md now => simp [SqliteOp.isCommit] at h
    | gc recentScan victimScan scope policy now => exact afterTx_cases .rfl (fun report tx hk => gc_evolves hk)
    | remember order id => exact .remember st order id
    | evict id => exact .evict st id
    | _ => simp [SqliteOp.isRewrite] at ho

/-! A small history, from which the concrete runs start. -/

def sampleScope : ContextUri := .ofTenant "t"

def sampleEntry (name text : String) : ContextEntry := .newText (sampleScope.join name) 0 text 0

def sampleServices : Services := ⟨fun _ _ _ into _ _ => into, none⟩

def addSample : SqliteOp := .commit sampleScope ⟨[sampleEntry "a" "one"], [], [], []⟩ .empty 0

def mainBranch : BranchName := ⟨"main", by decide⟩

def devBranch : BranchName := ⟨"dev", by decide⟩

/-- Two branches on one commit, then a commit on `dev`, which is left checked out. -/
def aheadOps : List SqliteOp :=
  [addSample, .createBranch sampleScope mainBranch 0 .main 0, .createBranch sampleScope devBranch 0 .experiment 0,
    .switchHead sampleScope devBranch, .commit sampleScope ⟨[sampleEntry "b" "two"], [], [], []⟩ .empty 1]

end SqliteVersionStore
end UwuContextDb.Version

/-! Runs of `MemoryVersionStore` under the operations of a caller. -/

namespace UwuContextDb.Version

namespace MemoryVersionStore

def afterTx {α : Type} (st : MemoryVersionStore) (r : Except VersionError (α × MemoryVersionStore)) :
    MemoryVersionStore := (Outcome.ofTx st r).store

/-- The same calls as for the SQLite store. There is no cache, and interactive sessions are not supported. -/
def step (services : Services) (st : MemoryVersionStore) : SqliteOp → MemoryVersionStore
  | .commit scope changes metadata now => st.afterTx (st.commit scope changes metadata now)
  | .createBranch scope name from_ bt now => st.afterTx (st.createBranch scope name from_ bt now)
  | .deleteBranch scope name => st.afterTx (st.deleteBranch scope name)
  | .switchHead scope branch => st.afterTx (st.switchHead scope branch)
  | .createTag scope tag => st.afterTx (st.createTag scope tag)
  | .merge _ scope from_ into strategy now => st.afterTx (st.merge scope from_ into strategy now)
  | .knowledgeMerge _ scope from_ into strategy now => st.afterTx (st.knowledgeMerge services scope from_ into strategy now)
  | .cherryPick _ scope commit onto strategy now => st.afterTx (st.cherryPick scope commit onto strategy now)
  | .rebase _ scope branch onto strategy clock => (st.rebase scope branch onto strategy (clock st.nextId)).2
  | .squash _ scope commits _ now => st.afterTx (st.squash scope commits now)
  | .continueConflictSession .. => st
  | .gc _ _ scope policy _ => (st.gc scope policy).2
  | .remember .. => st
  | .evict _ => st

end MemoryVersionStore
end UwuContextDb.Version
