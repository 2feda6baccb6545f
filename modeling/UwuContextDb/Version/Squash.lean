import UwuContextDb.Version.AttachedHead
import UwuContextDb.Version.SqliteHistory

/-! Squashing a first-parent range of `SqliteVersionStore`: the new commit stands for the newest one of the range,
and nothing but the references to that one moves. -/

namespace UwuContextDb.Version

open StateMachine

namespace SqliteVersionStore

/-- The store after a squash of `oldest..newest` into `new`, when rows come back in `order`. -/
structure Squashed (st tx : SqliteVersionStore) (order : RowOrder) (scope : String)
    (oldest newest new : CommitId) : Prop where
  fresh : new ∉ st.commits
  inScope : tx.InScope new scope
  parents : tx.dag.parents new = (st.firstParent oldest).toList
  snapshot : tx.reconstructSnapshot order new = st.reconstructSnapshot order newest
  commits : ∀ id ∈ st.commits, tx.commits[id]? = st.commits[id]?
  snapshots : ∀ (order' : RowOrder), ∀ id ∈ st.commits, tx.reconstructSnapshot order' id = st.reconstructSnapshot order' id
  noOther : ∀ id ∈ tx.commits, id = new ∨ id ∈ st.commits
  referenced : st.TipReferenced scope newest
  branches : ∀ (scope' name : String), (tx.branches scope')[name]? = ((st.branches scope')[name]?).map
    (fun b => if scope = scope' ∧ b.head = newest then { b with head := new } else b)
  heads : ∀ scope' : String, tx.heads[scope']? = (st.heads[scope']?).map
    (fun row => if scope = scope' ∧ row.commit = newest then ⟨new, row.attachedBranch⟩ else row)
  tags : tx.tags = st.tags

variable {st tx : SqliteVersionStore} {sc : String} {new expected : CommitId}

theorem casHead_frame : (tx.casHead sc expected new).2.branches = tx.branches ∧
    (tx.casHead sc expected new).2.tags = tx.tags ∧ (tx.casHead sc expected new).2.commits = tx.commits ∧
    (tx.casHead sc expected new).2.cache = tx.cache ∧ (tx.casHead sc expected new).2.nextId = tx.nextId := by
  unfold casHead
  split
  · split <;> exact ⟨rfl,rfl,rfl,rfl,rfl⟩
  · exact ⟨rfl,rfl,rfl,rfl,rfl⟩

theorem squash_squashed {ord : RowOrder} {sc : ContextUri} {cs : List CommitId}
    {message : String} {now : DateTime} {res : SquashResult} (ht : st.WellFormed)
    (h : st.squash ord sc cs message now = .ok (res, tx)) :
    ∃ oldest nw, cs.head? = some oldest ∧ cs.getLast? = some nw ∧
      res.squashedCount = cs.length ∧ Squashed st tx ord sc.canonical oldest nw res.newCommit := by
  obtain ⟨oldest,nw,ho,hn,-,-,-,he,rfl,row,hs,ha,hp,-,hd,rfl⟩ := squash_ok h
  refine ⟨oldest,nw,ho,hn,rfl,?_⟩
  have hf : st.nextId ∉ st.commits := nextId_notMem ht
  obtain ⟨hb,hg,hc,hca,hx⟩ := @casHead_frame
    ((st.withCommit row).moveBranches sc.canonical nw st.nextId) sc.canonical st.nextId nw
  have hr := @reconstructSnapshot_congr (st.withCommit row) _ hc hca hx
  have hw : (st.withCommit row).commits[st.nextId]? = some row := by simp
  have hh : row.parents.head? = st.firstParent oldest := by
    rw [ha]
    cases st.firstParent oldest <;> rfl
  constructor
  · exact hf
  · exact ⟨row,by rw [hc]; exact hw,hs⟩
  · have hge : (st.withCommit row).dag[st.nextId]? = some row.parents := by
      simp [dag]
    unfold Dag.parents dag
    rw [hc]
    exact (congrArg (Option.getD · []) hge).trans ha
  · rw [hr]
    exact reconstructSnapshot_new ht hp (by rw [hh]; exact hd)
  · intro id hi
    have hne : st.nextId ≠ id := by
      rintro rfl
      exact hf hi
    rw [hc]
    show (st.commits.insert st.nextId row)[id]? = _
    simp [Std.ExtTreeMap.getElem?_insert,hne]
  · intro ord' id hi
    rw [hr]
    exact reconstructSnapshot_withCommit ht ord' hi
  · intro id hi
    rw [hc] at hi
    have hi : id ∈ st.commits.insert st.nextId row := hi
    exact (by simpa using hi : st.nextId = id ∨ id ∈ st.commits).imp_left Eq.symm
  · exact he
  · intro sc' name
    rw [hb]
    exact getElem?_moveBranches nw sc' name
  · exact getElem?_casHead nw
  · exact hg

/-- In every reachable store, a squash puts one commit with the snapshot of the newest in the place of its range, and moves
the references to the newest of them; a squash that fails leaves the store as it was. -/
theorem run_squash (services : Services) (ops : List SqliteOp) (order : RowOrder) (scope : ContextUri)
    (commits : List CommitId) (message : String) (now : DateTime) :
    let st := run (step services) empty ops
    let tx := st.step services (.squash order scope commits message now)
    (∀ res tx', st.squash order scope commits message now = .ok (res, tx') → tx = tx' ∧
      ∃ oldest newest, commits.head? = some oldest ∧ commits.getLast? = some newest ∧
        res.squashedCount = commits.length ∧ Squashed st tx order scope.canonical oldest newest res.newCommit) ∧
    (∀ e, st.squash order scope commits message now = .error e → tx = st) := by
  intro st tx
  have hs : st.WellFormed := run_wellFormed services ops
  have ht : tx = st.afterTx (st.squash order scope commits message now) := rfl
  constructor
  · intro res tx' h
    have ht' : tx = tx' := by
      rw [ht, h]
      rfl
    exact ⟨ht', ht' ▸ squash_squashed hs h⟩
  · intro e h
    rw [ht, h]
    rfl

def squashOps : List SqliteOp :=
  [addSample, .createBranch sampleScope mainBranch 0 .main 0, .switchHead sampleScope mainBranch,
    .commit sampleScope ⟨[sampleEntry "b" "two"], [], [], []⟩ .empty 1,
    .commit sampleScope ⟨[sampleEntry "c" "three"], [], [sampleScope.join "b"], []⟩ .empty 2]

theorem run_squash_pair : ∃ res tx,
    (run (step sampleServices) empty squashOps).squash .reversed sampleScope [1, 2] "both" 3 = .ok (res, tx) ∧
    ∃ oldest newest, [1, 2].head? = some oldest ∧ [1, 2].getLast? = some newest ∧
      Squashed (run (step sampleServices) empty squashOps) tx .reversed sampleScope.canonical oldest
      newest res.newCommit := by
  refine ⟨_, _, rfl, ?_⟩
  obtain ⟨-, oldest, newest, ho, hn, -, h⟩ :=
    (run_squash sampleServices squashOps .reversed sampleScope [1, 2] "both" 3).1 _ _ rfl
  exact ⟨oldest, newest, ho, hn, h⟩

end SqliteVersionStore
end UwuContextDb.Version
