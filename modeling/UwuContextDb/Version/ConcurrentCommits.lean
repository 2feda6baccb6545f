import UwuContextDb.Library.Optimistic
import UwuContextDb.Version.SqliteHistory

/-! Concurrent calls of `SqliteVersionStore::commit`: HEAD is read first, the transaction comes later. -/

namespace UwuContextDb.Version

open Optimistic StateMachine

/-- What one call of `commit` is given, with the clock it reads. -/
structure CommitRequest where
  changes : ChangeSet
  metadata : CommitMeta
  now : DateTime

namespace SqliteVersionStore

/-- `commit` from its transaction on: `parent` is what `get_head` returned before. -/
def commitTx (st : SqliteVersionStore) (scope : ContextUri) (parent : Option CommitId) (request : CommitRequest) :
    Except VersionError (CommitId × SqliteVersionStore) := do
  let scopeKey := scope.canonical
  let rows ← changeRows request.changes
  let headRow := st.heads[scopeKey]?
  ensure (headRow.map (·.commit) = parent) (.storage s!"HEAD for {scopeKey} changed concurrently")
  let (id, tx) ← st.insertCommit scopeKey parent.toList .ofSystem "" request.now request.metadata rows
  match parent with
  | some expected =>
    let tx ← tx.advanceAttached scopeKey (headRow.bind (·.attachedBranch)) expected id
    let tx ← tx.updateHeadInTx scopeKey expected id
    return (id, tx)
  | none => return (id, tx.setHead scopeKey ⟨id, none⟩)

variable {st st' : SqliteVersionStore} {sc : ContextUri} {parent : Option CommitId}
    {req : CommitRequest} {id : CommitId}

theorem commitTx_getHead (st : SqliteVersionStore) (sc : ContextUri) (req : CommitRequest) :
    st.commitTx sc (st.getHead sc.canonical) req = st.commit sc req.changes req.metadata req.now := by
  simp only [commitTx,commit,getHead,decide_true,ensure,if_true]
  cases st.heads[sc.canonical]? <;> rfl

theorem commitTx_ok (h : st.commitTx sc parent req = .ok (id, st')) : parent = st.getHead sc.canonical := by
  simp only [commitTx,bind_eq_ok,ensure_ok,decide_eq_true_eq] at h
  obtain ⟨rows,-,u,hh,-⟩ := h
  exact hh.symm

/-- The calls of `commit` on one scope. -/
def committers {ι : Type} (scope : ContextUri) (requests : ι → CommitRequest) :
    Machine ι SqliteVersionStore (Option CommitId) VersionError CommitId where
  look st := st.getHead scope.canonical
  transact i parent st := st.commitTx scope parent (requests i)

theorem committers_validates {ι : Type} (sc : ContextUri) (requests : ι → CommitRequest) :
    (committers sc requests).Validates := fun _ _ _ _ _ h => commitTx_ok h

/-- Every commit of the list has its predecessor as its only parent, the first has `base`, and `head` is the last. -/
def Chain (st : SqliteVersionStore) : Option CommitId → List CommitId → Option CommitId → Prop
  | base, [], head => head = base
  | base, id::ids, head => (∃ row, st.commits[id]? = some row ∧ row.parents = base.toList) ∧ Chain st (some id) ids head

theorem Chain.reaches {base : CommitId} {ids : List CommitId} {head : Option CommitId} (h : st.Chain (some base) ids head) :
    ∃ tip, head = some tip ∧ Search.Reaches st.dag.parents tip base := by
  induction ids generalizing base with
  | nil => exact ⟨base,h, .refl⟩
  | cons id ids ih =>
    obtain ⟨⟨row,hr,hp⟩,he⟩ := h
    obtain ⟨tip,ht,ha⟩ := ih he
    have hd : Search.Edge st.dag.parents id base := by
      show base ∈ st.dag.parents id
      simp [parents_of_row hr,hp]
    exact ⟨tip,ht,ha.tail hd⟩

theorem Chain.reaches_mem {base head : Option CommitId} {ids : List CommitId}
    (h : st.Chain base ids head) (hi : id ∈ ids) :
    ∃ tip, head = some tip ∧ Search.Reaches st.dag.parents tip id := by
  induction ids generalizing base with
  | nil => cases hi
  | cons first ids ih =>
    obtain ⟨-,hr⟩ := h
    rcases List.mem_cons.mp hi with rfl | hi
    · exact hr.reaches
    · exact ih hr hi

structure Committed (st : SqliteVersionStore) (scope : ContextUri) (id : CommitId) (st' : SqliteVersionStore) : Prop where
  drawn : id = st.nextId
  nextId : st'.nextId = st.nextId + 1
  row : ∃ row, st'.commits[id]? = some row ∧ row.parents = (st.getHead scope.canonical).toList
  others : ∀ c : CommitId, c ≠ id → st'.commits[c]? = st.commits[c]?
  head : st'.getHead scope.canonical = some id
  attached : ∀ name, (st.heads[scope.canonical]?).bind (·.attachedBranch) = some name →
    (st'.heads[scope.canonical]?).bind (·.attachedBranch) = some name ∧
      ((st'.branches scope.canonical)[name]?).map (·.head) = some id

theorem committed_of_ok (h : st.commit sc req.changes req.metadata req.now = .ok (id, st')) :
    st.Committed sc id st' := by
  obtain ⟨rows,row,-,-,rfl,-,hp,-,-,hm⟩ := commit_ok h
  obtain ⟨hc,-,hn⟩ := hm.refs
  have hg : ∀ c : CommitId, st'.commits[c]? = if st.nextId = c then some row else st.commits[c]? := by
    intro c
    rw [hc]
    simp [withCommit,Std.ExtTreeMap.getElem?_insert]
  refine ⟨rfl,hn,⟨row,by simp [hg],hp⟩,fun c hne => by rw [hg,if_neg (Ne.symm hne)],?_,?_⟩
  · cases hm <;> simp [getHead]
  · intro name hna
    cases hm with
    | first ho => simp [ho] at hna
    | detached hR hr hd => simp [hr,hd] at hna
    | attached hR name' b hr ha hb he =>
      obtain rfl : name' = name := by simpa [hr,ha] using hna
      refine ⟨by simp,?_⟩
      show (((st.withCommit row).setBranch sc.canonical name' { b with head := st.nextId }).branches
        sc.canonical)[name']?.map (·.head) = some st.nextId
      simp

variable {ι : Type} {requests : ι → CommitRequest} {completed : List (ι × CommitId)}

theorem sequential_chain (h : (committers sc requests).Sequential st completed st') :
    (∀ c : CommitId, c < st.nextId → st'.commits[c]? = st.commits[c]?) ∧
      st'.Chain (st.getHead sc.canonical) (completed.map Prod.snd) (st'.getHead sc.canonical) := by
  induction completed generalizing st with
  | nil =>
    have he : st' = st := h
    subst he
    exact ⟨fun _ _ => rfl,rfl⟩
  | cons p rest ih =>
    obtain ⟨tx,hp,hr⟩ := h
    have ho : st.commit sc (requests p.1).changes (requests p.1).metadata (requests p.1).now = .ok (p.2, tx) :=
      (commitTx_getHead st sc (requests p.1)).symm.trans hp
    have hc := committed_of_ok ho
    obtain ⟨hk,hh⟩ := ih hr
    have hl : ∀ c : CommitId, c < st.nextId → c < tx.nextId := fun c hl => hc.nextId ▸ Nat.lt_succ_of_lt hl
    refine ⟨fun c hl' => ?_,?_,?_⟩
    · have hn : c ≠ p.2 := hc.drawn ▸ Nat.ne_of_lt hl'
      exact (hk c (hl c hl')).trans (hc.others c hn)
    · obtain ⟨row,hw,ha⟩ := hc.row
      have hi : p.2 < tx.nextId := by
        rw [hc.nextId,hc.drawn]
        exact Nat.lt_succ_self _
      exact ⟨row,(hk p.2 hi).trans hw,ha⟩
    · rw [← hc.head]
      exact hh

theorem sequential_attached {name : String} (h : (committers sc requests).Sequential st completed st')
    (hn : (st.heads[sc.canonical]?).bind (·.attachedBranch) = some name) (he : completed ≠ []) :
    ((st'.branches sc.canonical)[name]?).map (·.head) = st'.getHead sc.canonical := by
  have ht : ∀ (i : ι) (s : SqliteVersionStore) (a : CommitId) (s' : SqliteVersionStore),
      (s.heads[sc.canonical]?).bind (·.attachedBranch) = some name →
      s.commitTx sc (s.getHead sc.canonical) (requests i) = .ok (a, s') →
      (s'.heads[sc.canonical]?).bind (·.attachedBranch) = some name ∧
        ((s'.branches sc.canonical)[name]?).map (·.head) = s'.getHead sc.canonical := by
    intro i s a s' hs ho
    have hc := committed_of_ok ((commitTx_getHead s sc (requests i)).symm.trans ho)
    rw [hc.head]
    exact hc.attached name hs
  cases completed with
  | nil => exact absurd rfl he
  | cons p rest =>
    obtain ⟨tx,hp,hr⟩ := h
    exact (hr.invariant (fun i s a s' hs ho => ht i s a s' hs.1 ho) (ht p.1 st p.2 tx hn hp)).2

def commitAll (scope : ContextUri) (requests : ι → CommitRequest) (st : SqliteVersionStore) (calls : List ι) :
    SqliteVersionStore :=
  calls.foldl (fun s i => s.afterTx (s.commit scope (requests i).changes (requests i).metadata (requests i).now)) st

theorem sequential_commitAll (h : (committers sc requests).Sequential st completed st') :
    st' = commitAll sc requests st (completed.map Prod.fst) := by
  induction completed generalizing st with
  | nil => exact h
  | cons p rest ih =>
    obtain ⟨tx,hp,hr⟩ := h
    have hc : st.commit sc (requests p.1).changes (requests p.1).metadata (requests p.1).now = .ok (p.2, tx) :=
      (commitTx_getHead st sc (requests p.1)).symm.trans hp
    rw [ih hr]
    simp [commitAll,hc,afterTx,Outcome.ofTx]

/-- What concurrent calls of `commit` come to. `completed` are those that returned `ok`, in the order they did. -/
structure NoneLost (st : SqliteVersionStore) (scope : ContextUri) (requests : ι → CommitRequest)
    (completed : List (ι × CommitId))
    (final : State ι SqliteVersionStore (Option CommitId) VersionError CommitId) : Prop where
  once : (completed.map Prod.fst).Nodup
  returned : ∀ i id, (i, id) ∈ completed ↔ final.calls i = .done (.ok id)
  ancestor : ∀ i id, final.calls i = .done (.ok id) →
    ∃ tip, final.shared.getHead scope.canonical = some tip ∧ Search.Reaches final.shared.dag.parents tip id
  chain : final.shared.Chain (st.getHead scope.canonical) (completed.map Prod.snd) (final.shared.getHead scope.canonical)
  /-- The calls that returned an error left nothing. -/
  nothingElse : final.shared = commitAll scope requests st (completed.map Prod.fst)
  attached : ∀ name, (st.heads[scope.canonical]?).bind (·.attachedBranch) = some name → completed ≠ [] →
    ((final.shared.branches scope.canonical)[name]?).map (·.head) = final.shared.getHead scope.canonical

/-- However reads and transactions of `commit` calls on one scope interleave, no commit is lost. -/
theorem concurrentCommits_noneLost [DecidableEq ι] (st : SqliteVersionStore) (scope : ContextUri)
    (requests : ι → CommitRequest) (schedule : List (Action ι VersionError)) :
    ∃ completed, NoneLost st scope requests completed
      (run (committers scope requests).step (Machine.start st) schedule) := by
  obtain ⟨completed, h⟩ := Machine.run_history (committers_validates scope requests) st schedule
  obtain ⟨-, hc⟩ := sequential_chain h.sequential
  refine ⟨completed, h.once, h.returned, fun i id hi => ?_, hc, sequential_commitAll h.sequential,
    fun name hn he => sequential_attached h.sequential hn he⟩
  exact hc.reaches_mem (List.mem_map_of_mem ((h.returned i id).mpr hi))

end SqliteVersionStore
end UwuContextDb.Version
