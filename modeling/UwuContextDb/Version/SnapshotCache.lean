import UwuContextDb.Version.GcSafety

/-! Reads through the snapshot caches against the plain replay of the stored rows. -/

namespace UwuContextDb.Version

open MapEdit StateMachine

namespace SnapshotReads

variable {r : SnapshotReads}

def uncached (r : SnapshotReads) : SnapshotReads := { r with hit := fun _ => none }

theorem reconstruct_of_exact (ho : ∀ id p : ℕ, r.firstParent id = some p → p < id) {fuel : ℕ}
    (hx : ∀ (id : ℕ) snap, r.hit id = some snap → id < fuel ∧ snap = r.uncached.reconstruct fuel id)
    (hd : ∀ id : ℕ, fuel ≤ id → r.firstParent id = none) (id : ℕ) :
    r.reconstruct fuel id = r.uncached.reconstruct fuel id := by
  induction id using Nat.strong_induction_on with
  | _ id ih =>
    cases hh : r.hit id with
    | some snap =>
      rw [← (hx id snap hh).2]
      simp only [reconstruct,hh]
    | none =>
      by_cases hl : id < fuel
      · have ho' : ∀ id p : ℕ, r.uncached.firstParent id = some p → p < id := ho
        rw [reconstruct_step ho hl hh,reconstruct_step ho' hl rfl]
        show applyDeltas (r.base fuel (r.firstParent id)) _ = applyDeltas (r.uncached.base fuel (r.firstParent id)) _
        cases hp : r.firstParent id with
        | none => rfl
        | some p =>
          show applyDeltas (r.reconstruct fuel p) _ = applyDeltas (r.uncached.reconstruct fuel p) _
          rw [ih p (ho id p hp)]
          rfl
      · -- nothing is stored there
        have hn := hd id (Nat.le_of_not_lt hl)
        have hc : ∀ s : SnapshotReads, s.firstParent id = none → s.collectChain fuel [id] id = ([id], ∅) := by
          intro s hs
          cases fuel with
          | zero => rfl
          | succ fuel => simp [collectChain,hs]
        simp only [reconstruct,hh,hc r hn,hc r.uncached hn]
        rfl

end SnapshotReads

namespace SqliteVersionStore

variable {st st' : SqliteVersionStore} {order : RowOrder} {id : CommitId} {cache : Std.ExtTreeMap CommitId Snapshot}

def replaySnapshot (st : SqliteVersionStore) (order : RowOrder) (id : CommitId) : Snapshot :=
  ((st.snapshotReads order).uncached).reconstruct (st.nextId + 1) id

structure Aged (st : SqliteVersionStore) : Prop where
  fresh : ∀ id ∈ st.commits, id < st.nextId
  older : ∀ (id : CommitId) (row : CommitRow), st.commits[id]? = some row → ∀ p ∈ row.parents, p < id

theorem WellFormed.aged (h : st.WellFormed) : st.Aged :=
  ⟨h.fresh,fun id row hr p hp => (h.older id row hr p hp).2⟩

theorem Aged.older_firstParent (h : st.Aged) {id p : CommitId} (hp : st.firstParent id = some p) : p < id := by
  obtain ⟨row,hr,hm⟩ := firstParent_eq_some hp
  exact h.older id row hr p hm

theorem Aged.firstParent_lt (h : st.Aged) {id p : CommitId} (hp : st.firstParent id = some p) : id < st.nextId := by
  obtain ⟨row,hr,-⟩ := firstParent_eq_some hp
  exact h.fresh id (mem_of_getElem? hr)

def Caches (st : SqliteVersionStore) (order : RowOrder) (cache : Std.ExtTreeMap CommitId Snapshot) : Prop :=
  ∀ (id : CommitId) (snap : Snapshot), cache[id]? = some snap → id < st.nextId ∧ snap = st.replaySnapshot order id

theorem Caches.erase (h : st.Caches order cache) (id : CommitId) : st.Caches order (cache.erase id) := by
  intro c snap hc
  rw [Std.ExtTreeMap.getElem?_erase] at hc
  split at hc
  · cases hc
  · exact h c snap hc

theorem Caches.insert (h : st.Caches order cache) (hi : id < st.nextId) :
    st.Caches order (cache.insert id (st.replaySnapshot order id)) := by
  intro c snap hc
  rw [Std.ExtTreeMap.getElem?_insert] at hc
  split at hc
  · rename_i hq
    obtain rfl : id = c := compare_eq_iff_eq.mp hq
    exact ⟨hi,(Option.some.inj hc).symm⟩
  · exact h c snap hc

theorem reconstruct_of_caches (hs : st.Aged) (hit : CommitId → Option Snapshot)
    (hx : ∀ id snap, hit id = some snap → id < st.nextId ∧ snap = st.replaySnapshot order id) (id : CommitId) :
    (SnapshotReads.mk st.firstParent hit (st.loadDeltas order)).reconstruct (st.nextId+1) id =
      st.replaySnapshot order id := by
  let r : SnapshotReads := ⟨st.firstParent,hit,st.loadDeltas order⟩
  have hr : r.reconstruct (st.nextId+1) id = r.uncached.reconstruct (st.nextId+1) id := by
    refine SnapshotReads.reconstruct_of_exact (fun id p hp => hs.older_firstParent hp) (fun c snap hc => ?_)
      (fun c hc => ?_) id
    · obtain ⟨hl,hn⟩ := hx c snap hc
      exact ⟨Nat.lt_succ_of_lt hl,hn⟩
    · cases hp : r.firstParent c with
      | none => rfl
      | some p => exact absurd (hs.firstParent_lt hp) (Nat.not_lt.mpr (Nat.le_of_succ_le hc))
  exact hr

theorem replaySnapshot_withCommit (ht : st.Aged) {row : CommitRow} (hc : st'.commits = st.commits.insert st.nextId row)
    (hn : st'.nextId = st.nextId+1) (order : RowOrder) (hi : id < st.nextId) :
    st'.replaySnapshot order id = st.replaySnapshot order id := by
  have hs : ∀ c : CommitId, c < st.nextId → st'.firstParent c = st.firstParent c ∧
      st'.loadDeltas order c = st.loadDeltas order c := by
    intro c hl
    have hne : st.nextId ≠ c := Nat.ne_of_gt hl
    have hg : st'.commits[c]? = st.commits[c]? := by simp [hc,Std.ExtTreeMap.getElem?_insert,hne]
    constructor
    · simp only [firstParent,Dag.firstParent,Dag.parents,dag,Std.ExtTreeMap.getElem?_map,hg]
    · simp only [loadDeltas,hg]
  have ho : ((st'.snapshotReads order).uncached).reconstruct (st'.nextId+1) id =
      ((st.snapshotReads order).uncached).reconstruct (st'.nextId+1) id := by
    refine SnapshotReads.reconstruct_congr (S := fun c => c < st.nextId) (fun c p hl _ hp => ?_) (fun c hl => ?_) _ hi
    · exact lt_trans (ht.older_firstParent hp) hl
    · exact ⟨(hs c hl).1,rfl,(hs c hl).2⟩
  have hd : ∀ c p : ℕ, ((st.snapshotReads order).uncached).firstParent c = some p → p < c :=
    fun c p hp => ht.older_firstParent hp
  rw [replaySnapshot,ho,hn]
  exact SnapshotReads.reconstruct_fuel hd (Nat.lt_succ_of_lt (Nat.lt_succ_of_lt hi)) (Nat.lt_succ_of_lt hi)

variable {ids : List CommitId}

theorem replaySnapshot_closed (hc : st'.commits = ids.foldl (fun m id => m.erase id) st.commits)
    (hn : st'.nextId = st.nextId) (hl : ∀ c p, c ∉ ids → st.firstParent c = some p → p ∉ ids) (order : RowOrder)
    (hd : id ∉ ids) : st'.replaySnapshot order id = st.replaySnapshot order id := by
  rw [replaySnapshot,hn]
  refine SnapshotReads.reconstruct_congr (S := fun c => c ∉ ids)
    (fun c p hi _ hp => hl c p hi hp) (fun c hi => ?_)
    _ hd
  have hr := firstParent_kept hc hi order
  exact ⟨hr.1,rfl,hr.2⟩

theorem replaySnapshot_of_commits (hc : st'.commits = st.commits) (hn : st'.nextId = st.nextId) (order : RowOrder)
    (id : CommitId) : st'.replaySnapshot order id = st.replaySnapshot order id := by
  have hr : (st'.snapshotReads order).uncached = (st.snapshotReads order).uncached := by
    simp only [snapshotReads,SnapshotReads.uncached,SnapshotReads.mk.injEq,true_and]
    constructor
    · funext c
      simp only [firstParent,dag,hc]
    · funext c
      simp only [loadDeltas,hc]
  rw [replaySnapshot,hr,hn,replaySnapshot]

/-- A cache over the commits of a store stays exact when commits are added, or taken away with their
snapshots from below those that stay. -/
theorem Caches.of_commits (h : st.Caches order cache) (hc : st'.commits = st.commits) (hn : st'.nextId = st.nextId) :
    st'.Caches order cache := by
  intro id snap hi
  obtain ⟨hl,rfl⟩ := h id snap hi
  exact ⟨hn ▸ hl,(replaySnapshot_of_commits hc hn order id).symm⟩

theorem Caches.insertCommit (h : st.Caches order cache) (hs : st.Aged) {row : CommitRow}
    (hc : st'.commits = st.commits.insert st.nextId row) (hn : st'.nextId = st.nextId+1) : st'.Caches order cache := by
  intro id snap hi
  obtain ⟨hl,rfl⟩ := h id snap hi
  exact ⟨hn ▸ Nat.lt_succ_of_lt hl,(replaySnapshot_withCommit hs hc hn order hl).symm⟩

theorem Caches.foldl_erase (h : st.Caches order cache) (hn : st'.nextId = st.nextId)
    (hk : ∀ id ∈ cache, id ∉ ids → st'.replaySnapshot order id = st.replaySnapshot order id) :
    st'.Caches order (ids.foldl (fun m id => m.erase id) cache) := by
  intro id snap hi
  rw [getElem?_foldl_erase] at hi
  split at hi
  · cases hi
  · rename_i ho
    obtain ⟨hl,rfl⟩ := h id snap hi
    exact ⟨hn ▸ hl,(hk id (mem_of_getElem? hi) ho).symm⟩

structure Exact (st : SqliteVersionStore) (order : RowOrder) : Prop where
  wellFormed : st.WellFormed
  caches : st.Caches order st.cache

theorem Exact.reconstruct (h : st.Exact order) (id : CommitId) :
    st.reconstructSnapshot order id = st.replaySnapshot order id :=
  reconstruct_of_caches h.wellFormed.aged (fun id => st.cache[id]?) h.caches id

theorem Exact.grows (h : st.Exact order) (hg : Grows st st') : st'.Exact order := by
  induction hg with
  | refs st st' hc hk hn => exact ⟨h.wellFormed.of_commits hc hn hk,hk ▸ h.caches.of_commits hc hn⟩
  | insert st row hp hw => exact ⟨h.wellFormed.withCommit hp,h.caches.insertCommit h.wellFormed.aged rfl rfl⟩
  | trans h₁ h₂ ih₁ ih₂ => exact ih₂ (ih₁ h)

theorem Exact.remember (h : st.Exact order) (id : CommitId) : (st.remember order id).Exact order := by
  refine ⟨h.wellFormed.remember order id,?_⟩
  unfold SqliteVersionStore.remember
  split
  · rename_i hi
    have hn : st.Caches order (st.cache.insert id (st.reconstructSnapshot order id)) := by
      rw [h.reconstruct id]
      exact h.caches.insert hi
    exact hn.of_commits rfl rfl
  · exact h.caches

theorem Exact.evict (h : st.Exact order) (id : CommitId) : (st.evict id).Exact order :=
  ⟨h.wellFormed.evict id,(h.caches.erase id).of_commits rfl rfl⟩

theorem Exact.gc (h : st.Exact order) {recentScan victimScan : ScanOrder} {sc : ContextUri} {pol : GcPolicy}
    {now : DateTime} {report : GcReport} (hg : st.gc recentScan victimScan sc pol now = .ok (report, st')) :
    st'.Exact order := by
  have hw : st'.WellFormed := (gc_evolves hg).wellFormed h.wellFormed
  obtain ⟨ids,tx,hi,ht,-,hs'⟩ := gc_ok hg
  rw [deleteAll_ok_iff (hi ▸ gcVictims_nodup) (fun id hd => gcVictims_stored (hi ▸ hd))] at ht
  obtain ⟨hl,rfl⟩ := ht
  have hc : st'.commits = ids.foldl (fun m id => m.erase id) st.commits := by rw [hs']
  have hk : st'.cache = ids.foldl (fun m id => m.erase id) st.cache := by rw [hs']
  have hn : st'.nextId = st.nextId := by rw [hs']
  have ho : ∀ c p, c ∉ ids → st.firstParent c = some p → p ∉ ids := by
    intro c p hc hp hpi
    obtain ⟨row,hr,ha⟩ := firstParent_eq_some hp
    obtain ⟨done,rest,rfl⟩ := List.append_of_mem hpi
    exact hc (List.mem_append_left _ ((hl done p rest rfl).2 c row hr ha))
  refine ⟨hw,?_⟩
  rw [hk]
  exact h.caches.foldl_erase hn (fun id _ hd => replaySnapshot_closed hc hn ho order hd)

end SqliteVersionStore

def SqliteOp.inOrder (order : RowOrder) : SqliteOp → SqliteOp
  | .merge _ scope from_ into strategy now => .merge order scope from_ into strategy now
  | .knowledgeMerge _ scope from_ into strategy now => .knowledgeMerge order scope from_ into strategy now
  | .cherryPick _ scope picked onto strategy now => .cherryPick order scope picked onto strategy now
  | .rebase _ scope branch onto strategy clock => .rebase order scope branch onto strategy clock
  | .squash _ scope commits message now => .squash order scope commits message now
  | .continueConflictSession _ session resolutions clock => .continueConflictSession order session resolutions clock
  | .remember _ id => .remember order id
  | op => op

namespace SqliteVersionStore

variable {st : SqliteVersionStore} {order : RowOrder}

end SqliteVersionStore
end UwuContextDb.Version
