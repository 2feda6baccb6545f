import UwuContextDb.Version.SqliteRun

/-! What the stored rows mean. A commit has a snapshot when its rows, replayed over the snapshot
of its first parent, cannot disturb each other; in a consistent store every commit has one and
`reconstruct_snapshot` returns it. -/

namespace UwuContextDb.Version

open MapEdit StateMachine
open Std.ExtTreeMap (getElem?_insert getElem?_erase mem_of_mem_erase)

abbrev CommitTable := Std.ExtTreeMap CommitId CommitRow

/-- The snapshot the rows along the first parents spell out, in whatever order they come back. -/
inductive HasSnapshot (commits : CommitTable) : CommitId → Snapshot → Prop
  | root (id : CommitId) (row : CommitRow) (hrow : commits[id]? = some row) (hp : row.parents.head? = none)
    (hs : Separated ∅ row.deltas.edits) : HasSnapshot commits id (replay ∅ row.deltas.edits)
  | child (id p : CommitId) (row : CommitRow) (base : Snapshot) (hrow : commits[id]? = some row)
    (hp : row.parents.head? = some p) (hb : HasSnapshot commits p base)
    (hs : Separated base row.deltas.edits) : HasSnapshot commits id (replay base row.deltas.edits)

inductive HasBase (commits : CommitTable) : Option CommitId → Snapshot → Prop
  | none : HasBase commits none ∅
  | some (p : CommitId) (base : Snapshot) (hb : HasSnapshot commits p base) : HasBase commits (some p) base

namespace HasSnapshot

variable {cs cs' : CommitTable} {id : CommitId} {s s' : Snapshot}

theorem mem (h : HasSnapshot cs id s) : id ∈ cs := by
  cases h with
  | root _ row hr hp hs => exact mem_of_getElem? hr
  | child _ p row base hr hp hb hs => exact mem_of_getElem? hr

theorem of_base {row : CommitRow} (hr : cs[id]? = some row)
    (hb : HasBase cs row.parents.head? s) (hs : Separated s row.deltas.edits) :
    HasSnapshot cs id (replay s row.deltas.edits) := by
  cases hp : row.parents.head? with
  | none =>
    rw [hp] at hb
    cases hb
    exact .root id row hr hp hs
  | some p =>
    rw [hp] at hb
    cases hb with
    | some _ _ hb => exact .child id p row s hr hp hb hs

theorem unique (h : HasSnapshot cs id s) (h' : HasSnapshot cs id s') : s = s' := by
  induction h generalizing s' with
  | root id row hr hp hs =>
    cases h' with
    | root _ row' hr' hp' hs' =>
      obtain rfl := Option.some.inj (hr.symm.trans hr')
      rfl
    | child _ p' row' base' hr' hp' hb' hs' =>
      obtain rfl := Option.some.inj (hr.symm.trans hr')
      simp [hp] at hp'
  | child id p row base hr hp hb hs ih =>
    cases h' with
    | root _ row' hr' hp' hs' =>
      obtain rfl := Option.some.inj (hr.symm.trans hr')
      simp [hp] at hp'
    | child _ p' row' base' hr' hp' hb' hs' =>
      obtain rfl := Option.some.inj (hr.symm.trans hr')
      obtain rfl := Option.some.inj (hp.symm.trans hp')
      rw [ih hb']

theorem mono (h : HasSnapshot cs id s)
    (hk : ∀ c row, cs[c]? = some row → (∃ t, HasSnapshot cs c t) → c ∈ cs' → cs'[c]? = some row)
    (ha : ∀ c row p, cs[c]? = some row → row.parents.head? = some p → c ∈ cs' → p ∈ cs')
    (hi : id ∈ cs') : HasSnapshot cs' id s := by
  induction h with
  | root id row hr hp hs => exact .root id row (hk id row hr ⟨_, .root id row hr hp hs⟩ hi) hp hs
  | child id p row base hr hp hb hs ih =>
    exact .child id p row base (hk id row hr ⟨_, .child id p row base hr hp hb hs⟩ hi) hp
      (ih (ha id row p hr hp hi)) hs

end HasSnapshot

theorem HasBase.mono {cs cs' : CommitTable} {p : Option CommitId} {base : Snapshot}
    (h : HasBase cs p base)
    (hk : ∀ p base, HasSnapshot cs p base → HasSnapshot cs' p base) : HasBase cs' p base := by
  cases h with
  | none => exact .none
  | some p _ hb => exact .some p base (hk p base hb)

namespace SqliteVersionStore

structure WellFormed (st : SqliteVersionStore) : Prop where
  fresh : ∀ id ∈ st.commits, id < st.nextId
  cacheFresh : ∀ id ∈ st.cache, id < st.nextId
  older : ∀ id row, st.commits[id]? = some row → ∀ p ∈ row.parents, p ∈ st.commits ∧ p < id

structure Consistent (st : SqliteVersionStore) : Prop extends WellFormed st where
  recorded : ∀ id ∈ st.commits, ∃ s, HasSnapshot st.commits id s
  cached : ∀ id s, st.cache[id]? = some s → id ∈ st.commits → HasSnapshot st.commits id s

variable {st st' tx : SqliteVersionStore} {id : CommitId} {s : Snapshot}

theorem wellFormed_empty : empty.WellFormed := by
  constructor <;> simp [empty]

theorem consistent_empty : empty.Consistent := ⟨wellFormed_empty,by simp [empty],by simp [empty]⟩

variable {row : CommitRow}

theorem parents_of_row (h : st.commits[id]? = some row) : st.dag.parents id = row.parents := by
  simp [dag,Dag.parents,h]

theorem firstParent_of_row (h : st.commits[id]? = some row) : st.firstParent id = row.parents.head? := by
  simp [firstParent,Dag.firstParent,parents_of_row h]

theorem firstParent_eq_some {p : CommitId} (h : st.firstParent id = some p) :
    ∃ row, st.commits[id]? = some row ∧ p ∈ row.parents := by
  cases hr : st.commits[id]? with
  | none => simp [firstParent,Dag.firstParent,dag,Dag.parents,hr] at h
  | some row =>
    rw [firstParent_of_row hr] at h
    exact ⟨row,rfl,List.mem_of_mem_head? h⟩

theorem WellFormed.firstParent (hs : st.WellFormed) {p : CommitId} (h : st.firstParent id = some p) :
    p ∈ st.commits ∧ p < id := by
  obtain ⟨row,hr,hp⟩ := firstParent_eq_some h
  exact hs.older id row hr p hp

theorem WellFormed.older_firstParent (hs : st.WellFormed) (ord : RowOrder) :
    ∀ id p, (st.snapshotReads ord).firstParent id = some p → p < id :=
  fun _ _ hp => (hs.firstParent hp).2

theorem reconstructSnapshot_step (hs : st.WellFormed) (ord : RowOrder) (hi : id ∈ st.commits)
    (hc : st.cache[id]? = none) : st.reconstructSnapshot ord id =
      applyDeltas (st.baseSnapshot ord (st.firstParent id)) (st.loadDeltas ord id) :=
  SnapshotReads.reconstruct_step (hs.older_firstParent ord) (Nat.lt_succ_of_lt (hs.fresh id hi)) hc

theorem reconstructSnapshot_congr (hc : st'.commits = st.commits) (hk : st'.cache = st.cache)
    (hn : st'.nextId = st.nextId) (order : RowOrder) (id : CommitId) :
    st'.reconstructSnapshot order id = st.reconstructSnapshot order id := by
  have hr : st'.snapshotReads order = st.snapshotReads order := by
    have hf : st'.firstParent = st.firstParent := by
      funext c
      simp only [SqliteVersionStore.firstParent,dag,hc]
    have hl : st'.loadDeltas order = st.loadDeltas order := by
      funext c
      simp only [loadDeltas,hc]
    simp only [snapshotReads,hf,hk,hl]
  simp only [reconstructSnapshot,hr,hn]

theorem reconstructSnapshot_withCommit (hs : st.WellFormed) (ord : RowOrder) (hi : id ∈ st.commits) :
    (st.withCommit row).reconstructSnapshot ord id = st.reconstructSnapshot ord id := by
  have hl := hs.fresh id hi
  have hg : ∀ c, c ∈ st.commits → (st.withCommit row).commits[c]? = st.commits[c]? := by
    intro c hc
    have hn : st.nextId ≠ c := Nat.ne_of_gt (hs.fresh c hc)
    simp [withCommit,getElem?_insert,hn]
  have ha : ∀ c, c ∈ st.commits → ((st.withCommit row).snapshotReads ord).firstParent c =
      (st.snapshotReads ord).firstParent c ∧ ((st.withCommit row).snapshotReads ord).hit c =
      (st.snapshotReads ord).hit c ∧ ((st.withCommit row).snapshotReads ord).deltas c =
      (st.snapshotReads ord).deltas c := by
    intro c hc
    refine ⟨?_,rfl,?_⟩
    · simp only [snapshotReads,SqliteVersionStore.firstParent,Dag.firstParent,Dag.parents,dag,
        Std.ExtTreeMap.getElem?_map,hg c hc]
    · simp only [snapshotReads,loadDeltas,hg c hc]
  have ho := SnapshotReads.reconstruct_congr (S := (· ∈ st.commits))
    (fun _ p _ _ hp => (hs.firstParent (p := p) hp).1) ha (st.nextId+2) hi
  have hf : (st.snapshotReads ord).reconstruct (st.nextId+2) id = st.reconstructSnapshot ord id :=
    SnapshotReads.reconstruct_fuel (hs.older_firstParent ord) (Nat.lt_succ_of_lt (Nat.lt_succ_of_lt hl))
      (Nat.lt_succ_of_lt hl)
  exact ho.trans hf

theorem applyDeltas_loadDeltas {base : Snapshot} (ord : RowOrder)
    (hr : st.commits[id]? = some row) (hs : Separated base row.deltas.edits) :
    applyDeltas base (st.loadDeltas ord id) = replay base row.deltas.edits := by
  have hp : (st.loadDeltas ord id).Perm row.deltas.rows := by
    simpa [loadDeltas,hr] using ord.perm id row.deltas.rows
  rw [applyDeltas_eq_replay,hs.replay_perm (hp.map DeltaRow.edit)]

theorem reconstructSnapshot_eq (ht : st.Consistent) (ord : RowOrder) (h : HasSnapshot st.commits id s) :
    st.reconstructSnapshot ord id = s := by
  induction h with
  | root id row hr hp hs =>
    cases hc : st.cache[id]? with
    | some snap =>
      simp [reconstructSnapshot,SnapshotReads.reconstruct,snapshotReads,hc,
        (ht.cached id snap hc (mem_of_getElem? hr)).unique (.root id row hr hp hs)]
    | none =>
      rw [reconstructSnapshot_step ht.toWellFormed ord (mem_of_getElem? hr) hc,firstParent_of_row hr,hp]
      exact applyDeltas_loadDeltas ord hr hs
  | child id p row base hr hp hb hs ih =>
    cases hc : st.cache[id]? with
    | some snap =>
      simp [reconstructSnapshot,SnapshotReads.reconstruct,snapshotReads,hc,
        (ht.cached id snap hc (mem_of_getElem? hr)).unique (.child id p row base hr hp hb hs)]
    | none =>
      have ha : st.baseSnapshot ord (some p) = base := ih
      rw [reconstructSnapshot_step ht.toWellFormed ord (mem_of_getElem? hr) hc,firstParent_of_row hr,hp,ha]
      exact applyDeltas_loadDeltas ord hr hs

theorem hasSnapshot_reconstruct (ht : st.Consistent) (ord : RowOrder) (hi : id ∈ st.commits) :
    HasSnapshot st.commits id (st.reconstructSnapshot ord id) := by
  obtain ⟨s,hs⟩ := ht.recorded id hi
  rwa [reconstructSnapshot_eq ht ord hs]

theorem baseSnapshot_eq {p : Option CommitId} (hs : st.Consistent) (ord : RowOrder)
    (h : HasBase st.commits p s) : st.baseSnapshot ord p = s := by
  cases h with
  | none => rfl
  | some p base hb => exact reconstructSnapshot_eq hs ord hb

/-- `hold` of the snapshots of `st`: they are those of `st'`, where `st'` still has the commit. -/
def KeepsSnapshots (st st' : SqliteVersionStore) : Prop :=
  ∀ id s, HasSnapshot st.commits id s → id ∈ st'.commits → HasSnapshot st'.commits id s

theorem nextId_notMem (hs : st.WellFormed) : st.nextId ∉ st.commits := by
  intro hm
  exact lt_irrefl _ (hs.fresh _ hm)

@[simp] theorem commits_withCommit (row : CommitRow) : (st.withCommit row).commits = st.commits.insert st.nextId row :=
  rfl

theorem keepsSnapshots_withCommit (hs : st.Consistent) (row : CommitRow) : st.KeepsSnapshots (st.withCommit row) := by
  intro id s h hi
  have hn : ∀ c, c ∈ st.commits → st.nextId ≠ c := by
    rintro c hc rfl
    exact nextId_notMem hs.toWellFormed hc
  refine h.mono ?_ ?_ hi
  · intro c r hr hc _
    have hm : c ∈ st.commits := mem_of_getElem? hr
    simp [getElem?_insert,hn c hm,hr]
  · intro c r p hr hp _
    have hm := (hs.older c r hr p (List.mem_of_mem_head? hp)).1
    simp [hm]

theorem WellFormed.withCommit (hs : st.WellFormed) (hp : ∀ p ∈ row.parents, p ∈ st.commits) :
    (st.withCommit row).WellFormed := by
  constructor
  · intro id hi
    rcases (by simpa using hi : st.nextId = id ∨ id ∈ st.commits) with rfl | hi
    · exact Nat.lt_succ_self _
    · exact Nat.lt_succ_of_lt (hs.fresh id hi)
  · intro id hi
    exact Nat.lt_succ_of_lt (hs.cacheFresh id hi)
  · intro id r hr p ha
    rw [commits_withCommit,getElem?_insert] at hr
    split at hr
    · rename_i he
      obtain rfl : st.nextId = id := by simpa using he
      obtain rfl := Option.some.inj hr
      exact ⟨by simp [hp p ha],hs.fresh p (hp p ha)⟩
    · obtain ⟨hm,hl⟩ := hs.older id r hr p ha
      exact ⟨by simp [hm],hl⟩

theorem Consistent.withCommit (ht : st.Consistent) (hp : ∀ p ∈ row.parents, p ∈ st.commits)
    (hs : ∀ base, HasBase st.commits row.parents.head? base → Separated base row.deltas.edits) :
    (st.withCommit row).Consistent := by
  have hk := keepsSnapshots_withCommit ht row
  have ho : ∀ id, id ∈ st.commits → ∃ s, HasSnapshot (st.withCommit row).commits id s := by
    intro id hi
    obtain ⟨s,h⟩ := ht.recorded id hi
    exact ⟨s,hk id s h (by simp [hi])⟩
  refine ⟨ht.toWellFormed.withCommit hp,?_,?_⟩
  · intro id hi
    rcases (by simpa using hi : st.nextId = id ∨ id ∈ st.commits) with rfl | hi
    · have hr : (st.withCommit row).commits[st.nextId]? = some row := by simp
      cases ha : row.parents.head? with
      | none => exact ⟨_, .root _ row hr ha (hs ∅ (ha ▸ .none))⟩
      | some p =>
        have hpm := hp p (List.mem_of_mem_head? ha)
        obtain ⟨base,hb⟩ := ht.recorded p hpm
        exact ⟨_, .child _ p row base hr ha (hk p base hb (by simp [hpm])) (hs base (ha ▸ .some p base hb))⟩
    · exact ho id hi
  · intro id s hc hi
    have hl : id < st.nextId := ht.cacheFresh id (mem_of_getElem? hc)
    have hm : id ∈ st.commits := by
      rcases (by simpa using hi : st.nextId = id ∨ id ∈ st.commits) with rfl | hm
      · exact absurd hl (lt_irrefl _)
      · exact hm
    exact hk id s (ht.cached id s hc hm) (by simp [hm])

theorem WellFormed.of_commits (hs : st.WellFormed) (hc : st'.commits = st.commits) (hn : st'.nextId = st.nextId)
    (hk : st'.cache = st.cache) : st'.WellFormed := by
  constructor
  · rw [hc,hn]
    exact hs.fresh
  · rw [hk,hn]
    exact hs.cacheFresh
  · rw [hc]
    exact hs.older

theorem reconstructSnapshot_new {ord : RowOrder} {dst : Snapshot} (hs : st.WellFormed)
    (hp : ∀ p ∈ row.parents, p ∈ st.commits)
    (hd : row.deltas = insertDeltas (diffSnapshots (st.baseSnapshot ord row.parents.head?) dst)) :
    (st.withCommit row).reconstructSnapshot ord st.nextId = dst := by
  have hs' := hs.withCommit hp
  have hr : (st.withCommit row).commits[st.nextId]? = some row := by simp
  have hc : (st.withCommit row).cache[st.nextId]? = none := by
    show st.cache[st.nextId]? = none
    by_contra hn
    have hm : st.nextId ∈ st.cache := by simpa using hn
    exact lt_irrefl _ (hs.cacheFresh _ hm)
  have hb : (st.withCommit row).baseSnapshot ord row.parents.head? = st.baseSnapshot ord row.parents.head? := by
    cases hh : row.parents.head? with
    | none => rfl
    | some p => exact reconstructSnapshot_withCommit hs ord (hp p (List.mem_of_mem_head? hh))
  have hl : ((st.withCommit row).loadDeltas ord st.nextId).Perm row.deltas.rows := by
    simpa [loadDeltas,hr] using ord.perm st.nextId row.deltas.rows
  rw [reconstructSnapshot_step hs' ord (mem_of_getElem? hr) hc,firstParent_of_row hr,hb]
  exact applyDeltas_diff (hd ▸ hl)

theorem Consistent.of_commits (hs : st.Consistent) (hc : st'.commits = st.commits) (hn : st'.nextId = st.nextId)
    (hk : st'.cache = st.cache) : st'.Consistent := by
  refine ⟨hs.toWellFormed.of_commits hc hn hk,?_,?_⟩
  · rw [hc]
    exact hs.recorded
  · rw [hc,hk]
    exact hs.cached

theorem notMem_parents_of_unreferenced {c : CommitId} (h : st.isReferenced id = false)
    (hr : st.commits[c]? = some row) : id ∉ row.parents := by
  intro hm
  simp only [isReferenced,Bool.or_eq_false_iff,List.any_eq_false,decide_eq_true_eq] at h
  exact h.1 (c, row) (Std.ExtTreeMap.mem_toList_iff_getElem?_eq_some.mpr hr) hm

theorem keepsSnapshots_delete (ht : st.Consistent) (h : st.isReferenced id = false) :
    st.KeepsSnapshots { st with commits := st.commits.erase id } := by
  intro c s hs hc
  refine hs.mono ?_ ?_ hc
  · intro c r hr _ hc'
    have hn : id ≠ c := by
      rintro rfl
      simp at hc'
    simp [getElem?_erase,hn,hr]
  · intro c r p hr hp _
    have ha := List.mem_of_mem_head? hp
    have hn : id ≠ p := by
      rintro rfl
      exact notMem_parents_of_unreferenced h hr ha
    simp [hn,(ht.older c r hr p ha).1]

theorem WellFormed.delete (hs : st.WellFormed) (h : st.isReferenced id = false) :
    WellFormed { st with commits := st.commits.erase id } := by
  constructor
  · exact fun c hc => hs.fresh c (mem_of_mem_erase hc)
  · exact hs.cacheFresh
  · intro c r hr p hp
    have hr' : st.commits[c]? = some r := by
      simp only [getElem?_erase] at hr
      split at hr
      · simp at hr
      · exact hr
    obtain ⟨hm,hl⟩ := hs.older c r hr' p hp
    have hn : id ≠ p := by
      rintro rfl
      exact notMem_parents_of_unreferenced h hr' hp
    exact ⟨by simp [hn,hm],hl⟩

theorem Consistent.delete (ht : st.Consistent) (h : st.isReferenced id = false) :
    Consistent { st with commits := st.commits.erase id } := by
  have he := keepsSnapshots_delete ht h
  have hu : ∀ c, c ∈ st.commits.erase id → c ∈ st.commits := by
    intro c hc
    exact mem_of_mem_erase hc
  refine ⟨ht.toWellFormed.delete h,?_,?_⟩
  · intro c hc
    obtain ⟨s,hs⟩ := ht.recorded c (hu c hc)
    exact ⟨s,he c s hs hc⟩
  · intro c s hk hc
    exact he c s (ht.cached c s hk (hu c hc)) hc

theorem remember_commits (ord : RowOrder) (id : CommitId) : (st.remember ord id).commits = st.commits := by
  unfold SqliteVersionStore.remember
  split <;> rfl

theorem WellFormed.remember (hs : st.WellFormed) (ord : RowOrder) (id : CommitId) :
    (st.remember ord id).WellFormed := by
  unfold SqliteVersionStore.remember
  split
  · rename_i hl
    refine ⟨hs.fresh,fun c hc => ?_,hs.older⟩
    rcases (by simpa using hc : id = c ∨ c ∈ st.cache) with rfl | hc
    · exact hl
    · exact hs.cacheFresh c hc
  · exact hs

theorem Consistent.remember (hs : st.Consistent) (ord : RowOrder) (id : CommitId) :
    (st.remember ord id).Consistent := by
  refine ⟨hs.toWellFormed.remember ord id,?_,?_⟩
  · rw [remember_commits]
    exact hs.recorded
  · intro c s hk hc
    rw [remember_commits] at hc ⊢
    unfold SqliteVersionStore.remember at hk
    split at hk
    · simp only [getElem?_insert] at hk
      split at hk
      · rename_i he
        obtain rfl : id = c := by simpa using he
        obtain rfl := Option.some.inj hk
        exact hasSnapshot_reconstruct hs ord hc
      · exact hs.cached c s hk hc
    · exact hs.cached c s hk hc

theorem WellFormed.evict (hs : st.WellFormed) (id : CommitId) : (st.evict id).WellFormed :=
  ⟨hs.fresh,fun c hc => hs.cacheFresh c (mem_of_mem_erase hc),hs.older⟩

theorem Consistent.evict (hs : st.Consistent) (id : CommitId) : (st.evict id).Consistent := by
  refine ⟨hs.toWellFormed.evict id,hs.recorded,fun c s hk hc => ?_⟩
  have hk' : (st.cache.erase id)[c]? = some s := hk
  rw [getElem?_erase] at hk'
  split at hk'
  · simp at hk'
  · exact hs.cached c s hk' hc

theorem Evolves.mem_commits (h : Evolves st st') : st.nextId ≤ st'.nextId ∧
    ∀ c ∈ st'.commits, c < st.nextId → c ∈ st.commits := by
  induction h with
  | refs st st' hc hk hn =>
    rw [hc,hn]
    exact ⟨le_rfl,fun c hc _ => hc⟩
  | insert st row hp hw =>
    refine ⟨Nat.le_succ _,fun c hc hl => ?_⟩
    rcases (by simpa using hc : st.nextId = c ∨ c ∈ st.commits) with rfl | hc
    · exact absurd hl (lt_irrefl _)
    · exact hc
  | delete st id h => exact ⟨le_rfl,fun c hc _ => mem_of_mem_erase hc⟩
  | remember st ord id =>
    refine ⟨?_,fun c hc _ => ?_⟩
    · unfold SqliteVersionStore.remember
      split <;> exact le_rfl
    · rwa [remember_commits] at hc
  | evict st id => exact ⟨le_rfl,fun c hc _ => hc⟩
  | trans h h' ih ih' =>
    refine ⟨ih.1.trans ih'.1,fun c hc hl => ih.2 c (ih'.2 c hc (lt_of_lt_of_le hl ih.1)) hl⟩

/-- The invariant rule of the store: what evolves from a consistent store is consistent and
keeps the snapshot of every commit it keeps. -/
theorem Evolves.consistent (h : Evolves st st') (ht : st.Consistent) : st'.Consistent ∧ st.KeepsSnapshots st' := by
  induction h with
  | refs st st' hc hk hn =>
    refine ⟨ht.of_commits hc hn hk,fun id s hs _ => ?_⟩
    rwa [hc]
  | insert st row hp hw =>
    refine ⟨ht.withCommit hp (fun base _ => .of_writes hw row.deltas.edits_keys_nodup),?_⟩
    exact keepsSnapshots_withCommit ht row
  | delete st id h => exact ⟨ht.delete h,keepsSnapshots_delete ht h⟩
  | remember st ord id =>
    refine ⟨ht.remember ord id,fun c s hs _ => ?_⟩
    rwa [remember_commits]
  | evict st id => exact ⟨ht.evict id,fun c s hs _ => hs⟩
  | trans h h' ih ih' =>
    obtain ⟨hx,he⟩ := ih ht
    obtain ⟨ht',he'⟩ := ih' hx
    refine ⟨ht',fun id s hs hi => he' id s (he id s hs ?_) hi⟩
    exact h'.mem_commits.2 id hi (lt_of_lt_of_le (ht.fresh id hs.mem) h.mem_commits.1)

theorem Evolves.wellFormed (h : Evolves st st') (hs : st.WellFormed) : st'.WellFormed := by
  induction h with
  | refs st st' hc hk hn => exact hs.of_commits hc hn hk
  | insert st row hp hw => exact hs.withCommit hp
  | delete st id h => exact hs.delete h
  | remember st ord id => exact hs.remember ord id
  | evict st id => exact hs.evict id
  | trans h h' ih ih' => exact ih' (ih hs)

theorem step_wellFormed (svc : Services) {op : SqliteOp} (hs : st.WellFormed) : (st.step svc op).WellFormed := by
  cases ho : op.isCommit with
  | false => exact (step_evolves svc ho).wellFormed hs
  | true =>
    cases op with
    | commit sc changes md now =>
      refine afterTx_cases hs (fun id tx hk => ?_)
      obtain ⟨rows,row,-,hp,-,-,-,he⟩ := commit_evolves hk
      exact he.wellFormed (hs.withCommit hp)
    | _ => simp [SqliteOp.isCommit] at ho

theorem run_wellFormed (svc : Services) (ops : List SqliteOp) : (StateMachine.run (step svc) empty ops).WellFormed :=
  run_preserves (fun _ _ hs => step_wellFormed svc hs) wellFormed_empty ops

end SqliteVersionStore
end UwuContextDb.Version
