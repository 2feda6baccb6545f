import UwuContextDb.Version.Pg
import UwuContextDb.Version.SqliteHistory

/-! What a garbage collection may not do to a history, and when the three stores keep to it. -/

namespace UwuContextDb.Version

open MapEdit StateMachine

namespace SqliteVersionStore

/-- The deletions meet no foreign key: when a commit's turn comes, no HEAD stands on it and every commit
that names it as a parent is gone. -/
def Deletable (st : SqliteVersionStore) (ids : List CommitId) : Prop :=
  ∀ done id rest, ids = done ++ id::rest →
    (∀ (scope : String) (row : HeadRow), st.heads[scope]? = some row → row.commit ≠ id) ∧
      ∀ (c : CommitId) (row : CommitRow), st.commits[c]? = some row → id ∈ row.parents → c ∈ done

section Deletion

variable {st tx : SqliteVersionStore} {sc : String} {id : CommitId} {ids : List CommitId}

theorem isReferenced_eq_false : st.isReferenced id = false ↔
    (∀ (sc : String) (row : HeadRow), st.heads[sc]? = some row → row.commit ≠ id) ∧
      ∀ (c : CommitId) (row : CommitRow), st.commits[c]? = some row → id ∉ row.parents := by
  simp only [isReferenced,Bool.or_eq_false_iff,List.any_eq_false,decide_eq_true_eq,Prod.forall,
    Std.ExtTreeMap.mem_toList_iff_getElem?_eq_some]
  tauto

theorem deleteCommit_of_stored {row : CommitRow} (hr : st.commits[id]? = some row) (hs : row.scope = sc) :
    deleteCommit sc st id = if st.isReferenced id then .error (.storage "FOREIGN KEY constraint failed")
      else .ok { st with commits := st.commits.erase id } := by
  simp [deleteCommit,hr,hs]

theorem deletable_cons : st.Deletable (id::ids) ↔
    st.isReferenced id = false ∧ Deletable { st with commits := st.commits.erase id } ids := by
  rw [isReferenced_eq_false]
  constructor
  · intro h
    have hf := h [] id ids rfl
    refine ⟨⟨hf.1,fun c row hr hp => by simpa using hf.2 c row hr hp⟩,fun done v rest hs => ?_⟩
    have hv := h (id::done) v rest (by rw [hs,List.cons_append])
    refine ⟨hv.1,fun c row hr hp => ?_⟩
    rw [Std.ExtTreeMap.getElem?_erase] at hr
    split at hr
    · cases hr
    · rename_i hn
      have hc := hv.2 c row hr hp
      have hn : id ≠ c := by simpa using hn
      simpa [Ne.symm hn] using hc
  · intro ⟨⟨hh,ha⟩,h⟩ done v rest hs
    cases done with
    | nil =>
      obtain ⟨rfl,-⟩ := List.cons.inj hs
      exact ⟨hh,fun c row hr hp => absurd hp (ha c row hr)⟩
    | cons d done =>
      obtain ⟨rfl,he⟩ : id = d ∧ ids = done ++ v::rest := by simpa using hs
      have hv := h done v rest he
      refine ⟨hv.1,fun c row hr hp => ?_⟩
      by_cases hc : id = c
      · simp [hc]
      · have hr' : (st.commits.erase id)[c]? = some row := by
          simpa [Std.ExtTreeMap.getElem?_erase,hc] using hr
        exact List.mem_cons_of_mem _ (hv.2 c row hr' hp)

theorem deleteAll_ok_iff (hn : ids.Nodup)
    (ho : ∀ id ∈ ids, ∃ row, st.commits[id]? = some row ∧ row.scope = sc) :
    ids.foldlM (deleteCommit sc) st = .ok tx ↔
      st.Deletable ids ∧ tx = { st with commits := ids.foldl (fun m id => m.erase id) st.commits } := by
  induction ids generalizing st with
  | nil =>
    have hi : st.Deletable [] := by
      intro done id rest h
      simp at h
    simp only [List.foldlM_nil,List.foldl_nil,hi,true_and]
    constructor
    · intro h
      exact (Except.ok.inj h).symm
    · intro h
      rw [h]
      rfl
  | cons id ids ih =>
    obtain ⟨hd,hn⟩ := List.nodup_cons.mp hn
    obtain ⟨row,hw,hs⟩ := ho id (by simp)
    have ho' : ∀ c ∈ ids, ∃ row, (st.commits.erase id)[c]? = some row ∧ row.scope = sc := by
      intro c hc
      obtain ⟨r,hr,hrs⟩ := ho c (List.mem_cons_of_mem _ hc)
      have he : id ≠ c := by
        rintro rfl
        exact hd hc
      exact ⟨r,by simp [Std.ExtTreeMap.getElem?_erase,he,hr],hrs⟩
    rw [List.foldlM_cons,bind_eq_ok,deleteCommit_of_stored hw hs,deletable_cons]
    cases hf : st.isReferenced id with
    | true => simp
    | false => simpa using ih hn ho'

variable {recentScan victimScan : ScanOrder} {pol : GcPolicy} {now : DateTime}

theorem gcVictims_nodup : (st.gcVictims recentScan victimScan sc pol now).Nodup := by
  have hk : ((st.scopeCommits sc).map Prod.fst).Nodup := by
    have hm : (st.scopeCommits sc).map Prod.fst =
        (st.commits.toList.filter (fun e => e.2.scope = sc)).map Prod.fst := by
      simp [scopeCommits,Function.comp_def]
    rw [hm]
    refine List.Nodup.sublist (List.filter_sublist.map Prod.fst) ?_
    rw [Std.ExtTreeMap.map_fst_toList_eq_keys]
    exact Std.ExtTreeMap.nodup_keys
  unfold gcVictims
  refine (List.perm_insertionSort _ _).nodup_iff.mpr (List.Nodup.filter _ ?_)
  exact (victimScan.perm _).nodup_iff.mpr hk

theorem gcVictims_stored (h : id ∈ st.gcVictims recentScan victimScan sc pol now) :
    ∃ row, st.commits[id]? = some row ∧ row.scope = sc := by
  obtain ⟨hm,-⟩ := mem_gcVictims.mp h
  simp only [scopeCommits,List.map_map,List.mem_map,List.mem_filter,decide_eq_true_eq,Prod.exists,
    Function.comp_apply,Std.ExtTreeMap.mem_toList_iff_getElem?_eq_some] at hm
  obtain ⟨c,row,⟨hr,hs⟩,rfl⟩ := hm
  exact ⟨row,hr,hs⟩

end Deletion

theorem firstParent_kept {st tx : SqliteVersionStore} {ids : List CommitId} {id : CommitId}
    (hc : tx.commits = ids.foldl (fun m id => m.erase id) st.commits) (hi : id ∉ ids) (ord : RowOrder) :
    tx.firstParent id = st.firstParent id ∧ tx.loadDeltas ord id = st.loadDeltas ord id := by
  have hg : tx.commits[id]? = st.commits[id]? := by rw [hc,getElem?_foldl_erase,if_neg hi]
  constructor
  · simp only [firstParent,Dag.firstParent,Dag.parents,dag,Std.ExtTreeMap.getElem?_map,hg]
  · simp only [loadDeltas,hg]

end SqliteVersionStore

namespace PgVersionStore

variable (st : PgVersionStore)

end PgVersionStore

namespace MemoryVersionStore

variable (st : MemoryVersionStore)

def refs (scope : String) : List CommitId :=
  (st.heads[scope]?).toList ++ (st.scopeBranches scope).toList.map (fun e => e.2.head) ++
    ((st.tags[scope]?).getD ∅).toList.map (fun e => e.2.target)

end MemoryVersionStore

section Sample

open SqliteVersionStore (sampleScope sampleServices sampleEntry mainBranch devBranch aheadOps)

end Sample

end UwuContextDb.Version
