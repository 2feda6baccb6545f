import UwuContextDb.Version.SqliteRun

/-! The references of `SqliteVersionStore`: HEAD and the branches of a scope point to commits of
that scope, and an attached HEAD stands on the head of its branch. -/

namespace UwuContextDb.Version

open StateMachine

variable {row : HeadRow} {nh tgt : CommitId} {branch : BranchName}

namespace SqliteVersionStore

def HeadAttached (st : SqliteVersionStore) : Prop :=
  ∀ (scope : String) (row : HeadRow) (name : String), st.heads[scope]? = some row → row.attachedBranch = some name →
    ∃ b : Branch, (st.branches scope)[name]? = some b ∧ b.head = row.commit

structure RefsSound (st : SqliteVersionStore) : Prop where
  fresh : ∀ id ∈ st.commits, id < st.nextId
  head : ∀ scope row, st.heads[scope]? = some row → st.InScope row.commit scope
  branch : ∀ (scope name : String) (b : Branch), (st.branches scope)[name]? = some b → st.InScope b.head scope
  attached : st.HeadAttached

/-- The condition on a step. A merge that finds HEAD on the head of `into` may find it attached to
another branch only if there is nothing to move; a rebase may find HEAD attached to the branch it
moves only if that branch already stands on `onto`. -/
def StepAttached (st : SqliteVersionStore) : SqliteOp → Prop
  | .merge _ scope from_ into _ _ | .knowledgeMerge _ scope from_ into _ _ =>
    ∀ row name fromHead, st.heads[scope.canonical]? = some row → row.attachedBranch = some name →
      st.branchHead scope.canonical from_ = .ok fromHead → st.branchHead scope.canonical into = .ok row.commit →
      name = into.asStr ∨ fromHead = row.commit
  | .rebase _ scope branch onto _ _ =>
    ∀ row, st.heads[scope.canonical]? = some row → row.attachedBranch = some branch.asStr →
      st.branchHead scope.canonical onto = .ok row.commit
  | .continueConflictSession _ session _ _ =>
    ∀ row branch onto, st.heads[session.scope.canonical]? = some row → session.operation = .rebase branch onto →
      row.attachedBranch ≠ some branch.asStr
  | _ => True

variable {st st' tx tx' : SqliteVersionStore} {scope name : String} {id new : CommitId}

theorem refsSound_empty : empty.RefsSound := by
  constructor <;> simp [empty,HeadAttached]

theorem RefsSound.inScope_withCommit (ht : st.RefsSound) (row : CommitRow) (h : st.InScope id scope) :
    (st.withCommit row).InScope id scope := by
  obtain ⟨r,hr,hs⟩ := h
  have hl := ht.fresh id (MapEdit.mem_of_getElem? hr)
  have hn : st.nextId ≠ id := Nat.ne_of_gt hl
  exact ⟨r,by simp [withCommit,Std.ExtTreeMap.getElem?_insert,hn,hr],hs⟩

theorem inScope_nextId {row : CommitRow} (h : row.scope = scope) : (st.withCommit row).InScope st.nextId scope :=
  ⟨row,by simp [withCommit],h⟩

theorem RefsSound.withCommit (hs : st.RefsSound) (row : CommitRow) : (st.withCommit row).RefsSound where
  fresh id hi := by
    rcases (by simpa [SqliteVersionStore.withCommit] using hi : st.nextId = id ∨ id ∈ st.commits) with rfl | hi
    · exact Nat.lt_succ_self _
    · exact Nat.lt_succ_of_lt (hs.fresh id hi)
  head scope r hr := hs.inScope_withCommit row (hs.head scope r hr)
  branch scope name b hb := hs.inScope_withCommit row (hs.branch scope name b hb)
  attached := hs.attached

variable {b : Branch} {onto : Option BranchName} {ord : RowOrder}

theorem RefsSound.setBranch (hs : st.RefsSound) (hb : st.InScope b.head scope)
    (hf : ∀ row, st.heads[scope]? = some row → row.attachedBranch ≠ some name) :
    (st.setBranch scope name b).RefsSound where
  fresh := hs.fresh
  head := hs.head
  branch scope' name' b' hb' := by
    rw [getElem?_setBranch] at hb'
    split at hb'
    · rename_i he
      obtain rfl := Option.some.inj hb'
      exact he.1 ▸ hb
    · exact hs.branch scope' name' b' hb'
  attached scope' row name' hr ha := by
    obtain ⟨b',hb',he⟩ := hs.attached scope' row name' hr ha
    have hn : ¬ (scope = scope' ∧ name = name') := by
      rintro ⟨rfl,rfl⟩
      exact hf row hr ha
    exact ⟨b',by rw [getElem?_setBranch,if_neg hn,hb'],he⟩

theorem RefsSound.moveBoth (hs : st.RefsSound) {attached : Option String}
    (hb : st.InScope b.head scope) (ha : ∀ name', attached = some name' → name' = name) :
    ((st.setBranch scope name b).setHead scope ⟨b.head,attached⟩).RefsSound where
  fresh := hs.fresh
  head scope' row hr := by
    rw [getElem?_setHead] at hr
    split at hr
    · rename_i he
      obtain rfl := Option.some.inj hr
      exact he ▸ hb
    · exact hs.head scope' row hr
  branch scope' name' b' hb' := by
    have hb' : ((st.setBranch scope name b).branches scope')[name']? = some b' := hb'
    rw [getElem?_setBranch] at hb'
    split at hb'
    · rename_i he
      obtain rfl := Option.some.inj hb'
      exact he.1 ▸ hb
    · exact hs.branch scope' name' b' hb'
  attached scope' row name' hr hn := by
    show ∃ b', ((st.setBranch scope name b).branches scope')[name']? = some b' ∧ b'.head = row.commit
    rw [getElem?_setHead] at hr
    split at hr
    · rename_i he
      obtain rfl := Option.some.inj hr
      exact ⟨b,by rw [getElem?_setBranch,if_pos ⟨he,(ha name' hn).symm⟩],rfl⟩
    · rename_i he
      obtain ⟨b',hb',hh⟩ := hs.attached scope' row name' hr hn
      exact ⟨b',by rw [getElem?_setBranch,if_neg (fun h => he h.1),hb'],hh⟩

theorem RefsSound.setHead (hs : st.RefsSound) (hc : st.InScope row.commit scope)
    (ha : ∀ name, row.attachedBranch = some name → ∃ b : Branch,
      (st.branches scope)[name]? = some b ∧ b.head = row.commit) :
    (st.setHead scope row).RefsSound where
  fresh := hs.fresh
  head scope' r hr := by
    rw [getElem?_setHead] at hr
    split at hr
    · rename_i he
      obtain rfl := Option.some.inj hr
      exact he ▸ hc
    · exact hs.head scope' r hr
  branch := hs.branch
  attached scope' r name hr hn := by
    rw [getElem?_setHead] at hr
    split at hr
    · rename_i he
      obtain rfl := Option.some.inj hr
      subst he
      exact ha name hn
    · exact hs.attached scope' r name hr hn

theorem setHead_self (h : st.heads[scope]? = some row) : st.setHead scope row = st := by
  have hh : st.heads.insert scope row = st.heads := by
    refine Std.ExtTreeMap.ext_getElem? (fun k => ?_)
    by_cases hk : scope = k <;> simp [Std.ExtTreeMap.getElem?_insert,hk]
    exact hk ▸ h.symm
  simp [SqliteVersionStore.setHead,hh]

theorem moveBranch_self (h : (st.branches scope)[name]? = some b) : st.moveBranch scope name b b.head = st := by
  have hm : (st.branches scope).insert name b = st.branches scope := by
    refine Std.ExtTreeMap.ext_getElem? (fun k => ?_)
    by_cases hk : name = k <;> simp [Std.ExtTreeMap.getElem?_insert,hk]
    exact hk ▸ h.symm
  simp [moveBranch,SqliteVersionStore.setBranch,hm]

theorem RefsSound.of_commits (hs : st.RefsSound) (hh : st'.heads = st.heads) (hb : st'.branches = st.branches)
    (hf : ∀ id ∈ st'.commits, id < st'.nextId)
    (hc : ∀ id scope, st.InScope id scope → (∃ row, st.heads[scope]? = some row ∧ row.commit = id) ∨
      (∃ (name : String) (b : Branch), (st.branches scope)[name]? = some b ∧ b.head = id) →
      st'.InScope id scope) : st'.RefsSound where
  fresh := hf
  head scope row hr := by
    rw [hh] at hr
    exact hc _ scope (hs.head scope row hr) (.inl ⟨row,hr,rfl⟩)
  branch scope name b hbr := by
    rw [hb] at hbr
    exact hc _ scope (hs.branch scope name b hbr) (.inr ⟨name,b,hbr,rfl⟩)
  attached scope row name hr hn := by
    rw [hh] at hr
    rw [hb]
    exact hs.attached scope row name hr hn

theorem CommitMoves.refsSound (ht : tx.RefsSound) (hi : tx.InScope id scope)
    (h : CommitMoves st tx scope id tx') : tx'.RefsSound := by
  cases h with
  | first ho => exact ht.setHead hi (by simp)
  | detached row hr hd => exact ht.setHead hi (by simp)
  | attached row name b hr ha hb he =>
    exact ht.moveBoth (b := { b with head := id }) hi (fun name' hn => (Option.some.inj hn).symm)

theorem MergeMoves.refsSound {into : String} (ht : tx.RefsSound) (hh : tx.heads = st.heads)
    (hb : tx.branches = st.branches) (hw : tx.InScope new scope)
    (ho : ∀ row name, st.heads[scope]? = some row → row.attachedBranch = some name → row.commit = nh →
      name = into ∨ new = nh) (h : MergeMoves st tx scope into nh new tx') : tx'.RefsSound := by
  obtain ⟨b,row,hbr,he,hr,hc,rfl⟩ := h
  by_cases hm : new = nh
  · have ha : new = b.head := hm.trans he.symm
    have hr' : tx.heads[scope]? = some ⟨b.head,row.attachedBranch⟩ := by
      rw [hh,hr,he,← hc]
    rw [ha,moveBranch_self (by rw [hb,hbr]),setHead_self hr']
    exact ht
  · exact ht.moveBoth (b := { b with head := new }) hw
      (fun name' hn => (ho row name' hr hn hc).resolve_right hm)

theorem PickMoves.refsSound (hs : st.RefsSound) (ht : tx.RefsSound)
    (hh : tx.heads = st.heads) (hw : tx.InScope new scope) (h : PickMoves st tx scope tgt new onto tx') :
    tx'.RefsSound := by
  cases h with
  | none => exact ht
  | branch b br hb he hn =>
    refine ht.setBranch hw (fun row hr ha => ?_)
    rw [hh] at hr
    obtain ⟨br',hb',hc⟩ := hs.attached scope row b.asStr hr ha
    obtain rfl := Option.some.inj (hb.symm.trans hb')
    exact hn row hr ha (hc.symm.trans he)
  | attached b br row hb he ho ha hc =>
    exact ht.moveBoth (b := { br with head := new }) hw (fun name' hn => (Option.some.inj hn).symm)

theorem branchHead_inScope (hs : st.RefsSound) (h : st.branchHead scope branch = .ok id) :
    st.InScope id scope := by
  obtain ⟨b,hb,rfl⟩ := branchHead_ok h
  exact hs.branch scope branch.asStr b hb

theorem Merged.refsSound {into : BranchName} {fh : CommitId}
    {merged : Snapshot → List ContextUri → Prop} {res : MergeResult} (ht : st.RefsSound)
    (hf : st.InScope fh scope)
    (ho : ∀ row name, st.heads[scope]? = some row → row.attachedBranch = some name → row.commit = nh →
      name = into.asStr ∨ fh = nh)
    (h : Merged st ord scope into fh nh merged res tx') : tx'.RefsSound := by
  cases h with
  | fastForward _ ha hm => exact hm.refsSound ht rfl rfl hf ho
  | diverged _ row snap conflicts ha he hp hs hpa hd hm =>
    refine hm.refsSound (ht.withCommit row) rfl rfl (inScope_nextId hs) (fun r name hr hn hc => ?_)
    refine .inl ((ho r name hr hn hc).resolve_right ?_)
    -- a diverged merge has two different heads
    rintro rfl
    simp [isAncestor,Dag.isAncestor_self] at ha

theorem commitCherryPickSnapshot_refsSound {sc : ContextUri} {commit : CommitId}
    {snap : Snapshot} {now : DateTime} (hst : st.RefsSound)
    (h : st.commitCherryPickSnapshot ord sc commit tgt onto snap now = .ok (new, tx')) :
    tx'.RefsSound ∧ (onto = none → tx'.InScope new sc.canonical ∧ tx'.heads = st.heads ∧
      tx'.branches = st.branches) := by
  obtain ⟨rfl,ht,row,hs,hp,-,hd,hm⟩ := commitCherryPickSnapshot_ok h
  refine ⟨hm.refsSound hst (hst.withCommit row) rfl (inScope_nextId hs),?_⟩
  rintro rfl
  cases hm with
  | none => exact ⟨inScope_nextId hs,rfl,rfl⟩

def Picking (st : SqliteVersionStore) (scope : String) (s : SqliteVersionStore) (tip : CommitId) : Prop :=
  s.RefsSound ∧ s.InScope tip scope ∧ s.heads = st.heads ∧ s.branches = st.branches

theorem pickAll_picking (ord : RowOrder) {sc : ContextUri} (strat : ConflictStrategy)
    (clk : CommitId → DateTime) (own applied : List CommitId) {s : SqliteVersionStore}
    (h : Picking st sc.canonical s tgt) :
    (∃ tip, Picking st sc.canonical (pickAll ord sc strat clk s own tgt applied).store tip) ∧
      ∀ tip ids, (pickAll ord sc strat clk s own tgt applied).result = .ok (tip, ids) →
        Picking st sc.canonical (pickAll ord sc strat clk s own tgt applied).store tip := by
  refine pickAll_invariant (Picking st sc.canonical) ?_ h
  rintro s commit tgt snap now new s' ⟨hs,-,hh,hb⟩ hp
  obtain ⟨hs',hn⟩ := commitCherryPickSnapshot_refsSound hs hp
  obtain ⟨he,hh',hb'⟩ := hn rfl
  exact ⟨hs',he,hh'.trans hh,hb'.trans hb⟩

theorem finishRebase_refsSound {expected : CommitId}
    {picked : Outcome SqliteVersionStore (CommitId × List CommitId)} (hi : ∃ tip, Picking st scope picked.store tip)
    (hre : ∀ tip ids, picked.result = .ok (tip, ids) → Picking st scope picked.store tip)
    (hf : ∀ row, st.heads[scope]? = some row → row.attachedBranch ≠ some branch.asStr) :
    (finishRebase scope branch expected picked).store.RefsSound := by
  obtain ⟨tip,ho,-⟩ := hi
  rcases finishRebase_store scope branch expected picked with
    hs | ⟨b,tgt,applied,hr,hb,he,hs⟩
  · exact hs ▸ ho
  · obtain ⟨-,ht,hh,-⟩ := hre tgt applied hr
    rw [hs]
    exact ho.setBranch (b := { b with head := tgt }) ht (by rwa [hh])

theorem gc_refsSound {recentScan victimScan : ScanOrder} {scope : ContextUri} {pol : GcPolicy} {now : DateTime}
    {report : GcReport} (ht : st.RefsSound)
    (h : st.gc recentScan victimScan scope pol now = .ok (report, tx')) : tx'.RefsSound := by
  obtain ⟨ids,tx,rfl,hx,-,rfl⟩ := gc_ok h
  have hd := deleted_of_ok hx
  refine ht.of_commits hd.heads hd.branches (fun id hi => ?_) (fun id scope hn he => ?_)
  · obtain ⟨row,ho⟩ := Option.isSome_iff_exists.mp (Std.ExtTreeMap.isSome_getElem?_iff_mem.mpr hi)
    exact hd.nextId ▸ ht.fresh id (MapEdit.mem_of_getElem? (hd.subset id row ho))
  · obtain ⟨row,ho,hs⟩ := hn
    refine ⟨row,hd.kept id row ho (fun hv => ?_),hs⟩
    obtain ⟨hc,-,hk,-⟩ := mem_gcVictims.mp hv
    obtain ⟨r,hr,hs'⟩ := by simpa [scopeCommits] using hc
    obtain rfl := Option.some.inj (ho.symm.trans hr)
    subst hs
    rw [hs'] at he
    refine hk (mem_protectedCommits.mpr ⟨id,?_, .refl⟩)
    rcases he with ⟨head,hh,rfl⟩ | ⟨name,b,hb,rfl⟩
    · simp [protectedRefs,getHead,hh]
    · have hm := Std.ExtTreeMap.mem_toList_iff_getElem?_eq_some.mpr hb
      simp only [protectedRefs,List.mem_append,List.mem_map]
      exact .inl (.inr ⟨_,hm,rfl⟩)

theorem getElem?_moveBranches (old : CommitId) (scope' name' : String) :
    ((tx.moveBranches scope old new).branches scope')[name']? = ((tx.branches scope')[name']?).map
      (fun b => if scope = scope' ∧ b.head = old then { b with head := new } else b) := by
  by_cases hs : scope = scope'
  · subst hs
    simp [moveBranches,Std.ExtTreeMap.getElem?_map]
  · simp [moveBranches,hs,Function.update_of_ne (Ne.symm hs)]

theorem getElem?_casHead (expected : CommitId) (scope' : String) :
    (tx.casHead scope expected new).2.heads[scope']? = (tx.heads[scope']?).map
      (fun row => if scope = scope' ∧ row.commit = expected then ⟨new,row.attachedBranch⟩ else row) := by
  unfold casHead
  split
  · rename_i row hr
    split
    · rename_i hc
      by_cases hs : scope = scope'
      · subst hs
        simp [hr,hc]
      · simp [hs]
    · rename_i hc
      by_cases hs : scope = scope'
      · subst hs
        simp [hr,hc]
      · simp [hs]
  · rename_i hn
    by_cases hs : scope = scope'
    · subst hs
      simp [hn]
    · simp [hs]

theorem branches_casHead (expected : CommitId) : (tx.casHead scope expected new).2.branches = tx.branches := by
  unfold casHead
  split
  · split <;> rfl
  · rfl

theorem RefsSound.moveAll {old : CommitId} (ht : tx.RefsSound) (hw : tx.InScope new scope) :
    ((tx.moveBranches scope old new).casHead scope old new).2.RefsSound := by
  obtain ⟨hc,-,hn⟩ := casHead_refs (tx.moveBranches scope old new) scope old new
  have hi : ∀ id scope', tx.InScope id scope' →
      ((tx.moveBranches scope old new).casHead scope old new).2.InScope id scope' := by
    rintro id scope' ⟨row,ho,hs⟩
    exact ⟨row,by rw [hc]; exact ho,hs⟩
  constructor
  · rw [hc,hn]
    exact ht.fresh
  · intro scope' row hr
    rw [getElem?_casHead] at hr
    obtain ⟨r,hr',rfl⟩ := Option.map_eq_some_iff.mp hr
    split
    · rename_i he
      exact hi _ _ (he.1 ▸ hw)
    · exact hi _ _ (ht.head scope' r hr')
  · intro scope' name b hb
    rw [branches_casHead,getElem?_moveBranches] at hb
    obtain ⟨b',hb',rfl⟩ := Option.map_eq_some_iff.mp hb
    split
    · rename_i he
      exact hi _ _ (he.1 ▸ hw)
    · exact hi _ _ (ht.branch scope' name b' hb')
  · intro scope' row name hr ha
    rw [getElem?_casHead] at hr
    obtain ⟨r,hr',rfl⟩ := Option.map_eq_some_iff.mp hr
    have hat : r.attachedBranch = some name := by
      split at ha <;> exact ha
    obtain ⟨b,hb,he⟩ := ht.attached scope' r name hr' hat
    refine ⟨_,by rw [branches_casHead,getElem?_moveBranches,hb]; rfl,?_⟩
    show (if scope = scope' ∧ b.head = old then { b with head := new } else b).head = _
    rw [he]
    by_cases hm : scope = scope' ∧ r.commit = old <;> simp [hm,he]

theorem RefsSound.deleteBranch (hs : st.RefsSound)
    (hf : ¬ ((st.heads[scope]?).bind (·.attachedBranch) = some name ∧ name ∈ st.branches scope)) :
    RefsSound { st with branches := Function.update st.branches scope ((st.branches scope).erase name) } := by
  have hg := getElem?_eraseBranch st scope name
  constructor
  · exact hs.fresh
  · exact hs.head
  · intro scope' name' b hb
    have hb : (Function.update st.branches scope ((st.branches scope).erase name) scope')[name']? = some b := hb
    rw [hg] at hb
    split at hb
    · cases hb
    · exact hs.branch scope' name' b hb
  · intro scope' row name' hr ha
    obtain ⟨b,hb,he⟩ := hs.attached scope' row name' hr ha
    refine ⟨b,?_,he⟩
    show (Function.update st.branches scope ((st.branches scope).erase name) scope')[name']? = some b
    rw [hg,if_neg,hb]
    rintro ⟨rfl,rfl⟩
    have hr : st.heads[scope]? = some row := hr
    exact hf ⟨by simp [hr,ha],MapEdit.mem_of_getElem? hb⟩

theorem rebase_refsSound {sc : ContextUri} {onto : BranchName}
    {strat : ConflictStrategy} {clk : CommitId → DateTime} (ht : st.RefsSound)
    (h : st.StepAttached (.rebase ord sc branch onto strat clk)) :
    (st.rebase ord sc branch onto strat clk).store.RefsSound := by
  simp only [rebase]
  split
  · exact ht
  · exact ht
  · rename_i branchHead ontoHead hb ho
    by_cases hf : ∀ row, st.heads[sc.canonical]? = some row → row.attachedBranch ≠ some branch.asStr
    · obtain ⟨hi,hre⟩ := pickAll_picking ord strat clk
        (st.commitsToRebase ontoHead (st.commits.size+1) [] branchHead) []
        ⟨ht,branchHead_inScope ht ho,rfl,rfl⟩
      exact finishRebase_refsSound hi hre hf
    · -- HEAD follows the branch, which stands on `onto` already: there is nothing to pick and nothing to move
      push Not at hf
      obtain ⟨row,hr,ha⟩ := hf
      have hn : ontoHead = row.commit := by
        have := h row hr ha
        rw [ho] at this
        exact Except.ok.inj this
      obtain ⟨b,hbr,he⟩ := ht.attached _ row _ hr ha
      obtain ⟨b',hbr',he'⟩ := branchHead_ok hb
      obtain rfl := Option.some.inj (hbr.symm.trans hbr')
      have hsa : branchHead = ontoHead := by rw [← he',he,hn]
      have hw : st.commitsToRebase ontoHead (st.commits.size+1) [] branchHead = [] := by
        simp [commitsToRebase,isAncestor,hsa,Dag.isAncestor_self]
      rw [hw]
      rcases finishRebase_store sc.canonical branch branchHead (pickAll ord sc strat clk st [] ontoHead [])
        with hs | ⟨b',tgt,applied,hre,hb',-,hs⟩
      · exact hs ▸ ht
      · have hre : Except.ok (ontoHead, []) = Except.ok (tgt, applied) := hre
        obtain ⟨rfl,-⟩ := Prod.mk.inj (Except.ok.inj hre)
        have hb' : (st.branches sc.canonical)[branch.asStr]? = some b' := hb'
        obtain rfl := Option.some.inj (hbr.symm.trans hb')
        have hm := moveBranch_self hbr
        rw [he,← hn] at hm
        rw [hs]
        exact hm.symm ▸ ht

theorem step_refsSound (svc : Services) (op : SqliteOp) (ht : st.RefsSound) (h : st.StepAttached op) :
    (st.step svc op).RefsSound := by
  cases op with
  | commit scope changes md now =>
    refine afterTx_cases ht (fun id tx ho => ?_)
    obtain ⟨rows,row,-,-,rfl,hs,-,-,-,hm⟩ := commit_ok ho
    exact hm.refsSound (ht.withCommit row) (inScope_nextId hs)
  | createBranch scope name from_ bt now =>
    refine afterTx_cases ht (fun b tx ho => ?_)
    obtain ⟨he,hin,rfl,rfl⟩ := createBranch_ok ho
    refine ht.setBranch hin (fun row hr ha => ?_)
    obtain ⟨b,hb,-⟩ := ht.attached _ row name.asStr hr ha
    simp [he] at hb
  | deleteBranch scope name =>
    refine afterTx_cases ht (fun u tx ho => ?_)
    obtain ⟨hfr,rfl⟩ := deleteBranch_ok ho
    exact ht.deleteBranch hfr
  | switchHead scope branch =>
    refine afterTx_cases ht (fun u tx ho => ?_)
    obtain ⟨b,hb,⟨-,rfl⟩ | ⟨row,-,rfl⟩⟩ := switchHead_ok ho
    · exact ht
    · refine ht.setHead (ht.branch _ _ b hb) (fun name hn => ?_)
      obtain rfl := Option.some.inj hn
      exact ⟨b,hb,rfl⟩
  | createTag scope tag =>
    refine afterTx_cases ht (fun u tx ho => ?_)
    obtain ⟨-,rfl⟩ := createTag_ok ho
    exact ht.of_commits rfl rfl ht.fresh (fun _ _ hin _ => hin)
  | merge ord scope from_ into strat now =>
    refine afterTx_cases ht (fun res tx ho => ?_)
    obtain ⟨fh,nh,hf,hi,hm⟩ := merge_ok ho
    refine hm.refsSound ht (branchHead_inScope ht hf) (fun row name hr hn hc => ?_)
    exact hc ▸ h row name fh hr hn hf (hc ▸ hi)
  | knowledgeMerge ord scope from_ into strat now =>
    refine afterTx_cases ht (fun res tx ho => ?_)
    obtain ⟨fh,nh,hf,hi,hm⟩ := knowledgeMerge_ok ho
    refine hm.refsSound ht (branchHead_inScope ht hf) (fun row name hr hn hc => ?_)
    exact hc ▸ h row name fh hr hn hf (hc ▸ hi)
  | cherryPick ord scope commit onto strat now =>
    refine afterTx_cases ht (fun id tx ho => ?_)
    simp only [cherryPick,bind_eq_ok] at ho
    obtain ⟨tgt,-,ho⟩ := ho
    obtain ⟨ses,finalSnap,-,-,-,hco⟩ := cherryPickAtBranch_ok ho
    exact (commitCherryPickSnapshot_refsSound ht hco).1
  | rebase ord scope branch onto strat clk =>
    exact rebase_refsSound ht h
  | squash ord scope cs message now =>
    refine afterTx_cases ht (fun res tx ho => ?_)
    obtain ⟨oldest,nw,-,-,-,-,-,-,-,row,hs,-,-,-,-,rfl⟩ := squash_ok ho
    exact (ht.withCommit row).moveAll (inScope_nextId hs)
  | continueConflictSession ord ses resolutions clk =>
    simp only [step,continueConflictSession]
    split
    · exact ht
    · split
      · refine afterTx_cases ht (fun ids tx ho => ?_)
        obtain ⟨⟨new,tx1⟩,hco,hq⟩ := map_eq_ok.mp ho
        obtain ⟨-,rfl⟩ := Prod.mk.inj hq
        exact (commitCherryPickSnapshot_refsSound ht hco).1
      · rename_i branch onto hop
        split
        · exact ht
        · split
          · exact ht
          · rename_i new st1 hco
            obtain ⟨ht1,hno⟩ := commitCherryPickSnapshot_refsSound ht hco
            obtain ⟨he,hh,hb⟩ := hno rfl
            obtain ⟨hp,hre⟩ := pickAll_picking ord .fail clk _ [new] ⟨ht1,he,hh,hb⟩
            exact finishRebase_refsSound hp hre (fun row hr ha => h row branch onto hr hop ha)
  | gc recentScan victimScan scope pol now =>
    exact afterTx_cases ht (fun report tx ho => gc_refsSound ht ho)
  | remember ord id =>
    simp only [step,remember]
    split
    · exact ht.of_commits rfl rfl ht.fresh (fun _ _ hin _ => hin)
    · exact ht
  | evict id => exact ht.of_commits rfl rfl ht.fresh (fun _ _ hin _ => hin)

theorem RefsSound.commit_ok {changes : ChangeSet} (hs : st.RefsSound) (sc : ContextUri) (md : CommitMeta)
    (now : DateTime) (h : checkUpdates changes.updates = .ok ()) :
    ∃ tx, st.commit sc changes md now = .ok (st.nextId, tx) := by
  have hw : ∃ rows, changeRows changes = .ok rows := ⟨_,by rw [changeRows,h]; rfl⟩
  obtain ⟨rows,hw⟩ := hw
  have hpa : ¬ ∃ p ∈ (st.getHead sc.canonical).toList, p ∉ st.commits := by
    rintro ⟨p,hp,hno⟩
    obtain ⟨row,ho,rfl⟩ : ∃ row, st.heads[sc.canonical]? = some row ∧ row.commit = p := by
      simpa [getHead] using hp
    obtain ⟨r,hr,-⟩ := hs.head _ row ho
    exact hno (MapEdit.mem_of_getElem? hr)
  have hn : (st.getHead sc.canonical).toList.Nodup := by cases st.getHead sc.canonical <;> simp
  simp only [commit,hw,insertCommit,hpa,hn,if_false,not_true_eq_false,bind,Except.bind]
  cases hh : st.heads[sc.canonical]? with
  | none => exact ⟨_,rfl⟩
  | some head =>
    cases ha : head.attachedBranch with
    | none =>
      simp only [advanceAttached,ha,updateHeadInTx,casHead,hh,if_true]
      exact ⟨_,rfl⟩
    | some name =>
      obtain ⟨b,hb,he⟩ := hs.attached _ head name hh ha
      simp only [advanceAttached,ha,casBranch,hb,he,if_true,updateHeadInTx,casHead,heads_setBranch,hh]
      exact ⟨_,rfl⟩

/-- In every state of a run whose steps meet the condition, an attached HEAD stands on the head of
its branch, and the next commit on any scope is never rejected as diverged. -/
theorem run_headAttached (services : Services) (ops : List SqliteOp)
    (h : Meets (step services) StepAttached empty ops) :
    (run (step services) empty ops).HeadAttached ∧ ∀ (scope : ContextUri) (changes : ChangeSet) (metadata : CommitMeta)
      (now : DateTime), checkUpdates changes.updates = .ok () →
        ∃ id tx, (run (step services) empty ops).commit scope changes metadata now = .ok (id, tx) := by
  have ht : (run (step services) empty ops).RefsSound :=
    run_invariant (fun s op hs ho => step_refsSound services op hs ho) refsSound_empty h
  refine ⟨ht.attached, fun scope changes metadata now hc => ?_⟩
  obtain ⟨tx, hx⟩ := ht.commit_ok scope metadata now hc
  exact ⟨_, tx, hx⟩

/-- `main` is checked out when `dev` is merged into it. -/
def mergeIntoHeadOps : List SqliteOp :=
  aheadOps ++ [.switchHead sampleScope mainBranch, .merge .asStored sampleScope devBranch mainBranch .threeWay 2]

theorem run_headAttached_merge : (run (step sampleServices) empty mergeIntoHeadOps).HeadAttached := by
  refine (run_headAttached sampleServices mergeIntoHeadOps
    ⟨trivial, trivial, trivial, trivial, trivial, trivial, ?_, trivial⟩).1
  intro row name fromHead hr hn _ _
  have hh : (run (step sampleServices) empty
      (aheadOps ++ [.switchHead sampleScope mainBranch])).heads[sampleScope.canonical]? = some ⟨0, some "main"⟩ := by
    decide
  obtain rfl := Option.some.inj (hh.symm.trans hr)
  exact .inl (Option.some.inj hn).symm

/-- HEAD is attached to a third branch, on the commit of `main`, when `dev` is merged into `main`. -/
def mergeElsewhereOps : List SqliteOp :=
  aheadOps ++ [.createBranch sampleScope ⟨"side", by decide⟩ 0 .experiment 2,
    .switchHead sampleScope ⟨"side", by decide⟩, .merge .asStored sampleScope devBranch mainBranch .threeWay 3]

theorem run_not_headAttached :
    ¬ ∀ (services : Services) (ops : List SqliteOp), (run (step services) empty ops).HeadAttached := by
  intro h
  have hh : (run (step sampleServices) empty mergeElsewhereOps).heads[sampleScope.canonical]? =
      some ⟨1, some "side"⟩ := by decide
  have hs : ((run (step sampleServices) empty mergeElsewhereOps).branches sampleScope.canonical)["side"]?.map
      (·.head) = some 0 := by decide
  obtain ⟨b, hb, he⟩ := h sampleServices mergeElsewhereOps sampleScope.canonical ⟨1, some "side"⟩ "side" hh rfl
  rw [hb, Option.map_some, he] at hs
  exact absurd hs (by decide)

end SqliteVersionStore
end UwuContextDb.Version
