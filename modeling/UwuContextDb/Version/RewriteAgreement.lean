import UwuContextDb.Version.MergeAgreement

/-! History rewriting in the two stores: cherry-picks, rebases and squashes that leave them in agreement. -/

namespace UwuContextDb.Version

open MapEdit StateMachine ThreeWay
open SqliteVersionStore (Parses pickSide pickValue PickRefused)

namespace MemoryVersionStore

section Pick

variable {base src target : Snapshot} {strat : ConflictStrategy}

theorem mem_changedUris {u : String} : u ∈ changedUris base src ↔ src[u]? ≠ base[u]? := by
  simp only [changedUris,List.mem_filter,List.mem_dedup,List.mem_append,Std.ExtTreeMap.mem_keys,decide_eq_true_eq,
    and_iff_right_iff_imp]
  intro he
  by_contra hn
  push Not at hn
  exact he (by simp [hn.1,hn.2])

theorem mem_conflicts {u : String} :
    u ∈ (changedUris base src).filter (isConflict base src target) ↔
      Conflict base[u]? target[u]? src[u]? := by
  simp only [List.mem_filter,mem_changedUris,isConflict,Bool.decide_and,Bool.and_eq_true,decide_eq_true_eq,Conflict]

theorem getElem?_applyPicked (src : Snapshot) (skip : String → Bool) (uris : List String) (target : Snapshot)
    (uri : String) : (applyPicked src skip uris target)[uri]? =
      if uri ∈ uris ∧ skip uri = false then src[uri]? else target[uri]? := by
  induction uris generalizing target with
  | nil => simp [applyPicked]
  | cons u uris ih =>
    have hs : applyPicked src skip (u::uris) target =
        applyPicked src skip uris (if skip u then target else setValue target u src[u]?) := rfl
    rw [hs,ih]
    by_cases hu : uri ∈ uris ∧ skip uri = false
    · simp [hu]
    · by_cases he : u = uri
      · subst he
        cases skip u <;> simp
      · have hn : uri ≠ u := Ne.symm he
        cases skip u <;> simp [hn,he,hu]

theorem applyPicked_eq_pickValue
    (hf : strat = .fail → ∀ u : String, ¬ Conflict base[u]? target[u]? src[u]?) (uri : String) :
    (applyPicked src (fun u => strat = .ours && u ∈ (changedUris base src).filter (isConflict base src target))
      (changedUris base src) target)[uri]? = pickValue strat base target src uri := by
  simp only [getElem?_applyPicked,mem_changedUris,pickValue]
  by_cases hc : Conflict base[uri]? target[uri]? src[uri]?
  · rw [choose_of_conflict hc]
    have hm := mem_conflicts.mpr hc
    cases strat with
    | fail => exact absurd hc (hf rfl uri)
    | ours => simp [hm,pickSide]
    | theirs => simp [pickSide,hc.1]
  · rw [choose_of_not_conflict hc]
    have hm : uri ∉ (changedUris base src).filter (isConflict base src target) := fun h => hc (mem_conflicts.mp h)
    by_cases hn : src[uri]? = base[uri]? <;> simp [hm,hn]

end Pick

variable {m : MemoryVersionStore} {scope : ContextUri} {commit target : CommitId} {onto : BranchName}
  {strat : ConflictStrategy} {src : MemoryCommit} {now : DateTime}

theorem branchHead_ok (h : m.branchHead scope.canonical onto = .ok target) :
    ∃ b : Branch, m.getBranch scope.canonical onto = some b ∧ b.head = target := by
  unfold branchHead at h
  split at h
  · rename_i b hb
    exact ⟨b,hb,Except.ok.inj h⟩
  · cases h

theorem cherryPick_refused (now : DateTime) (hc : m.commits[commit]? = some src)
    (ht : m.branchHead scope.canonical onto = .ok target)
    (ho : ∃ u : String,
      Conflict (m.optSnapshot src.parents.head?)[u]? (m.snapshot target)[u]? (m.snapshot commit)[u]?) :
    ∃ e, m.cherryPick scope commit onto .fail now = .error e := by
  obtain ⟨u,hu⟩ := ho
  obtain ⟨b,hb,rfl⟩ := branchHead_ok ht
  have hn : ((changedUris (m.optSnapshot src.parents.head?) (m.snapshot commit)).filter
      (isConflict (m.optSnapshot src.parents.head?) (m.snapshot commit) (m.snapshot b.head))).isEmpty = false :=
    List.isEmpty_eq_false_iff_exists_mem.mpr ⟨u,mem_conflicts.mpr hu⟩
  have ha : m.optSnapshot (some b.head) = m.snapshot b.head := rfl
  simp only [cherryPick,hc,hb,Option.map_some,ha,ensure,bind,Except.bind]
  simp [hn]

/-- A pick onto `target`, with `onto` and HEAD moved to it. -/
def pickCommit (m : MemoryVersionStore) (scope : ContextUri) (source : MemoryCommit) (target : CommitId) (onto : BranchName)
    (snap : Snapshot) (now : DateTime) : MemoryVersionStore :=
  ((m.insertCommit ⟨[target], source.author, now, source.metadata⟩ snap).moveBranch scope.canonical onto m.nextId).setHead
    scope.canonical m.nextId

theorem cherryPick_picked (now : DateTime) (hc : m.commits[commit]? = some src)
    (ht : m.branchHead scope.canonical onto = .ok target)
    (ho : strat = .fail → ∀ u : String, ¬ Conflict (m.optSnapshot src.parents.head?)[u]? (m.snapshot target)[u]?
      (m.snapshot commit)[u]?) :
    ∃ snap : Snapshot, (∀ u : String, snap[u]? = pickValue strat (m.optSnapshot src.parents.head?) (m.snapshot target)
        (m.snapshot commit) u) ∧
      m.cherryPick scope commit onto strat now = .ok (m.nextId, m.pickCommit scope src target onto snap now) := by
  obtain ⟨b,hb,rfl⟩ := branchHead_ok ht
  refine ⟨_,applyPicked_eq_pickValue ho,?_⟩
  have he : (strat ≠ .fail || ((changedUris (m.optSnapshot src.parents.head?) (m.snapshot commit)).filter
      (isConflict (m.optSnapshot src.parents.head?) (m.snapshot commit) (m.snapshot b.head))).isEmpty) = true := by
    by_cases hs : strat = .fail
    · have hn : (changedUris (m.optSnapshot src.parents.head?) (m.snapshot commit)).filter
          (isConflict (m.optSnapshot src.parents.head?) (m.snapshot commit) (m.snapshot b.head)) = [] :=
        List.eq_nil_iff_forall_not_mem.mpr (fun u hu => ho hs u (mem_conflicts.mp hu))
      simp [hn]
    · simp [hs]
  have ha : m.optSnapshot (some b.head) = m.snapshot b.head := rfl
  simp only [cherryPick,hc,hb,Option.map_some,ha,ensure,he,bind,Except.bind,if_true]
  rfl

section Squash

variable {commits : List CommitId} {oldest newest : CommitId}

def TipReferenced (m : MemoryVersionStore) (scope : String) (newest : CommitId) : Prop :=
  m.heads[scope]? = some newest ∨
    ∃ (scope' name : String) (b : Branch), (m.scopeBranches scope')[name]? = some b ∧ b.head = newest

theorem tip_any : m.branches.toList.any (fun e => e.2.toList.any (fun b => b.2.head = newest)) = true ↔
    ∃ (scope' name : String) (b : Branch), (m.scopeBranches scope')[name]? = some b ∧ b.head = newest := by
  simp only [List.any_eq_true,decide_eq_true_eq,Prod.exists,Std.ExtTreeMap.mem_toList_iff_getElem?_eq_some,
    scopeBranches]
  constructor
  · rintro ⟨scope',bs,hs,name,b,hb,he⟩
    exact ⟨scope',name,b,by simpa [hs] using hb,he⟩
  · rintro ⟨scope',name,b,hb,he⟩
    cases hs : m.branches[scope']? with
    | none => simp [hs] at hb
    | some bs => exact ⟨scope',bs,hs,name,b,by simpa [hs] using hb,he⟩

def squashed (m : MemoryVersionStore) (scope : String) (oldest newest : CommitId) (now : DateTime) : MemoryVersionStore :=
  let tx := m.insertCommit ⟨(m.dag.firstParent oldest).toList, .ofSystem, now, .empty⟩ (m.snapshot newest)
  let moved := { tx with branches := tx.branches.map (fun _ bs => bs.map (fun _ b =>
    if b.head = newest then { b with head := m.nextId } else b)) }
  if m.heads[scope]? = some newest then moved.setHead scope m.nextId else moved

/-- What `squash` checks. -/
structure Squashable (m : MemoryVersionStore) (scope : String) (commits : List CommitId) (oldest newest : CommitId) :
    Prop where
  first : commits.head? = some oldest
  last : commits.getLast? = some newest
  two : 2 ≤ commits.length
  stored : ∀ c ∈ commits, c ∈ m.commits
  consecutive : m.consecutive commits = true
  tip : m.TipReferenced scope newest

theorem squash_isOk (now : DateTime) (h : m.Squashable scope.canonical commits oldest newest) :
    m.squash scope commits now = .ok (⟨m.nextId,commits.length⟩, m.squashed scope.canonical oldest newest now) := by
  have hs : forM commits (fun c => ensure (c ∈ m.commits) (VersionError.notFound s!"commit {c}")) = .ok () :=
    SqliteVersionStore.forM_isOk (fun c hc => by simp [ensure,h.stored c hc])
  have ht : (m.heads[scope.canonical]? = some newest ||
      m.branches.toList.any (fun e => e.2.toList.any (fun b => b.2.head = newest))) = true := by
    rw [Bool.or_eq_true,tip_any,decide_eq_true_eq]
    exact h.tip
  have hl : decide (2 ≤ commits.length) = true := decide_eq_true h.two
  have he : ∀ e : VersionError, ensure true e = .ok () := fun e => rfl
  simp only [squash,h.first,h.last,hl,hs,h.consecutive,ht,he,bind,Except.bind]
  rfl

theorem squash_ok {r : SquashResult × MemoryVersionStore} (h : m.squash scope commits now = .ok r) :
    ∃ oldest newest, m.Squashable scope.canonical commits oldest newest := by
  unfold squash at h
  split at h
  · rename_i oldest newest ho hn
    simp only [bind_eq_ok,ensure_ok] at h
    obtain ⟨-,hl,u,hs,-,hco,-,ht,-⟩ := h
    refine ⟨oldest,newest,ho,hn,by simpa using hl,fun c hc => ?_,hco,?_⟩
    · have hc := SqliteVersionStore.forM_ok hs c hc
      simpa [ensure_ok] using hc
    · rw [Bool.or_eq_true,tip_any,decide_eq_true_eq] at ht
      exact ht
  · cases h

theorem squashed_sameMaps (m : MemoryVersionStore) (scope : String) (oldest nw : CommitId) (now : DateTime) :
    (m.insertCommit ⟨(m.dag.firstParent oldest).toList, .ofSystem,now, .empty⟩ (m.snapshot nw)).SameMaps
      (m.squashed scope oldest nw now) := by
  unfold squashed
  dsimp only
  split <;> exact ⟨rfl,rfl,rfl⟩

theorem getElem?_squashed (scope' name : String) :
    ((m.squashed scope.canonical oldest newest now).scopeBranches scope')[name]? = ((m.scopeBranches scope')[name]?).map
      (fun b => if b.head = newest then { b with head := m.nextId } else b) := by
  have hb : (m.squashed scope.canonical oldest newest now).branches = m.branches.map (fun _ bs => bs.map (fun _ b =>
      if b.head = newest then { b with head := m.nextId } else b)) := by
    unfold squashed
    dsimp only
    split <;> rfl
  rw [scopeBranches,hb,Std.ExtTreeMap.getElem?_map,scopeBranches]
  cases m.branches[scope']? with
  | none => simp
  | some bs => simp [Std.ExtTreeMap.getElem?_map]

end Squash

theorem pickCommit_sameMaps (m : MemoryVersionStore) (scope : ContextUri) (src : MemoryCommit) (target : CommitId)
    (onto : BranchName) (snap : Snapshot) (now : DateTime) :
    (m.insertCommit ⟨[target],src.author,now,src.metadata⟩ snap).SameMaps
      (m.pickCommit scope src target onto snap now) :=
  (moveBranch_sameMaps _ scope.canonical onto m.nextId).trans ⟨rfl,rfl,rfl⟩

end MemoryVersionStore

namespace SqliteVersionStore

variable {s s' : SqliteVersionStore} {ord : RowOrder} {scope : ContextUri} {commit new : CommitId}
  {onto : BranchName} {strat : ConflictStrategy} {now : DateTime}

theorem cherryPick_row (hst : s.WellFormed) (h : s.cherryPick ord scope commit onto strat now = .ok (new, s')) :
    ∃ (target : CommitId) (row : CommitRow), s.branchHead scope.canonical onto = .ok target ∧ row.scope = scope.canonical ∧
      row.parents = [target] ∧ row.timestamp = now ∧
      PickMoves s (s.withCommit row) scope.canonical target s.nextId (some onto) s' ∧
      ∀ u, (s'.reconstructSnapshot ord s.nextId)[u]? = pickedValue strat
        (s.baseSnapshot ord (s.firstParent commit)) (s.reconstructSnapshot ord target)
        (s.reconstructSnapshot ord commit) u := by
  obtain ⟨target,hb,-,-,-,hg⟩ := cherryPick_ok hst h
  have hh := h
  simp only [cherryPick,hb,bind,Except.bind] at h
  obtain ⟨ses,snap,-,-,-,hc⟩ := cherryPickAtBranch_ok h
  obtain ⟨hi,-,row,hs,hp,ht,-,hm⟩ := commitCherryPickSnapshot_ok hc
  exact ⟨target,row,hb,hs,hp,ht,hm,hi ▸ hg⟩

theorem squash_isOk (hst : s.WellFormed) (ord : RowOrder) (message : String) (now : DateTime) {commits : List CommitId}
    {oldest nw : CommitId} (ho : commits.head? = some oldest) (hn : commits.getLast? = some nw)
    (hl : 2 ≤ commits.length) (hs : ∀ c ∈ commits, s.InScope c scope.canonical)
    (hco : s.consecutive commits = true) (ht : s.TipReferenced scope.canonical nw) :
    ∃ r, s.squash ord scope commits message now = .ok r := by
  have hsto : forM commits (fun c => s.requireCommitScope c scope.canonical) = .ok () :=
    forM_isOk (fun c hc => requireCommitScope_ok.mpr (hs c hc))
  have ha : ∀ p ∈ (s.firstParent oldest).toList, p ∈ s.commits :=
    fun p hp => (hst.firstParent (Option.mem_toList.mp hp)).1
  have hd : (s.firstParent oldest).toList.Nodup := by cases s.firstParent oldest <;> simp
  obtain ⟨row,-,-,-,-,hi⟩ := insertCommit_isOk scope.canonical Author.ofSystem message now .empty
    (diffSnapshots (s.baseSnapshot ord (s.firstParent oldest)) (s.reconstructSnapshot ord nw)) ha hd
  have hr : (((s.withCommit row).branches scope.canonical).toList.any (fun e => e.2.head = nw) ||
      (s.withCommit row).getHead scope.canonical = some nw) = true := by
    rw [Bool.or_eq_true,tip_any,decide_eq_true_eq]
    exact ht
  have hl : decide (2 ≤ commits.length) = true := decide_eq_true hl
  have he : ∀ e : VersionError, ensure true e = .ok () := fun e => rfl
  simp only [squash,ho,hn,hl,hsto,hco,hi,hr,he,bind,Except.bind]
  exact ⟨_,rfl⟩

theorem cherryPickAtBranch_refused {target : CommitId} (ontoBranch : Option BranchName) (now : DateTime)
    (hn : PickRefused strat (s.baseSnapshot ord (s.firstParent commit)) (s.reconstructSnapshot ord target)
      (s.reconstructSnapshot ord commit)) :
    ∃ e, s.cherryPickAtBranch ord scope commit target ontoBranch strat now = .error e := by
  cases hp : s.cherryPickAtBranch ord scope commit target ontoBranch strat now with
  | error e => exact ⟨e,rfl⟩
  | ok r =>
    obtain ⟨ht,u,hu⟩ := hn
    obtain ⟨ses,snap,hs,hf,-⟩ := cherryPickAtBranch_ok hp
    obtain ⟨-,-,ho,-⟩ := buildCherryPickSession_ok hs
    obtain ⟨c,hc,-⟩ := mem_pickConflicts.mpr hu
    exact absurd ⟨ht,List.ne_nil_of_mem (ho ▸ hc)⟩ hf

end SqliteVersionStore

namespace Agree

variable {m : MemoryVersionStore} {s : SqliteVersionStore} {ord : RowOrder} {scope : ContextUri}
  {commit target : CommitId} {onto : BranchName} {strat : ConflictStrategy} {now : DateTime}

theorem getElem?_of_mem (h : Agree m s) (hc : commit ∈ s.commits) : ∃ source, m.commits[commit]? = some source :=
  Option.isSome_iff_exists.mp (Std.ExtTreeMap.mem_iff_isSome_getElem?.mp ((h.mem_commits_iff commit).mpr hc))

theorem parents_eq (h : Agree m s) {src : MemoryCommit} (hc : m.commits[commit]? = some src) :
    src.parents.head? = s.firstParent commit := by
  have hd : m.dag[commit]? = some src.parents := by simp [MemoryVersionStore.dag,hc]
  rw [h.sameCommits.dag] at hd
  simp [SqliteVersionStore.firstParent,Dag.firstParent,Dag.parents,hd]

/-- The condition under which both stores pick the same: they refuse it alike, or what is picked survives
the conversion to payloads and HEAD is attached to `onto`. -/
def PickAgrees (s : SqliteVersionStore) (order : RowOrder) (scope : ContextUri) (commit : CommitId) (onto : BranchName)
    (strategy : ConflictStrategy) : Prop :=
  commit ∈ s.commits → ∃ target, s.branchHead scope.canonical onto = .ok target ∧ s.InScope commit scope.canonical ∧
    s.PickSurvives order scope commit onto strategy ∧
    (PickRefused strategy (s.baseSnapshot order (s.firstParent commit)) (s.reconstructSnapshot order target)
      (s.reconstructSnapshot order commit) ∨ s.attachedBranch scope.canonical = some onto.asStr)

theorem cherryPick_refused (h : Agree m s) (hc : commit ∈ s.commits) (hb : s.branchHead scope.canonical onto = .ok target)
    (hn : PickRefused strat (s.baseSnapshot ord (s.firstParent commit)) (s.reconstructSnapshot ord target)
      (s.reconstructSnapshot ord commit)) :
    (∃ e, m.cherryPick scope commit onto strat now = .error e) ∧
      ∃ e, s.cherryPick ord scope commit onto strat now = .error e := by
  obtain ⟨rfl,u,hu,hp⟩ := hn
  refine ⟨?_,?_⟩
  · obtain ⟨src,hs⟩ := h.getElem?_of_mem hc
    refine MemoryVersionStore.cherryPick_refused now hs ((h.branchHead_eq _ onto).trans hb) ⟨u,?_⟩
    rw [h.parents_eq hs,h.optSnapshot_eq ord (fun id hi => (h.consistent.firstParent hi).1),
      h.snapshot_eq ord hc,h.snapshot_eq ord (h.branchHead_inScope hb).mem]
    exact hu
  · simp only [SqliteVersionStore.cherryPick,hb,bind,Except.bind]
    exact SqliteVersionStore.cherryPickAtBranch_refused (some onto) now ⟨rfl,u,hu,hp⟩

theorem cherryPick_picked (h : Agree m s) (svc : Services) (hc : s.InScope commit scope.canonical)
    (hb : s.branchHead scope.canonical onto = .ok target) (hsu : s.PickSurvives ord scope commit onto strat)
    (hk : ¬ PickRefused strat (s.baseSnapshot ord (s.firstParent commit)) (s.reconstructSnapshot ord target)
      (s.reconstructSnapshot ord commit)) (hat : s.attachedBranch scope.canonical = some onto.asStr) :
    Agree (m.step svc (.cherryPick ord scope commit onto strat now))
      (s.step svc (.cherryPick ord scope commit onto strat now)) := by
  have ho := (SqliteVersionStore.step_extends svc (.cherryPick ord scope commit onto strat now)
    h.consistent trivial).1
  have hsn := SqliteVersionStore.step_refsSound svc
    (.cherryPick ord scope commit onto strat now) h.refs trivial
  have htm := h.branchHead_inScope hb
  obtain ⟨hnon,hke⟩ := (hsu target hb hc htm).resolve_left hk
  -- the memory store picks the value the three-way merge asks for
  obtain ⟨src,hu⟩ := h.getElem?_of_mem hc.mem
  have hba : m.optSnapshot src.parents.head? = s.baseSnapshot ord (s.firstParent commit) := by
    rw [h.parents_eq hu]
    exact h.optSnapshot_eq ord (fun id hi => (h.consistent.firstParent hi).1)
  obtain ⟨snap,hp,hm⟩ := MemoryVersionStore.cherryPick_picked now hu ((h.branchHead_eq _ onto).trans hb)
    (by rw [hba,h.snapshot_eq ord hc.mem,h.snapshot_eq ord htm.mem]; exact hnon)
  rw [hba,h.snapshot_eq ord hc.mem,h.snapshot_eq ord htm.mem] at hp
  -- and so does the SQLite store, for its values survive
  obtain ⟨s',hs⟩ := SqliteVersionStore.cherryPick_isOk now hb hc htm hk
  obtain ⟨target',row,hb',hsc,hpa,ht,hv,hg⟩ :=
    SqliteVersionStore.cherryPick_row h.consistent.toWellFormed hs
  obtain rfl := Except.ok.inj (hb.symm.trans hb')
  obtain ⟨hcs,-,hn⟩ := hv.refs
  have hst : s.step svc (.cherryPick ord scope commit onto strat now) = s' := by
    simp [SqliteVersionStore.step,SqliteVersionStore.afterTx,hs,Outcome.ofTx]
  rw [hst] at ho hsn
  have hre : snap = s'.reconstructSnapshot ord s.nextId := by
    refine Std.ExtTreeMap.ext_getElem? (fun u => ?_)
    rw [hp,hg]
    exact (hke u).symm
  have hw : ∀ t, HasSnapshot (s.withCommit row).commits s.nextId t → snap = t := by
    intro t hsna
    rw [← hcs] at hsna
    rw [hre]
    exact SqliteVersionStore.reconstructSnapshot_eq ho ord hsna
  have hme : m.step svc (.cherryPick ord scope commit onto strat now) =
      m.pickCommit scope src target onto snap now := by
    simp [MemoryVersionStore.step,MemoryVersionStore.afterTx,hm,Outcome.ofTx]
  rw [hme,hst]
  refine h.of_withCommit hpa.symm ht.symm hw (MemoryVersionStore.pickCommit_sameMaps m scope src target onto snap now)
    hcs hn ?_ ho hsn ?_
  · cases hv with
    | branch b br hbr he hno =>
      have hsta := h.getHead_of_attached hbr hat
      obtain ⟨hd,hr,ha⟩ := Option.bind_eq_some_iff.mp hat
      rw [SqliteVersionStore.getHead,hr] at hsta
      exact absurd ((Option.some.inj hsta).trans he) (hno hd hr ha)
    | attached b br hd hbr he hr ha hco =>
      have hmv := (h.sameRefs.insertCommit ⟨[target],src.author,now,
        src.metadata⟩ snap row).moveBranch hbr s.nextId
      rw [MemoryVersionStore.pickCommit,h.sameCommits.nextId]
      exact hmv.setHead hat s.nextId
  · intro scope' hh
    cases hv with
    | branch b br hbr he hno =>
      rcases hh with hh | rfl
      · exact hh
      · rw [hsc]
        exact h.headed _ _ htm
    | attached b br hd hbr he hr ha hco =>
      exact SqliteVersionStore.getHead_setHead_isSome _ _ _ _ (hh.imp_right (fun hs => hsc ▸ hs.symm))

theorem cherryPick (h : Agree m s) (svc : Services) (ho : PickAgrees s ord scope commit onto strat) :
    Agree (m.step svc (.cherryPick ord scope commit onto strat now))
      (s.step svc (.cherryPick ord scope commit onto strat now)) := by
  by_cases hc : commit ∈ s.commits
  · obtain ⟨target,hb,hi,hu,ha⟩ := ho hc
    by_cases hn : PickRefused strat (s.baseSnapshot ord (s.firstParent commit)) (s.reconstructSnapshot ord target)
      (s.reconstructSnapshot ord commit)
    · have hr : (∃ e, m.cherryPick scope commit onto strat now = .error e) ∧
          ∃ e, s.cherryPick ord scope commit onto strat now = .error e := h.cherryPick_refused hc hb hn
      obtain ⟨⟨e,hm⟩,e',hs⟩ := hr
      simp only [MemoryVersionStore.step,SqliteVersionStore.step,hm,hs]
      exact h
    · exact h.cherryPick_picked svc hi hb hu hn (ha.resolve_left hn)
  · have hmm : m.commits[commit]? = none := by
      simpa using fun he => hc ((h.mem_commits_iff commit).mp he)
    have hm : m.cherryPick scope commit onto strat now = .error (.notFound s!"commit {commit}") := by
      simp only [MemoryVersionStore.cherryPick,hmm]
    have hs : ∃ e, s.cherryPick ord scope commit onto strat now = .error e := by
      cases hp : s.cherryPick ord scope commit onto strat now with
      | error e => exact ⟨e,rfl⟩
      | ok r =>
        obtain ⟨-,-,hi,-⟩ := SqliteVersionStore.cherryPick_ok h.consistent.toWellFormed hp
        exact absurd hi.mem hc
    obtain ⟨e,hs⟩ := hs
    simp only [MemoryVersionStore.step,SqliteVersionStore.step,hm,hs]
    exact h

section Rebase

variable {branch : BranchName} {clk : CommitId → DateTime}

/-- The condition under which both stores leave a rebase alone: a branch is missing, or the tip and the first
commit to rebase are both refused. Where it does not hold the two histories part: the memory store picks only
the tip and moves `onto` with it. -/
def RebaseAgrees (s : SqliteVersionStore) (order : RowOrder) (scope : ContextUri) (branch onto : BranchName)
    (strategy : ConflictStrategy) : Prop :=
  ∀ branchHead ontoHead, s.branchHead scope.canonical branch = .ok branchHead →
    s.branchHead scope.canonical onto = .ok ontoHead →
    strategy = .fail ∧
    (∃ u : String, Conflict (s.baseSnapshot order (s.firstParent branchHead))[u]? (s.reconstructSnapshot order ontoHead)[u]?
      (s.reconstructSnapshot order branchHead)[u]?) ∧
    ∃ first rest, s.commitsToRebase ontoHead (s.commits.size + 1) [] branchHead = first::rest ∧
      PickRefused strategy (s.baseSnapshot order (s.firstParent first)) (s.reconstructSnapshot order ontoHead)
        (s.reconstructSnapshot order first)

theorem rebase (h : Agree m s) (svc : Services) (hk : RebaseAgrees s ord scope branch onto strat) :
    Agree (m.step svc (.rebase ord scope branch onto strat clk))
      (s.step svc (.rebase ord scope branch onto strat clk)) := by
  have he := h.branchHead_eq scope.canonical branch
  have hoe := h.branchHead_eq scope.canonical onto
  cases hb : s.branchHead scope.canonical branch with
  | error e =>
    simp only [MemoryVersionStore.step,MemoryVersionStore.rebase,SqliteVersionStore.step,
      SqliteVersionStore.rebase,he,hb]
    exact h
  | ok branchHead =>
    cases ho : s.branchHead scope.canonical onto with
    | error e =>
      simp only [MemoryVersionStore.step,MemoryVersionStore.rebase,SqliteVersionStore.step,SqliteVersionStore.rebase,
        he,hoe,hb,ho]
      exact h
    | ok ontoHead =>
      obtain ⟨rfl,⟨u,hu⟩,first,rest,hw,hn⟩ := hk branchHead ontoHead hb ho
      have hbm := (h.branchHead_inScope hb).mem
      obtain ⟨src,hso⟩ := h.getElem?_of_mem hbm
      obtain ⟨e,hm⟩ := MemoryVersionStore.cherryPick_refused (clk m.nextId) hso (hoe.trans ho) ⟨u,by
        rw [h.parents_eq hso,h.optSnapshot_eq ord (fun id hi => (h.consistent.firstParent hi).1),
          h.snapshot_eq ord hbm,h.snapshot_eq ord (h.branchHead_inScope ho).mem]
        exact hu⟩
      have hr : ∃ e, s.cherryPickAtBranch ord scope first ontoHead none .fail (clk s.nextId) = .error e :=
        SqliteVersionStore.cherryPickAtBranch_refused none (clk s.nextId) hn
      obtain ⟨e',hs⟩ := hr
      simp only [MemoryVersionStore.step,MemoryVersionStore.rebase,SqliteVersionStore.step,SqliteVersionStore.rebase,
        he,hoe,hb,ho,hm,hw,SqliteVersionStore.pickAll,hs,SqliteVersionStore.finishRebase]
      exact h

end Rebase

section Squash

variable {commits : List CommitId} {message : String}

/-- The condition under which both stores squash the same: the commits are of the scope, if the memory store,
which does not ask, goes as far. -/
def SquashAgrees (s : SqliteVersionStore) (scope : ContextUri) (commits : List CommitId) : Prop :=
  2 ≤ commits.length → (∀ c ∈ commits, c ∈ s.commits) → s.consecutive commits = true →
    (∀ newest, commits.getLast? = some newest → s.getHead scope.canonical = some newest ∨
      ∃ (scope' name : String) (b : Branch), (s.branches scope')[name]? = some b ∧ b.head = newest) →
    ∀ c ∈ commits, s.InScope c scope.canonical

theorem consecutive_eq (h : Agree m s) (commits : List CommitId) : m.consecutive commits = s.consecutive commits := by
  induction commits with
  | nil => rfl
  | cons a rest ih =>
    cases rest with
    | nil => rfl
    | cons b rest =>
      simp only [MemoryVersionStore.consecutive,SqliteVersionStore.consecutive,ih,h.sameCommits.dag]
      rfl

theorem tip_iff (h : Agree m s) (scope : String) (newest : CommitId) : m.TipReferenced scope newest ↔
    s.getHead scope = some newest ∨
      ∃ (scope' name : String) (b : Branch), (s.branches scope')[name]? = some b ∧ b.head = newest := by
  have hb : ∀ scope' name : String, (∃ b : Branch, (m.scopeBranches scope')[name]? = some b ∧ b.head = newest) ↔
      ∃ b : Branch, (s.branches scope')[name]? = some b ∧ b.head = newest := by
    intro scope' name
    have he := h.sameRefs.branch scope' name
    rw [← Option.map_eq_some_iff,← Option.map_eq_some_iff,he]
  simp only [MemoryVersionStore.TipReferenced,h.sameRefs.head,hb]

theorem scope_eq (h : Agree m s) {scope scope' name : String} {b : Branch} (hb : (s.branches scope')[name]? = some b)
    (hi : s.InScope b.head scope) : scope = scope' := by
  obtain ⟨row,hr,hs⟩ := hi
  obtain ⟨row',hr',hs'⟩ := h.refs.branch scope' name b hb
  obtain rfl := Option.some.inj (hr.symm.trans hr')
  rw [← hs,← hs']

theorem squashed_sameRefs (h : Agree m s) {nw : CommitId} (oldest : CommitId) (now : DateTime) (row : CommitRow)
    (hi : s.InScope nw scope.canonical) : SameRefs (m.squashed scope.canonical oldest nw now)
      (((s.withCommit row).moveBranches scope.canonical nw s.nextId).casHead scope.canonical nw s.nextId).2 := by
  have hh : ∀ scope' : String,
      (((s.withCommit row).moveBranches scope.canonical nw s.nextId).casHead scope.canonical nw
        s.nextId).2.heads[scope']? =
        (s.heads[scope']?).map
          (fun row => if scope.canonical = scope' ∧ row.commit = nw then ⟨s.nextId,row.attachedBranch⟩
          else row) := SqliteVersionStore.getElem?_casHead nw
  constructor
  · intro scope' name
    have ha := h.sameRefs.branch scope' name
    rw [MemoryVersionStore.getElem?_squashed,SqliteVersionStore.branches_casHead,SqliteVersionStore.getElem?_moveBranches,
      h.sameCommits.nextId]
    show _ = ((s.branches scope')[name]?.map _).map _
    cases hb : (s.branches scope')[name]? with
    | none =>
      rw [hb] at ha
      rw [Option.map_eq_none_iff.mp ha]
      rfl
    | some b =>
      rw [hb] at ha
      obtain ⟨b',hb',he⟩ := Option.map_eq_some_iff.mp ha
      rw [hb']
      have he : b'.head = b.head := he
      by_cases hn : b.head = nw
      · have hsc : scope.canonical = scope' := h.scope_eq hb (hn ▸ hi)
        simp [he,hn,hsc]
      · simp [he,hn]
  · intro scope'
    have hm : (m.squashed scope.canonical oldest nw now).heads[scope']? =
        if scope.canonical = scope' ∧ m.heads[scope.canonical]? = some nw then some m.nextId else m.heads[scope']? := by
      unfold MemoryVersionStore.squashed
      dsimp only
      by_cases hd : m.heads[scope.canonical]? = some nw
      · simp [hd,MemoryVersionStore.setHead,MemoryVersionStore.insertCommit,Std.ExtTreeMap.getElem?_insert]
      · simp [hd,MemoryVersionStore.insertCommit]
    rw [hm,SqliteVersionStore.getHead,hh,h.sameRefs.head,h.sameRefs.head,h.sameCommits.nextId]
    by_cases hs : scope.canonical = scope'
    · subst hs
      unfold SqliteVersionStore.getHead
      cases hr : s.heads[scope.canonical]? with
      | none => simp
      | some head => by_cases hc : head.commit = nw <;> simp [hc]
    · simp only [hs,false_and,if_false]
      unfold SqliteVersionStore.getHead
      cases s.heads[scope']? <;> rfl
  · intro scope'
    have hm : (m.squashed scope.canonical oldest nw now).attachedBranches = m.attachedBranches := by
      unfold MemoryVersionStore.squashed
      dsimp only
      split <;> rfl
    rw [hm,hh,h.sameRefs.attached]
    cases s.heads[scope']? with
    | none => rfl
    | some row =>
      by_cases hr : scope.canonical = scope' ∧ row.commit = nw <;> simp [hr]

theorem squash (h : Agree m s) (svc : Services) (hk : SquashAgrees s scope commits) :
    Agree (m.step svc (.squash ord scope commits message now))
      (s.step svc (.squash ord scope commits message now)) := by
  have hcn := (SqliteVersionStore.step_extends svc (.squash ord scope commits message now) h.consistent trivial).1
  have hu := SqliteVersionStore.step_refsSound svc (.squash ord scope commits message now) h.refs trivial
  cases hs : s.squash ord scope commits message now with
  | error e =>
    cases hm : m.squash scope commits now with
    | error e' =>
      simp only [MemoryVersionStore.step,SqliteVersionStore.step,hm,hs]
      exact h
    | ok r =>
      -- the memory store finds nothing wrong, so neither does the SQLite store
      obtain ⟨oldest,newest,hq⟩ := MemoryVersionStore.squash_ok hm
      have hco : s.consecutive commits = true := (h.consecutive_eq commits).symm.trans hq.consecutive
      have hi := (h.tip_iff scope.canonical newest).mp hq.tip
      have hin := hk hq.two (fun c hc => (h.mem_commits_iff c).mp (hq.stored c hc)) hco (fun newest' hn => by
        obtain rfl := Option.some.inj (hq.last.symm.trans hn)
        exact hi)
      have hsc : s.TipReferenced scope.canonical newest := by
        rcases hi with hh | ⟨scope',name,b,hb,rfl⟩
        · exact .inr hh
        · obtain rfl := h.scope_eq hb (hin _ (List.mem_of_getLast? hq.last))
          exact .inl ⟨name,b,hb,rfl⟩
      obtain ⟨r,hr⟩ := SqliteVersionStore.squash_isOk h.consistent.toWellFormed ord message now hq.first hq.last hq.two
        hin hco hsc
      rw [hs] at hr
      cases hr
  | ok r =>
    obtain ⟨res,s'⟩ := r
    obtain ⟨oldest,newest,ho,hn,hle,hin,hco,hi,-,row,hsc,ha,hp,ht,hd,rfl⟩ :=
      SqliteVersionStore.squash_ok hs
    have he := hin newest (List.mem_of_getLast? hn)
    have hq : m.Squashable scope.canonical commits oldest newest := by
      refine ⟨ho,hn,hle,fun c hc => (h.mem_commits_iff c).mpr (hin c hc).mem,?_,(h.tip_iff _ newest).mpr ?_⟩
      · rw [h.consecutive_eq,hco]
      · rcases hi with ⟨name,b,hb⟩ | hh
        · exact .inr ⟨_,name,b,hb⟩
        · exact .inl hh
    have hm := MemoryVersionStore.squash_isOk now hq
    have hsn : ∀ t, HasSnapshot (s.withCommit row).commits s.nextId t → m.snapshot newest = t := by
      intro t hsna
      have hd' : row.deltas = insertDeltas (diffSnapshots (s.baseSnapshot ord row.parents.head?)
          (s.reconstructSnapshot ord newest)) := by
        rw [hd,ha]
        cases s.firstParent oldest <;> rfl
      rw [h.snapshot_eq ord he.mem]
      exact hasSnapshot_diff h.consistent hp hd' hsna
    obtain ⟨hc,-,hid⟩ := SqliteVersionStore.casHead_refs ((s.withCommit row).moveBranches scope.canonical newest s.nextId)
      scope.canonical newest s.nextId
    simp only [SqliteVersionStore.step,hs] at hcn hu
    simp only [MemoryVersionStore.step,SqliteVersionStore.step,hm,hs]
    have hpr : (m.dag.firstParent oldest).toList = row.parents := by
      rw [ha,h.sameCommits.dag]
      rfl
    refine h.of_withCommit hpr ht.symm hsn (MemoryVersionStore.squashed_sameMaps m _ oldest newest now) hc hid ?_
      hcn hu ?_
    · exact h.squashed_sameRefs oldest now row he
    · intro scope' hh
      have hhd := @SqliteVersionStore.getElem?_casHead ((s.withCommit row).moveBranches scope.canonical newest s.nextId)
        scope.canonical s.nextId newest scope'
      have hl : (s.getHead scope').isSome = true := by
        rcases hh with hh | rfl
        · exact hh
        · rw [hsc]
          exact h.headed _ _ he
      rw [SqliteVersionStore.getHead] at hl
      show (((((s.withCommit row).moveBranches scope.canonical newest s.nextId).casHead scope.canonical newest
        s.nextId).2.heads[scope']?).map (·.commit)).isSome = true
      rw [hhd]
      rw [Option.isSome_map,Option.isSome_map]
      rwa [Option.isSome_map] at hl

end Squash

end Agree

end UwuContextDb.Version
