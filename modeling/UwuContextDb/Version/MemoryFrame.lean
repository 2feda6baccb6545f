import UwuContextDb.Version.RewriteAgreement

/-! Which references the rewriting operations of `MemoryVersionStore` move. -/

namespace UwuContextDb.Version

open MapEdit StateMachine ThreeWay

namespace MemoryVersionStore

section Frame

/-- No reference moved but the branches of `scope` that `moves` selects, and perhaps HEAD of `scope`. -/
structure Frame (scope : String) (moves : String → Prop) (m m' : MemoryVersionStore) : Prop where
  branch : ∀ scope' name : String, ¬ (scope' = scope ∧ moves name) →
    ((m'.scopeBranches scope')[name]?).map (·.head) = ((m.scopeBranches scope')[name]?).map (·.head)
  tags : m'.tags = m.tags
  head : ∀ scope' : String, scope' ≠ scope → m'.heads[scope']? = m.heads[scope']?
  attached : m'.attachedBranches = m.attachedBranches

variable {m m' m'' : MemoryVersionStore} {scope : String} {moves : String → Prop} {name : BranchName} {id : CommitId}

theorem Frame.refl (m : MemoryVersionStore) : Frame scope moves m m := ⟨fun _ _ _ => rfl,rfl,fun _ _ => rfl,rfl⟩

theorem Frame.trans (h : Frame scope moves m m') (h' : Frame scope moves m' m'') : Frame scope moves m m'' where
  branch scope' name hn := (h'.branch scope' name hn).trans (h.branch scope' name hn)
  tags := h'.tags.trans h.tags
  head scope' he := (h'.head scope' he).trans (h.head scope' he)
  attached := h'.attached.trans h.attached

theorem frame_insertCommit (m : MemoryVersionStore) (c : MemoryCommit) (snap : Snapshot) :
    Frame scope moves m (m.insertCommit c snap) := ⟨fun _ _ _ => rfl,rfl,fun _ _ => rfl,rfl⟩

theorem frame_setBranch (m : MemoryVersionStore) {name : String} (b : Branch) (h : moves name) :
    Frame scope moves m (m.setBranch scope name b) where
  branch scope' name' hn := by
    rw [getElem?_setBranch,if_neg]
    rintro ⟨rfl,rfl⟩
    exact hn ⟨rfl,h⟩
  tags := rfl
  head _ _ := rfl
  attached := rfl

theorem frame_moveBranch (m : MemoryVersionStore) (id : CommitId) (h : moves name.asStr) :
    Frame scope moves m (m.moveBranch scope name id) := by
  unfold moveBranch
  split
  · exact frame_setBranch m _ h
  · exact Frame.refl m

theorem frame_setHead (m : MemoryVersionStore) (id : CommitId) : Frame scope moves m (m.setHead scope id) where
  branch _ _ _ := rfl
  tags := rfl
  head scope' hn := by simp [setHead,Std.ExtTreeMap.getElem?_insert,Ne.symm hn]
  attached := rfl

theorem frame_followHead (m : MemoryVersionStore) (name : BranchName) (id : CommitId) :
    Frame scope moves m (m.followHead scope name id) := by
  unfold followHead
  split
  · exact frame_setHead m id
  · exact Frame.refl m

@[simp] theorem heads_setHead (m : MemoryVersionStore) : (m.setHead scope id).heads[scope]? = some id := by
  simp [setHead]

@[simp] theorem heads_moveBranch (m : MemoryVersionStore) : (m.moveBranch scope name id).heads = m.heads := by
  unfold moveBranch
  split <;> rfl

@[simp] theorem attachedBranches_moveBranch (m : MemoryVersionStore) :
    (m.moveBranch scope name id).attachedBranches = m.attachedBranches := by
  unfold moveBranch
  split <;> rfl

theorem heads_followHead (m : MemoryVersionStore) (name : BranchName) (id : CommitId) :
    (m.followHead scope name id).heads[scope]? = if m.attachedBranches[scope]? = some name then some id
    else m.heads[scope]? := by
  unfold followHead
  split <;> simp

theorem branch_moveBranch (m : MemoryVersionStore) {b : Branch} (hb : m.getBranch scope name = some b) :
    (((m.moveBranch scope name id).scopeBranches scope)[name.asStr]?).map (·.head) = some id := by
  simp only [moveBranch,hb]
  rw [getElem?_setBranch]
  simp

end Frame

section Target

structure RefTarget where
  scope : String
  branches : String → Prop
  detached : Prop

def target (m : MemoryVersionStore) : SqliteOp → Option RefTarget
  | .merge _ scope _ into _ _ | .knowledgeMerge _ scope _ into _ _ => some ⟨scope.canonical, (· = into.asStr), False⟩
  | .cherryPick _ scope _ onto _ _ => some ⟨scope.canonical, (· = onto.asStr), False⟩
  | .rebase _ scope branch _ _ _ => some ⟨scope.canonical, (· = branch.asStr), False⟩
  | .squash _ scope commits _ _ => some ⟨scope.canonical,
      fun name => ∃ b : Branch, (m.scopeBranches scope.canonical)[name]? = some b ∧ commits.getLast? = some b.head,
      ∃ newest, commits.getLast? = some newest ∧ m.heads[scope.canonical]? = some newest⟩
  | _ => none

def result (services : Services) (m : MemoryVersionStore) : SqliteOp → Option CommitId
  | .merge _ scope from_ into strategy now => (m.merge scope from_ into strategy now).toOption.map (fun r => r.1.commit)
  | .knowledgeMerge _ scope from_ into strategy now =>
    (m.knowledgeMerge services scope from_ into strategy now).toOption.map (fun r => r.1.commit)
  | .cherryPick _ scope commit onto strategy now =>
    (m.cherryPick scope commit onto strategy now).toOption.map (fun r => r.1)
  | .rebase _ scope branch onto strategy clock =>
    (m.rebase scope branch onto strategy (clock m.nextId)).1.toOption.bind (fun ids => ids.getLast?)
  | .squash _ scope commits _ now => (m.squash scope commits now).toOption.map (fun r => r.1.newCommit)
  | _ => none

def Follows (m : MemoryVersionStore) (t : RefTarget) : Prop :=
  match m.attachedBranches[t.scope]? with
  | some name => t.branches name.asStr
  | none => t.detached

structure RefsFollow (m m' : MemoryVersionStore) (t : RefTarget) (result : Option CommitId) : Prop where
  frame : Frame t.scope t.branches m m'
  follows : m.Follows t → ∀ id, result = some id → m'.heads[t.scope]? = some id
  stays : ¬ m.Follows t → m'.heads[t.scope]? = m.heads[t.scope]?

def CallFrame (services : Services) (m : MemoryVersionStore) (op : SqliteOp) : Prop :=
  ∀ t, m.target op = some t → RefsFollow m (m.step services op) t (m.result services op)

variable {m m' : MemoryVersionStore} {scope : String} {name : BranchName}

theorem follows_branch : m.Follows ⟨scope,(· = name.asStr),False⟩ ↔ m.attachedBranches[scope]? = some name := by
  unfold Follows
  cases hm : m.attachedBranches[scope]? with
  | none => simp
  | some name' =>
    obtain ⟨text,hv⟩ := name
    obtain ⟨text',hv'⟩ := name'
    simp

theorem RefsFollow.refl (m : MemoryVersionStore) (t : RefTarget) : RefsFollow m m t none :=
  ⟨Frame.refl m,fun _ _ hi => absurd hi (by simp),fun _ => rfl⟩

theorem RefsFollow.followHead (h : Frame scope (· = name.asStr) m m') (ha : m'.attachedBranches = m.attachedBranches)
    (hh : m'.heads = m.heads) (id : CommitId) :
    RefsFollow m (m'.followHead scope name id) ⟨scope,(· = name.asStr),False⟩ (some id) where
  frame := h.trans (frame_followHead m' name id)
  follows hf id' hi := by
    obtain rfl := Option.some.inj hi
    rw [heads_followHead,ha,if_pos (follows_branch.mp hf)]
  stays hf := by
    rw [heads_followHead,ha,if_neg (fun ht => hf (follows_branch.mpr ht)),hh]

end Target

section Fresh

structure RefsFresh (m : MemoryVersionStore) : Prop where
  commits : ∀ id ∈ m.commits, id < m.nextId
  heads : ∀ (scope : String) (id : CommitId), m.heads[scope]? = some id → id < m.nextId
  branches : ∀ (scope name : String) (b : Branch), (m.scopeBranches scope)[name]? = some b → b.head < m.nextId

variable {m : MemoryVersionStore} {scope : String} {id : CommitId}

theorem refsFresh_empty : empty.RefsFresh := by
  constructor <;> simp [empty,scopeBranches]

theorem RefsFresh.insertCommit (h : m.RefsFresh) (c : MemoryCommit) (snap : Snapshot) :
    (m.insertCommit c snap).RefsFresh where
  commits id hi := by
    have hi : m.nextId = id ∨ id ∈ m.commits := by simpa [MemoryVersionStore.insertCommit] using hi
    rcases hi with rfl | hi
    · exact Nat.lt_succ_self _
    · exact Nat.lt_succ_of_lt (h.commits id hi)
  heads scope id hi := Nat.lt_succ_of_lt (h.heads scope id hi)
  branches scope name b hb := Nat.lt_succ_of_lt (h.branches scope name b hb)

theorem RefsFresh.setBranch (h : m.RefsFresh) (sc name : String) {b : Branch} (hb : b.head < m.nextId) :
    (m.setBranch sc name b).RefsFresh where
  commits := h.commits
  heads := h.heads
  branches sc' name' b' hb' := by
    rw [getElem?_setBranch] at hb'
    split at hb'
    · obtain rfl := Option.some.inj hb'
      exact hb
    · exact h.branches sc' name' b' hb'

theorem RefsFresh.moveBranch (h : m.RefsFresh) (sc : String) (name : BranchName) (hi : id < m.nextId) :
    (m.moveBranch sc name id).RefsFresh := by
  unfold MemoryVersionStore.moveBranch
  split
  · exact h.setBranch sc name.asStr hi
  · exact h

theorem RefsFresh.setHead (h : m.RefsFresh) (sc : String) (hi : id < m.nextId) : (m.setHead sc id).RefsFresh where
  commits := h.commits
  heads sc' id' hi' := by
    by_cases hs : sc = sc'
    · have he : some id = some id' := by simpa [MemoryVersionStore.setHead,hs] using hi'
      exact Option.some.inj he ▸ hi
    · exact h.heads sc' id' (by simpa [MemoryVersionStore.setHead,Std.ExtTreeMap.getElem?_insert,hs] using hi')
  branches := h.branches

theorem RefsFresh.followHead (h : m.RefsFresh) (sc : String) (name : BranchName) (hi : id < m.nextId) :
    (m.followHead sc name id).RefsFresh := by
  unfold MemoryVersionStore.followHead
  split
  · exact h.setHead sc hi
  · exact h

@[simp] theorem nextId_moveBranch (m : MemoryVersionStore) (sc : String) (name : BranchName) (id : CommitId) :
    (m.moveBranch sc name id).nextId = m.nextId := (moveBranch_sameMaps m sc name id).nextId

theorem RefsFresh.branchHead {name : BranchName} (h : m.RefsFresh) (hb : m.branchHead scope name = .ok id) :
    id < m.nextId := by
  unfold MemoryVersionStore.branchHead at hb
  split at hb
  · rename_i b hg
    exact Except.ok.inj hb ▸ h.branches scope name.asStr b hg
  · cases hb

theorem RefsFresh.commitOn (h : m.RefsFresh) (c : MemoryCommit) (snap : Snapshot) (sc : String) (name : BranchName) :
    ((m.insertCommit c snap).moveBranch sc name m.nextId).RefsFresh :=
  (h.insertCommit c snap).moveBranch sc name (Nat.lt_succ_self _)

theorem afterTx_cases {α : Type} {motive : MemoryVersionStore → Prop} {r : Except VersionError (α × MemoryVersionStore)}
    (he : motive m) (ho : ∀ a m', r = .ok (a, m') → motive m') : motive (m.afterTx r) := by
  cases r with
  | error e => exact he
  | ok p => exact ho p.1 p.2 rfl

variable {ctx : ContextUri} {now : DateTime} {m' : MemoryVersionStore} {from_ into : BranchName}
  {strategy : ConflictStrategy}

theorem commit_refsFresh {changes : ChangeSet} {md : CommitMeta}
    (h : m.RefsFresh) (hm : m.commit ctx changes md now = .ok (id, m')) : m'.RefsFresh := by
  simp only [commit,bind_eq_ok,pure,Except.pure,Except.ok.injEq,Prod.mk.injEq] at hm
  obtain ⟨snap,-,moved,ho,rfl,rfl⟩ := hm
  have hf : (moved.insertCommit ⟨(m.heads[ctx.canonical]?).toList, .ofTrigger md.trigger,now,
      md⟩ snap).RefsFresh ∧
      m.nextId < (moved.insertCommit ⟨(m.heads[ctx.canonical]?).toList, .ofTrigger md.trigger,now,
        md⟩ snap).nextId := by
    unfold advanceAttached at ho
    split at ho
    · obtain rfl := Except.ok.inj ho
      exact ⟨h.insertCommit _ snap,Nat.lt_succ_self _⟩
    · split at ho
      · cases ho
      · split at ho
        · obtain rfl := Except.ok.inj ho
          exact ⟨(h.insertCommit _ snap).setBranch _ _ (Nat.lt_succ_self _),Nat.lt_succ_self _⟩
        · cases ho
  exact hf.1.setHead _ hf.2

theorem merge_refsFresh {strat : MergeStrategy} {res : MergeResult} (h : m.RefsFresh)
    (hm : m.merge ctx from_ into strat now = .ok (res, m')) : m'.RefsFresh := by
  have hn := hm
  simp only [merge,bind_eq_ok] at hn
  obtain ⟨fh,hf,nh,hi,-⟩ := hn
  by_cases ha : m.isAncestor nh fh = true
  · rw [merge_ancestor strat now hf hi ha] at hm
    obtain ⟨-,rfl⟩ := Prod.mk.inj (Except.ok.inj hm)
    have hl := h.branchHead hf
    split
    · exact (h.setBranch _ _ hl).followHead _ _ hl
    · exact h.followHead _ _ hl
  · have ha : m.isAncestor nh fh = false := by simpa using ha
    by_cases hs : strat = .fastForward
    · subst hs
      rw [merge_refused now hf hi ha] at hm
      cases hm
    · rw [merge_diverged now hf hi ha hs,map_eq_ok] at hm
      obtain ⟨r,-,hr⟩ := hm
      obtain ⟨-,rfl⟩ := Prod.mk.inj hr
      exact (h.commitOn _ r.1 _ _).followHead _ _ (by simp [MemoryVersionStore.insertCommit])

theorem knowledgeMerge_refsFresh {svc : Services}
    {strat : KnowledgeMergeStrategy} {res : MergeResult} (h : m.RefsFresh)
    (hm : m.knowledgeMerge svc ctx from_ into strat now = .ok (res, m')) : m'.RefsFresh := by
  have hn := hm
  simp only [knowledgeMerge,bind_eq_ok] at hn
  obtain ⟨fh,hf,nh,hi,-⟩ := hn
  by_cases ha : m.isAncestor nh fh = true
  · rw [knowledgeMerge_ancestor svc strat now hf hi ha] at hm
    obtain ⟨-,rfl⟩ := Prod.mk.inj (Except.ok.inj hm)
    exact h.moveBranch _ _ (h.branchHead hf)
  · rw [knowledgeMerge_diverged now hf hi (by simpa using ha),map_eq_ok] at hm
    obtain ⟨conflicts,-,hr⟩ := hm
    obtain ⟨-,rfl⟩ := Prod.mk.inj hr
    exact (h.commitOn _ _ _ _).setHead _ (by simp [MemoryVersionStore.insertCommit])

theorem cherryPick_ok {commit : CommitId} {onto : BranchName}
    (hm : m.cherryPick ctx commit onto strategy now = .ok (id, m')) :
    id = m.nextId ∧ ∃ (src c : MemoryCommit) (snap : Snapshot), m.commits[commit]? = some src ∧
      m' = ((m.insertCommit c snap).moveBranch ctx.canonical onto m.nextId).setHead ctx.canonical m.nextId := by
  unfold cherryPick at hm
  dsimp only at hm
  split at hm
  · cases hm
  · rename_i src hc
    simp only [bind_eq_ok,pure,Except.pure,Except.ok.injEq,Prod.mk.injEq] at hm
    obtain ⟨-,-,rfl,rfl⟩ := hm
    exact ⟨rfl,src,_,_,hc,rfl⟩

theorem cherryPick_refsFresh {commit : CommitId} {onto : BranchName} (h : m.RefsFresh)
    (hm : m.cherryPick ctx commit onto strategy now = .ok (id, m')) : m'.RefsFresh ∧ id < m'.nextId := by
  obtain ⟨rfl,src,c,snap,-,rfl⟩ := cherryPick_ok hm
  have hl : m.nextId < ((m.insertCommit c snap).moveBranch ctx.canonical onto m.nextId).nextId := by
    simp [MemoryVersionStore.insertCommit]
  exact ⟨(h.commitOn c snap _ _).setHead _ hl,hl⟩

theorem rebase_refsFresh {branch onto : BranchName}
    (h : m.RefsFresh) : (m.rebase ctx branch onto strategy now).2.RefsFresh := by
  unfold rebase
  dsimp only
  split
  · exact h
  · exact h
  · split
    · exact h
    · rename_i newTip tx hp
      obtain ⟨ht,hl⟩ := cherryPick_refsFresh h hp
      split
      · exact ht
      · split
        · exact ht
        · exact (ht.setBranch _ _ hl).followHead _ _ hl

theorem squash_refsFresh {cs : List CommitId} {res : SquashResult}
    (h : m.RefsFresh) (hm : m.squash ctx cs now = .ok (res, m')) : m'.RefsFresh := by
  obtain ⟨oldest,nw,hq⟩ := squash_ok hm
  rw [squash_isOk now hq] at hm
  obtain ⟨-,rfl⟩ := Prod.mk.inj (Except.ok.inj hm)
  have ha := squashed_sameMaps m ctx.canonical oldest nw now
  have hi : (m.squashed ctx.canonical oldest nw now).nextId = m.nextId + 1 := ha.nextId
  refine ⟨?_,?_,?_⟩
  · rw [ha.commits,ha.nextId]
    exact (h.insertCommit _ _).commits
  · intro scope' id hh
    rw [hi]
    unfold squashed at hh
    dsimp only at hh
    split at hh
    · by_cases hs : ctx.canonical = scope'
      · have he : some m.nextId = some id := by simpa [MemoryVersionStore.setHead,hs] using hh
        exact Option.some.inj he ▸ Nat.lt_succ_self _
      · have ho : m.heads[scope']? = some id := by
          simpa [MemoryVersionStore.setHead,MemoryVersionStore.insertCommit,
            Std.ExtTreeMap.getElem?_insert,hs] using hh
        exact Nat.lt_succ_of_lt (h.heads scope' id ho)
    · exact Nat.lt_succ_of_lt (h.heads scope' id hh)
  · intro scope' name b hb
    rw [hi]
    rw [getElem?_squashed] at hb
    obtain ⟨b',hb',rfl⟩ := Option.map_eq_some_iff.mp hb
    split
    · exact Nat.lt_succ_self _
    · exact Nat.lt_succ_of_lt (h.branches scope' name b' hb')

theorem gc_refsFresh {pol : GcPolicy} (h : m.RefsFresh) : (m.gc ctx pol).2.RefsFresh where
  commits id hi := h.commits id ((mem_foldl_erase m.commits _ id).mp hi).1
  heads := h.heads
  branches := h.branches

theorem step_refsFresh (svc : Services) (op : SqliteOp) (h : m.RefsFresh) : (m.step svc op).RefsFresh := by
  cases op with
  | commit scope changes md now => exact afterTx_cases h (fun _ _ hm => commit_refsFresh h hm)
  | createBranch scope name from_ bt now =>
    refine afterTx_cases h (fun b m' hm => ?_)
    simp only [createBranch,bind_eq_ok,ensure_ok,decide_eq_true_eq,pure,Except.pure,Except.ok.injEq,
      Prod.mk.injEq] at hm
    obtain ⟨-,-,-,hf,-,rfl⟩ := hm
    exact h.setBranch _ _ (h.commits _ hf)
  | deleteBranch scope name =>
    refine afterTx_cases h (fun u m' hm => ?_)
    simp only [deleteBranch,bind_eq_ok,pure,Except.pure,Except.ok.injEq,Prod.mk.injEq] at hm
    obtain ⟨-,-,-,rfl⟩ := hm
    refine ⟨h.commits,h.heads,fun scope' name' b hb => ?_⟩
    by_cases hs : scope.canonical = scope'
    · subst hs
      have ho : name.asStr ≠ name' ∧ (m.scopeBranches scope.canonical)[name']? = some b := by
        simpa [scopeBranches,Std.ExtTreeMap.getElem?_erase] using hb
      exact h.branches _ _ b ho.2
    · exact h.branches scope' name' b (by simpa [scopeBranches,Std.ExtTreeMap.getElem?_insert,hs] using hb)
  | switchHead scope branch =>
    refine afterTx_cases h (fun u m' hm => ?_)
    simp only [switchHead,bind_eq_ok,pure,Except.pure,Except.ok.injEq,Prod.mk.injEq] at hm
    obtain ⟨head,hb,-,rfl⟩ := hm
    have he := h.setHead scope.canonical (h.branchHead hb)
    exact ⟨he.commits,he.heads,he.branches⟩
  | createTag scope tag => exact ⟨h.commits,h.heads,h.branches⟩
  | merge order scope from_ into strategy now => exact afterTx_cases h (fun _ _ hm => merge_refsFresh h hm)
  | knowledgeMerge order scope from_ into strategy now =>
    exact afterTx_cases h (fun _ _ hm => knowledgeMerge_refsFresh h hm)
  | cherryPick order scope commit onto strategy now => exact afterTx_cases h (fun _ _ hm => (cherryPick_refsFresh h hm).1)
  | rebase order scope branch onto strategy clk => exact rebase_refsFresh h
  | squash order scope cs message now => exact afterTx_cases h (fun _ _ hm => squash_refsFresh h hm)
  | continueConflictSession order ses resolutions clk => exact h
  | gc recentScan victimScan scope pol now => exact gc_refsFresh h
  | remember order id => exact h
  | evict id => exact h

theorem run_refsFresh (svc : Services) (ops : List SqliteOp) : (run (step svc) empty ops).RefsFresh :=
  run_preserves (fun _ op h => step_refsFresh svc op h) refsFresh_empty ops

end Fresh

section Calls

variable {m : MemoryVersionStore} {svc : Services} {order : RowOrder} {ctx : ContextUri}

theorem merge_callFrame (m : MemoryVersionStore) (svc : Services) (ord : RowOrder) (ctx : ContextUri)
    (from_ into : BranchName) (strat : MergeStrategy) (now : DateTime) :
    m.CallFrame svc (.merge ord ctx from_ into strat now) := by
  intro t ht
  obtain rfl := Option.some.inj ht
  simp only [step,result]
  cases hm : m.merge ctx from_ into strat now with
  | error e => exact RefsFollow.refl m _
  | ok r =>
    obtain ⟨res,m'⟩ := r
    show RefsFollow m m' _ (some res.commit)
    have hn := hm
    simp only [merge,bind_eq_ok] at hn
    obtain ⟨fh,hf,nh,hi,-⟩ := hn
    by_cases ha : m.isAncestor nh fh = true
    · rw [merge_ancestor strat now hf hi ha] at hm
      obtain ⟨rfl,rfl⟩ := Prod.mk.inj (Except.ok.inj hm)
      split
      · rename_i b hb
        exact .followHead (frame_setBranch m _ rfl) rfl rfl fh
      · exact .followHead (Frame.refl m) rfl rfl fh
    · have ha : m.isAncestor nh fh = false := by simpa using ha
      have hs : strat ≠ .fastForward := by
        rintro rfl
        rw [merge_refused now hf hi ha] at hm
        cases hm
      rw [merge_diverged now hf hi ha hs,map_eq_ok] at hm
      obtain ⟨r,-,hr⟩ := hm
      obtain ⟨rfl,rfl⟩ := Prod.mk.inj hr
      exact .followHead ((frame_insertCommit m _ r.1).trans (frame_moveBranch _ _ rfl))
        (attachedBranches_moveBranch _) (heads_moveBranch _) m.nextId

theorem refsFollow_pick (h : m.RefsFresh) (c : MemoryCommit) (snap : Snapshot) (sc : String) (name : BranchName)
    {result : Option CommitId} (he : ∀ id, result = some id → id = m.nextId) :
    RefsFollow m (((m.insertCommit c snap).moveBranch sc name m.nextId).setHead sc m.nextId)
      ⟨sc,(· = name.asStr),False⟩ result ↔ m.attachedBranches[sc]? = some name := by
  rw [← follows_branch]
  constructor
  · intro hr
    by_contra hn
    have hh := hr.stays hn
    rw [heads_setHead] at hh
    exact absurd (h.heads sc m.nextId hh.symm) (Nat.lt_irrefl _)
  · intro hf
    refine ⟨?_,fun _ id hi => ?_,fun hn => absurd hf hn⟩
    · refine Frame.trans (Frame.trans (frame_insertCommit m c snap) (frame_moveBranch _ _ ?_)) (frame_setHead _ _)
      rfl
    · rw [heads_setHead,he id hi]

theorem forall_ok_ok {p : CommitId → CommitId → Prop} {a b : CommitId} :
    (∀ x y, (Except.ok a : Except VersionError CommitId) = .ok x → (Except.ok b : Except VersionError CommitId) = .ok y →
      p x y) ↔ p a b := by
  constructor
  · exact fun h => h a b rfl rfl
  · intro h x y hx hy
    obtain rfl := Except.ok.inj hx
    obtain rfl := Except.ok.inj hy
    exact h

theorem knowledgeMerge_callFrame_iff (h : m.RefsFresh) (from_ into : BranchName) (strat : KnowledgeMergeStrategy)
    (now : DateTime) : m.CallFrame svc (.knowledgeMerge order ctx from_ into strat now) ↔
      ∀ fh nh, m.branchHead ctx.canonical from_ = .ok fh →
      m.branchHead ctx.canonical into = .ok nh →
        if m.isAncestor nh fh = true then
          m.attachedBranches[ctx.canonical]? = some into → m.heads[ctx.canonical]? = some fh
        else (∃ e, svc.detect strat (m.snapshot fh) (m.snapshot nh) = .error e) ∨
          m.attachedBranches[ctx.canonical]? = some into := by
  have hc : m.CallFrame svc (.knowledgeMerge order ctx from_ into strat now) ↔
      RefsFollow m (m.afterTx (m.knowledgeMerge svc ctx from_ into strat now))
        ⟨ctx.canonical,(· = into.asStr),False⟩
        ((m.knowledgeMerge svc ctx from_ into strat now).toOption.map (fun r => r.1.commit)) := by
    simp [CallFrame,target,step,result]
  rw [hc]
  cases hf : m.branchHead ctx.canonical from_ with
  | error e =>
    have hm : m.knowledgeMerge svc ctx from_ into strat now = .error e := by
      simp [knowledgeMerge,hf,bind,Except.bind]
    rw [hm]
    exact iff_of_true (RefsFollow.refl m _) (fun _ _ hf' => by cases hf')
  | ok fh =>
    cases hi : m.branchHead ctx.canonical into with
    | error e =>
      have hm : m.knowledgeMerge svc ctx from_ into strat now = .error e := by
        simp [knowledgeMerge,hf,hi,bind,Except.bind]
      rw [hm]
      exact iff_of_true (RefsFollow.refl m _) (fun _ _ _ hi' => by cases hi')
    | ok nh =>
      rw [forall_ok_ok]
      by_cases ha : m.isAncestor nh fh = true
      · rw [if_pos ha,knowledgeMerge_ancestor svc strat now hf hi ha]
        show RefsFollow m (m.moveBranch ctx.canonical into fh) _ (some fh) ↔ _
        constructor
        · intro hr ht
          have hh := hr.follows (follows_branch.mpr ht) fh rfl
          rwa [heads_moveBranch] at hh
        · intro hh
          refine ⟨frame_moveBranch m _ rfl,fun ho id hid => ?_,fun _ => by rw [heads_moveBranch]⟩
          obtain rfl := Option.some.inj hid
          rw [heads_moveBranch]
          exact hh (follows_branch.mp ho)
      · have ha : m.isAncestor nh fh = false := by simpa using ha
        rw [if_neg (by simp [ha]),knowledgeMerge_diverged now hf hi ha]
        cases hd : svc.detect strat (m.snapshot fh) (m.snapshot nh) with
        | error e => exact iff_of_true (RefsFollow.refl m _) (.inl ⟨e,rfl⟩)
        | ok conflicts =>
          simp only [reduceCtorEq,exists_false,false_or]
          exact refsFollow_pick h _ _ _ _ (fun id hid => (Option.some.inj hid).symm)

/-- The pick fails: the commit is gone, or it is refused under `Fail`. -/
def PickFails (m : MemoryVersionStore) (ctx : ContextUri) (commit : CommitId) (onto : BranchName)
    (strategy : ConflictStrategy) : Prop :=
  ∀ source, m.commits[commit]? = some source → strategy = .fail ∧ ∃ u : String,
    Conflict (m.optSnapshot source.parents.head?)[u]? (m.optSnapshot ((m.getBranch ctx.canonical onto).map (·.head)))[u]?
      (m.snapshot commit)[u]?

theorem cherryPick_error_iff (m : MemoryVersionStore) (ctx : ContextUri) (commit : CommitId) (onto : BranchName)
    (strategy : ConflictStrategy) (now : DateTime) : (∃ e, m.cherryPick ctx commit onto strategy now = .error e) ↔
      m.PickFails ctx commit onto strategy := by
  unfold PickFails
  cases hc : m.commits[commit]? with
  | none => exact iff_of_true ⟨_,by simp only [cherryPick,hc]; rfl⟩ (fun src ho => by cases ho)
  | some src =>
    simp only [Option.some.injEq,forall_eq']
    have he : ∀ tgt : Snapshot, (((changedUris (m.optSnapshot src.parents.head?) (m.snapshot commit)).filter
        (isConflict (m.optSnapshot src.parents.head?) (m.snapshot commit) tgt)).isEmpty = false) ↔
        ∃ u : String, Conflict (m.optSnapshot src.parents.head?)[u]? tgt[u]? (m.snapshot commit)[u]? := by
      intro tgt
      rw [List.isEmpty_eq_false_iff_exists_mem]
      exact exists_congr (fun u => mem_conflicts)
    simp only [cherryPick,hc,← he,ensure,bind,Except.bind]
    by_cases hs : strategy = .fail
    · cases hn : ((changedUris (m.optSnapshot src.parents.head?) (m.snapshot commit)).filter
        (isConflict (m.optSnapshot src.parents.head?) (m.snapshot commit)
          (m.optSnapshot ((m.getBranch ctx.canonical onto).map (·.head))))).isEmpty <;> simp [hs,pure,Except.pure]
    · simp [hs,pure,Except.pure]

theorem cherryPick_callFrame_iff (h : m.RefsFresh) (commit : CommitId) (onto : BranchName) (strat : ConflictStrategy)
    (now : DateTime) : m.CallFrame svc (.cherryPick order ctx commit onto strat now) ↔
      m.PickFails ctx commit onto strat ∨ m.attachedBranches[ctx.canonical]? = some onto := by
  have hc : m.CallFrame svc (.cherryPick order ctx commit onto strat now) ↔
      RefsFollow m (m.afterTx (m.cherryPick ctx commit onto strat now)) ⟨ctx.canonical,(· = onto.asStr),False⟩
        ((m.cherryPick ctx commit onto strat now).toOption.map (fun r => r.1)) := by
    simp [CallFrame,target,step,result]
  rw [hc,← m.cherryPick_error_iff ctx commit onto strat now]
  cases hm : m.cherryPick ctx commit onto strat now with
  | error e => exact iff_of_true (RefsFollow.refl m _) (.inl ⟨e,rfl⟩)
  | ok r =>
    obtain ⟨id,m'⟩ := r
    obtain ⟨rfl,src,c,snap,-,rfl⟩ := cherryPick_ok hm
    simp only [reduceCtorEq,exists_false,false_or]
    exact refsFollow_pick h c snap _ onto (fun id hi => (Option.some.inj hi).symm)

theorem asStr_inj {name name' : BranchName} (h : name.asStr = name'.asStr) : name = name' := by
  cases name
  cases name'
  simpa using h

theorem branches_pick (m : MemoryVersionStore) (c : MemoryCommit) (snap : Snapshot) {sc : String} {onto : BranchName}
    {o : Branch} (ho : m.getBranch sc onto = some o) (name : String) :
    ((((m.insertCommit c snap).moveBranch sc onto m.nextId).setHead sc m.nextId).scopeBranches sc)[name]? =
      if onto.asStr = name then some { o with head := m.nextId } else (m.scopeBranches sc)[name]? := by
  have hi : (m.insertCommit c snap).getBranch sc onto = some o := ho
  simp only [moveBranch,hi]
  show (((m.insertCommit c snap).setBranch sc onto.asStr _).scopeBranches sc)[name]? = _
  rw [getElem?_setBranch]
  simp only [true_and]
  rfl

variable {strategy : ConflictStrategy} {now : DateTime} {c : MemoryCommit} {snap : Snapshot}
  {branch onto : BranchName}

theorem rebase_self (h : m.RefsFresh) {branch : BranchName} {b : Branch}
    (hb : m.getBranch ctx.canonical branch = some b) (hp : m.cherryPick ctx b.head branch strategy now =
      .ok (m.nextId, ((m.insertCommit c snap).moveBranch ctx.canonical branch m.nextId).setHead ctx.canonical m.nextId)) :
    m.rebase ctx branch branch strategy now = (.error (.storage "rebase branch CAS failed"),
      ((m.insertCommit c snap).moveBranch ctx.canonical branch m.nextId).setHead ctx.canonical m.nextId) := by
  have hh : m.branchHead ctx.canonical branch = .ok b.head := by rw [branchHead,hb]
  have hg := m.branches_pick c snap hb branch.asStr
  rw [if_pos rfl] at hg
  have hn : m.nextId ≠ b.head := Nat.ne_of_gt (h.branches _ _ b hb)
  simp only [rebase,hh,hp,getBranch,hg]
  rw [if_pos hn]

theorem rebase_moved {b o : Branch} (hb : m.getBranch ctx.canonical branch = some b)
    (ho : m.getBranch ctx.canonical onto = some o) (hn : onto.asStr ≠ branch.asStr)
    (hp : m.cherryPick ctx b.head onto strategy now =
      .ok (m.nextId, ((m.insertCommit c snap).moveBranch ctx.canonical onto m.nextId).setHead ctx.canonical m.nextId)) :
    (m.rebase ctx branch onto strategy now).2 =
      ((((m.insertCommit c snap).moveBranch ctx.canonical onto m.nextId).setHead ctx.canonical m.nextId).setBranch
        ctx.canonical branch.asStr { b with head := m.nextId }).followHead ctx.canonical branch m.nextId := by
  have hr : m.branchHead ctx.canonical branch = .ok b.head := by rw [branchHead,hb]
  have ht : m.branchHead ctx.canonical onto = .ok o.head := by rw [branchHead,ho]
  have hg := m.branches_pick c snap ho branch.asStr
  rw [if_neg hn] at hg
  have hs : (m.scopeBranches ctx.canonical)[branch.asStr]? = some b := hb
  simp only [rebase,hr,ht,hp,getBranch,hg,hs,ne_eq,not_true_eq_false,if_false]

theorem not_refsFollow_rebase (h : m.RefsFresh) {b o : Branch} (hb : m.getBranch ctx.canonical branch = some b)
    (ho : m.getBranch ctx.canonical onto = some o) (hn : onto.asStr ≠ branch.asStr)
    (hp : m.cherryPick ctx b.head onto strategy now =
      .ok (m.nextId, ((m.insertCommit c snap).moveBranch ctx.canonical onto m.nextId).setHead ctx.canonical m.nextId))
    (result : Option CommitId) :
    ¬ RefsFollow m (m.rebase ctx branch onto strategy now).2 ⟨ctx.canonical,(· = branch.asStr),False⟩ result := by
  intro hr
  have ht := hr.frame.branch ctx.canonical onto.asStr (fun hc => hn hc.2)
  have hs : (m.scopeBranches ctx.canonical)[onto.asStr]? = some o := ho
  have hk (m' : MemoryVersionStore) : ((m'.followHead ctx.canonical branch m.nextId).scopeBranches
      ctx.canonical)[onto.asStr]? = (m'.scopeBranches ctx.canonical)[onto.asStr]? := by
    unfold followHead
    split <;> rfl
  rw [rebase_moved hb ho hn hp,hk,getElem?_setBranch,if_neg (fun hc => hn hc.2.symm),
    m.branches_pick c snap ho,if_pos rfl,hs] at ht
  have hl := h.branches _ _ o ho
  exact absurd (Option.some.inj ht) (Nat.ne_of_gt hl)

theorem rebase_callFrame_iff (h : m.RefsFresh) (branch onto : BranchName) (strat : ConflictStrategy)
    (clk : CommitId → DateTime) : m.CallFrame svc (.rebase order ctx branch onto strat clk) ↔
      ∀ branchHead ontoHead, m.branchHead ctx.canonical branch = .ok branchHead →
        m.branchHead ctx.canonical onto = .ok ontoHead →
        m.PickFails ctx branchHead onto strat ∨ branch = onto ∧ m.attachedBranches[ctx.canonical]? = some branch := by
  have hc : m.CallFrame svc (.rebase order ctx branch onto strat clk) ↔
      RefsFollow m (m.rebase ctx branch onto strat (clk m.nextId)).2 ⟨ctx.canonical,(· = branch.asStr),False⟩
        ((m.rebase ctx branch onto strat (clk m.nextId)).1.toOption.bind (fun ids => ids.getLast?)) := by
    simp [CallFrame,target,step,result]
  rw [hc]
  cases hb : m.branchHead ctx.canonical branch with
  | error e =>
    have hm : m.rebase ctx branch onto strat (clk m.nextId) = (.error e, m) := by simp only [rebase,hb]
    rw [hm]
    exact iff_of_true (RefsFollow.refl m _) (fun _ _ hb' => by cases hb')
  | ok branchHead =>
    cases ho : m.branchHead ctx.canonical onto with
    | error e =>
      have hm : m.rebase ctx branch onto strat (clk m.nextId) = (.error e, m) := by simp only [rebase,hb,ho]
      rw [hm]
      exact iff_of_true (RefsFollow.refl m _) (fun _ _ _ ho' => by cases ho')
    | ok ontoHead =>
      rw [forall_ok_ok,← m.cherryPick_error_iff ctx branchHead onto strat (clk m.nextId)]
      cases hp : m.cherryPick ctx branchHead onto strat (clk m.nextId) with
      | error e =>
        have hm : m.rebase ctx branch onto strat (clk m.nextId) = (.error e, m) := by simp only [rebase,hb,ho,hp]
        rw [hm]
        exact iff_of_true (RefsFollow.refl m _) (.inl ⟨e,rfl⟩)
      | ok r =>
        obtain ⟨id,tx⟩ := r
        obtain ⟨rfl,src,c,snap,-,rfl⟩ := cherryPick_ok hp
        simp only [reduceCtorEq,exists_false,false_or]
        obtain ⟨b,hg,rfl⟩ := branchHead_ok hb
        obtain ⟨o,ht,rfl⟩ := branchHead_ok ho
        by_cases hs : branch = onto
        · subst hs
          obtain rfl := Option.some.inj (hg.symm.trans ht)
          rw [rebase_self h hg hp]
          simp only [true_and]
          exact refsFollow_pick h c snap _ branch (fun id hi => by cases hi)
        · have hn : onto.asStr ≠ branch.asStr := fun he => hs (asStr_inj he.symm)
          exact iff_of_false (not_refsFollow_rebase h hg ht hn hp _) (fun hco => hs hco.1)

theorem heads_squashed (m : MemoryVersionStore) (sc sc' : String) (oldest nw : CommitId) (now : DateTime) :
    (m.squashed sc oldest nw now).heads[sc']? =
      if sc = sc' ∧ m.heads[sc]? = some nw then some m.nextId else m.heads[sc']? := by
  unfold squashed
  dsimp only
  by_cases hh : m.heads[sc]? = some nw
  · simp [hh,setHead,insertCommit,Std.ExtTreeMap.getElem?_insert]
  · simp [hh,insertCommit]

/-- The condition on a squash: no branch of another scope stands on the tip, and an attached HEAD stands on it
exactly when its branch does. -/
def SquashFrame (m : MemoryVersionStore) (scope : String) (newest : CommitId) : Prop :=
  (∀ (scope' name : String) (b : Branch), (m.scopeBranches scope')[name]? = some b → b.head = newest → scope' = scope) ∧
    ∀ name : BranchName, m.attachedBranches[scope]? = some name → (m.heads[scope]? = some newest ↔
      ∃ b : Branch, (m.scopeBranches scope)[name.asStr]? = some b ∧ b.head = newest)

theorem squash_callFrame_iff (h : m.RefsFresh) (cs : List CommitId) (message : String) (now : DateTime) :
    m.CallFrame svc (.squash order ctx cs message now) ↔
      ∀ oldest newest, m.Squashable ctx.canonical cs oldest newest → m.SquashFrame ctx.canonical newest := by
  let t : RefTarget := ⟨ctx.canonical,
    fun name => ∃ b : Branch,(m.scopeBranches ctx.canonical)[name]? = some b ∧ cs.getLast? = some b.head,
    ∃ newest,cs.getLast? = some newest ∧ m.heads[ctx.canonical]? = some newest⟩
  have hca : m.CallFrame svc (.squash order ctx cs message now) ↔
      RefsFollow m (m.afterTx (m.squash ctx cs now)) t
        ((m.squash ctx cs now).toOption.map (fun r => r.1.newCommit)) := by
    simp [CallFrame,target,step,result,t]
  rw [hca]
  cases hm : m.squash ctx cs now with
  | error e =>
    refine iff_of_true (RefsFollow.refl m t) (fun oldest newest hq => ?_)
    rw [squash_isOk now hq] at hm
    cases hm
  | ok r =>
    obtain ⟨oldest,newest,hq⟩ := squash_ok hm
    rw [squash_isOk now hq] at hm
    obtain rfl := Except.ok.inj hm
    have hu : (∀ oldest newest, m.Squashable ctx.canonical cs oldest newest →
        m.SquashFrame ctx.canonical newest) ↔
        m.SquashFrame ctx.canonical newest := by
      refine ⟨fun hal => hal oldest newest hq,fun hfr oldest' newest' hq' => ?_⟩
      obtain rfl := Option.some.inj (hq.last.symm.trans hq'.last)
      exact hfr
    have hl : ∀ id : CommitId, cs.getLast? = some id ↔ id = newest := by
      intro id
      rw [hq.last,Option.some.injEq,eq_comm]
    have hh := heads_squashed m ctx.canonical ctx.canonical oldest newest now
    simp only [true_and] at hh
    rw [hu]
    show RefsFollow m (m.squashed ctx.canonical oldest newest now) t (some m.nextId) ↔ _
    constructor
    · intro hr
      refine ⟨fun scope' name b hb he => ?_,fun name ha => ?_⟩
      · by_contra hne
        have hbr := hr.frame.branch scope' name (fun hc => hne hc.1)
        rw [getElem?_squashed,hb,Option.map_some,if_pos he] at hbr
        exact absurd (Option.some.inj hbr) (Nat.ne_of_gt (h.branches scope' name b hb))
      · have hf : m.Follows t ↔ ∃ b : Branch, (m.scopeBranches ctx.canonical)[name.asStr]? = some b ∧
            b.head = newest := by
          simp only [Follows,t,ha,hl]
        rw [← hf]
        constructor
        · intro hd
          by_contra hn
          have hs := hr.stays hn
          rw [hh,if_pos hd,hd] at hs
          exact absurd (h.heads _ newest hd) (by rw [← Option.some.inj hs]; exact Nat.lt_irrefl _)
        · intro ho
          have hv := hr.follows ho m.nextId rfl
          rw [hh] at hv
          by_contra hn
          rw [if_neg hn] at hv
          exact absurd (h.heads _ _ hv) (Nat.lt_irrefl _)
    · rintro ⟨hbrn,hd⟩
      have hf : m.Follows t ↔ m.heads[ctx.canonical]? = some newest := by
        cases ha : m.attachedBranches[ctx.canonical]? with
        | none => simp only [Follows,t,ha,hl,exists_eq_left]
        | some name =>
          rw [hd name ha]
          simp only [Follows,t,ha,hl]
      refine ⟨⟨fun scope' name hn => ?_,?_,fun scope' hne => ?_,?_⟩,fun ho id hi => ?_,fun hn => ?_⟩
      · rw [getElem?_squashed]
        cases hb : (m.scopeBranches scope')[name]? with
        | none => rfl
        | some b =>
          have hb' : b.head ≠ newest := by
            intro he
            obtain rfl := hbrn scope' name b hb he
            exact hn ⟨rfl,b,hb,(hl b.head).mpr he⟩
          simp [hb']
      · unfold squashed
        dsimp only
        split <;> rfl
      · rw [heads_squashed,if_neg (fun hc => hne hc.1.symm)]
      · unfold squashed
        dsimp only
        split <;> rfl
      · rw [hh,if_pos (hf.mp ho)]
        exact hi
      · rw [hh,if_neg (fun hc => hn (hf.mpr hc))]

def FrameSafe (services : Services) (m : MemoryVersionStore) : SqliteOp → Prop
  | .knowledgeMerge _ ctx from_ into strategy _ =>
    ∀ fromHead intoHead, m.branchHead ctx.canonical from_ = .ok fromHead → m.branchHead ctx.canonical into = .ok intoHead →
      if m.isAncestor intoHead fromHead = true then
        m.attachedBranches[ctx.canonical]? = some into → m.heads[ctx.canonical]? = some fromHead
      else (∃ e, services.detect strategy (m.snapshot fromHead) (m.snapshot intoHead) = .error e) ∨
        m.attachedBranches[ctx.canonical]? = some into
  | .cherryPick _ ctx commit onto strategy _ =>
    m.PickFails ctx commit onto strategy ∨ m.attachedBranches[ctx.canonical]? = some onto
  | .rebase _ ctx branch onto strategy _ =>
    ∀ branchHead ontoHead, m.branchHead ctx.canonical branch = .ok branchHead →
      m.branchHead ctx.canonical onto = .ok ontoHead →
      m.PickFails ctx branchHead onto strategy ∨ branch = onto ∧ m.attachedBranches[ctx.canonical]? = some branch
  | .squash _ ctx commits _ _ =>
    ∀ oldest newest, m.Squashable ctx.canonical commits oldest newest → m.SquashFrame ctx.canonical newest
  | _ => True

/-- In every store a run reaches, a call moves its own targets alone exactly under its condition; a merge always does. -/
theorem callFrame_iff (services : Services) (ops : List SqliteOp) (op : SqliteOp) :
    (run (step services) empty ops).CallFrame services op ↔ (run (step services) empty ops).FrameSafe services op := by
  have h := run_refsFresh services ops
  generalize run (step services) empty ops = m at h
  cases op with
  | merge order ctx from_ into strategy now =>
    exact iff_of_true (merge_callFrame m services order ctx from_ into strategy now) trivial
  | knowledgeMerge order ctx from_ into strategy now => exact knowledgeMerge_callFrame_iff h from_ into strategy now
  | cherryPick order ctx commit onto strategy now => exact cherryPick_callFrame_iff h commit onto strategy now
  | rebase order ctx branch onto strategy clock => exact rebase_callFrame_iff h branch onto strategy clock
  | squash order ctx commits message now => exact squash_callFrame_iff h commits message now
  | _ => exact iff_of_true (fun t ht => by cases ht) trivial

end Calls

section Sample

open SqliteVersionStore (sampleServices sampleScope mainBranch devBranch aheadOps)

/-- A pick onto `main` while `dev` is checked out takes HEAD along. -/
theorem callFrame_not : ¬ ∀ (services : Services) (ops : List SqliteOp) (op : SqliteOp),
    (run (step services) empty ops).CallFrame services op := by
  intro h
  have hr := h sampleServices aheadOps (.cherryPick .asStored sampleScope 1 mainBranch .fail 2)
    ⟨sampleScope.canonical, (· = mainBranch.asStr), False⟩ rfl
  have ha : (run (step sampleServices) empty aheadOps).attachedBranches[sampleScope.canonical]? =
      some devBranch := by
    decide
  have hs := hr.stays (fun hf => by
    rw [follows_branch, ha] at hf
    exact absurd hf (by decide))
  exact absurd hs (by decide)

end Sample

end MemoryVersionStore
end UwuContextDb.Version
