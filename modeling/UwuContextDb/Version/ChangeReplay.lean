import UwuContextDb.Library.EditTable
import UwuContextDb.Version.SqliteHistory

/-! The rows of a commit against its change set. The rows keep one operation for every URI and come
back in any order; they replay to the sequential semantics when the change set is separable. -/

namespace UwuContextDb.Version

open MapEdit StateMachine

def ChangeSet.writes (changes : ChangeSet) : List (String × Edit String Json) :=
  changes.adds.map (fun e => (e.uri.canonical, .put e.toValue)) ++
    changes.updates.map (fun upd => (upd.uri.canonical, .put upd.entry.toValue)) ++
    changes.deletes.map (fun uri => (uri.canonical, .drop))

def ChangeSet.moves (changes : ChangeSet) : List (String × String) :=
  changes.renames.map (fun r => (r.toUri.canonical, r.fromUri.canonical))

def ChangeSet.Separable (parent : Snapshot) (changes : ChangeSet) : Prop :=
  Orderly parent changes.writes changes.moves

theorem ChangeSet.isWrite_writes (changes : ChangeSet) : ∀ e ∈ changes.writes, e.2.isWrite = true := by
  intro e he
  simp only [writes,List.mem_append,List.mem_map] at he
  rcases he with (⟨_,-,rfl⟩ | ⟨_,-,rfl⟩) | ⟨_,-,rfl⟩ <;> rfl

variable {changes : ChangeSet} {rows : List DeltaRow}

theorem ChangeSet.separable_of_renames_nil (h : changes.renames = []) (parent : Snapshot) :
    changes.Separable parent := by
  have hm : changes.moves = [] := by simp [moves,h]
  constructor
  · exact changes.isWrite_writes
  all_goals simp [hm,moveEdits]

theorem ChangeSet.separable_of_single_rename {r : RenameOp} (h : changes.renames = [r])
    (hw : ∀ e ∈ changes.writes, e.1 ≠ r.fromUri.canonical ∧ e.1 ≠ r.toUri.canonical) (parent : Snapshot) :
    changes.Separable parent := by
  have ho : changes.moves = [(r.toUri.canonical, r.fromUri.canonical)] := by simp [moves,h]
  constructor
  · exact changes.isWrite_writes
  · intro k f hm _ w he
    obtain ⟨rfl,rfl⟩ := by simpa [ho] using hm
    exact (hw _ he).1 rfl
  · intro k f hm _ _ v hv
    obtain ⟨rfl,rfl⟩ := by simpa [ho] using hm
    exact (hw _ (mem_of_lastEdit hv)).1 rfl
  · intro k f hm _ w he
    have hk := mem_of_lastEdit hm
    obtain ⟨rfl,-⟩ := by simpa [ho,moveEdits] using hk
    exact (hw _ he).2 rfl
  · intro k f hm _ hf g hg
    have hk := mem_of_lastEdit hm
    obtain ⟨rfl,rfl⟩ := by simpa [ho,moveEdits] using hk
    obtain ⟨hfk,-⟩ := by simpa [ho] using hg
    exact absurd hfk.symm hf
  · simp [ho]

theorem changeRows_ok (h : changeRows changes = .ok rows) :
    checkUpdates changes.updates = .ok () ∧ rows.map DeltaRow.edit = changes.writes ++ moveEdits changes.moves := by
  simp only [changeRows,bind_eq_ok,pure,Except.pure,Except.ok.injEq] at h
  obtain ⟨u,hu,rfl⟩ := h
  refine ⟨hu,?_⟩
  simp [ChangeSet.writes,ChangeSet.moves,moveEdits,DeltaRow.edit,DeltaOp.edit,Function.comp_def]

theorem applyChanges_eq_replay (h : checkUpdates changes.updates = .ok ()) (parent : Snapshot) :
    applyChanges parent changes = .ok (replay parent (changes.writes++moveEdits changes.moves)) := by
  have hm : ∀ (renames : List RenameOp) (s : Snapshot), applyRenames s renames =
      replay s (moveEdits (renames.map (fun r => (r.toUri.canonical, r.fromUri.canonical)))) := by
    intro renames
    induction renames with
    | nil => exact fun s => rfl
    | cons r renames ih =>
      intro s
      have hs : applyRenames s (r::renames) =
          applyRenames (apply s (r.toUri.canonical, .moveFrom r.fromUri.canonical)) renames := by
        simp only [applyRenames,List.foldl_cons,apply]
        cases s[r.fromUri.canonical]? <;> rfl
      rw [hs]
      exact ih _
  simp only [applyChanges,h,bind,Except.bind,pure,Except.pure,hm,ChangeSet.writes,ChangeSet.moves,
    replay,List.foldl_append,List.foldl_map,apply]

theorem ChangeSet.Separable.stored {parent : Snapshot}
    (h : changes.Separable parent) (hr : changeRows changes = .ok rows) :
    Separated parent (insertDeltas rows).edits ∧
      applyChanges parent changes = .ok (replay parent (insertDeltas rows).edits) := by
  obtain ⟨hc,he⟩ := changeRows_ok hr
  have hT : ∀ u w, (u, w) ∈ (insertDeltas rows).edits ↔
      lastEdit (changes.writes++moveEdits changes.moves) u = some w := by
    intro u w
    rw [mem_edits_insertDeltas,he]
  exact ⟨h.separated hT,by rw [applyChanges_eq_replay hc,h.replay_table hT]⟩

namespace SqliteVersionStore

/-- The snapshot a commit on `scope` starts from. -/
def headSnapshot (st : SqliteVersionStore) (order : RowOrder) (scope : ContextUri) : Snapshot :=
  st.baseSnapshot order (st.getHead scope.canonical)

def StepSeparable (st : SqliteVersionStore) : SqliteOp → Prop
  | .commit scope changes _ _ => changes.Separable (st.headSnapshot .asStored scope)
  | _ => True

structure Extends (st st' : SqliteVersionStore) : Prop where
  snapshots : st.KeepsSnapshots st'
  ids : st.nextId ≤ st'.nextId
  gone : ∀ c ∈ st'.commits, c < st.nextId → c ∈ st.commits

variable {st st' tx : SqliteVersionStore} {svc : Services}

theorem Extends.refl (st : SqliteVersionStore) : st.Extends st := ⟨fun _ _ h _ => h,le_rfl,fun _ h _ => h⟩

theorem Extends.trans (ht : st.Consistent) (h : st.Extends tx) (h' : tx.Extends st') : st.Extends st' := by
  have hg : ∀ c ∈ st'.commits, c < st.nextId → c ∈ tx.commits := by
    intro c hc hl
    exact h'.gone c hc (lt_of_lt_of_le hl h.ids)
  constructor
  · intro id s hs hi
    exact h'.snapshots id s (h.snapshots id s hs (hg id hi (ht.fresh id hs.mem))) hi
  · exact h.ids.trans h'.ids
  · exact fun c hc hl => h.gone c (hg c hc hl) hl

theorem Evolves.extends (h : Evolves st st') (hs : st.Consistent) : st.Extends st' :=
  ⟨(h.consistent hs).2,h.mem_commits.1,h.mem_commits.2⟩

theorem extends_withCommit (hs : st.Consistent) (row : CommitRow) : st.Extends (st.withCommit row) := by
  refine ⟨keepsSnapshots_withCommit hs row,Nat.le_succ _,fun c hc hl => ?_⟩
  rcases (by simpa using hc : st.nextId = c ∨ c ∈ st.commits) with rfl | hc
  · exact absurd hl (lt_irrefl _)
  · exact hc

theorem hasBase_headSnapshot (hs : st.Consistent) (ord : RowOrder) (sc : ContextUri)
    (hp : ∀ p ∈ (st.getHead sc.canonical).toList, p ∈ st.commits) :
    HasBase st.commits (st.getHead sc.canonical) (st.headSnapshot ord sc) := by
  unfold headSnapshot
  cases hh : st.getHead sc.canonical with
  | none => exact .none
  | some p => exact .some p _ (hasSnapshot_reconstruct hs ord (hp p (by simp [hh])))

theorem commit_hasSnapshot {sc : ContextUri} {changes : ChangeSet} {md : CommitMeta} {now : DateTime}
    {id : CommitId} (hs : st.Consistent) (hse : changes.Separable (st.headSnapshot .asStored sc))
    (h : st.commit sc changes md now = .ok (id, tx)) :
    tx.Consistent ∧ st.Extends tx ∧ id = st.nextId ∧ id < tx.nextId ∧
      ∃ s, applyChanges (st.headSnapshot .asStored sc) changes = .ok s ∧
        (id ∈ tx.commits → HasSnapshot tx.commits id s) := by
  obtain ⟨rows,row,hw,hp,rfl,hpa,hd,he⟩ := commit_evolves h
  obtain ⟨hsp,hap⟩ := hse.stored hw
  have ha := hasBase_headSnapshot hs .asStored sc (hpa ▸ hp)
  have hh : row.parents.head? = st.getHead sc.canonical := by
    rw [hpa]
    cases st.getHead sc.canonical <;> rfl
  have hr : (st.withCommit row).Consistent := by
    refine hs.withCommit hp (fun base hb => ?_)
    rw [← baseSnapshot_eq hs .asStored hb,hh,hd]
    exact hsp
  have hx := extends_withCommit hs row
  refine ⟨(he.consistent hr).1,hx.trans hs (he.extends hr),rfl,he.mem_commits.1,_,hap,fun hi => ?_⟩
  refine (he.consistent hr).2 _ _ ?_ hi
  have ha' : HasBase (st.withCommit row).commits row.parents.head? (st.headSnapshot .asStored sc) := by
    rw [hh]
    exact ha.mono (fun p base hb => hx.snapshots p base hb (by simp [hb.mem]))
  rw [← hd]
  exact .of_base (by simp) ha' (hd ▸ hsp)

theorem step_extends (svc : Services) (op : SqliteOp) (hs : st.Consistent) (h : st.StepSeparable op) :
    (st.step svc op).Consistent ∧ st.Extends (st.step svc op) := by
  cases ho : op.isCommit with
  | false =>
    have he : Evolves st (st.step svc op) := step_evolves svc ho
    exact ⟨(he.consistent hs).1,he.extends hs⟩
  | true =>
    cases op with
    | commit sc changes md now =>
      refine afterTx_cases (motive := fun tx => tx.Consistent ∧ st.Extends tx) ⟨hs, .refl st⟩ (fun id tx hk => ?_)
      obtain ⟨ht,hx,-⟩ := commit_hasSnapshot hs h hk
      exact ⟨ht,hx⟩
    | _ => simp [SqliteOp.isCommit] at ho

theorem run_extends {ops : List SqliteOp} (ht : st.Consistent)
    (h : Meets (step svc) StepSeparable st ops) :
    (run (step svc) st ops).Consistent ∧ st.Extends (run (step svc) st ops) := by
  have hste : ∀ (s : SqliteVersionStore) (op : SqliteOp), s.Consistent ∧ st.Extends s → s.StepSeparable op →
      (s.step svc op).Consistent ∧ st.Extends (s.step svc op) := by
    intro s op hs ho
    obtain ⟨hs',he'⟩ := step_extends svc op hs.1 ho
    exact ⟨hs',hs.2.trans ht he'⟩
  exact run_invariant hste ⟨ht, .refl st⟩ h

/-- In a run whose commits are all separable, the snapshot of every commit a caller made reads back
as its parent's snapshot with the change set applied in sequence, for as long as the commit exists. -/
theorem commit_refines_applyChanges (services : Services) (before after : List SqliteOp) (scope : ContextUri)
    (changes : ChangeSet) (metadata : CommitMeta) (now : DateTime) (order order' : RowOrder) (id : CommitId)
    (st' : SqliteVersionStore)
    (hrun : Meets (step services) StepSeparable empty (before ++ .commit scope changes metadata now :: after))
    (hok : (run (step services) empty before).commit scope changes metadata now = .ok (id, st'))
    (hid : id ∈ (run (step services) st' after).commits) :
    applyChanges ((run (step services) empty before).headSnapshot order scope) changes =
      .ok ((run (step services) st' after).reconstructSnapshot order' id) := by
  obtain ⟨hb, hc, ha⟩ := meets_append.mp hrun
  obtain ⟨hs, -⟩ := run_extends consistent_empty hb
  have ht : (run (step services) empty before).step services (.commit scope changes metadata now) = st' := by
    simp [step, afterTx, hok, Outcome.ofTx]
  rw [ht] at ha
  obtain ⟨hs', -, -, hlt, s, hap, hn⟩ := commit_hasSnapshot hs hc hok
  obtain ⟨hl, he⟩ := run_extends hs' ha
  have hm : id ∈ st'.commits := he.gone id hid hlt
  rw [reconstructSnapshot_eq hl order' (he.snapshots id s (hn hm) hid), ← hap]
  obtain ⟨rows, row, -, hp, -, hr, -⟩ := commit_evolves hok
  rw [hr] at hp
  congr 1
  exact baseSnapshot_eq hs order (hasBase_headSnapshot hs .asStored scope hp)

def renameSample : ChangeSet :=
  ⟨[sampleEntry "c" "two"], [], [], [⟨sampleScope.join "a", sampleScope.join "b"⟩]⟩

theorem commit_refines_applyChanges_rename :
    applyChanges ((run (step sampleServices) empty [addSample]).headSnapshot .asStored sampleScope) renameSample =
      .ok ((run (step sampleServices) empty [addSample, .commit sampleScope renameSample .empty 1,
        .remember .reversed 1]).reconstructSnapshot .reversed 1) :=
  commit_refines_applyChanges sampleServices [addSample] [.remember .reversed 1] sampleScope renameSample .empty 1
    .asStored .reversed 1 (run (step sampleServices) empty [addSample, .commit sampleScope renameSample .empty 1])
    ⟨ChangeSet.separable_of_renames_nil rfl _, ChangeSet.separable_of_single_rename rfl (by decide) _, trivial, trivial⟩
    rfl (by decide)

/-- In a run whose commits are all separable, a commit that is still stored reads back as it first did, whatever
was done since and in whatever order the rows come. -/
theorem snapshots_last (services : Services) (before after : List SqliteOp) (order order' : RowOrder) (id : CommitId)
    (hrun : Meets (step services) StepSeparable empty (before++after))
    (hid : id ∈ (run (step services) empty before).commits)
    (hlast : id ∈ (run (step services) empty (before++after)).commits) :
    (run (step services) empty (before++after)).reconstructSnapshot order' id =
      (run (step services) empty before).reconstructSnapshot order id := by
  obtain ⟨hb,ha⟩ := meets_append.mp hrun
  obtain ⟨hs,-⟩ := run_extends consistent_empty hb
  obtain ⟨hl,he⟩ := run_extends hs ha
  rw [run_append] at hlast ⊢
  exact reconstructSnapshot_eq hl order' (he.snapshots id _ (hasSnapshot_reconstruct hs order hid) hlast)

theorem snapshots_last_rename :
    (run (step sampleServices) empty [addSample, .commit sampleScope renameSample .empty 1,
      .remember .reversed 0]).reconstructSnapshot .reversed 0 =
        (run (step sampleServices) empty [addSample]).reconstructSnapshot .asStored 0 :=
  snapshots_last sampleServices [addSample] [.commit sampleScope renameSample .empty 1, .remember .reversed 0]
    .asStored .reversed 0
    ⟨ChangeSet.separable_of_renames_nil rfl _,ChangeSet.separable_of_single_rename rfl (by decide) _,trivial,trivial⟩
    (by decide) (by decide)

def lostAddition : ChangeSet :=
  ⟨[sampleEntry "b" "one"], [], [], [⟨sampleScope.join "a", sampleScope.join "b"⟩]⟩

theorem commit_not_applyChanges :
    ¬ ∀ (scope : ContextUri) (changes : ChangeSet) (id : CommitId) (st' : SqliteVersionStore),
      empty.commit scope changes .empty 0 = .ok (id, st') →
      applyChanges (empty.headSnapshot .asStored scope) changes = .ok (st'.reconstructSnapshot .asStored id) := by
  intro h
  have hl := h sampleScope lostAddition 0
    (run (step sampleServices) empty [.commit sampleScope lostAddition .empty 0]) rfl
  have hb := congrArg (fun r => (r.toOption.getD ∅).size) hl
  exact absurd hb (by decide)

end SqliteVersionStore
end UwuContextDb.Version
