import UwuContextDb.Content.IndexProjection
import UwuContextDb.Content.OutboxRetries

/-! The vector index behind the outbox: calls of the store, any number of workers, and the calls that the index carries
out. -/

namespace UwuContextDb.Content

open StateMachine
open List (mem_append mem_singleton map_append map_map mem_map mem_flatMap Subset mem_of_getElem?)

/-- A worker in `process_batch`: the jobs that it has left, how many calls it has made for the first of them, and the
error of the last call. -/
structure IndexWorker where
  jobs : List OutboxJob
  made : ℕ
  failed : Option ContextError

/-- The next call that `apply` makes. -/
def IndexWorker.nextChange (worker : IndexWorker) : Option IndexChange :=
  match worker.failed, worker.jobs with
  | none, job::_ => (changesOf job.id job.mutation)[worker.made]?
  | _, _ => none

def IndexWorker.called (error : Option ContextError) (worker : IndexWorker) : IndexWorker :=
  match error with
  | none => { worker with made := worker.made + 1 }
  | some _ => { worker with failed := error }

/-- The tables, with every row of the outbox as it was inserted, the rows as they are, the workers, and the calls that
the index has carried out one after another. -/
structure IndexWorld where
  tables : SqliteTables
  rows : List (OutboxRecord IndexMutation)
  workers : List IndexWorker
  carried : List IndexChange

/-- A transaction of the store, a reconciliation, or a step of a worker: it claims a batch, makes a call, which may be
carried out though it returns an error, stores the result of a job if it can, or stops. -/
inductive IndexStep
  | store (op : SqliteTables.Op)
  | reconcile (now : DateTime)
  | claim (locked : List ℕ) (now : DateTime)
  | call (worker : ℕ) (reached : Bool) (error : Option ContextError)
  | finish (worker : ℕ) (stored : Bool) (now : DateTime)
  | crash (worker : ℕ)

namespace IndexWorld

def empty : IndexWorld := ⟨.empty, [], [], []⟩

def points (world : IndexWorld) : Points := Delivery.replay world.carried

def log (world : IndexWorld) : List (ℕ × IndexMutation) := world.rows.map (fun row => (row.id, row.mutationJson))

def commit (world : IndexWorld) (tables : SqliteTables) : IndexWorld :=
  { world with
    tables := tables
    rows := world.rows ++ (tables.outbox.drop world.tables.outbox.length).map .ofRow }

variable (libraries libs : StoreLibraries) (batch : SqliteTables.BatchWriteConfig) (backend : OutboxBackend)
    (config : OutboxConfig)

def step (world : IndexWorld) : IndexStep → IndexWorld
  | .store op => world.commit (world.tables.step libraries batch op)
  | .reconcile now => world.commit ((world.tables.reconcileAll libraries now).toOption.getD world.tables)
  | .claim locked now =>
    let (jobs, rows) := Content.claim backend config .ok locked now world.rows
    { world with rows := rows, workers := world.workers ++ [⟨jobs.toOption.getD [], 0, none⟩] }
  | .call i reached error =>
    match world.workers[i]?.bind IndexWorker.nextChange with
    | none => world
    | some change =>
      { world with
        workers := world.workers.modify i (.called error)
        carried := if error.isNone || reached then world.carried ++ [change] else world.carried }
  | .finish i stored now =>
    match world.workers[i]? with
    | some ⟨job::jobs, made, failed⟩ =>
      if (IndexWorker.nextChange ⟨job::jobs, made, failed⟩).isSome then world
      else if stored then
        { world with
          rows := Content.finish job.id job.attempts config.maxAttempts failed now world.rows
          workers := world.workers.set i ⟨jobs, 0, none⟩ }
      else { world with workers := world.workers.set i ⟨[], 0, none⟩ }
    | _ => world
  | .crash i => { world with workers := world.workers.modify i (fun _ => ⟨[], 0, none⟩) }

def Settled (world : IndexWorld) : Prop :=
  ∀ row ∈ world.rows, row.status ≠ .pending ∧ row.status ≠ .failed ∧ row.status ≠ .processing

/-- The index holds one point for each entry that has an embedding, as the entry is now, and no other. -/
def Converged (world : IndexWorld) : Prop := world.points = world.tables.expectedPoint libraries

/-- No write moves or drops an embedding, the index carries out no call at a place after that of a later mutation, and
no job fails in its last attempt. -/
def Careful (world : IndexWorld) : IndexStep → Prop
  | .store op => world.tables.Retained op
  | .call i reached error => error = none ∨ reached = true →
    ∀ change ∈ world.workers[i]?.bind IndexWorker.nextChange, ∀ earlier ∈ world.carried,
      earlier.key = change.key → earlier.position ≤ change.position
  | .finish i _ _ => ∀ worker ∈ world.workers[i]?, worker.failed ≠ none →
    ∀ job ∈ worker.jobs.head?, job.attempts < config.maxAttempts
  | _ => True

instance (world : IndexWorld) : Decidable world.Settled :=
  inferInstanceAs (Decidable (∀ row ∈ world.rows, row.status ≠ .pending ∧ row.status ≠ .failed ∧ row.status ≠ .processing))

instance (world : IndexWorld) (s : IndexStep) : Decidable (world.Careful config s) := by
  unfold Careful
  split <;> infer_instance

end IndexWorld

structure IndexWorker.Sound (log : List (ℕ × IndexMutation)) (carried : List IndexChange)
    (worker : IndexWorker) : Prop where
  jobs : ∀ job ∈ worker.jobs, (job.id, job.mutation) ∈ log
  made : ∀ job ∈ worker.jobs.head?, ∀ change ∈ (changesOf job.id job.mutation).take worker.made, change ∈ carried

/-- The tables ask for the points that there are to be, the calls carried out are of the log and in its order, and those
of a finished row have all been carried out. -/
structure IndexWorld.Sound (libraries : StoreLibraries) (world : IndexWorld) : Prop where
  named : world.tables.Named
  history : world.tables.History
  projected : world.tables.Projected libraries
  numbered : world.tables.outbox.map (·.id) = List.range world.tables.outbox.length
  queued : world.log = world.tables.outbox.map (fun row => (row.id, row.mutation))
  known : ∀ change ∈ world.carried, change ∈ changeLog world.log
  inOrder : Delivery.InOrder world.carried
  workers : ∀ worker ∈ world.workers, worker.Sound world.log world.carried
  done : ∀ row ∈ world.rows, row.status = .done →
    ∀ change ∈ changesOf row.id row.mutationJson, change ∈ world.carried
  alive : ∀ row ∈ world.rows, row.status ≠ .dead

variable {worker : IndexWorker} {log : List (ℕ × IndexMutation)} {carried : List IndexChange} {jobs : List OutboxJob}
  {change : IndexChange}

theorem IndexWorker.Sound.mono {log log' : List (ℕ × IndexMutation)} {carried carried' : List IndexChange}
    (h : worker.Sound log carried) (hl : log ⊆ log') (hc : carried ⊆ carried') : worker.Sound log' carried' :=
  ⟨fun job hj => hl (h.jobs job hj),fun job hj change hh => hc (h.made job hj change hh)⟩

theorem IndexWorker.Sound.of_jobs
    (h : ∀ job ∈ jobs, (job.id, job.mutation) ∈ log) : IndexWorker.Sound log carried ⟨jobs,0,none⟩ :=
  ⟨h,fun job _ change hc => by simp at hc⟩

theorem IndexWorker.sound_idle : IndexWorker.Sound log carried ⟨[],0,none⟩ := .of_jobs (fun job hj => by cases hj)

structure Grown (old outbox : List OutboxRow) : Prop where
  appended : ∃ new, outbox = old ++ new ∧ ∀ row ∈ new, row.status = .pending
  numbered : outbox.map (·.id) = List.range outbox.length

theorem keptByQueue_grown (old : List OutboxRow) : SqliteTables.KeptByQueue (Grown old) := by
  rintro st chg now ⟨⟨new,hn,hp⟩,hu⟩
  have ho : (st.enqueue chg now).outbox = st.outbox ++
      [⟨st.outbox.length,chg,(mutationOrder chg).1,(mutationOrder chg).2, .pending,0,
        now,none,now⟩] := rfl
  constructor
  · refine ⟨new++[_],by rw [ho,hn,List.append_assoc],?_⟩
    intro row hr
    rcases mem_append.mp hr with hl | ha
    · exact hp row hl
    · rw [mem_singleton.mp ha]
  · rw [ho,map_append,hu,List.length_append,List.length_singleton,List.range_succ]
    rfl

variable {workers : List IndexWorker}

namespace IndexWorld

variable {libraries libs : StoreLibraries} {batch : SqliteTables.BatchWriteConfig} {backend : OutboxBackend}
  {config : OutboxConfig} {world : IndexWorld}

theorem sound_empty : empty.Sound libs where
  named := SqliteTables.named_empty
  history := SqliteTables.history_empty
  projected := SqliteTables.projected_empty
  numbered := rfl
  queued := rfl
  known := by simp [empty]
  inOrder := List.Pairwise.nil
  workers := by simp [empty]
  done := by simp [empty]
  alive := by simp [empty]

theorem Sound.commit (h : world.Sound libs) {tbl : SqliteTables} (ha : tbl.Named) (hh : tbl.History)
    (hpr : tbl.Projected libs)
    (hg : Grown world.tables.outbox tbl.outbox) : (world.commit tbl).Sound libs := by
  obtain ⟨⟨new,hn,hw⟩,hu⟩ := hg
  have hdr : tbl.outbox.drop world.tables.outbox.length = new := by
    rw [hn,List.drop_left]
  have hl : (world.commit tbl).log = world.log ++ new.map (fun row => (row.id, row.mutation)) := by
    simp only [log,IndexWorld.commit,hdr,map_append,map_map]
    rfl
  have hs : world.log ⊆ (world.commit tbl).log := by
    rw [hl]
    exact List.subset_append_left _ _
  have hp : ∀ row ∈ (world.commit tbl).rows, row ∈ world.rows ∨ row.status = .pending := by
    intro row hr
    rw [IndexWorld.commit,hdr] at hr
    rcases mem_append.mp hr with ho | hr
    · exact .inl ho
    · obtain ⟨inserted,hi,rfl⟩ := mem_map.mp hr
      exact .inr (hw inserted hi)
  refine ⟨ha,hh,hpr,hu,?_,?_,h.inOrder,?_,?_,?_⟩
  · rw [hl,h.queued,← map_append,← hn]
    rfl
  · intro change hc
    obtain ⟨e,he,hin⟩ := mem_flatMap.mp (h.known change hc)
    exact mem_flatMap.mpr ⟨e,hs he,hin⟩
  · intro worker hwo
    exact (h.workers worker hwo).mono hs (Subset.refl _)
  · intro row hr hd
    rcases hp row hr with ho | hp
    · exact h.done row ho hd
    · rw [hp] at hd
      cases hd
  · intro row hr
    rcases hp row hr with ho | hp
    · exact h.alive row ho
    · rw [hp]
      simp

theorem Sound.grown (h : world.Sound libs) : Grown world.tables.outbox world.tables.outbox :=
  ⟨⟨[],by simp,by simp⟩,h.numbered⟩

theorem Sound.store (h : world.Sound libs) {op : SqliteTables.Op} (hr : world.tables.Retained op) :
    (world.step libs batch backend config (.store op)).Sound libs :=
  h.commit (h.named.step batch op) (h.history.step op) (h.projected.step h.history hr)
    ((keptByQueue_grown _).step h.grown op)

theorem Sound.reconcile (h : world.Sound libs) (now : DateTime) :
    (world.step libs batch backend config (.reconcile now)).Sound libs := by
  show (world.commit _).Sound libs
  cases ht : world.tables.reconcileAll libs now with
  | error e => exact h.commit h.named h.history h.projected h.grown
  | ok tbl =>
    obtain ⟨hp,he,hv⟩ := SqliteTables.reconcileAll_ok h.projected h.named ht
    exact h.commit (SqliteTables.AllRows.congr h.named he) (h.history.congr he hv) hp
      ((keptByQueue_grown _).reconcileAll h.grown ht)

theorem Sound.positions (h : world.Sound libs) : world.log.map Prod.fst = List.range world.log.length := by
  rw [h.queued,map_map,List.length_map]
  exact h.numbered

theorem Sound.nodup (h : world.Sound libs) : (world.log.map Prod.fst).Nodup := h.positions ▸ List.nodup_range

theorem Sound.worked (h : world.Sound libs) {rows : List (OutboxRecord IndexMutation)}
    (hl : rows.map (fun row => (row.id, row.mutationJson)) = world.log)
    (hw : ∀ worker ∈ workers, worker.Sound world.log world.carried)
    (hd : ∀ row ∈ rows, row.status = .done → ∀ change ∈ changesOf row.id row.mutationJson, change ∈ world.carried)
    (ha : ∀ row ∈ rows, row.status ≠ .dead) :
    IndexWorld.Sound libs { world with rows := rows, workers := workers } := by
  refine ⟨h.named,h.history,h.projected,h.numbered,hl.trans h.queued,?_,h.inOrder,?_,hd,ha⟩
  · show ∀ change ∈ world.carried, change ∈ changeLog (rows.map _)
    rw [hl]
    exact h.known
  · show ∀ worker ∈ workers, worker.Sound (rows.map _) world.carried
    rw [hl]
    exact hw

theorem Sound.replaced (h : world.Sound libs)
    (hw : ∀ worker ∈ workers, worker.Sound world.log world.carried) :
    IndexWorld.Sound libs { world with workers := workers } := h.worked rfl hw h.done h.alive

theorem Sound.claim (h : world.Sound libs) (locked : List ℕ) (now : DateTime) :
    (world.step libs batch backend config (.claim locked now)).Sound libs := by
  have ht : ∀ row ∈ (Content.claim backend config .ok locked now world.rows).2,
      ∃ old ∈ world.rows, row.id = old.id ∧ row.mutationJson = old.mutationJson ∧
        (row.status = .processing ∨ row = old) := by
    intro row hr
    obtain ⟨old,ho,rfl⟩ := mem_map.mp hr
    refine ⟨old,ho,?_⟩
    split
    · exact ⟨rfl,rfl, .inl rfl⟩
    · exact ⟨rfl,rfl, .inr rfl⟩
  have hb : ∀ job ∈ (Content.claim backend config .ok locked now world.rows).1.toOption.getD [],
      (job.id, job.mutation) ∈ world.log := by
    intro job hj
    cases he : (Content.claim backend config .ok locked now world.rows).1 with
    | error e =>
      rw [he] at hj
      cases hj
    | ok jobs =>
      rw [he] at hj
      obtain ⟨row,hr,ha⟩ := exists_of_mem_mapM he job hj
      obtain ⟨old,ho,hi,hm,-⟩ := ht row (List.mem_filter.mp hr).1
      obtain ⟨chg,hm',rfl⟩ := map_eq_ok.mp ha
      obtain rfl := Except.ok.inj hm'
      refine mem_map.mpr ⟨old,ho,?_⟩
      rw [hi,hm]
  refine h.worked ?_ ?_ ?_ ?_
  · simp only [map_map,log]
    apply List.map_congr_left
    intro row _
    dsimp only [Function.comp]
    split <;> rfl
  · intro worker hw
    rcases mem_append.mp hw with ho | hn
    · exact h.workers worker ho
    · rw [mem_singleton.mp hn]
      exact .of_jobs hb
  · intro row hr hd
    obtain ⟨old,ho,-,-,hs | rfl⟩ := ht row hr
    · rw [hs] at hd
      cases hd
    · exact h.done _ ho hd
  · intro row hr
    obtain ⟨old,ho,-,-,hs | rfl⟩ := ht row hr
    · rw [hs]
      simp
    · exact h.alive _ ho

theorem Sound.crash (h : world.Sound libs) (i : ℕ) :
    (world.step libs batch backend config (.crash i)).Sound libs := by
  refine h.replaced (fun worker hw => ?_)
  rcases mem_modify hw with ho | ⟨old,-,rfl⟩
  · exact h.workers worker ho
  · exact IndexWorker.sound_idle

end IndexWorld

theorem IndexWorker.nextChange_eq (h : worker.nextChange = some change) :
    ∃ job jobs, worker.jobs = job::jobs ∧ worker.failed = none ∧
      (changesOf job.id job.mutation)[worker.made]? = some change := by
  obtain ⟨jobs,made,failed⟩ := worker
  cases failed with
  | some e => cases h
  | none =>
    cases jobs with
    | nil => cases h
    | cons job jobs => exact ⟨job,jobs,rfl,rfl,h⟩

variable {error : Option ContextError}

theorem IndexWorker.Sound.called (h : worker.Sound log carried) (hn : worker.nextChange = some change) (hr : error = none → change ∈ carried) :
    (worker.called error).Sound log carried := by
  cases error with
  | some e => exact ⟨h.jobs,h.made⟩
  | none =>
    refine ⟨h.jobs,fun job hj earlier he => ?_⟩
    obtain ⟨job',jobs,hb,-,hc⟩ := worker.nextChange_eq hn
    have hs : job' = job := by
      have hh : worker.jobs.head? = some job := hj
      rw [hb] at hh
      exact Option.some.inj hh
    subst hs
    have he' : earlier ∈ (changesOf job'.id job'.mutation).take (worker.made+1) := he
    rw [List.take_add_one,hc,mem_append] at he'
    rcases he' with hm | hl
    · exact h.made job' hj earlier hm
    · rw [mem_singleton.mp hl]
      exact hr rfl

variable {job : OutboxJob}

theorem IndexWorker.Sound.applied
    {made : ℕ} (h : IndexWorker.Sound log carried ⟨job::jobs,made,none⟩)
    (hn : IndexWorker.nextChange ⟨job::jobs,made,none⟩ = none) :
    ∀ change ∈ changesOf job.id job.mutation, change ∈ carried := by
  intro change hc
  have hl : (changesOf job.id job.mutation).length ≤ made := List.getElem?_eq_none_iff.mp hn
  apply h.made job rfl
  show change ∈ (changesOf job.id job.mutation).take made
  rw [List.take_of_length_le hl]
  exact hc

variable {i : ℕ}

namespace IndexWorld

variable {libraries libs : StoreLibraries} {batch : SqliteTables.BatchWriteConfig} {backend : OutboxBackend}
  {config : OutboxConfig} {world : IndexWorld}

theorem Sound.call (h : world.Sound libs) {reached : Bool}
    (hf : world.Careful config (.call i reached error)) :
    (world.step libs batch backend config (.call i reached error)).Sound libs := by
  cases hn : world.workers[i]?.bind IndexWorker.nextChange with
  | none =>
    simp only [IndexWorld.step,hn]
    exact h
  | some change =>
    simp only [IndexWorld.step,hn]
    obtain ⟨worker,hw,hh⟩ := Option.bind_eq_some_iff.mp hn
    have hg : change ∈ changeLog world.log := by
      obtain ⟨job,jobs,hj,-,ht⟩ := worker.nextChange_eq hh
      have hb := (h.workers worker (mem_of_getElem? hw)).jobs job (by simp [hj])
      exact mem_flatMap.mpr ⟨_,hb,mem_of_getElem? ht⟩
    have hk : ∀ carried, world.carried ⊆ carried → (error = none → change ∈ carried) →
        ∀ other ∈ world.workers.modify i (.called error), other.Sound world.log carried := by
      intro carried hc hr other ho
      rcases mem_modify ho with hl | ⟨old,hl,rfl⟩
      · exact (h.workers other hl).mono (Subset.refl _) hc
      · obtain rfl := Option.some.inj (hw.symm.trans hl)
        exact ((h.workers worker (mem_of_getElem? hw)).mono (Subset.refl _) hc).called hh hr
    by_cases hr : error = none ∨ reached = true
    · have hc : world.carried ⊆ world.carried ++ [change] := List.subset_append_left _ _
      have hi : (error.isNone || reached) = true := by simpa using hr
      rw [if_pos hi]
      refine ⟨h.named,h.history,h.projected,h.numbered,h.queued,?_,?_,?_,?_,h.alive⟩
      · intro other ho
        rcases mem_append.mp ho with hl | ha
        · exact h.known other hl
        · rw [mem_singleton.mp ha]
          exact hg
      · exact h.inOrder.concat (hf hr change hn)
      · exact hk _ hc (fun _ => by simp)
      · intro row hro hd other ho
        exact hc (h.done row hro hd other ho)
    · have hi : ¬ (error.isNone || reached) = true := by simpa using hr
      rw [if_neg hi]
      exact h.replaced (hk _ (Subset.refl _) (fun hno => absurd (.inl hno) hr))

theorem Sound.finished (h : world.Sound libs) {failed : Option ContextError} (now : DateTime)
    (hb : (job.id, job.mutation) ∈ world.log)
    (ha : failed = none → ∀ change ∈ changesOf job.id job.mutation, change ∈ world.carried)
    (hp : failed ≠ none → job.attempts < config.maxAttempts)
    (hw : ∀ worker ∈ workers, worker.Sound world.log world.carried) :
    IndexWorld.Sound libs { world with
      rows := Content.finish job.id job.attempts config.maxAttempts failed now world.rows
      workers := workers } := by
  have ht : ∀ row ∈ Content.finish job.id job.attempts config.maxAttempts failed now world.rows,
      ∃ old ∈ world.rows, row.id = old.id ∧ row.mutationJson = old.mutationJson ∧
        (row = old ∨ old.id = job.id ∧ row.status = finishStatus job.attempts config.maxAttempts failed) := by
    intro row hr
    obtain ⟨old,ho,rfl⟩ := mem_map.mp hr
    refine ⟨old,ho,?_⟩
    by_cases hi : old.id = job.id
    · rw [if_pos hi]
      exact ⟨rfl,rfl, .inr ⟨hi,rfl⟩⟩
    · rw [if_neg hi]
      exact ⟨rfl,rfl, .inl rfl⟩
  refine h.worked ?_ hw ?_ ?_
  · simp only [Content.finish,map_map,log]
    apply List.map_congr_left
    intro row _
    dsimp only [Function.comp]
    split <;> rfl
  · intro row hr hd
    obtain ⟨old,ho,hi,hm,rfl | ⟨hj,hf⟩⟩ := ht row hr
    · exact h.done _ ho hd
    · have hs : (old.id, old.mutationJson) = (job.id, job.mutation) :=
        List.inj_on_of_nodup_map h.nodup (List.mem_map_of_mem ho) hb hj
      obtain ⟨-,hs⟩ := Prod.mk.inj hs
      rw [hi,hm,hj,hs]
      cases failed with
      | none => exact ha rfl
      | some e =>
        have hl : ¬ config.maxAttempts ≤ job.attempts := UInt32.not_le.mpr (hp (by simp))
        rw [hf,finishStatus,if_neg (by simp),if_neg hl] at hd
        cases hd
  · intro row hr
    obtain ⟨old,ho,-,-,rfl | ⟨-,hf⟩⟩ := ht row hr
    · exact h.alive _ ho
    · rw [hf,finishStatus]
      cases failed with
      | none => simp
      | some e =>
        have hl : ¬ config.maxAttempts ≤ job.attempts := UInt32.not_le.mpr (hp (by simp))
        simp [hl]

theorem Sound.finish (h : world.Sound libs) {stored : Bool} {now : DateTime}
    (hc : world.Careful config (.finish i stored now)) :
    (world.step libs batch backend config (.finish i stored now)).Sound libs := by
  have he : ∀ worker : IndexWorker, worker.Sound world.log world.carried →
      ∀ other ∈ world.workers.set i worker, other.Sound world.log world.carried := by
    intro worker hw other ho
    rcases List.mem_or_eq_of_mem_set ho with hl | rfl
    · exact h.workers other hl
    · exact hw
  cases hw : world.workers[i]? with
  | none =>
    simp only [IndexWorld.step,hw]
    exact h
  | some worker =>
    obtain ⟨jobs,made,failed⟩ := worker
    cases jobs with
    | nil =>
      simp only [IndexWorld.step,hw]
      exact h
    | cons job jobs =>
      have hs := h.workers _ (mem_of_getElem? hw)
      cases hn : IndexWorker.nextChange ⟨job::jobs,made,failed⟩ with
      | some change =>
        simp only [IndexWorld.step,hw,hn,Option.isSome_some,if_true]
        exact h
      | none =>
        simp only [IndexWorld.step,hw,hn,Option.isSome_none,Bool.false_eq_true,if_false]
        cases stored with
        | false => exact h.replaced (he _ IndexWorker.sound_idle)
        | true =>
          refine h.finished now (hs.jobs job List.mem_cons_self) ?_ ?_ (he _ (.of_jobs ?_))
          · rintro rfl
            exact hs.applied hn
          · intro hf
            exact hc _ hw hf job rfl
          · intro other ho
            exact hs.jobs other (List.mem_cons_of_mem _ ho)

theorem Sound.step (h : world.Sound libs) (s : IndexStep) (hc : world.Careful config s) :
    (world.step libs batch backend config s).Sound libs := by
  cases s with
  | store op => exact h.store hc
  | reconcile now => exact h.reconcile now
  | claim locked now => exact h.claim locked now
  | call i reached error => exact h.call hc
  | finish i stored now => exact h.finish hc
  | crash i => exact h.crash i

theorem Sound.converged (h : world.Sound libs) (hs : world.Settled) : world.Converged libs := by
  have ha : ∀ change ∈ changeLog world.log, change ∈ world.carried := by
    intro change hc
    obtain ⟨e,he,hi⟩ := mem_flatMap.mp hc
    obtain ⟨row,hr,rfl⟩ := mem_map.mp he
    obtain ⟨hp,hf,ho⟩ := hs row hr
    have hal := h.alive row hr
    have hd : row.status = .done := by
      cases ht : row.status <;> simp_all
    exact h.done row hr hd change hi
  have hl : world.log.map Prod.snd = world.tables.mutations := by
    rw [h.queued,map_map]
    rfl
  calc world.points = Delivery.replay (changeLog world.log) :=
        Delivery.replay_delivered (changeLog_ordered h.positions) h.known h.inOrder ha
    _ = world.tables.mutations.foldl applied (fun _ => none) := by
        rw [Delivery.replay,foldl_changeLog,hl]
    _ = world.tables.expectedPoint libs := h.projected

end IndexWorld

section Results

variable (libraries libs : StoreLibraries) (batch : SqliteTables.BatchWriteConfig) (backend : OutboxBackend)
    (config : OutboxConfig)

/-- In a careful run the index has converged whenever no row is left to be worked. -/
theorem index_converges (steps : List IndexStep)
    (h : Meets (IndexWorld.step libraries batch backend config) (IndexWorld.Careful config) .empty steps)
    (hsettled : (run (IndexWorld.step libraries batch backend config) .empty steps).Settled) :
    (run (IndexWorld.step libraries batch backend config) .empty steps).Converged libraries := by
  have ho : (run (IndexWorld.step libraries batch backend config) .empty steps).Sound libraries :=
    run_invariant (fun _ s h hs => h.step s hs) IndexWorld.sound_empty h
  exact ho.converged hsettled

def indexLibraries : StoreLibraries := ⟨fun _ => none, some, fun _ => 0, fun _ => none, id, 32766⟩

def indexedUri : ContextUri := (ContextUri.ofTenant "t").join "x"

def embeddedEntry (n : ℤ) : ContextEntry :=
  { ContextEntry.newText indexedUri 1 "one" 0 with
    metadata := { ContextMeta.empty with custom := .obj [("embedding_vector", .arr [.num (.int n)])] } }

def eachInTurn : List IndexStep :=
  [.store (.write (embeddedEntry 1) 0), .claim [] 0, .call 0 false none, .finish 0 true 0,
    .store (.write (embeddedEntry 2) 1), .claim [] 1, .call 1 false (some (.storage "index offline")), .finish 1 true 1,
    .claim [] (seconds 3), .call 2 false none, .finish 2 true (seconds 3)]

theorem index_converges_sample :
    (run (IndexWorld.step indexLibraries .standard .sqlite ⟨30, 8, 64⟩) .empty eachInTurn).Converged indexLibraries ∧
    ((run (IndexWorld.step indexLibraries .standard .sqlite ⟨30, 8, 64⟩) .empty eachInTurn).points
      ("context", indexedUri.canonical)).map (·.vector) = some [2] := by
  refine ⟨index_converges indexLibraries .standard .sqlite ⟨30, 8, 64⟩ eachInTurn ?_ ?_, ?_⟩
  · decide +kernel
  · decide +kernel
  · decide +kernel

def retriedAfterDeletion : List IndexStep :=
  [.store (.write (embeddedEntry 1) 0), .claim [] 0, .call 0 false (some (.storage "index offline")), .finish 0 true 0,
    .store (.delete indexedUri 1), .claim [] 1, .call 1 false none, .finish 1 true 1,
    .claim [] (seconds 3), .call 2 false none, .finish 2 true (seconds 3)]

/-- The point of a deleted entry comes back, and stays. -/
theorem deleted_point_returns :
    (run (IndexWorld.step indexLibraries .standard .sqlite ⟨30, 8, 64⟩) .empty retriedAfterDeletion).Settled ∧
    (∀ worker ∈ (run (IndexWorld.step indexLibraries .standard .sqlite ⟨30, 8, 64⟩) .empty retriedAfterDeletion).workers,
      worker.jobs = []) ∧
    ¬ (run (IndexWorld.step indexLibraries .standard .sqlite ⟨30, 8, 64⟩) .empty retriedAfterDeletion).Converged
      indexLibraries := by
  refine ⟨by decide +kernel, by decide +kernel, fun h => ?_⟩
  have hp := congrFun h ("context", indexedUri.canonical)
  have hl : ((run (IndexWorld.step indexLibraries .standard .sqlite ⟨30, 8, 64⟩) .empty retriedAfterDeletion).points
      ("context", indexedUri.canonical)).isSome = true := by decide +kernel
  have hn : (run (IndexWorld.step indexLibraries .standard .sqlite ⟨30, 8, 64⟩) .empty
      retriedAfterDeletion).tables.expectedPoint indexLibraries ("context", indexedUri.canonical) = none := by
    decide +kernel
  rw [hp, hn] at hl
  cases hl

end Results

end UwuContextDb.Content
