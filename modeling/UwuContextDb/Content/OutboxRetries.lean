import UwuContextDb.Content.OutboxQueue

/-! How often the workers of the outbox try a row: the counter goes up when a row is claimed, and the limit is checked
when it is finished. -/

namespace UwuContextDb.Content

inductive OutboxBackend | postgres | sqlite deriving DecidableEq

/-- The part of `OutboxConfig` that a batch reads; the lease is in seconds. -/
structure OutboxConfig where
  lease : ℕ
  maxAttempts : UInt32
  batchSize : ℕ

/-- What `claim` returns of a row. -/
structure OutboxJob where
  id : ℕ
  mutation : IndexMutation
  attempts : UInt32

def seconds (n : ℕ) : Int := n * 10 ^ 9

section Statements

variable {P : Type} (backend : OutboxBackend) (config : OutboxConfig) (decode : P → Except ContextError IndexMutation)

def selectRows (rows : List (OutboxRecord P)) (now : DateTime) : List (OutboxRecord P) :=
  match backend with
  | .postgres => selectPostgres rows now
  | .sqlite => selectSqlite rows now

/-- `ORDER BY created_at .. LIMIT`; PostgreSQL passes over the rows that other transactions have locked. -/
def pickRows (locked : List ℕ) (now : DateTime) (rows : List (OutboxRecord P)) : List (OutboxRecord P) :=
  let free := (selectRows backend rows now).filter (fun row => backend = .sqlite || row.id ∉ locked)
  (free.insertionSort (fun a b => a.createdAt ≤ b.createdAt)).take config.batchSize

def OutboxRecord.taken (now : DateTime) (row : OutboxRecord P) : OutboxRecord P :=
  { row with status := .processing, leaseUntil := some (now + seconds config.lease), attempts := row.attempts + 1, updatedAt := now }

/-- The row as a job; `a as u32` keeps the low bits of the counter. -/
def readJob (row : OutboxRecord P) : Except ContextError OutboxJob :=
  (decode row.mutationJson).map (fun mutation => ⟨row.id, mutation, UInt32.ofNat row.attempts⟩)

/-- `claim`: the update is committed before a text is read. -/
def claim (locked : List ℕ) (now : DateTime) (rows : List (OutboxRecord P)) :
    Except ContextError (List OutboxJob) × List (OutboxRecord P) :=
  let ids := (pickRows backend config locked now rows).map (·.id)
  let rows := rows.map (fun row => if row.id ∈ ids then row.taken config now else row)
  ((rows.filter (fun row => row.id ∈ ids)).mapM (readJob decode), rows)

/-- The seconds that a row waits after `attempts` attempts. -/
def retryDelay (attempts : UInt32) : ℕ := min (2 ^ min attempts.toNat 16) 3600

def finishStatus (attempts max : UInt32) (error : Option ContextError) : OutboxStatus :=
  if error.isNone then .done else if max ≤ attempts then .dead else .failed

def OutboxRecord.finished (attempts max : UInt32) (error : Option ContextError) (now : DateTime) (row : OutboxRecord P) :
    OutboxRecord P :=
  let status := finishStatus attempts max error
  { row with
    status := status
    lastError := error
    availableAt := now + seconds (retryDelay attempts)
    leaseUntil := none
    updatedAt := now
    finishedAt := if status = .done ∨ status = .dead then some now else none }

def finish (id : ℕ) (attempts max : UInt32) (error : Option ContextError) (now : DateTime) (rows : List (OutboxRecord P)) :
    List (OutboxRecord P) :=
  rows.map (fun row => if row.id = id then row.finished attempts max error now else row)

end Statements

section Runs

variable (P : Type)

/-- One call of `process_batch`: the rows it has claimed, the jobs it has yet to work, the rows it has finished, and whether
it was cut off, by a crash of the worker or a failure of the database. -/
structure OutboxBatch where
  claimed : List (OutboxRecord P)
  left : List OutboxJob
  finished : List ℕ
  cutOff : Bool

structure OutboxWorld where
  rows : List (OutboxRecord P)
  batches : List (OutboxBatch P)

/-- What happens to the outbox: a mutation is enqueued, a worker claims a batch, a worker applies its next job and
stores the result if it can, or a worker stops. Any number of batches are under way. -/
inductive OutboxStep
  | enqueue (payload : P) (uri : Option String) (version : Option MvccVersion) (now : DateTime)
  | claim (locked : List ℕ) (now : DateTime)
  | work (batch : ℕ) (error : Option ContextError) (stored : Bool) (now : DateTime)
  | crash (batch : ℕ)

variable {P}

def OutboxWorld.empty : OutboxWorld P := ⟨[], []⟩

def OutboxWorld.nextJob (world : OutboxWorld P) (n : ℕ) : Option OutboxJob := (world.batches[n]?).bind (·.left.head?)

def OutboxBatch.cut (batch : OutboxBatch P) : OutboxBatch P := { batch with left := [], cutOff := true }

def OutboxBatch.advance (batch : OutboxBatch P) (id : ℕ) : OutboxBatch P :=
  { batch with left := batch.left.tail, finished := id::batch.finished }

variable (backend : OutboxBackend) (config : OutboxConfig) (decode : P → Except ContextError IndexMutation)

def OutboxWorld.step (world : OutboxWorld P) : OutboxStep P → OutboxWorld P
  | .enqueue payload uri version now =>
    { world with rows := world.rows ++ [.queued world.rows.length payload uri version now] }
  | .claim locked now =>
    let (jobs, rows) := Content.claim backend config decode locked now world.rows
    -- on an error the worker gets no job, and leaves the rows as they are
    ⟨rows, world.batches ++ [⟨pickRows backend config locked now world.rows, jobs.toOption.getD [], [], false⟩]⟩
  | .work n error stored now =>
    match world.nextJob n with
    | none => world
    | some job =>
      if stored then
        ⟨finish job.id job.attempts config.maxAttempts error now world.rows, world.batches.modify n (·.advance job.id)⟩
      else { world with batches := world.batches.modify n .cut }
  | .crash n => { world with batches := world.batches.modify n .cut }

end Runs

section Limits

variable {P : Type}

def OutboxBatch.Attended (decode : P → Except ContextError IndexMutation) (batch : OutboxBatch P) : Prop :=
  batch.cutOff = true ∨ ∀ row ∈ batch.claimed, ∀ mutation, decode row.mutationJson = .ok mutation →
    row.id ∈ batch.finished ∨ ∃ job ∈ batch.left, job.id = row.id ∧ job.mutation = mutation

/-- No row has been tried more often than allowed, and none keeps its batch from being finished. -/
structure OutboxWorld.Bounded (config : OutboxConfig) (decode : P → Except ContextError IndexMutation)
    (world : OutboxWorld P) :
    Prop where
  limit : ∀ row ∈ world.rows, row.attempts ≤ config.maxAttempts.toNat
  attended : ∀ batch ∈ world.batches, batch.Attended decode

def isRead (decode : P → Except ContextError IndexMutation) (row : OutboxRecord P) : Prop :=
  (decode row.mutationJson).isOk = true

instance (decode : P → Except ContextError IndexMutation) (row : OutboxRecord P) : Decidable (isRead decode row) :=
  inferInstanceAs (Decidable ((decode row.mutationJson).isOk = true))

/-- A claim takes no row whose lease ran out in its last attempt, and either all or none of its rows can be read. -/
def CarefulClaim (config : OutboxConfig) (decode : P → Except ContextError IndexMutation)
    (picked : List (OutboxRecord P)) : Prop :=
  (picked = [] ∨ 0 < config.maxAttempts.toNat) ∧
    (∀ row ∈ picked, row.status = .processing → row.attempts < config.maxAttempts.toNat) ∧
    ((∀ row ∈ picked, isRead decode row) ∨ ∀ row ∈ picked, ¬ isRead decode row)

/-- A worker that lost its lease reports no failure, short of its last, of a row that is by then in its last attempt. -/
def CarefulFailure (config : OutboxConfig) (rows : List (OutboxRecord P)) (next : Option OutboxJob) : Prop :=
  ∀ job ∈ next, job.attempts < config.maxAttempts → ∀ row ∈ rows, row.id = job.id → row.attempts < config.maxAttempts.toNat

def OutboxWorld.Careful (backend : OutboxBackend) (config : OutboxConfig) (decode : P → Except ContextError IndexMutation)
    (world : OutboxWorld P) : OutboxStep P → Prop
  | .claim locked now => CarefulClaim config decode (pickRows backend config locked now world.rows)
  | .work n (some _) true _ => CarefulFailure config world.rows (world.nextJob n)
  | _ => True

/-- What keeps the counters within the limit: a row that waits for its next attempt has one left. -/
structure OutboxWorld.Kept (config : OutboxConfig) (decode : P → Except ContextError IndexMutation)
    (world : OutboxWorld P) : Prop
    extends world.Bounded config decode where
  ids : world.rows.map (·.id) = List.range world.rows.length
  spare : ∀ row ∈ world.rows, row.status = .pending ∨ row.status = .failed →
    row.attempts = 0 ∨ row.attempts < config.maxAttempts.toNat

end Limits

section Steps

variable {P : Type} {backend : OutboxBackend} {config : OutboxConfig} {decode : P → Except ContextError IndexMutation}
  {world : OutboxWorld P} {rows : List (OutboxRecord P)} {locked : List ℕ} {now : DateTime}

variable {row : OutboxRecord P} {error : Option ContextError}

theorem mem_pickRows (h : row ∈ pickRows backend config locked now rows) :
    row ∈ rows ∧ (row.Due now ∨ row.LeaseExpired now) := by
  have hf := (List.mem_insertionSort _).mp (List.mem_of_mem_take h)
  have hs : row ∈ selectRows backend rows now := (List.mem_filter.mp hf).1
  cases backend with
  | postgres =>
    obtain ⟨hr,hd | he⟩ := mem_selectPostgres.mp hs
    · exact ⟨hr, .inl hd⟩
    · exact ⟨hr, .inr he.1⟩
  | sqlite =>
    obtain ⟨hr,hl⟩ := mem_selectSqlite.mp hs
    exact ⟨hr,hl.ready⟩

theorem mem_pickRows_of_id (hi : rows.map (·.id) = List.range rows.length) (hr : row ∈ rows)
    (hd : row.id ∈ (pickRows backend config locked now rows).map (·.id)) :
    row ∈ pickRows backend config locked now rows := by
  obtain ⟨picked,hp,he⟩ := List.mem_map.mp hd
  have hn : (rows.map (·.id)).Nodup := hi ▸ List.nodup_range
  have hs : picked = row := List.inj_on_of_nodup_map hn (mem_pickRows hp).1 hr he
  exact hs ▸ hp

theorem ids_map {f : OutboxRecord P → OutboxRecord P} (hf : ∀ row, (f row).id = row.id)
    (hi : rows.map (·.id) = List.range rows.length) : (rows.map f).map (·.id) = List.range (rows.map f).length := by
  rw [List.map_map,List.length_map,← hi]
  exact List.map_congr_left (fun row _ => hf row)

theorem failed_of_status {attempts max : UInt32}
    (h : finishStatus attempts max error = .pending ∨ finishStatus attempts max error = .failed) :
    ∃ e, error = some e ∧ attempts < max := by
  cases error with
  | none => rcases h with h | h <;> cases h
  | some e =>
    refine ⟨e,rfl,?_⟩
    by_contra hl
    have hd : finishStatus attempts max (some e) = .dead := if_pos (UInt32.not_lt.mp hl)
    rcases h with h | h <;> (rw [hd] at h; cases h)

theorem OutboxBatch.Attended.cut (batch : OutboxBatch P) : batch.cut.Attended decode := .inl rfl

theorem OutboxBatch.Attended.advance {batch : OutboxBatch P} {j : OutboxJob} (h : batch.Attended decode)
    (hj : batch.left.head? = some j) : (batch.advance j.id).Attended decode := by
  rcases h with hc | h
  · exact .inl hc
  · refine .inr (fun row hr chg he => ?_)
    obtain ⟨rest,hl⟩ := List.head?_eq_some_iff.mp hj
    rcases h row hr chg he with hd | ⟨next,hn,hi,hm⟩
    · exact .inl (List.mem_cons_of_mem _ hd)
    · rw [hl] at hn
      cases List.mem_cons.mp hn with
      | inl hf => exact .inl (List.mem_cons.mpr (.inl (hf ▸ hi.symm)))
      | inr hs =>
        refine .inr ⟨next,?_,hi,hm⟩
        show next ∈ batch.left.tail
        rw [hl]
        exact hs

theorem mem_modify {α : Type} {f : α → α} {l : List α} {n : ℕ} {a : α} (h : a ∈ l.modify n f) :
    a ∈ l ∨ ∃ b, l[n]? = some b ∧ a = f b := by
  obtain ⟨m,hm⟩ := List.mem_iff_getElem?.mp h
  rw [List.getElem?_modify] at hm
  obtain ⟨b,hb,rfl⟩ := Option.map_eq_some_iff.mp hm
  by_cases hn : n = m
  · exact .inr ⟨b,hn ▸ hb,by rw [if_pos hn]⟩
  · exact .inl (List.mem_of_getElem? (by rw [if_neg hn]; exact hb))

theorem attended_of_jobs {picked returned : List (OutboxRecord P)} {jobs : List OutboxJob}
    (he : ∀ row ∈ picked, ∃ row' ∈ returned, row'.id = row.id ∧ row'.mutationJson = row.mutationJson)
    (hj : returned.mapM (readJob decode) = .ok jobs) : (⟨picked,jobs,[],false⟩ : OutboxBatch P).Attended decode := by
  refine .inr (fun row hr chg ha => .inr ?_)
  obtain ⟨row',hr',hi,ht⟩ := he row hr
  obtain ⟨j,ho,hd⟩ := StateMachine.exists_mapM_of_mem hj row' hr'
  obtain ⟨chg',hm',rfl⟩ := StateMachine.map_eq_ok.mp hd
  rw [ht,ha] at hm'
  exact ⟨_,ho,hi,(Except.ok.inj hm').symm⟩

theorem claim_readable (hd : rows.map (·.id) = List.range rows.length)
    (ha : ∀ row ∈ pickRows backend config locked now rows, isRead decode row) :
    ∃ jobs, (claim backend config decode locked now rows).1 = .ok jobs ∧
      (⟨pickRows backend config locked now rows,jobs,[],false⟩ : OutboxBatch P).Attended decode := by
  have ht : ∀ row ∈ (claim backend config decode locked now rows).2,
      row.id ∈ (pickRows backend config locked now rows).map (·.id) →
      ∃ old ∈ pickRows backend config locked now rows, row = old.taken config now := by
    intro row hr hi
    obtain ⟨old,ho,rfl⟩ := List.mem_map.mp hr
    by_cases hp : old.id ∈ (pickRows backend config locked now rows).map (·.id)
    · exact ⟨old,mem_pickRows_of_id hd ho hp,if_pos hp⟩
    · rw [if_neg hp] at hi
      exact absurd hi hp
  have hj : ∃ jobs, (claim backend config decode locked now rows).1 = .ok jobs := by
    apply StateMachine.mapM_isOk
    intro row hr
    obtain ⟨hr,hi⟩ := List.mem_filter.mp hr
    obtain ⟨old,ho,rfl⟩ := ht row hr (of_decide_eq_true hi)
    have he := ha old ho
    unfold isRead at he
    cases hk : decode old.mutationJson with
    | error e => rw [hk] at he; cases he
    | ok chg => exact ⟨_,StateMachine.map_eq_ok.mpr ⟨chg,hk,rfl⟩⟩
  obtain ⟨jobs,hj⟩ := hj
  refine ⟨jobs,hj,attended_of_jobs (fun row hr => ⟨row.taken config now,?_,rfl,rfl⟩) hj⟩
  have hi : row.id ∈ (pickRows backend config locked now rows).map (·.id) := List.mem_map_of_mem hr
  exact List.mem_filter.mpr ⟨List.mem_map.mpr ⟨row,(mem_pickRows hr).1,if_pos hi⟩,decide_eq_true hi⟩

theorem OutboxWorld.kept_empty : (empty : OutboxWorld P).Kept config decode :=
  ⟨⟨fun _ h => absurd h List.not_mem_nil,fun _ h => absurd h List.not_mem_nil⟩,rfl,fun _ h => absurd h List.not_mem_nil⟩

theorem OutboxWorld.Kept.enqueue (h : world.Kept config decode) (payload : P) (u : Option String)
    (ver : Option MvccVersion) :
    (world.step backend config decode (.enqueue payload u ver now)).Kept config decode := by
  refine ⟨⟨fun row hr => ?_,h.attended⟩,?_,fun row hr hs => ?_⟩
  · rcases List.mem_append.mp hr with hr | hr
    · exact h.limit row hr
    · rw [List.mem_singleton.mp hr]
      exact Nat.zero_le _
  · simp [OutboxWorld.step,h.ids,List.range_succ,OutboxRecord.queued]
  · rcases List.mem_append.mp hr with hr | hr
    · exact h.spare row hr hs
    · rw [List.mem_singleton.mp hr]
      exact .inl rfl

theorem OutboxWorld.step_claim : world.step backend config decode (.claim locked now) =
    ⟨(Content.claim backend config decode locked now world.rows).2,world.batches ++
      [⟨pickRows backend config locked now world.rows,
        (Content.claim backend config decode locked now world.rows).1.toOption.getD [],
        [],false⟩]⟩ := rfl

theorem OutboxWorld.Kept.claim (h : world.Kept config decode)
    (hc : world.Careful backend config decode (.claim locked now)) :
    (world.step backend config decode (.claim locked now)).Kept config decode := by
  obtain ⟨hm,he,ha⟩ := hc
  have hl : ∀ row ∈ pickRows backend config locked now world.rows, row.attempts < config.maxAttempts.toNat := by
    intro row hp
    have hpo : 0 < config.maxAttempts.toNat := hm.resolve_left (List.ne_nil_of_mem hp)
    obtain ⟨hr,hd | hle⟩ := mem_pickRows hp
    · cases h.spare row hr hd.1 with
      | inl hz => omega
      | inr hlt => exact hlt
    · exact he row hp hle.1
  have hu : ∀ row ∈ (Content.claim backend config decode locked now world.rows).2,
      row ∈ world.rows ∨ ∃ old ∈ pickRows backend config locked now world.rows, row = old.taken config now := by
    intro row hr
    obtain ⟨old,ho,rfl⟩ := List.mem_map.mp hr
    split
    · rename_i hi
      exact .inr ⟨old,mem_pickRows_of_id h.ids ho hi,rfl⟩
    · exact .inl ho
  rw [step_claim]
  refine ⟨⟨fun row hr => ?_,fun batch hb => ?_⟩,?_,fun row hr hs => ?_⟩
  · rcases hu row hr with ho | ⟨old,ho,rfl⟩
    · exact h.limit row ho
    · exact hl old ho
  · rcases List.mem_append.mp hb with hb | hb
    · exact h.attended batch hb
    · rw [List.mem_singleton.mp hb]
      rcases ha with hal | hn
      · obtain ⟨jobs,hj,ht⟩ := claim_readable h.ids hal
        rw [hj]
        exact ht
      · refine .inr (fun row hr chg hk => ?_)
        exact absurd (by rw [isRead,hk]; rfl) (hn row hr)
  · exact ids_map (fun row => by split <;> rfl) h.ids
  · rcases hu row hr with ho | ⟨old,ho,rfl⟩
    · exact h.spare row ho hs
    · rcases hs with hs | hs <;> cases hs

/-- What a worker does to the counters: a failure that is not the last puts a row back that has an attempt left. -/
theorem OutboxWorld.Kept.work (h : world.Kept config decode) {n : ℕ} {stored : Bool}
    (hc : world.Careful backend config decode (.work n error stored now)) :
    (world.step backend config decode (.work n error stored now)).Kept config decode := by
  unfold OutboxWorld.step
  dsimp only
  split
  · exact h
  rename_i job hj
  have hh : ∀ batch, world.batches[n]? = some batch → batch.left.head? = some job := by
    intro batch hb
    rw [nextJob,hb] at hj
    exact hj
  split
  · rename_i ht
    have hw : ∀ row ∈ finish job.id job.attempts config.maxAttempts error now world.rows,
        row ∈ world.rows ∨ ∃ old ∈ world.rows, old.id = job.id ∧
          row = old.finished job.attempts config.maxAttempts error now := by
      intro row hr
      obtain ⟨old,ho,rfl⟩ := List.mem_map.mp hr
      split
      · rename_i hi
        exact .inr ⟨old,ho,hi,rfl⟩
      · exact .inl ho
    refine ⟨⟨fun row hr => ?_,fun batch hb => ?_⟩,?_,fun row hr hs => ?_⟩
    · rcases hw row hr with ho | ⟨old,ho,-,rfl⟩
      · exact h.limit row ho
      · exact h.limit old ho
    · rcases mem_modify hb with hb | ⟨batch,ha,rfl⟩
      · exact h.attended batch hb
      · exact (h.attended batch (List.mem_of_getElem? ha)).advance (hh batch ha)
    · exact ids_map (fun row => by split <;> rfl) h.ids
    · rcases hw row hr with ho | ⟨old,ho,hi,rfl⟩
      · exact h.spare row ho hs
      · obtain ⟨e,rfl,hl⟩ := failed_of_status hs
        rw [ht] at hc
        exact .inr (hc job hj hl old ho hi)
  · refine ⟨⟨h.limit,fun batch hb => ?_⟩,h.ids,h.spare⟩
    rcases mem_modify hb with hb | ⟨batch,-,rfl⟩
    · exact h.attended batch hb
    · exact .cut batch

theorem OutboxWorld.Kept.crash (h : world.Kept config decode) (n : ℕ) :
    (world.step backend config decode (.crash n)).Kept config decode := by
  refine ⟨⟨h.limit,fun batch hb => ?_⟩,h.ids,h.spare⟩
  rcases mem_modify hb with hb | ⟨batch,-,rfl⟩
  · exact h.attended batch hb
  · exact .cut batch

theorem OutboxWorld.Kept.step (h : world.Kept config decode) (s : OutboxStep P)
    (hc : world.Careful backend config decode s) :
    (world.step backend config decode s).Kept config decode := by
  cases s with
  | enqueue payload u ver now => exact h.enqueue payload u ver
  | claim locked now => exact h.claim hc
  | work n error stored now => exact h.work hc
  | crash n => exact h.crash n

end Steps

section Results

variable {P : Type} (backend : OutboxBackend) (config : OutboxConfig) (decode : P → Except ContextError IndexMutation)

/-- Careful workers try no row more often than allowed, and leave none behind. -/
theorem outbox_run_bounded (steps : List (OutboxStep P))
    (h : StateMachine.Meets (OutboxWorld.step backend config decode)
      (OutboxWorld.Careful backend config decode) .empty steps) :
    (StateMachine.run (OutboxWorld.step backend config decode) .empty steps).Bounded config decode := by
  have hk : (StateMachine.run (OutboxWorld.step backend config decode) .empty steps).Kept config decode :=
    StateMachine.run_invariant (fun world s hw hs => hw.step s hs) OutboxWorld.kept_empty h
  exact hk.toBounded

def sampleOutbox : OutboxConfig := ⟨30, 2, 8⟩

/-- A text is `true` if it can be read. -/
def sampleDecode (payload : Bool) : Except ContextError IndexMutation :=
  if payload then .ok (.delete defaultCollection (.ofTenant "acme"))
    else .error (.serialization "expected value at line 1 column 1")

def twoFailures : List (OutboxStep Bool) :=
  [.enqueue true (some "uwu://acme") (some 1) 0, .claim [] 0, .work 0 (some (.storage "index offline")) true 0,
    .claim [] (seconds 2), .work 1 (some (.storage "index offline")) true (seconds 2)]

theorem outbox_run_bounded_dead :
    ((StateMachine.run (OutboxWorld.step .sqlite sampleOutbox sampleDecode) .empty twoFailures).rows.map (fun row =>
      (row.status, row.attempts))) = [(.dead, 2)] ∧
    (StateMachine.run (OutboxWorld.step .sqlite sampleOutbox sampleDecode) .empty twoFailures).Bounded
    sampleOutbox sampleDecode := by
  refine ⟨by decide +kernel, outbox_run_bounded .sqlite sampleOutbox sampleDecode twoFailures ?_⟩
  refine ⟨trivial, ?_, ?_, ?_, ?_, trivial⟩
  · show CarefulClaim ..
    unfold CarefulClaim
    decide +kernel
  · show CarefulFailure ..
    unfold CarefulFailure
    decide +kernel
  · show CarefulClaim ..
    unfold CarefulClaim
    decide +kernel
  · show CarefulFailure ..
    unfold CarefulFailure
    decide +kernel

def unreadableFirst : List (OutboxStep Bool) :=
  [.enqueue false (some "uwu://acme/a") (some 1) 0, .enqueue true (some "uwu://acme/b") (some 1) 0, .claim [] 0,
    .claim [] (seconds 31), .claim [] (seconds 62)]

/-- The row that cannot be read is claimed three times of two, and the other one with it, which no worker gets to see. -/
theorem outbox_run_unbounded :
    ((StateMachine.run (OutboxWorld.step .sqlite sampleOutbox sampleDecode) .empty unreadableFirst).rows.map (fun row =>
      (row.status, row.attempts)) = [(.processing, 3), (.processing, 3)] ∧
      (StateMachine.run (OutboxWorld.step .sqlite sampleOutbox sampleDecode) .empty unreadableFirst).batches.map
      (fun batch =>
        (batch.claimed.map (·.id), batch.left.map (·.id), batch.finished)) =
        [([0, 1], [], []), ([0, 1], [], []), ([0, 1], [], [])]) ∧
    ¬ (StateMachine.run (OutboxWorld.step .sqlite sampleOutbox sampleDecode) .empty unreadableFirst).Bounded sampleOutbox
      sampleDecode := by
  have hr : (StateMachine.run (OutboxWorld.step .sqlite sampleOutbox sampleDecode) .empty unreadableFirst).rows.map
      (fun row =>
      (row.status, row.attempts)) = [(.processing, 3), (.processing, 3)] := by decide +kernel
  refine ⟨⟨hr, by decide +kernel⟩, fun h => ?_⟩
  have hf : (OutboxStatus.processing, 3) ∈ (StateMachine.run (OutboxWorld.step .sqlite sampleOutbox sampleDecode) .empty
    unreadableFirst).rows.map (fun row => (row.status, row.attempts)) := by
    rw [hr]
    exact List.mem_cons_self
  obtain ⟨row, ho, he⟩ := List.mem_map.mp hf
  have hl := h.limit row ho
  rw [(Prod.mk.inj he).2] at hl
  exact absurd hl (by decide)

end Results

end UwuContextDb.Content
