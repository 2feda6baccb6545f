import UwuContextDb.Lifecycle.JournalSafety

/-! The attempts of a job: how far they are counted under any number of executors, crashes and leases. -/

namespace UwuContextDb.Lifecycle

open Content (StoreLibraries)

/-- What a worker has of a job: it is leased to the worker, or only read, or its revision was not written. -/
inductive Grip
  | none
  | leased (job : LifecycleJob)
  | read (job : LifecycleJob)
  | ahead (job : LifecycleJob)

structure Counted (job : LifecycleJob) : Prop where
  le : job.attempts ≤ job.maxAttempts
  left : job.state = .pending ∨ job.state = .retryable → job.attempts < job.maxAttempts

structure SameCount (job job' : LifecycleJob) : Prop where
  limit : job'.maxAttempts = job.maxAttempts
  attempts : job'.attempts = job.attempts

def Grip.Allows (job : LifecycleJob) : Grip → Prop
  | .none => False
  | .leased h => job.idempotencyKey = h.idempotencyKey ∧ job.revision = h.revision ∧ job.maxAttempts = h.maxAttempts ∧
      Counted job ∧ (job.attempts = h.attempts ∨ h.attempts < h.maxAttempts) ∧
      (job.leaseOwner = h.leaseOwner ∨ job.leaseOwner = .none)
  | .read h => Restores h job
  | .ahead h => job.idempotencyKey = h.idempotencyKey ∧ job.revision = h.revision ∧ SameCount h job ∧ Counted job

def Grip.afterWrite (job : LifecycleJob) : Grip → Grip
  | .leased _ => if job.leaseOwner = .none then .none else .leased job.bumped
  | .read _ => .read job.bumped
  | _ => .none

def Grip.afterLoss (job : LifecycleJob) : Grip → Grip
  | .leased h => if job.attempts = h.attempts then .ahead job.bumped else .none
  | _ => .none

def CountMay (i : ℕ) (c : Call) (g : Grip) : Prop :=
  match c with
  | .update job => g.Allows job
  | .claim _ owner _ => owner = i
  | .upsert job => ∃ id uri operation now, job = newJob id uri operation now
  | _ => True

def CountLearns : (c : Call) → Grip → c.Reply → Grip → Prop
  | .update job, g, r, g' =>
    (∃ u, r = (.ok u, job.bumped) ∧ g' = g.afterWrite job) ∨ (∃ e, r = (.error e, job) ∧ g' = g) ∨
      ∃ e, r = (.error e, job.bumped) ∧ g' = g.afterLoss job
  | .claim _ owner _, g, r, g' =>
    (∃ job, r = .ok (some job) ∧ g' = .leased job ∧ job.leaseOwner = some owner ∧ job.attempts < job.maxAttempts) ∨
      ((∀ job, r ≠ .ok (some job)) ∧ g' = g)
  | .getJob _, g, r, g' => (∃ job, r = some job ∧ g' = .read job) ∨ (r = none ∧ g' = g)
  | _, g, _, g' => g' = g

variable {isSet : LifecycleCheckpoint → Bool} {set : LifecycleCheckpoint → LifecycleCheckpoint}

section Programs

variable {i : ℕ} {g : Grip} {job : LifecycleJob}

theorem quiet_counts {α : Type} {p : Program α} (h : p.Only Quiet) (g : Grip) :
    p.Keeps (CountMay i) CountLearns (fun _ g' => g' = g) g := by
  refine Prog.Only.keeps Quiet (fun c g hc => ?_) (fun c g r g' hc hr => ?_) h g
  · cases c <;> first | exact absurd hc id | trivial
  · cases c <;> first | exact absurd hc id | exact hr

def Going (job : LifecycleJob) (g : Grip) : Prop :=
  g = .leased job ∧ job.leaseOwner ≠ none ∧ job.state = .running ∧ job.attempts ≤ job.maxAttempts

def Failing (job : LifecycleJob) (g : Grip) : Prop :=
  job.attempts ≤ job.maxAttempts ∧ ((∃ h, g = .leased h ∧ job.idempotencyKey = h.idempotencyKey ∧
    job.revision = h.revision ∧ SameCount h job) ∨ g = .ahead job)

def Going.post (left : Except ContextError Unit × LifecycleJob) (g : Grip) : Prop :=
  match left.1 with
  | .ok () => Going left.2 g
  | .error _ => Failing left.2 g

theorem Going.failing (h : Going job g) : Failing job g := ⟨h.2.2.2, .inl ⟨job,h.1,rfl,rfl,rfl,rfl⟩⟩

theorem phase_counts
    {work : LifecycleJob → Fallible Unit} (hw : ∀ job, (work job).run.Only Quiet) (h : Going job g) :
    (phase isSet set work job).Keeps (CountMay i) CountLearns Going.post g := by
  unfold phase
  split
  · exact h
  · refine Prog.Keeps.bind ((quiet_counts (hw job) g).mono (fun r g' hg' => ?_))
    subst hg'
    cases r with
    | error e => exact h.failing
    | ok u =>
      obtain ⟨rfl,ho,hs,hl⟩ := h
      have hc : Counted { job with checkpoint := set job.checkpoint } := ⟨hl,fun ha => absurd ha (by simp [hs])⟩
      refine ⟨⟨rfl,rfl,rfl,hc, .inl rfl, .inl rfl⟩,?_⟩
      rintro r g' (⟨u,rfl,rfl⟩ | ⟨e,rfl,rfl⟩ | ⟨e,rfl,rfl⟩)
      · exact ⟨if_neg ho,ho,hs,hl⟩
      · exact ⟨hl, .inl ⟨job,rfl,rfl,rfl,rfl,rfl⟩⟩
      · exact ⟨hl, .inr (if_pos rfl)⟩

theorem andThen_counts {first second : OnJob} (h : (first job).Keeps (CountMay i) CountLearns Going.post g)
    (hs : ∀ job g, Going job g → (second job).Keeps (CountMay i) CountLearns Going.post g) :
    (first.andThen second job).Keeps (CountMay i) CountLearns Going.post g := by
  refine Prog.Keeps.bind (h.mono (fun left g' hl => ?_))
  obtain ⟨r,job'⟩ := left
  cases r with
  | ok u => exact hs job' g' hl
  | error e => exact hl

theorem executePhases_counts (h : Going job g) : (executePhases job).Keeps (CountMay i) CountLearns Going.post g := by
  refine andThen_counts (phase_counts manifestWork_quiet h) (fun job g h => ?_)
  refine andThen_counts (phase_counts (fun _ => .ask trivial) h) (fun job g h => ?_)
  refine andThen_counts (phase_counts graphWork_quiet h) (fun job g h => ?_)
  refine andThen_counts (phase_counts (fun _ => .ask trivial) h) (fun job g h => ?_)
  exact phase_counts blobsWork_quiet h

theorem Failing.allows (h : Failing job g) {job' : LifecycleJob} (hk : job'.idempotencyKey = job.idempotencyKey)
    (hr : job'.revision = job.revision) (hs : SameCount job job') (hc : Counted job')
    (ho : job'.leaseOwner = none) : g.Allows job' := by
  rcases h.2 with ⟨h,rfl,hk',hr',hs'⟩ | rfl
  · exact ⟨hk.trans hk',hr.trans hr',hs.limit.trans hs'.limit,hc, .inl (hs.attempts.trans hs'.attempts), .inr ho⟩
  · exact ⟨hk,hr,hs,hc⟩

/-- The last update of an attempt: a job that is to be tried again has an attempt left. -/
theorem concluded_counts {result : Except ContextError Unit} (h : Failing job g) :
    (concluded result job).Keeps (CountMay i) CountLearns (fun job' g' => g'.Allows job') g := by
  cases result with
  | ok u =>
    refine Prog.Keeps.bind ((quiet_counts now_quiet g).mono (fun at_ g' hg' => ?_))
    subst hg'
    exact h.allows rfl rfl ⟨rfl,rfl⟩ ⟨h.1,fun hw => absurd hw (by simp [LifecycleJob.audited])⟩ rfl
  | error e =>
    refine Prog.Keeps.bind ((quiet_counts now_quiet g).mono (fun next g' hg' => ?_))
    subst hg'
    refine Prog.Keeps.bind ((quiet_counts now_quiet g').mono (fun at_ g' hg' => ?_))
    subst hg'
    refine h.allows rfl rfl ⟨rfl,rfl⟩ ⟨h.1,fun hw => ?_⟩ rfl
    by_contra hn
    have hs : job.maxAttempts ≤ job.attempts := not_lt.mp hn
    simp [LifecycleJob.audited,hs] at hw

theorem execute_counts (hg : g = .leased job) (ho : job.leaseOwner ≠ none) (hl : job.attempts < job.maxAttempts) :
    (execute job).run.Keeps (CountMay i) CountLearns (fun _ _ => True) g := by
  refine .lift ((quiet_counts now_quiet g).mono (fun at_ g' hg' => ?_))
  subst hg' hg
  refine .lift ⟨⟨rfl,rfl,rfl,⟨hl,fun hw => absurd hw (by simp [LifecycleJob.audited])⟩, .inr hl, .inl rfl⟩,?_⟩
  rintro r g' (⟨u,rfl,rfl⟩ | ⟨e,rfl,-⟩ | ⟨e,rfl,-⟩)
  · refine .lift (Prog.Keeps.mono ?_ (executePhases_counts ?_))
    · rintro ⟨result,job'⟩ g' he
      have hf : Failing job' g' := by
        cases result with
        | ok u => exact Going.failing he
        | error e => exact he
      refine .lift ((concluded_counts hf).mono (fun last g' ha => .lift ⟨ha,?_⟩))
      rintro ⟨r,job'⟩ g' -
      cases r <;> exact trivial
    · exact ⟨if_neg ho,ho,rfl,hl⟩
  · exact trivial
  · exact trivial

theorem attempt_counts (key : String) (g : Grip) :
    (attempt key i).run.Keeps (CountMay i) CountLearns (fun _ _ => True) g := by
  refine .lift ((quiet_counts now_quiet g).mono (fun at_ g' _ => .andThen ⟨rfl,?_⟩))
  rintro r g'' (⟨job,rfl,hg,ho,hl⟩ | ⟨hn,-⟩)
  · refine .andThen ((execute_counts hg (by simp [ho]) hl).mono (fun r _ _ => ?_))
    cases r <;> exact trivial
  · rcases r with e | _ | job
    · exact trivial
    · exact trivial
    · exact absurd rfl (hn job)

theorem runPending_counts (g : Grip) : (runPending i).run.Keeps (CountMay i) CountLearns (fun _ _ => True) g := by
  refine .lift ((quiet_counts now_quiet g).mono (fun at_ g' _ => ?_))
  refine .lift ((quiet_counts (p := (Call.recoverable at_).ask) (.ask trivial) g').mono (fun jobs g' _ => ?_))
  refine .andThen (.mapM (fun _ => True) (fun _ _ => True) (fun job _ g _ => ?_) (fun _ _ _ _ => trivial) trivial)
  refine (attempt_counts _ g).mono (fun r _ _ => ?_)
  cases r with
  | ok out => exact ⟨trivial,trivial⟩
  | error e => trivial

theorem restorePhase_counts
    {work : Fallible Unit} (hw : work.run.Only Quiet) (h : g = .read job) :
    (restorePhase isSet set work job).run.Keeps (CountMay i) CountLearns
      (Prog.Outcome (fun job' g' => g' = .read job') (fun _ _ => True)) g := by
  unfold restorePhase
  split
  · exact h
  · refine .andThen ((quiet_counts hw g).mono (fun r g' hg' => ?_))
    subst hg' h
    cases r with
    | error e => exact trivial
    | ok u =>
      refine .lift ⟨⟨_,rfl⟩,?_⟩
      rintro r g' (⟨u,rfl,rfl⟩ | ⟨e,rfl,-⟩ | ⟨e,rfl,-⟩)
      · exact rfl
      · exact trivial
      · exact trivial

theorem restorePhases_counts {m : ArchiveManifest} (h : g = .read job) :
    (restorePhases m job).run.Keeps (CountMay i) CountLearns (fun _ _ => True) g := by
  have he : (do restoreEntry m.entry (← ExceptT.lift (readEntry m.entry.uri).run) : Fallible Unit).run.Only Quiet :=
    .lift (readEntry_quiet _) (restoreEntry_quiet _)
  refine .andThen ((restorePhase_counts (.forM restoreBlob_quiet _) h).mono (fun r g h => ?_))
  rcases r with e | job
  · exact trivial
  refine .andThen ((restorePhase_counts he h).mono (fun r g h => ?_))
  rcases r with e | job
  · exact trivial
  refine .andThen ((restorePhase_counts (.forM (fun _ => .ask trivial) _) h).mono (fun r g h => ?_))
  rcases r with e | job
  · exact trivial
  refine .andThen ((restorePhase_counts (.forM (fun _ => .ask trivial) _) h).mono (fun r g h => ?_))
  cases r <;> exact trivial

theorem restore_counts (key : String) (g : Grip) :
    (restore key).run.Keeps (CountMay i) CountLearns (fun _ _ => True) g := by
  have hf : ∀ m g, (restoreFrom key m).run.Keeps (CountMay i) CountLearns (fun _ _ => True) g := by
    refine fun m g => .lift ⟨trivial,?_⟩
    rintro r g' (⟨job,rfl,rfl⟩ | ⟨rfl,-⟩)
    · exact restorePhases_counts rfl
    · exact trivial
  refine .andThen ((quiet_counts (p := (Call.getManifest key).ask) (.ask trivial) g).mono (fun r g' _ => ?_))
  cases r with
  | error e => exact trivial
  | ok m =>
    refine .lift ⟨trivial,fun found g'' _ => ?_⟩
    cases found with
    | none => exact hf m g''
    | some job =>
      show (if job.state ≠ .succeeded then throw (.versionConflict s!"cannot restore incomplete lifecycle job {key}")
        else restoreFrom key m : Fallible Unit).run.Keeps (CountMay i) CountLearns (fun _ _ => True) g''
      split
      · exact trivial
      · exact hf m g''

theorem service_counts (service : Service) :
    (service.program i).Keeps (CountMay i) CountLearns (fun _ _ => True) .none := by
  cases service with
  | pending => exact .bind ((runPending_counts .none).mono (fun _ _ _ => trivial))
  | restore key => exact .bind ((restore_counts key .none).mono (fun _ _ _ => trivial))
  | submit id u action =>
    have hs : (Lifecycle.submit id u action).run.Keeps (CountMay i) CountLearns (fun _ _ => True) .none := by
      unfold Lifecycle.submit
      split
      · exact trivial
      · refine .lift ((quiet_counts now_quiet .none).mono (fun at_ g' _ => ?_))
        exact ⟨⟨id,u,_,at_,rfl⟩,fun _ _ _ => trivial⟩
    exact .bind (hs.mono (fun _ _ _ => trivial))

end Programs

section Journal

variable {journal journal' : Std.ExtTreeMap String LifecycleJob} {key : String} {job job' : LifecycleJob} {i k : ℕ} {g : Grip}

def Behind (journal : Std.ExtTreeMap String LifecycleJob) (h : LifecycleJob) : Prop :=
  ∃ job : LifecycleJob, journal[h.idempotencyKey]? = some job ∧ h.revision ≤ job.revision ∧
    (h.revision = job.revision → h = job)

/-- What the journal is to what a worker has of a job. While a revision that was not written is still to come, the job is
leased to the worker that has it. -/
def Tallies (journal : Std.ExtTreeMap String LifecycleJob) (i : ℕ) : Grip → Prop
  | .none => True
  | .leased h => h.leaseOwner = some i ∧ Behind journal h
  | .read h => Behind journal h
  | .ahead h => ∃ job : LifecycleJob, journal[h.idempotencyKey]? = some job ∧ h.revision ≤ job.revision + 1 ∧
      (job.revision ≤ h.revision → SameCount h job) ∧ (job.revision < h.revision → job.leaseOwner = some i)

/-- What a write of the worker `i` may make of a stored job: an attempt is counted only on a lease, and only one that is
left. -/
structure Counts (i : ℕ) (job job' : LifecycleJob) : Prop where
  revision : job'.revision = job.revision + 1
  limit : job'.maxAttempts = job.maxAttempts
  attempts : job'.attempts = job.attempts ∨ job.attempts < job.maxAttempts ∧ job.leaseOwner = some i

theorem Behind.insert {h : LifecycleJob} (hj : journal[key]? = some job) (ht : job.revision < job'.revision)
    (hb : Behind journal h) : Behind (journal.insert key job') h := by
  obtain ⟨cur,hc,hl,he⟩ := hb
  by_cases hk : h.idempotencyKey = key
  · subst hk
    obtain rfl := Option.some.inj (hj.symm.trans hc)
    exact ⟨job',Std.ExtTreeMap.getElem?_insert_self,by omega,fun hs => by omega⟩
  · exact ⟨cur,by rw [getElem?_insert_ne hk]; exact hc,hl,he⟩

theorem Tallies.insert (hi : k ≠ i) (hj : journal[key]? = some job) (hc : Counts i job job') (h : Tallies journal k g) :
    Tallies (journal.insert key job') k g := by
  have hl : job.revision < job'.revision := by rw [hc.revision]; omega
  cases g with
  | none => trivial
  | leased held => exact ⟨h.1,h.2.insert hj hl⟩
  | read held => exact Behind.insert hj hl h
  | ahead held =>
    obtain ⟨cur,hu,hle,hs,ho⟩ := h
    by_cases hk : held.idempotencyKey = key
    · subst hk
      obtain rfl := Option.some.inj (hj.symm.trans hu)
      refine ⟨job',Std.ExtTreeMap.getElem?_insert_self,by omega,fun hd => ?_,fun hd => ?_⟩
      · have hs := hs (by omega)
        refine ⟨hc.limit.trans hs.limit,?_⟩
        rcases hc.attempts with he | ⟨-,hm⟩
        · exact he.trans hs.attempts
        · exact absurd (Option.some.inj ((ho (by omega)).symm.trans hm)) hi
      · have := hc.revision
        omega
    · exact ⟨cur,by rw [getElem?_insert_ne hk]; exact hu,hle,hs,ho⟩

theorem Tallies.insert_new (ha : journal[key]? = none) (h : Tallies journal k g) : Tallies (journal.insert key job') k g := by
  have ho : ∀ (other : String) (current : LifecycleJob), journal[other]? = some current →
      (journal.insert key job')[other]? = some current := by
    intro other current hc
    rw [getElem?_insert_ne]
    · exact hc
    · rintro rfl
      simp [ha] at hc
  cases g with
  | none => trivial
  | leased held =>
    obtain ⟨hw,current,hc,hr⟩ := h
    exact ⟨hw,current,ho _ _ hc,hr⟩
  | read held =>
    obtain ⟨current,hc,hr⟩ := h
    exact ⟨current,ho _ _ hc,hr⟩
  | ahead held =>
    obtain ⟨current,hc,hr⟩ := h
    exact ⟨current,ho _ _ hc,hr⟩

end Journal

structure CountInv (w : Stores) (known : ℕ → Grip) : Prop where
  stored : ∀ (key : String) (job : LifecycleJob), w.journal[key]? = some job → job.idempotencyKey = key ∧ Counted job
  fits : ∀ i, Tallies w.journal i (known i)

/-- Of every stored job the journal goes on to have one, with the same count if no attempt is left. -/
def Spent (w w' : Stores) : Prop :=
  ∀ (key : String) (job : LifecycleJob), w.journal[key]? = some job → ∃ job' : LifecycleJob, w'.journal[key]? = some job' ∧
    (job.maxAttempts ≤ job.attempts → SameCount job job')

section Calls

variable {w w' : Stores} {known : ℕ → Grip} {key : String} {job job' : LifecycleJob} {i : ℕ} {g : Grip}

theorem Spent.of_same (h : w'.journal = w.journal) : Spent w w' :=
  fun _ job hj => ⟨job,h ▸ hj,fun _ => ⟨rfl,rfl⟩⟩

theorem CountInv.learn (hi : CountInv w known) (hs : w'.journal = w.journal) (hg : Tallies w.journal i g) :
    CountInv w' (Function.update known i g) := by
  refine ⟨hs ▸ hi.stored,fun j => ?_⟩
  rw [hs]
  by_cases hj : j = i
  · rw [hj,Function.update_self]
    exact hg
  · rw [Function.update_of_ne hj]
    exact hi.fits j

theorem CountInv.write (hi : CountInv w known) (hb : w.journal[key]? = some job)
    (ho : w'.journal = w.journal.insert key job') (hk : job'.idempotencyKey = key) (hn : Counted job')
    (hu : Counts i job job') (hg : Tallies w'.journal i g) :
    CountInv w' (Function.update known i g) ∧ Spent w w' := by
  refine ⟨⟨fun other cur hc => ?_,fun j => ?_⟩,fun other cur hc => ?_⟩
  · rw [ho] at hc
    rcases getElem?_insert_cases hc with ⟨rfl,rfl⟩ | ⟨-,hl⟩
    · exact ⟨hk,hn⟩
    · exact hi.stored other cur hl
  · by_cases hj : j = i
    · rw [hj,Function.update_self]
      exact hg
    · rw [Function.update_of_ne hj,ho]
      exact (hi.fits j).insert hj hb hu
  · by_cases ht : other = key
    · subst ht
      obtain rfl := Option.some.inj (hb.symm.trans hc)
      refine ⟨job',by rw [ho,Std.ExtTreeMap.getElem?_insert_self],fun hs => ⟨hu.limit,?_⟩⟩
      rcases hu.attempts with he | ⟨hf,-⟩
      · exact he
      · omega
    · exact ⟨cur,by rw [ho,getElem?_insert_ne ht]; exact hc,fun _ => ⟨rfl,rfl⟩⟩

/-- An update passes the check of its revision only if the worker has the job as it is stored, or counts as it does. -/
theorem counts_of_allows (hi : CountInv w known) (ha : (known i).Allows job')
    (hj : w.journal[job'.idempotencyKey]? = some job) (hr : job.revision = job'.revision) :
    Counted job' ∧ Counts i job job'.bumped := by
  have hf := hi.fits i
  have ho := (hi.stored _ job hj).2
  cases hg : known i with
  | none =>
    rw [hg] at ha
    exact absurd ha id
  | leased held =>
    rw [hg] at ha hf
    obtain ⟨hk,hs,hl,ho',ht,-⟩ := ha
    obtain ⟨hw,cur,hc,-,he⟩ := hf
    rw [← hk,hj] at hc
    obtain rfl := Option.some.inj hc
    obtain rfl := he (hs.symm.trans hr.symm)
    exact ⟨ho',congrArg (· + 1) hr.symm,hl,ht.imp_right (fun hle => ⟨hle,hw⟩)⟩
  | read held =>
    rw [hg] at ha hf
    obtain ⟨c,rfl⟩ := ha
    obtain ⟨cur,hc,-,he⟩ := hf
    obtain rfl := Option.some.inj (hj.symm.trans hc)
    obtain rfl := he hr.symm
    exact ⟨⟨ho.le,ho.left⟩,rfl,rfl, .inl rfl⟩
  | ahead held =>
    rw [hg] at ha hf
    obtain ⟨hk,hs,hn,ho'⟩ := ha
    obtain ⟨cur,hc,-,hst,-⟩ := hf
    rw [← hk,hj] at hc
    obtain rfl := Option.some.inj hc
    have hc := hst (by omega)
    exact ⟨ho',congrArg (· + 1) hr.symm,hn.limit.trans hc.limit.symm, .inl (hn.attempts.trans hc.attempts.symm)⟩

theorem tallies_afterWrite {journal : Std.ExtTreeMap String LifecycleJob} (ha : g.Allows job) (hf : Tallies journal i g) :
    Tallies (journal.insert job.idempotencyKey job.bumped) i (g.afterWrite job) := by
  have hb : Behind (journal.insert job.idempotencyKey job.bumped) job.bumped :=
    ⟨job.bumped,Std.ExtTreeMap.getElem?_insert_self,le_refl _,fun _ => rfl⟩
  cases g with
  | none => trivial
  | read held => exact hb
  | ahead held => trivial
  | leased held =>
    obtain ⟨-,-,-,-,-,ho⟩ := ha
    show Tallies _ i (if job.leaseOwner = none then .none else .leased job.bumped)
    split
    · trivial
    · rename_i hl
      exact ⟨(ho.resolve_right hl).trans hf.1,hb⟩

theorem tallies_afterLoss {journal : Std.ExtTreeMap String LifecycleJob} {cur : LifecycleJob} (ha : g.Allows job)
    (hf : Tallies journal i g) (hc : journal[job.idempotencyKey]? = some cur)
    (hr : cur.revision = job.revision) : Tallies journal i (g.afterLoss job) := by
  cases g with
  | leased held =>
    obtain ⟨hk,hs,hl,-⟩ := ha
    obtain ⟨ho,stored,ht,-,he⟩ := hf
    rw [← hk,hc] at ht
    obtain rfl := Option.some.inj ht
    obtain rfl := he (hs.symm.trans hr.symm)
    show Tallies _ i (if job.attempts = held.attempts then .ahead job.bumped else .none)
    split
    · rename_i hat
      refine ⟨held,hc,(congrArg (· + 1) hs).le,fun _ => ⟨hl.symm,hat.symm⟩,fun _ => ho⟩
    · trivial
  | _ => trivial

variable {libraries libs : StoreLibraries} {blake3 : List ℕ → ContentHash} {t : Circumstances}

theorem counted_leased (h : Counted job) (owner : Uuid) (now : DateTime) : Counted (job.leased owner now) := ⟨h.le,h.left⟩

/-- What a call makes of the journal and of what its worker has, if it takes over no job that has no attempt left. -/
theorem count_call {c : Call} (hi : CountInv w known) (hm : CountMay i c (known i))
    (hv : ∀ key owner now job, c = .claim key owner now → w.journal[key]? = some job →
      (exec libs blake3 (.claim key owner now) t w).1 = .ok (some (job.leased owner now)) → job.claimable now = true →
      job.attempts < job.maxAttempts) :
    ∃ g, CountLearns c (known i) (exec libs blake3 c t w).1 g ∧
      CountInv (exec libs blake3 c t w).2 (Function.update known i g) ∧ Spent w (exec libs blake3 c t w).2 := by
  by_cases hq : Quiet c
  · have hs := @exec_quiet libs blake3 t w c hq
    refine ⟨known i,?_,hi.learn hs (hi.fits i), .of_same hs⟩
    cases c <;> first | exact absurd hq id | rfl
  · cases c with
    | update job =>
      rcases @exec_update libs blake3 t w job with ⟨e,hr,hs⟩ | ⟨cur,hc,he,-,hw⟩
      · exact ⟨known i, .inr (.inl ⟨e,hr,rfl⟩),hi.learn hs (hi.fits i), .of_same hs⟩
      · obtain ⟨ho,ht⟩ := counts_of_allows hi hm hc he
        rcases hw with ⟨-,hr,hn⟩ | ⟨e,-,hr,hs⟩
        · refine ⟨_, .inl ⟨(),hr,rfl⟩,hi.write hc hn rfl ⟨ho.le,ho.left⟩ ht ?_⟩
          rw [hn]
          exact tallies_afterWrite hm (hi.fits i)
        · exact ⟨_, .inr (.inr ⟨e,hr,rfl⟩),hi.learn hs (tallies_afterLoss hm (hi.fits i) hc he), .of_same hs⟩
    | claim key owner now =>
      obtain rfl : owner = i := hm
      rcases @exec_claim libs blake3 t w key owner now with ⟨hr,hs⟩ | ⟨job,hj,hl,hr,hn⟩
      · refine ⟨known owner, .inr ⟨fun job hg => ?_,rfl⟩,hi.learn hs (hi.fits owner), .of_same hs⟩
        rcases hr with ⟨e,hr⟩ | hr <;> cases hr.symm.trans hg
      · have hlt := hv key owner now job rfl hj hr hl
        obtain ⟨hk,ho⟩ := hi.stored key job hj
        refine ⟨.leased (job.leased owner now), .inl ⟨_,hr,rfl,rfl,hlt⟩,
          hi.write hj hn hk (counted_leased ho owner now) ⟨rfl,rfl, .inl rfl⟩ ⟨rfl,?_⟩⟩
        subst hk
        exact ⟨_,by rw [hn]; exact Std.ExtTreeMap.getElem?_insert_self,le_refl _,fun _ => rfl⟩
    | upsert job =>
      obtain ⟨id,u,operation,now,hnew⟩ := hm
      refine ⟨known i,rfl,?_⟩
      rcases @exec_upsert libs blake3 t w job with hs | ⟨ha,hn⟩
      · exact ⟨hi.learn hs (hi.fits i), .of_same hs⟩
      · have ho : Counted job := by
          rw [hnew]
          exact ⟨Nat.zero_le 5,fun _ => Nat.succ_pos 4⟩
        rw [Function.update_eq_self]
        refine ⟨⟨fun other cur hc => ?_,fun j => ?_⟩,fun other cur hc => ?_⟩
        · rw [hn] at hc
          rcases getElem?_insert_cases hc with ⟨rfl,rfl⟩ | ⟨-,hd⟩
          · exact ⟨rfl,ho⟩
          · exact hi.stored other cur hd
        · rw [hn]
          exact (hi.fits j).insert_new ha
        · have hne : other ≠ job.idempotencyKey := by
            rintro rfl
            simp [ha] at hc
          exact ⟨cur,by rw [hn,getElem?_insert_ne hne]; exact hc,fun _ => ⟨rfl,rfl⟩⟩
    | getJob key =>
      obtain ⟨hr,hs⟩ := @exec_getJob libs blake3 t w key
      cases hf : (exec libs blake3 (.getJob key) t w).1 with
      | none => exact ⟨known i, .inr ⟨rfl,rfl⟩,hi.learn hs (hi.fits i), .of_same hs⟩
      | some job =>
        have hj : w.journal[key]? = some job := by
          rcases hr with ⟨hno,-⟩ | hso
          · exact absurd (hf.symm.trans hno) (by simp)
          · exact hso.symm.trans hf
        refine ⟨.read job, .inl ⟨job,rfl,rfl⟩,hi.learn hs ⟨job,?_,le_refl _,fun _ => rfl⟩, .of_same hs⟩
        rw [(hi.stored key job hj).1]
        exact hj
    | _ => exact absurd trivial hq

end Calls

variable {now : DateTime}

section Runs

/-- A claim that does not fail meets a job whose last attempt has not ended and whose lease has. -/
def overruns (s : Watched) : Event → Bool
  | .call i t =>
    match s.pool.workers[i]? with
    | some (some (.call (.claim key _ now) _), _) => t.fault.isNone && t.unwritten.isNone &&
        s.journal[key]?.any (fun job => job.claimable now && job.state = .running && job.maxAttempts ≤ job.attempts)
    | _ => false
  | _ => false

variable (libraries libs : StoreLibraries) (blake3 : List ℕ → ContentHash)

structure WithinAttempts (s s' : Watched) (e : Event) : Prop where
  within : ∀ (key : String) (job : LifecycleJob), s'.journal[key]? = some job → job.attempts ≤ job.maxAttempts
  spent : ∀ (key : String) (job : LifecycleJob), s.journal[key]? = some job → job.maxAttempts ≤ job.attempts →
    (∀ i t, e = .call i t → granted libraries blake3 s.pool i t ≠ some key) ∧
    ∃ job' : LifecycleJob, s'.journal[key]? = some job' ∧ job'.attempts = job.attempts ∧ job'.maxAttempts = job.maxAttempts

variable {libraries libs blake3}

def CountedExecutors (pool : Executors) : Prop :=
  pool.Sound CountMay CountLearns (fun _ _ => True) (fun _ _ => True) .none CountInv

theorem exists_of_granted {pool : Executors} {i : ℕ} {t : Circumstances} {key : String}
    (h : granted libs blake3 pool i t = some key) : ∃ owner now next made job,
      pool.workers[i]? = some (some (.call (.claim key owner now) next), made) ∧
      (exec libs blake3 (.claim key owner now) t pool.world).1 = .ok (some job) := by
  unfold granted at h
  split at h
  · rename_i key' owner now next made hw
    split at h
    · rename_i job hr
      obtain rfl := Option.some.inj h
      exact ⟨owner,now,next,made,job,hw,hr⟩
    · cases h
  · cases h

/-- A job that is given out has an attempt left, unless it was taken over in its last one. -/
theorem left_of_claimable {job : LifecycleJob} (ho : Counted job) (hc : job.claimable now = true)
    (hv : ¬ (job.state = .running ∧ job.maxAttempts ≤ job.attempts)) : job.attempts < job.maxAttempts := by
  unfold LifecycleJob.claimable at hc
  simp only [Bool.and_eq_true,Bool.not_eq_true'] at hc
  have hp := hc.1.2
  cases hs : job.state with
  | pending => exact ho.left (.inl hs)
  | retryable => exact ho.left (.inr hs)
  | running => exact not_le.mp (fun he => hv ⟨hs,he⟩)
  | succeeded => simp [hs,LifecycleJobState.final] at hp
  | permanentlyFailed => simp [hs,LifecycleJobState.final] at hp

variable {s : Watched} {e : Event}

theorem CountedExecutors.init {w : Stores} (h : w.journal = ∅) : CountedExecutors (Watched.init w).pool := by
  have hn : ∀ key : String, w.journal[key]? = none := fun key => by rw [h,Std.ExtTreeMap.getElem?_empty]
  refine ⟨fun _ => .none,⟨fun key job hj => ?_,fun i => trivial⟩,fun _ _ => rfl,fun i p made hp => ?_⟩
  · exact absurd (hj.symm.trans (hn key)) (by simp)
  · simp [Watched.init] at hp

theorem CountedExecutors.stored (h : CountedExecutors s.pool) {key : String} {job : LifecycleJob}
    (hj : s.journal[key]? = some job) : Counted job := by
  obtain ⟨known,hi,-⟩ := h
  exact (hi.stored key job hj).2

/-- A job that is claimed has an attempt left. -/
theorem CountedExecutors.left (h : CountedExecutors s.pool) {i owner : ℕ} {t : Circumstances} {key : String}
    {next : (Call.claim key owner now).Reply → Program Unit} {made : List ((c : Call) × c.Reply)} {given job : LifecycleJob}
    (ho : overruns s (.call i t) = false)
    (hw : s.pool.workers[i]? = some (some (.call (.claim key owner now) next), made))
    (hr : (exec libs blake3 (.claim key owner now) t s.pool.world).1 = .ok (some given))
    (hj : s.journal[key]? = some job) (hc : job.claimable now = true) : job.attempts < job.maxAttempts := by
  have hi : t.fault = none ∧ t.unwritten = none := by
    cases hf : t.fault with
    | some e =>
      simp only [exec,hf] at hr
      cases hr
    | none =>
      cases hu : t.unwritten with
      | some e =>
        simp only [exec,hf,hu] at hr
        cases hr
      | none => exact ⟨rfl,rfl⟩
  refine left_of_claimable (h.stored hj) hc (fun hs => ?_)
  unfold overruns at ho
  simp [hw,hi,hj,hc,hs] at ho

/-- What a step of the executors that overruns no job keeps. -/
theorem CountedExecutors.step (h : CountedExecutors s.pool) (ho : overruns s e = false) :
    CountedExecutors (s.step libs blake3 e).pool ∧ Spent s.pool.world (s.step libs blake3 e).pool.world := by
  cases e with
  | start service =>
    have hs : CountedExecutors (s.pool.step (exec libs blake3) (fun w (_ : Empty) => w) (.start service.program)) :=
      h.start (service_counts service) trivial
    exact ⟨hs, .of_same rfl⟩
  | crash i =>
    have hr : CountedExecutors (s.pool.step (exec libs blake3) (fun w (_ : Empty) => w) (.crash i)) :=
      h.crash (fun known hi => hi.learn rfl trivial)
    exact ⟨hr, .of_same rfl⟩
  | call i t =>
    have hc : ∀ known c next made, s.pool.workers[i]? = some (some (.call c next), made) →
        CountInv s.pool.world known → CountMay i c (known i) →
        ∃ g, CountLearns c (known i) (exec libs blake3 c t s.pool.world).1 g ∧
          CountInv (exec libs blake3 c t s.pool.world).2 (Function.update known i g) ∧
          Spent s.pool.world (exec libs blake3 c t s.pool.world).2 := by
      intro known c next made hw hi hm
      refine count_call hi hm ?_
      rintro key owner now job rfl hj he hl
      exact h.left ho hw he hj hl
    have ha : CountedExecutors (s.pool.step (exec libs blake3) (fun w (_ : Empty) => w) (.call i t)) := by
      refine h.call (fun known c next made hw _ hi hm => ?_) (fun _ _ _ _ _ _ _ => trivial)
      obtain ⟨g,hle,hi',-⟩ := hc known c next made hw hi hm
      exact ⟨g,hle,hi'⟩
    refine ⟨ha,?_⟩
    · show Spent _ (s.pool.work (exec libs blake3) i t).world
      unfold Pool.work
      split
      · rename_i c next made hw
        obtain ⟨known,hi,-,hk⟩ := h
        obtain ⟨g,-,-,hp⟩ := hc known c next made hw hi (hk i _ made hw).1.1
        exact hp
      · exact .of_same rfl

theorem CountedExecutors.within (h : CountedExecutors s.pool) (ho : overruns s e = false) :
    WithinAttempts libs blake3 s (s.step libs blake3 e) e := by
  obtain ⟨hf,hp⟩ := h.step ho
  refine ⟨fun key job hj => (hf.stored hj).le,fun key job hj hs => ⟨?_,?_⟩⟩
  · rintro i t rfl hg
    obtain ⟨owner,now,next,made,given,hw,he⟩ := exists_of_granted hg
    rcases @exec_claim libs blake3 t s.pool.world key owner now with ⟨hr,-⟩ | ⟨stored,ht,hc,-⟩
    · rcases hr with ⟨e,hr⟩ | hr <;> cases hr.symm.trans he
    · obtain rfl := Option.some.inj (hj.symm.trans ht)
      exact absurd (h.left ho hw he hj hc) (not_lt.mpr hs)
  · obtain ⟨job',hj',ha⟩ := hp key job hj
    exact ⟨job',hj',(ha hs).attempts,(ha hs).limit⟩

/-- In a run in which no job is taken over in its last attempt, the attempts stay within their maximum. -/
theorem attempts_within (libraries : StoreLibraries) (blake3 : List ℕ → ContentHash) (w : Stores) (hempty : w.journal = ∅)
    (events : List Event) (hover : StateMachine.Meets (Watched.step libraries blake3)
      (fun s e => overruns s e = false) (.init w) events) :
    ∀ front e, front ++ [e] <+: events →
      WithinAttempts libraries blake3 (StateMachine.run (Watched.step libraries blake3) (.init w) front)
        (StateMachine.run (Watched.step libraries blake3) (.init w) (front ++ [e])) e := by
  intro front e hp
  obtain ⟨rest, rfl⟩ := hp
  obtain ⟨hf, -⟩ := StateMachine.meets_append.mp hover
  obtain ⟨hb, hl, -⟩ := StateMachine.meets_append.mp hf
  have hs : ∀ s : Watched, ∀ e, CountedExecutors s.pool → overruns s e = false →
      CountedExecutors (s.step libraries blake3 e).pool := fun s e h hn => (h.step hn).1
  have hc := StateMachine.run_invariant hs (CountedExecutors.init hempty) hb
  rw [StateMachine.run_append]
  exact hc.within hl

end Runs

/-- A job is submitted, and worker after worker makes an attempt and crashes before the attempt ends; each is given the
job when the lease of the one before has run out. -/
def crashes (workers : ℕ) : List Event :=
  [.start (.submit 1 sampleUri .archive), .call 0 (calm 1), .call 0 (calm 1)] ++
    (List.range workers).flatMap (fun n =>
      .start .pending :: List.replicate 6 (.call (n + 1) (calm (40 * (n + 1)))) ++ [.crash (n + 1)])

theorem attempts_within_sample :
    WithinAttempts sampleLibraries (fun _ => "")
      (StateMachine.run (Watched.step sampleLibraries (fun _ => "")) (.init sampleStores) (crashes 1).dropLast)
      (StateMachine.run (Watched.step sampleLibraries (fun _ => "")) (.init sampleStores)
        ((crashes 1).dropLast ++ [.crash 1])) (.crash 1) :=
  attempts_within sampleLibraries (fun _ => "") sampleStores rfl (crashes 1) (by decide +kernel)
    (crashes 1).dropLast (.crash 1) ⟨[], rfl⟩

/-- The sixth worker claims the job in its fifth attempt and makes one more. -/
theorem attempts_exceed :
    ¬ WithinAttempts sampleLibraries (fun _ => "")
      (StateMachine.run (Watched.step sampleLibraries (fun _ => "")) (.init sampleStores) (crashes 6).dropLast)
      (StateMachine.run (Watched.step sampleLibraries (fun _ => "")) (.init sampleStores)
        ((crashes 6).dropLast ++ [.crash 6])) (.crash 6) := by
  intro h
  have hc : (StateMachine.run (Watched.step sampleLibraries (fun _ => "")) (.init sampleStores)
      ((crashes 6).dropLast ++ [.crash 6])).journal[sampleKey]?.map (fun job => (job.attempts, job.maxAttempts)) =
      some (6, 5) := by decide +kernel
  obtain ⟨job, hj, hp⟩ := Option.map_eq_some_iff.mp hc
  have hl := h.within sampleKey job hj
  simp only [Prod.mk.injEq] at hp
  omega

end UwuContextDb.Lifecycle
