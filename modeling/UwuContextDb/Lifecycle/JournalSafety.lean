import UwuContextDb.Lifecycle.JournalRules

/-! The journal under any number of executors, their crashes and their leases. -/

namespace UwuContextDb.Lifecycle

open Content (StoreLibraries)
open LifecycleCheckpoint (upTo Follows)

section Steps

theorem updateIn_cases (journal : Std.ExtTreeMap String LifecycleJob) (j : LifecycleJob) :
    (∃ e, updateIn journal j = .error e) ∨ ∃ cur : LifecycleJob, journal[j.idempotencyKey]? = some cur ∧
      cur.revision = j.revision ∧
      updateIn journal j = .ok (j.bumped, journal.insert j.idempotencyKey j.bumped) := by
  unfold updateIn
  split
  · exact .inl ⟨_,rfl⟩
  · rename_i cur hc
    by_cases hr : cur.revision = j.revision
    · rw [if_neg (not_not.mpr hr)]
      exact .inr ⟨cur,hc,hr,rfl⟩
    · rw [if_pos hr]
      exact .inl ⟨_,rfl⟩

theorem claimIn_cases (journal : Std.ExtTreeMap String LifecycleJob) (key : String) (owner : Uuid) (now : DateTime) :
    claimIn journal key owner now = (none, journal) ∨ ∃ job :
    LifecycleJob, journal[key]? = some job ∧ job.claimable now = true ∧
      claimIn journal key owner now = (some (job.leased owner now), journal.insert key (job.leased owner now)) := by
  unfold claimIn
  split
  · exact .inl rfl
  · rename_i job hj
    by_cases hc : job.claimable now = true
    · rw [if_pos hc]
      exact .inr ⟨job,hj,hc,rfl⟩
    · rw [if_neg hc]
      exact .inl rfl

variable {libraries lib : StoreLibraries} {blake3 : List ℕ → ContentHash} {t : Circumstances} {w : Stores}

theorem exec_update (j : LifecycleJob) :
    (∃ e, (exec lib blake3 (.update j) t w).1 = (.error e, j) ∧
      (exec lib blake3 (.update j) t w).2.journal = w.journal) ∨
    ∃ cur : LifecycleJob, w.journal[j.idempotencyKey]? = some cur ∧
    cur.revision = j.revision ∧ t.fault = none ∧
      ((t.unwritten = none ∧ (exec lib blake3 (.update j) t w).1 = (.ok (), j.bumped) ∧
          (exec lib blake3 (.update j) t w).2.journal = w.journal.insert j.idempotencyKey j.bumped) ∨
        ∃ e, t.unwritten = some e ∧ (exec lib blake3 (.update j) t w).1 = (.error e, j.bumped) ∧
          (exec lib blake3 (.update j) t w).2.journal = w.journal) := by
  cases hf : t.fault with
  | some e => exact .inl ⟨e,by simp only [exec,hf]; rfl,by simp only [exec,hf]⟩
  | none =>
    rcases updateIn_cases w.journal j with ⟨e,he⟩ | ⟨cur,hc,hr,he⟩
    · exact .inl ⟨e,by simp only [exec,hf,he]; rfl,by simp only [exec,hf,he]⟩
    · refine .inr ⟨cur,hc,hr,rfl,?_⟩
      cases hu : t.unwritten with
      | none => exact .inl ⟨rfl,by simp only [exec,hf,he,hu]; rfl,by simp only [exec,hf,he,hu]⟩
      | some e => exact .inr ⟨e,rfl,by simp only [exec,hf,he,hu]; rfl,by simp only [exec,hf,he,hu]⟩

theorem exec_claim (key : String) (owner : Uuid) (now : DateTime) :
    ((∃ e, (exec lib blake3 (.claim key owner now) t w).1 = .error e) ∨
        (exec lib blake3 (.claim key owner now) t w).1 = .ok none) ∧
      (exec lib blake3 (.claim key owner now) t w).2.journal = w.journal ∨
    ∃ job : LifecycleJob, w.journal[key]? = some job ∧ job.claimable now = true ∧
      (exec lib blake3 (.claim key owner now) t w).1 = .ok (some (job.leased owner now)) ∧
      (exec lib blake3 (.claim key owner now) t w).2.journal = w.journal.insert key (job.leased owner now) := by
  cases hf : t.fault with
  | some e => exact .inl ⟨.inl ⟨e,by simp only [exec,hf]; rfl⟩,by simp only [exec,hf]⟩
  | none =>
    cases hu : t.unwritten with
    | some e => exact .inl ⟨.inl ⟨e,by simp only [exec,hf,hu]; rfl⟩,by simp only [exec,hf,hu]⟩
    | none =>
      rcases claimIn_cases w.journal key owner now with he | ⟨job,hj,hc,he⟩
      · exact .inl ⟨.inr (by simp only [exec,hf,hu,he]; rfl),by simp only [exec,hf,hu,he]⟩
      · exact .inr ⟨job,hj,hc,by
          simp only [exec,hf,hu,he]; rfl,by simp only [exec,hf,hu,he]⟩

theorem exec_upsert (job : LifecycleJob) :
    (exec lib blake3 (.upsert job) t w).2.journal = w.journal ∨ w.journal[job.idempotencyKey]? = none ∧
      (exec lib blake3 (.upsert job) t w).2.journal = w.journal.insert job.idempotencyKey job := by
  cases hf : t.fault with
  | some e => exact .inl (by simp only [exec,hf])
  | none =>
    cases hu : t.unwritten with
    | some e => exact .inl (by simp only [exec,hf,hu])
    | none =>
      cases hs : w.journal[job.idempotencyKey]? with
      | some cur => exact .inl (by simp only [exec,hf,hu,upsertIn,hs])
      | none => exact .inr ⟨rfl,by simp only [exec,hf,hu,upsertIn,hs]⟩

theorem exec_getJob (key : String) :
    ((exec lib blake3 (.getJob key) t w).1 = none ∧ t.fault ≠ none ∨
      (exec lib blake3 (.getJob key) t w).1 = w.journal[key]?) ∧
      (exec lib blake3 (.getJob key) t w).2.journal = w.journal := by
  cases hf : t.fault with
  | some e => exact ⟨.inl ⟨by simp only [exec,hf]; rfl,by simp⟩,by simp only [exec,hf]⟩
  | none => exact ⟨.inr (by simp only [exec,hf]; rfl),by simp only [exec,hf]⟩

theorem exec_quiet {c : Call} (h : Quiet c) : (exec lib blake3 c t w).2.journal = w.journal := by
  cases c <;> first | exact absurd h id | skip
  all_goals cases hf : t.fault <;> simp only [exec,hf]
  all_goals first | rfl | (split <;> first | rfl | (split <;> rfl))

end Steps

structure Stored (key : String) (job : LifecycleJob) : Prop where
  keyed : job.idempotencyKey = key
  flags : ∃ n, job.checkpoint = upTo n
  complete : job.state = .succeeded → job.checkpoint = upTo 5
  leased : job.leaseOwner ≠ none → job.state.final = false

structure JournalInv (w : Stores) (known : ℕ → Option LifecycleJob) : Prop where
  stored : ∀ key job, w.journal[key]? = some job → Stored key job
  held : ∀ i h, known i = some h → ∃ job : LifecycleJob, w.journal[h.idempotencyKey]? = some job ∧
    h.revision ≤ job.revision ∧
    (h.revision = job.revision → h = job)

section Invariant

variable {w w' : Stores} {known : ℕ → Option LifecycleJob} {key : String} {job : LifecycleJob}

theorem JournalInv.congr (h : JournalInv w known) (hj : w'.journal = w.journal) : JournalInv w' known :=
  ⟨fun key job ho => h.stored key job (hj ▸ ho),fun i held hh => hj ▸ h.held i held hh⟩

theorem JournalInv.learn (h : JournalInv w known) {i : ℕ} {g : Option LifecycleJob}
    (hg : ∀ job, g = some job → w.journal[job.idempotencyKey]? = some job) : JournalInv w (Function.update known i g) := by
  refine ⟨h.stored,fun j held hh => ?_⟩
  by_cases hj : j = i
  · rw [hj,Function.update_self] at hh
    exact ⟨held,hg held hh,le_refl _,fun _ => rfl⟩
  · rw [Function.update_of_ne hj] at hh
    exact h.held j held hh

theorem JournalInv.insert (h : JournalInv w known) (hs : Stored key job)
    (hr : ∀ cur : LifecycleJob, w.journal[key]? = some cur → cur.revision < job.revision)
    (ho : w'.journal = w.journal.insert key job) {i : ℕ} {g : Option LifecycleJob} (hg : g = some job ∨ g = known i) :
    JournalInv w' (Function.update known i g) := by
  refine ⟨fun other cur hc => ?_,fun j held hh => ?_⟩
  · rw [ho,Std.ExtTreeMap.getElem?_insert] at hc
    split at hc
    · rename_i hk
      rw [← Std.LawfulEqCmp.compare_eq_iff_eq.mp hk,← Option.some.inj hc]
      exact hs
    · exact h.stored other cur hc
  · have hl : ∀ held, (∃ j, known j = some held) → ∃ job : LifecycleJob, w'.journal[held.idempotencyKey]? = some job ∧
        held.revision ≤ job.revision ∧ (held.revision = job.revision → held = job) := by
      rintro held ⟨j,hh⟩
      obtain ⟨cur,hc,he,hq⟩ := h.held j held hh
      rw [ho,Std.ExtTreeMap.getElem?_insert]
      split
      · rename_i hk
        rw [← Std.LawfulEqCmp.compare_eq_iff_eq.mp hk] at hc
        have ht := hr cur hc
        exact ⟨job,rfl,by omega,fun ha => absurd ha (by omega)⟩
      · exact ⟨cur,hc,he,hq⟩
    by_cases hj : j = i
    · rw [hj,Function.update_self] at hh
      rcases hg with rfl | rfl
      · obtain rfl := Option.some.inj hh
        refine ⟨job,?_,le_refl _,fun _ => rfl⟩
        rw [ho,hs.keyed,Std.ExtTreeMap.getElem?_insert_self]
      · exact hl held ⟨i,hh⟩
    · rw [Function.update_of_ne hj] at hh
      exact hl held ⟨j,hh⟩

/-- An update that a worker may make, of the job that the journal has as the worker has it, leaves one that may be
stored. -/
theorem stored_bumped {i : ℕ} {cur : LifecycleJob} (hs : Stored cur.idempotencyKey cur)
    (h : Works i cur job ∨ Restores cur job) : Stored job.idempotencyKey job.bumped := by
  obtain ⟨n,hf⟩ := hs.flags
  rcases h with hw | ⟨c,rfl⟩
  · refine ⟨rfl,?_,hw.complete,fun hl => ?_⟩
    · rcases hw.follows with ha | ⟨m,-,hn⟩
      · exact ⟨n,ha.trans hf⟩
      · exact ⟨m+1,hn⟩
    · rcases hw.lease with ⟨-,hr⟩ | ho
      · show job.state.final = false
        rw [hr]
        rfl
      · exact absurd ho hl
  · exact ⟨rfl,⟨n,hf⟩,hs.complete,hs.leased⟩

theorem stored_leased {owner : Uuid} {now : DateTime} (hs : Stored key job) (hc : job.claimable now = true) :
    Stored key (job.leased owner now) := by
  refine ⟨hs.keyed,hs.flags,hs.complete,fun _ => ?_⟩
  unfold LifecycleJob.claimable at hc
  simp only [Bool.and_eq_true,Bool.not_eq_true'] at hc
  exact hc.1.2

theorem stored_newJob (id : Uuid) (u : ContextUri) (operation : LifecycleOperation) (now : DateTime) :
    Stored (newJob id u operation now).idempotencyKey (newJob id u operation now) :=
  ⟨rfl,⟨0,rfl⟩,nofun,fun h => absurd rfl h⟩

end Invariant

section Calls

variable {libraries lib : StoreLibraries} {blake3 : List ℕ → ContentHash} {t : Circumstances} {w : Stores}
  {known : ℕ → Option LifecycleJob} {i : ℕ}

/-- What a call of the worker `i` does to the journal. -/
inductive Effect (journal : Std.ExtTreeMap String LifecycleJob) (i : ℕ) : Call → Std.ExtTreeMap String LifecycleJob → Prop
  | idle (c : Call) : Effect journal i c journal
  | claimed {key : String} {now : DateTime} {job : LifecycleJob} (stored : journal[key]? = some job)
      (claimable : job.claimable now = true) : Effect journal i (.claim key i now) (journal.insert key (job.leased i now))
  | updated {job current : LifecycleJob} (stored : journal[job.idempotencyKey]? = some current)
      (key : job.idempotencyKey = current.idempotencyKey) (revision : current.revision = job.revision)
      (allowed : Works i current job ∨ Restores current job) :
      Effect journal i (.update job) (journal.insert job.idempotencyKey job.bumped)
  | submitted {job : LifecycleJob} (absent : journal[job.idempotencyKey]? = none) :
      Effect journal i (.upsert job) (journal.insert job.idempotencyKey job)

theorem held_of_revision (hi : JournalInv w known) {j cur : LifecycleJob} (hm : May i (.update j) (known i))
    (hc : w.journal[j.idempotencyKey]? = some cur) (hr : cur.revision = j.revision) :
    known i = some cur ∧ j.idempotencyKey = cur.idempotencyKey ∧
    (Works i cur j ∨ Restores cur j) := by
  obtain ⟨h,hh,ha⟩ := hm
  have hs : j.idempotencyKey = h.idempotencyKey ∧ j.revision = h.revision := by
    rcases ha with hw | ⟨c,rfl⟩
    · exact ⟨hw.key,hw.revision⟩
    · exact ⟨rfl,rfl⟩
  obtain ⟨stored,ht,-,he⟩ := hi.held i h hh
  rw [← hs.1,hc] at ht
  obtain rfl := Option.some.inj ht
  obtain rfl := he (hs.2.symm.trans hr.symm)
  exact ⟨hh,hs.1,ha⟩

theorem effect_of_may {c : Call} (hi : JournalInv w known) (hm : May i c (known i)) :
    Effect w.journal i c (exec lib blake3 c t w).2.journal := by
  by_cases hq : Quiet c
  · rw [exec_quiet hq]
    exact .idle c
  · cases c with
    | update job =>
      rcases exec_update job with ⟨e,-,he⟩ | ⟨cur,hc,hr,-,hw⟩
      · rw [he]
        exact .idle _
      · rcases hw with ⟨-,-,he⟩ | ⟨e,-,-,he⟩
        · rw [he]
          obtain ⟨-,hk,ha⟩ := held_of_revision hi hm hc hr
          exact .updated hc hk hr ha
        · rw [he]
          exact .idle _
    | claim key owner now =>
      obtain rfl : owner = i := hm
      rcases exec_claim key owner now with ⟨-,he⟩ | ⟨job,hj,hl,-,he⟩
      · rw [he]
        exact .idle _
      · rw [he]
        exact .claimed hj hl
    | upsert job =>
      rcases exec_upsert job with he | ⟨hb,he⟩
      · rw [he]
        exact .idle _
      · rw [he]
        exact .submitted hb
    | getJob key =>
      rw [(exec_getJob key).2]
      exact .idle _
    | _ => exact absurd trivial hq

theorem learn_of_may {c : Call} (hi : JournalInv w known) (hm : May i c (known i))
    (hl : ∀ job cur : LifecycleJob, c = .update job → w.journal[job.idempotencyKey]? = some cur →
      cur.revision = job.revision → t.fault = none → t.unwritten ≠ none → cur.checkpoint = job.checkpoint) :
    ∃ g, Learns c (known i) (exec lib blake3 c t w).1 g ∧
      JournalInv (exec lib blake3 c t w).2 (Function.update known i g) := by
  by_cases hq : Quiet c
  · refine ⟨known i,?_,?_⟩
    · cases c <;> first | exact absurd hq id | rfl
    · rw [Function.update_eq_self]
      exact hi.congr (exec_quiet hq)
  · cases c with
    | update job =>
      rcases exec_update job with ⟨e,hr,he⟩ | ⟨cur,hc,hv,ha,hw⟩
      · refine ⟨known i, .inr (.inl ⟨e,hr,rfl⟩),?_⟩
        rw [Function.update_eq_self]
        exact hi.congr he
      · obtain ⟨hh,hk,hal⟩ := held_of_revision hi hm hc hv
        rcases hw with ⟨-,hr,he⟩ | ⟨e,hu,hr,he⟩
        · refine ⟨some job.bumped, .inl ⟨(),hr,rfl⟩,?_⟩
          refine hi.insert (stored_bumped (hk ▸ hi.stored _ _ hc) hal)
            (fun stored hs => ?_) he (.inl rfl)
          obtain rfl := Option.some.inj (hc.symm.trans hs)
          exact hv ▸ Nat.lt_succ_self _
        · have hsa := hl job cur rfl hc hv ha (by simp [hu])
          refine ⟨none, .inr (.inr ⟨e,hr,rfl,cur,hh,hsa.symm⟩),?_⟩
          exact (hi.congr he).learn (g := none) (fun job hj => absurd hj (by simp))
    | claim key owner now =>
      rcases exec_claim key owner now with ⟨hr,he⟩ | ⟨job,hj,hcl,hr,he⟩
      · refine ⟨known i,?_,?_⟩
        · rcases hr with ⟨e,hr⟩ | hr
          · exact .inr (.inr ⟨e,hr,rfl⟩)
          · exact .inr (.inl ⟨hr,rfl⟩)
        · rw [Function.update_eq_self]
          exact hi.congr he
      · have hs := hi.stored key job hj
        refine ⟨some (job.leased owner now), .inl ⟨_,hr,rfl,rfl,hs.flags⟩,?_⟩
        refine hi.insert (stored_leased hs hcl) (fun stored hs => ?_) he (.inl rfl)
        obtain rfl := Option.some.inj (hj.symm.trans hs)
        exact Nat.lt_succ_self _
    | upsert job =>
      obtain ⟨id,u,operation,now,hj⟩ := hm
      have hs : Stored job.idempotencyKey job := hj ▸ stored_newJob id u operation now
      refine ⟨known i,rfl,?_⟩
      rcases @exec_upsert lib blake3 t w job with he | ⟨hb,he⟩
      · rw [Function.update_eq_self]
        exact hi.congr he
      · refine hi.insert hs (fun stored hc => ?_) he (.inr rfl)
        rw [hb] at hc
        cases hc
    | getJob key =>
      obtain ⟨hr,he⟩ := exec_getJob key
      cases hf : (exec lib blake3 (.getJob key) t w).1 with
      | none =>
        refine ⟨known i, .inr ⟨rfl,rfl⟩,?_⟩
        rw [Function.update_eq_self]
        exact hi.congr he
      | some job =>
        refine ⟨some job, .inl ⟨job,rfl,rfl⟩,(hi.congr he).learn (fun job' hj' => ?_)⟩
        obtain rfl := Option.some.inj hj'
        have hs : w.journal[key]? = some job := by
          rcases hr with ⟨hn,-⟩ | ho
          · rw [hf] at hn
            cases hn
          · exact ho.symm.trans hf
        rw [he,(hi.stored key job hs).keyed]
        exact hs
    | _ => exact absurd trivial hq

end Calls

inductive Service
  | pending
  | submit (id : Uuid) (uri : ContextUri) (action : LifecycleAction)
  | restore (key : String)

/-- The program of a service, at work for the owner `i`. -/
def Service.program : Service → ℕ → Program Unit
  | .pending, i => do
    let _ ← (runPending i).run
    return ()
  | .submit id uri action, _ => do
    let _ ← (Lifecycle.submit id uri action).run
    return ()
  | .restore key, _ => do
    let _ ← (Lifecycle.restore key).run
    return ()

inductive Event
  | start (service : Service)
  | call (i : ℕ) (t : Circumstances)
  | crash (i : ℕ)

abbrev Executors := Pool Call Call.Reply Unit Stores

def Event.ofPool : Event → Pool.Event Call Call.Reply Unit Circumstances Empty
  | .start service => .start service.program
  | .call i t => .call i t
  | .crash i => .crash i

structure Watched where
  pool : Executors
  claimant : String → Option ℕ

def Watched.journal (s : Watched) : Std.ExtTreeMap String LifecycleJob := s.pool.world.journal

def Watched.init (w : Stores) : Watched := ⟨⟨w, []⟩, fun _ => none⟩

section Runs

variable (libraries lib : StoreLibraries) (blake3 : List ℕ → ContentHash)

def granted (pool : Executors) (i : ℕ) (t : Circumstances) : Option String :=
  match pool.workers[i]? with
  | some (some (.call (.claim key owner now) _), _) =>
    match (exec libraries blake3 (.claim key owner now) t pool.world).1 with
    | .ok (some _) => some key
    | _ => none
  | _ => none

def Watched.step (s : Watched) (e : Event) : Watched :=
  ⟨s.pool.step (exec libraries blake3) (fun w _ => w) e.ofPool, match e with
    | .call i t =>
      match granted libraries blake3 s.pool i t with
      | some key => Function.update s.claimant key (some i)
      | none => s.claimant
    | _ => s.claimant⟩

def Updates (s : Watched) (i : ℕ) (job : LifecycleJob) : Prop :=
  ∃ next made, s.pool.workers[i]? = some (some (.call (.update job) next), made)

def Lost (s : Watched) : Event → Prop
  | .call i t => ∃ job current : LifecycleJob, Updates s i job ∧ s.journal[job.idempotencyKey]? = some current ∧
      current.revision = job.revision ∧ current.checkpoint ≠ job.checkpoint ∧ t.fault = none ∧ t.unwritten ≠ none
  | _ => False

/-- What a step may do to the stored jobs: a change raises the revision, sets at most the next flag and leaves a final
state; and an update changes a job only for the worker that it was last given to, or its restore checkpoint. -/
structure Safe (s s' : Watched) (e : Event) : Prop where
  changes : ∀ (key : String) (job : LifecycleJob), s.journal[key]? = some job → ∃ job' :
    LifecycleJob, s'.journal[key]? = some job' ∧
    (job' = job ∨ job.revision < job'.revision ∧ Follows job.checkpoint job'.checkpoint ∧
      (job.state.final = true → job'.state = job.state))
  stored : ∀ (key : String) (job : LifecycleJob), s'.journal[key]? = some job →
    (∃ n, job.checkpoint = upTo n) ∧ (job.state = .succeeded → job.checkpoint = ⟨true, true, true, true, true⟩)
  claimed : ∀ i t update, e = .call i t → Updates s i update → ∀ (key : String) (job job' : LifecycleJob),
    s.journal[key]? = some job → s'.journal[key]? = some job' → job' ≠ job →
      s.claimant key = some i ∨ ∃ c, job' = { job.bumped with restoreCheckpoint := c }

variable {libraries lib blake3}

theorem service_keeps (service : Service) (i : ℕ) : (service.program i).Keeps (May i) Learns (fun _ _ => True) none := by
  cases service with
  | pending => exact .bind ((runPending_keeps none).mono (fun _ _ _ => trivial))
  | submit id u action => exact .bind ((submit_keeps id u action none).mono (fun _ _ _ => trivial))
  | restore key => exact .bind ((restore_keeps key none).mono (fun _ _ _ => trivial))

def SoundExecutors (pool : Executors) : Prop := pool.Sound May Learns (fun _ _ => True) (fun _ _ => True) none JournalInv

/-- The executors keep to the rules of the journal, and a lease is that of the worker the job was last given to. -/
structure Kept (s : Watched) : Prop where
  sound : SoundExecutors s.pool
  leased : ∀ (key : String) (job : LifecycleJob) (i : ℕ), s.journal[key]? = some job → job.leaseOwner = some i →
    s.claimant key = some i

theorem Kept.init {w : Stores} (h : w.journal = ∅) : Kept (.init w) := by
  have hn : ∀ key : String, w.journal[key]? = none := fun key => by rw [h,Std.ExtTreeMap.getElem?_empty]
  refine ⟨⟨fun _ => none,⟨fun key job hj => ?_,fun i held hh => by cases hh⟩,fun _ _ => rfl,
    fun i p made hp => ?_⟩,fun key job i hj => ?_⟩
  · exact absurd (hj.symm.trans (hn key)) (by simp)
  · simp [Watched.init] at hp
  · exact absurd hj (by simp [Watched.journal,Watched.init,hn])

variable {key : String} {job : LifecycleJob}

theorem stored_of_sound {s : Watched} (h : SoundExecutors s.pool)
    (hj : s.journal[key]? = some job) : Stored key job := by
  obtain ⟨known,hi,-⟩ := h
  exact hi.stored key job hj

theorem safe_of_same {s s' : Watched} {e : Event} (hs : SoundExecutors s'.pool)
    (ha : s'.journal = s.journal) : Safe s s' e := by
  refine ⟨fun key job hj => ⟨job,ha ▸ hj, .inl rfl⟩,fun key job hj => ?_,
    fun i t update _ _ key job job' hj hj' hn => ?_⟩
  · exact ⟨(stored_of_sound hs hj).flags,(stored_of_sound hs hj).complete⟩
  · rw [ha,hj] at hj'
    exact absurd (Option.some.inj hj').symm hn

theorem changes_of_allowed {i : ℕ} {cur j : LifecycleJob} (hs : Stored cur.idempotencyKey cur)
    (h : Works i cur j ∨ Restores cur j) : Follows cur.checkpoint j.bumped.checkpoint ∧
      (cur.state.final = true → j.bumped.state = cur.state) := by
  rcases h with hw | ⟨c,rfl⟩
  · refine ⟨hw.follows,fun hf => ?_⟩
    have ho := hs.leased (by simp [hw.owner])
    rw [ho] at hf
    cases hf
  · exact ⟨.inl rfl,fun _ => rfl⟩

theorem getElem?_insert_cases {V : Type} {table : Std.ExtTreeMap String V} {key other : String} {v v' : V}
    (h : (table.insert key v)[other]? = some v') : other = key ∧ v' = v ∨ other ≠ key ∧ table[other]? = some v' := by
  rw [Std.ExtTreeMap.getElem?_insert] at h
  split at h
  · rename_i hk
    exact .inl ⟨(Std.LawfulEqCmp.compare_eq_iff_eq.mp hk).symm,(Option.some.inj h).symm⟩
  · rename_i hk
    exact .inr ⟨fun he => hk (Std.LawfulEqCmp.compare_eq_iff_eq.mpr he.symm),h⟩

theorem getElem?_insert_ne {journal : Std.ExtTreeMap String LifecycleJob} {key other : String}
    (h : other ≠ key) : (journal.insert key job)[other]? = journal[other]? := by
  rw [Std.ExtTreeMap.getElem?_insert,if_neg (fun he => h (Std.LawfulEqCmp.compare_eq_iff_eq.mp he).symm)]

theorem safe_of_insert {s s' : Watched} {e : Event}
    (hs : SoundExecutors s'.pool) (ho : s'.journal = s.journal.insert key job)
    (hh : ∀ cur : LifecycleJob, s.journal[key]? = some cur → cur.revision < job.revision ∧
      Follows cur.checkpoint job.checkpoint ∧ (cur.state.final = true → job.state = cur.state))
    (hl : ∀ i t update, e = .call i t → Updates s i update → ∀ cur : LifecycleJob, s.journal[key]? = some cur →
      s.claimant key = some i ∨ ∃ c, job = { cur.bumped with restoreCheckpoint := c }) : Safe s s' e := by
  refine ⟨fun other cur hc => ?_,fun other job' hj' => ?_,
    fun i t update he hu other cur job' hc hj' hn => ?_⟩
  · by_cases hk : other = key
    · subst hk
      exact ⟨job,by rw [ho,Std.ExtTreeMap.getElem?_insert_self], .inr (hh cur hc)⟩
    · exact ⟨cur,by rw [ho,getElem?_insert_ne hk]; exact hc, .inl rfl⟩
  · exact ⟨(stored_of_sound hs hj').flags,(stored_of_sound hs hj').complete⟩
  · rw [ho] at hj'
    rcases getElem?_insert_cases hj' with ⟨rfl,rfl⟩ | ⟨-,ha⟩
    · exact hl i t update he hu cur hc
    · exact absurd (Option.some.inj (ha.symm.trans hc)) hn

theorem journal_call {s : Watched} {i : ℕ} {t : Circumstances} {c : Call} {next : c.Reply → Program Unit}
    {made : List ((c : Call) × c.Reply)} (hw : s.pool.workers[i]? = some (some (.call c next), made)) :
    (s.step lib blake3 (.call i t)).journal = (exec lib blake3 c t s.pool.world).2.journal := by
  show (s.pool.work (exec lib blake3) i t).world.journal = _
  unfold Pool.work
  rw [hw]

theorem claimant_call {s : Watched} {i : ℕ} {t : Circumstances} {now : DateTime}
    {next : (Call.claim key i now).Reply → Program Unit} {made : List ((c : Call) × c.Reply)}
    (hw : s.pool.workers[i]? = some (some (.call (.claim key i now) next), made))
    (hr : (exec lib blake3 (.claim key i now) t s.pool.world).1 = .ok (some job)) :
    (s.step lib blake3 (.call i t)).claimant = Function.update s.claimant key (some i) := by
  have hg : granted lib blake3 s.pool i t = some key := by
    unfold granted
    rw [hw]
    dsimp only
    rw [hr]
  simp only [Watched.step,hg]

theorem claimant_of_not_granted {s : Watched} {i : ℕ} {t : Circumstances} (h : granted lib blake3 s.pool i t = none) :
    (s.step lib blake3 (.call i t)).claimant = s.claimant := by
  simp only [Watched.step,h]

theorem Kept.start {s : Watched} (h : Kept s) (service : Service) : Kept (s.step lib blake3 (.start service)) ∧
    Safe s (s.step lib blake3 (.start service)) (.start service) := by
  have hs : SoundExecutors (s.pool.step (exec lib blake3) (fun w (_ : Empty) => w) (.start service.program)) :=
    h.sound.start (service_keeps service _) trivial
  exact ⟨⟨hs,h.leased⟩,safe_of_same hs rfl⟩

theorem Kept.crash {s : Watched} (h : Kept s) (i : ℕ) :
    Kept (s.step lib blake3 (.crash i)) ∧ Safe s (s.step lib blake3 (.crash i)) (.crash i) := by
  have hs : SoundExecutors (s.pool.step (exec lib blake3) (fun w (_ : Empty) => w) (.crash i)) :=
    h.sound.crash (fun known hi => hi.learn (g := none) (fun job hj => absurd hj (by simp)))
  exact ⟨⟨hs,h.leased⟩,safe_of_same hs rfl⟩

variable {s : Watched} {i : ℕ} {t : Circumstances} {made : List ((c : Call) × c.Reply)}

theorem Kept.claim (h : Kept s) (hs : SoundExecutors (s.step lib blake3 (.call i t)).pool)
    {now : DateTime} {next : (Call.claim key i now).Reply → Program Unit}
    (hw : s.pool.workers[i]? = some (some (.call (.claim key i now) next), made)) :
    Kept (s.step lib blake3 (.call i t)) ∧ Safe s (s.step lib blake3 (.call i t)) (.call i t) := by
  have hj := @journal_call lib blake3 s i t _ next made hw
  rcases @exec_claim lib blake3 t s.pool.world key i now with ⟨hr,hq⟩ | ⟨job,ho,hcl,hr,hq⟩
  · have hf : granted lib blake3 s.pool i t = none := by
      unfold granted
      rw [hw]
      dsimp only
      rcases hr with ⟨e,hr⟩ | hr <;> rw [hr]
    have ha : (s.step lib blake3 (.call i t)).journal = s.journal := hj.trans hq
    refine ⟨⟨hs,fun other cur j hc hl => ?_⟩,safe_of_same hs ha⟩
    rw [claimant_of_not_granted hf]
    exact h.leased other cur j (ha ▸ hc) hl
  · have hi : (s.step lib blake3 (.call i t)).journal = s.journal.insert key (job.leased i now) := hj.trans hq
    refine ⟨⟨hs,fun other cur j hc hl => ?_⟩,safe_of_insert hs hi (fun cur hc => ?_) (fun i' t' update he hu => ?_)⟩
    · rw [claimant_call hw hr]
      rw [hi] at hc
      rcases getElem?_insert_cases hc with ⟨rfl,rfl⟩ | ⟨hn,hd⟩
      · rw [Function.update_self]
        exact hl
      · rw [Function.update_of_ne hn]
        exact h.leased other cur j hd hl
    · obtain rfl := Option.some.inj (ho.symm.trans hc)
      exact ⟨Nat.lt_succ_self _, .inl rfl,fun _ => rfl⟩
    · obtain ⟨rfl,rfl⟩ := Event.call.inj he
      obtain ⟨next',made',hw'⟩ := hu
      rw [hw] at hw'
      simp at hw'

theorem Kept.update (h : Kept s) (hs : SoundExecutors (s.step lib blake3 (.call i t)).pool)
    (hcl : (s.step lib blake3 (.call i t)).claimant = s.claimant) {job current : LifecycleJob}
    (hc : s.journal[job.idempotencyKey]? = some current) (hk : job.idempotencyKey = current.idempotencyKey)
    (hr : current.revision = job.revision) (ha : Works i current job ∨ Restores current job)
    (hi : (s.step lib blake3 (.call i t)).journal = s.journal.insert job.idempotencyKey job.bumped) :
    Kept (s.step lib blake3 (.call i t)) ∧ Safe s (s.step lib blake3 (.call i t)) (.call i t) := by
  have ht : Stored current.idempotencyKey current := hk ▸ stored_of_sound h.sound hc
  refine ⟨⟨hs,fun other current' j hc' hl => ?_⟩,
    safe_of_insert hs hi (fun current' hc' => ?_) (fun i' t' update he _ current' hc' => ?_)⟩
  · rw [hcl]
    rw [hi] at hc'
    rcases getElem?_insert_cases hc' with ⟨rfl,rfl⟩ | ⟨-,ho⟩
    · rcases ha with hw | ⟨c,rfl⟩
      · rcases hw.lease with ⟨hm,-⟩ | hn
        · obtain rfl := Option.some.inj (hm.symm.trans hl)
          exact h.leased _ current i hc hw.owner
        · exact absurd (hl.symm.trans hn) (by simp)
      · exact h.leased _ current j hc hl
    · exact h.leased other current' j ho hl
  · obtain rfl := Option.some.inj (hc.symm.trans hc')
    exact ⟨hr ▸ Nat.lt_succ_self _,changes_of_allowed ht ha⟩
  · obtain rfl := Option.some.inj (hc.symm.trans hc')
    obtain ⟨rfl,rfl⟩ := Event.call.inj he
    rcases ha with hw | ⟨c,rfl⟩
    · exact .inl (h.leased _ current i hc hw.owner)
    · exact .inr ⟨c,rfl⟩

theorem Kept.submit (h : Kept s) (hs : SoundExecutors (s.step lib blake3 (.call i t)).pool)
    (ha : (s.step lib blake3 (.call i t)).claimant = s.claimant)
    (hb : s.journal[job.idempotencyKey]? = none) (ho : job.leaseOwner = none)
    (hi : (s.step lib blake3 (.call i t)).journal = s.journal.insert job.idempotencyKey job) :
    Kept (s.step lib blake3 (.call i t)) ∧ Safe s (s.step lib blake3 (.call i t)) (.call i t) := by
  have hn : ∀ current : LifecycleJob, s.journal[job.idempotencyKey]? ≠ some current :=
    fun current h => by simp [hb] at h
  refine ⟨⟨hs,fun other current j hc hl => ?_⟩,safe_of_insert hs hi
    (fun current hc => absurd hc (hn current))
      (fun _ _ _ _ _ current hc => absurd hc (hn current))⟩
  rw [ha]
  rw [hi] at hc
  rcases getElem?_insert_cases hc with ⟨rfl,rfl⟩ | ⟨-,hd⟩
  · exact absurd (hl.symm.trans ho) (by simp)
  · exact h.leased other current j hd hl

theorem Kept.call (h : Kept s) (ho : ¬ Lost s (.call i t)) :
    Kept (s.step lib blake3 (.call i t)) ∧ Safe s (s.step lib blake3 (.call i t)) (.call i t) := by
  have hs : SoundExecutors (s.pool.step (exec lib blake3) (fun w (_ : Empty) => w) (.call i t)) := by
    refine h.sound.call (fun known c next made hw _ hi hm => learn_of_may hi hm ?_)
      (fun _ _ _ _ _ _ _ => trivial)
    rintro job cur rfl hc hr hu hn
    by_contra hne
    exact ho ⟨job,cur,⟨next,made,hw⟩,hc,hr,hne,hu,hn⟩
  by_cases hl : ∃ c next made, s.pool.workers[i]? = some (some (.call c next), made)
  · obtain ⟨c,next,made,hw⟩ := hl
    obtain ⟨known,hi,-,hk⟩ := id h.sound
    have hm : May i c (known i) := (hk i _ made hw).1.1
    by_cases hcl : ∃ key owner now, c = .claim key owner now
    · obtain ⟨key,owner,now,rfl⟩ := hcl
      obtain rfl : owner = i := hm
      exact h.claim hs hw
    · have hcla : (s.step lib blake3 (.call i t)).claimant = s.claimant := by
        refine claimant_of_not_granted ?_
        unfold granted
        rw [hw]
        split
        · rename_i hq
          simp only [Option.some.injEq,Prod.mk.injEq,Prog.call.injEq] at hq
          exact absurd ⟨_,_,_,hq.1.1⟩ hcl
        · rfl
      have hj := @journal_call lib blake3 s i t c next made hw
      have he := @effect_of_may lib blake3 t _ known i c hi hm
      rw [← hj] at he
      generalize hf : (s.step lib blake3 (.call i t)).journal = after at he
      cases he with
      | idle =>
        have ha : (s.step lib blake3 (.call i t)).journal = s.journal := hf
        refine ⟨⟨hs,fun other cur j hc hle => ?_⟩,safe_of_same hs ha⟩
        rw [hcla]
        exact h.leased other cur j (ha ▸ hc) hle
      | claimed => exact absurd ⟨_,_,_,rfl⟩ hcl
      | updated hc hy hr hal => exact h.update hs hcla hc hy hr hal hf
      | submitted hb =>
        obtain ⟨id,u,operation,now,hjo⟩ := hm
        exact h.submit hs hcla hb (by rw [hjo]; rfl) hf
  · have hd : s.pool.work (exec lib blake3) i t = s.pool := by
      unfold Pool.work
      split
      · rename_i c next made hw
        exact absurd ⟨c,next,made,hw⟩ hl
      · rfl
    have hre : granted lib blake3 s.pool i t = none := by
      unfold granted
      split
      · rename_i hw
        exact absurd ⟨_,_,_,hw⟩ hl
      · rfl
    have ha : (s.step lib blake3 (.call i t)).journal = s.journal :=
      congrArg (fun pool : Executors => pool.world.journal) hd
    refine ⟨⟨hs,fun other cur j hc hle => ?_⟩,safe_of_same hs ha⟩
    rw [claimant_of_not_granted hre]
    exact h.leased other cur j (ha ▸ hc) hle

theorem Kept.step (h : Kept s) {e : Event} (hl : ¬ Lost s e) :
    Kept (s.step lib blake3 e) ∧ Safe s (s.step lib blake3 e) e := by
  cases e with
  | start service => exact h.start service
  | call i t => exact h.call hl
  | crash i => exact h.crash i

/-- Every step of a run is safe in which no update that sets a flag is lost. -/
theorem journal_safe (libraries : StoreLibraries) (blake3 : List ℕ → ContentHash) (w : Stores) (hempty : w.journal = ∅)
    (events : List Event)
    (hlost : StateMachine.Meets (Watched.step libraries blake3) (fun s e => ¬ Lost s e) (.init w) events) :
    ∀ front e, front ++ [e] <+: events →
      Safe (StateMachine.run (Watched.step libraries blake3) (.init w) front)
        (StateMachine.run (Watched.step libraries blake3) (.init w) (front ++ [e])) e := by
  intro front e hp
  obtain ⟨rest, rfl⟩ := hp
  obtain ⟨hf, -⟩ := StateMachine.meets_append.mp hlost
  obtain ⟨hb, hl, -⟩ := StateMachine.meets_append.mp hf
  have hs : ∀ s : Watched, ∀ e, Kept s → ¬ Lost s e → Kept (s.step libraries blake3 e) :=
    fun s e h hn => (h.step hn).1
  have hk := StateMachine.run_invariant hs (Kept.init hempty) hb
  rw [StateMachine.run_append]
  exact (hk.step hl).2

end Runs

def sampleLibraries : StoreLibraries := ⟨fun _ => none, some, fun _ => 0, fun _ => none, id, 32766⟩

def sampleUri : ContextUri := ⟨"t", ["t", "agent", "a", "memory", "item"], none, "uwu://t/agent/a/memory/item"⟩

def sampleKey : String := "uwu://t/agent/a/memory/item:Archive"

def sampleStores : Stores :=
  ⟨0, ∅, ((Content.SqliteTables.empty.write sampleLibraries (.newText sampleUri 0 "item" 5) 7).toOption.map
    Prod.snd).getD .empty, [], ∅, ∅, ∅⟩

/-- A call in which nothing fails, `n` seconds after the epoch. -/
def calm (n : ℕ) : Circumstances := ⟨seconds n, none, none⟩

def diskFull (n : ℕ) : Circumstances := ⟨seconds n, none, some (.storage "IO: No space left on device (os error 28)")⟩

def sampleEvents : List Event :=
  [.start (.submit 1 sampleUri .archive), .call 0 (calm 1), .call 0 (calm 1), .start .pending] ++
    List.replicate 11 (.call 1 (calm 2))

theorem journal_safe_sample :
    Safe (StateMachine.run (Watched.step sampleLibraries (fun _ => "")) (.init sampleStores) sampleEvents.dropLast)
      (StateMachine.run (Watched.step sampleLibraries (fun _ => "")) (.init sampleStores)
        (sampleEvents.dropLast ++ [.call 1 (calm 2)])) (.call 1 (calm 2)) := by
  have hc : ∀ e ∈ sampleEvents, ∀ s, ¬ Lost s e := by
    intro e he s hl
    have hw : ∀ i t, Event.call i t ∈ sampleEvents → t.unwritten = none := by
      intro i t hm
      simp only [sampleEvents, List.mem_append, List.mem_cons, List.mem_replicate, reduceCtorEq,
        Event.call.injEq, List.not_mem_nil, or_false, false_or, ne_eq, OfNat.ofNat_ne_zero,
          not_false_eq_true, true_and] at hm
      rcases hm with (⟨-, rfl⟩ | ⟨-, rfl⟩) | ⟨-, rfl⟩ <;> rfl
    cases e with
    | call i t =>
      obtain ⟨-, -, -, -, -, -, -, hu⟩ := hl
      exact hu (hw i t he)
    | start service => exact hl
    | crash i => exact hl
  exact journal_safe sampleLibraries (fun _ => "") sampleStores rfl sampleEvents (StateMachine.meets_of_mem hc _)
    sampleEvents.dropLast (.call 1 (calm 2)) ⟨[], rfl⟩

def takenOver : List Event :=
  sampleEvents ++ [.call 1 (diskFull 3), .start .pending] ++ List.replicate 4 (.call 2 (calm 40)) ++
    List.replicate 2 (.call 1 (calm 41))

def takenOverState : Watched := StateMachine.run (Watched.step sampleLibraries (fun _ => "")) (.init sampleStores) takenOver

def nextUpdate (s : Watched) (i : ℕ) : Option LifecycleJob :=
  match s.pool.workers[i]? with
  | some (some (.call (.update job) _), _) => some job
  | _ => none

theorem updates_of_nextUpdate {s : Watched} {i : ℕ} {job : LifecycleJob} (h : nextUpdate s i = some job) :
    Updates s i job := by
  unfold nextUpdate at h
  split at h
  · rename_i next made hw
    obtain rfl := Option.some.inj h
    exact ⟨next,made,hw⟩
  · cases h

/-- The worker whose claim was superseded changes the job. -/
theorem superseded_changes :
    ¬ Safe takenOverState (takenOverState.step sampleLibraries (fun _ => "") (.call 1 (calm 42))) (.call 1 (calm 42)) := by
  intro hs
  obtain ⟨hu, hb, ha, hc⟩ : (nextUpdate takenOverState 1).isSome = true ∧
      takenOverState.journal[sampleKey]?.map (·.state) = some .running ∧
      (takenOverState.step sampleLibraries (fun _ => "") (.call 1 (calm 42))).journal[sampleKey]?.map
        (·.state) = some .retryable ∧
      takenOverState.claimant sampleKey = some 2 := by decide +kernel
  obtain ⟨update, hu⟩ := Option.isSome_iff_exists.mp hu
  obtain ⟨job, hj, hr⟩ := Option.map_eq_some_iff.mp hb
  obtain ⟨job', hj', he⟩ := Option.map_eq_some_iff.mp ha
  have hn : job' ≠ job := by
    rintro rfl
    exact absurd (hr.symm.trans he) (by decide)
  rcases hs.claimed 1 (calm 42) update rfl
    (updates_of_nextUpdate hu) sampleKey job job' hj hj' hn with hm | ⟨c, rfl⟩
  · rw [hc] at hm
    exact absurd hm (by decide)
  · exact absurd (hr.symm.trans he) (by decide)

end UwuContextDb.Lifecycle
