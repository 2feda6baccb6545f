import UwuContextDb.Lifecycle.JournalSafety

/-! One job and the content that it deletes, while others write to the same store. -/

namespace UwuContextDb.Lifecycle

open Content (SqliteTables StoreLibraries)
open Content.SqliteTables (BatchWriteConfig)

def LifecycleJob.awaits (job : LifecycleJob) : Bool :=
  job.checkpoint.manifest && !job.checkpoint.content && !job.state.final

/-- How far a worker is with the content: it was given a job that awaits the deletion, as it was at a revision; it has read
the entry for a manifest; or the manifest is stored and the deletion is ahead. -/
inductive Stage
  | idle
  | given (revision : ℕ)
  | reads (entry : ContextEntry)
  | deletes

def Stage.next (uri : ContextUri) (stage : Stage) : (c : Call) → c.Reply → Stage
  | .claim .., .ok (some job) => if job.awaits then .given job.revision else .idle
  | .scanByPrefix .., .ok page => ((page.items.find? (fun e => e.uri = uri)).map .reads).getD .idle
  | .getBlob _, .error _ | .edgesFor _, .error _ | .getPoint _, .error _ | .putManifest .., .error _ => .idle
  | .putManifest .., .ok _ => .deletes
  | .delete _, .ok _ => .idle
  | .update job, (written, job') =>
    if job.leaseOwner = none then .idle else
      match written with
      | .ok _ => if job'.awaits then .deletes else .idle
      | .error _ => stage
  | _, _ => stage

def Stage.after (uri : ContextUri) (made : List ((c : Call) × c.Reply)) : Stage :=
  made.foldl (fun stage call => stage.next uri call.1 call.2) .idle

def Allows (uri : ContextUri) (key : String) (c : Call) (stage : Stage) : Prop :=
  match c with
  | .update job => job.idempotencyKey = key ∧ job.uri = uri ∧ (job.awaits = true → stage = .deletes ∨ stage = .given job.revision)
  | .delete target => target = uri ∧ stage = .deletes
  | .putManifest target manifest => target = key ∧ stage = .reads manifest.entry
  | .write _ | .upsert _ => False
  | _ => True

def Tells (uri : ContextUri) (key : String) (c : Call) (stage : Stage) (r : c.Reply) (stage' : Stage) : Prop :=
  stage' = stage.next uri c r ∧ match c, r with
    | .claim .., .ok (some job) =>
      job.idempotencyKey = key ∧ job.uri = uri ∧ job.leaseOwner ≠ none ∧ job.state.final = false
    | .update job, r => r.2 = job ∨ r.2 = job.bumped
    | _, _ => True

def Still : Call → Prop
  | .now | .recoverable _ | .getManifest _ | .removeEdge .. | .deletePoint _ | .deleteBlob _ => True
  | _ => False

section Programs

variable {uri : ContextUri} {key : String} {stage : Stage}

theorem still_keeps {α : Type} {p : Program α} (h : p.Only Still) (stage : Stage) :
    p.Keeps (Allows uri key) (Tells uri key) (fun _ stage' => stage' = stage) stage := by
  refine Prog.Only.keeps Still (fun c stage hc => ?_) (fun c stage r stage' hc hr => ?_) h stage
  · cases c <;> first | exact absurd hc id | trivial
  · cases c <;> first | exact absurd hc id | exact hr.1

theorem now_still : now.Only Still := .ask trivial

structure Handles (uri : ContextUri) (key : String) (job : LifecycleJob) (stage : Stage) : Prop where
  key : job.idempotencyKey = key
  uri : job.uri = uri
  awaits : job.awaits = true → stage = .deletes

structure Phased (uri : ContextUri) (key : String) (job : LifecycleJob) (stage : Stage) :
    Prop extends Handles uri key job stage where
  leased : job.leaseOwner ≠ none
  running : job.state = .running

def Passed (uri : ContextUri) (key : String) (after : LifecycleJob → Prop) (left : Except ContextError Unit × LifecycleJob)
    (stage : Stage) : Prop :=
  match left.1 with
  | .ok () => Phased uri key left.2 stage ∧ after left.2
  | .error _ => Phased uri key left.2 stage

variable {job : LifecycleJob} {after : LifecycleJob → Prop} {isSet : LifecycleCheckpoint → Bool}
  {set : LifecycleCheckpoint → LifecycleCheckpoint} {work : LifecycleJob → Fallible Unit}

theorem update_passes (h : Phased uri key job stage) (ha : after job) (hb : after job.bumped) :
    (update job).Keeps (Allows uri key) (Tells uri key) (Passed uri key after) stage := by
  refine ⟨⟨h.key,h.uri,fun hw => .inl (h.awaits hw)⟩,?_⟩
  rintro ⟨written,job'⟩ stage' ⟨rfl,hj'⟩
  have hs : (job'.idempotencyKey = key ∧ job'.uri = uri ∧ job'.awaits = job.awaits) ∧ job'.leaseOwner ≠ none ∧
      job'.state = .running ∧ after job' := by
    rcases hj' with rfl | rfl
    · exact ⟨⟨h.key,h.uri,rfl⟩,h.leased,h.running,ha⟩
    · exact ⟨⟨h.key,h.uri,rfl⟩,h.leased,h.running,hb⟩
  obtain ⟨⟨hk,hu,hw⟩,hl,hr,ha⟩ := hs
  cases written with
  | error e =>
    have hn : stage.next uri (.update job) (.error e, job') = stage := by simp [Stage.next,h.leased]
    rw [hn]
    exact ⟨⟨hk,hu,fun hj' => h.awaits (hw.symm.trans hj')⟩,hl,hr⟩
  | ok u =>
    have hn : stage.next uri (.update job) (.ok u, job') = if job'.awaits then .deletes else .idle := by
      simp [Stage.next,h.leased]
    rw [hn]
    exact ⟨⟨⟨hk,hu,fun hj' => if_pos hj'⟩,hl,hr⟩,ha⟩

theorem phase_passes (h : Phased uri key job stage) (hk : isSet job.checkpoint = true → after job)
    (hw : isSet job.checkpoint = false → (work job).run.Keeps (Allows uri key) (Tells uri key)
      (Prog.Outcome (fun _ stage' => Phased uri key { job with checkpoint := set job.checkpoint } stage')
        (fun _ stage' => Phased uri key job stage')) stage)
    (hs : ∀ n, after { job with checkpoint := set job.checkpoint, revision := n }) :
    (phase isSet set work job).Keeps (Allows uri key) (Tells uri key) (Passed uri key after) stage := by
  unfold phase
  cases hi : isSet job.checkpoint with
  | true => exact ⟨h,hk hi⟩
  | false =>
    refine Prog.Keeps.bind ((hw hi).mono (fun r stage' hr => ?_))
    cases r with
    | error e => exact hr
    | ok u => exact update_passes hr (hs _) (hs _)

theorem passed_andThen {first second : OnJob} {middle after : LifecycleJob → Prop}
    (h : (first job).Keeps (Allows uri key) (Tells uri key) (Passed uri key middle) stage)
    (hs : ∀ job stage, Phased uri key job stage → middle job →
      (second job).Keeps (Allows uri key) (Tells uri key) (Passed uri key after) stage) :
    (first.andThen second job).Keeps (Allows uri key) (Tells uri key) (Passed uri key after) stage := by
  refine Prog.Keeps.bind (h.mono (fun left stage' hl => ?_))
  obtain ⟨r,job'⟩ := left
  cases r with
  | ok u => exact hs job' stage' hl.1 hl.2
  | error e => exact hl

theorem awaits_of_running (hs : job.state = .running) :
    job.awaits = (job.checkpoint.manifest && !job.checkpoint.content) := by
  simp [LifecycleJob.awaits,hs,LifecycleJobState.final]

theorem readEntry_reads (stage : Stage) :
    (readEntry uri).run.Keeps (Allows uri key) (Tells uri key)
      (Prog.Outcome (fun entry stage' => stage' = .reads entry) (fun _ _ => True)) stage := by
  refine .andThen ⟨trivial,?_⟩
  rintro r stage' ⟨rfl,-⟩
  cases r with
  | error e => trivial
  | ok page =>
    show (entryOn uri page).run.Keeps _ _ _ _
    unfold entryOn
    cases hf : page.items.find? (fun e => e.uri = uri) with
    | none => trivial
    | some entry =>
      show Stage.next uri stage (.scanByPrefix uri.canonical (.new 1)) (.ok page) = .reads entry
      simp [Stage.next,hf]

theorem manifestWork_stores (hk : job.idempotencyKey = key) (hu : job.uri = uri) :
    (manifestWork job).run.Keeps (Allows uri key) (Tells uri key)
      (Prog.Outcome (fun _ stage' => stage' = .deletes) (fun _ _ => True)) stage := by
  subst hk hu
  refine .andThen ((readEntry_reads stage).mono (fun r stage' hr => ?_))
  cases r with
  | error e => trivial
  | ok entry =>
    obtain rfl : stage' = .reads entry := hr
    refine .andThen (.mapM (fun stage => stage = .reads entry) (fun _ _ => True) (fun blob _ stage hs => ?_)
      (fun blobs stage _ hs => ?_) rfl)
    · subst hs
      refine .andThen ⟨trivial,?_⟩
      rintro r stage' ⟨rfl,-⟩
      cases r with
      | error e => trivial
      | ok data => exact ⟨trivial,rfl⟩
    · subst hs
      refine .andThen ⟨trivial,?_⟩
      rintro r stage' ⟨rfl,-⟩
      cases r with
      | error e => trivial
      | ok edges =>
        refine .andThen ⟨trivial,?_⟩
        rintro r stage' ⟨rfl,-⟩
        cases r with
        | error e => trivial
        | ok vector =>
          refine .lift ⟨trivial,?_⟩
          rintro createdAt stage' ⟨rfl,-⟩
          refine ⟨⟨rfl,rfl⟩,?_⟩
          rintro r stage' ⟨rfl,-⟩
          cases r with
          | error e => trivial
          | ok u => rfl

theorem still_passes (hs : ∀ c, (set c).manifest = c.manifest ∧ (set c).content = c.content)
    (hw : (work job).run.Only Still) (h : Phased uri key job stage) (hm : job.checkpoint.manifest = true) :
    (phase isSet set work job).Keeps (Allows uri key) (Tells uri key)
    (Passed uri key (fun job => job.checkpoint.manifest = true)) stage := by
  refine phase_passes h (fun _ => hm) (fun _ => (still_keeps hw stage).mono (fun r stage' ht => ?_))
    (fun _ => (hs _).1.trans hm)
  subst ht
  cases r with
  | error e => exact h
  | ok u =>
    refine ⟨⟨h.key,h.uri,fun ha => h.awaits ?_⟩,h.leased,h.running⟩
    simpa only [LifecycleJob.awaits,hs] using ha

theorem manifestPhase_passes (h : Phased uri key job stage) :
    (manifestPhase job).Keeps (Allows uri key) (Tells uri key)
    (Passed uri key (fun job => job.checkpoint.manifest = true)) stage := by
  refine phase_passes h id (fun hu => ?_) (fun _ => rfl)
  refine (manifestWork_stores h.key h.uri).mono (fun r stage' hs => ?_)
  cases r with
  | error e =>
    exact ⟨⟨h.key,h.uri,fun ha => absurd ha (by simp [awaits_of_running h.running,hu])⟩,h.leased,h.running⟩
  | ok u => exact ⟨⟨h.key,h.uri,fun _ => hs⟩,h.leased,h.running⟩

theorem contentPhase_passes (h : Phased uri key job stage) (hm : job.checkpoint.manifest = true) :
    (contentPhase job).Keeps (Allows uri key) (Tells uri key)
    (Passed uri key (fun job => job.checkpoint.manifest = true)) stage := by
  refine phase_passes h (fun _ => hm) (fun hu => ?_) (fun _ => hm)
  have hs : stage = .deletes := h.awaits (by simp [awaits_of_running h.running,hm,hu])
  refine ⟨⟨h.uri,hs⟩,?_⟩
  rintro r stage' ⟨rfl,-⟩
  cases r with
  | error e => exact ⟨⟨h.key,h.uri,fun _ => hs⟩,h.leased,h.running⟩
  | ok u => exact ⟨⟨h.key,h.uri,fun ha => absurd ha (by simp [LifecycleJob.awaits])⟩,h.leased,h.running⟩

theorem executePhases_passes (h : Phased uri key job stage) :
    (executePhases job).Keeps (Allows uri key) (Tells uri key)
    (Passed uri key (fun job => job.checkpoint.manifest = true)) stage := by
  have hv : ∀ c : LifecycleCheckpoint, ({ c with vector := true } : LifecycleCheckpoint).manifest = c.manifest ∧
      ({ c with vector := true } : LifecycleCheckpoint).content = c.content := fun _ => ⟨rfl,rfl⟩
  have hg : ∀ c : LifecycleCheckpoint, ({ c with graph := true } : LifecycleCheckpoint).manifest = c.manifest ∧
      ({ c with graph := true } : LifecycleCheckpoint).content = c.content := fun _ => ⟨rfl,rfl⟩
  have hb : ∀ c : LifecycleCheckpoint, ({ c with blobs := true } : LifecycleCheckpoint).manifest = c.manifest ∧
      ({ c with blobs := true } : LifecycleCheckpoint).content = c.content := fun _ => ⟨rfl,rfl⟩
  refine passed_andThen (manifestPhase_passes h) (fun job stage h hm => ?_)
  refine passed_andThen (still_passes hv (.ask trivial) h hm) (fun job stage h hm => ?_)
  refine passed_andThen
    (still_passes hg (.andThen (.ask trivial) (fun _ => .forM (fun _ => .ask trivial) _)) h hm)
    (fun job stage h hm => ?_)
  refine passed_andThen (contentPhase_passes h hm) (fun job stage h hm => ?_)
  exact still_passes hb (.andThen (.ask trivial) (fun _ => .forM (fun _ => .ask trivial) _)) h hm

theorem concluded_passes {result : Except ContextError Unit} (h : Passed uri key after (result, job) stage) :
    (concluded result job).Keeps (Allows uri key) (Tells uri key)
    (fun job' stage' => Handles uri key job' stage') stage := by
  cases result with
  | ok u =>
    refine Prog.Keeps.bind ((still_keeps now_still stage).mono (fun at_ stage' he => ?_))
    subst he
    exact ⟨h.1.key,h.1.uri,
      fun ha => absurd ha (by simp [LifecycleJob.awaits,LifecycleJob.audited,LifecycleJobState.final])⟩
  | error e =>
    refine Prog.Keeps.bind ((still_keeps now_still stage).mono (fun next stage' he => ?_))
    subst he
    refine Prog.Keeps.bind ((still_keeps now_still stage').mono (fun at_ stage' he => ?_))
    subst he
    refine ⟨h.key,h.uri,fun ha => h.awaits ?_⟩
    have hf : (job.checkpoint.manifest && !job.checkpoint.content) = true := (Bool.and_eq_true_iff.mp ha).1
    rw [awaits_of_running h.running]
    exact hf

theorem execute_passes (hk : job.idempotencyKey = key) (hu : job.uri = uri)
    (hl : job.leaseOwner ≠ none) (ha : job.awaits = true → stage = .given job.revision)
    (hf : job.state.final = false) :
    (execute job).run.Keeps (Allows uri key) (Tells uri key) (fun _ _ => True) stage := by
  refine .lift ((still_keeps now_still stage).mono (fun at_ stage' he => ?_))
  subst he
  have hs : job.awaits = (job.checkpoint.manifest && !job.checkpoint.content) := by simp [LifecycleJob.awaits,hf]
  refine .lift ⟨⟨hk,hu,fun h => .inr (ha (hs.trans (Bool.and_eq_true_iff.mp h).1))⟩,?_⟩
  rintro ⟨written,job'⟩ stage'' ⟨rfl,hj'⟩
  cases written with
  | error e => trivial
  | ok u =>
    have hp : Phased uri key job' (stage'.next uri (.update
        ({ job with state := .running, attempts := job.attempts+1 }.audited at_ "attempt started")) (.ok u, job')) := by
      have hn : stage'.next uri (.update
          ({ job with state := .running, attempts := job.attempts+1 }.audited at_ "attempt started")) (.ok u, job') =
          if job'.awaits then .deletes else .idle := by simp [Stage.next,LifecycleJob.audited,hl]
      rw [hn]
      rcases hj' with rfl | rfl
      · exact ⟨⟨hk,hu,fun hj' => if_pos hj'⟩,hl,rfl⟩
      · exact ⟨⟨hk,hu,fun hj' => if_pos hj'⟩,hl,rfl⟩
    refine .lift ((executePhases_passes hp).mono ?_)
    rintro ⟨result,last⟩ stage'' hpa
    refine .lift ((concluded_passes hpa).mono (fun final stage'' hh => ?_))
    refine .lift ⟨⟨hh.key,hh.uri,fun h => .inl (hh.awaits h)⟩,?_⟩
    rintro ⟨written,final'⟩ stage'' -
    cases written <;> trivial

theorem attempt_passes (tgt : String) (owner : Uuid) (stage : Stage) :
    (attempt tgt owner).run.Keeps (Allows uri key) (Tells uri key) (fun _ _ => True) stage := by
  refine .lift ((still_keeps now_still stage).mono (fun at_ stage' he => ?_))
  subst he
  refine .andThen ⟨trivial,?_⟩
  rintro r stage'' ⟨rfl,hg⟩
  cases r with
  | error e => trivial
  | ok found =>
    cases found with
    | none => trivial
    | some job =>
      obtain ⟨hk,hu,hl,hf⟩ := hg
      refine .andThen ((execute_passes hk hu hl (fun ha => if_pos ha) hf).mono (fun r _ _ => ?_))
      cases r <;> trivial

theorem runPending_passes (owner : Uuid) (stage : Stage) :
    (runPending owner).run.Keeps (Allows uri key) (Tells uri key) (fun _ _ => True) stage := by
  refine .lift ((still_keeps now_still stage).mono (fun at_ stage' he => ?_))
  subst he
  refine .lift ((still_keeps (p := (Call.recoverable at_).ask) (.ask trivial) stage').mono (fun jobs stage'' he => ?_))
  subst he
  refine .andThen (.mapM (fun _ => True) (fun _ _ => True) (fun job _ stage _ => ?_) (fun _ _ _ _ => trivial) trivial)
  refine (attempt_passes _ owner stage).mono (fun r _ _ => ?_)
  cases r with
  | ok out => exact ⟨trivial,trivial⟩
  | error e => trivial

end Programs

def Saved (uri : ContextUri) (key : String) (w : Stores) : Prop :=
  ∃ m : ArchiveManifest, w.cold[key]? = some m ∧
    ∀ row : Content.CurrentRow, w.content.entries[uri.canonical]? = some row → row.entry = m.entry

structure ArchiveInv (uri : ContextUri) (key : String) (w : Stores) (known : ℕ → Stage) : Prop where
  named : w.content.Named
  journal : ∀ (other : String) (job : LifecycleJob), w.journal[other]? = some job →
    other = key ∧ job.idempotencyKey = key ∧ job.uri = uri
  awaits : ∀ job : LifecycleJob, w.journal[key]? = some job → job.awaits = true → Saved uri key w
  given : ∀ i revision, known i = .given revision → ∀ job : LifecycleJob, w.journal[key]? = some job →
    revision ≤ job.revision ∧ (job.revision = revision → job.awaits = true)
  reads : ∀ i entry, known i = .reads entry → ∀ row : Content.CurrentRow, w.content.entries[uri.canonical]? = some row →
    row.entry = entry
  deletes : ∀ i, known i = .deletes → Saved uri key w

section Invariant

variable {uri : ContextUri} {key : String} {w w' : Stores} {known : ℕ → Stage} {i : ℕ}

structure Untouched (uri : ContextUri) (key : String) (w w' : Stores) : Prop where
  named : w'.content.Named
  rows : ∀ row : Content.CurrentRow, w'.content.entries[uri.canonical]? = some row →
    w.content.entries[uri.canonical]? = some row
  cold : ∀ m, w.cold[key]? = some m → w'.cold[key]? = some m

theorem Saved.untouched (h : Saved uri key w) (hu : Untouched uri key w w') : Saved uri key w' := by
  obtain ⟨m,hm,hr⟩ := h
  exact ⟨m,hu.cold m hm,fun row ho => hr row (hu.rows row ho)⟩

theorem ArchiveInv.untouched (h : ArchiveInv uri key w known) (hu : Untouched uri key w w')
    (hj : w'.journal = w.journal) :
    ArchiveInv uri key w' known :=
  ⟨hu.named,hj ▸ h.journal,
    fun job ho ha => (h.awaits job (hj ▸ ho) ha).untouched hu,hj ▸ h.given,
      fun i e hi row hr => h.reads i e hi row (hu.rows row hr),
    fun i hi => (h.deletes i hi).untouched hu⟩

theorem ArchiveInv.stage (h : ArchiveInv uri key w known) {stage : Stage}
    (hg : ∀ revision, stage = .given revision → ∀ job : LifecycleJob, w.journal[key]? = some job →
      revision ≤ job.revision ∧ (job.revision = revision → job.awaits = true))
    (hr : ∀ e, stage = .reads e → ∀ row : Content.CurrentRow, w.content.entries[uri.canonical]? = some row →
      row.entry = e)
    (hd : stage = .deletes → Saved uri key w) : ArchiveInv uri key w (Function.update known i stage) := by
  have hc : ∀ j s, Function.update known i stage j = s → s = stage ∨ known j = s := by
    intro j s hs
    by_cases hj : j = i
    · rw [hj,Function.update_self] at hs
      exact .inl hs.symm
    · rw [Function.update_of_ne hj] at hs
      exact .inr hs
  refine ⟨h.named,h.journal,h.awaits,fun j revision hj => ?_,fun j e hj => ?_,fun j hj => ?_⟩
  · rcases hc j _ hj with hn | ho
    · exact hg revision hn.symm
    · exact h.given j revision ho
  · rcases hc j _ hj with hn | ho
    · exact hr e hn.symm
    · exact h.reads j e ho
  · rcases hc j _ hj with hn | ho
    · exact hd hn.symm
    · exact h.deletes j ho

theorem ArchiveInv.rest (h : ArchiveInv uri key w known) : ArchiveInv uri key w (Function.update known i .idle) :=
  h.stage (fun _ he => by cases he) (fun _ he => by cases he) (fun he => by cases he)

theorem ArchiveInv.revise (h : ArchiveInv uri key w known) {job : LifecycleJob}
    (hb : job.idempotencyKey = key ∧ job.uri = uri)
    (hl : ∀ cur : LifecycleJob, w.journal[key]? = some cur → cur.revision < job.revision)
    (hs : ∃ cur : LifecycleJob, w.journal[key]? = some cur)
    (ha : job.awaits = true → Saved uri key w) (hu : Untouched uri key w w')
    (hjo : w'.journal = w.journal.insert key job) : ArchiveInv uri key w' known := by
  have hg : ∀ (other : String) (cur : LifecycleJob), w'.journal[other]? = some cur →
      other = key ∧ cur = job ∨ w.journal[other]? = some cur ∧ other ≠ key := by
    intro other cur hc
    rw [hjo,Std.ExtTreeMap.getElem?_insert] at hc
    split at hc
    · rename_i hk
      exact .inl ⟨(Std.LawfulEqCmp.compare_eq_iff_eq.mp hk).symm,(Option.some.inj hc).symm⟩
    · rename_i hk
      exact .inr ⟨hc,fun he => hk (Std.LawfulEqCmp.compare_eq_iff_eq.mpr he.symm)⟩
  refine ⟨hu.named,fun other cur hc => ?_,fun cur hc hw => ?_,
    fun j revision hj cur hc => ?_,fun j e hj row hr => h.reads j e hj row (hu.rows row hr),
    fun j hj => (h.deletes j hj).untouched hu⟩
  · rcases hg other cur hc with ⟨rfl,rfl⟩ | ⟨ho,-⟩
    · exact ⟨rfl,hb⟩
    · exact h.journal other cur ho
  · rcases hg key cur hc with ⟨-,rfl⟩ | ⟨-,hn⟩
    · exact (ha hw).untouched hu
    · exact absurd rfl hn
  · rcases hg key cur hc with ⟨-,rfl⟩ | ⟨-,hn⟩
    · obtain ⟨old,ho⟩ := hs
      have hle := (h.given j revision hj old ho).1
      have ht := hl old ho
      exact ⟨by omega,fun he => absurd he (by omega)⟩
    · exact absurd rfl hn

end Invariant

section Calls

variable {libraries libs : StoreLibraries} {blake3 : List ℕ → ContentHash} {t : Circumstances} {uri : ContextUri} {key : String}
  {w : Stores} {known : ℕ → Stage} {i : ℕ}

def Aside : Call → Prop
  | .write _ | .delete _ | .putManifest .. => False
  | _ => True

theorem exec_aside {c : Call} (h : Aside c) :
    (exec libs blake3 c t w).2.content = w.content ∧ (exec libs blake3 c t w).2.cold = w.cold := by
  cases c <;> first | exact absurd h id | skip
  all_goals cases hf : t.fault <;> simp only [exec,hf]
  all_goals first | trivial | (split <;> first | trivial | (split <;> trivial))

theorem Untouched.of_same {w' : Stores} (hn : w.content.Named) (h : w'.content = w.content ∧ w'.cold = w.cold) :
    Untouched uri key w w' := ⟨h.1 ▸ hn,fun _ hr => h.1 ▸ hr,fun _ hm => h.2 ▸ hm⟩

theorem archive_aside (hi : ArchiveInv uri key w known) {c : Call} (ha : Aside c)
    (hj : (exec libs blake3 c t w).2.journal = w.journal)
    (hn : (known i).next uri c (exec libs blake3 c t w).1 = known i ∨
      (known i).next uri c (exec libs blake3 c t w).1 = .idle) :
    ArchiveInv uri key (exec libs blake3 c t w).2
      (Function.update known i ((known i).next uri c (exec libs blake3 c t w).1)) := by
  have hs := hi.untouched (.of_same hi.named (exec_aside ha)) hj
  rcases hn with he | he
  · rw [he,Function.update_eq_self]
    exact hs
  · rw [he]
    exact hs.rest

theorem exec_putManifest (manifest : ArchiveManifest) :
    (exec libs blake3 (.putManifest key manifest) t w).2.content = w.content ∧
      ((∃ e, (exec libs blake3 (.putManifest key manifest) t w).1 = .error e) ∧
          (exec libs blake3 (.putManifest key manifest) t w).2.cold = w.cold ∨
        (exec libs blake3 (.putManifest key manifest) t w).1 = .ok () ∧
          (exec libs blake3 (.putManifest key manifest) t w).2.cold[key]? = some manifest ∧
          ∀ m, w.cold[key]? = some m → m = manifest) := by
  cases hf : t.fault with
  | some e => exact ⟨by simp only [exec,hf], .inl ⟨⟨e,by simp only [exec,hf]; rfl⟩,by simp only [exec,hf]⟩⟩
  | none =>
    cases hc : w.cold[key]? with
    | none =>
      refine ⟨by simp only [exec,hf,hc], .inr ⟨by simp only [exec,hf,hc]; rfl,?_,fun m hm => by cases hm⟩⟩
      simp only [exec,hf,hc,Std.ExtTreeMap.getElem?_insert_self]
    | some existing =>
      by_cases he : existing = manifest
      · subst he
        refine ⟨by simp only [exec,hf,hc,if_true], .inr ⟨by simp only [exec,hf,hc,if_true]; rfl,?_,?_⟩⟩
        · simp only [exec,hf,hc,if_true]
        · exact fun m hm => (Option.some.inj hm).symm
      · refine ⟨by simp only [exec,hf,hc,if_neg he], .inl ⟨⟨_,by simp only [exec,hf,hc,if_neg he]; rfl⟩,?_⟩⟩
        simp only [exec,hf,hc,if_neg he]

theorem exec_delete (tgt : ContextUri) :
    (exec libs blake3 (.delete tgt) t w).2.cold = w.cold ∧
      ((∃ e, (exec libs blake3 (.delete tgt) t w).1 = .error e) ∧
          (exec libs blake3 (.delete tgt) t w).2.content = w.content ∨
        (exec libs blake3 (.delete tgt) t w).1 = .ok () ∧
          (exec libs blake3 (.delete tgt) t w).2.content.entries = w.content.entries.erase tgt.canonical) := by
  cases hf : t.fault with
  | some e => exact ⟨by simp only [exec,hf], .inl ⟨⟨e,by simp only [exec,hf]; rfl⟩,by simp only [exec,hf]⟩⟩
  | none =>
    cases hd : w.content.delete tgt (max w.clock t.now) with
    | error e =>
      exact ⟨by simp only [exec,hf,hd], .inl ⟨⟨e,by simp only [exec,hf,hd]; rfl⟩,by simp only [exec,hf,hd]⟩⟩
    | ok deleted =>
      obtain ⟨⟨⟩,content⟩ := deleted
      refine ⟨by simp only [exec,hf,hd], .inr ⟨by simp only [exec,hf,hd]; rfl,?_⟩⟩
      simp only [exec,hf,hd]
      exact (Content.SqliteTables.delete_ok hd).entries

theorem archive_scan (hi : ArchiveInv uri key w known) (pre : String) (page : Retrieve.PageRequest) :
    ArchiveInv uri key (exec libs blake3 (.scanByPrefix pre page) t w).2 (Function.update known i
      ((known i).next uri (.scanByPrefix pre page)
        (exec libs blake3 (.scanByPrefix pre page) t w).1)) := by
  have hs := hi.untouched
    (.of_same hi.named (@exec_aside libs blake3 t w (.scanByPrefix pre page) trivial))
    (exec_quiet trivial)
  cases he : (exec libs blake3 (.scanByPrefix pre page) t w).1 with
  | error e =>
    show ArchiveInv uri key _ (Function.update known i (known i))
    rw [Function.update_eq_self]
    exact hs
  | ok found =>
    have hc : w.content.scanByPrefix pre page = .ok found := by
      cases hf : t.fault with
      | some e =>
        simp only [exec,hf] at he
        cases he
      | none =>
        simp only [exec,hf] at he
        exact he
    cases hn : found.items.find? (fun e => e.uri = uri) with
    | none =>
      have hx : (known i).next uri (.scanByPrefix pre page) (.ok found) = .idle := by simp [Stage.next,hn]
      rw [hx]
      exact hs.rest
    | some entry =>
      have hx : (known i).next uri (.scanByPrefix pre page) (.ok found) = .reads entry := by
        simp [Stage.next,hn]
      rw [hx]
      refine hs.stage (fun _ hq => by cases hq) (fun entry' hq row hr => ?_) (fun hq => by cases hq)
      cases hq
      have hu : entry.uri = uri := by simpa using List.find?_some hn
      obtain ⟨row',hr',rfl⟩ := hi.named.found_of_scan hc (List.mem_of_find?_eq_some hn)
      rw [(exec_aside (c := .scanByPrefix pre page) trivial).1,← hu,hr'] at hr
      rw [Option.some.inj hr]

theorem archive_putManifest (hi : ArchiveInv uri key w known) {manifest : ArchiveManifest}
    (ha : known i = .reads manifest.entry) :
    ArchiveInv uri key (exec libs blake3 (.putManifest key manifest) t w).2 (Function.update known i
      ((known i).next uri (.putManifest key manifest) (exec libs blake3 (.putManifest key manifest) t w).1)) := by
  have hj : (exec libs blake3 (.putManifest key manifest) t w).2.journal = w.journal := exec_quiet trivial
  obtain ⟨hc,⟨⟨e,hr⟩,hl⟩ | ⟨hr,hs,hd⟩⟩ := @exec_putManifest libs blake3 t key w manifest
  · rw [hr]
    exact (hi.untouched (.of_same hi.named ⟨hc,hl⟩) hj).rest
  · rw [hr]
    have hu : Untouched uri key w (exec libs blake3 (.putManifest key manifest) t w).2 := by
      refine ⟨hc ▸ hi.named,fun row ho => hc ▸ ho,fun m hm => ?_⟩
      rw [hd m hm]
      exact hs
    refine (hi.untouched hu hj).stage (fun _ he => by cases he) (fun _ he => by cases he) (fun _ => ?_)
    exact ⟨manifest,hs,fun row ho => hi.reads i _ ha row (hu.rows row ho)⟩

theorem archive_delete (hi : ArchiveInv uri key w known) :
    ArchiveInv uri key (exec libs blake3 (.delete uri) t w).2 (Function.update known i
      ((known i).next uri (.delete uri) (exec libs blake3 (.delete uri) t w).1)) := by
  have hj : (exec libs blake3 (.delete uri) t w).2.journal = w.journal := exec_quiet trivial
  obtain ⟨hc,⟨⟨e,hr⟩,hn⟩ | ⟨hr,he⟩⟩ := @exec_delete libs blake3 t w uri
  · rw [hr]
    show ArchiveInv uri key _ (Function.update known i (known i))
    rw [Function.update_eq_self]
    exact hi.untouched (.of_same hi.named ⟨hn,hc⟩) hj
  · rw [hr]
    refine (hi.untouched ⟨hi.named.erase he,fun row ho => ?_,fun m hm => hc.symm ▸ hm⟩ hj).rest
    rw [he,Std.ExtTreeMap.getElem?_erase] at ho
    simp at ho

theorem archive_claim (hi : ArchiveInv uri key w known) (tgt : String) (owner : Uuid) (now : DateTime) :
    Tells uri key (.claim tgt owner now) (known i) (exec libs blake3 (.claim tgt owner now) t w).1
        ((known i).next uri (.claim tgt owner now) (exec libs blake3 (.claim tgt owner now) t w).1) ∧
      ArchiveInv uri key (exec libs blake3 (.claim tgt owner now) t w).2 (Function.update known i
        ((known i).next uri (.claim tgt owner now) (exec libs blake3 (.claim tgt owner now) t w).1)) := by
  have hu : Untouched uri key w (exec libs blake3 (.claim tgt owner now) t w).2 :=
    .of_same hi.named (exec_aside (c := .claim tgt owner now) trivial)
  rcases @exec_claim libs blake3 t w tgt owner now with ⟨hf,hj⟩ | ⟨job,ho,hl,hr,hj⟩
  · have hn : Tells uri key (.claim tgt owner now) (known i)
        (exec libs blake3 (.claim tgt owner now) t w).1 (known i) := by
      rcases hf with ⟨e,hr⟩ | hr <;> rw [hr] <;> exact ⟨rfl,trivial⟩
    rw [← hn.1,Function.update_eq_self]
    exact ⟨hn,hi.untouched hu hj⟩
  · obtain ⟨rfl,hk,hur⟩ := hi.journal tgt job ho
    have hfi : job.state.final = false := by
      unfold LifecycleJob.claimable at hl
      simp only [Bool.and_eq_true,Bool.not_eq_true'] at hl
      exact hl.1.2
    rw [hr]
    have hv : ArchiveInv uri tgt (exec libs blake3 (.claim tgt owner now) t w).2 known := by
      have ha : ∀ cur : LifecycleJob, w.journal[tgt]? = some cur →
          cur.revision < (job.leased owner now).revision := by
        intro cur hc
        obtain rfl := Option.some.inj (ho.symm.trans hc)
        exact Nat.lt_succ_self _
      have hs : (job.leased owner now).idempotencyKey = tgt ∧ (job.leased owner now).uri = uri := ⟨hk,hur⟩
      exact hi.revise hs ha ⟨job,ho⟩ (hi.awaits job ho) hu hj
    refine ⟨⟨rfl,hk,hur,by simp [LifecycleJob.leased],hfi⟩,?_⟩
    show ArchiveInv uri tgt _ (Function.update known i (if (job.leased owner now).awaits then
      Stage.given (job.leased owner now).revision else .idle))
    split
    · rename_i hw
      refine hv.stage (fun revision he cur hc => ?_) (fun _ he => by cases he) (fun he => by cases he)
      cases he
      rw [hj,Std.ExtTreeMap.getElem?_insert_self] at hc
      obtain rfl := Option.some.inj hc
      exact ⟨le_refl _,fun _ => hw⟩
    · exact hv.rest

theorem archive_unwritten (hi : ArchiveInv uri key w known) {job job' : LifecycleJob} {e : ContextError}
    (hr : (exec libs blake3 (.update job) t w).1 = (.error e, job'))
    (hj : (exec libs blake3 (.update job) t w).2.journal = w.journal) :
    ArchiveInv uri key (exec libs blake3 (.update job) t w).2 (Function.update known i
      ((known i).next uri (.update job) (exec libs blake3 (.update job) t w).1)) := by
  refine archive_aside hi trivial hj ?_
  rw [hr]
  by_cases ho : job.leaseOwner = none
  · exact .inr (by simp [Stage.next,ho])
  · exact .inl (by simp [Stage.next,ho])

theorem archive_update (hi : ArchiveInv uri key w known) {job : LifecycleJob}
    (hl : Allows uri key (.update job) (known i)) :
    Tells uri key (.update job) (known i) (exec libs blake3 (.update job) t w).1
        ((known i).next uri (.update job) (exec libs blake3 (.update job) t w).1) ∧
      ArchiveInv uri key (exec libs blake3 (.update job) t w).2 (Function.update known i
        ((known i).next uri (.update job) (exec libs blake3 (.update job) t w).1)) := by
  obtain ⟨rfl,hu,hs⟩ := hl
  rcases @exec_update libs blake3 t w job with ⟨e,hr,hj⟩ | ⟨cur,hc,hv,-,hw⟩
  · exact ⟨⟨rfl, .inl (by rw [hr])⟩,archive_unwritten hi hr hj⟩
  · rcases hw with ⟨-,hr,hj⟩ | ⟨e,-,hr,hj⟩
    · refine ⟨⟨rfl, .inr (by rw [hr])⟩,?_⟩
      have hsa : job.bumped.awaits = true → Saved uri job.idempotencyKey w := by
        intro ha
        rcases hs ha with hd | hg
        · exact hi.deletes i hd
        · exact hi.awaits cur hc ((hi.given i _ hg cur hc).2 hv)
      have he : ArchiveInv uri job.idempotencyKey (exec libs blake3 (.update job) t w).2 known := by
        have ht : ∀ stored : LifecycleJob, w.journal[job.idempotencyKey]? = some stored →
            stored.revision < job.bumped.revision := by
          intro stored hst
          obtain rfl := Option.some.inj (hc.symm.trans hst)
          exact hv ▸ Nat.lt_succ_self _
        have hm : job.bumped.idempotencyKey = job.idempotencyKey ∧ job.bumped.uri = uri := ⟨rfl,hu⟩
        exact hi.revise hm ht ⟨cur,hc⟩ hsa
          (.of_same hi.named (exec_aside (c := .update job) trivial)) hj
      rw [hr]
      by_cases ho : job.leaseOwner = none
      · have hn : (known i).next uri (.update job) (.ok (), job.bumped) = .idle := by simp [Stage.next,ho]
        rw [hn]
        exact he.rest
      · have hn : (known i).next uri (.update job) (.ok (), job.bumped) =
            if job.bumped.awaits then .deletes else .idle := by
          simp [Stage.next,ho]
        rw [hn]
        split
        · rename_i ha
          refine he.stage (fun _ hq => by cases hq) (fun _ hq => by cases hq) (fun _ => ?_)
          exact he.awaits job.bumped (by rw [hj,Std.ExtTreeMap.getElem?_insert_self]) ha
        · exact he.rest
    · exact ⟨⟨rfl, .inr (by rw [hr])⟩,archive_unwritten hi hr hj⟩

theorem archive_call (hi : ArchiveInv uri key w known) {c : Call} (ha : Allows uri key c (known i)) :
    Tells uri key c (known i) (exec libs blake3 c t w).1 ((known i).next uri c (exec libs blake3 c t w).1) ∧
      ArchiveInv uri key (exec libs blake3 c t w).2
        (Function.update known i ((known i).next uri c (exec libs blake3 c t w).1)) := by
  cases c with
  | update job => exact archive_update hi ha
  | claim tgt owner now => exact archive_claim hi tgt owner now
  | scanByPrefix pre page => exact ⟨⟨rfl,trivial⟩,archive_scan hi pre page⟩
  | putManifest tgt manifest =>
    obtain ⟨rfl,hr⟩ := ha
    exact ⟨⟨rfl,trivial⟩,archive_putManifest hi hr⟩
  | delete tgt =>
    obtain ⟨rfl,-⟩ := ha
    exact ⟨⟨rfl,trivial⟩,archive_delete hi⟩
  | write e => exact absurd ha id
  | upsert job => exact absurd ha id
  | getJob other => exact ⟨⟨rfl,trivial⟩,archive_aside hi trivial (exec_getJob other).2 (.inl rfl)⟩
  | getBlob blob =>
    refine ⟨⟨rfl,trivial⟩,archive_aside hi trivial (exec_quiet trivial) ?_⟩
    cases (exec libs blake3 (.getBlob blob) t w).1 <;> first | exact .inl rfl | exact .inr rfl
  | edgesFor tgt =>
    refine ⟨⟨rfl,trivial⟩,archive_aside hi trivial (exec_quiet trivial) ?_⟩
    cases (exec libs blake3 (.edgesFor tgt) t w).1 <;> first | exact .inl rfl | exact .inr rfl
  | getPoint tgt =>
    refine ⟨⟨rfl,trivial⟩,archive_aside hi trivial (exec_quiet trivial) ?_⟩
    cases (exec libs blake3 (.getPoint tgt) t w).1 <;> first | exact .inl rfl | exact .inr rfl
  | _ => exact ⟨⟨rfl,trivial⟩,archive_aside hi trivial (exec_quiet trivial) (.inl rfl)⟩

theorem row_call (hi : ArchiveInv uri key w known) {c : Call} (ha : Allows uri key c (known i))
    {row : Content.CurrentRow} (hr : w.content.entries[uri.canonical]? = some row) :
    (exec libs blake3 c t w).2.content.entries[uri.canonical]? = some row ∨
      (exec libs blake3 c t w).2.content.entries[uri.canonical]? = none ∧
        ∃ m : ArchiveManifest, (exec libs blake3 c t w).2.cold[key]? = some m ∧ m.entry = row.entry := by
  by_cases hs : Aside c
  · rw [(exec_aside hs).1]
    exact .inl hr
  · cases c with
    | putManifest tgt manifest =>
      obtain ⟨rfl,-⟩ := ha
      rw [(exec_putManifest manifest).1]
      exact .inl hr
    | delete tgt =>
      obtain ⟨rfl,ht⟩ := ha
      obtain ⟨hc,⟨-,ho⟩ | ⟨-,he⟩⟩ := @exec_delete libs blake3 t w tgt
      · rw [ho]
        exact .inl hr
      · obtain ⟨m,hm,hw⟩ := hi.deletes i ht
        refine .inr ⟨?_,m,hc.symm ▸ hm,(hw row hr).symm⟩
        rw [he,Std.ExtTreeMap.getElem?_erase_self]
    | write e => exact absurd ha id
    | _ => exact absurd trivial hs

end Calls

inductive ArchiveEvent
  | start
  | call (i : ℕ) (t : Circumstances)
  | crash (i : ℕ)
  | outside (op : SqliteTables.Op)

abbrev Archivers := Pool Call Call.Reply (Except ContextError (List LifecycleJob)) Stores

def ArchiveEvent.ofPool : ArchiveEvent →
    Pool.Event Call Call.Reply (Except ContextError (List LifecycleJob)) Circumstances SqliteTables.Op
  | .start => .start (fun i => (runPending i).run)
  | .call i t => .call i t
  | .crash i => .crash i
  | .outside op => .outside op

section Runs

variable (libraries libs : StoreLibraries) (blake3 : List ℕ → ContentHash) (config : BatchWriteConfig)
    (uri : ContextUri) (key : String)

def Stores.changed (w : Stores) (op : SqliteTables.Op) : Stores := { w with content := w.content.step libraries config op }

def archiveStep (s : Archivers) (e : ArchiveEvent) : Archivers :=
  s.step (exec libraries blake3) (Stores.changed libraries config) e.ofPool

def stageOf (s : Archivers) (i : ℕ) : Stage :=
  match s.workers[i]? with
  | some (some _, made) => .after uri made
  | _ => .idle

def Due (s : Archivers) : Prop :=
  (∃ i, stageOf uri s i = .deletes ∨ ∃ entry, stageOf uri s i = .reads entry) ∨
    ∃ job : LifecycleJob, s.world.journal[key]? = some job ∧ job.awaits = true

def Overtakes (s : Archivers) : ArchiveEvent → Prop
  | .outside op => Due uri key s ∧ ∃ row : Content.CurrentRow,
      (s.world.changed libraries config op).content.entries[uri.canonical]? = some row ∧
        s.world.content.entries[uri.canonical]? ≠ some row
  | _ => False

def Spared (w w' : Stores) (e : ArchiveEvent) : Prop :=
  ∀ row : Content.CurrentRow, w.content.entries[uri.canonical]? = some row →
    w'.content.entries[uri.canonical]? = some row ∨ (∃ op, e = .outside op) ∨
      w'.content.entries[uri.canonical]? = none ∧ ∃ m : ArchiveManifest, w'.cold[key]? = some m ∧ m.entry = row.entry

def SoundArchivers (s : Archivers) : Prop :=
  s.Sound (fun _ => Allows uri key) (Tells uri key) (fun _ _ => True) (fun made stage => stage = .after uri made) .idle
    (ArchiveInv uri key)

variable {libraries libs blake3 config uri key} {s : Archivers}

theorem SoundArchivers.outside (h : SoundArchivers uri key s) {op : SqliteTables.Op}
    (ho : ¬ Overtakes libs config uri key s (.outside op)) :
    SoundArchivers uri key (archiveStep libs blake3 config s (.outside op)) := by
  refine Pool.Sound.outside h (fun known hma hl hn => ?_)
  have hs : ∀ i, known i = stageOf uri s i := by
    intro i
    unfold stageOf
    split
    · rename_i p made hw
      exact hma i p made hw
    · rename_i hno
      exact hl i hno
  have ha : (s.world.changed libs config op).content.Named := hn.named.step config op
  by_cases he : ∃ row :
    Content.CurrentRow, (s.world.changed libs config op).content.entries[uri.canonical]? = some row ∧
      s.world.content.entries[uri.canonical]? ≠ some row
  · have hd : ¬ Due uri key s := fun hd => ho ⟨hd,he⟩
    refine ⟨ha,hn.journal,fun job hj haw => absurd (.inr ⟨job,hj,haw⟩) hd,hn.given,
      fun i e hi => absurd (.inl ⟨i, .inr ⟨e,(hs i).symm.trans hi⟩⟩) hd,
      fun i hi => absurd (.inl ⟨i, .inl ((hs i).symm.trans hi)⟩) hd⟩
  · refine hn.untouched ⟨ha,fun row hr => ?_,fun m hm => hm⟩ rfl
    by_contra hne
    exact he ⟨row,hr,hne⟩

theorem SoundArchivers.step (h : SoundArchivers uri key s) {e : ArchiveEvent}
    (ho : ¬ Overtakes libs config uri key s e) :
    SoundArchivers uri key (archiveStep libs blake3 config s e) := by
  cases e with
  | start => exact Pool.Sound.start h (runPending_passes _ _) rfl
  | crash i => exact Pool.Sound.crash h (fun known hi => hi.rest)
  | outside op => exact h.outside ho
  | call i t =>
    refine Pool.Sound.call h (fun known c next made _ _ hi ha => ⟨_,archive_call hi ha⟩) ?_
    intro made c stage r stage' hm ht
    rw [Stage.after,List.foldl_concat,ht.1,hm]
    rfl

theorem SoundArchivers.spared (h : SoundArchivers uri key s) (e : ArchiveEvent) :
    Spared uri key s.world (archiveStep libs blake3 config s e).world e := by
  intro row hr
  cases e with
  | start => exact .inl hr
  | crash i => exact .inl hr
  | outside op => exact .inr (.inl ⟨op,rfl⟩)
  | call i t =>
    show (s.work (exec libs blake3) i t).world.content.entries[uri.canonical]? = some row ∨ _ ∨
      (s.work (exec libs blake3) i t).world.content.entries[uri.canonical]? = none ∧
        ∃ m : ArchiveManifest, (s.work (exec libs blake3) i t).world.cold[key]? = some m ∧ m.entry = row.entry
    unfold Pool.work
    split
    · rename_i c next made hw
      obtain ⟨known,hi,-,hk⟩ := h
      rcases row_call hi (hk i _ made hw).1.1 hr with hs | hg
      · exact .inl hs
      · exact .inr (.inr hg)
    · exact .inl hr

theorem soundArchivers_init {id : Uuid} {operation : LifecycleOperation} {submitted : DateTime} {w : Stores}
    (ho : w.journal = (∅ : Std.ExtTreeMap String LifecycleJob).insert
      (newJob id uri operation submitted).idempotencyKey (newJob id uri operation submitted))
      (hc : w.content = .empty) :
    SoundArchivers uri (newJob id uri operation submitted).idempotencyKey ⟨w,[]⟩ := by
  have hg : ∀ (other : String) (job : LifecycleJob), w.journal[other]? = some job →
      other = (newJob id uri operation submitted).idempotencyKey ∧ job = newJob id uri operation submitted := by
    intro other job hj
    rw [ho,Std.ExtTreeMap.getElem?_insert] at hj
    split at hj
    · rename_i hk
      exact ⟨(Std.LawfulEqCmp.compare_eq_iff_eq.mp hk).symm,(Option.some.inj hj).symm⟩
    · simp at hj
  refine ⟨fun _ => .idle,⟨?_,fun other job hj => ?_,fun job hj ha => ?_,?_,?_,?_⟩,fun _ _ => rfl,?_⟩
  · show w.content.Named
    rw [hc]
    exact Content.SqliteTables.named_empty
  · obtain ⟨rfl,rfl⟩ := hg other job hj
    exact ⟨rfl,rfl,rfl⟩
  · obtain ⟨-,rfl⟩ := hg _ job hj
    cases ha
  · exact fun _ _ he => by cases he
  · exact fun _ _ he => by cases he
  · exact fun _ he => by cases he
  · intro i p made hw
    simp at hw

/-- What the job deletes is in its manifest, in every run in which no one gives the URI a new row while the deletion is
due. -/
theorem archive_spares (libraries : StoreLibraries) (blake3 : List ℕ → ContentHash) (config : BatchWriteConfig) (id : Uuid)
    (uri : ContextUri) (operation : LifecycleOperation) (submitted : DateTime) (w : Stores)
    (hjournal : w.journal = (∅ : Std.ExtTreeMap String LifecycleJob).insert
      (newJob id uri operation submitted).idempotencyKey (newJob id uri operation submitted))
      (hcontent : w.content = .empty) (events : List ArchiveEvent)
      (hevents : StateMachine.Meets (archiveStep libraries blake3 config)
      (fun s e => ¬ Overtakes libraries config uri (newJob id uri operation submitted).idempotencyKey s e) ⟨w, []⟩ events) :
    ∀ front e, front ++ [e] <+: events →
      Spared uri (newJob id uri operation submitted).idempotencyKey
        (StateMachine.run (archiveStep libraries blake3 config) ⟨w, []⟩ front).world
        (StateMachine.run (archiveStep libraries blake3 config) ⟨w, []⟩ (front ++ [e])).world e := by
  intro front e hp
  obtain ⟨rest, rfl⟩ := hp
  obtain ⟨hf, -⟩ := StateMachine.meets_append.mp hevents
  obtain ⟨hb, -⟩ := StateMachine.meets_append.mp hf
  have hs : ∀ s : Archivers, ∀ e, SoundArchivers uri (newJob id uri operation submitted).idempotencyKey s →
      ¬ Overtakes libraries config uri (newJob id uri operation submitted).idempotencyKey s e →
      SoundArchivers uri (newJob id uri operation submitted).idempotencyKey (archiveStep libraries blake3 config s e) :=
    fun s e h hn => h.step hn
  have ho := StateMachine.run_invariant hs (soundArchivers_init hjournal hcontent) hb
  rw [StateMachine.run_append]
  exact ho.spared e

end Runs

def pendingStores : Stores :=
  ⟨0, (∅ : Std.ExtTreeMap String LifecycleJob).insert (newJob 1 sampleUri .archive 0).idempotencyKey
    (newJob 1 sampleUri .archive 0), .empty, [], ∅, ∅, ∅⟩

def archivedEvents : List ArchiveEvent :=
  [.outside (.write (.newText sampleUri 0 "item" 5) 7), .start] ++ List.replicate 22 (.call 0 (calm 2))

theorem archive_spares_sample :
    Spared sampleUri (newJob 1 sampleUri .archive 0).idempotencyKey
      (StateMachine.run (archiveStep sampleLibraries (fun _ => "") .standard) ⟨pendingStores, []⟩
        (archivedEvents.take 18)).world
      (StateMachine.run (archiveStep sampleLibraries (fun _ => "") .standard) ⟨pendingStores, []⟩
        (archivedEvents.take 18 ++ [.call 0 (calm 2)])).world (.call 0 (calm 2)) := by
  refine archive_spares sampleLibraries
    (fun _ => "") .standard 1 sampleUri .archive 0 pendingStores rfl rfl archivedEvents ⟨?_, ?_⟩
    (archivedEvents.take 18) (.call 0 (calm 2)) ⟨archivedEvents.drop 19, rfl⟩
  · rintro ⟨⟨i, hi⟩ | ⟨job, hj, ha⟩, -⟩
    · have hd : stageOf sampleUri (⟨pendingStores, []⟩ : Archivers) i = .idle := by simp [stageOf]
      rcases hi with hi | ⟨entry, hi⟩ <;> exact absurd (hd.symm.trans hi) (by simp)
    · have hn : (⟨pendingStores, []⟩ : Archivers).world.journal[(newJob 1 sampleUri .archive 0).idempotencyKey]? =
          some (newJob 1 sampleUri .archive 0) := Std.ExtTreeMap.getElem?_insert_self
      obtain rfl := Option.some.inj (hn.symm.trans hj)
      cases ha
  · refine StateMachine.meets_of_mem (fun e he s ho => ?_) _
    rcases List.mem_append.mp he with hs | hc
    · rw [List.mem_singleton.mp hs] at ho
      exact ho
    · rw [(List.mem_replicate.mp hc).2] at ho
      exact ho

def overtakenEvents : List ArchiveEvent :=
  archivedEvents.take 18 ++ [.outside (.write (.newText sampleUri 0 "new text" 5) 9)]

def overtakenState : Archivers :=
  StateMachine.run (archiveStep sampleLibraries (fun _ => "") .standard) ⟨pendingStores, []⟩ overtakenEvents

/-- What was written is deleted, and the manifest has the old entry. -/
theorem overtaken_deletes : ¬ Spared sampleUri (newJob 1 sampleUri .archive 0).idempotencyKey overtakenState.world
    (archiveStep sampleLibraries (fun _ => "") .standard overtakenState (.call 0 (calm 2))).world (.call 0 (calm 2)) := by
  intro hs
  obtain ⟨ht, hg, ho⟩ : (overtakenState.world.content.entries[sampleUri.canonical]?).isSome = true ∧
      ((archiveStep sampleLibraries (fun _ => "") .standard overtakenState (.call 0 (calm 2))).world.content.entries[
        sampleUri.canonical]?).isNone = true ∧
      ((archiveStep sampleLibraries (fun _ => "") .standard overtakenState (.call 0 (calm 2))).world.cold[
        (newJob 1 sampleUri .archive 0).idempotencyKey]?).map (·.entry) ≠
        (overtakenState.world.content.entries[sampleUri.canonical]?).map (·.entry) := by decide +kernel
  obtain ⟨row, hr⟩ := Option.isSome_iff_exists.mp ht
  rcases hs row hr with ha | ⟨op, hp⟩ | ⟨-, m, hm, he⟩
  · rw [ha] at hg
    cases hg
  · cases hp
  · refine ho ?_
    rw [hm, hr]
    exact congrArg some he

end UwuContextDb.Lifecycle
