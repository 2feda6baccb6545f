import UwuContextDb.Lifecycle.Executor

/-! What the programs of the executor may do to the journal, from the job that each holds. -/

namespace UwuContextDb.Lifecycle

open Content (StoreLibraries)

/-- The checkpoint with its first `n` flags set. -/
def LifecycleCheckpoint.upTo (n : ℕ) : LifecycleCheckpoint :=
  ⟨decide (0 < n), decide (1 < n), decide (2 < n), decide (3 < n), decide (4 < n)⟩

def LifecycleCheckpoint.Follows (c c' : LifecycleCheckpoint) : Prop := c' = c ∨ ∃ n, c = upTo n ∧ c' = upTo (n + 1)

theorem LifecycleCheckpoint.upTo_of_le {n : ℕ} (h : 5 ≤ n) : upTo n = upTo 5 := by
  have h0 : 0 < n := by omega
  have h1 : 1 < n := by omega
  have h2 : 2 < n := by omega
  have h3 : 3 < n := by omega
  have h4 : 4 < n := by omega
  simp [upTo,h0,h1,h2,h3,h4]

open LifecycleCheckpoint (upTo upTo_of_le Follows)

def LifecycleJob.bumped (job : LifecycleJob) : LifecycleJob := { job with revision := job.revision + 1 }

/-- An update that the executor of the worker `i` makes of the job that it holds. -/
structure Works (i : ℕ) (held job : LifecycleJob) : Prop where
  owner : held.leaseOwner = some i
  key : job.idempotencyKey = held.idempotencyKey
  revision : job.revision = held.revision
  follows : Follows held.checkpoint job.checkpoint
  lease : job.leaseOwner = some i ∧ job.state = .running ∨ job.leaseOwner = none
  complete : job.state = .succeeded → job.checkpoint = upTo 5

def Restores (held job : LifecycleJob) : Prop := ∃ c, job = { held with restoreCheckpoint := c }

def May (i : ℕ) (c : Call) (held : Option LifecycleJob) : Prop :=
  match c with
  | .update job => ∃ h, held = some h ∧ (Works i h job ∨ Restores h job)
  | .claim _ owner _ => owner = i
  | .upsert job => ∃ id uri operation now, job = newJob id uri operation now
  | _ => True

/-- What a worker holds after a reply. An update that was not written, though the job has its new revision, leaves nothing
to hold, and sets no flag. -/
def Learns : (c : Call) → Option LifecycleJob → c.Reply → Option LifecycleJob → Prop
  | .update job, held, r, held' =>
    (∃ u, r = (.ok u, job.bumped) ∧ held' = some job.bumped) ∨
      (∃ e, r = (.error e, job) ∧ held' = held) ∨
      (∃ e, r = (.error e, job.bumped) ∧ held' = none ∧ ∃ h, held = some h ∧ job.checkpoint = h.checkpoint)
  | .claim _ owner _, held, r, held' =>
    (∃ job, r = .ok (some job) ∧ held' = some job ∧ job.leaseOwner = some owner ∧ ∃ n, job.checkpoint = upTo n) ∨
      (r = .ok none ∧ held' = held) ∨ ∃ e, r = .error e ∧ held' = held
  | .getJob _, held, r, held' => (∃ job, r = some job ∧ held' = some job) ∨ (r = none ∧ held' = held)
  | _, held, _, held' => held' = held

def Quiet : Call → Prop
  | .update _ | .claim .. | .upsert _ | .getJob _ => False
  | _ => True

theorem may_of_quiet {i : ℕ} {c : Call} {held : Option LifecycleJob} (h : Quiet c) : May i c held := by
  cases c <;> first | exact absurd h id | trivial

theorem learns_of_quiet {c : Call} {held held' : Option LifecycleJob} {r : c.Reply} (h : Quiet c)
    (hr : Learns c held r held') :
    held' = held := by
  cases c <;> first | exact absurd h id | exact hr

section Programs

variable {i : ℕ} {held : Option LifecycleJob}

theorem quiet_keeps {α : Type} {p : Program α} (h : p.Only Quiet) (held : Option LifecycleJob) :
    p.Keeps (May i) Learns (fun _ held' => held' = held) held :=
  Prog.Only.keeps Quiet (fun _ _ hc => may_of_quiet hc) (fun _ _ _ _ hc hr => learns_of_quiet hc hr) h held

theorem ask_keeps (c : Call) (h : Quiet c) (held : Option LifecycleJob) :
    c.ask.Keeps (May i) Learns (fun _ held' => held' = held) held := quiet_keeps (.ask h) held

theorem now_quiet : now.Only Quiet := .ask trivial

variable {some_ : Call → Prop} {job : LifecycleJob} {isSet : LifecycleCheckpoint → Bool}
  {set : LifecycleCheckpoint → LifecycleCheckpoint}

theorem readEntry_only (hs : ∀ pre page, some_ (.scanByPrefix pre page))
    (u : ContextUri) : (readEntry u).run.Only some_ := by
  refine .andThen (.ask (hs _ _)) (fun page => ?_)
  split <;> trivial

theorem manifestWork_only (h : ∀ c, Quiet c → (∀ e, c ≠ .write e) → some_ c)
    (j : LifecycleJob) : (manifestWork j).run.Only some_ := by
  have hr : ∀ u, (readEntry u).run.Only some_ := readEntry_only (fun _ _ => h _ trivial (by simp))
  refine .andThen (hr _) (fun e => .andThen (.mapM (fun b => ?_) _) (fun blobData => ?_))
  · exact .andThen (.ask (h _ trivial (by simp))) (fun _ => trivial)
  · refine .andThen (.ask (h _ trivial (by simp))) (fun edges => ?_)
    refine .andThen (.ask (h _ trivial (by simp))) (fun vector => ?_)
    exact .lift (.ask (h _ trivial (by simp))) (fun createdAt => .ask (h _ trivial (by simp)))

theorem readEntry_quiet (u : ContextUri) : (readEntry u).run.Only Quiet := readEntry_only (fun _ _ => trivial) u

theorem manifestWork_quiet (j : LifecycleJob) : (manifestWork j).run.Only Quiet :=
  manifestWork_only (fun _ h _ => h) j

theorem graphWork_quiet (j : LifecycleJob) : (graphWork j).run.Only Quiet :=
  .andThen (.ask trivial) (fun _ => .forM (fun _ => .ask trivial) _)

theorem blobsWork_quiet (j : LifecycleJob) : (blobsWork j).run.Only Quiet :=
  .andThen (.ask trivial) (fun _ => .forM (fun _ => .ask trivial) _)

/-- The worker executes a job of which at least the first `n` flags are set, and the journal may have it so. -/
def Active (i n : ℕ) (job : LifecycleJob) (held : Option LifecycleJob) : Prop :=
  held = some job ∧ job.leaseOwner = some i ∧ job.state = .running ∧ ∃ m, n ≤ m ∧ job.checkpoint = upTo m

def Stalled (i : ℕ) (job : LifecycleJob) (held : Option LifecycleJob) : Prop :=
  ∃ h, held = some h ∧ h.leaseOwner = some i ∧ job.idempotencyKey = h.idempotencyKey ∧ job.revision = h.revision ∧
    Follows h.checkpoint job.checkpoint

/-- What the parts of `execute_phases` leave. -/
def Left (i n : ℕ) (left : Except ContextError Unit × LifecycleJob) (held : Option LifecycleJob) : Prop :=
  match left.1 with
  | .ok () => Active i n left.2 held
  | .error _ => Stalled i left.2 held

theorem Active.stalled {n : ℕ} (h : Active i n job held) : Stalled i job held := ⟨job,h.1,h.2.1,rfl,rfl, .inl rfl⟩

theorem update_keeps {n m : ℕ} {h j : LifecycleJob} (hh : held = some h) (ho : h.leaseOwner = some i)
    (hf : h.checkpoint = upTo m) (hj : j = { h with checkpoint := upTo (m+1) }) (hs : h.state = .running)
    (hn : n ≤ m+1) (he : upTo (m+1) ≠ upTo m) :
    (update j).Keeps (May i) Learns (Left i n) held := by
  subst hj
  refine ⟨⟨h,hh, .inl ⟨ho,rfl,rfl, .inr ⟨m,hf,rfl⟩, .inl ⟨ho,hs⟩,?_⟩⟩,?_⟩
  · exact fun hu => absurd (hu.symm.trans hs) (by decide)
  · rintro r held' (⟨u,rfl,rfl⟩ | ⟨e,rfl,rfl⟩ | ⟨e,rfl,-,h',hh',ha⟩)
    · exact ⟨rfl,ho,hs,m+1,hn,rfl⟩
    · exact ⟨h,hh,ho,rfl,rfl, .inr ⟨m,hf,rfl⟩⟩
    · obtain rfl := Option.some.inj (hh.symm.trans hh')
      exact absurd (ha.trans hf) he

theorem phase_keeps {n : ℕ} {work : LifecycleJob → Fallible Unit} (hi : ∀ m, isSet (upTo m) = decide (n < m))
    (ht : set (upTo n) = upTo (n+1)) (hw : ∀ job, (work job).run.Only Quiet) (h : Active i n job held) :
    (phase isSet set work job).Keeps (May i) Learns (Left i (n+1)) held := by
  obtain ⟨hh,ho,hs,m,hm,hf⟩ := id h
  unfold phase
  rw [hf,hi]
  by_cases hl : n < m
  · rw [if_pos (by simpa using hl)]
    exact ⟨hh,ho,hs,m,hl,hf⟩
  · rw [if_neg (by simpa using hl)]
    obtain rfl : m = n := by omega
    refine Prog.Keeps.bind ((quiet_keeps (hw job) held).mono (fun r held' he => ?_))
    subst he
    cases r with
    | error e => exact h.stalled
    | ok u =>
      refine update_keeps hh ho hf (by rw [ht]) hs (le_refl _) (fun he => ?_)
      have hn : isSet (upTo m) = isSet (upTo (m+1)) := by rw [he]
      rw [hi,hi] at hn
      simp at hn

theorem andThen_keeps {first second : OnJob} {n m : ℕ} (h : (first job).Keeps (May i) Learns (Left i n) held)
    (hs : ∀ job held, Active i n job held → (second job).Keeps (May i) Learns (Left i m) held) :
    (first.andThen second job).Keeps (May i) Learns (Left i m) held := by
  refine Prog.Keeps.bind (h.mono (fun left held' hl => ?_))
  obtain ⟨r,job'⟩ := left
  cases r with
  | ok u => exact hs job' held' hl
  | error e => exact hl

theorem executePhases_keeps (h : Active i 0 job held) : (executePhases job).Keeps (May i) Learns (Left i 5) held := by
  refine andThen_keeps (phase_keeps (fun _ => rfl) rfl manifestWork_quiet h) (fun job held h => ?_)
  refine andThen_keeps (phase_keeps (fun _ => rfl) rfl (fun _ => .ask trivial) h) (fun job held h => ?_)
  refine andThen_keeps (phase_keeps (fun _ => rfl) rfl graphWork_quiet h) (fun job held h => ?_)
  refine andThen_keeps (phase_keeps (fun _ => rfl) rfl (fun _ => .ask trivial) h) (fun job held h => ?_)
  exact phase_keeps (fun _ => rfl) rfl blobsWork_quiet h

theorem concluded_keeps {result : Except ContextError Unit} (h : Left i 5 (result, job) held) :
    (concluded result job).Keeps (May i) Learns (fun job' held' => ∃ h', held' = some h' ∧ Works i h' job') held := by
  cases result with
  | ok u =>
    obtain ⟨hh,ho,ht,m,hm,hf⟩ := h
    refine Prog.Keeps.bind ((quiet_keeps now_quiet held).mono (fun at_ held' he => ?_))
    subst he
    exact ⟨job,hh,ho,rfl,rfl, .inl rfl, .inr rfl,fun _ => hf.trans (upTo_of_le hm)⟩
  | error e =>
    obtain ⟨h',hh,ho,hk,hr,hl⟩ := h
    refine Prog.Keeps.bind ((quiet_keeps now_quiet held).mono (fun next held' he => ?_))
    subst he
    refine Prog.Keeps.bind ((quiet_keeps now_quiet held').mono (fun at_ held' he => ?_))
    subst he
    refine ⟨h',hh,ho,hk,hr,hl, .inr rfl,fun hs => absurd hs ?_⟩
    dsimp only [LifecycleJob.audited]
    split <;> decide

theorem execute_keeps (hh : held = some job) (ho : job.leaseOwner = some i)
    (hf : ∃ n, job.checkpoint = upTo n) : (execute job).run.Keeps (May i) Learns (fun _ _ => True) held := by
  obtain ⟨n,hf⟩ := hf
  refine .lift ((quiet_keeps now_quiet held).mono (fun at_ held' he => ?_))
  subst he
  refine .lift ⟨⟨job,hh, .inl ⟨ho,rfl,rfl, .inl rfl, .inl ⟨ho,rfl⟩,fun hs => ?_⟩⟩,?_⟩
  · cases hs
  · rintro r held' (⟨u,rfl,rfl⟩ | ⟨e,rfl,-⟩ | ⟨e,rfl,-⟩)
    · refine .lift (Prog.Keeps.mono ?_ (executePhases_keeps ?_))
      · rintro ⟨result,job'⟩ held' hl
        refine .lift ((concluded_keeps hl).mono (fun last held' hw => ?_))
        obtain ⟨h',hh',hw⟩ := hw
        refine .lift ⟨⟨h',hh', .inl hw⟩,?_⟩
        rintro ⟨r,job'⟩ held' -
        cases r <;> exact trivial
      · exact ⟨rfl,ho,rfl,n,Nat.zero_le n,hf⟩
    · exact trivial
    · exact trivial

theorem attempt_keeps (key : String) (held : Option LifecycleJob) :
    (attempt key i).run.Keeps (May i) Learns (fun _ _ => True) held := by
  refine .lift ((quiet_keeps now_quiet held).mono (fun at_ held' he => ?_))
  subst he
  refine .andThen ⟨rfl,?_⟩
  rintro r held' (⟨job,rfl,rfl,ho,hf⟩ | ⟨rfl,rfl⟩ | ⟨e,rfl,rfl⟩)
  · refine .andThen ((execute_keeps rfl ho hf).mono (fun r _ _ => ?_))
    cases r <;> exact trivial
  · exact trivial
  · exact trivial

theorem runPending_keeps (held : Option LifecycleJob) : (runPending i).run.Keeps (May i) Learns (fun _ _ => True) held := by
  refine .lift ((quiet_keeps now_quiet held).mono (fun at_ held' he => ?_))
  subst he
  refine .lift ((ask_keeps (.recoverable at_) trivial held').mono (fun jobs held' he => ?_))
  subst he
  refine .andThen (.mapM (fun _ => True) (fun _ _ => True) (fun job _ held _ => ?_) (fun _ _ _ _ => trivial) trivial)
  refine (attempt_keeps _ held).mono (fun r _ _ => ?_)
  cases r with
  | ok out => exact ⟨trivial,trivial⟩
  | error e => trivial

theorem restorePhase_keeps {work : Fallible Unit} (hw : work.run.Only Quiet) (h : held = some job) :
    (restorePhase isSet set work job).run.Keeps (May i) Learns
      (Prog.Outcome (fun job' held' => held' = some job') (fun _ _ => True)) held := by
  unfold restorePhase
  split
  · exact h
  · refine .andThen ((quiet_keeps hw held).mono (fun r held' he => ?_))
    subst he
    cases r with
    | error e => exact trivial
    | ok u =>
      refine .lift ⟨⟨job,h, .inr ⟨_,rfl⟩⟩,?_⟩
      rintro r held' (⟨u,rfl,rfl⟩ | ⟨e,rfl,-⟩ | ⟨e,rfl,-⟩)
      · exact rfl
      · exact trivial
      · exact trivial

theorem restoreEntry_quiet (e : ContextEntry) (found : Except ContextError ContextEntry) :
    (restoreEntry e found).run.Only Quiet := by
  unfold restoreEntry
  split
  · split <;> trivial
  · exact .andThen (.ask trivial) (fun _ => trivial)
  · trivial

theorem restoreBlob_quiet (blob : BlobRef × List ℕ) : (restoreBlob blob).run.Only Quiet := by
  refine .andThen (.ask trivial) (fun written => ?_)
  split <;> trivial

theorem restorePhases_keeps {m : ArchiveManifest} (h : held = some job) :
    (restorePhases m job).run.Keeps (May i) Learns (fun _ _ => True) held := by
  refine .andThen ((restorePhase_keeps (.forM restoreBlob_quiet _) h).mono (fun r held h => ?_))
  cases r with
  | error e => exact trivial
  | ok job =>
    have he : (do restoreEntry m.entry (← ExceptT.lift (readEntry m.entry.uri).run) : Fallible Unit).run.Only Quiet :=
      .lift (readEntry_quiet _) (restoreEntry_quiet _)
    refine .andThen ((restorePhase_keeps he h).mono (fun r held h => ?_))
    cases r with
    | error e => exact trivial
    | ok job =>
      refine .andThen ((restorePhase_keeps (.forM (fun _ => .ask trivial) _) h).mono (fun r held h => ?_))
      cases r with
      | error e => exact trivial
      | ok job =>
        refine .andThen ((restorePhase_keeps (.forM (fun _ => .ask trivial) _) h).mono (fun r held h => ?_))
        cases r <;> exact trivial

theorem restoreFrom_keeps (key : String) (m : ArchiveManifest) (held : Option LifecycleJob) :
    (restoreFrom key m).run.Keeps (May i) Learns (fun _ _ => True) held := by
  refine .lift ⟨trivial,?_⟩
  rintro r held' (⟨job,rfl,rfl⟩ | ⟨rfl,-⟩)
  · exact restorePhases_keeps rfl
  · exact trivial

theorem restore_keeps (key : String) (held : Option LifecycleJob) :
    (restore key).run.Keeps (May i) Learns (fun _ _ => True) held := by
  refine .andThen ((ask_keeps (.getManifest key) trivial held).mono (fun r held' he => ?_))
  cases r with
  | error e => exact trivial
  | ok m =>
    refine .lift ⟨trivial,fun found held' _ => ?_⟩
    cases found with
    | none => exact restoreFrom_keeps key m held'
    | some job =>
      show (if job.state ≠ .succeeded then throw (.versionConflict s!"cannot restore incomplete lifecycle job {key}")
        else restoreFrom key m : Fallible Unit).run.Keeps (May i) Learns (fun _ _ => True) held'
      split
      · exact trivial
      · exact restoreFrom_keeps key m held'

theorem submit_keeps (id : Uuid) (u : ContextUri) (action : LifecycleAction) (held : Option LifecycleJob) :
    (submit id u action).run.Keeps (May i) Learns (fun _ _ => True) held := by
  unfold submit
  split
  · exact trivial
  · rename_i operation _
    refine .lift ((quiet_keeps now_quiet held).mono (fun at_ held' _ => ?_))
    exact ⟨⟨id,u,operation,at_,rfl⟩,fun _ _ _ => trivial⟩

end Programs

end UwuContextDb.Lifecycle
