import UwuContextDb.Lifecycle.Stops

/-! An action that is submitted once more, after its job has succeeded. -/

namespace UwuContextDb.Lifecycle

open Content (SqliteTables StoreLibraries)

def jobKey (uri : ContextUri) (operation : LifecycleOperation) : String := s!"{uri.canonical}:{operation.debugText}"

def written (libraries : StoreLibraries) (w : Stores) (entry : ContextEntry) : Stores :=
  match w.content.write libraries entry w.clock with
  | .ok (_, content) => { w with content := content }
  | .error _ => w

def storesAfter (libraries : StoreLibraries) (blake3 : List ℕ → ContentHash) (w : Stores)
    (events : List (Pool.Event Call Call.Reply Unit Circumstances ContextEntry)) : Stores :=
  (events.foldl (Pool.step (exec libraries blake3) (written libraries)) ⟨w, []⟩).world

def Keyed (journal : Std.ExtTreeMap String LifecycleJob) : Prop :=
  ∀ (key : String) (job : LifecycleJob), journal[key]? = some job → job.idempotencyKey = key

section Settled

variable {libraries lib : StoreLibraries} {blake3 : List ℕ → ContentHash} {t : Circumstances} {w : Stores}

theorem Keyed.insert {journal : Std.ExtTreeMap String LifecycleJob} (h : Keyed journal) {key : String}
    {j : LifecycleJob} (hk : j.idempotencyKey = key) : Keyed (journal.insert key j) := by
  intro other cur hc
  rcases getElem?_insert_cases hc with ⟨rfl,rfl⟩ | ⟨-,ho⟩
  · exact hk
  · exact h other cur ho

theorem exec_keyed (h : Keyed w.journal) (c : Call) : Keyed (exec lib blake3 c t w).2.journal := by
  by_cases hq : Quiet c
  · rw [exec_quiet hq]
    exact h
  · cases c with
    | update job =>
      rcases @exec_update_rest lib blake3 w t job with ⟨e,job',-,-,he,-⟩ | ⟨-,he⟩
      · exact he ▸ h
      · rw [he]
        exact h.insert rfl
    | claim key owner at_ =>
      rcases @exec_claim lib blake3 t w key owner at_ with ⟨-,he⟩ | ⟨job,hj,-,-,he⟩
      · rw [he]
        exact h
      · rw [he]
        exact h.insert (show (job.leased owner at_).idempotencyKey = key from h key job hj)
    | upsert job =>
      rcases @exec_upsert lib blake3 t w job with he | ⟨-,he⟩
      · rw [he]
        exact h
      · rw [he]
        exact h.insert rfl
    | getJob key =>
      rw [(exec_getJob key).2]
      exact h
    | _ => exact absurd trivial hq

theorem storesAfter_keyed (he : w.journal = ∅)
    (events : List (Pool.Event Call Call.Reply Unit Circumstances ContextEntry)) :
    Keyed (storesAfter lib blake3 w events).journal := by
  have hs : ∀ (events : List (Pool.Event Call Call.Reply Unit Circumstances ContextEntry))
      (pool : Pool Call Call.Reply Unit Stores), Keyed pool.world.journal →
      Keyed (events.foldl (Pool.step (exec lib blake3) (written lib)) pool).world.journal := by
    intro events
    induction events with
    | nil => exact fun _ h => h
    | cons e events ih =>
      intro pool h
      refine ih _ ?_
      cases e with
      | start program => exact h
      | crash i => exact h
      | outside entry =>
        simp only [Pool.step,written]
        split <;> exact h
      | call i t =>
        simp only [Pool.step,Pool.work]
        split
        · exact exec_keyed h _
        · exact h
  refine hs events ⟨w,[]⟩ (fun key job hj => ?_)
  simp [he] at hj

/-- What stays while others are executed: the succeeded job, its manifest, and where no other job is left for the URI
(`alone`) its row. -/
structure Settled (key uri : String) (alone : Prop) (before : Stores) (job : LifecycleJob) (w : Stores) : Prop where
  job : w.journal[key]? = some job
  cold : w.cold[key]? = before.cold[key]?
  keyed : Keyed w.journal
  others : alone → ∀ (other : String) (j : LifecycleJob), w.journal[other]? = some j → j.state.final = true ∨ j.uri.canonical ≠ uri
  row : alone → w.content.entries[uri]? = before.content.entries[uri]?

variable (key uri : String) (alone : Prop) {before : Stores} {job : LifecycleJob}

def Other (j : LifecycleJob) : Prop := j.idempotencyKey ≠ key ∧ (alone → j.uri.canonical ≠ uri)

def Apart : Call → Prop
  | .update j => Other key uri alone j
  | .putManifest k _ => k ≠ key
  | .delete u => alone → u.canonical ≠ uri
  | .upsert _ | .write _ | .getJob _ => False
  | _ => True

def OthersReply : (c : Call) → c.Reply → Prop
  | .update _, r => Other key uri alone r.2
  | .claim .., .ok (some j) => Other key uri alone j
  | _, _ => True

variable {key uri alone}

theorem Settled.insert (h : Settled key uri alone before job w) {j : LifecycleJob} (ho : Other key uri alone j)
    (clock : DateTime) :
    Settled key uri alone before job { w with clock := clock, journal := w.journal.insert j.idempotencyKey j } := by
  refine ⟨?_,h.cold,h.keyed.insert rfl,fun ha other cur hc => ?_,h.row⟩
  · have hn : compare j.idempotencyKey key ≠ .eq := fun he => ho.1 (Std.LawfulEqCmp.compare_eq_iff_eq.mp he)
    simp only [Std.ExtTreeMap.getElem?_insert,hn,if_false]
    exact h.job
  · rcases getElem?_insert_cases hc with ⟨rfl,rfl⟩ | ⟨-,hl⟩
    · exact .inr (ho.2 ha)
    · exact h.others ha other cur hl

theorem Settled.clock (h : Settled key uri alone before job w) (clock : DateTime) :
    Settled key uri alone before job { w with clock := clock } := ⟨h.job,h.cold,h.keyed,h.others,h.row⟩

def Elsewhere : Call → Prop
  | .update _ | .claim .. | .upsert _ | .write _ | .delete _ | .putManifest .. => False
  | _ => True

theorem exec_elsewhere {c : Call} (h : Elsewhere c) :
    (exec lib blake3 c t w).2.journal = w.journal ∧ (exec lib blake3 c t w).2.cold = w.cold ∧
      (exec lib blake3 c t w).2.content = w.content := by
  cases c <;> first | exact absurd h id | skip
  all_goals cases hf : t.fault <;> simp only [exec,hf]
  all_goals first | (split <;> simp) | simp

theorem exec_apart (hdone : job.state.final = true) (h : Settled key uri alone before job w) {c : Call}
    (hc : Apart key uri alone c) :
    Settled key uri alone before job (exec lib blake3 c t w).2 ∧
      OthersReply key uri alone c (exec lib blake3 c t w).1 := by
  by_cases hs : Elsewhere c
  · obtain ⟨ho,hco,hcon⟩ := @exec_elsewhere lib blake3 t w c hs
    refine ⟨⟨ho ▸ h.job,hco ▸ h.cold,ho ▸ h.keyed,ho ▸ h.others,hcon ▸ h.row⟩,?_⟩
    cases c <;> first | exact absurd hs id | trivial
  · cases c with
    | update j =>
      rcases @exec_update_rest lib blake3 w t j with ⟨e,j',hr,hj',he,-⟩ | ⟨hr,he⟩
      · refine ⟨he ▸ h.clock _,?_⟩
        unfold OthersReply
        rw [hr]
        rcases hj' with rfl | rfl <;> exact hc
      · rw [he]
        refine ⟨h.insert (show Other key uri alone j.bumped from hc) _,?_⟩
        unfold OthersReply
        rw [hr]
        exact hc
    | claim k owner at_ =>
      rcases @exec_claim_rest lib blake3 w k t owner at_ with
        ⟨e,hr,-,he⟩ | ⟨hr,he,-⟩ | ⟨j,hj,hr,he⟩
      · exact ⟨he ▸ h.clock _,by unfold OthersReply; rw [hr]; trivial⟩
      · exact ⟨he ▸ h.clock _,by unfold OthersReply; rw [hr]; trivial⟩
      · have hl : j.state.final = false := by
          rcases @exec_claim lib blake3 t w k owner at_ with ⟨⟨e,hn⟩ | hn,-⟩ | ⟨j',hj',hl,-⟩
          · cases (hr.symm.trans hn : (Except.ok (some _) : Except ContextError (Option LifecycleJob)) = _)
          · cases (hr.symm.trans hn : (Except.ok (some _) : Except ContextError (Option LifecycleJob)) = _)
          · obtain rfl := Option.some.inj (hj.symm.trans hj')
            simp only [LifecycleJob.claimable,Bool.and_eq_true,Bool.not_eq_true'] at hl
            exact hl.1.2
        have ht : Other key uri alone (j.leased owner at_) := by
          refine ⟨fun hy => ?_,fun ha => ?_⟩
          · have hk : k = key := (h.keyed k j hj).symm.trans hy
            obtain rfl := Option.some.inj ((hk ▸ hj).symm.trans h.job)
            rw [hdone] at hl
            cases hl
          · exact (h.others ha k j hj).resolve_left (by simp [hl])
        rw [he]
        have hp := h.insert ht (max w.clock t.now)
        rw [show (j.leased owner at_).idempotencyKey = k from h.keyed k j hj] at hp
        exact ⟨hp,by unfold OthersReply; rw [hr]; exact ht⟩
    | putManifest k m =>
      refine ⟨?_,trivial⟩
      rw [(exec_putManifest_rest m).1]
      refine ⟨h.job,?_,h.keyed,h.others,h.row⟩
      have hne : compare k key ≠ .eq := fun he => hc (Std.LawfulEqCmp.compare_eq_iff_eq.mp he)
      rw [← h.cold]
      cases hf : t.fault with
      | some e => simp only [exec,hf]
      | none =>
        simp only [exec,hf]
        split
        · split <;> rfl
        · simp [Std.ExtTreeMap.getElem?_insert,hne]
    | delete u =>
      refine ⟨?_,trivial⟩
      rcases @exec_delete_rest lib blake3 w t u with ⟨e,-,-,he⟩ | ⟨content,hd,-,he⟩
      · exact he ▸ h.clock _
      · rw [he]
        refine ⟨h.job,h.cold,h.keyed,h.others,fun ha => ?_⟩
        have hne : compare u.canonical uri ≠ .eq := fun he => hc ha (Std.LawfulEqCmp.compare_eq_iff_eq.mp he)
        simp only [(SqliteTables.delete_ok hd).entries,Std.ExtTreeMap.getElem?_erase,hne,if_false]
        exact h.row ha
    | upsert j => exact absurd hc id
    | write entry => exact absurd hc id
    | _ => exact absurd trivial hs

variable (libraries lib blake3 key uri alone before job) in
abbrev Stays {α : Type} (post : α → Prop) (p : Program α) (w : Stores) : Prop :=
  p.Keeps (fun _ _ => True) (Prog.Replies (exec libraries blake3) (fun _ => True))
    (fun a w' => Settled key uri alone before job w' ∧ post a) w

variable (hdone : job.state.final = true) (h : Settled key uri alone before job w) {j : LifecycleJob}

include hdone h

theorem ask_stays {c : Call} (hc : Apart key uri alone c) :
    Stays lib blake3 key uri alone before job (OthersReply key uri alone c) c.ask w :=
  Prog.Keeps.ofExec trivial (fun _ _ => exec_apart hdone h hc)

theorem only_stays {α : Type} {p : Program α} (hp : p.Only (Apart key uri alone)) :
    Stays lib blake3 key uri alone before job (fun _ => True) p w := by
  refine (hp.preserves (Apart key uri alone) (P := Settled key uri alone before job) (fun _ _ _ _ => trivial) ?_ h).mono
    (fun a w' hw' => ⟨hw',trivial⟩)
  rintro c w r w' hc hw ⟨t,-,he⟩
  have hk := (@exec_apart lib blake3 t w key uri alone before job hdone hw c hc).1
  rwa [he] at hk

omit hdone h in
theorem readEntry_apart (u : ContextUri) : (readEntry u).run.Only (Apart key uri alone) :=
  readEntry_only (fun _ _ => trivial) u

omit hdone h in
theorem manifestWork_apart (hj : Other key uri alone j) : (manifestWork j).run.Only (Apart key uri alone) := by
  refine .andThen (readEntry_apart _) (fun e => .andThen (.mapM (fun b => ?_) _) (fun blobData => ?_))
  · exact .andThen (.ask trivial) (fun _ => trivial)
  · exact .andThen (.ask trivial) (fun edges => .andThen (.ask trivial) (fun vector =>
      .lift (.ask trivial) (fun createdAt => .ask hj.1)))

theorem phase_stays {isSet : LifecycleCheckpoint → Bool} {set : LifecycleCheckpoint → LifecycleCheckpoint}
    {work : LifecycleJob → Fallible Unit} (ho : (work j).run.Only (Apart key uri alone)) (hj : Other key uri alone j) :
    Stays lib blake3 key uri alone before job (fun left => Other key uri alone left.2) (phase isSet set work j) w := by
  unfold phase
  split
  · exact ⟨h,hj⟩
  · refine Prog.Keeps.bind ((only_stays hdone h ho).mono (fun r w' hw' => ?_))
    cases r with
    | error e => exact ⟨hw'.1,hj⟩
    | ok u => exact ask_stays hdone hw'.1 (show Apart key uri alone (.update { j with checkpoint := set j.checkpoint }) from hj)

omit hdone h in
theorem andThen_stays {first second : OnJob}
    (hf : Stays lib blake3 key uri alone before job (fun left => Other key uri alone left.2) (first j) w)
    (hs : ∀ {w} {j : LifecycleJob}, Settled key uri alone before job w → Other key uri alone j →
      Stays lib blake3 key uri alone before job (fun left => Other key uri alone left.2) (second j) w) :
    Stays lib blake3 key uri alone before job (fun left => Other key uri alone left.2) (first.andThen second j) w := by
  refine Prog.Keeps.bind (hf.mono (fun left w' hl => ?_))
  obtain ⟨r, j'⟩ := left
  cases r with
  | ok u => exact hs hl.1 hl.2
  | error e => exact hl

theorem executePhases_stays (hj : Other key uri alone j) :
    Stays lib blake3 key uri alone before job (fun left => Other key uri alone left.2) (executePhases j) w := by
  have hg : ∀ j, (graphWork j).run.Only (Apart key uri alone) :=
    fun _ => .andThen (.ask trivial) (fun _ => .forM (fun _ => .ask trivial) _)
  have hb : ∀ j, (blobsWork j).run.Only (Apart key uri alone) :=
    fun _ => .andThen (.ask trivial) (fun _ => .forM (fun _ => .ask trivial) _)
  refine andThen_stays (phase_stays hdone h (manifestWork_apart hj) hj) (fun h hj => ?_)
  refine andThen_stays (phase_stays hdone h (.ask trivial) hj) (fun h hj => ?_)
  refine andThen_stays (phase_stays hdone h (hg _) hj) (fun h hj => ?_)
  exact andThen_stays (phase_stays hdone h (.ask hj.2) hj) (fun h hj => phase_stays hdone h (hb _) hj)

theorem concluded_stays (hj : Other key uri alone j) (result : Except ContextError Unit) :
    Stays lib blake3 key uri alone before job (Other key uri alone) (concluded result j) w := by
  have hn : now.Only (Apart key uri alone) := .ask trivial
  cases result with
  | ok u => exact Prog.Keeps.bind ((only_stays hdone h hn).mono (fun _ _ hw => ⟨hw.1,hj⟩))
  | error e =>
    exact Prog.Keeps.bind ((only_stays hdone h hn).mono (fun _ _ hw =>
      Prog.Keeps.bind ((only_stays hdone hw.1 hn).mono (fun _ _ hw => ⟨hw.1,hj⟩))))

theorem update_stays (hj : Other key uri alone j) :
    Stays lib blake3 key uri alone before job (fun left => Other key uri alone left.2) (update j) w :=
  ask_stays hdone h (show Apart key uri alone (.update j) from hj)

theorem execute_stays (hj : Other key uri alone j) :
    Stays lib blake3 key uri alone before job (fun _ => True) (execute j).run w := by
  have hn : now.Only (Apart key uri alone) := .ask trivial
  refine .lift ((only_stays hdone h hn).mono (fun at_ w hw => ?_))
  refine .lift ((update_stays hdone hw.1 (by exact hj)).mono (fun r w hw => ?_))
  obtain ⟨_ | _,j'⟩ := r
  · exact ⟨hw.1,trivial⟩
  · refine .lift ((executePhases_stays hdone hw.1 hw.2).mono (fun left w hw => ?_))
    refine .lift ((concluded_stays hdone hw.1 hw.2 left.1).mono (fun last w hw => ?_))
    refine .lift ((update_stays hdone hw.1 hw.2).mono (fun r w hw => ?_))
    obtain ⟨_ | _,j'⟩ := r <;> exact ⟨hw.1,trivial⟩

theorem attempt_stays (other : String) (owner : Uuid) :
    Stays lib blake3 key uri alone before job (fun _ => True) (attempt other owner).run w := by
  have hn : now.Only (Apart key uri alone) := .ask trivial
  refine .lift ((only_stays hdone h hn).mono (fun at_ w hw => ?_))
  refine .andThen ((ask_stays hdone hw.1 (show Apart key uri alone (.claim other owner at_) from trivial)).mono ?_)
  rintro (e | _ | cur) w hw
  · exact ⟨hw.1,trivial⟩
  · exact ⟨hw.1,trivial⟩
  · refine .andThen ((execute_stays hdone hw.1 hw.2).mono (fun r w hw => ?_))
    cases r <;> exact ⟨hw.1,trivial⟩

theorem runPending_stays (owner : Uuid) :
    Stays lib blake3 key uri alone before job (fun _ => True) (runPending owner).run w := by
  have hn : now.Only (Apart key uri alone) := .ask trivial
  refine .lift ((only_stays hdone h hn).mono (fun at_ w hw => ?_))
  refine .lift ((ask_stays hdone hw.1 (show Apart key uri alone (.recoverable at_) from trivial)).mono (fun jobs w hw => ?_))
  refine .andThen (.mapM (Settled key uri alone before job) (fun _ _ => True) (fun other _ w hw => ?_)
    (fun _ _ _ hw => ⟨hw,trivial⟩) hw.1)
  refine (attempt_stays hdone hw other.idempotencyKey owner).mono (fun r w hw => ?_)
  cases r with
  | error e => exact ⟨hw.1,trivial⟩
  | ok out => exact ⟨trivial,hw.1⟩

omit hdone h in
theorem submit_again {action : LifecycleAction} {operation : LifecycleOperation} {u : ContextUri}
    (ho : operationOf action = some operation) (hj : w.journal[jobKey u operation]? = some job)
    {ts : ℕ → Circumstances} (ht : ∀ n, (ts n).Healthy) (id : Uuid) :
    let submitted := (submit id u action).run.finish (exec lib blake3) w ts
    submitted.1 = .ok job ∧ submitted.2 = { w with clock := submitted.2.clock } := by
  have hp : (submit id u action).run =
      .call .now (fun now => .call (.upsert (newJob id u operation now)) .done) := by
    unfold submit
    rw [ho]
    rfl
  intro submitted
  have hf : ∀ at_, upsertIn w.journal (newJob id u operation at_) = (job, w.journal) := by
    intro at_
    unfold upsertIn
    rw [show w.journal[(newJob id u operation at_).idempotencyKey]? = some job from hj]
  have hi : submitted = (.ok job, { w with clock := max (max w.clock (ts 0).now) (ts 1).now }) := by
    show ((submit id u action).run).finish (exec lib blake3) w ts = _
    rw [hp]
    simp only [Prog.finish, exec, (ht _).1, (ht _).2, hf]
  rw [hi]
  exact ⟨rfl, rfl⟩

end Settled

/-- An action whose job has succeeded is not performed again. In every run, whatever is restored or written since, to
submit it once more gives back that job and changes nothing. When pending jobs are then run, with healthy backends or not,
the job and its manifest stay as they are, and unless another job for the URI is left, so does the row of the URI. -/
theorem repeated_action_stays (libraries : StoreLibraries) (blake3 : List ℕ → ContentHash) {first : Stores}
    (hempty : first.journal = ∅) (events : List (Pool.Event Call Call.Reply Unit Circumstances ContextEntry))
    {uri : ContextUri} {action : LifecycleAction} {operation : LifecycleOperation}
    (hoperation : operationOf action = some operation) {job : LifecycleJob}
    (hjob : (storesAfter libraries blake3 first events).journal[jobKey uri operation]? = some job)
    (hdone : job.state = .succeeded) (id owner : Uuid) {ts : ℕ → Circumstances} (hts : ∀ n, (ts n).Healthy)
    (ts' : ℕ → Circumstances) :
    let w := storesAfter libraries blake3 first events
    let submitted := (submit id uri action).run.finish (exec libraries blake3) w ts
    let ran := ((runPending owner).run.finish (exec libraries blake3) submitted.2 ts').2
    submitted.1 = .ok job ∧ submitted.2 = { w with clock := submitted.2.clock } ∧
      ran.journal[jobKey uri operation]? = some job ∧ ran.cold[jobKey uri operation]? = w.cold[jobKey uri operation]? ∧
      ((∀ (key : String) (other : LifecycleJob), w.journal[key]? = some other → other.uri.canonical = uri.canonical →
        other.state.final = true) → ran.content.entries[uri.canonical]? = w.content.entries[uri.canonical]?) := by
  intro w submitted ran
  have hk : Keyed w.journal := storesAfter_keyed hempty events
  obtain ⟨he, hs⟩ : submitted.1 = .ok job ∧ submitted.2 = { w with clock := submitted.2.clock } :=
    submit_again hoperation hjob hts id
  have hf : job.state.final = true := by rw [hdone]; rfl
  have ht : Settled (jobKey uri operation) uri.canonical (∀ (key : String) (other : LifecycleJob),
      w.journal[key]? = some other → other.uri.canonical = uri.canonical → other.state.final = true) w job submitted.2 := by
    rw [hs]
    refine ⟨hjob, rfl, hk, fun ha key other ho => ?_, fun _ => rfl⟩
    by_cases hu : other.uri.canonical = uri.canonical
    · exact .inl (ha key other ho hu)
    · exact .inr hu
  have hr : Settled _ _ _ w job ran ∧ True := (runPending_stays hf ht owner).finish (fun _ => trivial)
  exact ⟨he, hs, hr.1.job, hr.1.cold, hr.1.row⟩

def archivedAndRestored : List (Pool.Event Call Call.Reply Unit Circumstances ContextEntry) :=
  [.start (Service.submit 1 sampleUri .archive).program] ++ List.replicate 2 (.call 0 (calm 1)) ++
    [.start Service.pending.program] ++ List.replicate 24 (.call 1 (calm 2)) ++
    [.start (Service.restore sampleKey).program] ++ List.replicate 12 (.call 2 (calm 3))

def restoredStores : Stores := storesAfter sampleLibraries (fun _ => "") sampleStores archivedAndRestored

def archivedAgain : Stores :=
  ((runPending 4).run.finish (exec sampleLibraries (fun _ => ""))
    ((submit 5 sampleUri .archive).run.finish (exec sampleLibraries (fun _ => "")) restoredStores (fun _ => calm 60)).2
    (fun _ => calm 90)).2

theorem repeated_action_sample :
    archivedAgain.journal[jobKey sampleUri .archive]? = restoredStores.journal[jobKey sampleUri .archive]? := by
  have hs : restoredStores.journal[jobKey sampleUri .archive]?.map (·.state) = some .succeeded := by decide +kernel
  obtain ⟨job, hj, hdone⟩ := Option.map_eq_some_iff.mp hs
  have hk := @repeated_action_stays sampleLibraries (fun _ => "") sampleStores rfl archivedAndRestored sampleUri .archive
    .archive rfl job hj hdone 5 4 (fun _ => calm 60) (fun _ => ⟨rfl, rfl⟩) (fun _ => calm 90)
  have ho := hk.2.2.1
  rw [hj]
  unfold archivedAgain restoredStores
  exact ho

/-- The entry that was restored is not archived. -/
theorem action_not_repeated : ¬ ∀ (libraries : StoreLibraries) (blake3 : List ℕ → ContentHash) (first : Stores)
    (events : List (Pool.Event Call Call.Reply Unit Circumstances ContextEntry)) (uri : ContextUri)
    (action : LifecycleAction) (operation : LifecycleOperation) (job : LifecycleJob) (entry : ContextEntry)
    (id owner : Uuid) (ts ts' : ℕ → Circumstances), first.journal = ∅ → operationOf action = some operation →
    (storesAfter libraries blake3 first events).journal[jobKey uri operation]? = some job → job.state = .succeeded →
    entryIn (storesAfter libraries blake3 first events).content uri = some entry → (∀ n, (ts n).Healthy) →
    (∀ n, (ts' n).Healthy) →
    let submitted := (submit id uri action).run.finish (exec libraries blake3) (storesAfter libraries blake3 first events) ts
    let ran := ((runPending owner).run.finish (exec libraries blake3) submitted.2 ts').2
    (∃ (key : String) (m : ArchiveManifest), ran.cold[key]? = some m ∧ m.entry = entry) ∧ entryIn ran.content uri = none := by
  intro h
  have hs : restoredStores.journal[jobKey sampleUri .archive]?.map (·.state) = some .succeeded := by decide +kernel
  have he : (entryIn restoredStores.content sampleUri).isSome = true := by decide +kernel
  have ht : (entryIn archivedAgain.content sampleUri).isSome = true := by decide +kernel
  obtain ⟨job, hj, hdone⟩ := Option.map_eq_some_iff.mp hs
  obtain ⟨entry, he⟩ := Option.isSome_iff_exists.mp he
  obtain ⟨-, hn⟩ := h sampleLibraries (fun _ => "") sampleStores archivedAndRestored sampleUri .archive .archive job entry
    5 4 (fun _ => calm 60) (fun _ => calm 90) rfl rfl hj hdone he (fun _ => ⟨rfl, rfl⟩) (fun _ => ⟨rfl, rfl⟩)
  exact absurd ht (by unfold archivedAgain restoredStores; rw [hn]; decide)

end UwuContextDb.Lifecycle
