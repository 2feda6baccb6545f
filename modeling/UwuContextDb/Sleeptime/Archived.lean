import UwuContextDb.Lifecycle.Restore
import UwuContextDb.Sleeptime.Composition

/-! Passes with a lifecycle executor: the content that a job has deleted, and the copies that the tasks write. -/

namespace UwuContextDb.Sleeptime

open Content (StoreLibraries SqliteTables)
open Content.SqliteTables (BatchWriteConfig absent_step)
open Lifecycle (Aside LifecycleJob OnJob Quiet Stores exec_aside exec_claim exec_quiet exec_upsert
  getElem?_insert_cases newJob)
open Prog (Keeps Outcome RepliesMeeting)

section Jobs

structure Settled (key address : String) (s : Stores) : Prop where
  keyed : ∀ (other : String) (job : LifecycleJob), s.journal[other]? = some job → job.idempotencyKey = other
  addressed : ∀ job : LifecycleJob, s.journal[key]? = some job → job.uri.canonical = address
  fresh : s.journal[key]? = none → ∀ id uri now, (newJob id uri .archive now).idempotencyKey = key → uri.canonical = address
  deleted : ∀ job : LifecycleJob, s.journal[key]? = some job → job.checkpoint.content = true →
    s.content.entries[address]? = none
  complete : ∀ job : LifecycleJob, s.journal[key]? = some job → job.state = .succeeded → job.checkpoint.content = true

structure Hands (key address : String) (job : LifecycleJob) (s : Stores) : Prop where
  addressed : job.idempotencyKey = key → job.uri.canonical = address
  deleted : job.idempotencyKey = key → job.checkpoint.content = true → s.content.entries[address]? = none

variable {key address : String} {s s' : Stores} {job : LifecycleJob}

theorem Settled.same (h : Settled key address s) (hj : s'.journal = s.journal)
    (ha : s.content.entries[address]? = none → s'.content.entries[address]? = none) : Settled key address s' := by
  refine ⟨?_,?_,?_,fun job ho hc => ha ?_,?_⟩
  · exact hj ▸ h.keyed
  · exact hj ▸ h.addressed
  · exact hj ▸ h.fresh
  · exact h.deleted job (hj ▸ ho) hc
  · exact hj ▸ h.complete

theorem Hands.same (h : Hands key address job s)
    (ha : s.content.entries[address]? = none → s'.content.entries[address]? = none) :
    Hands key address job s' := ⟨h.addressed,fun hk hc => ha (h.deleted hk hc)⟩

theorem Hands.of_job (h : Hands key address job s) {job' : LifecycleJob} (hk : job'.idempotencyKey = job.idempotencyKey)
    (hu : job'.uri = job.uri) (hc : job'.checkpoint.content = job.checkpoint.content) :
    Hands key address job' s := by
  constructor
  · rw [hk,hu]
    exact h.addressed
  · rw [hk,hc]
    exact h.deleted

theorem Settled.hands (h : Settled key address s) {other : String} (hj : s.journal[other]? = some job) :
    Hands key address job s := by
  have hk := h.keyed other job hj
  constructor
  · intro he
    rw [← hk,he] at hj
    exact h.addressed job hj
  · intro he hc
    rw [← hk,he] at hj
    exact h.deleted job hj hc

theorem Settled.insert (h : Settled key address s) (hh : Hands key address job s)
    (hm : job.idempotencyKey = key → job.state = .succeeded → job.checkpoint.content = true)
    (hj : s'.journal = s.journal.insert job.idempotencyKey job) (hco : s'.content = s.content) :
    Settled key address s' := by
  have hc : ∀ (other : String) (found : LifecycleJob), s'.journal[other]? = some found →
      other = job.idempotencyKey ∧ found = job ∨ other ≠ job.idempotencyKey ∧ s.journal[other]? = some found := by
    intro other found hf
    rw [hj] at hf
    exact getElem?_insert_cases hf
  refine ⟨fun other found hf => ?_,fun found hf => ?_,fun hn => ?_,fun found hf hl => ?_,
    fun found hf hs => ?_⟩
  · rcases hc other found hf with ⟨rfl,rfl⟩ | ⟨-,ho⟩
    · rfl
    · exact h.keyed other found ho
  · rcases hc key found hf with ⟨hk,rfl⟩ | ⟨-,ho⟩
    · exact hh.addressed hk.symm
    · exact h.addressed found ho
  · apply h.fresh
    rw [hj,Std.ExtTreeMap.getElem?_insert] at hn
    split at hn
    · cases hn
    · exact hn
  · rw [hco]
    rcases hc key found hf with ⟨hk,rfl⟩ | ⟨-,ho⟩
    · exact hh.deleted hk.symm hl
    · exact h.deleted found ho hl
  · rcases hc key found hf with ⟨hk,rfl⟩ | ⟨-,ho⟩
    · exact hm hk.symm hs
    · exact h.complete found ho hs

end Jobs

section Calls

def Harmless : Lifecycle.Call → Prop
  | .update _ | .claim .. | .upsert _ | .getJob _ | .write _ => False
  | _ => True

variable {libraries libs : StoreLibraries} {blake3 : List ℕ → ContentHash} {t : Lifecycle.Circumstances}
    {key address : String} {s : Stores}

theorem quiet_of_harmless {c : Lifecycle.Call} (h : Harmless c) : Quiet c := by
  cases c <;> first | exact absurd h id | trivial

theorem exec_delete_absent (uri : ContextUri) :
    (s.content.entries[address]? = none →
      (Lifecycle.exec libs blake3 (.delete uri) t s).2.content.entries[address]? = none) ∧
      (uri.canonical = address → ∀ u, (Lifecycle.exec libs blake3 (.delete uri) t s).1 = .ok u →
        (Lifecycle.exec libs blake3 (.delete uri) t s).2.content.entries[address]? = none) := by
  obtain ⟨-,⟨⟨e,hr⟩,hc⟩ | ⟨-,he⟩⟩ := @Lifecycle.exec_delete libs blake3 t s uri
  · rw [hc,hr]
    exact ⟨id,fun _ u hu => by cases hu⟩
  · rw [he]
    constructor
    · intro ha
      rw [Std.ExtTreeMap.getElem?_erase,ha,ite_self]
    · rintro rfl _ _
      exact Std.ExtTreeMap.getElem?_erase_self

theorem exec_harmless_absent {c : Lifecycle.Call} (h : Harmless c) (ha : s.content.entries[address]? = none) :
    (Lifecycle.exec libs blake3 c t s).2.content.entries[address]? = none := by
  by_cases hs : Aside c
  · rw [(exec_aside hs).1]
    exact ha
  · cases c with
    | putManifest other manifest =>
      rw [show (Lifecycle.exec libs blake3 (.putManifest other manifest) t s).2.content = s.content from
        (Lifecycle.exec_putManifest manifest).1]
      exact ha
    | delete u => exact (exec_delete_absent u).1 ha
    | write e => exact absurd h id
    | _ => exact absurd trivial hs

end Calls

section Replies

variable (libraries libs : StoreLibraries) (config : BatchWriteConfig) (blake3 : List ℕ → ContentHash) (key address : String)

def Elsewhere (t : Moment) : Prop := ∀ op ∈ t.others, ∀ uri ∈ op.written, uri.canonical ≠ address

def heeds (w : World) (step : (c : Call) × c.Reply) : Bool :=
  match step.1 with
  | .stores (.write copy) =>
    copy.uri.canonical != address || (w.stores.journal[key]?).all (fun job => !job.checkpoint.content)
  | _ => true

abbrev HeedingReplies : (c : Call) → World → c.Reply → World → Prop :=
  RepliesMeeting (exec libraries config blake3) (Elsewhere address) (fun w step => heeds key address w step = true)

abbrev StoreReplies (c : Lifecycle.Call) (w : World) (r : c.Reply) (w' : World) : Prop :=
  HeedingReplies libraries config blake3 key address (.stores c) w r w'

def Holding (job : LifecycleJob) (w : World) : Prop := Settled key address w.stores ∧ Hands key address job w.stores

variable {libraries libs config blake3 key address} {w w' : World} {job : LifecycleJob}

theorem meanwhile_absent {others : List SqliteTables.Op}
    (ht : ∀ op ∈ others, ∀ u ∈ op.written, u.canonical ≠ address)
    (ha : w.stores.content.entries[address]? = none) :
    (w.meanwhile libs config others).stores.content.entries[address]? = none := by
  have hs : ∀ (st : SqliteTables) (op : SqliteTables.Op), st.entries[address]? = none →
      (∀ u ∈ op.written, u.canonical ≠ address) → (SqliteTables.step libs st config op).entries[address]? = none :=
    fun st op h ho => absent_step h ho
  exact StateMachine.run_invariant hs ha (StateMachine.meets_of_mem (fun op ho _ => ht op ho) _)

theorem stores_of_reply {c : Lifecycle.Call} {r : c.Reply} (h : StoreReplies libs config blake3 key address c w r w') :
    ∃ (s : Stores) (t : Lifecycle.Circumstances), s.journal = w.stores.journal ∧
      (w.stores.content.entries[address]? = none → s.content.entries[address]? = none) ∧
      (Lifecycle.exec libs blake3 c t s).1 = r ∧ w'.stores = (Lifecycle.exec libs blake3 c t s).2 := by
  obtain ⟨-,t,ho,he⟩ := h
  rw [exec_meanwhile] at he
  obtain ⟨hr,hw⟩ := Prod.mk.inj he
  exact ⟨(w.meanwhile libs config t.others).stores,t.circumstances,rfl,meanwhile_absent ho,hr,by rw [← hw]⟩

theorem harmless_reply {c : Lifecycle.Call} (hc : Harmless c) {r : c.Reply}
    (hr : StoreReplies libs config blake3 key address c w r w') : w'.stores.journal = w.stores.journal ∧
      (w.stores.content.entries[address]? = none → w'.stores.content.entries[address]? = none) := by
  obtain ⟨s,t,hj,ha,-,hw⟩ := stores_of_reply hr
  rw [hw]
  exact ⟨(exec_quiet (quiet_of_harmless hc)).trans hj,fun h => exec_harmless_absent hc (ha h)⟩

theorem harmless_settles {c : Lifecycle.Call} (hc : Harmless c) (h : Holding key address job w) {r : c.Reply}
    (hr : StoreReplies libs config blake3 key address c w r w') : Holding key address job w' :=
  ⟨h.1.same (harmless_reply hc hr).1 (harmless_reply hc hr).2,h.2.same (harmless_reply hc hr).2⟩

theorem idle_keeps {α : Type} {p : Lifecycle.Program α} (hp : p.Only Harmless) (h : Settled key address w.stores) :
    p.Keeps (fun _ _ => True) (StoreReplies libs config blake3 key address)
    (fun _ w' => Settled key address w'.stores) w :=
  hp.preserves (P := fun w : World => Settled key address w.stores) Harmless (fun _ _ _ _ => trivial)
    (fun _ _ _ _ hc h hr => Settled.same h (harmless_reply hc hr).1 (harmless_reply hc hr).2) h

theorem harmless_keeps {α : Type} {p : Lifecycle.Program α} (hp : p.Only Harmless) (h : Holding key address job w) :
    p.Keeps (fun _ _ => True) (StoreReplies libs config blake3 key address)
    (fun _ w' => Holding key address job w') w :=
  hp.preserves Harmless (fun _ _ _ _ => trivial) (fun _ _ _ _ hc h hr => harmless_settles hc h hr) h

theorem claim_settles {other : String} {owner : Uuid} {at_ : DateTime} (h : Settled key address w.stores)
    {r : (Lifecycle.Call.claim other owner at_).Reply}
    (hr : StoreReplies libs config blake3 key address (.claim other owner at_) w r w') :
    Settled key address w'.stores ∧ ∀ job, r = .ok (some job) → Holding key address job w' := by
  obtain ⟨s,t,ho,ha,hp,hw⟩ := stores_of_reply hr
  have hs : Settled key address s := h.same ho ha
  have hc : w'.stores.content = s.content := by
    rw [hw]
    exact (@exec_aside libs blake3 t s (.claim other owner at_) trivial).1
  rcases @exec_claim libs blake3 t s other owner at_ with ⟨hn,hm⟩ | ⟨job,hj,-,hg,hi⟩
  · refine ⟨hs.same (by rw [hw,hm]) (fun h => hc ▸ h),?_⟩
    rintro job rfl
    rcases hn with ⟨e,he⟩ | hn
    · rw [he] at hp
      cases hp
    · rw [hn] at hp
      cases hp
  · have hy := hs.keyed other job hj
    have hh : Hands key address (job.leased owner at_) s := (hs.hands hj).of_job rfl rfl rfl
    have hco : (job.leased owner at_).idempotencyKey = key → (job.leased owner at_).state = .succeeded →
        (job.leased owner at_).checkpoint.content = true := by
      intro hk hst
      have hk : job.idempotencyKey = key := hk
      rw [← hy,hk] at hj
      exact hs.complete job hj hst
    have ho' : w'.stores.journal = s.journal.insert (job.leased owner at_).idempotencyKey (job.leased owner at_) := by
      rw [hw,hi,← hy]
      rfl
    have ht := hs.insert hh hco ho' hc
    refine ⟨ht,?_⟩
    rintro given rfl
    rw [hg] at hp
    obtain rfl := Option.some.inj (Except.ok.inj hp)
    exact ⟨ht,hh.same (fun h => hc ▸ h)⟩

theorem update_settles (h : Holding key address job w)
    (ho : job.idempotencyKey = key → job.state = .succeeded → job.checkpoint.content = true)
    {r : (Lifecycle.Call.update job).Reply} (hr : StoreReplies libs config blake3 key address (.update job) w r w') :
    (r.2 = job ∨ r.2 = job.bumped) ∧ Holding key address r.2 w' := by
  obtain ⟨s,t,hu,ha,hp,hw⟩ := stores_of_reply hr
  have hs : Settled key address s := h.1.same hu ha
  have hh : Hands key address job s := h.2.same ha
  have hb : Hands key address job.bumped s := hh.of_job rfl rfl rfl
  rcases @Lifecycle.exec_update_rest libs blake3 s t job with ⟨e,job',hi,hj',he,-⟩ | ⟨hi,he⟩
  · rw [hi] at hp
    subst hp
    refine ⟨hj',hs.same (by rw [hw,he]) (fun h => by rw [hw,he]; exact h),?_⟩
    have hl : Hands key address job' s := by
      rcases hj' with rfl | rfl
      · exact hh
      · exact hb
    exact hl.same (fun h => by rw [hw,he]; exact h)
  · rw [hi] at hp
    subst hp
    have hc : w'.stores.content = s.content := by rw [hw,he]
    exact ⟨.inr rfl,hs.insert hb ho (by rw [hw,he]; rfl) hc,hb.same (fun h => hc ▸ h)⟩

end Replies

section Phases

variable (libraries libs : StoreLibraries) (config : BatchWriteConfig) (blake3 : List ℕ → ContentHash) (key address : String)

abbrev Executes {α : Type} (p : Lifecycle.Program α) (post : α → World → Prop) (w : World) : Prop :=
  p.Keeps (fun _ _ => True) (StoreReplies libraries config blake3 key address) post w

def AtPhase (job : LifecycleJob) (w : World) : Prop := Holding key address job w ∧ job.state = .running

def AfterPhase (after : LifecycleJob → Prop) (left : Except ContextError Unit × LifecycleJob) (w : World) : Prop :=
  Outcome (fun _ w => AtPhase key address left.2 w ∧ after left.2) (fun _ w => AtPhase key address left.2 w) left.1 w

variable {libraries libs config blake3 key address} {w : World} {job : LifecycleJob}

variable {after : LifecycleJob → Prop} {isSet : Lifecycle.LifecycleCheckpoint → Bool}
  {set : Lifecycle.LifecycleCheckpoint → Lifecycle.LifecycleCheckpoint}
  {work : LifecycleJob → Lifecycle.Fallible Unit}

theorem update_leaves (h : AtPhase key address job w) (ha : after job) (hb : after job.bumped) :
    Executes libs config blake3 key address (Lifecycle.update job) (AfterPhase key address after) w := by
  refine ⟨trivial,?_⟩
  rintro ⟨written,job'⟩ w' hr
  obtain ⟨hj',hh⟩ := update_settles h.1 (fun _ ht => by rw [h.2] at ht; cases ht) hr
  have hs : job'.state = .running ∧ after job' := by
    rcases hj' with rfl | rfl
    · exact ⟨h.2,ha⟩
    · exact ⟨h.2,hb⟩
  cases written with
  | ok u => exact ⟨⟨hh,hs.1⟩,hs.2⟩
  | error e => exact ⟨hh,hs.1⟩

theorem phase_leaves (h : AtPhase key address job w)
    (hk : isSet job.checkpoint = true → after job) (hw : Executes libs config blake3 key address (work job).run
      (Outcome (fun _ w' => Holding key address { job with checkpoint := set job.checkpoint } w')
        (fun _ w' => Holding key address job w')) w)
        (hs : ∀ n, after { job with checkpoint := set job.checkpoint, revision := n }) :
    Executes libs config blake3 key address (Lifecycle.phase isSet set work job) (AfterPhase key address after) w := by
  unfold Lifecycle.phase
  cases hi : isSet job.checkpoint with
  | true => exact ⟨h,hk hi⟩
  | false =>
    refine Keeps.bind (hw.mono (fun r w' hr => ?_))
    cases r with
    | error e => exact ⟨hr,h.2⟩
    | ok u => exact update_leaves ⟨hr,h.2⟩ (hs _) (hs _)

theorem andThen_leaves {first second : OnJob} {middle after : LifecycleJob → Prop}
    (h : Executes libs config blake3 key address (first job) (AfterPhase key address middle) w)
    (hs : ∀ job w, AtPhase key address job w → middle job →
      Executes libs config blake3 key address (second job) (AfterPhase key address after) w) :
    Executes libs config blake3 key address (first.andThen second job) (AfterPhase key address after) w := by
  refine Keeps.bind (h.mono (fun left w' hl => ?_))
  obtain ⟨r,job'⟩ := left
  cases r with
  | ok u => exact hs job' w' hl.1 hl.2
  | error e => exact hl

theorem aside_leaves (hs : ∀ c, (set c).content = c.content)
    (ha : ∀ job job' : LifecycleJob, job'.checkpoint.content = job.checkpoint.content → after job → after job')
    (hw : (work job).run.Only Harmless) (h : AtPhase key address job w) (hj : after job) :
    Executes libs config blake3 key address (Lifecycle.phase isSet set work job) (AfterPhase key address after) w := by
  refine phase_leaves h (fun _ => hj) ((harmless_keeps hw h.1).mono (fun r w' hr => ?_))
    (fun n => ha job _ (hs _) hj)
  cases r with
  | ok u => exact ⟨hr.1,hr.2.of_job rfl rfl (hs _)⟩
  | error e => exact hr

theorem contentPhase_leaves (h : AtPhase key address job w) :
    Executes libs config blake3 key address (Lifecycle.contentPhase job)
      (AfterPhase key address (fun job => job.checkpoint.content = true)) w := by
  refine phase_leaves h id ⟨trivial,fun r w' hr => ?_⟩ (fun _ => rfl)
  have ha : Holding key address job w' := harmless_settles (c := .delete job.uri) trivial h.1 hr
  cases r with
  | error e => exact ha
  | ok u =>
    refine ⟨ha.1,ha.2.addressed,fun hk _ => ?_⟩
    obtain ⟨s,t,-,-,he,hw⟩ := stores_of_reply hr
    rw [hw]
    exact (exec_delete_absent job.uri).2 (h.1.2.addressed hk) u he

theorem manifestWork_harmless (job : LifecycleJob) : (Lifecycle.manifestWork job).run.Only Harmless := by
  apply Lifecycle.manifestWork_only
  intro c hq hw
  cases c with
  | write e => exact absurd rfl (hw e)
  | _ => exact hq

theorem executePhases_leaves (h : AtPhase key address job w) :
    Executes libs config blake3 key address (Lifecycle.executePhases job)
      (AfterPhase key address (fun job => job.checkpoint.content = true)) w := by
  have hs : ∀ job job' : LifecycleJob, job'.checkpoint.content = job.checkpoint.content → job.checkpoint.content = true →
      job'.checkpoint.content = true := fun job job' he h => he.trans h
  have hf : Executes libs config blake3 key address (Lifecycle.manifestPhase job)
      (AfterPhase key address (fun _ => True)) w :=
    aside_leaves (fun _ => rfl) (fun _ _ _ _ => trivial) (manifestWork_harmless job) h trivial
  refine andThen_leaves hf (fun job w h _ => ?_)
  have hv : Executes libs config blake3 key address (Lifecycle.vectorPhase job)
      (AfterPhase key address (fun _ => True)) w :=
    aside_leaves (fun _ => rfl) (fun _ _ _ _ => trivial) (.ask trivial) h trivial
  refine andThen_leaves hv (fun job w h _ => ?_)
  have hg : Executes libs config blake3 key address (Lifecycle.graphPhase job)
      (AfterPhase key address (fun _ => True)) w :=
    aside_leaves (fun _ => rfl) (fun _ _ _ _ => trivial)
      (.andThen (.ask trivial) (fun _ => .forM (fun _ => .ask trivial) _)) h trivial
  refine andThen_leaves hg (fun job w h _ => ?_)
  refine andThen_leaves (contentPhase_leaves h) (fun job w h hc => ?_)
  exact aside_leaves (fun _ => rfl) hs (.andThen (.ask trivial) (fun _ => .forM (fun _ => .ask trivial) _)) h hc

end Phases

section Passes

variable {libraries libs : StoreLibraries} {config : BatchWriteConfig} {blake3 : List ℕ → ContentHash} {key address : String}
  {w : World} {job : LifecycleJob}

theorem concluded_leaves {result : Except ContextError Unit}
    (h : AfterPhase key address (fun job => job.checkpoint.content = true) (result, job) w) :
    Executes libs config blake3 key address (Lifecycle.concluded result job)
    (fun job' w' => Holding key address job' w' ∧ (job'.state = .succeeded → job'.checkpoint.content = true)) w := by
  have hn : Lifecycle.now.Only Harmless := .ask trivial
  cases result with
  | ok u =>
    refine Keeps.bind ((harmless_keeps hn h.1.1).mono (fun at_ w' hh => ?_))
    exact ⟨⟨hh.1,hh.2.of_job rfl rfl rfl⟩,fun _ => h.2⟩
  | error e =>
    refine Keeps.bind ((harmless_keeps hn h.1).mono (fun next w' hh => ?_))
    refine Keeps.bind ((harmless_keeps hn hh).mono (fun at_ w' hh => ?_))
    refine ⟨⟨hh.1,hh.2.of_job rfl rfl rfl⟩,fun hs => ?_⟩
    have hf : (if job.maxAttempts ≤ job.attempts then Lifecycle.LifecycleJobState.permanentlyFailed
        else .retryable) = .succeeded := hs
    split at hf <;> cases hf

theorem execute_leaves (h : Holding key address job w) :
    Executes libs config blake3 key address (Lifecycle.execute job).run
      (Outcome (fun _ w' => Settled key address w'.stores) (fun _ w' => Settled key address w'.stores)) w := by
  have hn : Lifecycle.now.Only Harmless := .ask trivial
  refine .lift ((harmless_keeps hn h).mono (fun at_ w' h => ?_))
  have ht : Holding key address
      ({ job with state := .running, attempts := job.attempts+1 }.audited at_ "attempt started") w' :=
    ⟨h.1,h.2.of_job rfl rfl rfl⟩
  refine .lift ⟨trivial,?_⟩
  rintro ⟨written,job'⟩ w'' hr
  obtain ⟨hj',hh⟩ := update_settles ht (fun _ hs => by cases hs) hr
  cases written with
  | error e => exact hh.1
  | ok u =>
    have hu : job'.state = .running := by rcases hj' with rfl | rfl <;> rfl
    refine .lift ((executePhases_leaves ⟨hh,hu⟩).mono ?_)
    rintro ⟨result,last⟩ w' hp
    refine .lift ((concluded_leaves hp).mono (fun final w' hf => ?_))
    refine .lift ⟨trivial,?_⟩
    rintro ⟨written,final'⟩ w'' hr
    have hl := (update_settles hf.1 (fun _ hs => hf.2 hs) hr).2
    cases written <;> exact hl.1

theorem attempt_leaves (other : String) (owner : Uuid) (h : Settled key address w.stores) :
    Executes libs config blake3 key address (Lifecycle.attempt other owner).run
      (Outcome (fun _ w' => Settled key address w'.stores) (fun _ w' => Settled key address w'.stores)) w := by
  refine .lift ((idle_keeps (p := Lifecycle.now) (.ask trivial) h).mono (fun at_ w' h => ?_))
  refine .andThen ⟨trivial,fun r w'' hr => ?_⟩
  obtain ⟨hs,hg⟩ := claim_settles h hr
  cases r with
  | error e => exact hs
  | ok found =>
    cases found with
    | none => exact hs
    | some job =>
      refine .andThen ((execute_leaves (hg job rfl)).mono (fun r w' hr => ?_))
      cases r <;> exact hr

end Passes

/-- Every job is under the key that `submit` gives it. -/
def Filed (journal : Std.ExtTreeMap String LifecycleJob) : Prop :=
  ∀ (key : String) (job : LifecycleJob), journal[key]? = some job →
    job.idempotencyKey = key ∧ (newJob 0 job.uri job.operation 0).idempotencyKey = key

section Samples

open Lifecycle (sampleLibraries sampleUri)

end Samples

end UwuContextDb.Sleeptime
