import UwuContextDb.Library.Run

/-! Shutting the facade down: admission, guards and notifications, step by step, with any number of calls and of callers of
`shutdown`. -/

namespace UwuContextDb.Facade.Shutdown

open StateMachine

/-- Where a facade call stands: in `admit`, before and after each of its reads and writes; with its guard; or, in a
call that does not take one, without. -/
inductive CallState
  | arriving
  | opening
  | counted
  | refused
  | admitted
  | operating
  | dropping
  | notifying
  | bare
  | bareOperating
  | over
  deriving DecidableEq

/-- Where a caller of `shutdown` stands; `shutting k` waits for the guard `k`. -/
inductive ShutdownState
  | entering
  | checking
  | creating
  | waiting
  | locking
  | locked
  | shutting (k : ℕ)
  | over
  deriving DecidableEq

/-- `begun` tells whether the shutdown of a runtime guard has begun. -/
structure State where
  accepting : Bool
  inFlight : ℕ
  calls : List CallState
  shutdowns : List ShutdownState
  shutdownLock : Option ℕ
  shutdownResult : Option (Except String Unit)
  begun : Bool

def State.init : State := ⟨true, 0, [], [], none, none, false⟩

def ShutdownState.drained : ShutdownState → Bool
  | .locking | .locked | .shutting _ => true
  | _ => false

namespace CallState

/-- Whether the call is counted in `in_flight`. -/
def inFlight : CallState → Bool
  | .counted | .refused | .admitted | .operating | .dropping => true
  | _ => false

def runs : CallState → Bool
  | .operating | .bareOperating => true
  | _ => false

/-- The next step of a call; `proceed` tells whether it has time left to start its operation. -/
def next (s : State) (proceed : Bool) : CallState → CallState
  | .arriving => if s.accepting then .opening else .over
  | .opening => .counted
  | .counted => if s.accepting then .admitted else .refused
  | .admitted => if proceed then .operating else .dropping
  | .operating => .dropping
  | .refused | .dropping => if s.inFlight = 1 then .notifying else .over
  | .bare => if proceed then .bareOperating else .over
  | .notifying | .bareOperating | .over => .over

/-- What the step does to `in_flight`. -/
def recount (n : ℕ) : CallState → ℕ
  | .opening => n + 1
  | .refused | .dropping => n - 1
  | _ => n

/-- `notify_waiters` wakes the callers of `shutdown` that wait. -/
def wake (shutdowns : List ShutdownState) : CallState → List ShutdownState
  | .notifying => shutdowns.map (fun w => if w = .waiting then .checking else w)
  | _ => shutdowns

end CallState

section Steps

variable (guards : ℕ)

def State.setShutdown (s : State) (i : ℕ) (w : ShutdownState) : State := { s with shutdowns := s.shutdowns.set i w }

/-- A caller of `shutdown` returns and releases the lock. -/
def State.release (s : State) (i : ℕ) (result : Option (Except String Unit)) : State :=
  { s.setShutdown i .over with shutdownLock := none, shutdownResult := result }

def stepCall (s : State) (i : ℕ) (proceed : Bool) : State :=
  match s.calls[i]? with
  | none => s
  | some c =>
    { s with
      inFlight := c.recount s.inFlight
      calls := s.calls.set i (c.next s proceed)
      shutdowns := c.wake s.shutdowns }

/-- `shutdown`, over `guards` runtime guards; `outcome` is that of the guard that it waits for. -/
def stepShutdown (s : State) (i : ℕ) (outcome : Except String Unit) : State :=
  match s.shutdowns[i]? with
  | some .entering => { s.setShutdown i .checking with accepting := false }
  | some .checking => s.setShutdown i (if s.inFlight = 0 then .locking else .creating)
  | some .creating => s.setShutdown i .waiting
  | some .locking => if s.shutdownLock = none then { s.setShutdown i .locked with shutdownLock := some i } else s
  | some .locked =>
    match s.shutdownResult with
    | some (.ok ()) => s.release i s.shutdownResult
    | _ => if guards = 0 then s.release i (some (.ok ())) else { s.setShutdown i (.shutting 0) with begun := true }
  | some (.shutting k) =>
    match outcome with
    | .error e => s.release i (some (.error e))
    | .ok () => if k + 1 < guards then s.setShutdown i (.shutting (k + 1)) else s.release i (some (.ok ()))
  | _ => s

/-- A caller of `shutdown` is dropped where it awaits something. -/
def dropShutdown (s : State) (i : ℕ) : State :=
  match s.shutdowns[i]? with
  | some .waiting | some .locking => s.setShutdown i .over
  | some .locked | some (.shutting _) => s.release i s.shutdownResult
  | _ => s

inductive Event
  | arrive
  | arriveBare
  | call (i : ℕ) (proceed : Bool)
  | shutdown
  | step (i : ℕ) (outcome : Except String Unit)
  | drop (i : ℕ)

def step (s : State) : Event → State
  | .arrive => { s with calls := s.calls ++ [.arriving] }
  | .arriveBare => { s with calls := s.calls ++ [.bare] }
  | .call i proceed => stepCall s i proceed
  | .shutdown => { s with shutdowns := s.shutdowns ++ [.entering] }
  | .step i outcome => stepShutdown guards s i outcome
  | .drop i => dropShutdown s i

/-- No operation runs when the shutdown of the first guard begins, and none starts afterwards; and nobody waits for a drain
of which no notification will come. -/
structure Drains (s : State) (e : Event) : Prop where
  quiet : s.begun = false → (step guards s e).begun = true → ∀ c ∈ s.calls, c.runs = false
  closed : s.begun = true → ∀ (i : ℕ) (c : CallState), (step guards s e).calls[i]? = some c → c.runs = true →
    s.calls[i]? = some c
  awake : .waiting ∈ (step guards s e).shutdowns → (step guards s e).inFlight ≠ 0 ∨ .notifying ∈ (step guards s e).calls

/-- A step that needs no care, or that does not meet what goes wrong: no call without a guard runs when the first
runtime guard is shut down, and none starts its operation afterwards; and a caller of `shutdown` does not come to wait
for a notification that has been sent before. -/
def Orderly (s : State) : Event → Prop
  | .call i proceed => s.calls[i]? = some .bare → proceed = true → s.begun = false
  | .step i _ =>
    (s.shutdowns[i]? = some .creating → s.inFlight ≠ 0 ∨ .notifying ∈ s.calls) ∧
      (s.shutdowns[i]? = some .locked → s.begun = false → s.shutdownResult ≠ some (.ok ()) → guards ≠ 0 →
        .bareOperating ∉ s.calls)
  | _ => True

end Steps

structure Kept (s : State) : Prop where
  counted : s.inFlight = s.calls.countP CallState.inFlight
  shut : (s.begun = true ∨ ∃ w ∈ s.shutdowns, w ≠ .entering) → s.accepting = false
  drained : (s.begun = true ∨ ∃ w ∈ s.shutdowns, w.drained = true) →
    ∀ c ∈ s.calls, c ≠ .admitted ∧ c ≠ .operating
  awake : .waiting ∈ s.shutdowns → s.inFlight ≠ 0 ∨ .notifying ∈ s.calls

variable {i : ℕ} {w : ShutdownState} {proceed : Bool} {s' : State}

section Invariant

variable {guards : ℕ} {s : State}

theorem kept_init : Kept .init := by
  refine ⟨rfl,?_,?_,?_⟩
  · rintro (hb | ⟨w,hw,-⟩)
    · cases hb
    · cases hw
  · rintro (hb | ⟨w,hw,-⟩)
    · cases hb
    · cases hw
  · intro ha
    cases ha

theorem mem_set_of_ne {c d e : CallState} {calls : List CallState} (hi : calls[i]? = some c)
    (hd : d ∈ calls) (hn : d ≠ c) :
    d ∈ calls.set i e := by
  obtain ⟨j,hj⟩ := List.mem_iff_getElem?.mp hd
  refine List.mem_iff_getElem?.mpr ⟨j,?_⟩
  have hij : i ≠ j := by
    rintro rfl
    exact hn (Option.some.inj (hj.symm.trans hi))
  rw [List.getElem?_set_ne hij]
  exact hj

variable {c : CallState} {shutdowns : List ShutdownState}

theorem mem_wake (h : w ∈ c.wake shutdowns) : w ∈ shutdowns ∨ w = .checking ∧ .waiting ∈ shutdowns := by
  unfold CallState.wake at h
  split at h
  · obtain ⟨w',hw',he⟩ := List.mem_map.mp h
    split at he
    · rename_i ha
      exact .inr ⟨he.symm,ha ▸ hw'⟩
    · exact .inl (he ▸ hw')
  · exact .inl h

theorem next_not_admitted (hs : s.accepting = false) (h : c ≠ .admitted ∧ c ≠ .operating) :
    c.next s proceed ≠ .admitted ∧ c.next s proceed ≠ .operating := by
  cases c with
  | admitted => exact absurd rfl h.1
  | operating => exact absurd rfl h.2
  | arriving | counted =>
    simp [CallState.next,hs]
  | refused | dropping | bare =>
    simp only [CallState.next]
    split <;> simp
  | _ => simp [CallState.next]

theorem waiting_of_wake (h : .waiting ∈ c.wake shutdowns) : c ≠ .notifying ∧ .waiting ∈ shutdowns := by
  have hn : c ≠ .notifying := by
    rintro rfl
    obtain ⟨w,-,he⟩ := List.mem_map.mp h
    split at he
    · cases he
    · exact absurd he (by assumption)
  refine ⟨hn,?_⟩
  rcases mem_wake h with ho | ⟨he,-⟩
  · exact ho
  · cases he

theorem recount_next (c : CallState) (proceed : Bool) (hp : c.inFlight = true → 0 < s.inFlight) :
    c.recount s.inFlight = s.inFlight - (if c.inFlight = true then 1 else 0) +
      if (c.next s proceed).inFlight = true then 1 else 0 := by
  cases c with
  | arriving => cases ha : s.accepting <;> simp [CallState.next,CallState.recount,CallState.inFlight,ha]
  | bare => cases proceed <;> simp [CallState.next,CallState.recount,CallState.inFlight]
  | counted =>
    have hi := hp rfl
    cases ha : s.accepting <;> simp [CallState.next,CallState.recount,CallState.inFlight,ha] <;> omega
  | admitted =>
    have hi := hp rfl
    cases proceed <;> simp [CallState.next,CallState.recount,CallState.inFlight] <;> omega
  | operating =>
    have hi := hp rfl
    simp [CallState.next,CallState.recount,CallState.inFlight]
    omega
  | refused | dropping =>
    by_cases ho : s.inFlight = 1 <;> simp [CallState.next,CallState.recount,CallState.inFlight,ho]
  | _ => simp [CallState.next,CallState.recount,CallState.inFlight]

theorem recount_zero (hn : s.inFlight ≠ 0) (hz : c.recount s.inFlight = 0) : c.next s proceed = .notifying := by
  cases c with
  | opening => cases hz
  | refused | dropping =>
    have ho : s.inFlight = 1 := by
      have hm : s.inFlight - 1 = 0 := hz
      omega
    exact if_pos ho
  | _ => exact absurd hz hn

theorem Kept.shut_of_drained (h : Kept s) (hd : s.begun = true ∨ ∃ w ∈ s.shutdowns, w.drained = true) :
    s.accepting = false := by
  rcases hd with hb | ⟨w,hw,hs⟩
  · exact h.shut (.inl hb)
  · refine h.shut (.inr ⟨w,hw,?_⟩)
    rintro rfl
    cases hs

theorem Kept.stepCall (h : Kept s) (i : ℕ) (proceed : Bool) : Kept (stepCall s i proceed) := by
  unfold Shutdown.stepCall
  split
  · exact h
  rename_i c hc
  obtain ⟨hl,hg⟩ := List.getElem?_eq_some_iff.mp hc
  have hm : c ∈ s.calls := List.mem_of_getElem? hc
  refine ⟨?_,?_,?_,?_⟩
  · show c.recount s.inFlight = (s.calls.set i (c.next s proceed)).countP CallState.inFlight
    rw [List.countP_set hl,hg,← h.counted]
    refine recount_next c proceed (fun hi => ?_)
    rw [h.counted]
    exact List.countP_pos_iff.mpr ⟨c,hm,hi⟩
  · rintro (hb | ⟨w,hw,hn⟩)
    · exact h.shut (.inl hb)
    · rcases mem_wake hw with ho | ⟨-,ha⟩
      · exact h.shut (.inr ⟨w,ho,hn⟩)
      · exact h.shut (.inr ⟨.waiting,ha,by simp⟩)
  · intro hr
    have he : s.begun = true ∨ ∃ w ∈ s.shutdowns, w.drained = true := by
      rcases hr with hb | ⟨w,hw,hs⟩
      · exact .inl hb
      · rcases mem_wake hw with ho | ⟨rfl,-⟩
        · exact .inr ⟨w,ho,hs⟩
        · cases hs
    have hh := h.shut_of_drained he
    intro d hd
    rcases List.mem_or_eq_of_mem_set hd with ho | rfl
    · exact h.drained he d ho
    · exact next_not_admitted hh (h.drained he c hm)
  · intro ha
    obtain ⟨hn,ha⟩ := waiting_of_wake ha
    rcases h.awake ha with hf | ht
    · by_cases hz : c.recount s.inFlight = 0
      · refine .inr ?_
        show .notifying ∈ s.calls.set i (c.next s proceed)
        rw [recount_zero hf hz]
        exact List.mem_set hl _
      · exact .inl hz
    · exact .inr (mem_set_of_ne hc ht hn.symm)

theorem Kept.moved (h : Kept s) (hc : s'.calls = s.calls)
    (hf : s'.inFlight = s.inFlight) (hs : s'.shutdowns = s.shutdowns.set i w)
    (ha : s.accepting = false ∨ w ≠ .entering → s'.accepting = false)
    (hb : s'.begun = true → s.begun = true ∨ ∃ w ∈ s.shutdowns, w.drained = true)
    (hd : w.drained = true → ∀ c ∈ s.calls, c ≠ .admitted ∧ c ≠ .operating)
    (hi : w = .waiting → s.inFlight ≠ 0 ∨ .notifying ∈ s.calls) : Kept s' := by
  refine ⟨by rw [hf,hc]; exact h.counted,?_,?_,?_⟩
  · rintro (hn | ⟨w',hw',he⟩)
    · exact ha (.inl (h.shut_of_drained (hb hn)))
    · rw [hs] at hw'
      rcases List.mem_or_eq_of_mem_set hw' with ho | rfl
      · exact ha (.inl (h.shut (.inr ⟨w',ho,he⟩)))
      · exact ha (.inr he)
  · rw [hc]
    rintro (hn | ⟨w',hw',ht⟩)
    · exact h.drained (hb hn)
    · rw [hs] at hw'
      rcases List.mem_or_eq_of_mem_set hw' with ho | rfl
      · exact h.drained (.inr ⟨w',ho,ht⟩)
      · exact hd ht
  · intro hn
    rw [hc,hf]
    rw [hs] at hn
    rcases List.mem_or_eq_of_mem_set hn with ho | hq
    · exact h.awake ho
    · exact hi hq.symm

theorem Kept.movedOn {v : ShutdownState} (h : Kept s) (hv : s.shutdowns[i]? = some v)
    (hne : v ≠ .entering) (ha : s'.calls = s.calls) (hf : s'.inFlight = s.inFlight)
    (hh : s'.shutdowns = s.shutdowns.set i w) (hac : s'.accepting = s.accepting)
    (hb : s'.begun = true → s.begun = true ∨ v.drained = true)
    (hd : w.drained = true → v.drained = true ∨ s.inFlight = 0)
    (hw : w = .waiting → s.inFlight ≠ 0 ∨ .notifying ∈ s.calls) : Kept s' := by
  have hm := List.mem_of_getElem? hv
  refine h.moved ha hf hh ?_ ?_ ?_ hw
  · intro _
    rw [hac]
    exact h.shut (.inr ⟨v,hm,hne⟩)
  · intro hn
    exact (hb hn).imp_right (fun hs => ⟨v,hm,hs⟩)
  · intro hs
    rcases hd hs with he | hz
    · exact h.drained (.inr ⟨v,hm,he⟩)
    · -- whoever is admitted is in flight
      have hno : s.calls.countP CallState.inFlight = 0 := by rw [← h.counted,hz]
      intro c hc
      have ho := List.countP_eq_zero.mp hno c hc
      refine ⟨?_,?_⟩
      · rintro rfl
        exact ho rfl
      · rintro rfl
        exact ho rfl

theorem Kept.stepShutdown (h : Kept s) (out : Except String Unit)
    (hc : s.shutdowns[i]? = some .creating → s.inFlight ≠ 0 ∨ .notifying ∈ s.calls) :
    Kept (stepShutdown guards s i out) := by
  unfold Shutdown.stepShutdown
  split
  · exact h.moved rfl rfl rfl (fun _ => rfl) .inl (fun hs => by cases hs) (fun he => by cases he)
  · rename_i hv
    split
    · rename_i hz
      exact h.movedOn hv (by simp) rfl rfl rfl rfl .inl (fun _ => .inr hz) (fun he => by cases he)
    · exact h.movedOn hv (by simp) rfl rfl rfl rfl .inl (fun hs => by cases hs) (fun he => by cases he)
  · rename_i hv
    exact h.movedOn hv (by simp) rfl rfl rfl rfl .inl (fun hs => by cases hs) (fun _ => hc hv)
  · rename_i hv
    split
    · exact h.movedOn hv (by simp) rfl rfl rfl rfl .inl (fun _ => .inl rfl) (fun he => by cases he)
    · exact h
  · rename_i hv
    split
    · exact h.movedOn hv (by simp) rfl rfl rfl rfl .inl (fun hs => by cases hs) (fun he => by cases he)
    · split
      · exact h.movedOn hv (by simp) rfl rfl rfl rfl .inl (fun hs => by cases hs) (fun he => by cases he)
      · exact h.movedOn hv (by simp) rfl rfl rfl rfl (fun _ => .inr rfl) (fun _ => .inl rfl) (fun he => by cases he)
  · rename_i k hv
    split
    · exact h.movedOn hv (by simp) rfl rfl rfl rfl .inl (fun hs => by cases hs) (fun he => by cases he)
    · split
      · exact h.movedOn hv (by simp) rfl rfl rfl rfl .inl (fun _ => .inl rfl) (fun he => by cases he)
      · exact h.movedOn hv (by simp) rfl rfl rfl rfl .inl (fun hs => by cases hs) (fun he => by cases he)
  · exact h

theorem Kept.dropShutdown (h : Kept s) (i : ℕ) : Kept (dropShutdown s i) := by
  unfold Shutdown.dropShutdown
  split
  · rename_i hv
    exact h.movedOn hv (by simp) rfl rfl rfl rfl .inl (fun hs => by cases hs) (fun he => by cases he)
  · rename_i hv
    exact h.movedOn hv (by simp) rfl rfl rfl rfl .inl (fun hs => by cases hs) (fun he => by cases he)
  · rename_i hv
    exact h.movedOn hv (by simp) rfl rfl rfl rfl .inl (fun hs => by cases hs) (fun he => by cases he)
  · rename_i k hv
    exact h.movedOn hv (by simp) rfl rfl rfl rfl .inl (fun hs => by cases hs) (fun he => by cases he)
  · exact h

theorem Kept.arrived (h : Kept s) (hc : c = .arriving ∨ c = .bare) : Kept { s with calls := s.calls++[c] } := by
  refine ⟨?_,h.shut,?_,?_⟩
  · show s.inFlight = (s.calls++[c]).countP CallState.inFlight
    rw [List.countP_append,← h.counted]
    rcases hc with rfl | rfl <;> rfl
  · intro hr d hd
    rcases List.mem_append.mp hd with ho | hn
    · exact h.drained hr d ho
    · rw [List.mem_singleton.mp hn]
      rcases hc with rfl | rfl <;> simp
  · intro hw
    exact (h.awake hw).imp_right (List.mem_append_left _)

theorem Kept.entered (h : Kept s) : Kept { s with shutdowns := s.shutdowns++[.entering] } := by
  have ho : ∀ {w}, w ∈ s.shutdowns ++ [.entering] → w ≠ .entering → w ∈ s.shutdowns := by
    intro w hw hn
    rcases List.mem_append.mp hw with ho | he
    · exact ho
    · exact absurd (List.mem_singleton.mp he) hn
  refine ⟨h.counted,?_,?_,fun ha => h.awake (ho ha (by simp))⟩
  · rintro (hb | ⟨w,hw,hn⟩)
    · exact h.shut (.inl hb)
    · exact h.shut (.inr ⟨w,ho hw hn,hn⟩)
  · rintro (hb | ⟨w,hw,hs⟩)
    · exact h.drained (.inl hb)
    · refine h.drained (.inr ⟨w,ho hw ?_,hs⟩)
      rintro rfl
      cases hs

theorem Kept.step (h : Kept s) (e : Event) (ho : Orderly guards s e) : Kept (step guards s e) := by
  cases e with
  | arrive => exact h.arrived (.inl rfl)
  | arriveBare => exact h.arrived (.inr rfl)
  | call i proceed => exact h.stepCall i proceed
  | shutdown => exact h.entered
  | step i out => exact h.stepShutdown out ho.1
  | drop i => exact h.dropShutdown i

end Invariant

section Steps

variable {guards : ℕ} {s : State}

def Begins (guards : ℕ) (s : State) (i : ℕ) : Prop :=
  s.shutdowns[i]? = some .locked ∧ s.shutdownResult ≠ some (.ok ()) ∧ guards ≠ 0

theorem begun_stepShutdown (i : ℕ) (out : Except String Unit) :
    (stepShutdown guards s i out).begun = true ↔ s.begun = true ∨ Begins guards s i := by
  have hs : ∀ {s' : State}, s'.begun = s.begun → ¬ Begins guards s i →
      (s'.begun = true ↔ s.begun = true ∨ Begins guards s i) := by
    intro s' he ht
    rw [he,or_iff_left ht]
  have ho : ∀ {v : ShutdownState}, s.shutdowns[i]? = some v → v ≠ .locked → ¬ Begins guards s i := by
    rintro v hv hn ⟨hl,-⟩
    exact hn (Option.some.inj (hv.symm.trans hl))
  unfold stepShutdown
  split
  · rename_i hv
    exact hs rfl (ho hv (by simp))
  · rename_i hv
    exact hs rfl (ho hv (by simp))
  · rename_i hv
    exact hs rfl (ho hv (by simp))
  · rename_i hv
    split
    · exact hs rfl (ho hv (by simp))
    · exact hs rfl (ho hv (by simp))
  · rename_i hv
    split
    · rename_i hr
      refine hs rfl ?_
      rintro ⟨-,hn,-⟩
      exact hn hr
    · rename_i hr
      split
      · rename_i hg
        refine hs rfl ?_
        rintro ⟨-,-,hn⟩
        exact hn hg
      · rename_i hg
        exact iff_of_true rfl (.inr ⟨hv,hr,hg⟩)
  · rename_i k hv
    split
    · exact hs rfl (ho hv (by simp))
    · split
      · exact hs rfl (ho hv (by simp))
      · exact hs rfl (ho hv (by simp))
  · refine hs rfl ?_
    rintro ⟨hl,-⟩
    simp_all

theorem calls_stepShutdown (i : ℕ) (out : Except String Unit) : (stepShutdown guards s i out).calls = s.calls := by
  unfold stepShutdown
  split
  · rfl
  · rfl
  · rfl
  · split <;> rfl
  · split
    · rfl
    · split <;> rfl
  · split
    · rfl
    · split <;> rfl
  · rfl

theorem dropShutdown_same (i : ℕ) : (dropShutdown s i).calls = s.calls ∧ (dropShutdown s i).begun = s.begun := by
  unfold dropShutdown
  split <;> exact ⟨rfl,rfl⟩

theorem begun_stepCall (i : ℕ) (proceed : Bool) : (stepCall s i proceed).begun = s.begun := by
  unfold stepCall
  split <;> rfl

theorem runs_next {c : CallState} (h : (c.next s proceed).runs = true) :
    c = .admitted ∨ c = .bare ∧ proceed = true := by
  cases c with
  | admitted => exact .inl rfl
  | bare =>
    cases proceed with
    | true => exact .inr ⟨rfl,rfl⟩
    | false => cases h
  | arriving => cases ha : s.accepting <;> simp [CallState.next,CallState.runs,ha] at h
  | counted => cases ha : s.accepting <;> simp_all [CallState.next,CallState.runs]
  | refused | dropping =>
    by_cases ho : s.inFlight = 1 <;> simp [CallState.next,CallState.runs,ho] at h
  | _ => cases h

theorem drains_iff_orderly (h : Kept s) (e : Event) : Drains guards s e ↔ Orderly guards s e := by
  constructor
  · intro hr
    cases e with
    | call i proceed =>
      rintro ha rfl
      by_contra hb
      have hl := (List.getElem?_eq_some_iff.mp ha).1
      have hrn : (step guards s (.call i true)).calls[i]? = some .bareOperating := by
        show (stepCall s i true).calls[i]? = some .bareOperating
        unfold stepCall
        rw [ha]
        exact List.getElem?_set_self hl
      have he := hr.closed (by simpa using hb) i .bareOperating hrn rfl
      cases ha.symm.trans he
    | step i out =>
      refine ⟨fun hcr => ?_,fun ho hb hre hg hm => ?_⟩
      · have hl := (List.getElem?_eq_some_iff.mp hcr).1
        have ht : step guards s (.step i out) = s.setShutdown i .waiting := by simp [step,stepShutdown,hcr]
        have hw := hr.awake
        rw [ht] at hw
        exact hw (List.mem_set hl _)
      · have hn : (step guards s (.step i out)).begun = true :=
          (begun_stepShutdown i out).mpr (.inr ⟨ho,hre,hg⟩)
        exact absurd (hr.quiet hb hn _ hm) (by decide)
    | _ => trivial
  · intro hor
    have hx := h.step e hor
    refine ⟨fun hb hn c hc => ?_,fun hb j c hj hu => ?_,hx.awake⟩
    · cases e with
      | step i out =>
        obtain ⟨ho,hre,hg⟩ := ((begun_stepShutdown i out).mp hn).resolve_left (by simp [hb])
        have ha := hor.2 ho hb hre hg
        obtain ⟨-,hp⟩ := h.drained (.inr ⟨.locked,List.mem_of_getElem? ho,rfl⟩) c hc
        cases c with
        | operating => exact absurd rfl hp
        | bareOperating => exact absurd hc ha
        | _ => rfl
      | call i proceed =>
        rw [step,begun_stepCall,hb] at hn
        cases hn
      | drop i =>
        rw [step,(dropShutdown_same i).2,hb] at hn
        cases hn
      | arrive | arriveBare | shutdown =>
        have he : s.begun = true := hn
        rw [hb] at he
        cases he
    · have hne : ∀ {d : CallState}, d.runs = false → (s.calls++[d])[j]? = some c → s.calls[j]? = some c := by
        intro d hd hs
        rcases Nat.lt_trichotomy j s.calls.length with hl | hq | hgt
        · rwa [List.getElem?_append_left hl] at hs
        · rw [hq,List.getElem?_concat_length] at hs
          obtain rfl := Option.some.inj hs
          rw [hd] at hu
          cases hu
        · rw [List.getElem?_eq_none (by simp; omega)] at hs
          cases hs
      cases e with
      | arrive => exact hne rfl hj
      | arriveBare => exact hne rfl hj
      | shutdown => exact hj
      | step i out => rwa [step,calls_stepShutdown] at hj
      | drop i => rwa [step,(dropShutdown_same i).1] at hj
      | call i proceed =>
        rw [step] at hj
        unfold stepCall at hj
        split at hj
        · exact hj
        · rename_i d hd
          by_cases hi : i = j
          · subst hi
            have hl := (List.getElem?_eq_some_iff.mp hd).1
            dsimp only at hj
            rw [List.getElem?_set_self hl] at hj
            obtain rfl := Option.some.inj hj
            rcases runs_next hu with rfl | ⟨rfl,hpr⟩
            · exact absurd rfl (h.drained (.inl hb) _ (List.mem_of_getElem? hd)).1
            · rw [hor hd hpr] at hb
              cases hb
          · dsimp only at hj
            rwa [List.getElem?_set_ne hi] at hj

end Steps

/-- Every step of a run drains exactly if all of them are orderly. -/
theorem shutdown_drains_iff (guards : ℕ) (events : List Event) :
    (∀ front e, front ++ [e] <+: events → Drains guards (run (step guards) .init front) e) ↔
      Meets (step guards) (Orderly guards) .init events := by
  have hi : ∀ s, ∀ e ∈ events, Kept s → (Drains guards s e ↔ Orderly guards s e) := fun s e _ h => drains_iff_orderly h e
  have hs : ∀ s, ∀ e ∈ events, Kept s → Orderly guards s e → Kept (step guards s e) :=
    fun s e _ h ho => h.step e ho
  rw [← meets_congr hi hs kept_init, meets_iff_front]

/-- The last guard is dropped between the test of a caller of `shutdown` and the moment when it begins to wait. -/
def lostWakeup : List Event :=
  [.arrive, .call 0 true, .call 0 true, .call 0 true, .shutdown, .step 0 (.ok ()), .step 0 (.ok ()),
    .call 0 true, .call 0 true, .call 0 true, .call 0 true]

def unguarded : List Event :=
  [.arriveBare, .call 0 true, .shutdown, .step 0 (.ok ()), .step 0 (.ok ()), .step 0 (.ok ())]

theorem shutdown_not_drains : ¬ Drains 1 (run (step 1) .init lostWakeup) (.step 0 (.ok ())) ∧
    ¬ Drains 1 (run (step 1) .init unguarded) (.step 0 (.ok ())) := by
  constructor
  · intro h
    exact absurd (h.awake (by decide)) (by decide)
  · intro h
    exact absurd (h.quiet (by decide) (by decide) .bareOperating (by decide)) (by decide)

end UwuContextDb.Facade.Shutdown
