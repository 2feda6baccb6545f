import Mathlib.Data.List.Induction
import UwuContextDb.Core.WatchRun

/-! Emits that run side by side: the number, the history and the channel are three steps of each of them. -/

namespace UwuContextDb.Watch

open StateMachine

inductive EmitStage | allocated | appended | sent deriving DecidableEq

structure Emit where
  event : ChangeEvent
  stage : EmitStage

/-- `history.push_back`, and the pops that follow, under the lock of the history. -/
def WatchHub.append (hub : WatchHub) (event : ChangeEvent) : WatchHub :=
  let history := hub.history ++ [event]
  { hub with history := history.drop (history.length - hub.historyCapacity) }

/-- `watch` takes a backlog from the history. -/
def WatchOptions.wantsBacklog (options : WatchOptions) : Bool := options.includeCurrent || options.fromCheckpoint.isSome

def WatchOptions.after (options : WatchOptions) : ℕ := options.fromCheckpoint.getD 0

variable (b : Broadcast ChangeEvent)

inductive Subscriber
  | closed
  | subscribed (rx : b.Receiver) (since : List ChangeEvent)
  | opened (s : WatchStream b) (since replayed : List ChangeEvent) (outputs : List (Except ContextError ChangeEvent))

structure Emitters where
  hub : WatchHub
  emits : List Emit
  subscriber : Subscriber b

inductive EmitAction
  | allocate (kind : ChangeKind) (uri : ContextUri) (toUri : Option ContextUri)
  (version : Option MvccVersion) (now : DateTime)
  | append (i : ℕ)
  | send (i : ℕ)
  | subscribe
  | snapshot
  | poll

variable {b}

namespace Subscriber

def since : Subscriber b → List ChangeEvent
  | .closed => []
  | .subscribed _ since => since
  | .opened _ since _ _ => since

def send (capacity : ℕ) (event : ChangeEvent) : Subscriber b → Subscriber b
  | .closed => .closed
  | .subscribed rx since => .subscribed (b.send capacity rx event) (since ++ [event])
  | .opened s since replayed outputs =>
    .opened { s with rx := b.send capacity s.rx event } (since ++ [event]) replayed outputs

end Subscriber

namespace Emitters

def new (b : Broadcast ChangeEvent) (buffer : ℕ) : Emitters b := ⟨.new buffer, [], .closed⟩

def step (options : WatchOptions) (sys : Emitters b) : EmitAction → Emitters b
  | .allocate kind uri toUri version now =>
    { sys with
      hub := { sys.hub with next := sys.hub.next + 1 }
      emits := sys.emits ++ [⟨.new sys.hub.next kind uri toUri version now, .allocated⟩] }
  | .append i =>
    match sys.emits[i]? with
    | some ⟨event, .allocated⟩ =>
      { sys with hub := sys.hub.append event, emits := sys.emits.set i ⟨event, .appended⟩ }
    | _ => sys
  | .send i =>
    match sys.emits[i]? with
    | some ⟨event, .appended⟩ =>
      { sys with
        emits := sys.emits.set i ⟨event, .sent⟩
        subscriber := sys.subscriber.send sys.hub.historyCapacity event }
    | _ => sys
  | .subscribe =>
    match sys.subscriber with
    | .closed => { sys with subscriber := .subscribed b.subscribe [] }
    | _ => sys
  | .snapshot =>
    match sys.subscriber with
    | .subscribed rx since =>
      let s := WatchStream.new sys.hub options rx
      { sys with subscriber := .opened s since s.backlog [] }
    | _ => sys
  | .poll =>
    match sys.subscriber with
    | .opened s since replayed outputs =>
      let (out, s) := s.poll sys.hub
      { sys with subscriber := .opened s since replayed (outputs ++ out.toList) }
    | _ => sys

def Lags (sys : Emitters b) : Prop :=
  ∃ s since replayed outputs skipped rx, sys.subscriber = .opened s since replayed outputs ∧
    b.recv s.rx = (.lagged skipped, rx)

/-- A sent event that the subscriber asked for: the ones after its checkpoint, where it wants the earlier ones
too; those sent since it subscribed, where it does not. -/
def Due (options : WatchOptions) (sys : Emitters b) (event : ChangeEvent) : Prop :=
  ⟨event, .sent⟩ ∈ sys.emits ∧ Matches options.uriPrefix event = true ∧
    if options.wantsBacklog then options.after < event.checkpoint else event ∈ sys.subscriber.since

/-- What the subscriber gets: no error, no event twice, only events of the hub that match, and every due event once
it has nothing left to read. -/
structure ReceivesOnce (options : WatchOptions) (sys : Emitters b) (s : WatchStream b)
    (outputs : List (Except ContextError ChangeEvent)) : Prop where
  received : ∃ events : List ChangeEvent, outputs = events.map .ok ∧ events.Nodup ∧
    (∀ event ∈ events, Matches options.uriPrefix event = true ∧ ∃ emit ∈ sys.emits, emit.event = event) ∧
    (s.backlog = [] → (∃ rx, b.recv s.rx = (.empty, rx)) → ∀ event, sys.Due options event → event ∈ events)

/-- While a subscriber is there, the channel is sent every event after those with smaller numbers; a history that
is to be replayed gets them so too, and still has what is to be replayed when the stream is opened. -/
def InOrder (options : WatchOptions) (sys : Emitters b) : EmitAction → Prop
  | .append i => options.wantsBacklog = true → (∀ s since replayed outputs, sys.subscriber ≠ .opened s since replayed outputs) →
    ∀ j emit, j < i → sys.emits[j]? = some emit → emit.stage ≠ .allocated
  | .send i => ∀ emit, sys.emits[i]? = some emit → ∀ event ∈ sys.subscriber.since, event.checkpoint < emit.event.checkpoint
  | .snapshot => options.wantsBacklog = true → ∀ emit ∈ sys.emits, emit.stage ≠ .allocated →
    options.after < emit.event.checkpoint → Matches options.uriPrefix emit.event = true → emit.event ∈ sys.hub.history
  | _ => True

end Emitters

/-! ### The stream over a backlog and a channel -/

section Progress

variable {pending : b.Receiver → List ChangeEvent} {skipped : b.Receiver → ℕ} {room : ℕ → ℕ}

def lastOf (after : ℕ) (events : List ChangeEvent) : ℕ := (events.getLast?.map (·.checkpoint)).getD after

@[simp] theorem lastOf_nil (after : ℕ) : lastOf after [] = after := rfl

@[simp] theorem lastOf_concat (after : ℕ) (events : List ChangeEvent) (ev : ChangeEvent) :
    lastOf after (events++[ev]) = ev.checkpoint := by
  simp [lastOf]

theorem lastOf_append (after : ℕ) (events more : List ChangeEvent) :
    lastOf after (events++more) = lastOf (lastOf after events) more := by
  induction more using List.reverseRecOn with
  | nil => simp
  | append_singleton more event => rw [← List.append_assoc,lastOf_concat,lastOf_concat]

abbrev Increasing (events : List ChangeEvent) : Prop :=
  events.Pairwise (fun event event' => event.checkpoint < event'.checkpoint)

theorem Increasing.le_lastOf {events : List ChangeEvent} (h : Increasing events) (after : ℕ) :
    ∀ event ∈ events, event.checkpoint ≤ lastOf after events := by
  induction events using List.reverseRecOn with
  | nil => simp
  | append_singleton events last =>
    intro event hm
    rw [lastOf_concat]
    rcases List.mem_append.mp hm with ho | hl
    · exact ((List.pairwise_append.mp h).2.2 event ho last List.mem_cons_self).le
    · rw [List.mem_singleton.mp hl]

/-- The live events a stream does not leave out: those after the backlog it was opened with. -/
def followed (after : ℕ) (replayed live : List ChangeEvent) : List ChangeEvent :=
  live.filter (fun event => lastOf after replayed < event.checkpoint)

/-- How far a stream has come that never lagged: it has examined `done` of its backlog and `read` of the channel. -/
structure Progress (pending : b.Receiver → List ChangeEvent) (skipped : b.Receiver → ℕ) (after : ℕ) (s : WatchStream b)
    (since replayed : List ChangeEvent) (outputs : List (Except ContextError ChangeEvent)) (done read : List ChangeEvent) :
    Prop where
  lagged : s.lagged = none
  skipped : skipped s.rx = 0
  replayed_eq : replayed = done ++ s.backlog
  since_eq : since = read ++ pending s.rx
  backlog_first : s.backlog ≠ [] → read = []
  last : s.lastCheckpoint = lastOf after (done ++ followed after replayed read)
  outputs : outputs = ((done ++ followed after replayed read).filter (Matches s.uriPrefix)).map .ok

variable {after : ℕ} {s : WatchStream b} {since replayed done read : List ChangeEvent}
  {outputs : List (Except ContextError ChangeEvent)}

theorem examine_outputs {events : List ChangeEvent} {pre : Option String} (ev : ChangeEvent)
    (h : outputs = (events.filter (Matches pre)).map .ok) :
    outputs ++ (if Matches pre ev then some (Except.ok ev) else none).toList =
      ((events++[ev]).filter (Matches pre)).map .ok := by
  rw [h,List.filter_append,List.map_append]
  by_cases hm : Matches pre ev = true
  · simp [hm]
  · simp [hm]

theorem Progress.last_le (h : Progress pending skipped after s since replayed outputs done read) (hn : s.backlog = [])
    (hs : Increasing since) : lastOf after replayed ≤ s.lastCheckpoint ∧
      ∀ event ∈ pending s.rx, lastOf after replayed < event.checkpoint → s.lastCheckpoint < event.checkpoint := by
  have hd : replayed = done := by rw [h.replayed_eq,hn,List.append_nil]
  have ha : s.lastCheckpoint = lastOf (lastOf after replayed) (followed after replayed read) := by
    rw [h.last,lastOf_append,← hd]
  have hf : ∀ event ∈ followed after replayed read, lastOf after replayed < event.checkpoint ∧ event ∈ read := by
    intro event hm
    obtain ⟨hr,hl⟩ := List.mem_filter.mp hm
    exact ⟨by simpa using hl,hr⟩
  rw [ha]
  rcases List.eq_nil_or_concat (followed after replayed read) with hp | ⟨init,event,hc⟩
  · rw [hp]
    exact ⟨le_rfl,fun event _ hl => hl⟩
  · rw [List.concat_eq_append] at hc
    rw [hc,lastOf_concat]
    have he := hf event (by rw [hc]; simp)
    refine ⟨he.1.le,fun event' hm _ => ?_⟩
    rw [h.since_eq] at hs
    exact (List.pairwise_append.mp hs).2.2 event he.2 event' hm

theorem Progress.poll (hb : b.Laws room pending skipped)
    (h : Progress pending skipped after s since replayed outputs done read) (hso : Increasing since) (hub : WatchHub) :
    ∃ done' read', Progress pending skipped after (s.poll hub).2 since replayed (outputs++(s.poll hub).1.toList)
      done' read' := by
  unfold WatchStream.poll
  rw [h.lagged]
  dsimp only
  cases ha : s.backlog with
  | cons event rest =>
    have hre : read = [] := h.backlog_first (by simp [ha])
    refine ⟨done++[event],[],⟨rfl,h.skipped,?_,?_,fun _ => rfl,?_,?_⟩⟩
    · rw [h.replayed_eq,ha]
      simp [WatchStream.examine]
    · rw [h.since_eq,hre]
      rfl
    · simp [WatchStream.examine,followed]
    · have ho := h.outputs
      rw [hre] at ho
      simpa [WatchStream.examine,followed] using examine_outputs event (by simpa [followed] using ho)
  | nil =>
    dsimp only
    obtain ⟨hg,ht⟩ := h.last_le ha hso
    have he : replayed = done ++ [] := by rw [h.replayed_eq,ha]
    cases hp : pending s.rx with
    | nil =>
      obtain ⟨rx,hc,hr,hz⟩ := hb.recv_empty s.rx h.skipped hp
      rw [hc]
      refine ⟨done,read,⟨rfl,hz,he,?_,fun hn => absurd rfl hn,h.last,?_⟩⟩
      · rw [h.since_eq,hp]
        exact congrArg _ hr.symm
      · simpa using h.outputs
    | cons event rest =>
      obtain ⟨rx,hc,hr,hz⟩ := hb.recv_value s.rx event rest h.skipped hp
      have hs : since = (read++[event]) ++ rest := by rw [h.since_eq,hp,List.append_assoc]; rfl
      rw [hc]
      dsimp only
      split
      · rename_i hle
        have hno : ¬ lastOf after replayed < event.checkpoint := by
          intro hl
          have := ht event (by simp [hp]) hl
          omega
        have hm : followed after replayed (read++[event]) = followed after replayed read := by
          simp [followed,hno]
        refine ⟨done,read++[event],⟨rfl,hz,he,?_,fun hn => absurd rfl hn,?_,?_⟩⟩
        · rw [hs,hr]
        · rw [hm]
          exact h.last
        · rw [hm]
          simpa using h.outputs
      · rename_i hgt
        have hmo : followed after replayed (read++[event]) = followed after replayed read ++ [event] := by
          have hl : lastOf after replayed < event.checkpoint := by omega
          simp [followed,hl]
        refine ⟨done,read++[event],⟨rfl,hz,he,?_,fun hn => absurd rfl hn,?_,?_⟩⟩
        · show since = _ ++ pending rx
          rw [hs,hr]
        · rw [hmo,← List.append_assoc,lastOf_concat]
          rfl
        · rw [hmo,← List.append_assoc]
          exact examine_outputs event h.outputs

theorem Progress.send (hb : b.Laws room pending skipped)
    (h : Progress pending skipped after s since replayed outputs done read) (cap : ℕ) (ev : ChangeEvent)
    (hk : skipped (b.send cap s.rx ev) = 0) :
    Progress pending skipped after { s with rx := b.send cap s.rx ev }
    (since++[ev]) replayed outputs done read := by
  by_cases hr : (pending s.rx).length < room cap
  · obtain ⟨hp,-⟩ := hb.send_room cap s.rx ev hr
    refine ⟨h.lagged,hk,h.replayed_eq,?_,h.backlog_first,h.last,h.outputs⟩
    rw [h.since_eq,List.append_assoc]
    exact congrArg _ hp.symm
  · obtain ⟨-,hs⟩ := hb.send_full cap s.rx ev (Nat.not_lt.mp hr)
    rw [hs] at hk
    omega

theorem Progress.drained (hb : b.Laws room pending skipped)
    (h : Progress pending skipped after s since replayed outputs done read) (hn : s.backlog = [])
    (he : ∃ rx, b.recv s.rx = (.empty, rx)) :
    outputs = ((replayed++followed after replayed since).filter (Matches s.uriPrefix)).map .ok := by
  obtain ⟨rx,hr⟩ := he
  have hpe : pending s.rx = [] := by
    cases hp : pending s.rx with
    | nil => rfl
    | cons event rest =>
      obtain ⟨rx',hv,-⟩ := hb.recv_value s.rx event rest h.skipped hp
      rw [hr] at hv
      cases hv
  have hd : replayed = done := by rw [h.replayed_eq,hn,List.append_nil]
  have ha : since = read := by rw [h.since_eq,hpe,List.append_nil]
  rw [h.outputs,ha,← hd]

end Progress

/-! ### Emits in order -/

/-- What a backlog has of the emits: it is in order, it has what was appended before its last event, and what was
sent before the subscription. -/
structure Replay (options : WatchOptions) (emits : List Emit) (since replayed : List ChangeEvent) : Prop where
  increasing : Increasing replayed
  after : ∀ event ∈ replayed, options.after < event.checkpoint
  mem : ∀ event ∈ replayed, ∃ emit ∈ emits, emit.event = event
  below : ∀ emit ∈ emits, options.after < emit.event.checkpoint →
    emit.event.checkpoint ≤ lastOf options.after replayed → Matches options.uriPrefix emit.event = true →
      emit.event ∈ replayed
  sent : options.wantsBacklog = true → ∀ event, ⟨event, .sent⟩ ∈ emits → options.after < event.checkpoint →
    Matches options.uriPrefix event = true → event ∉ since → event ∈ replayed

def NumberedEmits (emits : List Emit) : Prop := ∀ i emit, emits[i]? = some emit → emit.event.checkpoint = i + 1

def FrontAppended (emits : List Emit) : Prop :=
  ∀ (i j : ℕ) emit emit', j < i → emits[i]? = some emit → emits[j]? = some emit' → emit.stage ≠ .allocated →
    emit'.stage ≠ .allocated

structure Ordered (pending : b.Receiver → List ChangeEvent) (skipped : b.Receiver → ℕ) (options : WatchOptions)
    (sys : Emitters b) : Prop where
  next : sys.hub.next = sys.emits.length + 1
  numbered : NumberedEmits sys.emits
  history : ∀ event ∈ sys.hub.history, ∃ emit ∈ sys.emits, emit.event = event ∧ emit.stage ≠ .allocated
  unopened : options.wantsBacklog = true → (∀ s since replayed outputs, sys.subscriber ≠ .opened s since replayed outputs) →
    Increasing sys.hub.history ∧ FrontAppended sys.emits
  since_mem : ∀ event ∈ sys.subscriber.since, ⟨event, .sent⟩ ∈ sys.emits
  since_increasing : Increasing sys.subscriber.since
  subscribed : ∀ rx since, sys.subscriber = .subscribed rx since → skipped rx = 0 → pending rx = since
  opened : ∀ s since replayed outputs, sys.subscriber = .opened s since replayed outputs →
    s.uriPrefix = options.uriPrefix ∧ Replay options sys.emits since replayed ∧
      ∃ done read, Progress pending skipped options.after s since replayed outputs done read

section Emits

variable {emits : List Emit} {i : ℕ} {event : ChangeEvent} {stage stage' : EmitStage}

theorem mem_set_emit {emit : Emit} (h : emit ∈ emits.set i ⟨event,stage'⟩) : emit = ⟨event,stage'⟩ ∨ emit ∈ emits :=
  (List.mem_or_eq_of_mem_set h).symm

theorem mem_set_of_stage (hi : emits[i]? = some ⟨event,stage⟩) {emit : Emit} (hm : emit ∈ emits)
    (hn : emit.stage ≠ stage) : emit ∈ emits.set i ⟨event,stage'⟩ := by
  obtain ⟨j,hj⟩ := List.mem_iff_getElem?.mp hm
  have hij : i ≠ j := by
    rintro rfl
    obtain rfl := Option.some.inj (hi.symm.trans hj)
    exact hn rfl
  refine List.mem_iff_getElem?.mpr ⟨j,?_⟩
  rw [List.getElem?_set_ne hij,hj]

theorem exists_set_emit (stage' : EmitStage) (hi : emits[i]? = some ⟨event,stage⟩) {emit : Emit} (hm : emit ∈ emits) :
    ∃ emit' ∈ emits.set i ⟨event,stage'⟩, emit'.event = emit.event ∧ (emit' = emit ∨ emit'.stage = stage') := by
  obtain ⟨j,hj⟩ := List.mem_iff_getElem?.mp hm
  by_cases hij : i = j
  · subst hij
    obtain rfl := Option.some.inj (hi.symm.trans hj)
    have hl : i < emits.length := (List.getElem?_eq_some_iff.mp hi).1
    refine ⟨⟨event,stage'⟩,List.mem_iff_getElem?.mpr ⟨i,List.getElem?_set_self hl⟩,rfl, .inr rfl⟩
  · refine ⟨emit,List.mem_iff_getElem?.mpr ⟨j,?_⟩,rfl, .inl rfl⟩
    rw [List.getElem?_set_ne hij,hj]

theorem NumberedEmits.set (h : NumberedEmits emits) (hi : emits[i]? = some ⟨event,stage⟩) :
    NumberedEmits (emits.set i ⟨event,stage'⟩) := by
  intro j emit hj
  rw [List.getElem?_set] at hj
  split at hj
  · rename_i hij
    subst hij
    split at hj
    · obtain rfl := Option.some.inj hj
      have he : event.checkpoint = i + 1 := h i ⟨event,stage⟩ hi
      exact he
    · cases hj
  · exact h j emit hj

theorem NumberedEmits.mem_le (h : NumberedEmits emits) {emit : Emit} (hm : emit ∈ emits) :
    0 < emit.event.checkpoint ∧ emit.event.checkpoint ≤ emits.length := by
  obtain ⟨j,hj⟩ := List.mem_iff_getElem?.mp hm
  have hl : j < emits.length := (List.getElem?_eq_some_iff.mp hj).1
  rw [h j emit hj]
  omega

end Emits

section Replay

variable {opts : WatchOptions} {emits : List Emit} {since replayed : List ChangeEvent} {i : ℕ} {event : ChangeEvent}

theorem Replay.allocate (h : Replay opts emits since replayed) (hn : NumberedEmits emits)
    (hne : event.checkpoint = emits.length+1) : Replay opts (emits++[⟨event, .allocated⟩]) since replayed := by
  refine ⟨h.increasing,h.after,fun e he => ?_,fun emit hme ha hl ht => ?_,fun hw e hme => ?_⟩
  · obtain ⟨emit,hm,hq⟩ := h.mem e he
    exact ⟨emit,List.mem_append_left _ hm,hq⟩
  · rcases List.mem_append.mp hme with ho | hs
    · exact h.below emit ho ha hl ht
    · rw [List.mem_singleton.mp hs] at ha hl
      dsimp only at ha hl
      exfalso
      rcases List.eq_nil_or_concat replayed with rfl | ⟨init,last,rfl⟩
      · simp only [lastOf_nil] at hl
        omega
      · rw [List.concat_eq_append,lastOf_concat] at hl
        obtain ⟨emit',hm',hq⟩ := h.mem last (by simp)
        have := (hn.mem_le hm').2
        rw [hq] at this
        omega
  · rcases List.mem_append.mp hme with ho | hs
    · exact h.sent hw e ho
    · cases List.mem_singleton.mp hs

theorem Replay.append (h : Replay opts emits since replayed) (hi : emits[i]? = some ⟨event, .allocated⟩) :
    Replay opts (emits.set i ⟨event, .appended⟩) since replayed := by
  refine ⟨h.increasing,h.after,fun e he => ?_,fun emit hme => ?_,fun hw e hme => ?_⟩
  · obtain ⟨emit,hm,rfl⟩ := h.mem e he
    obtain ⟨emit',hm',hq,-⟩ := exists_set_emit .appended hi hm
    exact ⟨emit',hm',hq⟩
  · rcases mem_set_emit hme with rfl | ho
    · exact h.below ⟨event, .allocated⟩ (List.mem_of_getElem? hi)
    · exact h.below emit ho
  · rcases mem_set_emit hme with hq | ho
    · cases hq
    · exact h.sent hw e ho

theorem Replay.send (h : Replay opts emits since replayed) (hi : emits[i]? = some ⟨event, .appended⟩) :
    Replay opts (emits.set i ⟨event, .sent⟩) (since++[event]) replayed := by
  refine ⟨h.increasing,h.after,fun e he => ?_,fun emit hme => ?_,fun hw e hme ha ht hn => ?_⟩
  · obtain ⟨emit,hm,rfl⟩ := h.mem e he
    obtain ⟨emit',hm',hq,-⟩ := exists_set_emit .sent hi hm
    exact ⟨emit',hm',hq⟩
  · rcases mem_set_emit hme with rfl | ho
    · exact h.below ⟨event, .appended⟩ (List.mem_of_getElem? hi)
    · exact h.below emit ho
  · obtain ⟨hs,hv⟩ : e ∉ since ∧ e ≠ event := by simpa using hn
    rcases mem_set_emit hme with hq | ho
    · exact absurd (congrArg Emit.event hq) hv
    · exact h.sent hw e ho ha ht hs

end Replay

namespace Ordered

variable {pending : b.Receiver → List ChangeEvent} {skipped : b.Receiver → ℕ} {room : ℕ → ℕ} {opts : WatchOptions}
  {sys : Emitters b}

variable {since replayed : List ChangeEvent} {outputs : List (Except ContextError ChangeEvent)}

theorem skipped_of_not_lags (hb : b.Laws room pending skipped) (hl : ¬ sys.Lags) {s : WatchStream b}
    (ho : sys.subscriber = .opened s since replayed outputs) : skipped s.rx = 0 := by
  by_contra hn
  obtain ⟨rx,hr,-⟩ := hb.recv_lagged s.rx hn
  exact hl ⟨s,since,replayed,outputs,_,rx,ho,hr⟩

theorem new (pending : b.Receiver → List ChangeEvent) (skipped : b.Receiver → ℕ) (opts : WatchOptions) (buffer : ℕ) :
    Ordered pending skipped opts (Emitters.new b buffer) := by
  refine ⟨rfl,?_,?_,fun _ _ => ⟨List.Pairwise.nil,?_⟩,?_,List.Pairwise.nil,?_,?_⟩
  · intro i emit h
    cases h
  · intro event h
    cases h
  · intro i j emit emit' _ h
    cases h
  · intro event h
    cases h
  · intro rx since h
    cases h
  · intro s since replayed outputs h
    cases h

theorem allocate (h : Ordered pending skipped opts sys) (kind : ChangeKind) (u : ContextUri)
    (toUri : Option ContextUri) (ver : Option MvccVersion) (now : DateTime) :
    Ordered pending skipped opts (sys.step opts (.allocate kind u toUri ver now)) := by
  have hg : ∀ (i : ℕ) (new emit : Emit), (sys.emits++[new])[i]? = some emit →
      sys.emits[i]? = some emit ∨ (i = sys.emits.length ∧ emit = new) := by
    intro i new emit hi
    rw [List.getElem?_append] at hi
    split at hi
    · exact .inl hi
    · rename_i hge
      rw [List.getElem?_singleton] at hi
      split at hi
      · exact .inr ⟨by omega,(Option.some.inj hi).symm⟩
      · cases hi
  refine ⟨?_,fun i emit hi => ?_,fun event hm => ?_,fun hw hn => ⟨(h.unopened hw hn).1,?_⟩,
    fun event hm => ?_,h.since_increasing,h.subscribed,fun s since replayed outputs hp => ?_⟩
  · simp [Emitters.step,h.next]
  · rcases hg i _ emit hi with ho | ⟨rfl,rfl⟩
    · exact h.numbered i emit ho
    · exact h.next
  · obtain ⟨emit,he,hv⟩ := h.history event hm
    exact ⟨emit,List.mem_append_left _ he,hv⟩
  · intro i j emit emit' hij hi hj hs
    rcases hg i _ emit hi with ho | ⟨rfl,rfl⟩
    · have ht : i < sys.emits.length := (List.getElem?_eq_some_iff.mp ho).1
      rcases hg j _ emit' hj with ho' | ⟨hl,-⟩
      · exact (h.unopened hw hn).2 i j emit emit' hij ho ho' hs
      · omega
    · exact absurd rfl hs
  · exact List.mem_append_left _ (h.since_mem event hm)
  · obtain ⟨ha,hr,hpr⟩ := h.opened s since replayed outputs hp
    exact ⟨ha,hr.allocate h.numbered h.next,hpr⟩

theorem append (h : Ordered pending skipped opts sys) {i : ℕ} (hok : Emitters.InOrder opts sys (.append i)) :
    Ordered pending skipped opts (sys.step opts (.append i)) := by
  simp only [Emitters.step]
  split
  · rename_i event hi
    have hme : ∀ e ∈ (sys.hub.append event).history, e ∈ sys.hub.history ∨ e = event := by
      intro e he
      simpa using List.mem_of_mem_drop he
    refine ⟨by simpa [WatchHub.append] using h.next,h.numbered.set hi,fun e he => ?_,fun hw hn => ⟨?_,?_⟩,
      fun e he => ?_,h.since_increasing,h.subscribed,fun s since replayed outputs ho => ?_⟩
    · rcases hme e he with hl | rfl
      · obtain ⟨emit,hm,hq,hs⟩ := h.history e hl
        exact ⟨emit,mem_set_of_stage hi hm hs,hq,hs⟩
      · have ht : i < sys.emits.length := (List.getElem?_eq_some_iff.mp hi).1
        exact ⟨⟨e, .appended⟩,List.mem_iff_getElem?.mpr ⟨i,List.getElem?_set_self ht⟩,rfl,by simp⟩
    · -- what is in the history was numbered before this emit
      obtain ⟨hr,hf⟩ := h.unopened hw hn
      refine List.Pairwise.sublist (List.drop_sublist _ _)
        (List.pairwise_append.mpr ⟨hr,List.pairwise_singleton _ _,?_⟩)
      intro e he e' he'
      obtain rfl := List.mem_singleton.mp he'
      obtain ⟨emit,hm,rfl,hs⟩ := h.history e he
      obtain ⟨j,hj⟩ := List.mem_iff_getElem?.mp hm
      have hc : e'.checkpoint = i + 1 := h.numbered i ⟨e', .allocated⟩ hi
      rw [h.numbered j emit hj,hc]
      have hnot : ¬ i < j := fun hij => hf j i emit ⟨e', .allocated⟩ hij hj hi hs rfl
      have hne : i ≠ j := by
        rintro rfl
        obtain rfl := Option.some.inj (hi.symm.trans hj)
        exact hs rfl
      omega
    · intro k j emit emit' hjk hk hj hs
      rw [List.getElem?_set] at hk hj
      split at hj
      · rename_i hij
        split at hj
        · obtain rfl := Option.some.inj hj
          simp
        · cases hj
      · split at hk
        · rename_i hik
          exact hok hw hn j emit' (by omega) hj
        · exact (h.unopened hw hn).2 k j emit emit' hjk hk hj hs
    · exact mem_set_of_stage hi (h.since_mem e he) (by simp)
    · obtain ⟨ha,hp,hpr⟩ := h.opened s since replayed outputs ho
      exact ⟨ha,hp.append hi,hpr⟩
  · exact h

theorem send (hb : b.Laws room pending skipped) (h : Ordered pending skipped opts sys) {i : ℕ}
    (hl : ¬ (sys.step opts (.send i)).Lags) (hok : Emitters.InOrder opts sys (.send i)) :
    Ordered pending skipped opts (sys.step opts (.send i)) := by
  revert hl
  simp only [Emitters.step]
  split
  · rename_i event hi
    intro hl
    have hlt : i < sys.emits.length := (List.getElem?_eq_some_iff.mp hi).1
    have hse : (⟨event, .sent⟩ : Emit) ∈ sys.emits.set i ⟨event, .sent⟩ :=
      List.mem_iff_getElem?.mpr ⟨i,List.getElem?_set_self hlt⟩
    have ha : ∀ e ∈ sys.subscriber.since, e.checkpoint < event.checkpoint := hok _ hi
    have hn : Increasing (sys.subscriber.since++[event]) :=
      List.pairwise_append.mpr ⟨h.since_increasing,List.pairwise_singleton _ _,fun e he e' he' => by
        rw [List.mem_singleton.mp he']
        exact ha e he⟩
    have hme : ∀ e ∈ (sys.subscriber.send sys.hub.historyCapacity event).since, e ∈ sys.subscriber.since ∨ e = event := by
      intro e he
      cases hs : sys.subscriber with
      | closed => simp [hs,Subscriber.send,Subscriber.since] at he
      | subscribed rx since => simpa [hs,Subscriber.send,Subscriber.since] using he
      | opened s since replayed outputs => simpa [hs,Subscriber.send,Subscriber.since] using he
    refine ⟨by simpa using h.next,h.numbered.set hi,fun e he => ?_,fun hw hno => ?_,fun e he => ?_,?_,
      fun rx since hs => ?_,fun s since replayed outputs hp => ?_⟩
    · obtain ⟨emit,hm,hq,ht⟩ := h.history e he
      obtain ⟨emit',hm',hq',hc⟩ := exists_set_emit .sent hi hm
      refine ⟨emit',hm',hq'.trans hq,?_⟩
      rcases hc with rfl | hne
      · exact ht
      · simp [hne]
    · have hu : ∀ s since replayed outputs, sys.subscriber ≠ .opened s since replayed outputs := by
        intro s since replayed outputs hs
        refine hno { s with rx := b.send sys.hub.historyCapacity s.rx event } (since++[event]) replayed outputs ?_
        simp only [hs,Subscriber.send]
      obtain ⟨hso,hf⟩ := h.unopened hw hu
      refine ⟨hso,fun k j emit emit' hjk hk hj ht => ?_⟩
      rw [List.getElem?_set] at hk hj
      split at hj
      · obtain rfl := Option.some.inj hj
        simp
      · split at hk
        · rename_i hik
          exact hf k j ⟨event, .appended⟩ emit' hjk (hik ▸ hi) hj (by simp)
        · exact hf k j emit emit' hjk hk hj ht
    · rcases hme e he with ho | rfl
      · exact mem_set_of_stage hi (h.since_mem e ho) (by simp)
      · exact hse
    · cases hs : sys.subscriber with
      | closed => exact List.Pairwise.nil
      | subscribed rx since => simpa [hs,Subscriber.send,Subscriber.since] using hn
      | opened s since replayed outputs => simpa [hs,Subscriber.send,Subscriber.since] using hn
    · cases ho : sys.subscriber with
      | closed => simp [ho,Subscriber.send] at hs
      | opened s since replayed outputs => simp [ho,Subscriber.send] at hs
      | subscribed rx' since' =>
        simp only [ho,Subscriber.send,Subscriber.subscribed.injEq] at hs
        obtain ⟨rfl,rfl⟩ := hs
        intro hz
        by_cases hr : (pending rx').length < room sys.hub.historyCapacity
        · obtain ⟨hpe,hsk⟩ := hb.send_room sys.hub.historyCapacity rx' event hr
          rw [hpe,h.subscribed rx' since' ho (hsk ▸ hz)]
        · obtain ⟨-,hsk⟩ := hb.send_full sys.hub.historyCapacity rx' event (Nat.not_lt.mp hr)
          omega
    · cases ho : sys.subscriber with
      | closed => simp [ho,Subscriber.send] at hp
      | subscribed rx since => simp [ho,Subscriber.send] at hp
      | opened s' since' replayed' outputs' =>
        have hke := skipped_of_not_lags hb hl hp
        simp only [ho,Subscriber.send,Subscriber.opened.injEq] at hp
        obtain ⟨rfl,rfl,rfl,rfl⟩ := hp
        obtain ⟨hma,hre,done,read,hpr⟩ := h.opened s' since' replayed' outputs' ho
        exact ⟨hma,hre.send hi,done,read,hpr.send hb _ event hke⟩
  · exact fun _ => h

theorem subscribe (hb : b.Laws room pending skipped) (h : Ordered pending skipped opts sys) :
    Ordered pending skipped opts (sys.step opts .subscribe) := by
  cases hs : sys.subscriber with
  | subscribed rx since => simpa only [Emitters.step,hs] using h
  | opened s since replayed outputs => simpa only [Emitters.step,hs] using h
  | closed =>
    simp only [Emitters.step,hs]
    have hu : ∀ s since replayed outputs, sys.subscriber ≠ .opened s since replayed outputs := by simp [hs]
    refine ⟨h.next,h.numbered,h.history,fun hw _ => h.unopened hw hu,?_,List.Pairwise.nil,?_,?_⟩
    · intro event hm
      cases hm
    · intro rx since he _
      cases he
      exact hb.subscribe.1
    · intro s since replayed outputs he
      cases he

theorem replay_backlog (h : Ordered pending skipped opts sys) {since : List ChangeEvent}
    (hu : ∀ s since replayed outputs, sys.subscriber ≠ .opened s since replayed outputs)
    (hk : Emitters.InOrder opts sys .snapshot) (rx : b.Receiver) :
    Replay opts sys.emits since (WatchStream.new sys.hub opts rx).backlog := by
  have hb : (WatchStream.new sys.hub opts rx).backlog =
      if opts.wantsBacklog then sys.hub.history.filter (fun event => opts.after < event.checkpoint) else [] := rfl
  rw [hb]
  cases hw : opts.wantsBacklog with
  | false =>
    refine ⟨List.Pairwise.nil,by simp,by simp,fun emit _ ha hl => ?_,fun h => ?_⟩
    · have hl' : emit.event.checkpoint ≤ opts.after := hl
      omega
    · rw [hw] at h
      cases h
  | true =>
    obtain ⟨ho,hf⟩ := h.unopened hw hu
    have hme : ∀ event, event ∈ sys.hub.history.filter (fun event => opts.after < event.checkpoint) ↔
        event ∈ sys.hub.history ∧ opts.after < event.checkpoint := by simp [List.mem_filter]
    have hr : ∀ emit ∈ sys.emits, emit.stage ≠ .allocated → opts.after < emit.event.checkpoint →
        Matches opts.uriPrefix emit.event = true →
          emit.event ∈ sys.hub.history.filter (fun event => opts.after < event.checkpoint) :=
      fun emit hm hs ha ht => (hme _).mpr ⟨hk hw emit hm hs ha ht,ha⟩
    simp only [if_true]
    refine ⟨ho.sublist List.filter_sublist,fun event he => ((hme event).mp he).2,fun event he => ?_,
      fun emit hm ha hl ht => ?_,fun _ event hn ha ht _ =>
        hr _ hn (by simp) ha ht⟩
    · obtain ⟨emit,hm,hq,-⟩ := h.history event ((hme event).mp he).1
      exact ⟨emit,hm,hq⟩
    · -- an emit before the last one of the backlog was appended before it
      refine hr emit hm ?_ ha ht
      rcases List.eq_nil_or_concat
        (sys.hub.history.filter (fun event => opts.after < event.checkpoint)) with hni | ⟨init,last,hla⟩
      · rw [hni,lastOf_nil] at hl
        omega
      · rw [hla,List.concat_eq_append,lastOf_concat] at hl
        have hmm := (hme last).mp (by rw [hla]; simp)
        obtain ⟨emit',hm',rfl,hs'⟩ := h.history last hmm.1
        obtain ⟨i,hi⟩ := List.mem_iff_getElem?.mp hm'
        obtain ⟨j,hj⟩ := List.mem_iff_getElem?.mp hm
        rw [h.numbered i emit' hi,h.numbered j emit hj] at hl
        rcases Nat.lt_or_ge j i with hlt | hg
        · exact hf i j emit' emit hlt hi hj hs'
        · obtain rfl : i = j := by omega
          obtain rfl := Option.some.inj (hi.symm.trans hj)
          exact hs'

theorem snapshot (hb : b.Laws room pending skipped) (h : Ordered pending skipped opts sys)
    (hl : ¬ (sys.step opts .snapshot).Lags) (ho : Emitters.InOrder opts sys .snapshot) :
    Ordered pending skipped opts (sys.step opts .snapshot) := by
  cases hs : sys.subscriber with
  | closed => simpa only [Emitters.step,hs] using h
  | opened s since replayed outputs => simpa only [Emitters.step,hs] using h
  | subscribed rx since =>
    simp only [Emitters.step,hs] at hl ⊢
    have hu : ∀ s since replayed outputs, sys.subscriber ≠ .opened s since replayed outputs := by simp [hs]
    have hm := h.since_mem
    have hi := h.since_increasing
    rw [hs] at hm hi
    refine ⟨h.next,h.numbered,h.history,fun _ hn => absurd rfl (hn _ _ _ _),hm,hi,?_,?_⟩
    · intro rx since he
      cases he
    · intro s since replayed outputs he
      have hk := skipped_of_not_lags hb hl he
      cases he
      refine ⟨rfl,h.replay_backlog hu ho rx,[],[],rfl,hk,rfl,?_,fun _ => rfl,rfl,rfl⟩
      exact (h.subscribed rx _ hs hk).symm

theorem poll (hb : b.Laws room pending skipped) (h : Ordered pending skipped opts sys) :
    Ordered pending skipped opts (sys.step opts .poll) := by
  cases hs : sys.subscriber with
  | closed => simpa only [Emitters.step,hs] using h
  | subscribed rx since => simpa only [Emitters.step,hs] using h
  | opened s since replayed outputs =>
    simp only [Emitters.step,hs]
    have hm := h.since_mem
    have hi := h.since_increasing
    rw [hs] at hm hi
    obtain ⟨ha,hr,done,read,hp⟩ := h.opened s since replayed outputs hs
    refine ⟨h.next,h.numbered,h.history,fun _ hn => absurd rfl (hn _ _ _ _),hm,hi,?_,?_⟩
    · intro rx since he
      cases he
    · intro s since replayed outputs he
      cases he
      exact ⟨(poll_uriPrefix sys.hub _).trans ha,hr,hp.poll hb hi sys.hub⟩

theorem receivesOnce (hb : b.Laws room pending skipped) (h : Ordered pending skipped opts sys) {s : WatchStream b}
    (ho : sys.subscriber = .opened s since replayed outputs) : Emitters.ReceivesOnce opts sys s outputs := by
  obtain ⟨ht,hr,done,read,hp⟩ := h.opened s since replayed outputs ho
  have hme := h.since_mem
  have hn := h.since_increasing
  rw [ho] at hme hn
  have hal : Increasing (replayed++followed opts.after replayed since) := by
    refine List.pairwise_append.mpr ⟨hr.increasing,hn.sublist List.filter_sublist,fun e he e' he' => ?_⟩
    have hbe := hr.increasing.le_lastOf opts.after e he
    have hla : lastOf opts.after replayed < e'.checkpoint := by simpa using (List.mem_filter.mp he').2
    omega
  have hu : (done++followed opts.after replayed read).Sublist
      (replayed++followed opts.after replayed since) := by
    refine List.Sublist.append ?_ ?_
    · rw [hp.replayed_eq]
      exact List.sublist_append_left _ _
    · rw [hp.since_eq]
      exact (List.sublist_append_left _ _).filter _
  refine ⟨(done++followed opts.after replayed read).filter (Matches s.uriPrefix),hp.outputs,?_,?_,?_⟩
  · refine (List.Pairwise.imp ?_ hal).sublist (List.filter_sublist.trans hu)
    intro e e' hl hq
    rw [hq] at hl
    exact lt_irrefl _ hl
  · intro event he
    obtain ⟨hx,hm⟩ := List.mem_filter.mp he
    refine ⟨ht ▸ hm,?_⟩
    rcases List.mem_append.mp (hu.subset hx) with hd | hv
    · exact hr.mem event hd
    · exact ⟨_,hme event (List.mem_of_mem_filter hv),rfl⟩
  · intro hni hem event hdu
    obtain ⟨hs,hm,ha⟩ := hdu
    have hf : opts.after < event.checkpoint := by
      cases hw : opts.wantsBacklog with
      | true => simpa [hw] using ha
      | false =>
        have hno : opts.fromCheckpoint = none := by simpa using (Bool.or_eq_false_iff.mp hw).2
        rw [WatchOptions.after,hno]
        exact (h.numbered.mem_le hs).1
    have hin : event ∈ replayed ++ followed opts.after replayed since := by
      by_cases hi : event ∈ since
      · by_cases hle : event.checkpoint ≤ lastOf opts.after replayed
        · exact List.mem_append_left _ (hr.below _ hs hf hle hm)
        · exact List.mem_append_right _ (List.mem_filter.mpr ⟨hi,by simpa using hle⟩)
      · have hw : opts.wantsBacklog = true := by
          cases hw : opts.wantsBacklog with
          | true => rfl
          | false =>
            rw [hw,ho] at ha
            exact absurd ha hi
        exact List.mem_append_left _ (hr.sent hw event hs hf hm hi)
    have hou := (hp.outputs.symm.trans (hp.drained hb hni hem))
    have hsa := List.map_injective_iff.mpr (fun a a' (h : Except.ok a = Except.ok a') => Except.ok.inj h) hou
    rw [hsa]
    exact List.mem_filter.mpr ⟨hin,ht.symm ▸ hm⟩

end Ordered

/-- Over every interleaving of the steps of emits with one subscriber that never lags, the subscriber gets every due
event once, where the channel is sent the events in order. -/
theorem emits_received_once {b : Broadcast ChangeEvent} (hb : b.Documented) (buffer : ℕ) (options : WatchOptions)
    (schedule : List EmitAction)
    (hlag : Meets (Emitters.step options) (fun sys action => ¬ (sys.step options action).Lags)
      (Emitters.new b buffer) schedule)
      (hok : Meets (Emitters.step options) (Emitters.InOrder options) (Emitters.new b buffer) schedule)
      (s : WatchStream b) (since replayed : List ChangeEvent) (outputs : List (Except ContextError ChangeEvent))
      (hopened : (run (Emitters.step options) (Emitters.new b buffer) schedule).subscriber =
        .opened s since replayed outputs) :
    Emitters.ReceivesOnce options (run (Emitters.step options) (Emitters.new b buffer) schedule) s outputs := by
  obtain ⟨room, pending, skipped, hl⟩ := hb
  have hs : ∀ (sys : Emitters b) (action : EmitAction), Ordered pending skipped options sys →
      ¬ (sys.step options action).Lags ∧ Emitters.InOrder options sys action →
        Ordered pending skipped options (sys.step options action) := by
    intro sys action h ho
    cases action with
    | allocate kind uri toUri version now => exact h.allocate kind uri toUri version now
    | append i => exact h.append ho.2
    | send i => exact h.send hl ho.1 ho.2
    | subscribe => exact h.subscribe hl
    | snapshot => exact h.snapshot hl ho.1 ho.2
    | poll => exact h.poll hl
  have hr := run_invariant hs (Ordered.new pending skipped options buffer) (hlag.and hok)
  exact hr.receivesOnce hl hopened

def liveOptions : WatchOptions := ⟨none, none, false⟩

def sampleAllocate (version : MvccVersion) : EmitAction := .allocate .write (.ofTenant "t1") none (some version) 0

def inTurn : List EmitAction :=
  [.subscribe, .snapshot, sampleAllocate 1, sampleAllocate 2, .append 1, .append 0, .send 0, .send 1, .poll, .poll]

def overtaken : List EmitAction :=
  [.subscribe, .snapshot, sampleAllocate 1, sampleAllocate 2, .append 0, .append 1, .send 1, .send 0, .poll, .poll]

theorem not_lags {sys : Emitters (queueBroadcast ChangeEvent)}
    (h : ∀ s since replayed outputs, sys.subscriber = .opened s since replayed outputs → s.rx.2 = 0) : ¬ sys.Lags := by
  rintro ⟨s,since,replayed,outputs,skipped,rx,ho,hr⟩
  have hz := h s since replayed outputs ho
  obtain ⟨⟨queue,lost⟩,backlog,last,pre,lagged⟩ := s
  obtain rfl : lost = 0 := hz
  cases queue with
  | nil => cases hr
  | cons event rest => cases hr

theorem inTurn_not_lagging : Meets (Emitters.step liveOptions) (fun sys action => ¬ (sys.step liveOptions action).Lags)
    (Emitters.new (queueBroadcast ChangeEvent) 4) inTurn := by
  refine ⟨?_,?_,?_,?_,?_,?_,?_,?_,?_,?_,trivial⟩ <;>
    exact not_lags (fun s since replayed outputs ho => by cases ho <;> rfl)

theorem overtaken_not_lagging : Meets (Emitters.step liveOptions) (fun sys action => ¬ (sys.step liveOptions action).Lags)
    (Emitters.new (queueBroadcast ChangeEvent) 4) overtaken := by
  refine ⟨?_,?_,?_,?_,?_,?_,?_,?_,?_,?_,trivial⟩ <;>
    exact not_lags (fun s since replayed outputs ho => by cases ho <;> rfl)

theorem inTurn_inOrder : Meets (Emitters.step liveOptions) (Emitters.InOrder liveOptions)
    (Emitters.new (queueBroadcast ChangeEvent) 4) inTurn := by
  refine ⟨trivial,fun h => ?_,trivial,trivial,fun h => ?_,fun h => ?_,fun emit hi event hm => ?_,
    fun emit hi event hm => ?_,trivial,trivial,trivial⟩
  · cases h
  · cases h
  · cases h
  · cases hm
  · obtain rfl := Option.some.inj hi
    obtain rfl := List.mem_singleton.mp hm
    decide

theorem emits_received_once_inTurn : ∃ s since outputs,
    (run (Emitters.step liveOptions) (Emitters.new (queueBroadcast ChangeEvent) 4) inTurn).subscriber =
      .opened s since [] outputs ∧ outputs.length = 2 ∧
    Emitters.ReceivesOnce liveOptions
    (run (Emitters.step liveOptions) (Emitters.new (queueBroadcast ChangeEvent) 4) inTurn) s
      outputs := by
  refine ⟨_, _, _, rfl, rfl, ?_⟩
  exact emits_received_once (queueBroadcast_documented _) 4 liveOptions _ inTurn_not_lagging inTurn_inOrder _ _ _ _ rfl

/-- The first of two events, sent after the second, is left out: the subscriber never lagged, and has nothing left to
read. -/
theorem event_overtaken_lost :
    Meets (Emitters.step liveOptions) (fun sys action => ¬ (sys.step liveOptions action).Lags)
      (Emitters.new (queueBroadcast ChangeEvent) 4) overtaken ∧
    ¬ ∀ s since replayed outputs,
      (run (Emitters.step liveOptions) (Emitters.new (queueBroadcast ChangeEvent) 4) overtaken).subscriber =
        .opened s since replayed outputs →
      Emitters.ReceivesOnce liveOptions
        (run (Emitters.step liveOptions) (Emitters.new (queueBroadcast ChangeEvent) 4) overtaken) s outputs := by
  refine ⟨overtaken_not_lagging, fun h => ?_⟩
  obtain ⟨events, ho, -, -, ha⟩ := (h _ _ _ _ rfl).received
  have hf : ChangeEvent.new 1 .write (.ofTenant "t1") none (some 1) 0 ∈ events :=
    ha rfl ⟨_, rfl⟩ _ ⟨List.mem_cons_self, rfl, List.mem_cons_of_mem _ List.mem_cons_self⟩
  have hn : [some 2] = events.map (fun event => some event.checkpoint) := by
    have hu := congrArg (List.map (fun out => (Except.toOption out).map ChangeEvent.checkpoint)) ho
    rwa [List.map_map] at hu
  have hm : some 1 ∈ [some 2] := hn ▸ List.mem_map_of_mem hf
  revert hm
  decide

end UwuContextDb.Watch
