import UwuContextDb.Core.WatchReplay

/-! What a watcher gets to see over every interleaving of emits and receives. -/

namespace UwuContextDb.Watch

open StateMachine

variable {b : Broadcast ChangeEvent}

structure Watched (pending : b.Receiver → List ChangeEvent) (skipped : b.Receiver → ℕ) (options : WatchOptions)
    (sys : System b) : Prop where
  numbered : Numbered sys.hub sys.emitted
  subscribed : ∀ rx since, sys.phase = .subscribed rx since →
    ∃ a, Subscribed pending skipped sys.hub.historyCapacity sys.emitted rx since a
  start_eq : ∀ s start outputs, sys.phase = .opened s start outputs → ∀ c, options.fromCheckpoint = some c → start = c
  uriPrefix_eq : ∀ s start outputs, sys.phase = .opened s start outputs → s.uriPrefix = options.uriPrefix
  ordered : ∀ s start outputs, sys.phase = .opened s start outputs →
    beforeError outputs <+: due options.uriPrefix start sys.emitted
  tracks : ∀ s start outputs, sys.phase = .opened s start outputs → noError outputs = true →
    ∃ p l k a, Tracks pending skipped sys.hub.historyCapacity sys.emitted s start outputs p l k a

section Watched

variable {room : ℕ → ℕ} {pending : b.Receiver → List ChangeEvent} {skipped : b.Receiver → ℕ} {opts : WatchOptions}
  {sys : System b}

theorem watched_new (pending : b.Receiver → List ChangeEvent) (skipped : b.Receiver → ℕ) (opts : WatchOptions)
    (buffer : ℕ) : Watched pending skipped opts (System.new b buffer) := by
  refine ⟨numbered_new buffer,?_,?_,?_,?_,?_⟩ <;> intros <;> contradiction

theorem Watched.emit (hb : b.Laws room pending skipped) (h : Watched pending skipped opts sys) (kind : ChangeKind)
    (u : ContextUri) (toUri : Option ContextUri) (ver : Option MvccVersion) (now : DateTime) :
    Watched pending skipped opts (sys.step opts (.emit kind u toUri ver now)) := by
  have hn := h.numbered.emit kind u toUri ver now
  obtain ⟨ev,he⟩ : ∃ ev, ev = (sys.hub.emit kind u toUri ver now).1 := ⟨_,rfl⟩
  have ht : sys.step opts (.emit kind u toUri ver now) =
      ⟨(sys.hub.emit kind u toUri ver now).2,sys.emitted++[ev],sys.phase.send sys.hub.historyCapacity ev⟩ := by
    rw [he]
    rfl
  rw [← he] at hn
  rw [ht]
  have hs : ∀ s start outs, sys.phase.send sys.hub.historyCapacity ev = .opened s start outs →
      ∃ s', sys.phase = .opened s' start outs ∧ s = { s' with rx := b.send sys.hub.historyCapacity s'.rx ev } := by
    intro s start outs hh
    cases hp : sys.phase with
    | closed => simp [hp,Phase.send] at hh
    | subscribed rx since => simp [hp,Phase.send] at hh
    | opened s' start' outs' =>
      rw [hp] at hh
      cases hh
      exact ⟨s',rfl,rfl⟩
  refine ⟨hn,fun rx since hh => ?_,fun s start outs hh => ?_,fun s start outs hh => ?_,
    fun s start outs hh => ?_,fun s start outs hh ho => ?_⟩
  · cases hp : sys.phase with
    | closed => simp [hp,Phase.send] at hh
    | opened s start outs => simp [hp,Phase.send] at hh
    | subscribed rx' since' =>
      simp only [hp,Phase.send] at hh
      cases hh
      obtain ⟨a,hu⟩ := h.subscribed rx' since hp
      exact hu.send hb ev
  · obtain ⟨s',hp,rfl⟩ := hs s start outs hh
    exact h.start_eq s' start outs hp
  · obtain ⟨s',hp,rfl⟩ := hs s start outs hh
    exact h.uriPrefix_eq s' start outs hp
  · obtain ⟨s',hp,rfl⟩ := hs s start outs hh
    refine (h.ordered s' start outs hp).trans ?_
    unfold due
    rw [List.filter_append]
    exact List.prefix_append _ _
  · obtain ⟨s',hp,rfl⟩ := hs s start outs hh
    obtain ⟨p,l,k,a,hr⟩ := h.tracks s' start outs hp ho
    exact ⟨p,l,k,hr.send hb ev⟩

theorem Watched.subscribe (hb : b.Laws room pending skipped) (h : Watched pending skipped opts sys) :
    Watched pending skipped opts (sys.step opts .subscribe) := by
  cases hp : sys.phase with
  | subscribed rx since => simpa only [System.step,hp] using h
  | opened s start outs => simpa only [System.step,hp] using h
  | closed =>
    simp only [System.step,hp]
    refine ⟨h.numbered,fun rx since hh => ?_,?_,?_,?_,?_⟩
    · cases hh
      exact ⟨_,subscribed_new hb h.numbered _⟩
    all_goals intro s start outs hh; cases hh

theorem Watched.snapshot (h : Watched pending skipped opts sys) (ho : OpensWhole opts sys .snapshot) :
    Watched pending skipped opts (sys.step opts .snapshot) := by
  cases hp : sys.phase with
  | closed => simpa only [System.step,hp] using h
  | opened s start outs => simpa only [System.step,hp] using h
  | subscribed rx since =>
    obtain ⟨a,hs⟩ := h.subscribed rx since hp
    simp only [System.step,hp]
    refine ⟨h.numbered,fun rx since hh => ?_,fun s start outs hh => ?_,fun s start outs hh => ?_,
      fun s start outs hh => ?_,fun s start outs hh _ => ?_⟩ <;> cases hh
    · intro c hc
      simp [WatchOptions.start,hc]
    · rfl
    · exact List.nil_prefix
    · exact hs.open_ h.numbered opts (ho rx since hp)

theorem Watched.poll (hb : b.Laws room pending skipped) (h : Watched pending skipped opts sys) :
    Watched pending skipped opts (sys.step opts .poll) := by
  cases hp : sys.phase with
  | closed => simpa only [System.step,hp] using h
  | subscribed rx since => simpa only [System.step,hp] using h
  | opened s start outs =>
    have he := h.uriPrefix_eq s start outs hp
    have hk := poll_uriPrefix sys.hub s
    have hw : noError (outs++(s.poll sys.hub).1.toList) = true →
        ∃ p l k a, Tracks pending skipped sys.hub.historyCapacity sys.emitted (s.poll sys.hub).2 start
          (outs++(s.poll sys.hub).1.toList) p l k a := by
      intro hn
      obtain ⟨hf,ho⟩ : noError outs = true ∧ noError (s.poll sys.hub).1.toList = true := by
        simpa [noError] using hn
      obtain ⟨p,l,k,a,ht⟩ := h.tracks s start outs hp hf
      exact ht.poll hb h.numbered rfl hf ho
    simp only [System.step,hp]
    refine ⟨h.numbered,fun rx since hh => ?_,fun s start outs hh => ?_,fun s start outs hh => ?_,
      fun s start outs hh => ?_,fun s start outs hh hn => ?_⟩ <;> cases hh
    · exact h.start_eq s start outs hp
    · exact hk.trans he
    · cases hn : noError (outs++(s.poll sys.hub).1.toList) with
      | true =>
        obtain ⟨p,l,k,a,ht⟩ := hw hn
        have hr := ht.ordered h.numbered
        rwa [hk,he] at hr
      | false =>
        rw [beforeError_stop hn]
        exact h.ordered s start outs hp
    · exact hw hn

theorem Watched.replays (hb : b.Laws room pending skipped) (h : Watched pending skipped opts sys) {s : WatchStream b}
    {start : ℕ} {outputs : List (Except ContextError ChangeEvent)} (hp : sys.phase = .opened s start outputs) :
    Replays opts sys s start outputs := by
  have ho := h.ordered s start outputs hp
  refine ⟨h.start_eq s start outputs hp,ho,?_,fun hn hl ha ⟨rx,hr⟩ => ?_,fun hn e s' hpo => ?_⟩
  · have hs : (beforeError outputs).Sublist sys.emitted := ho.sublist.trans List.filter_sublist
    exact h.numbered.increasing.sublist hs
  · obtain ⟨p,l,k,a,ht⟩ := h.tracks s start outputs hp hn
    rw [ht.complete hb h.numbered hl ha hr,h.uriPrefix_eq s start outputs hp]
  · obtain ⟨p,l,k,a,ht⟩ := h.tracks s start outputs hp hn
    exact ht.lost h.numbered rfl hpo

end Watched

/-- Over every interleaving of emits and receives, a stream that was opened in time yields what is due. -/
theorem watch_replays {b : Broadcast ChangeEvent} (hb : b.Documented) (buffer : ℕ) (options : WatchOptions)
    (schedule : List Action) (hok : Meets (System.step options) (OpensWhole options) (System.new b buffer) schedule)
    (s : WatchStream b) (start : ℕ) (outputs : List (Except ContextError ChangeEvent))
    (hphase : (run (System.step options) (System.new b buffer) schedule).phase = .opened s start outputs) :
    Replays options (run (System.step options) (System.new b buffer) schedule) s start outputs := by
  obtain ⟨room, pending, skipped, hl⟩ := hb
  have hs : ∀ (sys : System b) (action : Action), Watched pending skipped options sys → OpensWhole options sys action →
      Watched pending skipped options (sys.step options action) := by
    intro sys action h ho
    cases action with
    | emit kind uri toUri version now => exact h.emit hl kind uri toUri version now
    | subscribe => exact h.subscribe hl
    | snapshot => exact h.snapshot ho
    | poll => exact h.poll hl
  have hr := run_invariant hs (watched_new pending skipped options buffer) hok
  exact hr.replays hl hphase

def channelRoom (capacity : ℕ) : ℕ := if capacity ≤ 1 then 1 else 2 ^ ((capacity - 1).log2 + 1)

theorem le_channelRoom (capacity : ℕ) : capacity ≤ channelRoom capacity := by
  unfold channelRoom
  split
  · assumption
  · have hl := @Nat.lt_log2_self (capacity - 1)
    omega

def queueBroadcast (α : Type) : Broadcast α where
  Receiver := List α × ℕ
  subscribe := ([], 0)
  send capacity rx a :=
    if rx.1.length < channelRoom capacity then (rx.1 ++ [a], rx.2) else ((rx.1 ++ [a]).tail, rx.2 + 1)
  recv rx :=
    if rx.2 ≠ 0 then (.lagged rx.2, (rx.1, 0)) else
      match rx.1 with
      | a::rest => (.value a, (rest, 0))
      | [] => (.empty, ([], 0))

theorem queueBroadcast_documented (α : Type) : (queueBroadcast α).Documented := by
  refine ⟨channelRoom,Prod.fst,Prod.snd,le_channelRoom,⟨rfl,rfl⟩,?_,?_,?_,?_,?_⟩
  · intro n rx a hr
    simp only [queueBroadcast,if_pos hr,and_self]
  · intro n rx a hr
    simp only [queueBroadcast,if_neg (Nat.not_lt.mpr hr),and_self]
  · intro rx hn
    exact ⟨(rx.1, 0),by simp only [queueBroadcast,if_pos hn],rfl,rfl⟩
  · rintro ⟨queue,lost⟩ a rest hz hq
    obtain rfl : lost = 0 := hz
    obtain rfl : queue = a::rest := hq
    exact ⟨(rest, 0),rfl,rfl,rfl⟩
  · rintro ⟨queue,lost⟩ hz hq
    obtain rfl : lost = 0 := hz
    obtain rfl : queue = [] := hq
    exact ⟨([], 0),rfl,rfl,rfl⟩

def sampleOptions : WatchOptions := ⟨none, some 0, false⟩

def sampleWrite (version : MvccVersion) : Action := .emit .write (.ofTenant "t1") none (some version) 0

theorem watch_replays_sample : ∃ s outputs,
    (run (System.step sampleOptions) (System.new (queueBroadcast ChangeEvent) 2)
      [sampleWrite 1, .subscribe, sampleWrite 2, .snapshot, .poll, .poll, .poll]).phase = .opened s 0 outputs ∧
    (beforeError outputs).length = 2 ∧
    Replays sampleOptions (run (System.step sampleOptions) (System.new (queueBroadcast ChangeEvent) 2)
      [sampleWrite 1, .subscribe, sampleWrite 2, .snapshot, .poll, .poll, .poll]) s 0 outputs := by
  refine ⟨_, _, rfl, rfl, watch_replays (queueBroadcast_documented _) 2 sampleOptions _ ?_ _ _ _ rfl⟩
  refine ⟨trivial, trivial, trivial, fun rx since _ _ event hm => ?_, trivial, trivial, trivial, trivial⟩
  exact (List.mem_filter.mp hm).1

/-- A watcher of checkpoint 0 that comes when only the second of two writes is retained is given the second one. -/
theorem watch_skips : ¬ ∀ s start outputs,
    (run (System.step sampleOptions) (System.new (queueBroadcast ChangeEvent) 1)
      [sampleWrite 1, sampleWrite 2, .subscribe, .snapshot, .poll]).phase = .opened s start outputs →
    Replays sampleOptions (run (System.step sampleOptions) (System.new (queueBroadcast ChangeEvent) 1)
      [sampleWrite 1, sampleWrite 2, .subscribe, .snapshot, .poll]) s start outputs := by
  intro h
  have ho : [2] <+: [1, 2] := (h _ _ _ rfl).ordered.map ChangeEvent.checkpoint
  revert ho
  decide

end UwuContextDb.Watch
