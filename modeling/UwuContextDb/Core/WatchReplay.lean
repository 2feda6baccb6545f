import UwuContextDb.Core.Watch

/-! What a watcher gets to see of the events it asked for, and how its stream stands after each step. -/

namespace UwuContextDb.Watch

open StateMachine
open List (length_drop getElem?_eq_getElem mem_iff_getElem? getElem?_drop filter_append nil_append length
  drop_eq_nil_of_le length_take_le take_zero length_nil head? append_nil)
open WatchStream (examine new)

def beforeError {ε α : Type} : List (Except ε α) → List α
  | .ok a::rest => a::beforeError rest
  | _ => []

def noError {ε α : Type} (outputs : List (Except ε α)) : Bool := outputs.all Except.isOk

variable {emitted : List ChangeEvent}

variable {ε α : Type}

@[simp] theorem noError_concat (outs : List (Except ε α)) (out : Except ε α) :
    noError (outs++[out]) = (noError outs && out.isOk) := by
  simp [noError]

theorem beforeError_append {outs : List (Except ε α)} (h : noError outs = true)
    (more : List (Except ε α)) : beforeError (outs++more) = beforeError outs ++ beforeError more := by
  induction outs with
  | nil => rfl
  | cons out outs ih =>
    cases out with
    | error e => simp [noError,Except.isOk,Except.toBool] at h
    | ok a =>
      have hr : noError outs = true := by simpa [noError,Except.isOk,Except.toBool] using h
      simp [beforeError,ih hr]

theorem beforeError_append_error {outputs : List (Except ε α)} (h : noError outputs = false)
    (more : List (Except ε α)) : beforeError (outputs++more) = beforeError outputs := by
  induction outputs with
  | nil => simp [noError] at h
  | cons out outputs ih =>
    cases out with
    | error e => rfl
    | ok a =>
      have hr : noError outputs = false := by simpa [noError,Except.isOk,Except.toBool] using h
      simp [beforeError,ih hr]

theorem beforeError_stop {outputs : List (Except ε α)} {out : Option (Except ε α)}
    (h : noError (outputs++out.toList) = false) : beforeError (outputs++out.toList) = beforeError outputs := by
  cases hn : noError outputs with
  | false => exact beforeError_append_error hn _
  | true =>
    rw [beforeError_append hn]
    match out with
    | none => simp [beforeError]
    | some (.error e) => simp [beforeError]
    | some (.ok a) => simp [hn,Except.isOk,Except.toBool] at h

/-- The events a stream is to yield: those after `start` that match its prefix. -/
def due (uriPrefix : Option String) (start : ℕ) (emitted : List ChangeEvent) : List ChangeEvent :=
  emitted.filter (fun event => start < event.checkpoint && Matches uriPrefix event)

variable {b : Broadcast ChangeEvent}

/-- The promise of a stream: it yields the due events in order; all of them, once it waits for the next one; and
where it reports an error, an event that it has not come to is gone from the history. -/
structure Replays (options : WatchOptions) (sys : System b) (s : WatchStream b) (start : ℕ)
    (outputs : List (Except ContextError ChangeEvent)) : Prop where
  start_eq : ∀ c, options.fromCheckpoint = some c → start = c
  ordered : beforeError outputs <+: due options.uriPrefix start sys.emitted
  increasing : (beforeError outputs).Pairwise (fun event event' => event.checkpoint < event'.checkpoint)
  complete : noError outputs = true → s.lagged = none → s.backlog = [] → (∃ rx, b.recv s.rx = (.empty, rx)) →
    beforeError outputs = due options.uriPrefix start sys.emitted
  lost : noError outputs = true → ∀ e s', s.poll sys.hub = (some (.error e), s') →
    ∃ event ∈ sys.emitted, max start s.lastCheckpoint < event.checkpoint ∧ event ∉ sys.hub.history

def OpensWhole (options : WatchOptions) (sys : System b) : Action → Prop
  | .snapshot => ∀ rx since, sys.phase = .subscribed rx since →
    (options.includeCurrent || options.fromCheckpoint.isSome) = true →
      ∀ event ∈ due options.uriPrefix (options.start since) sys.emitted, event ∈ sys.hub.history
  | _ => True

structure Numbered (hub : WatchHub) (emitted : List ChangeEvent) : Prop where
  next : hub.next = emitted.length + 1
  checkpoint : ∀ i event, emitted[i]? = some event → event.checkpoint = i + 1
  history : hub.history = emitted.drop (emitted.length - hub.historyCapacity)
  capacity : 0 < hub.historyCapacity

theorem numbered_new (buffer : ℕ) : Numbered (.new buffer) [] := by
  refine ⟨rfl,by simp,by simp [WatchHub.new],?_⟩
  show 0 < max buffer 1
  omega

variable {hub : WatchHub} {start : ℕ}

section Numbered

variable {pre : Option String}

theorem Numbered.emit (h : Numbered hub emitted) (kind : ChangeKind) (u : ContextUri) (toUri : Option ContextUri)
    (ver : Option MvccVersion) (now : DateTime) :
    Numbered (hub.emit kind u toUri ver now).2 (emitted++[(hub.emit kind u toUri ver now).1]) := by
  refine ⟨by simp [WatchHub.emit,h.next],fun i event hi => ?_,?_,h.capacity⟩
  · rw [List.getElem?_append] at hi
    split at hi
    · exact h.checkpoint i event hi
    · rename_i he
      have hl : i - emitted.length = 0 := by
        by_contra hn
        rw [List.getElem?_eq_none (by simp; omega)] at hi
        cases hi
      rw [hl] at hi
      obtain rfl := Option.some.inj hi
      show hub.next = i + 1
      rw [h.next]
      omega
  · have hd : ∀ event :
        ChangeEvent, (hub.history++[event]).drop ((hub.history++[event]).length - hub.historyCapacity) =
        (emitted++[event]).drop ((emitted++[event]).length - hub.historyCapacity) := by
      intro event
      have hc := h.capacity
      have ha : hub.history ++ [event] = (emitted++[event]).drop (emitted.length - hub.historyCapacity) := by
        rw [h.history,List.drop_append_of_le_length (by omega)]
      rw [ha,List.drop_drop]
      congr 1
      simp only [length_drop,List.length_append,List.length_singleton]
      omega
    exact hd _

theorem Numbered.increasing (h : Numbered hub emitted) :
    emitted.Pairwise (fun event event' => event.checkpoint < event'.checkpoint) := by
  rw [List.pairwise_iff_getElem]
  intro i j hi hj hij
  rw [h.checkpoint i _ (getElem?_eq_getElem hi),h.checkpoint j _ (getElem?_eq_getElem hj)]
  omega

theorem Numbered.due_eq (h : Numbered hub emitted) :
    due pre start emitted = (emitted.drop start).filter (Matches pre) := by
  have hs : emitted = emitted.take start ++ emitted.drop start := (List.take_append_drop start emitted).symm
  have ho : (emitted.take start).filter (fun event => start < event.checkpoint && Matches pre event) = [] := by
    rw [List.filter_eq_nil_iff]
    intro event hm
    obtain ⟨i,hi⟩ := mem_iff_getElem?.mp hm
    rw [List.getElem?_take] at hi
    split at hi
    · have hc := h.checkpoint i event hi
      simp only [Bool.and_eq_true,decide_eq_true_eq,not_and]
      omega
    · cases hi
  have hn : (emitted.drop start).filter (fun event => start < event.checkpoint && Matches pre event) =
      (emitted.drop start).filter (Matches pre) := by
    refine List.filter_congr (fun event hm => ?_)
    obtain ⟨i,hi⟩ := mem_iff_getElem?.mp hm
    rw [getElem?_drop] at hi
    have hc := h.checkpoint _ event hi
    have hl : start < event.checkpoint := by omega
    simp [hl]
  unfold due
  conv_lhs => rw [hs]
  rw [filter_append,ho,hn,nil_append]

theorem Numbered.filter_after (h : Numbered hub emitted) (from_ kept : ℕ) :
    (emitted.drop kept).filter (fun event => from_ < event.checkpoint) = emitted.drop (max kept from_) := by
  have hs : emitted.drop kept = (emitted.drop kept).take (from_ - kept) ++ emitted.drop (max kept from_) := by
    conv_lhs => rw [← List.take_append_drop (from_ - kept) (emitted.drop kept)]
    rw [List.drop_drop]
    congr 2
    omega
  have ho : ((emitted.drop kept).take (from_ - kept)).filter (fun event => from_ < event.checkpoint) = [] := by
    rw [List.filter_eq_nil_iff]
    intro event hm
    obtain ⟨i,hi⟩ := mem_iff_getElem?.mp hm
    rw [List.getElem?_take] at hi
    split at hi
    · rw [getElem?_drop] at hi
      have hc := h.checkpoint _ event hi
      simp only [decide_eq_true_eq]
      omega
    · cases hi
  have hn : (emitted.drop (max kept from_)).filter (fun event => from_ < event.checkpoint) =
      emitted.drop (max kept from_) := by
    rw [List.filter_eq_self]
    intro event hm
    obtain ⟨i,hi⟩ := mem_iff_getElem?.mp hm
    rw [getElem?_drop] at hi
    have hc := h.checkpoint _ event hi
    simp only [decide_eq_true_eq]
    omega
  rw [hs,filter_append,ho,hn,nil_append]

end Numbered

theorem filter_advance {m : ChangeEvent → Bool} {start p l : ℕ} {ev : ChangeEvent}
    (hs : start ≤ p) (hp : p ≤ l) (he : emitted[l]? = some ev) (hg : ((emitted.take l).drop p).filter m = []) :
    ((emitted.take (l+1)).drop start).filter m =
      ((emitted.take p).drop start).filter m ++ (if m ev then [ev] else []) := by
  have hl : l < emitted.length := (List.getElem?_eq_some_iff.mp he).1
  have ht : emitted.take (l+1) = emitted.take p ++ (emitted.take l).drop p ++ [ev] := by
    have ho : emitted.take l = emitted.take p ++ (emitted.take l).drop p := by
      conv_lhs => rw [← List.take_append_drop p (emitted.take l),List.take_take,Nat.min_eq_left hp]
    rw [List.take_add_one,he,Option.toList_some,← ho]
  rw [ht,List.append_assoc,List.drop_append_of_le_length (by simp; omega),filter_append,filter_append,
    hg,nil_append]
  by_cases hm : m ev <;> simp [hm]

/-- The receiver has the events from `a` on still to read. -/
structure Queued (pending : b.Receiver → List ChangeEvent) (emitted : List ChangeEvent) (rx : b.Receiver)
    (a : ℕ) : Prop where
  queue : pending rx = emitted.drop a
  queue_le : a ≤ emitted.length

theorem Queued.send {room : ℕ → ℕ} {pending : b.Receiver → List ChangeEvent} {skipped : b.Receiver → ℕ}
    {rx : b.Receiver} {a : ℕ} (hb : b.Laws room pending skipped)
    (h : Queued pending emitted rx a) (cap : ℕ) (ev : ChangeEvent) :
    Queued pending (emitted++[ev]) (b.send cap rx ev) a ∧ skipped (b.send cap rx ev) = skipped rx ∨
      Queued pending (emitted++[ev]) (b.send cap rx ev) (a+1) ∧
        skipped (b.send cap rx ev) = skipped rx + 1 ∧ a + cap ≤ emitted.length := by
  have hl := h.queue_le
  have he : (emitted++[ev]).length = emitted.length + 1 := by simp
  by_cases hr : (pending rx).length < room cap
  · obtain ⟨hp,hs⟩ := hb.send_room cap rx ev hr
    refine .inl ⟨⟨?_,by omega⟩,hs⟩
    rw [hp,h.queue,List.drop_append_of_le_length hl]
  · obtain ⟨hp,hs⟩ := hb.send_full cap rx ev (Nat.le_of_not_lt hr)
    have hq := congrArg length h.queue
    rw [length_drop] at hq
    have hc := hb.room_le cap
    refine .inr ⟨⟨?_,by omega⟩,hs,by omega⟩
    rw [hp,h.queue,← List.drop_append_of_le_length hl,List.tail_drop]

/-- How a stream without an error stands: it has examined the events up to `p`; its backlog are the `k` events from
`l` on, its receiver has those from `a` on; between them nothing is missing unless values were lost. -/
structure Tracks (pending : b.Receiver → List ChangeEvent) (skipped : b.Receiver → ℕ) (capacity : ℕ)
    (emitted : List ChangeEvent) (s : WatchStream b) (start : ℕ) (outputs : List (Except ContextError ChangeEvent))
    (p l k a : ℕ) : Prop where
  start_le : start ≤ p
  p_le : p ≤ emitted.length ∨ p = start
  delivered : beforeError outputs = ((emitted.take p).drop start).filter (Matches s.uriPrefix)
  gap_le : p ≤ l
  gap : ((emitted.take l).drop p).filter (Matches s.uriPrefix) = []
  backlog : s.backlog = (emitted.drop l).take k
  fits : k = 0 ∧ l = p ∨ l + k ≤ emitted.length ∧ 0 < k
  queued : Queued pending emitted s.rx a
  waiting : s.lagged ≠ none → k = 0
  covered : skipped s.rx = 0 → s.lagged = none → a ≤ l + k
  lagging : skipped s.rx ≠ 0 ∨ s.lagged ≠ none → emitted ≠ []
  /-- A stream without a checkpoint counts from 0 until it has examined its first event. -/
  position : s.lastCheckpoint = p ∨ s.lastCheckpoint = 0 ∧ p = start ∧ k = 0 ∧ start ≤ a ∧
    (skipped s.rx ≠ 0 ∨ s.lagged ≠ none → start + capacity < emitted.length)

variable {room : ℕ → ℕ} {a : ℕ}

section Tracks

variable {pending : b.Receiver → List ChangeEvent} {skipped : b.Receiver → ℕ} {capacity : ℕ} {s : WatchStream b} {outs : List (Except ContextError ChangeEvent)}
  {p l k : ℕ}

theorem Tracks.send (hb : b.Laws room pending skipped) (h : Tracks pending skipped capacity emitted s start outs p l k a)
    (ev : ChangeEvent) :
    ∃ a', Tracks pending skipped capacity (emitted++[ev]) { s with rx := b.send capacity s.rx ev } start outs
      p l k a' := by
  have hd : beforeError outs = (((emitted++[ev]).take p).drop start).filter (Matches s.uriPrefix) := by
    rw [h.delivered]
    rcases h.p_le with he | rfl
    · rw [List.take_append_of_le_length he]
    · have hn : ∀ es : List ChangeEvent, (es.take p).drop p = [] :=
        fun es => drop_eq_nil_of_le (length_take_le p es)
      rw [hn,hn]
  have hg : (((emitted++[ev]).take l).drop p).filter (Matches s.uriPrefix) = [] := by
    rcases h.fits with ⟨-,rfl⟩ | ⟨he,-⟩
    · rw [drop_eq_nil_of_le (length_take_le _ _)]
      rfl
    · rw [List.take_append_of_le_length (by omega)]
      exact h.gap
  have ha : s.backlog = ((emitted++[ev]).drop l).take k := by
    rw [h.backlog]
    rcases h.fits with ⟨rfl,-⟩ | ⟨he,-⟩
    · rw [take_zero,take_zero]
    · rw [List.drop_append_of_le_length (by omega),List.take_append_of_le_length (by rw [length_drop]; omega)]
  have hf : k = 0 ∧ l = p ∨ l + k ≤ (emitted++[ev]).length ∧ 0 < k := by
    refine h.fits.imp_right (fun hk => ⟨?_,hk.2⟩)
    rw [List.length_append]
    omega
  have hp : p ≤ (emitted++[ev]).length ∨ p = start := by
    refine h.p_le.imp_left (fun he => ?_)
    rw [List.length_append]
    omega
  have hlen : (emitted++[ev]).length = emitted.length + 1 := by simp
  rcases h.queued.send hb capacity ev with ⟨hq,hs⟩ | ⟨hq,hs,hu⟩
  · refine ⟨a,h.start_le,hp,hd,h.gap_le,hg,ha,hf,hq,h.waiting,?_,by simp,?_⟩
    · simpa only [hs] using h.covered
    · refine h.position.imp_right (fun ⟨hl,hps,hk,hsa,hh⟩ => ⟨hl,hps,hk,hsa,fun hla => ?_⟩)
      rw [hs] at hla
      have ho := hh hla
      omega
  · have hne : skipped (b.send capacity s.rx ev) ≠ 0 := by omega
    refine ⟨a+1,h.start_le,hp,hd,h.gap_le,hg,ha,hf,hq,h.waiting,
      fun hz => absurd hz hne,by simp,?_⟩
    refine h.position.imp_right (fun ⟨hl,hps,hk,hsa,_⟩ => ⟨hl,hps,hk,by omega,fun _ => ?_⟩)
    omega

theorem Tracks.backlog_nil (h : Tracks pending skipped capacity emitted s start outs p l k a) (hn : s.backlog = []) :
    k = 0 ∧ l = p := by
  rcases h.fits with hk | ⟨he,hp⟩
  · exact hk
  · have hl := congrArg length (h.backlog.symm.trans hn)
    rw [List.length_take,length_drop,length_nil] at hl
    omega

theorem beforeError_examine (hn : noError outs = true) (s : WatchStream b) (ev : ChangeEvent) :
    beforeError (outs++(s.examine ev).1.toList) =
      beforeError outs ++ (if Matches s.uriPrefix ev then [ev] else []) := by
  rw [beforeError_append hn]
  unfold examine
  split <;> rfl

variable {event : ChangeEvent} {rest : List ChangeEvent}

theorem Tracks.examine_backlog (hn : Numbered hub emitted) (ho : noError outs = true) (ha : s.lagged = none)
    (h : Tracks pending skipped capacity emitted s start outs p l k a) (hb : s.backlog = event::rest) :
    Tracks pending skipped capacity emitted (examine { s with backlog := rest } event).2 start
      (outs++(examine { s with backlog := rest } event).1.toList) (l+1) (l+1) (k - 1) a := by
  obtain ⟨hle,hp⟩ : l + k ≤ emitted.length ∧ 0 < k := by
    refine h.fits.resolve_left (fun hk => ?_)
    rw [h.backlog,hk.1,take_zero] at hb
    cases hb
  obtain ⟨k,rfl⟩ : ∃ n, k = n + 1 := ⟨k - 1,by omega⟩
  have hc : event::rest = emitted[l]::(emitted.drop (l+1)).take k := by
    rw [← hb,h.backlog,List.drop_eq_getElem_cons (by omega),List.take_succ_cons]
  obtain ⟨he,hr⟩ := List.cons.inj hc
  have hg : emitted[l]? = some event := by
    rw [he]
    exact getElem?_eq_getElem _
  have hs := h.start_le
  have hga := h.gap_le
  refine ⟨by omega, .inl (by omega),?_,le_refl _,?_,hr,by omega,h.queued,fun hl => absurd ha hl,?_,
    h.lagging, .inl (hn.checkpoint l event hg)⟩
  · have hd := filter_advance h.start_le h.gap_le hg h.gap
    rw [← h.delivered] at hd
    exact (beforeError_examine ho _ event).trans hd.symm
  · rw [drop_eq_nil_of_le (length_take_le _ _)]
    rfl
  · intro hz _
    have hv := h.covered hz ha
    omega

theorem Tracks.examine_value (hn : Numbered hub emitted) (ho : noError outs = true) (hlg : s.lagged = none)
    (hb : s.backlog = []) (h : Tracks pending skipped capacity emitted s start outs p l k a) {rx : b.Receiver}
    (hz : skipped s.rx = 0) (hv : pending s.rx = event::rest)
    (hr : pending rx = rest) (hx : skipped rx = 0) :
    if event.checkpoint ≤ s.lastCheckpoint then
      Tracks pending skipped capacity emitted { s with rx := rx } start outs p l k (a+1)
    else Tracks pending skipped capacity emitted (examine { s with rx := rx } event).2 start
      (outs++(examine { s with rx := rx } event).1.toList) (p+1) (p+1) 0 (a+1) := by
  obtain ⟨rfl,rfl⟩ := h.backlog_nil hb
  have ht : a < emitted.length := by
    have he := congrArg length (h.queued.queue.symm.trans hv)
    rw [length_drop,List.length_cons] at he
    omega
  have hc : event::rest = emitted[a]::emitted.drop (a+1) := by
    rw [← hv,h.queued.queue,List.drop_eq_getElem_cons ht]
  obtain ⟨hev,hd⟩ := List.cons.inj hc
  have hg : emitted[a]? = some event := by
    rw [hev]
    exact getElem?_eq_getElem _
  have hu := hn.checkpoint a event hg
  have hq : Queued pending emitted rx (a+1) := ⟨hr.trans hd,ht⟩
  have hco := h.covered hz hlg
  split
  · rename_i hol
    have hl : s.lastCheckpoint = l := h.position.resolve_right (fun ⟨hl,_⟩ => by omega)
    exact ⟨h.start_le,h.p_le,h.delivered,h.gap_le,h.gap,h.backlog,h.fits,hq,h.waiting,
      fun _ _ => by omega,fun hla => h.lagging (.inr (hla.resolve_left (fun hne => hne hx))), .inl hl⟩
  · rename_i hw
    obtain rfl : a = l := by
      rcases h.position with hl | ⟨-,hp,-,hsa,-⟩ <;> omega
    have hs := h.start_le
    refine ⟨by omega, .inl ht,?_,le_refl _,?_,hb, .inl ⟨rfl,rfl⟩,hq,fun _ => rfl,fun _ _ => by omega,
      fun _ => List.ne_nil_of_length_pos (by omega), .inl hu⟩
    · have ha := filter_advance h.start_le (le_refl _) hg h.gap
      rw [← h.delivered] at ha
      exact (beforeError_examine ho _ event).trans ha.symm
    · rw [drop_eq_nil_of_le (length_take_le _ _)]
      rfl

theorem Tracks.recover (hn : Numbered hub emitted) (hc : hub.historyCapacity = capacity) {n : ℕ}
    (hg : s.lagged = some n) (h : Tracks pending skipped capacity emitted s start outs p l k a)
    {events : List ChangeEvent} (ho : recoverLag hub s.lastCheckpoint n = .ok events) :
    Tracks pending skipped capacity emitted { s with lagged := none, backlog := s.backlog++events } start outs p p
      (emitted.length - p) a := by
  have hk : k = 0 := h.waiting (by simp [hg])
  have ha : skipped s.rx ≠ 0 ∨ s.lagged ≠ none := .inr (by simp [hg])
  have he := h.lagging ha
  have hle : 0 < emitted.length := List.length_pos_of_ne_nil he
  have hi : s.backlog = [] := by rw [h.backlog,hk,take_zero]
  have hcp := hn.capacity
  obtain ⟨hp,hv⟩ : emitted.length - hub.historyCapacity ≤ s.lastCheckpoint ∧
      events = hub.history.filter (fun event => s.lastCheckpoint+1 ≤ event.checkpoint) := by
    unfold recoverLag at ho
    split at ho
    · cases ho
    · rename_i oldest tail hh
      dsimp only at ho
      split at ho
      · cases ho
      · rename_i hd
        refine ⟨?_,(Except.ok.inj ho).symm⟩
        have ht : emitted[emitted.length - hub.historyCapacity]? = some oldest := by
          have hhe := congrArg head? (hn.history.symm.trans hh)
          rwa [List.head?_drop] at hhe
        have hu := hn.checkpoint _ oldest ht
        omega
  have hl : s.lastCheckpoint = p := by
    refine h.position.resolve_right (fun ⟨hl,_,_,_,hb⟩ => ?_)
    have hd := hb ha
    omega
  have hr : events = emitted.drop p := by
    rw [hv,hn.history]
    have hf := hn.filter_after s.lastCheckpoint (emitted.length - hub.historyCapacity)
    rw [Nat.max_eq_right hp,hl] at hf
    rw [hl]
    exact hf
  have hq := h.queued.queue_le
  refine ⟨h.start_le,h.p_le,h.delivered,le_refl _,?_,?_,by omega,h.queued,by simp,fun _ _ => by omega,
    fun _ => he, .inl hl⟩
  · rw [drop_eq_nil_of_le (length_take_le _ _)]
    rfl
  · rw [hi,hr,nil_append,List.take_of_length_le (by rw [length_drop])]

theorem Tracks.poll (hb : b.Laws room pending skipped) (hn : Numbered hub emitted) (hca : hub.historyCapacity = capacity)
    (hno : noError outs = true) (h : Tracks pending skipped capacity emitted s start outs p l k a)
    (hu : noError (s.poll hub).1.toList = true) :
    ∃ p l k a, Tracks pending skipped capacity emitted (s.poll hub).2 start (outs++(s.poll hub).1.toList) p l k a := by
  cases ha : s.lagged with
  | some n =>
    cases hre : recoverLag hub s.lastCheckpoint n with
    | error e =>
      have hp : s.poll hub = (some (.error e), { s with lagged := none }) := by
        simp only [WatchStream.poll,ha,hre]
      rw [hp] at hu
      cases hu
    | ok events =>
      have hp : s.poll hub = (none, { s with lagged := none, backlog := s.backlog++events }) := by
        simp only [WatchStream.poll,ha,hre]
      rw [hp,Option.toList_none,append_nil]
      exact ⟨p,p,_,a,h.recover hn hca ha hre⟩
  | none =>
    cases hc : s.backlog with
    | cons event rest =>
      have hp : s.poll hub = examine { s with backlog := rest } event := by
        simp only [WatchStream.poll,ha,hc]
      rw [hp]
      exact ⟨l+1,l+1,k - 1,a,h.examine_backlog hn hno ha hc⟩
    | nil =>
      obtain ⟨hk,hl⟩ := h.backlog_nil hc
      by_cases hz : skipped s.rx = 0
      · cases hpe : pending s.rx with
        | nil =>
          obtain ⟨rx,hr,he,hrx⟩ := hb.recv_empty s.rx hz hpe
          have hp : s.poll hub = (none, { s with rx := rx }) := by
            simp only [WatchStream.poll,ha,hc,hr]
          rw [hp,Option.toList_none,append_nil]
          have hq : Queued pending emitted rx a :=
            ⟨(he.trans hpe.symm).trans h.queued.queue,h.queued.queue_le⟩
          refine ⟨p,l,k,a,h.start_le,h.p_le,h.delivered,h.gap_le,h.gap,h.backlog,h.fits,hq,h.waiting,
            fun _ => h.covered hz,?_,?_⟩
          · simpa only [hrx,hz] using h.lagging
          · simpa only [hrx,hz] using h.position
        | cons event rest =>
          obtain ⟨rx,hr,he,hrx⟩ := hb.recv_value s.rx event rest hz hpe
          have hx := h.examine_value hn hno ha hc hz hpe he hrx
          by_cases ho : event.checkpoint ≤ s.lastCheckpoint
          · have hp : s.poll hub = (none, { s with rx := rx }) := by
              simp only [WatchStream.poll,ha,hc,hr,if_pos ho]
            rw [if_pos ho] at hx
            rw [hp,Option.toList_none,append_nil]
            exact ⟨p,l,k,a+1,hx⟩
          · have hp : s.poll hub = examine { s with rx := rx } event := by
              simp only [WatchStream.poll,ha,hc,hr,if_neg ho]
            rw [if_neg ho] at hx
            rw [hp]
            exact ⟨p+1,p+1,0,a+1,hx⟩
      · obtain ⟨rx,hr,he,hrx⟩ := hb.recv_lagged s.rx hz
        have hp : s.poll hub = (none, { s with rx := rx, lagged := some (skipped s.rx) }) := by
          simp only [WatchStream.poll,ha,hc,hr]
        rw [hp,Option.toList_none,append_nil]
        refine ⟨p,l,k,a,h.start_le,h.p_le,h.delivered,h.gap_le,h.gap,h.backlog,h.fits,
          ⟨he.trans h.queued.queue,h.queued.queue_le⟩,fun _ => hk,fun _ hl => (by cases hl),
          fun _ => h.lagging (.inl hz),?_⟩
        exact h.position.imp_right
          (fun ⟨hs,hps,hk,hsa,hh⟩ => ⟨hs,hps,hk,hsa,fun _ => hh (.inl hz)⟩)

theorem Numbered.lt_of_mem_history (hn : Numbered hub emitted) (hm : event ∈ hub.history) :
    emitted.length - hub.historyCapacity < event.checkpoint := by
  rw [hn.history] at hm
  obtain ⟨i,hi⟩ := mem_iff_getElem?.mp hm
  rw [getElem?_drop] at hi
  have hu := hn.checkpoint _ event hi
  omega

theorem poll_uriPrefix (hub : WatchHub) (s : WatchStream b) : (s.poll hub).2.uriPrefix = s.uriPrefix := by
  unfold WatchStream.poll
  split
  · split <;> rfl
  · split
    · rfl
    · split
      · split <;> rfl
      · rfl
      · rfl

theorem poll_error {e : ContextError} {s' : WatchStream b} (h : s.poll hub = (some (.error e), s')) :
    ∃ n, s.lagged = some n ∧ recoverLag hub s.lastCheckpoint n = .error e := by
  have he : ∀ (s : WatchStream b) (ev : ChangeEvent), s.examine ev ≠ (some (.error e), s') := by
    intro s ev hq
    unfold examine at hq
    split at hq <;> cases hq
  unfold WatchStream.poll at h
  split at h
  · rename_i n hl
    split at h
    · cases h
    · rename_i e' hr
      cases h
      exact ⟨n,hl,hr⟩
  · split at h
    · exact absurd h (he _ _)
    · split at h
      · split at h
        · cases h
        · exact absurd h (he _ _)
      · cases h
      · cases h

theorem Tracks.lost (hn : Numbered hub emitted) (hc : hub.historyCapacity = capacity)
    (h : Tracks pending skipped capacity emitted s start outs p l k a) {e : ContextError} {s' : WatchStream b}
    (hp : s.poll hub = (some (.error e), s')) :
    ∃ event ∈ emitted, max start s.lastCheckpoint < event.checkpoint ∧ event ∉ hub.history := by
  obtain ⟨n,hg,hr⟩ := poll_error hp
  have hl : skipped s.rx ≠ 0 ∨ s.lagged ≠ none := .inr (by simp [hg])
  have hle : 0 < emitted.length := List.length_pos_of_ne_nil (h.lagging hl)
  have hcp := hn.capacity
  have hbe : s.lastCheckpoint < emitted.length - hub.historyCapacity := by
    unfold recoverLag at hr
    split at hr
    · rename_i hh
      have hi := congrArg length (hn.history.symm.trans hh)
      rw [length_drop,length_nil] at hi
      omega
    · rename_i oldest tail hh
      dsimp only at hr
      split at hr
      · rename_i hx
        have he : emitted[emitted.length - hub.historyCapacity]? = some oldest := by
          have ha := congrArg head? (hn.history.symm.trans hh)
          rwa [List.head?_drop] at ha
        have hu := hn.checkpoint _ oldest he
        omega
      · cases hr
  have ht := h.start_le
  have hlt : max start s.lastCheckpoint < emitted.length - hub.historyCapacity := by
    rcases h.position with hs | ⟨hs,-,-,-,ho⟩
    · omega
    · have hf := ho hl
      omega
  have hb : max start s.lastCheckpoint < emitted.length := by omega
  have hu := hn.checkpoint _ _ (getElem?_eq_getElem hb)
  refine ⟨emitted[max start s.lastCheckpoint],List.getElem_mem hb,by omega,fun hm => ?_⟩
  have hk := hn.lt_of_mem_history hm
  omega

theorem Tracks.ordered (hn : Numbered hub emitted) (h : Tracks pending skipped capacity emitted s start outs p l k a) :
    beforeError outs <+: due s.uriPrefix start emitted := by
  rw [h.delivered,hn.due_eq,List.drop_take]
  exact (List.take_prefix _ _).filter _

theorem Tracks.complete (hb : b.Laws room pending skipped) (hn : Numbered hub emitted)
    (h : Tracks pending skipped capacity emitted s start outs p l k a) (hg : s.lagged = none)
    (hc : s.backlog = []) {rx : b.Receiver} (hr : b.recv s.rx = (.empty, rx)) :
    beforeError outs = due s.uriPrefix start emitted := by
  obtain ⟨hk,hl⟩ := h.backlog_nil hc
  have hz : skipped s.rx = 0 := by
    by_contra hne
    obtain ⟨rx',ha,-⟩ := hb.recv_lagged s.rx hne
    rw [hr] at ha
    cases ha
  have hi : pending s.rx = [] := by
    cases hp : pending s.rx with
    | nil => rfl
    | cons event rest =>
      obtain ⟨rx',hv,-⟩ := hb.recv_value s.rx event rest hz hp
      rw [hr] at hv
      cases hv
  have he := congrArg length (h.queued.queue.symm.trans hi)
  rw [length_drop,length_nil] at he
  have ho := h.covered hz hg
  rw [h.delivered,hn.due_eq,List.take_of_length_le (by omega)]

end Tracks

/-- A receiver that was subscribed at `since` and not read yet. -/
structure Subscribed (pending : b.Receiver → List ChangeEvent) (skipped : b.Receiver → ℕ) (capacity : ℕ)
    (emitted : List ChangeEvent) (rx : b.Receiver) (since a : ℕ) : Prop where
  queued : Queued pending emitted rx a
  since_le : since ≤ a
  whole : skipped rx = 0 → a = since
  behind : skipped rx ≠ 0 → since + capacity < emitted.length

section Subscribed

variable {pending : b.Receiver → List ChangeEvent} {skipped : b.Receiver → ℕ} {rx : b.Receiver} {since : ℕ}

theorem subscribed_new (hb : b.Laws room pending skipped) (hn : Numbered hub emitted) (cap : ℕ) :
    Subscribed pending skipped cap emitted b.subscribe hub.currentCheckpoint emitted.length := by
  have hs : hub.currentCheckpoint = emitted.length := by
    simp [WatchHub.currentCheckpoint,hn.next]
  refine ⟨⟨?_,le_refl _⟩,by omega,fun _ => hs.symm,fun he => absurd hb.subscribe.2 he⟩
  rw [hb.subscribe.1,List.drop_length]

theorem Subscribed.send {cap : ℕ} (hb : b.Laws room pending skipped)
    (h : Subscribed pending skipped cap emitted rx since a) (ev : ChangeEvent) :
    ∃ a', Subscribed pending skipped cap (emitted++[ev]) (b.send cap rx ev) since a' := by
  have hl : (emitted++[ev]).length = emitted.length + 1 := by simp
  have hi := h.since_le
  rcases h.queued.send hb cap ev with ⟨hq,hs⟩ | ⟨hq,hs,hf⟩
  · refine ⟨a,hq,hi,by simpa only [hs] using h.whole,fun hn => ?_⟩
    rw [hs] at hn
    have he := h.behind hn
    omega
  · exact ⟨a+1,hq,by omega,fun hz => by omega,fun _ => by omega⟩

theorem Subscribed.open_ (hn : Numbered hub emitted) (h : Subscribed pending skipped hub.historyCapacity emitted rx since a)
    (opts : WatchOptions)
    (hw : (opts.includeCurrent || opts.fromCheckpoint.isSome) = true →
      ∀ event ∈ due opts.uriPrefix (opts.start since) emitted, event ∈ hub.history) :
    ∃ p l k a, Tracks pending skipped hub.historyCapacity emitted (new hub opts rx) (opts.start since) []
      p l k a := by
  have hsi := h.since_le
  have hq := h.queued.queue_le
  have hp := hn.capacity
  have hni : ∀ p : ℕ, ((emitted.take p).drop p).filter (Matches opts.uriPrefix) = [] := by
    intro p
    rw [drop_eq_nil_of_le (length_take_le _ _)]
    rfl
  have ha : skipped rx ≠ 0 ∨ (none : Option ℕ) ≠ none → since + hub.historyCapacity < emitted.length :=
    fun hl => h.behind (hl.resolve_right (fun he => he rfl))
  have he : skipped rx ≠ 0 ∨ (none : Option ℕ) ≠ none → emitted ≠ [] := by
    intro hl
    have hlt := ha hl
    exact List.ne_nil_of_length_pos (by omega)
  by_cases hr : (opts.includeCurrent || opts.fromCheckpoint.isSome) = true
  · obtain ⟨from_,hf⟩ : ∃ n, n = opts.fromCheckpoint.getD 0 := ⟨_,rfl⟩
    have hs : opts.start since = from_ := by
      unfold WatchOptions.start
      cases hc : opts.fromCheckpoint with
      | none =>
        have hu : opts.includeCurrent = true := by simpa [hc] using hr
        simp [hf,hc,hu]
      | some c => simp [hf,hc]
    have hb : (new hub opts rx).backlog =
        emitted.drop (max (emitted.length - hub.historyCapacity) from_) := by
      unfold new
      simp only [hr,if_true,← hf]
      rw [hn.history]
      exact hn.filter_after from_ _
    rw [hs]
    rw [hs] at hw
    by_cases hlt : max (emitted.length - hub.historyCapacity) from_ < emitted.length
    · refine ⟨from_,max (emitted.length - hub.historyCapacity) from_,
        emitted.length - max (emitted.length - hub.historyCapacity) from_,a,le_refl _, .inr rfl,(hni from_).symm,
        le_max_right _ _,?_,?_, .inr ⟨by omega,by omega⟩,h.queued,fun hl => absurd rfl hl,fun _ _ => by omega,he,
        .inl hf.symm⟩
      · rw [List.filter_eq_nil_iff]
        intro event hm ht
        obtain ⟨i,hi⟩ := mem_iff_getElem?.mp hm
        rw [getElem?_drop,List.getElem?_take] at hi
        split at hi
        · rename_i hbe
          have hnu := hn.checkpoint _ event hi
          have hd : event ∈ due opts.uriPrefix from_ emitted := by
            have haf : from_ < event.checkpoint := by omega
            unfold due
            rw [List.mem_filter]
            have hma : Matches opts.uriPrefix event = true := ht
            exact ⟨List.mem_of_getElem? hi,by simp [haf,hma]⟩
          have hk := hn.lt_of_mem_history (hw hr event hd)
          omega
        · cases hi
      · rw [hb,List.take_of_length_le (by rw [length_drop])]
    · refine ⟨from_,from_,0,a,le_refl _, .inr rfl,(hni from_).symm,le_refl _,hni from_,?_, .inl ⟨rfl,rfl⟩,
        h.queued,fun hl => absurd rfl hl,fun _ _ => by omega,he, .inl hf.symm⟩
      rw [hb,drop_eq_nil_of_le (by omega),take_zero]
  · have ho : opts.fromCheckpoint = none := by
      cases hc : opts.fromCheckpoint with
      | none => rfl
      | some c => simp [hc] at hr
    have hu : opts.includeCurrent = false := by simpa [ho] using hr
    have hs : opts.start since = since := by simp [WatchOptions.start,ho,hu]
    have hb : (new hub opts rx).backlog = [] := by
      unfold new
      simp [ho,hu]
    rw [hs]
    refine ⟨since,since,0,a,le_refl _, .inr rfl,(hni since).symm,le_refl _,hni since,?_,
      .inl ⟨rfl,rfl⟩,h.queued,fun hl => absurd rfl hl,fun hz _ => ?_,he, .inr ⟨?_,rfl,rfl,hsi,ha⟩⟩
    · rw [hb,take_zero]
    · have hal := h.whole hz
      omega
    · show opts.fromCheckpoint.getD 0 = 0
      rw [ho]
      rfl

end Subscribed

end UwuContextDb.Watch
