import UwuContextDb.Core.Model
import UwuContextDb.Library.Run

/-! The change feed of content writes: `WatchHub`, `WatchStream`, and how emits and receives interleave. -/

namespace UwuContextDb.Watch

inductive ChangeKind | write | delete | rename deriving DecidableEq

structure ChangeEvent where
  checkpoint : ℕ
  kind : ChangeKind
  uri : ContextUri
  toUri : Option ContextUri
  version : Option MvccVersion
  tenant : String
  agent : Option String
  path : String
  occurredAt : DateTime

/-- `agent_segment`: the segment after the first `agent`. -/
def agentSegment : List String → Option String
  | a::b::rest => if a = "agent" then some b else agentSegment (b::rest)
  | _ => none

def ChangeEvent.new (checkpoint : ℕ) (kind : ChangeKind) (uri : ContextUri) (toUri : Option ContextUri)
    (version : Option MvccVersion) (now : DateTime) : ChangeEvent :=
  ⟨checkpoint, kind, uri, toUri, version, uri.tenant, agentSegment uri.path, uri.canonical, now⟩

structure WatchOptions where
  uriPrefix : Option String
  fromCheckpoint : Option ℕ
  includeCurrent : Bool

/-- What `recv` on a broadcast receiver comes to; `empty` is the wait for the next value. -/
inductive Received (α : Type)
  | value (a : α)
  | lagged (skipped : ℕ)
  | empty

/-- `tokio::sync::broadcast`, seen from one receiver: `send` is what a value sent to a channel of the requested
capacity does to it. -/
structure Broadcast (α : Type) where
  Receiver : Type
  subscribe : Receiver
  send : ℕ → Receiver → α → Receiver
  recv : Receiver → Received α × Receiver

/-- The documented behaviour, in terms of the values a receiver has still to read and the number it lost: a channel
keeps at least the requested number of values, drops the oldest one, and reports a loss before the next value. -/
structure Broadcast.Laws {α : Type} (b : Broadcast α) (room : ℕ → ℕ) (pending : b.Receiver → List α)
    (skipped : b.Receiver → ℕ) : Prop where
  room_le : ∀ n, n ≤ room n
  subscribe : pending b.subscribe = [] ∧ skipped b.subscribe = 0
  send_room : ∀ n rx a, (pending rx).length < room n →
    pending (b.send n rx a) = pending rx ++ [a] ∧ skipped (b.send n rx a) = skipped rx
  send_full : ∀ n rx a, room n ≤ (pending rx).length →
    pending (b.send n rx a) = (pending rx ++ [a]).tail ∧ skipped (b.send n rx a) = skipped rx + 1
  recv_lagged : ∀ rx, skipped rx ≠ 0 → ∃ rx', b.recv rx = (.lagged (skipped rx), rx') ∧
    pending rx' = pending rx ∧ skipped rx' = 0
  recv_value : ∀ rx a rest, skipped rx = 0 → pending rx = a::rest → ∃ rx', b.recv rx = (.value a, rx') ∧
    pending rx' = rest ∧ skipped rx' = 0
  recv_empty : ∀ rx, skipped rx = 0 → pending rx = [] → ∃ rx', b.recv rx = (.empty, rx') ∧
    pending rx' = [] ∧ skipped rx' = 0

def Broadcast.Documented {α : Type} (b : Broadcast α) : Prop := ∃ room pending skipped, b.Laws room pending skipped

structure WatchHub where
  next : ℕ
  history : List ChangeEvent
  historyCapacity : ℕ

def WatchHub.new (buffer : ℕ) : WatchHub := ⟨1, [], max buffer 1⟩

/-- `WatchHub::emit`, up to the send: the history keeps the newest events. -/
def WatchHub.emit (hub : WatchHub) (kind : ChangeKind) (uri : ContextUri) (toUri : Option ContextUri)
    (version : Option MvccVersion) (now : DateTime) : ChangeEvent × WatchHub :=
  let event := ChangeEvent.new hub.next kind uri toUri version now
  let history := hub.history ++ [event]
  (event, { hub with next := hub.next + 1, history := history.drop (history.length - hub.historyCapacity) })

def WatchHub.currentCheckpoint (hub : WatchHub) : ℕ := hub.next - 1

variable (b : Broadcast ChangeEvent)

/-- A stream, with `recv` between the report of a loss and `recover_lag` when `lagged` is set. -/
structure WatchStream where
  rx : b.Receiver
  backlog : List ChangeEvent
  lastCheckpoint : ℕ
  uriPrefix : Option String
  lagged : Option ℕ

/-- `matches`: the URI, or the one it is renamed to, starts with the prefix. -/
def Matches (uriPrefix : Option String) (event : ChangeEvent) : Bool :=
  match uriPrefix with
  | none => true
  | some p => p.toList.isPrefixOf event.uri.canonical.toList ||
      event.toUri.any (fun uri => p.toList.isPrefixOf uri.canonical.toList)

variable {b}

/-- `watch`, after `subscribe`: the backlog is taken from the history when a checkpoint or the current events are
asked for. -/
def WatchStream.new (hub : WatchHub) (options : WatchOptions) (rx : b.Receiver) : WatchStream b :=
  let from_ := options.fromCheckpoint.getD 0
  let backlog := if options.includeCurrent || options.fromCheckpoint.isSome
    then hub.history.filter (fun event => from_ < event.checkpoint) else []
  ⟨rx, backlog, from_, options.uriPrefix, none⟩

/-- `recover_lag`: the events it appends to the backlog. -/
def recoverLag (hub : WatchHub) (lastCheckpoint skipped : ℕ) : Except ContextError (List ChangeEvent) :=
  let expected := lastCheckpoint + 1
  match hub.history with
  | [] => .error (.storage s!"watch stream lagged by {skipped} events and retained history is empty")
  | oldest::_ =>
    if expected < oldest.checkpoint then
      .error (.storage s!"watch checkpoint {expected} is outside retained history starting at {oldest.checkpoint}")
    else .ok (hub.history.filter (fun event => expected ≤ event.checkpoint))

def WatchStream.examine (s : WatchStream b) (event : ChangeEvent) :
    Option (Except ContextError ChangeEvent) × WatchStream b :=
  (if Matches s.uriPrefix event then some (.ok event) else none, { s with lastCheckpoint := event.checkpoint })

/-- One turn of the loop in `recv`: what it returns, if it does, and the stream it leaves. -/
def WatchStream.poll (hub : WatchHub) (s : WatchStream b) : Option (Except ContextError ChangeEvent) × WatchStream b :=
  match s.lagged with
  | some skipped =>
    match recoverLag hub s.lastCheckpoint skipped with
    | .ok events => (none, { s with lagged := none, backlog := s.backlog ++ events })
    | .error e => (some (.error e), { s with lagged := none })
  | none =>
    match s.backlog with
    | event::rest => WatchStream.examine { s with backlog := rest } event
    | [] =>
      match b.recv s.rx with
      | (.value event, rx) =>
        if event.checkpoint ≤ s.lastCheckpoint then (none, { s with rx := rx })
        else WatchStream.examine { s with rx := rx } event
      | (.lagged skipped, rx) => (none, { s with rx := rx, lagged := some skipped })
      | (.empty, rx) => (none, { s with rx := rx })

variable (b)

/-- How far a call of `watch` and the stream it opens have come. `start` is the sequence number the stream is to
follow, `outputs` what its receives have returned. -/
inductive Phase
  | closed
  | subscribed (rx : b.Receiver) (since : ℕ)
  | opened (s : WatchStream b) (start : ℕ) (outputs : List (Except ContextError ChangeEvent))

structure System where
  hub : WatchHub
  emitted : List ChangeEvent
  phase : Phase b

inductive Action
  | emit (kind : ChangeKind) (uri : ContextUri) (toUri : Option ContextUri) (version : Option MvccVersion) (now : DateTime)
  | subscribe
  | snapshot
  | poll

variable {b}

/-- The sequence number a stream is to follow: the checkpoint it is given, or where it was opened. A stream that
asks for the current events as well follows the beginning. -/
def WatchOptions.start (options : WatchOptions) (since : ℕ) : ℕ :=
  match options.fromCheckpoint with
  | some checkpoint => checkpoint
  | none => if options.includeCurrent then 0 else since

def Phase.send (capacity : ℕ) (event : ChangeEvent) : Phase b → Phase b
  | .closed => .closed
  | .subscribed rx since => .subscribed (b.send capacity rx event) since
  | .opened s start outputs => .opened { s with rx := b.send capacity s.rx event } start outputs

namespace System

def new (b : Broadcast ChangeEvent) (buffer : ℕ) : System b := ⟨.new buffer, [], .closed⟩

def step (options : WatchOptions) (sys : System b) : Action → System b
  | .emit kind uri toUri version now =>
    let (event, hub) := sys.hub.emit kind uri toUri version now
    ⟨hub, sys.emitted ++ [event], sys.phase.send sys.hub.historyCapacity event⟩
  | .subscribe =>
    match sys.phase with
    | .closed => { sys with phase := .subscribed b.subscribe sys.hub.currentCheckpoint }
    | _ => sys
  | .snapshot =>
    match sys.phase with
    | .subscribed rx since => { sys with phase := .opened (.new sys.hub options rx) (options.start since) [] }
    | _ => sys
  | .poll =>
    match sys.phase with
    | .opened s start outputs =>
      let (out, s) := s.poll sys.hub
      { sys with phase := .opened s start (outputs ++ out.toList) }
    | _ => sys

end System

end UwuContextDb.Watch
