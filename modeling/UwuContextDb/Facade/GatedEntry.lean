import UwuContextDb.Core.Policy
import UwuContextDb.Facade.Model

/-! The facade's gated calls: what reaches a backend, and what the caller gets back. -/

namespace UwuContextDb.Facade

open StateMachine (bind_eq_ok mapError_eq_ok toOption_eq_some)

inductive GatedError (E : Type)
  | facade (error : FacadeError)
  | policyDenied (message : String)
  | federation (message : String)
  | llm (error : E)

/-- `FacadeError`'s text; a time limit is printed as `limit`. -/
def FacadeError.text (limit : String) : FacadeError → String
  | .invalidConfig message => "invalid configuration: " ++ message
  | .tenantViolation message => "tenant boundary violation: " ++ message
  | .cancelled => "request cancelled"
  | .deadlineExceeded => "request deadline exceeded"
  | .notConfigured capability => "capability not configured: " ++ capability
  | .context error => "context operation failed: " ++ Retrieve.errorText error
  | .audit message => "audit sink rejected event: " ++ message
  | .timeout => "operation timed out after " ++ limit

def GatedError.text {E : Type} [ToString E] (limit : String) : GatedError E → String
  | .facade error => error.text limit
  | .policyDenied message => "policy denied: " ++ message
  | .federation message => "federation operation failed: " ++ message
  | .llm error => "LLM operation failed: " ++ toString error

structure Exchange where
  content : String
  answer : Option ExecutionResponse

structure Gated (E α : Type) where
  exchanges : List Exchange
  result : Except (GatedError E) α

namespace Gated

variable {E α β : Type}

def pure_ (a : α) : Gated E α := ⟨[], .ok a⟩

def bind (x : Gated E α) (f : α → Gated E β) : Gated E β :=
  match x.result with
  | .ok a => ⟨x.exchanges ++ (f a).exchanges, (f a).result⟩
  | .error e => ⟨x.exchanges, .error e⟩

instance : Monad (Gated E) where
  pure := pure_
  bind := bind

def throw_ (e : GatedError E) : Gated E α := ⟨[], .error e⟩

def check (x : Except (GatedError E) α) : Gated E α := ⟨[], x⟩

end Gated

structure LlmClient (V E O : Type) where
  complete : String → O → Except E String
  completeJson : String → Json → O → Except E String
  embed : String → Except E V

abbrev Executor := ExecutionContext → ExecutionRequest → Except ContextError ExecutionResponse

structure GatedParts (V E O : Type) where
  gate : RuleExecutionGate
  toolExecutor : Option Executor
  skillExecutor : Option Executor
  federation : Option Executor
  llm : Option (LlmClient V E O)
  audit : AuditEvent → Except String Unit
  maxAuditDetailBytes : ℕ

/-- What the clock, the cancellation token and a shutdown do to a call: the time left when it starts, whether it is
admitted, the time left when its wait starts, whether it is cancelled by then, how the wait ends, and its time limit as
it is printed. -/
structure Circumstances where
  started : Except FacadeError Unit
  admitted : Except FacadeError Unit
  left : Except FacadeError Unit
  cancelled : Bool
  waited : Except FacadeError Unit
  limit : String

section Calls

variable {V E O α : Type} (parts : GatedParts V E O) (ctx : RequestContext) (t : Circumstances)

def remaining (x : Except FacadeError Unit) : Gated E Unit := .check (x.mapError .facade)

def audit (op : String) (allowed : Bool) (detail : String) : Gated E Unit :=
  .check ((parts.audit ⟨ctx.tenantName, ctx.actor, ctx.requestId, op, allowed,
    truncateDetail parts.maxAuditDetailBytes detail⟩).mapError (fun message => .facade (.audit message)))

def execution (kind : ExecutionKind) : ExecutionContext := ⟨ctx.tenantName, ctx.actor, none, ctx.requestId, kind, []⟩

/-- The `select!` of a call: a cancelled one does not start the backend, and one that is cancelled later or takes too
long does not wait for its answer. -/
def wait (content : String) (shown : α → Option ExecutionResponse) (answer : Except (GatedError E) α) : Gated E α :=
  if t.cancelled then .throw_ (.facade .cancelled)
  else ⟨[⟨content, answer.toOption.bind shown⟩], (t.waited.mapError .facade).bind (fun _ => answer)⟩

def timedCall (content : String) (shown : α → Option ExecutionResponse) (answer : Except (GatedError E) α) : Gated E α := do
  remaining t.admitted
  remaining t.left
  wait t content shown answer

def preflight (ex : ExecutionContext) (request : ExecutionRequest) : Gated E PolicyDecision :=
  .check ((parts.gate.preflight ex request).mapError (fun e => .policyDenied e.text))

def postflight (ex : ExecutionContext) (decision : PolicyDecision) (response : ExecutionResponse) :
    Except (GatedError E) ExecutionResponse :=
  (parts.gate.postflight ex decision response).mapError (fun e => .policyDenied e.text)

def configured (capability : String) (x : Option α) : Gated E α :=
  match x with
  | some a => .pure_ a
  | none => .throw_ (.facade (.notConfigured capability))

def audited (op detail : String) (x : Gated E α) : Gated E α :=
  ⟨x.exchanges, (audit parts ctx op (isOk x.result) detail : Gated E Unit).result.bind (fun _ => x.result)⟩

def completionOf (answer : Except E String) : Except (GatedError E) String := answer.mapError .llm

def shownText (text : String) : Option ExecutionResponse := some (.new text)

def llmComplete (prompt : String) (opts : O) : Gated E String := do
  remaining t.started
  let decision ← preflight parts (execution ctx (.tool "llm.complete")) (.new "llm.complete" prompt)
  if !decision.allowed then
    audit parts ctx "llm.complete" false "gate denied"
    Gated.throw_ (.policyDenied "preflight denied")
  else do
    let llm ← configured "llm" parts.llm
    remaining t.left
    audited parts ctx "llm.complete" "completion" (wait t prompt shownText (completionOf (llm.complete prompt opts)))

/-- `llm_complete_json` and `llm_embed`, but for what they ask of the model. -/
def llmTimed (op detail content : String) (shown : α → Option ExecutionResponse)
    (ask : LlmClient V E O → Except E α) : Gated E α := do
  remaining t.started
  let decision ← preflight parts (execution ctx (.tool op)) (.new op content)
  if !decision.allowed then
    audit parts ctx op false "gate denied"
    Gated.throw_ (.policyDenied "preflight denied")
  else do
    let llm ← configured "llm" parts.llm
    audited parts ctx op detail (timedCall t content shown ((ask llm).mapError .llm))

def llmCompleteJson (prompt : String) (schema : Json) (opts : O) : Gated E String :=
  llmTimed parts ctx t "llm.complete_json" "structured completion" prompt shownText
    (fun llm => llm.completeJson prompt schema opts)

def llmEmbed (text : String) : Gated E V :=
  llmTimed parts ctx t "llm.embed" "embedding" text (fun _ => none) (fun llm => llm.embed text)

def federate [ToString E] (request : ExecutionRequest) : Gated E ExecutionResponse := do
  remaining t.started
  let gateway ← configured "federation" parts.federation
  let decision ← preflight parts (execution ctx (.tool "federation")) request
  if !decision.allowed then Gated.throw_ (.policyDenied "preflight denied")
  else
    let sent : Gated E ExecutionResponse := timedCall t request.content some
      ((gateway (execution ctx (.tool "federation")) request).mapError (fun e => .facade (.context e)))
    audited parts ctx "federation.execute" "tenant-bound federation"
      ⟨sent.exchanges, (sent.result.mapError (fun e => .federation (e.text t.limit))).bind
        (postflight parts (execution ctx (.tool "federation")) decision)⟩

def execute (kind : ExecutionKind) (executor : Option Executor) (request : ExecutionRequest) :
    Gated E ExecutionResponse := do
  let decision ← preflight parts (execution ctx kind) request
  if !decision.allowed then
    audit parts ctx "execute" false "gate denied"
    Gated.throw_ (.policyDenied "preflight denied")
  else do
    let executor ← configured "executor" executor
    let response ← timedCall t request.content some
      ((executor (execution ctx kind) request).mapError (fun e => .facade (.context e)))
    audited parts ctx "execute" "tool or skill" (.check (postflight parts (execution ctx kind) decision response))

def executeTool (name : String) (request : ExecutionRequest) : Gated E ExecutionResponse :=
  execute parts ctx t (.tool name) parts.toolExecutor request

def executeSkill (name : String) (request : ExecutionRequest) : Gated E ExecutionResponse :=
  execute parts ctx t (.skill name) parts.skillExecutor request

inductive GatedCall (O : Type)
  | executeTool (name : String) (request : ExecutionRequest)
  | executeSkill (name : String) (request : ExecutionRequest)
  | federate (request : ExecutionRequest)
  | llmComplete (prompt : String) (opts : O)
  | llmCompleteJson (prompt : String) (schema : Json) (opts : O)
  | llmEmbed (text : String)

inductive GatedReply (V : Type)
  | response (response : ExecutionResponse)
  | text (text : String)
  | embedding (vector : V)

def Gated.map_ {β : Type} (f : α → β) (x : Gated E α) : Gated E β := ⟨x.exchanges, x.result.map f⟩

def GatedCall.outcome [ToString E] : GatedCall O → Gated E (GatedReply V)
  | .executeTool name request => (Facade.executeTool parts ctx t name request).map_ .response
  | .executeSkill name request => (Facade.executeSkill parts ctx t name request).map_ .response
  | .federate request => (Facade.federate parts ctx t request).map_ .response
  | .llmComplete prompt opts => (Facade.llmComplete parts ctx t prompt opts).map_ .text
  | .llmCompleteJson prompt schema opts => (Facade.llmCompleteJson parts ctx t prompt schema opts).map_ .text
  | .llmEmbed text => (Facade.llmEmbed parts ctx t text).map_ .embedding

end Calls

section Decisions

variable {V E O : Type}

def GatedCall.request : GatedCall O → ExecutionRequest
  | .executeTool _ request | .executeSkill _ request | .federate request => request
  | .llmComplete prompt _ => .new "llm.complete" prompt
  | .llmCompleteJson prompt _ _ => .new "llm.complete_json" prompt
  | .llmEmbed text => .new "llm.embed" text

def GatedReply.returned : GatedReply V → Option String
  | .response r => some r.content
  | .text s => some s
  | .embedding _ => none

/-- What the gate decided of a call is what is executed: only an allowed request reaches a backend, as it was decided
about, and the text that is returned is an answer after the postflight. -/
structure Executes (gate : RuleExecutionGate) (request : ExecutionRequest) (o : Gated E (GatedReply V)) : Prop where
  allowed : ∀ e ∈ o.exchanges, (gate.decision request).allowed = true
  rewritten : ∀ e ∈ o.exchanges, e.content = (gate.decision request).request.content
  answered : ∀ reply text, o.result = .ok reply → reply.returned = some text → ∃ e ∈ o.exchanges, ∃ ex answer response,
    e.answer = some answer ∧ gate.postflight ex (gate.decision request) answer = .ok response ∧ text = response.content

variable (parts : GatedParts V E O) (ctx : RequestContext) (t : Circumstances)

def Waits : Prop := isOk t.admitted = true ∧ isOk t.left = true ∧ t.cancelled = false

def GetsThrough : GatedCall O → Prop
  | .executeTool _ _ => parts.toolExecutor.isSome = true ∧ Waits t
  | .executeSkill _ _ => parts.skillExecutor.isSome = true ∧ Waits t
  | .federate _ => isOk t.started = true ∧ parts.federation.isSome = true ∧ Waits t
  | .llmComplete _ _ => isOk t.started = true ∧ parts.llm.isSome = true ∧ isOk t.left = true ∧ t.cancelled = false
  | .llmCompleteJson _ _ _ | .llmEmbed _ => isOk t.started = true ∧ parts.llm.isSome = true ∧ Waits t

def comesBack (op detail : String) : Bool :=
  isOk t.waited &&
    isOk (parts.audit ⟨ctx.tenantName, ctx.actor, ctx.requestId, op, true, truncateDetail parts.maxAuditDetailBytes detail⟩)

def completed : GatedCall O → Option String
  | .llmComplete prompt opts =>
    if comesBack parts ctx t "llm.complete" "completion" then parts.llm.bind
      (fun llm => (llm.complete prompt opts).toOption) else none
  | .llmCompleteJson prompt schema opts =>
    if comesBack parts ctx t "llm.complete_json" "structured completion" then
      parts.llm.bind (fun llm => (llm.completeJson prompt schema opts).toOption)
    else none
  | _ => none

/-- The call is denied or reaches nothing; or its rules leave the request as it is and, where a model completes it, the
answer. -/
def KeepsDecision (c : GatedCall O) : Prop :=
  (parts.gate.selected c.request).map (·.effect) = some .deny ∨ ¬ GetsThrough parts t c ∨
    (∀ rule, parts.gate.selected c.request = some rule → rule.effect = .rewriteRequest →
      rule.changes c.request.content = false) ∧
      ∀ answer, completed parts ctx t c = some answer → ∀ rule, parts.gate.responseRule c.request = some rule →
        rule.changes answer = false

end Decisions

section Outcomes

variable {V E O α β : Type}

@[simp] theorem check_ok_bind (a : α) (f : α → Gated E β) : (Gated.check (.ok a) >>= f) = f a := rfl

@[simp] theorem check_error_bind (e : GatedError E) (f : α → Gated E β) : (Gated.check (.error e) >>= f) = .throw_ e := rfl

@[simp] theorem throw_bind (e : GatedError E) (f : α → Gated E β) : (Gated.throw_ e >>= f) = .throw_ e := rfl

theorem remaining_ok {x : Except FacadeError Unit} (h : isOk x = true) :
    (remaining x : Gated E Unit) = .check (.ok ()) := by
  cases x with
  | ok u => rfl
  | error e => cases h

theorem remaining_error {x : Except FacadeError Unit} (h : isOk x = false) :
    ∃ e, (remaining x : Gated E Unit) = .check (.error e) := by
  cases x with
  | ok u => cases h
  | error e => exact ⟨_,rfl⟩

variable {x : Gated E α} {f : α → Gated E β} {t : Circumstances}

theorem bind_exchanges (h : ∀ a, (f a).exchanges = []) : (x >>= f).exchanges = x.exchanges := by
  show (x.bind f).exchanges = x.exchanges
  unfold Gated.bind
  split
  · simp [h]
  · rfl

theorem bind_result {b : β} : (x >>= f).result = .ok b ↔ ∃ a, x.result = .ok a ∧ (f a).result = .ok b := by
  show (x.bind f).result = .ok b ↔ _
  unfold Gated.bind
  split
  · rename_i a ha
    simp [ha]
  · rename_i e he
    simp [he]

@[simp] theorem map_exchanges (f : α → β) (x : Gated E α) : (x.map_ f).exchanges = x.exchanges := rfl

theorem map_result {f : α → β} {b : β} : (x.map_ f).result = .ok b ↔ ∃ a, x.result = .ok a ∧ f a = b :=
  StateMachine.map_eq_ok

theorem wait_cancelled (h : t.cancelled = true) (content : String)
    (shown : α → Option ExecutionResponse) (answer : Except (GatedError E) α) :
    wait t content shown answer = .throw_ (.facade .cancelled) := if_pos h

theorem wait_started (h : t.cancelled = false) (content : String) (shown : α → Option ExecutionResponse)
    (answer : Except (GatedError E) α) :
    wait t content shown answer =
      ⟨[⟨content,answer.toOption.bind shown⟩],(t.waited.mapError .facade).bind (fun _ => answer)⟩ := by
  rw [wait,if_neg (by simp [h])]

theorem remaining_bind_stopped {x : Except FacadeError Unit} {f : Unit → Gated E β}
    (h : isOk x = true → ∃ e, f () = .throw_ e) : ∃ e, (remaining x >>= f) = .throw_ e := by
  cases hl : isOk x with
  | false =>
    obtain ⟨e,he⟩ := @remaining_error E x hl
    exact ⟨e,by rw [he,check_error_bind]⟩
  | true =>
    rw [remaining_ok hl,check_ok_bind]
    exact h hl

theorem configured_bind_stopped {capability : String} {x : Option α}
    (h : ∀ a, x = some a → ∃ e, f a = .throw_ e) : ∃ e, (configured capability x >>= f) = .throw_ e := by
  cases x with
  | none => exact ⟨_,rfl⟩
  | some a => exact h a rfl

theorem timedCall_stopped (h : ¬ Waits t) (content : String) (shown : α → Option ExecutionResponse)
    (answer : Except (GatedError E) α) : ∃ e, timedCall t content shown answer = .throw_ e := by
  refine remaining_bind_stopped (fun ha => remaining_bind_stopped (fun hl => ?_))
  cases hc : t.cancelled with
  | true => exact ⟨_,wait_cancelled hc content shown answer⟩
  | false => exact absurd ⟨ha,hl,hc⟩ h

theorem timedCall_started (h : Waits t) (content : String) (shown : α → Option ExecutionResponse)
    (answer : Except (GatedError E) α) :
    timedCall t content shown answer =
      ⟨[⟨content,answer.toOption.bind shown⟩],(t.waited.mapError .facade).bind (fun _ => answer)⟩ := by
  unfold timedCall
  rw [remaining_ok h.1,check_ok_bind,remaining_ok h.2.1,check_ok_bind,wait_started h.2.2]

end Outcomes

section Entries

variable {V E O : Type} {parts : GatedParts V E O} {ctx : RequestContext} {t : Circumstances}

theorem preflight_eq (ex : ExecutionContext) (req : ExecutionRequest) :
    (preflight parts ex req : Gated E PolicyDecision) = .check (.ok (parts.gate.decision req)) := rfl

theorem configured_some {α : Type} (capability : String) (a : α) :
    (configured capability (some a) : Gated E α) = .check (.ok a) := rfl

theorem check_bind_throw {α β : Type} (x : Except (GatedError E) α) (e : GatedError E) :
    ∃ e', (Gated.check x >>= fun _ => (Gated.throw_ e : Gated E β)) = .throw_ e' := by
  cases x with
  | ok a => exact ⟨e,rfl⟩
  | error e' => exact ⟨e',rfl⟩

theorem audited_throw {α : Type} (op detail : String) (e : GatedError E) :
    ∃ e', audited parts ctx op detail (.throw_ e : Gated E α) = .throw_ e' := by
  unfold audited
  cases (audit parts ctx op (isOk (Gated.throw_ e : Gated E α).result) detail : Gated E Unit).result with
  | ok u => exact ⟨e,rfl⟩
  | error e' => exact ⟨e',rfl⟩

theorem llmComplete_stopped {prompt : String} {opts : O}
    (h : (parts.gate.decision (.new "llm.complete" prompt)).allowed = false ∨
      ¬ GetsThrough parts t (.llmComplete prompt opts)) :
    ∃ e, llmComplete parts ctx t prompt opts = .throw_ e := by
  refine remaining_bind_stopped (fun hs => ?_)
  rw [preflight_eq,check_ok_bind]
  cases ha : (parts.gate.decision (.new "llm.complete" prompt)).allowed with
  | false => exact check_bind_throw _ _
  | true =>
    have hr := h.resolve_left (by simp [ha])
    rw [if_neg (by simp)]
    refine configured_bind_stopped (fun llm hl => remaining_bind_stopped (fun he => ?_))
    cases hc : t.cancelled with
    | true =>
      rw [wait_cancelled hc]
      exact audited_throw _ _ _
    | false => exact absurd ⟨hs,by simp [hl],he,hc⟩ hr

theorem llmTimed_stopped {α : Type} {op detail content : String} {shown : α → Option ExecutionResponse}
    {ask : LlmClient V E O → Except E α} (h : (parts.gate.decision (.new op content)).allowed = false ∨
      ¬ (isOk t.started = true ∧ parts.llm.isSome = true ∧ Waits t)) :
    ∃ e, llmTimed parts ctx t op detail content shown ask = .throw_ e := by
  refine remaining_bind_stopped (fun hs => ?_)
  rw [preflight_eq,check_ok_bind]
  cases ha : (parts.gate.decision (.new op content)).allowed with
  | false => exact check_bind_throw _ _
  | true =>
    have hr := h.resolve_left (by simp [ha])
    rw [if_neg (by simp)]
    refine configured_bind_stopped (fun llm hl => ?_)
    have hw : ¬ Waits t := fun hw => hr ⟨hs,by simp [hl],hw⟩
    obtain ⟨e,he⟩ := timedCall_stopped hw content shown ((ask llm).mapError .llm)
    rw [he]
    exact audited_throw _ _ _

theorem execute_stopped {kind : ExecutionKind} {executor : Option Executor} {req : ExecutionRequest}
    (h : (parts.gate.decision req).allowed = false ∨ ¬ (executor.isSome = true ∧ Waits t)) :
    ∃ e, execute parts ctx t kind executor req = .throw_ e := by
  unfold execute
  rw [preflight_eq,check_ok_bind]
  cases ha : (parts.gate.decision req).allowed with
  | false => exact check_bind_throw _ _
  | true =>
    have hr := h.resolve_left (by simp [ha])
    rw [if_neg (by simp)]
    refine configured_bind_stopped (fun run hu => ?_)
    have hw : ¬ Waits t := fun hw => hr ⟨by simp [hu],hw⟩
    obtain ⟨e,he⟩ := timedCall_stopped hw req.content some
      ((run (execution ctx kind) req).mapError
        (fun e => GatedError.facade (.context e) : ContextError → GatedError E))
    exact ⟨e,by rw [he,throw_bind]⟩

theorem federate_stopped [ToString E] {req : ExecutionRequest}
    (h : (parts.gate.decision req).allowed = false ∨
      ¬ (isOk t.started = true ∧ parts.federation.isSome = true ∧ Waits t)) :
    ∃ e, federate parts ctx t req = .throw_ e := by
  refine remaining_bind_stopped (fun hs => configured_bind_stopped (fun gateway hg => ?_))
  rw [preflight_eq,check_ok_bind]
  cases ha : (parts.gate.decision req).allowed with
  | false => exact ⟨_,rfl⟩
  | true =>
    have hr := h.resolve_left (by simp [ha])
    have hw : ¬ Waits t := fun hw => hr ⟨hs,by simp [hg],hw⟩
    obtain ⟨e,he⟩ := timedCall_stopped hw req.content some
      ((gateway (execution ctx (.tool "federation")) req).mapError
        (fun e => GatedError.facade (.context e) : ContextError → GatedError E))
    rw [if_neg (by simp)]
    dsimp only
    rw [he]
    exact audited_throw _ _ _

theorem outcome_stopped [ToString E] {c : GatedCall O}
    (h : (parts.gate.decision c.request).allowed = false ∨ ¬ GetsThrough parts t c) :
    ∃ e, c.outcome parts ctx t = .throw_ e := by
  cases c with
  | executeTool name request =>
    obtain ⟨e,he⟩ := @execute_stopped V E O parts ctx t (.tool name) parts.toolExecutor request h
    exact ⟨e,by rw [GatedCall.outcome,executeTool,he]; rfl⟩
  | executeSkill name request =>
    obtain ⟨e,he⟩ := @execute_stopped V E O parts ctx t (.skill name) parts.skillExecutor request h
    exact ⟨e,by rw [GatedCall.outcome,executeSkill,he]; rfl⟩
  | federate request =>
    obtain ⟨e,he⟩ := @federate_stopped V E O parts ctx t _ request h
    exact ⟨e,by rw [GatedCall.outcome,he]; rfl⟩
  | llmComplete prompt opts =>
    obtain ⟨e,he⟩ := @llmComplete_stopped V E O parts ctx t prompt opts h
    exact ⟨e,by rw [GatedCall.outcome,he]; rfl⟩
  | llmCompleteJson prompt schema opts =>
    obtain ⟨e,he⟩ := @llmTimed_stopped V E O parts ctx t _ _ "structured completion" _ shownText
      (fun llm => llm.completeJson prompt schema opts) h
    exact ⟨e,by rw [GatedCall.outcome,llmCompleteJson,he]; rfl⟩
  | llmEmbed text =>
    obtain ⟨e,he⟩ := @llmTimed_stopped V E O parts ctx t _ _ "embedding" _ (fun _ => none) (fun llm => llm.embed text) h
    exact ⟨e,by rw [GatedCall.outcome,llmEmbed,he]; rfl⟩

theorem isOk_iff_exists {ε α : Type} {x : Except ε α} : isOk x = true ↔ ∃ a, x = .ok a := by
  cases x with
  | ok a => exact iff_of_true rfl ⟨a,rfl⟩
  | error e => exact iff_of_false (by rintro ⟨⟩) (by rintro ⟨a,⟨⟩⟩)

theorem audited_result {α : Type} {op detail : String} {x : Gated E α} {a : α} :
    (audited parts ctx op detail x).result = .ok a ↔ isOk (parts.audit ⟨ctx.tenantName,ctx.actor,ctx.requestId,op,true,
      truncateDetail parts.maxAuditDetailBytes detail⟩) = true ∧ x.result = .ok a := by
  rw [audited,isOk_iff_exists]
  refine bind_eq_ok.trans ?_
  constructor
  · rintro ⟨u,ha,hr⟩
    have ho : isOk x.result = true := isOk_iff_exists.mpr ⟨a,hr⟩
    rw [ho] at ha
    exact ⟨⟨u,mapError_eq_ok.mp ha⟩,hr⟩
  · rintro ⟨⟨u,ha⟩,hr⟩
    have ho : isOk x.result = true := isOk_iff_exists.mpr ⟨a,hr⟩
    rw [ho]
    exact ⟨u,mapError_eq_ok.mpr ha,hr⟩

theorem waited_result {α : Type} {answer : Except (GatedError E) α} {a : α} :
    (t.waited.mapError GatedError.facade).bind (fun _ => answer) = .ok a ↔ isOk t.waited = true ∧ answer = .ok a := by
  rw [isOk_iff_exists]
  refine bind_eq_ok.trans ?_
  constructor
  · rintro ⟨u,hw,ha⟩
    exact ⟨⟨u,mapError_eq_ok.mp hw⟩,ha⟩
  · rintro ⟨⟨u,hw⟩,ha⟩
    exact ⟨u,mapError_eq_ok.mpr hw,ha⟩

/-- A tool or a skill that is reached gets the request as the caller made it; what comes back has passed the postflight. -/
theorem execute_reached {kind : ExecutionKind} {executor : Option Executor} {req : ExecutionRequest}
    (ha : (parts.gate.decision req).allowed = true) (he : executor.isSome = true) (hw : Waits t) :
    ∃ e, (execute parts ctx t kind executor req).exchanges = [e] ∧ e.content = req.content ∧
      ∀ r, (execute parts ctx t kind executor req).result = .ok r → ∃ ex answer, e.answer = some answer ∧
        parts.gate.postflight ex (parts.gate.decision req) answer = .ok r := by
  obtain ⟨run,rfl⟩ := Option.isSome_iff_exists.mp he
  unfold execute
  rw [preflight_eq,check_ok_bind,if_neg (by simp [ha]),configured_some,check_ok_bind,timedCall_started hw]
  refine ⟨_,bind_exchanges (fun _ => rfl),rfl,fun r hr => ?_⟩
  obtain ⟨answer,hn,hr⟩ := bind_result.mp hr
  obtain ⟨-,hp⟩ := audited_result.mp hr
  obtain ⟨-,hu⟩ := waited_result.mp hn
  refine ⟨execution ctx kind,answer,?_,mapError_eq_ok.mp hp⟩
  rw [hu]
  rfl

theorem federate_reached [ToString E] {req : ExecutionRequest} (ha : (parts.gate.decision req).allowed = true)
    (hs : isOk t.started = true) (hg : parts.federation.isSome = true) (hw : Waits t) :
    ∃ e, (federate parts ctx t req).exchanges = [e] ∧ e.content = req.content ∧
      ∀ r, (federate parts ctx t req).result = .ok r → ∃ ex answer, e.answer = some answer ∧
        parts.gate.postflight ex (parts.gate.decision req) answer = .ok r := by
  obtain ⟨gateway,hg⟩ := Option.isSome_iff_exists.mp hg
  unfold federate
  rw [remaining_ok hs,check_ok_bind,hg,configured_some,check_ok_bind,preflight_eq,check_ok_bind,
    if_neg (by simp [ha]),timedCall_started hw]
  refine ⟨_,rfl,rfl,fun r hr => ?_⟩
  obtain ⟨-,he⟩ := audited_result.mp hr
  obtain ⟨answer,hn,hp⟩ := bind_eq_ok.mp he
  obtain ⟨-,hu⟩ := waited_result.mp (mapError_eq_ok.mp hn)
  refine ⟨_,answer,?_,mapError_eq_ok.mp hp⟩
  rw [hu]
  rfl

theorem completion_iff {op detail text : String} {answer : Except E String} :
    ((isOk (parts.audit ⟨ctx.tenantName,ctx.actor,ctx.requestId,op,true,
      truncateDetail parts.maxAuditDetailBytes detail⟩) = true ∧
        isOk t.waited = true ∧ answer.mapError GatedError.llm = .ok text) ↔
      (if comesBack parts ctx t op detail then answer.toOption else none) = some text) ∧
    ((if comesBack parts ctx t op detail then answer.toOption else none) = some text →
      (answer.mapError (GatedError.llm)).toOption.bind shownText = some (.new text)) := by
  unfold comesBack
  refine ⟨⟨?_,fun hb => ?_⟩,fun hb => ?_⟩
  · rintro ⟨ha,hw,hn⟩
    obtain rfl := mapError_eq_ok.mp hn
    rw [ha,hw]
    rfl
  · split at hb
    · rename_i ho
      rw [Bool.and_eq_true] at ho
      exact ⟨ho.2,ho.1,mapError_eq_ok.mpr (toOption_eq_some.mp hb)⟩
    · cases hb
  · split at hb
    · rw [toOption_eq_some.mp hb]
      rfl
    · cases hb

theorem llmComplete_reached {prompt : String} {opts : O}
    (ha : (parts.gate.decision (.new "llm.complete" prompt)).allowed = true)
    (hr : GetsThrough parts t (.llmComplete prompt opts)) :
    ∃ e, (llmComplete parts ctx t prompt opts).exchanges = [e] ∧ e.content = prompt ∧
      ∀ text, ((llmComplete parts ctx t prompt opts).result = .ok text ↔
        completed parts ctx t (.llmComplete prompt opts) = some text) ∧
        (completed parts ctx t (.llmComplete prompt opts) = some text → e.answer = some (.new text)) := by
  obtain ⟨hs,hl,he,hc⟩ := hr
  obtain ⟨llm,hl⟩ := Option.isSome_iff_exists.mp hl
  unfold llmComplete
  rw [remaining_ok hs,check_ok_bind,preflight_eq,check_ok_bind,if_neg (by simp [ha]),hl,configured_some,
    check_ok_bind,remaining_ok he,check_ok_bind,wait_started hc]
  refine ⟨_,rfl,rfl,fun text => ?_⟩
  rw [audited_result,waited_result,completed,hl]
  exact completion_iff

theorem llmTimed_reached {α : Type} {op detail content : String} {shown : α → Option ExecutionResponse}
    {ask : LlmClient V E O → Except E α} {llm : LlmClient V E O}
    (ha : (parts.gate.decision (.new op content)).allowed = true) (hs : isOk t.started = true)
    (hl : parts.llm = some llm) (hw : Waits t) :
    llmTimed parts ctx t op detail content shown ask = audited parts ctx op detail
      ⟨[⟨content,((ask llm).mapError GatedError.llm).toOption.bind shown⟩],
        (t.waited.mapError .facade).bind (fun _ => (ask llm).mapError .llm)⟩ := by
  unfold llmTimed
  rw [remaining_ok hs,check_ok_bind,preflight_eq,check_ok_bind,if_neg (by simp [ha]),hl,configured_some,
    check_ok_bind,timedCall_started hw]

theorem llmCompleteJson_reached {prompt : String} {schema : Json} {opts : O}
    (ha : (parts.gate.decision (.new "llm.complete_json" prompt)).allowed = true)
    (hr : GetsThrough parts t (.llmCompleteJson prompt schema opts)) :
    ∃ e, (llmCompleteJson parts ctx t prompt schema opts).exchanges = [e] ∧ e.content = prompt ∧
      ∀ text, ((llmCompleteJson parts ctx t prompt schema opts).result = .ok text ↔
          completed parts ctx t (.llmCompleteJson prompt schema opts) = some text) ∧
        (completed parts ctx t (.llmCompleteJson prompt schema opts) = some text → e.answer = some (.new text)) := by
  obtain ⟨hs,hl,hw⟩ := hr
  obtain ⟨llm,hl⟩ := Option.isSome_iff_exists.mp hl
  rw [llmCompleteJson,llmTimed_reached ha hs hl hw]
  refine ⟨_,rfl,rfl,fun text => ?_⟩
  rw [audited_result,waited_result,completed,hl]
  exact completion_iff

end Entries

section Rules

variable {V E O : Type} {gate : RuleExecutionGate} {request : ExecutionRequest}

theorem rewriteRequest_iff : request.content = (gate.rewriteRequest request).content ↔
    ∀ rule, gate.selected request = some rule → rule.effect = .rewriteRequest → rule.changes request.content = false := by
  unfold RuleExecutionGate.rewriteRequest
  split
  · rename_i rule hr
    split
    · rename_i he
      rw [eq_comm,rule.rewrite_eq_self_iff]
      constructor
      · intro hs other ho _
        obtain rfl := Option.some.inj (hr.symm.trans ho)
        exact hs
      · intro ha
        exact ha rule hr he
    · rename_i he
      refine iff_of_true rfl (fun other ho hw => ?_)
      obtain rfl := Option.some.inj (hr.symm.trans ho)
      exact absurd hw he
  · rename_i hn
    refine iff_of_true rfl (fun other ho _ => ?_)
    rw [hn] at ho
    cases ho

theorem rewriteRequest_eq_self (h : request.content = (gate.rewriteRequest request).content) :
    gate.rewriteRequest request = request := by
  unfold RuleExecutionGate.rewriteRequest at h ⊢
  split
  · split
    · rename_i rule hr he
      rw [hr] at h
      dsimp only at h
      rw [if_pos he] at h
      have hc : request.content = rule.rewrite request.content := h
      rw [← hc]
    · rfl
  · rfl

theorem postflight_new (hl : (gate.decision request).allowed = true) (hs : gate.rewriteRequest request = request)
    (text : String) :
    (∃ ex response, gate.postflight ex (gate.decision request) (.new text) = .ok response ∧ text = response.content) ↔
      ∀ rule, gate.responseRule request = some rule → rule.changes text = false := by
  have hr : (gate.decision request).request = request := hs
  unfold RuleExecutionGate.postflight
  rw [if_neg (by simp [hl]),hr]
  cases hu : gate.responseRule request with
  | none =>
    refine iff_of_true ⟨⟨"", "",none, "", .llm,[]⟩, .new text,rfl,rfl⟩ (fun rule ho => ?_)
    cases ho
  | some rule =>
    constructor
    · rintro ⟨ex,response,he,ht⟩ other ho
      obtain rfl := Option.some.inj ho
      cases he
      exact rule.rewrite_eq_self_iff text |>.mp ht.symm
    · intro ha
      have hk := (rule.rewrite_eq_self_iff text).mpr (ha rule rfl)
      exact ⟨⟨"", "",none, "", .llm,[]⟩,_,rfl,hk.symm⟩

theorem executes_of_throw (e : GatedError E) : Executes gate request (.throw_ e : Gated E (GatedReply V)) := by
  refine ⟨fun e he => ?_,fun e he => ?_,fun reply text hr => ?_⟩
  · cases he
  · cases he
  · cases hr

theorem executes_of_postflight {o : Gated E (GatedReply V)} {e : Exchange} (hx : o.exchanges = [e])
    (hc : e.content = request.content) (ha : (gate.decision request).allowed = true)
    (hn : ∀ reply text, o.result = .ok reply → reply.returned = some text → ∃ ex answer response,
      e.answer = some answer ∧ gate.postflight ex (gate.decision request) answer = .ok response ∧ text = response.content) :
    Executes gate request o ↔ request.content = (gate.rewriteRequest request).content := by
  constructor
  · intro h
    rw [← hc]
    exact h.rewritten e (by rw [hx]; exact List.mem_cons_self)
  · intro hs
    refine ⟨fun _ _ => ha,fun e' he' => ?_,fun reply text hr hp => ?_⟩
    · rw [hx,List.mem_singleton] at he'
      rw [he',hc]
      exact hs
    · exact ⟨e,by rw [hx]; exact List.mem_cons_self,hn reply text hr hp⟩

theorem executes_of_responses {o : Gated E ExecutionResponse} {e : Exchange} (he : o.exchanges = [e])
    (hc : e.content = request.content) (ha : (gate.decision request).allowed = true)
    (hs : ∀ r, o.result = .ok r → ∃ ex answer, e.answer = some answer ∧
      gate.postflight ex (gate.decision request) answer = .ok r) :
    Executes gate request (o.map_ (GatedReply.response (V := V))) ↔
      request.content = (gate.rewriteRequest request).content := by
  refine executes_of_postflight he hc ha (fun reply text hk hp => ?_)
  obtain ⟨r,hr,rfl⟩ := map_result.mp hk
  obtain ⟨ex,answer,hn,ho⟩ := hs r hr
  exact ⟨ex,answer,r,hn,ho,(Option.some.inj hp).symm⟩

/-- A completing call has to send what was decided about, and to come back with what the postflight leaves alone. -/
theorem executes_of_completion {o : Gated E String} {e : Exchange} (hx : o.exchanges = [e])
    (hc : e.content = request.content) (ha : (gate.decision request).allowed = true) {back : Option String}
    (hr : ∀ text, (o.result = .ok text ↔ back = some text) ∧ (back = some text → e.answer = some (.new text))) :
    Executes gate request (o.map_ (GatedReply.text (V := V))) ↔
      request.content = (gate.rewriteRequest request).content ∧
      ∀ text, back = some text → ∀ rule, gate.responseRule request = some rule → rule.changes text = false := by
  constructor
  · intro h
    have hs : request.content = (gate.rewriteRequest request).content := by
      rw [← hc]
      exact h.rewritten e (by rw [map_exchanges,hx]; exact List.mem_cons_self)
    refine ⟨hs,fun text hb => ?_⟩
    obtain ⟨e',he',ex,answer,response,hn',hp,ht⟩ :=
      h.answered (.text text) text (map_result.mpr ⟨text,(hr text).1.mpr hb,rfl⟩) rfl
    rw [map_exchanges,hx,List.mem_singleton] at he'
    rw [he',(hr text).2 hb] at hn'
    obtain rfl := Option.some.inj hn'
    exact (postflight_new ha (rewriteRequest_eq_self hs) text).mp ⟨ex,response,hp,ht⟩
  · rintro ⟨hs,hk⟩
    refine (executes_of_postflight hx hc ha (fun reply text ho hre => ?_)).mpr hs
    obtain ⟨text',ho',rfl⟩ := map_result.mp ho
    obtain rfl := Option.some.inj hre
    have hb := (hr text').1.mp ho'
    obtain ⟨ex,response,hp,ht⟩ :=
      (postflight_new ha (rewriteRequest_eq_self hs) text').mpr (hk text' hb)
    exact ⟨ex,_,response,(hr text').2 hb,hp,ht⟩

end Rules

section Calls

variable {V E O : Type} [ToString E] {parts : GatedParts V E O} {ctx : RequestContext} {t : Circumstances}

theorem executes_of_reached {c : GatedCall O} (ha : (parts.gate.decision c.request).allowed = true)
    (hr : GetsThrough parts t c) :
    Executes parts.gate c.request (c.outcome parts ctx t) ↔
    c.request.content = (parts.gate.rewriteRequest c.request).content ∧
      ∀ answer, completed parts ctx t c = some answer → ∀ rule, parts.gate.responseRule c.request = some rule →
        rule.changes answer = false := by
  cases c with
  | executeTool name request =>
    obtain ⟨e,he,hc,hs⟩ :=
      @execute_reached V E O parts ctx t (.tool name) _ request ha hr.1 hr.2
    exact (executes_of_responses he hc ha hs).trans
      (and_iff_left (fun _ hn => by cases hn)).symm
  | executeSkill name request =>
    obtain ⟨e,he,hc,hs⟩ :=
      @execute_reached V E O parts ctx t (.skill name) _ request ha hr.1 hr.2
    exact (executes_of_responses he hc ha hs).trans
      (and_iff_left (fun _ hn => by cases hn)).symm
  | federate request =>
    obtain ⟨e,he,hc,hs⟩ :=
      @federate_reached V E O parts ctx t _ request ha hr.1 hr.2.1 hr.2.2
    exact (executes_of_responses he hc ha hs).trans
      (and_iff_left (fun _ hn => by cases hn)).symm
  | llmComplete prompt opts =>
    obtain ⟨e,he,hc,hs⟩ := llmComplete_reached ha hr
    exact executes_of_completion he hc ha hs
  | llmCompleteJson prompt schema opts =>
    obtain ⟨e,he,hc,hs⟩ := llmCompleteJson_reached ha hr
    exact executes_of_completion he hc ha hs
  | llmEmbed text =>
    obtain ⟨llm,hl⟩ := Option.isSome_iff_exists.mp hr.2.1
    have hh := @llmTimed_reached V E O parts ctx t V "llm.embed" "embedding" text (fun _ => none)
      (fun llm => llm.embed text)
      llm ha hr.1 hl hr.2.2
    rw [GatedCall.outcome,llmEmbed,hh]
    refine (executes_of_postflight rfl rfl ha ?_).trans (and_iff_left (fun _ hn => by cases hn)).symm
    intro reply text ho hp
    obtain ⟨v,-,rfl⟩ := map_result.mp ho
    cases hp

end Calls

/-- The facade executes what the gate decided exactly if the rules have nothing to rewrite on a path that forgets to. -/
theorem gated_executes_iff {V E O : Type} [ToString E] (parts : GatedParts V E O) (ctx : RequestContext) (t : Circumstances)
    (c : GatedCall O) : Executes parts.gate c.request (c.outcome parts ctx t) ↔ KeepsDecision parts ctx t c := by
  unfold KeepsDecision
  rw [← rewriteRequest_iff]
  by_cases hd : (parts.gate.selected c.request).map (·.effect) = some .deny
  · have ha : (parts.gate.decision c.request).allowed = false := by simp [RuleExecutionGate.decision, hd]
    obtain ⟨e, he⟩ := outcome_stopped (.inl ha)
    rw [he]
    exact iff_of_true (executes_of_throw e) (.inl hd)
  by_cases hr : GetsThrough parts t c
  · have ha : (parts.gate.decision c.request).allowed = true := by simp [RuleExecutionGate.decision, hd]
    rw [executes_of_reached ha hr]
    simp [hd, hr]
  · obtain ⟨e, he⟩ := outcome_stopped (.inr hr)
    rw [he]
    exact iff_of_true (executes_of_throw e) (.inr (.inl hr))

def maskRule : PolicyRule := ⟨"mask", .rewriteRequest, .soft, .system, 0, none, some "secret", some "***", "masked"⟩

def sampleParts : GatedParts ℕ String Unit :=
  ⟨⟨1, [maskRule]⟩, some (fun _ _ => .ok (.new "done")), none, none, none, fun _ => .ok (), 100⟩

/-- The tool is handed the word that the gate has masked. -/
theorem masked_request_executed : ¬ Executes sampleParts.gate (.new "tool" "my secret")
    ((GatedCall.executeTool "tool" (.new "tool" "my secret")).outcome sampleParts ⟨"t", "actor", "request"⟩
      ⟨.ok (), .ok (), .ok (), false, .ok (), "30s"⟩) := by
  intro h
  have hs := h.rewritten ⟨"my secret", some (.new "done")⟩ List.mem_cons_self
  exact absurd hs (by decide +kernel)

end UwuContextDb.Facade
