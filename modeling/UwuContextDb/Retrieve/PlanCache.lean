import UwuContextDb.Core.DebugText
import UwuContextDb.Core.Lowercase
import UwuContextDb.Core.WriteSecurity
import UwuContextDb.Library.Lru
import UwuContextDb.Retrieve.Planner

/-! The two retrievers that keep compiled plans: which part of a call the key of its plan is made of. -/

namespace UwuContextDb.Retrieve

open StateMachine Text

structure RetrieveContext where
  userId : Option String
  agentId : Option String
  budgetTokens : Option ℕ
  deriving DecidableEq

structure RetrieveCall where
  query : String
  ctx : RetrieveContext
  deriving DecidableEq

def RetrieveContext.budget (ctx : RetrieveContext) : ℕ := ctx.budgetTokens.getD 8000

structure RuleBasedPlanner where
  defaultTenant : String
  defaultAgent : String

namespace RuleBasedPlanner

variable (tables : CaseTables) (planner : RuleBasedPlanner)

def scopeText (ctx : RetrieveContext) : String :=
  "uwu://" ++ ctx.userId.getD planner.defaultTenant ++ "/agent/" ++ ctx.agentId.getD planner.defaultAgent

def mentions (query : String) (words : List String) : Bool :=
  words.any (fun word => WriteSecurity.contains word.toList (toLowercase tables query.toList))

def predicate (query : String) : Predicate :=
  ⟨(if mentions tables query ["fact", "事实"] then [.typeEquals .fact] else []) ++
    (if mentions tables query ["error", "错误", "失败"] then [.typeEquals .error] else []) ++ [.validOnly]⟩

def parse (call : RetrieveCall) : Except ContextError LogicalPlan := do
  let scope ← ContextUri.parse (planner.scopeText call.ctx)
  return .filter (.scan (some scope) .l0 (some (clamp ((call.ctx.budget + 159) / 160) 10 512)))
    (predicate tables call.query)

end RuleBasedPlanner

/-- `PlanCacheConfig`, validated. -/
structure PlanCacheConfig where
  capacity : ℕ
  positive : 0 < capacity

structure Execution where
  plan : PhysicalPlan
  budget : ℕ

section Retrievers

variable {Digest : Type} [DecidableEq Digest] (tables : CaseTables) (planner : RuleBasedPlanner) (optimizer : CboOptimizer)

/-- `RetrieverCompiler::compile_text`, without the cost. -/
def compileText (call : RetrieveCall) : Except ContextError PhysicalPlan := do
  let logical ← planner.parse tables call
  return optimizer.optimize logical

def ownExecution (call : RetrieveCall) : Except ContextError Execution := do
  let plan ← compileText tables planner optimizer call
  return ⟨plan, call.ctx.budget⟩

/-- The budget that `PlanExecutor::new` sets. -/
def executorBudget : ℕ := 8000

/-- `CompiledRetriever::retrieve` up to the execution; `simpleHash` is the standard library's hash of a string. -/
def compiledRetrieve (simpleHash : String → UInt64) (cache : Lru.Cache UInt64 PhysicalPlan) (call : RetrieveCall) :
    Except ContextError Execution × Lru.Cache UInt64 PhysicalPlan :=
  let answered := Lru.memo (fun call => simpleHash call.query) (compileText tables planner optimizer) cache call
  (answered.1.map (⟨·, executorBudget⟩), answered.2)

/-- `{:?}` of an optional value, as its own `{:?}` is printed. -/
def debugOption : Option (List Char) → List Char
  | none => "None".toList
  | some text => "Some(".toList ++ text ++ [')']

def line (name : String) (value : List Char) : List Char := '\n' :: (name.toList ++ value)

def planText (unprinted : Char → Bool) (call : RetrieveCall) : List Char :=
  "query=".toList ++ call.query.toList ++ line "user=" (debugOption (call.ctx.userId.map (debugText unprinted))) ++
    line "agent=" (debugOption (call.ctx.agentId.map (debugText unprinted))) ++
    line "budget=" (debugOption (call.ctx.budgetTokens.map (fun budget => budget.repr.toList)))

/-- What `plan_cache_key` hashes. -/
def planCacheMessage (kind : String) (payload : List Char) : List Char := kind.toList ++ ['\x00'] ++ payload

/-- What a `ContextRetriever` is asked. -/
inductive Request
  | retrieve (call : RetrieveCall)
  | retrieveQuery (query : Query) (ctx : RetrieveContext)

def Query.budget (ctx : RetrieveContext) : Query → ℕ
  | .find _ _ budget _ _ => budget
  | .similar _ _ budget _ => budget
  | _ => ctx.budget

def Request.message (unprinted : Char → Bool) (debugQuery : Query → List Char) : Request → List Char
  | .retrieve call => planCacheMessage "nl" (planText unprinted call)
  | .retrieveQuery query _ => planCacheMessage "query" (debugQuery query)

/-- `ContextRetriever::retrieve` without an intent analyzer, and `retrieve_query`, up to the execution: the query is parsed
before the cache is asked. -/
def contextRetrieve (unprinted : Char → Bool) (debugQuery : Query → List Char) (blake3 : List Char → Digest)
    (cache : Lru.Cache Digest PhysicalPlan) (request : Request) :
    Except ContextError Execution × Lru.Cache Digest PhysicalPlan :=
  let key := blake3 (request.message unprinted debugQuery)
  match request with
  | .retrieve call =>
    match planner.parse tables call with
    | .error e => (.error e, cache)
    | .ok logical =>
      let answered := Lru.memo (fun _ => key) (fun logical => .ok (optimizer.optimize logical)) cache logical
      (answered.1.map (⟨·, call.ctx.budget⟩), answered.2)
  | .retrieveQuery query ctx =>
    let answered := Lru.memo (fun _ => key) (fun query => .ok (optimizer.optimize (queryToLogical query))) cache query
    (answered.1.map (⟨·, query.budget ctx⟩), answered.2)

end Retrievers

section Keys

variable {unprinted : Char → Bool}

theorem debugOption_inj {α : Type} {print : α → List Char} (hp : ∀ a b, print a = print b → a = b) {a b : Option α}
    (h : debugOption (a.map print) = debugOption (b.map print)) : a = b := by
  cases a with
  | none =>
    cases b with
    | none => rfl
    | some b => exact absurd (List.cons.inj h).1 (by decide)
  | some a =>
    cases b with
    | none => exact absurd (List.cons.inj h).1 (by decide)
    | some b =>
      have hs : "Some(".toList ++ print a ++ [')'] = "Some(".toList ++ print b ++ [')'] := h
      rw [hp a b (List.append_cancel_left (List.append_cancel_right hs))]

theorem newline_notMem_debugOption {text : Option (List Char)} (h : ∀ t, text = some t → '\n' ∉ t) :
    '\n' ∉ debugOption text := by
  cases text with
  | none => decide
  | some t =>
    intro hm
    rcases List.mem_append.mp hm with hm | hm
    · rcases List.mem_append.mp hm with hm | hm
      · exact absurd hm (by decide)
      · exact h t rfl hm
    · exact absurd hm (by decide)

theorem planText_inj {call call' : RetrieveCall}
    (h : planText unprinted call = planText unprinted call') : call = call' := by
  have he : ∀ {name : String} {text : List Char}, '\n' ∉ name.toList → '\n' ∉ text → '\n' ∉ name.toList ++ text := by
    intro name text hn hx hm
    exact (List.mem_append.mp hm).elim hn hx
  have hi : ∀ (name : String) (id : Option String), '\n' ∉ name.toList →
      '\n' ∉ name.toList ++ debugOption (id.map (debugText unprinted)) := by
    intro name id hn
    refine he hn (newline_notMem_debugOption (fun t ht => ?_))
    obtain ⟨text,-,rfl⟩ := Option.map_eq_some_iff.mp ht
    exact newline_notMem_debugText text
  have hb : ∀ budget :
      Option ℕ, '\n' ∉ "budget=".toList ++ debugOption (budget.map (fun budget => budget.repr.toList)) := by
    intro budget
    refine he (by decide) (newline_notMem_debugOption (fun t ht => ?_))
    obtain ⟨n,-,rfl⟩ := Option.map_eq_some_iff.mp ht
    exact Text.notMem_repr rfl n
  obtain ⟨h,hd⟩ := Words.append_cons_inj_right (hb _) (hb _) h
  obtain ⟨h,ha⟩ := Words.append_cons_inj_right (hi _ _ (by decide)) (hi _ _ (by decide)) h
  obtain ⟨h,hu⟩ := Words.append_cons_inj_right (hi _ _ (by decide)) (hi _ _ (by decide)) h
  obtain ⟨query,user,agent,budget⟩ := call
  obtain ⟨query',user',agent',budget'⟩ := call'
  obtain rfl : query = query' := String.toList_inj.mp (List.append_cancel_left h)
  obtain rfl : user = user' := debugOption_inj (fun _ _ => debugText_inj) (List.append_cancel_left hu)
  obtain rfl : agent = agent' := debugOption_inj (fun _ _ => debugText_inj) (List.append_cancel_left ha)
  obtain rfl : budget = budget' := debugOption_inj repr_inj (List.append_cancel_left hd)
  rfl

theorem message_retrieve {debugQuery : Query → List Char} {call : RetrieveCall} {req : Request}
    (h : req.message unprinted debugQuery = (Request.retrieve call).message unprinted debugQuery) :
    req = .retrieve call := by
  cases req with
  | retrieve call' => rw [planText_inj (List.append_cancel_left h)]
  | retrieveQuery query ctx => exact absurd (List.cons.inj h).1 (by decide)

end Keys

section Owned

variable {Digest : Type} [DecidableEq Digest] (tables : CaseTables) (planner : RuleBasedPlanner) (optimizer : CboOptimizer)

/-- Every call of a run on a new `CompiledRetriever` executes its own plan in its own budget. -/
def CompiledOwned (simpleHash : String → UInt64) (config : PlanCacheConfig) (calls : List RetrieveCall) : Prop :=
  Meets (fun cache call => (compiledRetrieve tables planner optimizer simpleHash cache call).2)
    (fun cache call => (compiledRetrieve tables planner optimizer simpleHash cache call).1 =
      ownExecution tables planner optimizer call)
    (Lru.Cache.new config.capacity) calls

/-- Every call of `retrieve` in a run on a new `ContextRetriever` does. -/
def ContextOwned (unprinted : Char → Bool) (debugQuery : Query → List Char) (blake3 : List Char → Digest)
    (config : PlanCacheConfig) (requests : List Request) : Prop :=
  Meets (fun cache request => (contextRetrieve tables planner optimizer unprinted debugQuery blake3 cache request).2)
    (fun cache request => ∀ call, request = .retrieve call →
      (contextRetrieve tables planner optimizer unprinted debugQuery blake3 cache request).1 =
        ownExecution tables planner optimizer call)
    (Lru.Cache.new config.capacity) requests

variable {tables planner optimizer} {unprinted : Char → Bool} {debugQuery : Query → List Char} {blake3 : List Char → Digest}
  {config : PlanCacheConfig}

variable {call : RetrieveCall} {requests : List Request}

/-- A call executes its own plan in its own budget exactly if it is answered with its own plan and has the executor's
budget. -/
theorem map_eq_ownExecution {answer : Except ContextError PhysicalPlan} :
    answer.map (⟨·,executorBudget⟩) = ownExecution tables planner optimizer call ↔
      answer = compileText tables planner optimizer call ∧
        ((compileText tables planner optimizer call).isOk → call.ctx.budget = executorBudget) := by
  unfold ownExecution
  cases answer with
  | error e =>
    cases compileText tables planner optimizer call <;> simp [Except.map,bind,Except.bind,pure,Except.pure,
      Except.isOk,Except.toBool]
  | ok plan =>
    cases compileText tables planner optimizer call with
    | error e => simp [Except.map,bind,Except.bind]
    | ok own => simp [Except.map,bind,Except.bind,pure,Except.pure,Except.isOk,Except.toBool,eq_comm]

theorem compiledOwned_iff {simpleHash : String → UInt64} {calls : List RetrieveCall} :
    CompiledOwned tables planner optimizer simpleHash config calls ↔
      Lru.Coherent (fun call => simpleHash call.query) (compileText tables planner optimizer) config.capacity calls ∧
        ∀ call ∈ calls, (compileText tables planner optimizer call).isOk → call.ctx.budget = executorBudget := by
  rw [← Lru.right_new_iff config.positive]
  unfold CompiledOwned Lru.Right
  rw [meets_iff_front,meets_iff_front]
  constructor
  · intro h
    refine ⟨fun front call hp => (map_eq_ownExecution.mp (h front call hp)).1,fun call hc => ?_⟩
    obtain ⟨front,back,rfl⟩ := List.append_of_mem hc
    exact (map_eq_ownExecution.mp (h front call ⟨back,by simp⟩)).2
  · rintro ⟨hr,hb⟩ front call hp
    exact map_eq_ownExecution.mpr ⟨hr front call hp,hb call (hp.subset (by simp))⟩

/-- What a `ContextRetriever` holds under the key of a natural-language call is that call's plan. -/
def Filed (tables : CaseTables) (planner : RuleBasedPlanner) (optimizer : CboOptimizer) (unprinted : Char → Bool)
    (debugQuery : Query → List Char) (blake3 : List Char → Digest) (requests : List Request)
    (cache : Lru.Cache Digest PhysicalPlan) :
    Prop :=
  ∀ call, .retrieve call ∈ requests → ∀ plan,
    cache.entries.lookup (blake3 ((Request.retrieve call).message unprinted debugQuery)) = some plan →
      ∀ logical, planner.parse tables call = .ok logical → plan = optimizer.optimize logical

def CollisionFree (unprinted : Char → Bool) (debugQuery : Query → List Char) (blake3 : List Char → Digest)
    (requests : List Request) : Prop :=
  ∀ r ∈ requests, ∀ r' ∈ requests, blake3 (r.message unprinted debugQuery) = blake3 (r'.message unprinted debugQuery) →
    r.message unprinted debugQuery = r'.message unprinted debugQuery

theorem Filed.contextRetrieve {requests : List Request} {cache : Lru.Cache Digest PhysicalPlan} {req : Request}
    (hf : CollisionFree unprinted debugQuery blake3 requests) (hr : req ∈ requests)
    (h : Filed tables planner optimizer unprinted debugQuery blake3 requests cache) :
    Filed tables planner optimizer unprinted debugQuery blake3 requests
      (contextRetrieve tables planner optimizer unprinted debugQuery blake3 cache req).2 := by
  intro call hc plan hl logical ho
  cases req with
  | retrieve other =>
    unfold Retrieve.contextRetrieve at hl
    dsimp only at hl
    split at hl
    · exact h call hc plan hl logical ho
    · rename_i parsed hp
      rcases Lru.lookup_of_memo hl with hl | ⟨hk,ha⟩
      · exact h call hc plan hl logical ho
      · have hs := message_retrieve (hf _ hc _ hr hk)
        cases hs
        rw [hp] at ho
        cases ho
        exact (Except.ok.inj ha).symm
  | retrieveQuery query ctx =>
    rcases Lru.lookup_of_memo hl with hl | ⟨hk,-⟩
    · exact h call hc plan hl logical ho
    · have hs := message_retrieve (hf _ hr _ hc hk.symm)
      cases hs

theorem Filed.right {cache : Lru.Cache Digest PhysicalPlan}
    (hc : .retrieve call ∈ requests) (h : Filed tables planner optimizer unprinted debugQuery blake3 requests cache) :
    (Retrieve.contextRetrieve tables planner optimizer unprinted debugQuery blake3 cache (.retrieve call)).1 =
      ownExecution tables planner optimizer call := by
  unfold Retrieve.contextRetrieve ownExecution compileText
  dsimp only
  cases hl : planner.parse tables call with
  | error e => rfl
  | ok logical =>
    have hr : (Lru.memo (fun _ => blake3 ((Request.retrieve call).message unprinted debugQuery))
        (fun logical => (.ok (optimizer.optimize logical) : Except ContextError PhysicalPlan)) cache logical).1 =
          .ok (optimizer.optimize logical) := by
      apply Lru.memo_right.mpr
      intro plan ho
      rw [h call hc plan ho logical hl]
    dsimp only
    rw [hr]
    rfl

/-- As long as digests do not collide, every natural-language call on a `ContextRetriever` executes its own plan. -/
theorem contextOwned (hf : CollisionFree unprinted debugQuery blake3 requests) :
    ContextOwned tables planner optimizer unprinted debugQuery blake3 config requests := by
  apply meets_iff_front.mpr
  intro front req hp call he
  subst he
  refine Filed.right (hp.subset (by simp)) ?_
  have hs : ∀ r ∈ front, r ∈ requests := fun r hr => hp.subset (List.mem_append_left _ hr)
  clear hp
  induction front using List.reverseRecOn with
  | nil =>
    intro call _ plan hl
    exact absurd hl (by simp [Lru.Cache.new])
  | append_singleton front r ih =>
    rw [run_append]
    exact (ih (fun r hr => hs r (List.mem_append_left _ hr))).contextRetrieve hf (hs r (by simp))

/-- Plans stay with their callers exactly if no call of a `CompiledRetriever` meets, under the hash of its query, the
plan of another context, and none has a budget of its own. -/
theorem plansOwned_iff (simpleHash : String → UInt64) (calls : List RetrieveCall) (requests : List Request)
    (hfree : CollisionFree unprinted debugQuery blake3 requests) :
    (CompiledOwned tables planner optimizer simpleHash config calls ∧
        ContextOwned tables planner optimizer unprinted debugQuery blake3 config requests) ↔
      Lru.Coherent (fun call => simpleHash call.query) (compileText tables planner optimizer) config.capacity calls ∧
        ∀ call ∈ calls, (compileText tables planner optimizer call).isOk → call.ctx.budget = executorBudget :=
  (and_iff_left (contextOwned hfree)).trans compiledOwned_iff

end Owned

def scannedScope : Except ContextError Execution → Option String
  | .ok ⟨.filter (.pgPrefixScan uriPrefix _) _, _⟩ => some uriPrefix
  | _ => none

def sampleOptimizer : CboOptimizer := ⟨.standard, fun _ => none, fun _ => none, fun _ k => k⟩

def samplePlanner : RuleBasedPlanner := ⟨"default", "agent"⟩

def sampleCall (user agent : String) : RetrieveCall := ⟨"facts", some user, some agent, none⟩

/-- Two users ask the same, and the second one scans the scope of the first. -/
theorem plan_crosses_callers :
    ¬ CompiledOwned .ascii samplePlanner sampleOptimizer (fun s => s.length.toUInt64) ⟨1, by decide⟩
    [sampleCall "alice" "a", sampleCall "bob" "b"] := by
  intro h
  have hs := congrArg scannedScope h.2.1
  exact absurd hs (by decide +kernel)

theorem plansOwned_sample : (CompiledOwned .ascii samplePlanner sampleOptimizer (fun s => s.length.toUInt64) ⟨1, by decide⟩
      [sampleCall "alice" "a"] ∧
    ContextOwned .ascii samplePlanner sampleOptimizer (fun _ => false) (fun _ => []) id ⟨1, by decide⟩
      [.retrieve (sampleCall "alice" "a"), .retrieve (sampleCall "bob" "b")]) ↔
    Lru.Coherent (fun call : RetrieveCall => call.query.length.toUInt64)
    (compileText .ascii samplePlanner sampleOptimizer) 1
        [sampleCall "alice" "a"] ∧
      ∀ call ∈ [sampleCall "alice" "a"], (compileText .ascii samplePlanner sampleOptimizer call).isOk →
      call.ctx.budget = executorBudget :=
  plansOwned_iff _ _ _ (fun _ _ _ _ h => h)

end UwuContextDb.Retrieve
