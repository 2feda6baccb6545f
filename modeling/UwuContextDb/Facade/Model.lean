import UwuContextDb.Retrieve.Confine

/-! The reading calls of the application facade, over the ports it was built from. -/

namespace UwuContextDb.Facade

open Retrieve

inductive FacadeError
  | invalidConfig (message : String)
  | tenantViolation (message : String)
  | cancelled
  | deadlineExceeded
  | notConfigured (capability : String)
  | context (error : ContextError)
  | audit (message : String)
  | timeout
  deriving DecidableEq

structure DirEntry where
  uri : ContextUri
  isDir : Bool
  abstract_ : String
  contentType : Option ContentType

structure FindPattern where
  scope : Option ContextUri
  nameGlob : Option String
  contentType : Option ContentType
  maxDepth : Option ℕ

structure GrepHit where
  uri : ContextUri
  line : String
  level : ContentLevel

inductive TreeNode
  | node (uri : ContextUri) (isDir : Bool) (children : List TreeNode)

structure AuditEvent where
  tenant : String
  actor : String
  requestId : String
  operation : String
  allowed : Bool
  detail : String

structure ContextDbConfig where
  maxTreeDepth : ℕ
  maxAuditDetailBytes : ℕ

structure RequestContext where
  tenantName : String
  actor : String
  requestId : String

structure ContextDbParts (S : Type) where
  read : S → ContextUri → ContentLevel → Except ContextError ContentPayload
  ls : S → ContextUri → PageRequest → Except ContextError (Page DirEntry)
  find : S → FindPattern → PageRequest → Except ContextError (Page ContextUri)
  grep : S → String → ContextUri → Except ContextError (List GrepHit)
  tree : S → ContextUri → ℕ → PageRequest → Except ContextError (Page TreeNode)
  contentStore : S → ContentStore
  vector : S → VectorIndex
  restoreBeforeRead : Option (S → ContextUri → Except ContextError S)
  audit : AuditEvent → Except String Unit

/-- `ContextDb`; its retriever is built without a graph, a learner or a planner of its own. -/
structure ContextDb (S V : Type) where
  config : ContextDbConfig
  parts : ContextDbParts S
  optimizer : CboOptimizer
  pricing : Pricing V

/-- What the clock and the cancellation token of a request do to a call: the time that is left when it starts,
how the waits for the two stages end, and the reading of the clock. -/
structure Timing where
  remaining : Except FacadeError Unit
  restore : Except FacadeError Unit
  operation : Except FacadeError Unit
  now : DateTime

structure RetrieveContext where
  budgetTokens : Option ℕ

inductive Call
  | read (uri : ContextUri) (level : ContentLevel)
  | list (dir : ContextUri) (page : PageRequest)
  | find (pattern : FindPattern) (page : PageRequest)
  | grep (pattern : String) (scope : ContextUri)
  | tree (root : ContextUri) (depth : ℕ) (page : PageRequest)
  | scan (uriPrefix : ContextUri) (page : PageRequest)
  | scanByType (uriPrefix : ContextUri) (contentType : ContentType) (page : PageRequest)
  | retrieve (query : Query) (options : RetrieveContext)

inductive Answer
  | content (uri : ContextUri) (payload : ContentPayload)
  | dirEntries (found : Page DirEntry)
  | uris (found : Page ContextUri)
  | grepHits (found : List GrepHit)
  | nodes (found : Page TreeNode)
  | entries (found : Page ContextEntry)
  | hits (found : List RetrievalHit) (tokensUsed : ℕ)

section Calls

variable {S V : Type}

def validateUri (ctx : RequestContext) (timing : Timing) (uri : ContextUri) : Except FacadeError Unit := do
  timing.remaining
  if uri.tenant ≠ ctx.tenantName then .error (.tenantViolation uri.canonical) else .ok ()

/-- `timed`: the wait may end before the port has answered. -/
def timed {α : Type} (outcome : Except FacadeError Unit) (x : Except ContextError α) : Except FacadeError α := do
  outcome
  x.mapError .context

def popDetail (max : ℕ) : List Char → List Char
  | [] => []
  | c::cs => if (String.ofList (c::cs).reverse).utf8ByteSize ≤ max then c::cs else popDetail max cs

def truncateDetail (max : ℕ) (detail : String) : String :=
  String.ofList (popDetail max detail.toList.reverse).reverse

def isOk {ε α : Type} : Except ε α → Bool
  | .ok _ => true
  | .error _ => false

def auditCall (db : ContextDb S V) (ctx : RequestContext) (op : String) (allowed : Bool) (detail : String) :
    Except FacadeError Unit :=
  (db.parts.audit ⟨ctx.tenantName, ctx.actor, ctx.requestId, op, allowed,
    truncateDetail db.config.maxAuditDetailBytes detail⟩).mapError .audit

def execContext (db : ContextDb S V) (s : S) (now : DateTime) : ExecContext where
  fs := ⟨fun scope page => db.parts.find s ⟨some scope, none, none, none⟩ page, db.parts.read s⟩
  content := some (db.parts.contentStore s)
  index := some (db.parts.vector s)
  graph := none
  now := now

/-- `TokenBudgetConfig::default()`. -/
def standardBudget : TokenBudgetConfig := ⟨1, 50, 100⟩

def queryBudget (options : RetrieveContext) : Query → ℕ
  | .find _ _ budget _ _ => budget
  | .similar _ _ budget _ => budget
  | _ => options.budgetTokens.getD 8000

/-- `ScoreReranker { keep: 20 }`. -/
def rerank (hits : List RetrievalHit) : List RetrievalHit := (SortKey.relevance.sort hits).take 20

def retrieveQuery [AddCommGroup V] [LinearOrder V] (db : ContextDb S V) (s : S) (now : DateTime) (query : Query)
    (options : RetrieveContext) : Except ContextError BudgetLoadPlan := do
  let records ← (db.optimizer.optimize (queryToLogical query)).execute (execContext db s now)
  loadHitsWithinBudget db.pricing (rerank records) (queryBudget options query) standardBudget

/-- The state `read` finds: the lifecycle port may bring an archived entry back first. -/
def restored (db : ContextDb S V) (timing : Timing) (s : S) (uri : ContextUri) : Except FacadeError S :=
  match db.parts.restoreBeforeRead with
  | some restore => timed timing.restore (restore s uri)
  | none => .ok s

def readContent (db : ContextDb S V) (ctx : RequestContext) (timing : Timing) (s : S) (uri : ContextUri)
    (level : ContentLevel) : Except FacadeError Answer := do
  let r := timed timing.operation (db.parts.read s uri level)
  auditCall db ctx "content.read" (isOk r) uri.canonical
  r.map (.content uri)

def answer [AddCommGroup V] [LinearOrder V] (db : ContextDb S V) (ctx : RequestContext) (timing : Timing) (s : S) :
    Call → Except FacadeError Answer
  | .read uri level => do
    validateUri ctx timing uri
    let s' ← restored db timing s uri
    readContent db ctx timing s' uri level
  | .list dir page => do
    validateUri ctx timing dir
    (timed timing.operation (db.parts.ls s dir page)).map .dirEntries
  | .find pattern page =>
    match pattern.scope with
    | none => .error (.tenantViolation "find requires tenant scope")
    | some scope => do
      validateUri ctx timing scope
      (timed timing.operation (db.parts.find s pattern page)).map .uris
  | .grep pattern scope => do
    validateUri ctx timing scope
    (timed timing.operation (db.parts.grep s pattern scope)).map .grepHits
  | .tree root depth page => do
    validateUri ctx timing root
    if db.config.maxTreeDepth < depth then .error (.invalidConfig "tree depth exceeds limit")
    else (timed timing.operation (db.parts.tree s root depth page)).map .nodes
  | .scan uriPrefix page => do
    validateUri ctx timing uriPrefix
    (timed timing.operation ((db.parts.contentStore s).scanByPrefix uriPrefix.canonical page)).map .entries
  | .scanByType uriPrefix contentType page => do
    validateUri ctx timing uriPrefix
    let r := timed timing.operation ((db.parts.contentStore s).scanByType uriPrefix.canonical contentType page)
    auditCall db ctx "content.scan_by_type" (isOk r) uriPrefix.canonical
    r.map .entries
  | .retrieve query options => do
    timing.remaining
    let r := timed timing.operation (retrieveQuery db s timing.now query options)
    auditCall db ctx "retrieve" (isOk r) "query"
    r.map (fun plan => .hits plan.hits plan.tokensUsed)

end Calls

mutual
def TreeNode.uris : TreeNode → List ContextUri
  | .node uri _ children => uri::TreeNode.allUris children

def TreeNode.allUris : List TreeNode → List ContextUri
  | [] => []
  | first::rest => first.uris ++ TreeNode.allUris rest
end

def Answer.told : Answer → List ContextUri
  | .content uri _ => [uri]
  | .dirEntries found => found.items.map DirEntry.uri
  | .uris found => found.items
  | .grepHits found => found.map GrepHit.uri
  | .nodes found => TreeNode.allUris found.items
  | .entries found => found.items.map ContextEntry.uri
  | .hits found _ => found.map RetrievalHit.uri

end UwuContextDb.Facade
