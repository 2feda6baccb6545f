import UwuContextDb.Retrieve.Query

/-! From a query to its logical plan, and from that to the physical plan `CboOptimizer` chooses. -/

namespace UwuContextDb.Retrieve

inductive JoinKey | uri | tenant | contentHash deriving DecidableEq

inductive LogicalPlan
  | scan (scope : Option ContextUri) (level : ContentLevel) (limit : Option ℕ)
  | parallel (plans : List LogicalPlan) (merge : QueryMergeStrategy)
  | vectorSearch (collection : String) (query : List ℚ) (topK : ℕ)
  | filter (input : LogicalPlan) (predicate : Predicate)
  | join (left right : LogicalPlan) (on : JoinKey)
  | sort (input : LogicalPlan) (key : SortKey) (desc : Bool)
  | limit (input : LogicalPlan) (budget : ℕ)
  | traverse (input : LogicalPlan) (edges : List GraphRelation) (maxHops : ℕ)
  | temporalScan (uri : ContextUri) (mark : AsOfTime)

inductive ScopeFilter
  | agent (agent : String)
  | tenant (tenant : String)
  | uriPrefix (uriPrefix : String)

structure VectorFilter where
  uriPrefix : Option String
  contentType : Option ContentType
  onlyValid : Bool

/-- `VectorFilter::default()`. -/
def VectorFilter.empty : VectorFilter := ⟨none, none, false⟩

inductive PhysicalPlan
  | typeScan (contentType : ContentType) (scope : Option ScopeFilter) (limit : ℕ)
  | pgPrefixScan (uriPrefix : String) (limit : ℕ)
  | vectorSearch (collection : String) (embedding : List ℚ) (filter : VectorFilter) (limit : ℕ)
  | filter (input : PhysicalPlan) (predicate : Predicate)
  | hashJoin (left right : PhysicalPlan)
  | nestedLoopJoin (left right : PhysicalPlan)
  | sort (input : PhysicalPlan) (key : SortKey)
  | limit (input : PhysicalPlan) (budget : ℕ)
  | graphTraverse (input : PhysicalPlan) (edges : List GraphRelation) (maxHops : ℕ)
  | parallel (plans : List PhysicalPlan) (merge : QueryMergeStrategy)
  | fullScan (scope : Option ScopeFilter) (limit : ℕ)

def Condition.isSelective : Condition → Bool
  | .qualityAbove _ | .tagsContains _ | .validOnly | .transactionTimeBetween _ _ | .validTimeContains _
  | .validTimeOverlaps _ _ | .bitemporal _ _ => true
  | .typeEquals _ | .scopeEquals _ => false

def usizeMax : ℕ := 2 ^ 64 - 1

def saturatingMul (a b : ℕ) : ℕ := min (a * b) usizeMax

def clamp (n low high : ℕ) : ℕ := max low (min n high)

def scanBudget (p : Predicate) (budget : ℕ) : ℕ :=
  clamp (saturatingMul budget (if p.conditions.any Condition.isSelective then 4 else 2)) 1 4096

def vectorBudget (p : Predicate) (budget : ℕ) : ℕ :=
  clamp (saturatingMul budget (if p.isEmpty then 2 else 5)) 10 512

def LogicalPlan.where_ (plan : LogicalPlan) (p : Predicate) : LogicalPlan :=
  if p.isEmpty then plan else .filter plan p

def LogicalPlan.orderedBy (plan : LogicalPlan) (order : SortKey) : LogicalPlan :=
  if order = .natural then plan else .sort plan order true

def LogicalPlan.expanded (plan : LogicalPlan) : Option RelationExpand → LogicalPlan
  | some exp => .traverse plan exp.kinds exp.maxHops
  | none => plan

mutual
def queryToLogical : Query → LogicalPlan
  | .find scope predicate budget order expand =>
    let scan := LogicalPlan.scan scope .l0 (some (scanBudget predicate budget))
    (LogicalPlan.limit ((scan.where_ predicate).orderedBy order) budget).expanded expand
  | .similar queryEmbedding predicate budget expand =>
    let vs := LogicalPlan.vectorSearch "memories" queryEmbedding (vectorBudget predicate budget)
    (LogicalPlan.limit (vs.where_ predicate) budget).expanded expand
  | .asOf uri mark _ => .temporalScan uri mark
  | .traverse start edges maxHops predicate =>
    .traverse ((LogicalPlan.scan (some start) .l0 (some 1)).where_ predicate) edges maxHops
  | .composite queries merge => .parallel (queriesToLogical queries) merge

def queriesToLogical : List Query → List LogicalPlan
  | [] => []
  | q::qs => queryToLogical q::queriesToLogical qs
end

inductive IntentRoute
  | localExact | localVector | localHybrid | graphTraversal | temporalIndex | knowledgeNetwork | multiStage
  deriving DecidableEq

structure IntentPlannerHint where
  route : IntentRoute
  preferVector : Bool
  preferGraph : Bool
  preferTemporal : Bool
  maxGraphDepth : ℕ
  topKMultiplier : ℚ

structure QueryPlanConfig where
  defaultScanLimit : ℕ
  defaultTypeRows : ℕ
  defaultDepth : ℕ
  maxTypeLimit : ℕ
  temporalLimit : ℕ
  preferredTemporalLimit : ℕ

/-- `QueryPlanConfig::default()`. -/
def QueryPlanConfig.standard : QueryPlanConfig := ⟨1000, 100, 2, 4096, 10, 25⟩

/-- `CboOptimizer` with the statistics it reads. `scaled m k` is the float product `ceil(k as f32 * m) as usize`. -/
structure CboOptimizer where
  config : QueryPlanConfig
  typeCounts : ContentType → Option ℕ
  avgDepth : String → Option ℕ
  scaled : ℚ → ℕ → ℕ

namespace CboOptimizer

def estimateAvgDepth (o : CboOptimizer) (scope : String) : ℕ := (o.avgDepth scope).getD o.config.defaultDepth

def estimateRowsByType (o : CboOptimizer) (ct : ContentType) : ℕ := (o.typeCounts ct).getD o.config.defaultTypeRows

def typeLimit (o : CboOptimizer) (ct : ContentType) : ℕ := clamp (o.estimateRowsByType ct) 1 o.config.maxTypeLimit

end CboOptimizer

def predicateTypeOnly (p : Predicate) : Option ContentType :=
  match p.conditions with
  | [.typeEquals ct] => some ct
  | _ => none

def scopePrefix : Scope → Option String
  | .tenant tenant => some ("uwu://" ++ tenant)
  | .agent _ | .all => none

def pushCondition (pushed : VectorFilter × List Condition) (c : Condition) : VectorFilter × List Condition :=
  match c with
  | .typeEquals ct => ({ pushed.1 with contentType := some ct }, pushed.2)
  | .scopeEquals scope =>
    match scopePrefix scope with
    | some uriPrefix => ({ pushed.1 with uriPrefix := some uriPrefix }, pushed.2)
    | none => (pushed.1, pushed.2 ++ [c])
  | .validOnly => ({ pushed.1 with onlyValid := true }, pushed.2)
  | other => (pushed.1, pushed.2 ++ [other])

def vectorFilterFromPredicate (p : Predicate) : VectorFilter × Predicate :=
  let pushed := p.conditions.foldl pushCondition (.empty, [])
  (pushed.1, ⟨pushed.2⟩)

def extractLimit : LogicalPlan → Option ℕ
  | .scan _ _ limit => limit
  | .limit _ budget => some budget
  | .filter input _ => extractLimit input
  | .sort input _ _ => extractLimit input
  | .traverse input _ _ => extractLimit input
  | _ => none

def extractScope : LogicalPlan → Option ScopeFilter
  | .scan scope _ _ => scope.map (fun u => .uriPrefix u.canonical)
  | _ => none

mutual
def logicalScopeKey : LogicalPlan → Option String
  | .scan scope _ _ => scope.map ContextUri.canonical
  | .filter input _ => logicalScopeKey input
  | .sort input _ _ => logicalScopeKey input
  | .limit input _ => logicalScopeKey input
  | .traverse input _ _ => logicalScopeKey input
  | .join left right _ => (logicalScopeKey left).or (logicalScopeKey right)
  | .temporalScan uri _ => some uri.canonical
  | .parallel plans _ => firstScopeKey plans
  | .vectorSearch _ _ _ => none

def firstScopeKey : List LogicalPlan → Option String
  | [] => none
  | plan::plans => (logicalScopeKey plan).or (firstScopeKey plans)
end

namespace CboOptimizer

/-- The `limit` of a search that is not directly under a filter. -/
def searchLimit (o : CboOptimizer) (hint : Option IntentPlannerHint) (topK : ℕ) : ℕ :=
  match hint.filter (fun h => h.preferVector || h.route = .localVector || h.route = .localHybrid) with
  | some h => o.scaled (max 1 (min h.topKMultiplier 3)) topK
  | none => o.scaled 1 topK

/-- The hops of a traversal over `input`. -/
def hops (o : CboOptimizer) (hint : Option IntentPlannerHint) (input : LogicalPlan) (maxHops : ℕ) : ℕ :=
  let statsDepth := o.estimateAvgDepth ((logicalScopeKey input).getD "*")
  let statsCappedHops := min maxHops (max statsDepth 1)
  match hint.filter (fun h => h.preferGraph || h.route = .graphTraversal) with
  | some h => min statsCappedHops (max h.maxGraphDepth 1)
  | none => statsCappedHops

def filterShortcut (o : CboOptimizer) (input : LogicalPlan) (p : Predicate) : Option PhysicalPlan :=
  match predicateTypeOnly p with
  | some ct => some (.typeScan ct (extractScope input) ((extractLimit input).getD (o.typeLimit ct)))
  | none =>
    match input with
    | .vectorSearch collection query topK =>
      let pushed := vectorFilterFromPredicate p
      let search := PhysicalPlan.vectorSearch collection query pushed.1 topK
      some (if pushed.2.isEmpty then search else .filter search pushed.2)
    | _ => none

/-- Whether a plan carries a limit of its own, so that `Limit` leaves it as it is. -/
def isLeaf : PhysicalPlan → Bool
  | .typeScan _ _ _ | .pgPrefixScan _ _ | .vectorSearch _ _ _ _ | .fullScan _ _ => true
  | _ => false

def temporalRows (o : CboOptimizer) (hint : Option IntentPlannerHint) : ℕ :=
  if hint.any (fun h => h.preferTemporal || h.route = .temporalIndex) then o.config.preferredTemporalLimit
  else o.config.temporalLimit

mutual
def optimizeWithBudget (o : CboOptimizer) (hint : Option IntentPlannerHint) : LogicalPlan → ℕ → PhysicalPlan
  | .scan scope _ limit, budget =>
    let limit := min (limit.getD o.config.defaultScanLimit) budget
    match scope with
    | some uri => .pgPrefixScan uri.canonical limit
    | none => .fullScan none limit
  | .parallel plans merge, budget => .parallel (optimizeAll o hint plans budget) merge
  | .vectorSearch collection query topK, _ => .vectorSearch collection query .empty (o.searchLimit hint topK)
  | .filter input predicate, budget =>
    match o.filterShortcut input predicate with
    | some plan => plan
    | none => .filter (optimizeWithBudget o hint input budget) predicate
  | .sort input key _, budget => .sort (optimizeWithBudget o hint input budget) key
  | .limit input budget, _ =>
    let inner := optimizeWithBudget o hint input budget
    if isLeaf inner then inner else .limit inner budget
  | .traverse input edges maxHops, budget =>
    .graphTraverse (optimizeWithBudget o hint input budget) edges (o.hops hint input maxHops)
  | .temporalScan uri _, _ => .pgPrefixScan uri.canonical (o.temporalRows hint)
  | .join left right _, budget => .hashJoin (optimizeWithBudget o hint left budget) (optimizeWithBudget o hint right budget)

def optimizeAll (o : CboOptimizer) (hint : Option IntentPlannerHint) : List LogicalPlan → ℕ → List PhysicalPlan
  | [], _ => []
  | plan::plans, budget => optimizeWithBudget o hint plan budget::optimizeAll o hint plans budget
end

def optimizeWithIntent (o : CboOptimizer) (logical : LogicalPlan) (hint : Option IntentPlannerHint) : PhysicalPlan :=
  o.optimizeWithBudget hint logical usizeMax

def optimize (o : CboOptimizer) (logical : LogicalPlan) : PhysicalPlan := o.optimizeWithIntent logical none

end CboOptimizer

end UwuContextDb.Retrieve
