import Mathlib.Data.List.Destutter
import UwuContextDb.Retrieve.Planner

/-! The physical operators, over the ports they are given. -/

namespace UwuContextDb.Retrieve

/-- The `Display` of an error. -/
def errorText : ContextError → String
  | .notFound message => "not found: " ++ message
  | .invalidUri message => "invalid uri: " ++ message
  | .storage message => "storage: " ++ message
  | .versionConflict message => "version conflict: " ++ message
  | .permissionDenied message => "permission denied: " ++ message
  | .serialization message => "serialization: " ++ message
  | .unsupported message => "unsupported: " ++ message

def maxPageSize : ℕ := 1000

structure PageRequest where
  after : Option String
  limit : ℕ

def PageRequest.new (limit : ℕ) : PageRequest := ⟨none, clamp limit 1 maxPageSize⟩

structure Page (α : Type) where
  items : List α
  nextCursor : Option String

structure ContentStore where
  scanByPrefix : String → PageRequest → Except ContextError (Page ContextEntry)
  scanByType : String → ContentType → PageRequest → Except ContextError (Page ContextEntry)

structure IndexHit where
  uri : ContextUri
  score : ℚ

structure VectorIndex where
  search : String → List ℚ → ℕ → Option Json → Except ContextError (List IndexHit)

structure GraphStore where
  batchTraverse : List ContextUri → List GraphRelation → ℕ →
    Except ContextError (List (ContextUri × ContextUri × GraphRelation))

/-- `find` with a pattern that has a scope only. -/
structure FsOps where
  find : ContextUri → PageRequest → Except ContextError (Page ContextUri)
  read : ContextUri → ContentLevel → Except ContextError ContentPayload

structure ExecContext where
  fs : FsOps
  content : Option ContentStore
  index : Option VectorIndex
  graph : Option GraphStore
  now : DateTime

def hitFromEntry (entry : ContextEntry) (level : ContentLevel) (relevance : ℚ) : RetrievalHit :=
  ⟨entry.uri, level, entry.payload, relevance, [], entry.metadata.contentType, entry.metadata, some entry.createdAt,
    some entry.updatedAt⟩

def bareHit (uri : ContextUri) (content : ContentPayload) (relevance : ℚ) : RetrievalHit :=
  ⟨uri, .l0, content, relevance, [], none, .empty, none, none⟩

def sparseVectorHit (uri : ContextUri) (score : ℚ) : RetrievalHit := bareHit uri (.text "" "" "") score

def sparseGraphHit (to_ from_ : ContextUri) (kind : GraphRelation) : RetrievalHit :=
  bareHit to_ (.text (kind.debug ++ " " ++ from_.canonical) "" "") (3 / 5)

def hitAt (store : ContentStore) (uri : ContextUri) (relevance : ℚ) : Except ContextError (Option RetrievalHit) :=
  (store.scanByPrefix uri.canonical (.new 1)).map (fun page =>
    page.items.getLast?.map (fun entry => hitFromEntry entry .l0 relevance))

def prefixForScope : Option ScopeFilter → String
  | some (.uriPrefix uriPrefix) => uriPrefix
  | some (.agent _) => "uwu://"
  | some (.tenant tenant) => "uwu://" ++ tenant
  | none => "uwu://"

def scanPrefix (ctx : ExecContext) (uriPrefix : String) (limit : ℕ) (relevance : ℚ) :
    Except ContextError (List RetrievalHit) :=
  match ctx.content with
  | some content =>
    (content.scanByPrefix uriPrefix (.new limit)).map (fun page =>
      page.items.map (fun entry => hitFromEntry entry .l0 relevance))
  | none =>
    match ContextUri.parse uriPrefix with
    | .error err => .error (.unsupported
        ("WQL prefix scan requires ContentStore for non-concrete prefix `" ++ uriPrefix ++ "`: " ++ errorText err))
    | .ok scope => do
      let page ← ctx.fs.find scope (.new limit)
      (page.items.take limit).mapM (fun uri => (ctx.fs.read uri .l0).map (fun content => bareHit uri content relevance))

def scanType (ctx : ExecContext) (ct : ContentType) (scope : Option ScopeFilter) (limit : ℕ) :
    Except ContextError (List RetrievalHit) :=
  match ctx.content with
  | none => .error (.unsupported "type scan requires ContentStore predicate pushdown")
  | some content =>
    (content.scanByType (prefixForScope scope) ct (.new limit)).map (fun page =>
      page.items.map (fun entry => hitFromEntry entry .l0 (9 / 10)))

def filterJson (filter : VectorFilter) : Option Json :=
  if filter.uriPrefix.isSome || filter.contentType.isSome then
    some (.obj ((filter.contentType.map (fun ct => ("content_type", Json.str ct.asPathSegment))).toList ++
      (filter.uriPrefix.map (fun uriPrefix => ("uri_prefix", Json.str uriPrefix))).toList))
  else none

def hydrate (ctx : ExecContext) (h : IndexHit) : RetrievalHit :=
  let hit := match ctx.content with
    | none => sparseVectorHit h.uri h.score
    | some content =>
      match hitAt content h.uri h.score with
      | .ok (some hit) => hit
      | _ => sparseVectorHit h.uri h.score
  { hit with relevance := h.score }

def hydrateAll (ctx : ExecContext) (filter : VectorFilter) (hits : List IndexHit) : List RetrievalHit :=
  (hits.map (hydrate ctx)).filter (fun hit => !filter.onlyValid || isCurrentlyValid ctx.now hit)

def executeSearch (ctx : ExecContext) (collection : String) (embedding : List ℚ) (filter : VectorFilter) (limit : ℕ) :
    Except ContextError (List RetrievalHit) :=
  match ctx.index with
  | none => .error (.unsupported "no vector index")
  | some index => (index.search collection embedding limit (filterJson filter)).map (hydrateAll ctx filter)

def loadGraphHit (ctx : ExecContext) (uri : ContextUri) : Option RetrievalHit :=
  match ctx.content with
  | none => none
  | some content =>
    match hitAt content uri (3 / 5) with
    | .ok hit => hit
    | .error _ => none

def graphHit (ctx : ExecContext) (edge : ContextUri × ContextUri × GraphRelation) : RetrievalHit :=
  let hit := (loadGraphHit ctx edge.2.1).getD (sparseGraphHit edge.2.1 edge.1 edge.2.2)
  { hit with parentChain := hit.parentChain ++ [edge.1], relevance := max hit.relevance (3 / 5) }

def graphHits (ctx : ExecContext) : List ContextUri → List (ContextUri × ContextUri × GraphRelation) → List RetrievalHit
  | _, [] => []
  | seen, edge::edges =>
    if edge.2.1 ∈ seen then graphHits ctx seen edges
    else graphHit ctx edge::graphHits ctx (edge.2.1::seen) edges

/-- `execute_traverse`: a traversal that fails, or has no graph, leaves the seeds. -/
def traverseFrom (ctx : ExecContext) (edges : List GraphRelation) (maxHops : ℕ) (seeds : List RetrievalHit) :
    List RetrievalHit :=
  match ctx.graph with
  | none => seeds
  | some graph =>
    match graph.batchTraverse (seeds.map RetrievalHit.uri) edges maxHops with
    | .ok found => seeds ++ graphHits ctx (seeds.map RetrievalHit.uri) found
    | .error _ => seeds

/-- `dedup_by`: of neighbours with one URI the first stays. -/
def dedupNeighbours (hits : List RetrievalHit) : List RetrievalHit := hits.destutter (fun a b => a.uri ≠ b.uri)

def dedupBest (hits : List RetrievalHit) : List RetrievalHit := dedupNeighbours (SortKey.relevance.sort hits)

def countHit (grouped : List (ℕ × RetrievalHit)) (hit : RetrievalHit) : List (ℕ × RetrievalHit) :=
  if grouped.any (fun g => decide (g.2.uri = hit.uri)) then
    grouped.map (fun g =>
      if g.2.uri = hit.uri then (g.1 + 1, if g.2.relevance < hit.relevance then hit else g.2) else g)
  else grouped ++ [(1, hit)]

def intersectHits (hits : List RetrievalHit) (requiredCount : ℕ) : List RetrievalHit :=
  let grouped := hits.foldl countHit []
  SortKey.relevance.sort ((grouped.filter (fun g => g.1 = requiredCount)).map Prod.snd)

def mergeHits (merge : QueryMergeStrategy) (plans : ℕ) (hits : List RetrievalHit) : List RetrievalHit :=
  match merge with
  | .union => SortKey.relevance.sort hits
  | .dedup => dedupBest hits
  | .intersect => intersectHits hits plans
  | .first => hits

def hashJoin (l r : List RetrievalHit) : List RetrievalHit := dedupNeighbours (l ++ r)

namespace PhysicalPlan

mutual
def execute (ctx : ExecContext) : PhysicalPlan → Except ContextError (List RetrievalHit)
  | .typeScan contentType scope top => scanType ctx contentType scope top
  | .pgPrefixScan uriPrefix top => scanPrefix ctx uriPrefix top (4 / 5)
  | .vectorSearch collection embedding payload top => executeSearch ctx collection embedding payload top
  | .filter input predicate =>
    (execute ctx input).map (fun hits => hits.filter (fun hit => predicateMatches ctx.now hit predicate))
  | .sort input key => (execute ctx input).map key.sort
  | .limit input budget => (execute ctx input).map (fun hits => hits.take budget)
  | .graphTraverse input edges maxHops => (execute ctx input).map (traverseFrom ctx edges maxHops)
  | .parallel plans merge => (executeAll ctx plans).map (fun batches => mergeHits merge plans.length batches.flatten)
  | .fullScan scope top => scanPrefix ctx (prefixForScope scope) top (1 / 2)
  | .hashJoin left right => do
    let l ← execute ctx left
    let r ← execute ctx right
    return Retrieve.hashJoin l r
  | .nestedLoopJoin left right => do
    let l ← execute ctx left
    let r ← execute ctx right
    return Retrieve.hashJoin l r

/-- The children of a `Parallel`, all of which must succeed. -/
def executeAll (ctx : ExecContext) : List PhysicalPlan → Except ContextError (List (List RetrievalHit))
  | [] => .ok []
  | plan::plans => do
    let hits ← execute ctx plan
    let batches ← executeAll ctx plans
    return hits::batches
end

end PhysicalPlan

end UwuContextDb.Retrieve
