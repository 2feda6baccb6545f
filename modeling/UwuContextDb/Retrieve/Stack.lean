import UwuContextDb.Library.TopRows
import UwuContextDb.Retrieve.Operators

/-! Stacks of filters, sorts and traversals over one source: what they mean, and what their physical plans execute. -/

namespace UwuContextDb.Retrieve

open TopRows StateMachine

inductive Stack
  | scan (scope : Option ContextUri) (level : ContentLevel) (limit : Option ℕ)
  | vectorSearch (collection : String) (query : List ℚ) (topK : ℕ)
  | filter (input : Stack) (predicate : Predicate)
  | sort (input : Stack) (key : SortKey) (desc : Bool)
  | traverse (input : Stack) (edges : List GraphRelation) (maxHops : ℕ)

def Stack.plan : Stack → LogicalPlan
  | .scan scope level limit => .scan scope level limit
  | .vectorSearch collection query topK => .vectorSearch collection query topK
  | .filter input predicate => .filter input.plan predicate
  | .sort input key desc => .sort input.plan key desc
  | .traverse input edges maxHops => .traverse input.plan edges maxHops

/-- Where the rows of a stack come from. A filter can take part: a scan by type applies its condition before
its limit, and a search applies the conditions the index knows. -/
inductive Source
  | scan (scope : Option ContextUri) (limit : Option ℕ)
  | typeScan (ct : ContentType) (scope : Option ContextUri) (limit : Option ℕ)
  | search (collection : String) (query : List ℚ) (filter : VectorFilter) (topK : ℕ)

namespace Stack

def filterSource : Stack → Predicate → Option (Source × Predicate)
  | .scan scope _ limit, p => (predicateTypeOnly p).map (fun ct => (.typeScan ct scope limit, ⟨[]⟩))
  | .vectorSearch collection query topK, p =>
    let pushed := vectorFilterFromPredicate p
    some (.search collection query pushed.1 topK, pushed.2)
  | _, _ => none

def source (o : CboOptimizer) (hint : Option IntentPlannerHint) : Stack → Source
  | .scan scope _ limit => .scan scope limit
  | .vectorSearch collection query topK => .search collection query .empty (o.searchLimit hint topK)
  | .filter input p =>
    match filterSource input p with
    | some found => found.1
    | none => input.source o hint
  | .sort input _ _ => input.source o hint
  | .traverse input _ _ => input.source o hint

end Stack

def filterRows (ctx : ExecContext) (p : Predicate) (hits : List RetrievalHit) : List RetrievalHit :=
  hits.filter (fun hit => predicateMatches ctx.now hit p)

def sortRows (key : SortKey) (desc : Bool) (hits : List RetrievalHit) : List RetrievalHit :=
  if desc then key.sort hits else hits.insertionSort (fun a b => key.before b a)

def Stack.above (o : CboOptimizer) (hint : Option IntentPlannerHint) (ctx : ExecContext) :
    Stack → List RetrievalHit → List RetrievalHit
  | .scan _ _ _, hits => hits
  | .vectorSearch _ _ _, hits => hits
  | .filter input p, hits =>
    match filterSource input p with
    | some found => filterRows ctx found.2 hits
    | none => filterRows ctx p (input.above o hint ctx hits)
  | .sort input key desc, hits => sortRows key desc (input.above o hint ctx hits)
  | .traverse input edges maxHops, hits =>
    traverseFrom ctx edges (o.hops hint input.plan maxHops) (input.above o hint ctx hits)

section Contents

/-- What the content store and the file port hold: the entries in the subtree of a prefix, in URI order, and the
files in a scope. -/
structure Contents where
  entries : String → List ContextEntry
  files : ContextUri → List ContextUri
  fileContent : ContextUri → ContentPayload

/-- The contracts of the ports: a page is the first part of all there is, a scan by type applies the type before
the limit, and no URI is there twice. -/
structure Contents.Backs (d : Contents) (ctx : ExecContext) : Prop where
  scanByPrefix : ∀ store, ctx.content = some store → ∀ uriPrefix page rows,
    store.scanByPrefix uriPrefix page = .ok rows → rows.items = (d.entries uriPrefix).take page.limit
  scanByType : ∀ store, ctx.content = some store → ∀ uriPrefix ct page rows,
    store.scanByType uriPrefix ct page = .ok rows →
      rows.items = ((d.entries uriPrefix).filter (fun e => decide (e.metadata.contentType = some ct))).take page.limit
  find : ∀ scope page uris, ctx.fs.find scope page = .ok uris → uris.items = (d.files scope).take page.limit
  read : ∀ uri content, ctx.fs.read uri .l0 = .ok content → content = d.fileContent uri
  entries_nodup : ∀ uriPrefix, ((d.entries uriPrefix).map ContextEntry.uri).Nodup
  files_nodup : ∀ scope, (d.files scope).Nodup

variable (d : Contents) (ctx : ExecContext)

def Contents.under (uriPrefix : String) (relevance : ℚ) : List RetrievalHit :=
  match ctx.content with
  | some _ => (d.entries uriPrefix).map (fun entry => hitFromEntry entry .l0 relevance)
  | none =>
    match ContextUri.parse uriPrefix with
    | .ok scope => (d.files scope).map (fun uri => bareHit uri (d.fileContent uri) relevance)
    | .error _ => []

def Contents.inScope (scope : Option ContextUri) : List RetrievalHit :=
  match scope with
  | some uri => d.under ctx uri.canonical (4 / 5)
  | none => d.under ctx "uwu://" (1 / 2)

def Contents.ofType (ct : ContentType) (scope : Option ContextUri) : List RetrievalHit :=
  ((d.entries ((scope.map ContextUri.canonical).getD "uwu://")).filter
    (fun e => decide (e.metadata.contentType = some ct))).map (fun entry => hitFromEntry entry .l0 (9 / 10))

def searchRows (collection : String) (query : List ℚ) (filter : VectorFilter) (topK : ℕ) : List RetrievalHit :=
  match executeSearch ctx collection query filter topK with
  | .ok hits => hits
  | .error _ => []

def Source.wanted : Source → List RetrievalHit
  | .scan scope limit => upTo limit (d.inScope ctx scope)
  | .typeScan ct scope limit => upTo limit (d.ofType ct scope)
  | .search collection query filter topK => searchRows ctx collection query filter topK

def Stack.rows (o : CboOptimizer) (hint : Option IntentPlannerHint) (s : Stack) : List RetrievalHit :=
  s.above o hint ctx ((s.source o hint).wanted d ctx)

end Contents

section Physical

def Source.physical (o : CboOptimizer) (budget : ℕ) : Source → PhysicalPlan
  | .scan scope limit =>
    let limit := min (limit.getD o.config.defaultScanLimit) budget
    match scope with
    | some uri => .pgPrefixScan uri.canonical limit
    | none => .fullScan none limit
  | .typeScan ct scope limit =>
    .typeScan ct (scope.map (fun u => .uriPrefix u.canonical)) (limit.getD (o.typeLimit ct))
  | .search collection query filter topK => .vectorSearch collection query filter topK

/-- How many rows a scan reads that is asked for `limit`. -/
def pageRows (ctx : ExecContext) (limit : ℕ) : ℕ :=
  if ctx.content.isSome then clamp limit 1 maxPageSize else min limit maxPageSize

def Source.fetched (o : CboOptimizer) (d : Contents) (ctx : ExecContext) (budget : ℕ) : Source → List RetrievalHit
  | .scan scope limit =>
    (d.inScope ctx scope).take (pageRows ctx (min (limit.getD o.config.defaultScanLimit) budget))
  | .typeScan ct scope limit => (d.ofType ct scope).take (clamp (limit.getD (o.typeLimit ct)) 1 maxPageSize)
  | .search collection query filter topK => searchRows ctx collection query filter topK

variable {o : CboOptimizer} {hint : Option IntentPlannerHint} {d : Contents} {ctx : ExecContext}

variable {hits : List RetrievalHit}

theorem mapM_read (hd : d.Backs ctx) (relevance : ℚ) {uris : List ContextUri}
    (h : uris.mapM (fun u => (ctx.fs.read u .l0).map (fun content => bareHit u content relevance)) = .ok hits) :
    hits = uris.map (fun u => bareHit u (d.fileContent u) relevance) := by
  induction uris generalizing hits with
  | nil =>
    simp only [List.mapM_nil,pure,Except.pure,Except.ok.injEq] at h
    exact h.symm
  | cons u uris ih =>
    rw [List.mapM_cons] at h
    obtain ⟨hit,hr,h⟩ := bind_eq_ok.mp h
    obtain ⟨rest,he,h⟩ := bind_eq_ok.mp h
    obtain ⟨content,hc,rfl⟩ := map_eq_ok.mp hr
    cases h
    rw [List.map_cons,← ih he,hd.read u content hc]

theorem scanPrefix_eq_ok (hd : d.Backs ctx) {pre : String} {lim : ℕ} {relevance : ℚ}
    (h : scanPrefix ctx pre lim relevance = .ok hits) :
    hits = (d.under ctx pre relevance).take (pageRows ctx lim) := by
  cases hc : ctx.content with
  | some store =>
    simp only [scanPrefix,hc] at h
    obtain ⟨rows,hr,rfl⟩ := map_eq_ok.mp h
    rw [hd.scanByPrefix store hc _ _ _ hr]
    simp [Contents.under,pageRows,hc,PageRequest.new,List.map_take]
  | none =>
    simp only [scanPrefix,hc] at h
    cases hp : ContextUri.parse pre with
    | error e => simp [hp] at h
    | ok sc =>
      simp only [hp] at h
      obtain ⟨uris,hu,h⟩ := bind_eq_ok.mp h
      have hf := hd.find sc _ _ hu
      have ha : min lim (clamp lim 1 maxPageSize) = min lim maxPageSize := by
        simp only [clamp,maxPageSize]
        omega
      rw [mapM_read hd relevance h,hf,PageRequest.new,List.take_take,ha]
      simp [Contents.under,pageRows,hc,hp,List.map_take]

theorem scanType_eq_ok (hd : d.Backs ctx) {ct : ContentType} {sc : Option ContextUri} {lim : ℕ}
    (h : scanType ctx ct (sc.map (fun u => .uriPrefix u.canonical)) lim = .ok hits) :
    hits = (d.ofType ct sc).take (clamp lim 1 maxPageSize) := by
  cases hc : ctx.content with
  | none => simp [scanType,hc] at h
  | some store =>
    simp only [scanType,hc] at h
    obtain ⟨rows,hr,rfl⟩ := map_eq_ok.mp h
    have hp : prefixForScope (sc.map (fun u => .uriPrefix u.canonical)) =
        (sc.map ContextUri.canonical).getD "uwu://" := by cases sc <;> rfl
    rw [hd.scanByType store hc _ _ _ _ hr,hp]
    simp [Contents.ofType,PageRequest.new,List.map_take]

theorem Source.execute_physical (hd : d.Backs ctx) {src : Source} {budget : ℕ}
    (h : (src.physical o budget).execute ctx = .ok hits) : hits = src.fetched o d ctx budget := by
  cases src with
  | scan sc lim =>
    cases sc with
    | some u => exact scanPrefix_eq_ok hd h
    | none => exact scanPrefix_eq_ok hd h
  | typeScan ct sc lim => exact scanType_eq_ok hd h
  | search coll query filter topK =>
    have hs : executeSearch ctx coll query filter topK = .ok hits := h
    simp [Source.fetched,searchRows,hs]

end Physical

def listContents (es : List ContextEntry) : Contents where
  entries uriPrefix := es.filter (fun e => uriPrefix.toList.isPrefixOf e.uri.canonical.toList)
  files _ := []
  fileContent _ := .text "" "" ""

def listStore (es : List ContextEntry) : ContentStore where
  scanByPrefix uriPrefix page := .ok ⟨((listContents es).entries uriPrefix).take page.limit, none⟩
  scanByType uriPrefix ct page := .ok
    ⟨(((listContents es).entries uriPrefix).filter (fun e => decide (e.metadata.contentType = some ct))).take page.limit,
      none⟩

def noFiles : FsOps := ⟨fun _ _ => .error (.unsupported "no files"), fun _ _ => .error (.unsupported "no files")⟩

def listContext (es : List ContextEntry) (index : Option VectorIndex) : ExecContext :=
  ⟨noFiles, some (listStore es), index, none, 0⟩

theorem listContents_backs {es : List ContextEntry} (index : Option VectorIndex) (h : (es.map ContextEntry.uri).Nodup) :
    (listContents es).Backs (listContext es index) where
  scanByPrefix store hs uriPrefix page rows hr := by
    cases hs
    cases hr
    rfl
  scanByType store hs uriPrefix ct page rows hr := by
    cases hs
    cases hr
    rfl
  find scope page uris hu := by cases hu
  read uri content hc := by cases hc
  entries_nodup uriPrefix := h.sublist (List.filter_sublist.map ContextEntry.uri)
  files_nodup scope := List.nodup_nil

end UwuContextDb.Retrieve
