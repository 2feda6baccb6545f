import UwuContextDb.Retrieve.PlanSound

/-! Plans that read one tenant only: what they return and what they depend on stays in that tenant. -/

namespace UwuContextDb.Retrieve

open StateMachine

def InTenant (tenant text : String) : Prop := ∃ u, ContextUri.parse text = .ok u ∧ u.tenant = tenant

mutual
def PhysicalPlan.Within (tenant : String) : PhysicalPlan → Prop
  | .typeScan _ scope _ => InTenant tenant (prefixForScope scope)
  | .pgPrefixScan uriPrefix _ => InTenant tenant uriPrefix
  | .vectorSearch _ _ payload _ => ∃ uriPrefix, payload.uriPrefix = some uriPrefix ∧ InTenant tenant uriPrefix
  | .filter input _ => input.Within tenant
  | .hashJoin left right => left.Within tenant ∧ right.Within tenant
  | .nestedLoopJoin left right => left.Within tenant ∧ right.Within tenant
  | .sort input _ => input.Within tenant
  | .limit input _ => input.Within tenant
  | .graphTraverse input _ _ => input.Within tenant
  | .parallel plans _ => PhysicalPlan.AllWithin tenant plans
  | .fullScan scope _ => InTenant tenant (prefixForScope scope)

def PhysicalPlan.AllWithin (tenant : String) : List PhysicalPlan → Prop
  | [] => True
  | plan::plans => plan.Within tenant ∧ PhysicalPlan.AllWithin tenant plans
end

structure ServesTenant (tenant : String) (ctx : ExecContext) : Prop where
  scanByPrefix : ∀ store, ctx.content = some store → ∀ uriPrefix, InTenant tenant uriPrefix → ∀ page found,
    store.scanByPrefix uriPrefix page = .ok found → ∀ e ∈ found.items, e.uri.tenant = tenant
  scanByType : ∀ store, ctx.content = some store → ∀ uriPrefix, InTenant tenant uriPrefix → ∀ ct page found,
    store.scanByType uriPrefix ct page = .ok found → ∀ e ∈ found.items, e.uri.tenant = tenant
  search : ∀ index, ctx.index = some index → ∀ payload uriPrefix, payload.uriPrefix = some uriPrefix →
    InTenant tenant uriPrefix → ∀ collection embedding top hits,
    index.search collection embedding top (filterJson payload) = .ok hits →
      ∀ h ∈ hits, h.uri.tenant = tenant ∧ InTenant tenant h.uri.canonical
  content_isSome : ctx.content.isSome
  graph_none : ctx.graph = none

structure SameFor (tenant : String) (ctx ctx' : ExecContext) : Prop where
  content : ∃ store store', ctx.content = some store ∧ ctx'.content = some store' ∧
    ∀ uriPrefix, InTenant tenant uriPrefix →
      (∀ page, store.scanByPrefix uriPrefix page = store'.scanByPrefix uriPrefix page) ∧
      ∀ ct page, store.scanByType uriPrefix ct page = store'.scanByType uriPrefix ct page
  index : ∃ index index', ctx.index = some index ∧ ctx'.index = some index' ∧
    ∀ payload uriPrefix, payload.uriPrefix = some uriPrefix → InTenant tenant uriPrefix → ∀ collection embedding top,
      index.search collection embedding top (filterJson payload) =
        index'.search collection embedding top (filterJson payload)
  graph : ctx.graph = none ∧ ctx'.graph = none
  now : ctx.now = ctx'.now

variable {tenant : String} {ctx ctx' : ExecContext}

section Reads

theorem tenant_of_hitAt (hs : ServesTenant tenant ctx) {store : ContentStore} (ht : ctx.content = some store)
    {u : ContextUri} (hu : InTenant tenant u.canonical) {relevance : ℚ} {hit : RetrievalHit}
    (h : hitAt store u relevance = .ok (some hit)) : hit.uri.tenant = tenant := by
  obtain ⟨page,hp,hl⟩ := map_eq_ok.mp h
  obtain ⟨e,he,rfl⟩ := Option.map_eq_some_iff.mp hl
  exact hs.scanByPrefix store ht _ hu _ page hp e (List.mem_of_getLast? he)

theorem tenant_hydrate (hs : ServesTenant tenant ctx) {h : IndexHit}
    (hh : h.uri.tenant = tenant ∧ InTenant tenant h.uri.canonical) : (hydrate ctx h).uri.tenant = tenant := by
  simp only [hydrate]
  cases hc : ctx.content with
  | none => exact hh.1
  | some store =>
    cases ha : hitAt store h.uri h.score with
    | error e =>
      simp only [ha]
      exact hh.1
    | ok found =>
      cases found with
      | none =>
        simp only [ha]
        exact hh.1
      | some hit => simpa [ha] using tenant_of_hitAt hs hc hh.2 ha

variable {uriPrefix : String} {hits : List RetrievalHit} {scope : Option ScopeFilter} {payload : VectorFilter}

theorem tenant_scanPrefix (hs : ServesTenant tenant ctx) (hp : InTenant tenant uriPrefix)
    {lim : ℕ} {relevance : ℚ} (h : scanPrefix ctx uriPrefix lim relevance = .ok hits) :
    ∀ hit ∈ hits, hit.uri.tenant = tenant := by
  intro hit hm
  obtain ⟨store,ht⟩ := Option.isSome_iff_exists.mp hs.content_isSome
  simp only [scanPrefix,ht] at h
  obtain ⟨page,ha,rfl⟩ := map_eq_ok.mp h
  obtain ⟨e,he,rfl⟩ := List.mem_map.mp hm
  exact hs.scanByPrefix store ht _ hp _ page ha e he

theorem tenant_scanType (hs : ServesTenant tenant ctx) {ct : ContentType}
    (hp : InTenant tenant (prefixForScope scope)) {lim : ℕ}
    (h : scanType ctx ct scope lim = .ok hits) : ∀ hit ∈ hits, hit.uri.tenant = tenant := by
  intro hit hm
  obtain ⟨store,ht⟩ := Option.isSome_iff_exists.mp hs.content_isSome
  simp only [scanType,ht] at h
  obtain ⟨page,ha,rfl⟩ := map_eq_ok.mp h
  obtain ⟨e,he,rfl⟩ := List.mem_map.mp hm
  exact hs.scanByType store ht _ hp _ _ page ha e he

theorem tenant_executeSearch (hs : ServesTenant tenant ctx)
    (ha : payload.uriPrefix = some uriPrefix) (hp : InTenant tenant uriPrefix) {coll : String}
    {emb : List ℚ} {top : ℕ}
    (h : executeSearch ctx coll emb payload top = .ok hits) : ∀ hit ∈ hits, hit.uri.tenant = tenant := by
  intro hit hm
  simp only [executeSearch] at h
  cases hi : ctx.index with
  | none => simp [hi] at h
  | some index =>
    simp only [hi] at h
    obtain ⟨found,hf,rfl⟩ := map_eq_ok.mp h
    obtain ⟨ih,hh,rfl⟩ := List.mem_map.mp (List.mem_of_mem_filter hm)
    exact tenant_hydrate hs (hs.search index hi payload uriPrefix ha hp _ _ _ found hf ih hh)

theorem same_scanPrefix (h : SameFor tenant ctx ctx') (hp : InTenant tenant uriPrefix) (lim : ℕ)
    (relevance : ℚ) : scanPrefix ctx uriPrefix lim relevance = scanPrefix ctx' uriPrefix lim relevance := by
  obtain ⟨store,store',hs,hs',ha⟩ := h.content
  simp only [scanPrefix,hs,hs',(ha uriPrefix hp).1]

theorem same_scanType (h : SameFor tenant ctx ctx')
    (hp : InTenant tenant (prefixForScope scope)) (ct : ContentType) (limit : ℕ) :
    scanType ctx ct scope limit = scanType ctx' ct scope limit := by
  obtain ⟨store,store',hs,hs',ha⟩ := h.content
  simp only [scanType,hs,hs',(ha _ hp).2]

theorem same_hydrate (h : SameFor tenant ctx ctx') {found : IndexHit} (hp : InTenant tenant found.uri.canonical) :
    hydrate ctx found = hydrate ctx' found := by
  obtain ⟨store,store',hs,hs',ha⟩ := h.content
  simp only [hydrate,hs,hs',hitAt,(ha _ hp).1]

theorem same_executeSearch (hs : ServesTenant tenant ctx) (h : SameFor tenant ctx ctx')
    (ha : payload.uriPrefix = some uriPrefix) (hp : InTenant tenant uriPrefix)
    (coll : String) (emb : List ℚ) (top : ℕ) :
    executeSearch ctx coll emb payload top = executeSearch ctx' coll emb payload top := by
  obtain ⟨index,index',hi,hi',hm⟩ := h.index
  simp only [executeSearch,hi,hi',← hm payload uriPrefix ha hp]
  cases he : index.search coll emb top (filterJson payload) with
  | error e => rfl
  | ok found =>
    have hf := hs.search index hi payload uriPrefix ha hp _ _ _ found he
    have hma : found.map (hydrate ctx) = found.map (hydrate ctx') :=
      List.map_congr_left (fun ih hh => same_hydrate h (hf ih hh).2)
    simp only [Except.map,hydrateAll,hma,h.now]

theorem traverseFrom_none (h : ctx.graph = none) (edges : List GraphRelation) (maxHops : ℕ) (seeds : List RetrievalHit) :
    traverseFrom ctx edges maxHops seeds = seeds := by simp [traverseFrom,h]

end Reads

namespace PhysicalPlan

mutual
theorem tenant_execute (hs : ServesTenant tenant ctx) : ∀ (plan : PhysicalPlan) (hits : List RetrievalHit),
    plan.Within tenant → plan.execute ctx = .ok hits → ∀ hit ∈ hits, hit.uri.tenant = tenant
  | .typeScan contentType scope top, hits, hw, h => tenant_scanType hs hw h
  | .pgPrefixScan uriPrefix top, hits, hw, h => tenant_scanPrefix hs hw h
  | .vectorSearch collection embedding payload top, hits, hw, h => by
    obtain ⟨uriPrefix, ha, hp⟩ := hw
    exact tenant_executeSearch hs ha hp h
  | .fullScan scope top, hits, hw, h => tenant_scanPrefix hs hw h
  | .filter input p, hits, hw, h => by
    obtain ⟨below, hb, rfl⟩ := map_eq_ok.mp h
    intro hit hm
    exact tenant_execute hs input below hw hb hit (List.mem_of_mem_filter hm)
  | .sort input key, hits, hw, h => by
    obtain ⟨below, hb, rfl⟩ := map_eq_ok.mp h
    intro hit hm
    exact tenant_execute hs input below hw hb hit (mem_of_mem_sort hm)
  | .limit input budget, hits, hw, h => by
    obtain ⟨below, hb, rfl⟩ := map_eq_ok.mp h
    intro hit hm
    exact tenant_execute hs input below hw hb hit (List.mem_of_mem_take hm)
  | .graphTraverse input edges maxHops, hits, hw, h => by
    obtain ⟨below, hb, rfl⟩ := map_eq_ok.mp h
    rw [traverseFrom_none hs.graph_none]
    exact tenant_execute hs input below hw hb
  | .parallel plans merge, hits, hw, h => by
    obtain ⟨batches, ht, rfl⟩ := map_eq_ok.mp h
    intro hit hm
    exact tenant_executeAll hs plans batches hw ht hit (mem_of_mem_mergeHits hm)
  | .hashJoin left right, hits, hw, h => by
    obtain ⟨l, hl, h⟩ := bind_eq_ok.mp h
    obtain ⟨r, hr, h⟩ := bind_eq_ok.mp h
    cases h
    intro hit hm
    rcases List.mem_append.mp (mem_of_mem_dedupNeighbours hm) with hi | hi
    · exact tenant_execute hs left l hw.1 hl hit hi
    · exact tenant_execute hs right r hw.2 hr hit hi
  | .nestedLoopJoin left right, hits, hw, h => by
    obtain ⟨l, hl, h⟩ := bind_eq_ok.mp h
    obtain ⟨r, hr, h⟩ := bind_eq_ok.mp h
    cases h
    intro hit hm
    rcases List.mem_append.mp (mem_of_mem_dedupNeighbours hm) with hi | hi
    · exact tenant_execute hs left l hw.1 hl hit hi
    · exact tenant_execute hs right r hw.2 hr hit hi

theorem tenant_executeAll (hs : ServesTenant tenant ctx) : ∀ (plans : List PhysicalPlan)
    (batches : List (List RetrievalHit)), AllWithin tenant plans → executeAll ctx plans = .ok batches →
    ∀ hit ∈ batches.flatten, hit.uri.tenant = tenant
  | [], batches, _, h => by
    cases h
    simp
  | plan::plans, batches, hw, h => by
    obtain ⟨first,hf,h⟩ := bind_eq_ok.mp h
    obtain ⟨rest,hr,h⟩ := bind_eq_ok.mp h
    cases h
    intro hit hm
    rw [List.flatten_cons] at hm
    rcases List.mem_append.mp hm with hi | hi
    · exact tenant_execute hs plan first hw.1 hf hit hi
    · exact tenant_executeAll hs plans rest hw.2 hr hit hi
end

mutual
theorem same_execute (hs : ServesTenant tenant ctx) (ha : SameFor tenant ctx ctx') : ∀ plan : PhysicalPlan,
    plan.Within tenant → plan.execute ctx = plan.execute ctx'
  | .typeScan contentType scope top, hw => same_scanType ha hw contentType top
  | .pgPrefixScan uriPrefix top, hw => same_scanPrefix ha hw top (4 / 5)
  | .vectorSearch collection embedding payload top, hw => by
    obtain ⟨uriPrefix, hy, hp⟩ := hw
    exact same_executeSearch hs ha hy hp collection embedding top
  | .fullScan scope top, hw => same_scanPrefix ha hw top (1 / 2)
  | .filter input p, hw => by
    simp only [execute, same_execute hs ha input hw, ha.now]
  | .sort input key, hw => by simp only [execute, same_execute hs ha input hw]
  | .limit input budget, hw => by simp only [execute, same_execute hs ha input hw]
  | .graphTraverse input edges maxHops, hw => by
    have hl : traverseFrom ctx edges maxHops = traverseFrom ctx' edges maxHops := by
      funext seeds
      rw [traverseFrom_none ha.graph.1, traverseFrom_none ha.graph.2]
    simp only [execute, same_execute hs ha input hw, hl]
  | .parallel plans merge, hw => by simp only [execute, same_executeAll hs ha plans hw]
  | .hashJoin left right, hw => by
    simp only [execute, same_execute hs ha left hw.1, same_execute hs ha right hw.2]
  | .nestedLoopJoin left right, hw => by
    simp only [execute, same_execute hs ha left hw.1, same_execute hs ha right hw.2]

theorem same_executeAll (hs : ServesTenant tenant ctx) (ha : SameFor tenant ctx ctx') : ∀ plans : List PhysicalPlan,
    AllWithin tenant plans → executeAll ctx plans = executeAll ctx' plans
  | [], _ => rfl
  | plan::plans, hw => by
    simp only [executeAll,same_execute hs ha plan hw.1,same_executeAll hs ha plans hw.2]
end

end PhysicalPlan

section Queries

variable {o : CboOptimizer} {hint : Option IntentPlannerHint}

mutual
def LogicalPlan.Within (tenant : String) : LogicalPlan → Prop
  | .scan scope _ _ => ∃ u, scope = some u ∧ InTenant tenant u.canonical
  | .parallel plans _ => LogicalPlan.AllWithin tenant plans
  | .vectorSearch _ _ _ => False
  | .filter input p =>
    match predicateTypeOnly p with
    | some _ => ∃ u level limit, input = .scan (some u) level limit ∧ InTenant tenant u.canonical
    | none =>
      match input with
      | .vectorSearch _ _ _ => ∃ uriPrefix, (vectorFilterFromPredicate p).1.uriPrefix = some uriPrefix ∧
          InTenant tenant uriPrefix
      | _ => input.Within tenant
  | .join left right _ => left.Within tenant ∧ right.Within tenant
  | .sort input _ _ => input.Within tenant
  | .limit input _ => input.Within tenant
  | .traverse input _ _ => input.Within tenant
  | .temporalScan uri _ => InTenant tenant uri.canonical

def LogicalPlan.AllWithin (tenant : String) : List LogicalPlan → Prop
  | [] => True
  | plan::plans => plan.Within tenant ∧ LogicalPlan.AllWithin tenant plans
end

mutual
theorem within_optimize : ∀ (plan : LogicalPlan) (budget : ℕ), plan.Within tenant →
    (o.optimizeWithBudget hint plan budget).Within tenant
  | .scan scope level limit, budget, h => by
    obtain ⟨u, rfl, hu⟩ := h
    exact hu
  | .parallel plans merge, budget, h => allWithin_optimizeAll plans budget h
  | .vectorSearch collection query topK, budget, h => by simp [LogicalPlan.Within] at h
  | .filter input p, budget, h => by
    simp only [LogicalPlan.Within] at h
    simp only [CboOptimizer.optimizeWithBudget, CboOptimizer.filterShortcut]
    cases hp : predicateTypeOnly p with
    | some ct =>
      simp only [hp] at h
      obtain ⟨u, level, limit, rfl, hu⟩ := h
      exact hu
    | none =>
      cases input with
      | vectorSearch collection query topK =>
        simp only [hp] at h
        simp only
        split
        · exact h
        · exact h
      | _ =>
        simp only [hp] at h
        exact within_optimize _ budget h
  | .join left right on, budget, h => ⟨within_optimize left budget h.1, within_optimize right budget h.2⟩
  | .sort input key desc, budget, h => within_optimize input budget h
  | .limit input n, budget, h => by
    simp only [CboOptimizer.optimizeWithBudget]
    split
    · exact within_optimize input n h
    · exact within_optimize input n h
  | .traverse input edges maxHops, budget, h => within_optimize input budget h
  | .temporalScan uri mark, budget, h => h

theorem allWithin_optimizeAll : ∀ (plans : List LogicalPlan) (bud : ℕ), LogicalPlan.AllWithin tenant plans →
    PhysicalPlan.AllWithin tenant (o.optimizeAll hint plans bud)
  | [], _, _ => trivial
  | plan::plans, bud, h => ⟨within_optimize plan bud h.1,allWithin_optimizeAll plans bud h.2⟩
end

mutual
def Query.Confined (tenant : String) : Query → Prop
  | .find scope _ _ _ _ => ∃ u, scope = some u ∧ InTenant tenant u.canonical
  | .similar _ p _ _ => ∃ uriPrefix, (vectorFilterFromPredicate p).1.uriPrefix = some uriPrefix ∧ InTenant tenant uriPrefix
  | .asOf uri _ _ => InTenant tenant uri.canonical
  | .traverse start _ _ _ => InTenant tenant start.canonical
  | .composite queries _ => Query.AllConfined tenant queries

def Query.AllConfined (tenant : String) : List Query → Prop
  | [] => True
  | q::qs => q.Confined tenant ∧ Query.AllConfined tenant qs
end

theorem within_expanded {plan : LogicalPlan} (h : plan.Within tenant) (expand : Option RelationExpand) :
    (plan.expanded expand).Within tenant := by
  cases expand with
  | none => exact h
  | some exp => exact h

theorem within_orderedBy {plan : LogicalPlan} (h : plan.Within tenant) (ord : SortKey) :
    (plan.orderedBy ord).Within tenant := by
  simp only [LogicalPlan.orderedBy]
  split
  · exact h
  · exact h

theorem within_where_scan {u : ContextUri} (hu : InTenant tenant u.canonical) (lvl : ContentLevel) (lim : Option ℕ)
    (p : Predicate) : ((LogicalPlan.scan (some u) lvl lim).where_ p).Within tenant := by
  have hs : (LogicalPlan.scan (some u) lvl lim).Within tenant := ⟨u,rfl,hu⟩
  simp only [LogicalPlan.where_]
  split
  · exact hs
  · simp only [LogicalPlan.Within]
    cases predicateTypeOnly p with
    | some ct => exact ⟨u,lvl,lim,rfl,hu⟩
    | none => exact hs

theorem predicateTypeOnly_of_uriPrefix {p : Predicate} {pre : String}
    (h : (vectorFilterFromPredicate p).1.uriPrefix = some pre) : predicateTypeOnly p = none ∧ p.isEmpty = false := by
  obtain ⟨conditions⟩ := p
  cases conditions with
  | nil => simp [vectorFilterFromPredicate,VectorFilter.empty] at h
  | cons c cs =>
    refine ⟨?_,rfl⟩
    cases hp : predicateTypeOnly ⟨c::cs⟩ with
    | none => rfl
    | some ct =>
      simp only [predicateTypeOnly] at hp
      split at hp
      · rename_i ho
        rw [ho] at h
        simp [vectorFilterFromPredicate,pushCondition,VectorFilter.empty] at h
      · simp at hp

mutual
theorem Query.Confined.within : ∀ q : Query, q.Confined tenant → (queryToLogical q).Within tenant
  | .find scope p budget order expand, h => by
    obtain ⟨u, rfl, hu⟩ := h
    have ho := within_orderedBy (within_where_scan hu .l0 (some (scanBudget p budget)) p) order
    have hl : (LogicalPlan.limit _ budget).Within tenant := ho
    exact within_expanded hl expand
  | .similar queryEmbedding p budget expand, h => by
    obtain ⟨uriPrefix, ha, hp⟩ := h
    have hs := predicateTypeOnly_of_uriPrefix ha
    have he : ((LogicalPlan.vectorSearch "memories" queryEmbedding (vectorBudget p budget)).where_ p).Within
        tenant := by
      simp only [LogicalPlan.where_, hs.2, Bool.false_eq_true, if_false, LogicalPlan.Within, hs.1]
      exact ⟨uriPrefix, ha, hp⟩
    have hl : (LogicalPlan.limit _ budget).Within tenant := he
    exact within_expanded hl expand
  | .asOf uri mark level, h => h
  | .traverse start edges maxHops p, h => within_where_scan h _ _ p
  | .composite queries merge, h => Query.AllConfined.within queries h

theorem Query.AllConfined.within : ∀ queries : List Query, Query.AllConfined tenant queries →
    LogicalPlan.AllWithin tenant (queriesToLogical queries)
  | [], _ => trivial
  | q::qs, h => ⟨Query.Confined.within q h.1,Query.AllConfined.within qs h.2⟩
end

end Queries

end UwuContextDb.Retrieve
