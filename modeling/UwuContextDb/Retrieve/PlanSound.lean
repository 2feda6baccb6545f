import UwuContextDb.Retrieve.LimitSpec

/-! What a logical plan promises of every record, and where the optimized plan keeps the promise. -/

namespace UwuContextDb.Retrieve

open TopRows StateMachine Stack

def Contents.Holds (d : Contents) (ctx : ExecContext) (uriPrefix : String) (hit : RetrievalHit) : Prop :=
  ∃ relevance, hit ∈ d.under ctx uriPrefix relevance

section Sound

variable (d : Contents) (ctx : ExecContext)

mutual
/-- The record lies in the scopes of the plan, comes from its sources and satisfies its predicates. -/
def Sound : LogicalPlan → RetrievalHit → Prop
  | .scan scope _ _, hit => d.Holds ctx ((scope.map ContextUri.canonical).getD "uwu://") hit
  | .parallel plans _, hit => SoundAny plans hit
  | .vectorSearch collection query _, hit => ∃ filter top, hit ∈ searchRows ctx collection query filter top
  | .filter input p, hit => Sound input hit ∧ predicateMatches ctx.now hit p = true
  | .join left right _, hit => Sound left hit ∨ Sound right hit
  | .sort input _ _, hit => Sound input hit
  | .limit input _, hit => Sound input hit
  | .traverse input edges maxHops, hit => ∃ hops seeds, hops ≤ maxHops ∧ (∀ seed ∈ seeds, Sound input seed) ∧
      hit ∈ traverseFrom ctx edges hops seeds
  | .temporalScan uri _, hit => d.Holds ctx uri.canonical hit

def SoundAny : List LogicalPlan → RetrievalHit → Prop
  | [], _ => False
  | plan::plans, hit => Sound plan hit ∨ SoundAny plans hit
end

/-- The records a type filter over `input` is answered with: those of a scan by type, which knows of the input
only its limit, and its scope where the input is a scan. -/
def typePage (o : CboOptimizer) (input : LogicalPlan) (ct : ContentType) : List RetrievalHit :=
  let scope := match input with
    | .scan scope _ _ => scope
    | _ => none
  (d.ofType ct scope).take (clamp ((extractLimit input).getD (o.typeLimit ct)) 1 maxPageSize)

variable (o : CboOptimizer)

mutual
/-- The rewrites of a plan lose nothing for the records that pass `through` what stands above: where a type filter
replaced its input, the input admits every record of the page; where conditions were handed to the index, they hold
of what it answers. -/
def Safe : (RetrievalHit → Prop) → LogicalPlan → Prop
  | _, .scan _ _ _ => True
  | through, .parallel plans _ => SafeAll through plans
  | _, .vectorSearch _ _ _ => True
  | through, .filter input p =>
    match predicateTypeOnly p with
    | some ct => ∀ hit ∈ typePage d o input ct, through hit → Sound d ctx input hit
    | none =>
      match input with
      | .vectorSearch collection query topK =>
        let pushed := vectorFilterFromPredicate p
        ∀ hit ∈ searchRows ctx collection query pushed.1 topK, through hit →
          predicateMatches ctx.now hit pushed.2 = true → predicateMatches ctx.now hit p = true
      | _ => Safe (fun hit => through hit ∧ predicateMatches ctx.now hit p = true) input
  | through, .join left right _ => Safe through left ∧ Safe through right
  | through, .sort input _ _ => Safe through input
  | through, .limit input _ => Safe through input
  | _, .traverse input _ _ => Safe (fun _ => True) input
  | _, .temporalScan _ _ => True

def SafeAll : (RetrievalHit → Prop) → List LogicalPlan → Prop
  | _, [] => True
  | through, plan::plans => Safe through plan ∧ SafeAll through plans
end

end Sound

variable {found : RetrievalHit} {pre : String} {limit : ℕ} {relevance : ℚ} {input : LogicalPlan} {p : Predicate}

variable {hint : Option IntentPlannerHint} {hits : List RetrievalHit}

section Operators

variable {d : Contents} {ctx : ExecContext} {o : CboOptimizer}

variable {grouped : List (ℕ × RetrievalHit)} {hit : RetrievalHit} {ct : ContentType}

theorem mem_countHit {hit : RetrievalHit}
    (h : found ∈ (countHit grouped hit).map Prod.snd) : found ∈ grouped.map Prod.snd ∨ found = hit := by
  simp only [countHit] at h
  split at h
  · obtain ⟨g,hg,rfl⟩ := List.mem_map.mp h
    obtain ⟨g₀,hg₀,rfl⟩ := List.mem_map.mp hg
    have ho : g₀.2 ∈ grouped.map Prod.snd := List.mem_map_of_mem hg₀
    split
    · simp only
      split
      · exact Or.inr rfl
      · exact Or.inl ho
    · exact Or.inl ho
  · simpa using h

theorem mem_foldl_countHit
    (h : found ∈ (hits.foldl countHit grouped).map Prod.snd) : found ∈ grouped.map Prod.snd ∨ found ∈ hits := by
  induction hits generalizing grouped with
  | nil => exact Or.inl h
  | cons hit hits ih =>
    rcases ih h with hg | hr
    · rcases mem_countHit hg with ho | rfl
      · exact Or.inl ho
      · exact Or.inr (List.mem_cons_self)
    · exact Or.inr (List.mem_cons_of_mem _ hr)

theorem mem_of_mem_sort {key : SortKey} (h : hit ∈ key.sort hits) : hit ∈ hits := (List.mem_insertionSort _).mp h

theorem mem_of_mem_dedupNeighbours (h : hit ∈ dedupNeighbours hits) :
    hit ∈ hits := (List.destutter_sublist _ hits).subset h

theorem mem_of_mem_mergeHits {merge : QueryMergeStrategy} {plans : ℕ}
    (h : hit ∈ mergeHits merge plans hits) : hit ∈ hits := by
  cases merge with
  | union => exact mem_of_mem_sort h
  | dedup => exact mem_of_mem_sort (mem_of_mem_dedupNeighbours h)
  | first => exact h
  | intersect =>
    obtain ⟨g,hg,rfl⟩ := List.mem_map.mp (mem_of_mem_sort h)
    have hr : g.2 ∈ (hits.foldl countHit []).map Prod.snd := List.mem_map_of_mem (List.mem_of_mem_filter hg)
    simpa using mem_foldl_countHit hr

theorem holds_of_scanPrefix (hd : d.Backs ctx)
    (h : scanPrefix ctx pre limit relevance = .ok hits) : ∀ hit ∈ hits, d.Holds ctx pre hit := by
  intro hit hm
  rw [scanPrefix_eq_ok hd h] at hm
  exact ⟨relevance,List.mem_of_mem_take hm⟩

theorem typePage_of_execute (hd : d.Backs ctx)
    (h : (PhysicalPlan.typeScan ct (extractScope input) ((extractLimit input).getD (o.typeLimit ct))).execute ctx =
      .ok hits) : hits = typePage d o input ct := by
  have hs : ∀ sc : Option ContextUri, extractScope input = sc.map (fun u => .uriPrefix u.canonical) →
      hits = (d.ofType ct sc).take (clamp ((extractLimit input).getD (o.typeLimit ct)) 1 maxPageSize) := by
    intro sc hc
    rw [hc] at h
    exact scanType_eq_ok hd h
  cases input with
  | scan sc lvl limit => exact hs sc rfl
  | _ => exact hs none rfl

theorem contentType_of_mem_typePage
    (h : hit ∈ typePage d o input ct) : hit.contentType = some ct := by
  simp only [typePage,Contents.ofType] at h
  obtain ⟨e,he,rfl⟩ := List.mem_map.mp (List.mem_of_mem_take h)
  exact of_decide_eq_true (List.mem_filter.mp he).2

theorem predicateMatches_typeOnly (hp : predicateTypeOnly p = some ct)
    (h : hit.contentType = some ct) : predicateMatches ctx.now hit p = true := by
  simp only [predicateTypeOnly] at hp
  split at hp
  · rename_i hc
    cases hp
    simp [predicateMatches,hc,Condition.holds,h]
  · simp at hp

end Operators

section Soundness

variable {d : Contents} {ctx : ExecContext} {o : CboOptimizer}

theorem execute_filter (hd : d.Backs ctx) {bud : ℕ}
    (h : (o.optimizeWithBudget hint (.filter input p) bud).execute ctx = .ok hits) : match predicateTypeOnly p with
    | some ct => hits = typePage d o input ct
    | none =>
      match input with
      | .vectorSearch coll query topK => hits = filterRows ctx (vectorFilterFromPredicate p).2
          (searchRows ctx coll query (vectorFilterFromPredicate p).1 topK)
      | _ => ∃ below, (o.optimizeWithBudget hint input bud).execute ctx = .ok below ∧ hits = filterRows ctx p below := by
  simp only [CboOptimizer.optimizeWithBudget,CboOptimizer.filterShortcut] at h
  cases hp : predicateTypeOnly p with
  | some ct =>
    simp only [hp] at h
    exact typePage_of_execute hd h
  | none =>
    have hl : ∀ below : PhysicalPlan, (PhysicalPlan.filter below p).execute ctx = .ok hits →
        ∃ rows, below.execute ctx = .ok rows ∧ hits = filterRows ctx p rows := by
      intro below hb
      obtain ⟨rows,hr,hf⟩ := map_eq_ok.mp hb
      exact ⟨rows,hr,hf.symm⟩
    cases input with
    | vectorSearch coll query topK =>
      simp only [hp] at h
      by_cases he : (vectorFilterFromPredicate p).2.isEmpty
      · simp only [he,if_true] at h
        have hs : executeSearch ctx coll query (vectorFilterFromPredicate p).1 topK = .ok hits := h
        show hits = filterRows ctx _ _
        rw [filterRows_of_isEmpty he,searchRows,hs]
      · simp only [he] at h
        obtain ⟨rows,hr,hf⟩ := map_eq_ok.mp h
        have hs : executeSearch ctx coll query (vectorFilterFromPredicate p).1 topK = .ok rows := hr
        show hits = filterRows ctx _ _
        rw [searchRows,hs]
        exact hf.symm
    | _ =>
      simp only [hp] at h
      exact hl _ h

theorem execute_limit_subset {n bud : ℕ}
    (h : (o.optimizeWithBudget hint (.limit input n) bud).execute ctx = .ok hits) :
    ∃ below, (o.optimizeWithBudget hint input n).execute ctx = .ok below ∧ hits ⊆ below := by
  simp only [CboOptimizer.optimizeWithBudget] at h
  split at h
  · exact ⟨hits,h,fun hit hm => hm⟩
  · obtain ⟨below,hb,rfl⟩ := map_eq_ok.mp h
    exact ⟨below,hb,fun hit hm => List.mem_of_mem_take hm⟩

theorem hops_le (input : LogicalPlan) (maxHops : ℕ) : o.hops hint input maxHops ≤ maxHops := by
  simp only [CboOptimizer.hops]
  split <;> omega

mutual
theorem sound_of_safe (hd : d.Backs ctx) : ∀ (plan : LogicalPlan) (budget : ℕ) (through : RetrievalHit → Prop)
    (hits : List RetrievalHit), Safe d ctx o through plan →
    (o.optimizeWithBudget hint plan budget).execute ctx = .ok hits → ∀ hit ∈ hits, through hit → Sound d ctx plan hit
  | .scan scope level limit, budget, through, hits, _, h, hit, hm, _ => by
    cases scope with
    | some uri => exact holds_of_scanPrefix hd h hit hm
    | none => exact holds_of_scanPrefix hd h hit hm
  | .parallel plans merge, budget, through, hits, hs, h, hit, hm, ht => by
    obtain ⟨batches, hba, rfl⟩ := map_eq_ok.mp h
    exact soundAny_of_safeAll hd plans budget through batches hs hba hit (mem_of_mem_mergeHits hm) ht
  | .vectorSearch collection query topK, budget, through, hits, _, h, hit, hm, _ => by
    have he : executeSearch ctx collection query .empty (o.searchLimit hint topK) = .ok hits := h
    refine ⟨.empty, o.searchLimit hint topK, ?_⟩
    rw [searchRows, he]
    exact hm
  | .filter input p, budget, through, hits, hs, h, hit, hm, ht => by
    have ho := execute_filter hd h
    simp only [Safe] at hs
    cases hp : predicateTypeOnly p with
    | some ct =>
      simp only [hp] at ho hs
      rw [ho] at hm
      exact ⟨hs hit hm ht, predicateMatches_typeOnly hp (contentType_of_mem_typePage hm)⟩
    | none =>
      have hpl : Safe d ctx o (fun hit => through hit ∧ predicateMatches ctx.now hit p = true) input →
          (∃ below, (o.optimizeWithBudget hint input budget).execute ctx = .ok below ∧ hits = filterRows ctx p below) →
          Sound d ctx (.filter input p) hit := by
        rintro hbelow_safe ⟨below, hb, rfl⟩
        obtain ⟨hi, ha⟩ := List.mem_filter.mp hm
        exact ⟨sound_of_safe hd input budget _ below hbelow_safe hb hit hi ⟨ht, ha⟩, ha⟩
      cases input with
      | vectorSearch collection query topK =>
        simp only [hp] at ho hs
        rw [ho] at hm
        obtain ⟨hi, hre⟩ := List.mem_filter.mp hm
        exact ⟨⟨_, _, hi⟩, hs hit hi ht hre⟩
      | _ =>
        simp only [hp] at ho hs
        exact hpl hs ho
  | .join left right on, budget, through, hits, hs, h, hit, hm, ht => by
    obtain ⟨l, hl, h⟩ := bind_eq_ok.mp h
    obtain ⟨r, hr, h⟩ := bind_eq_ok.mp h
    cases h
    rcases List.mem_append.mp (mem_of_mem_dedupNeighbours hm) with hi | hi
    · exact Or.inl (sound_of_safe hd left budget through l hs.1 hl hit hi ht)
    · exact Or.inr (sound_of_safe hd right budget through r hs.2 hr hit hi ht)
  | .sort input key desc, budget, through, hits, hs, h, hit, hm, ht => by
    obtain ⟨below, hb, rfl⟩ := map_eq_ok.mp h
    exact sound_of_safe hd input budget through below hs hb hit (mem_of_mem_sort hm) ht
  | .limit input n, budget, through, hits, hs, h, hit, hm, ht => by
    obtain ⟨below, hb, hu⟩ := execute_limit_subset h
    exact sound_of_safe hd input n through below hs hb hit (hu hm) ht
  | .traverse input edges maxHops, budget, through, hits, hs, h, hit, hm, _ => by
    obtain ⟨seeds, hse, rfl⟩ := map_eq_ok.mp h
    have hso := sound_of_safe hd input budget (fun _ => True) seeds hs hse
    exact ⟨_, seeds, hops_le input maxHops, fun seed hsd => hso seed hsd trivial, hm⟩
  | .temporalScan uri mark, budget, through, hits, _, h, hit, hm, _ => holds_of_scanPrefix hd h hit hm

theorem soundAny_of_safeAll (hd : d.Backs ctx) : ∀ (plans : List LogicalPlan) (bud : ℕ)
    (through : RetrievalHit → Prop) (batches : List (List RetrievalHit)), SafeAll d ctx o through plans →
    PhysicalPlan.executeAll ctx (o.optimizeAll hint plans bud) = .ok batches →
    ∀ hit ∈ batches.flatten, through hit → SoundAny d ctx plans hit
  | [], bud, through, batches, _, h, hit, hm, _ => by
    cases h
    simp at hm
  | plan::plans, bud, through, batches, hs, h, hit, hm, ht => by
    obtain ⟨first,hf,h⟩ := bind_eq_ok.mp h
    obtain ⟨rest,hr,h⟩ := bind_eq_ok.mp h
    cases h
    rw [List.flatten_cons] at hm
    rcases List.mem_append.mp hm with hi | hi
    · exact Or.inl (sound_of_safe hd plan bud through first hs.1 hf hit hi ht)
    · exact Or.inr (soundAny_of_safeAll hd plans bud through rest hs.2 hr hit hi ht)
end

def Straight : LogicalPlan → Prop
  | .scan _ _ _ => True
  | .vectorSearch _ _ _ => True
  | .temporalScan _ _ => True
  | .filter input p => (predicateTypeOnly p).isSome ∨ Straight input
  | .sort input _ _ => Straight input
  | _ => False

def Exposed : LogicalPlan → Prop
  | .traverse input _ _ => Exposed input
  | plan => Straight plan

theorem typePage_unreached (input : LogicalPlan) (ct : ContentType) : Unreached (typePage d o input ct) := by
  intro hit hm
  obtain ⟨e,-,rfl⟩ := List.mem_map.mp (List.mem_of_mem_take hm)
  rfl

theorem scanPrefix_unreached (hd : d.Backs ctx)
    (h : scanPrefix ctx pre limit relevance = .ok hits) : Unreached hits := by
  intro hit hm
  rw [scanPrefix_eq_ok hd h] at hm
  exact Contents.under_unreached _ _ hit (List.mem_of_mem_take hm)

theorem straight_unreached (hd : d.Backs ctx) : ∀ (plan : LogicalPlan) (bud : ℕ) (hits : List RetrievalHit),
    Straight plan → (o.optimizeWithBudget hint plan bud).execute ctx = .ok hits → Unreached hits
  | .scan sc lvl limit, bud, hits, _, h => by
    cases sc with
    | some u => exact scanPrefix_unreached hd h
    | none => exact scanPrefix_unreached hd h
  | .vectorSearch coll query topK, bud, hits, _, h => by
    have he : executeSearch ctx coll query .empty (o.searchLimit hint topK) = .ok hits := h
    have hr : Unreached (searchRows ctx coll query .empty (o.searchLimit hint topK)) := searchRows_unreached _ _ _ _
    rwa [searchRows,he] at hr
  | .temporalScan u mark, bud, hits, _, h => scanPrefix_unreached hd h
  | .filter input p, bud, hits, hs, h => by
    have hr := execute_filter hd h
    cases hp : predicateTypeOnly p with
    | some ct =>
      simp only [hp] at hr
      rw [hr]
      exact typePage_unreached input ct
    | none =>
      have hi : Straight input := by simpa [Straight,hp] using hs
      have hl : (∃ below, (o.optimizeWithBudget hint input bud).execute ctx = .ok below ∧
          hits = filterRows ctx p below) → Unreached hits := by
        rintro ⟨below,hb,rfl⟩ hit hm
        exact straight_unreached hd input bud below hi hb hit (List.mem_of_mem_filter hm)
      cases input with
      | vectorSearch coll query topK =>
        simp only [hp] at hr
        intro hit hm
        rw [hr] at hm
        exact searchRows_unreached _ _ _ _ hit (List.mem_of_mem_filter hm)
      | _ =>
        simp only [hp] at hr
        exact hl hr
  | .sort input key desc, bud, hits, hs, h => by
    obtain ⟨below,hb,rfl⟩ := map_eq_ok.mp h
    intro hit hm
    exact straight_unreached hd input bud below hs hb hit (mem_of_mem_sort hm)

theorem safe_of_sound (hd : d.Backs ctx) : ∀ (plan : LogicalPlan) (bud : ℕ) (through : RetrievalHit → Prop)
    (hits : List RetrievalHit), Straight plan → (o.optimizeWithBudget hint plan bud).execute ctx = .ok hits →
    (∀ hit ∈ hits, through hit → Sound d ctx plan hit) → Safe d ctx o through plan
  | .scan sc lvl limit, bud, through, hits, _, h, _ => trivial
  | .vectorSearch coll query topK, bud, through, hits, _, h, _ => trivial
  | .temporalScan u mark, bud, through, hits, _, h, _ => trivial
  | .filter input p, bud, through, hits, hst, h, hs => by
    have hr := execute_filter hd h
    simp only [Safe]
    cases hp : predicateTypeOnly p with
    | some ct =>
      simp only [hp] at hr ⊢
      intro hit hm ht
      exact (hs hit (hr ▸ hm) ht).1
    | none =>
      have hi : Straight input := by simpa [Straight,hp] using hst
      have hl : (∃ below, (o.optimizeWithBudget hint input bud).execute ctx = .ok below ∧
          hits = filterRows ctx p below) →
          Safe d ctx o (fun hit => through hit ∧ predicateMatches ctx.now hit p = true) input := by
        rintro ⟨below,hb,rfl⟩
        refine safe_of_sound hd input bud _ below hi hb (fun hit hm ha => ?_)
        exact (hs hit (List.mem_filter.mpr ⟨hm,ha.2⟩) ha.1).1
      cases input with
      | vectorSearch coll query topK =>
        simp only [hp] at hr ⊢
        intro hit hm ht he
        have hn : hit ∈ hits := hr ▸ List.mem_filter.mpr ⟨hm,he⟩
        exact (hs hit hn ht).2
      | _ =>
        simp only [hp] at hr ⊢
        exact hl hr
  | .sort input key desc, bud, through, hits, hst, h, hs => by
    obtain ⟨below,hb,rfl⟩ := map_eq_ok.mp h
    refine safe_of_sound hd input bud through below hst hb (fun hit hm ht => ?_)
    exact hs hit ((List.mem_insertionSort _).mpr hm) ht

theorem Stack.mem_seeds_of_isSeed {edges : List GraphRelation} {maxHops : ℕ} {seeds : List RetrievalHit}
    {hit : RetrievalHit} (h : hit ∈ traverseFrom ctx edges maxHops seeds) (hs : isSeed hit = true) : hit ∈ seeds := by
  simp only [traverseFrom] at h
  split at h
  · exact h
  · split at h
    · rcases List.mem_append.mp h with hi | hr
      · exact hi
      · simp [graphHits_not_isSeed _ _ hit hr] at hs
    · exact h

theorem safe_of_sound_exposed (hd : d.Backs ctx) : ∀ (plan : LogicalPlan) (bud : ℕ) (hits : List RetrievalHit),
    Exposed plan → (o.optimizeWithBudget hint plan bud).execute ctx = .ok hits →
    (∀ hit ∈ hits, Stack.isSeed hit = true → Sound d ctx plan hit) → Safe d ctx o (fun _ => True) plan
  | .traverse input edges maxHops, bud, hits, he, h, hs => by
    obtain ⟨seeds,hsd,rfl⟩ := map_eq_ok.mp h
    refine safe_of_sound_exposed hd input bud seeds he hsd (fun hit hm hse => ?_)
    obtain ⟨hops,sound,-,ha,hi⟩ := hs hit ((Stack.traverseFrom_begins _ _ seeds).subset hm) hse
    exact ha hit (Stack.mem_seeds_of_isSeed hi hse)
  | .scan sc lvl limit, bud, hits, _, h, _ => trivial
  | .vectorSearch coll query topK, bud, hits, _, h, _ => trivial
  | .temporalScan u mark, bud, hits, _, h, _ => trivial
  | .filter input p, bud, hits, he, h, hs => by
    have hu := straight_unreached hd (.filter input p) bud hits he h
    refine safe_of_sound hd (.filter input p) bud _ hits he h (fun hit hm _ => hs hit hm ?_)
    simp [Stack.isSeed,hu hit hm]
  | .sort input key desc, bud, hits, he, h, hs => by
    have hu := straight_unreached hd (.sort input key desc) bud hits he h
    refine safe_of_sound hd (.sort input key desc) bud _ hits he h (fun hit hm _ => hs hit hm ?_)
    simp [Stack.isSeed,hu hit hm]

end Soundness

/-- The optimized plan returns only what the logical plan asks for where its rewrites are safe, and only there where
nothing but traversals stands over the filters and sorts. -/
theorem optimize_sound {d : Contents} {ctx : ExecContext} {o : CboOptimizer} {hint : Option IntentPlannerHint}
    (hd : d.Backs ctx) (plan : LogicalPlan) (budget : ℕ) {hits : List RetrievalHit}
    (hrun : (o.optimizeWithBudget hint plan budget).execute ctx = .ok hits) :
    (Safe d ctx o (fun _ => True) plan → ∀ hit ∈ hits, Sound d ctx plan hit) ∧
      (Exposed plan → (∀ hit ∈ hits, Sound d ctx plan hit) → Safe d ctx o (fun _ => True) plan) := by
  constructor
  · intro hs hit hm
    exact sound_of_safe hd plan budget _ hits hs hrun hit hm trivial
  · intro he ho
    exact safe_of_sound_exposed hd plan budget hits he hrun (fun hit hm _ => ho hit hm)

/-- A filter, a sort and a limit over a scan: nothing was replaced. -/
theorem optimize_sound_sample : ∃ hits, (plainOptimizer.optimize (queryToLogical (bestQuery 2))).execute ratedContext =
    .ok hits ∧ ∀ hit ∈ hits, Sound (listContents ratedEntries) ratedContext (queryToLogical (bestQuery 2)) hit := by
  have hr : ((plainOptimizer.optimize (queryToLogical (bestQuery 2))).execute ratedContext).toOption.isSome := by
    decide +kernel
  have hn : (ratedEntries.map ContextEntry.uri).Nodup := by decide
  cases h : (plainOptimizer.optimize (queryToLogical (bestQuery 2))).execute ratedContext with
  | error e => simp [h, Except.toOption] at hr
  | ok hits => exact ⟨hits, rfl, (optimize_sound (listContents_backs none hn) _ usizeMax h).1 trivial⟩

def factEntry (name : String) : ContextEntry :=
  let e := ContextEntry.newText ⟨"t", ["t", "m", name], none, "uwu://t/m/" ++ name⟩ 0 name 0
  { e with metadata := { e.metadata with contentType := some .fact } }

def facts : List ContextEntry := [factEntry "a", factEntry "b"]

def factContext : ExecContext := listContext facts (some ⟨fun _ _ _ _ => .ok [⟨(factEntry "b").uri, 1⟩]⟩)

/-- `SIMILAR` among the facts. -/
def similarQuery : Query := .similar [1] ⟨[.typeEquals .fact]⟩ 1 none

/-- The vector of a search is lost under a type filter: a fact is returned that no search finds. -/
theorem similar_loses_vector :
    ∃ hits, (plainOptimizer.optimize (queryToLogical similarQuery)).execute factContext = .ok hits ∧
    ∃ hit ∈ hits, ¬ Sound (listContents facts) factContext (queryToLogical similarQuery) hit := by
  have hr : ((plainOptimizer.optimize (queryToLogical similarQuery)).execute factContext).map
      (fun hits => hits.map (fun hit => hit.uri.canonical)) = .ok ["uwu://t/m/a", "uwu://t/m/b"] := by decide +kernel
  obtain ⟨hits, hi, hn⟩ := map_eq_ok.mp hr
  obtain ⟨hit, hm, hnm⟩ : ∃ hit ∈ hits, hit.uri.canonical = "uwu://t/m/a" :=
    List.mem_map.mp (hn ▸ List.mem_cons_self)
  refine ⟨hits, hi, hit, hm, fun hs => ?_⟩
  obtain ⟨payload, top, hin⟩ := hs.1
  have hf : ∀ hit ∈ searchRows factContext "memories" [1] payload top, hit.uri.canonical = "uwu://t/m/b" := by
    intro found hf
    obtain ⟨h, hh, rfl⟩ := List.mem_map.mp (List.mem_of_mem_filter hf)
    rw [List.mem_singleton.mp hh]
    decide +kernel
  exact absurd (hnm.symm.trans (hf hit hin)) (by decide)

end UwuContextDb.Retrieve
