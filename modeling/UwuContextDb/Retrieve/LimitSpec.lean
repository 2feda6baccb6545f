import UwuContextDb.Retrieve.Stack

/-! The first rows of a stack: the planner hands the number asked for down to the scan, below the filters and
sorts that decide which rows come first. -/

namespace UwuContextDb.Retrieve

open TopRows StateMachine

namespace Stack

/-- No filter is replaced by a scan that forgets its input, and no sort asks for an order that is not executed. -/
def Clean : Stack → Prop
  | .scan _ _ _ => True
  | .vectorSearch _ _ _ => True
  | .filter input p => ((predicateTypeOnly p).isSome → ∃ scope level limit, input = .scan scope level limit) ∧ input.Clean
  | .sort input key desc => (desc = true ∨ key = .natural) ∧ input.Clean
  | .traverse input _ _ => input.Clean

/-- Whether the physical plan is one that carries its own limit, so that the `Limit` over it is left out. -/
def isBare : Stack → Bool
  | .scan _ _ _ => true
  | .vectorSearch _ _ _ => true
  | .filter input p => (filterSource input p).any (fun found => found.2.isEmpty)
  | .sort _ _ _ => false
  | .traverse _ _ _ => false

def traverses : Stack → Bool
  | .scan _ _ _ => false
  | .vectorSearch _ _ _ => false
  | .filter input _ => input.traverses
  | .sort input _ _ => input.traverses
  | .traverse _ _ _ => true

def TraversesLast : Stack → Prop
  | .traverse input _ _ => input.TraversesLast
  | s => s.traverses = false

end Stack

variable {d : Contents} {s : Stack} {hits : List RetrievalHit}

section Execution

variable {o : CboOptimizer} {hint : Option IntentPlannerHint} {ctx : ExecContext}

theorem filterRows_nil (hits : List RetrievalHit) : filterRows ctx ⟨[]⟩ hits = hits := by
  simp [filterRows,predicateMatches]

theorem filterRows_of_isEmpty {p : Predicate} (hp : p.isEmpty) (hits : List RetrievalHit) :
    filterRows ctx p hits = hits := by
  have hn : p = ⟨[]⟩ := by
    cases p
    simpa [Predicate.isEmpty] using hp
  rw [hn,filterRows_nil]

theorem filterShortcut_plan {input : Stack} {p : Predicate} (hc : (Stack.filter input p).Clean) (bud : ℕ) :
    o.filterShortcut input.plan p = (Stack.filterSource input p).map (fun found =>
      if found.2.isEmpty then found.1.physical o bud else .filter (found.1.physical o bud) found.2) := by
  cases hp : predicateTypeOnly p with
  | some ct =>
    obtain ⟨sc,lvl,lim,rfl⟩ := hc.1 (by simp [hp])
    simp [CboOptimizer.filterShortcut,Stack.filterSource,Stack.plan,hp,Predicate.isEmpty,Source.physical,
      extractScope,extractLimit]
  | none => cases input <;> simp [CboOptimizer.filterShortcut,Stack.filterSource,Stack.plan,hp,Source.physical]

theorem sortRows_of_clean {key : SortKey} {desc : Bool} (h : desc = true ∨ key = .natural) (hits : List RetrievalHit) :
    sortRows key desc hits = key.sort hits := by
  rcases h with rfl | rfl
  · rfl
  · cases desc
    · rw [SortKey.sort_natural]
      exact List.Pairwise.insertionSort_eq (List.pairwise_of_forall (fun _ _ => rfl))
    · rfl

theorem isLeaf_physical (src : Source) (bud : ℕ) : CboOptimizer.isLeaf (src.physical o bud) = true := by
  cases src with
  | scan sc lim => cases sc <;> rfl
  | typeScan ct sc lim => rfl
  | search coll query filter topK => rfl

theorem isLeaf_optimizeWithBudget (hc : s.Clean) (bud : ℕ) :
    CboOptimizer.isLeaf (o.optimizeWithBudget hint s.plan bud) = s.isBare := by
  cases s with
  | scan sc lvl lim => cases sc <;> rfl
  | vectorSearch coll query topK => rfl
  | filter input p =>
    simp only [Stack.plan,CboOptimizer.optimizeWithBudget,filterShortcut_plan hc bud,Stack.isBare]
    cases hf : Stack.filterSource input p with
    | none => rfl
    | some found =>
      by_cases he : found.2.isEmpty
      · simp [he,isLeaf_physical]
      · simp [he,CboOptimizer.isLeaf]
  | sort input key desc => rfl
  | traverse input edges maxHops => rfl

theorem Stack.execute_optimizeWithBudget (hd : d.Backs ctx) (hc : s.Clean) {bud : ℕ}
    (h : (o.optimizeWithBudget hint s.plan bud).execute ctx = .ok hits) :
    hits = s.above o hint ctx ((s.source o hint).fetched o d ctx bud) := by
  induction s generalizing hits with
  | scan sc lvl lim =>
    have hs : ((Source.scan sc lim).physical o bud).execute ctx = .ok hits := h
    exact Source.execute_physical hd hs
  | vectorSearch coll query topK =>
    have hs : ((Source.search coll query .empty (o.searchLimit hint topK)).physical o bud).execute ctx = .ok hits := h
    exact Source.execute_physical hd hs
  | filter input p ih =>
    simp only [Stack.plan,CboOptimizer.optimizeWithBudget,filterShortcut_plan hc bud] at h
    simp only [Stack.above,Stack.source]
    cases hf : Stack.filterSource input p with
    | none =>
      simp only [hf,Option.map_none,PhysicalPlan.execute] at h
      obtain ⟨below,hb,rfl⟩ := map_eq_ok.mp h
      rw [ih hc.2 hb]
      rfl
    | some found =>
      simp only [hf,Option.map_some] at h
      by_cases he : found.2.isEmpty
      · simp only [he,if_true] at h
        show hits = filterRows ctx found.2 _
        rw [filterRows_of_isEmpty he]
        exact Source.execute_physical hd h
      · simp only [he] at h
        obtain ⟨below,hb,rfl⟩ := map_eq_ok.mp h
        rw [Source.execute_physical hd hb]
        rfl
  | sort input key desc ih =>
    simp only [Stack.plan,CboOptimizer.optimizeWithBudget,PhysicalPlan.execute] at h
    obtain ⟨below,hb,rfl⟩ := map_eq_ok.mp h
    rw [ih hc.2 hb]
    exact (sortRows_of_clean hc.1 _).symm
  | traverse input edges maxHops ih =>
    simp only [Stack.plan,CboOptimizer.optimizeWithBudget,PhysicalPlan.execute] at h
    obtain ⟨below,hb,rfl⟩ := map_eq_ok.mp h
    rw [ih hc hb]
    rfl

theorem Stack.execute_limit (hd : d.Backs ctx) (hc : s.Clean) {n outer : ℕ}
    (h : (o.optimizeWithBudget hint (.limit s.plan n) outer).execute ctx = .ok hits) :
    hits = upTo (if s.isBare then none else some n) (s.above o hint ctx ((s.source o hint).fetched o d ctx n)) := by
  simp only [CboOptimizer.optimizeWithBudget,isLeaf_optimizeWithBudget hc] at h
  cases hb : s.isBare with
  | true =>
    simp only [hb,if_true] at h
    exact Stack.execute_optimizeWithBudget hd hc h
  | false =>
    simp only [hb] at h
    obtain ⟨below,he,rfl⟩ := map_eq_ok.mp h
    rw [Stack.execute_optimizeWithBudget hd hc he]
    rfl

end Execution

section Cut

variable {o : CboOptimizer} {hint : Option IntentPlannerHint} {ctx : ExecContext}

def Source.narrow (o : CboOptimizer) (d : Contents) (ctx : ExecContext) (n : ℕ) (src : Source) : List RetrievalHit :=
  if (src.wanted d ctx).length ≤ (src.fetched o d ctx n).length then src.wanted d ctx else src.fetched o d ctx n

def Source.wide (o : CboOptimizer) (d : Contents) (ctx : ExecContext) (n : ℕ) (src : Source) : List RetrievalHit :=
  if (src.wanted d ctx).length ≤ (src.fetched o d ctx n).length then src.fetched o d ctx n else src.wanted d ctx

theorem Source.common (hd : d.Backs ctx) (src : Source) (n : ℕ) : src.wanted d ctx = src.fetched o d ctx n ∨
    ∃ rows, (rows.map RetrievalHit.uri).Nodup ∧ src.wanted d ctx <+: rows ∧ src.fetched o d ctx n <+: rows := by
  have hu : ∀ pre relevance, ((d.under ctx pre relevance).map RetrievalHit.uri).Nodup := by
    intro pre relevance
    simp only [Contents.under]
    split
    · rw [List.map_map]
      exact hd.entries_nodup pre
    · split
      · rename_i sc _
        rw [List.map_map]
        exact (List.map_id (d.files sc)).symm ▸ hd.files_nodup sc
      · exact List.nodup_nil
  cases src with
  | scan sc lim =>
    refine Or.inr ⟨d.inScope ctx sc,?_,upTo_begins _ _,List.take_prefix _ _⟩
    cases sc <;> exact hu _ _
  | typeScan ct sc lim =>
    refine Or.inr ⟨d.ofType ct sc,?_,upTo_begins _ _,List.take_prefix _ _⟩
    simp only [Contents.ofType]
    rw [List.map_map]
    exact (hd.entries_nodup _).sublist (List.filter_sublist.map ContextEntry.uri)
  | search coll query filter topK => exact Or.inl rfl

theorem Source.narrow_within_wide (hd : d.Backs ctx) (src : Source) (n : ℕ) :
    within RetrievalHit.uri (src.narrow o d ctx n) (src.wide o d ctx n) = src.narrow o d ctx n := by
  rcases Source.common (o := o) hd src n with hs | ⟨rows,hn,hw,hf⟩
  · simp only [Source.narrow,Source.wide,hs,le_refl,if_true]
    exact within_self _ _
  · simp only [Source.narrow,Source.wide]
    split
    · rename_i hl
      have hi := hn.sublist (hf.sublist.map RetrievalHit.uri)
      exact within_of_prefix _ hi (List.prefix_of_prefix_length_le hw hf hl)
    · rename_i hl
      have hi := hn.sublist (hw.sublist.map RetrievalHit.uri)
      exact within_of_prefix _ hi (List.prefix_of_prefix_length_le hf hw (by omega))

/-- A program gives the same first rows on what is fetched and on what is wanted if it does on the shorter and
the longer of the two. -/
theorem Source.fetched_eq_iff (src : Source) (n : ℕ) (f : List RetrievalHit → List RetrievalHit) :
    f (src.fetched o d ctx n) = f (src.wanted d ctx) ↔ f (src.narrow o d ctx n) = f (src.wide o d ctx n) := by
  simp only [Source.narrow,Source.wide]
  split
  · exact eq_comm
  · exact Iff.rfl

theorem Source.fetched_eq_take_iff (hd : d.Backs ctx) (src : Source) (n : ℕ) :
    src.fetched o d ctx n = (src.wanted d ctx).take n ↔
      (src.fetched o d ctx n).length = min (src.wanted d ctx).length n := by
  constructor
  · intro h
    rw [h,List.length_take,min_comm]
  · intro he
    rcases Source.common (o := o) hd src n with hs | ⟨rows,-,hw,hf⟩
    · rw [hs] at *
      exact (List.take_of_length_le (by omega)).symm
    · have hb := List.prefix_of_prefix_length_le hf hw (by omega)
      rw [List.prefix_iff_eq_take.mp hb,he]
      rcases Nat.le_total (src.wanted d ctx).length n with hl | hl
      · rw [Nat.min_eq_left hl,List.take_length,List.take_of_length_le hl]
      · rw [Nat.min_eq_right hl]

def Unreached (hits : List RetrievalHit) : Prop := ∀ hit ∈ hits, hit.parentChain = []

theorem hydrate_parentChain (h : IndexHit) : (hydrate ctx h).parentChain = [] := by
  simp only [hydrate]
  cases ctx.content with
  | none => rfl
  | some store =>
    simp only [hitAt]
    cases store.scanByPrefix h.uri.canonical (.new 1) with
    | error e => rfl
    | ok page =>
      simp only [Except.map]
      cases page.items.getLast? <;> rfl

theorem searchRows_unreached (coll : String) (query : List ℚ) (filter : VectorFilter) (topK : ℕ) :
    Unreached (searchRows ctx coll query filter topK) := by
  intro hit hm
  simp only [searchRows,executeSearch] at hm
  cases hi : ctx.index with
  | none => simp [hi] at hm
  | some index =>
    cases hs : index.search coll query topK (filterJson filter) with
    | error e => simp [hi,hs,Except.map] at hm
    | ok found =>
      simp only [hi,hs,Except.map,hydrateAll,List.mem_filter,List.mem_map] at hm
      obtain ⟨⟨h,-,rfl⟩,-⟩ := hm
      exact hydrate_parentChain h

theorem Contents.under_unreached (pre : String) (relevance : ℚ) : Unreached (d.under ctx pre relevance) := by
  intro hit hm
  simp only [Contents.under] at hm
  split at hm
  · obtain ⟨e,-,rfl⟩ := List.mem_map.mp hm
    rfl
  · split at hm
    · obtain ⟨u,-,rfl⟩ := List.mem_map.mp hm
      rfl
    · simp at hm

theorem Source.unreached (src : Source) (n : ℕ) :
    Unreached (src.wanted d ctx) ∧ Unreached (src.fetched o d ctx n) := by
  have hp : ∀ {part rows : List RetrievalHit}, part <+: rows → Unreached rows → Unreached part :=
    fun hb hr hit hm => hr hit (hb.subset hm)
  cases src with
  | scan sc lim =>
    have hr : Unreached (d.inScope ctx sc) := by
      cases sc <;> exact Contents.under_unreached _ _
    exact ⟨hp (upTo_begins _ _) hr,hp (List.take_prefix _ _) hr⟩
  | typeScan ct sc lim =>
    have hr : Unreached (d.ofType ct sc) := by
      intro hit hm
      obtain ⟨e,-,rfl⟩ := List.mem_map.mp hm
      rfl
    exact ⟨hp (upTo_begins _ _) hr,hp (List.take_prefix _ _) hr⟩
  | search coll query filter topK =>
    exact ⟨searchRows_unreached coll query filter topK,searchRows_unreached coll query filter topK⟩

end Cut

namespace Stack

section Covered

variable (o : CboOptimizer) (hint : Option IntentPlannerHint) (ctx : ExecContext) (narrow wide : List RetrievalHit)

/-- The first `m` rows the operators give on `wide` all come from `narrow`. -/
def Kept (m : Option ℕ) (s : Stack) : Prop :=
  ∀ hit ∈ upTo m (s.above o hint ctx wide), hit.uri ∈ narrow.map RetrievalHit.uri

/-- The cut from `wide` to `narrow` leaves the first `m` rows alone. A traversal puts what it reaches behind its
seeds, so over it the seeds matter; a filter or sort over a traversal needs all of them. -/
def Covered : Option ℕ → Stack → Prop
  | m, .scan scope level limit => Kept o hint ctx narrow wide m (.scan scope level limit)
  | m, .vectorSearch collection query topK => Kept o hint ctx narrow wide m (.vectorSearch collection query topK)
  | m, .filter input p => if input.traverses then Covered none input else Kept o hint ctx narrow wide m (.filter input p)
  | m, .sort input key desc =>
    if input.traverses then Covered none input else Kept o hint ctx narrow wide m (.sort input key desc)
  | m, .traverse input _ _ => Covered m input

def base : Stack → Stack
  | .traverse input _ _ => input.base
  | .scan scope level limit => .scan scope level limit
  | .vectorSearch collection query topK => .vectorSearch collection query topK
  | .filter input p => .filter input p
  | .sort input key desc => .sort input key desc

variable {o hint ctx narrow wide}

theorem covered_of_not_traverses (h : s.traverses = false) (m : Option ℕ) :
    s.Covered o hint ctx narrow wide m ↔ s.Kept o hint ctx narrow wide m := by
  cases s with
  | scan sc lvl lim => exact Iff.rfl
  | vectorSearch coll query topK => exact Iff.rfl
  | filter input p =>
    have hb : input.traverses = false := h
    simp [Covered,hb]
  | sort input key desc =>
    have hb : input.traverses = false := h
    simp [Covered,hb]
  | traverse input edges maxHops => simp [traverses] at h

theorem TraversesLast.base (h : s.TraversesLast) : s.base.traverses = false := by
  induction s with
  | traverse input edges maxHops ih => exact ih h
  | _ => exact h

theorem covered_base (h : s.TraversesLast) (m : Option ℕ) :
    s.Covered o hint ctx narrow wide m ↔ s.base.Kept o hint ctx narrow wide m := by
  induction s with
  | traverse input edges maxHops ih => exact ih h
  | _ => exact covered_of_not_traverses h m

theorem Clean.base (h : s.Clean) : s.base.Clean := by
  induction s with
  | traverse input edges maxHops ih => exact ih h
  | _ => exact h

theorem filterRows_restricts (p : Predicate) : Restricts RetrievalHit.uri (filterRows ctx p) := by
  intro q hits
  simp only [filterRows,List.filter_filter,Bool.and_comm]

theorem sort_restricts (key : SortKey) : Restricts RetrievalHit.uri key.sort := by
  intro q hits
  exact (filter_insertionSort (r := fun a b => key.before a b = true) (fun hit => q hit.uri) hits).symm

theorem above_restricts (hc : s.Clean) (h : s.traverses = false) :
    Restricts RetrievalHit.uri (s.above o hint ctx) := by
  induction s with
  | scan sc lvl lim => exact fun q hits => rfl
  | vectorSearch coll query topK => exact fun q hits => rfl
  | filter input p ih =>
    intro q hits
    simp only [above]
    cases filterSource input p with
    | some found => exact filterRows_restricts found.2 q hits
    | none => rw [ih hc.2 h q hits,filterRows_restricts p q]
  | sort input key desc ih =>
    intro q hits
    simp only [above,sortRows_of_clean hc.1]
    rw [ih hc.2 h q hits,sort_restricts key q]
  | traverse input edges maxHops ih => simp [traverses] at h

theorem kept_iff (hc : s.Clean) (h : s.traverses = false)
    (hp : within RetrievalHit.uri narrow wide = narrow) (m : Option ℕ) :
    upTo m (s.above o hint ctx narrow) = upTo m (s.above o hint ctx wide) ↔ s.Kept o hint ctx narrow wide m :=
  (above_restricts hc h).upTo_eq_iff hp m

theorem traverseFrom_begins (edges : List GraphRelation) (maxHops : ℕ) (seeds : List RetrievalHit) :
    seeds <+: traverseFrom ctx edges maxHops seeds := by
  simp only [traverseFrom]
  split
  · exact List.prefix_refl _
  · split
    · exact List.prefix_append _ _
    · exact List.prefix_refl _

theorem Covered.upTo_eq (hc : s.Clean) (hp : within RetrievalHit.uri narrow wide = narrow)
    {m : Option ℕ} (h : s.Covered o hint ctx narrow wide m) :
    upTo m (s.above o hint ctx narrow) = upTo m (s.above o hint ctx wide) := by
  induction s generalizing m with
  | scan sc lvl lim => exact (kept_iff hc rfl hp m).mpr h
  | vectorSearch coll query topK => exact (kept_iff hc rfl hp m).mpr h
  | filter input p ih =>
    cases ht : input.traverses with
    | false =>
      have hf : (Stack.filter input p).traverses = false := ht
      exact (kept_iff hc hf hp m).mpr ((covered_of_not_traverses hf m).mp h)
    | true =>
      simp only [Covered,ht,if_true] at h
      have hn : filterSource input p = none := by cases input <;> first | rfl | simp [traverses] at ht
      have hb : input.above o hint ctx narrow = input.above o hint ctx wide := ih hc.2 h
      simp only [above,hn,hb]
  | sort input key desc ih =>
    cases ht : input.traverses with
    | false =>
      have hf : (Stack.sort input key desc).traverses = false := ht
      exact (kept_iff hc hf hp m).mpr ((covered_of_not_traverses hf m).mp h)
    | true =>
      simp only [Covered,ht,if_true] at h
      have hb : input.above o hint ctx narrow = input.above o hint ctx wide := ih hc.2 h
      simp only [above,hb]
  | traverse input edges maxHops ih => exact upTo_congr_of_prefix (traverseFrom_begins edges _) (ih hc h)

def isSeed (hit : RetrievalHit) : Bool := hit.parentChain.isEmpty

theorem graphHits_not_isSeed (seen : List ContextUri) (edges : List (ContextUri × ContextUri × GraphRelation)) :
    ∀ hit ∈ graphHits ctx seen edges, isSeed hit = false := by
  induction edges generalizing seen with
  | nil => simp [graphHits]
  | cons edge edges ih =>
    simp only [graphHits]
    split
    · exact ih seen
    · intro hit hm
      rcases List.mem_cons.mp hm with rfl | hm
      · simp [isSeed,graphHit]
      · exact ih _ hit hm

theorem takeWhile_isSeed_traverseFrom (edges : List GraphRelation) (maxHops : ℕ) (seeds : List RetrievalHit) :
    (traverseFrom ctx edges maxHops seeds).takeWhile isSeed = seeds.takeWhile isSeed := by
  simp only [traverseFrom]
  split
  · rfl
  · split
    · rename_i graph _ found _
      have hr : (graphHits ctx (seeds.map RetrievalHit.uri) found).takeWhile isSeed = [] := by
        cases hg : graphHits ctx (seeds.map RetrievalHit.uri) found with
        | nil => rfl
        | cons hit hits =>
          have hm : hit ∈ graphHits ctx (seeds.map RetrievalHit.uri) found := by simp [hg]
          simp [graphHits_not_isSeed _ found hit hm]
      rw [List.takeWhile_append,hr,List.append_nil]
      split
      · rename_i ha
        exact ((List.takeWhile_prefix isSeed).eq_of_length ha).symm
      · rfl
    · rfl

theorem mem_of_mem_above (h : s.traverses = false) {hit : RetrievalHit}
    (hm : hit ∈ s.above o hint ctx hits) : hit ∈ hits := by
  induction s with
  | scan sc lvl lim => exact hm
  | vectorSearch coll query topK => exact hm
  | filter input p ih =>
    simp only [above] at hm
    split at hm
    · exact List.mem_of_mem_filter hm
    · exact ih h (List.mem_of_mem_filter hm)
  | sort input key desc ih =>
    cases desc with
    | true => exact ih h ((List.mem_insertionSort _).mp hm)
    | false => exact ih h ((List.mem_insertionSort _).mp hm)
  | traverse input edges maxHops ih => simp [traverses] at h

theorem takeWhile_isSeed_above (h : s.TraversesLast) (hu : Unreached hits) :
    (s.above o hint ctx hits).takeWhile isSeed = s.base.above o hint ctx hits := by
  have hf : ∀ {s : Stack}, s.traverses = false →
      (s.above o hint ctx hits).takeWhile isSeed = s.above o hint ctx hits := by
    intro s hs
    have ha : ∀ hit ∈ s.above o hint ctx hits, isSeed hit = true := by
      intro hit hm
      simp [isSeed,hu hit (mem_of_mem_above hs hm)]
    have hp : (s.above o hint ctx hits++[]).takeWhile isSeed = s.above o hint ctx hits ++ [].takeWhile isSeed :=
      List.takeWhile_append_of_pos ha
    simpa using hp
  induction s with
  | traverse input edges maxHops ih => exact (takeWhile_isSeed_traverseFrom edges _ _).trans (ih h)
  | _ => exact hf h

theorem covered_of_upTo_eq (hc : s.Clean) (hl : s.TraversesLast)
    (hp : within RetrievalHit.uri narrow wide = narrow) (hn : Unreached narrow) (hw : Unreached wide) {n : ℕ}
    (h : upTo (some n) (s.above o hint ctx narrow) = upTo (some n) (s.above o hint ctx wide)) :
    s.Covered o hint ctx narrow wide (some n) := by
  have hs : ∀ {hits : List RetrievalHit}, Unreached hits →
      (upTo (some n) (s.above o hint ctx hits)).takeWhile isSeed = upTo (some n) (s.base.above o hint ctx hits) := by
    intro hits hu
    simp only [upTo]
    rw [← List.take_takeWhile,takeWhile_isSeed_above hl hu]
  have hb : upTo (some n) (s.base.above o hint ctx narrow) = upTo (some n) (s.base.above o hint ctx wide) := by
    rw [← hs hn,← hs hw,h]
  exact (covered_base hl _).mpr ((kept_iff hc.base hl.base hp _).mp hb)

theorem above_of_isBare (h : s.isBare = true) (hits : List RetrievalHit) : s.above o hint ctx hits = hits := by
  cases s with
  | scan sc lvl lim => rfl
  | vectorSearch coll query topK => rfl
  | filter input p =>
    simp only [isBare] at h
    simp only [above]
    cases hf : filterSource input p with
    | none => simp [hf] at h
    | some found => exact filterRows_of_isEmpty (by simpa [hf] using h) hits
  | sort input key desc => simp [isBare] at h
  | traverse input edges maxHops => simp [isBare] at h

end Covered

/-- When `Limit n` over the stack gives its first `n` rows. Over a bare source, which alone carries the limit, the
page it fetches must have as many rows as are wanted. Elsewhere the cut at the source, which is made before the
rows are filtered and sorted, must not lose any of the first `n` rows. -/
def LimitKept (d : Contents) (ctx : ExecContext) (o : CboOptimizer) (hint : Option IntentPlannerHint) (n : ℕ) (s : Stack) :
    Prop :=
  let src := s.source o hint
  s.Clean ∧
    if s.isBare then (src.fetched o d ctx n).length = min (src.wanted d ctx).length n
    else n = 0 ∨ s.Covered o hint ctx (src.narrow o d ctx n) (src.wide o d ctx n) (some n)

/-- `Limit n` gives the first `n` rows of the stack where the cut is harmless, and only there unless a filter or a
sort stands over a traversal. -/
theorem limit_takes_first {o : CboOptimizer} {hint : Option IntentPlannerHint} {d : Contents} {ctx : ExecContext}
    (hd : d.Backs ctx) (s : Stack) (n outer : ℕ) {hits : List RetrievalHit}
    (hrun : (o.optimizeWithBudget hint (.limit s.plan n) outer).execute ctx = .ok hits) :
    (s.LimitKept d ctx o hint n → hits = (s.rows d ctx o hint).take n) ∧
      (s.Clean → s.TraversesLast → hits = (s.rows d ctx o hint).take n → s.LimitKept d ctx o hint n) := by
  have hp := Source.narrow_within_wide (o := o) hd (s.source o hint) n
  let first := fun rows => upTo (some n) (s.above o hint ctx rows)
  have ht : first ((s.source o hint).fetched o d ctx n) = first ((s.source o hint).wanted d ctx) ↔
      first ((s.source o hint).narrow o d ctx n) = first ((s.source o hint).wide o d ctx n) :=
    Source.fetched_eq_iff _ n first
  constructor
  · intro hk
    have hg := execute_limit hd hk.1 hrun
    cases hb : s.isBare with
    | true =>
      have hl : ((s.source o hint).fetched o d ctx n).length = min ((s.source o hint).wanted d ctx).length n := by
        simpa [hb] using hk.2
      rw [hg, hb, rows, above_of_isBare hb, above_of_isBare hb]
      exact (Source.fetched_eq_take_iff hd _ n).mpr hl
    | false =>
      have ha : n = 0 ∨ s.Covered o hint ctx ((s.source o hint).narrow o d ctx n) ((s.source o hint).wide o d ctx n)
          (some n) := by simpa [hb] using hk.2
      rw [hg, hb]
      rcases ha with rfl | ho
      · simp [upTo]
      · exact ht.mpr (ho.upTo_eq hk.1 hp)
  · intro hc hs hf
    have hg := execute_limit hd hc hrun
    refine ⟨hc, ?_⟩
    cases hb : s.isBare with
    | true =>
      rw [hg, hb, rows, above_of_isBare hb, above_of_isBare hb] at hf
      simpa using (Source.fetched_eq_take_iff hd _ n).mp hf
    | false =>
      rw [hg, hb] at hf
      have hu : Unreached ((s.source o hint).wanted d ctx) ∧ Unreached ((s.source o hint).fetched o d ctx n) :=
        Source.unreached _ n
      have hn : Unreached ((s.source o hint).narrow o d ctx n) := by
        simp only [Source.narrow]
        split
        · exact hu.1
        · exact hu.2
      have hw : Unreached ((s.source o hint).wide o d ctx n) := by
        simp only [Source.wide]
        split
        · exact hu.2
        · exact hu.1
      exact Or.inr (covered_of_upTo_eq hc hs hp hn hw (ht.mp hf))

def ratedEntry (name : String) (quality : ℚ) : ContextEntry :=
  let e := ContextEntry.newText ⟨"t", ["t", "m", name], none, "uwu://t/m/" ++ name⟩ 0 name 0
  { e with metadata := { e.metadata with qualityScore := some quality } }

def ratedEntries : List ContextEntry := [ratedEntry "a" (1 / 2), ratedEntry "b" (9 / 10)]

def ratedContext : ExecContext := listContext ratedEntries none

def plainOptimizer : CboOptimizer := ⟨.standard, fun _ => none, fun _ => none, fun m k => (m * k).ceil.toNat⟩

/-- `FIND` of the entries above a quality, the best first. -/
def bestQuery (budget : ℕ) : Query :=
  .find (some ⟨"t", ["t", "m"], none, "uwu://t/m"⟩) ⟨[.qualityAbove (1 / 10)]⟩ budget .quality none

def bestStack (budget : ℕ) : Stack :=
  .sort (.filter (.scan (some ⟨"t", ["t", "m"], none, "uwu://t/m"⟩) .l0 (some (clamp (saturatingMul budget 4) 1 4096)))
    ⟨[.qualityAbove (1 / 10)]⟩) .quality true

/-- The two best of two are found: the scan is handed a limit of two. -/
theorem limit_takes_first_sample : ∃ hits, (plainOptimizer.optimize (queryToLogical (bestQuery 2))).execute ratedContext =
    .ok hits ∧ hits = ((bestStack 2).rows (listContents ratedEntries) ratedContext plainOptimizer none).take 2 := by
  have hr : ((plainOptimizer.optimize (queryToLogical (bestQuery 2))).execute ratedContext).toOption.isSome := by
    decide +kernel
  have hn : (ratedEntries.map ContextEntry.uri).Nodup := by decide
  cases h : (plainOptimizer.optimize (queryToLogical (bestQuery 2))).execute ratedContext with
  | error e => simp [h, Except.toOption] at hr
  | ok hits =>
    refine ⟨hits, rfl, (limit_takes_first (listContents_backs none hn) (bestStack 2) 2 usizeMax h).1 ?_⟩
    refine ⟨by simp [bestStack, Clean, predicateTypeOnly], Or.inr ?_⟩
    show ∀ hit ∈ _, _
    decide +kernel

/-- The best of two is lost: the scan below the sort is handed the limit of one. -/
theorem limit_loses_best : ∃ hits, (plainOptimizer.optimize (queryToLogical (bestQuery 1))).execute ratedContext =
    .ok hits ∧ queryToLogical (bestQuery 1) = .limit (bestStack 1).plan 1 ∧
      hits ≠ ((bestStack 1).rows (listContents ratedEntries) ratedContext plainOptimizer none).take 1 := by
  have hr : ((plainOptimizer.optimize (queryToLogical (bestQuery 1))).execute ratedContext).map
      (fun hits => hits.map (fun hit => hit.uri.canonical)) = .ok ["uwu://t/m/a"] := by decide +kernel
  have hw : (((bestStack 1).rows (listContents ratedEntries) ratedContext plainOptimizer none).take 1).map
      (fun hit => hit.uri.canonical) = ["uwu://t/m/b"] := by decide +kernel
  obtain ⟨hits, hh, hn⟩ := map_eq_ok.mp hr
  refine ⟨hits, hh, rfl, fun he => ?_⟩
  rw [he, hw] at hn
  exact absurd hn (by decide)

end Stack

end UwuContextDb.Retrieve
