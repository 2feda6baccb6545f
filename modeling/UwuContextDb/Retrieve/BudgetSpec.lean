import UwuContextDb.Retrieve.Budget

/-! The dynamic program of `select_choices` against the knapsack it solves. -/

namespace UwuContextDb.Retrieve

open MultiChoice StateMachine

variable {V : Type} [AddCommGroup V] [LinearOrder V]

section Relax

variable {bud used : ℕ} {score : V} {scores : ℕ → V} {choices : List (Choice V)} {t : Layer V} {c : Choice V × ℕ}

theorem relax_next_le (t : Layer V) (c : Choice V × ℕ) (b : ℕ) : t.next b ≤ (relax bud used score t c).next b := by
  simp only [relax]
  split
  · exact le_refl _
  · split
    · rename_i hl
      by_cases hb : b = used + c.1.cost
      · subst hb
        simpa using le_of_lt hl
      · simp [hb]
    · exact le_refl _

theorem relax_covers (t : Layer V) (hp : 0 < c.1.cost) (hf : used+c.1.cost ≤ bud) :
    score + c.1.value ≤ (relax bud used score t c).next (used+c.1.cost) := by
  have hg : ¬ (c.1.cost = 0 ∨ bud < used+c.1.cost) := by omega
  simp only [relax,hg,if_false]
  split
  · simp
  · rename_i hl
    exact not_lt.mp hl

def Explained (budget : ℕ) (scores : ℕ → V) (choices : List (Choice V)) (t : Layer V) (b : ℕ) : Prop :=
  match t.layer b with
  | .carry => t.next b = scores b
  | .choice previousBudget index => ∃ c, choices[index]? = some c ∧ previousBudget + c.cost = b ∧ b ≤ budget ∧
      t.next b = scores previousBudget + c.value

theorem relax_explained (hc : choices[c.2]? = some c.1) (h : ∀ b, Explained bud scores choices t b) (b : ℕ) :
    Explained bud scores choices (relax bud used (scores used) t c) b := by
  simp only [relax]
  split
  · exact h b
  · rename_i hg
    split
    · by_cases hb : b = used + c.1.cost
      · subst hb
        have hf : used + c.1.cost ≤ bud := by omega
        simpa [Explained] using ⟨c.1,hc,rfl,hf,rfl⟩
      · simpa [Explained,hb] using h b
    · exact h b

theorem relaxHit_explained (bud : ℕ) (scores : ℕ → V) (choices : List (Choice V)) (b : ℕ) :
    Explained bud scores choices (relaxHit bud scores choices) b := by
  have hi : ∀ (t : Layer V) (used : ℕ), (∀ b, Explained bud scores choices t b) →
      ∀ b, Explained bud scores choices (run (relax bud used (scores used)) t choices.zipIdx) b := by
    intro t used ht
    have ha : ∀ c ∈ choices.zipIdx, choices[c.2]? = some c.1 := fun c hc => List.mk_mem_zipIdx_iff_getElem?.mp hc
    generalize choices.zipIdx = cs at ha
    induction cs generalizing t with
    | nil => exact ht
    | cons c cs ih =>
      exact ih _ (relax_explained (ha c (by simp)) ht) (fun c hc => ha c (List.mem_cons_of_mem _ hc))
  have hs : ∀ b, Explained bud scores choices ⟨scores,fun _ => .carry⟩ b := fun b => rfl
  exact run_preserves hi hs (List.range (bud+1)) b

theorem run_relax_le (used : ℕ) (score : V) (cs : List (Choice V × ℕ)) (t : Layer V) (b : ℕ) :
    t.next b ≤ (run (relax bud used score) t cs).next b := by
  induction cs generalizing t with
  | nil => exact le_refl _
  | cons c cs ih => exact (relax_next_le t c b).trans (ih _)

theorem relaxHit_carries (bud : ℕ) (scores : ℕ → V) (choices : List (Choice V)) (b : ℕ) :
    scores b ≤ (relaxHit bud scores choices).next b := by
  have hs : ∀ (t : Layer V) (used : ℕ), scores b ≤ t.next b →
      scores b ≤ (run (relax bud used (scores used)) t choices.zipIdx).next b :=
    fun t used ht => ht.trans (run_relax_le used (scores used) choices.zipIdx t b)
  exact run_preserves hs (le_refl (scores b)) (List.range (bud+1))

theorem relaxHit_covers {c : Choice V} (hc : c ∈ choices) (hp : 0 < c.cost) (hf : used+c.cost ≤ bud) :
    scores used + c.value ≤ (relaxHit bud scores choices).next (used+c.cost) := by
  -- established at the turn of `used`, and kept from then on
  let P : ℕ → Layer V → Prop := fun u t => u = used → scores used + c.value ≤ t.next (used+c.cost)
  have hs : ∀ (t : Layer V), ∀ u ∈ List.range (bud+1), P u (run (relax bud u (scores u)) t choices.zipIdx) := by
    rintro t u - rfl
    obtain ⟨index,hi⟩ := List.mem_iff_getElem?.mp hc
    have hm : (c, index) ∈ choices.zipIdx := List.mk_mem_zipIdx_iff_getElem?.mpr hi
    let Q : Choice V × ℕ → Layer V → Prop := fun e t =>
      e = (c, index) → scores u + c.value ≤ t.next (u+c.cost)
    have ht : ∀ (t : Layer V), ∀ e ∈ choices.zipIdx, Q e (relax bud u (scores u) t e) := by
      rintro t e - rfl
      exact @relax_covers V _ _ bud u (scores u) (c, index) t hp hf
    have hk : ∀ (t : Layer V) (e e' : Choice V × ℕ), Q e t → Q e (relax bud u (scores u) t e') :=
      fun t e e' h he => (h he).trans (relax_next_le t e' _)
    exact run_establishes ht hk t (c, index) hm rfl
  have hkp : ∀ (t : Layer V) (u u' : ℕ), P u t → P u (run (relax bud u' (scores u')) t choices.zipIdx) :=
    fun t u u' h hu => (h hu).trans (run_relax_le u' (scores u') choices.zipIdx t _)
  exact run_establishes hs hkp _ used (List.mem_range.mpr (by omega)) rfl

end Relax

omit [AddCommGroup V] [LinearOrder V] in
theorem traceBack_append (preds : List (List (Choice V) × (ℕ → Predecessor))) (b : ℕ) (sel : List (Choice V)) :
    traceBack preds b sel = traceBack preds b [] ++ sel := by
  induction preds generalizing b sel with
  | nil => rfl
  | cons p earlier ih =>
    obtain ⟨choices, layer⟩ := p
    simp only [traceBack]
    cases layer b with
    | carry => exact ih b sel
    | choice previousBudget index =>
      simp only
      rw [ih previousBudget (_ ++ sel), ih previousBudget (_ ++ []), List.append_assoc, List.append_nil]

/-- The walk from every budget finds a selection within it whose value is the score, and none is worth more. -/
def Solved (budget : ℕ) (hits : List (List (Choice V))) (t : Table V) : Prop :=
  ∀ b ≤ budget, Picks hits (traceBack t.predecessors b []) ∧
    totalCost Choice.cost (traceBack t.predecessors b []) ≤ b ∧
    totalValue Choice.value (traceBack t.predecessors b []) = t.scores b ∧
    Bounded Choice.cost Choice.value hits b (t.scores b)

variable {hits : List (List (Choice V))}

theorem Solved.push [IsOrderedAddMonoid V] {bud : ℕ} {t : Table V}
    {choices : List (Choice V)} (h : Solved bud hits t) (hpo : ∀ c ∈ choices, 0 < c.cost) :
    Solved bud (hits++[choices]) (t.push bud choices) := by
  intro b hb
  have ho : Bounded Choice.cost Choice.value (hits++[choices]) b ((t.push bud choices).scores b) := by
    refine Bounded.concat (fun u hu => (h u (hu.trans hb)).2.2.2) (relaxHit_carries bud t.scores choices b) ?_
    intro c hc hf
    have hco := @relaxHit_covers V _ _ bud (b - c.cost) t.scores choices c hc (hpo c hc) (by omega)
    rwa [Nat.sub_add_cancel hf] at hco
  have hw := relaxHit_explained bud t.scores choices b
  simp only [Table.push,traceBack]
  cases hl : (relaxHit bud t.scores choices).layer b with
  | carry =>
    have hn : (relaxHit bud t.scores choices).next b = t.scores b := by simpa [Explained,hl] using hw
    obtain ⟨hp,hs,hv,-⟩ := h b hb
    exact ⟨hp.concat_skip,hs,hv.trans hn.symm,ho⟩
  | choice previousBudget index =>
    simp only [Explained,hl] at hw
    obtain ⟨c,hc,hsu,-,hn⟩ := hw
    have hm : c ∈ choices := List.mem_of_getElem? hc
    obtain ⟨hp,hs,hv,-⟩ := h previousBudget (by omega)
    simp only [hc,Option.toList_some,List.append_nil]
    rw [traceBack_append]
    refine ⟨hp.concat_pick hm,?_,?_,ho⟩
    · rw [totalCost_concat]
      omega
    · rw [totalValue_concat,hv,hn]

theorem solved_fillTable [IsOrderedAddMonoid V] (bud : ℕ)
    (hp : ∀ choices ∈ hits, ∀ c ∈ choices, 0 < c.cost) : Solved bud hits (fillTable bud hits) := by
  have hf : ∀ (rest done : List (List (Choice V))) (t : Table V), (∀ choices ∈ rest, ∀ c ∈ choices, 0 < c.cost) →
      Solved bud done t → Solved bud (done++rest) (run (Table.push bud) t rest) := by
    intro rest
    induction rest with
    | nil =>
      intro done t _ ht
      simpa using ht
    | cons choices rest ih =>
      intro done t hp ht
      have hn := ih (done++[choices]) _ (fun cs hc => hp cs (List.mem_cons_of_mem _ hc))
        (ht.push (hp choices (by simp)))
      simpa using hn
  have hs : Solved bud [] (⟨fun _ => (0 : V),[]⟩ : Table V) :=
    fun b _ => ⟨.none,Nat.zero_le b,rfl,bounded_nil b⟩
  exact hf hits [] _ hp hs

omit [AddCommGroup V] in
theorem bestBudget_spec (scores : ℕ → V) (bud : ℕ) :
    bestBudget scores bud ≤ bud ∧ ∀ b ≤ bud, scores b ≤ scores (bestBudget scores bud) := by
  have hr : ∀ n, bestBudget scores n ≤ n ∧ ∀ b ≤ n, scores b ≤ scores (bestBudget scores n) := by
    intro n
    induction n with
    | zero =>
      have hz : bestBudget scores 0 = 0 := by simp [bestBudget, run]
      rw [hz]
      refine ⟨le_refl 0, fun b hb => ?_⟩
      rw [Nat.le_zero.mp hb]
    | succ n ih =>
      have hs : bestBudget scores (n + 1) =
          if scores (n + 1) < scores (bestBudget scores n) then bestBudget scores n else n + 1 := by
        rw [bestBudget, List.range_succ, run_append]
        rfl
      rw [hs]
      split
      · rename_i ht
        refine ⟨by omega, fun b hb => ?_⟩
        rcases Nat.lt_or_ge n b with hg | hl
        · obtain rfl : b = n + 1 := by omega
          exact le_of_lt ht
        · exact ih.2 b hl
      · rename_i he
        refine ⟨le_refl _, fun b hb => ?_⟩
        rcases Nat.lt_or_ge n b with hg | hl
        · obtain rfl : b = n + 1 := by omega
          exact le_refl _
        · exact (ih.2 b hl).trans (not_lt.mp he)
  exact hr bud

theorem selectChoices_optimal [IsOrderedAddMonoid V] (budget : ℕ)
    (ho : ∀ choices ∈ hits, ∀ c ∈ choices, 0 < c.cost) :
    Optimal Choice.cost Choice.value hits budget (selectChoices hits budget) := by
  obtain ⟨hl,hm⟩ := bestBudget_spec (fillTable budget hits).scores budget
  obtain ⟨hp,hc,hv,-⟩ := solved_fillTable budget ho _ hl
  refine ⟨hp,hc.trans hl,?_⟩
  intro sel hs hw
  calc totalValue Choice.value sel ≤ (fillTable budget hits).scores budget :=
        (solved_fillTable budget ho budget (le_refl _)).2.2.2 sel hs hw
    _ ≤ (fillTable budget hits).scores (bestBudget (fillTable budget hits).scores budget) := hm budget (le_refl _)
    _ = totalValue Choice.value (selectChoices hits budget) := hv.symm

section FullPaths

variable {bud used : ℕ} {score : V} {choices : List (Choice V)}

/-- The two programs side by side on one hit: the paths are what the predecessors lead back to. -/
def SameLayer (paths : ℕ → List (Choice V)) (choices : List (Choice V)) (t : Layer V) (p : PathTable V) : Prop :=
  t.next = p.scores ∧ ∀ b, p.paths b = match t.layer b with
    | .carry => paths b
    | .choice previousBudget index => paths previousBudget ++ (choices[index]?).toList

theorem SameLayer.relax {paths : ℕ → List (Choice V)} {t : Layer V} {p : PathTable V} {c : Choice V} {index : ℕ}
    (h : SameLayer paths choices t p) (hc : choices[index]? = some c) :
    SameLayer paths choices (relax bud used score t (c, index)) (relaxPath bud used score paths p c) := by
  obtain ⟨hn,hp⟩ := h
  simp only [Retrieve.relax,relaxPath,hn]
  split
  · exact ⟨hn,hp⟩
  · split
    · refine ⟨rfl,fun b => ?_⟩
      by_cases hb : b = used + c.cost
      · subst hb
        simp [hc]
      · simpa [hb] using hp b
    · exact ⟨hn,hp⟩

def SameTable (t : Table V) (p : PathTable V) : Prop :=
  t.scores = p.scores ∧ ∀ b, p.paths b = traceBack t.predecessors b []

theorem SameTable.push {t : Table V} {p : PathTable V} (h : SameTable t p) (choices : List (Choice V)) :
    SameTable (t.push bud choices) (p.push bud choices) := by
  obtain ⟨ho,hp⟩ := h
  have hl : SameLayer p.paths choices (relaxHit bud t.scores choices) (p.push bud choices) := by
    have ha : ∀ used ∈ List.range (bud+1), ∀ (s : Layer V) (q : PathTable V), SameLayer p.paths choices s q →
        SameLayer p.paths choices (run (Retrieve.relax bud used (t.scores used)) s choices.zipIdx)
          (run (relaxPath bud used (p.scores used) p.paths) q choices) := by
      intro used _ s q hs
      have hf : choices = choices.zipIdx.map Prod.fst := (List.zipIdx_map_fst 0 choices).symm
      rw [ho]
      conv in (run (relaxPath _ _ _ _) _ _) => rw [hf]
      simp only [run,List.foldl_map]
      exact List.foldl_rel hs (fun c hc s q hs => hs.relax (List.mk_mem_zipIdx_iff_getElem?.mp hc))
    have ht : SameLayer p.paths choices ⟨t.scores,fun _ => .carry⟩ p := ⟨ho,fun _ => rfl⟩
    exact List.foldl_rel ht (fun used hu s q hs => ha used hu s q hs)
  refine ⟨hl.1,fun b => ?_⟩
  rw [hl.2 b]
  simp only [Table.push,traceBack]
  cases (relaxHit bud t.scores choices).layer b with
  | carry => exact hp b
  | choice previousBudget index =>
    simp only [List.append_nil]
    rw [hp,← traceBack_append]

theorem selectChoices_eq_fullPaths (hits : List (List (Choice V))) (budget : ℕ) :
    selectChoices hits budget = selectChoicesWithFullPaths hits budget := by
  have ht : SameTable (⟨fun _ => (0 : V),[]⟩ : Table V) ⟨fun _ => 0,fun _ => []⟩ := ⟨rfl,fun _ => rfl⟩
  have hs : SameTable (fillTable budget hits) (run (PathTable.push budget) ⟨fun _ => 0,fun _ => []⟩ hits) :=
    List.foldl_rel ht (fun choices _ t p h => h.push choices)
  simp only [selectChoices,selectChoicesWithFullPaths]
  rw [hs.1,hs.2]

end FullPaths

section Load

variable {pricing : Pricing V} {cfg : TokenBudgetConfig} {hit : RetrievalHit} {bud idx cost : ℕ}

/-- `TokenBudgetConfig::validate` refuses a zero floor. -/
def TokenBudgetConfig.Valid (config : TokenBudgetConfig) : Prop :=
  0 < config.l0Floor ∧ 0 < config.l1Floor ∧ 0 < config.l2Floor

variable {lvl : ContentLevel} {payload : ContentPayload} {choices : List (Choice V)}
  {choicesByHit : List (List (Choice V))}

theorem selectChoices_eq_nil [IsOrderedAddMonoid V]
    (ho : ∀ choices ∈ choicesByHit, ∀ c ∈ choices, 0 < c.cost) (h : bud = 0 ∨ choicesByHit = []) :
    selectChoices choicesByHit bud = [] := by
  obtain ⟨hp,hw,-⟩ := selectChoices_optimal bud ho
  rcases h with rfl | rfl
  · generalize selectChoices choicesByHit 0 = sel at hp hw
    induction hp with
    | none => rfl
    | skip h ih => exact ih (fun cs hs => ho cs (List.mem_cons_of_mem _ hs)) hw
    | pick hc h ih =>
      have hco := ho _ (by simp) _ hc
      simp only [totalCost,List.map_cons,List.sum_cons] at hw
      omega
  · generalize selectChoices ([] : List (List (Choice V))) bud = sel at hp
    cases hp
    rfl

theorem loadHitsWithinBudget_selects [IsOrderedAddMonoid V] {hits : List RetrievalHit}
    (hp : ∀ choices ∈ choicesByHit, ∀ c ∈ choices, 0 < c.cost)
    (h : choicesForHits pricing bud cfg hits = .ok choicesByHit) :
    ∃ plan, loadHitsWithinBudget pricing hits bud cfg = .ok plan ∧
      plan.tokensUsed = totalCost Choice.cost (selectChoices choicesByHit bud) ∧
      plan.hits.Perm ((selectChoices choicesByHit bud).filterMap (loadChoice hits)) := by
  by_cases he : bud = 0 ∨ hits.isEmpty
  · have hn : selectChoices choicesByHit bud = [] := by
      refine selectChoices_eq_nil hp (he.imp_right (fun hh => ?_))
      rw [List.isEmpty_iff.mp hh] at h
      exact (Except.ok.inj h).symm
    exact ⟨⟨[],0⟩,if_pos he,by simp [hn],by simp [hn]⟩
  · refine ⟨_,by simp only [loadHitsWithinBudget,he,if_false,h,Except.map]; rfl,rfl,?_⟩
    exact List.perm_insertionSort _ _

end Load

/-- For all choices that cost something, `select_choices` picks an optimal selection, and the one of the full-path
program. What is loaded for the hits the choices belong to is that selection, at its cost. -/
theorem budgetPacking_optimal [IsOrderedAddMonoid V] (choicesByHit : List (List (Choice V))) (budget : ℕ)
    (hpos : ∀ choices ∈ choicesByHit, ∀ c ∈ choices, 0 < c.cost) :
    Optimal Choice.cost Choice.value choicesByHit budget (selectChoices choicesByHit budget) ∧
    selectChoices choicesByHit budget = selectChoicesWithFullPaths choicesByHit budget ∧
    ∀ (pricing : Pricing V) (hits : List RetrievalHit) (config : TokenBudgetConfig),
      choicesForHits pricing budget config hits = .ok choicesByHit →
      ∃ plan, loadHitsWithinBudget pricing hits budget config = .ok plan ∧
        plan.tokensUsed = totalCost Choice.cost (selectChoices choicesByHit budget) ∧
        plan.hits.Perm ((selectChoices choicesByHit budget).filterMap (loadChoice hits)) :=
  ⟨selectChoices_optimal budget hpos, selectChoices_eq_fullPaths choicesByHit budget,
    fun _ _ _ h => loadHitsWithinBudget_selects hpos h⟩

def sampleChoice (hitIndex cost : ℕ) (value : ℚ) : Choice ℚ := ⟨hitIndex, .l0, cost, value, .text "" "" ""⟩

def sampleChoices : List (List (Choice ℚ)) := [[sampleChoice 0 2 3, sampleChoice 0 4 4], [sampleChoice 1 3 2]]

theorem budgetPacking_optimal_sample :
    Optimal Choice.cost Choice.value sampleChoices 5 (selectChoices sampleChoices 5) ∧
      (selectChoices sampleChoices 5).map (fun c => (c.hitIndex, c.cost)) = [(0, 2), (1, 3)] :=
  ⟨(budgetPacking_optimal sampleChoices 5 (by decide)).1, by decide +kernel⟩

end UwuContextDb.Retrieve
