import Mathlib.Data.List.Sort
import Mathlib.Data.Prod.Lex
import UwuContextDb.Core.WriteSecurity

/-! `budget_prompt`: the sections of a prompt, cut to a number of tokens. -/

namespace UwuContextDb.Consolidation

open WriteSecurity (trimEnd)

structure PromptBudgetConfig where
  maxPromptTokens : ℕ
  minSectionTokens : ℕ

def PromptBudgetConfig.validate (config : PromptBudgetConfig) : Except String Unit :=
  if config.maxPromptTokens = 0 then .error "max_prompt_tokens must be nonzero"
  else if config.maxPromptTokens < config.minSectionTokens then
    .error "min_section_tokens must not exceed max_prompt_tokens"
  else .ok ()

structure PromptSection where
  label : List Char
  content : List Char
  priority : ℕ
  required : Bool

structure BudgetedPrompt where
  text : List Char
  originalTokens : ℕ
  finalTokens : ℕ
  retainedSections : ℕ
  droppedSections : ℕ
  truncationRatio : ℚ

/-- `render`, of labels and contents. -/
def render (sections : List (List Char × List Char)) : List Char :=
  List.intercalate "\n\n".toList (sections.map (fun s => "## ".toList ++ s.1 ++ '\n'::s.2))

section Budget

variable (count : List Char → Except String ℕ)

def tokens (text : List Char) : Except String ℕ := (count text).mapError (fun e => s!"prompt tokenization failed: {e}")

/-- The loop over `low` and `high`: each round leaves fewer boundaries between them. -/
def searchFit (budget : ℕ) (label content : List Char) : ℕ → ℕ → ℕ → Except String ℕ
  | 0, low, _ => return low
  | fuel+1, low, high =>
    if low + 1 < high then do
      let mid := (low + high) / 2
      if (← tokens count (render [(label, content.take mid)])) ≤ budget then searchFit budget label content fuel mid high
      else searchFit budget label content fuel low mid
    else return low

/-- `truncate_to_fit`: the boundaries of the content are its characters and its end. -/
def truncateToFit (content label : List Char) (budget : ℕ) : Except String (List Char) := do
  if budget = 0 then return []
  else if budget < (← tokens count (render [(label, [])])) then return []
  else if (← tokens count (render [(label, content)])) ≤ budget then return content
  else
    let low ← searchFit count budget label content (content.length + 1) 0 (content.length + 1)
    return trimEnd (content.take low)

def PromptSection.sortKey (s : PromptSection × ℕ) : Bool ×ₗ ℕ ×ₗ ℕ := toLex (!s.1.required, toLex (s.1.priority, s.2))

def ordered (sections : List PromptSection) : List PromptSection :=
  (sections.zipIdx.insertionSort (fun a b => PromptSection.sortKey a ≤ PromptSection.sortKey b)).map Prod.fst

def retain (config : PromptBudgetConfig) (retained : List (List Char × List Char)) (s : PromptSection) :
    Except String (List (List Char × List Char)) := do
  let remaining := config.maxPromptTokens - (← tokens count (render retained))
  if remaining < config.minSectionTokens ∧ !s.required then return retained
  else
    let candidate ← truncateToFit count s.content s.label remaining
    return if candidate = [] then retained else retained ++ [(s.label, candidate)]

def fill (config : PromptBudgetConfig) (sections : List PromptSection) : Except String (List (List Char × List Char)) :=
  sections.foldlM (retain count config) []

def budgetPrompt (config : PromptBudgetConfig) (sections : List PromptSection) : Except String BudgetedPrompt := do
  config.validate
  let original := render (sections.map (fun s => (s.label, s.content)))
  let originalTokens ← tokens count original
  if originalTokens ≤ config.maxPromptTokens then
    return ⟨original, originalTokens, originalTokens, sections.length, 0, 0⟩
  else
    let retained ← fill count config (ordered sections)
    let finalTokens ← tokens count (render retained)
    return ⟨render retained, originalTokens, finalTokens, retained.length, sections.length - retained.length,
      1 - finalTokens / max originalTokens 1⟩

end Budget

def CutsOf (retained : List (List Char × List Char)) (sections : List PromptSection) : Prop :=
  ∃ chosen, List.Sublist chosen sections ∧ List.Forall₂ (fun r s => r.1 = s.label ∧ r.2 <+: s.content) retained chosen

inductive Retains (count : List Char → Except String ℕ) (config : PromptBudgetConfig) (sections : List PromptSection) :
    List (List Char × List Char) → Prop
  | whole : Retains count config sections (sections.map (fun s => (s.label, s.content)))
  | cut {kept later : List (List Char × List Char)}
      (required : fill count config ((ordered sections).filter (·.required)) = .ok kept)
      (kept_cuts : CutsOf kept ((ordered sections).filter (·.required)))
      (later_cuts : CutsOf later ((ordered sections).filter (!·.required))) :
      Retains count config sections (kept ++ later)

def WithinBudget (count : List Char → ℕ) : Prop :=
  ∀ config sections, config.validate = .ok () → ∃ prompt retained,
    budgetPrompt (fun text => .ok (count text)) config sections = .ok prompt ∧ prompt.text = render retained ∧
      Retains (fun text => .ok (count text)) config sections retained ∧ count prompt.text ≤ config.maxPromptTokens

/-- The empty line between two sections is not counted, unless as the only token of the second. -/
def JoinsFreely (count : List Char → ℕ) : Prop :=
  count [] ≤ 1 ∧ ∀ first second : List Char × List Char, first.2 ≠ [] → second.2 ≠ [] →
    count (render [first, second]) ≤ count (render [first]) + max 1 (count (render [second]))

section Texts

theorem render_cons (s : List Char × List Char) (sections : List (List Char × List Char)) :
    render (s::sections) = render [s] ++ sections.flatMap (fun s => "\n\n".toList++render [s]) := by
  induction sections generalizing s with
  | nil => simp
  | cons t sections ih =>
    have hs : render (s::t::sections) = render [s] ++ "\n\n".toList ++ render (t::sections) := by
      simp [render,List.intercalate]
    rw [hs,ih]
    simp [List.append_assoc]

theorem render_append (label content rest : List Char) :
    render [(label, content++rest)] = render [(label, content)] ++ rest := by
  simp [render,List.intercalate]

theorem prefix_trimEnd (text : List Char) : trimEnd text <+: text := by
  have h := List.reverse_prefix.mpr (List.dropWhile_suffix (l := text.reverse) Text.isWhitespace)
  rwa [List.reverse_reverse] at h

end Texts

section Counting

variable {count : List Char → ℕ} (hmono : ∀ text rest, count text ≤ count (text ++ rest))

abbrev counting (count : List Char → ℕ) : List Char → Except String ℕ := fun text => .ok (count text)

include hmono in
theorem count_mono {label content content' : List Char} (h : content <+: content') :
    count (render [(label, content)]) ≤ count (render [(label, content')]) := by
  obtain ⟨rest, rfl⟩ := h
  rw [render_append]
  exact hmono _ _

theorem searchFit_fits {budget : ℕ} {label content : List Char} {fuel low high : ℕ}
    (hl : count (render [(label, content.take low)]) ≤ budget) :
    ∃ n, searchFit (counting count) budget label content fuel low high = .ok n ∧
      count (render [(label, content.take n)]) ≤ budget := by
  induction fuel generalizing low high with
  | zero => exact ⟨low,rfl,hl⟩
  | succ fuel ih =>
    by_cases hg : low + 1 < high
    · by_cases hm : count (render [(label, content.take ((low+high) / 2))]) ≤ budget
      · obtain ⟨n,hn,hf⟩ := @ih ((low+high) / 2) high hm
        refine ⟨n,?_,hf⟩
        simpa [searchFit,hg,tokens,Except.mapError,bind,Except.bind,hm] using hn
      · obtain ⟨n,hn,hf⟩ := @ih low ((low+high) / 2) hl
        refine ⟨n,?_,hf⟩
        simpa [searchFit,hg,tokens,Except.mapError,bind,Except.bind,hm] using hn
    · exact ⟨low,by simp [searchFit,hg,pure,Except.pure],hl⟩

include hmono in
/-- What is left of a content fits into the budget; and a content that fits is left whole. -/
theorem truncateToFit_spec (content label : List Char) (budget : ℕ) :
    ∃ text, truncateToFit (counting count) content label budget = .ok text ∧ text <+: content ∧
      (text ≠ [] → 0 < budget ∧ count (render [(label, text)]) ≤ budget) ∧
      (0 < budget → count (render [(label, content)]) ≤ budget → text = content) := by
  by_cases hz : budget = 0
  · exact ⟨[], by simp [truncateToFit, hz, pure, Except.pure], List.nil_prefix, by simp, by omega⟩
  · by_cases hh : budget < count (render [(label, [])])
    · refine ⟨[], by simp [truncateToFit, hz, tokens, Except.mapError, bind, Except.bind, hh, pure, Except.pure],
        List.nil_prefix, by simp, fun _ ha => ?_⟩
      exact absurd (@count_mono _ hmono label _ _ (List.nil_prefix (l := content))) (by omega)
    · by_cases ha : count (render [(label, content)]) ≤ budget
      · exact ⟨content, by simp [truncateToFit, hz, tokens, Except.mapError, bind, Except.bind, hh, ha, pure,
          Except.pure], List.prefix_rfl, fun _ => ⟨by omega, ha⟩, fun _ _ => rfl⟩
      · obtain ⟨n, hn, hf⟩ := @searchFit_fits count budget label content (content.length + 1) 0 (content.length + 1)
          (by simpa using hh)
        refine ⟨trimEnd (content.take n), ?_, (prefix_trimEnd _).trans (List.take_prefix _ _), fun _ => ⟨by omega, ?_⟩,
          fun _ h => absurd h ha⟩
        · simp [truncateToFit, hz, tokens, Except.mapError, bind, Except.bind, hh, ha, pure, Except.pure, hn]
        · exact (count_mono hmono (prefix_trimEnd _)).trans hf

include hmono in
/-- A section that is retained fits into what the ones before it leave, and is retained whole if it can be. -/
theorem retain_spec (config : PromptBudgetConfig) (retained : List (List Char × List Char)) (s : PromptSection) :
    ∃ out, retain (counting count) config retained s = .ok out ∧
      (out = retained ∨ ∃ text, out = retained ++ [(s.label, text)] ∧ text ≠ [] ∧ text <+: s.content ∧
        0 < config.maxPromptTokens - count (render retained) ∧
        count (render [(s.label, text)]) ≤ config.maxPromptTokens - count (render retained)) ∧
      (s.required = true → s.content ≠ [] → 0 < config.maxPromptTokens - count (render retained) →
        count (render [(s.label, s.content)]) ≤ config.maxPromptTokens - count (render retained) →
        out = retained ++ [(s.label, s.content)]) := by
  obtain ⟨text, ht, hp, hf, hw⟩ :=
    truncateToFit_spec hmono s.content s.label (config.maxPromptTokens - count (render retained))
  by_cases hs : config.maxPromptTokens - count (render retained) < config.minSectionTokens ∧ (!s.required) = true
  · refine ⟨retained, ?_, .inl rfl, fun hr => by simp [hr] at hs⟩
    simp [retain, tokens, Except.mapError, bind, Except.bind, pure, Except.pure, hs]
  · refine ⟨if text = [] then retained else retained ++ [(s.label, text)], ?_, ?_, fun _ he ho ha => ?_⟩
    · simp only [retain, tokens, Except.mapError, bind, Except.bind, pure, Except.pure, ht, if_neg hs]
    · by_cases hn : text = []
      · exact .inl (if_pos hn)
      · exact .inr ⟨text, if_neg hn, hn, hp, hf hn⟩
    · rw [hw ho ha, if_neg he]

theorem joins_retained (hn : JoinsFreely count) {retained : List (List Char × List Char)} (he : retained ≠ [])
    (hf : ∀ r ∈ retained, r.2 ≠ []) {s : List Char × List Char} (hs : s.2 ≠ []) :
    count (render (retained++[s])) ≤ count (render retained) + max 1 (count (render [s])) := by
  obtain ⟨r,rest,rfl⟩ := List.exists_cons_of_ne_nil he
  have hj := hn.2 (r.1, r.2++rest.flatMap (fun s => "\n\n".toList++render [s])) s
    (by simp [hf r List.mem_cons_self]) hs
  rw [render_cons,render_append,← render_cons r rest] at hj
  rw [List.cons_append,render_cons,List.flatMap_append,← List.append_assoc,← render_cons]
  exact hj

def Fits (count : List Char → ℕ) (config : PromptBudgetConfig) (retained : List (List Char × List Char)) : Prop :=
  count (render retained) ≤ config.maxPromptTokens ∧ ∀ r ∈ retained, r.2 ≠ []

theorem Fits.append (hj : JoinsFreely count) {cfg : PromptBudgetConfig} {retained : List (List Char × List Char)}
    (h : Fits count cfg retained) {s : List Char × List Char} (hs : s.2 ≠ [])
    (hp : 0 < cfg.maxPromptTokens - count (render retained))
    (hf : count (render [s]) ≤ cfg.maxPromptTokens - count (render retained)) :
    Fits count cfg (retained++[s]) := by
  refine ⟨?_,fun r hr => ?_⟩
  · by_cases hn : retained = []
    · subst hn
      simpa using hf.trans (Nat.sub_le _ _)
    · have hjn := joins_retained hj hn h.2 hs
      have ho : max 1 (count (render [s])) ≤ cfg.maxPromptTokens - count (render retained) := max_le hp hf
      have hl := h.1
      omega
  · rcases List.mem_append.mp hr with hr | hr
    · exact h.2 r hr
    · rw [List.mem_singleton.mp hr]
      exact hs

include hmono in
theorem foldlM_retain (config : PromptBudgetConfig) (sections : List PromptSection)
    (start : List (List Char × List Char)) :
    ∃ later, sections.foldlM (retain (counting count) config) start = .ok (start ++ later) ∧ CutsOf later sections ∧
      (JoinsFreely count → Fits count config start → Fits count config (start ++ later)) := by
  induction sections generalizing start with
  | nil => exact ⟨[], by simp [pure, Except.pure], ⟨[], List.Sublist.refl _, .nil⟩, fun _ h => by simpa using h⟩
  | cons s sections ih =>
    obtain ⟨out, ho, ha, -⟩ := retain_spec hmono config start s
    rcases ha with rfl | ⟨text, rfl, he, hp, hpo, hf⟩
    · obtain ⟨later, hl, ⟨chosen, hs, hc⟩, hk⟩ := ih out
      exact ⟨later, by rw [List.foldlM_cons, ho]; exact hl, ⟨chosen, hs.cons s, hc⟩, hk⟩
    · obtain ⟨later, hl, ⟨chosen, hs, hc⟩, hk⟩ := ih (start ++ [(s.label, text)])
      have hn : start ++ (s.label, text)::later = start ++ [(s.label, text)] ++ later := by simp
      refine ⟨(s.label, text)::later, ?_, ⟨s::chosen, hs.cons_cons s, .cons ⟨rfl, hp⟩ hc⟩, fun hj ht => ?_⟩
      · rw [List.foldlM_cons, ho, hn]
        exact hl
      · rw [hn]
        exact hk hj (ht.append hj he hpo hf)

end Counting

theorem filter_append_filter {α : Type} {p : α → Bool} {l : List α} (h : l.Pairwise (fun a b => p b = true → p a = true)) :
    l = l.filter p ++ l.filter (!p ·) := by
  induction l with
  | nil => rfl
  | cons a l ih =>
    obtain ⟨ha,hl⟩ := List.pairwise_cons.mp h
    cases hp : p a with
    | true => rw [List.filter_cons_of_pos hp,List.filter_cons_of_neg (by simp [hp]),List.cons_append,← ih hl]
    | false =>
      have hn : l.filter p = [] := List.filter_eq_nil_iff.mpr (fun b hb hpb => by simp [ha b hb hpb] at hp)
      have hal : l.filter (!p ·) = l := List.filter_eq_self.mpr (fun b hb => by
        by_contra hpb
        simp [ha b hb (by simpa using hpb)] at hp)
      rw [List.filter_cons_of_neg (by simp [hp]),List.filter_cons_of_pos (by simp [hp]),hn,hal,List.nil_append]

/-- The required sections come first. -/
theorem ordered_eq (sections : List PromptSection) :
    ordered sections = (ordered sections).filter (·.required) ++ (ordered sections).filter (!·.required) := by
  refine filter_append_filter (List.pairwise_map.mpr ?_)
  have hs : (sections.zipIdx.insertionSort
      (fun a b => PromptSection.sortKey a ≤ PromptSection.sortKey b)).Pairwise
      (fun a b => PromptSection.sortKey a ≤ PromptSection.sortKey b) :=
    List.pairwise_insertionSort _ _
  refine hs.imp (fun {a b} hl hb => ?_)
  have hf := (Prod.Lex.le_iff.mp hl)
  simp only [PromptSection.sortKey,ofLex_toLex,hb] at hf
  by_contra ha
  rw [Bool.not_eq_true] at ha
  simp [ha] at hf
  exact absurd hf (by decide)

section Text

variable {count : List Char → ℕ} {config : PromptBudgetConfig} {sections : List PromptSection}

theorem budgetPrompt_whole (hv : config.validate = .ok ())
    (ha : count (render (sections.map (fun s => (s.label, s.content)))) ≤ config.maxPromptTokens) :
    ∃ prompt, budgetPrompt (counting count) config sections = .ok prompt ∧
      prompt.text = render (sections.map (fun s => (s.label, s.content))) := by
  unfold budgetPrompt
  rw [hv]
  simp only [tokens,Except.mapError,bind,Except.bind,pure,Except.pure,if_pos ha]
  exact ⟨_,rfl,rfl⟩

theorem budgetPrompt_cut (hv : config.validate = .ok ())
    (ho : config.maxPromptTokens < count (render (sections.map (fun s => (s.label, s.content)))))
    {retained : List (List Char × List Char)} (hf : fill (counting count) config (ordered sections) = .ok retained) :
    ∃ prompt, budgetPrompt (counting count) config sections = .ok prompt ∧ prompt.text = render retained := by
  unfold budgetPrompt
  rw [hv]
  simp only [tokens,Except.mapError,bind,Except.bind,pure,Except.pure,if_neg (not_le.mpr ho),hf]
  exact ⟨_,rfl,rfl⟩

end Text

theorem withinBudget_of_joins {count : List Char → ℕ} (hmono : ∀ text rest, count text ≤ count (text++rest))
    (hj : JoinsFreely count) : WithinBudget count := by
  intro config sections hv
  have ho : 1 ≤ config.maxPromptTokens := by
    by_contra hz
    simp [PromptBudgetConfig.validate,Nat.lt_one_iff.mp (not_le.mp hz)] at hv
  by_cases ha : count (render (sections.map (fun s => (s.label, s.content)))) ≤ config.maxPromptTokens
  · obtain ⟨prompt,hp,ht⟩ := budgetPrompt_whole hv ha
    exact ⟨prompt,_,hp,ht, .whole,ht ▸ ha⟩
  · obtain ⟨kept,he,hkept_cuts,hk⟩ :=
      foldlM_retain hmono config ((ordered sections).filter (·.required)) []
    obtain ⟨later,hl,hlater_cuts,hk'⟩ := foldlM_retain hmono config ((ordered sections).filter (!·.required)) kept
    have hf : fill (counting count) config (ordered sections) = .ok (kept++later) := by
      rw [fill,ordered_eq,List.foldlM_append,he]
      exact hl
    have hi : Fits count config (kept++later) := hk' hj (hk hj ⟨hj.1.trans ho,by simp⟩)
    obtain ⟨prompt,hp,ht⟩ := budgetPrompt_cut hv (not_le.mp ha) hf
    exact ⟨prompt,_,hp,ht, .cut he hkept_cuts hlater_cuts,ht ▸ hi.1⟩

/-- Two sections that fill the budget one by one are both retained. -/
theorem budgetPrompt_pair {count : List Char → ℕ} (hmono : ∀ text rest, count text ≤ count (text++rest))
    {first second : List Char × List Char} (hf : first.2 ≠ []) (hs : second.2 ≠ []) {bud : ℕ}
    (hb : bud = count (render [first])+max 1 (count (render [second])))
    (ho : bud < count (render [first,second])) :
    ∃ prompt, budgetPrompt (counting count) ⟨bud,0⟩ [⟨first.1,first.2,0,true⟩,⟨second.1,second.2,0,true⟩] =
      .ok prompt ∧ prompt.text = render [first,second] := by
  have he := hmono [] (render [first])
  have he' := hmono [] (render [second])
  rw [List.nil_append] at he he'
  have hd : ordered [⟨first.1,first.2,0,true⟩,⟨second.1,second.2,0,true⟩] =
      [⟨first.1,first.2,0,true⟩,⟨second.1,second.2,0,true⟩] := by
    have hl : PromptSection.sortKey (⟨first.1,first.2,0,true⟩, 0) ≤
        PromptSection.sortKey (⟨second.1,second.2,0,true⟩, 1) :=
      show (toLex (false, toLex (0, 0)) : Bool ×ₗ ℕ ×ₗ ℕ) ≤ toLex (false, toLex (0, 1)) by decide
    simp [ordered,List.zipIdx,hl]
  obtain ⟨one,hn,-,hw⟩ := retain_spec hmono ⟨bud,0⟩ [] ⟨first.1,first.2,0,true⟩
  obtain ⟨both,ht,-,hw'⟩ := retain_spec hmono ⟨bud,0⟩ [first] ⟨second.1,second.2,0,true⟩
  have hr : count (render []) ≤ max 1 (count (render [second])) := he'.trans (le_max_right _ _)
  have hr' : 0 < count (render [first]) + max 1 (count (render [second])) - count (render []) := by
    have he'' : count (render []) ≤ count (render [first]) := he
    omega
  obtain rfl : one = [first] := hw rfl hf (by rw [hb]; exact hr')
    (show count (render [first]) ≤ bud - count (render []) by omega)
  obtain rfl : both = [first,second] := hw' rfl hs (by dsimp only; omega)
    (show count (render [second]) ≤ _ by dsimp only; omega)
  have hi : fill (counting count) ⟨bud,0⟩
      (ordered [⟨first.1,first.2,0,true⟩,⟨second.1,second.2,0,true⟩]) = .ok [first,second] := by
    rw [fill,hd,List.foldlM_cons,hn]
    simp only [bind,Except.bind,List.foldlM_cons,ht,List.foldlM_nil,pure,Except.pure]
  have hv : PromptBudgetConfig.validate ⟨bud,0⟩ = .ok () := by
    simp [PromptBudgetConfig.validate]
    omega
  exact budgetPrompt_cut hv ho hi

/-- With a count of tokens the budget is kept, whatever the sections are, exactly if the count leaves the empty line
between two sections out. -/
theorem withinBudget_iff (count : List Char → ℕ) (hmono : ∀ text rest, count text ≤ count (text ++ rest)) :
    WithinBudget count ↔ JoinsFreely count := by
  refine ⟨fun h => ⟨?_, fun first second hf hs => ?_⟩, withinBudget_of_joins hmono⟩
  · obtain ⟨prompt, retained, -, -, -, hl⟩ := h ⟨1, 0⟩ [] rfl
    exact (hmono [] prompt.text).trans hl
  · by_contra ho
    obtain ⟨prompt, hp, ht⟩ := budgetPrompt_pair hmono hf hs rfl (not_le.mp ho)
    obtain ⟨prompt', retained, hp', -, -, hl⟩ :=
      h ⟨count (render [first]) + max 1 (count (render [second])), 0⟩ _ (by simp [PromptBudgetConfig.validate])
    obtain rfl := Except.ok.inj (hp'.symm.trans hp)
    exact ho (ht ▸ hl)

theorem withinBudget_one : WithinBudget (fun _ => 1) :=
  (withinBudget_iff (fun _ => 1) (fun _ _ => le_rfl)).mpr ⟨le_rfl, fun _ _ _ _ => by simp⟩

/-- Characters are counted: two sections of seven are given fourteen, and take sixteen. -/
theorem characters_exceed : ¬ WithinBudget List.length := by
  intro h
  obtain ⟨prompt, retained, hp, -, -, he⟩ := h ⟨14, 0⟩ [⟨['a'], ['b', 'b'], 0, true⟩, ⟨['a'], ['b', 'b'], 0, true⟩] rfl
  have hl : (budgetPrompt (counting List.length) ⟨14, 0⟩
      [⟨['a'], ['b', 'b'], 0, true⟩, ⟨['a'], ['b', 'b'], 0, true⟩]).toOption.map (·.text.length) = some 16 := by
    decide +kernel
  rw [hp] at hl
  have hq : prompt.text.length = 16 := Option.some.inj hl
  exact absurd he (by rw [hq]; decide)

end UwuContextDb.Consolidation
