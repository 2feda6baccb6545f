import Mathlib.Data.List.Sort
import UwuContextDb.Core.Model
import UwuContextDb.Core.Text
import UwuContextDb.Library.MultiChoice
import UwuContextDb.Library.Run

/-! Token-budget loading: the level choices of every hit, and the dynamic program that selects among them. -/

namespace UwuContextDb.Retrieve

open MultiChoice StateMachine

structure RetrievalHit where
  uri : ContextUri
  level : ContentLevel
  content : ContentPayload
  relevance : ℚ
  parentChain : List ContextUri
  contentType : Option ContentType
  metadata : ContextMeta
  createdAt : Option DateTime
  updatedAt : Option DateTime

structure TokenBudgetConfig where
  l0Floor : ℕ
  l1Floor : ℕ
  l2Floor : ℕ

/-- A level a hit can be loaded at. Values are taken from any ordered additive group. -/
structure Choice (V : Type) where
  hitIndex : ℕ
  level : ContentLevel
  cost : ℕ
  value : V
  payload : ContentPayload

structure BudgetLoadPlan where
  hits : List RetrievalHit
  tokensUsed : ℕ

inductive Predecessor
  | carry
  | choice (previousBudget index : ℕ)

/-- The `next` scores of a hit and the predecessors they come from, at the budgets up to `budget`. -/
structure Layer (V : Type) where
  next : ℕ → V
  layer : ℕ → Predecessor

section SelectChoices

variable {V : Type} [AddCommGroup V] [LinearOrder V]

/-- The loop body of `select_choices` at one used budget and one choice. -/
def relax (budget used : ℕ) (score : V) (t : Layer V) (choice : Choice V × ℕ) : Layer V :=
  let target := used + choice.1.cost
  let value := score + choice.1.value
  if choice.1.cost = 0 ∨ budget < target then t
  else if t.next target < value then
    ⟨Function.update t.next target value, Function.update t.layer target (.choice used choice.2)⟩
  else t

def relaxHit (budget : ℕ) (scores : ℕ → V) (choices : List (Choice V)) : Layer V :=
  run (fun t used => run (relax budget used (scores used)) t choices.zipIdx) ⟨scores, fun _ => .carry⟩
    (List.range (budget + 1))

/-- The scores so far, and the predecessors of every hit beside its choices, the last hit first. -/
structure Table (V : Type) where
  scores : ℕ → V
  predecessors : List (List (Choice V) × (ℕ → Predecessor))

def Table.push (budget : ℕ) (t : Table V) (choices : List (Choice V)) : Table V :=
  let l := relaxHit budget t.scores choices
  ⟨l.next, (choices, l.layer)::t.predecessors⟩

def fillTable (budget : ℕ) (choicesByHit : List (List (Choice V))) : Table V :=
  run (Table.push budget) ⟨fun _ => 0, []⟩ choicesByHit

/-- `max_by` over the budgets: the last one of largest score. -/
def bestBudget (scores : ℕ → V) (budget : ℕ) : ℕ :=
  run (fun best b => if scores b < scores best then best else b) 0 (List.range (budget + 1))

def traceBack : List (List (Choice V) × (ℕ → Predecessor)) → ℕ → List (Choice V) → List (Choice V)
  | [], _, selected => selected
  | (choices, layer)::earlier, currentBudget, selected =>
    match layer currentBudget with
    | .carry => traceBack earlier currentBudget selected
    | .choice previousBudget index => traceBack earlier previousBudget ((choices[index]?).toList ++ selected)

def selectChoices (choicesByHit : List (List (Choice V))) (budget : ℕ) : List (Choice V) :=
  let t := fillTable budget choicesByHit
  traceBack t.predecessors (bestBudget t.scores budget) []

structure PathTable (V : Type) where
  scores : ℕ → V
  paths : ℕ → List (Choice V)

/-- The loop body of the full-path program; `paths` are those of the hits before. -/
def relaxPath (budget used : ℕ) (score : V) (paths : ℕ → List (Choice V)) (t : PathTable V) (choice : Choice V) :
    PathTable V :=
  let target := used + choice.cost
  let value := score + choice.value
  if choice.cost = 0 ∨ budget < target then t
  else if t.scores target < value then
    ⟨Function.update t.scores target value, Function.update t.paths target (paths used ++ [choice])⟩
  else t

def PathTable.push (budget : ℕ) (t : PathTable V) (choices : List (Choice V)) : PathTable V :=
  run (fun s used => run (relaxPath budget used (t.scores used) t.paths) s choices) t (List.range (budget + 1))

/-- `select_choices_with_full_paths`, the program the tests compare with. -/
def selectChoicesWithFullPaths (choicesByHit : List (List (Choice V))) (budget : ℕ) : List (Choice V) :=
  let t := run (PathTable.push budget) ⟨fun _ => 0, fun _ => []⟩ choicesByHit
  t.paths (bestBudget t.scores budget)

end SelectChoices

section Load

variable {V : Type}

structure Pricing (V : Type) where
  countTokens : String → Except ContextError ℕ
  valueFor : RetrievalHit → ContentLevel → ℕ → V

def Pricing.countTokensWithFloor (pricing : Pricing V) (text : String) (floor : ℕ) : Except ContextError ℕ :=
  (pricing.countTokens text).map (fun n => max n floor)

def textChoice (pricing : Pricing V) (idx : ℕ) (hit : RetrievalHit) (budget : ℕ) (level : ContentLevel) (cost : ℕ)
    (payload : ContentPayload) : List (Choice V) :=
  if cost ≤ budget then [⟨idx, level, cost, pricing.valueFor hit level cost, payload⟩] else []

def offerLevel (pricing : Pricing V) (idx : ℕ) (hit : RetrievalHit) (budget : ℕ) (level : ContentLevel) (text : String)
    (floor : ℕ) (payload : ContentPayload) : Except ContextError (List (Choice V)) :=
  if Text.isBlank text then .ok []
  else (pricing.countTokensWithFloor text floor).map (fun cost => textChoice pricing idx hit budget level cost payload)

def pushTextChoices (pricing : Pricing V) (idx : ℕ) (hit : RetrievalHit) (budget : ℕ) (config : TokenBudgetConfig) :
    Except ContextError (List (Choice V)) :=
  match hit.content with
  | .text sparse dense full => do
    let l0Cost ← pricing.countTokensWithFloor sparse config.l0Floor
    let l0 := textChoice pricing idx hit budget .l0 l0Cost (.text sparse sparse sparse)
    let l1 ← offerLevel pricing idx hit budget .l1 dense config.l1Floor (.text sparse dense dense)
    let l2 ← offerLevel pricing idx hit budget .l2 full config.l2Floor (.text sparse dense full)
    return l0 ++ l1 ++ l2
  | _ => .ok []

def fallbackCost (pricing : Pricing V) (content : ContentPayload) (config : TokenBudgetConfig) : Except ContextError ℕ :=
  match content with
  | .text sparse _ _ => pricing.countTokensWithFloor sparse config.l2Floor
  | .image _ _ _ => .ok config.l0Floor
  | .audio transcript _ _ => pricing.countTokensWithFloor transcript config.l1Floor
  | .structured summary _ _ => pricing.countTokensWithFloor summary config.l1Floor
  | .composite summary _ => pricing.countTokensWithFloor summary config.l1Floor

def choicesForHit (pricing : Pricing V) (budget : ℕ) (config : TokenBudgetConfig) (hit : RetrievalHit) (idx : ℕ) :
    Except ContextError (List (Choice V)) := do
  let choices ← pushTextChoices pricing idx hit budget config
  if choices.isEmpty then
    let cost ← fallbackCost pricing hit.content config
    return textChoice pricing idx hit budget hit.level cost hit.content
  else return choices

def choicesForHits (pricing : Pricing V) (budget : ℕ) (config : TokenBudgetConfig) (hits : List RetrievalHit) :
    Except ContextError (List (List (Choice V))) :=
  hits.zipIdx.mapM (fun h => choicesForHit pricing budget config h.1 h.2)

def loadChoice (hits : List RetrievalHit) (choice : Choice V) : Option RetrievalHit :=
  (hits[choice.hitIndex]?).map (fun hit => { hit with level := choice.level, content := choice.payload })

def ranksBefore (a b : RetrievalHit) : Bool :=
  b.relevance < a.relevance || a.relevance = b.relevance && a.uri.canonical ≤ b.uri.canonical

def loadHitsWithinBudget [AddCommGroup V] [LinearOrder V] (pricing : Pricing V) (hits : List RetrievalHit) (budget : ℕ)
    (config : TokenBudgetConfig) : Except ContextError BudgetLoadPlan :=
  if budget = 0 ∨ hits.isEmpty then .ok ⟨[], 0⟩
  else (choicesForHits pricing budget config hits).map (fun choicesByHit =>
    let selected := selectChoices choicesByHit budget
    ⟨(selected.filterMap (loadChoice hits)).insertionSort (fun a b => ranksBefore a b), (selected.map Choice.cost).sum⟩)

end Load

end UwuContextDb.Retrieve
