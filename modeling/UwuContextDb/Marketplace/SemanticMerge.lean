import UwuContextDb.Library.SetUnion
import UwuContextDb.Marketplace.SecureAggregation

/-! `SemanticCrdtMerger`: two patches of a market entry are merged, on the replica of either. -/

namespace UwuContextDb.Marketplace

open SetUnion

variable {K : Type} [Field K] [LinearOrder K]

structure PatchSet (K : Type) where
  entryId : Uuid
  patcher : String
  clock : UInt64
  principle : Option String
  preconditions : List String
  evidenceUris : List ContextUri
  confidence : K
  qualityScore : K

inductive CrdtMergeStrategy | autoCrdt | llmArbitrated | fastForward deriving DecidableEq

structure MergedPatch (K : Type) where
  entryId : Uuid
  principle : String
  preconditions : List String
  evidenceUris : List ContextUri
  confidence : K
  qualityScore : K
  conflictsResolved : ℕ
  strategy : CrdtMergeStrategy

/-- `SemanticCrdtMerger`, with what its LLM answers about two principles, and the numbers that clocks are cast to. -/
structure SemanticCrdtMerger (K : Type) where
  nodeId : String
  llm : Option (String → String → PatchSet K → PatchSet K → Option String)
  toF32 : UInt64 → K

namespace SemanticCrdtMerger

variable (merger : SemanticCrdtMerger K)

def lwwPrinciple (local_ : PatchSet K) (localPrinciple : String) (remote : PatchSet K)
    (remotePrinciple : String) : String :=
  if remote.clock < local_.clock then localPrinciple
  else if local_.clock < remote.clock then remotePrinciple
  else if remote.patcher ≤ merger.nodeId ++ ":" ++ local_.patcher then localPrinciple
  else remotePrinciple

def arbitrate (local_ : PatchSet K) (lp : String) (remote : PatchSet K) (rp : String) : String × CrdtMergeStrategy × ℕ :=
  match merger.llm.bind (fun ask => ask lp rp local_ remote) with
  | some merged => (merged, .llmArbitrated, 1)
  | none => (merger.lwwPrinciple local_ lp remote rp, .autoCrdt, 1)

def mergePrinciple (local_ remote : PatchSet K) : String × CrdtMergeStrategy × ℕ :=
  match local_.principle, remote.principle with
  | some lp, some rp => if lp = rp then (lp, .fastForward, 0) else merger.arbitrate local_ lp remote rp
  | some lp, none => (lp, .fastForward, 0)
  | none, some rp => (rp, .fastForward, 0)
  | none, none => ("", .fastForward, 0)

def mergeQuality (local_ remote : PatchSet K) : K :=
  let totalClock := merger.toF32 (local_.clock + remote.clock)
  if 0 < totalClock then
    (local_.qualityScore * merger.toF32 local_.clock + remote.qualityScore * merger.toF32 remote.clock) / totalClock
  else (local_.qualityScore + remote.qualityScore) / 2

def merge (local_ remote : PatchSet K) : MergedPatch K :=
  let decided := merger.mergePrinciple local_ remote
  { entryId := local_.entryId
    principle := decided.1
    preconditions := union local_.preconditions remote.preconditions
    evidenceUris := union local_.evidenceUris remote.evidenceUris
    confidence := max local_.confidence remote.confidence
    qualityScore := merger.mergeQuality local_ remote
    conflictsResolved := decided.2.2
    strategy := decided.2.1 }

structure SameSets (m m' : MergedPatch K) : Prop where
  entryId : m.entryId = m'.entryId
  principle : m.principle = m'.principle
  preconditions : ∀ p, p ∈ m.preconditions ↔ p ∈ m'.preconditions
  evidenceUris : ∀ uri, uri ∈ m.evidenceUris ↔ uri ∈ m'.evidenceUris
  confidence : m.confidence = m'.confidence
  qualityScore : m.qualityScore = m'.qualityScore
  conflictsResolved : m.conflictsResolved = m'.conflictsResolved
  strategy : m.strategy = m'.strategy

/-- If the principles differ at equal clocks, the key of one replica is at least the other's patcher, and only of one. -/
def Decided (node node' : String) (x y : PatchSet K) : Prop :=
  ∀ p q, x.principle = some p → y.principle = some q → p ≠ q → x.clock = y.clock →
    (y.patcher ≤ node ++ ":" ++ x.patcher ↔ ¬ x.patcher ≤ node' ++ ":" ++ y.patcher)

variable {merger} {node node' : String} {toF32 : UInt64 → K}

theorem mergeQuality_comm (x y : PatchSet K) :
    mergeQuality ⟨node,none,toF32⟩ x y = mergeQuality ⟨node',none,toF32⟩ y x := by
  simp only [mergeQuality]
  rw [UInt64.add_comm,add_comm (x.qualityScore*_),add_comm x.qualityScore]

omit [Field K] [LinearOrder K] in
theorem lwwPrinciple_comm_iff {x y : PatchSet K} {p q : String} (hn : p ≠ q) :
    lwwPrinciple ⟨node, none, toF32⟩ x p y q = lwwPrinciple ⟨node', none, toF32⟩ y q x p ↔
      (x.clock = y.clock → (y.patcher ≤ node ++ ":" ++ x.patcher ↔ ¬ x.patcher ≤ node' ++ ":" ++ y.patcher)) := by
  unfold lwwPrinciple
  by_cases hc : x.clock = y.clock
  · simp only [hc, UInt64.lt_irrefl, if_false, true_implies]
    by_cases hx : y.patcher ≤ node ++ ":" ++ x.patcher
    · by_cases hy : x.patcher ≤ node' ++ ":" ++ y.patcher
      · simp [hx, hy, hn]
      · simp [hx, hy]
    · by_cases hy : x.patcher ≤ node' ++ ":" ++ y.patcher
      · simp [hx, hy]
      · simp [hx, hy, hn.symm]
  · rcases UInt64.lt_or_lt_of_ne hc with hl | hg
    · simp [hc, hl, UInt64.lt_asymm hl]
    · simp [hc, hg, UInt64.lt_asymm hg]

omit [Field K] [LinearOrder K] in
theorem mergePrinciple_comm_iff (x y : PatchSet K) :
    mergePrinciple ⟨node, none, toF32⟩ x y = mergePrinciple ⟨node', none, toF32⟩ y x ↔ Decided node node' x y := by
  cases hx : x.principle with
  | none => cases hy : y.principle <;> simp [mergePrinciple, Decided, hx, hy]
  | some p =>
    cases hy : y.principle with
    | none => simp [mergePrinciple, Decided, hx, hy]
    | some q =>
      by_cases hp : p = q
      · simp [mergePrinciple, Decided, hx, hy, hp]
      · have hq : q ≠ p := Ne.symm hp
        simp only [mergePrinciple, hx, hy, hp, hq, if_false, arbitrate, Option.bind_none, Prod.mk.injEq, and_true,
          lwwPrinciple_comm_iff hp, Decided, Option.some.injEq]
        constructor
        · rintro h _ _ rfl rfl _ hc
          exact h hc
        · intro h hc
          exact h p q rfl rfl hp hc

/-- Both replicas come to one patch, exactly if of the lists one continues the other and the principle is decided;
but for the order of the lists, exactly if the principle is. -/
theorem merge_comm_iff (node node' : String) (toF32 : UInt64 → K) (x y : PatchSet K) (hentry : x.entryId = y.entryId) :
    (merge ⟨node, none, toF32⟩ x y = merge ⟨node', none, toF32⟩ y x ↔
      (Continues x.preconditions y.preconditions ∨ Continues y.preconditions x.preconditions) ∧
      (Continues x.evidenceUris y.evidenceUris ∨ Continues y.evidenceUris x.evidenceUris) ∧ Decided node node' x y) ∧
    (SameSets (merge ⟨node, none, toF32⟩ x y) (merge ⟨node', none, toF32⟩ y x) ↔ Decided node node' x y) := by
  have hq : mergeQuality ⟨node, none, toF32⟩ x y = mergeQuality ⟨node', none, toF32⟩ y x := mergeQuality_comm x y
  have hd := @mergePrinciple_comm_iff K node node' toF32 x y
  rw [Prod.ext_iff, Prod.ext_iff] at hd
  constructor
  · rw [← union_comm_iff, ← union_comm_iff, ← hd]
    simp only [merge, MergedPatch.mk.injEq, hentry, max_comm, hq]
    tauto
  · rw [← hd]
    constructor
    · intro h
      exact ⟨h.principle, h.strategy, h.conflictsResolved⟩
    · intro h
      refine ⟨hentry, h.1, ?_, ?_, max_comm _ _, hq, h.2.2, h.2.1⟩
      · intro p
        simp [merge, or_comm]
      · intro uri
        simp [merge, or_comm]

def samplePatch (patcher principle : String) : PatchSet ℚ := ⟨0, patcher, 1, some principle, [], [], 1, 1⟩

theorem merge_comm_iff_sample :
    SameSets (merge ⟨"a-node", none, fun _ => 1⟩ (samplePatch "b" "x") (samplePatch "a" "y"))
      (merge ⟨"a-other", none, fun _ => 1⟩ (samplePatch "a" "y") (samplePatch "b" "x")) := by
  apply (merge_comm_iff "a-node" "a-other" (fun _ => 1) (samplePatch "b" "x") (samplePatch "a" "y") rfl).2.mpr
  intro p q _ _ _ _
  decide +kernel

/-- At equal clocks each replica finds its own key greater than the other's patcher, and keeps its own principle. -/
theorem merge_keeps_own :
    (merge ⟨"replica-1", none, fun _ => 1⟩ (samplePatch "agent-1" "x") (samplePatch "agent-2" "y")).principle = "x" ∧
    (merge ⟨"replica-2", none, fun _ => 1⟩ (samplePatch "agent-2" "y") (samplePatch "agent-1" "x")).principle = "y" := by
  decide +kernel

end SemanticCrdtMerger

end UwuContextDb.Marketplace
