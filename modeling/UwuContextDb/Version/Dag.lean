import UwuContextDb.Library.Search
import UwuContextDb.Version.Model

/-! The commit DAG and the two walks over it that both version stores make. -/

namespace UwuContextDb.Version

open Search

abbrev Dag := Std.ExtTreeMap CommitId (List CommitId)

namespace Dag

/-- `load_parents`: an unknown commit has none. -/
def parents (g : Dag) (id : CommitId) : List CommitId := (g[id]?).getD []

def firstParent (g : Dag) (id : CommitId) : Option CommitId := (g.parents id).head?

def edgeCount (g : Dag) : ℕ := (g.toList.map (fun e => e.2.length)).sum

/-- `is_ancestor`: depth first from the candidate. -/
def isAncestor (g : Dag) (ancestor candidate : CommitId) : Bool :=
  ancestor == candidate ||
    (search g.parents .stack (· == ancestor) (g.edgeCount + 1) [] [candidate]).1.isSome

/-- `merge_base`: breadth first from `b` to the first ancestor of `a`. -/
def mergeBase (g : Dag) (a b : CommitId) : Option CommitId :=
  let ancestors := visitAll g.parents (g.edgeCount + 1) [a]
  (search g.parents .queue (· ∈ ancestors) (g.edgeCount + 1) [] [b]).1

theorem parents_eq_nil {g : Dag} {id : CommitId} (h : id ∉ g.keys.toFinset) : g.parents id = [] := by
  have hn : g[id]? = none := by simpa using h
  simp [parents,hn]

theorem pending_eq_edgeCount (g : Dag) : pending g.parents g.keys.toFinset [] = g.edgeCount := by
  have hl : g.toList.map (fun e => e.2.length) = g.keys.map (fun id => (g.parents id).length) := by
    rw [← Std.ExtTreeMap.map_fst_toList_eq_keys,List.map_map]
    refine List.map_congr_left (fun e he => ?_)
    have hg : g[e.1]? = some e.2 := Std.ExtTreeMap.mem_toList_iff_getElem?_eq_some.mp he
    simp [parents,hg]
  unfold pending edgeCount
  rw [hl]
  simpa using List.sum_toFinset (fun id => (g.parents id).length) Std.ExtTreeMap.nodup_keys

theorem isAncestor_iff (g : Dag) (a c : CommitId) : g.isAncestor a c = true ↔ Reaches g.parents c a := by
  have hf : pending g.parents g.keys.toFinset [] + [c].length ≤ g.edgeCount + 1 := by simp [pending_eq_edgeCount]
  have hs := search_isSome_iff (d := .stack) (· == a) (fun v => g.parents_eq_nil) hf
  simp only [isAncestor,Bool.or_eq_true,beq_iff_eq,hs,List.mem_singleton,exists_eq_left,exists_eq_right]
  constructor
  · rintro (rfl | h)
    · exact .refl
    · exact h
  · exact .inr

theorem isAncestor_self (g : Dag) (a : CommitId) : g.isAncestor a a = true := by simp [isAncestor]

theorem mergeBase_reaches {g : Dag} {a b base : CommitId} (h : g.mergeBase a b = some base) :
    Reaches g.parents a base ∧ Reaches g.parents b base := by
  obtain ⟨hg,r,hr,he⟩ := search_found h
  obtain rfl := List.mem_singleton.mp hr
  refine ⟨?_,he⟩
  have hm : base ∈ visitAll g.parents (g.edgeCount+1) [a] := by simpa using hg
  simpa using (mem_visitAll_iff (fun v => g.parents_eq_nil) (by simp [pending_eq_edgeCount])).mp hm

end Dag
end UwuContextDb.Version

/-! Which common ancestor `merge_base` finds: the first in breadth-first order from the second commit, best or not. -/

namespace UwuContextDb.Version

open Search

namespace Dag

variable {g : Dag} {a b : CommitId}

def Common (g : Dag) (a b c : CommitId) : Prop := Reaches g.parents a c ∧ Reaches g.parents b c

def Best (g : Dag) (a b c : CommitId) : Prop := Common g a b c ∧ ∀ d, Common g a b d → Reaches g.parents d c → d = c

theorem mem_ancestors {c : CommitId} : c ∈ visitAll g.parents (g.edgeCount+1) [a] ↔ Reaches g.parents a c := by
  rw [mem_visitAll_iff (fun v => g.parents_eq_nil) (by simp [pending_eq_edgeCount])]
  simp

theorem mergeBase_eq_none : g.mergeBase a b = none ↔ ¬ ∃ c, Common g a b c := by
  have hf : pending g.parents g.keys.toFinset [] + [b].length ≤ g.edgeCount + 1 := by simp [pending_eq_edgeCount]
  have hs := search_isSome_iff (d := .queue) (· ∈ visitAll g.parents (g.edgeCount+1) [a])
    (fun v => g.parents_eq_nil) hf
  rw [← Option.not_isSome_iff_eq_none]
  apply not_congr
  refine hs.trans ?_
  simp only [List.mem_singleton,exists_eq_left,decide_eq_true_eq,mem_ancestors]
  exact exists_congr (fun c => and_comm)

theorem mergeBase_first {base : CommitId} (h : g.mergeBase a b = some base) :
    Common g a b base ∧ ∀ d, Common g a b d → d ≠ base → Before g.parents b base d := by
  refine ⟨mergeBase_reaches h,fun d hd hn => ?_⟩
  obtain ⟨n,front,hw,hf⟩ := search_queue_walk (Thinned.refl [] [b]) (fun v hv => by simp at hv) h
  refine ⟨n,by rw [hw]; simp,?_⟩
  rw [hw,List.mem_append,List.mem_singleton]
  rintro (hm | rfl)
  · simpa [mem_ancestors,hd.1] using hf d hm
  · exact hn rfl

/-- `merge_base` is as it should be exactly if the walk back from the second commit comes to a best common ancestor
before every one that is not best. -/
theorem mergeBase_best_iff (g : Dag) (a b : CommitId) :
    ((g.mergeBase a b = none ↔ ¬ ∃ c, Common g a b c) ∧ ∀ base, g.mergeBase a b = some base → Best g a b base) ↔
      ((∃ c, Common g a b c) → ∃ c, Best g a b c ∧ ∀ d, Common g a b d → ¬ Best g a b d → Before g.parents b c d) := by
  constructor
  · rintro ⟨hn, he⟩ ho
    cases hb : g.mergeBase a b with
    | none => exact absurd ho (hn.mp hb)
    | some base =>
      refine ⟨base, he base hb, fun d hd hw => (mergeBase_first hb).2 d hd ?_⟩
      rintro rfl
      exact hw (he d hb)
  · intro h
    refine ⟨mergeBase_eq_none, fun base hb => ?_⟩
    obtain ⟨ho, hf⟩ := mergeBase_first hb
    obtain ⟨c, hc, hbe⟩ := h ⟨base, ho⟩
    by_contra hw
    have hne : c ≠ base := by
      rintro rfl
      exact hw hc
    exact (hbe base ho hw).asymm (hf c hc.1 hne)

def shortcut : Dag := Std.ExtTreeMap.ofList [(0, []), (1, [0]), (2, [1]), (3, [2]), (4, [0]), (5, [3, 4]), (6, [1])]

/-- The root is found, though another common ancestor descends from it. -/
theorem mergeBase_not_best : ¬ ((shortcut.mergeBase 6 5 = none ↔ ¬ ∃ c, Common shortcut 6 5 c) ∧
    ∀ base, shortcut.mergeBase 6 5 = some base → Best shortcut 6 5 base) := by
  rintro ⟨-, he⟩
  have hb : shortcut.mergeBase 6 5 = some 0 ∧ shortcut.isAncestor 1 6 = true ∧ shortcut.isAncestor 1 5 = true ∧
      shortcut.isAncestor 0 1 = true := by decide +kernel
  have ho : (1 : CommitId) = 0 :=
    (he 0 hb.1).2 1 ⟨(isAncestor_iff _ _ _).mp hb.2.1, (isAncestor_iff _ _ _).mp hb.2.2.1⟩
    ((isAncestor_iff _ _ _).mp hb.2.2.2)
  exact absurd ho (by decide)

end Dag

end UwuContextDb.Version
