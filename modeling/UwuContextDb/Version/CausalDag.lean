import UwuContextDb.Library.DepthFirst
import UwuContextDb.Version.Dag

/-! `CausalDag`: parents and children of every commit, kept as commits are added, and what is above and below one. -/

namespace UwuContextDb.Version

open Search

structure CausalDag where
  parents : Dag
  children : Dag

namespace CausalDag

def empty : CausalDag := ⟨∅, ∅⟩

/-- The child edge from `p`, unless it is there. -/
def addChild (id : CommitId) (children : Dag) (p : CommitId) : Dag :=
  let entry := (children[p]?).getD []
  children.insert p (if id ∈ entry then entry else entry ++ [id])

/-- `add`, of a commit and its parents. -/
def add (dag : CausalDag) (id : CommitId) (parents : List CommitId) : CausalDag :=
  let children := parents.foldl (addChild id) dag.children
  { parents := dag.parents.insert id ((dag.parents[id]?).getD [] ++ parents)
    children := if id ∈ children then children else children.insert id [] }

def fromCommits (commits : List (CommitId × List CommitId)) : CausalDag :=
  commits.foldl (fun dag c => dag.add c.1 c.2) empty

section Queries

variable (dag : CausalDag)

def parentsOf (commit : CommitId) : List CommitId := dag.parents.parents commit

def childrenOf (commit : CommitId) : List CommitId := dag.children.parents commit

/-- The loop over a stack with a visited set; `emit` says which nodes are returned. There is no result without fuel. -/
def walk (next : CommitId → List CommitId) (emit : CommitId → Bool) :
    ℕ → List CommitId → List CommitId → List CommitId → Option (List CommitId)
  | _, _, [], out => some out
  | 0, _, _::_, _ => none
  | fuel+1, visited, node::stack, out =>
    if node ∈ visited then walk next emit fuel visited stack out
    else walk next emit fuel (node::visited) (push .stack (next node) stack) (if emit node then out ++ [node] else out)

def rootCauses (commit : CommitId) : Option (List CommitId) :=
  walk dag.parentsOf (fun node => (dag.parentsOf node).isEmpty) (dag.parents.edgeCount + 1) [] [commit] []

def effects (commit : CommitId) : Option (List CommitId) :=
  let stack := (dag.childrenOf commit).reverse
  walk dag.childrenOf (fun _ => true) (dag.children.edgeCount + stack.length) [] stack []

end Queries

/-- Some commit of the list is `child` and names `parent`. -/
def Declares (commits : List (CommitId × List CommitId)) (parent child : CommitId) : Prop :=
  ∃ parents, (child, parents) ∈ commits ∧ parent ∈ parents

theorem walk_eq {next : CommitId → List CommitId} {emit : CommitId → Bool} {nodes : Finset CommitId}
    (hd : ∀ v, v ∉ nodes → next v = []) {fuel : ℕ} {vis stack out : List CommitId}
    (hf : pending next nodes vis+stack.length ≤ fuel) :
    walk next emit fuel vis stack out = some (out++(depthFirst next fuel vis stack).filter emit) := by
  induction fuel generalizing vis stack out with
  | zero =>
    obtain rfl : stack = [] := List.length_eq_zero_iff.mp (by omega)
    simp [walk,depthFirst]
  | succ fuel ih =>
    cases stack with
    | nil => simp [walk,depthFirst]
    | cons node stack =>
      simp only [List.length_cons] at hf
      by_cases hn : node ∈ vis
      · simp only [walk,depthFirst,hn,if_true]
        exact ih (by omega)
      · have hc := pending_cons hd hn
        simp only [walk,depthFirst,hn,if_false]
        rw [ih (by simp only [length_push]; omega)]
        cases he : emit node <;> simp [he]

variable {cs : List (CommitId × List CommitId)}

variable {id : CommitId} {parents : List CommitId}

theorem mem_addChild {children : Dag} {p q c : CommitId} :
    c ∈ (addChild id children p).parents q ↔ c ∈ children.parents q ∨ (q = p ∧ c = id) := by
  unfold addChild Dag.parents
  rw [Std.ExtTreeMap.getElem?_insert]
  by_cases hq : p = q
  · subst hq
    by_cases hi : id ∈ (children[p]?).getD []
    · have hs : c = id → c ∈ (children[p]?).getD [] := fun hc => hc ▸ hi
      simpa [hi] using hs
    · simp [hi]
  · have hn : q ≠ p := Ne.symm hq
    simp [hq,hn]

theorem mem_childrenOf_add {dag : CausalDag} {q c : CommitId} :
    c ∈ (dag.add id parents).childrenOf q ↔ c ∈ dag.childrenOf q ∨ (q ∈ parents ∧ c = id) := by
  have hf : ∀ (ps : List CommitId) (children : Dag),
      c ∈ (ps.foldl (addChild id) children).parents q ↔ c ∈ children.parents q ∨ (q ∈ ps ∧ c = id) := by
    intro ps
    induction ps with
    | nil => simp
    | cons p ps ih =>
      intro children
      rw [List.foldl_cons,ih,mem_addChild,List.mem_cons,or_assoc,or_and_right]
  have hd : ∀ children :
      Dag, (if id ∈ children then children else children.insert id []).parents q = children.parents q := by
    intro children
    by_cases hi : id ∈ children
    · rw [if_pos hi]
    · rw [if_neg hi]
      unfold Dag.parents
      rw [Std.ExtTreeMap.getElem?_insert]
      by_cases hq : id = q
      · subst hq
        have hn : children[id]? = none := by simpa using hi
        simp [hn]
      · simp [hq]
  unfold childrenOf add
  rw [hd,hf]

theorem mem_parentsOf_add {dag : CausalDag} {c p : CommitId} :
    p ∈ (dag.add id parents).parentsOf c ↔ p ∈ dag.parentsOf c ∨ (p ∈ parents ∧ c = id) := by
  unfold parentsOf add Dag.parents
  rw [Std.ExtTreeMap.getElem?_insert]
  by_cases hc : id = c
  · subst hc
    simp
  · have hn : c ≠ id := Ne.symm hc
    simp [hc,hn]

theorem fromCommits_edges (cs : List (CommitId × List CommitId)) (p c : CommitId) :
    (p ∈ (fromCommits cs).parentsOf c ↔ Declares cs p c) ∧ (c ∈ (fromCommits cs).childrenOf p ↔ Declares cs p c) := by
  induction cs using List.reverseRecOn with
  | nil => simp [fromCommits,empty,parentsOf,childrenOf,Dag.parents,Declares]
  | append_singleton cs e ih =>
    have hd : Declares (cs++[e]) p c ↔ Declares cs p c ∨ (p ∈ e.2 ∧ c = e.1) := by
      unfold Declares
      constructor
      · rintro ⟨parents,hm,hp⟩
        rcases List.mem_append.mp hm with hm | hm
        · exact .inl ⟨parents,hm,hp⟩
        · obtain rfl := List.mem_singleton.mp hm
          exact .inr ⟨hp,rfl⟩
      · rintro (⟨parents,hm,hp⟩ | ⟨hp,rfl⟩)
        · exact ⟨parents,List.mem_append_left _ hm,hp⟩
        · exact ⟨e.2,by simp,hp⟩
    have hs : fromCommits (cs++[e]) = (fromCommits cs).add e.1 e.2 := by simp [fromCommits]
    rw [hs,mem_parentsOf_add,mem_childrenOf_add,ih.1,ih.2,hd]
    exact ⟨.rfl, .rfl⟩

/-- Both queries return, each node once: the effects are what is reachable along child edges, the root causes the ancestors
(the commit itself among them, as in `is_ancestor`) that have no parents. -/
theorem queries_exact (commits : List (CommitId × List CommitId)) (e : CommitId) :
    (∃ out, (fromCommits commits).effects e = some out ∧ out.Nodup ∧
      ∀ x, x ∈ out ↔ Relation.TransGen (Declares commits) e x) ∧
    (∃ out, (fromCommits commits).rootCauses e = some out ∧ out.Nodup ∧
      ∀ x, x ∈ out ↔ Relation.ReflTransGen (Declares commits) x e ∧ ∀ p, ¬ Declares commits p x) := by
  have he := fromCommits_edges commits
  generalize fromCommits commits = dag at he
  constructor
  · have hf : pending dag.childrenOf dag.children.keys.toFinset [] + (dag.childrenOf e).reverse.length ≤
        dag.children.edgeCount + (dag.childrenOf e).reverse.length :=
      Nat.add_le_add_right dag.children.pending_eq_edgeCount.le _
    have hn : ∀ v, v ∉ dag.children.keys.toFinset → dag.childrenOf v = [] := fun v => dag.children.parents_eq_nil
    refine ⟨_, walk_eq hn hf, ?_, ?_⟩
    · simpa using depthFirst_fresh.1
    · intro x
      have hd : Edge dag.childrenOf = Declares commits := by
        funext p c
        exact propext (he p c).2
      rw [List.nil_append, List.filter_true, mem_depthFirst_iff hn hf]
      simp only [Reaches, hd]
      constructor
      · rintro ⟨r, hr, ha⟩
        exact .head' ((he e r).2.mp (List.mem_reverse.mp hr)) ha
      · intro h
        obtain ⟨r, hr, ha⟩ := Relation.TransGen.head'_iff.mp h
        exact ⟨r, List.mem_reverse.mpr ((he e r).2.mpr hr), ha⟩
  · have hf : pending dag.parentsOf dag.parents.keys.toFinset [] + [e].length ≤ dag.parents.edgeCount + 1 :=
      Nat.add_le_add_right dag.parents.pending_eq_edgeCount.le _
    have hn : ∀ v, v ∉ dag.parents.keys.toFinset → dag.parentsOf v = [] := fun v => dag.parents.parents_eq_nil
    refine ⟨_, walk_eq hn hf, ?_, ?_⟩
    · exact List.Nodup.filter _ depthFirst_fresh.1
    · intro x
      have hd : Edge dag.parentsOf = Function.swap (Declares commits) := by
        funext c p
        exact propext (he p c).1
      have ho : (dag.parentsOf x).isEmpty = true ↔ ∀ p, ¬ Declares commits p x := by
        rw [List.isEmpty_iff, List.eq_nil_iff_forall_not_mem]
        exact forall_congr' (fun p => not_congr (he p x).1)
      rw [List.nil_append, List.mem_filter, mem_depthFirst_iff hn hf, ho]
      simp only [Reaches, hd, Relation.reflTransGen_swap, List.mem_singleton, exists_eq_left]

/-- A commit added twice, and two that name each other. -/
example : (fromCommits [(2, [1]), (1, [0]), (2, [1, 3]), (4, [5]), (5, [4])]).effects 0 = some [1, 2] ∧
    (fromCommits [(2, [1]), (1, [0]), (2, [1, 3]), (4, [5]), (5, [4])]).rootCauses 2 = some [3, 0] ∧
    (fromCommits [(2, [1]), (1, [0]), (2, [1, 3]), (4, [5]), (5, [4])]).effects 4 = some [5, 4] ∧
    (fromCommits [(2, [1]), (1, [0]), (2, [1, 3]), (4, [5]), (5, [4])]).rootCauses 4 = some [] := by
  decide +kernel

end CausalDag
end UwuContextDb.Version
