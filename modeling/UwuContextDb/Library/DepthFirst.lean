import UwuContextDb.Library.Search

/-! Depth-first order: a node, then everything new below its successors, the last of them first. A loop over a stack
visits the nodes in this order. -/

namespace Search

variable {V : Type} [DecidableEq V] {next : V → List V}

/-- The nodes a stack loop visits, in the order in which it visits them. -/
def depthFirst (next : V → List V) : ℕ → List V → List V → List V
  | 0, _, _ => []
  | _+1, _, [] => []
  | fuel+1, visited, v::work =>
    if v ∈ visited then depthFirst next fuel visited work
    else v::depthFirst next fuel (v::visited) (push .stack (next v) work)

/-- The nodes below `work`, one after the other, without those already `seen`. -/
inductive Preorder (next : V → List V) : Set V → List V → List V → Prop
  | nil (seen : Set V) : Preorder next seen [] []
  | skip {seen : Set V} {v : V} {work out : List V} (hv : v ∈ seen) (h : Preorder next seen work out) :
    Preorder next seen (v::work) out
  | visit {seen : Set V} {v : V} {work below out : List V} (hv : v ∉ seen)
    (hbelow : Preorder next (insert v seen) (next v).reverse below)
    (h : Preorder next (insert v seen ∪ {u | u ∈ below}) work out) : Preorder next seen (v::work) (v::(below ++ out))

omit [DecidableEq V] in
/-- There is one such order. -/
theorem Preorder.unique {seen : Set V} {work out out' : List V} (h : Preorder next seen work out)
    (h' : Preorder next seen work out') : out = out' := by
  induction h generalizing out' with
  | nil =>
    cases h'
    rfl
  | skip hv _ ih =>
    cases h' with
    | skip _ h' => exact ih h'
    | visit hv' => exact absurd hv hv'
  | visit hv _ _ ihbelow ih =>
    cases h' with
    | skip hv' => exact absurd hv' hv
    | visit _ hb' h' =>
      obtain rfl := ihbelow hb'
      rw [ih h']

omit [DecidableEq V] in
theorem Preorder.append {seen : Set V} {front rest out : List V} (h : Preorder next seen (front ++ rest) out) :
    ∃ above below, out = above ++ below ∧ Preorder next seen front above ∧
      Preorder next (seen ∪ {u | u ∈ above}) rest below := by
  induction front generalizing seen out with
  | nil => exact ⟨[], out, rfl, .nil seen, by simpa using h⟩
  | cons v front ih =>
    cases h with
    | skip hv h =>
      obtain ⟨above, below, rfl, ha, hb⟩ := ih h
      exact ⟨above, below, rfl, .skip hv ha, hb⟩
    | visit hv hs h =>
      rename_i sub out
      obtain ⟨above, below, rfl, ha, hb⟩ := ih h
      refine ⟨v::(sub ++ above), below, by simp, .visit hv hs ha, ?_⟩
      have he : seen ∪ {u | u ∈ v::(sub ++ above)} = insert v seen ∪ {u | u ∈ sub} ∪ {u | u ∈ above} := by
        ext u
        simp only [Set.mem_union, Set.mem_ofPred_eq, List.mem_cons, List.mem_append, Set.mem_insert_iff]
        tauto
      rw [he]
      exact hb

variable {fuel : ℕ} {visited work : List V}

theorem depthFirst_fresh :
    (depthFirst next fuel visited work).Nodup ∧ ∀ v ∈ depthFirst next fuel visited work, v ∉ visited := by
  induction fuel generalizing visited work with
  | zero => simp [depthFirst]
  | succ fuel ih =>
    cases work with
    | nil => simp [depthFirst]
    | cons v work =>
      by_cases hv : v ∈ visited
      · simpa [depthFirst,hv] using ih
      · obtain ⟨hn,hf⟩ := @ih (v::visited) (push .stack (next v) work)
        simp only [depthFirst,hv,if_false]
        constructor
        · exact List.nodup_cons.mpr ⟨fun hm => hf v hm List.mem_cons_self,hn⟩
        · intro u hu
          rcases List.mem_cons.mp hu with rfl | hu
          · exact hv
          · exact fun hm => hf u hu (List.mem_cons_of_mem _ hm)

theorem search_visited_eq :
    (search next .stack (fun _ => false) fuel visited work).2 = (depthFirst next fuel visited work).reverse ++ visited := by
  induction fuel generalizing visited work with
  | zero => rfl
  | succ fuel ih =>
    cases work with
    | nil => rfl
    | cons v work =>
      by_cases hv : v ∈ visited
      · simp [search,depthFirst,hv,ih]
      · simp [search,depthFirst,hv,ih]

theorem mem_depthFirst_iff {nodes : Finset V} (hn : ∀ v, v ∉ nodes → next v = []) {work : List V}
    (hf : pending next nodes []+work.length ≤ fuel) {v : V} :
    v ∈ depthFirst next fuel [] work ↔ ∃ r ∈ work, Reaches next r v := by
  rw [← mem_visitAll_iff hn hf,visitAll,search_visited_eq]
  simp

theorem preorder_depthFirst {nodes : Finset V} (hn : ∀ v, v ∉ nodes → next v = []) {fuel : ℕ} {vis work : List V}
    (hf : pending next nodes vis+work.length ≤ fuel) :
    Preorder next {u | u ∈ vis} work (depthFirst next fuel vis work) := by
  induction fuel generalizing vis work with
  | zero =>
    obtain rfl : work = [] := List.length_eq_zero_iff.mp (by omega)
    exact .nil _
  | succ fuel ih =>
    cases work with
    | nil => exact .nil _
    | cons v work =>
      simp only [List.length_cons] at hf
      by_cases hv : v ∈ vis
      · simp only [depthFirst,hv,if_true]
        exact .skip hv (ih (by omega))
      · simp only [depthFirst,hv,if_false]
        have hc := pending_cons hn hv
        have hr := @ih (v::vis) (push .stack (next v) work) (by simp only [length_push]; omega)
        obtain ⟨below,out,he,hb,ho⟩ := hr.append
        have hs : {u | u ∈ v::vis} = insert v {u | u ∈ vis} := by
          ext u
          simp
        rw [hs] at hb ho
        rw [he]
        exact .visit hv hb ho

end Search
