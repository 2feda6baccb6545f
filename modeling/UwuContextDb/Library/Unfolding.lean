import Mathlib.Data.Set.Card

/-! A graph unfolded into the tree of its walks from one node. The unfolding ends where no walk comes back to a node it has
visited, and its nodes are the walks. -/

namespace Unfolding

variable {α β : Type}

/-- A tree whose nodes have any number of children. -/
inductive RoseTree (β : Type)
  | node (label : β) (children : List (RoseTree β))

mutual
/-- The labels of a tree, each before those below it. -/
def RoseTree.labels : RoseTree β → List β
  | .node label children => label::labelsAll children

def labelsAll : List (RoseTree β) → List β
  | [] => []
  | tree::trees => tree.labels ++ labelsAll trees
end

theorem labelsAll_eq_flatMap (trees : List (RoseTree β)) : labelsAll trees = trees.flatMap RoseTree.labels := by
  induction trees with
  | nil => rfl
  | cons tree trees ih => rw [labelsAll,ih,List.flatMap_cons]

theorem mapM_eq_some_iff {f : α → Option β} {as : List α} {bs : List β} :
    as.mapM f = some bs ↔ as.map f = bs.map some := by
  induction as generalizing bs with
  | nil => cases bs <;> simp
  | cons a as ih =>
    rw [List.mapM_cons,List.map_cons]
    cases hf : f a with
    | none => cases bs <;> simp
    | some b =>
      cases bs with
      | nil => simp [Option.bind_eq_some_iff]
      | cons c bs => simp [Option.bind_eq_some_iff,ih,and_comm]

section Unfold

variable (children : α → List α) (label : α → ℕ → β)

/-- The tree below a node at a depth, if it ends within the fuel. -/
def unfold : ℕ → α → ℕ → Option (RoseTree β)
  | 0, _, _ => none
  | fuel + 1, a, depth => ((children a).mapM (fun b => unfold fuel b (depth + 1))).map (RoseTree.node (label a depth))

/-- The nodes of the unfolding in the order of its labels, each with those above it, the nearest first. -/
def rows : ℕ → List α → α → List (α × List α)
  | 0, _, _ => []
  | fuel + 1, above, a => (a, above)::(children a).flatMap (rows fuel (a::above))

/-- The walks from a node that itself has some nodes above it, by where they end and what they leave behind. -/
inductive Walk (start : α) (above : List α) : α → List α → Prop
  | here : Walk start above start above
  | step {a b : α} {path : List α} : Walk start above a path → b ∈ children a → Walk start above b (a::path)

/-- One node is a child of the other. -/
def Child (a b : α) : Prop := b ∈ children a

variable {children label} {a b : α} {above path : List α} {fuel depth : ℕ} {tree : RoseTree β}

theorem unfold_succ_eq_some_iff : unfold children label (fuel+1) a depth = some tree ↔
    ∃ trees, (children a).map (fun b => unfold children label fuel b (depth+1)) = trees.map some ∧
      RoseTree.node (label a depth) trees = tree := by
  rw [unfold,Option.map_eq_some_iff]
  simp only [mapM_eq_some_iff]

/-- Every child of a node that is unfolded is unfolded with less fuel. -/
theorem unfold_child (h : unfold children label (fuel+1) a depth = some tree) (hb : b ∈ children a) :
    ∃ below, unfold children label fuel b (depth+1) = some below := by
  obtain ⟨trees,ht,-⟩ := unfold_succ_eq_some_iff.mp h
  have hm : unfold children label fuel b (depth+1) ∈ trees.map some := ht ▸ List.mem_map_of_mem hb
  obtain ⟨below,-,he⟩ := List.mem_map.mp hm
  exact ⟨below,he.symm⟩

theorem labels_unfold (h : unfold children label fuel a above.length = some tree) :
    tree.labels = (rows children fuel above a).map (fun row => label row.1 row.2.length) := by
  induction fuel generalizing a above tree with
  | zero => cases h
  | succ fuel ih =>
    obtain ⟨trees,ht,rfl⟩ := unfold_succ_eq_some_iff.mp h
    rw [RoseTree.labels,rows,List.map_cons,List.map_flatMap,labelsAll_eq_flatMap]
    congr 1
    have ha : ∀ (bs : List α) (trees : List (RoseTree β)),
        bs.map (fun b => unfold children label fuel b (above.length+1)) = trees.map some →
        trees.flatMap RoseTree.labels = bs.flatMap (fun b =>
          (rows children fuel (a::above) b).map (fun row => label row.1 row.2.length)) := by
      intro bs
      induction bs with
      | nil =>
        intro trees ht
        cases trees with
        | nil => rfl
        | cons tree trees => cases ht
      | cons b bs ihbs =>
        intro trees ht
        cases trees with
        | nil => cases ht
        | cons tree trees =>
          rw [List.map_cons,List.map_cons] at ht
          obtain ⟨hb,hs⟩ := List.cons.inj ht
          rw [List.flatMap_cons,List.flatMap_cons,ihbs trees hs,@ih b (a::above) tree hb]
    exact ha _ _ ht

variable {row : α × List α}

theorem walk_of_mem_rows (h : row ∈ rows children fuel above a) : Walk children a above row.1 row.2 := by
  induction fuel generalizing a above with
  | zero => cases h
  | succ fuel ih =>
    rw [rows] at h
    rcases List.mem_cons.mp h with rfl | h
    · exact .here
    · obtain ⟨b,hb,hr⟩ := List.mem_flatMap.mp h
      have ht : ∀ {c path}, Walk children b (a::above) c path → Walk children a above c path := by
        intro c path hw
        induction hw with
        | here => exact .step .here hb
        | step _ hc ihw => exact .step ihw hc
      exact ht (ih hr)

theorem mem_rows_child (h : unfold children label fuel a depth = some tree) {path : List α}
    (hb : (b, path) ∈ rows children fuel above a) {c : α} (hc : c ∈ children b) :
    (c, b::path) ∈ rows children fuel above a := by
  induction fuel generalizing a above depth tree with
  | zero => cases h
  | succ fuel ih =>
    rw [rows] at hb ⊢
    refine List.mem_cons_of_mem _ (List.mem_flatMap.mpr ?_)
    rcases List.mem_cons.mp hb with hq | hb
    · obtain ⟨rfl,rfl⟩ := Prod.mk.inj hq
      refine ⟨c,hc,?_⟩
      obtain ⟨below,he⟩ := unfold_child h hc
      cases fuel with
      | zero => cases he
      | succ fuel => exact List.mem_cons_self
    · obtain ⟨first,hf,hb⟩ := List.mem_flatMap.mp hb
      obtain ⟨below,he⟩ := unfold_child h hf
      exact ⟨first,hf,ih he hb⟩

theorem mem_rows_iff (h : unfold children label fuel a depth = some tree) :
    row ∈ rows children fuel above a ↔ Walk children a above row.1 row.2 := by
  have ha : ∀ {b path}, Walk children a above b path → (b, path) ∈ rows children fuel above a := by
    intro b path hw
    induction hw with
    | here =>
      cases fuel with
      | zero => cases h
      | succ fuel => exact List.mem_cons_self
    | step _ hc ih => exact mem_rows_child h ih hc
  exact ⟨walk_of_mem_rows,ha⟩

theorem suffix_of_mem_rows (h : row ∈ rows children fuel above a) : a::above <:+ row.1::row.2 := by
  have ha : ∀ {b path}, Walk children a above b path → a::above <:+ b::path := by
    intro b path hw
    induction hw with
    | here => exact List.suffix_rfl
    | step _ _ ih => exact ih.trans (List.suffix_cons _ _)
  exact ha (walk_of_mem_rows h)

theorem nodup_rows (hh : ∀ a, (children a).Nodup) : (rows children fuel above a).Nodup := by
  induction fuel generalizing a above with
  | zero => exact List.nodup_nil
  | succ fuel ih =>
    rw [rows,List.nodup_cons,List.nodup_flatMap]
    refine ⟨?_,fun b _ => ih,?_⟩
    · intro hm
      obtain ⟨b,_,hr⟩ := List.mem_flatMap.mp hm
      have hl := (suffix_of_mem_rows hr).length_le
      simp at hl
    · -- the walks through different children part above their ends
      refine (hh a).imp (fun {b c} hn row hb hc => hn ?_)
      have hs := suffix_of_mem_rows hb
      have hs' := suffix_of_mem_rows hc
      have he : b::a::above = c::a::above := (List.suffix_of_suffix_length_le hs hs' le_rfl).eq_of_length rfl
      exact (List.cons.inj he).1

theorem ncard_walks (hc : ∀ a, (children a).Nodup) (h : unfold children label fuel a above.length = some tree) :
    Set.ncard {row : α × List α | Walk children a above row.1 row.2} = tree.labels.length := by
  classical
  have hs : {row : α × List α | Walk children a above row.1 row.2} = ((rows children fuel above a).toFinset : Set _) := by
    ext row
    simp [← mem_rows_iff h]
  rw [hs,Set.ncard_coe_finset,List.toFinset_card_of_nodup (nodup_rows hc),labels_unfold h,List.length_map]

theorem reachable_iff_walk : Relation.ReflTransGen (Child children) a b ↔ ∃ path, Walk children a above b path := by
  constructor
  · intro h
    induction h with
    | refl => exact ⟨above, .here⟩
    | tail _ hc ih =>
      obtain ⟨path,hw⟩ := ih
      exact ⟨_, .step hw hc⟩
  · rintro ⟨path,hw⟩
    induction hw with
    | here => exact .refl
    | step _ hc ih => exact ih.tail hc

theorem unfold_mono {fuel' : ℕ} (hl : fuel ≤ fuel') (h : unfold children label fuel a depth = some tree) :
    unfold children label fuel' a depth = some tree := by
  induction fuel generalizing a depth tree fuel' with
  | zero => cases h
  | succ fuel ih =>
    cases fuel' with
    | zero => omega
    | succ fuel' =>
      obtain ⟨trees,ht,rfl⟩ := unfold_succ_eq_some_iff.mp h
      refine unfold_succ_eq_some_iff.mpr ⟨trees,?_,rfl⟩
      rw [← ht]
      refine List.map_congr_left (fun b hb => ?_)
      obtain ⟨below,he⟩ := unfold_child h hb
      rw [he]
      exact ih (by omega) he

theorem unfold_ends_iff : (∃ fuel tree, unfold children label fuel a depth = some tree) ↔
    Acc (fun b a => b ∈ children a) a := by
  constructor
  · rintro ⟨fuel,tree,h⟩
    induction fuel generalizing a depth tree with
    | zero => cases h
    | succ fuel ih =>
      refine Acc.intro a (fun b hb => ?_)
      obtain ⟨below,hl⟩ := unfold_child h hb
      exact ih below hl
  · intro h
    induction h generalizing depth with
    | intro a _ ih =>
      have ha : ∀ bs : List α, (∀ b ∈ bs, b ∈ children a) → ∃ (fuel : ℕ) (trees : List (RoseTree β)),
          bs.map (fun b => unfold children label fuel b (depth+1)) = trees.map some := by
        intro bs
        induction bs with
        | nil => exact fun _ => ⟨0,[],rfl⟩
        | cons b bs ihbs =>
          intro hs
          obtain ⟨hb,hs⟩ := List.forall_mem_cons.mp hs
          obtain ⟨fuel,trees,ht⟩ := ihbs hs
          obtain ⟨fuelb,below,hl⟩ := @ih b hb (depth+1)
          refine ⟨max fuel fuelb,below::trees,?_⟩
          rw [List.map_cons,List.map_cons,unfold_mono (le_max_right _ _) hl,← ht]
          congr 1
          refine List.map_congr_left (fun c hc => ?_)
          have ho : ∃ belowc, unfold children label fuel c (depth+1) = some belowc := by
            have hm : unfold children label fuel c (depth+1) ∈ trees.map some := ht ▸ List.mem_map_of_mem hc
            obtain ⟨belowc,-,he⟩ := List.mem_map.mp hm
            exact ⟨belowc,he.symm⟩
          obtain ⟨belowc,he⟩ := ho
          rw [he]
          exact unfold_mono (le_max_left _ _) he
      obtain ⟨fuel,trees,ht⟩ := ha (children a) (fun b hb => hb)
      exact ⟨fuel+1,_,unfold_succ_eq_some_iff.mpr ⟨trees,ht,rfl⟩⟩

/-- No node that can be reached can be reached again from itself. -/
def NoCycleBelow (children : α → List α) (a : α) : Prop :=
  ∀ b, Relation.ReflTransGen (Child children) a b → ¬ Relation.TransGen (Child children) b b

theorem transGen_of_mem_path (h : Walk children a [] b path) {c : α} (hc : c ∈ path) :
    Relation.TransGen (Child children) c b := by
  induction h with
  | here => cases hc
  | step _ hs ih =>
    rcases List.mem_cons.mp hc with rfl | hc
    · exact .single hs
    · exact (ih hc).tail hs

theorem nodup_walk (hc : NoCycleBelow children a) (h : Walk children a [] b path) : (b::path).Nodup := by
  induction h with
  | here => exact List.nodup_singleton a
  | step hw hs ih =>
    rename_i c e path
    have hw' : Walk children a [] e (c::path) := .step hw hs
    refine List.nodup_cons.mpr ⟨fun hm => ?_,ih⟩
    exact hc e (reachable_iff_walk.mpr ⟨_,hw'⟩) (transGen_of_mem_path hw' hm)

theorem acc_iff_noCycleBelow {nodes : List α} (ho : ∀ a, ∀ b ∈ children a, b ∈ nodes) :
    Acc (fun b a => b ∈ children a) a ↔ NoCycleBelow children a := by
  constructor
  · intro h b hr hy
    have ha : Acc (fun b a => b ∈ children a) b := by
      clear hy
      induction hr with
      | refl => exact h
      | tail _ hc ih => exact ih.inv hc
    have hi : ∀ c, Acc (Relation.TransGen (fun b a => b ∈ children a)) c →
        ¬ Relation.TransGen (fun b a => b ∈ children a) c c := by
      intro c hc
      induction hc with
      | intro c _ ih => exact fun hs => ih c hs hs
    exact hi b ha.transGen (Relation.transGen_swap.mp hy)
  · intro hy
    have hin : ∀ {b path}, Walk children a [] b path → ∀ c ∈ (b::path).dropLast, c ∈ nodes := by
      intro b path hw
      induction hw with
      | here => simp
      | step _ ht ih =>
        rw [List.dropLast_cons_of_ne_nil (List.cons_ne_nil _ _)]
        exact List.forall_mem_cons.mpr ⟨ho _ _ ht,ih⟩
    have hl : ∀ {b path}, Walk children a [] b path → path.length ≤ nodes.length := by
      intro b path hw
      have hd := (nodup_walk hy hw).sublist (List.dropLast_sublist _)
      simpa using (hd.subperm (hin hw)).length_le
    -- a walk that goes on leaves fewer nodes to come to
    have hal : ∀ (n : ℕ) {b path}, Walk children a [] b path → nodes.length - path.length ≤ n →
        Acc (fun b a => b ∈ children a) b := by
      intro n
      induction n with
      | zero =>
        intro b path hw hn
        refine Acc.intro b (fun c hc => ?_)
        have hlo := hl (.step hw hc)
        simp only [List.length_cons] at hlo
        omega
      | succ n ih =>
        intro b path hw hn
        refine Acc.intro b (fun c hc => ih (.step hw hc) ?_)
        simp only [List.length_cons]
        omega
    exact hal _ .here le_rfl

end Unfold

end Unfolding
