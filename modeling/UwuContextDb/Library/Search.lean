import Mathlib.Algebra.BigOperators.Group.Finset.Basic
import Mathlib.Tactic.Linarith

/-! Worklist search of a finite graph: a node is taken from the list, tested, and its successors
are pushed, depth first or breadth first. With one unit of fuel for every edge and every
starting node the search is complete. -/

namespace Search

open List (mem_cons_of_mem mem_cons_self mem_cons append_assoc)

variable {V : Type} [DecidableEq V] (next : V → List V)

/-- Where the successors of a node go on the worklist. -/
inductive Discipline | stack | queue

def push : Discipline → List V → List V → List V
  | .stack, succ, rest => succ.reverse ++ rest
  | .queue, succ, rest => rest ++ succ

variable {d : Discipline} {v : V} {goal : V → Bool} {fuel : ℕ} {visited work : List V} {nodes : Finset V}

omit [DecidableEq V] in
@[simp] theorem mem_push {succ rest : List V} : v ∈ push d succ rest ↔ v ∈ succ ∨ v ∈ rest := by
  cases d <;> simp [push, or_comm]

omit [DecidableEq V] in
@[simp] theorem length_push (d : Discipline) (succ rest : List V) :
    (push d succ rest).length = succ.length + rest.length := by
  cases d <;> simp [push, Nat.add_comm]

/-- The first node found and the nodes visited before it. -/
def search (d : Discipline) (goal : V → Bool) : ℕ → List V → List V → Option V × List V
  | 0, visited, _ => (none, visited)
  | _+1, visited, [] => (none, visited)
  | fuel+1, visited, v::rest =>
    if v ∈ visited then search d goal fuel visited rest
    else if goal v then (some v, visited)
    else search d goal fuel (v::visited) (push d (next v) rest)

def Edge (a b : V) : Prop := b ∈ next a

/-- `b` is reachable from `a`. -/
abbrev Reaches (a b : V) : Prop := Relation.ReflTransGen (Edge next) a b

variable {next}

theorem search_found (h : (search next d goal fuel visited work).1 = some v) :
    goal v = true ∧ ∃ r ∈ work, Reaches next r v := by
  induction fuel generalizing visited work with
  | zero => simp [search] at h
  | succ fuel ih =>
    cases work with
    | nil => simp [search] at h
    | cons r rest =>
      simp only [search] at h
      split at h
      · obtain ⟨hg,r',hr',he⟩ := ih h
        exact ⟨hg,r',mem_cons_of_mem _ hr',he⟩
      · split at h
        · rename_i hg
          simp only [Option.some.injEq] at h
          exact ⟨h ▸ hg,r,mem_cons_self,h ▸ .refl⟩
        · obtain ⟨hg,r',hr',he⟩ := ih h
          rcases mem_push.mp hr' with hr' | hr'
          · exact ⟨hg,r,mem_cons_self, .head hr' he⟩
          · exact ⟨hg,r',mem_cons_of_mem _ hr',he⟩

theorem search_visited_sound (h : v ∈ (search next d goal fuel visited work).2) :
    v ∈ visited ∨ ∃ r ∈ work, Reaches next r v := by
  induction fuel generalizing visited work with
  | zero => exact .inl h
  | succ fuel ih =>
    cases work with
    | nil => exact .inl h
    | cons r rest =>
      simp only [search] at h
      split at h
      · rcases ih h with hv | ⟨r',hr',he⟩
        · exact .inl hv
        · exact .inr ⟨r',mem_cons_of_mem _ hr',he⟩
      · split at h
        · exact .inl h
        · rcases ih h with hv | ⟨r',hr',he⟩
          · rcases mem_cons.mp hv with rfl | hv
            · exact .inr ⟨v,mem_cons_self, .refl⟩
            · exact .inl hv
          · rcases mem_push.mp hr' with hr' | hr'
            · exact .inr ⟨r,mem_cons_self, .head hr' he⟩
            · exact .inr ⟨r',mem_cons_of_mem _ hr',he⟩

/-- The edges not yet followed: those leaving the nodes not yet visited. -/
def pending (next : V → List V) (nodes : Finset V) (visited : List V) : ℕ :=
  ∑ v ∈ nodes.filter (· ∉ visited), (next v).length

theorem pending_cons (ho : ∀ v, v ∉ nodes → next v = []) {visited : List V} (hv : v ∉ visited) :
    pending next nodes (v::visited) + (next v).length = pending next nodes visited := by
  unfold pending
  by_cases hm : v ∈ nodes
  · have hr : nodes.filter (· ∉ v::visited) = (nodes.filter (· ∉ visited)).erase v := by
      ext u
      simp only [mem_cons,not_or,Finset.mem_filter,Finset.mem_erase]
      tauto
    rw [hr]
    exact Finset.sum_erase_add _ _ (by simp [hm,hv])
  · have hs : nodes.filter (· ∉ v::visited) = nodes.filter (· ∉ visited) := by
      ext u
      simp only [mem_cons,not_or,Finset.mem_filter]
      constructor
      · rintro ⟨hu,-,hn⟩
        exact ⟨hu,hn⟩
      · rintro ⟨hu,hn⟩
        exact ⟨hu,fun he => hm (he ▸ hu),hn⟩
    rw [hs,ho v hm,List.length_nil,Nat.add_zero]

/-- Every visited node failed the test, and its successors are visited or waiting. -/
def Explored (next : V → List V) (goal : V → Bool) (visited work : List V) : Prop :=
  ∀ v ∈ visited, goal v = false ∧ ∀ u ∈ next v, u ∈ visited ∨ u ∈ work

omit [DecidableEq V] in
theorem Explored.skip {vis rest : List V} {r : V}
    (h : Explored next goal vis (r::rest)) (hr : r ∈ vis) : Explored next goal vis rest := by
  intro v hv
  obtain ⟨hg, hn⟩ := h v hv
  refine ⟨hg, fun u hu => ?_⟩
  rcases hn u hu with hu | hu
  · exact .inl hu
  · rcases List.mem_cons.mp hu with rfl | hu
    · exact .inl hr
    · exact .inr hu

omit [DecidableEq V] in
theorem Explored.visit {vis rest : List V} {r : V}
    (h : Explored next goal vis (r::rest)) (hg : goal r = false) :
    Explored next goal (r::vis) (push d (next r) rest) := by
  intro v hv
  rcases List.mem_cons.mp hv with rfl | hv
  · exact ⟨hg, fun u hu => .inr (mem_push.mpr (.inl hu))⟩
  · obtain ⟨hgv, hn⟩ := h v hv
    refine ⟨hgv, fun u hu => ?_⟩
    rcases hn u hu with hu | hu
    · exact .inl (List.mem_cons_of_mem _ hu)
    · rcases List.mem_cons.mp hu with rfl | hu
      · exact .inl List.mem_cons_self
      · exact .inr (mem_push.mpr (.inr hu))

/-- A search that finds nothing has visited its worklist and is closed under edges. -/
theorem search_closed (ho : ∀ v, v ∉ nodes → next v = [])
    (hf : pending next nodes visited+work.length ≤ fuel) (hi : Explored next goal visited work)
    (hn : (search next d goal fuel visited work).1 = none) :
    (∀ v, v ∈ visited ∨ v ∈ work → v ∈ (search next d goal fuel visited work).2) ∧
      Explored next goal (search next d goal fuel visited work).2 [] := by
  induction fuel generalizing visited work with
  | zero =>
    obtain rfl : work = [] := List.length_eq_zero_iff.mp (by omega)
    exact ⟨fun v hv => by simpa [search] using hv,hi⟩
  | succ fuel ih =>
    cases work with
    | nil => exact ⟨fun v hv => by simpa [search] using hv,hi⟩
    | cons r rest =>
      simp only [search] at hn ⊢
      simp only [List.length_cons] at hf
      by_cases hr : r ∈ visited
      · simp only [hr,if_true] at hn ⊢
        obtain ⟨hs,hc⟩ := ih (by omega) (hi.skip hr) hn
        refine ⟨fun v hv => hs v ?_,hc⟩
        rcases hv with h | h
        · exact .inl h
        · rcases mem_cons.mp h with rfl | h
          · exact .inl hr
          · exact .inr h
      · cases hg : goal r with
        | true => simp [hr,hg] at hn
        | false =>
          simp only [hr,hg,if_false,Bool.false_eq_true] at hn ⊢
          have hco := pending_cons ho hr
          obtain ⟨hs,hc⟩ := ih (by simp only [length_push]; omega) (hi.visit hg) hn
          refine ⟨fun v hv => hs v ?_,hc⟩
          rcases hv with h | h
          · exact .inl (mem_cons_of_mem _ h)
          · rcases mem_cons.mp h with rfl | h
            · exact .inl mem_cons_self
            · exact .inr (mem_push.mpr (.inr h))

omit [DecidableEq V] in
theorem Explored.reaches {visited : List V} (h : Explored next goal visited [])
    {a b : V} (ha : a ∈ visited) (hb : Reaches next a b) : b ∈ visited := by
  induction hb with
  | refl => exact ha
  | tail _ he ih => simpa using (h _ ih).2 _ he

/-- With enough fuel the search finds a node exactly when a reachable one passes the test. -/
theorem search_isSome_iff (goal : V → Bool) (ho : ∀ v, v ∉ nodes → next v = []) {work : List V}
    (hf : pending next nodes []+work.length ≤ fuel) :
    (search next d goal fuel [] work).1.isSome = true ↔ ∃ r ∈ work, ∃ v, Reaches next r v ∧ goal v = true := by
  constructor
  · intro h
    obtain ⟨v,hv⟩ := Option.isSome_iff_exists.mp h
    obtain ⟨hg,r,hr,he⟩ := search_found hv
    exact ⟨r,hr,v,he,hg⟩
  · rintro ⟨r,hr,v,he,hg⟩
    by_contra hn
    have hn' : (search next d goal fuel [] work).1 = none := by simpa using hn
    obtain ⟨hs,hc⟩ := search_closed ho hf (fun v hv => by simp at hv) hn'
    have hv := hc.reaches (hs r (.inr hr)) he
    simp [(hc v hv).1] at hg

/-- All the nodes a search from `work` visits. -/
def visitAll (next : V → List V) (fuel : ℕ) (work : List V) : List V :=
  (search next .stack (fun _ => false) fuel [] work).2

theorem search_never_found : (search next d (fun _ => false) fuel visited work).1 = none := by
  by_contra h
  obtain ⟨v,hv⟩ := Option.ne_none_iff_exists'.mp h
  simpa using (search_found hv).1

theorem mem_visitAll_iff (hn : ∀ v, v ∉ nodes → next v = []) {work : List V}
    (hf : pending next nodes []+work.length ≤ fuel) :
    v ∈ visitAll next fuel work ↔ ∃ r ∈ work, Reaches next r v := by
  constructor
  · intro h
    simpa using search_visited_sound h
  · rintro ⟨r,hr,he⟩
    have hx : Explored next (fun _ => false) [] work := fun v hv => by simp at hv
    obtain ⟨hs,hc⟩ := search_closed (d := .stack) hn hf hx search_never_found
    exact hc.reaches (hs r (.inr hr)) he

/-- The first nodes that are taken from a queue when every node's successors are queued, also those of a node seen
before. -/
def walk (next : V → List V) : ℕ → List V → List V
  | 0, _ => []
  | _+1, [] => []
  | n+1, v::queue => v::walk next n (queue ++ next v)

/-- Breadth first from `start`, the walk comes to `v` and has not come to `u` yet. -/
def Before (next : V → List V) (start v u : V) : Prop := ∃ n, v ∈ walk next n [start] ∧ u ∉ walk next n [start]

section BreadthFirst

omit [DecidableEq V]

theorem walk_begins {m n : ℕ} (h : m ≤ n) (queue : List V) : walk next m queue <+: walk next n queue := by
  induction m generalizing n queue with
  | zero => exact List.nil_prefix
  | succ m ih =>
    cases n with
    | zero => omega
    | succ n =>
      cases queue with
      | nil => exact List.prefix_rfl
      | cons v queue => exact List.cons_prefix_cons.mpr ⟨rfl,ih (by omega) _⟩

theorem Before.asymm {start v u : V} (h : Before next start v u) : ¬ Before next start u v := by
  rintro ⟨n,hu,hv⟩
  obtain ⟨m,hv',hu'⟩ := h
  rcases Nat.le_total m n with hl | hl
  · exact hv ((walk_begins hl _).subset hv')
  · exact hu' ((walk_begins hl _).subset hu)

theorem walk_append (front queue : List V) (n : ℕ) :
    walk next (front.length+n) (front++queue) = front ++ walk next n (queue++front.flatMap next) := by
  induction front generalizing queue with
  | nil => simp
  | cons v front ih =>
    rw [List.length_cons,Nat.add_right_comm]
    show v::walk next (front.length+n) (front++queue++next v) = v::(front++_)
    rw [append_assoc,ih,append_assoc,List.flatMap_cons]

/-- `work` is `queue` without some of the nodes that are among `seen` or stand in `queue` before. -/
inductive Thinned : List V → List V → List V → Prop
  | nil (seen : List V) : Thinned seen [] []
  | keep {seen queue work : List V} (v : V) (h : Thinned (v::seen) queue work) : Thinned seen (v::queue) (v::work)
  | drop {seen queue work : List V} (v : V) (hv : v ∈ seen) (h : Thinned seen queue work) : Thinned seen (v::queue) work

namespace Thinned

variable {seen queue work extra : List V} {v : V}

theorem refl (seen work : List V) : Thinned seen work work := by
  induction work generalizing seen with
  | nil => exact .nil seen
  | cons v work ih => exact .keep v (ih _)

theorem mono {seen' : List V} (h : Thinned seen queue work) (hs : seen ⊆ seen') : Thinned seen' queue work := by
  induction h generalizing seen' with
  | nil => exact .nil _
  | keep v _ ih => exact .keep v (ih (List.cons_subset_cons v hs))
  | drop v hv _ ih => exact .drop v (hs hv) (ih hs)

theorem append_dropped (h : Thinned seen queue work) (he : ∀ u ∈ extra, u ∈ seen ∨ u ∈ work) :
    Thinned seen (queue++extra) work := by
  induction h with
  | nil seen =>
    induction extra with
    | nil => exact .nil seen
    | cons u extra ih =>
      have hu : u ∈ seen := (he u mem_cons_self).resolve_right List.not_mem_nil
      exact .drop u hu (ih (fun w hw => he w (mem_cons_of_mem _ hw)))
  | keep v _ ih =>
    refine .keep v (ih (fun u hu => ?_))
    rcases he u hu with hu | hu
    · exact .inl (mem_cons_of_mem _ hu)
    · rcases mem_cons.mp hu with rfl | hu
      · exact .inl mem_cons_self
      · exact .inr hu
  | drop v hv _ ih => exact .drop v hv (ih he)

theorem append_kept (h : Thinned seen queue work) (extra : List V) : Thinned seen (queue++extra) (work++extra) := by
  induction h with
  | nil seen => exact refl seen extra
  | keep v _ ih => exact .keep v ih
  | drop v hv _ ih => exact .drop v hv ih

theorem uncons (h : Thinned seen queue (v::work)) : ∃ front rest, queue = front ++ v::rest ∧ (∀ u ∈ front, u ∈ seen) ∧
    Thinned (v::seen) rest work := by
  generalize hk : v::work = kept at h
  induction h with
  | nil => cases hk
  | keep u h _ =>
    cases hk
    exact ⟨[],_,rfl,by simp,h⟩
  | drop u hu _ ih =>
    obtain ⟨front,rest,rfl,hf,hr⟩ := ih hk
    refine ⟨u::front,rest,rfl,?_,hr⟩
    intro w hw
    rcases mem_cons.mp hw with rfl | hw
    · exact hu
    · exact hf w hw

end Thinned

end BreadthFirst

theorem search_queue_walk {vis queue work : List V}
    (ht : Thinned vis queue work) (he : Explored next goal vis work)
    (h : (search next .queue goal fuel vis work).1 = some v) :
    ∃ n front, walk next n queue = front ++ [v] ∧ ∀ u ∈ front, goal u = false := by
  induction fuel generalizing vis queue work with
  | zero => simp [search] at h
  | succ fuel ih =>
    cases work with
    | nil => simp [search] at h
    | cons r work =>
      obtain ⟨front,rest,rfl,hf,hre⟩ := ht.uncons
      have ha : ∀ u ∈ front, goal u = false := fun u hu => (he u (hf u hu)).1
      -- the successors of the nodes left out are vis, or wait on the list
      have hd : Thinned (r::vis) (rest++front.flatMap next) work := by
        refine hre.append_dropped (fun u hu => ?_)
        obtain ⟨w,hw,hu⟩ := List.mem_flatMap.mp hu
        rcases (he w (hf w hw)).2 u hu with hu | hu
        · exact .inl (mem_cons_of_mem _ hu)
        · rcases mem_cons.mp hu with rfl | hu
          · exact .inl mem_cons_self
          · exact .inr hu
      have hl : ∀ n, walk next (front.length+(n+1)) (front++r::rest) =
          (front++[r]) ++ walk next n (rest++front.flatMap next++next r) := by
        intro n
        rw [walk_append,append_assoc]
        rfl
      have hc : goal r = false → (∃ n front', walk next n (rest++front.flatMap next++next r) = front'++[v] ∧
          ∀ u ∈ front', goal u = false) → ∃ n front', walk next n (front++r::rest) = front' ++ [v] ∧
            ∀ u ∈ front', goal u = false := by
        rintro hr ⟨n,front',hq,hf'⟩
        refine ⟨front.length+(n+1),(front++[r])++front',by rw [hl,hq,← append_assoc],?_⟩
        intro u hu
        rcases List.mem_append.mp hu with hu | hu
        · rcases List.mem_append.mp hu with hu | hu
          · exact ha u hu
          · exact List.mem_singleton.mp hu ▸ hr
        · exact hf' u hu
      simp only [search] at h
      split at h
      · rename_i hv
        have hs := he.skip hv
        refine hc (he r hv).1 (ih ?_ hs h)
        have hm : Thinned vis (rest++front.flatMap next) work :=
          hd.mono (List.cons_subset.mpr ⟨hv,List.Subset.refl _⟩)
        exact hm.append_dropped (hs r hv).2
      · split at h
        · obtain rfl : r = v := Option.some.inj h
          exact ⟨front.length+1,front,by rw [hl 0]; simp [walk],ha⟩
        · rename_i hg
          have hg : goal r = false := by simpa using hg
          have hvs : Explored next goal (r::vis) (push .queue (next r) work) := he.visit hg
          exact hc hg (ih (hd.append_kept (next r)) hvs h)

end Search
