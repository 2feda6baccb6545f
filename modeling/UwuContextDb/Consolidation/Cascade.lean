import UwuContextDb.Consolidation.Invalidation
import UwuContextDb.Library.Hops
import UwuContextDb.Retrieve.Query

/-! The plan of a cascade: a search along entanglements that also meets what relations of the graph lead to. -/

namespace UwuContextDb.Consolidation

open Hops (ReachIn)
open Retrieve (GraphRelation)
open List (mem_cons_of_mem mem_cons_self mem_cons mem_append_left mem_map mem_append length_append mem_map_of_mem
  map_append append_assoc append_nil)

variable {F : Type}

structure Entanglement (F : Type) where
  partnerUri : ContextUri
  coOccurrence : F

structure CascadeInvalidationConfig (F : Type) where
  maxDepth : ℕ
  maxNodes : ℕ
  minCoOccurrence : F
  graphExpansion : Bool

/-- The numbers of the source as far as a plan depends on them: the constant 0.80, and `{:.2}`. -/
structure CoOccurrences (F : Type) where
  atLeast : F → F → Bool
  strong : F
  twoPlaces : F → String

structure CascadeInvalidator (F : Type) where
  numbers : CoOccurrences F
  entanglements : String → List (Entanglement F)
  graph : Option (ContextUri → Option (List (ContextUri × GraphRelation)))
  config : CascadeInvalidationConfig F

structure SearchState where
  seen : List ContextUri
  queue : List (ContextUri × ℕ)
  tasks : List CascadeInvalidationTask

def SearchState.add (queued : Bool) (task : CascadeInvalidationTask) (s : SearchState) : SearchState :=
  ⟨s.seen ++ [task.uri], if queued then s.queue ++ [(task.uri, task.depth)] else s.queue, s.tasks ++ [task]⟩

/-- A loop over edges, given as the tasks that they would make: a URI that is seen is passed over, and the loop ends when
the plan is full. Only the loop over the entanglements queues what it meets. -/
def admitAll (queued : Bool) (maxNodes : ℕ) : List CascadeInvalidationTask → SearchState → SearchState
  | [], s => s
  | task::rest, s =>
    if task.uri ∈ s.seen then admitAll queued maxNodes rest s
    else if maxNodes ≤ (s.add queued task).tasks.length then s.add queued task
    else admitAll queued maxNodes rest (s.add queued task)

namespace CascadeInvalidator

variable (inv : CascadeInvalidator F) (trigger : ContextUri)

def entanglementsFor (uri : ContextUri) : List (Entanglement F) :=
  (inv.entanglements uri.canonical).filter (fun e => inv.numbers.atLeast e.coOccurrence inv.config.minCoOccurrence)

def entangledTask (current : ContextUri) (depth : ℕ) (edge : Entanglement F) : CascadeInvalidationTask :=
  ⟨edge.partnerUri, trigger, depth,
    if depth = 1 && inv.numbers.atLeast edge.coOccurrence inv.numbers.strong then .invalidate else .revalidate,
    s!"entangled with {current.canonical} at co-occurrence {inv.numbers.twoPlaces edge.coOccurrence}"⟩

def relatedTask (current : ContextUri) (depth : ℕ) (edge : ContextUri × GraphRelation) : CascadeInvalidationTask :=
  ⟨edge.1, trigger, depth, .revalidate, s!"graph relation {edge.2.debug} from {current.canonical}"⟩

/-- What `batch_traverse` gives for the URI, in one hop over the three kinds; nothing if it fails or there is no graph. -/
def related (current : ContextUri) : List (ContextUri × GraphRelation) :=
  if inv.config.graphExpansion then (inv.graph.bind (· current)).getD [] else []

def expandGraph (current : ContextUri) (depth : ℕ) (s : SearchState) : SearchState :=
  if inv.config.maxNodes ≤ s.tasks.length then s
  else admitAll false inv.config.maxNodes ((inv.related current).map (relatedTask trigger current depth)) s

def followEntanglements (current : ContextUri) (depth : ℕ) (s : SearchState) : SearchState :=
  admitAll true inv.config.maxNodes ((inv.entanglementsFor current).map (inv.entangledTask trigger current depth)) s

def round (s : SearchState) : SearchState :=
  match s.queue with
  | [] => s
  | (current, depth)::rest =>
    let s := { s with queue := rest }
    if inv.config.maxDepth ≤ depth ∨ inv.config.maxNodes ≤ s.tasks.length then s
    else inv.expandGraph trigger current (depth + 1) (inv.followEntanglements trigger current (depth + 1) s)

def start : SearchState := ⟨[trigger], [(trigger, 0)], []⟩

def after (n : ℕ) : SearchState := (inv.round trigger)^[n] (start trigger)

/-- `plan_from_invalidated`. After one round for the trigger and one for each task of a full plan nothing is queued. -/
def planFromInvalidated : List CascadeInvalidationTask := (inv.after trigger (inv.config.maxNodes + 1)).tasks

def withoutGraph : CascadeInvalidator F := { inv with graph := none }

end CascadeInvalidator

def newTasks (seen : List ContextUri) : List CascadeInvalidationTask → List CascadeInvalidationTask
  | [] => []
  | task::rest => if task.uri ∈ seen then newTasks seen rest else task :: newTasks (seen ++ [task.uri]) rest

theorem newTasks_congr {seen seen' : List ContextUri} {tasks : List CascadeInvalidationTask}
    (h : ∀ task ∈ tasks, task.uri ∈ seen ↔ task.uri ∈ seen') : newTasks seen tasks = newTasks seen' tasks := by
  induction tasks generalizing seen seen' with
  | nil => rfl
  | cons task rest ih =>
    have hr : ∀ t ∈ rest, t.uri ∈ seen ↔ t.uri ∈ seen' := fun t ht => h t (mem_cons_of_mem _ ht)
    have hn : newTasks (seen++[task.uri]) rest = newTasks (seen'++[task.uri]) rest :=
      ih (fun t ht => by simp [hr t ht])
    simp only [newTasks,h task mem_cons_self,ih hr,hn]

/-- What a loop over edges leaves: the tasks it has added, of URIs not seen before, and, unless the plan is full, every
URI of the edges seen. -/
structure Admitted (queued : Bool) (maxNodes : ℕ) (candidates : List CascadeInvalidationTask) (s s' : SearchState)
    (added : List CascadeInvalidationTask) : Prop where
  tasks : s'.tasks = s.tasks ++ added
  seen : s'.seen = s.seen ++ added.map (·.uri)
  queue : s'.queue = if queued then s.queue ++ added.map (fun task => (task.uri, task.depth)) else s.queue
  subset : ∀ task ∈ added, task ∈ candidates ∧ task.uri ∉ s.seen
  nodup : (added.map (·.uri)).Nodup
  all : s'.tasks.length < maxNodes → added = newTasks s.seen candidates ∧ ∀ task ∈ candidates, task.uri ∈ s'.seen

theorem admitted (queued : Bool) (maxNodes : ℕ) (candidates : List CascadeInvalidationTask) (s : SearchState) :
    ∃ added, Admitted queued maxNodes candidates s (admitAll queued maxNodes candidates s) added ∧
      (s.tasks.length < maxNodes → (admitAll queued maxNodes candidates s).tasks.length ≤ maxNodes) := by
  induction candidates generalizing s with
  | nil => exact ⟨[],⟨by simp [admitAll],by simp [admitAll],by simp [admitAll],by simp,by simp,by simp [newTasks]⟩,le_of_lt⟩
  | cons task rest ih =>
    by_cases hs : task.uri ∈ s.seen
    · rw [admitAll,if_pos hs]
      obtain ⟨added,h,he⟩ := ih s
      refine ⟨added,⟨h.tasks,h.seen,h.queue,fun t ht => ?_,h.nodup,fun hl => ⟨?_,fun t ht => ?_⟩⟩,he⟩
      · exact ⟨mem_cons_of_mem _ (h.subset t ht).1,(h.subset t ht).2⟩
      · rw [newTasks,if_pos hs]
        exact (h.all hl).1
      · rcases mem_cons.mp ht with rfl | ht
        · rw [h.seen]
          exact mem_append_left _ hs
        · exact (h.all hl).2 t ht
    by_cases hf : maxNodes ≤ (s.add queued task).tasks.length
    · rw [admitAll,if_neg hs,if_pos hf]
      refine ⟨[task],⟨rfl,rfl,rfl,by simpa using hs,by simp,fun hl => ?_⟩,fun hl => ?_⟩
      · exact absurd hf (not_le.mpr hl)
      · simpa [SearchState.add,Nat.succ_le_iff] using hl
    · rw [admitAll,if_neg hs,if_neg hf]
      obtain ⟨added,h,he⟩ := ih (s.add queued task)
      refine ⟨task::added,⟨?_,?_,?_,fun t ht => ?_,?_,fun hl => ⟨?_,fun t ht => ?_⟩⟩,
        fun _ => he (not_le.mp hf)⟩
      · rw [h.tasks]
        simp [SearchState.add]
      · rw [h.seen]
        simp [SearchState.add]
      · rw [h.queue]
        cases queued <;> simp [SearchState.add]
      · rcases mem_cons.mp ht with rfl | ht
        · exact ⟨mem_cons_self,hs⟩
        · obtain ⟨hm,hn⟩ := h.subset t ht
          exact ⟨mem_cons_of_mem _ hm,fun ho => hn (mem_append_left _ ho)⟩
      · refine List.nodup_cons.mpr ⟨fun hm => ?_,h.nodup⟩
        obtain ⟨t,ht,hq⟩ := mem_map.mp hm
        exact (h.subset t ht).2 (by simp [hq,SearchState.add])
      · rw [newTasks,if_neg hs,(h.all hl).1]
        rfl
      · rcases mem_cons.mp ht with rfl | ht
        · rw [h.seen]
          simp [SearchState.add]
        · exact (h.all hl).2 t ht

namespace CascadeInvalidator

variable {inv : CascadeInvalidator F} {trigger : ContextUri} {s s' : SearchState} {n : ℕ}

inductive Rounded (inv : CascadeInvalidator F) (trigger : ContextUri) (s : SearchState) : SearchState → Prop
  | ended (hqueue : s.queue = []) : Rounded inv trigger s s
  | skipped {current : ContextUri} {depth : ℕ} {rest : List (ContextUri × ℕ)} (hqueue : s.queue = (current, depth)::rest)
      (hstop : inv.config.maxDepth ≤ depth ∨ inv.config.maxNodes ≤ s.tasks.length) :
      Rounded inv trigger s { s with queue := rest }
  | expanded {current : ContextUri} {depth : ℕ} {rest : List (ContextUri × ℕ)} {s' s'' : SearchState}
      {met found : List CascadeInvalidationTask} (hqueue : s.queue = (current, depth)::rest)
      (hdepth : depth < inv.config.maxDepth) (hnodes : s.tasks.length < inv.config.maxNodes)
      (hmet : Admitted true inv.config.maxNodes ((inv.entanglementsFor current).map
        (inv.entangledTask trigger current (depth + 1))) { s with queue := rest } s' met)
      (hfound : Admitted false inv.config.maxNodes ((inv.related current).map
        (relatedTask trigger current (depth + 1))) s' s'' found) (hfew : s''.tasks.length ≤ inv.config.maxNodes) :
      Rounded inv trigger s s''

theorem expandGraph_admitted (cur : ContextUri) (depth : ℕ) (he : s.tasks.length ≤ inv.config.maxNodes) :
    ∃ found, Admitted false inv.config.maxNodes ((inv.related cur).map (relatedTask trigger cur depth)) s
      (inv.expandGraph trigger cur depth s) found ∧
      (inv.expandGraph trigger cur depth s).tasks.length ≤ inv.config.maxNodes := by
  unfold expandGraph
  split
  · rename_i hf
    exact ⟨[],⟨by simp,by simp,rfl,by simp,by simp,fun h => absurd hf (not_le.mpr h)⟩,he⟩
  · rename_i hf
    obtain ⟨found,ho,hl⟩ := admitted false inv.config.maxNodes
      ((inv.related cur).map (relatedTask trigger cur depth)) s
    exact ⟨found,ho,hl (not_le.mp hf)⟩

theorem rounded (inv : CascadeInvalidator F) (trigger : ContextUri) (s : SearchState) :
    Rounded inv trigger s (inv.round trigger s) := by
  unfold round
  split
  · rename_i hq
    exact .ended hq
  · rename_i cur depth rest hq
    dsimp only
    split
    · rename_i hs
      exact .skipped hq hs
    · rename_i hg
      obtain ⟨hd,hn⟩ := not_or.mp hg
      obtain ⟨met,hm,hf⟩ := admitted true inv.config.maxNodes
        ((inv.entanglementsFor cur).map (inv.entangledTask trigger cur (depth+1))) { s with queue := rest }
      obtain ⟨found,ho,hl⟩ := expandGraph_admitted cur (depth+1) (hf (not_le.mp hn))
      exact .expanded hq (not_le.mp hd) (not_le.mp hn) hm ho hl

theorem after_succ (n : ℕ) : inv.after trigger (n+1) = inv.round trigger (inv.after trigger n) :=
  Function.iterate_succ_apply' _ _ _

structure Bounded (inv : CascadeInvalidator F) (trigger : ContextUri) (s : SearchState) : Prop where
  seen : s.seen = trigger :: s.tasks.map (·.uri)
  nodup : s.seen.Nodup
  few : s.tasks.length ≤ inv.config.maxNodes
  depth : ∀ task ∈ s.tasks, task.depth ≤ inv.config.maxDepth

theorem entangledTask_depth {cur : ContextUri} {depth : ℕ} {task : CascadeInvalidationTask}
    (h : task ∈ (inv.entanglementsFor cur).map (inv.entangledTask trigger cur depth)) : task.depth = depth := by
  obtain ⟨edge,-,rfl⟩ := mem_map.mp h
  rfl

theorem relatedTask_depth {cur : ContextUri} {depth : ℕ} {task : CascadeInvalidationTask}
    (h : task ∈ (inv.related cur).map (relatedTask trigger cur depth)) : task.depth = depth := by
  obtain ⟨edge,-,rfl⟩ := mem_map.mp h
  rfl

theorem admitted_bounded {queued : Bool} {candidates added : List CascadeInvalidationTask} {depth : ℕ}
    (ha : Admitted queued inv.config.maxNodes candidates s s' added)
    (hs : s.seen = trigger :: s.tasks.map (·.uri)) (ho : s.seen.Nodup)
    (hd : ∀ task ∈ s.tasks, task.depth ≤ inv.config.maxDepth) (hn : ∀ task ∈ candidates, task.depth = depth)
    (he : depth ≤ inv.config.maxDepth) : s'.seen = trigger :: s'.tasks.map (·.uri) ∧ s'.seen.Nodup ∧
      ∀ task ∈ s'.tasks, task.depth ≤ inv.config.maxDepth := by
  refine ⟨by simp [ha.seen,ha.tasks,hs],?_,fun task ht => ?_⟩
  · rw [ha.seen]
    refine ho.append ha.nodup (fun u hl hn => ?_)
    obtain ⟨task,ht,rfl⟩ := mem_map.mp hn
    exact (ha.subset task ht).2 hl
  · rw [ha.tasks] at ht
    rcases mem_append.mp ht with ht | ht
    · exact hd task ht
    · exact (hn task (ha.subset task ht).1).trans_le he

theorem Bounded.round (h : Bounded inv trigger s) : Bounded inv trigger (inv.round trigger s) := by
  have hr := rounded inv trigger s
  generalize inv.round trigger s = after at hr
  cases hr with
  | ended hq => exact h
  | skipped hq ht => exact ⟨h.seen,h.nodup,h.few,h.depth⟩
  | expanded hq hd hnd hm hf he =>
    obtain ⟨hs,hn,hl⟩ := admitted_bounded hm h.seen h.nodup h.depth (fun _ => entangledTask_depth) hd
    obtain ⟨hs,hn,hl⟩ := admitted_bounded hf hs hn hl (fun _ => relatedTask_depth) hd
    exact ⟨hs,hn,he,hl⟩

theorem bounded_after (n : ℕ) : Bounded inv trigger (inv.after trigger n) := by
  induction n with
  | zero => exact ⟨rfl,List.nodup_singleton _,Nat.zero_le _,by simp [after,start]⟩
  | succ n ih =>
    rw [after_succ]
    exact ih.round

/-- Every round takes one URI from the queue, and only a task brings one there. -/
theorem rounds_le (n : ℕ) : (inv.after trigger n).queue = [] ∨
    n + (inv.after trigger n).queue.length ≤ (inv.after trigger n).tasks.length + 1 := by
  induction n with
  | zero => exact .inr (by simp [after,start])
  | succ n ih =>
    rw [after_succ]
    have hr := rounded inv trigger (inv.after trigger n)
    generalize inv.round trigger (inv.after trigger n) = after at hr
    generalize inv.after trigger n = before at hr ih
    cases hr with
    | ended hq => exact .inl hq
    | skipped hq hs =>
      rw [hq,List.length_cons] at ih
      exact .inr (by have := ih.resolve_left (by simp); dsimp only; omega)
    | expanded hq hd hn hm hf he =>
      rw [hq,List.length_cons] at ih
      have := ih.resolve_left (by simp)
      refine .inr ?_
      rw [hf.queue,hf.tasks,hm.tasks,if_neg (by simp),hm.queue,if_pos rfl]
      simp only [length_append,List.length_map]
      omega

/-- After the rounds that a full plan needs the loop has ended. -/
theorem queue_nil : (inv.after trigger (inv.config.maxNodes+1)).queue = [] := by
  rcases rounds_le (inv.config.maxNodes+1) with h | h
  · exact h
  · have hf := (@bounded_after F inv trigger (inv.config.maxNodes+1)).few
    exact List.length_eq_zero_iff.mp (by omega)

section Distances

variable (inv : CascadeInvalidator F) (trigger : ContextUri)

def Leads (u v : ContextUri) : Prop := ∃ edge ∈ inv.entanglementsFor u, edge.partnerUri = v

def Distance (d : ℕ) (v : ContextUri) : Prop := ReachIn inv.Leads (· = trigger) d v ∧ ¬ Hops.Within inv.Leads (· = trigger) d v

def InRange (v : ContextUri) : Prop := Hops.Within inv.Leads (· = trigger) (inv.config.maxDepth + 1) v

def RelationsFollow : Prop :=
  ∀ n current depth rest, (inv.withoutGraph.after trigger n).queue = (current, depth)::rest → depth < inv.config.maxDepth →
    ∀ edge ∈ inv.related current, inv.InRange trigger edge.1 → edge.1 ∈ (inv.withoutGraph.after trigger (n + 1)).seen

end Distances

def labels (trigger : ContextUri) (s : SearchState) : List (ContextUri × ℕ) :=
  (trigger, 0) :: s.tasks.map (fun task => (task.uri, task.depth))

/-- A search that has met in the range of the entanglements what the search `o` without the graph has met. An expanded URI
has all that it is entangled with seen, at most one deeper. -/
structure Searched (inv : CascadeInvalidator F) (trigger : ContextUri) (s o : SearchState) : Prop where
  queue : o.queue = s.queue
  seen : ∀ v ∈ o.seen, v ∈ s.seen
  apart : ∀ v ∈ s.seen, inv.InRange trigger v → v ∈ o.seen
  sorted : s.queue.Pairwise (fun a b => a.2 ≤ b.2)
  ahead : ∀ l ∈ labels trigger s, ∀ q ∈ s.queue, l.2 ≤ q.2 + 1
  queued : ∀ q ∈ s.queue, q ∈ labels trigger s ∧ ReachIn inv.Leads (· = trigger) q.2 q.1
  reached : ∀ l ∈ labels trigger s, inv.InRange trigger l.1 → ReachIn inv.Leads (· = trigger) l.2 l.1
  closed : ∀ l ∈ labels trigger s, inv.InRange trigger l.1 → l.2 < inv.config.maxDepth → l ∈ s.queue ∨
    ∀ v, inv.Leads l.1 v → v ∈ s.seen ∧ ∀ l' ∈ labels trigger s, l'.1 = v → l'.2 ≤ l.2 + 1

theorem exists_label (h : s.seen = trigger :: s.tasks.map (·.uri)) {v : ContextUri} (hv : v ∈ s.seen) :
    ∃ l ∈ labels trigger s, l.1 = v := by
  rw [h] at hv
  rcases mem_cons.mp hv with rfl | hv
  · exact ⟨_,mem_cons_self,rfl⟩
  · obtain ⟨task,ht,rfl⟩ := mem_map.mp hv
    exact ⟨(task.uri, task.depth),mem_cons_of_mem _ (mem_map_of_mem ht),rfl⟩

theorem Searched.start : Searched inv trigger (start trigger) (start trigger) := by
  refine ⟨rfl,fun _ h => h,fun _ h _ => h,List.pairwise_singleton _ _,?_,?_,?_,?_⟩
  · simp [labels,CascadeInvalidator.start]
  · simp [labels,CascadeInvalidator.start]
  · simp [labels,CascadeInvalidator.start]
  · simp [labels,CascadeInvalidator.start]

/-- The tasks that expanding a URI at a depth adds. -/
theorem labels_added {added : List CascadeInvalidationTask} {depth : ℕ} (ha : s'.tasks = s.tasks++added)
    (hd : ∀ task ∈ added, task.depth = depth) {l : ContextUri × ℕ} (hl : l ∈ labels trigger s') :
    l ∈ labels trigger s ∨ l.2 = depth ∧ ∃ task ∈ added, task.uri = l.1 := by
  rw [labels,ha,map_append,← List.cons_append] at hl
  rcases mem_append.mp hl with hl | hl
  · exact .inl hl
  · obtain ⟨task,ht,rfl⟩ := mem_map.mp hl
    exact .inr ⟨hd task ht,task,ht,rfl⟩

/-- The URI at the head of the queue is expanded in both searches. -/
theorem Searched.expand {o o' : SearchState} (h : Searched inv trigger s o)
    {current : ContextUri} {depth : ℕ} {rest : List (ContextUri × ℕ)} (hu : s.queue = (current, depth)::rest)
    {met found : List CascadeInvalidationTask}
    (ha : s'.tasks = s.tasks++(met++found)) (hs : s'.seen = s.seen++(met++found).map (·.uri))
    (hu' : s'.queue = rest++met.map (fun task => (task.uri, task.depth)))
    (ho : o'.queue = s'.queue ∧ o'.seen = o.seen++met.map (·.uri))
    (hm : ∀ task ∈ met, task.depth = depth+1 ∧ inv.Leads current task.uri)
    (hf : ∀ task ∈ found, task.depth = depth+1 ∧ ¬ inv.InRange trigger task.uri)
    (hw : ∀ task ∈ met++found, task.uri ∉ s.seen) (hal : ∀ v, inv.Leads current v → v ∈ s'.seen) :
    Searched inv trigger s' o' := by
  have hcu : ReachIn inv.Leads (· = trigger) depth current := (h.queued (current, depth) (by simp [hu])).2
  have hd : ∀ task ∈ met ++ found, task.depth = depth + 1 := by
    intro task ht
    rcases mem_append.mp ht with ht | ht
    · exact (hm task ht).1
    · exact (hf task ht).1
  have hol : ∀ l ∈ labels trigger s, l.2 ≤ depth + 1 := fun l hl => h.ahead l hl (current, depth) (by simp [hu])
  have hk : ∀ l ∈ labels trigger s, l ∈ labels trigger s' := by
    intro l hl
    rw [labels,ha,map_append,← List.cons_append]
    exact mem_append_left _ hl
  have hb : ∀ l ∈ labels trigger s', l.2 ≤ depth + 1 := by
    intro l hl
    rcases labels_added ha hd hl with hl | ⟨he,-⟩
    · exact hol l hl
    · exact he.le
  have hso := h.sorted
  rw [hu,List.pairwise_cons] at hso
  have hwa : ∀ q ∈ s'.queue, depth ≤ q.2 := by
    intro q hq
    rw [hu'] at hq
    rcases mem_append.mp hq with hq | hq
    · exact hso.1 q hq
    · obtain ⟨task,ht,rfl⟩ := mem_map.mp hq
      exact (Nat.le_succ depth).trans_eq (hm task ht).1.symm
  have hseen_of : ∀ v ∈ s'.seen, inv.InRange trigger v → v ∈ s.seen ∨ ∃ task ∈ met, task.uri = v := by
    intro v hv hr
    rw [hs] at hv
    refine (mem_append.mp hv).imp_right (fun hv => ?_)
    obtain ⟨task,ht,rfl⟩ := mem_map.mp hv
    exact ⟨task,(mem_append.mp ht).resolve_right (fun ht => (hf task ht).2 hr),rfl⟩
  refine ⟨ho.1,fun v hv => ?_,fun v hv hr => ?_,?_,fun l hl q hq => ?_,fun q hq => ?_,fun l hl hr => ?_,
    fun l hl hr hlt => ?_⟩
  · rw [ho.2] at hv
    rw [hs,map_append,← append_assoc]
    exact mem_append_left _ ((mem_append.mp hv).elim (fun hv => mem_append_left _ (h.seen v hv))
      (List.mem_append_right _))
  · rw [ho.2]
    rcases hseen_of v hv hr with hv | ⟨task,ht,rfl⟩
    · exact mem_append_left _ (h.apart v hv hr)
    · exact List.mem_append_right _ (mem_map_of_mem ht)
  · rw [hu']
    refine List.pairwise_append.mpr ⟨hso.2,?_,fun q hq q' hq' => ?_⟩
    · refine List.pairwise_of_forall_mem_list (fun q hq q' hq' => ?_)
      obtain ⟨task,ht,rfl⟩ := mem_map.mp hq
      obtain ⟨task',ht',rfl⟩ := mem_map.mp hq'
      exact ((hm task ht).1.trans (hm task' ht').1.symm).le
    · obtain ⟨task,ht,rfl⟩ := mem_map.mp hq'
      exact (hol q (h.queued q (by simp [hu,hq])).1).trans_eq (hm task ht).1.symm
  · exact (hb l hl).trans (Nat.succ_le_succ (hwa q hq))
  · rw [hu'] at hq
    rcases mem_append.mp hq with hq | hq
    · obtain ⟨hl,hre⟩ := h.queued q (by simp [hu,hq])
      exact ⟨hk q hl,hre⟩
    · obtain ⟨task,ht,rfl⟩ := mem_map.mp hq
      refine ⟨?_,(hm task ht).1 ▸ .step hcu (hm task ht).2⟩
      rw [labels,ha,map_append]
      exact mem_cons_of_mem _ (List.mem_append_right _ (mem_map.mpr ⟨task,mem_append_left _ ht,rfl⟩))
  · rcases labels_added ha hd hl with hl | ⟨he,task,ht,hi⟩
    · exact h.reached l hl hr
    · rcases mem_append.mp ht with ht | ht
      · rw [he,← hi]
        exact .step hcu (hm task ht).2
      · exact absurd (hi ▸ hr) (hf task ht).2
  · by_cases hn : l = (current, depth)
    · subst hn
      exact .inr (fun v hv => ⟨hal v hv,fun l' hl' _ => hb l' hl'⟩)
    rcases labels_added ha hd hl with hl | ⟨he,task,ht,hi⟩
    · rcases h.closed l hl hr hlt with hq | hc
      · rw [hu] at hq
        refine .inl ?_
        rw [hu']
        exact mem_append_left _ ((mem_cons.mp hq).resolve_left hn)
      · refine .inr (fun v hv => ⟨?_,fun l' hl' hv' => ?_⟩)
        · rw [hs]
          exact mem_append_left _ (hc v hv).1
        · rcases labels_added ha hd hl' with hl' | ⟨-,task,ht,hi⟩
          · exact (hc v hv).2 l' hl' hv'
          · exact absurd ((hi.trans hv') ▸ (hc v hv).1) (hw task ht)
    · refine .inl ?_
      have ht := (mem_append.mp ht).resolve_right (fun ht => (hf task ht).2 (hi ▸ hr))
      rw [hu']
      refine List.mem_append_right _ (mem_map.mpr ⟨task,ht,?_⟩)
      rw [(hm task ht).1,hi,← he]

theorem tasks_grow (s : SearchState) : ∃ added, (inv.round trigger s).tasks = s.tasks ++ added := by
  have hr := rounded inv trigger s
  generalize inv.round trigger s = after at hr
  cases hr with
  | ended hq => exact ⟨[],by simp⟩
  | skipped hq hs => exact ⟨[],by simp⟩
  | expanded hq hd hn hm hf he => exact ⟨_,by rw [hf.tasks,hm.tasks,append_assoc]⟩

theorem leads_of_entangled {cur : ContextUri} {depth : ℕ} {task : CascadeInvalidationTask}
    (h : task ∈ (inv.entanglementsFor cur).map (inv.entangledTask trigger cur depth)) : inv.Leads cur task.uri := by
  obtain ⟨edge,he,rfl⟩ := mem_map.mp h
  exact ⟨edge,he,rfl⟩

theorem related_withoutGraph (cur : ContextUri) : inv.withoutGraph.related cur = [] := by
  unfold related
  split <;> rfl

theorem Searched.round {o : SearchState} (h : Searched inv trigger s o) (hb : Bounded inv trigger s)
    (hbo : Bounded inv.withoutGraph trigger o)
    (hfo : ∀ cur depth rest, o.queue = (cur, depth)::rest → depth < inv.config.maxDepth →
      ∀ edge ∈ inv.related cur, inv.InRange trigger edge.1 → edge.1 ∈ (inv.withoutGraph.round trigger o).seen)
    (hlt : (inv.round trigger s).tasks.length < inv.config.maxNodes) :
    Searched inv trigger (inv.round trigger s) (inv.withoutGraph.round trigger o) := by
  have hro := rounded inv trigger s
  have hr := rounded inv.withoutGraph trigger o
  have hb' := hb.round
  have hbo' := hbo.round
  obtain ⟨added,hw⟩ := @tasks_grow F inv trigger s
  have hs : s.tasks.length < inv.config.maxNodes := by
    rw [hw,length_append] at hlt
    omega
  have hh : ∀ {o₁ s₁ : SearchState}, Bounded inv.withoutGraph trigger o₁ → Bounded inv trigger s₁ →
      (∀ v ∈ o₁.seen, v ∈ s₁.seen) → o₁.tasks.length ≤ s₁.tasks.length := by
    intro o₁ s₁ ho₁ hs₁ hsu
    have hle := (ho₁.nodup.subperm hsu).length_le
    rw [ho₁.seen,hs₁.seen] at hle
    simpa using hle
  have hqs := h.queue
  clear hw
  generalize inv.round trigger s = s₁ at hro hlt hb' ⊢
  generalize inv.withoutGraph.round trigger o = o₁ at hr hfo hbo' ⊢
  cases hro with
  | ended hu =>
    cases hr with
    | ended => exact h
    | skipped ho => simp [ho,hu] at hqs
    | expanded ho => simp [ho,hu] at hqs
  | @skipped cur depth rest hu hst =>
    have hd := hst.resolve_right (not_le.mpr hs)
    cases hr with
    | ended ho => simp [ho,hu] at hqs
    | expanded ho hod =>
      simp only [ho,hu,List.cons.injEq,Prod.mk.injEq] at hqs
      obtain ⟨⟨rfl,rfl⟩,rfl⟩ := hqs
      exact absurd hd (not_le.mpr hod)
    | skipped ho hos =>
      simp only [ho,hu,List.cons.injEq,Prod.mk.injEq] at hqs
      obtain ⟨⟨rfl,rfl⟩,rfl⟩ := hqs
      have hso := h.sorted
      rw [hu,List.pairwise_cons] at hso
      refine ⟨rfl,h.seen,h.apart,hso.2,fun l hl q hq => h.ahead l hl q (by simp [hu,hq]),
        fun q hq => h.queued q (by simp [hu,hq]),h.reached,fun l hl ha hsh => ?_⟩
      refine (h.closed l hl ha hsh).imp_left (fun hq => ?_)
      rw [hu] at hq
      refine (mem_cons.mp hq).resolve_left ?_
      rintro rfl
      exact absurd hd (not_le.mpr hsh)
  | @expanded cur depth rest mid _ met found hu hp hno hm hf hfe =>
    cases hr with
    | ended ho => simp [ho,hu] at hqs
    | skipped ho hos =>
      simp only [ho,hu,List.cons.injEq,Prod.mk.injEq] at hqs
      obtain ⟨⟨rfl,rfl⟩,rfl⟩ := hqs
      rcases hos with hd | hfu
      · exact absurd hd (not_le.mpr hp)
      · exact absurd (hfu.trans (hh hbo hb h.seen)) (not_le.mpr hs)
    | @expanded u k waiting omid _ omet ofound ho hod hon he hof hofe =>
      have hhe := hqs
      simp only [ho,hu,List.cons.injEq,Prod.mk.injEq] at hhe
      obtain ⟨⟨rfl,rfl⟩,rfl⟩ := hhe
      obtain rfl : ofound = [] := by
        refine List.eq_nil_iff_forall_not_mem.mpr (fun task ht => ?_)
        simpa [related_withoutGraph] using (hof.subset task ht).1
      have hi : mid.tasks.length < inv.config.maxNodes := by
        rw [hf.tasks,length_append] at hlt
        omega
      have hsu : ∀ v ∈ o₁.seen, v ∈ mid.seen := by
        intro v hv
        rw [hof.seen,he.seen] at hv
        simp only [List.map_nil,append_nil,mem_append] at hv
        rcases hv with hv | hv
        · rw [hm.seen]
          exact mem_append_left _ (h.seen v hv)
        · obtain ⟨task,ht,rfl⟩ := mem_map.mp hv
          exact (hm.all hi).2 task (he.subset task ht).1
      have hgr : ∀ v ∈ mid.seen, v ∈ s₁.seen := fun v hv => hf.seen ▸ mem_append_left _ hv
      have hom : omid.tasks.length < inv.config.maxNodes := by
        have hle := hh hbo' hb' (fun v hv => hgr v (hsu v hv))
        rw [hof.tasks,append_nil] at hle
        omega
      have ha : ∀ v, inv.Leads u v → inv.InRange trigger v := fun v hv =>
        ⟨k+1,Nat.succ_lt_succ hp, .step (h.queued (u, k) (by simp [hu])).2 hv⟩
      obtain rfl : omet = met := by
        rw [(he.all hom).1,(hm.all hi).1]
        exact newTasks_congr (fun task ht => ⟨h.seen _,fun hv => h.apart _ hv (ha _ (leads_of_entangled ht))⟩)
      refine @Searched.expand F inv trigger s s₁ o o₁ h u k waiting hu omet found ?_ ?_ ?_ ⟨?_,?_⟩ (fun task ht => ?_)
        (fun task ht => ⟨?_,fun hn => ?_⟩) (fun task ht => ?_) (fun v hv => ?_)
      · rw [hf.tasks,hm.tasks,append_assoc]
      · rw [hf.seen,hm.seen,map_append,append_assoc]
      · rw [hf.queue,if_neg (by simp),hm.queue,if_pos rfl]
      · rw [hof.queue,if_neg (by simp),he.queue,if_pos rfl,hf.queue,if_neg (by simp),hm.queue,if_pos rfl]
      · rw [hof.seen,he.seen,List.map_nil,append_nil]
      · exact ⟨entangledTask_depth (hm.subset task ht).1,leads_of_entangled (hm.subset task ht).1⟩
      · exact relatedTask_depth (hf.subset task ht).1
      · obtain ⟨edge,hg,rfl⟩ := mem_map.mp (hf.subset task ht).1
        exact (hf.subset _ ht).2 (hsu _ (hfo u k waiting ho hp edge hg hn))
      · rcases mem_append.mp ht with ht | ht
        · exact (hm.subset task ht).2
        · exact fun hv => (hf.subset task ht).2 (hm.seen ▸ mem_append_left _ hv)
      · obtain ⟨edge,hg,rfl⟩ := hv
        exact hgr _ ((hm.all hi).2 _ (mem_map_of_mem hg))

theorem tasks_mono (inv : CascadeInvalidator F) (trigger : ContextUri) :
    Monotone (fun n => (inv.after trigger n).tasks.length) := by
  refine monotone_nat_of_le_succ (fun n => ?_)
  obtain ⟨added,hg⟩ := @tasks_grow F inv trigger (inv.after trigger n)
  rw [after_succ,hg,length_append]
  omega

theorem searched_after (hf : inv.RelationsFollow trigger) {n : ℕ}
    (hl : (inv.after trigger n).tasks.length < inv.config.maxNodes) :
    Searched inv trigger (inv.after trigger n) (inv.withoutGraph.after trigger n) := by
  induction n with
  | zero => exact .start
  | succ n ih =>
    have hb := ih ((tasks_mono inv trigger (Nat.le_succ n)).trans_lt hl)
    rw [after_succ] at hl
    rw [after_succ,after_succ]
    refine hb.round (bounded_after n) (bounded_after n) (fun cur depth rest hq hd => ?_) hl
    rw [← after_succ]
    exact hf n cur depth rest hq hd

/-- Where the search has ended, every URI in range has a label, of its number of steps at most. -/
theorem Searched.complete {o : SearchState} (h : Searched inv trigger s o) (hb : Bounded inv trigger s)
    (he : s.queue = []) {d : ℕ} (hd : d ≤ inv.config.maxDepth) {v : ContextUri}
    (hv : ReachIn inv.Leads (· = trigger) d v) : ∃ l ∈ labels trigger s, l.1 = v ∧ l.2 ≤ d := by
  induction d generalizing v with
  | zero => exact ⟨_,mem_cons_self,(Hops.reachIn_zero_iff.mp hv).symm,le_refl 0⟩
  | succ d ih =>
    obtain ⟨u,hu,huv⟩ := Hops.reachIn_succ_iff.mp hv
    obtain ⟨l,hl,rfl,hle⟩ := ih (by omega) hu
    have hc := (h.closed l hl ⟨d,by omega,hu⟩ (by omega)).resolve_left (by simp [he])
    obtain ⟨hs,ha⟩ := hc v huv
    obtain ⟨l',hl',rfl⟩ := exists_label hb.seen hs
    exact ⟨l',hl',rfl,(ha l' hl' rfl).trans (Nat.succ_le_succ hle)⟩

structure PlanBounds (inv : CascadeInvalidator F) (trigger : ContextUri) (tasks : List CascadeInvalidationTask) : Prop where
  few : tasks.length ≤ inv.config.maxNodes
  others : ∀ task ∈ tasks, task.uri ≠ trigger
  once : (tasks.map (·.uri)).Nodup
  depth : ∀ task ∈ tasks, task.depth ≤ inv.config.maxDepth

structure Covers (inv : CascadeInvalidator F) (trigger : ContextUri) (tasks : List CascadeInvalidationTask) : Prop where
  bounds : PlanBounds inv trigger tasks
  complete : tasks.length < inv.config.maxNodes → ∀ v d, 0 < d → d ≤ inv.config.maxDepth → inv.Distance trigger d v →
    ∃ task ∈ tasks, task.uri = v ∧ task.depth = d

/-- Every plan keeps the bounds, and it covers the range if what the relations lead to in it is met through
entanglements. -/
theorem plan_covers (inv : CascadeInvalidator F) (trigger : ContextUri) :
    PlanBounds inv trigger (inv.planFromInvalidated trigger) ∧
      (inv.RelationsFollow trigger → Covers inv trigger (inv.planFromInvalidated trigger)) := by
  have hb := @bounded_after F inv trigger (inv.config.maxNodes + 1)
  have hn := hb.nodup
  rw [hb.seen, List.nodup_cons] at hn
  have ho : PlanBounds inv trigger (inv.planFromInvalidated trigger) :=
    ⟨hb.few, fun task ht he => hn.1 (mem_map.mpr ⟨task, ht, he⟩), hn.2, hb.depth⟩
  refine ⟨ho, fun hf => ⟨ho, fun hlt v d hp hd hv => ?_⟩⟩
  have hs := searched_after hf hlt
  obtain ⟨l, hl, rfl, hle⟩ := hs.complete hb queue_nil hd hv.1
  have hr := hs.reached l hl ⟨d, by omega, hv.1⟩
  have he : l.2 = d := by
    by_contra hne
    exact hv.2 ⟨l.2, by omega, hr⟩
  rcases mem_cons.mp hl with rfl | hl
  · exact absurd he (by omega)
  · obtain ⟨task, ht, rfl⟩ := mem_map.mp hl
    exact ⟨task, ht, rfl, he⟩

def factUri (name : String) : ContextUri := ⟨"t", ["a", "memory", "fact", name], none, "uwu://t/a/memory/fact/" ++ name⟩

/-- The facts `a`, `b`, `c` and `d` are entangled in a row, and `c` is derived from `a`. -/
def row : CascadeInvalidator ℕ where
  numbers := ⟨fun x y => y ≤ x, 80, fun x => s!"0.{x}"⟩
  entanglements text :=
    if text = (factUri "a").canonical then [⟨factUri "b", 50⟩]
    else if text = (factUri "b").canonical then [⟨factUri "c", 50⟩]
    else if text = (factUri "c").canonical then [⟨factUri "d", 50⟩] else []
  graph := some (fun uri => some (if uri = factUri "a" then [(factUri "c", .derivedFrom)] else []))
  config := ⟨3, 128, 35, true⟩

/-- The relation marks `c` as seen without queueing it, so that `d`, at distance 3, gets no task. -/
theorem row_not_covered : ¬ Covers row (factUri "a") (row.planFromInvalidated (factUri "a")) := by
  intro h
  have hp : (row.planFromInvalidated (factUri "a")).map (·.uri) = [factUri "b", factUri "c"] := by decide +kernel
  have hl : ∀ u v, row.Leads u v ↔ v ∈ (row.entanglementsFor u).map (·.partnerUri) :=
    fun u v => mem_map.symm
  have hn : (row.entanglementsFor (factUri "a")).map (·.partnerUri) = [factUri "b"] ∧
      (row.entanglementsFor (factUri "b")).map (·.partnerUri) = [factUri "c"] ∧
      (row.entanglementsFor (factUri "c")).map (·.partnerUri) = [factUri "d"] := by decide +kernel
  have ho : ∀ v, ReachIn row.Leads (· = factUri "a") 1 v ↔ v = factUri "b" := by
    intro v
    simp only [Hops.reachIn_succ_iff, Hops.reachIn_zero_iff, exists_eq_left, hl, hn.1, List.mem_singleton]
  have hw : ∀ v, ReachIn row.Leads (· = factUri "a") 2 v ↔ v = factUri "c" := by
    intro v
    rw [Hops.reachIn_succ_iff]
    simp only [ho, exists_eq_left, hl, hn.2.1, List.mem_singleton]
  have hd : row.Distance (factUri "a") 3 (factUri "d") := by
    refine ⟨.step ((hw _).mpr rfl) ((hl _ _).mpr ?_), ?_⟩
    · rw [hn.2.2]
      exact List.mem_singleton_self _
    · rintro ⟨k, hk, hr⟩
      rcases show k = 0 ∨ k = 1 ∨ k = 2 by omega with rfl | rfl | rfl
      · exact absurd (Hops.reachIn_zero_iff.mp hr) (by decide +kernel)
      · exact absurd ((ho _).mp hr) (by decide +kernel)
      · exact absurd ((hw _).mp hr) (by decide +kernel)
  have hf : (row.planFromInvalidated (factUri "a")).length = 2 := by simpa using congrArg List.length hp
  obtain ⟨task, ht, hu, -⟩ := h.complete (hf.trans_lt (by decide)) (factUri "d") 3 (by omega) (le_refl 3) hd
  have hm : task.uri ∈ [factUri "b", factUri "c"] := hp ▸ mem_map_of_mem ht
  rw [hu] at hm
  exact absurd hm (by decide +kernel)

end CascadeInvalidator

end UwuContextDb.Consolidation
