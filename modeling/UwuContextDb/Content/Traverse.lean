import UwuContextDb.Library.Hops
import UwuContextDb.Content.SqliteTables
import Mathlib.Data.Finset.Card

/-! `GraphStore::batch_traverse` of the SQLite store and of the memory store, on edges that the same calls have built. -/

namespace UwuContextDb.Content

open Hops StateMachine
open List (mem_map mem_flatMap mem_append mem_append_left mem_cons map_cons flatMap_cons append_nil map_append
  mem_map_of_mem mem_reverse)
open ContextUri (parse parse_canonical)

abbrev FoundEdge := ContextUri × ContextUri × GraphRelation

def FoundEdge.row (found : FoundEdge) : Edge := ⟨found.1.canonical, found.2.1.canonical, found.2.2⟩

/-- A URI whose text is read, as that of every URI that `ContextUri` lets one build. -/
structure Address where
  uri : ContextUri
  readable : ∃ u, ContextUri.parse uri.canonical = .ok u

def Address.ofParse {s : String} {u : ContextUri} (h : ContextUri.parse s = .ok u) : Address :=
  ⟨u, u, by rw [ContextUri.parse_canonical h, h]⟩

inductive GraphCall
  | addEdge (from_ to_ : Address) (kind : GraphRelation)
  | removeEdge (from_ to_ : Address)

namespace SqliteTables

variable (st : SqliteTables)

def graphCall : GraphCall → SqliteTables
  | .addEdge from_ to_ kind => st.addEdge from_.uri to_.uri kind
  | .removeEdge from_ to_ => st.removeEdge from_.uri to_.uri

/-- `SELECT DISTINCT to_uri .. ORDER BY to_uri`. -/
def targets (uri : String) (kind : Option GraphRelation) : List String :=
  (((st.relations.filter (fun edge => edge.from_ = uri && kind.all (· = edge.kind))).map (·.to_)).dedup).insertionSort
    (· ≤ ·)

def outgoingNeighbors (uri : ContextUri) (kind : Option GraphRelation) : Except ContextError (List ContextUri) :=
  (st.targets uri.canonical kind).mapM ContextUri.parse

structure Walk where
  visited : List ContextUri
  result : List FoundEdge
  next : List ContextUri

variable (kinds : List GraphRelation)

/-- The edges of the kinds, as `outgoing_neighbors` gives them kind by kind. -/
def leaving (uri : ContextUri) : Except ContextError (List FoundEdge) := do
  let found ← kinds.mapM (fun kind => do
    let neighbors ← st.outgoingNeighbors uri (some kind)
    return neighbors.map (fun neighbor => (uri, neighbor, kind)))
  return found.flatten

def visit (walk : Walk) (uri : ContextUri) : Except ContextError Walk :=
  if uri ∈ walk.visited then .ok walk else do
    let found ← st.leaving kinds uri
    return ⟨uri::walk.visited, walk.result ++ found, walk.next ++ found.map (·.2.1)⟩

def hops : ℕ → List ContextUri → Walk → Except ContextError (List FoundEdge)
  | 0, _, walk => .ok walk.result
  | n+1, frontier, walk => do
    let walk ← frontier.foldlM (st.visit kinds) { walk with next := [] }
    if walk.next.isEmpty then return walk.result else hops n walk.next walk

def batchTraverse (seeds : List ContextUri) (maxHops : ℕ) : Except ContextError (List FoundEdge) :=
  st.hops kinds maxHops seeds ⟨[], [], []⟩

end SqliteTables

/-- `MemoryContextStore`: the edges that leave a URI, under its text. -/
structure MemoryGraph where
  graphEdges : Std.ExtTreeMap String (List (String × GraphRelation))

namespace MemoryGraph

def empty : MemoryGraph := ⟨∅⟩

variable (graph : MemoryGraph)

def out (uri : String) : List (String × GraphRelation) := (graph.graphEdges[uri]?).getD []

def addEdge (from_ to_ : ContextUri) (kind : GraphRelation) : MemoryGraph :=
  let list := graph.out from_.canonical
  ⟨graph.graphEdges.insert from_.canonical (if (to_.canonical, kind) ∈ list then list else list ++ [(to_.canonical, kind)])⟩

def removeEdge (from_ to_ : ContextUri) : MemoryGraph :=
  match graph.graphEdges[from_.canonical]? with
  | none => graph
  | some edges => ⟨graph.graphEdges.insert from_.canonical (edges.filter (fun edge => edge.1 ≠ to_.canonical))⟩

def graphCall : GraphCall → MemoryGraph
  | .addEdge from_ to_ kind => graph.addEdge from_.uri to_.uri kind
  | .removeEdge from_ to_ => graph.removeEdge from_.uri to_.uri

structure Walk where
  out : List FoundEdge
  visited : List String
  queue : List (ContextUri × ℕ)

variable (kinds : List GraphRelation)

def allows (kind : GraphRelation) : Bool := kinds.isEmpty || kinds.contains kind

def follow (depth : ℕ) (walk : Walk) (edge : ContextUri × String × GraphRelation) : Walk :=
  if allows kinds edge.2.2 then
    match ContextUri.parse edge.2.1 with
    | .error _ => walk
    | .ok to_ =>
      let out := walk.out ++ [(edge.1, to_, edge.2.2)]
      if edge.2.1 ∈ walk.visited then { walk with out := out }
      else ⟨out, edge.2.1::walk.visited, walk.queue ++ [(to_, depth + 1)]⟩
  else walk

def leaving (uri : ContextUri) : List (ContextUri × String × GraphRelation) :=
  (graph.out uri.canonical).map (fun edge => (uri, edge))

def drain (maxHops : ℕ) : ℕ → Walk → Option (List FoundEdge)
  | 0, _ => none
  | _+1, ⟨out, _, []⟩ => some out
  | fuel+1, ⟨out, visited, (uri, depth)::queue⟩ =>
    if maxHops ≤ depth then drain maxHops fuel ⟨out, visited, queue⟩
    else drain maxHops fuel ((graph.leaving uri).foldl (follow kinds depth) ⟨out, visited, queue⟩)

def targets : List String := graph.graphEdges.toList.flatMap (fun held => held.2.map Prod.fst)

/-- `GraphStore::batch_traverse`: a URI is queued once for each seed, and once for each text found. -/
def batchTraverse (seeds : List ContextUri) (maxHops : ℕ) : Option (List FoundEdge) :=
  graph.drain kinds maxHops (seeds.length + graph.targets.length + 1)
    ⟨[], (seeds.map (·.canonical)).reverse, seeds.map (fun seed => (seed, 0))⟩

end MemoryGraph

structure SameEdges (st : SqliteTables) (graph : MemoryGraph) : Prop where
  mem_iff : ∀ from_ to_ kind, (to_, kind) ∈ graph.out from_ ↔ ⟨from_, to_, kind⟩ ∈ st.relations
  nodup : ∀ from_, (graph.out from_).Nodup
  readable : ∀ edge ∈ st.relations, ∃ u, ContextUri.parse edge.to_ = .ok u

def sqliteAfter (calls : List GraphCall) : SqliteTables := calls.foldl SqliteTables.graphCall .empty

def memoryAfter (calls : List GraphCall) : MemoryGraph := calls.foldl MemoryGraph.graphCall .empty

variable {st : SqliteTables} {from_ to_ : ContextUri}

variable {kind : GraphRelation} {edge : Edge}

theorem SqliteTables.mem_addEdge_iff :
    edge ∈ (st.addEdge from_ to_ kind).relations ↔ edge ∈ st.relations ∨ edge = ⟨from_.canonical,to_.canonical,kind⟩ := by
  unfold SqliteTables.addEdge
  by_cases hm : (⟨from_.canonical,to_.canonical,kind⟩ : Edge) ∈ st.relations
  · simp only [hm,if_true]
    constructor
    · exact .inl
    · intro h
      rcases h with h | rfl
      · exact h
      · exact hm
  · simp [hm,SqliteTables.bumpGraphRevision,SqliteTables.insertEdge]

theorem SqliteTables.mem_removeEdge_iff :
    edge ∈ (st.removeEdge from_ to_).relations ↔
      edge ∈ st.relations ∧ ¬ (edge.from_ = from_.canonical ∧ edge.to_ = to_.canonical) := by
  unfold SqliteTables.removeEdge
  dsimp only
  split <;> simp [SqliteTables.bumpGraphRevision,imp_iff_not_or]

namespace MemoryGraph

variable {graph : MemoryGraph}

theorem out_addEdge (from_ to_ : ContextUri) (kind : GraphRelation) (uri : String) :
    (graph.addEdge from_ to_ kind).out uri = if from_.canonical = uri then
      (if (to_.canonical, kind) ∈ graph.out uri then graph.out uri else graph.out uri++[(to_.canonical, kind)])
      else graph.out uri := by
  by_cases hu : from_.canonical = uri
  · subst hu
    simp [addEdge,out]
  · simp [addEdge,out,Std.ExtTreeMap.getElem?_insert,hu]

theorem out_removeEdge (from_ to_ : ContextUri) (uri : String) :
    (graph.removeEdge from_ to_).out uri = if from_.canonical = uri then
      (graph.out uri).filter (fun edge => edge.1 ≠ to_.canonical) else graph.out uri := by
  unfold removeEdge
  by_cases hu : from_.canonical = uri
  · subst hu
    cases hh : graph.graphEdges[from_.canonical]? with
    | none => simp [out,hh]
    | some edges => simp [out,hh]
  · cases hh : graph.graphEdges[from_.canonical]? with
    | none => simp [hu]
    | some edges => simp [out,Std.ExtTreeMap.getElem?_insert,hu]

end MemoryGraph

theorem SameEdges.empty : SameEdges .empty .empty where
  mem_iff := by simp [MemoryGraph.out,MemoryGraph.empty,SqliteTables.empty]
  nodup := by simp [MemoryGraph.out,MemoryGraph.empty]
  readable := by simp [SqliteTables.empty]

theorem SameEdges.graphCall {graph : MemoryGraph} (h : SameEdges st graph) (call : GraphCall) :
    SameEdges (st.graphCall call) (graph.graphCall call) := by
  cases call with
  | addEdge from_ to_ kind =>
    refine ⟨?_, ?_, ?_⟩
    · intro src tgt kind'
      rw [SqliteTables.graphCall,SqliteTables.mem_addEdge_iff,MemoryGraph.graphCall,MemoryGraph.out_addEdge,
        ← h.mem_iff,Edge.mk.injEq]
      by_cases hu : from_.uri.canonical = src
      · by_cases hm : (to_.uri.canonical, kind) ∈ graph.out src
        · simp only [hu,hm,if_true]
          constructor
          · exact .inl
          · intro he
            rcases he with he | ⟨-,rfl,rfl⟩
            · exact he
            · exact hm
        · simp [hu,hm]
      · simp [hu,Ne.symm hu]
    · intro src
      rw [MemoryGraph.graphCall,MemoryGraph.out_addEdge]
      by_cases hu : from_.uri.canonical = src
      · by_cases hm : (to_.uri.canonical, kind) ∈ graph.out src
        · simpa [hu,hm] using h.nodup src
        · have ha := (h.nodup src).append (List.nodup_singleton (to_.uri.canonical, kind)) (by simpa using hm)
          simpa [hu,hm] using ha
      · simpa [hu] using h.nodup src
    · intro edge he
      rcases SqliteTables.mem_addEdge_iff.mp he with he | rfl
      · exact h.readable edge he
      · exact to_.readable
  | removeEdge from_ to_ =>
    refine ⟨?_, ?_, ?_⟩
    · intro src tgt kind
      rw [SqliteTables.graphCall,SqliteTables.mem_removeEdge_iff,MemoryGraph.graphCall,
        MemoryGraph.out_removeEdge,← h.mem_iff]
      by_cases hu : from_.uri.canonical = src
      · simp [hu]
      · simp [hu,Ne.symm hu]
    · intro src
      rw [MemoryGraph.graphCall,MemoryGraph.out_removeEdge]
      by_cases hu : from_.uri.canonical = src
      · simpa [hu] using (h.nodup src).filter _
      · simpa [hu] using h.nodup src
    · intro edge he
      exact h.readable edge (SqliteTables.mem_removeEdge_iff.mp he).1

theorem sameEdges_after (calls : List GraphCall) : SameEdges (sqliteAfter calls) (memoryAfter calls) := by
  have hr : ∀ st graph, SameEdges st graph →
      SameEdges (calls.foldl SqliteTables.graphCall st) (calls.foldl MemoryGraph.graphCall graph) := by
    induction calls with
    | nil =>
      intro st graph h
      exact h
    | cons call calls ih =>
      intro st graph h
      exact ih _ _ (h.graphCall call)
  exact hr _ _ .empty

section Traversed

variable (st : SqliteTables) (kinds : List GraphRelation)

def Leads (t t' : String) : Prop := ∃ kind ∈ kinds, ⟨t, t', kind⟩ ∈ st.relations

def Idle (t : String) : Prop := ∀ edge ∈ st.relations, edge.from_ = t → edge.kind ∉ kinds

/-- The text is reached from a seed in less than `n` steps. -/
abbrev Near (seeds : List ContextUri) (n : ℕ) (t : String) : Prop :=
  Within (Leads st kinds) (fun t => ∃ seed ∈ seeds, seed.canonical = t) n t

/-- The edges found are those of allowed kinds whose source is nearer than `n`, each once. -/
structure Traversed (seeds : List ContextUri) (n : ℕ) (result : List FoundEdge) : Prop where
  nodup : (result.map FoundEdge.row).Nodup
  mem_iff : ∀ edge, edge ∈ result.map FoundEdge.row ↔ edge ∈ st.relations ∧ edge.kind ∈ kinds ∧
    Near st kinds seeds n edge.from_

variable {st kinds}

theorem nodup_flatMap_iff {α β : Type} {f : α → List β} (label : β → α) (hl : ∀ a, ∀ b ∈ f a, label b = a)
    (hf : ∀ a, (f a).Nodup) (as : List α) : (as.flatMap f).Nodup ↔ as.Pairwise (fun a a' => a = a' → f a = []) := by
  rw [List.nodup_flatMap]
  have hp : Function.onFun List.Disjoint f = fun a a' => a = a' → f a = [] := by
    funext a a'
    apply propext
    constructor
    · intro h ha'
      subst ha'
      exact List.eq_nil_iff_forall_not_mem.mpr (fun b hb => h hb hb)
    · intro h b hb hb'
      have ha' : a = a' := (hl a b hb).symm.trans (hl a' b hb')
      rw [h ha'] at hb
      cases hb
  rw [hp]
  exact and_iff_right (fun a _ => hf a)

end Traversed

variable {t : String} {nodes : List ContextUri} {found : List FoundEdge}

namespace SqliteTables

variable {st : SqliteTables} {kinds : List GraphRelation}

/-- The rows that `leaving` reads. -/
def rowsFrom (st : SqliteTables) (kinds : List GraphRelation) (t : String) : List Edge :=
  kinds.flatMap (fun kind => (st.targets t (some kind)).map (fun target => ⟨t, target, kind⟩))

theorem mem_targets_iff {tgt : String} : tgt ∈ st.targets t (some kind) ↔ ⟨t,tgt,kind⟩ ∈ st.relations := by
  simp only [targets,List.mem_insertionSort,List.mem_dedup,mem_map,List.mem_filter]
  constructor
  · intro h
    obtain ⟨⟨from_,to_,kind'⟩,⟨hm,hk⟩,rfl⟩ := h
    obtain ⟨rfl,rfl⟩ : from_ = t ∧ kind = kind' := by simpa using hk
    exact hm
  · intro h
    exact ⟨_,⟨h,by simp⟩,rfl⟩

theorem mem_rowsFrom_iff : edge ∈ st.rowsFrom kinds t ↔ edge ∈ st.relations ∧ edge.from_ = t ∧ edge.kind ∈ kinds := by
  simp only [rowsFrom,mem_flatMap,mem_map,mem_targets_iff]
  constructor
  · intro h
    obtain ⟨kind,hk,tgt,hm,rfl⟩ := h
    exact ⟨hm,rfl,hk⟩
  · intro h
    obtain ⟨hm,rfl,hk⟩ := h
    exact ⟨edge.kind,hk,edge.to_,hm,rfl⟩

theorem rowsFrom_eq_nil_iff : st.rowsFrom kinds t = [] ↔ Idle st kinds t := by
  simp only [List.eq_nil_iff_forall_not_mem,mem_rowsFrom_iff,Idle]
  constructor
  · intro h edge he hf hk
    exact h edge ⟨he,hf,hk⟩
  · intro h edge he
    exact h edge he.1 he.2.1 he.2.2

theorem nodup_rowsFrom (hk : kinds.Nodup) (t : String) : (st.rowsFrom kinds t).Nodup := by
  rw [rowsFrom,List.nodup_flatMap]
  constructor
  · intro kind _
    apply List.Nodup.map
    · intro tgt tgt' h
      exact (Edge.mk.inj h).2.1
    · exact (List.perm_insertionSort _ _).nodup_iff.mpr (List.nodup_dedup _)
  · apply hk.imp
    intro kind kind' hn edge he he'
    obtain ⟨tgt, -,rfl⟩ := mem_map.mp he
    obtain ⟨tgt', -,h⟩ := mem_map.mp he'
    exact hn (Edge.mk.inj h).2.2.symm

structure Reads (st : SqliteTables) (kinds : List GraphRelation) (nodes : List ContextUri)
    (found : List FoundEdge) : Prop where
  rows : found.map FoundEdge.row = (nodes.map (·.canonical)).flatMap (st.rowsFrom kinds)
  source : ∀ edge ∈ found, edge.1 ∈ nodes
  target : ∀ edge ∈ found, ContextUri.parse edge.2.1.canonical = .ok edge.2.1

theorem Reads.append {nodes' : List ContextUri} {found' : List FoundEdge} (h : Reads st kinds nodes found)
    (h' : Reads st kinds nodes' found') : Reads st kinds (nodes++nodes') (found++found') where
  rows := by simp [h.rows,h'.rows]
  source := by
    intro edge he
    rcases mem_append.mp he with he | he
    · exact mem_append_left _ (h.source edge he)
    · exact List.mem_append_right _ (h'.source edge he)
  target := by
    intro edge he
    rcases mem_append.mp he with he | he
    · exact h.target edge he
    · exact h'.target edge he

theorem Reads.nil : Reads st kinds [] [] := ⟨rfl,by simp,by simp⟩

theorem mapM_parse_ok {texts : List String} (h : ∀ t ∈ texts, ∃ u, parse t = .ok u) :
    ∃ uris : List ContextUri, texts.mapM parse = .ok uris ∧ uris.map (·.canonical) = texts ∧
      ∀ u ∈ uris, parse u.canonical = .ok u := by
  induction texts with
  | nil => exact ⟨[],rfl,rfl,by simp⟩
  | cons t texts ih =>
    obtain ⟨u,hu⟩ := h t List.mem_cons_self
    obtain ⟨uris,hr,he,ha⟩ := ih (fun t ht => h t (List.mem_cons_of_mem _ ht))
    have hc : u.canonical = t := parse_canonical hu
    refine ⟨u::uris, ?_,by simp [hc,he], ?_⟩
    · rw [List.mapM_cons,hu,hr]
      rfl
    · intro v hv
      rcases mem_cons.mp hv with rfl | hv
      · rw [hc,hu]
      · exact ha v hv

theorem leaving_ok (hd : ∀ edge ∈ st.relations, ∃ u, parse edge.to_ = .ok u) (uri : ContextUri) :
    ∃ found, st.leaving kinds uri = .ok found ∧ Reads st kinds [uri] found := by
  induction kinds with
  | nil => exact ⟨[],rfl,by simp [rowsFrom],by simp,by simp⟩
  | cons kind kinds ih =>
    obtain ⟨found,hf,hr⟩ := ih
    obtain ⟨rest,hs,hl⟩ := bind_eq_ok.mp hf
    obtain rfl := Except.ok.inj hl
    have hp : ∀ t ∈ st.targets uri.canonical (some kind), ∃ u, parse t = .ok u :=
      fun t ht => hd _ (mem_targets_iff.mp ht)
    obtain ⟨uris,hu,hx,hb⟩ := mapM_parse_ok hp
    refine ⟨(uris.map (fun neighbor => (uri, neighbor, kind)))++rest.flatten, ?_, ?_, ?_, ?_⟩
    · rw [leaving,List.mapM_cons,hs,outgoingNeighbors,hu]
      rfl
    · have ho := hr.rows
      have hk : (uris.map (fun neighbor => ((uri, neighbor, kind) : FoundEdge))).map FoundEdge.row =
          (st.targets uri.canonical (some kind)).map (fun tgt => ⟨uri.canonical,tgt,kind⟩) := by
        rw [← hx,List.map_map,List.map_map]
        rfl
      simp only [map_cons,List.map_nil,flatMap_cons,List.flatMap_nil,append_nil,rowsFrom] at ho ⊢
      rw [map_append,hk,ho]
    · intro edge he
      rcases mem_append.mp he with he | he
      · obtain ⟨_, -,rfl⟩ := mem_map.mp he
        exact List.mem_singleton_self uri
      · exact hr.source edge he
    · intro edge he
      rcases mem_append.mp he with he | he
      · obtain ⟨neighbor,hn,rfl⟩ := mem_map.mp he
        exact hb neighbor hn
      · exact hr.target edge he

def StepsTo (st : SqliteTables) (kinds : List GraphRelation) (u v : ContextUri) : Prop :=
  ∃ edge ∈ st.relations, edge.from_ = u.canonical ∧ edge.kind ∈ kinds ∧ ContextUri.parse edge.to_ = .ok v

theorem Reads.mem_next_iff
    (h : Reads st kinds nodes found) (v : ContextUri) :
    v ∈ found.map (·.2.1) ↔ ∃ u ∈ nodes, StepsTo st kinds u v := by
  constructor
  · intro hv
    obtain ⟨edge,he,rfl⟩ := mem_map.mp hv
    have hr : edge.row ∈ (nodes.map (·.canonical)).flatMap (st.rowsFrom kinds) := h.rows ▸ mem_map_of_mem he
    obtain ⟨t, -,hr⟩ := mem_flatMap.mp hr
    obtain ⟨hm, -,hk⟩ := mem_rowsFrom_iff.mp hr
    exact ⟨edge.1,h.source edge he,edge.row,hm,rfl,hk,h.target edge he⟩
  · intro hv
    obtain ⟨u,hu,row,hm,hf,hk,hp⟩ := hv
    have hr : row ∈ found.map FoundEdge.row := by
      rw [h.rows]
      exact mem_flatMap.mpr ⟨u.canonical,mem_map_of_mem hu,mem_rowsFrom_iff.mpr ⟨hm,hf,hk⟩⟩
    obtain ⟨edge,he,rfl⟩ := mem_map.mp hr
    have hb : edge.2.1 = v := Except.ok.inj ((h.target edge he).symm.trans hp)
    exact mem_map.mpr ⟨edge,he,hb⟩

theorem foldlM_visit (hrd : ∀ edge ∈ st.relations, ∃ u, parse edge.to_ = .ok u)
    (frontier : List ContextUri) (walk : Walk) :
    ∃ (fresh : List ContextUri) (found : List FoundEdge), frontier.foldlM (st.visit kinds) walk =
        .ok ⟨fresh.reverse++walk.visited,walk.result++found,walk.next++found.map (·.2.1)⟩ ∧
      Reads st kinds fresh found ∧ fresh.Nodup ∧ ∀ u, u ∈ fresh ↔ u ∈ frontier ∧ u ∉ walk.visited := by
  induction frontier generalizing walk with
  | nil => exact ⟨[],[],by simp [pure,Except.pure], .nil, .nil,by simp⟩
  | cons uri frontier ih =>
    by_cases hm : uri ∈ walk.visited
    · obtain ⟨fresh,found,hr,he,hn,hf⟩ := ih walk
      refine ⟨fresh,found, ?_,he,hn, ?_⟩
      · rw [List.foldlM_cons,visit,if_pos hm]
        exact hr
      · intro u
        rw [hf,mem_cons]
        constructor
        · intro h
          exact ⟨.inr h.1,h.2⟩
        · intro h
          exact ⟨h.1.resolve_left (fun hu => h.2 (hu ▸ hm)),h.2⟩
    · obtain ⟨here,hh,hd⟩ := leaving_ok hrd uri
      obtain ⟨fresh,found,hr,he,hn,hf⟩ := ih ⟨uri::walk.visited,walk.result++here,walk.next++here.map (·.2.1)⟩
      have hw : uri ∉ fresh := by
        intro h
        exact ((hf uri).mp h).2 List.mem_cons_self
      refine ⟨uri::fresh,here++found, ?_,hd.append he,List.nodup_cons.mpr ⟨hw,hn⟩, ?_⟩
      · have hi : st.visit kinds walk uri =
            .ok ⟨uri::walk.visited,walk.result++here,walk.next++here.map (·.2.1)⟩ := by
          rw [visit,if_neg hm,hh]
          rfl
        rw [List.foldlM_cons,hi]
        refine hr.trans ?_
        simp
      · intro u
        rw [mem_cons,hf,mem_cons,mem_cons]
        constructor
        · intro h
          rcases h with rfl | ⟨hu,ho⟩
          · exact ⟨.inl rfl,hm⟩
          · exact ⟨.inr hu,fun hv => ho (.inr hv)⟩
        · intro h
          by_cases hu : u = uri
          · exact .inl hu
          · exact .inr ⟨h.1.resolve_left hu,fun hv => hv.elim hu h.2⟩

theorem hops_ok (hrd : ∀ edge ∈ st.relations, ∃ u, parse edge.to_ = .ok u)
    {starts : ContextUri → Prop} {i : ℕ} (n : ℕ) (frontier : List ContextUri) (walk : Walk)
    (ho : Round (StepsTo st kinds) starts i (· ∈ walk.visited) (· ∈ frontier)) (hn : walk.visited.Nodup)
    (hr : walk.result.map FoundEdge.row = (walk.visited.reverse.map (·.canonical)).flatMap (st.rowsFrom kinds)) :
    ∃ (nodes : List ContextUri) (result : List FoundEdge), st.hops kinds n frontier walk = .ok result ∧ nodes.Nodup ∧
      result.map FoundEdge.row = (nodes.map (·.canonical)).flatMap (st.rowsFrom kinds) ∧
      ∀ v, v ∈ nodes ↔ Within (StepsTo st kinds) starts (i+n) v := by
  induction n generalizing i frontier walk with
  | zero => exact ⟨walk.visited.reverse,walk.result,rfl,List.nodup_reverse.mpr hn,hr,by simpa using ho.expanded_iff⟩
  | succ n ih =>
    obtain ⟨fresh,found,hu,he,hfr,hf⟩ := foldlM_visit hrd frontier { walk with next := [] }
    dsimp only at hu hf
    rw [List.nil_append] at hu
    have hi : ∀ v, v ∈ fresh.reverse ++ walk.visited ↔ v ∈ walk.visited ∨ v ∈ frontier := by
      intro v
      rw [mem_append,mem_reverse,hf]
      tauto
    have hx : Round (StepsTo st kinds) starts (i+1) (· ∈ fresh.reverse++walk.visited) (· ∈ found.map (·.2.1)) := by
      apply ho.advance hi
      · intro w hw
        obtain ⟨v,hv,hs⟩ := (he.mem_next_iff w).mp hw
        exact ⟨v,((hf v).mp hv).1,hs⟩
      · intro v w hv ht hs
        exact .inr ((he.mem_next_iff w).mpr ⟨v,(hf v).mpr ⟨hv,ht⟩,hs⟩)
    have hn' : (fresh.reverse++walk.visited).Nodup := by
      apply (List.nodup_reverse.mpr hfr).append hn
      intro v hv hv'
      exact ((hf v).mp (mem_reverse.mp hv)).2 hv'
    have hr' : (walk.result++found).map FoundEdge.row =
        ((fresh.reverse++walk.visited).reverse.map (·.canonical)).flatMap (st.rowsFrom kinds) := by
      rw [map_append,hr,he.rows]
      simp
    by_cases hm : found.map (·.2.1) = []
    · refine ⟨(fresh.reverse++walk.visited).reverse,walk.result++found, ?_,List.nodup_reverse.mpr hn',hr', ?_⟩
      · rw [hops,hu]
        show (if (found.map (·.2.1)).isEmpty then _ else _) = _
        rw [hm]
        rfl
      · intro v
        rw [mem_reverse]
        exact hx.within_of_none_waiting (by simp [hm]) (by omega) v
    · obtain ⟨nodes,result,hre,hd,ha,hme⟩ :=
        ih (found.map (·.2.1)) ⟨fresh.reverse++walk.visited,walk.result++found,found.map (·.2.1)⟩ hx hn' hr'
      refine ⟨nodes,result, ?_,hd,ha, ?_⟩
      · rw [hops,hu]
        show (if (found.map (·.2.1)).isEmpty then _ else _) = _
        rw [if_neg (by simpa using hm)]
        exact hre
      · intro v
        rw [hme,show i+1+n = i+(n+1) by omega]

variable (kinds) in
theorem batchTraverse_ok (hr : ∀ edge ∈ st.relations, ∃ u, ContextUri.parse edge.to_ = .ok u)
    (seeds : List ContextUri) (n : ℕ) :
    ∃ (nodes : List ContextUri) (result : List FoundEdge), st.batchTraverse kinds seeds n = .ok result ∧ nodes.Nodup ∧
      result.map FoundEdge.row = (nodes.map (·.canonical)).flatMap (st.rowsFrom kinds) ∧
      ∀ v, v ∈ nodes ↔ Within (StepsTo st kinds) (· ∈ seeds) n v := by
  have hs : Round (StepsTo st kinds) (· ∈ seeds) 0 (· ∈ ([] : List ContextUri)) (· ∈ seeds) := by simpa using Round.zero
  have ha := hops_ok hr n seeds ⟨[], [], []⟩ hs .nil rfl
  rwa [Nat.zero_add] at ha

end SqliteTables

namespace MemoryGraph

variable {st : SqliteTables} {graph : MemoryGraph} {kinds : List GraphRelation}

def rowsFrom (graph : MemoryGraph) (kinds : List GraphRelation) (t : String) : List Edge :=
  ((graph.out t).filter (fun edge => allows kinds edge.2)).map (fun edge => ⟨t, edge.1, edge.2⟩)

def StepsTo (graph : MemoryGraph) (kinds : List GraphRelation) (t t' : String) : Prop :=
  ∃ kind, allows kinds kind = true ∧ (t', kind) ∈ graph.out t

theorem nodup_rowsFrom (h : SameEdges st graph) (t : String) : (graph.rowsFrom kinds t).Nodup := by
  apply ((h.nodup t).filter _).map
  intro edge edge' he
  have hp := Edge.mk.inj he
  exact Prod.ext hp.2.1 hp.2.2

theorem mem_rowsFrom_iff : edge ∈ graph.rowsFrom kinds t ↔ edge.from_ = t ∧ (edge.to_, edge.kind) ∈ graph.out t ∧
    allows kinds edge.kind = true := by
  simp only [rowsFrom,mem_map,List.mem_filter]
  constructor
  · intro h
    obtain ⟨⟨to_,kind⟩,he,rfl⟩ := h
    exact ⟨rfl,he⟩
  · intro h
    obtain ⟨rfl,he⟩ := h
    exact ⟨(edge.to_, edge.kind),he,rfl⟩

theorem foldl_follow_front (depth : ℕ) (front : List (ContextUri × ℕ)) (edges : List (ContextUri × String × GraphRelation))
    (walk : Walk) : edges.foldl (follow kinds depth) { walk with queue := front++walk.queue } =
      { edges.foldl (follow kinds depth) walk with queue := front++(edges.foldl (follow kinds depth) walk).queue } := by
  induction edges generalizing walk with
  | nil => rfl
  | cons edge edges ih =>
    have ho : follow kinds depth { walk with queue := front++walk.queue } edge =
        { follow kinds depth walk edge with queue := front++(follow kinds depth walk edge).queue } := by
      unfold follow
      by_cases hk : allows kinds edge.2.2
      · cases hp : parse edge.2.1 with
        | error e => simp [hk]
        | ok to_ => by_cases hm : edge.2.1 ∈ walk.visited <;> simp [hk,hm]
      · simp [hk]
    rw [List.foldl_cons,ho,ih]
    rfl

variable {maxHops depth : ℕ} {lvl : List ContextUri} {starts expanded : String → Prop} {visited : List String}

theorem drain_level (hd : depth < maxHops) (fuel : ℕ) (lvl : List ContextUri) (walk : Walk) :
    graph.drain kinds maxHops (fuel+lvl.length)
    { walk with queue := lvl.map (fun u => (u, depth))++walk.queue } =
      graph.drain kinds maxHops fuel ((lvl.flatMap graph.leaving).foldl (follow kinds depth) walk) := by
  induction lvl generalizing walk with
  | nil => rfl
  | cons u lvl ih =>
    rw [List.length_cons,← Nat.add_assoc,map_cons,List.cons_append,drain,if_neg (by omega),flatMap_cons,
      List.foldl_append]
    rw [foldl_follow_front depth (lvl.map (fun u => (u, depth))) (graph.leaving u) walk]
    exact ih ((graph.leaving u).foldl (follow kinds depth) walk)

theorem drain_deep (hd : maxHops ≤ depth) {fuel : ℕ}
    (hf : lvl.length < fuel) (out : List FoundEdge) (vis : List String) :
    graph.drain kinds maxHops fuel ⟨out,vis,lvl.map (fun u => (u, depth))⟩ = some out := by
  induction lvl generalizing fuel with
  | nil =>
    obtain ⟨fuel,rfl⟩ : ∃ n, fuel = n + 1 := ⟨fuel - 1,by omega⟩
    rfl
  | cons u lvl ih =>
    rw [List.length_cons] at hf
    obtain ⟨fuel,rfl⟩ : ∃ n, fuel = n + 1 := ⟨fuel - 1,by omega⟩
    rw [map_cons,drain,if_pos hd]
    exact ih (by omega)

structure Follows (kinds : List GraphRelation) (depth : ℕ) (walk walk' : Walk)
    (edges : List (ContextUri × String × GraphRelation)) (news : List ContextUri) : Prop where
  out : ∃ found, walk'.out = walk.out ++ found ∧ found.map FoundEdge.row =
    (edges.filter (fun edge => allows kinds edge.2.2)).map (fun edge => ⟨edge.1.canonical, edge.2.1, edge.2.2⟩)
  visited : walk'.visited = (news.map (·.canonical)).reverse ++ walk.visited
  queue : walk'.queue = walk.queue ++ news.map (fun uri => (uri, depth + 1))
  nodup : (news.map (·.canonical)).Nodup
  mem_iff : ∀ t, t ∈ news.map (·.canonical) ↔ t ∉ walk.visited ∧ ∃ edge ∈ edges, allows kinds edge.2.2 = true ∧ edge.2.1 = t

theorem follow_spec (depth : ℕ) (walk : Walk) (edge : ContextUri × String × GraphRelation)
    (hr : ∃ u, parse edge.2.1 = .ok u) :
    ∃ news, Follows kinds depth walk (follow kinds depth walk edge) [edge] news := by
  by_cases hk : allows kinds edge.2.2
  · obtain ⟨u,hu⟩ := hr
    have hc : u.canonical = edge.2.1 := parse_canonical hu
    by_cases hm : edge.2.1 ∈ walk.visited
    · have hf : follow kinds depth walk edge = { walk with out := walk.out++[(edge.1, u, edge.2.2)] } := by
        simp [follow,hk,hu,hm]
      refine ⟨[], ?_⟩
      rw [hf]
      exact ⟨⟨[(edge.1, u, edge.2.2)],rfl,by simp [hk,FoundEdge.row,hc]⟩,rfl,by
        simp, .nil,by simp [hk,imp_not_comm,hm]⟩
    · have hf : follow kinds depth walk edge =
          ⟨walk.out++[(edge.1, u, edge.2.2)],edge.2.1::walk.visited,walk.queue++[(u, depth+1)]⟩ := by
        simp [follow,hk,hu,hm]
      refine ⟨[u], ?_⟩
      rw [hf]
      refine ⟨⟨[(edge.1, u, edge.2.2)],rfl,by simp [hk,FoundEdge.row,hc]⟩,by
        simp [hc],rfl,List.nodup_singleton _, ?_⟩
      intro t
      simp only [map_cons,List.map_nil,List.mem_singleton,hc,exists_eq_left,hk,true_and]
      constructor
      · rintro rfl
        exact ⟨hm,rfl⟩
      · intro h
        exact h.2.symm
  · have hf : follow kinds depth walk edge = walk := by simp [follow,hk]
    refine ⟨[], ?_⟩
    rw [hf]
    exact ⟨⟨[],by simp,by simp [hk]⟩,rfl,by simp, .nil,by simp [hk]⟩

theorem Follows.trans {depth : ℕ} {walk walk' walk'' : Walk} {edges edges' : List (ContextUri × String × GraphRelation)}
    {news news' : List ContextUri} (h : Follows kinds depth walk walk' edges news)
    (h' : Follows kinds depth walk' walk'' edges' news') :
    Follows kinds depth walk walk'' (edges++edges') (news++news') := by
  have ha : ∀ t, t ∈ news'.map (·.canonical) → t ∉ news.map (·.canonical) := by
    intro t ht hw
    apply ((h'.mem_iff t).mp ht).1
    rw [h.visited]
    exact mem_append_left _ (mem_reverse.mpr hw)
  refine ⟨?_, ?_, ?_, ?_, ?_⟩
  · obtain ⟨found,ho,hr⟩ := h.out
    obtain ⟨found',ho',hr'⟩ := h'.out
    exact ⟨found++found',by rw [ho',ho,List.append_assoc],by simp [hr,hr']⟩
  · rw [h'.visited,h.visited]
    simp
  · rw [h'.queue,h.queue]
    simp
  · rw [map_append]
    exact h.nodup.append h'.nodup (fun t ht ht' => ha t ht' ht)
  · intro t
    rw [map_append,mem_append,h.mem_iff,h'.mem_iff,h.visited,mem_append,mem_reverse,h.mem_iff]
    constructor
    · intro hm
      rcases hm with ⟨hn,edge,he,hk⟩ | ⟨hn,edge,he,hk⟩
      · exact ⟨hn,edge,mem_append_left _ he,hk⟩
      · exact ⟨fun hv => hn (.inr hv),edge,List.mem_append_right _ he,hk⟩
    · intro hm
      obtain ⟨hn,edge,he,hk⟩ := hm
      by_cases hf : ∃ edge ∈ edges, allows kinds edge.2.2 = true ∧ edge.2.1 = t
      · exact .inl ⟨hn,hf⟩
      · refine .inr ⟨fun hv => hv.elim (fun h => hf h.2) hn,edge, ?_,hk⟩
        exact (mem_append.mp he).resolve_left (fun he => hf ⟨edge,he,hk⟩)

theorem foldl_follow (depth : ℕ) (edges : List (ContextUri × String × GraphRelation)) (walk : Walk)
    (hr : ∀ edge ∈ edges, ∃ u, parse edge.2.1 = .ok u) :
    ∃ news, Follows kinds depth walk (edges.foldl (follow kinds depth) walk) edges news := by
  induction edges generalizing walk with
  | nil => exact ⟨[],⟨[],by simp,rfl⟩,rfl,by simp, .nil,by simp⟩
  | cons edge edges ih =>
    obtain ⟨news,hn⟩ := follow_spec depth walk edge (hr edge List.mem_cons_self)
    obtain ⟨news',hn'⟩ := ih (follow kinds depth walk edge) (fun edge he => hr edge (List.mem_cons_of_mem _ he))
    exact ⟨news++news',hn.trans hn'⟩

theorem readable_level (h : SameEdges st graph) (lvl : List ContextUri) :
    ∀ edge ∈ lvl.flatMap graph.leaving, ∃ u, parse edge.2.1 = .ok u := by
  intro edge he
  obtain ⟨uri, -,he⟩ := mem_flatMap.mp he
  obtain ⟨⟨to_,kind⟩,ho,rfl⟩ := mem_map.mp he
  exact h.readable _ ((h.mem_iff _ _ _).mp ho)

theorem rows_level (lvl : List ContextUri) :
    ((lvl.flatMap graph.leaving).filter (fun edge => allows kinds edge.2.2)).map
    (fun edge => ⟨edge.1.canonical,edge.2.1,edge.2.2⟩) =
      (lvl.map (·.canonical)).flatMap (graph.rowsFrom kinds) := by
  induction lvl with
  | nil => rfl
  | cons u lvl ih =>
    rw [flatMap_cons,List.filter_append,map_append,ih,map_cons,flatMap_cons]
    simp [leaving,rowsFrom,List.filter_map,Function.comp_def]

theorem mem_level_iff :
    (∃ edge ∈ lvl.flatMap graph.leaving, allows kinds edge.2.2 = true ∧ edge.2.1 = t) ↔
      ∃ t' ∈ lvl.map (·.canonical), graph.StepsTo kinds t' t := by
  constructor
  · intro h
    obtain ⟨edge,he,hk,rfl⟩ := h
    obtain ⟨u,hu,he⟩ := mem_flatMap.mp he
    obtain ⟨row,hr,rfl⟩ := mem_map.mp he
    exact ⟨u.canonical,mem_map_of_mem hu,row.2,hk,hr⟩
  · intro h
    obtain ⟨t',ht',kind,hk,hr⟩ := h
    obtain ⟨u,hu,rfl⟩ := mem_map.mp ht'
    exact ⟨(u, t, kind),mem_flatMap.mpr ⟨u,hu,mem_map_of_mem hr⟩,hk,rfl⟩

theorem mem_targets {t' : String} (h : (t', kind) ∈ graph.out t) : t' ∈ graph.targets := by
  cases hh : graph.graphEdges[t]? with
  | none => simp [out,hh] at h
  | some edges =>
    have hm : (t', kind) ∈ edges := by simpa [out,hh] using h
    exact mem_flatMap.mpr ⟨(t, edges),Std.ExtTreeMap.mem_toList_iff_getElem?_eq_some.mpr hh, mem_map_of_mem hm⟩

def left (graph : MemoryGraph) (visited : List String) : ℕ := (graph.targets.toFinset \ visited.toFinset).card

structure AtLevel (graph : MemoryGraph) (kinds : List GraphRelation) (starts : String → Prop) (depth : ℕ)
    (expanded : String → Prop) (level : List ContextUri) (visited : List String) : Prop where
  round : Round (graph.StepsTo kinds) starts depth expanded (· ∈ level.map (·.canonical))
  visited_iff : ∀ t, t ∈ visited ↔ expanded t ∨ t ∈ level.map (·.canonical)

theorem AtLevel.drain (h : SameEdges st graph) (hp : depth < maxHops)
    (hl : AtLevel graph kinds starts depth expanded lvl visited) (fuel : ℕ) (out : List FoundEdge) :
    ∃ (news : List ContextUri) (found : List FoundEdge) (visited' : List String),
      graph.drain kinds maxHops (fuel+lvl.length) ⟨out,visited,lvl.map (fun u => (u, depth))⟩ =
        graph.drain kinds maxHops fuel ⟨out++found,visited',news.map (fun u => (u, depth+1))⟩ ∧
      found.map FoundEdge.row = (lvl.map (·.canonical)).flatMap (graph.rowsFrom kinds) ∧
      AtLevel graph kinds starts (depth+1) (fun t => expanded t ∨ t ∈ lvl.map (·.canonical)) news visited' ∧
      (news.map (·.canonical)).Nodup ∧ (∀ t ∈ news.map (·.canonical), t ∉ visited) ∧
      news.length + graph.left visited' ≤ graph.left visited := by
  obtain ⟨news,hn⟩ : ∃ news, Follows kinds depth ⟨out,visited,[]⟩
      ((lvl.flatMap graph.leaving).foldl (follow kinds depth) ⟨out,visited,[]⟩) (lvl.flatMap graph.leaving) news :=
    foldl_follow depth (lvl.flatMap graph.leaving) ⟨out,visited,[]⟩ (readable_level h lvl)
  obtain ⟨found,ho,hr⟩ := hn.out
  have hi' := hn.visited
  dsimp only at hi'
  have hm : ∀ t, t ∈ news.map (·.canonical) ↔ t ∉ visited ∧ ∃ t' ∈ lvl.map (·.canonical), graph.StepsTo kinds t' t := by
    intro t
    rw [hn.mem_iff,mem_level_iff]
  refine ⟨news,found,(news.map (·.canonical)).reverse++visited, ?_, ?_,⟨?_, ?_⟩,hn.nodup,
    fun t ht => ((hm t).mp ht).1, ?_⟩
  · have hd : graph.drain kinds maxHops (fuel+lvl.length)
        ⟨out,visited,lvl.map (fun u => (u, depth))++[]⟩ =
        graph.drain kinds maxHops fuel ((lvl.flatMap graph.leaving).foldl (follow kinds depth) ⟨out,visited,[]⟩) :=
      drain_level hp fuel lvl ⟨out,visited,[]⟩
    rw [append_nil] at hd
    rw [hd]
    congr 1
    generalize (lvl.flatMap graph.leaving).foldl (follow kinds depth) ⟨out,visited,[]⟩ = walk at *
    cases walk with
    | mk out' visited' queue' =>
      have hq := hn.queue
      dsimp only at ho hi' hq
      rw [ho,hi',hq]
      rfl
  · rw [hr,rows_level]
  · apply hl.round.advance (fun _ => Iff.rfl)
    · intro w hw
      exact ((hm w).mp hw).2
    · intro v w hv _ hs
      by_cases hw : w ∈ visited
      · exact .inl ((hl.visited_iff w).mp hw)
      · exact .inr ((hm w).mpr ⟨hw,v,hv,hs⟩)
  · intro t
    rw [mem_append,mem_reverse,hl.visited_iff,or_comm]
  · have hc : (news.map (·.canonical)).toFinset.card = news.length := by
      rw [List.toFinset_card_of_nodup hn.nodup,List.length_map]
    have hdi : Disjoint (news.map (·.canonical)).toFinset
        (graph.targets.toFinset \ ((news.map (·.canonical)).reverse++visited).toFinset) := by
      rw [Finset.disjoint_left]
      intro t ht he
      simp only [Finset.mem_sdiff,List.mem_toFinset,mem_append,mem_reverse] at ht he
      exact he.2 (.inl ht)
    rw [left,left,← hc,← Finset.card_union_of_disjoint hdi]
    apply Finset.card_le_card
    intro t ht
    simp only [Finset.mem_union,Finset.mem_sdiff,List.mem_toFinset,mem_append,mem_reverse] at ht ⊢
    rcases ht with ht | ht
    · obtain ⟨hno,t', -,kind, -,hro⟩ := (hm t).mp ht
      exact ⟨mem_targets hro,hno⟩
    · exact ⟨ht.1,fun hv => ht.2 (.inr hv)⟩

/-- From a level on whose texts are new, the loop expands every text within its hops that was not expanded before, once. -/
theorem drain_ok (h : SameEdges st graph) (m : ℕ) (hm : depth+m = maxHops) (fuel : ℕ) (out : List FoundEdge)
    (hl : AtLevel graph kinds starts depth expanded lvl visited) (hn : (lvl.map (·.canonical)).Nodup)
    (hw : ∀ t ∈ lvl.map (·.canonical), ¬ expanded t) (hf : lvl.length+graph.left visited < fuel) :
    ∃ (ts : List String) (found : List FoundEdge),
      graph.drain kinds maxHops fuel ⟨out,visited,lvl.map (fun u => (u, depth))⟩ = some (out++found) ∧
      found.map FoundEdge.row = ts.flatMap (graph.rowsFrom kinds) ∧ ts.Nodup ∧
      ∀ t, t ∈ ts ↔ ¬ expanded t ∧ Within (graph.StepsTo kinds) starts maxHops t := by
  induction m generalizing depth fuel lvl visited out expanded with
  | zero =>
    obtain rfl : depth = maxHops := by omega
    refine ⟨[],[], ?_,rfl, .nil, ?_⟩
    · rw [drain_deep (le_refl depth) (by omega),append_nil]
    · intro t
      rw [← hl.round.expanded_iff]
      simp
  | succ m ih =>
    obtain ⟨fuel,rfl⟩ : ∃ n, fuel = n + lvl.length := ⟨fuel - lvl.length,by omega⟩
    obtain ⟨news,found,visited',hd,hr,hx,hs,hne,hle⟩ := hl.drain h (show depth < maxHops by omega) fuel out
    obtain ⟨ts,later,hlt,ha,hts,hme⟩ := ih (by omega) fuel (out++found) hx hs
      (fun t ht he => hne t ht ((hl.visited_iff t).mpr he)) (by omega)
    refine ⟨lvl.map (·.canonical)++ts,found++later, ?_, ?_, ?_, ?_⟩
    · rw [hd,hlt,List.append_assoc]
    · rw [map_append,hr,ha,List.flatMap_append]
    · exact hn.append hts (fun t ht ht' => ((hme t).mp ht').1 (.inr ht))
    · intro t
      rw [mem_append,hme]
      constructor
      · intro ht
        rcases ht with ht | ⟨ho,hi⟩
        · exact ⟨hw t ht,depth,by omega,hl.round.reached t ht⟩
        · exact ⟨fun he => ho (.inl he),hi⟩
      · intro ht
        by_cases hv : t ∈ lvl.map (·.canonical)
        · exact .inl hv
        · exact .inr ⟨fun he => he.elim ht.1 hv,ht.2⟩

variable (kinds) in
theorem batchTraverse_ok (h : SameEdges st graph) (seeds : List ContextUri) (n : ℕ) :
    ∃ (ts : List String) (result : List FoundEdge), graph.batchTraverse kinds seeds (n + 1) = some result ∧
      result.map FoundEdge.row = (seeds.map (·.canonical) ++ ts).flatMap (graph.rowsFrom kinds) ∧ ts.Nodup ∧
      ∀ t, t ∈ ts ↔ t ∉ seeds.map (·.canonical) ∧ Within (graph.StepsTo kinds) (· ∈ seeds.map (·.canonical)) (n + 1) t := by
  have hs : AtLevel graph kinds (· ∈ seeds.map (·.canonical)) 0 (fun _ => False) seeds
      (seeds.map (·.canonical)).reverse :=
    ⟨.zero, by simp⟩
  have hf : seeds.length + graph.targets.length + 1 = (graph.targets.length + 1) + seeds.length := by omega
  obtain ⟨news, found, visited, hd, hr, hn, ho, he, hle⟩ :=
    hs.drain h (show 0 < n + 1 by omega) (graph.targets.length + 1) []
  have hb : graph.left (seeds.map (·.canonical)).reverse ≤ graph.targets.length :=
    (Finset.card_le_card Finset.sdiff_subset).trans (List.toFinset_card_le _)
  obtain ⟨ts, later, hl, ha, hts, hm⟩ := drain_ok h n (show 0 + 1 + n = n + 1 by omega)
    (graph.targets.length + 1) ([] ++ found) hn ho
    (fun t ht hx => he t ht (by simpa using hx)) (by omega)
  refine ⟨ts, found ++ later, ?_, ?_, hts, ?_⟩
  · rw [batchTraverse, hf, hd, hl]
    rfl
  · rw [List.map_append, hr, ha, List.flatMap_append]
  · intro t
    rw [hm, false_or]

end MemoryGraph

variable {v : ContextUri}

section Agreement

/-- What the seeds and the kinds must be like for both searches to return each edge once. -/
structure Unambiguous (st : SqliteTables) (kinds : List GraphRelation) (seeds : List ContextUri) (maxHops : ℕ) : Prop where
  named : kinds = [] → ∀ seed ∈ seeds, ∀ edge ∈ st.relations, edge.from_ ≠ seed.canonical
  apart : (seeds.map (·.canonical)).Pairwise (fun t t' => t = t' → Idle st kinds t)
  spelling : ∀ seed ∈ seeds, ContextUri.parse seed.canonical ≠ .ok seed → Idle st kinds seed.canonical ∨
    ∀ k, 0 < k → k < maxHops → ¬ ReachIn (Leads st kinds) (fun t => ∃ seed ∈ seeds, seed.canonical = t) k seed.canonical

variable {st : SqliteTables} {graph : MemoryGraph} {kinds : List GraphRelation}

theorem leads_iff (hr : ∀ edge ∈ st.relations, ∃ u, parse edge.to_ = .ok u) (u : ContextUri) (t : String) :
    Leads st kinds u.canonical t ↔ ∃ v, SqliteTables.StepsTo st kinds u v ∧ v.canonical = t := by
  constructor
  · intro h
    obtain ⟨kind,hk,hm⟩ := h
    obtain ⟨v,hv⟩ := hr _ hm
    exact ⟨v,⟨_,hm,rfl,hk,hv⟩,parse_canonical hv⟩
  · intro h
    obtain ⟨v,⟨edge,hm,hf,hk,hv⟩,rfl⟩ := h
    refine ⟨edge.kind,hk, ?_⟩
    rw [parse_canonical hv,← hf]
    exact hm

theorem parse_of_reachIn {starts : ContextUri → Prop} {k : ℕ} (hk : 0 < k)
    (h : ReachIn (SqliteTables.StepsTo st kinds) starts k v) : parse v.canonical = .ok v := by
  cases h with
  | start h => omega
  | step hu h =>
    obtain ⟨edge, -, -, -,hv⟩ := h
    rw [parse_canonical hv,hv]

theorem idle_symm : Std.Symm (fun u v : ContextUri => u.canonical = v.canonical → Idle st kinds u.canonical) :=
  ⟨fun _ _ h he => he ▸ h he.symm⟩

/-- Two URIs within the hops that have one text: two seeds, or a seed that is reached again under another spelling. -/
theorem idle_of_unambiguous (he : ∀ edge ∈ st.relations, ∃ u, parse edge.to_ = .ok u)
    {seeds : List ContextUri} {n : ℕ} (h : Unambiguous st kinds seeds n) {u : ContextUri}
    (hu : Within (SqliteTables.StepsTo st kinds) (· ∈ seeds) n u)
    (hv : Within (SqliteTables.StepsTo st kinds) (· ∈ seeds) n v) (hn : u ≠ v) (ht : u.canonical = v.canonical) :
    Idle st kinds u.canonical := by
  have ha : ∀ {x y : ContextUri} {k : ℕ}, x ∈ seeds → 0 < k → k < n →
      ReachIn (SqliteTables.StepsTo st kinds) (· ∈ seeds) k y →
      x ≠ y → x.canonical = y.canonical → Idle st kinds x.canonical := by
    intro x y k hx hk hkn hy hxy htx
    have ho : parse x.canonical ≠ .ok x := by
      rw [htx,parse_of_reachIn hk hy]
      exact fun hq => hxy (Except.ok.inj hq).symm
    rcases h.spelling x hx ho with hi | hf
    · exact hi
    · exact absurd ((reachIn_map_iff (fun _ => Iff.rfl) (leads_iff he)).mpr ⟨y,hy,htx.symm⟩) (hf k hk hkn)
  obtain ⟨k,hk,hu⟩ := hu
  obtain ⟨k',hk',hv⟩ := hv
  rcases Nat.eq_zero_or_pos k with rfl | hp
  · have hs : u ∈ seeds := reachIn_zero_iff.mp hu
    rcases Nat.eq_zero_or_pos k' with rfl | hp'
    · have hs' : v ∈ seeds := reachIn_zero_iff.mp hv
      have hpa : seeds.Pairwise (fun x y => x.canonical = y.canonical → Idle st kinds x.canonical) :=
        List.pairwise_map.mp h.apart
      have hm := @idle_symm st kinds
      exact hpa.forall hs hs' hn ht
    · exact ha hs hp' hk' hv hn ht
  · rcases Nat.eq_zero_or_pos k' with rfl | hp'
    · have hi := ha (reachIn_zero_iff.mp hv) hp hk hu hn.symm ht.symm
      rwa [ht]
    · have hr := parse_of_reachIn hp hu
      rw [ht,parse_of_reachIn hp' hv] at hr
      exact absurd (Except.ok.inj hr).symm hn

theorem sqlite_traversed_iff (ha : ∀ edge ∈ st.relations, ∃ u, parse edge.to_ = .ok u) (hd : kinds.Nodup)
    (seeds : List ContextUri) (n : ℕ) :
    (∃ result, st.batchTraverse kinds seeds n = .ok result ∧ Traversed st kinds seeds n result) ↔
      ∀ u v, Within (SqliteTables.StepsTo st kinds) (· ∈ seeds) n u →
      Within (SqliteTables.StepsTo st kinds) (· ∈ seeds) n v →
        u ≠ v → u.canonical = v.canonical → Idle st kinds u.canonical := by
  obtain ⟨nodes,result,hr,hs,ho,hm⟩ := SqliteTables.batchTraverse_ok kinds ha seeds n
  have hi : ∀ edge, edge ∈ result.map FoundEdge.row ↔ edge ∈ st.relations ∧ edge.kind ∈ kinds ∧
      Near st kinds seeds n edge.from_ := by
    intro edge
    rw [ho,mem_flatMap,Near,within_map_iff (fun _ => Iff.rfl) (leads_iff ha)]
    simp only [SqliteTables.mem_rowsFrom_iff,mem_map,hm]
    constructor
    · intro h
      obtain ⟨t,⟨u,hu,rfl⟩,he,hf,hk⟩ := h
      exact ⟨he,hk,u,hu,hf.symm⟩
    · intro h
      obtain ⟨he,hk,u,hu,hf⟩ := h
      exact ⟨u.canonical,⟨u,hu,rfl⟩,he,hf.symm,hk⟩
  have hn : (result.map FoundEdge.row).Nodup ↔
      nodes.Pairwise (fun u v => u.canonical = v.canonical → Idle st kinds u.canonical) := by
    rw [ho,nodup_flatMap_iff Edge.from_ (fun t edge he => (SqliteTables.mem_rowsFrom_iff.mp he).2.1)
      (SqliteTables.nodup_rowsFrom hd),List.pairwise_map]
    simp only [SqliteTables.rowsFrom_eq_nil_iff]
  constructor
  · intro h u v hu hv hne ht
    obtain ⟨result',hr',htr⟩ := h
    obtain rfl := Except.ok.inj (hr.symm.trans hr')
    have hy := @idle_symm st kinds
    exact (hn.mp htr.nodup).forall ((hm u).mpr hu) ((hm v).mpr hv) hne ht
  · intro h
    refine ⟨result,hr,hn.mpr ?_,hi⟩
    apply hs.pairwise_of_forall_ne
    intro u hu v hv hne
    exact h u v ((hm u).mp hu) ((hm v).mp hv) hne

theorem memory_steps (h : SameEdges st graph) (hn : kinds ≠ []) : graph.StepsTo kinds = Leads st kinds := by
  funext t t'
  apply propext
  simp only [MemoryGraph.StepsTo,Leads,MemoryGraph.allows,h.mem_iff]
  apply exists_congr
  intro kind
  simp [hn]

theorem memory_rows_iff (h : SameEdges st graph) (hn : kinds ≠ []) :
    edge ∈ graph.rowsFrom kinds t ↔ edge ∈ st.relations ∧ edge.from_ = t ∧ edge.kind ∈ kinds := by
  rw [MemoryGraph.mem_rowsFrom_iff,h.mem_iff]
  simp only [MemoryGraph.allows,Bool.or_eq_true,List.contains_iff_mem,List.isEmpty_iff,hn,false_or]
  constructor
  · intro he
    obtain ⟨rfl,hm,hk⟩ := he
    exact ⟨hm,rfl,hk⟩
  · intro he
    obtain ⟨hm,rfl,hk⟩ := he
    exact ⟨rfl,hm,hk⟩

/-- With kinds given, what the memory store returns has the right edges; it has each once unless two seeds have one text. -/
theorem memory_traversed_iff (h : SameEdges st graph) (hn : kinds ≠ []) (seeds : List ContextUri) (n : ℕ) :
    (∃ result, graph.batchTraverse kinds seeds (n+1) = some result ∧ Traversed st kinds seeds (n+1) result) ↔
      (seeds.map (·.canonical)).Pairwise (fun t t' => t = t' → Idle st kinds t) := by
  obtain ⟨ts,result,hr,hw,hts,hm⟩ := MemoryGraph.batchTraverse_ok kinds h seeds n
  have ha : (fun t => t ∈ seeds.map (·.canonical)) = fun t => ∃ seed ∈ seeds, seed.canonical = t := by
    funext t
    exact propext mem_map
  rw [memory_steps h hn,ha] at hm
  have hi : ∀ t, graph.rowsFrom kinds t = [] ↔ Idle st kinds t := by
    intro t
    simp only [List.eq_nil_iff_forall_not_mem,memory_rows_iff h hn,Idle]
    constructor
    · intro ho edge he hf hk
      exact ho edge ⟨he,hf,hk⟩
    · intro ho edge he
      exact ho edge he.1 he.2.1 he.2.2
  have hg : ∀ edge, edge ∈ result.map FoundEdge.row ↔
      edge ∈ st.relations ∧ edge.kind ∈ kinds ∧ Near st kinds seeds (n+1) edge.from_ := by
    intro edge
    rw [hw,mem_flatMap]
    simp only [memory_rows_iff h hn,mem_append,hm]
    constructor
    · intro he
      obtain ⟨t,ht,he,rfl,hk⟩ := he
      rcases ht with ht | ht
      · exact ⟨he,hk,0,by omega, .start (mem_map.mp ht)⟩
      · exact ⟨he,hk,ht.2⟩
    · intro he
      obtain ⟨he,hk,hnea⟩ := he
      refine ⟨edge.from_, ?_,he,rfl,hk⟩
      by_cases hs : edge.from_ ∈ seeds.map (·.canonical)
      · exact .inl hs
      · exact .inr ⟨hs,hnea⟩
  have hd : (result.map FoundEdge.row).Nodup ↔
      (seeds.map (·.canonical)).Pairwise (fun t t' => t = t' → Idle st kinds t) := by
    rw [hw,nodup_flatMap_iff Edge.from_ (fun t edge he => (MemoryGraph.mem_rowsFrom_iff.mp he).1)
      (MemoryGraph.nodup_rowsFrom h),List.pairwise_append]
    simp only [hi]
    constructor
    · intro hp
      exact hp.1
    · intro hp
      refine ⟨hp,hts.imp (fun hn hq => absurd hq hn), ?_⟩
      rintro t ht _ ht' rfl
      exact absurd ht ((hm t).mp ht').1
  constructor
  · intro hso
    obtain ⟨result',hr',htr⟩ := hso
    obtain rfl := Option.some.inj (hr.symm.trans hr')
    exact hd.mp htr.nodup
  · intro hp
    exact ⟨result,hr,hd.mpr hp,hg⟩

theorem memory_unnamed_iff (h : SameEdges st graph) (seeds : List ContextUri) (n : ℕ) :
    (∃ result, graph.batchTraverse [] seeds (n+1) = some result ∧ Traversed st [] seeds (n+1) result) ↔
      ∀ seed ∈ seeds, ∀ edge ∈ st.relations, edge.from_ ≠ seed.canonical := by
  obtain ⟨ts,result,hr,hw, -,hm⟩ := MemoryGraph.batchTraverse_ok [] h seeds n
  have hl : ∀ kind, MemoryGraph.allows [] kind = true := fun _ => rfl
  constructor
  · intro hso seed hs edge he hf
    obtain ⟨result',hr',htr⟩ := hso
    obtain rfl := Option.some.inj (hr.symm.trans hr')
    have hfo : edge ∈ result.map FoundEdge.row := by
      rw [hw,mem_flatMap]
      refine ⟨seed.canonical,mem_append_left _ (mem_map_of_mem hs), ?_⟩
      rw [MemoryGraph.mem_rowsFrom_iff,h.mem_iff,← hf]
      exact ⟨rfl,he,hl edge.kind⟩
    have hk := ((htr.mem_iff edge).mp hfo).2.1
    cases hk
  · intro hno
    have hd : ∀ t ∈ seeds.map (·.canonical), ∀ t' kind, (t', kind) ∉ graph.out t := by
      intro t ht t' kind ho
      obtain ⟨seed,hs,rfl⟩ := mem_map.mp ht
      exact hno seed hs _ ((h.mem_iff _ _ _).mp ho) rfl
    have hts : ts = [] := by
      apply List.eq_nil_iff_forall_not_mem.mpr
      intro t ht
      obtain ⟨hnot,k, -,ha⟩ := (hm t).mp ht
      have hst : ∀ u v, u ∈ seeds.map (·.canonical) → ¬ graph.StepsTo [] u v := by
        intro u v hu hste
        obtain ⟨kind, -,ho⟩ := hste
        exact hd u hu v kind ho
      obtain rfl := eq_zero_of_no_step hst ha
      exact hnot (reachIn_zero_iff.mp ha)
    have hn : result.map FoundEdge.row = [] := by
      rw [hw,hts,append_nil,List.flatMap_eq_nil_iff]
      intro t ht
      apply List.eq_nil_iff_forall_not_mem.mpr
      intro edge he
      exact hd t ht _ _ (MemoryGraph.mem_rowsFrom_iff.mp he).2.1
    refine ⟨result,hr, ?_, ?_⟩
    · rw [hn]
      exact .nil
    · simp [hn]

/-- Both stores return the edges of allowed kinds nearer than the hops, each once, exactly if seeds and kinds are
unambiguous. -/
theorem batchTraverse_iff (calls : List GraphCall) (kinds : List GraphRelation) (hkinds : kinds.Nodup)
    (seeds : List ContextUri) (maxHops : ℕ) :
    ((∃ result, (sqliteAfter calls).batchTraverse kinds seeds maxHops = .ok result ∧
        Traversed (sqliteAfter calls) kinds seeds maxHops result) ∧
      ∃ result, (memoryAfter calls).batchTraverse kinds seeds maxHops = some result ∧
        Traversed (sqliteAfter calls) kinds seeds maxHops result) ↔
      (0 < maxHops → Unambiguous (sqliteAfter calls) kinds seeds maxHops) := by
  have hs := sameEdges_after calls
  generalize sqliteAfter calls = st at *
  generalize memoryAfter calls = graph at *
  have hr := hs.readable
  cases maxHops with
  | zero =>
    have ho : Traversed st kinds seeds 0 [] := ⟨.nil, by simp [Near]⟩
    have hd : graph.batchTraverse kinds seeds 0 = some [] := MemoryGraph.drain_deep (le_refl 0) (by omega) [] _
    simp only [Nat.lt_irrefl, false_implies, iff_true]
    exact ⟨⟨[], rfl, ho⟩, [], hd, ho⟩
  | succ n =>
    rw [sqlite_traversed_iff hr hkinds]
    constructor
    · intro hb _
      refine ⟨?_, ?_, ?_⟩
      · rintro rfl
        exact (memory_unnamed_iff hs seeds n).mp hb.2
      · by_cases hn : kinds = []
        · subst hn
          exact List.pairwise_of_forall (fun _ _ _ _ _ _ => List.not_mem_nil)
        · exact (memory_traversed_iff hs hn seeds n).mp hb.2
      · intro seed he hh
        apply or_iff_not_imp_left.mpr
        intro hi k hk hkn hc
        obtain ⟨v, hv, ht⟩ := (reachIn_map_iff (fun _ => Iff.rfl) (leads_iff hr)).mp hc
        have hn : seed ≠ v := by
          rintro rfl
          exact hh (parse_of_reachIn hk hv)
        exact hi (hb.1 seed v ⟨0, by omega, .start he⟩ ⟨k, hkn, hv⟩ hn ht.symm)
    · intro hg
      have hp := hg (Nat.succ_pos n)
      refine ⟨fun u v hu hv hn ht => idle_of_unambiguous hr hp hu hv hn ht, ?_⟩
      by_cases hn : kinds = []
      · subst hn
        exact (memory_unnamed_iff hs seeds n).mpr (hp.named rfl)
      · exact (memory_traversed_iff hs hn seeds n).mpr hp.apart

def sampleFrom : Address :=
  .ofParse (show ContextUri.parse "uwu://t/a" = .ok ⟨"t", ["t", "a"], none, "uwu://t/a"⟩ by decide +kernel)

def sampleTo : Address :=
  .ofParse (show ContextUri.parse "uwu://t/b" = .ok ⟨"t", ["t", "b"], none, "uwu://t/b"⟩ by decide +kernel)

theorem batchTraverse_iff_sample :
    (∃ result, (sqliteAfter [.addEdge sampleFrom sampleTo .supersedes]).batchTraverse [.supersedes]
      [sampleFrom.uri] 1 = .ok result ∧
      Traversed (sqliteAfter [.addEdge sampleFrom sampleTo .supersedes]) [.supersedes] [sampleFrom.uri] 1 result) ∧
    ∃ result, (memoryAfter [.addEdge sampleFrom sampleTo .supersedes]).batchTraverse [.supersedes]
    [sampleFrom.uri] 1 = some result ∧
      Traversed (sqliteAfter [.addEdge sampleFrom sampleTo .supersedes]) [.supersedes] [sampleFrom.uri] 1 result := by
  apply (batchTraverse_iff [.addEdge sampleFrom sampleTo .supersedes] [.supersedes] (by decide) [sampleFrom.uri] 1).mpr
  intro _
  refine ⟨by simp, by simp, ?_⟩
  intro seed hs ho
  rw [List.mem_singleton.mp hs] at ho
  exact absurd (by decide +kernel) ho

/-- With no kinds named, one store returns nothing and the other an edge that is of no allowed kind. -/
theorem batchTraverse_unnamed :
    (sqliteAfter [.addEdge sampleFrom sampleTo .supersedes]).batchTraverse [] [sampleFrom.uri] 1 = .ok [] ∧
    (memoryAfter [.addEdge sampleFrom sampleTo .supersedes]).batchTraverse [] [sampleFrom.uri] 1 =
      some [(sampleFrom.uri, sampleTo.uri, .supersedes)] ∧
    ¬ Traversed (sqliteAfter [.addEdge sampleFrom sampleTo .supersedes]) [] [sampleFrom.uri] 1
      [(sampleFrom.uri, sampleTo.uri, .supersedes)] := by
  refine ⟨by decide +kernel, by decide +kernel, ?_⟩
  intro h
  have hk := ((h.mem_iff (FoundEdge.row (sampleFrom.uri, sampleTo.uri, .supersedes))).mp (by simp)).2.1
  cases hk

end Agreement

end UwuContextDb.Content
