import UwuContextDb.Content.SqliteTables

/-! The graph of the SQLite store: which changes of its edges a scope's revision shows. -/

namespace UwuContextDb.Content

open StateMachine

/-- `LIKE` without an escape letter. -/
def plainLike (text pattern : String) : Bool :=
  sqlLike text (String.ofList (replaceChar '\\' ['\\', '\\'] pattern.toList))

def tenantOf (uri : String) : Option String := (ContextUri.parse uri).toOption.map (·.tenant)

/-- `from_uri LIKE ? OR to_uri LIKE ?`, as `centrality` binds them. -/
def Edge.centralTo (scope : String) (edge : Edge) : Bool :=
  plainLike edge.from_ ("uwu://" ++ scope ++ "/%") || plainLike edge.to_ ("uwu://" ++ scope ++ "/%")

/-- The edges that `centrality` reads for a scope, and those that a query for one of its addresses finds. -/
def Edge.readBy (scope : String) (edge : Edge) : Bool :=
  edge.centralTo scope || tenantOf edge.from_ = some scope || tenantOf edge.to_ = some scope

/-- A row of `context_graph_centrality`, with the edges that its score was computed from. -/
structure CentralityRow where
  scope : String
  revision : ℕ
  uri : String
  edges : List Edge

/-- The tables, the calls of `centrality` that have read the edges of their scope, and the scores they wrote. -/
structure GraphStore where
  tables : SqliteTables
  inFlight : List (ContextUri × List Edge)
  cached : List CentralityRow

namespace GraphStore

variable (libraries lib : StoreLibraries) (config : SqliteTables.BatchWriteConfig) (st : GraphStore)

def empty : GraphStore := ⟨.empty, [], []⟩

inductive Op
  | content (op : SqliteTables.Op)
  | readEdges (uri : ContextUri)
  | writeScores (i : ℕ)

def centralEdges (scope : String) : List Edge := st.tables.relations.filter (Edge.centralTo scope)

def nodes (edges : List Edge) : List String := (edges.flatMap (fun edge => [edge.from_, edge.to_])).dedup

def hasScore (scope : String) (revision : ℕ) (uri : String) : Bool :=
  st.cached.any (fun row => row.scope = scope && row.revision = revision && row.uri = uri)

/-- `INSERT OR REPLACE INTO context_graph_centrality`. -/
def replaceScore (cached : List CentralityRow) (row : CentralityRow) : List CentralityRow :=
  cached.filter (fun old => !(old.scope = row.scope && old.revision = row.revision && old.uri = row.uri)) ++ [row]

def scoresOf (scope : String) (revision : ℕ) (edges : List Edge) : List CentralityRow :=
  (nodes edges).map (fun uri => ⟨scope, revision, uri, edges⟩)

/-- `centrality` reads the edges of the scope, then its revision; it computes scores where there is none for them. -/
def step : Op → GraphStore
  | .content op => { st with tables := st.tables.step libraries config op }
  | .readEdges uri =>
    let edges := st.centralEdges uri.tenant
    if uri.canonical ∈ nodes edges then { st with inFlight := st.inFlight ++ [(uri, edges)] } else st
  | .writeScores i =>
    match st.inFlight[i]? with
    | some (uri, edges) =>
      let revision := st.tables.graphRevision uri.tenant
      let inFlight := st.inFlight.eraseIdx i
      if st.hasScore uri.tenant revision uri.canonical then { st with inFlight := inFlight }
      else { st with
        inFlight := inFlight
        cached := (scoresOf uri.tenant revision edges).foldl replaceScore st.cached }
    | none => st

def RevisionTells (st st' : GraphStore) : Prop :=
  ∀ scope, st.tables.graphRevision scope = st'.tables.graphRevision scope →
    ∀ edge, Edge.readBy scope edge = true → (edge ∈ st.tables.relations ↔ edge ∈ st'.tables.relations)

def ScoresFresh (st : GraphStore) : Prop :=
  ∀ row ∈ st.cached, row.revision = st.tables.graphRevision row.scope →
    ∀ edge, edge ∈ row.edges ↔ edge ∈ st.centralEdges row.scope

def Changes (tables : SqliteTables) : SqliteTables.Op → Edge → Prop
  | .addEdge from_ to_ kind, edge => edge = ⟨from_.canonical, to_.canonical, kind⟩ ∧ edge ∉ tables.relations
  | .removeEdge from_ to_, edge => edge ∈ tables.relations ∧ edge.from_ = from_.canonical ∧ edge.to_ = to_.canonical
  | .delete uri _, edge => uri.canonical ∈ tables.entries ∧ edge ∈ tables.relations ∧ edge.touches uri.canonical = true
  | .rename from_ to_ now, edge => (tables.rename libraries from_ to_ now).isOk = true ∧ from_.canonical ≠ to_.canonical ∧
      ((edge ∈ tables.relations ∧ edge.touches from_.canonical = true) ∨
        (edge ∉ tables.relations ∧ ∃ old ∈ tables.relations, old.touches from_.canonical = true ∧
          edge = old.renamed from_.canonical to_.canonical))
  | _, _ => False

def bumped : SqliteTables.Op → String
  | .addEdge from_ _ _ => from_.tenant
  | .removeEdge from_ _ => from_.tenant
  | .delete uri _ => uri.tenant
  | .rename from_ _ _ => from_.tenant
  | _ => ""

/-- Every edge that changes is read for one scope only, the one whose revision is incremented; and scores are
written for the edges that the scope has when its revision is read. -/
def Undisturbed : Op → Prop
  | .content op => ∀ edge scope, Changes libraries st.tables op edge → Edge.readBy scope edge = true → scope = bumped op
  | .readEdges _ => True
  | .writeScores i => ∀ uri edges, st.inFlight[i]? = some (uri, edges) →
      st.hasScore uri.tenant (st.tables.graphRevision uri.tenant) uri.canonical = false →
        ∀ edge, edge ∈ edges ↔ edge ∈ st.centralEdges uri.tenant

end GraphStore

namespace SqliteTables

variable {libraries lib : StoreLibraries} {config : BatchWriteConfig} {st tx : SqliteTables}

def SameGraph (st tx : SqliteTables) : Prop := tx.relations = st.relations ∧ tx.revisions = st.revisions

theorem SameGraph.trans {st st' st'' : SqliteTables} (h : SameGraph st st') (h' : SameGraph st' st'') : SameGraph st st'' :=
  ⟨h'.1.trans h.1,h'.2.trans h.2⟩

theorem sameGraph_enqueueAny (chg : Option IndexMutation) (now : DateTime) :
    SameGraph st (st.enqueueAny chg now) := by
  cases chg with
  | none => exact ⟨rfl,rfl⟩
  | some chg => exact ⟨rfl,rfl⟩

theorem sameGraph_writeInTx {e : ContextEntry} {now : DateTime} {ver : MvccVersion}
    (h : st.writeInTx lib e now = .ok (ver, tx)) : SameGraph st tx := by
  obtain ⟨stored,hw⟩ := writeInTx_ok h
  rw [hw.tables]
  exact ⟨rfl,rfl⟩

theorem sameGraph_batchWrite {es : List ContextEntry} {now : DateTime} {vs : List MvccVersion}
    (h : st.batchWrite lib config es now = .ok (vs, tx)) : SameGraph st tx := by
  refine batchWrite_preserves (P := SameGraph st) (fun st' chunk vs tx _ hs hc => ?_) ⟨rfl,rfl⟩ h
  obtain ⟨rows,hw⟩ := writeChunk_ok hc
  exact hs.trans ⟨hw.relations,hw.revisions⟩

section Steps

theorem mem_insertEdge {relations : List Edge} {edge new : Edge} :
    edge ∈ insertEdge relations new ↔ edge ∈ relations ∨ edge = new := by
  unfold insertEdge
  split
  · rename_i hm
    constructor
    · exact .inl
    · rintro (h | rfl)
      · exact h
      · exact hm
  · simp

theorem mem_foldl_insertEdge {relations new : List Edge} {edge : Edge} :
    edge ∈ new.foldl insertEdge relations ↔ edge ∈ relations ∨ edge ∈ new := by
  induction new generalizing relations with
  | nil => simp
  | cons first new ih => simp [ih,mem_insertEdge,or_assoc]

theorem renamed_not_touches {from_ to_ : String} (hn : from_ ≠ to_) (edge : Edge) :
    (edge.renamed from_ to_).touches from_ = false := by
  unfold Edge.renamed Edge.touches
  by_cases hf : edge.from_ = from_ <;> by_cases ht : edge.to_ = from_ <;> simp [hf,ht,hn.symm]

theorem renamed_self (u : String) (edge : Edge) : edge.renamed u u = edge := by
  obtain ⟨a,c,kind⟩ := edge
  simp only [Edge.renamed,Edge.mk.injEq,and_true]
  exact ⟨ite_eq_right_iff.mpr Eq.symm,ite_eq_right_iff.mpr Eq.symm⟩

open GraphStore (Changes bumped)

structure GraphStep (libraries : StoreLibraries) (st : SqliteTables) (op : Op) (tx : SqliteTables) : Prop where
  changes : ∀ edge, Changes libraries st op edge ↔ ¬ (edge ∈ st.relations ↔ edge ∈ tx.relations)
  revisions : tx.revisions = st.revisions ∨ tx.revisions = (st.bumpGraphRevision (bumped op)).revisions
  bumps : (∃ edge, Changes libraries st op edge) → tx.revisions = (st.bumpGraphRevision (bumped op)).revisions

theorem graphStep_of_same {op : Op} (hs : SameGraph st tx) (hn : ∀ edge, ¬ Changes lib st op edge) :
    GraphStep lib st op tx := by
  refine ⟨fun edge => iff_of_false (hn edge) ?_, .inl hs.2,fun hc => ?_⟩
  · rw [hs.1]
    exact not_not.mpr Iff.rfl
  · obtain ⟨edge,he⟩ := hc
    exact absurd he (hn edge)

theorem graphStep_addEdge (from_ to_ : ContextUri) (kind : GraphRelation) :
    GraphStep lib st (.addEdge from_ to_ kind) (st.addEdge from_ to_ kind) := by
  unfold addEdge
  dsimp only
  split
  · rename_i hm
    refine graphStep_of_same ⟨rfl,rfl⟩ (fun edge he => ?_)
    obtain ⟨rfl,hn⟩ := he
    exact hn hm
  · rename_i hm
    refine ⟨fun edge => ?_, .inr rfl,fun _ => rfl⟩
    show edge = _ ∧ _ ↔ ¬ (_ ↔ edge ∈ insertEdge st.relations _)
    rw [mem_insertEdge]
    by_cases ho : edge ∈ st.relations
    · simp [ho]
    · simp [ho]

theorem graphStep_removeEdge (from_ to_ : ContextUri) :
    GraphStep lib st (.removeEdge from_ to_) (st.removeEdge from_ to_) := by
  have hc : ∀ edge, Changes lib st (.removeEdge from_ to_) edge ↔
      edge ∈ st.relations ∧ edge.from_ = from_.canonical ∧ edge.to_ = to_.canonical := fun edge => Iff.rfl
  have hk : ∀ edge, edge ∈ (st.removeEdge from_ to_).relations ↔
      edge ∈ st.relations ∧ ¬ (edge.from_ = from_.canonical ∧ edge.to_ = to_.canonical) := by
    intro edge
    unfold removeEdge
    dsimp only
    split <;> simp only [bumpGraphRevision,List.mem_filter,Bool.not_eq_true',decide_eq_false_iff_not]
  refine ⟨fun edge => ?_,?_,fun hh => ?_⟩
  · rw [hc,hk]
    by_cases ho : edge ∈ st.relations
    · simp [ho]
    · simp [ho]
  · unfold removeEdge
    dsimp only
    split
    · exact .inr rfl
    · exact .inl rfl
  · obtain ⟨edge,he⟩ := hh
    have ha : st.relations.any (fun edge => decide (edge.from_ = from_.canonical ∧ edge.to_ = to_.canonical)) = true :=
      List.any_eq_true.mpr ⟨edge,he.1,by simpa using he.2⟩
    unfold removeEdge
    dsimp only
    rw [if_pos ha]
    rfl

theorem graphStep_delete {uri : ContextUri} {now : DateTime} {u : Unit} (h : st.delete uri now = .ok (u, tx)) :
    GraphStep lib st (.delete uri now) tx := by
  have hd := delete_ok h
  have hc : ∀ edge, Changes lib st (.delete uri now) edge ↔
      edge ∈ st.relations ∧ edge.touches uri.canonical = true :=
    fun edge => ⟨fun he => he.2,fun he => ⟨hd.live,he⟩⟩
  refine ⟨fun edge => ?_,?_,fun hh => ?_⟩
  · rw [hc,hd.relations,List.mem_filter]
    cases edge.touches uri.canonical <;> simp
  · rw [hd.revisions]
    split
    · exact .inr rfl
    · exact .inl rfl
  · obtain ⟨edge,he⟩ := hh
    have ha : st.relations.any (Edge.touches uri.canonical) = true := List.any_eq_true.mpr ⟨edge,(hc edge).mp he⟩
    rw [hd.revisions,if_pos ha]
    rfl

theorem graphStep_rename {from_ to_ : ContextUri} {now : DateTime} {u : Unit}
    (h : st.rename lib from_ to_ now = .ok (u, tx)) : GraphStep lib st (.rename from_ to_ now) tx := by
  obtain ⟨row,point,hr⟩ := rename_ok h
  have hk : (st.rename lib from_ to_ now).isOk = true := by rw [h]; rfl
  have hm : ∀ edge, edge ∈ tx.relations ↔ (edge ∈ st.relations ∧ edge.touches from_.canonical = false) ∨
      ∃ old ∈ st.relations, old.touches from_.canonical = true ∧ edge = old.renamed from_.canonical to_.canonical := by
    intro edge
    have hl : tx.relations = ((st.relations.filter (Edge.touches from_.canonical)).map
        (Edge.renamed from_.canonical to_.canonical)).foldl insertEdge
          (st.relations.filter (fun edge => !(edge.touches from_.canonical))) := by
      rw [hr.relations]
      unfold renameRelations
      dsimp only
      split <;> rfl
    rw [hl,mem_foldl_insertEdge]
    simp only [List.mem_filter,List.mem_map,Bool.not_eq_true',and_assoc,eq_comm (a := edge)]
  refine ⟨fun edge => ?_,?_,fun hc => ?_⟩
  · show _ ∧ _ ∧ _ ↔ _
    rw [hm]
    by_cases hs : from_.canonical = to_.canonical
    · refine iff_of_false (fun he => he.2.1 hs) (not_not.mpr ?_)
      simp only [← hs,renamed_self]
      cases ht : edge.touches from_.canonical with
      | false => simp [ht]
      | true => simp [ht]
    · cases ht : edge.touches from_.canonical with
      | true =>
        have hn : ¬ ∃ old ∈ st.relations, old.touches from_.canonical = true ∧
            edge = old.renamed from_.canonical to_.canonical := by
          rintro ⟨old,-,-,rfl⟩
          rw [renamed_not_touches hs] at ht
          cases ht
        simp only [hk,hn]
        simp [hs]
      | false =>
        simp only [hk]
        by_cases ho : edge ∈ st.relations
        · simp [ho]
        · simp [ho,hs]
  · rw [hr.revisions]
    unfold renameRelations
    dsimp only
    split
    · exact .inl rfl
    · exact .inr rfl
  · obtain ⟨edge,he⟩ := hc
    rw [hr.revisions]
    have hso : (st.relations.filter (Edge.touches from_.canonical)).isEmpty = false := by
      rcases he.2.2 with ⟨ho,ht⟩ | ⟨-,old,ho,ht,-⟩
      · exact List.isEmpty_eq_false_iff.mpr (List.ne_nil_of_mem (List.mem_filter.mpr ⟨ho,ht⟩))
      · exact List.isEmpty_eq_false_iff.mpr (List.ne_nil_of_mem (List.mem_filter.mpr ⟨ho,ht⟩))
    unfold renameRelations
    dsimp only
    rw [if_neg (by simp [hso])]
    rfl

theorem graphStep (op : Op) : GraphStep lib st op (st.step lib config op) := by
  cases hc : st.commit lib config op with
  | error e =>
    rw [step_of_error hc]
    refine graphStep_of_same ⟨rfl,rfl⟩ (fun edge he => ?_)
    cases op with
    | write entry now => exact he
    | batchWrite es now => exact he
    | rollback uri to_ now => exact he
    | addEdge from_ to_ kind => cases hc
    | removeEdge from_ to_ => cases hc
    | delete uri now =>
      have hd : ∃ out, st.delete uri now = .ok out := by
        unfold delete
        rw [if_neg (not_not.mpr he.1)]
        exact ⟨_,rfl⟩
      obtain ⟨out,hu⟩ := hd
      simp [commit,hu,Except.map] at hc
    | rename from_ to_ now =>
      have ho := he.1
      cases hr : st.rename lib from_ to_ now with
      | error e =>
        rw [hr] at ho
        cases ho
      | ok out => simp [commit,hr,Except.map] at hc
  | ok tx =>
    rw [step_of_ok hc]
    cases op with
    | write entry now =>
      obtain ⟨⟨ver,tx'⟩,hw,rfl⟩ := map_eq_ok.mp hc
      obtain ⟨inner,chg,hi,-,rfl⟩ := write_ok hw
      exact graphStep_of_same ((sameGraph_writeInTx hi).trans (sameGraph_enqueueAny chg now)) (fun edge => id)
    | batchWrite es now =>
      obtain ⟨⟨vs,tx'⟩,hb,rfl⟩ := map_eq_ok.mp hc
      exact graphStep_of_same (sameGraph_batchWrite hb) (fun edge => id)
    | rollback uri to_ now =>
      obtain ⟨⟨u,tx'⟩,hl,rfl⟩ := map_eq_ok.mp hc
      obtain ⟨row,ver,inner,chg,-,-,hi,-,rfl⟩ := rollback_ok hl
      exact graphStep_of_same ((sameGraph_writeInTx hi).trans (sameGraph_enqueueAny chg now)) (fun edge => id)
    | addEdge from_ to_ kind =>
      obtain rfl := Except.ok.inj hc
      exact graphStep_addEdge from_ to_ kind
    | removeEdge from_ to_ =>
      obtain rfl := Except.ok.inj hc
      exact graphStep_removeEdge from_ to_
    | delete uri now =>
      obtain ⟨⟨u,tx'⟩,hd,rfl⟩ := map_eq_ok.mp hc
      exact graphStep_delete hd
    | rename from_ to_ now =>
      obtain ⟨⟨u,tx'⟩,hr,rfl⟩ := map_eq_ok.mp hc
      exact graphStep_rename hr

end Steps

end SqliteTables

namespace GraphStore

variable {libraries lib : StoreLibraries} {config : SqliteTables.BatchWriteConfig} {st st' st'' : GraphStore}

theorem graphRevision_congr {tbl tbl' : SqliteTables} (h : tbl'.revisions = tbl.revisions) (scope : String) :
    tbl'.graphRevision scope = tbl.graphRevision scope := by
  rw [SqliteTables.graphRevision,h,SqliteTables.graphRevision]

theorem graphRevision_bump (tbl : SqliteTables) (sc sc' : String) :
    (tbl.bumpGraphRevision sc').graphRevision sc = tbl.graphRevision sc + if sc' = sc then 1 else 0 := by
  simp only [SqliteTables.graphRevision,SqliteTables.bumpGraphRevision,Std.ExtTreeMap.getElem?_insert]
  by_cases hs : sc' = sc
  · subst hs
    simp
  · simp [hs]

theorem revision_step (op : SqliteTables.Op) (sc : String) :
    st.tables.graphRevision sc ≤ (st.tables.step lib config op).graphRevision sc ∧
      (sc ≠ bumped op → (st.tables.step lib config op).graphRevision sc = st.tables.graphRevision sc) := by
  rcases (@SqliteTables.graphStep lib config st.tables op).revisions with hs | hb
  · rw [graphRevision_congr hs]
    exact ⟨le_rfl,fun _ => rfl⟩
  · rw [graphRevision_congr hb,graphRevision_bump]
    refine ⟨Nat.le_add_right _ _,fun hn => ?_⟩
    rw [if_neg (Ne.symm hn),Nat.add_zero]

theorem revision_step_of_changes {op : SqliteTables.Op} {edge : Edge} (h : Changes lib st.tables op edge) :
    (st.tables.step lib config op).graphRevision (bumped op) = st.tables.graphRevision (bumped op) + 1 := by
  have hb := (@SqliteTables.graphStep lib config st.tables op).bumps ⟨edge,h⟩
  rw [graphRevision_congr hb,graphRevision_bump,if_pos rfl]

theorem revision_le_step (op : Op) (scope : String) :
    st.tables.graphRevision scope ≤ (st.step lib config op).tables.graphRevision scope := by
  cases op with
  | content op => exact (revision_step op scope).1
  | readEdges u =>
    unfold step
    dsimp only
    split <;> exact le_rfl
  | writeScores i =>
    unfold step
    dsimp only
    split
    · split <;> exact le_rfl
    · exact le_rfl

theorem revision_le_run (ops : List Op) (scope : String) :
    st.tables.graphRevision scope ≤ (run (step lib config) st ops).tables.graphRevision scope := by
  induction ops generalizing st with
  | nil => exact le_rfl
  | cons op ops ih => exact (revision_le_step op scope).trans ih

theorem step_tables (op : Op) (h : ∀ inner, op ≠ .content inner) : (st.step lib config op).tables = st.tables := by
  cases op with
  | content inner => exact absurd rfl (h inner)
  | readEdges u =>
    unfold step
    dsimp only
    split <;> rfl
  | writeScores i =>
    unfold step
    dsimp only
    split
    · split <;> rfl
    · rfl

theorem revisionTells_step_iff (op : SqliteTables.Op) :
    RevisionTells st (st.step lib config (.content op)) ↔ st.Undisturbed lib (.content op) := by
  have hc := (@SqliteTables.graphStep lib config st.tables op).changes
  constructor
  · intro h edge sc he hr
    by_contra hne
    exact (hc edge).mp he (h sc ((revision_step op sc).2 hne).symm edge hr)
  · intro h sc hs edge hr
    by_contra hn
    have he := (hc edge).mpr hn
    obtain rfl := h edge sc he hr
    have hm : (st.tables.step lib config op).graphRevision (bumped op) = _ := revision_step_of_changes he
    have hs' : st.tables.graphRevision (bumped op) = (st.tables.step lib config op).graphRevision
        (bumped op) := hs
    omega

theorem RevisionTells.trans {scopes : ∀ sc, st.tables.graphRevision sc ≤ st'.tables.graphRevision sc ∧
      st'.tables.graphRevision sc ≤ st''.tables.graphRevision sc}
    (h : RevisionTells st st') (h' : RevisionTells st' st'') : RevisionTells st st'' := by
  intro sc hs edge hr
  obtain ⟨hl,hl'⟩ := scopes sc
  exact (h sc (by omega) edge hr).trans (h' sc (by omega) edge hr)

theorem revisionTells_step {op : Op} (h : st.Undisturbed lib op) : RevisionTells st (st.step lib config op) := by
  cases op with
  | content op => exact (revisionTells_step_iff op).mpr h
  | readEdges u =>
    intro sc _ edge _
    rw [step_tables _ (by simp)]
  | writeScores i =>
    intro sc _ edge _
    rw [step_tables _ (by simp)]

theorem revisionTells_run {ops : List Op} (h : Meets (step lib config) (Undisturbed lib) st ops) :
    RevisionTells st (run (step lib config) st ops) := by
  induction ops generalizing st with
  | nil => exact fun _ _ _ _ => Iff.rfl
  | cons op ops ih =>
    have hs : ∀ scope, st.tables.graphRevision scope ≤ (st.step lib config op).tables.graphRevision scope ∧
        (st.step lib config op).tables.graphRevision scope ≤
          (run (step lib config) (st.step lib config op) ops).tables.graphRevision scope :=
      fun scope => ⟨revision_le_step op scope,revision_le_run ops scope⟩
    exact @RevisionTells.trans _ _ _ hs (revisionTells_step h.1) (ih h.2)

theorem mem_replaceScores {cached new : List CentralityRow} {row : CentralityRow}
    (h : row ∈ new.foldl replaceScore cached) :
    row ∈ cached ∨ row ∈ new := by
  induction new generalizing cached with
  | nil => exact .inl h
  | cons first new ih =>
    rcases ih h with ho | hn
    · rcases List.mem_append.mp ho with hk | hf
      · exact .inl (List.mem_of_mem_filter hk)
      · exact .inr (List.mem_cons.mpr (.inl (List.mem_singleton.mp hf)))
    · exact .inr (List.mem_cons_of_mem _ hn)

theorem mem_replaceScores_of_other {cached new : List CentralityRow} {row : CentralityRow} (ho : row ∈ cached)
    (ht : ∀ r ∈ new, r.uri ≠ row.uri) : row ∈ new.foldl replaceScore cached := by
  induction new generalizing cached with
  | nil => exact ho
  | cons first new ih =>
    refine ih (List.mem_append_left _ (List.mem_filter.mpr ⟨ho,?_⟩)) (fun r hr => ht r (List.mem_cons_of_mem _ hr))
    have hn := (ht first List.mem_cons_self).symm
    simp [hn]

theorem mem_replaceScores_self {cached new : List CentralityRow} (hn : (new.map (·.uri)).Nodup) {row : CentralityRow}
    (ho : row ∈ new) : row ∈ new.foldl replaceScore cached := by
  induction new generalizing cached with
  | nil => cases ho
  | cons first new ih =>
    obtain ⟨hf,he⟩ := List.nodup_cons.mp hn
    rcases List.mem_cons.mp ho with rfl | ho
    · have hp : row ∈ replaceScore cached row := List.mem_append_right _ (List.mem_singleton.mpr rfl)
      have ht : ∀ r ∈ new, r.uri ≠ row.uri := fun r hr hq => hf (List.mem_map.mpr ⟨r,hr,hq⟩)
      rw [List.foldl_cons]
      exact mem_replaceScores_of_other hp ht
    · exact ih he ho

def ScoresKept (st : GraphStore) : Prop :=
  (∀ row ∈ st.cached, row.revision ≤ st.tables.graphRevision row.scope) ∧ st.ScoresFresh

def Started (st : GraphStore) : Prop := ∀ call ∈ st.inFlight, call.1.canonical ∈ nodes call.2

theorem step_started (h : st.Started) (op : Op) : (st.step lib config op).Started := by
  cases op with
  | content op => exact h
  | readEdges u =>
    unfold step
    dsimp only
    split
    · rename_i hn
      intro call hc
      rcases List.mem_append.mp hc with ho | he
      · exact h call ho
      · obtain rfl := List.mem_singleton.mp he
        exact hn
    · exact h
  | writeScores i =>
    unfold step
    dsimp only
    split
    · split
      · exact fun call hc => h call ((List.eraseIdx_sublist _ _).subset hc)
      · exact fun call hc => h call ((List.eraseIdx_sublist _ _).subset hc)
    · exact h

theorem centralEdges_iff {sc : String} {edge : Edge} :
    edge ∈ st.centralEdges sc ↔ edge ∈ st.tables.relations ∧ edge.centralTo sc = true := List.mem_filter

theorem step_scoresKept (h : st.ScoresKept) {op : Op} (hk : st.Undisturbed lib op) :
    (st.step lib config op).ScoresKept := by
  obtain ⟨he,hf⟩ := h
  cases op with
  | content op =>
    have ht : RevisionTells st (st.step lib config (.content op)) := revisionTells_step hk
    have hl : ∀ scope, st.tables.graphRevision scope ≤ (st.tables.step lib config op).graphRevision scope :=
      fun scope => (revision_step op scope).1
    refine ⟨fun row hr => (he row hr).trans (hl row.scope),fun row hr hv edge => ?_⟩
    have hv' : row.revision = (st.tables.step lib config op).graphRevision row.scope := hv
    have he' := he row hr
    have hl' := hl row.scope
    have ha : st.tables.graphRevision row.scope = (st.tables.step lib config op).graphRevision row.scope := by omega
    rw [hf row hr (by omega),centralEdges_iff,centralEdges_iff]
    refine and_congr_left (fun hc => ht row.scope ha edge ?_)
    simp [Edge.readBy,hc]
  | readEdges u =>
    unfold step
    dsimp only
    split <;> exact ⟨he,hf⟩
  | writeScores i =>
    unfold step
    dsimp only
    split
    · rename_i u edges hca
      split
      · exact ⟨he,hf⟩
      · rename_i hsc
        have hrd := hk u edges hca (by simpa using hsc)
        have hr : ∀ row ∈ scoresOf u.tenant (st.tables.graphRevision u.tenant) edges,
            row.scope = u.tenant ∧ row.revision = st.tables.graphRevision u.tenant ∧ row.edges = edges := by
          intro row hr
          obtain ⟨node,-,rfl⟩ := List.mem_map.mp hr
          exact ⟨rfl,rfl,rfl⟩
        constructor
        · intro row hm
          rcases mem_replaceScores hm with ho | hn
          · exact he row ho
          · obtain ⟨hs,hv,-⟩ := hr row hn
            rw [hs,hv]
        · intro row hm hv edge
          rcases mem_replaceScores hm with ho | hn
          · exact hf row ho hv edge
          · obtain ⟨hs,-,hd⟩ := hr row hn
            rw [hs,hd]
            exact hrd edge
    · exact ⟨he,hf⟩

theorem undisturbed_of_scoresFresh {i : ℕ} (hs : st.Started)
    (h : (st.step lib config (.writeScores i)).ScoresFresh) : st.Undisturbed lib (.writeScores i) := by
  intro u edges hc ho edge
  have hd : u.canonical ∈ nodes edges := hs (u, edges) (List.mem_of_getElem? hc)
  have hn : ((scoresOf u.tenant (st.tables.graphRevision u.tenant) edges).map (·.uri)).Nodup := by
    simp only [scoresOf,List.map_map]
    rw [show ((fun row : CentralityRow => row.uri) ∘ fun uri_1 =>
      (⟨u.tenant,st.tables.graphRevision u.tenant,uri_1,edges⟩ : CentralityRow)) = id from rfl,List.map_id]
    exact List.nodup_dedup _
  have ht : st.step lib config (.writeScores i) = { st with
      inFlight := st.inFlight.eraseIdx i
      cached := (scoresOf u.tenant (st.tables.graphRevision u.tenant) edges).foldl replaceScore st.cached } := by
    simp [step,hc,ho]
  rw [ht] at h
  have hr := @mem_replaceScores_self st.cached _ hn _ (List.mem_map_of_mem hd)
  exact h _ hr rfl edge

/-- In every run: a scope's revision tells the edges read for it, and the scores kept for it are never stale,
exactly if every step is undisturbed. -/
theorem run_revisionTells_iff (libraries : StoreLibraries) (config : SqliteTables.BatchWriteConfig) (ops : List Op) :
    ((∀ front back, front ++ back <+: ops → RevisionTells (run (step libraries config) empty front)
        (run (step libraries config) empty (front ++ back))) ∧
      ∀ front, front <+: ops → ScoresFresh (run (step libraries config) empty front)) ↔
    Meets (step libraries config) (Undisturbed libraries) empty ops := by
  have hst : empty.ScoresKept := ⟨by simp [empty], by simp [ScoresFresh, empty]⟩
  have hn : empty.Started := by simp [Started, empty]
  have ha : ∀ (st : GraphStore) (op : Op), st.Started → (st.step libraries config op).Started :=
    fun st op h => step_started h op
  have hk : ∀ (st : GraphStore) (op : Op), st.ScoresKept → st.Undisturbed libraries op →
      (st.step libraries config op).ScoresKept := fun st op h ho => step_scoresKept h ho
  constructor
  · rintro ⟨hl, hf⟩
    refine meets_iff_front.mpr (fun front op hp => ?_)
    have hr : run (step libraries config) empty (front ++ [op]) =
        (run (step libraries config) empty front).step libraries config op := run_append _ _ _ _
    cases op with
    | content op =>
      have ht := hl front [.content op] hp
      rw [hr] at ht
      exact (revisionTells_step_iff op).mp ht
    | readEdges uri => trivial
    | writeScores i =>
      have hs := hf (front ++ [.writeScores i]) hp
      rw [hr] at hs
      exact undisturbed_of_scoresFresh (run_preserves ha hn front) hs
  · intro h
    constructor
    · intro front back hp
      obtain ⟨rest, rfl⟩ := hp
      rw [run_append]
      exact revisionTells_run (meets_append.mp (meets_append.mp h).1).2
    · intro front hp
      obtain ⟨rest, rfl⟩ := hp
      exact (run_invariant hk hst (meets_append.mp h).1).2

def sampleLibraries : StoreLibraries := ⟨fun _ => none, fun _ => none, fun _ => 0, fun _ => none, id, 32766⟩

def sampleLink : List Op :=
  [.content (.addEdge ((ContextUri.ofTenant "a").join "x") ((ContextUri.ofTenant "b").join "y") .derivedFrom)]

/-- An edge from one tenant to another is read for both, and increments the revision of the first only. -/
theorem link_not_told : ¬ ((∀ front back, front ++ back <+: sampleLink →
    RevisionTells (run (step sampleLibraries .standard) empty front)
      (run (step sampleLibraries .standard) empty (front ++ back))) ∧
    ∀ front, front <+: sampleLink → ScoresFresh (run (step sampleLibraries .standard) empty front)) := by
  rintro ⟨h, -⟩
  have ht := h [] sampleLink (List.prefix_refl _) "b" (by decide +kernel) ⟨"uwu://a/x", "uwu://b/y", .derivedFrom⟩
    (by decide +kernel)
  have hm : (⟨"uwu://a/x", "uwu://b/y", .derivedFrom⟩ : Edge) ∈
      (run (step sampleLibraries .standard) empty sampleLink).tables.relations := by decide +kernel
  cases ht.mpr hm

end GraphStore

end UwuContextDb.Content
