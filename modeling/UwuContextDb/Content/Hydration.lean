import UwuContextDb.Content.ScopeIsolation

/-! What the hits of an index or a graph are filled with: the store is asked for each by a scan of one row. -/

namespace UwuContextDb.Content

open ContextUri (trimEndMatches parse scheme splitPath splitQuery)
open Retrieve
open StateMachine
open UriInner (splitPath_slashes splitQuery_append splitQuery_of_not_mem trimEnd_spec)
open List (append_assoc mem_cons_self mem_cons map_cons mem_map map_append map_map)

theorem parse_isOk_iff (s : String) : (∃ u, parse s = .ok u) ↔
    scheme.toList <+: s.toList ∧ splitPath (splitQuery (s.toList.drop scheme.length)).1 ≠ [] := by
  unfold parse
  rw [← List.isPrefixOf_iff_prefix]
  split
  · rename_i hs
    dsimp only
    split
    · rename_i he
      rw [List.isEmpty_iff.mp he]
      simp [splitQuery,splitPath]
    · split
      · rename_i hn
        simp [hn]
      · rename_i tenant path hp
        simp [hs,hp]
  · rename_i hs
    simp [hs]

theorem parse_trimEnd {s : String} {u : ContextUri} (h : parse s = .ok u) :
    ∃ found, parse (trimEndMatches '/' s) = .ok found := by
  obtain ⟨⟨rest,hr⟩,hp⟩ := (parse_isOk_iff s).mp ⟨u,h⟩
  obtain ⟨slashes,hs,hl⟩ := trimEnd_spec s
  have hn : '?' ∉ slashes := fun hm => absurd (hs '?' hm) (by decide)
  have hd : ∀ more, (scheme.toList++more).drop scheme.length = more := fun more => List.drop_left
  rw [← hr,hd] at hp
  rw [parse_isOk_iff]
  rcases @List.prefix_or_prefix_of_prefix _ scheme.toList _ _ ⟨rest,hr⟩ ⟨slashes,hl.symm⟩
    with hh | ho
  · obtain ⟨kept,hk⟩ := hh
    have ht : rest = kept ++ slashes := by
      rw [hl,← hk,append_assoc] at hr
      exact List.append_cancel_left hr
    refine ⟨⟨kept,hk⟩,?_⟩
    rw [← hk,hd]
    rw [ht] at hp
    by_cases hq : '?' ∈ kept
    · obtain ⟨before,after,rfl,hb⟩ := List.eq_append_cons_of_mem hq
      rw [append_assoc,List.cons_append,splitQuery_append hb] at hp
      rwa [splitQuery_append hb]
    · rw [splitQuery_of_not_mem (by simp [hq,hn]),splitPath_slashes _ hs] at hp
      rwa [splitQuery_of_not_mem hq]
  · -- only slashes would be left of the path
    have hu : ∃ more, slashes = more ++ rest := by
      obtain ⟨more,hmo⟩ := ho
      refine ⟨more,?_⟩
      rw [hl,← hmo,append_assoc] at hr
      exact (List.append_cancel_left hr).symm
    obtain ⟨more,rfl⟩ := hu
    have hsl : ∀ c ∈ rest, c = '/' := fun c hc => hs c (List.mem_append_right _ hc)
    have hno : splitPath rest = [] := splitPath_slashes [] hsl
    rw [splitQuery_of_not_mem (fun hm => hn (List.mem_append_right _ hm)),hno] at hp
    exact absurd rfl hp

variable {key : String}

section Scan

variable (store : SqliteContextStore) (uri : ContextUri)

def SqliteContextStore.asContent : ContentStore := ⟨store.scanByPrefix, store.scanByType⟩

def SqliteContextStore.entryAt (key : String) : Option ContextEntry :=
  (store.entries.find? (fun row => row.uri = key)).bind (fun row => row.readEntry.toOption)

def scannedEntry : Option ContextEntry :=
  (store.scanByPrefix uri.canonical (.new 1)).toOption.bind (fun page => page.items.getLast?)

def firstScanned : Option EntryRow := (store.entries.filter (fun row => scanned uri row.uri)).head?

variable {store uri}

theorem scan_one {found : ContextUri} (h : parse (trimEndMatches '/' uri.canonical) = .ok found) :
    scannedEntry store uri = (firstScanned store uri).bind (fun row => row.readEntry.toOption) := by
  have ha : ∀ rows : List EntryRow, rows.filter (fun row => isAfter (.new 1) row.uri) = rows := by
    intro rows
    simp [isAfter,PageRequest.new]
  unfold scannedEntry firstScanned SqliteContextStore.scanByPrefix
  rw [h]
  show (SqliteContextStore.entryPage (.new 1) (store.selected found)).toOption.bind _ = _
  rw [selected_eq h,SqliteContextStore.entryPage,ha]
  cases store.entries.filter (fun row => scanned uri row.uri) with
  | nil => rfl
  | cons row rows =>
    have hc : (cut (.new 1) (row::rows)).1 = [row] := by
      simp [cut,effectiveLimit,PageRequest.new,clamp,maxPageSize]
    simp only [hc,List.mapM_cons,List.mapM_nil,List.head?_cons,Option.bind_some]
    cases row.readEntry <;> rfl

theorem scan_unparsed (h : ∀ found, parse (trimEndMatches '/' uri.canonical) ≠ .ok found) :
    scannedEntry store uri = none := by
  unfold scannedEntry SqliteContextStore.scanByPrefix
  cases hp : parse (trimEndMatches '/' uri.canonical) with
  | error err => rfl
  | ok found => exact absurd hp (h found)

theorem scanned_self (uri : ContextUri) : scanned uri uri.canonical = true := by
  obtain ⟨slashes,hl,hs⟩ := trimEnd_spec uri.canonical
  unfold scanned
  rw [Bool.or_eq_true]
  cases slashes with
  | nil =>
    rw [List.append_nil] at hs
    exact .inl (beq_iff_eq.mpr (String.toList_inj.mp hs))
  | cons c slashes =>
    obtain rfl : c = '/' := hl c mem_cons_self
    refine .inr ((sqlLike_prefixPattern _ _).mpr ⟨(dirPrefix uri).toList,slashes,?_,List.forall₂_same.mpr ?_⟩)
    · rw [dirPrefix_toList,hs,append_assoc]
      rfl
    · intro c _
      simp [sameLetter]

variable {row : EntryRow} {entry : ContextEntry}

theorem find?_key {rows : List EntryRow} (ho : rows.Pairwise (fun row row' => row.uri < row'.uri))
    (hr : row ∈ rows) : rows.find? (fun other => other.uri = row.uri) = some row := by
  induction rows with
  | nil => cases hr
  | cons first rows ih =>
    rw [List.pairwise_cons] at ho
    rcases mem_cons.mp hr with rfl | he
    · simp
    · have hn : first.uri ≠ row.uri := (ho.1 row he).ne
      rw [List.find?_cons_of_neg (by simpa using hn)]
      exact ih ho.2 he

theorem entryAt_of_mem (hr : row ∈ store.entries) : store.entryAt row.uri = row.readEntry.toOption := by
  rw [SqliteContextStore.entryAt,find?_key store.ordered hr]
  rfl

theorem exists_of_entryAt (h : store.entryAt key = some entry) :
    ∃ row ∈ store.entries, row.uri = key ∧ row.readEntry = .ok entry := by
  obtain ⟨row,hf,hr⟩ := Option.bind_eq_some_iff.mp h
  exact ⟨row,List.mem_of_find?_eq_some hf,by simpa using List.find?_some hf,toOption_eq_some.mp hr⟩

theorem parse_of_readEntry (h : row.readEntry = .ok entry) : ∃ u, parse row.uri = .ok u := by
  unfold EntryRow.readEntry at h
  split at h
  · rename_i found hf
    obtain ⟨uri,hu,-⟩ := Option.bind_eq_some_iff.mp hf
    rw [row.named] at hu
    exact ⟨uri,toOption_eq_some.mp hu⟩
  · cases h

theorem firstScanned_iff : firstScanned store uri = some row ↔
    row ∈ store.entries ∧ scanned uri row.uri = true ∧
      ∀ other ∈ store.entries, scanned uri other.uri = true → row.uri ≤ other.uri := by
  have hm : ∀ other, other ∈ store.entries.filter (fun row => scanned uri row.uri) ↔
      other ∈ store.entries ∧ scanned uri other.uri = true := fun other => List.mem_filter
  have ho := store.ordered.filter (fun row => scanned uri row.uri)
  unfold firstScanned
  generalize store.entries.filter (fun row => scanned uri row.uri) = rows at hm ho
  cases rows with
  | nil =>
    refine iff_of_false (by simp) (fun h => ?_)
    cases (hm row).mpr ⟨h.1,h.2.1⟩
  | cons first rows =>
    rw [List.pairwise_cons] at ho
    have hf := (hm first).mp mem_cons_self
    rw [List.head?_cons,Option.some.injEq]
    constructor
    · rintro rfl
      refine ⟨hf.1,hf.2,fun other ht hs => ?_⟩
      rcases mem_cons.mp ((hm other).mpr ⟨ht,hs⟩) with rfl | hr
      · exact le_rfl
      · exact (ho.1 other hr).le
    · rintro ⟨hw,hs,hl⟩
      rcases mem_cons.mp ((hm row).mpr ⟨hw,hs⟩) with rfl | hr
      · rfl
      · exact absurd (hl first hf.1 hf.2) (not_le.mpr (ho.1 row hr))

variable (store uri) in
def AnswersItself : Prop :=
  ∀ row ∈ store.entries, scanned uri row.uri = true →
    (∀ other ∈ store.entries, scanned uri other.uri = true → row.uri ≤ other.uri) →
    (∃ found, ContextUri.parse (trimEndMatches '/' uri.canonical) = .ok found) →
    row.uri = uri.canonical ∨ row.readEntry.toOption = none ∧ store.entryAt uri.canonical = none

theorem scannedEntry_eq_iff : scannedEntry store uri = store.entryAt uri.canonical ↔ AnswersItself store uri := by
  by_cases hp : ∃ found, parse (trimEndMatches '/' uri.canonical) = .ok found
  · obtain ⟨found,hf⟩ := hp
    rw [scan_one hf]
    constructor
    · intro hq row ho hs hl _
      rw [firstScanned_iff.mpr ⟨ho,hs,hl⟩,Option.bind_some] at hq
      by_cases hk : row.uri = uri.canonical
      · exact .inl hk
      · refine .inr ?_
        cases hr : row.readEntry.toOption with
        | none => exact ⟨rfl,hq ▸ hr⟩
        | some entry =>
          rw [hr] at hq
          obtain ⟨own,-,hw,hR⟩ := exists_of_entryAt hq.symm
          have ha := EntryRow.canonical_readEntry (toOption_eq_some.mp hr)
          rw [EntryRow.canonical_readEntry hR,hw] at ha
          exact absurd ha.symm hk
    · intro han
      cases hi : firstScanned store uri with
      | none =>
        cases he : store.entryAt uri.canonical with
        | none => rfl
        | some entry =>
          obtain ⟨row,ho,hk,-⟩ := exists_of_entryAt he
          rw [firstScanned,List.head?_eq_none_iff,List.filter_eq_nil_iff] at hi
          exact absurd (hk ▸ scanned_self uri) (hi row ho)
      | some row =>
        obtain ⟨ho,hs,hl⟩ := firstScanned_iff.mp hi
        rw [Option.bind_some]
        rcases han row ho hs hl ⟨found,hf⟩ with hk | ⟨hr,hn⟩
        · rw [← hk,entryAt_of_mem ho]
        · rw [hr,hn]
  · have hn : store.entryAt uri.canonical = none := by
      cases he : store.entryAt uri.canonical with
      | none => rfl
      | some entry =>
        obtain ⟨row,-,hk,hr⟩ := exists_of_entryAt he
        obtain ⟨u,hu⟩ := parse_of_readEntry hr
        exact absurd (parse_trimEnd (hk ▸ hu)) hp
    rw [scan_unparsed (fun found hf => hp ⟨found,hf⟩),hn]
    exact iff_of_true rfl (fun _ _ _ _ hf => absurd hf hp)

end Scan

variable {seen : List ContextUri} {edges : List (ContextUri × ContextUri × GraphRelation)}
  {edge : ContextUri × ContextUri × GraphRelation}

section Hits

def filled (entry : Option ContextEntry) (placeholder : RetrievalHit) : RetrievalHit :=
  (entry.map (fun entry => hitFromEntry entry .l0 placeholder.relevance)).getD placeholder

def reachedBy (edge : ContextUri × ContextUri × GraphRelation) (hit : RetrievalHit) : RetrievalHit :=
  { hit with parentChain := hit.parentChain ++ [edge.1], relevance := max hit.relevance (3 / 5) }

variable (store : SqliteContextStore)

def ownVectorHit (h : IndexHit) : RetrievalHit := filled (store.entryAt h.uri.canonical) (sparseVectorHit h.uri h.score)

def ownGraphHit (edge : ContextUri × ContextUri × GraphRelation) : RetrievalHit :=
  reachedBy edge (filled (store.entryAt edge.2.1.canonical) (sparseGraphHit edge.2.1 edge.1 edge.2.2))

def newEdges : List ContextUri → List (ContextUri × ContextUri × GraphRelation) →
    List (ContextUri × ContextUri × GraphRelation)
  | _, [] => []
  | seen, edge::edges =>
    if edge.2.1 ∈ seen then newEdges seen edges else edge::newEdges (edge.2.1::seen) edges

variable {store} {ctx : ExecContext}

theorem hydrate_eq (hc : ctx.content = some store.asContent) (h : IndexHit) :
    hydrate ctx h = filled (scannedEntry store h.uri) (sparseVectorHit h.uri h.score) := by
  unfold hydrate hitAt filled scannedEntry
  rw [hc]
  simp only [SqliteContextStore.asContent]
  cases store.scanByPrefix h.uri.canonical (.new 1) with
  | error err => rfl
  | ok page =>
    cases hl : page.items.getLast? <;>
      simp [Except.map,Except.toOption,hl,sparseVectorHit,bareHit,hitFromEntry]

theorem graphHit_eq (hc : ctx.content = some store.asContent) (edge : ContextUri × ContextUri × GraphRelation) :
    graphHit ctx edge = reachedBy edge
    (filled (scannedEntry store edge.2.1) (sparseGraphHit edge.2.1 edge.1 edge.2.2)) := by
  unfold graphHit loadGraphHit hitAt filled scannedEntry reachedBy
  rw [hc]
  simp only [SqliteContextStore.asContent]
  cases store.scanByPrefix edge.2.1.canonical (.new 1) with
  | error err => rfl
  | ok page =>
    cases hl : page.items.getLast? <;>
      simp [Except.map,Except.toOption,hl,sparseGraphHit,bareHit,hitFromEntry]

theorem graphHits_eq (seen : List ContextUri) (edges : List (ContextUri × ContextUri × GraphRelation)) :
    graphHits ctx seen edges = (newEdges seen edges).map (graphHit ctx) := by
  induction edges generalizing seen with
  | nil => rfl
  | cons edge edges ih =>
    unfold graphHits newEdges
    split
    · exact ih seen
    · rw [ih,map_cons]

theorem mem_newEdges (h : edge ∈ newEdges seen edges) : edge ∈ edges ∧ edge.2.1 ∉ seen := by
  induction edges generalizing seen with
  | nil => cases h
  | cons first edges ih =>
    unfold newEdges at h
    split at h
    · exact ⟨List.mem_cons_of_mem _ (ih h).1,(ih h).2⟩
    · rename_i hn
      rcases mem_cons.mp h with rfl | h
      · exact ⟨mem_cons_self,hn⟩
      · exact ⟨List.mem_cons_of_mem _ (ih h).1,fun hm => (ih h).2 (List.mem_cons_of_mem _ hm)⟩

theorem reached_newEdges (h : edge ∈ edges) : edge.2.1 ∈ seen ∨ edge.2.1 ∈ (newEdges seen edges).map (·.2.1) := by
  induction edges generalizing seen with
  | nil => cases h
  | cons first edges ih =>
    unfold newEdges
    split
    · rename_i hs
      rcases mem_cons.mp h with rfl | h
      · exact .inl hs
      · exact ih h
    · rw [map_cons,mem_cons]
      rcases mem_cons.mp h with rfl | h
      · exact .inr (.inl rfl)
      · rcases @ih (first.2.1::seen) h with hs | hn
        · rcases mem_cons.mp hs with he | hs
          · exact .inr (.inl he)
          · exact .inl hs
        · exact .inr (.inr hn)

theorem nodup_newEdges (seen : List ContextUri) (edges : List (ContextUri × ContextUri × GraphRelation)) :
    ((newEdges seen edges).map (·.2.1)).Nodup := by
  induction edges generalizing seen with
  | nil => exact .nil
  | cons first edges ih =>
    unfold newEdges
    split
    · exact ih seen
    · rw [map_cons,List.nodup_cons]
      refine ⟨fun hm => ?_,ih _⟩
      obtain ⟨edge,he,hq⟩ := mem_map.mp hm
      exact (mem_newEdges he).2 (hq ▸ mem_cons_self)

theorem entryAt_of_scanned {uri : ContextUri} {entry : ContextEntry} (h : scannedEntry store uri = some entry) :
    store.entryAt entry.uri.canonical = some entry := by
  by_cases hp : ∃ found, parse (trimEndMatches '/' uri.canonical) = .ok found
  · obtain ⟨found,hf⟩ := hp
    rw [scan_one hf] at h
    obtain ⟨row,hi,hr⟩ := Option.bind_eq_some_iff.mp h
    rw [EntryRow.canonical_readEntry (toOption_eq_some.mp hr),entryAt_of_mem (firstScanned_iff.mp hi).1,hr]
  · rw [scan_unparsed (fun found hf => hp ⟨found,hf⟩)] at h
    cases h

theorem canonical_of_entryAt {entry : ContextEntry} (h : store.entryAt key = some entry) :
    entry.uri.canonical = key := by
  obtain ⟨row,-,hk,hr⟩ := exists_of_entryAt h
  rw [EntryRow.canonical_readEntry hr,hk]

theorem filled_canonical (uri : ContextUri) (placeholder : RetrievalHit) (h : placeholder.uri = uri) :
    (filled (store.entryAt uri.canonical) placeholder).uri.canonical = uri.canonical := by
  cases he : store.entryAt uri.canonical with
  | none => simp [filled,h]
  | some entry => simpa [filled,hitFromEntry] using canonical_of_entryAt he

theorem filled_inj {uri : ContextUri} {placeholder : RetrievalHit} (hb : placeholder.createdAt = none)
    (hu : (filled (scannedEntry store uri) placeholder).uri = (filled (store.entryAt uri.canonical) placeholder).uri)
    (hc : (filled (scannedEntry store uri) placeholder).createdAt =
      (filled (store.entryAt uri.canonical) placeholder).createdAt) :
    scannedEntry store uri = store.entryAt uri.canonical := by
  cases hs : scannedEntry store uri with
  | none =>
    cases he : store.entryAt uri.canonical with
    | none => rfl
    | some own => simp [filled,hs,he,hitFromEntry,hb] at hc
  | some entry =>
    cases he : store.entryAt uri.canonical with
    | none => simp [filled,hs,he,hitFromEntry,hb] at hc
    | some own =>
      simp only [filled,hs,he,hitFromEntry,Option.map_some,Option.getD_some] at hu
      have ht := entryAt_of_scanned hs
      rw [hu,canonical_of_entryAt he,he] at ht
      rw [Option.some.inj ht]

theorem hydrate_own_iff (hc : ctx.content = some store.asContent) (h : IndexHit) :
    hydrate ctx h = ownVectorHit store h ↔ AnswersItself store h.uri := by
  rw [hydrate_eq hc,ownVectorHit,← scannedEntry_eq_iff]
  constructor
  · intro he
    exact filled_inj rfl (congrArg RetrievalHit.uri he) (congrArg RetrievalHit.createdAt he)
  · intro he
    rw [he]

theorem graphHit_own_iff (ht : ctx.content = some store.asContent) (edge : ContextUri × ContextUri × GraphRelation) :
    graphHit ctx edge = ownGraphHit store edge ↔ AnswersItself store edge.2.1 := by
  rw [graphHit_eq ht,ownGraphHit,← scannedEntry_eq_iff]
  constructor
  · intro he
    have hu := congrArg RetrievalHit.uri he
    have hc := congrArg RetrievalHit.createdAt he
    simp only [reachedBy] at hu hc
    exact filled_inj (by simp only [sparseGraphHit,bareHit]) hu hc
  · intro he
    rw [he]

end Hits

section Hydrated

structure Found where
  store : SqliteContextStore
  fs : FsOps
  now : DateTime
  hits : List IndexHit
  edges : List (ContextUri × ContextUri × GraphRelation)

def Found.context (found : Found) : ExecContext :=
  ⟨found.fs, some found.store.asContent, some ⟨fun _ _ _ _ => .ok found.hits⟩,
    some ⟨fun _ _ _ => .ok found.edges⟩, found.now⟩

variable (found : Found) (seeds : List RetrievalHit)

/-- A search returns each index hit that is valid with what is stored at its own URI, a traversal the same for each URI
that an edge leads to, and no URI twice. -/
structure HydratesOwn : Prop where
  searches : ∀ collection embedding filter limit, executeSearch found.context collection embedding filter limit =
    .ok ((found.hits.map (ownVectorHit found.store)).filter
      (fun hit => !filter.onlyValid || isCurrentlyValid found.now hit))
  traverses : ∀ kinds maxHops, traverseFrom found.context kinds maxHops seeds =
    seeds ++ (newEdges (seeds.map RetrievalHit.uri) found.edges).map (ownGraphHit found.store)
  reaches : ∀ kinds maxHops, ∀ edge ∈ found.edges,
    edge.2.1.canonical ∈ (traverseFrom found.context kinds maxHops seeds).map (·.uri.canonical)
  once : ∀ kinds maxHops, ((traverseFrom found.context kinds maxHops seeds).map (·.uri.canonical)).Nodup

/-- The scan for each hit and for each URI that an edge newly leads to is answered by that URI; the seeds are of
different URIs; and what the edges lead to differs in text where it differs. -/
structure ScansItself : Prop where
  hits : ∀ h ∈ found.hits, AnswersItself found.store h.uri
  edges : ∀ edge ∈ found.edges, edge.2.1 ∉ seeds.map RetrievalHit.uri → AnswersItself found.store edge.2.1
  distinct : (seeds.map (·.uri.canonical)).Nodup
  spelled : ∀ edge ∈ found.edges, ∀ uri ∈ seeds.map RetrievalHit.uri ++ found.edges.map (·.2.1),
    uri.canonical = edge.2.1.canonical → uri = edge.2.1

variable {found seeds}

theorem ownGraphHit_canonical (store : SqliteContextStore) (edge : ContextUri × ContextUri × GraphRelation) :
    (ownGraphHit store edge).uri.canonical = edge.2.1.canonical := by
  have hf := @filled_canonical store edge.2.1 (sparseGraphHit edge.2.1 edge.1 edge.2.2)
    (by simp only [sparseGraphHit,bareHit])
  simpa only [ownGraphHit,reachedBy] using hf

theorem traverse_eq (ks : List GraphRelation) (maxHops : ℕ) : traverseFrom found.context ks maxHops seeds =
    seeds ++ (newEdges (seeds.map RetrievalHit.uri) found.edges).map (graphHit found.context) := by
  show seeds ++ graphHits found.context _ found.edges = _
  rw [graphHits_eq]

theorem texts_eq (store : SqliteContextStore) (edges : List (ContextUri × ContextUri × GraphRelation)) :
    (seeds++edges.map (ownGraphHit store)).map (·.uri.canonical) =
      (seeds.map RetrievalHit.uri++edges.map (·.2.1)).map (·.canonical) := by
  rw [map_append,map_append,map_map,map_map,map_map]
  exact congrArg (_ ++ ·) (List.map_congr_left (fun edge _ => ownGraphHit_canonical store edge))

theorem reaches_text (he : edge ∈ found.edges) :
    edge.2.1 ∈ seeds.map RetrievalHit.uri ++ (newEdges (seeds.map RetrievalHit.uri) found.edges).map (·.2.1) := by
  rcases reached_newEdges he with hs | hn
  · exact List.mem_append_left _ hs
  · exact List.mem_append_right _ hn

theorem HydratesOwn.scans (h : HydratesOwn found seeds) : ScansItself found seeds := by
  have ht := (@traverse_eq found seeds [] 0).symm.trans (h.traverses [] 0)
  have hs := List.append_cancel_left ht
  rw [List.map_inj_left] at hs
  have ho := h.once [] 0
  rw [h.traverses,texts_eq] at ho
  have hi : ∀ uri ∈ seeds.map RetrievalHit.uri ++ found.edges.map (·.2.1),
      uri ∈ seeds.map RetrievalHit.uri ++ (newEdges (seeds.map RetrievalHit.uri) found.edges).map (·.2.1) := by
    intro uri hu
    rcases List.mem_append.mp hu with hse | he
    · exact List.mem_append_left _ hse
    · obtain ⟨edge,hm,rfl⟩ := mem_map.mp he
      exact reaches_text hm
  refine ⟨fun hit hh => ?_,fun edge he hn => ?_,?_,fun edge he uri hu hx => ?_⟩
  · have ha := h.searches "" [] .empty 0
    have hr : found.hits.map (hydrate found.context) = found.hits.map (ownVectorHit found.store) := by
      have hk := Except.ok.inj ha
      simpa [hydrateAll,VectorFilter.empty] using hk
    exact (hydrate_own_iff rfl hit).mp (List.map_inj_left.mp hr hit hh)
  · rcases @reached_newEdges (seeds.map RetrievalHit.uri) _ _ he with hsn | hre
    · exact absurd hsn hn
    · obtain ⟨first,hf,hq⟩ := mem_map.mp hre
      rw [← hq]
      exact (graphHit_own_iff rfl first).mp (hs first hf)
  · rw [map_append,map_map] at ho
    exact (List.nodup_append.mp ho).1
  · exact List.inj_on_of_nodup_map ho (hi uri hu)
      (reaches_text he) hx

theorem ScansItself.hydrates (h : ScansItself found seeds) : HydratesOwn found seeds := by
  have ht : ∀ ks maxHops, traverseFrom found.context ks maxHops seeds =
      seeds ++ (newEdges (seeds.map RetrievalHit.uri) found.edges).map (ownGraphHit found.store) := by
    intro ks maxHops
    rw [traverse_eq]
    refine congrArg (seeds ++ ·) (List.map_congr_left (fun edge he => ?_))
    exact (graphHit_own_iff rfl edge).mpr (h.edges edge (mem_newEdges he).1 (mem_newEdges he).2)
  have hn : ((seeds.map RetrievalHit.uri++(newEdges (seeds.map RetrievalHit.uri) found.edges).map (·.2.1)).map
      (·.canonical)).Nodup := by
    rw [map_append,map_map,List.nodup_append]
    refine ⟨h.distinct,?_,?_⟩
    · apply (nodup_newEdges _ _).map_on
      intro uri hu other ho hx
      obtain ⟨edge,he,rfl⟩ := mem_map.mp ho
      obtain ⟨edge',he',rfl⟩ := mem_map.mp hu
      exact h.spelled edge (mem_newEdges he).1 _
        (List.mem_append_right _ (mem_map.mpr ⟨edge',(mem_newEdges he').1,rfl⟩)) hx
    · intro text hl other hw hx
      obtain ⟨seed,hs,rfl⟩ := mem_map.mp hl
      obtain ⟨uri,hu,rfl⟩ := mem_map.mp hw
      obtain ⟨edge,he,rfl⟩ := mem_map.mp hu
      have hm : seed.uri ∈ seeds.map RetrievalHit.uri := mem_map.mpr ⟨seed,hs,rfl⟩
      have hq := h.spelled edge (mem_newEdges he).1 _ (List.mem_append_left _ hm) hx
      exact (mem_newEdges he).2 (hq ▸ hm)
  refine ⟨fun coll emb filter limit => ?_,ht,fun ks maxHops edge he => ?_,
    fun ks maxHops => ?_⟩
  · have hr : found.hits.map (hydrate found.context) = found.hits.map (ownVectorHit found.store) :=
      List.map_congr_left (fun hit hh => (hydrate_own_iff rfl hit).mpr (h.hits hit hh))
    show Except.ok (hydrateAll found.context filter found.hits) = _
    rw [hydrateAll,hr]
    rfl
  · rw [ht,texts_eq]
    exact mem_map.mpr ⟨edge.2.1,reaches_text he,rfl⟩
  · rw [ht,texts_eq]
    exact hn

theorem hits_hydrated_iff (found : Found) (seeds : List RetrievalHit) : HydratesOwn found seeds ↔ ScansItself found seeds :=
  ⟨HydratesOwn.scans, ScansItself.hydrates⟩

/-- The entry below a URI where nothing is stored is what a search returns for it. -/
theorem descendant_answers :
    let json : Json := .obj [("uri", .str "uwu://t/a/x"), ("tenant", .ofNat 0),
      ("payload", (ContentPayload.text "below" "" "").toValue), ("media_type", .str "Text"),
      ("metadata", .obj [("tags", .arr [])]), ("mvcc_version", .ofNat 1), ("created_at", .ofNat 0),
      ("updated_at", .ofNat 0)]
    let row : EntryRow := ⟨"uwu://t/a/x", "below", none, "fact", json, rfl⟩
    let store : SqliteContextStore := ⟨[row], List.pairwise_singleton _ _⟩
    let asked : ContextUri := ⟨"t", ["t", "a"], none, "uwu://t/a"⟩
    let fs : FsOps := ⟨fun _ _ => .ok ⟨[], none⟩, fun uri _ => .error (.notFound uri.canonical)⟩
    ¬ HydratesOwn ⟨store, fs, 0, [⟨asked, 1⟩], []⟩ [] := by
  intro json row store asked fs h
  have hs : scanned asked row.uri = true := by decide +kernel
  have hl : ∀ other ∈ store.entries, scanned asked other.uri = true → row.uri ≤ other.uri := by
    intro other ho _
    rw [List.mem_singleton.mp ho]
  have hp : ∃ found, parse (trimEndMatches '/' asked.canonical) = .ok found :=
    @parse_trimEnd "uwu://t/a" asked (by rfl)
  have hk : row.uri ≠ asked.canonical := by decide
  have hr : row.readEntry.toOption ≠ none := by decide +kernel
  rcases h.scans.hits ⟨asked, 1⟩ mem_cons_self row mem_cons_self hs hl hp with he | ⟨hn, -⟩
  · exact hk he
  · exact hr hn

end Hydrated

end UwuContextDb.Content
