import UwuContextDb.Content.MemoryPaging

/-! The pages of the SQLite store: following the cursors of any listing shows the whole of it. -/

namespace UwuContextDb.Content

open StateMachine
open Retrieve (PageRequest Page)
open Facade (DirEntry FindPattern)

/-- If all rows of a listing decode to `items`, every page is answered, and the pages show them. -/
def Pages {α : Type} (call : PageRequest → Except ContextError (Page α)) (all : Except ContextError (List α)) : Prop :=
  ∀ items, all = .ok items → ∃ load, (∀ page, call page = .ok (load page)) ∧ Partitioned load items

namespace SqliteContextStore

section Rows

variable {ρ α : Type} {decode : ρ → Except ContextError α} {rows : List ρ}

theorem mapM_of_forall₂ {items : List α} (h : List.Forall₂ (fun r a => decode r = .ok a) rows items) :
    rows.mapM decode = .ok items := by
  induction h with
  | nil => rfl
  | cons hd _ ih => rw [List.mapM_cons,hd,ih]; rfl

/-- Rows in the order of their keys, decoded to items with the same keys, are paged as the items are. -/
theorem pages_of_rows (rowKey : ρ → String) (key : α → String)
    (hs : rows.Pairwise (fun a b => rowKey a < rowKey b))
    (hk : ∀ row item, decode row = .ok item → key item = rowKey row)
    {call : PageRequest → Except ContextError (Page α)}
    (hc : ∀ page, call page = do
      let items ← (cut page (rows.filter (fun row => isAfter page (rowKey row)))).1.mapM decode
      return ⟨items,if (cut page (rows.filter (fun row => isAfter page (rowKey row)))).2
        then items.getLast?.map key else none⟩) :
    Pages call (rows.mapM decode) := by
  intro items hi
  have hf := mapM_eq_ok hi
  have hp : items.Pairwise (fun a b => key a < key b) := by
    clear hi hc
    induction hf with
    | nil => exact .nil
    | cons hd hr ih =>
      obtain ⟨ha,hs⟩ := List.pairwise_cons.mp hs
      refine List.pairwise_cons.mpr ⟨fun b hb => ?_,ih hs⟩
      obtain ⟨row,hm,hb⟩ := exists_of_mem_mapM (mapM_of_forall₂ hr) b hb
      rw [hk _ _ hd,hk _ _ hb]
      exact ha row hm
  refine ⟨fun page => keysetPage items page key,fun page => ?_,partitioned_keyset_iff.mpr hp⟩
  let limit := effectiveLimit page
  let left := rows.filter (fun row => isAfter page (rowKey row))
  have hl : List.Forall₂ (fun r a => decode r = .ok a) left (Keyset.remaining key page.after items) := by
    refine List.rel_filter (fun r a hd => ?_) hf
    show isAfter page (rowKey r) = true ↔ isAfter page (key a) = true
    rw [hk r a hd]
  have ht := mapM_of_forall₂ (List.forall₂_take limit hl)
  have hn : left.length = (Keyset.remaining key page.after items).length := hl.length_eq
  have hcut : cut page left = (left.take limit,decide (limit < left.length)) := by
    have hm : min limit (limit+1) = limit := by omega
    have hd : (limit < min (limit+1) left.length) = (limit < left.length) := propext ⟨fun h => by omega,fun h => by omega⟩
    show ((left.take (limit+1)).take limit,decide (limit < (left.take (limit+1)).length)) = _
    simp only [List.take_take,List.length_take,hm,hd]
  rw [hc]
  show (do
    let items ← (cut page left).1.mapM decode
    return ⟨items,if (cut page left).2 then items.getLast?.map key else none⟩) = Except.ok (keysetPage items page key)
  rw [hcut,keysetPage_eq]
  simp only [ht,hn,Keyset.page,decide_eq_true_eq,bind,Except.bind,pure,Except.pure]
  rfl

end Rows

theorem restOf_append (uriPrefix name : String) : restOf uriPrefix (uriPrefix++name) = name := by
  unfold restOf
  rw [String.toList_append,← String.length_toList,List.drop_left,String.ofList_toList]

theorem pairwise_childRows (uriPrefix : String) (selected : List EntryRow) :
    (childRows uriPrefix selected).Pairwise (fun a b => a.name < b.name) := by
  unfold childRows
  rw [List.pairwise_map]
  have hn := (List.perm_insertionSort (· ≤ ·)
    (selected.map (fun row => firstPart (restOf uriPrefix row.uri))).dedup).nodup_iff.mpr (List.nodup_dedup _)
  refine ((List.pairwise_insertionSort _ _).and hn).imp (fun {a b} h => ?_)
  exact lt_of_le_of_ne h.1 h.2

variable (store : SqliteContextStore)

/-- The rows `ls` pages through. -/
def lsRows (dir : ContextUri) : List ChildRow :=
  childRows (dirPrefix dir) (store.entries.filter (fun row => sqlLike row.uri (prefixPattern (dirPrefix dir))))

/-- The rows `find` pages through. -/
def findRows (pattern : FindPattern) : List EntryRow :=
  (store.entries.filter (fun row => sqlLike row.uri (prefixPattern ((pattern.scope.map (·.canonical)).getD "")))).filter
    (fun row => (pattern.contentType.map ContentType.asPathSegment).all (fun kind => row.contentType == kind) &&
      (pattern.nameGlob.map (fun glob => "%/" ++ globPattern glob)).all (fun name => sqlLike row.uri name))

theorem pages_ls (dir : ContextUri) : Pages (store.ls dir) ((store.lsRows dir).mapM (dirEntry (dirPrefix dir))) := by
  have hs : (store.lsRows dir).Pairwise (fun a b => a.name < b.name) := pairwise_childRows _ _
  refine pages_of_rows ChildRow.name (fun item => restOf (dirPrefix dir) item.uri.canonical) hs
    (fun row item h => ?_) (fun page => ?_)
  · obtain ⟨uri,hu,rfl⟩ := map_eq_ok.mp h
    show restOf _ uri.canonical = row.name
    rw [ContextUri.parse_canonical hu,restOf_append]
  · unfold ls lsRows
    rfl

theorem pages_find (pattern : FindPattern) :
    Pages (store.find pattern) ((store.findRows pattern).mapM (fun row => ContextUri.parse row.uri)) := by
  have hs : (store.findRows pattern).Pairwise (fun a b => a.uri < b.uri) := (store.ordered.filter _).filter _
  refine pages_of_rows EntryRow.uri ContextUri.canonical hs (fun row item h => ContextUri.parse_canonical h)
    (fun page => ?_)
  have hf : ∀ (l : List EntryRow) (p q : EntryRow → Bool), (l.filter p).filter q = l.filter (fun row => p row && q row) := by
    intro l p q
    rw [List.filter_filter]
    exact List.filter_congr (fun row _ => Bool.and_comm _ _)
  unfold findRows find
  rw [hf]

theorem pages_entryPage {rows : List EntryRow} (hs : rows.Pairwise (fun a b => a.uri < b.uri)) :
    Pages (fun page => entryPage page rows) (rows.mapM EntryRow.readEntry) :=
  pages_of_rows EntryRow.uri (·.uri.canonical) hs (fun _ _ h => EntryRow.canonical_readEntry h) (fun _ => rfl)

theorem pages_bind {α σ : Type} {x : Except ContextError σ} {call : σ → PageRequest → Except ContextError (Page α)}
    {all : σ → Except ContextError (List α)} (h : ∀ a, Pages (call a) (all a)) :
    Pages (fun page => x >>= fun a => call a page) (x >>= all) := by
  intro items hi
  obtain ⟨a,rfl,ha⟩ := bind_eq_ok.mp hi
  exact h a items ha

/-- Each enumeration of the SQLite store shows all it selects, whatever the page size. -/
theorem listings_paged (dir : ContextUri) (pattern : FindPattern) (uriPrefix : String) (contentType : ContentType) :
    Pages (store.ls dir) ((store.lsRows dir).mapM (dirEntry (dirPrefix dir))) ∧
      Pages (store.find pattern) ((store.findRows pattern).mapM (fun row => ContextUri.parse row.uri)) ∧
        Pages (store.scanByPrefix uriPrefix) (do
          let scope ← ContextUri.parse (ContextUri.trimEndMatches '/' uriPrefix)
          (store.selected scope).mapM EntryRow.readEntry) ∧
          Pages (store.scanByType uriPrefix contentType) (do
            let scope ← ContextUri.parse (ContextUri.trimEndMatches '/' uriPrefix)
            ((store.selected scope).filter (fun row => row.contentType == contentType.asPathSegment)).mapM
              EntryRow.readEntry) :=
  ⟨store.pages_ls dir,store.pages_find pattern,pages_bind (fun _ => pages_entryPage (store.ordered.filter _)),
    pages_bind (fun _ => pages_entryPage ((store.ordered.filter _).filter _))⟩

end SqliteContextStore

end UwuContextDb.Content
