import Mathlib.Data.List.DropRight
import Mathlib.Data.List.ReduceOption
import UwuContextDb.Content.Browse
import UwuContextDb.Core.UriRoundTrip

/-! Which scopes an enumeration of the SQLite store is confined to, for a given set of addresses in use. -/

namespace UwuContextDb.Content

open ContextUri (trimEndMatches)
open Retrieve (PageRequest Page)
open Facade (DirEntry FindPattern GrepHit TreeNode)
open StateMachine
open SqliteContextStore (buildTree selected entryPage)

section Scope

def Beneath (scope : ContextUri) (uri : String) : Prop :=
  uri = trimEndMatches '/' scope.canonical ∨ (dirPrefix scope).toList <+: uri.toList

instance (scope : ContextUri) (uri : String) : Decidable (Beneath scope uri) := inferInstanceAs (Decidable (_ ∨ _))

def SqliteContextStore.within (scope : ContextUri) (store : SqliteContextStore) : List EntryRow :=
  store.entries.filter (fun row => decide (Beneath scope row.uri))

inductive Operation | ls | tree | find | grep | scanByPrefix | scanByType deriving DecidableEq

inductive Request
  | ls (page : PageRequest)
  | tree (depth : ℕ) (page : PageRequest)
  | find (nameGlob : Option String) (contentType : Option ContentType) (maxDepth : Option ℕ) (page : PageRequest)
  | grep (pattern : String)
  | scanByPrefix (page : PageRequest)
  | scanByType (contentType : ContentType) (page : PageRequest)

def Request.operation : Request → Operation
  | .ls _ => .ls
  | .tree _ _ => .tree
  | .find _ _ _ _ => .find
  | .grep _ => .grep
  | .scanByPrefix _ => .scanByPrefix
  | .scanByType _ _ => .scanByType

inductive Listing
  | dirEntries (found : Page DirEntry)
  | nodes (found : Page TreeNode)
  | uris (found : Page ContextUri)
  | grepHits (found : List GrepHit)
  | entries (found : Page ContextEntry)

mutual
def nodeUris : TreeNode → List ContextUri
  | .node uri _ children => uri::nodesUris children

def nodesUris : List TreeNode → List ContextUri
  | [] => []
  | first::nodes => nodeUris first ++ nodesUris nodes
end

def Listing.told : Listing → List ContextUri
  | .dirEntries found => found.items.map (·.uri)
  | .nodes found => nodesUris found.items
  | .uris found => found.items
  | .grepHits found => found.map (·.uri)
  | .entries found => found.items.map (·.uri)

variable (lower : String → String)

def SqliteContextStore.answer (store : SqliteContextStore) (scope : ContextUri) :
    Request → Except ContextError Listing
  | .ls page => (store.ls scope page).map .dirEntries
  | .tree depth page => .ok (.nodes (store.tree scope depth page))
  | .find nameGlob contentType maxDepth page =>
    (store.find ⟨some scope, nameGlob, contentType, maxDepth⟩ page).map .uris
  | .grep pattern => (store.grep lower pattern scope).map .grepHits
  | .scanByPrefix page => (store.scanByPrefix scope.canonical page).map .entries
  | .scanByType contentType page => (store.scanByType scope.canonical contentType page).map .entries

structure Addresses where
  mem : String → Prop
  append_mem : ∀ uri seg, mem uri → mem (uri ++ "/" ++ seg)

def Addresses.Holds (addresses : Addresses) (store : SqliteContextStore) : Prop :=
  ∀ row ∈ store.entries, addresses.mem row.uri

/-- The operation is confined to the scope: in every store over these addresses it returns nothing outside the scope,
and two stores with the same rows in the scope give the same answer. -/
def Confined (addresses : Addresses) (scope : ContextUri) (operation : Operation) : Prop :=
  ∀ store, addresses.Holds store → ∀ request : Request, request.operation = operation →
    (∀ listing, store.answer lower scope request = .ok listing → ∀ u ∈ listing.told, Beneath scope u.canonical) ∧
    ∀ store', addresses.Holds store' → store.within scope = store'.within scope →
      store.answer lower scope request = store'.answer lower scope request

/-- The addresses that the operation takes for addresses in the scope: `find` and `grep` look for the text of the scope
without a separator after it, and no operation looks at the case of a letter. -/
def Taken (scope : ContextUri) (uri : String) : Operation → Prop
  | .find | .grep => BeginsLike scope.canonical uri
  | _ => BeginsLike (dirPrefix scope) uri

end Scope

section Selected

variable {sc : ContextUri}

theorem dirPrefix_toList : (dirPrefix sc).toList = (trimEndMatches '/' sc.canonical).toList ++ ['/'] := by
  rw [dirPrefix,String.toList_append]
  rfl

theorem beneath_append {pre rest : String} (h : (dirPrefix sc).toList <+: pre.toList) : Beneath sc (pre++rest) := by
  refine Or.inr (h.trans ?_)
  rw [String.toList_append]
  exact List.prefix_append _ _

theorem filter_within {store : SqliteContextStore} {p : String → Bool}
    (hp : ∀ row ∈ store.entries, p row.uri = true → Beneath sc row.uri) :
    store.entries.filter (fun row => p row.uri) = (store.within sc).filter (fun row => p row.uri) := by
  rw [SqliteContextStore.within,List.filter_filter]
  refine List.filter_congr (fun row hr => ?_)
  cases hpr : p row.uri with
  | false => rfl
  | true => simp [hp row hr hpr]

theorem filter_eq_of_within {store store' : SqliteContextStore} {p : String → Bool}
    (hp : ∀ row ∈ store.entries, p row.uri = true → Beneath sc row.uri)
    (hp' : ∀ row ∈ store'.entries, p row.uri = true → Beneath sc row.uri)
    (h : store.within sc = store'.within sc) :
    store.entries.filter (fun row => p row.uri) = store'.entries.filter (fun row => p row.uri) := by
  rw [filter_within hp,filter_within hp',h]

theorem mem_cut {α : Type} {page : PageRequest} {rows : List α} {row : α} (h : row ∈ (cut page rows).1) : row ∈ rows :=
  List.mem_of_mem_take (List.mem_of_mem_take h)

end Selected

section Sound

variable {lower : String → String} {store store' : SqliteContextStore} {sc : ContextUri}

def Selects (scope : ContextUri) (store : SqliteContextStore) (uriPrefix : String) : Prop :=
  ∀ row ∈ store.entries, BeginsLike uriPrefix row.uri → Beneath scope row.uri

variable {pre : String} {page : PageRequest} {found : Page ContextEntry}

theorem Selects.like (h : Selects sc store pre) :
    ∀ row ∈ store.entries, sqlLike row.uri (prefixPattern pre) = true → Beneath sc row.uri :=
  fun row hr hl => h row hr ((sqlLike_prefixPattern _ _).mp hl)

theorem like_congr {pre : String} (h : Selects sc store pre) (h' : Selects sc store' pre)
    (hw : store.within sc = store'.within sc) :
    store.entries.filter (fun row => sqlLike row.uri (prefixPattern pre)) =
      store'.entries.filter (fun row => sqlLike row.uri (prefixPattern pre)) :=
  filter_eq_of_within (p := fun uri => sqlLike uri (prefixPattern pre)) h.like h'.like hw

theorem beneath_of_like (h : Selects sc store pre) {row : EntryRow}
    (hr : row ∈ store.entries.filter (fun row => sqlLike row.uri (prefixPattern pre))) :
    Beneath sc row.uri := by
  obtain ⟨hm,hl⟩ := List.mem_filter.mp hr
  exact h.like row hm hl

theorem ls_beneath {found : Page DirEntry} (h : store.ls sc page = .ok found) :
    ∀ item ∈ found.items, Beneath sc item.uri.canonical := by
  obtain ⟨items,hi,h⟩ := bind_eq_ok.mp h
  cases h
  intro item ht
  obtain ⟨child,-,hc⟩ := exists_of_mem_mapM hi item ht
  obtain ⟨uri,hu,rfl⟩ := map_eq_ok.mp hc
  rw [ContextUri.parse_canonical hu]
  exact beneath_append (List.prefix_refl _)

theorem buildTree_beneath (uris : List String) (depth : ℕ) (h : (dirPrefix sc).toList <+: pre.toList) :
    ∀ u ∈ nodesUris (buildTree uris depth pre), Beneath sc u.canonical := by
  induction depth generalizing pre with
  | zero => simp [buildTree,nodesUris]
  | succ depth ih =>
    have hn : ∀ nodes : List TreeNode, (∀ node ∈ nodes, ∀ u ∈ nodeUris node, Beneath sc u.canonical) →
        ∀ u ∈ nodesUris nodes, Beneath sc u.canonical := by
      intro nodes
      induction nodes with
      | nil => simp [nodesUris]
      | cons first nodes ihnodes =>
        intro ha u hu
        rw [List.forall_mem_cons] at ha
        rcases List.mem_append.mp hu with hu | hu
        · exact ha.1 u hu
        · exact ihnodes ha.2 u hu
    refine hn _ (fun node hd u hu => ?_)
    obtain ⟨name,-,hm⟩ := List.mem_filterMap.mp hd
    obtain ⟨uri,hr,rfl⟩ := Option.map_eq_some_iff.mp hm
    have hc : uri.canonical = pre ++ name := by
      cases hp : ContextUri.parse (pre++name) with
      | error err => simp [hp,Except.toOption] at hr
      | ok v =>
        have hv : v = uri := by simpa [hp,Except.toOption] using hr
        rw [← hv,ContextUri.parse_canonical hp]
    rcases List.mem_cons.mp hu with rfl | hu
    · rw [hc]
      exact beneath_append h
    · split at hu
      · refine ih ?_ u hu
        refine h.trans ?_
        rw [String.toList_append,String.toList_append,List.append_assoc]
        exact List.prefix_append _ _
      · simp [nodesUris] at hu

theorem beneath_self (sc : ContextUri) : Beneath sc sc.canonical := by
  obtain ⟨slashes,ha,hs⟩ := UriInner.trimEnd_spec sc.canonical
  cases slashes with
  | nil =>
    left
    rw [← String.toList_inj,hs,List.append_nil]
  | cons c slashes =>
    right
    obtain rfl : c = '/' := ha c (by simp)
    rw [dirPrefix_toList,hs]
    exact ⟨slashes,by simp⟩

theorem tree_beneath (depth : ℕ) (page : PageRequest) :
    ∀ u ∈ nodesUris (store.tree sc depth page).items, Beneath sc u.canonical := by
  intro u hu
  rcases List.mem_append.mp hu with hu | hu
  · rcases List.mem_cons.mp hu with rfl | hu
    · exact beneath_self u
    · exact buildTree_beneath _ depth (List.prefix_refl _) u hu
  · simp [nodesUris] at hu

theorem find_beneath (h : Selects sc store sc.canonical) {nameGlob : Option String}
    {contentType : Option ContentType} {maxDepth : Option ℕ} {found : Page ContextUri}
    (hf : store.find ⟨some sc,nameGlob,contentType,maxDepth⟩ page = .ok found) :
    ∀ u ∈ found.items, Beneath sc u.canonical := by
  obtain ⟨items,hi,hf⟩ := bind_eq_ok.mp hf
  cases hf
  intro u hu
  obtain ⟨row,hr,hp⟩ := exists_of_mem_mapM hi u hu
  rw [ContextUri.parse_canonical hp]
  exact beneath_of_like h (List.mem_of_mem_filter (mem_cut hr))

theorem grep_beneath (h : Selects sc store sc.canonical) {pattern : String} {hits : List GrepHit}
    (hh : store.grep lower pattern sc = .ok hits) : ∀ hit ∈ hits, Beneath sc hit.uri.canonical := by
  obtain ⟨found,hf,hh⟩ := bind_eq_ok.mp hh
  cases hh
  intro hit hi
  obtain ⟨row,hr,hm⟩ := exists_of_mem_mapM hf (some hit) (List.reduceOption_mem_iff.mp hi)
  obtain ⟨uri,hu,hm⟩ := map_eq_ok.mp hm
  obtain ⟨line,-,rfl⟩ := Option.map_eq_some_iff.mp hm
  rw [ContextUri.parse_canonical hu]
  exact beneath_of_like h hr

theorem trimEndMatches_idem (c : Char) (s : String) : trimEndMatches c (trimEndMatches c s) = trimEndMatches c s := by
  unfold trimEndMatches
  rw [String.toList_ofList,List.reverse_reverse,List.dropWhile_idempotent]

def scanned (scope : ContextUri) (uri : String) : Bool :=
  uri == trimEndMatches '/' scope.canonical || sqlLike uri (prefixPattern (dirPrefix scope))

theorem selected_eq {found : ContextUri} (h : ContextUri.parse (trimEndMatches '/' sc.canonical) = .ok found) :
    store.selected found = store.entries.filter (fun row => scanned sc row.uri) := by
  have hd : dirPrefix found = dirPrefix sc := by
    unfold dirPrefix
    rw [ContextUri.parse_canonical h,trimEndMatches_idem]
  unfold selected scanned
  rw [hd,ContextUri.parse_canonical h]

theorem beneath_of_scanned (h : Selects sc store (dirPrefix sc)) :
    ∀ row ∈ store.entries, scanned sc row.uri = true → Beneath sc row.uri := by
  intro row hr hs
  rcases Bool.or_eq_true _ _ ▸ hs with he | hl
  · exact Or.inl (by simpa using he)
  · exact h.like row hr hl

theorem entryPage_uris {rows : List EntryRow} (h : entryPage page rows = .ok found) :
    ∀ e ∈ found.items, ∃ row ∈ rows, e.uri.canonical = row.uri := by
  obtain ⟨items,hi,h⟩ := bind_eq_ok.mp h
  cases h
  intro e he
  obtain ⟨row,hr,ha⟩ := exists_of_mem_mapM hi e he
  exact ⟨row,List.mem_of_mem_filter (mem_cut hr),EntryRow.canonical_readEntry ha⟩

theorem scanByPrefix_beneath (h : Selects sc store (dirPrefix sc))
    (hf : store.scanByPrefix sc.canonical page = .ok found) :
    ∀ e ∈ found.items, Beneath sc e.uri.canonical := by
  obtain ⟨parsed,hp,hf⟩ := bind_eq_ok.mp hf
  rw [selected_eq hp] at hf
  intro e he
  obtain ⟨row,hr,hu⟩ := entryPage_uris hf e he
  obtain ⟨hm,hs⟩ := List.mem_filter.mp hr
  rw [hu]
  exact beneath_of_scanned h row hm hs

theorem scanByType_beneath (h : Selects sc store (dirPrefix sc)) {contentType : ContentType}
    (hf : store.scanByType sc.canonical contentType page = .ok found) :
    ∀ e ∈ found.items, Beneath sc e.uri.canonical := by
  obtain ⟨parsed,hp,hf⟩ := bind_eq_ok.mp hf
  rw [selected_eq hp] at hf
  intro e he
  obtain ⟨row,hr,hu⟩ := entryPage_uris hf e he
  obtain ⟨hm,hs⟩ := List.mem_filter.mp (List.mem_of_mem_filter hr)
  rw [hu]
  exact beneath_of_scanned h row hm hs

theorem selected_congr (h : Selects sc store (dirPrefix sc)) (h' : Selects sc store' (dirPrefix sc))
    (hw : store.within sc = store'.within sc) {found : ContextUri}
    (hp : ContextUri.parse (trimEndMatches '/' sc.canonical) = .ok found) :
    store.selected found = store'.selected found := by
  rw [selected_eq hp,selected_eq hp]
  exact filter_eq_of_within (p := scanned sc) (beneath_of_scanned h) (beneath_of_scanned h') hw

def lookedFor (scope : ContextUri) : Operation → String
  | .find | .grep => scope.canonical
  | _ => dirPrefix scope

theorem taken_iff (operation : Operation) (uri : String) :
    Taken sc uri operation ↔ BeginsLike (lookedFor sc operation) uri := by
  cases operation <;> exact Iff.rfl

theorem answer_beneath {req : Request} (h : Selects sc store (lookedFor sc req.operation))
    {listing : Listing} (hl : store.answer lower sc req = .ok listing) :
    ∀ u ∈ listing.told, Beneath sc u.canonical := by
  cases req with
  | ls page =>
    obtain ⟨found,hf,rfl⟩ := map_eq_ok.mp hl
    intro u hu
    obtain ⟨item,hi,rfl⟩ := List.mem_map.mp hu
    exact ls_beneath hf item hi
  | tree depth page =>
    cases hl
    exact tree_beneath depth page
  | find nameGlob contentType maxDepth page =>
    obtain ⟨found,hf,rfl⟩ := map_eq_ok.mp hl
    exact find_beneath h hf
  | grep pattern =>
    obtain ⟨hits,hh,rfl⟩ := map_eq_ok.mp hl
    intro u hu
    obtain ⟨hit,ht,rfl⟩ := List.mem_map.mp hu
    exact grep_beneath h hh hit ht
  | scanByPrefix page =>
    obtain ⟨found,hf,rfl⟩ := map_eq_ok.mp hl
    intro u hu
    obtain ⟨e,he,rfl⟩ := List.mem_map.mp hu
    exact scanByPrefix_beneath h hf e he
  | scanByType contentType page =>
    obtain ⟨found,hf,rfl⟩ := map_eq_ok.mp hl
    intro u hu
    obtain ⟨e,he,rfl⟩ := List.mem_map.mp hu
    exact scanByType_beneath h hf e he

theorem answer_congr {request : Request} (h : Selects sc store (lookedFor sc request.operation))
    (h' : Selects sc store' (lookedFor sc request.operation)) (hw : store.within sc = store'.within sc) :
    store.answer lower sc request = store'.answer lower sc request := by
  cases request with
  | ls page =>
    have hr := @like_congr store store' sc (dirPrefix sc) h h' hw
    simp only [SqliteContextStore.answer,SqliteContextStore.ls,hr]
  | tree depth page =>
    have hr := @like_congr store store' sc (dirPrefix sc) h h' hw
    simp only [SqliteContextStore.answer,SqliteContextStore.tree,hr]
  | find nameGlob contentType maxDepth page =>
    have hr := @like_congr store store' sc sc.canonical h h' hw
    simp only [SqliteContextStore.answer,SqliteContextStore.find,Option.map_some,Option.getD_some,hr]
  | grep pattern =>
    have hr := @like_congr store store' sc sc.canonical h h' hw
    simp only [SqliteContextStore.answer,SqliteContextStore.grep,hr]
  | scanByPrefix page =>
    unfold SqliteContextStore.answer SqliteContextStore.scanByPrefix
    cases hp : ContextUri.parse (trimEndMatches '/' sc.canonical) with
    | error err => rfl
    | ok found =>
      show (entryPage page (store.selected found)).map _ = _
      rw [selected_congr h h' hw hp]
      rfl
  | scanByType contentType page =>
    unfold SqliteContextStore.answer SqliteContextStore.scanByType
    cases hp : ContextUri.parse (trimEndMatches '/' sc.canonical) with
    | error err => rfl
    | ok found =>
      show (entryPage page ((store.selected found).filter _)).map _ = _
      rw [selected_congr h h' hw hp]
      rfl

end Sound

section Needed

variable {lower : String → String} {addresses : Addresses} {sc : ContextUri}

def emptyStore : SqliteContextStore := ⟨[], .nil⟩

def bareRow (uri : String) : EntryRow := ⟨uri, "", none, "evidence", .obj [("uri", .str uri)], rfl⟩

def oneRow (uri : String) : SqliteContextStore := ⟨[bareRow uri], List.pairwise_singleton _ _⟩

theorem append_lt_append (pre : String) {a b : String} (h : a < b) : pre ++ a < pre ++ b := by
  rw [String.lt_iff_toList_lt] at *
  rw [String.toList_append,String.toList_append]
  exact List.append_left_lt h

def twoRows (uri : String) : SqliteContextStore :=
  ⟨[bareRow (uri ++ "/" ++ "a"), bareRow (uri ++ "/" ++ "b")],
    List.pairwise_pair.mpr (append_lt_append (uri ++ "/") (by decide))⟩

theorem holds_emptyStore : addresses.Holds emptyStore := by
  intro row hr
  cases hr

variable {uri : String} {operation : Operation}

theorem holds_oneRow (h : addresses.mem uri) : addresses.Holds (oneRow uri) := by
  intro row hr
  rw [List.mem_singleton.mp hr]
  exact h

theorem holds_twoRows (h : addresses.mem uri) : addresses.Holds (twoRows uri) := by
  intro row hr
  rcases List.mem_pair.mp hr with rfl | rfl
  · exact addresses.append_mem uri "a" h
  · exact addresses.append_mem uri "b" h

theorem within_oneRow (h : ¬Beneath sc uri) : (oneRow uri).within sc = [] := by
  have hr : ¬Beneath sc (bareRow uri).uri := h
  simp [SqliteContextStore.within,oneRow,hr]

theorem not_beneath_append (ht : BeginsLike (dirPrefix sc) uri) (h : ¬Beneath sc uri)
    (seg : String) : ¬Beneath sc (uri ++ "/" ++ seg) := by
  have he : (dirPrefix sc).toList.length ≤ uri.toList.length := ht.length_le
  have hd : (dirPrefix sc).toList.length = (trimEndMatches '/' sc.canonical).toList.length + 1 := by
    rw [dirPrefix_toList,List.length_append,List.length_singleton]
  have hl : (uri ++ "/" ++ seg).toList = uri.toList ++ ("/" ++ seg).toList := by
    rw [String.append_assoc,String.toList_append]
  rintro (hq | hb)
  · have hc := congrArg List.length (congrArg String.toList hq)
    rw [hl,List.length_append] at hc
    omega
  · rw [hl] at hb
    exact h (Or.inr (List.prefix_of_prefix_length_le hb (List.prefix_append _ _) he))

theorem within_twoRows (ht : BeginsLike (dirPrefix sc) uri) (h : ¬Beneath sc uri) : (twoRows uri).within sc = [] := by
  have ha : ¬Beneath sc (bareRow (uri ++ "/" ++ "a")).uri := not_beneath_append ht h "a"
  have hb : ¬Beneath sc (bareRow (uri ++ "/" ++ "b")).uri := not_beneath_append ht h "b"
  simp [SqliteContextStore.within,twoRows,ha,hb]

theorem Confined.answer_empty (h : Confined lower addresses sc operation)
    {store : SqliteContextStore} (hs : addresses.Holds store) (hw : store.within sc = [])
    (request : Request) (hr : request.operation = operation) :
    store.answer lower sc request = emptyStore.answer lower sc request :=
  (h store hs request hr).2 emptyStore holds_emptyStore hw

theorem mapM_ne_ok_nil {ε α β : Type} {f : α → Except ε β} {as : List α} (h : as ≠ []) : as.mapM f ≠ .ok [] := by
  intro hn
  have hl := (mapM_eq_ok hn).length_eq
  exact h (List.length_eq_zero_iff.mp hl)

theorem cut_cons_ne_nil {α : Type} (row : α) (rows : List α) : (cut (.new 1) (row::rows)).1 ≠ [] := by
  simp [cut,effectiveLimit,PageRequest.new,Retrieve.clamp,Retrieve.maxPageSize]

theorem like_oneRow {pre uri : String} (h : BeginsLike pre uri) :
    (oneRow uri).entries.filter (fun row => sqlLike row.uri (prefixPattern pre)) = [bareRow uri] := by
  have hr : sqlLike (bareRow uri).uri (prefixPattern pre) = true := (sqlLike_prefixPattern _ _).mpr h
  simp [oneRow,hr]

theorem ls_needs (h : Confined lower addresses sc .ls) (hm : addresses.mem uri)
    (ht : BeginsLike (dirPrefix sc) uri) : Beneath sc uri := by
  by_contra ho
  have ha : ((oneRow uri).ls sc (.new 1)).map Listing.dirEntries = .ok (.dirEntries ⟨[],none⟩) :=
    h.answer_empty (holds_oneRow hm) (within_oneRow ho) (.ls (.new 1)) rfl
  obtain ⟨found,hf,hl⟩ := map_eq_ok.mp ha
  obtain rfl : found = ⟨[],none⟩ := Listing.dirEntries.inj hl
  unfold SqliteContextStore.ls at hf
  dsimp only at hf
  rw [like_oneRow ht] at hf
  obtain ⟨items,hi,hp⟩ := bind_eq_ok.mp hf
  obtain rfl : items = [] := congrArg Page.items (Except.ok.inj hp)
  refine mapM_ne_ok_nil ?_ hi
  exact cut_cons_ne_nil _ _

theorem tree_needs (h : Confined lower addresses sc .tree) (hm : addresses.mem uri)
    (ht : BeginsLike (dirPrefix sc) uri) : Beneath sc uri := by
  by_contra ho
  have ha : Except.ok (ε := ContextError) (Listing.nodes ((twoRows uri).tree sc 0 (.new 1))) =
      .ok (.nodes (emptyStore.tree sc 0 (.new 1))) :=
    h.answer_empty (holds_twoRows hm) (within_twoRows ht ho) (.tree 0 (.new 1)) rfl
  have hc := congrArg Page.nextCursor (Listing.nodes.inj (Except.ok.inj ha))
  have hl : ∀ seg, sqlLike (bareRow (uri ++ "/" ++ seg)).uri (prefixPattern (dirPrefix sc)) = true := by
    intro seg
    refine (sqlLike_prefixPattern _ _).mpr ?_
    show Like.Begins sameLetter _ (uri ++ "/" ++ seg).toList
    rw [String.append_assoc,String.toList_append]
    exact ht.append sameLetter _
  have hr : (twoRows uri).entries.filter (fun row => sqlLike row.uri (prefixPattern (dirPrefix sc))) =
      (twoRows uri).entries := by
    refine List.filter_eq_self.mpr (fun row hw => ?_)
    rcases List.mem_pair.mp hw with rfl | rfl
    · exact hl "a"
    · exact hl "b"
  unfold SqliteContextStore.tree at hc
  dsimp only at hc
  rw [hr] at hc
  cases hc

theorem find_needs (h : Confined lower addresses sc .find) (hm : addresses.mem uri)
    (ht : BeginsLike sc.canonical uri) : Beneath sc uri := by
  by_contra ho
  have ha : ((oneRow uri).find ⟨some sc,none,none,none⟩ (.new 1)).map Listing.uris = .ok (.uris ⟨[],none⟩) :=
    h.answer_empty (holds_oneRow hm) (within_oneRow ho) (.find none none none (.new 1)) rfl
  obtain ⟨found,hf,hl⟩ := map_eq_ok.mp ha
  obtain rfl : found = ⟨[],none⟩ := Listing.uris.inj hl
  unfold SqliteContextStore.find at hf
  simp only [Option.map_some,Option.getD_some,Option.map_none,Option.all_none,Bool.true_and] at hf
  rw [like_oneRow ht] at hf
  obtain ⟨items,hi,hp⟩ := bind_eq_ok.mp hf
  obtain rfl : items = [] := congrArg Page.items (Except.ok.inj hp)
  refine mapM_ne_ok_nil ?_ hi
  exact cut_cons_ne_nil (bareRow uri) []

theorem contains_self (text : List Char) : WriteSecurity.contains text text = true := by
  have hm : text ∈ text.tails := (List.mem_tails _ _).mpr (List.suffix_refl _)
  exact List.any_eq_true.mpr ⟨text,hm,by simp⟩

theorem grep_needs (h : Confined lower addresses sc .grep) (hm : addresses.mem uri)
    (ht : BeginsLike sc.canonical uri) : Beneath sc uri := by
  by_contra ho
  have ha : ((oneRow uri).grep lower "" sc).map Listing.grepHits = .ok (.grepHits []) :=
    h.answer_empty (holds_oneRow hm) (within_oneRow ho) (.grep "") rfl
  obtain ⟨found,hf,hl⟩ := map_eq_ok.mp ha
  obtain rfl : found = [] := Listing.grepHits.inj hl
  unfold SqliteContextStore.grep at hf
  dsimp only at hf
  rw [like_oneRow ht] at hf
  obtain ⟨hits,hs,hls⟩ := bind_eq_ok.mp hf
  have hn : hits.reduceOption = [] := Except.ok.inj hls
  cases mapM_eq_ok hs with
  | cons hr he =>
    cases he
    obtain ⟨u,-,hh⟩ := map_eq_ok.mp hr
    have hi : WriteSecurity.contains (lower "").toList (lower (bareRow uri).l0Abstract).toList = true :=
      contains_self _
    rw [if_pos hi,Option.map_some] at hh
    rw [← hh] at hn
    cases hn

theorem scanned_oneRow (ht : BeginsLike (dirPrefix sc) uri) :
    (oneRow uri).entries.filter (fun row => scanned sc row.uri) = [bareRow uri] := by
  have hr : scanned sc (bareRow uri).uri = true := Bool.or_eq_true _ _ ▸ Or.inr ((sqlLike_prefixPattern _ _).mpr ht)
  simp [oneRow,hr]

theorem readEntry_bareRow (uri : String) : (bareRow uri).readEntry = .error (.serialization "invalid entry") := by
  have hr : ContextEntry.fromValue (bareRow uri).entryJson = none := by
    simp [ContextEntry.fromValue,bareRow,Json.get?,List.lookup_cons]
  rw [EntryRow.readEntry,hr]

theorem entryPage_bareRow (uri : String) :
    entryPage (.new 1) [bareRow uri] = .error (.serialization "invalid entry") := by
  have hc : cut (.new 1) ([bareRow uri].filter (fun row => isAfter (.new 1) row.uri)) = ([bareRow uri], false) := rfl
  unfold entryPage
  rw [hc]
  dsimp only
  rw [List.mapM_cons,readEntry_bareRow]
  rfl

section Parse

open ContextUri

theorem parse_ok_iff {s : String} :
    (∃ u, parse s = .ok u) ↔ ∃ rest, s.toList = scheme.toList ++ rest ∧ splitPath (splitQuery rest).1 ≠ [] := by
  constructor
  · rintro ⟨u,h⟩
    unfold parse at h
    split at h
    · rename_i hs
      obtain ⟨rest,hr⟩ := List.isPrefixOf_iff_prefix.mp hs
      have hd : s.toList.drop scheme.length = rest := by
        rw [← hr]
        exact List.drop_left' rfl
      refine ⟨rest,hr.symm,fun hn => ?_⟩
      dsimp only at h
      rw [hd,hn] at h
      split at h <;> cases h
    · cases h
  · rintro ⟨rest,hr,hp⟩
    have hs : scheme.toList.isPrefixOf s.toList = true := List.isPrefixOf_iff_prefix.mpr ⟨rest,hr.symm⟩
    have hd : s.toList.drop scheme.length = rest := by
      rw [hr]
      exact List.drop_left' rfl
    have he : rest.isEmpty = false := by
      cases rest with
      | nil => exact absurd rfl hp
      | cons c rest => rfl
    unfold parse
    rw [if_pos hs]
    dsimp only
    rw [hd,he]
    cases hw : splitPath (splitQuery rest).1 with
    | nil => exact absurd hw hp
    | cons tenant path => exact ⟨_,rfl⟩

theorem parse_trimEndMatches {s : String} (h : ∃ u, parse s = .ok u) : ∃ u, parse (trimEndMatches '/' s) = .ok u := by
  obtain ⟨rest,hr,hp⟩ := parse_ok_iff.mp h
  obtain ⟨slashes,hs,hl⟩ := UriInner.trimEnd_spec s
  have hma : '?' ∉ slashes := fun hm => absurd (hs '?' hm) (by decide)
  rw [hr,List.append_eq_append_iff] at hl
  rcases hl with ⟨kept,hk,rfl⟩ | ⟨more,hh,ho⟩
  · refine parse_ok_iff.mpr ⟨kept,hk,fun hn => hp ?_⟩
    by_cases hq : '?' ∈ kept
    · rw [UriInner.splitQuery_fst] at *
      have ht : (kept.takeWhile (· != '?')).length ≠ kept.length := by
        intro he
        have hse : kept.takeWhile (· != '?') = kept := (List.takeWhile_prefix _).eq_of_length he
        have hi := UriInner.not_mem_splitQuery kept
        rw [UriInner.splitQuery_fst,hse] at hi
        exact hi hq
      rw [List.takeWhile_append,if_neg ht]
      exact hn
    · have hb : '?' ∉ kept ++ slashes := by
        rw [List.mem_append,not_or]
        exact ⟨hq,hma⟩
      rw [UriInner.splitQuery_of_not_mem hq] at hn
      rw [UriInner.splitQuery_of_not_mem hb]
      exact (UriInner.splitPath_slashes kept hs).trans hn
  · exfalso
    have ha : ∀ c ∈ rest, c = '/' := fun c hc => hs c (by rw [ho]; exact List.mem_append_right _ hc)
    have hno : '?' ∉ rest := fun hm => absurd (ha '?' hm) (by decide)
    rw [UriInner.splitQuery_of_not_mem hno] at hp
    exact hp (UriInner.splitPath_slashes [] ha)

end Parse

theorem Confined.beneath_of_error (h : Confined lower addresses sc operation)
    (hm : addresses.mem uri) (req : Request) (hr : req.operation = operation) {err : ContextError}
    {listing : Listing} (ho : (oneRow uri).answer lower sc req = .error err)
    (he : emptyStore.answer lower sc req = .ok listing) : Beneath sc uri := by
  by_contra hu
  have ha := h.answer_empty (holds_oneRow hm) (within_oneRow hu) req hr
  rw [ho,he] at ha
  cases ha

theorem selected_oneRow {parsed : ContextUri}
    (hp : ContextUri.parse (trimEndMatches '/' sc.canonical) = .ok parsed)
    (ht : BeginsLike (dirPrefix sc) uri) : (oneRow uri).selected parsed = [bareRow uri] := by
  rw [selected_eq hp,scanned_oneRow ht]

theorem scanByPrefix_needs (hs : ∃ u, ContextUri.parse sc.canonical = .ok u)
    (h : Confined lower addresses sc .scanByPrefix) (hm : addresses.mem uri)
    (ht : BeginsLike (dirPrefix sc) uri) : Beneath sc uri := by
  obtain ⟨parsed,hp⟩ := parse_trimEndMatches hs
  have ho : (oneRow uri).scanByPrefix sc.canonical (.new 1) = .error (.serialization "invalid entry") := by
    rw [SqliteContextStore.scanByPrefix,hp]
    show entryPage _ ((oneRow uri).selected parsed) = _
    rw [selected_oneRow hp ht]
    exact entryPage_bareRow uri
  have he : emptyStore.scanByPrefix sc.canonical (.new 1) = .ok ⟨[],none⟩ := by
    rw [SqliteContextStore.scanByPrefix,hp]
    rfl
  exact h.beneath_of_error hm (.scanByPrefix (.new 1)) rfl (congrArg (Except.map Listing.entries) ho)
    (congrArg (Except.map Listing.entries) he)

theorem scanByType_needs (hs : ∃ u, ContextUri.parse sc.canonical = .ok u)
    (h : Confined lower addresses sc .scanByType) (hm : addresses.mem uri)
    (ht : BeginsLike (dirPrefix sc) uri) : Beneath sc uri := by
  obtain ⟨parsed,hp⟩ := parse_trimEndMatches hs
  have ho : (oneRow uri).scanByType sc.canonical .evidence (.new 1) = .error (.serialization "invalid entry") := by
    rw [SqliteContextStore.scanByType,hp]
    show entryPage _ (((oneRow uri).selected parsed).filter _) = _
    rw [selected_oneRow hp ht]
    exact entryPage_bareRow uri
  have he : emptyStore.scanByType sc.canonical .evidence (.new 1) = .ok ⟨[],none⟩ := by
    rw [SqliteContextStore.scanByType,hp]
    rfl
  exact h.beneath_of_error hm (.scanByType .evidence (.new 1)) rfl (congrArg (Except.map Listing.entries) ho)
    (congrArg (Except.map Listing.entries) he)

end Needed

/-- An enumeration is confined to a scope exactly if it takes no address outside the scope for one in it. -/
theorem confined_iff (lower : String → String) (addresses : Addresses) {scope : ContextUri}
    (hscope : ∃ u, ContextUri.parse scope.canonical = .ok u) (operation : Operation) :
    Confined lower addresses scope operation ↔
      ∀ uri, addresses.mem uri → Taken scope uri operation → Beneath scope uri := by
  constructor
  · intro h uri hm ht
    cases operation with
    | ls => exact ls_needs h hm ht
    | tree => exact tree_needs h hm ht
    | find => exact find_needs h hm ht
    | grep => exact grep_needs h hm ht
    | scanByPrefix => exact scanByPrefix_needs hscope h hm ht
    | scanByType => exact scanByType_needs hscope h hm ht
  · intro h store hs request hr
    have he : ∀ store : SqliteContextStore, addresses.Holds store →
        Selects scope store (lookedFor scope request.operation) := by
      intro store hs row ho hl
      refine h row.uri (hs row ho) ((taken_iff operation _).mpr ?_)
      rw [← hr]
      exact hl
    exact ⟨fun listing hi => answer_beneath (he store hs) hi,
      fun store' hs' hw => answer_congr (he store hs) (he store' hs') hw⟩

/-- The addresses of the tenant `7`. -/
def digitAddresses : Addresses where
  mem uri := "uwu://7/".toList <+: uri.toList
  append_mem uri seg h := by
    rw [String.append_assoc, String.toList_append]
    exact h.trans (List.prefix_append _ _)

/-- The scan of a tenant is confined to it among the addresses of this tenant. -/
theorem confined_iff_sample : Confined id digitAddresses (.ofTenant "7") .scanByPrefix :=
  (confined_iff id digitAddresses ⟨_, rfl⟩ .scanByPrefix).mpr (fun _ hm _ => Or.inr hm)

def someAddress : Addresses := ⟨fun _ => True, fun _ _ _ => trivial⟩

def scopeM : ContextUri := ⟨"t", ["t", "m"], none, "uwu://t/m"⟩

/-- `grep` over `uwu://t/m` returns a row of `uwu://t/m2`, and every operation takes `uwu://t/M/x` for a row below it. -/
theorem grep_reads_sibling :
    (∃ hits, (oneRow "uwu://t/m2").grep id "" scopeM = .ok hits ∧ ∃ hit ∈ hits, ¬Beneath scopeM hit.uri.canonical) ∧
    ∀ operation, ¬Confined id someAddress scopeM operation := by
  constructor
  · have hr : ((oneRow "uwu://t/m2").grep id "" scopeM).map (fun hits => hits.map (·.uri.canonical)) =
        .ok ["uwu://t/m2"] := by decide +kernel
    obtain ⟨hits, hh, ht⟩ := map_eq_ok.mp hr
    have hm : "uwu://t/m2" ∈ hits.map (·.uri.canonical) := by
      rw [ht]
      exact List.mem_singleton_self _
    obtain ⟨hit, hi, hu⟩ := List.mem_map.mp hm
    refine ⟨hits, hh, hit, hi, ?_⟩
    rw [hu]
    decide +kernel
  · intro operation h
    have hp : ∃ u, ContextUri.parse scopeM.canonical = .ok u := ⟨_, rfl⟩
    have hl : sqlLike "uwu://t/M/x" (prefixPattern (lookedFor scopeM operation)) = true := by
      cases operation <;> decide +kernel
    have ha : Taken scopeM "uwu://t/M/x" operation :=
      (taken_iff operation _).mpr ((sqlLike_prefixPattern _ _).mp hl)
    have hb := (confined_iff id someAddress hp operation).mp h "uwu://t/M/x" trivial ha
    exact absurd hb (by decide +kernel)

end UwuContextDb.Content
