import UwuContextDb.Content.VersionHistory

/-! What holds of every row that the writes of the SQLite store leave. -/

namespace UwuContextDb.Content

open StateMachine
open WriteSecurity (sanitizeEntryForWrite)

namespace SqliteTables

variable {row : CurrentRow} {rows : List PreparedBatchRow} {op : Op}

variable {libraries lib : StoreLibraries} {cfg : BatchWriteConfig} {st tx : SqliteTables} {now : DateTime}

def Op.uris : Op → List ContextUri
  | .write entry _ => [entry.uri]
  | .batchWrite entries _ => entries.map (·.uri)
  | .delete uri _ => [uri]
  | .rename from_ to_ _ => [from_, to_]
  | .rollback uri _ _ => [uri]
  | .addEdge from_ to_ _ => [from_, to_]
  | .removeEdge from_ to_ => [from_, to_]

def Op.written : Op → List ContextUri
  | .write entry _ => [entry.uri]
  | .batchWrite entries _ => entries.map (·.uri)
  | .rename _ to_ _ => [to_]
  | .rollback uri _ _ => [uri]
  | _ => []

theorem Op.written_subset (op : Op) : op.written ⊆ op.uris := by
  cases op with
  | rename from_ to_ now => simp [written,uris]
  | _ => simp [written,uris]

/-- Every row has `P`, of its key and its entry. -/
def AllRows (P : String → ContextEntry → Prop) (st : SqliteTables) : Prop :=
  ∀ (key : String) (row : CurrentRow), st.entries[key]? = some row → P key row.entry

variable {P : String → ContextEntry → Prop}

theorem allRows_empty : AllRows P empty := fun key row h => by simp [empty] at h

theorem AllRows.congr (h : AllRows P st) (he : tx.entries = st.entries) : AllRows P tx :=
  fun key row hr => h key row (he ▸ hr)

variable {key : String} {entry : ContextEntry} {ver : MvccVersion} {uris : List ContextUri}

theorem AllRows.insert (h : AllRows P st) (hr : P key row.entry)
    (he : tx.entries = st.entries.insert key row) : AllRows P tx := by
  intro key' row' hr'
  rw [he,Std.ExtTreeMap.getElem?_insert] at hr'
  split at hr'
  · rename_i hk
    rw [← Option.some.inj hr',← Std.LawfulEqCmp.compare_eq_iff_eq.mp hk]
    exact hr
  · exact h key' row' hr'

theorem AllRows.erase (h : AllRows P st) (he : tx.entries = st.entries.erase key) : AllRows P tx := by
  intro key' row hr
  rw [he,Std.ExtTreeMap.getElem?_erase] at hr
  split at hr
  · cases hr
  · exact h key' row hr

theorem AllRows.insertCurrent (hr : ∀ row ∈ rows, P row.uri row.entry)
    (h : AllRows P st) (he : rows.foldlM (insertCurrent lib) st.entries = .ok tx.entries) : AllRows P tx := by
  induction rows generalizing st with
  | nil => exact h.congr (Except.ok.inj he).symm
  | cons row rows ih =>
    rw [List.foldlM_cons] at he
    obtain ⟨entries,hf,he⟩ := bind_eq_ok.mp he
    have hi := insertCurrent_ok hf
    have hn : AllRows P { st with entries := entries } := by
      cases hc : row.isCurrent with
      | true =>
        rw [hc,if_pos rfl] at hi
        exact AllRows.insert h (hr row List.mem_cons_self) hi
      | false => exact h.congr (by simpa [hc] using hi)
    exact ih (fun row ho => hr row (List.mem_cons_of_mem _ ho)) hn he

/-- `P` holds of what a write stores of an entry under one of the URIs. -/
def Stores (libraries : StoreLibraries) (P : String → ContextEntry → Prop) (uris : List ContextUri) : Prop :=
  ∀ (input clean : ContextEntry) (now : DateTime) (version : MvccVersion), input.uri ∈ uris →
    validateTenantBinding libraries input = .ok () → sanitizeEntryForWrite input = .ok clean →
      (pointFromEntry libraries clean).isOk = true →
        P clean.uri.canonical { clean with updatedAt := now, mvccVersion := version }

/-- A rename to one of the URIs keeps `P`. -/
def Renames (libraries : StoreLibraries) (P : String → ContextEntry → Prop) (uris : List ContextUri) : Prop :=
  ∀ (from_ to_ : ContextUri) (now : DateTime) (entry : ContextEntry), from_ ∈ uris → to_ ∈ uris → P from_.canonical entry →
    from_.tenant = to_.tenant → (pointFromEntry libraries { entry with uri := to_, updatedAt := now }).isOk = true →
      P to_.canonical { entry with uri := to_, updatedAt := now }

theorem embedded_of_sanitized {input clean : ContextEntry} (h : sanitizeEntryForWrite input = .ok clean) :
    (pointFromEntry lib clean).isOk = (pointFromEntry lib input).isOk :=
  pointFromEntry_isOk ((sanitized_of_ok h).custom _ (by decide))

theorem embedded_of_mutation {chg : Option IndexMutation}
    (h : upsertMutation lib entry ver = .ok chg) : (pointFromEntry lib entry).isOk = true := by
  rw [← upsertMutation_isOk ver,h]
  rfl

theorem AllRows.writeInTx (h : AllRows P st) (hs : Stores lib P uris)
    (hu : entry.uri ∈ uris) (he : (pointFromEntry lib entry).isOk = true)
    (hq : st.writeInTx lib entry now = .ok (ver, tx)) : AllRows P tx := by
  obtain ⟨stored,hw⟩ := writeInTx_ok hq
  obtain ⟨clean,hc,ht⟩ := hw.redacted
  have hn : tx.entries = st.entries.insert stored.uri.canonical ⟨stored,ver,stored.metadata.custom⟩ := by
    rw [hw.tables]
  refine AllRows.insert h ?_ hn
  rw [ht]
  exact hs entry clean now ver hu hw.valid hc ((embedded_of_sanitized hc).trans he)

theorem prepareBatchChunk_rows (hs : Stores lib P uris) {chunk : List ContextEntry}
    (hu : ∀ entry ∈ chunk, entry.uri ∈ uris) {next : Std.ExtTreeMap String MvccVersion}
    (h : prepareBatchChunk lib now next chunk = .ok rows) : ∀ row ∈ rows, P row.uri row.entry := by
  induction chunk generalizing next rows with
  | nil =>
    cases h
    simp
  | cons input chunk ih =>
    obtain ⟨first,later,rfl,hf,-,hl⟩ := prepareBatchChunk_cons.mp h
    intro row hr
    rcases List.mem_cons.mp hr with rfl | hr
    · obtain ⟨clean,hc,he⟩ := hf.redacted
      have hm : (pointFromEntry lib clean).isOk = true := by
        rw [← @pointFromEntry_isOk lib clean row.entry (by rw [he])]
        exact embedded_of_mutation hf.mutation
      have hk : row.uri = clean.uri.canonical := by rw [hf.uri,(sanitized_of_ok hc).frame]
      rw [hk,he]
      exact hs input clean now _ (hu input List.mem_cons_self) hf.valid hc hm
    · exact ih (fun entry he => hu entry (List.mem_cons_of_mem _ he)) hl row hr

theorem AllRows.batchWrite (h : AllRows P st) (hs : Stores lib P uris)
    {es : List ContextEntry} (hu : ∀ entry ∈ es, entry.uri ∈ uris) {vs : List MvccVersion}
    (he : st.batchWrite lib cfg es now = .ok (vs, tx)) : AllRows P tx := by
  refine batchWrite_preserves (fun st' chunk vs tx hc hr he => ?_) h he
  obtain ⟨rows,hw⟩ := writeChunk_ok he
  have hu' : ∀ entry ∈ chunk, entry.uri ∈ uris := fun entry hn => hu entry (hc entry hn)
  exact hr.insertCurrent (prepareBatchChunk_rows hs hu' hw.prepared) hw.entries

theorem AllRows.step_written (h : AllRows P st) (hs : Stores lib P op.written)
    (hn : ∀ from_ to_ now entry, op = .rename from_ to_ now → P from_.canonical entry → from_.tenant = to_.tenant →
      (pointFromEntry lib { entry with uri := to_, updatedAt := now }).isOk = true →
        P to_.canonical { entry with uri := to_, updatedAt := now }) :
    AllRows P (SqliteTables.step lib st cfg op) := by
  cases hc : commit lib st cfg op with
  | error e =>
    rw [step_of_error hc]
    exact h
  | ok tx =>
    rw [step_of_ok hc]
    cases op with
    | write entry now =>
      obtain ⟨⟨ver,tx'⟩,hw,rfl⟩ := map_eq_ok.mp hc
      obtain ⟨inner,chg,hi,hm,rfl⟩ := write_ok hw
      exact (h.writeInTx hs List.mem_cons_self (embedded_of_mutation hm) hi).congr
        (enqueueAny_frame chg now).1
    | batchWrite entries now =>
      obtain ⟨⟨vs,tx'⟩,hw,rfl⟩ := map_eq_ok.mp hc
      exact h.batchWrite hs (fun entry he => List.mem_map_of_mem he) hw
    | delete uri now =>
      obtain ⟨⟨⟨⟩,tx'⟩,hd,rfl⟩ := map_eq_ok.mp hc
      exact h.erase (delete_ok hd).entries
    | rename from_ to_ now =>
      obtain ⟨⟨⟨⟩,tx'⟩,ha,rfl⟩ := map_eq_ok.mp hc
      obtain ⟨row,point,hr⟩ := rename_ok ha
      have her : AllRows P { st with entries := st.entries.erase from_.canonical } := h.erase rfl
      refine her.insert ?_ hr.entries
      refine hn from_ to_ now row.entry rfl (h _ row hr.source) hr.tenant ?_
      rw [hr.point_eq]
      rfl
    | rollback uri to_ now =>
      obtain ⟨⟨⟨⟩,tx'⟩,ho,rfl⟩ := map_eq_ok.mp hc
      obtain ⟨row,ver,inner,chg,-,-,hi,hm,rfl⟩ := rollback_ok ho
      have hro := h.writeInTx hs (by simp [Op.written]) (embedded_of_mutation hm) hi
      exact hro.congr (enqueueAny_frame chg now).1
    | addEdge from_ to_ kind =>
      cases hc
      exact h.congr (st.addEdge_frame from_ to_ kind).1
    | removeEdge from_ to_ =>
      cases hc
      exact h.congr (st.removeEdge_frame from_ to_).1

theorem AllRows.step (h : AllRows P st) (hs : Stores lib P op.uris)
    (hr : Renames lib P op.uris) :
    AllRows P (SqliteTables.step lib st cfg op) := by
  refine h.step_written (fun input clean now ver hu => hs input clean now ver (op.written_subset hu)) ?_
  rintro from_ to_ now entry rfl
  exact hr from_ to_ now entry (by simp [Op.uris]) (by simp [Op.uris])

theorem absent_step (h : st.entries[key]? = none) (hw : ∀ uri ∈ op.written, uri.canonical ≠ key) :
    (SqliteTables.step lib st cfg op).entries[key]? = none := by
  have hs : AllRows (fun other _ => other ≠ key) st := by
    rintro other row hr rfl
    rw [h] at hr
    cases hr
  have ht : AllRows (fun other _ => other ≠ key) (SqliteTables.step lib st cfg op) := by
    refine hs.step_written (fun input clean now ver hu hv hc _ => ?_) ?_
    · have ha : clean.uri = input.uri := by rw [(sanitized_of_ok hc).frame]
      rw [ha]
      exact hw _ hu
    · rintro from_ to_ now entry rfl - - -
      exact hw to_ (by simp [Op.written])
  cases hn : (SqliteTables.step lib st cfg op).entries[key]? with
  | none => rfl
  | some row => exact absurd rfl (ht key row hn)

def Named (st : SqliteTables) : Prop := AllRows (fun key entry => entry.uri.canonical = key) st

theorem named_empty : empty.Named := allRows_empty

theorem Named.step (h : st.Named) (cfg : BatchWriteConfig) (op : Op) : (st.step lib cfg op).Named :=
  AllRows.step h (fun _ _ _ _ _ _ _ _ => rfl) (fun _ _ _ _ _ _ _ _ _ => rfl)

theorem Named.erase (h : st.Named) {uri : String} (he : tx.entries = st.entries.erase uri) : tx.Named :=
  AllRows.erase h he

theorem Named.insert (h : st.Named)
    (he : tx.entries = st.entries.insert row.entry.uri.canonical row) :
    tx.Named := AllRows.insert h rfl he

structure Rewritable (libraries : StoreLibraries) (entry : ContextEntry) : Prop where
  bound : (validateTenantBinding libraries entry).isOk = true
  embedded : (pointFromEntry libraries entry).isOk = true
  redacted : Redacted entry

structure Addressed (libraries : StoreLibraries) (key : String) (entry : ContextEntry) : Prop where
  parsed : ContextUri.parse key = .ok entry.uri
  rewritable : Rewritable libraries entry

theorem AllRows.addressed (h : AllRows (Addressed lib) st)
    (hp : ∀ uri ∈ op.uris, ContextUri.parse uri.canonical = .ok uri) :
    AllRows (Addressed lib) (SqliteTables.step lib st cfg op) := by
  refine h.step (fun input clean now ver hu hv hc he => ?_)
    (fun from_ to_ now entry hf ho hn ht he => ?_)
  · have hr := (sanitized_of_ok hc).frame
    have hs : clean.uri = input.uri ∧ clean.tenant = input.tenant := by
      rw [hr]
      exact ⟨rfl,rfl⟩
    refine ⟨?_,?_,?_,(sanitized_of_ok hc).redacted rfl⟩
    · show ContextUri.parse clean.uri.canonical = .ok clean.uri
      rw [hs.1]
      exact hp _ hu
    · unfold validateTenantBinding at hv ⊢
      dsimp only
      rw [hs.1,hs.2]
      rw [hv]
      rfl
    · have ha : (pointFromEntry lib { clean with updatedAt := now, mvccVersion := ver }).isOk =
          (pointFromEntry lib clean).isOk := pointFromEntry_isOk rfl
      exact ha.trans he
  · have hu : entry.uri = from_ := Except.ok.inj (hn.parsed.symm.trans (hp _ hf))
    refine ⟨hp _ ho,?_,he,hn.rewritable.redacted.of_payload rfl⟩
    have hb := hn.rewritable.bound
    unfold validateTenantBinding at hb ⊢
    dsimp only
    rw [hu] at hb
    rw [← ht]
    exact hb

theorem History.write_back (h : st.History) (he : Rewritable lib entry) (now : DateTime) :
    ∃ ver tx, st.write lib entry now = .ok (ver, tx) ∧ tx.entries = st.entries.insert entry.uri.canonical
      ⟨{ entry with updatedAt := now, mvccVersion := ver },ver,entry.metadata.custom⟩ := by
  have ho : (st.write lib entry now).isOk = true := by
    rw [h.write_isOk,he.bound,he.embedded,Bool.and_self]
  cases hw : st.write lib entry now with
  | error e =>
    rw [hw] at ho
    cases ho
  | ok out =>
    obtain ⟨ver,tx⟩ := out
    obtain ⟨inner,chg,hi,-,rfl⟩ := write_ok hw
    obtain ⟨stored,hr⟩ := writeInTx_ok hi
    obtain ⟨clean,hc,rfl⟩ := hr.redacted
    obtain rfl := Except.ok.inj (he.redacted.symm.trans hc)
    refine ⟨ver,_,rfl,?_⟩
    rw [(enqueueAny_frame chg now).1,hr.tables]

end SqliteTables

end UwuContextDb.Content

/-! `scan_by_prefix` on the tables that the writes work on. -/

namespace UwuContextDb.Content

open ContextUri (trimEndMatches)
open Retrieve (PageRequest Page)

namespace SqliteTables

variable (st : SqliteTables)

/-- `uri = ? OR uri LIKE ?`, in the order of the key. -/
def selected (scope : ContextUri) : List (String × CurrentRow) :=
  st.entries.toList.filter (fun row => row.1 == scope.canonical || sqlLike row.1 (prefixPattern (dirPrefix scope)))

def scanByPrefix (uriPrefix : String) (page : PageRequest) : Except ContextError (Page ContextEntry) := do
  let scope ← ContextUri.parse (trimEndMatches '/' uriPrefix)
  let (rows, hasMore) := cut page ((st.selected scope).filter (fun row => isAfter page row.1))
  let items := rows.map (fun row => row.2.entry)
  return ⟨items, if hasMore then items.getLast?.map (fun item => item.uri.canonical) else none⟩

variable {st}

theorem Named.found_of_scan (h : st.Named) {pre : String} {page : PageRequest} {found : Page ContextEntry}
    (he : st.scanByPrefix pre page = .ok found) {entry : ContextEntry} (hn : entry ∈ found.items) :
    ∃ row : CurrentRow, st.entries[entry.uri.canonical]? = some row ∧ row.entry = entry := by
  obtain ⟨sc,-,he⟩ := StateMachine.bind_eq_ok.mp he
  cases he
  obtain ⟨⟨key,row⟩,hr,rfl⟩ := List.mem_map.mp hn
  have hs := List.mem_of_mem_filter (List.mem_of_mem_take (List.mem_of_mem_take hr))
  have hg : st.entries[key]? = some row :=
    Std.ExtTreeMap.mem_toList_iff_getElem?_eq_some.mp (List.mem_of_mem_filter hs)
  exact ⟨row,(h key row hg).symm ▸ hg,rfl⟩

end SqliteTables

end UwuContextDb.Content
