import UwuContextDb.Content.VersionHistory

/-! A batch of writes against the writes of its entries one after another. -/

namespace UwuContextDb.Content

open StateMachine
open WriteSecurity (sanitizeEntryForWrite)
open List (flatten_cons map_cons mem_cons_self foldlM_cons append_assoc map_append)
open Std.ExtTreeMap (ext_getElem? getElem?_map getElem?_insert)

namespace SqliteTables

section Chunks

variable {libraries lib : StoreLibraries} {config : BatchWriteConfig}

theorem takeChunk_le (count bytes : ℕ) (es : List ContextEntry) :
    takeChunk lib config count bytes es ≤ config.maxRowsPerChunk - count := by
  induction es generalizing count bytes with
  | nil => exact Nat.zero_le _
  | cons entry rest ih =>
    unfold takeChunk
    dsimp only
    split
    · exact Nat.zero_le _
    · split
      · exact Nat.zero_le _
      · split
        · omega
        · have hr := ih (count+1) (bytes+lib.jsonLength entry)
          omega

theorem takeChunk_pos (hr : 0 < config.maxRowsPerChunk) (e : ContextEntry) (rest : List ContextEntry) :
    0 < takeChunk lib config 0 0 (e::rest) := by
  unfold takeChunk
  dsimp only
  rw [if_neg (by omega),if_neg (by simp)]
  split <;> omega

theorem chunksFrom_parts (hr : 0 < config.maxRowsPerChunk) (fuel : ℕ) (es : List ContextEntry)
    (hf : es.length ≤ fuel) :
    (chunksFrom lib config fuel es).flatten = es ∧
      ∀ part ∈ chunksFrom lib config fuel es, part ≠ [] ∧ part.length ≤ config.maxRowsPerChunk := by
  induction fuel generalizing es with
  | zero =>
    rw [List.length_eq_zero_iff.mp (Nat.le_zero.mp hf)]
    exact ⟨rfl,by simp [chunksFrom]⟩
  | succ fuel ih =>
    cases es with
    | nil => exact ⟨rfl,by simp [chunksFrom]⟩
    | cons entry rest =>
      have hs := @takeChunk_pos lib config hr entry rest
      have he := @takeChunk_le lib config 0 0 (entry::rest)
      obtain ⟨hl,ht⟩ := ih ((entry::rest).drop (takeChunk lib config 0 0 (entry::rest)))
        (by rw [List.length_drop]; simp only [List.length_cons] at hf ⊢; omega)
      constructor
      · rw [chunksFrom,flatten_cons,hl,List.take_append_drop]
      · intro part hp
        rcases List.mem_cons.mp hp with rfl | hp
        · constructor
          · intro hn
            rcases List.take_eq_nil_iff.mp hn with hz | ho
            · omega
            · cases ho
          · rw [List.length_take]
            omega
        · exact ht part hp

theorem chunks_parts {es : List ContextEntry} {parts : List (List ContextEntry)}
    (h : chunks lib config es = .ok parts) :
    parts.flatten = es ∧ ∀ part ∈ parts, part ≠ [] ∧ part.length ≤ config.maxRowsPerChunk := by
  unfold chunks at h
  split at h
  · cases h
  · rename_i hl
    rw [← Except.ok.inj h]
    exact chunksFrom_parts (by omega) es.length es (Nat.le_refl _)

end Chunks

section Timeless

variable {libraries lib : StoreLibraries}

def writeAll (libraries : StoreLibraries) : SqliteTables → List (ContextEntry × DateTime) →
    Except ContextError (List MvccVersion × SqliteTables)
  | st, [] => .ok ([], st)
  | st, (entry, now)::rest => do
    let (version, tx) ← st.write libraries entry now
    let (versions, tx) ← writeAll libraries tx rest
    return (version::versions, tx)

def insertEntry (st : SqliteTables) (uri : String) (row : CurrentRow) : Except ContextError SqliteTables :=
  insertVersion { st with entries := st.entries.insert uri row } uri row.version row.entry

def timelessEntry (entry : ContextEntry) : ContextEntry := { entry with updatedAt := 0 }

def timeless (st : SqliteTables) : SqliteTables :=
  { st with
    entries := st.entries.map (fun _ row => { row with entry := timelessEntry row.entry })
    versions := st.versions.map (fun row => { row with entry := timelessEntry row.entry })
    outbox := st.outbox.map (fun row => { row with availableAt := 0, createdAt := 0 }) }

variable {st : SqliteTables} {entry : ContextEntry} {now : DateTime}

theorem timeless_insert (u : String) (row : CurrentRow) :
    ({ st with entries := st.entries.insert u row } : SqliteTables).timeless =
      { st.timeless with entries := st.timeless.entries.insert u { row with entry := timelessEntry row.entry } } := by
  have he : (st.entries.insert u row).map (fun _ row => { row with entry := timelessEntry row.entry }) =
      st.timeless.entries.insert u { row with entry := timelessEntry row.entry } := by
    apply ext_getElem?
    intro key
    rw [getElem?_map,getElem?_insert,getElem?_insert]
    split
    · rfl
    · rw [timeless,getElem?_map]
  rw [← he]
  rfl

theorem timeless_insertVersion (u : String) (ver : MvccVersion) (e : ContextEntry) :
    (st.insertVersion u ver e).map timeless = st.timeless.insertVersion u ver (timelessEntry e) := by
  unfold insertVersion
  have ha : st.timeless.versions.any (fun row => row.uri = u && row.version = ver) =
      st.versions.any (fun row => row.uri = u && row.version = ver) := by
    rw [timeless,List.any_map]
    rfl
  rw [ha]
  split
  · rfl
  · simp [Except.map,timeless]

theorem timeless_insertEntry (u : String) (row : CurrentRow) : (st.insertEntry u row).map timeless =
    st.timeless.insertEntry u { row with entry := timelessEntry row.entry } := by
  rw [insertEntry,timeless_insertVersion,timeless_insert]
  rfl

theorem timeless_enqueueAny (chg : Option IndexMutation) :
    (st.enqueueAny chg now).timeless = st.timeless.enqueueAny chg 0 := by
  cases chg with
  | none => rfl
  | some chg => simp [enqueueAny,enqueue,timeless]

theorem timeless_version (u : String) :
    ((st.timeless.entries[u]?).map (·.version+1)).getD 1 = ((st.entries[u]?).map (·.version+1)).getD 1 := by
  rw [timeless,getElem?_map,Option.map_map]
  rfl

theorem timeless_writeInTx :
    (st.writeInTx lib entry now).map (Prod.map id timeless) = st.timeless.writeInTx lib entry 0 := by
  unfold writeInTx
  rw [map_bind]
  congr 1
  funext u
  rw [map_bind]
  congr 1
  funext clean
  dsimp only
  rw [map_bind,timeless_version]
  generalize ((st.entries[clean.uri.canonical]?).map (·.version+1)).getD 1 = version
  have hi := @timeless_insertEntry st clean.uri.canonical
    { entry := { clean with updatedAt := now, mvccVersion := version }, version := version, custom := clean.metadata.custom }
  exact (bind_map _ timeless (fun tx => Except.ok (version, tx))).symm.trans
    (congrArg (fun inserted => inserted >>= fun tx => Except.ok (version, tx)) hi)

theorem timeless_write : (st.write lib entry now).map (Prod.map id timeless) = st.timeless.write lib entry 0 := by
  unfold write
  rw [map_bind,← timeless_writeInTx,bind_map]
  congr 1
  funext out
  dsimp only
  rw [map_bind]
  congr 1
  funext chg
  show Except.ok (out.1, (out.2.enqueueAny chg now).timeless) = _
  rw [timeless_enqueueAny]
  rfl

theorem timeless_writeAll (st : SqliteTables) (stamped : List (ContextEntry × DateTime)) :
    (st.writeAll lib stamped).map (Prod.map id timeless) =
      st.timeless.writeAll lib (stamped.map (fun write => (write.1, 0))) := by
  induction stamped generalizing st with
  | nil => rfl
  | cons write rest ih =>
    rw [writeAll,map_cons,writeAll,map_bind,← timeless_write,bind_map]
    congr 1
    funext out
    dsimp only
    rw [map_bind,Prod.map_snd,← ih,bind_map]
    rfl

theorem writeAll_append (st : SqliteTables) (stamped later : List (ContextEntry × DateTime)) :
    st.writeAll lib (stamped++later) = (do
      let written ← st.writeAll lib stamped
      let after ← written.2.writeAll lib later
      return (written.1++after.1, after.2)) := by
  induction stamped generalizing st with
  | nil =>
    show st.writeAll lib later = (st.writeAll lib later >>= fun after => Except.ok ([]++after.1, after.2))
    cases st.writeAll lib later <;> rfl
  | cons write stamped ih =>
    rw [List.cons_append,writeAll,writeAll,bind_assoc]
    congr 1
    funext out
    dsimp only
    rw [ih,bind_assoc,bind_assoc]
    congr 1
    funext written
    rw [bind_assoc]
    rfl

end Timeless

section Rows

variable {libraries lib : StoreLibraries} {st tx : SqliteTables} {now : DateTime}

theorem upsertMutation_congr {entry other : ContextEntry} (hu : other.uri = entry.uri)
    (ht : other.metadata.contentType = entry.metadata.contentType)
    (hc : ∀ key, key ≠ "security_redactions" → other.metadata.custom.get? key = entry.metadata.custom.get? key)
    (version : MvccVersion) : upsertMutation lib other version = upsertMutation lib entry version := by
  have ho : collectionFromEntry other = collectionFromEntry entry := by
    rw [collectionFromEntry,collectionFromEntry,hc _ (by decide)]
  have hp : pointFromEntry lib { other with mvccVersion := version } =
      pointFromEntry lib { entry with mvccVersion := version } := by
    unfold pointFromEntry
    dsimp only
    rw [show collectionFromEntry { other with mvccVersion := version } =
      collectionFromEntry { entry with mvccVersion := version } from
      ho,hu,ht,hc "embedding_vector" (by decide),hc "embedding_model_id" (by decide),
      hc "embedding_version" (by decide)]
  unfold upsertMutation
  rw [ho,hp]

variable {version : MvccVersion} {row : PreparedBatchRow} {chunk : List ContextEntry} {versions : List MvccVersion}

theorem upsertMutation_sanitized {e clean stored : ContextEntry} (h : Sanitized e clean)
    (hs : stored = { clean with updatedAt := now, mvccVersion := version }) :
    upsertMutation lib stored version = upsertMutation lib e version := by
  refine upsertMutation_congr ?_ ?_ (fun key hk => ?_) version
  · rw [hs,h.frame]
  · rw [hs,h.frame]
  · rw [hs]
    exact h.custom key hk

/-- The row of `context_entries` that a single write makes of a row. -/
def writtenRow (row : PreparedBatchRow) : CurrentRow := ⟨row.entry, row.version, row.entry.metadata.custom⟩

def storeRow (now : DateTime) (st : SqliteTables) (row : PreparedBatchRow) : Except ContextError SqliteTables :=
  (st.insertEntry row.uri (writtenRow row)).map (fun tx => tx.enqueueAny row.mutation now)

theorem write_iff {input : ContextEntry} : st.write lib input now = .ok (version, tx) ↔
    ∃ row, Prepared lib now input version row ∧ version = st.currentVersion row.uri + 1 ∧
    storeRow now st row = .ok tx := by
  have hn : ∀ u, ((st.entries[u]?).map (·.version+1)).getD 1 = st.currentVersion u + 1 := by
    intro u
    rw [currentVersion]
    cases st.entries[u]? <;> rfl
  constructor
  · intro h
    obtain ⟨inner,chg,hi,hm,rfl⟩ := write_ok h
    unfold writeInTx at hi
    obtain ⟨⟨⟩,ha,hi⟩ := bind_eq_ok.mp hi
    obtain ⟨clean,hc,hi⟩ := bind_eq_ok.mp hi
    obtain ⟨inserted,hin,hi⟩ := bind_eq_ok.mp hi
    obtain ⟨rfl,rfl⟩ := Prod.mk.inj (Except.ok.inj hi)
    have hs := sanitized_of_ok hc
    refine ⟨⟨clean.uri.canonical,_,{ clean with updatedAt := now, mvccVersion := _ },true,chg⟩,
      ⟨ha,⟨clean,hc,rfl⟩,by rw [hs.frame],rfl,?_⟩,hn _,map_eq_ok.mpr ⟨_,hin,rfl⟩⟩
    exact (upsertMutation_sanitized hs rfl).trans hm
  · rintro ⟨row,hr,hv,ht⟩
    obtain ⟨inner,hi,rfl⟩ := map_eq_ok.mp ht
    obtain ⟨clean,hc,he⟩ := hr.redacted
    have hs := sanitized_of_ok hc
    have hu : clean.uri.canonical = row.uri := by rw [hs.frame,hr.uri]
    have hw : st.writeInTx lib input now = .ok (version, inner) := by
      unfold writeInTx
      refine bind_eq_ok.mpr ⟨(),hr.valid,bind_eq_ok.mpr ⟨clean,hc,bind_eq_ok.mpr ⟨inner,?_,?_⟩⟩⟩
      · rw [hu,hn,← hv]
        rw [insertEntry,writtenRow,he,hr.version_eq] at hi
        exact hi
      · rw [hu,hn,← hv]
        rfl
    have hm : upsertMutation lib input version = .ok row.mutation := by
      rw [← hr.mutation,upsertMutation_sanitized hs he]
    unfold write
    exact bind_eq_ok.mpr ⟨_,hw,bind_eq_ok.mpr ⟨_,hm,rfl⟩⟩

theorem currentVersion_storeRow (h : storeRow now st row = .ok tx) (uri : String) :
    tx.currentVersion uri = if row.uri = uri then row.version else st.currentVersion uri := by
  obtain ⟨inner,hi,rfl⟩ := map_eq_ok.mp h
  obtain ⟨-,rfl⟩ := insertVersion_ok hi
  rw [currentVersion,(enqueueAny_frame _ _).1,getElem?_insert]
  by_cases hu : row.uri = uri
  · simp [hu,writtenRow]
  · simp [hu,currentVersion]

theorem writeAll_iff_prepared {next : Std.ExtTreeMap String MvccVersion}
    (hn : ∀ entry ∈ chunk, (next[entry.uri.canonical]?).getD 0 = st.currentVersion entry.uri.canonical) :
    st.writeAll lib (chunk.map (fun entry => (entry, now))) = .ok (versions, tx) ↔
    ∃ rows, prepareBatchChunk lib now next chunk = .ok rows ∧ versions = rows.map (·.version) ∧
      rows.foldlM (storeRow now) st = .ok tx := by
  induction chunk generalizing st next versions with
  | nil =>
    constructor
    · intro h
      obtain ⟨rfl,rfl⟩ := Prod.mk.inj (Except.ok.inj h)
      exact ⟨[],rfl,rfl,rfl⟩
    · rintro ⟨rows,hw,rfl,hs⟩
      obtain rfl := Except.ok.inj hw
      rw [← Except.ok.inj hs]
      rfl
  | cons input rest ih =>
    have hl : ∀ {row : PreparedBatchRow} {first : SqliteTables}, storeRow now st row = .ok first →
        ∀ entry ∈ rest, ((next.insert row.uri row.version)[entry.uri.canonical]?).getD 0 =
          first.currentVersion entry.uri.canonical := by
      intro row first hf entry ht
      rw [currentVersion_storeRow hf,getElem?_insert]
      by_cases hu : row.uri = entry.uri.canonical
      · simp [hu]
      · simpa [hu] using hn entry (List.mem_cons_of_mem _ ht)
    constructor
    · intro h
      obtain ⟨⟨version,first⟩,hi,h⟩ := bind_eq_ok.mp h
      obtain ⟨⟨versions',last⟩,he,h⟩ := bind_eq_ok.mp h
      obtain ⟨rfl,rfl⟩ := Prod.mk.inj (Except.ok.inj h)
      obtain ⟨row,hr,hv,hf⟩ := write_iff.mp hi
      obtain ⟨rows,hw,rfl,hs⟩ := (ih (hl hf)).mp he
      refine ⟨{ row with isCurrent := rest.all (fun later => later.uri.canonical ≠ row.uri) }::rows,
        prepareBatchChunk_cons.mpr ⟨_,rows,rfl,?_,rfl,hw⟩,by rw [map_cons,hr.version_eq],?_⟩
      · have ho := hn input mem_cons_self
        rw [← hr.uri] at ho
        dsimp only
        rw [ho,← hv]
        exact ⟨hr.valid,hr.redacted,hr.uri,hr.version_eq,hr.mutation⟩
      · rw [foldlM_cons]
        exact bind_eq_ok.mpr ⟨first,hf,hs⟩
    · rintro ⟨rows,hw,rfl,hs⟩
      obtain ⟨row,later,rfl,hr,-,hp⟩ := prepareBatchChunk_cons.mp hw
      rw [foldlM_cons] at hs
      obtain ⟨first,hf,hs⟩ := bind_eq_ok.mp hs
      have ho := hn input mem_cons_self
      rw [← hr.uri] at ho
      rw [ho] at hr
      have hi : st.write lib input now = .ok (st.currentVersion row.uri+1, first) := write_iff.mpr ⟨row,hr,rfl,hf⟩
      have he := (ih (hl hf)).mpr ⟨later,hp,rfl,hs⟩
      rw [map_cons,writeAll]
      refine bind_eq_ok.mpr ⟨_,hi,bind_eq_ok.mpr ⟨_,he,?_⟩⟩
      rw [map_cons,hr.version_eq]
      rfl

def Free : List VersionRow → List PreparedBatchRow → Prop
  | _, [] => True
  | versions, row::rows =>
    (∀ old ∈ versions, ¬ (old.uri = row.uri ∧ old.version = row.version)) ∧ Free (versions ++ [row.versionRow]) rows

theorem insertVersion_iff {row : PreparedBatchRow} : st.insertVersion row.uri row.version row.entry = .ok tx ↔
    (∀ old ∈ st.versions, ¬ (old.uri = row.uri ∧ old.version = row.version)) ∧
      tx = { st with versions := st.versions++[row.versionRow] } := by
  constructor
  · intro h
    obtain ⟨hf,ht⟩ := insertVersion_ok h
    exact ⟨fun old ho hs => hf old ho hs.1 hs.2,ht⟩
  · rintro ⟨hf,rfl⟩
    unfold insertVersion
    rw [if_neg]
    · rfl
    · intro ha
      obtain ⟨old,ho,hs⟩ := List.any_eq_true.mp ha
      exact hf old ho (by simpa using hs)

theorem insertVersions_iff {rows : List PreparedBatchRow} :
    rows.foldlM (fun tx row => tx.insertVersion row.uri row.version row.entry) st = .ok tx ↔
      Free st.versions rows ∧ tx = { st with versions := st.versions++rows.map PreparedBatchRow.versionRow } := by
  induction rows generalizing st with
  | nil =>
    constructor
    · intro h
      exact ⟨trivial,by rw [← Except.ok.inj h]; simp⟩
    · rintro ⟨-,rfl⟩
      simp [pure,Except.pure]
  | cons row rows ih =>
    rw [foldlM_cons]
    constructor
    · intro h
      obtain ⟨next,hn,h⟩ := bind_eq_ok.mp h
      obtain ⟨hf,rfl⟩ := insertVersion_iff.mp hn
      obtain ⟨hr,rfl⟩ := ih.mp h
      exact ⟨⟨hf,hr⟩,by simp⟩
    · rintro ⟨⟨hf,hr⟩,rfl⟩
      exact bind_eq_ok.mpr ⟨_,insertVersion_iff.mpr ⟨hf,rfl⟩,ih.mpr ⟨hr,by simp⟩⟩

def withRows (st : SqliteTables) (entries : Std.ExtTreeMap String CurrentRow) (versions : List VersionRow) : SqliteTables :=
  ⟨entries, versions, st.outbox, st.relations, st.revisions⟩

/-- `write batch outbox`, of the rows that have a mutation. -/
def enqueueAll (now : DateTime) (rows : List PreparedBatchRow) (st : SqliteTables) : SqliteTables :=
  rows.foldl (fun tx row => tx.enqueueAny row.mutation now) st

theorem enqueueAll_withRows (rows : List PreparedBatchRow) (st : SqliteTables) (es : Std.ExtTreeMap String CurrentRow)
    (versions : List VersionRow) :
    enqueueAll now rows (st.withRows es versions) = (enqueueAll now rows st).withRows es versions := by
  unfold enqueueAll
  induction rows generalizing st with
  | nil => rfl
  | cons row rows ih =>
    rw [List.foldl_cons,List.foldl_cons,← ih]
    cases row.mutation <;> rfl

theorem storeRow_iff : storeRow now st row = .ok tx ↔
    (∀ old ∈ st.versions, ¬ (old.uri = row.uri ∧ old.version = row.version)) ∧
      tx = (st.enqueueAny row.mutation now).withRows (st.entries.insert row.uri (writtenRow row))
      (st.versions++[row.versionRow]) := by
  have hi := @insertVersion_iff { st with entries := st.entries.insert row.uri (writtenRow row) }
  constructor
  · intro h
    obtain ⟨inner,hn,rfl⟩ := map_eq_ok.mp h
    obtain ⟨hf,rfl⟩ := hi.mp hn
    exact ⟨hf,by cases row.mutation <;> rfl⟩
  · rintro ⟨hf,rfl⟩
    exact map_eq_ok.mpr ⟨_,hi.mpr ⟨hf,rfl⟩,by cases row.mutation <;> rfl⟩

theorem storeRows_iff {rows : List PreparedBatchRow} : rows.foldlM (storeRow now) st = .ok tx ↔
    Free st.versions rows ∧ tx = (enqueueAll now rows st).withRows
      (rows.foldl (fun entries row => entries.insert row.uri (writtenRow row)) st.entries)
      (st.versions++rows.map PreparedBatchRow.versionRow) := by
  induction rows generalizing st with
  | nil =>
    constructor
    · intro h
      rw [← Except.ok.inj h]
      exact ⟨trivial,by simp [enqueueAll,withRows]⟩
    · rintro ⟨-,rfl⟩
      simp [pure,Except.pure,enqueueAll,withRows]
  | cons row rows ih =>
    -- the first row is stored before the others are queued
    have hl : (enqueueAll now rows
        ((st.enqueueAny row.mutation now).withRows (st.entries.insert row.uri (writtenRow row))
          (st.versions++[row.versionRow]))).withRows
        (rows.foldl (fun entries row => entries.insert row.uri (writtenRow row))
          (st.entries.insert row.uri (writtenRow row)))
        (st.versions++[row.versionRow]++rows.map PreparedBatchRow.versionRow) =
      (enqueueAll now (row::rows) st).withRows
        ((row::rows).foldl (fun entries row => entries.insert row.uri (writtenRow row)) st.entries)
        (st.versions++(row::rows).map PreparedBatchRow.versionRow) := by
      rw [enqueueAll_withRows,append_assoc]
      rfl
    rw [foldlM_cons]
    constructor
    · intro h
      obtain ⟨next,hn,h⟩ := bind_eq_ok.mp h
      obtain ⟨hf,rfl⟩ := storeRow_iff.mp hn
      obtain ⟨hr,rfl⟩ := ih.mp h
      exact ⟨⟨hf,hr⟩,hl⟩
    · rintro ⟨⟨hf,hr⟩,rfl⟩
      exact bind_eq_ok.mpr ⟨_,storeRow_iff.mpr ⟨hf,rfl⟩,ih.mpr ⟨hr,hl.symm⟩⟩

theorem writeChunk_iff :
    st.writeChunk lib now chunk = .ok (versions, tx) ↔ chunk.length ≤ lib.variableLimit ∧
      ∃ rows entries, prepareBatchChunk lib now (st.baseVersions chunk) chunk = .ok rows ∧
      versions = rows.map (·.version) ∧
        rows.foldlM (insertCurrent lib) st.entries = .ok entries ∧ Free st.versions rows ∧
        tx = (enqueueAll now rows st).withRows entries (st.versions++rows.map PreparedBatchRow.versionRow) := by
  constructor
  · intro h
    unfold writeChunk at h
    obtain ⟨base,hb,h⟩ := bind_eq_ok.mp h
    obtain ⟨rows,hr,h⟩ := bind_eq_ok.mp h
    obtain ⟨entries,he,h⟩ := bind_eq_ok.mp h
    obtain ⟨inserted,hi,h⟩ := bind_eq_ok.mp h
    obtain ⟨rfl,rfl⟩ := Prod.mk.inj (Except.ok.inj h)
    obtain ⟨hf,rfl⟩ := insertVersions_iff.mp hi
    obtain ⟨ht,rfl⟩ := readBatchVersions_ok hb
    exact ⟨ht,rows,entries,hr,rfl,he,hf,enqueueAll_withRows rows st entries _⟩
  · rintro ⟨ht,rows,entries,hr,rfl,he,hf,rfl⟩
    have hb : st.readBatchVersions lib chunk = .ok (st.baseVersions chunk) := if_neg (Nat.not_lt.mpr ht)
    have hi := (@insertVersions_iff { st with entries := entries } _ rows).mpr ⟨hf,rfl⟩
    unfold writeChunk
    refine bind_eq_ok.mpr
      ⟨_,hb,bind_eq_ok.mpr ⟨rows,hr,bind_eq_ok.mpr ⟨entries,he,bind_eq_ok.mpr ⟨_,hi,?_⟩⟩⟩⟩
    rw [← enqueueAll_withRows]
    rfl

end Rows

section Last

variable {libraries lib : StoreLibraries} {now : DateTime}

def lastOf (uri : String) : List ContextEntry → Option ContextEntry
  | [] => none
  | entry::rest => (lastOf uri rest).or (if entry.uri.canonical = uri then some entry else none)

theorem lastOf_append (u : String) (es later : List ContextEntry) :
    lastOf u (es++later) = (lastOf u later).or (lastOf u es) := by
  induction es with
  | nil => simp [lastOf]
  | cons entry es ih => simp [lastOf,ih,Option.or_assoc]

theorem lastOf_eq_none {uri : String} {es : List ContextEntry} :
    lastOf uri es = none ↔ ∀ entry ∈ es, entry.uri.canonical ≠ uri := by
  induction es with
  | nil => simp [lastOf]
  | cons entry es ih => simp [lastOf,ih,and_comm]

theorem lastOf_flatten {u : String} {parts : List (List ContextEntry)} {entry : ContextEntry}
    (h : lastOf u parts.flatten = some entry) :
    ∃ part ∈ parts, lastOf u part = some entry := by
  induction parts with
  | nil => cases h
  | cons part parts ih =>
    rw [flatten_cons,lastOf_append,Option.or_eq_some_iff] at h
    rcases h with hl | ⟨-,hf⟩
    · obtain ⟨later,hm,ha⟩ := ih hl
      exact ⟨later,List.mem_cons_of_mem _ hm,ha⟩
    · exact ⟨part,mem_cons_self,hf⟩

def cleanCustom (entry : ContextEntry) : Json :=
  ((sanitizeEntryForWrite entry).toOption.map (·.metadata.custom)).getD entry.metadata.custom

theorem Prepared.custom {input : ContextEntry} {ver : MvccVersion} {row : PreparedBatchRow}
    (h : Prepared lib now input ver row) : row.entry.metadata.custom = cleanCustom input := by
  obtain ⟨clean,hc,he⟩ := h.redacted
  rw [he,cleanCustom,hc]
  rfl

def Storable (libraries : StoreLibraries) (entries : List ContextEntry) : Prop :=
  ∀ uri entry, lastOf uri entries = some entry → (batchCustom libraries (cleanCustom entry)).isOk = true

theorem insertCurrents_isOk {chunk : List ContextEntry} {next : Std.ExtTreeMap String MvccVersion}
    {rows : List PreparedBatchRow} (h : prepareBatchChunk lib now next chunk = .ok rows)
    (es : Std.ExtTreeMap String CurrentRow) :
    (∃ out, rows.foldlM (insertCurrent lib) es = .ok out) ↔ Storable lib chunk := by
  induction chunk generalizing next rows es with
  | nil =>
    obtain rfl := Except.ok.inj h
    exact iff_of_true ⟨es,rfl⟩ (fun u entry hl => by cases hl)
  | cons input rest ih =>
    obtain ⟨row,later,rfl,hr,hu,ha⟩ := prepareBatchChunk_cons.mp h
    have hl : row.isCurrent = true ↔ lastOf input.uri.canonical rest = none := by
      rw [hu,lastOf_eq_none,hr.uri]
      simp
    constructor
    · rintro ⟨out,ho⟩ u entry he
      rw [foldlM_cons] at ho
      obtain ⟨first,hf,ho⟩ := bind_eq_ok.mp ho
      rw [lastOf,Option.or_eq_some_iff] at he
      rcases he with hs | ⟨hn,hw⟩
      · exact (ih ha first).mp ⟨out,ho⟩ u entry hs
      · obtain ⟨rfl,rfl⟩ : input.uri.canonical = u ∧ input = entry := by simpa using hw
        rw [insertCurrent,if_pos (hl.mpr hn)] at hf
        obtain ⟨custom,hc,-⟩ := map_eq_ok.mp hf
        rw [← hr.custom,hc]
        rfl
    · intro ht
      have hs : Storable lib rest := by
        intro u entry he
        exact ht u entry (by rw [lastOf,he]; rfl)
      have hf : ∃ first, insertCurrent lib es row = .ok first := by
        unfold insertCurrent
        split
        · rename_i hw
          have hk := ht input.uri.canonical input (by rw [lastOf,hl.mp hw]; simp)
          rw [← hr.custom] at hk
          cases hc : batchCustom lib row.entry.metadata.custom with
          | error e => rw [hc] at hk; cases hk
          | ok custom => exact ⟨_,rfl⟩
        · exact ⟨es,rfl⟩
      obtain ⟨first,hf⟩ := hf
      obtain ⟨out,ho⟩ := (ih ha first).mpr hs
      exact ⟨out,by rw [foldlM_cons]; exact bind_eq_ok.mpr ⟨first,hf,ho⟩⟩

end Last

section Batches

variable {libraries lib : StoreLibraries} {st st' tx tx' : SqliteTables} {now : DateTime} {uris : List String}

def batched (libraries : StoreLibraries) (row : CurrentRow) : CurrentRow :=
  { row with custom := (batchCustom libraries row.custom).toOption.getD row.custom }

structure Alike (libraries : StoreLibraries) (uris : List String) (st st' : SqliteTables) : Prop where
  entries : ∀ uri, st.entries[uri]? = (st'.entries[uri]?).map (fun row => if uri ∈ uris then batched libraries row else row)
  versions : st.versions = st'.versions
  rest : st = st'.withRows st.entries st.versions

theorem Alike.refl (st : SqliteTables) : Alike lib [] st st := ⟨fun u => by simp,rfl,rfl⟩

theorem Alike.currentVersion (h : Alike lib uris st st') (uri : String) :
    st.currentVersion uri = st'.currentVersion uri := by
  rw [SqliteTables.currentVersion,SqliteTables.currentVersion,h.entries uri,Option.map_map]
  congr 2
  funext row
  dsimp only [Function.comp]
  split <;> rfl

theorem alike_insert {rows : List PreparedBatchRow} {es es' : Std.ExtTreeMap String CurrentRow}
    (h : ∀ u, es[u]? = (es'[u]?).map (fun row => if u ∈ uris then batched lib row else row))
    (u : String) :
    (rows.foldl (fun es row => es.insert row.uri (row.currentRow lib)) es)[u]? =
      ((rows.foldl (fun es row => es.insert row.uri (writtenRow row)) es')[u]?).map
        (fun row => if u ∈ uris++rows.map (·.uri) then batched lib row else row) := by
  induction rows generalizing uris es es' with
  | nil => simpa using h u
  | cons row rows ih =>
    have hn : ∀ u, (es.insert row.uri (row.currentRow lib))[u]? =
        ((es'.insert row.uri (writtenRow row))[u]?).map
          (fun r => if u ∈ uris++[row.uri] then batched lib r else r) := by
      intro u
      rw [getElem?_insert,getElem?_insert]
      by_cases hu : row.uri = u
      · subst hu
        simp [PreparedBatchRow.currentRow,writtenRow,batched]
      · simp [hu,h u,Ne.symm hu]
    have hr := ih hn
    rw [append_assoc] at hr
    exact hr

theorem Alike.enqueueAll (h : Alike lib uris st st') (rows : List PreparedBatchRow)
    (es : Std.ExtTreeMap String CurrentRow) (versions : List VersionRow) :
    (SqliteTables.enqueueAll now rows st).withRows es versions =
      (SqliteTables.enqueueAll now rows st').withRows es versions := by
  rw [h.rest,enqueueAll_withRows]
  rfl

theorem Alike.chunk (h : Alike lib uris st st') {chunk : List ContextEntry} {vs : List MvccVersion}
    (ho : st.writeChunk lib now chunk = .ok (vs, tx)) :
    ∃ tx', st'.writeAll lib (chunk.map (fun entry => (entry, now))) = .ok (vs, tx') ∧
      Alike lib (uris++chunk.map (·.uri.canonical)) tx tx' ∧ chunk.length ≤ lib.variableLimit ∧
      Storable lib chunk := by
  obtain ⟨hf,rows,entries,hr,rfl,he,hfr,rfl⟩ := writeChunk_iff.mp ho
  have hn : ∀ entry ∈ chunk, ((st.baseVersions chunk)[entry.uri.canonical]?).getD 0 =
      st'.currentVersion entry.uri.canonical :=
    fun entry ht => (st.baseVersions_getD entry ht).trans (h.currentVersion _)
  obtain ⟨hu,hl⟩ := prepared_rows hr
  have hs := (@storeRows_iff st' _ now rows).mpr ⟨h.versions ▸ hfr,rfl⟩
  refine ⟨_,(writeAll_iff_prepared hn).mpr ⟨rows,hr,rfl,hs⟩,⟨fun u => ?_,?_,?_⟩,hf,
    (insertCurrents_isOk hr st.entries).mp ⟨entries,he⟩⟩
  · rw [← hu]
    show entries[u]? = _
    rw [foldl_insertCurrent hl (fun _ _ => rfl) he]
    exact alike_insert h.entries u
  · show st.versions ++ _ = st'.versions ++ _
    rw [h.versions]
  · rw [h.enqueueAll]
    rfl

variable {versions : List MvccVersion} {parts : List (List ContextEntry)} {stamped : List (ContextEntry × DateTime)}

theorem Alike.writeChunk_isOk (h : Alike lib uris st st') {chunk : List ContextEntry}
    (ho : st'.writeAll lib (chunk.map (fun entry => (entry, now))) = .ok (versions, tx'))
    (hf : chunk.length ≤ lib.variableLimit) (hs : Storable lib chunk) :
    ∃ tx, st.writeChunk lib now chunk = .ok (versions, tx) := by
  have hn : ∀ entry ∈ chunk, ((st.baseVersions chunk)[entry.uri.canonical]?).getD 0 =
      st'.currentVersion entry.uri.canonical :=
    fun entry ht => (st.baseVersions_getD entry ht).trans (h.currentVersion _)
  obtain ⟨rows,hr,rfl,hst⟩ := (writeAll_iff_prepared hn).mp ho
  obtain ⟨he,-⟩ := storeRows_iff.mp hst
  obtain ⟨entries,hen⟩ := (insertCurrents_isOk hr st.entries).mpr hs
  exact ⟨_,writeChunk_iff.mpr ⟨hf,rows,entries,hr,rfl,hen,h.versions ▸ he,rfl⟩⟩

/-- The loop of `batch_write` over the chunks. -/
def writeChunks (libraries : StoreLibraries) (now : DateTime) (parts : List (List ContextEntry))
    (written : List MvccVersion × SqliteTables) : Except ContextError (List MvccVersion × SqliteTables) :=
  parts.foldlM (fun written chunk => do
    let (versions, tx) ← writeChunk libraries written.2 now chunk
    return (written.1 ++ versions, tx)) written

theorem writeChunks_cons {part : List ContextEntry} {before vs : List MvccVersion} :
    writeChunks lib now (part::parts) (before, st) = .ok (vs, tx) ↔
      ∃ own first, st.writeChunk lib now part = .ok (own, first) ∧
        writeChunks lib now parts (before++own, first) = .ok (vs, tx) := by
  unfold writeChunks
  rw [foldlM_cons]
  constructor
  · intro h
    obtain ⟨next,hn,h⟩ := bind_eq_ok.mp h
    obtain ⟨⟨own,first⟩,hf,hn⟩ := bind_eq_ok.mp hn
    obtain rfl := Except.ok.inj hn
    exact ⟨own,first,hf,h⟩
  · rintro ⟨own,first,hf,h⟩
    exact bind_eq_ok.mpr ⟨_,bind_eq_ok.mpr ⟨_,hf,rfl⟩,h⟩

theorem Alike.writeChunks (h : Alike lib uris st st') {before vs : List MvccVersion}
    (hk : SqliteTables.writeChunks lib now parts (before, st) = .ok (vs, tx)) :
    ∃ own tx', vs = before ++ own ∧
    st'.writeAll lib (parts.flatten.map (fun entry => (entry, now))) = .ok (own, tx') ∧
      Alike lib (uris++parts.flatten.map (·.uri.canonical)) tx tx' ∧
      ∀ part ∈ parts, part.length ≤ lib.variableLimit ∧ Storable lib part := by
  induction parts generalizing st st' uris before with
  | nil =>
    obtain ⟨rfl,rfl⟩ := Prod.mk.inj (Except.ok.inj hk)
    exact ⟨[],st',by simp,rfl,by simpa using h,by simp⟩
  | cons part parts ih =>
    obtain ⟨own,first,hf,hr⟩ := writeChunks_cons.mp hk
    obtain ⟨first',hw,ha,hi,hs⟩ := h.chunk hf
    obtain ⟨later,tx',rfl,hl,hla,hp⟩ := ih ha hr
    refine ⟨own++later,tx',append_assoc ..,?_,?_,?_⟩
    · rw [flatten_cons,map_append,writeAll_append,hw]
      exact bind_eq_ok.mpr ⟨_,rfl,bind_eq_ok.mpr ⟨_,hl,rfl⟩⟩
    · rw [flatten_cons,map_append,← append_assoc]
      exact hla
    · intro other ho
      rcases List.mem_cons.mp ho with rfl | ho
      · exact ⟨hi,hs⟩
      · exact hp other ho

theorem Alike.writeChunks_isOk (h : Alike lib uris st st') (before : List MvccVersion) {own : List MvccVersion}
    (ho : st'.writeAll lib (parts.flatten.map (fun entry => (entry, now))) = .ok (own, tx'))
    (hp : ∀ part ∈ parts, part.length ≤ lib.variableLimit ∧ Storable lib part) :
    ∃ tx, SqliteTables.writeChunks lib now parts (before, st) = .ok (before++own, tx) := by
  induction parts generalizing st st' uris before own with
  | nil =>
    obtain ⟨rfl,rfl⟩ := Prod.mk.inj (Except.ok.inj ho)
    exact ⟨st,by rw [List.append_nil]; rfl⟩
  | cons part parts ih =>
    rw [flatten_cons,map_append,writeAll_append] at ho
    obtain ⟨⟨first,mid'⟩,hf,ho⟩ := bind_eq_ok.mp ho
    obtain ⟨⟨later,last'⟩,hl,ho⟩ := bind_eq_ok.mp ho
    obtain ⟨rfl,rfl⟩ := Prod.mk.inj (Except.ok.inj ho)
    obtain ⟨hi,hs⟩ := hp part mem_cons_self
    obtain ⟨mid,hm⟩ := h.writeChunk_isOk hf hi hs
    obtain ⟨other,hh,ha,-,-⟩ := h.chunk hm
    obtain ⟨-,rfl⟩ := Prod.mk.inj (Except.ok.inj (hh.symm.trans hf))
    obtain ⟨tx,ht⟩ := ih ha (before++first) hl (fun part hr => hp part (List.mem_cons_of_mem _ hr))
    rw [append_assoc] at ht
    exact ⟨tx,writeChunks_cons.mpr ⟨first,mid,hm,ht⟩⟩

theorem entries_write {input : ContextEntry} {ver : MvccVersion}
    (h : st.write lib input now = .ok (ver, tx)) :
    ∃ row : CurrentRow, row.custom = cleanCustom input ∧ tx.entries = st.entries.insert input.uri.canonical row := by
  obtain ⟨row,hr,-,hs⟩ := write_iff.mp h
  obtain ⟨-,rfl⟩ := storeRow_iff.mp hs
  exact ⟨writtenRow row,hr.custom,by rw [← hr.uri]; rfl⟩

theorem writeAll_cons {write : ContextEntry × DateTime} {rest : List (ContextEntry × DateTime)}
    (h : st.writeAll lib (write::rest) = .ok (versions, tx)) : ∃ version first later,
      st.write lib write.1 write.2 = .ok (version, first) ∧ first.writeAll lib rest = .ok (later, tx) := by
  obtain ⟨⟨version,first⟩,hw,h⟩ := bind_eq_ok.mp h
  obtain ⟨⟨later,last⟩,hr,h⟩ := bind_eq_ok.mp h
  obtain ⟨-,rfl⟩ := Prod.mk.inj (Except.ok.inj h)
  exact ⟨version,first,later,hw,hr⟩

theorem writeAll_other (h : st.writeAll lib stamped = .ok (versions, tx)) {uri : String}
    (hn : lastOf uri (stamped.map Prod.fst) = none) : tx.entries[uri]? = st.entries[uri]? := by
  induction stamped generalizing st versions with
  | nil =>
    obtain ⟨-,rfl⟩ := Prod.mk.inj (Except.ok.inj h)
    rfl
  | cons write rest ih =>
    obtain ⟨version,first,later,hw,hr⟩ := writeAll_cons h
    obtain ⟨row,-,he⟩ := entries_write hw
    rw [map_cons,lastOf,Option.or_eq_none_iff] at hn
    have ho : write.1.uri.canonical ≠ uri := by simpa using hn.2
    rw [ih hr hn.1,he,getElem?_insert]
    simp [ho]

theorem writeAll_last (h : st.writeAll lib stamped = .ok (versions, tx)) {u : String} {entry : ContextEntry}
    (hl : lastOf u (stamped.map Prod.fst) = some entry) :
    ∃ row, tx.entries[u]? = some row ∧ row.custom = cleanCustom entry := by
  induction stamped generalizing st versions with
  | nil => cases hl
  | cons write rest ih =>
    obtain ⟨version,first,later,hw,hr⟩ := writeAll_cons h
    rw [map_cons,lastOf,Option.or_eq_some_iff] at hl
    rcases hl with ha | ⟨hn,ho⟩
    · exact ih hr ha
    · obtain ⟨row,hc,he⟩ := entries_write hw
      obtain ⟨hu,rfl⟩ : write.1.uri.canonical = u ∧ write.1 = entry := by simpa using ho
      refine ⟨row,?_,hc⟩
      rw [writeAll_other hr hn,he,hu,Std.ExtTreeMap.getElem?_insert_self]

theorem Alike.timeless_eq_iff (h : Alike lib uris tx tx') : tx.timeless = tx'.timeless ↔
    ∀ u ∈ uris, ∀ row, tx'.entries[u]? = some row → batched lib row = row := by
  constructor
  · intro hq u hu row hr
    have he : (tx.timeless.entries)[u]? = (tx'.timeless.entries)[u]? := by rw [hq]
    simp only [timeless,getElem?_map,h.entries u,hr,hu,if_true,Option.map_some,Option.some.injEq] at he
    have hc := congrArg CurrentRow.custom he
    unfold batched
    rw [show (batchCustom lib row.custom).toOption.getD row.custom = row.custom from hc]
  · intro hk
    have he : tx.entries = tx'.entries := by
      apply ext_getElem?
      intro u
      rw [h.entries u]
      cases hr : tx'.entries[u]? with
      | none => rfl
      | some row =>
        rw [Option.map_some]
        split
        · rename_i hu
          rw [hk u hu row hr]
        · rfl
    rw [h.rest,he,h.versions]
    rfl

end Batches

section Results

variable (libraries lib : StoreLibraries) (config : BatchWriteConfig) (st : SqliteTables)

/-- A batch does what single writes of its entries do, each at its own time: it returns the same versions and leaves
the same tables, timestamps aside, and where an entry is refused it is refused. -/
structure BatchAgrees (stamped : List (ContextEntry × DateTime)) (now : DateTime) : Prop where
  chunked : ∀ parts, chunks libraries config (stamped.map Prod.fst) = .ok parts →
    parts.flatten = stamped.map Prod.fst ∧ ∀ part ∈ parts, part ≠ []
  written : ∀ versions tx, st.writeAll libraries stamped = .ok (versions, tx) →
    ∃ tx', st.batchWrite libraries config (stamped.map Prod.fst) now = .ok (versions, tx') ∧ tx'.timeless = tx.timeless
  refused : ∀ e, st.writeAll libraries stamped = .error e →
    ∃ e', st.batchWrite libraries config (stamped.map Prod.fst) now = .error e'

structure BatchSafe (entries : List ContextEntry) : Prop where
  limits : 0 < config.maxRowsPerChunk ∧ 0 < config.maxBytesPerChunk
  parts : ∀ part ∈ chunksFrom libraries config entries.length entries,
    part.length ≤ libraries.variableLimit ∧ Storable libraries part
  kept : ∀ uri entry, lastOf uri entries = some entry → batchCustom libraries (cleanCustom entry) = .ok (cleanCustom entry)

variable {libraries lib config st} {stamped : List (ContextEntry × DateTime)} {now : DateTime} {versions : List MvccVersion}
  {tx tx' : SqliteTables}

theorem writeAll_retimed (st : SqliteTables) (stamped : List (ContextEntry × DateTime)) (now : DateTime) :
    (st.writeAll lib ((stamped.map Prod.fst).map (fun entry => (entry, now)))).map (Prod.map id timeless) =
      (st.writeAll lib stamped).map (Prod.map id timeless) := by
  rw [timeless_writeAll,timeless_writeAll]
  congr 1
  simp [List.map_map,Function.comp_def]

variable {entries : List ContextEntry}

theorem batchWrite_of_ne_nil (hn : entries ≠ []) : st.batchWrite lib config entries now =
    chunks lib config entries >>= fun parts => writeChunks lib now parts ([], st) := by
  unfold batchWrite
  rw [if_neg (by simpa using hn)]
  rfl

theorem batchWrite_alike (hn : entries ≠ []) (h : st.batchWrite lib config entries now = .ok (versions, tx)) :
    ∃ tx', st.writeAll lib (entries.map (fun entry => (entry, now))) = .ok (versions, tx') ∧
      Alike lib (entries.map (·.uri.canonical)) tx tx' ∧ (0 < config.maxRowsPerChunk ∧ 0 < config.maxBytesPerChunk) ∧
      ∀ part ∈ chunksFrom lib config entries.length entries, part.length ≤ lib.variableLimit ∧
      Storable lib part := by
  rw [batchWrite_of_ne_nil hn] at h
  obtain ⟨parts,hp,h⟩ := bind_eq_ok.mp h
  have hf := (chunks_parts hp).1
  unfold chunks at hp
  split at hp
  · cases hp
  · rename_i hi
    obtain rfl := Except.ok.inj hp
    obtain ⟨own,tx',rfl,hw,ha,hl⟩ := (Alike.refl st).writeChunks h
    rw [hf] at hw ha
    exact ⟨tx',hw,ha,by omega,hl⟩

theorem batchWrite_isOk (hn : entries ≠ []) (hs : BatchSafe lib config entries)
    (h : st.writeAll lib (entries.map (fun entry => (entry, now))) = .ok (versions, tx')) :
    ∃ tx, st.batchWrite lib config entries now = .ok (versions, tx) := by
  have hp : chunks lib config entries = .ok (chunksFrom lib config entries.length entries) :=
    if_neg (by have := hs.limits; omega)
  have hf := (chunks_parts hp).1
  rw [batchWrite_of_ne_nil hn,hp]
  rw [← hf] at h
  obtain ⟨tx,ht⟩ := (Alike.refl st).writeChunks_isOk [] h hs.parts
  exact ⟨tx,ht⟩

theorem batched_iff_kept
    (hw : st.writeAll lib (entries.map (fun entry => (entry, now))) = .ok (versions, tx))
    (hst : ∀ u entry, lastOf u entries = some entry → (batchCustom lib (cleanCustom entry)).isOk = true) :
    (∀ u ∈ entries.map (·.uri.canonical), ∀ row, tx.entries[u]? = some row → batched lib row = row) ↔
      ∀ u entry, lastOf u entries = some entry →
      batchCustom lib (cleanCustom entry) = .ok (cleanCustom entry) := by
  have hn : (entries.map (fun entry => (entry, now))).map Prod.fst = entries := by
    simp [List.map_map,Function.comp_def]
  have hr : ∀ u entry, lastOf u entries = some entry → ∃ row, tx.entries[u]? = some row ∧
      row.custom = cleanCustom entry := by
    intro u entry hl
    rw [← hn] at hl
    exact writeAll_last hw hl
  constructor
  · intro hk u entry hl
    obtain ⟨row,hr,hc⟩ := hr u entry hl
    have hu : u ∈ entries.map (·.uri.canonical) := by
      by_contra hno
      have hl' : lastOf u entries = none := lastOf_eq_none.mpr (fun entry he hq => hno (hq ▸ List.mem_map_of_mem he))
      rw [hl'] at hl
      cases hl
    have hs := congrArg CurrentRow.custom (hk u hu row hr)
    have ho := hst u entry hl
    rw [← hc] at ho ⊢
    cases ht : batchCustom lib row.custom with
    | error e =>
      rw [ht] at ho
      cases ho
    | ok custom =>
      unfold batched at hs
      rw [ht] at hs
      exact congrArg Except.ok hs
  · intro hk u hu row ha
    cases hl : lastOf u entries with
    | none =>
      obtain ⟨entry,he,hq⟩ := List.mem_map.mp hu
      exact absurd hq (lastOf_eq_none.mp hl entry he)
    | some entry =>
      obtain ⟨row',hr',hc⟩ := hr u entry hl
      obtain rfl := Option.some.inj (ha.symm.trans hr')
      unfold batched
      rw [hc,hk u entry hl,← hc]
      rfl

/-- A batch agrees with single writes exactly if they fail, or it is empty, or it is safe. -/
theorem batchWrite_agrees_iff (libraries : StoreLibraries) (config : BatchWriteConfig) (st : SqliteTables)
    (stamped : List (ContextEntry × DateTime)) (now : DateTime) : BatchAgrees libraries config st stamped now ↔
    stamped = [] ∨ (∃ e, st.writeAll libraries stamped = .error e) ∨ BatchSafe libraries config (stamped.map Prod.fst) := by
  have hr := @writeAll_retimed libraries st stamped now
  have hc : ∀ parts, chunks libraries config (stamped.map Prod.fst) = .ok parts →
      parts.flatten = stamped.map Prod.fst ∧ ∀ part ∈ parts, part ≠ [] := by
    intro parts hp
    obtain ⟨hf, hall⟩ := chunks_parts hp
    exact ⟨hf, fun part ht => (hall part ht).1⟩
  cases hs : st.writeAll libraries stamped with
  | error e =>
    refine iff_of_true ⟨hc, fun versions tx ho => ?_, fun e' _ => ?_⟩ (.inr (.inl ⟨e, rfl⟩))
    · rw [hs] at ho
      cases ho
    · have hne : stamped.map Prod.fst ≠ [] := by
        intro hn
        rw [List.map_eq_nil_iff.mp hn] at hs
        cases hs
      cases hb : st.batchWrite libraries config (stamped.map Prod.fst) now with
      | error e'' => exact ⟨e'', rfl⟩
      | ok out =>
        obtain ⟨tx', hw, -⟩ := batchWrite_alike hne hb
        rw [hw, hs] at hr
        cases hr
  | ok out =>
    obtain ⟨versions, tx⟩ := out
    rw [hs] at hr
    obtain ⟨⟨versions', single⟩, hi, hq⟩ := map_eq_ok.mp hr
    obtain ⟨rfl, hm⟩ := Prod.mk.inj hq
    by_cases hn : stamped = []
    · subst hn
      obtain ⟨rfl, rfl⟩ := Prod.mk.inj (Except.ok.inj hs)
      refine iff_of_true ⟨hc, fun versions tx ho => ⟨tx, ?_, rfl⟩, fun e he => ?_⟩ (.inl rfl)
      · rw [hs] at ho
        exact ho
      · rw [hs] at he
        cases he
    · have hne : stamped.map Prod.fst ≠ [] := by simpa using hn
      have hst : (∀ part ∈ chunksFrom libraries config (stamped.map Prod.fst).length (stamped.map Prod.fst),
            part.length ≤ libraries.variableLimit ∧ Storable libraries part) → 0 < config.maxRowsPerChunk →
          ∀ uri entry, lastOf uri (stamped.map Prod.fst) = some entry →
            (batchCustom libraries (cleanCustom entry)).isOk = true := by
        intro hp hro uri entry hl
        have hf := (@chunksFrom_parts libraries config hro _ (stamped.map Prod.fst) (Nat.le_refl _)).1
        obtain ⟨part, ht, hl⟩ := lastOf_flatten (hf.symm ▸ hl)
        exact (hp part ht).2 uri entry hl
      constructor
      · intro h
        obtain ⟨tx', hb, hx'⟩ := h.written _ _ hs
        obtain ⟨single', hi', hal, hli, hp⟩ := batchWrite_alike hne hb
        obtain ⟨-, rfl⟩ := Prod.mk.inj (Except.ok.inj (hi'.symm.trans hi))
        have hk := hal.timeless_eq_iff.mp (hx'.trans hm.symm)
        exact .inr (.inr ⟨hli, hp, (batched_iff_kept hi (hst hp hli.1)).mp hk⟩)
      · rintro (h | ⟨e, he⟩ | ha)
        · exact absurd h hn
        · cases he
        · refine ⟨hc, fun versions' tx₁ ho => ?_, fun e he => ?_⟩
          · rw [hs] at ho
            obtain ⟨rfl, rfl⟩ := Prod.mk.inj (Except.ok.inj ho)
            obtain ⟨tx', hb⟩ := batchWrite_isOk hne ha hi
            obtain ⟨single', hi', hal, -⟩ := batchWrite_alike hne hb
            obtain ⟨-, rfl⟩ := Prod.mk.inj (Except.ok.inj (hi'.symm.trans hi))
            have hk := (batched_iff_kept hi (hst ha.parts ha.limits.1)).mpr ha.kept
            exact ⟨tx', hb, (hal.timeless_eq_iff.mpr hk).trans hm⟩
          · rw [hs] at he
            cases he

def plainLibraries : StoreLibraries := ⟨fun _ => none, fun _ => none, fun _ => 0, fun _ => none, id, 32766⟩

/-- An entry as it is made: its custom metadata is `null`. -/
def plainEntry : ContextEntry := .newText (.ofTenant "t") 1 "one" 0

/-- A single write stores the entry, and a batch of it fails on the column of the custom metadata. -/
theorem batchWrite_refuses_null : ((empty.writeAll plainLibraries [(plainEntry, 0)]).isOk = true ∧
      (empty.batchWrite plainLibraries .standard [plainEntry] 0).isOk = false) ∧
    ¬ BatchAgrees plainLibraries .standard empty [(plainEntry, 0)] 0 := by
  have hs : (empty.writeAll plainLibraries [(plainEntry, 0)]).isOk = true := by decide +kernel
  have hb : (empty.batchWrite plainLibraries .standard [plainEntry] 0).isOk = false := by decide +kernel
  refine ⟨⟨hs, hb⟩, fun h => ?_⟩
  cases hw : empty.writeAll plainLibraries [(plainEntry, 0)] with
  | error e =>
    rw [hw] at hs
    cases hs
  | ok out =>
    obtain ⟨tx, ht, -⟩ := h.written out.1 out.2 hw
    rw [show empty.batchWrite plainLibraries .standard [plainEntry] 0 = .ok (out.1, tx) from ht] at hb
    cases hb

end Results

end SqliteTables

end UwuContextDb.Content
