import UwuContextDb.Content.SqliteTables
import UwuContextDb.Core.RedactionFrame

/-! The version rows of the SQLite store: those of a URI number its writes. -/

namespace UwuContextDb.Content

open StateMachine
open WriteSecurity (sanitizeEntryForWrite redactedText sanitizeEntryForWrite_eq)
open Std.ExtTreeMap (getElem?_insert_self getElem?_insert getElem?_erase)

/-- The same entry up to its `updated_at` stamp. -/
def SameEntry (entry other : ContextEntry) : Prop := other = { entry with updatedAt := other.updatedAt }

theorem SameEntry.refl (entry : ContextEntry) : SameEntry entry entry := rfl

variable {entry other : ContextEntry}

theorem SameEntry.payload (h : SameEntry entry other) : other.payload = entry.payload := by
  unfold SameEntry at h
  rw [h]

theorem SameEntry.uri (h : SameEntry entry other) : other.uri = entry.uri := by
  unfold SameEntry at h
  rw [h]

theorem SameEntry.of_same {entry other other' : ContextEntry} (h : SameEntry entry other) (h' : SameEntry entry other') :
    SameEntry other other' := by
  unfold SameEntry at h h' ⊢
  rw [h,h']

def Redacted (entry : ContextEntry) : Prop := sanitizeEntryForWrite entry = .ok entry

/-- What `sanitize_entry_for_write` returns of an entry. -/
structure Sanitized (entry clean : ContextEntry) : Prop where
  payload : clean.payload = entry.payload.mapTexts redactedText
  frame : clean = { entry with payload := clean.payload, metadata := { entry.metadata with custom := clean.metadata.custom } }
  custom : ∀ key, key ≠ "security_redactions" → clean.metadata.custom.get? key = entry.metadata.custom.get? key

theorem sanitized_of_ok {entry clean : ContextEntry} (h : sanitizeEntryForWrite entry = .ok clean) :
    Sanitized entry clean := by
  rw [sanitizeEntryForWrite_eq] at h
  obtain rfl := Except.ok.inj h
  split
  · exact ⟨rfl,rfl,fun _ _ => rfl⟩
  · refine ⟨rfl,?_,fun key hk => ?_⟩
    · conv_lhs => rw [WriteSecurity.setCustomField_eq]
    · by_cases ho : entry.metadata.custom.isObject = true
      · exact WriteSecurity.setCustomField_get hk _ ho
      · unfold WriteSecurity.setCustomField
        cases hc : entry.metadata.custom with
        | obj fs =>
          rw [hc] at ho
          exact absurd rfl ho
        | _ => simp [Json.get?,List.lookup_cons,beq_eq_false_iff_ne.mpr hk]

theorem sanitizeEntryForWrite_isOk (entry : ContextEntry) : ∃ clean, sanitizeEntryForWrite entry = .ok clean :=
  ⟨_,sanitizeEntryForWrite_eq entry⟩

theorem Sanitized.redacted {entry clean other : ContextEntry} (h : Sanitized entry clean)
    (hp : other.payload = clean.payload) :
    Redacted other := by
  have hr := (WriteSecurity.redactSensitiveEntry_redacted (hp.trans h.payload)).2
  unfold Redacted sanitizeEntryForWrite
  rw [hr]
  rfl

theorem Redacted.of_payload (h : Redacted entry) (hp : other.payload = entry.payload) :
    Redacted other := (sanitized_of_ok h).redacted hp

namespace SqliteTables

variable {libraries lib : StoreLibraries} {cfg : BatchWriteConfig} {st tx : SqliteTables} {uri : String}

def currentVersion (st : SqliteTables) (uri : String) : MvccVersion := ((st.entries[uri]?).map (·.version)).getD 0

/-- The version rows of a URI are numbered from one on to the version of its current row, whose entry the last of
them has. -/
structure Historied (st : SqliteTables) (uri : String) : Prop where
  numbered : (st.versionsOf uri).map (·.version) = List.range' 1 (st.currentVersion uri)
  current : ∀ row, st.entries[uri]? = some row →
    ∃ snapshot, (st.versionsOf uri).getLast? = some snapshot ∧ snapshot.version = row.version ∧
      SameEntry snapshot.entry row.entry
  redacted : ∀ snapshot ∈ st.versionsOf uri, Redacted snapshot.entry

def History (st : SqliteTables) : Prop := ∀ uri, st.Historied uri

theorem history_empty : empty.History :=
  fun uri => ⟨by simp [versionsOf,currentVersion,empty],fun row h => by simp [empty] at h,fun _ h => by simp [versionsOf,empty] at h⟩

theorem mem_versionsOf {row : VersionRow} : row ∈ st.versionsOf uri ↔ row ∈ st.versions ∧ row.uri = uri := by
  simp [versionsOf]

theorem Historied.congr (h : st.Historied uri) (he : tx.entries[uri]? = st.entries[uri]?)
    (hv : tx.versionsOf uri = st.versionsOf uri) : tx.Historied uri := by
  refine ⟨?_,?_,?_⟩
  · rw [hv,h.numbered,currentVersion,currentVersion,he]
  · rw [hv,he]
    exact h.current
  · rw [hv]
    exact h.redacted

theorem Historied.versionsOf_nil (h : st.Historied uri) (ho : st.entries[uri]? = none) : st.versionsOf uri = [] := by
  have hn := h.numbered
  rw [currentVersion,ho] at hn
  exact List.map_eq_nil_iff.mp hn

theorem Historied.of_empty (hn : st.entries[uri]? = none) (hi : st.versionsOf uri = []) : st.Historied uri := by
  refine ⟨?_,?_,?_⟩
  · rw [hi,currentVersion,hn]
    rfl
  · rw [hn]
    exact fun row h => by cases h
  · rw [hi]
    exact fun _ h => by cases h

structure Inserted (st : SqliteTables) (uri : String) (version : MvccVersion) (entry : ContextEntry)
    (tx : SqliteTables) : Prop where
  next : version = st.currentVersion uri + 1
  redacted : Redacted entry
  entries : ∃ custom, tx.entries = st.entries.insert uri ⟨entry, version, custom⟩
  versions : tx.versions = st.versions ++ [⟨uri, version, entry⟩]

theorem Inserted.history {ver : MvccVersion} {entry : ContextEntry} (h : Inserted st uri ver entry tx)
    (hs : st.History) : tx.History := by
  intro other
  by_cases ho : uri = other
  · subst ho
    have hv : tx.versionsOf uri = st.versionsOf uri ++ [⟨uri,ver,entry⟩] := by
      simp [versionsOf,h.versions]
    obtain ⟨custom,hi⟩ := h.entries
    have he : tx.entries[uri]? = some ⟨entry,ver,custom⟩ := by
      rw [hi,getElem?_insert_self]
    refine ⟨?_,?_,?_⟩
    · rw [hv,List.map_append,(hs uri).numbered,currentVersion,currentVersion,he]
      show _ = List.range' 1 ver
      rw [h.next,currentVersion,List.range'_concat]
      simp [Nat.add_comm]
    · intro row hr
      rw [he] at hr
      obtain rfl := Option.some.inj hr
      refine ⟨⟨uri,ver,entry⟩,?_,rfl, .refl entry⟩
      rw [hv,List.getLast?_concat]
    · intro snapshot hn
      rw [hv] at hn
      rcases List.mem_append.mp hn with hl | hw
      · exact (hs uri).redacted snapshot hl
      · rw [List.mem_singleton.mp hw]
        exact h.redacted
  · refine (hs other).congr ?_ ?_
    · obtain ⟨custom,hi⟩ := h.entries
      rw [hi,getElem?_insert]
      simp [ho]
    · simp [versionsOf,h.versions,ho]

section Writes

variable {entry : ContextEntry} {ver : MvccVersion} {now : DateTime}

theorem Written.inserted {stored : ContextEntry} (h : Written lib st entry now ver tx stored) :
    Inserted st stored.uri.canonical ver stored tx := by
  obtain ⟨clean,hc,hs⟩ := h.redacted
  refine ⟨?_,?_,?_,?_⟩
  · rw [h.version_eq,currentVersion]
    cases st.entries[stored.uri.canonical]? <;> rfl
  · refine (sanitized_of_ok hc).redacted ?_
    rw [hs]
  · exact ⟨_,by rw [h.tables]⟩
  · rw [h.tables]

theorem History.congr (h : st.History) (he : tx.entries = st.entries) (hv : tx.versions = st.versions) :
    tx.History := fun uri => (h uri).congr (by rw [he]) (by rw [versionsOf,versionsOf,hv])

theorem History.enqueueAny (h : st.History) (chg : Option IndexMutation) : (st.enqueueAny chg now).History := by
  obtain ⟨he,hv,-⟩ := @enqueueAny_frame st chg now
  exact h.congr he hv

theorem History.writeInTx_isOk (h : st.History) (now : DateTime)
    (ha : (validateTenantBinding lib entry).isOk = true) :
    (st.writeInTx lib entry now).isOk = true := by
  obtain ⟨clean,hc⟩ := sanitizeEntryForWrite_isOk entry
  have ha : validateTenantBinding lib entry = .ok () := by
    cases hv : validateTenantBinding lib entry with
    | error e =>
      rw [hv] at ha
      cases ha
    | ok u => rfl
  have hn : ((st.entries[clean.uri.canonical]?).map (·.version+1)).getD 1 =
      st.currentVersion clean.uri.canonical + 1 := by
    rw [currentVersion]
    cases st.entries[clean.uri.canonical]? <;> rfl
  have hf : ¬ (st.versions.any (fun row => row.uri = clean.uri.canonical && row.version =
      ((st.entries[clean.uri.canonical]?).map (·.version+1)).getD 1) = true) := by
    intro hy
    obtain ⟨row,hr,hm⟩ := List.any_eq_true.mp hy
    rw [Bool.and_eq_true,decide_eq_true_eq,decide_eq_true_eq,hn] at hm
    have he : row.version ∈ (st.versionsOf clean.uri.canonical).map (·.version) :=
      List.mem_map_of_mem (mem_versionsOf.mpr ⟨hr,hm.1⟩)
    rw [(h clean.uri.canonical).numbered,List.mem_range'_1,hm.2] at he
    omega
  simp only [writeInTx,ha,hc,insertVersion,hf,bind,Except.bind]
  rfl

theorem pointFromEntry_isOk {entry other : ContextEntry}
    (h : other.metadata.custom.get? "embedding_vector" = entry.metadata.custom.get? "embedding_vector") :
    (pointFromEntry lib other).isOk = (pointFromEntry lib entry).isOk := by
  unfold pointFromEntry
  rw [h]
  cases entry.metadata.custom.get? "embedding_vector" with
  | none => rfl
  | some value =>
    dsimp only
    cases Json.listOf asNumber value with
    | none => rfl
    | some numbers =>
      dsimp only
      cases numbers.mapM lib.toFloat32 with
      | none => rfl
      | some vector =>
        dsimp only
        split <;> rfl

theorem upsertMutation_isOk (ver : MvccVersion) :
    (upsertMutation lib entry ver).isOk = (pointFromEntry lib entry).isOk := by
  have hp : (pointFromEntry lib { entry with mvccVersion := ver }).isOk = (pointFromEntry lib entry).isOk :=
    pointFromEntry_isOk rfl
  rw [← hp,upsertMutation]
  cases pointFromEntry lib { entry with mvccVersion := ver } <;> rfl

theorem History.write_isOk (h : st.History) (entry : ContextEntry) (now : DateTime) : (st.write lib entry now).isOk =
    ((validateTenantBinding lib entry).isOk && (pointFromEntry lib entry).isOk) := by
  cases hv : validateTenantBinding lib entry with
  | error e =>
    simp only [write,writeInTx,hv,bind,Except.bind]
    rfl
  | ok u =>
    have hi := h.writeInTx_isOk now (by rw [hv]; rfl : (validateTenantBinding lib entry).isOk = true)
    cases ho : st.writeInTx lib entry now with
    | error e =>
      rw [ho] at hi
      cases hi
    | ok out =>
      rw [← upsertMutation_isOk out.1]
      simp only [write,ho,bind,Except.bind]
      cases upsertMutation lib entry out.1 <;> rfl

theorem History.write (h : st.History) (ho : st.write lib entry now = .ok (ver, tx)) : tx.History := by
  obtain ⟨inner,chg,hi,-,rfl⟩ := write_ok ho
  obtain ⟨stored,hw⟩ := writeInTx_ok hi
  exact (hw.inserted.history h).enqueueAny chg

theorem History.rollback {uri : ContextUri} {to_ : MvccVersion} {u : Unit} (h : st.History)
    (ho : st.rollback lib uri to_ now = .ok (u, tx)) : tx.History := by
  obtain ⟨row,ver,inner,chg,-,-,hi,-,rfl⟩ := rollback_ok ho
  obtain ⟨stored,hw⟩ := writeInTx_ok hi
  exact (hw.inserted.history h).enqueueAny chg

theorem History.delete {uri : ContextUri} {u : Unit} (h : st.History)
    (hk : st.delete uri now = .ok (u, tx)) : tx.History := by
  have hd := delete_ok hk
  intro other
  by_cases ho : uri.canonical = other
  · refine Historied.of_empty ?_ ?_
    · rw [hd.entries,ho,Std.ExtTreeMap.getElem?_erase_self]
    · rw [versionsOf,hd.versions,List.filter_filter,List.filter_eq_nil_iff]
      simp [ho]
  · refine (h other).congr ?_ ?_
    · rw [hd.entries,getElem?_erase]
      simp [ho]
    · rw [versionsOf,versionsOf,hd.versions,List.filter_filter]
      refine List.filter_congr (fun row _ => ?_)
      by_cases hr : row.uri = other
      · simp [hr,Ne.symm ho]
      · simp [hr]

def movedRow (to_ : ContextUri) (row : VersionRow) : VersionRow :=
  ⟨to_.canonical, row.version, { row.entry with uri := to_ }⟩

section Rename

variable {from_ to_ : ContextUri} {row : CurrentRow} {point : Option IndexPoint}

theorem Renamed.versionsOf_other (h : Renamed lib st from_ to_ now tx row point) {other : String}
    (hf : from_.canonical ≠ other) (ht : to_.canonical ≠ other) : tx.versionsOf other = st.versionsOf other := by
  rw [versionsOf,versionsOf,h.versions,List.filter_map]
  have hk : ∀ old ∈ st.versions.filter ((fun row => decide (row.uri = other)) ∘ fun old : VersionRow =>
      if old.uri = from_.canonical then ⟨to_.canonical,old.version,{ old.entry with uri := to_ }⟩ else old),
      (if old.uri = from_.canonical then (⟨to_.canonical,old.version,{ old.entry with uri := to_ }⟩ : VersionRow)
        else old) =
        id old := by
    intro old ho
    have hm := (List.mem_filter.mp ho).2
    by_cases ho : old.uri = from_.canonical
    · simp [ho,ht] at hm
    · simp [ho]
  rw [List.map_congr_left hk,List.map_id]
  refine List.filter_congr (fun old _ => ?_)
  by_cases ho : old.uri = from_.canonical
  · simp [ho,ht,hf]
  · simp [ho]

theorem Renamed.versionsOf_to (h : Renamed lib st from_ to_ now tx row point)
    (ht : from_.canonical = to_.canonical ∨ st.versionsOf to_.canonical = []) :
    tx.versionsOf to_.canonical = (st.versionsOf from_.canonical).map (movedRow to_) := by
  have hs : ∀ old ∈ st.versions, old.uri = to_.canonical → old.uri = from_.canonical := by
    intro old ho hu
    rcases ht with ha | hn
    · rw [hu,ha]
    · have hm : old ∈ st.versionsOf to_.canonical := mem_versionsOf.mpr ⟨ho,hu⟩
      rw [hn] at hm
      cases hm
  rw [versionsOf,versionsOf,h.versions,List.filter_map]
  have hf : st.versions.filter ((fun row => decide (row.uri = to_.canonical)) ∘ fun old : VersionRow =>
      if old.uri = from_.canonical then ⟨to_.canonical,old.version,{ old.entry with uri := to_ }⟩ else old) =
      st.versions.filter (fun row => decide (row.uri = from_.canonical)) := by
    refine List.filter_congr (fun old ho => ?_)
    by_cases hu : old.uri = from_.canonical
    · simp [hu]
    · have he : old.uri ≠ to_.canonical := fun hq => hu (hs old ho hq)
      simp [hu,he]
  rw [hf]
  refine List.map_congr_left (fun old ho => ?_)
  have hu : old.uri = from_.canonical := by simpa using (List.mem_filter.mp ho).2
  simp [hu,movedRow]

theorem Renamed.versionsOf_from (h : Renamed lib st from_ to_ now tx row point)
    (hn : from_.canonical ≠ to_.canonical) :
    tx.versionsOf from_.canonical = [] := by
  rw [versionsOf,h.versions,List.filter_map,List.map_eq_nil_iff,List.filter_eq_nil_iff]
  intro old _
  by_cases hu : old.uri = from_.canonical
  · simp [hu,Ne.symm hn]
  · simp [hu]

theorem History.rename {u : Unit} (h : st.History)
    (hk : st.rename lib from_ to_ now = .ok (u, tx)) : tx.History := by
  obtain ⟨row,point,hr⟩ := rename_ok hk
  have hm : from_.canonical = to_.canonical ∨ st.versionsOf to_.canonical = [] :=
    hr.target.imp id (fun ho => (h to_.canonical).versionsOf_nil (Std.ExtTreeMap.getElem?_eq_none ho))
  intro other
  by_cases ht : to_.canonical = other
  · subst ht
    have he : tx.entries[to_.canonical]? =
        some ⟨{ row.entry with uri := to_, updatedAt := now },row.version,row.custom⟩ := by
      rw [hr.entries,getElem?_insert_self]
    have hv := hr.versionsOf_to hm
    refine ⟨?_,?_,?_⟩
    · have hn := (h from_.canonical).numbered
      rw [currentVersion,hr.source] at hn
      rw [hv,List.map_map,currentVersion,he]
      exact hn
    · intro cur hc
      rw [he] at hc
      obtain rfl := Option.some.inj hc
      obtain ⟨snapshot,hs,hvr,ha⟩ := (h from_.canonical).current row hr.source
      refine ⟨movedRow to_ snapshot,?_,hvr,?_⟩
      · rw [hv,List.getLast?_map,hs]
        rfl
      · have hw : row.entry = { snapshot.entry with updatedAt := row.entry.updatedAt } := ha
        show _ = _
        rw [hw]
        rfl
    · intro snapshot hs
      rw [hv] at hs
      obtain ⟨old,hl,rfl⟩ := List.mem_map.mp hs
      exact Redacted.of_payload ((h from_.canonical).redacted old hl) rfl
  · by_cases hf : from_.canonical = other
    · subst hf
      refine Historied.of_empty ?_ (hr.versionsOf_from (Ne.symm ht))
      rw [hr.entries,getElem?_insert]
      simp [ht]
    · refine (h other).congr ?_ (hr.versionsOf_other hf ht)
      rw [hr.entries,getElem?_insert,getElem?_erase]
      simp [ht,hf]

end Rename

end Writes

section Batches

variable {now : DateTime}

def insertRow (libraries : StoreLibraries) (st : SqliteTables) (row : PreparedBatchRow) : SqliteTables :=
  { st with
    entries := st.entries.insert row.uri (row.currentRow libraries)
    versions := st.versions ++ [row.versionRow] }

theorem entries_insertRows (rows : List PreparedBatchRow) (st : SqliteTables) :
    (rows.foldl (insertRow lib) st).entries =
    rows.foldl (fun es row => es.insert row.uri (row.currentRow lib)) st.entries := by
  induction rows generalizing st with
  | nil => rfl
  | cons row rows ih => exact ih (insertRow lib st row)

theorem versions_insertRows (rows : List PreparedBatchRow) (st : SqliteTables) :
    (rows.foldl (insertRow lib) st).versions =
    st.versions ++ rows.map PreparedBatchRow.versionRow := by
  induction rows generalizing st with
  | nil => simp
  | cons row rows ih =>
    rw [List.foldl_cons,ih (insertRow lib st row)]
    simp [insertRow]

def Flagged : List PreparedBatchRow → Prop
  | [] => True
  | row::rows => (row.isCurrent = true ↔ row.uri ∉ rows.map (·.uri)) ∧ Flagged rows

variable {rows : List PreparedBatchRow} {next : Std.ExtTreeMap String MvccVersion} {input : ContextEntry}
  {chunk : List ContextEntry}

theorem foldl_insertCurrent (h : Flagged rows) {entries entries' : Std.ExtTreeMap String CurrentRow}
    (hs : ∀ uri, uri ∉ rows.map (·.uri) → entries[uri]? = entries'[uri]?) {out : Std.ExtTreeMap String CurrentRow}
    (ho : rows.foldlM (insertCurrent lib) entries = .ok out) :
    out = rows.foldl (fun entries row => entries.insert row.uri (row.currentRow lib)) entries' := by
  induction rows generalizing entries entries' with
  | nil =>
    obtain rfl := Except.ok.inj ho
    exact Std.ExtTreeMap.ext_getElem? (fun uri => hs uri List.not_mem_nil)
  | cons row rows ih =>
    obtain ⟨hf,he⟩ := h
    rw [List.foldlM_cons] at ho
    obtain ⟨next,hn,ho⟩ := bind_eq_ok.mp ho
    refine ih he (fun uri hu => ?_) ho
    rw [getElem?_insert,insertCurrent_ok hn]
    by_cases hr : row.uri = uri
    · subst hr
      rw [if_pos (hf.mpr hu)]
      simp
    · have hl : entries[uri]? = entries'[uri]? := hs uri (by simpa [hu] using Ne.symm hr)
      split
      · rw [getElem?_insert,hl]
      · simp [hr,hl]

structure Prepared (libraries : StoreLibraries) (now : DateTime) (input : ContextEntry) (version : MvccVersion)
    (row : PreparedBatchRow) : Prop where
  valid : validateTenantBinding libraries input = .ok ()
  redacted : ∃ clean, sanitizeEntryForWrite input = .ok clean ∧
    row.entry = { clean with updatedAt := now, mvccVersion := version }
  uri : row.uri = input.uri.canonical
  version_eq : row.version = version
  mutation : upsertMutation libraries row.entry version = .ok row.mutation

theorem prepareBatchChunk_cons {rest : List ContextEntry} : prepareBatchChunk lib now next (input::rest) = .ok rows ↔
    ∃ row later, rows = row::later ∧ Prepared lib now input ((next[row.uri]?).getD 0+1) row ∧
      row.isCurrent = rest.all (fun later => later.uri.canonical ≠ row.uri) ∧
      prepareBatchChunk lib now (next.insert row.uri row.version) rest = .ok later := by
  constructor
  · intro h
    unfold prepareBatchChunk at h
    obtain ⟨⟨⟩,ha,h⟩ := bind_eq_ok.mp h
    obtain ⟨clean,hc,h⟩ := bind_eq_ok.mp h
    obtain ⟨chg,hm,h⟩ := bind_eq_ok.mp h
    obtain ⟨later,hl,h⟩ := bind_eq_ok.mp h
    have hs := sanitized_of_ok hc
    exact ⟨_,later,(Except.ok.inj h).symm,⟨ha,⟨clean,hc,rfl⟩,by rw [hs.frame],rfl,hm⟩,rfl,hl⟩
  · rintro ⟨⟨uri,ver,entry,isCurrent,chg⟩,later,rfl,hr,hu,hl⟩
    obtain ⟨clean,hc,he⟩ := hr.redacted
    have hi : clean.uri.canonical = uri := by
      have hs := sanitized_of_ok hc
      rw [hs.frame]
      exact hr.uri.symm
    have hv : ver = (next[uri]?).getD 0 + 1 := hr.version_eq
    dsimp only at he hu hl
    unfold prepareBatchChunk
    refine bind_eq_ok.mpr ⟨(),hr.valid,bind_eq_ok.mpr ⟨clean,hc,?_⟩⟩
    dsimp only
    rw [hi,← he,← hv]
    refine bind_eq_ok.mpr ⟨chg,?_,bind_eq_ok.mpr ⟨later,hl,?_⟩⟩
    · have hm := hr.mutation
      rw [← hv] at hm
      exact hm
    · rw [hu]
      rfl

theorem prepared_rows (h : prepareBatchChunk lib now next chunk = .ok rows) :
    rows.map (·.uri) = chunk.map (·.uri.canonical) ∧ Flagged rows := by
  induction chunk generalizing next rows with
  | nil =>
    obtain rfl := Except.ok.inj h
    exact ⟨rfl,trivial⟩
  | cons input rest ih =>
    obtain ⟨row,later,rfl,hr,hc,hl⟩ := prepareBatchChunk_cons.mp h
    obtain ⟨hu,hf⟩ := ih hl
    refine ⟨by rw [List.map_cons,List.map_cons,hu,hr.uri],?_,hf⟩
    rw [hc,hu]
    simp

theorem Prepared.inserted {row : PreparedBatchRow}
    (h : Prepared lib now input ((next[row.uri]?).getD 0+1) row)
    (hn : (next[input.uri.canonical]?).getD 0 = st.currentVersion input.uri.canonical) :
    Inserted st row.uri row.version row.entry (insertRow lib st row) := by
  obtain ⟨clean,hc,he⟩ := h.redacted
  refine ⟨?_,?_,⟨_,rfl⟩,rfl⟩
  · rw [h.version_eq,h.uri,hn]
  · exact (sanitized_of_ok hc).redacted (by rw [he])

theorem prepareBatchChunk_history (ht : st.History)
    (hn : ∀ entry ∈ chunk, (next[entry.uri.canonical]?).getD 0 = st.currentVersion entry.uri.canonical)
    (h : prepareBatchChunk lib now next chunk = .ok rows) : (rows.foldl (insertRow lib) st).History := by
  induction chunk generalizing st next rows with
  | nil =>
    cases h
    exact ht
  | cons input rest ih =>
    obtain ⟨row,later,rfl,hr,-,hl⟩ := prepareBatchChunk_cons.mp h
    have hi := hr.inserted (hn input List.mem_cons_self)
    rw [List.foldl_cons]
    refine ih (hi.history ht) ?_ hl
    intro entry he
    have ho := hn entry (List.mem_cons_of_mem _ he)
    rw [currentVersion] at ho ⊢
    obtain ⟨custom,hns⟩ := hi.entries
    rw [hns,getElem?_insert,getElem?_insert]
    by_cases hs : row.uri = entry.uri.canonical
    · simp [hs]
    · simpa [hs] using ho

theorem getElem?_lookups {found : String → Option MvccVersion}
    {look : Std.ExtTreeMap String MvccVersion → ContextEntry → Std.ExtTreeMap String MvccVersion}
    (hl : ∀ base entry uri,
      (look base entry)[uri]? = if entry.uri.canonical = uri then (found uri).or base[uri]? else base[uri]?)
      (chunk : List ContextEntry) (base : Std.ExtTreeMap String MvccVersion) (uri : String) :
      (chunk.foldl look base)[uri]? =
      if uri ∈ chunk.map (·.uri.canonical) then (found uri).or base[uri]? else base[uri]? := by
  induction chunk generalizing base with
  | nil => rfl
  | cons entry chunk ih =>
    rw [List.foldl_cons,ih,hl,List.map_cons]
    by_cases he : entry.uri.canonical = uri
    · subst he
      cases found entry.uri.canonical <;> simp
    · simp [he,Ne.symm he]

theorem baseVersions_getD (st : SqliteTables) :
    ∀ entry ∈ chunk, ((st.baseVersions chunk)[entry.uri.canonical]?).getD 0 = st.currentVersion entry.uri.canonical := by
  intro entry he
  unfold baseVersions
  rw [@getElem?_lookups (fun uri => (st.entries[uri]?).map (·.version)),if_pos (List.mem_map_of_mem he)]
  · simp [currentVersion]
  · intro base other uri
    by_cases ho : other.uri.canonical = uri
    · subst ho
      cases st.entries[other.uri.canonical]? <;> simp
    · rw [if_neg ho]
      cases st.entries[other.uri.canonical]? with
      | none => rfl
      | some row => simp [getElem?_insert,ho]

theorem History.writeChunk {vs : List MvccVersion} (h : st.History)
    (ho : st.writeChunk lib now chunk = .ok (vs, tx)) : tx.History := by
  obtain ⟨rows,hw⟩ := writeChunk_ok ho
  have hh := prepareBatchChunk_history h st.baseVersions_getD hw.prepared
  have hf := (prepared_rows hw.prepared).2
  refine hh.congr ?_ ?_
  · rw [entries_insertRows]
    exact foldl_insertCurrent hf (fun _ _ => rfl) hw.entries
  · rw [hw.versions_eq,versions_insertRows]

end Batches

theorem History.step (h : st.History) (op : Op) : (st.step lib cfg op).History := by
  cases hc : st.commit lib cfg op with
  | error e =>
    rw [step_of_error hc]
    exact h
  | ok tx =>
    rw [step_of_ok hc]
    cases op with
    | write entry now =>
      obtain ⟨⟨ver,tx⟩,ho,rfl⟩ := map_eq_ok.mp hc
      exact h.write ho
    | batchWrite es now =>
      obtain ⟨⟨vs,tx⟩,ho,rfl⟩ := map_eq_ok.mp hc
      exact batchWrite_preserves (fun st chunk vs tx _ hs hh => hs.writeChunk hh) h ho
    | delete uri now =>
      obtain ⟨⟨u,tx⟩,ho,rfl⟩ := map_eq_ok.mp hc
      exact h.delete ho
    | rename from_ to_ now =>
      obtain ⟨⟨u,tx⟩,ho,rfl⟩ := map_eq_ok.mp hc
      exact h.rename ho
    | rollback uri to_ now =>
      obtain ⟨⟨u,tx⟩,ho,rfl⟩ := map_eq_ok.mp hc
      exact h.rollback ho
    | addEdge from_ to_ kind =>
      obtain rfl := Except.ok.inj hc
      obtain ⟨he,hv,-⟩ := st.addEdge_frame from_ to_ kind
      exact h.congr he hv
    | removeEdge from_ to_ =>
      obtain rfl := Except.ok.inj hc
      obtain ⟨he,hv,-⟩ := st.removeEdge_frame from_ to_
      exact h.congr he hv

def after (libraries : StoreLibraries) (config : BatchWriteConfig) (ops : List Op) : SqliteTables :=
  run (fun st => st.step libraries config) empty ops

end SqliteTables

end UwuContextDb.Content
