import UwuContextDb.Content.VersionHistory

/-! The same calls of `MemoryContextStore` and of the SQLite store. -/

namespace UwuContextDb.Content

open StateMachine
open SqliteTables (History Inserted currentVersion validateTenantBinding versionsOf)

inductive StoreCall
  | write (entry : ContextEntry) (now : DateTime)
  | delete (uri : ContextUri) (now : DateTime)
  | rename (from_ to_ : ContextUri) (now : DateTime)
  | rollback (uri : ContextUri) (to_ : MvccVersion) (now : DateTime)

namespace StoreCall

def sqlite : StoreCall → SqliteTables.Op
  | .write entry now => .write entry now
  | .delete uri now => .delete uri now
  | .rename from_ to_ now => .rename from_ to_ now
  | .rollback uri to_ now => .rollback uri to_ now

def memory : StoreCall → MemoryContextStore.Op
  | .write entry now => .write entry now
  | .delete uri _ => .delete uri
  | .rename from_ to_ _ => .rename from_ to_
  | .rollback uri to_ _ => .rollback uri to_

def uris : StoreCall → List ContextUri
  | .write entry _ => [entry.uri]
  | .delete uri _ => [uri]
  | .rename from_ to_ _ => [from_, to_]
  | .rollback uri _ _ => [uri]

def Addressed (call : StoreCall) : Prop := ∀ uri ∈ call.uris, ContextUri.parse uri.canonical = .ok uri

instance (call : StoreCall) : Decidable call.Addressed :=
  inferInstanceAs (Decidable (∀ uri ∈ call.uris, ContextUri.parse uri.canonical = .ok uri))

end StoreCall

def MemoryContextStore.history (store : MemoryContextStore) (uri : String) : List ContextEntry :=
  (store.entries[uri]?).getD []

structure ContentStores where
  sqlite : SqliteTables
  memory : MemoryContextStore

variable {clean tgt : ContextEntry} {tx : SqliteTables} {version : MvccVersion} {key : String} {row : VersionRow}

namespace ContentStores

def new : ContentStores := ⟨.empty, .empty⟩

variable (libraries libs : StoreLibraries) (s : ContentStores)

def step (call : StoreCall) : ContentStores := ⟨s.sqlite.step libraries .standard call.sqlite, s.memory.step call.memory⟩

def SameResult : StoreCall → Prop
  | .write entry now =>
    (s.sqlite.write libraries entry now).toOption.map Prod.fst = (s.memory.write entry now).toOption.map Prod.fst
  | .delete uri now => (s.sqlite.delete uri now).isOk = (s.memory.delete uri).isOk
  | .rename from_ to_ now => (s.sqlite.rename libraries from_ to_ now).isOk = (s.memory.rename from_ to_).isOk
  | .rollback uri to_ now => (s.sqlite.rollback libraries uri to_ now).isOk = (s.memory.rollback uri to_).isOk

/-- Both stores have the same current entry of every URI, up to its `updated_at` stamp. -/
def SameEntries : Prop := ∀ uri, Option.Rel SameEntry ((s.sqlite.entries[uri]?).map (·.entry)) (s.memory.latest uri)

def SameReads (uri : ContextUri) : Prop := ∀ level, s.sqlite.read uri level = s.memory.read uri level

/-- A write passes the checks that only the SQLite store makes, a deletion finds its URI, a rename finds nothing or
changes nothing, and a rollback names a version that fits a SQLite integer or that there is not. -/
def Agreeing : StoreCall → Prop
  | .write entry _ => (validateTenantBinding libraries entry).isOk = true ∧ (pointFromEntry libraries entry).isOk = true
  | .delete uri _ => uri.canonical ∈ s.memory.entries
  | .rename from_ to_ _ => from_.canonical ∉ s.memory.entries ∨ from_ = to_
  | .rollback uri to_ _ => to_ < 2 ^ 63 ∨ ∀ entry ∈ s.memory.history uri.canonical, entry.mvccVersion ≠ to_

instance decidableAgreeing : ∀ call, Decidable (s.Agreeing libraries call)
  | .write entry _ =>
    inferInstanceAs (Decidable
      ((validateTenantBinding libraries entry).isOk = true ∧ (pointFromEntry libraries entry).isOk = true))
  | .delete uri _ => inferInstanceAs (Decidable (uri.canonical ∈ s.memory.entries))
  | .rename from_ to_ _ => inferInstanceAs (Decidable (from_.canonical ∉ s.memory.entries ∨ from_ = to_))
  | .rollback uri to_ _ =>
    inferInstanceAs (Decidable (to_ < 2 ^ 63 ∨ ∀ entry ∈ s.memory.history uri.canonical, entry.mvccVersion ≠ to_))

structure Stored (libraries : StoreLibraries) (uri : String) (entry : ContextEntry) : Prop where
  parsed : ContextUri.parse uri = .ok entry.uri
  redacted : Redacted entry
  valid : (validateTenantBinding libraries entry).isOk = true
  point : (pointFromEntry libraries entry).isOk = true

structure SameVersion (row : VersionRow) (entry : ContextEntry) : Prop where
  version : row.version = entry.mvccVersion
  entry : SameEntry row.entry entry

structure Paired (s : ContentStores) : Prop where
  history : s.sqlite.History
  live : ∀ uri, uri ∈ s.sqlite.entries ↔ uri ∈ s.memory.entries
  versions : ∀ uri, List.Forall₂ SameVersion (s.sqlite.versionsOf uri) (s.memory.history uri)
  stored : ∀ uri, ∀ entry ∈ s.memory.history uri, Stored libraries uri entry
  blobs : s.memory.l2Blobs = ∅

variable {libraries libs s}

theorem paired_new : new.Paired libs := by
  refine ⟨SqliteTables.history_empty,fun uri => ?_,fun uri => ?_,fun uri entry h => ?_,rfl⟩
  · simp [new,SqliteTables.empty,MemoryContextStore.empty]
  · simp [new,SqliteTables.empty,MemoryContextStore.empty,versionsOf,MemoryContextStore.history]
  · simp [new,MemoryContextStore.empty,MemoryContextStore.history] at h

section Lists

variable {α β : Type} {r : α → β → Prop}

variable {xs : List α} {ys : List β}

theorem forall₂_getLast? (h : List.Forall₂ r xs ys) : Option.Rel r xs.getLast? ys.getLast? := by
  have hr : List.Forall₂ r xs.reverse ys.reverse := List.forall₂_reverse_iff.mpr h
  rw [← List.head?_reverse,← List.head?_reverse]
  generalize xs.reverse = front, ys.reverse = front' at hr
  cases hr with
  | nil => exact .none
  | cons ha _ => exact .some ha

theorem forall₂_find? {p : α → Bool} {q : β → Bool} (hp : ∀ a b, r a b → p a = q b)
    (h : List.Forall₂ r xs ys) : Option.Rel r (xs.find? p) (ys.find? q) := by
  induction h with
  | nil => exact .none
  | cons ha _ ih =>
    rw [List.find?_cons,List.find?_cons,hp _ _ ha]
    split
    · exact .some ha
    · exact ih

theorem forall₂_mem {a : α} (h : List.Forall₂ r xs ys) (ha : a ∈ xs) : ∃ b ∈ ys, r a b := by
  induction h with
  | nil => cases ha
  | cons hab _ ih =>
    rcases List.mem_cons.mp ha with rfl | ha
    · exact ⟨_,List.mem_cons_self,hab⟩
    · obtain ⟨b,hb,hr⟩ := ih ha
      exact ⟨b,List.mem_cons_of_mem _ hb,hr⟩

end Lists

theorem Stored.congr {u : String} {e : ContextEntry} (h : Stored libs u e)
    (ver : MvccVersion) (now : DateTime) :
    Stored libs u { e with mvccVersion := ver, updatedAt := now } := by
  refine ⟨h.parsed,Redacted.of_payload h.redacted rfl,h.valid,?_⟩
  rw [← h.point]
  exact SqliteTables.pointFromEntry_isOk rfl

theorem stored_of_write {e : ContextEntry} (hp : ContextUri.parse e.uri.canonical = .ok e.uri)
    (hv : (validateTenantBinding libs e).isOk = true) (ho : (pointFromEntry libs e).isOk = true)
    (hc : Sanitized e clean) : Stored libs e.uri.canonical clean := by
  have hu : clean.uri = e.uri := by rw [hc.frame]
  have ht : clean.tenant = e.tenant := by rw [hc.frame]
  refine ⟨by rw [hu,hp],hc.redacted rfl,?_,?_⟩
  · rw [← hv,validateTenantBinding,validateTenantBinding,hu,ht]
  · rw [← ho]
    exact SqliteTables.pointFromEntry_isOk (hc.custom _ (by decide))

namespace Paired

theorem length_eq (h : s.Paired libs) (uri : String) :
    (s.memory.history uri).length = s.sqlite.currentVersion uri := by
  rw [← (h.versions uri).length_eq,← List.length_map,(h.history uri).numbered,List.length_range']

theorem sameEntries (h : s.Paired libs) : s.SameEntries := by
  intro uri
  have ha : s.memory.latest uri = (s.memory.history uri).getLast? := by
    rw [MemoryContextStore.latest,MemoryContextStore.history]
    cases s.memory.entries[uri]? <;> rfl
  have hl := forall₂_getLast? (h.versions uri)
  rw [ha]
  cases hr : s.sqlite.entries[uri]? with
  | none =>
    rw [(h.history uri).versionsOf_nil hr] at hl
    cases hm : (s.memory.history uri).getLast? with
    | none => exact .none
    | some entry =>
      rw [hm] at hl
      cases hl
  | some row =>
    obtain ⟨snapshot,hs,-,hsa⟩ := (h.history uri).current row hr
    rw [hs] at hl
    cases hm : (s.memory.history uri).getLast? with
    | none =>
      rw [hm] at hl
      cases hl
    | some entry =>
      rw [hm] at hl
      cases hl with
      | some hv =>
        exact .some (hsa.of_same hv.entry)

theorem congr (h : s.Paired libs) (he : tx.entries = s.sqlite.entries)
    (hv : tx.versions = s.sqlite.versions) : Paired libs ⟨tx,s.memory⟩ := by
  refine ⟨h.history.congr he hv,fun uri => ?_,fun uri => ?_,h.stored,h.blobs⟩
  · rw [← h.live uri,← he]
  · rw [versionsOf,hv]
    exact h.versions uri

theorem append (h : s.Paired libs) {u : String}
    {entry other : ContextEntry} (hi : Inserted s.sqlite u version entry tx)
    (hs : SameVersion ⟨u,version,entry⟩ other) (ht : Stored libs u other) :
    Paired libs ⟨tx,{ s.memory with entries := s.memory.entries.insert u (s.memory.history u++[other]) }⟩ := by
  have hh : ∀ key, MemoryContextStore.history
      { s.memory with entries := s.memory.entries.insert u (s.memory.history u++[other]) } key =
        if u = key then s.memory.history u ++ [other] else s.memory.history key := by
    intro key
    rw [MemoryContextStore.history,Std.ExtTreeMap.getElem?_insert]
    by_cases hk : u = key <;> simp [hk,MemoryContextStore.history]
  refine ⟨hi.history h.history,fun key => ?_,fun key => ?_,fun key e he => ?_,h.blobs⟩
  · obtain ⟨custom,hn⟩ := hi.entries
    rw [hn,Std.ExtTreeMap.mem_insert,Std.ExtTreeMap.mem_insert,h.live key]
  · rw [hh,versionsOf,hi.versions,List.filter_append]
    by_cases hk : u = key
    · subst hk
      rw [if_pos rfl]
      refine List.rel_append (h.versions u) ?_
      simpa using hs
    · rw [if_neg hk]
      simpa [hk,versionsOf] using h.versions key
  · rw [hh] at he
    by_cases hk : u = key
    · subst hk
      rw [if_pos rfl] at he
      rcases List.mem_append.mp he with ho | hw
      · exact h.stored u e ho
      · rw [List.mem_singleton.mp hw]
        exact ht
    · rw [if_neg hk] at he
      exact h.stored key e he

theorem step_sqlite {call : StoreCall} (h : s.sqlite.commit libs .standard call.sqlite = .ok tx) :
    s.step libs call = ⟨tx,s.memory.step call.memory⟩ := by
  rw [step,SqliteTables.step_of_ok h]

theorem step_error {call : StoreCall} {e : ContextError} (h : s.sqlite.commit libs .standard call.sqlite = .error e) :
    s.step libs call = ⟨s.sqlite,s.memory.step call.memory⟩ := by
  rw [step,SqliteTables.step_of_error h]

section Write

variable {entry : ContextEntry} {now : DateTime}

theorem memory_write (hc : WriteSecurity.sanitizeEntryForWrite entry = .ok clean)
    (store : MemoryContextStore) :
    store.write entry now = .ok ((store.history clean.uri.canonical).length+1,
      { store with entries := store.entries.insert clean.uri.canonical (store.history clean.uri.canonical ++
        [{ clean with mvccVersion := (store.history clean.uri.canonical).length+1, updatedAt := now }]) }) := by
  simp only [MemoryContextStore.write,hc]
  rfl

theorem write (h : s.Paired libs) (hr : ContextUri.parse entry.uri.canonical = .ok entry.uri)
    (hk : s.Agreeing libs (.write entry now)) :
    s.SameResult libs (.write entry now) ∧ (s.step libs (.write entry now)).Paired libs := by
  obtain ⟨hv,hp⟩ := hk
  have hi := @History.write_isOk libs s.sqlite h.history entry now
  rw [hv,hp,Bool.and_true] at hi
  cases ho : s.sqlite.write libs entry now with
  | error e =>
    rw [ho] at hi
    cases hi
  | ok out =>
    obtain ⟨version,tx⟩ := out
    obtain ⟨inner,chg,hinn,-,rfl⟩ := SqliteTables.write_ok ho
    obtain ⟨stored,hw⟩ := SqliteTables.writeInTx_ok hinn
    obtain ⟨clean,hc,hs⟩ := hw.redacted
    have ha := sanitized_of_ok hc
    have hu : clean.uri = entry.uri := by rw [ha.frame]
    have hn : stored.uri.canonical = clean.uri.canonical := by rw [hs]
    have he : version = (s.memory.history clean.uri.canonical).length + 1 := by
      rw [hw.inserted.next,hn,h.length_eq]
    have hin := hw.inserted
    rw [hn] at hin
    refine ⟨?_,?_⟩
    · show ((s.sqlite.write libs entry now).toOption.map Prod.fst) = (s.memory.write entry now).toOption.map Prod.fst
      rw [ho,memory_write hc,he]
      rfl
    · have hm : s.memory.step (.write entry now) = { s.memory with
          entries := s.memory.entries.insert clean.uri.canonical (s.memory.history clean.uri.canonical ++
            [{ clean with mvccVersion := version, updatedAt := now }]) } := by
        rw [MemoryContextStore.step,memory_write hc,he]
        rfl
      have hco : s.sqlite.commit libs .standard (.write entry now) = .ok (inner.enqueueAny chg now) := by
        rw [SqliteTables.commit,ho]
        rfl
      have hpa : Stored libs clean.uri.canonical clean := by
        rw [hu]
        exact stored_of_write hr hv hp ha
      have hsa : SameVersion ⟨clean.uri.canonical,version,stored⟩
          { clean with mvccVersion := version, updatedAt := now } :=
        ⟨rfl,by rw [hs]; rfl⟩
      have hx := h.append hin hsa (hpa.congr version now)
      rw [step_sqlite hco]
      show Paired libs ⟨_,s.memory.step (.write entry now)⟩
      rw [hm]
      obtain ⟨ht,hvr,-⟩ := @SqliteTables.enqueueAny_frame inner chg now
      exact hx.congr ht hvr

theorem not_write (h : s.Paired libs) (hk : ¬ s.Agreeing libs (.write entry now)) :
    ¬ s.SameResult libs (.write entry now) := by
  intro hs
  obtain ⟨clean,hc⟩ := sanitizeEntryForWrite_isOk entry
  have hf : (s.sqlite.write libs entry now).isOk = false := by
    rw [h.history.write_isOk entry now,Bool.eq_false_iff]
    exact fun hb => hk ((Bool.and_eq_true _ _).mp hb)
  have hs : (s.sqlite.write libs entry now).toOption.map Prod.fst =
      (s.memory.write entry now).toOption.map Prod.fst := hs
  rw [memory_write hc] at hs
  cases ho : s.sqlite.write libs entry now with
  | error e =>
    rw [ho] at hs
    cases hs
  | ok out =>
    rw [ho] at hf
    cases hf

end Write

section Delete

variable {uri : ContextUri} {now : DateTime}

theorem delete_isOk (h : s.Paired libs) (u : ContextUri) (now : DateTime) :
    (s.sqlite.delete u now).isOk = true ↔ u.canonical ∈ s.memory.entries := by
  rw [← h.live u.canonical]
  unfold SqliteTables.delete
  split
  · rename_i hn
    exact iff_of_false (by simp [Except.isOk,Except.toBool]) hn
  · rename_i hm
    exact iff_of_true rfl (not_not.mp hm)

theorem delete (h : s.Paired libs) (hok : s.Agreeing libs (.delete uri now)) :
    (s.step libs (.delete uri now)).Paired libs := by
  have hi := (h.delete_isOk uri now).mpr hok
  cases ho : s.sqlite.delete uri now with
  | error e =>
    rw [ho] at hi
    cases hi
  | ok out =>
    obtain ⟨u,tx⟩ := out
    have hd := SqliteTables.delete_ok ho
    have hc : s.sqlite.commit libs .standard (.delete uri now) = .ok tx := by
      rw [SqliteTables.commit,ho]
      rfl
    rw [step_sqlite hc]
    have hh : ∀ key, (s.memory.step (.delete uri)).history key = if uri.canonical = key then []
        else s.memory.history key := by
      intro key
      show ((s.memory.entries.erase uri.canonical)[key]?).getD [] = _
      rw [Std.ExtTreeMap.getElem?_erase]
      by_cases hk : uri.canonical = key <;> simp [hk,MemoryContextStore.history]
    have hv : ∀ key, tx.versionsOf key = if uri.canonical = key then [] else s.sqlite.versionsOf key := by
      intro key
      rw [versionsOf,versionsOf,hd.versions,List.filter_filter]
      by_cases hk : uri.canonical = key
      · rw [if_pos hk,List.filter_eq_nil_iff]
        simp [hk]
      · rw [if_neg hk]
        refine List.filter_congr (fun row _ => ?_)
        by_cases hr : row.uri = key
        · simp [hr,Ne.symm hk]
        · simp [hr]
    refine ⟨h.history.delete ho,fun key => ?_,fun key => ?_,fun key entry he => ?_,h.blobs⟩
    · show key ∈ tx.entries ↔ key ∈ s.memory.entries.erase uri.canonical
      rw [hd.entries,Std.ExtTreeMap.mem_erase,Std.ExtTreeMap.mem_erase,h.live key]
    · show List.Forall₂ SameVersion (tx.versionsOf key) ((s.memory.step (.delete uri)).history key)
      rw [hv,hh]
      split
      · exact .nil
      · exact h.versions key
    · have he : entry ∈ (s.memory.step (.delete uri)).history key := he
      rw [hh] at he
      split at he
      · cases he
      · exact h.stored key entry he

end Delete

section Rename

variable {from_ to_ uri : ContextUri} {now : DateTime}

theorem row_of_mem (h : s.Paired libs) (hm : key ∈ s.memory.entries) : ∃ row, s.sqlite.entries[key]? = some row :=
  Option.isSome_iff_exists.mp (Std.ExtTreeMap.isSome_getElem?_iff_mem.mpr ((h.live key).mpr hm))

theorem stored_version (h : s.Paired libs) {old : VersionRow} (ho : old ∈ s.sqlite.versionsOf key) :
    Stored libs key old.entry := by
  obtain ⟨e,he,hv⟩ := forall₂_mem (h.versions key) ho
  have hs : SameEntry e old.entry := hv.entry.of_same (.refl old.entry)
  rw [show old.entry = { e with mvccVersion := e.mvccVersion, updatedAt := old.entry.updatedAt } from hs]
  exact (h.stored key e he).congr _ _

theorem stored_row (h : s.Paired libs) {row : CurrentRow} (hr : s.sqlite.entries[key]? = some row) :
    Stored libs key row.entry := by
  obtain ⟨snapshot,hs,-,ha⟩ := (h.history key).current row hr
  have ht := h.stored_version (List.mem_of_getLast? hs)
  rw [show row.entry = { snapshot.entry with mvccVersion := snapshot.entry.mvccVersion, updatedAt := row.entry.updatedAt } from ha]
  exact ht.congr _ _

theorem rename_missing (h : s.Paired libs) (hn : from_.canonical ∉ s.memory.entries) :
    s.SameResult libs (.rename from_ to_ now) ∧ s.step libs (.rename from_ to_ now) = s := by
  have hm : s.memory.rename from_ to_ = .error (.notFound from_.canonical) := by
    rw [MemoryContextStore.rename,Std.ExtTreeMap.getElem?_eq_none hn]
  have ho : s.sqlite.entries[from_.canonical]? = none :=
    Std.ExtTreeMap.getElem?_eq_none (fun he => hn ((h.live from_.canonical).mp he))
  obtain ⟨e,hs⟩ : ∃ e, s.sqlite.rename libs from_ to_ now = .error e := by
    unfold SqliteTables.rename
    split
    · exact ⟨_,rfl⟩
    · rw [ho]
      exact ⟨_,rfl⟩
  have hc : s.sqlite.commit libs .standard (.rename from_ to_ now) = .error e := by
    rw [SqliteTables.commit,hs]
    rfl
  refine ⟨?_,?_⟩
  · show (s.sqlite.rename libs from_ to_ now).isOk = (s.memory.rename from_ to_).isOk
    rw [hs,hm]
    rfl
  · rw [step_error hc]
    show (⟨s.sqlite,s.memory.step (.rename from_ to_)⟩ : ContentStores) = s
    rw [MemoryContextStore.step,hm]
    rfl

theorem rename_self_isOk (h : s.Paired libs) (now : DateTime) (hm : uri.canonical ∈ s.memory.entries) :
    (s.sqlite.rename libs uri uri now).isOk = true := by
  obtain ⟨row,hr⟩ := h.row_of_mem hm
  have ho : (pointFromEntry libs { row.entry with uri := uri, updatedAt := now }).isOk = true := by
    rw [← (h.stored_row hr).point]
    exact SqliteTables.pointFromEntry_isOk rfl
  cases hp : pointFromEntry libs { row.entry with uri := uri, updatedAt := now } with
  | error e =>
    rw [hp] at ho
    cases ho
  | ok point =>
    simp only [SqliteTables.rename,hr,SqliteTables.renameVersions,hp,ne_eq,not_true_eq_false,
      false_and,if_false,bind,Except.bind]
    rfl

theorem rename_self (h : s.Paired libs) (hm : uri.canonical ∈ s.memory.entries)
    (hp : ContextUri.parse uri.canonical = .ok uri) :
    s.SameResult libs (.rename uri uri now) ∧ (s.step libs (.rename uri uri now)).Paired libs := by
  obtain ⟨list,hl⟩ := Option.isSome_iff_exists.mp (Std.ExtTreeMap.isSome_getElem?_iff_mem.mpr hm)
  have hmm : s.memory.rename uri uri =
      .ok ((), { s.memory with entries := (s.memory.entries.erase uri.canonical).insert uri.canonical list }) := by
    rw [MemoryContextStore.rename,hl]
  have hs : (s.memory.entries.erase uri.canonical).insert uri.canonical list = s.memory.entries := by
    refine Std.ExtTreeMap.ext_getElem? (fun key => ?_)
    rw [Std.ExtTreeMap.getElem?_insert,Std.ExtTreeMap.getElem?_erase]
    by_cases hk : uri.canonical = key
    · subst hk
      simp [hl]
    · simp [hk]
  have hi := h.rename_self_isOk now hm
  cases ho : s.sqlite.rename libs uri uri now with
  | error e =>
    rw [ho] at hi
    cases hi
  | ok out =>
    obtain ⟨u,tx⟩ := out
    obtain ⟨row,point,hr⟩ := SqliteTables.rename_ok ho
    have hc : s.sqlite.commit libs .standard (.rename uri uri now) = .ok tx := by
      rw [SqliteTables.commit,ho]
      rfl
    refine ⟨?_,?_⟩
    · show (s.sqlite.rename libs uri uri now).isOk = (s.memory.rename uri uri).isOk
      rw [ho,hmm]
      rfl
    · rw [step_sqlite hc]
      show Paired libs ⟨tx,s.memory.step (.rename uri uri)⟩
      have ht : s.memory.step (.rename uri uri) = s.memory := by
        rw [MemoryContextStore.step,hmm]
        show { s.memory with entries := (s.memory.entries.erase uri.canonical).insert uri.canonical list } = s.memory
        rw [hs]
      rw [ht]
      refine ⟨h.history.rename ho,fun key => ?_,fun key => ?_,h.stored,h.blobs⟩
      · rw [hr.entries,Std.ExtTreeMap.mem_insert,Std.ExtTreeMap.mem_erase,h.live key]
        by_cases hk : uri.canonical = key
        · subst hk
          exact iff_of_true (.inl (by simp)) hm
        · simp [hk]
      · by_cases hk : uri.canonical = key
        · subst hk
          have hv : (s.sqlite.versionsOf uri.canonical).map (SqliteTables.movedRow uri) =
              s.sqlite.versionsOf uri.canonical := by
            refine (List.map_congr_left (fun old hd => ?_)).trans (List.map_id _)
            have hu : old.uri = uri.canonical := (SqliteTables.mem_versionsOf.mp hd).2
            have he : old.entry.uri = uri := Except.ok.inj ((h.stored_version hd).parsed.symm.trans hp)
            show (⟨uri.canonical,old.version,{ old.entry with uri := uri }⟩ : VersionRow) = old
            rw [← hu,← he]
          rw [hr.versionsOf_to (.inl rfl),hv]
          exact h.versions uri.canonical
        · rw [hr.versionsOf_other hk hk]
          exact h.versions key

theorem not_rename (h : s.Paired libs) (ha : (StoreCall.rename from_ to_ now).Addressed)
    (hk : ¬ s.Agreeing libs (.rename from_ to_ now)) :
    ¬ (s.SameResult libs (.rename from_ to_ now) ∧ (s.step libs (.rename from_ to_ now)).SameEntries) := by
  rintro ⟨he,hn⟩
  obtain ⟨hme,hne⟩ := not_or.mp hk
  obtain ⟨list,hi⟩ := Option.isSome_iff_exists.mp (Std.ExtTreeMap.isSome_getElem?_iff_mem.mpr (not_not.mp hme))
  have hm : s.memory.rename from_ to_ =
      .ok ((), { s.memory with entries := (s.memory.entries.erase from_.canonical).insert to_.canonical list }) := by
    rw [MemoryContextStore.rename,hi]
  have he : (s.sqlite.rename libs from_ to_ now).isOk = (s.memory.rename from_ to_).isOk := he
  rw [hm] at he
  cases ho : s.sqlite.rename libs from_ to_ now with
  | error e =>
    rw [ho] at he
    cases he
  | ok out =>
    obtain ⟨u,tx⟩ := out
    obtain ⟨row,point,hre⟩ := SqliteTables.rename_ok ho
    have hc : s.sqlite.commit libs .standard (.rename from_ to_ now) = .ok tx := by
      rw [SqliteTables.commit,ho]
      rfl
    rw [step_sqlite hc] at hn
    have hr := hn to_.canonical
    have ht : (s.memory.step (.rename from_ to_)).latest to_.canonical = list.getLast? := by
      rw [MemoryContextStore.step,hm]
      show (((s.memory.entries.erase from_.canonical).insert to_.canonical list)[to_.canonical]?).bind List.getLast? = _
      rw [Std.ExtTreeMap.getElem?_insert_self]
      rfl
    have hr : Option.Rel SameEntry ((tx.entries[to_.canonical]?).map (·.entry))
      ((s.memory.step (.rename from_ to_)).latest to_.canonical) := hr
    rw [ht,hre.entries,Std.ExtTreeMap.getElem?_insert_self] at hr
    cases hl : list.getLast? with
    | none =>
      rw [hl] at hr
      cases hr
    | some entry =>
      rw [hl] at hr
      cases hr with
      | some hs =>
        have hu : entry.uri = to_ := hs.uri
        have hst := h.stored from_.canonical entry (by
          rw [MemoryContextStore.history,hi]
          exact List.mem_of_getLast? hl)
        have hf : entry.uri = from_ := Except.ok.inj (hst.parsed.symm.trans (ha from_ List.mem_cons_self))
        exact hne (hf.symm.trans hu)

end Rename

section Rollback

variable {uri : ContextUri} {to_ : MvccVersion} {now : DateTime}

theorem find_version (h : s.Paired libs) (u : String) (to_ : MvccVersion) :
    Option.Rel SameVersion (s.sqlite.versions.find? (fun row => row.uri = u && row.version = to_))
      ((s.memory.history u).find? (fun e => e.mvccVersion = to_)) := by
  have hf : s.sqlite.versions.find? (fun row => row.uri = u && row.version = to_) =
      (s.sqlite.versionsOf u).find? (fun row => row.version = to_) := by
    rw [versionsOf,List.find?_filter]
    congr 1
    funext row
    simp
  rw [hf]
  exact forall₂_find? (fun row entry hs => by rw [hs.version]) (h.versions u)

theorem rollback_missing (h : s.Paired libs)
    (hn : (s.memory.history uri.canonical).find? (fun e => e.mvccVersion = to_) = none) :
    s.SameResult libs (.rollback uri to_ now) ∧ s.step libs (.rollback uri to_ now) = s := by
  obtain ⟨e,hm⟩ : ∃ e, s.memory.rollback uri to_ = .error e := by
    unfold MemoryContextStore.rollback
    rw [MemoryContextStore.history] at hn
    cases hl : s.memory.entries[uri.canonical]? with
    | none => exact ⟨_,rfl⟩
    | some list =>
      rw [hl] at hn
      dsimp only [Option.getD_some] at hn ⊢
      rw [hn]
      exact ⟨_,rfl⟩
  have hr := h.find_version uri.canonical to_
  rw [hn] at hr
  obtain ⟨e',hs⟩ : ∃ e', s.sqlite.rollback libs uri to_ now = .error e' := by
    unfold SqliteTables.rollback
    split
    · exact ⟨_,rfl⟩
    · cases hf : s.sqlite.versions.find? (fun row => row.uri = uri.canonical && row.version = to_) with
      | none => exact ⟨_,rfl⟩
      | some row =>
        rw [hf] at hr
        cases hr
  have hc : s.sqlite.commit libs .standard (.rollback uri to_ now) = .error e' := by
    rw [SqliteTables.commit,hs]
    rfl
  refine ⟨?_,?_⟩
  · show (s.sqlite.rollback libs uri to_ now).isOk = (s.memory.rollback uri to_).isOk
    rw [hs,hm]
    rfl
  · rw [step_error hc]
    show (⟨s.sqlite,s.memory.step (.rollback uri to_)⟩ : ContentStores) = s
    rw [MemoryContextStore.step,hm]
    rfl

theorem memory_rollback
    (ht : (s.memory.history uri.canonical).find? (fun e => e.mvccVersion = to_) = some tgt) :
    s.memory.rollback uri to_ = .ok ((), ⟨s.memory.entries.insert uri.canonical (s.memory.history uri.canonical ++
      [{ tgt with mvccVersion := (s.memory.history uri.canonical).length+1 }]),s.memory.l2Blobs⟩) := by
  unfold MemoryContextStore.rollback
  rw [MemoryContextStore.history] at ht ⊢
  cases hl : s.memory.entries[uri.canonical]? with
  | none =>
    rw [hl] at ht
    cases ht
  | some list =>
    rw [hl] at ht
    dsimp only [Option.getD_some] at ht ⊢
    rw [ht]

theorem rollback_isOk (h : s.Paired libs) (ha : ContextUri.parse uri.canonical = .ok uri) (now : DateTime) (hr : s.sqlite.versions.find? (fun row => row.uri = uri.canonical && row.version = to_) = some row)
    (hf : to_ < 2 ^ 63) : (s.sqlite.rollback libs uri to_ now).isOk = true := by
  have hk : row.uri = uri.canonical ∧ row.version = to_ := by simpa using List.find?_some hr
  have hm : row ∈ s.sqlite.versionsOf uri.canonical :=
    SqliteTables.mem_versionsOf.mpr ⟨List.mem_of_find?_eq_some hr,hk.1⟩
  have hs := h.stored_version hm
  have he : row.entry.uri = uri := Except.ok.inj (hs.parsed.symm.trans ha)
  have hl : uri.canonical ∈ s.sqlite.entries := by
    by_contra hn
    rw [(h.history uri.canonical).versionsOf_nil (Std.ExtTreeMap.getElem?_eq_none hn)] at hm
    cases hm
  have hsa : { row.entry with uri := uri } = row.entry := by rw [← he]
  have hi := @History.writeInTx_isOk libs s.sqlite row.entry h.history now hs.valid
  cases ho : s.sqlite.writeInTx libs row.entry now with
  | error e =>
    rw [ho] at hi
    cases hi
  | ok out =>
    have hp := (@SqliteTables.upsertMutation_isOk libs row.entry out.1).trans hs.point
    have hf' : ¬ 2 ^ 63 ≤ to_ := Nat.not_le.mpr hf
    simp only [SqliteTables.rollback,hr,hsa,hl,ho,hf',not_true_eq_false,if_false,bind,Except.bind]
    cases hu : upsertMutation libs row.entry out.1 with
    | error e =>
      rw [hu] at hp
      cases hp
    | ok chg => rfl

theorem restored (h : s.Paired libs) (hp : ContextUri.parse uri.canonical = .ok uri) {inner : SqliteTables}
    (hr : s.sqlite.versions.find? (fun row => row.uri = uri.canonical && row.version = to_) = some row)
    (hv : SameVersion row tgt)
    (hn : s.sqlite.writeInTx libs { row.entry with uri := uri } now = .ok (version, inner))
    (chg : Option IndexMutation) :
    Paired libs ⟨inner.enqueueAny chg now,
      ⟨s.memory.entries.insert uri.canonical (s.memory.history uri.canonical ++
      [{ tgt with mvccVersion := (s.memory.history uri.canonical).length+1 }]),s.memory.l2Blobs⟩⟩ := by
  obtain ⟨hu,-⟩ : row.uri = uri.canonical ∧ row.version = to_ := by simpa using List.find?_some hr
  have hs := h.stored_version (SqliteTables.mem_versionsOf.mpr ⟨List.mem_of_find?_eq_some hr,hu⟩)
  have he : row.entry.uri = uri := Except.ok.inj (hs.parsed.symm.trans hp)
  obtain ⟨stored,hw⟩ := SqliteTables.writeInTx_ok hn
  obtain ⟨clean,hc,hre⟩ := hw.redacted
  have hc : clean = row.entry := by
    rw [← he] at hc
    exact (Except.ok.inj (hs.redacted.symm.trans hc)).symm
  have ha : stored.uri.canonical = uri.canonical := by rw [hre,hc,he]
  have hi := hw.inserted
  rw [ha] at hi
  have hx : version = (s.memory.history uri.canonical).length + 1 := by rw [hi.next,h.length_eq]
  have ht : tgt = { row.entry with updatedAt := tgt.updatedAt } := hv.entry
  have hm : SameVersion ⟨uri.canonical,version,stored⟩ { tgt with mvccVersion := version } := by
    refine ⟨rfl,?_⟩
    rw [hre,hc,ht]
    rfl
  have ho : Stored libs uri.canonical { tgt with mvccVersion := version } := by
    rw [ht]
    exact hs.congr version tgt.updatedAt
  rw [← hx]
  have hpa := h.append hi hm ho
  obtain ⟨hnt,hve,-⟩ := @SqliteTables.enqueueAny_frame inner chg now
  exact hpa.congr hnt hve

theorem rollback (h : s.Paired libs) (hp : ContextUri.parse uri.canonical = .ok uri)
    (hk : s.Agreeing libs (.rollback uri to_ now)) :
    s.SameResult libs (.rollback uri to_ now) ∧ (s.step libs (.rollback uri to_ now)).Paired libs := by
  cases ht : (s.memory.history uri.canonical).find? (fun e => e.mvccVersion = to_) with
  | none =>
    obtain ⟨he,hs⟩ := @rollback_missing libs s uri to_ now h ht
    exact ⟨he,hs.symm ▸ h⟩
  | some tgt =>
    have hfi : to_ < 2 ^ 63 := by
      refine hk.resolve_right (fun hn => hn tgt (List.mem_of_find?_eq_some ht) ?_)
      simpa using List.find?_some ht
    have hr := h.find_version uri.canonical to_
    rw [ht] at hr
    cases hf : s.sqlite.versions.find? (fun row => row.uri = uri.canonical && row.version = to_) with
    | none =>
      rw [hf] at hr
      cases hr
    | some row =>
      rw [hf] at hr
      cases hr with
      | some hv =>
        have hi := h.rollback_isOk hp now hf hfi
        cases ho : s.sqlite.rollback libs uri to_ now with
        | error e =>
          rw [ho] at hi
          cases hi
        | ok out =>
          obtain ⟨u,tx⟩ := out
          have hc : s.sqlite.commit libs .standard (.rollback uri to_ now) = .ok tx := by
            rw [SqliteTables.commit,ho]
            rfl
          refine ⟨?_,?_⟩
          · show (s.sqlite.rollback libs uri to_ now).isOk = (s.memory.rollback uri to_).isOk
            rw [ho,memory_rollback ht]
            rfl
          · rw [step_sqlite hc]
            show Paired libs ⟨tx,s.memory.step (.rollback uri to_)⟩
            rw [MemoryContextStore.step,memory_rollback ht]
            obtain ⟨row',version,inner,chg,hf',-,hin,-,rfl⟩ := SqliteTables.rollback_ok ho
            obtain rfl := Option.some.inj (hf.symm.trans hf')
            exact h.restored hp hf hv hin chg

theorem not_rollback (ho : ¬ s.Agreeing libs (.rollback uri to_ now)) :
    ¬ s.SameResult libs (.rollback uri to_ now) := by
  intro hr
  obtain ⟨hf,hs⟩ := not_or.mp ho
  push Not at hs
  obtain ⟨entry,he,hv⟩ := hs
  have hi : ((s.memory.history uri.canonical).find? (fun e => e.mvccVersion = to_)).isSome = true :=
    List.find?_isSome.mpr ⟨entry,he,by simpa using hv⟩
  obtain ⟨tgt,ht⟩ := Option.isSome_iff_exists.mp hi
  have hr : (s.sqlite.rollback libs uri to_ now).isOk = (s.memory.rollback uri to_).isOk := hr
  rw [memory_rollback ht,SqliteTables.rollback,if_pos (Nat.not_lt.mp hf)] at hr
  cases hr

end Rollback

section Run

variable {call : StoreCall}

theorem step (h : s.Paired libs) (ha : call.Addressed) (ho : s.Agreeing libs call) :
    s.SameResult libs call ∧ (s.step libs call).Paired libs := by
  cases call with
  | write entry now => exact h.write (ha entry.uri List.mem_cons_self) ho
  | delete uri now =>
    refine ⟨?_,h.delete ho⟩
    show (s.sqlite.delete uri now).isOk = true
    exact (h.delete_isOk uri now).mpr ho
  | rename from_ to_ now =>
    rcases em (from_.canonical ∈ s.memory.entries) with hm | hn
    · obtain rfl := ho.resolve_left (not_not.mpr hm)
      exact h.rename_self hm (ha from_ List.mem_cons_self)
    · obtain ⟨hr,hs⟩ := @rename_missing libs s from_ to_ now h hn
      exact ⟨hr,hs.symm ▸ h⟩
  | rollback uri to_ now => exact h.rollback (ha uri List.mem_cons_self) ho

theorem agrees_iff (h : s.Paired libs) (ha : call.Addressed) :
    s.SameResult libs call ∧ (s.step libs call).SameEntries ↔ s.Agreeing libs call := by
  constructor
  · rintro ⟨hr,he⟩
    by_contra ho
    cases call with
    | write entry now => exact h.not_write ho hr
    | delete uri now =>
      have hr : (s.sqlite.delete uri now).isOk = true := hr
      exact ho ((h.delete_isOk uri now).mp hr)
    | rename from_ to_ now => exact h.not_rename ha ho ⟨hr,he⟩
    | rollback uri to_ now => exact not_rollback ho hr
  · intro ho
    obtain ⟨hr,hp⟩ := h.step ha ho
    exact ⟨hr,hp.sameEntries⟩

theorem sameReads_iff (h : s.Paired libs) (u : ContextUri) : s.SameReads u ↔
    ∀ entry, s.memory.latest u.canonical = some entry → ∃ text full, entry.payload = .text text text full := by
  have hs := h.sameEntries u.canonical
  cases hl : s.memory.latest u.canonical with
  | none =>
    refine iff_of_true (fun lvl => ?_) (by simp)
    rw [hl] at hs
    cases hr : s.sqlite.entries[u.canonical]? with
    | none => simp [SqliteTables.read,SqliteTables.loadEntry,MemoryContextStore.read,hr,hl,Except.map]
    | some row =>
      rw [hr] at hs
      cases hs
  | some entry =>
    rw [hl] at hs
    cases hr : s.sqlite.entries[u.canonical]? with
    | none =>
      rw [hr] at hs
      cases hs
    | some row =>
      rw [hr] at hs
      cases hs with
      | some hn =>
        have hp : entry.payload = row.entry.payload := hn.payload
        have hq : ∀ lvl, s.sqlite.read u lvl = .ok (SqliteTables.payloadAt row.entry lvl) := by
          intro lvl
          simp [SqliteTables.read,SqliteTables.loadEntry,hr,Except.map]
        have hb : (s.memory.l2Blobs[u.canonical]?).filter (fun bytes => bytes.size != 0) = none := by
          simp [h.blobs]
        simp only [SameReads,hq,MemoryContextStore.read,hl,hb,Option.some.injEq,forall_eq',hp,SqliteTables.payloadAt]
        cases hk : row.entry.payload with
        | text sparse dense full =>
          have hl0 : entry.l0Text = sparse := by rw [ContextEntry.l0Text,hp,hk]; rfl
          rw [hl0]
          constructor
          · intro he
            have hl1 := he .l1
            simp only [Except.ok.injEq,ContentPayload.text.injEq,true_and] at hl1
            exact ⟨sparse,full,by rw [hl1]⟩
          · rintro ⟨text,full',ht⟩ lvl
            obtain ⟨rfl,rfl,rfl⟩ := ContentPayload.text.inj ht
            cases lvl <;> rfl
        | _ =>
          refine iff_of_false (fun he => ?_) (by simp)
          have hl0 := he .l0
          simp at hl0

end Run

end Paired

/-- **The two stores agree over a run exactly if every call of it is agreeing**: on the calls that succeed, the
versions they return, and the current entry of every URI. Where they do, reads of a URI agree at every level exactly
if its entry is a text whose abstract is its overview. -/
theorem stores_agree_iff (libraries : StoreLibraries) (calls : List StoreCall)
    (haddressed : ∀ call ∈ calls, call.Addressed) :
    (((∀ front call, front ++ [call] <+: calls → (run (step libraries) new front).SameResult libraries call) ∧
      ∀ front, front <+: calls → (run (step libraries) new front).SameEntries) ↔
        Meets (step libraries) (Agreeing libraries) new calls) ∧
    (Meets (step libraries) (Agreeing libraries) new calls → ∀ front, front <+: calls → ∀ uri,
      ((run (step libraries) new front).SameReads uri ↔
        ∀ entry, (run (step libraries) new front).memory.latest uri.canonical = some entry →
          ∃ text full, entry.payload = .text text text full)) := by
  have hi : ∀ s : ContentStores, ∀ call ∈ calls, s.Paired libraries →
      (s.SameResult libraries call ∧ (s.step libraries call).SameEntries ↔ s.Agreeing libraries call) :=
    fun s call hc h => h.agrees_iff (haddressed call hc)
  have hs : ∀ s : ContentStores, ∀ call ∈ calls, s.Paired libraries → s.Agreeing libraries call →
      (s.step libraries call).Paired libraries := fun s call hc h ho => (h.step (haddressed call hc) ho).2
  refine ⟨?_, fun hm front hp uri => ?_⟩
  · rw [← meets_congr hi hs paired_new, meets_iff_front]
    constructor
    · rintro ⟨hr, he⟩ front call hp
      have hn := he (front ++ [call]) hp
      rw [run_append] at hn
      exact ⟨hr front call hp, hn⟩
    · intro h
      refine ⟨fun front call hp => (h front call hp).1, fun front hp => ?_⟩
      induction front using List.reverseRecOn with
      | nil => exact (@paired_new libraries).sameEntries
      | append_singleton front call =>
        rw [run_append]
        exact (h front call hp).2
  · obtain ⟨rest, rfl⟩ := hp
    have hl : Meets (step libraries) (fun _ call => call.Addressed) new front :=
      meets_of_mem (fun call hc _ => haddressed call (List.mem_append_left rest hc)) new
    have hf := hl.and (meets_append.mp hm).1
    have hk : ∀ s : ContentStores, ∀ call, s.Paired libraries → call.Addressed ∧ s.Agreeing libraries call →
        (s.step libraries call).Paired libraries := fun s call h ho => (h.step ho.1 ho.2).2
    exact (run_invariant hk paired_new hf).sameReads_iff uri

def sampleLibraries : StoreLibraries := ⟨fun _ => none, fun _ => none, fun _ => 0, fun _ => none, id, 32766⟩

def sampleUri (path : String) : ContextUri := (ContextUri.ofTenant "t").join path

def agreeingCalls : List StoreCall :=
  [.write (.newText (sampleUri "x") 1 "one" 0) 0, .write (.newText (sampleUri "x") 1 "two" 0) 1,
    .rollback (sampleUri "x") 1 2, .delete (sampleUri "x") 3, .write (.newText (sampleUri "x") 1 "three" 0) 4]

def movingCalls : List StoreCall :=
  [.write (.newText (sampleUri "x") 1 "one" 0) 0, .rename (sampleUri "x") (sampleUri "y") 1]

theorem stores_agree_rewritten : (∀ front call, front ++ [call] <+: agreeingCalls →
    (run (step sampleLibraries) new front).SameResult sampleLibraries call) ∧
      ∀ front, front <+: agreeingCalls → (run (step sampleLibraries) new front).SameEntries :=
  (stores_agree_iff sampleLibraries agreeingCalls (by decide +kernel)).1.mpr (by decide +kernel)

theorem rename_keeps_old_uri : ¬ ((∀ front call, front ++ [call] <+: movingCalls →
    (run (step sampleLibraries) new front).SameResult sampleLibraries call) ∧
      ∀ front, front <+: movingCalls → (run (step sampleLibraries) new front).SameEntries) := by
  rintro ⟨-, hn⟩
  have hs := hn movingCalls (List.prefix_refl _) "uwu://t/y"
  have hq : ((run (step sampleLibraries) new movingCalls).sqlite.entries["uwu://t/y"]?).map (·.entry.uri.canonical) =
      some "uwu://t/y" := by decide +kernel
  have hm : ((run (step sampleLibraries) new movingCalls).memory.latest "uwu://t/y").map (·.uri.canonical) =
      some "uwu://t/x" := by decide +kernel
  obtain ⟨row, hr, hu⟩ := Option.map_eq_some_iff.mp hq
  obtain ⟨entry, he, hu'⟩ := Option.map_eq_some_iff.mp hm
  rw [hr, he] at hs
  cases hs with
  | some he =>
    have hs : entry.uri = row.entry.uri := he.uri
    rw [hs, hu] at hu'
    exact absurd hu' (by decide)

end ContentStores

end UwuContextDb.Content
