import Mathlib.Data.Prod.Lex
import UwuContextDb.Content.BatchWrites
import UwuContextDb.Content.StoredRows
import UwuContextDb.Library.Delivery

/-! The vector index as a projection of the content: the points that the index is to hold, and what the mutations that a
call of the store enqueues make of them. -/

namespace UwuContextDb.Content

open StateMachine
open WriteSecurity (sanitizeEntryForWrite)

/-- A call of the `VectorIndex`. -/
inductive IndexCall
  | upsert (collection : String) (point : IndexPoint)
  | delete (collection : String) (uri : ContextUri)

/-- The calls that `apply` makes one after another, until one of them fails. -/
def applyCalls : IndexMutation → List IndexCall
  | .upsert collection point => [.upsert collection point]
  | .delete collection uri => [.delete collection uri]
  | .rename collection from_ point => .delete collection from_ :: (point.map (IndexCall.upsert collection)).toList

abbrev Place := String × String

abbrev Points := Place → Option IndexPoint

def IndexCall.place : IndexCall → Place
  | upsert collection point => (collection, point.uri.canonical)
  | delete collection uri => (collection, uri.canonical)

def IndexCall.point : IndexCall → Option IndexPoint
  | upsert _ point => some point
  | delete .. => none

abbrev IndexChange := Delivery.Change (ℕ ×ₗ ℕ) Place IndexPoint

def changesOf (id : ℕ) (mutation : IndexMutation) : List IndexChange :=
  (applyCalls mutation).mapIdx (fun n call => ⟨toLex (id, n), call.place, call.point⟩)

def changeLog (log : List (ℕ × IndexMutation)) : List IndexChange := log.flatMap (fun entry => changesOf entry.1 entry.2)

def applied (points : Points) (mutation : IndexMutation) : Points :=
  (applyCalls mutation).foldl (fun points call => Function.update points call.place call.point) points

theorem foldl_changesOf (id : ℕ) (mutation : IndexMutation) (points : Points) :
    (changesOf id mutation).foldl Delivery.put points = applied points mutation := by
  cases mutation with
  | rename coll from_ point => cases point <;> rfl
  | _ => rfl

theorem foldl_changeLog (log : List (ℕ × IndexMutation)) (points : Points) :
    (changeLog log).foldl Delivery.put points = (log.map Prod.snd).foldl applied points := by
  induction log generalizing points with
  | nil => rfl
  | cons entry log ih =>
    rw [changeLog,List.flatMap_cons,List.foldl_append,foldl_changesOf]
    exact ih _

theorem mem_changesOf {id : ℕ} {mutation : IndexMutation} {change : IndexChange} (h : change ∈ changesOf id mutation) :
    ∃ n, change.position = toLex (id, n) ∧ (changesOf id mutation)[n]? = some change := by
  obtain ⟨n,hn⟩ := List.mem_iff_getElem?.mp h
  refine ⟨n,?_,hn⟩
  rw [changesOf,List.getElem?_mapIdx] at hn
  obtain ⟨call,-,rfl⟩ := Option.map_eq_some_iff.mp hn
  rfl

theorem changesOf_ordered (id : ℕ) (mutation : IndexMutation) : Delivery.Ordered (changesOf id mutation) := by
  apply List.pairwise_iff_getElem.mpr
  intro m n hm hn hl
  simp only [changesOf,List.getElem_mapIdx]
  exact Prod.Lex.toLex_lt_toLex.mpr (.inr ⟨rfl,hl⟩)

theorem changeLog_ordered {log : List (ℕ × IndexMutation)} (hi : log.map Prod.fst = List.range log.length) :
    Delivery.Ordered (changeLog log) := by
  apply List.pairwise_flatMap.mpr
  refine ⟨fun entry _ => changesOf_ordered entry.1 entry.2,?_⟩
  have hl : log.Pairwise (fun a b => a.1 < b.1) := by
    rw [← List.pairwise_map,hi]
    exact List.pairwise_lt_range
  apply hl.imp
  intro a b ha x hx y hy
  obtain ⟨m,hm,-⟩ := mem_changesOf hx
  obtain ⟨n,hn,-⟩ := mem_changesOf hy
  rw [hm,hn]
  exact Prod.Lex.toLex_lt_toLex.mpr (.inl ha)

section Expected

def indexedIn (entry : ContextEntry) : Option String :=
  (entry.metadata.custom.get? "embedding_vector").map (fun _ => collectionFromEntry entry)

variable {libraries libs : StoreLibraries} {entry : ContextEntry}

theorem indexedIn_congr {other : ContextEntry}
    (h : ∀ key, key ≠ "security_redactions" → other.metadata.custom.get? key = entry.metadata.custom.get? key) :
    indexedIn other = indexedIn entry := by
  unfold indexedIn collectionFromEntry
  rw [h "embedding_vector" (by decide),h "vector_collection" (by decide)]

theorem pointFromEntry_ok {point : Option IndexPoint} (h : pointFromEntry libs entry = .ok point) :
    point = none ∧ indexedIn entry = none ∨
      ∃ p, point = some p ∧ p.uri = entry.uri ∧ indexedIn entry = some (collectionFromEntry entry) := by
  unfold pointFromEntry at h
  unfold indexedIn
  cases hv : entry.metadata.custom.get? "embedding_vector" with
  | none =>
    rw [hv] at h
    exact .inl ⟨(Except.ok.inj h).symm,rfl⟩
  | some v =>
    rw [hv] at h
    dsimp only at h
    split at h
    · cases h
    · split at h
      · cases h
      · split at h
        · cases h
        · exact .inr ⟨_,(Except.ok.inj h).symm,rfl,rfl⟩

def entryPoint (libraries : StoreLibraries) (entry : ContextEntry) (collection : String) : Option IndexPoint :=
  if indexedIn entry = some collection then (pointFromEntry libraries entry).toOption.join else none

theorem foldl_applied_upsert {points : Points} {mutation : Option IndexMutation} {uri : String}
    (hu : entry.uri.canonical = uri)
    (hm : (pointFromEntry libs entry).map
      (fun point => point.map (IndexMutation.upsert (collectionFromEntry entry))) = .ok mutation)
    (hr : ∀ collection, points (collection, uri) ≠ none → indexedIn entry = some collection) (place : Place) :
    mutation.toList.foldl applied points place =
      if uri = place.2 then entryPoint libs entry place.1 else points place := by
  obtain ⟨point,ho,rfl⟩ := map_eq_ok.mp hm
  have hn : ∀ collection, indexedIn entry ≠ some collection → points (collection, uri) = none := by
    intro collection he
    by_contra hs
    exact he (hr collection hs)
  rcases pointFromEntry_ok ho with ⟨rfl,hb⟩ | ⟨p,rfl,hp,hi⟩
  · by_cases hl : uri = place.2
    · subst hl
      simp [entryPoint,hb,hn place.1]
    · simp [hl]
  · have hk : p.uri.canonical = uri := by rw [hp,hu]
    obtain ⟨collection,key⟩ := place
    by_cases hl : uri = key
    · subst hl
      by_cases hc : collectionFromEntry entry = collection
      · subst hc
        simp [applied,applyCalls,IndexCall.place,IndexCall.point,hk,entryPoint,hi,ho,Except.toOption]
      · have ht : indexedIn entry ≠ some collection := by simpa [hi] using hc
        simp [applied,applyCalls,IndexCall.place,hk,Ne.symm hc,entryPoint,ht,hn collection ht]
    · simp [applied,applyCalls,IndexCall.place,hk,Ne.symm hl,hl]

namespace SqliteTables

variable {st tx : SqliteTables} {now : DateTime}

def expectedPoint (libraries : StoreLibraries) (st : SqliteTables) : Points := fun place =>
  (st.entries[place.2]?).bind (fun row => entryPoint libraries row.entry place.1)

def indexedAt (st : SqliteTables) (uri : String) : Option String := (st.entries[uri]?).bind (fun row => indexedIn row.entry)

theorem indexedAt_of_expectedPoint {collection u : String} (h : st.expectedPoint libs (collection, u) ≠ none) :
    st.indexedAt u = some collection := by
  unfold expectedPoint at h
  unfold indexedAt
  dsimp only at h
  cases hr : st.entries[u]? with
  | none => simp [hr] at h
  | some row =>
    rw [hr,Option.bind_some,entryPoint] at h
    by_cases hi : indexedIn row.entry = some collection
    · exact hi
    · simp [hi] at h

theorem expectedPoint_insert {u : String} {row : CurrentRow} (he : tx.entries = st.entries.insert u row)
    (place : Place) : tx.expectedPoint libs place =
      if u = place.2 then entryPoint libs row.entry place.1 else st.expectedPoint libs place := by
  unfold expectedPoint
  rw [he,Std.ExtTreeMap.getElem?_insert]
  by_cases hu : u = place.2
  · simp [hu]
  · simp [hu]

theorem expectedPoint_upsert {u : String} {row : CurrentRow} {mutation : Option IndexMutation}
    (he : tx.entries = st.entries.insert u row) (hu : row.entry.uri.canonical = u)
    (hm : (pointFromEntry libs row.entry).map
      (fun point => point.map (IndexMutation.upsert (collectionFromEntry row.entry))) = .ok mutation)
    (hr : ∀ coll ∈ st.indexedAt u, indexedIn row.entry = some coll) :
    mutation.toList.foldl applied (st.expectedPoint libs) = tx.expectedPoint libs := by
  funext place
  rw [expectedPoint_insert he,foldl_applied_upsert hu hm]
  intro coll hp
  exact hr coll (indexedAt_of_expectedPoint hp)

theorem expectedPoint_delete {u : ContextUri} {coll : String}
    (he : tx.entries = st.entries.erase u.canonical)
    (hc : ∀ other ∈ st.indexedAt u.canonical, other = coll) :
    applied (st.expectedPoint libs) (.delete coll u) = tx.expectedPoint libs := by
  funext place
  obtain ⟨other,key⟩ := place
  have hr : tx.expectedPoint libs (other, key) =
      if u.canonical = key then none else st.expectedPoint libs (other, key) := by
    unfold expectedPoint
    dsimp only
    rw [he,Std.ExtTreeMap.getElem?_erase]
    by_cases hu : u.canonical = key
    · simp [hu]
    · simp [hu]
  rw [hr]
  by_cases hu : u.canonical = key
  · subst hu
    by_cases hs : other = coll
    · subst hs
      simp [applied,applyCalls,IndexCall.place,IndexCall.point]
    · have hn : st.expectedPoint libs (other, u.canonical) = none := by
        by_contra ho
        exact hs (hc other (indexedAt_of_expectedPoint ho))
      simp [applied,applyCalls,IndexCall.place,hs,hn]
  · simp [applied,applyCalls,IndexCall.place,hu,Ne.symm hu]

end SqliteTables

def Retains : (String → Option String) → List ContextEntry → Prop
  | _, [] => True
  | current, entry::rest => (∀ collection ∈ current entry.uri.canonical, indexedIn entry = some collection) ∧
    Retains (Function.update current entry.uri.canonical (indexedIn entry)) rest

instance decidableRetains : ∀ (current : String → Option String)
    (entries : List ContextEntry), Decidable (Retains current entries)
  | _, [] => isTrue trivial
  | current, entry::rest =>
    have : Decidable (Retains (Function.update current entry.uri.canonical (indexedIn entry)) rest) :=
      decidableRetains _ rest
    inferInstanceAs (Decidable (_ ∧ _))

end Expected

namespace SqliteTables

/-- `reconcile_all`: an upsert for every entry that has an embedding, in one transaction. -/
def reconcileAll (libraries : StoreLibraries) (st : SqliteTables) (now : DateTime) : Except ContextError SqliteTables :=
  st.entries.toList.foldlM (fun tx row =>
    (pointFromEntry libraries row.2.entry).map (fun point =>
      tx.enqueueAny (point.map (.upsert (collectionFromEntry row.2.entry))) now)) st

section Projection

variable {libraries libs : StoreLibraries} {cfg : BatchWriteConfig} {st tx : SqliteTables} {now : DateTime}

def mutations (st : SqliteTables) : List IndexMutation := st.outbox.map (·.mutation)

def Projected (libraries : StoreLibraries) (st : SqliteTables) : Prop :=
  st.mutations.foldl applied (fun _ => none) = st.expectedPoint libraries

def Retained (st : SqliteTables) : Op → Prop
  | .write entry _ => Retains st.indexedAt [entry]
  | .batchWrite entries _ => Retains st.indexedAt entries
  | .rollback uri to_ _ => ∀ row ∈ st.versions.find? (fun row => row.uri = uri.canonical && row.version = to_),
    Retains st.indexedAt [{ row.entry with uri := uri }]
  | _ => True

instance (st : SqliteTables) (op : Op) : Decidable (st.Retained op) := by
  unfold Retained
  split <;> infer_instance

theorem mutations_enqueue (mutation : IndexMutation) :
    (st.enqueue mutation now).mutations = st.mutations ++ [mutation] := by
  simp [mutations,enqueue]

theorem mutations_enqueueAny (mutation : Option IndexMutation) :
    (st.enqueueAny mutation now).mutations = st.mutations ++ mutation.toList := by
  cases mutation with
  | none => simp [enqueueAny]
  | some mutation => exact mutations_enqueue mutation

theorem projected_empty : empty.Projected libs := by
  funext place
  simp [mutations,empty,expectedPoint]

theorem Projected.append (h : st.Projected libs) {new : List IndexMutation}
    (hm : tx.mutations = st.mutations++new)
    (hn : new.foldl applied (st.expectedPoint libs) = tx.expectedPoint libs) : tx.Projected libs := by
  rw [Projected,hm,List.foldl_append,h]
  exact hn

theorem Projected.congr (h : st.Projected libs) (ho : tx.outbox = st.outbox)
    (he : tx.entries = st.entries) :
    tx.Projected libs := by
  have hm : tx.mutations = st.mutations ++ [] := by simp [mutations,ho]
  refine h.append hm ?_
  funext place
  simp [expectedPoint,he]

variable {entry clean : ContextEntry} {ver : MvccVersion} {mutation : Option IndexMutation}
  {vs : List MvccVersion}

theorem indexedIn_sanitized (h : sanitizeEntryForWrite entry = .ok clean)
    (ver : MvccVersion) : indexedIn { clean with updatedAt := now, mvccVersion := ver } = indexedIn entry :=
  indexedIn_congr (sanitized_of_ok h).custom

theorem upsert_of_stored
    (h : sanitizeEntryForWrite entry = .ok clean) (hm : upsertMutation libs entry ver = .ok mutation) :
    (pointFromEntry libs { clean with updatedAt := now, mvccVersion := ver }).map
      (fun point => point.map (IndexMutation.upsert
        (collectionFromEntry { clean with updatedAt := now, mvccVersion := ver }))) = .ok mutation := by
  rw [← upsertMutation_sanitized (sanitized_of_ok h) rfl] at hm
  exact hm

theorem Projected.written (h : st.Projected libs) {entry : ContextEntry} {inner : SqliteTables}
    (hn : st.writeInTx libs entry now = .ok (ver, inner))
    (hm : upsertMutation libs entry ver = .ok mutation) (hr : Retains st.indexedAt [entry]) :
    (inner.enqueueAny mutation now).Projected libs ∧
      (inner.enqueueAny mutation now).indexedAt = Function.update st.indexedAt entry.uri.canonical (indexedIn entry) := by
  obtain ⟨stored,hw⟩ := writeInTx_ok hn
  obtain ⟨clean,hc,hs⟩ := hw.redacted
  have hu : stored.uri = entry.uri := by
    rw [hs,(sanitized_of_ok hc).frame]
  have hi : indexedIn stored = indexedIn entry := by
    rw [hs]
    exact indexedIn_sanitized hc ver
  have he : (inner.enqueueAny mutation now).entries =
      st.entries.insert entry.uri.canonical ⟨stored,ver,stored.metadata.custom⟩ := by
    rw [(enqueueAny_frame mutation now).1,hw.tables,hu]
  constructor
  · have ht : (inner.enqueueAny mutation now).mutations = st.mutations ++ mutation.toList := by
      rw [mutations_enqueueAny,hw.tables]
      rfl
    refine h.append ht (expectedPoint_upsert he (by rw [hu]) ?_ ?_)
    · rw [hs]
      exact upsert_of_stored hc hm
    · intro coll ho
      rw [hi]
      exact hr.1 coll ho
  · funext u
    unfold indexedAt
    rw [he,Std.ExtTreeMap.getElem?_insert]
    by_cases ha : entry.uri.canonical = u
    · subst ha
      simp [hi]
    · simp [ha,Function.update_of_ne (Ne.symm ha)]

theorem Projected.writeAll (h : st.Projected libs) {stamped : List (ContextEntry × DateTime)}
    (ho : st.writeAll libs stamped = .ok (vs, tx))
    (hr : Retains st.indexedAt (stamped.map Prod.fst)) : tx.Projected libs := by
  induction stamped generalizing st vs with
  | nil =>
    obtain ⟨-,rfl⟩ := Prod.mk.inj (Except.ok.inj ho)
    exact h
  | cons call rest ih =>
    obtain ⟨ver,first,later,hw,he⟩ := writeAll_cons ho
    obtain ⟨inner,mutation,hi,hm,rfl⟩ := write_ok hw
    obtain ⟨hf,hn⟩ := h.written hi hm ⟨hr.1,trivial⟩
    refine ih hf he ?_
    rw [hn]
    exact hr.2

theorem Alike.projected {uris : List String} (h : Alike libs uris tx st) (hs : st.Projected libs) :
    tx.Projected libs := by
  have hm : tx.mutations = st.mutations ++ [] := by
    rw [mutations,h.rest]
    simp [mutations,withRows]
  apply hs.append hm
  funext place
  show st.expectedPoint libs place = tx.expectedPoint libs place
  unfold expectedPoint
  rw [h.entries place.2]
  cases st.entries[place.2]? with
  | none => rfl
  | some row =>
    simp only [Option.map_some,Option.bind_some]
    split <;> rfl

theorem Projected.batchWrite (h : st.Projected libs) {es : List ContextEntry}
    (ho : st.batchWrite libs cfg es now = .ok (vs, tx)) (hr : Retains st.indexedAt es) :
    tx.Projected libs := by
  by_cases hn : es = []
  · subst hn
    obtain ⟨-,rfl⟩ := Prod.mk.inj (Except.ok.inj ho)
    exact h
  · obtain ⟨tx',ha,hl,-⟩ := batchWrite_alike hn ho
    refine hl.projected (h.writeAll ha ?_)
    simpa [List.map_map,Function.comp_def] using hr

theorem foldl_latest {rows : List VersionRow} (h : rows.Pairwise (fun a b => a.version ≤ b.version)) :
    rows.foldl (fun best row => if best.all (fun b => decide (b.version ≤ row.version)) then some row else best)
      (none : Option VersionRow) = rows.getLast? := by
  induction rows using List.reverseRecOn with
  | nil => rfl
  | append_singleton rows row ih =>
    obtain ⟨hr,-,hl⟩ := List.pairwise_append.mp h
    rw [List.foldl_append,ih hr,List.getLast?_concat]
    have ha : rows.getLast?.all (fun b => decide (b.version ≤ row.version)) = true := by
      cases ht : rows.getLast? with
      | none => rfl
      | some b => simpa using hl b (List.mem_of_getLast? ht) row List.mem_cons_self
    simp [ha]

theorem History.deletedCollection_eq (h : st.History) {u : ContextUri} {row : CurrentRow}
    (hr : st.entries[u.canonical]? = some row) : st.deletedCollection u = collectionFromEntry row.entry := by
  have hh := h u.canonical
  have ho : (st.versionsOf u.canonical).Pairwise (fun a b => a.version ≤ b.version) := by
    rw [← @List.pairwise_map _ _ VersionRow.version (· ≤ ·),hh.numbered]
    exact List.pairwise_le_range'
  obtain ⟨snapshot,hl,-,hs⟩ := hh.current row hr
  unfold deletedCollection
  rw [foldl_latest ho,hl,hs]
  rfl

theorem Projected.delete (h : st.Projected libs) (hh : st.History) {uri : ContextUri} {u : Unit}
    (ho : st.delete uri now = .ok (u, tx)) : tx.Projected libs := by
  have hd := delete_ok ho
  apply h.append
  · rw [mutations,hd.outbox]
    exact mutations_enqueue _
  · refine expectedPoint_delete hd.entries ?_
    intro coll hc
    obtain ⟨row,hr,hi⟩ := Option.bind_eq_some_iff.mp hc
    rw [hh.deletedCollection_eq hr]
    obtain ⟨v,-,hv⟩ := Option.map_eq_some_iff.mp hi
    exact hv.symm

theorem Projected.rename (h : st.Projected libs) {from_ to_ : ContextUri} {u : Unit}
    (hk : st.rename libs from_ to_ now = .ok (u, tx)) : tx.Projected libs := by
  obtain ⟨row,point,hr⟩ := rename_ok hk
  apply h.append
  · rw [mutations,hr.outbox]
    exact mutations_enqueue _
  · have hm : applied (st.expectedPoint libs) (.rename (collectionFromEntry row.entry) from_ point) =
        (point.map (IndexMutation.upsert (collectionFromEntry row.entry))).toList.foldl applied
          (applied (st.expectedPoint libs) (.delete (collectionFromEntry row.entry) from_)) := by
      cases point <;> rfl
    have hd := @expectedPoint_delete libs st { st with entries := st.entries.erase from_.canonical } from_
      (collectionFromEntry row.entry) rfl
    rw [List.foldl_cons,List.foldl_nil,hm,hd]
    · refine expectedPoint_upsert hr.entries rfl ?_ ?_
      · rw [hr.point_eq]
        rfl
      · intro coll hc
        obtain ⟨other,ho,-⟩ := Option.bind_eq_some_iff.mp hc
        rw [Std.ExtTreeMap.getElem?_erase] at ho
        split at ho
        · cases ho
        · rename_i he
          have hn := hr.target.resolve_left (by simpa using he)
          rw [Std.ExtTreeMap.getElem?_eq_none hn] at ho
          cases ho
    · intro coll hc
      obtain ⟨other,ho,hi⟩ := Option.bind_eq_some_iff.mp hc
      obtain rfl := Option.some.inj (hr.source.symm.trans ho)
      obtain ⟨v,-,hv⟩ := Option.map_eq_some_iff.mp hi
      exact hv.symm

theorem Projected.step (h : st.Projected libs) (hh : st.History) {op : Op} (hr : st.Retained op) :
    (st.step libs cfg op).Projected libs := by
  cases hc : st.commit libs cfg op with
  | error e =>
    rw [step_of_error hc]
    exact h
  | ok tx =>
    rw [step_of_ok hc]
    cases op with
    | write entry now =>
      obtain ⟨⟨ver,tx'⟩,hw,rfl⟩ := map_eq_ok.mp hc
      obtain ⟨inner,mutation,hi,hm,rfl⟩ := write_ok hw
      exact (h.written hi hm hr).1
    | batchWrite es now =>
      obtain ⟨⟨vs,tx'⟩,hw,rfl⟩ := map_eq_ok.mp hc
      exact h.batchWrite hw hr
    | delete uri now =>
      obtain ⟨⟨u,tx'⟩,hd,rfl⟩ := map_eq_ok.mp hc
      exact h.delete hh hd
    | rename from_ to_ now =>
      obtain ⟨⟨u,tx'⟩,hn,rfl⟩ := map_eq_ok.mp hc
      exact h.rename hn
    | rollback uri to_ now =>
      obtain ⟨⟨u,tx'⟩,hl,rfl⟩ := map_eq_ok.mp hc
      obtain ⟨row,ver,inner,mutation,hf,-,hi,hm,rfl⟩ := rollback_ok hl
      exact (h.written hi hm (hr row hf)).1
    | addEdge from_ to_ kind =>
      obtain rfl := Except.ok.inj hc
      obtain ⟨he,-,ho⟩ := st.addEdge_frame from_ to_ kind
      exact h.congr ho he
    | removeEdge from_ to_ =>
      obtain rfl := Except.ok.inj hc
      obtain ⟨he,-,ho⟩ := st.removeEdge_frame from_ to_
      exact h.congr ho he

theorem reconcileAll_ok (ht : st.Projected libs) (hn : st.Named)
    (h : st.reconcileAll libs now = .ok tx) : tx.Projected libs ∧ tx.entries = st.entries ∧
    tx.versions = st.versions := by
  refine foldlM_preserves (P := fun tx : SqliteTables => tx.Projected libs ∧ tx.entries = st.entries ∧
    tx.versions = st.versions) ?_ ⟨ht,rfl,rfl⟩ h
  rintro before ⟨key,row⟩ hr after ⟨hb,he,hv⟩ ha
  obtain ⟨point,hp,rfl⟩ := map_eq_ok.mp ha
  have hf : st.entries[key]? = some row := Std.ExtTreeMap.mem_toList_iff_getElem?_eq_some.mp hr
  obtain ⟨hs,hs',-⟩ := @enqueueAny_frame before (point.map (.upsert (collectionFromEntry row.entry))) now
  refine ⟨?_,hs.trans he,hs'.trans hv⟩
  refine hb.append (mutations_enqueueAny _) (expectedPoint_upsert ?_ (hn key row hf) ?_ ?_)
  · rw [hs,he]
    apply Std.ExtTreeMap.ext_getElem?
    intro other
    rw [Std.ExtTreeMap.getElem?_insert]
    by_cases ho : key = other
    · subst ho
      simp [hf]
    · simp [ho]
  · rw [hp]
    rfl
  · intro coll hc
    simpa [indexedAt,he,hf] using hc

end Projection

section Queue

variable {libraries libs : StoreLibraries} {cfg : BatchWriteConfig} {st tx : SqliteTables} {now : DateTime}
  {P : List OutboxRow → Prop}

/-- `P` stays true of the outbox when a mutation is enqueued. -/
def KeptByQueue (P : List OutboxRow → Prop) : Prop :=
  ∀ (st : SqliteTables) (mutation : IndexMutation) (now : DateTime), P st.outbox → P (st.enqueue mutation now).outbox

theorem KeptByQueue.any (hP : KeptByQueue P) (h : P st.outbox) (mutation : Option IndexMutation) :
    P (st.enqueueAny mutation now).outbox := by
  cases mutation with
  | none => exact h
  | some mutation => exact hP st mutation now h

theorem KeptByQueue.written (hP : KeptByQueue P) (h : P st.outbox) {e : ContextEntry} {ver : MvccVersion}
    {inner : SqliteTables} (hi : st.writeInTx libs e now = .ok (ver, inner))
    (mutation : Option IndexMutation) : P (inner.enqueueAny mutation now).outbox := by
  obtain ⟨stored,hw⟩ := writeInTx_ok hi
  refine hP.any ?_ mutation
  rw [hw.tables]
  exact h

theorem KeptByQueue.writeAll (hP : KeptByQueue P) (h : P st.outbox) {stamped : List (ContextEntry × DateTime)}
    {vs : List MvccVersion} (ho : st.writeAll libs stamped = .ok (vs, tx)) : P tx.outbox := by
  induction stamped generalizing st vs with
  | nil =>
    obtain ⟨-,rfl⟩ := Prod.mk.inj (Except.ok.inj ho)
    exact h
  | cons call rest ih =>
    obtain ⟨ver,first,later,hw,hr⟩ := writeAll_cons ho
    obtain ⟨inner,mutation,hi,hm,rfl⟩ := write_ok hw
    exact ih (hP.written h hi mutation) hr

theorem KeptByQueue.batchWrite (hP : KeptByQueue P) (h : P st.outbox) {es : List ContextEntry}
    {vs : List MvccVersion}
    (ho : st.batchWrite libs cfg es now = .ok (vs, tx)) : P tx.outbox := by
  by_cases hn : es = []
  · subst hn
    obtain ⟨-,rfl⟩ := Prod.mk.inj (Except.ok.inj ho)
    exact h
  · obtain ⟨tx',ha,hl,-⟩ := batchWrite_alike hn ho
    have hu : tx.outbox = (tx'.withRows tx.entries tx.versions).outbox := congrArg SqliteTables.outbox hl.rest
    rw [hu]
    show P tx'.outbox
    exact hP.writeAll h ha

theorem KeptByQueue.step (hP : KeptByQueue P) (h : P st.outbox) (op : Op) : P (st.step libs cfg op).outbox := by
  cases hc : st.commit libs cfg op with
  | error e =>
    rw [step_of_error hc]
    exact h
  | ok tx =>
    rw [step_of_ok hc]
    cases op with
    | write entry now =>
      obtain ⟨⟨ver,tx'⟩,hw,rfl⟩ := map_eq_ok.mp hc
      obtain ⟨inner,mutation,hi,hm,rfl⟩ := write_ok hw
      exact hP.written h hi mutation
    | batchWrite es now =>
      obtain ⟨⟨vs,tx'⟩,hw,rfl⟩ := map_eq_ok.mp hc
      exact hP.batchWrite h hw
    | delete uri now =>
      obtain ⟨⟨u,tx'⟩,hd,rfl⟩ := map_eq_ok.mp hc
      rw [(delete_ok hd).outbox]
      exact hP st _ now h
    | rename from_ to_ now =>
      obtain ⟨⟨u,tx'⟩,hr,rfl⟩ := map_eq_ok.mp hc
      obtain ⟨row,point,he⟩ := rename_ok hr
      rw [he.outbox]
      exact hP st _ now h
    | rollback uri to_ now =>
      obtain ⟨⟨u,tx'⟩,hl,rfl⟩ := map_eq_ok.mp hc
      obtain ⟨row,ver,inner,mutation,-,-,hi,hm,rfl⟩ := rollback_ok hl
      exact hP.written h hi mutation
    | addEdge from_ to_ kind =>
      obtain rfl := Except.ok.inj hc
      obtain ⟨-,-,ho⟩ := st.addEdge_frame from_ to_ kind
      exact ho ▸ h
    | removeEdge from_ to_ =>
      obtain rfl := Except.ok.inj hc
      obtain ⟨-,-,ho⟩ := st.removeEdge_frame from_ to_
      exact ho ▸ h

theorem KeptByQueue.reconcileAll (hP : KeptByQueue P) (h : P st.outbox)
    (ho : st.reconcileAll libs now = .ok tx) : P tx.outbox := by
  refine foldlM_preserves (P := fun tx : SqliteTables => P tx.outbox) ?_ h ho
  intro before row _ after hb ha
  obtain ⟨point,-,rfl⟩ := map_eq_ok.mp ha
  exact hP.any hb _

end Queue

end SqliteTables

end UwuContextDb.Content
