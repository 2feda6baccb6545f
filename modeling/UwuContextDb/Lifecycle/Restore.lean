import UwuContextDb.Lifecycle.Resume

/-! An archived entry is brought back, by restorations that may stop at any of their calls. -/

namespace UwuContextDb.Lifecycle

open Content (GraphRelation SqliteTables StoreLibraries)
open Content.SqliteTables (AllRows Addressed BatchWriteConfig Rewritable)

section Histories

inductive Change
  | call (c : Call) (t : Circumstances)
  | outside (op : SqliteTables.Op)

def Stores.empty : Stores := ⟨0, ∅, .empty, [], ∅, ∅, ∅⟩

def Change.uris : Change → List ContextUri
  | .call (.write entry) _ => [entry.uri]
  | .call _ _ => []
  | .outside op => op.uris

variable (libraries libs : StoreLibraries) (blake3 : List ℕ → ContentHash) (config : BatchWriteConfig)

def Stores.change (w : Stores) : Change → Stores
  | .call c t => (exec libraries blake3 c t w).2
  | .outside op => w.changed libraries config op

structure Sane (w : Stores) : Prop where
  named : w.content.Named
  history : w.content.History
  addressed : AllRows (Addressed libraries) w.content
  blobs : ∀ (hash : ContentHash) (stored : BlobRef × List ℕ), w.blobs[hash]? = some stored → blake3 stored.2 = hash
  points : ∀ (k : String) (point : Content.IndexPoint), w.points[k]? = some point → point.uri.canonical = k

variable {libraries libs blake3 config} {w : Stores}

theorem exec_write {t : Circumstances} (entry : ContextEntry) :
    ((exec libs blake3 (.write entry) t w).2 = { w with clock := max w.clock t.now } ∧
      (∃ e, (exec libs blake3 (.write entry) t w).1 = .error e) ∧
        (t.fault ≠ none ∨ ∃ e, w.content.write libs entry (max w.clock t.now) = .error e)) ∨
    ∃ ver content, w.content.write libs entry (max w.clock t.now) = .ok (ver, content) ∧
      (exec libs blake3 (.write entry) t w).1 = .ok ver ∧
      (exec libs blake3 (.write entry) t w).2 = { w with clock := max w.clock t.now, content := content } := by
  cases hf : t.fault with
  | some e => exact .inl ⟨by simp only [exec,hf],⟨e,by simp only [exec,hf]; rfl⟩, .inl (by simp)⟩
  | none =>
    cases hw : w.content.write libs entry (max w.clock t.now) with
    | error e =>
      exact .inl ⟨by simp only [exec,hf,hw],⟨e,by simp only [exec,hf,hw]; rfl⟩, .inr ⟨e,rfl⟩⟩
    | ok written =>
      obtain ⟨ver,content⟩ := written
      exact .inr ⟨ver,content,rfl,by simp only [exec,hf,hw]; rfl,by simp only [exec,hf,hw]⟩

theorem exec_putBlob {t : Circumstances} (data : List ℕ) (mimeType : String) :
    (∃ e, (exec libs blake3 (.putBlob data mimeType) t w).1 = .error e ∧ t.fault ≠ none ∧
      (exec libs blake3 (.putBlob data mimeType) t w).2 = { w with clock := max w.clock t.now }) ∨
    (exec libs blake3 (.putBlob data mimeType) t w).1 = .ok ⟨blake3 data,data.length,mimeType⟩ ∧
      (exec libs blake3 (.putBlob data mimeType) t w).2 = { w with
        clock := max w.clock t.now
        blobs := w.blobs.insert (blake3 data) (⟨blake3 data,data.length,mimeType⟩, data) } := by
  cases hf : t.fault with
  | some e => exact .inl ⟨e,by simp only [exec,hf]; rfl,by simp,by simp only [exec,hf]⟩
  | none => exact .inr ⟨by simp only [exec,hf]; rfl,by simp only [exec,hf]⟩

theorem exec_addEdge {t : Circumstances} (from_ to_ : ContextUri) (kind : GraphRelation) :
    (∃ e, (exec libs blake3 (.addEdge from_ to_ kind) t w).1 = .error e ∧ t.fault ≠ none ∧
      (exec libs blake3 (.addEdge from_ to_ kind) t w).2 = { w with clock := max w.clock t.now }) ∨
    (exec libs blake3 (.addEdge from_ to_ kind) t w).1 = .ok () ∧
      (exec libs blake3 (.addEdge from_ to_ kind) t w).2 = { w with
        clock := max w.clock t.now
        edges := if (from_, to_, kind) ∈ w.edges then w.edges else w.edges++[(from_, to_, kind)] } := by
  cases hf : t.fault with
  | some e => exact .inl ⟨e,by simp only [exec,hf]; rfl,by simp,by simp only [exec,hf]⟩
  | none => exact .inr ⟨by simp only [exec,hf]; rfl,by simp only [exec,hf]⟩

theorem exec_upsertPoint {t : Circumstances} (point : Content.IndexPoint) :
    (∃ e, (exec libs blake3 (.upsertPoint point) t w).1 = .error e ∧ t.fault ≠ none ∧
      (exec libs blake3 (.upsertPoint point) t w).2 = { w with clock := max w.clock t.now }) ∨
    (exec libs blake3 (.upsertPoint point) t w).1 = .ok () ∧
      (exec libs blake3 (.upsertPoint point) t w).2 = { w with
        clock := max w.clock t.now, points := w.points.insert point.uri.canonical point } := by
  cases hf : t.fault with
  | some e => exact .inl ⟨e,by simp only [exec,hf]; rfl,by simp,by simp only [exec,hf]⟩
  | none => exact .inr ⟨by simp only [exec,hf]; rfl,by simp only [exec,hf]⟩

theorem getElem?_erase_eq {α : Type} {t : Std.ExtTreeMap String α} {key key' : String} {v : α}
    (h : (t.erase key)[key']? = some v) : t[key']? = some v := by
  rw [Std.ExtTreeMap.getElem?_erase] at h
  split at h
  · cases h
  · exact h

theorem Sane.contents (h : Sane libs blake3 w) {op : SqliteTables.Op}
    (hp : ∀ uri ∈ op.uris, ContextUri.parse uri.canonical = .ok uri) (clock : DateTime) :
    Sane libs blake3 { w with clock := clock, content := w.content.step libs config op } :=
  ⟨h.named.step config op,h.history.step op,h.addressed.addressed hp,h.blobs,h.points⟩

theorem Sane.of_same (h : Sane libs blake3 w) {w' : Stores} (hc : w'.content = w.content)
    (hb : w'.blobs = w.blobs) (hp : w'.points = w.points) : Sane libs blake3 w' :=
  ⟨hc ▸ h.named,hc ▸ h.history,hc ▸ h.addressed,hb ▸ h.blobs,hp ▸ h.points⟩

def Plain : Call → Prop
  | .write _ | .delete _ | .putBlob .. | .deleteBlob _ | .upsertPoint _ | .deletePoint _ => False
  | _ => True

theorem exec_plain {c : Call} {t : Circumstances} (h : Plain c) : (exec libs blake3 c t w).2.content = w.content ∧
    (exec libs blake3 c t w).2.blobs = w.blobs ∧ (exec libs blake3 c t w).2.points = w.points := by
  cases c <;> first | exact absurd h id | skip
  all_goals cases hf : t.fault <;> simp only [exec,hf]
  all_goals first | trivial | (split <;> first | trivial | (split <;> trivial))

theorem Sane.call (h : Sane libs blake3 w) {c : Call} {t : Circumstances}
    (hp : ∀ uri ∈ (Change.call c t).uris, ContextUri.parse uri.canonical = .ok uri) :
    Sane libs blake3 (exec libs blake3 c t w).2 := by
  by_cases hl : Plain c
  · obtain ⟨hc,hb,ht⟩ := @exec_plain libs blake3 w c t hl
    exact h.of_same hc hb ht
  · cases c with
    | write entry =>
      rcases @exec_write libs blake3 w t entry with ⟨he,-⟩ | ⟨ver,content,hw,-,he⟩
      · rw [he]
        exact h.of_same rfl rfl rfl
      · have hst : SqliteTables.step libs w.content .standard (.write entry (max w.clock t.now)) = content :=
          SqliteTables.step_of_ok (by rw [SqliteTables.commit,hw]; rfl)
        have hp' : ∀ uri ∈ (SqliteTables.Op.write entry (max w.clock t.now)).uris,
            ContextUri.parse uri.canonical = .ok uri :=
          hp
        rw [he,← hst]
        exact h.contents hp' _
    | delete uri =>
      rcases @exec_delete_rest libs blake3 w t uri with ⟨e,-,-,he⟩ | ⟨content,hd,-,he⟩
      · rw [he]
        exact h.of_same rfl rfl rfl
      · rw [he]
        have hn := (SqliteTables.delete_ok hd).entries
        exact ⟨h.named.erase hn,h.history.delete hd,h.addressed.erase hn,h.blobs,h.points⟩
    | putBlob data mimeType =>
      rcases @exec_putBlob libs blake3 w t data mimeType with ⟨e,-,-,he⟩ | ⟨-,he⟩
      · rw [he]
        exact h.of_same rfl rfl rfl
      · rw [he]
        refine ⟨h.named,h.history,h.addressed,fun hash stored hs => ?_,h.points⟩
        rcases getElem?_insert_cases hs with ⟨rfl,rfl⟩ | ⟨-,ho⟩
        · rfl
        · exact h.blobs hash stored ho
    | deleteBlob blob =>
      rcases @exec_deleteBlob libs blake3 w t blob with ⟨e,-,-,he⟩ | ⟨-,he⟩
      · rw [he]
        exact h.of_same rfl rfl rfl
      · rw [he]
        exact ⟨h.named,h.history,h.addressed,
          fun hash stored hs => h.blobs hash stored (getElem?_erase_eq hs),h.points⟩
    | upsertPoint point =>
      rcases @exec_upsertPoint libs blake3 w t point with ⟨e,-,-,he⟩ | ⟨-,he⟩
      · rw [he]
        exact h.of_same rfl rfl rfl
      · rw [he]
        refine ⟨h.named,h.history,h.addressed,h.blobs,fun k point' hi => ?_⟩
        rcases getElem?_insert_cases hi with ⟨rfl,rfl⟩ | ⟨-,ho⟩
        · rfl
        · exact h.points k point' ho
    | deletePoint uri =>
      rcases @exec_deletePoint libs blake3 w t uri with ⟨e,-,-,he⟩ | ⟨-,he⟩
      · rw [he]
        exact h.of_same rfl rfl rfl
      · rw [he]
        exact ⟨h.named,h.history,h.addressed,h.blobs,fun k point hi => h.points k point (getElem?_erase_eq hi)⟩
    | _ => exact absurd trivial hl

theorem sane_empty : Sane libs blake3 .empty :=
  ⟨SqliteTables.named_empty,SqliteTables.history_empty,SqliteTables.allRows_empty,fun _ _ h => by
    simp [Stores.empty] at h,fun _ _ h => by simp [Stores.empty] at h⟩

theorem sane_run (changes : List Change)
    (hp : ∀ change ∈ changes, ∀ uri ∈ change.uris, ContextUri.parse uri.canonical = .ok uri) :
    Sane libs blake3 (StateMachine.run (Stores.change libs blake3 config) .empty changes) := by
  have hs : ∀ (w : Stores) (change : Change), Sane libs blake3 w →
      (∀ uri ∈ change.uris, ContextUri.parse uri.canonical = .ok uri) →
        Sane libs blake3 (w.change libs blake3 config change) := by
    intro w change h hc
    cases change with
    | call c t => exact h.call hc
    | outside op => exact h.contents hc w.clock
  exact StateMachine.run_invariant hs sane_empty (StateMachine.meets_of_mem (fun change hm _ => hp change hm) _)

end Histories

section Copies

def Restamped (entry other : ContextEntry) : Prop :=
  other = { entry with updatedAt := other.updatedAt, mvccVersion := other.mvccVersion }

structure Copy (libraries : StoreLibraries) (blake3 : List ℕ → ContentHash) (first : Stores) (uri : ContextUri)
    (m : ArchiveManifest) :
    Prop where
  parsed : ∃ scope, ContextUri.parse (ContextUri.trimEndMatches '/' uri.canonical) = .ok scope
  row : ∃ row : Content.CurrentRow, first.content.entries[uri.canonical]? = some row ∧ row.entry = m.entry
  named : m.entry.uri = uri
  rewritable : Rewritable libraries m.entry
  hashed : ∀ blob ∈ m.blobs, blake3 blob.2 = blob.1.hash
  blobs : ∀ blob ∈ m.blobs, (first.blobs[blob.1.hash]?).map Prod.snd = some blob.2
  edges : m.edges = edgesOf first uri
  vector : m.vector = first.points[uri.canonical]?
  point : ∀ point, m.vector = some point → point.uri.canonical = uri.canonical

structure Brought (uri : ContextUri) (m : ArchiveManifest) (checkpoint : LifecycleCheckpoint) (w : Stores) : Prop where
  blobs : checkpoint.blobs = true → ∀ blob ∈ m.blobs, (w.blobs[blob.1.hash]?).map Prod.snd = some blob.2
  content : checkpoint.content = true → uri.canonical ∈ w.content.entries
  graph : checkpoint.graph = true → ∀ edge ∈ m.edges, edge ∈ w.edges
  vector : checkpoint.vector = true → w.points[uri.canonical]? = m.vector

structure Remains (first : Stores) (uri : ContextUri) (key : String) (m : ArchiveManifest) (w : Stores) : Prop where
  cold : w.cold[key]? = some m
  named : w.content.Named
  history : w.content.History
  others : ∀ k : String, k ≠ uri.canonical → w.content.entries[k]? = first.content.entries[k]?
  row : ∀ row : Content.CurrentRow, w.content.entries[uri.canonical]? = some row → Restamped m.entry row.entry
  edges : ∀ edge ∈ w.edges, edge ∈ first.edges
  kept : ∀ edge ∈ first.edges, edge ∈ w.edges ∨ edge ∈ m.edges
  points : ∀ k : String, w.points[k]? = first.points[k]? ∨ k = uri.canonical ∧ w.points[k]? = none
  blobs : ∀ hash : ContentHash, (w.blobs[hash]?).map Prod.snd = (first.blobs[hash]?).map Prod.snd ∨
    w.blobs[hash]? = none ∧ ∃ blob ∈ m.blobs, blob.1.hash = hash

structure Returning (first : Stores) (uri : ContextUri) (key : String) (m : ArchiveManifest)
    (job : LifecycleJob) (w : Stores) :
    Prop where
  remains : Remains first uri key m w
  journal : w.journal[key]? = some job
  keyed : job.idempotencyKey = key
  succeeded : job.state = .succeeded
  brought : Brought uri m job.restoreCheckpoint w

def Held (first : Stores) (uri : ContextUri) (key : String) (m : ArchiveManifest) (w : Stores) : Prop :=
  ∃ job, Returning first uri key m job w

structure Restored (first : Stores) (uri : ContextUri) (w : Stores) : Prop where
  entry : ∃ before after : Content.CurrentRow, first.content.entries[uri.canonical]? = some before ∧
    w.content.entries[uri.canonical]? = some after ∧ Restamped before.entry after.entry
  others : ∀ k : String, k ≠ uri.canonical → w.content.entries[k]? = first.content.entries[k]?
  blobs : ∀ hash : ContentHash, (w.blobs[hash]?).map Prod.snd = (first.blobs[hash]?).map Prod.snd
  edges : ∀ edge, edge ∈ w.edges ↔ edge ∈ first.edges
  points : ∀ k : String, w.points[k]? = first.points[k]?

variable {libraries libs : StoreLibraries} {blake3 : List ℕ → ContentHash} {first w : Stores} {uri : ContextUri} {key : String}
  {m : ArchiveManifest} {job : LifecycleJob}

theorem mem_of_mapM {α β : Type} {f : α → Option β} {as : List α} {bs : List β} (h : as.mapM f = some bs)
    {b : β} (hb : b ∈ bs) :
    ∃ a ∈ as, f a = some b := by
  induction as generalizing bs with
  | nil =>
    cases h
    cases hb
  | cons a as ih =>
    rw [List.mapM_cons] at h
    obtain ⟨b',hb',h⟩ := Option.bind_eq_some_iff.mp h
    obtain ⟨bs',hs',h⟩ := Option.bind_eq_some_iff.mp h
    cases h
    rcases List.mem_cons.mp hb with rfl | hb
    · exact ⟨a,List.mem_cons_self,hb'⟩
    · obtain ⟨a',ha',he⟩ := ih hs' hb
      exact ⟨a',List.mem_cons_of_mem _ ha',he⟩

theorem Sane.copy (h : Sane libs blake3 first) (hn : Snapshot first uri m) : Copy libs blake3 first uri m := by
  obtain ⟨row,hr,he⟩ := mem_of_entryIn h.named hn.entry
  have ha := h.addressed _ _ hr
  rw [he] at ha
  have hl : ∀ blob ∈ m.blobs, ∃ stored : BlobRef × List ℕ, first.blobs[blob.1.hash]? = some stored ∧
      stored.2 = blob.2 := by
    intro blob hb
    obtain ⟨ref,-,hf⟩ := mem_of_mapM hn.blobs hb
    obtain ⟨stored,ht,rfl⟩ := Option.map_eq_some_iff.mp hf
    exact ⟨stored,ht,rfl⟩
  refine ⟨?_,⟨row,hr,he⟩,?_,ha.rewritable,fun blob hb => ?_,fun blob hb => ?_,hn.edges,hn.vector,fun point hp => ?_⟩
  · have hs := hn.entry
    unfold entryIn at hs
    split at hs
    · rename_i page hg
      obtain ⟨sc,hc,-⟩ := StateMachine.bind_eq_ok.mp hg
      exact ⟨sc,hc⟩
    · cases hs
  · have hs := hn.entry
    unfold entryIn at hs
    split at hs
    · simpa using List.find?_some hs
    · cases hs
  · obtain ⟨stored,ht,hd⟩ := hl blob hb
    exact hd ▸ h.blobs _ _ ht
  · obtain ⟨stored,ht,hd⟩ := hl blob hb
    rw [ht,← hd]
    rfl
  · exact h.points _ _ (hn.vector.symm.trans hp)

theorem Remains.updated (h : Remains first uri key m w) (clock : DateTime) (journal : Std.ExtTreeMap String LifecycleJob) :
    Remains first uri key m { w with clock := clock, journal := journal } :=
  ⟨h.cold,h.named,h.history,h.others,h.row,h.edges,h.kept,h.points,h.blobs⟩

theorem Brought.updated {checkpoint : LifecycleCheckpoint} (h : Brought uri m checkpoint w) (clock : DateTime)
    (journal : Std.ExtTreeMap String LifecycleJob) :
    Brought uri m checkpoint { w with clock := clock, journal := journal } :=
  ⟨h.blobs,h.content,h.graph,h.vector⟩

theorem Returning.clock (h : Returning first uri key m job w) (clock : DateTime) :
    Returning first uri key m job { w with clock := clock } :=
  ⟨h.remains.updated clock w.journal,h.journal,h.keyed,h.succeeded,h.brought.updated clock w.journal⟩

theorem Returning.putBlob (h : Returning first uri key m job w)
    (hc : Copy libs blake3 first uri m) (clock : DateTime) {blob : BlobRef × List ℕ}
    (hb : blob ∈ m.blobs) (ref : BlobRef) :
    Returning first uri key m job { w with clock := clock, blobs := w.blobs.insert blob.1.hash (ref, blob.2) } := by
  have hr := h.remains
  refine ⟨⟨hr.cold,hr.named,hr.history,hr.others,hr.row,hr.edges,hr.kept,hr.points,
    fun hash => ?_⟩,h.journal,h.keyed,h.succeeded,
      ⟨fun hs other ho => ?_,h.brought.content,h.brought.graph,h.brought.vector⟩⟩
  · show ((w.blobs.insert blob.1.hash (ref, blob.2))[hash]?).map Prod.snd = _ ∨
      (w.blobs.insert blob.1.hash (ref, blob.2))[hash]? = none ∧ _
    rw [Std.ExtTreeMap.getElem?_insert]
    split
    · rename_i hh
      rw [← Std.LawfulEqCmp.compare_eq_iff_eq.mp hh,hc.blobs blob hb]
      exact .inl rfl
    · exact hr.blobs hash
  · show ((w.blobs.insert blob.1.hash (ref, blob.2))[other.1.hash]?).map Prod.snd = _
    rw [Std.ExtTreeMap.getElem?_insert]
    split
    · rename_i hh
      rw [← hc.blobs other ho,← Std.LawfulEqCmp.compare_eq_iff_eq.mp hh,hc.blobs blob hb]
      rfl
    · exact h.brought.blobs hs other ho

theorem Returning.write (h : Returning first uri key m job w) (hc : Copy libs blake3 first uri m) (clock : DateTime)
    {ver : MvccVersion} {content : SqliteTables}
    (hw : w.content.write libs m.entry clock = .ok (ver, content))
    (he : content.entries = w.content.entries.insert m.entry.uri.canonical
      ⟨{ m.entry with updatedAt := clock, mvccVersion := ver },ver,m.entry.metadata.custom⟩) :
    Returning first uri key m job { w with clock := clock, content := content } := by
  have hr := h.remains
  rw [hc.named] at he
  refine ⟨⟨hr.cold,?_,hr.history.write hw,fun k hk => ?_,fun row ho => ?_,hr.edges,hr.kept,hr.points,
    hr.blobs⟩,h.journal,h.keyed,h.succeeded,⟨h.brought.blobs,fun _ => ?_,h.brought.graph,h.brought.vector⟩⟩
  · have ho : (⟨{ m.entry with updatedAt := clock, mvccVersion := ver },ver,m.entry.metadata.custom⟩ :
        Content.CurrentRow).entry.uri = uri := hc.named
    exact hr.named.insert (by rw [ho]; exact he)
  · show content.entries[k]? = _
    rw [he,Std.ExtTreeMap.getElem?_insert,if_neg (fun hq => hk (Std.LawfulEqCmp.compare_eq_iff_eq.mp hq).symm)]
    exact hr.others k hk
  · have ho' : content.entries[uri.canonical]? = some row := ho
    rw [he,Std.ExtTreeMap.getElem?_insert_self] at ho'
    rw [← Option.some.inj ho']
    rfl
  · show uri.canonical ∈ content.entries
    rw [he]
    exact Std.ExtTreeMap.mem_insert_self

theorem Returning.addEdge (h : Returning first uri key m job w)
    (hc : Copy libs blake3 first uri m) (clock : DateTime) {edge : ContextUri × ContextUri × GraphRelation}
    (he : edge ∈ m.edges) :
    Returning first uri key m job
    { w with clock := clock, edges := if edge ∈ w.edges then w.edges else w.edges++[edge] } := by
  have hr := h.remains
  have hs : ∀ other ∈ w.edges, other ∈ (if edge ∈ w.edges then w.edges else w.edges++[edge]) := by
    intro other ho
    split
    · exact ho
    · exact List.mem_append_left _ ho
  refine ⟨⟨hr.cold,hr.named,hr.history,hr.others,hr.row,fun other ho => ?_,fun other ho => ?_,
    hr.points,hr.blobs⟩,h.journal,h.keyed,h.succeeded,
      ⟨h.brought.blobs,h.brought.content,fun ht other ho => ?_,h.brought.vector⟩⟩
  · have ho' : other ∈ (if edge ∈ w.edges then w.edges else w.edges++[edge]) := ho
    split at ho'
    · exact hr.edges other ho'
    · rcases List.mem_append.mp ho' with hl | hn
      · exact hr.edges other hl
      · obtain rfl := List.mem_singleton.mp hn
        rw [hc.edges] at he
        exact List.mem_of_mem_filter he
  · exact (hr.kept other ho).imp (hs other) id
  · exact hs other (h.brought.graph ht other ho)

theorem Returning.upsertPoint (h : Returning first uri key m job w)
    (hc : Copy libs blake3 first uri m) (clock : DateTime) {point : Content.IndexPoint}
    (hp : m.vector = some point) :
    Returning first uri key m job { w with clock := clock, points := w.points.insert point.uri.canonical point } := by
  have hr := h.remains
  rw [hc.point point hp]
  refine ⟨⟨hr.cold,hr.named,hr.history,hr.others,hr.row,hr.edges,hr.kept,fun k => ?_,hr.blobs⟩,h.journal,h.keyed,
    h.succeeded,⟨h.brought.blobs,h.brought.content,h.brought.graph,fun _ => ?_⟩⟩
  · show (w.points.insert uri.canonical point)[k]? = _ ∨ _ ∧ (w.points.insert uri.canonical point)[k]? = none
    rw [Std.ExtTreeMap.getElem?_insert]
    split
    · rename_i hk
      rw [← Std.LawfulEqCmp.compare_eq_iff_eq.mp hk,← hc.vector,hp]
      exact .inl rfl
    · exact hr.points k
  · show (w.points.insert uri.canonical point)[uri.canonical]? = _
    rw [Std.ExtTreeMap.getElem?_insert_self,hp]

theorem Returning.complete (h : Returning first uri key m job w) (hc : Copy libs blake3 first uri m)
    (hl : job.restoreCheckpoint.blobs = true ∧ job.restoreCheckpoint.content = true ∧ job.restoreCheckpoint.graph = true ∧
      job.restoreCheckpoint.vector = true) : Restored first uri w := by
  obtain ⟨hbl,ho,hg,hv⟩ := hl
  have hr := h.remains
  refine ⟨?_,hr.others,fun hash => ?_,fun edge => ⟨hr.edges edge,fun he => ?_⟩,fun k => ?_⟩
  · obtain ⟨before,hf,hn⟩ := hc.row
    obtain ⟨after,ha⟩ :=
      Option.isSome_iff_exists.mp (Std.ExtTreeMap.mem_iff_isSome_getElem?.mp (h.brought.content ho))
    exact ⟨before,after,hf,ha,hn ▸ hr.row after ha⟩
  · rcases hr.blobs hash with hs | ⟨hgo,blob,hb,rfl⟩
    · exact hs
    · rw [h.brought.blobs hbl blob hb,hc.blobs blob hb]
  · exact (hr.kept edge he).elim id (h.brought.graph hg edge)
  · rcases hr.points k with hs | ⟨rfl,-⟩
    · exact hs
    · rw [h.brought.vector hv,hc.vector]

end Copies

section Phases

variable {libraries libs : StoreLibraries} {blake3 : List ℕ → ContentHash} {first w : Stores} {uri : ContextUri} {key : String}
  {m : ArchiveManifest} {job : LifecycleJob} {ok : Circumstances → Prop}
  {after : LifecycleCheckpoint → SqliteTables → Prop} {bad : Prop}

/-- A part of a restoration ends with the job that it has in its hands, or fails for `bad`. -/
def Continues (first : Stores) (uri : ContextUri) (key : String) (m : ArchiveManifest) (ok : Circumstances → Prop)
    (after : LifecycleCheckpoint → SqliteTables → Prop) (bad : Prop) : Except ContextError LifecycleJob → Stores → Prop :=
  Prog.Outcome (fun job w => Returning first uri key m job w ∧ after job.restoreCheckpoint w.content)
    (fun _ w => Held first uri key m w ∧ Excused ok bad)

theorem restorePhase_leaves {isSet : LifecycleCheckpoint → Bool} {set : LifecycleCheckpoint → LifecycleCheckpoint}
    {work : Fallible Unit} (h : Returning first uri key m job w)
    (hsk : isSet job.restoreCheckpoint = true → after job.restoreCheckpoint w.content)
    (hw : isSet job.restoreCheckpoint = false → Leaves libs blake3 (Held first uri key m) ok
      (Prog.Outcome (fun _ w' => Returning first uri key m job w' ∧ Brought uri m (set job.restoreCheckpoint) w' ∧
          after (set job.restoreCheckpoint) w'.content)
        (fun _ w' => Held first uri key m w' ∧ Excused ok bad)) work.run w) :
    Leaves libs blake3 (Held first uri key m) ok (Continues first uri key m ok after bad)
    (restorePhase isSet set work job).run w := by
  unfold restorePhase
  cases hi : isSet job.restoreCheckpoint with
  | true => exact ⟨h,hsk hi⟩
  | false =>
    refine .andThen ((hw hi).mono (fun r w' hr => ?_))
    cases r with
    | error e => exact hr
    | ok u =>
      obtain ⟨h',hb,ha⟩ := hr
      generalize hn : { job with restoreCheckpoint := set job.restoreCheckpoint } = next
      have hm : next.idempotencyKey = key ∧ next.revision = job.revision ∧ next.state = .succeeded ∧
          next.restoreCheckpoint = set job.restoreCheckpoint := by
        subst hn
        exact ⟨h'.keyed,rfl,h'.succeeded,rfl⟩
      obtain ⟨hk,hv,hu,hf⟩ := hm
      refine .lift (ask_leaves (c := .update next) ⟨job,h'⟩ (fun t ht => ?_))
      rcases @exec_update_rest libs blake3 w' t next with ⟨e,job',he,-,hs,hh⟩ | ⟨he,hs⟩
      · rw [he,hs]
        refine ⟨⟨job,h'.clock _⟩, .inl ⟨t,ht,hh.resolve_right (fun hst => hst job ?_ hv.symm)⟩⟩
        rw [hk]
        exact h'.journal
      · rw [he,hs,hk]
        have hb' : Brought uri m next.bumped.restoreCheckpoint w' := by
          show Brought uri m next.restoreCheckpoint w'
          rw [hf]
          exact hb
        refine ⟨⟨h'.remains.updated _ _,Std.ExtTreeMap.getElem?_insert_self,hk,hu,hb'.updated _ _⟩,?_⟩
        show after next.restoreCheckpoint w'.content
        rw [hf]
        exact ha

theorem restoreBlobs_leaves (hc : Copy libs blake3 first uri m) (h : Returning first uri key m job w)
    (hs : job.restoreCheckpoint.blobs = true → after job.restoreCheckpoint w.content)
    (ha : after { job.restoreCheckpoint with blobs := true } w.content) :
    Leaves libs blake3 (Held first uri key m) ok (Continues first uri key m ok after bad)
      (restorePhase (·.blobs) (fun c => { c with blobs := true }) (m.blobs.forM restoreBlob) job).run w := by
  refine restorePhase_leaves h hs (fun _ => ?_)
  refine .forM (fun rest w' => (Returning first uri key m job w' ∧ w'.content = w.content) ∧
    (∀ blob ∈ rest, blob ∈ m.blobs) ∧
      ∀ blob ∈ m.blobs, blob ∈ rest ∨ (w'.blobs[blob.1.hash]?).map Prod.snd = some blob.2) (fun blob rest w' hi => ?_)
    (fun w' hi => ?_) ⟨⟨h,rfl⟩,fun _ hb => hb,fun _ hb => .inl hb⟩
  · obtain ⟨⟨h',hn⟩,he,hd⟩ := hi
    have hb := he blob List.mem_cons_self
    unfold restoreBlob
    refine .andThen (ask_leaves (c := .putBlob blob.2 blob.1.mimeType) ⟨job,h'⟩ (fun t ht => ?_))
    rcases @exec_putBlob libs blake3 w' t blob.2 blob.1.mimeType with ⟨e,hr,hf,hq⟩ | ⟨hr,hq⟩
    · rw [hr,hq]
      exact ⟨⟨job,h'.clock _⟩,excused_of_fault ht (.inl hf) False.elim⟩
    · rw [hr,hq,hc.hashed blob hb]
      show Leaves libs blake3 (Held first uri key m) ok _
        (if blob.1.hash ≠ blob.1.hash then throw (ContextError.storage "restored blob hash mismatch")
          else Pure.pure () : Fallible Unit).run _
      rw [if_neg (not_not.mpr rfl)]
      refine ⟨⟨h'.putBlob hc _ hb _,hn⟩,fun other ho => he other (List.mem_cons_of_mem _ ho),
        fun other ho => ?_⟩
      show other ∈ rest ∨ ((w'.blobs.insert blob.1.hash (_, blob.2))[other.1.hash]?).map Prod.snd = some other.2
      rw [Std.ExtTreeMap.getElem?_insert]
      split
      · rename_i hh
        rw [← hc.blobs other ho,← Std.LawfulEqCmp.compare_eq_iff_eq.mp hh,hc.blobs blob hb]
        exact .inr rfl
      · rename_i hh
        rcases hd other ho with hm | hst
        · rcases List.mem_cons.mp hm with rfl | hm
          · exact absurd (Std.LawfulEqCmp.compare_eq_iff_eq.mpr rfl) hh
          · exact .inl hm
        · exact .inr hst
  · obtain ⟨⟨h',hn⟩,-,hd⟩ := hi
    have hbr := h'.brought
    refine ⟨h',⟨fun _ blob hb => (hd blob hb).resolve_left (by simp),hbr.content,hbr.graph,hbr.vector⟩,?_⟩
    rw [hn]
    exact ha

theorem restoreGraph_leaves (hp : Copy libs blake3 first uri m) (h : Returning first uri key m job w)
    (hk : job.restoreCheckpoint.graph = true → after job.restoreCheckpoint w.content)
    (hf : after { job.restoreCheckpoint with graph := true } w.content) :
    Leaves libs blake3 (Held first uri key m) ok (Continues first uri key m ok after bad)
      (restorePhase (·.graph) (fun c => { c with graph := true })
        (m.edges.forM (fun edge => addEdge edge.1 edge.2.1 edge.2.2)) job).run w := by
  refine restorePhase_leaves h hk (fun _ => ?_)
  refine .forM (fun rest w' => (Returning first uri key m job w' ∧ w'.content = w.content) ∧
    (∀ edge ∈ rest, edge ∈ m.edges) ∧ ∀ edge ∈ m.edges, edge ∈ rest ∨ edge ∈ w'.edges) (fun edge rest w' hi => ?_)
    (fun w' hi => ?_) ⟨⟨h,rfl⟩,fun _ he => he,fun _ he => .inl he⟩
  · obtain ⟨⟨h',hc⟩,hs,hd⟩ := hi
    refine ask_leaves (c := .addEdge edge.1 edge.2.1 edge.2.2) ⟨job,h'⟩ (fun t ht => ?_)
    rcases @exec_addEdge libs blake3 w' t edge.1 edge.2.1 edge.2.2 with ⟨e,hr,hu,hq⟩ | ⟨hr,hq⟩
    · rw [hr,hq]
      exact ⟨⟨job,h'.clock _⟩,excused_of_fault ht (.inl hu) False.elim⟩
    · rw [hr,hq]
      refine ⟨⟨h'.addEdge hp _ (hs edge List.mem_cons_self),hc⟩,
        fun other ho => hs other (List.mem_cons_of_mem _ ho),fun other ho => ?_⟩
      show other ∈ rest ∨ other ∈ (if edge ∈ w'.edges then w'.edges else w'.edges++[edge])
      by_cases hh : edge ∈ w'.edges
      · rw [if_pos hh]
        rcases hd other ho with hm | ha
        · rcases List.mem_cons.mp hm with rfl | hm
          · exact .inr hh
          · exact .inl hm
        · exact .inr ha
      · rw [if_neg hh]
        rcases hd other ho with hm | ha
        · rcases List.mem_cons.mp hm with rfl | hm
          · exact .inr (by simp)
          · exact .inl hm
        · exact .inr (List.mem_append_left _ ha)
  · obtain ⟨⟨h',hc⟩,-,hd⟩ := hi
    have hb := h'.brought
    refine ⟨h',⟨hb.blobs,hb.content,fun _ edge he => (hd edge he).resolve_left (by simp),hb.vector⟩,?_⟩
    rw [hc]
    exact hf

theorem restoreVector_leaves (hc : Copy libs blake3 first uri m) (h : Returning first uri key m job w)
    (hs : job.restoreCheckpoint.vector = true → after job.restoreCheckpoint w.content)
    (ha : after { job.restoreCheckpoint with vector := true } w.content) :
    Leaves libs blake3 (Held first uri key m) ok (Continues first uri key m ok after bad)
      (restorePhase (·.vector) (fun c => { c with vector := true }) (m.vector.toList.forM upsertPoint) job).run w := by
  refine restorePhase_leaves h hs (fun _ => ?_)
  have hb : ∀ w', Returning first uri key m job w' → w'.points[uri.canonical]? = m.vector →
      Brought uri m { job.restoreCheckpoint with vector := true } w' :=
    fun w' h' hp => ⟨h'.brought.blobs,h'.brought.content,h'.brought.graph,fun _ => hp⟩
  cases hv : m.vector with
  | none =>
    refine ⟨h,hb w h ?_,ha⟩
    rcases h.remains.points uri.canonical with hm | ⟨-,hn⟩
    · rw [hm,hc.vector]
    · rw [hn,hv]
  | some point =>
    refine .andThen (ask_leaves (c := .upsertPoint point) ⟨job,h⟩ (fun t ht => ?_))
    rcases @exec_upsertPoint libs blake3 w t point with ⟨e,hr,hf,he⟩ | ⟨hr,he⟩
    · rw [hr,he]
      exact ⟨⟨job,h.clock _⟩,excused_of_fault ht (.inl hf) False.elim⟩
    · rw [hr,he]
      refine ⟨h.upsertPoint hc _ hv,hb _ (h.upsertPoint hc _ hv) ?_,ha⟩
      show (w.points.insert point.uri.canonical point)[uri.canonical]? = _
      rw [hc.point point hv,Std.ExtTreeMap.getElem?_insert_self,hv]

theorem readEntry_gives (hc : Copy libs blake3 first uri m) (h : Returning first uri key m job w) :
    Leaves libs blake3 (Held first uri key m) ok
    (fun r w' => Returning first uri key m job w' ∧ w'.content = w.content ∧
        (∀ entry, r = .ok entry → entryIn w.content uri = some entry) ∧
        (∀ e, r = .error e → (∃ t, ok t ∧ ¬ t.Healthy) ∨ entryIn w.content uri = none ∧ ∃ text, e = .notFound text))
      (readEntry uri).run w := by
  refine .andThen (read_leaves (c := .scanByPrefix uri.canonical (.new 1)) trivial ⟨job,h⟩ (fun t ht => ?_))
  cases hf : t.fault with
  | some e =>
    have hr : (exec libs blake3 (.scanByPrefix uri.canonical (.new 1)) t w).1 = .error e := by
      simp only [exec,hf]
      rfl
    rw [hr]
    have hu : ¬ t.Healthy := fun hh => by
      rw [hh.1] at hf
      cases hf
    exact ⟨h.clock _,rfl,fun entry he => (by cases he),fun e' _ => .inl ⟨t,ht,hu⟩⟩
  | none =>
    obtain ⟨sc,ho⟩ := hc.parsed
    obtain ⟨page,hs⟩ : ∃ page, w.content.scanByPrefix uri.canonical (.new 1) = .ok page :=
      ⟨_,by rw [SqliteTables.scanByPrefix,ho]; rfl⟩
    have hr : (exec libs blake3 (.scanByPrefix uri.canonical (.new 1)) t w).1 = .ok page := by
      rw [← hs]
      simp only [exec,hf]
      rfl
    have hfo : page.items.find? (fun e => e.uri = uri) = entryIn w.content uri := by rw [entryIn,hs]
    rw [hr]
    show Prog.Keeps _ _ _ (entryOn uri page).run _
    rw [entryOn,hfo]
    cases entryIn w.content uri with
    | none => exact ⟨h.clock _,rfl,fun entry he => (by cases he),fun e he => .inr ⟨rfl,uri.canonical,by cases he; rfl⟩⟩
    | some entry => exact ⟨h.clock _,rfl,fun entry' he => (by cases he; rfl),fun e he => (by cases he)⟩

theorem restoreEntry_error {entry : ContextEntry} {e : ContextError} (h : ∀ text, e ≠ .notFound text) :
    restoreEntry entry (.error e) = throw e := by
  cases e with
  | notFound text => exact absurd rfl (h text)
  | _ => rfl

theorem restoreContent_leaves (hc : Copy libs blake3 first uri m) (h : Returning first uri key m job w)
    (hk : job.restoreCheckpoint.content = true → after job.restoreCheckpoint w.content)
    (ha : ∀ content, ((∀ t, ok t → t.Healthy) → entryIn w.content uri = none ∨ entryIn w.content uri = some m.entry) →
      after { job.restoreCheckpoint with content := true } content)
    (hd : job.restoreCheckpoint.content = false → ∀ entry, entryIn w.content uri = some entry → entry ≠ m.entry → bad) :
    Leaves libs blake3 (Held first uri key m) ok (Continues first uri key m ok after bad)
      (restorePhase (·.content) (fun c => { c with content := true })
        (do restoreEntry m.entry (← ExceptT.lift (readEntry m.entry.uri).run)) job).run w := by
  refine restorePhase_leaves h hk (fun hu => ?_)
  rw [hc.named]
  have hb : ∀ w', Returning first uri key m job w' → uri.canonical ∈ w'.content.entries →
      Brought uri m { job.restoreCheckpoint with content := true } w' :=
    fun w' h' hl => ⟨h'.brought.blobs,fun _ => hl,h'.brought.graph,h'.brought.vector⟩
  refine .lift ((readEntry_gives hc h).mono (fun r w' hr => ?_))
  obtain ⟨h',hco,hfo,hh⟩ := hr
  cases r with
  | ok existing =>
    have hn := hfo existing rfl
    show Leaves libs blake3 (Held first uri key m) ok _
      (if existing ≠ m.entry then throw
        (ContextError.versionConflict s!"hot entry changed since cold snapshot: {m.entry.uri.canonical}")
        else return () : Fallible Unit).run w'
    by_cases hs : existing = m.entry
    · rw [if_neg (not_not.mpr hs)]
      obtain ⟨row,hro,-⟩ := mem_of_entryIn h'.remains.named (hco.symm ▸ hn)
      refine ⟨h',hb w' h' ?_,ha _ (fun _ => .inr (hs ▸ hn))⟩
      exact Std.ExtTreeMap.mem_iff_isSome_getElem?.mpr (by rw [hro]; rfl)
    · rw [if_pos hs]
      exact ⟨⟨job,h'⟩, .inr (hd hu existing hn hs)⟩
  | error e =>
    by_cases hF : ∃ text, e = .notFound text
    · obtain ⟨text,rfl⟩ := hF
      show Leaves libs blake3 (Held first uri key m) ok _
        (write m.entry >>= fun _ => Pure.pure () : Fallible Unit).run w'
      refine .andThen (ask_leaves (c := .write m.entry) ⟨job,h'⟩ (fun t ht => ?_))
      obtain ⟨ver,content,hw,hnt⟩ := h'.remains.history.write_back hc.rewritable (max w'.clock t.now)
      rcases @exec_write libs blake3 w' t m.entry with ⟨he,⟨e,hp⟩,hf⟩ | ⟨ver',content',hw',hp,he⟩
      · rw [hp,he]
        refine ⟨⟨job,h'.clock _⟩,excused_of_fault ht hf (fun hf => ?_)⟩
        obtain ⟨e',her⟩ := hf
        rw [hw] at her
        cases her
      · rw [hp,he]
        rw [hw] at hw'
        cases hw'
        have hwr := h'.write hc (max w'.clock t.now) hw hnt
        refine ⟨hwr,hb _ hwr ?_,ha _ (fun hhe => ?_)⟩
        · show uri.canonical ∈ content.entries
          rw [hnt,hc.named]
          exact Std.ExtTreeMap.mem_insert_self
        · rcases hh _ rfl with ⟨t',ht',ho⟩ | ⟨hno,-⟩
          · exact absurd (hhe t' ht') ho
          · exact .inl hno
    · rw [restoreEntry_error (fun text he => hF ⟨text,he⟩)]
      refine ⟨⟨job,h'⟩, .inl ?_⟩
      rcases hh e rfl with hun | ⟨-,ho⟩
      · exact hun
      · exact absurd ho hF

def Vacant (uri : ContextUri) (m : ArchiveManifest) (job : LifecycleJob) (content : SqliteTables) : Prop :=
  job.restoreCheckpoint.content = true ∨ entryIn content uri = none ∨ entryIn content uri = some m.entry

def Returns (first : Stores) (uri : ContextUri) (key : String) (m : ArchiveManifest)
    (ok : Circumstances → Prop) (vacant : Prop) :
    Except ContextError Unit → Stores → Prop :=
  Prog.Outcome (fun _ w => Held first uri key m w ∧ Restored first uri w ∧ ((∀ t, ok t → t.Healthy) → vacant))
    (fun _ w => Held first uri key m w ∧ Excused ok (¬ vacant))

theorem restorePhases_leaves (hc : Copy libs blake3 first uri m) (h : Returning first uri key m job w) :
    Leaves libs blake3 (Held first uri key m) ok (Returns first uri key m ok (Vacant uri m job w.content))
      (restorePhases m job).run w := by
  have hb : Leaves libs blake3 (Held first uri key m) ok
      (Continues first uri key m ok (fun c content => c.blobs = true ∧ c.content = job.restoreCheckpoint.content ∧
        content = w.content)
        (¬ Vacant uri m job w.content))
      (restorePhase (·.blobs) (fun c => { c with blobs := true }) (m.blobs.forM restoreBlob) job).run w :=
    restoreBlobs_leaves hc h (fun hs => ⟨hs,rfl,rfl⟩) ⟨rfl,rfl,rfl⟩
  refine .andThen (hb.mono (fun r w₁ hr => ?_))
  cases r with
  | error e => exact hr
  | ok job₁ =>
    obtain ⟨h₁,hs₁,hf,ho⟩ := hr
    have hn : Leaves libs blake3 (Held first uri key m) ok
        (Continues first uri key m ok (fun c _ => c.blobs = true ∧ c.content = true ∧
            ((∀ t, ok t → t.Healthy) → Vacant uri m job w.content)) (¬ Vacant uri m job w.content))
        (restorePhase (·.content) (fun c => { c with content := true })
          (do restoreEntry m.entry (← ExceptT.lift (readEntry m.entry.uri).run)) job₁).run w₁ := by
      refine restoreContent_leaves hc h₁ (fun hs => ⟨hs₁,hs,fun _ => .inl (hf.symm.trans hs)⟩)
        (fun content hv => ⟨hs₁,rfl,fun hh => .inr (ho ▸ hv hh)⟩)
          (fun hu entry he hne hv => ?_)
      rw [hf] at hu
      rw [ho] at he
      rcases hv with hs | hno | ha
      · exact absurd (hs.symm.trans hu) (by simp)
      · exact absurd (he.symm.trans hno) (by simp)
      · exact hne (Option.some.inj (he.symm.trans ha))
    refine .andThen (hn.mono (fun r w₂ hr => ?_))
    cases r with
    | error e => exact hr
    | ok job₂ =>
      obtain ⟨h₂,hs₂⟩ := hr
      have hg : Leaves libs blake3 (Held first uri key m) ok
          (Continues first uri key m ok (fun c _ => (c.blobs = true ∧ c.content = true ∧
              ((∀ t, ok t → t.Healthy) → Vacant uri m job w.content)) ∧ c.graph = true) (¬ Vacant uri m job w.content))
          (restorePhase (·.graph) (fun c => { c with graph := true })
            (m.edges.forM (fun edge => addEdge edge.1 edge.2.1 edge.2.2)) job₂).run w₂ :=
        restoreGraph_leaves hc h₂ (fun hs => ⟨hs₂,hs⟩) ⟨hs₂,rfl⟩
      refine .andThen (hg.mono (fun r w₃ hr => ?_))
      cases r with
      | error e => exact hr
      | ok job₃ =>
        obtain ⟨h₃,hs₃⟩ := hr
        have hve : Leaves libs blake3 (Held first uri key m) ok
            (Continues first uri key m ok (fun c _ => ((c.blobs = true ∧ c.content = true ∧
                ((∀ t, ok t → t.Healthy) → Vacant uri m job w.content)) ∧ c.graph = true) ∧ c.vector = true)
                  (¬ Vacant uri m job w.content))
            (restorePhase (·.vector) (fun c => { c with vector := true }) (m.vector.toList.forM upsertPoint) job₃).run w₃ :=
          restoreVector_leaves hc h₃ (fun hs => ⟨hs₃,hs⟩) ⟨hs₃,rfl⟩
        refine .andThen (hve.mono (fun r w₄ hr => ?_))
        cases r with
        | error e => exact hr
        | ok job₄ =>
          obtain ⟨h₄,⟨⟨hb,ho,hv⟩,hg⟩,hve⟩ := hr
          exact ⟨⟨job₄,h₄⟩,h₄.complete hc ⟨hb,ho,hg,hve⟩,hv⟩

theorem restoreFrom_leaves (hc : Copy libs blake3 first uri m) (h : Returning first uri key m job w) :
    Leaves libs blake3 (Held first uri key m) ok (Returns first uri key m ok (Vacant uri m job w.content))
    (restoreFrom key m).run w := by
  refine .lift (read_leaves (c := .getJob key) trivial ⟨job,h⟩ (fun t ht => ?_))
  rcases (@exec_getJob libs blake3 t w key).1 with ⟨hr,hf⟩ | hr
  · rw [hr]
    exact ⟨⟨job,h.clock _⟩,excused_of_fault ht (.inl hf) False.elim⟩
  · rw [hr,h.journal]
    have h₁ := h.clock (max w.clock t.now)
    exact restorePhases_leaves hc h₁

theorem restore_leaves (hc : Copy libs blake3 first uri m) (h : Returning first uri key m job w) :
    Leaves libs blake3 (Held first uri key m) ok (Returns first uri key m ok (Vacant uri m job w.content))
    (restore key).run w := by
  refine .andThen (read_leaves (c := .getManifest key) trivial ⟨job,h⟩ (fun t ht => ?_))
  rcases @exec_getManifest libs blake3 t w key with ⟨e,hr,hw⟩ | ⟨m',hm',hr⟩
  · rw [hr]
    refine ⟨⟨job,h.clock _⟩,excused_of_fault ht hw (fun hn => ?_)⟩
    rw [h.remains.cold] at hn
    cases hn
  · rw [hr]
    obtain rfl := Option.some.inj (h.remains.cold.symm.trans hm')
    have h₁ := h.clock (max w.clock t.now)
    refine .lift (read_leaves (c := .getJob key) trivial ⟨job,h₁⟩ (fun t' ht' => ?_))
    rcases (@exec_getJob libs blake3 t' { w with clock := max w.clock t.now } key).1 with ⟨hr',-⟩ | hr'
    · rw [hr']
      exact restoreFrom_leaves hc (h₁.clock _)
    · rw [hr',h₁.journal]
      show Leaves libs blake3 (Held first uri key m) ok _
        (if job.state ≠ .succeeded then throw
          (ContextError.versionConflict s!"cannot restore incomplete lifecycle job {key}")
          else restoreFrom key m : Fallible Unit).run _
      rw [if_neg (not_not.mpr h.succeeded)]
      exact restoreFrom_leaves hc (h₁.clock _)

end Phases

section Restorations

variable (libraries libs : StoreLibraries) (blake3 : List ℕ → ContentHash) (key : String)

def restoresStopped (w : Stores) (stops : List (List Circumstances)) : Stores :=
  stops.foldl (fun w ts => ((restore key).run.run (exec libraries blake3) w ts).2) w

def restored (w : Stores) (ts : ℕ → Circumstances) : Except ContextError Unit × Stores :=
  (restore key).run.finish (exec libraries blake3) w ts

def Returnable (uri : ContextUri) (w : Stores) : Prop :=
  ∃ job m, w.journal[key]? = some job ∧ w.cold[key]? = some m ∧ Vacant uri m job w.content

variable {libraries libs blake3 key} {first w : Stores} {uri : ContextUri} {m : ArchiveManifest} {job : LifecycleJob}

theorem Resting.returning (h : Resting first uri key w) (hn : Sane libs blake3 first)
    (hj : w.journal[key]? = some job) (hu : job.state = .succeeded) :
    ∃ m, Copy libs blake3 first uri m ∧ Returning first uri key m job w ∧ Vacant uri m job w.content := by
  obtain ⟨job',hj',hf⟩ := h.journal
  obtain rfl := Option.some.inj (hj.symm.trans hj')
  obtain ⟨m,hm⟩ := hf.stored (hf.succeeded hu)
  have hw := h.within
  have hsn := hw.cold m hm
  have hc := hn.copy hsn
  have hna := hw.named hn.named
  have hb : Brought uri m job.restoreCheckpoint w := by
    rw [hf.untouched]
    exact ⟨fun hs => (by cases hs),fun hs => (by cases hs),fun hs => (by cases hs),
      fun hs => (by cases hs)⟩
  have hl : ∀ hash : ContentHash, (w.blobs[hash]?).map Prod.snd = (first.blobs[hash]?).map Prod.snd ∨
      w.blobs[hash]? = none ∧ ∃ blob ∈ m.blobs, blob.1.hash = hash := by
    intro hash
    rcases hw.blobs hash with ha | ⟨ho,m',hm',hbl⟩
    · exact .inl (by rw [ha])
    · obtain rfl := Option.some.inj (hm.symm.trans hm')
      exact .inr ⟨ho,hbl⟩
  have hp : ∀ edge ∈ first.edges, edge ∈ w.edges ∨ edge ∈ m.edges := fun edge hed =>
    hc.edges ▸ hw.kept edge hed
  rcases hw.content with ha | ⟨at_,hd⟩
  · refine ⟨m,hc,⟨⟨hm,hna,ha ▸ hn.history,fun k _ => by
      rw [ha],fun row hr => ?_,hw.edges,hp,hw.points,hl⟩,hj,hf.keyed,hu,hb⟩, .inr (.inr (ha ▸ hsn.entry))⟩
    obtain ⟨row',hr',he⟩ := hc.row
    rw [ha,hr'] at hr
    rw [← Option.some.inj hr,he]
    rfl
  · have ht := (SqliteTables.delete_ok hd).entries
    have hg : w.content.entries[uri.canonical]? = none := by rw [ht,Std.ExtTreeMap.getElem?_erase_self]
    refine ⟨m,hc,⟨⟨hm,hna,hn.history.delete hd,fun k hk => ?_,fun row hr => ?_,hw.edges,hp,
      hw.points,hl⟩,hj,hf.keyed,hu,hb⟩, .inr (.inl ?_)⟩
    · rw [ht,Std.ExtTreeMap.getElem?_erase,if_neg (fun hq => hk (Std.LawfulEqCmp.compare_eq_iff_eq.mp hq).symm)]
    · rw [hg] at hr
      cases hr
    · cases he : entryIn w.content uri with
      | none => rfl
      | some e =>
        obtain ⟨row,hr,-⟩ := mem_of_entryIn hna he
        rw [hg] at hr
        cases hr

theorem Held.stopped (hc : Copy libs blake3 first uri m) (h : Held first uri key m w)
    (stops : List (List Circumstances)) :
    Held first uri key m (restoresStopped libs blake3 key w stops) := by
  unfold restoresStopped
  induction stops generalizing w with
  | nil => exact h
  | cons ts stops ih =>
    refine ih ?_
    obtain ⟨job,hj⟩ := h
    have hl : Leaves libs blake3 (Held first uri key m) (fun _ => True)
        (Returns first uri key m (fun _ => True) (Vacant uri m job w.content)) (restore key).run w :=
          restore_leaves hc hj
    have hr : (∃ r, ((restore key).run.run (exec libs blake3) w ts).1 = .done r ∧
          Returns first uri key m (fun _ => True) (Vacant uri m job w.content) r
            ((restore key).run.run (exec libs blake3) w ts).2) ∨
        Held first uri key m ((restore key).run.run (exec libs blake3) w ts).2 := hl.run (fun _ _ => trivial)
    rcases hr with ⟨r,-,hd⟩ | hs
    · cases r with
      | ok u => exact hd.1
      | error e => exact hd.1
    · exact hs

theorem Returning.restores (h : Returning first uri key m job w) (hc : Copy libs blake3 first uri m) :
    (∀ ts : ℕ → Circumstances, (∀ n, (ts n).Healthy) → (restored libs blake3 key w ts).1 = .ok () ∧
        Restored first uri (restored libs blake3 key w ts).2) ↔ Vacant uri m job w.content := by
  have hl : Leaves libs blake3 (Held first uri key m) Circumstances.Healthy
      (Returns first uri key m Circumstances.Healthy (Vacant uri m job w.content)) (restore key).run w :=
        restore_leaves hc h
  have he : ∀ ts : ℕ → Circumstances, (∀ n, (ts n).Healthy) → Returns first uri key m Circumstances.Healthy
      (Vacant uri m job w.content) (restored libs blake3 key w ts).1 (restored libs blake3 key w ts).2 :=
    fun ts hs => hl.finish hs
  constructor
  · intro ha
    have hr := he (fun _ => ⟨0,none,none⟩) (fun _ => ⟨rfl,rfl⟩)
    rw [(ha (fun _ => ⟨0,none,none⟩) (fun _ => ⟨rfl,rfl⟩)).1] at hr
    exact hr.2.2 (fun _ ht => ht)
  · intro hv ts hs
    have hr := he ts hs
    cases hre : (restored libs blake3 key w ts).1 with
    | ok u =>
      rw [hre] at hr
      exact ⟨rfl,hr.2.1⟩
    | error e =>
      rw [hre] at hr
      rcases hr.2 with ⟨t,ht,hn⟩ | hn
      · exact absurd ht hn
      · exact absurd hv hn

/-- What a job has archived is brought back by the first restoration, and, after restorations that stopped, by the next one
without faults exactly if no content is at the URI that the journal does not know to be back. -/
theorem restore_returns_iff (libraries : StoreLibraries) (blake3 : List ℕ → ContentHash) (config : BatchWriteConfig)
    (changes : List Change) (hparsed : ∀ change ∈ changes, ∀ uri ∈ change.uris, ContextUri.parse uri.canonical = .ok uri)
    (id : Uuid) (uri : ContextUri) (operation : LifecycleOperation) (submitted : DateTime) (first : Stores)
    (hfirst : first = StateMachine.run (Stores.change libraries blake3 config) .empty changes)
    (hjournal : first.journal[(newJob id uri operation submitted).idempotencyKey]? =
      some (newJob id uri operation submitted))
    (hcold : first.cold[(newJob id uri operation submitted).idempotencyKey]? = none)
    (stops : List (Uuid × List Circumstances)) (archived : Stores)
    (harchived : archived = stopped libraries blake3 (newJob id uri operation submitted).idempotencyKey first stops)
    (job : LifecycleJob) (hjob : archived.journal[(newJob id uri operation submitted).idempotencyKey]? = some job)
    (hsucceeded : job.state = .succeeded) (restores : List (List Circumstances)) (w : Stores)
    (hw : w = restoresStopped libraries blake3 (newJob id uri operation submitted).idempotencyKey archived restores) :
    (restores = [] → Returnable (newJob id uri operation submitted).idempotencyKey uri w) ∧
      ((∀ ts : ℕ → Circumstances, (∀ n, (ts n).Healthy) →
          (restored libraries blake3 (newJob id uri operation submitted).idempotencyKey w ts).1 = .ok () ∧
            Restored first uri (restored libraries blake3 (newJob id uri operation submitted).idempotencyKey w ts).2) ↔
        Returnable (newJob id uri operation submitted).idempotencyKey uri w) := by
  have hs : Sane libraries blake3 first := hfirst ▸ sane_run changes hparsed
  have he := newJob_resting hjournal hcold
  generalize (newJob id uri operation submitted).idempotencyKey = key at he harchived hjob hw ⊢
  have ht : Resting first uri key archived := by
    rw [harchived]
    exact stopped_resting he hs.named stops
  obtain ⟨m, hc, hr, hv⟩ := ht.returning hs hjob hsucceeded
  refine ⟨fun hn => ?_, ?_⟩
  · rw [hw, hn]
    exact ⟨job, m, hjob, hr.remains.cold, hv⟩
  · obtain ⟨job', hr'⟩ : Held first uri key m w := by
      rw [hw]
      exact Held.stopped hc ⟨job, hr⟩ restores
    rw [hr'.restores hc]
    constructor
    · exact fun h => ⟨job', m, hr'.journal, hr'.remains.cold, h⟩
    · rintro ⟨job'', m', hjob'', hm', h⟩
      obtain rfl := Option.some.inj (hr'.journal.symm.trans hjob'')
      obtain rfl := Option.some.inj (hr'.remains.cold.symm.trans hm')
      exact h

end Restorations

def sampleChanges : List Change :=
  [.outside (.write (.newText sampleUri 0 "item" 5) 7), .call (.addEdge sampleUri sampleUri .derivedFrom) (calm 8),
    .call (.upsert (newJob 1 sampleUri .archive 0)) (calm 8)]

def sampleFirst : Stores := StateMachine.run (Stores.change sampleLibraries (fun _ => "") .standard) .empty sampleChanges

def sampleArchived : Stores :=
  stopped sampleLibraries (fun _ => "") (newJob 1 sampleUri .archive 0).idempotencyKey sampleFirst
    [(1, List.replicate 24 (calm 9))]

def archivedJob : LifecycleJob :=
  (sampleArchived.journal[(newJob 1 sampleUri .archive 0).idempotencyKey]?).getD (newJob 1 sampleUri .archive 0)

/-- A restoration stops after `calls` calls. -/
def restoreStopped (calls : ℕ) : Stores :=
  restoresStopped sampleLibraries (fun _ => "") (newJob 1 sampleUri .archive 0).idempotencyKey sampleArchived
    [List.replicate calls (calm 10)]

theorem restore_returns_sample :
    ([List.replicate 4 (calm 10)] = [] →
      Returnable (newJob 1 sampleUri .archive 0).idempotencyKey sampleUri (restoreStopped 4)) ∧
      ((∀ ts : ℕ → Circumstances, (∀ n, (ts n).Healthy) →
          (restored sampleLibraries (fun _ => "") (newJob 1 sampleUri .archive 0).idempotencyKey
            (restoreStopped 4) ts).1 = .ok () ∧
            Restored sampleFirst sampleUri
              (restored sampleLibraries (fun _ => "") (newJob 1 sampleUri .archive 0).idempotencyKey
                (restoreStopped 4) ts).2) ↔
        Returnable (newJob 1 sampleUri .archive 0).idempotencyKey sampleUri (restoreStopped 4)) := by
  obtain ⟨hp, ho, hc, hs, hu⟩ :
      (∀ change ∈ sampleChanges, ∀ uri ∈ change.uris, ContextUri.parse uri.canonical = .ok uri) ∧
      sampleFirst.journal[(newJob 1 sampleUri .archive 0).idempotencyKey]? = some (newJob 1 sampleUri .archive 0) ∧
      sampleFirst.cold[(newJob 1 sampleUri .archive 0).idempotencyKey]? = none ∧
      (sampleArchived.journal[(newJob 1 sampleUri .archive 0).idempotencyKey]?).isSome = true ∧
        archivedJob.state = .succeeded := by
    decide +kernel
  have hj : sampleArchived.journal[(newJob 1 sampleUri .archive 0).idempotencyKey]? = some archivedJob := by
    obtain ⟨job, hj⟩ := Option.isSome_iff_exists.mp hs
    simp only [archivedJob, hj, Option.getD_some]
  exact restore_returns_iff sampleLibraries
    (fun _ => "") .standard sampleChanges hp 1 sampleUri .archive 0 sampleFirst rfl ho
    hc [(1, List.replicate 24 (calm 9))] sampleArchived rfl archivedJob hj hu [List.replicate 4 (calm 10)]
      (restoreStopped 4) rfl

/-- A restoration stops between the writing of the content and its checkpoint: no later one gets on. -/
theorem interrupted_restore_fails : archivedJob.state = .succeeded ∧
    (restored sampleLibraries (fun _ => "") (newJob 1 sampleUri .archive 0).idempotencyKey (restoreStopped 6)
      (fun _ => calm 11)).1 =
      .error (.versionConflict "hot entry changed since cold snapshot: uwu://t/agent/a/memory/item") := by
  decide +kernel

end UwuContextDb.Lifecycle
