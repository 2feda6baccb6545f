import UwuContextDb.Library.Words
import UwuContextDb.Session.Compressor

/-! A finished compression task stays finished, as long as no caller works on a record that others have moved on. -/

namespace UwuContextDb.Session

open Prog
open Function (update_of_ne update update_self)

theorem join_canonical_inj {u v : ContextUri} {seg seg' : String} (hs : '/' ∉ seg.toList) (hs' : '/' ∉ seg'.toList)
    (h : (u.join seg).canonical = (v.join seg').canonical) : seg = seg' := by
  have hl := congrArg String.toList h
  simp only [ContextUri.join,String.toList_append,List.append_assoc] at hl
  exact String.toList_inj.mp (Words.append_cons_inj_right hs hs' hl).2

theorem slash_notMem_stateName (id : CommitTaskId) : '/' ∉ (Nat.repr id ++ ".json").toList := by
  rw [String.toList_append,List.mem_append,not_or]
  exact ⟨Text.notMem_repr rfl id,by decide⟩

theorem stateUri_inj {ses : SessionHandle} {id id' : CommitTaskId}
    (h : (stateUri ses id).canonical = (stateUri ses id').canonical) : id = id' := by
  have hn := join_canonical_inj (slash_notMem_stateName id) (slash_notMem_stateName id') h
  have hl := congrArg String.toList hn
  rw [String.toList_append,String.toList_append] at hl
  exact Text.repr_inj _ _ (List.append_cancel_right hl)

theorem join_ne_stateUri {u : ContextUri} {name : String} (hs : '/' ∉ name.toList)
    (hn : ∀ id : ℕ, name ≠ id.repr ++ ".json") (ses : SessionHandle) (id : CommitTaskId) :
    (u.join name).canonical ≠ (stateUri ses id).canonical :=
  fun h => hn id (join_canonical_inj hs (slash_notMem_stateName id) h)

theorem ne_stateName {name : String} (hn : name.toList.head?.all (fun c => !c.isDigit) = true) (id : ℕ) :
    name ≠ id.repr ++ ".json" := by
  rintro rfl
  rw [String.toList_append,Nat.toList_repr] at hn
  cases hi : Nat.toDigits 10 id with
  | nil => exact absurd hi Nat.toDigits_ne_nil
  | cons d digits =>
    have hd : d.isDigit = true := Nat.isDigit_of_mem_toDigits (by decide) (by decide) (hi ▸ List.mem_cons_self)
    simp [hi,hd] at hn

theorem parent_ne_stateUri {ses : SessionHandle} {parent : ContextUri}
    (h : (archiveFileUri ses).parent = some parent) (ses' : SessionHandle) (id : CommitTaskId) :
    parent.canonical ≠ (stateUri ses' id).canonical := by
  have hp : (archiveFileUri ses).path.dropLast = ses.archiveDir.path ++ [ses.compressionIndex.repr] := by
    simp [archiveFileUri,ContextUri.join]
  have ha : parent.canonical = ContextUri.scheme ++
      "/".intercalate (ses.archiveDir.path++[ses.compressionIndex.repr]) := by
    unfold ContextUri.parent at h
    split at h
    · cases h
    · rw [← Option.some.inj h]
      exact congrArg (fun path => ContextUri.scheme ++ "/".intercalate path) hp
  have hs : ∃ before, parent.canonical.toList = before ++ '/'::ses.compressionIndex.repr.toList := by
    rw [ha]
    cases hr : ses.archiveDir.path with
    | nil => exact ⟨['u', 'w', 'u', ':', '/'],by simp [ContextUri.scheme]⟩
    | cons first rest =>
      rw [String.intercalate_append_of_ne_nil (by simp) (by simp),String.intercalate_singleton]
      exact ⟨(ContextUri.scheme ++ "/".intercalate (first::rest)).toList,by simp⟩
  intro he
  obtain ⟨before,hb⟩ := hs
  rw [he] at hb
  simp only [stateUri,ContextUri.join,String.toList_append,List.append_assoc] at hb
  have ht : '/' ∉ id.repr.toList ++ ".json".toList := by simpa using slash_notMem_stateName id
  have hi : '/' ∉ ses.compressionIndex.repr.toList := Text.notMem_repr rfl _
  have hn := (Words.append_cons_inj_right ht hi hb).2
  have hd : '.' ∈ ses.compressionIndex.repr.toList := by
    rw [← hn]
    simp
  exact Text.notMem_repr rfl _ hd

section Rules

structure Good (session : SessionHandle) (id : CommitTaskId) (record : TaskRecord) : Prop where
  taskId : record.taskId = id
  own : record.session = session
  archive : record.archiveUri = archiveFileUri session

def artifacts (session : SessionHandle) (marker : DoneMarker) : List String :=
  [marker.memoryDiffUri.canonical, marker.overviewUri.canonical, (doneUri session).canonical]

/-- What a caller knows: the record it loaded last, what it has stored, and, while it has the guard of a task, the attempt
that it makes, until that is done. -/
structure Known where
  loaded : Option TaskRecord
  stored : List String
  guard : Option (CommitTaskId × Option ℕ)

def Known.idle : Known := ⟨none, [], none⟩

variable (session : SessionHandle)

def MaySave (record : TaskRecord) (known : Known) : Prop :=
  Good session record.taskId record ∧ ((record.status = .pending ∧ record.attempt = 0) ∨
    known.guard = some (record.taskId, some record.attempt) ∧
      ∀ marker, record.status = .done marker → artifacts session marker ⊆ known.stored)

def May (c : Call) (known : Known) : Prop :=
  match c with
  | .write uri (.record record) => uri = stateUri session record.taskId ∧ MaySave session record known
  | .write uri _ => ∀ id, uri.canonical ≠ (stateUri session id).canonical
  | .insertActive id => known.guard = none ∧ ∃ record, known.loaded = some record ∧ Good session id record
  | .removeActive id => ∃ attempt, known.guard = some (id, attempt)
  | _ => True

def Content.isFinished : Content → Bool
  | .record r =>
    match r.status with
    | .done _ => true
    | _ => false
  | _ => false

def lastLoaded (loaded : Option TaskRecord) (c : Call) (r : c.Reply) : Option TaskRecord :=
  match c, r with
  | .read _, .ok (.record record) => some record
  | _, _ => loaded

def Known.learn (known : Known) (c : Call) (r : c.Reply) : Known :=
  match c, r with
  | .read uri, r => { known with loaded := lastLoaded known.loaded (.read uri) r }
  | .write uri content, r =>
    { known with
      stored := if r.isOk then uri.canonical::known.stored else known.stored
      guard := if content.isFinished then known.guard.map (fun held => (held.1, none)) else known.guard }
  | .insertActive id, true => { known with guard := some (id, known.loaded.map (fun record => record.attempt + 1)) }
  | .removeActive _, _ => { known with guard := none }
  | _, _ => known

def Tells (c : Call) (r : c.Reply) (known : Known) : Prop :=
  match c, r with
  | .read uri, .ok (.record record) => ∀ id, uri = stateUri session id → Good session id record
  | .insertActive _, true => ∀ record, known.loaded = some record → record.attempt + 1 < 2 ^ 32
  | _, _ => True

def Learns (c : Call) (known : Known) (r : c.Reply) (known' : Known) : Prop :=
  known' = known.learn c r ∧ Tells session c r known

def Quiet : Call → Prop
  | .read _ | .write .. | .insertActive _ | .removeActive _ => False
  | _ => True

variable {session}

theorem quiet_keeps {α : Type} {p : Program α} (h : p.Only Quiet) (known : Known) :
    p.Keeps (May session) (Learns session) (fun _ known' => known' = known) known := by
  refine h.keeps Quiet ?_ ?_ known
  · intro c known hc
    cases c <;> first | exact absurd hc id | trivial
  · intro c known r known' hc hr
    cases c <;> first | exact absurd hc id | exact hr.1

end Rules

section Programs

variable {session : SessionHandle} {libraries lib : Libraries} {known : Known}

theorem loadRecord_keeps (u : ContextUri) (known : Known) :
    (loadRecord u).run.Keeps (May session) (Learns session)
      (Outcome (fun record known' => known' = { known with loaded := some record } ∧ ∀ id, u = stateUri session id →
        Good session id record)
        (fun _ known' => known' = known)) known := by
  refine Keeps.andThen (Keeps.ask trivial ?_)
  rintro (e | content) known' ⟨rfl,ht⟩
  · rfl
  · cases content with
    | record record => exact ⟨rfl,ht⟩
    | _ => rfl

variable {record : TaskRecord}

theorem saveRecord_keeps (h : MaySave session record known) :
    (saveRecord record).run.Keeps (May session) (Learns session) (Outcome (fun _ known' =>
        known'.guard = (known.learn (.write (stateUri session record.taskId) (.record record)) (.ok ())).guard ∧
          known.stored ⊆ known'.stored) (fun _ known' => known'.guard =
          (known.learn (.write (stateUri session record.taskId) (.record record)) (.ok ())).guard)) known := by
  have hu : stateUri record.session record.taskId = stateUri session record.taskId := by rw [h.1.own]
  refine Keeps.ask (by rw [hu]; exact ⟨rfl,h⟩) ?_
  rintro (e | ⟨⟩) known' ⟨rfl,-⟩
  · rfl
  · exact ⟨rfl,List.subset_cons_self _ _⟩

theorem writeFile_keeps {u : ContextUri} {content : Content}
    (hu : ∀ id, u.canonical ≠ (stateUri session id).canonical)
    (hc : ∀ record, content ≠ .record record) (known : Known) :
    (write u content).run.Keeps (May session) (Learns session)
      (Outcome (fun _ known' => known' = { known with stored := u.canonical::known.stored })
        (fun _ known' => known' = known)) known := by
  cases content with
  | record record => exact absurd rfl (hc record)
  | _ =>
    refine Keeps.ask hu ?_
    rintro (e | ⟨⟩) known' ⟨rfl,-⟩
    · exact rfl
    · exact rfl

theorem quiet_andThen {α β : Type} {x : Fallible α} {f : α → Fallible β} {post : Except ContextError β → Known → Prop}
    (hx : x.run.Only Quiet) (ho : ∀ a, (f a).run.Keeps (May session) (Learns session) post known)
    (he : ∀ e, post (.error e) known) : (x >>= f).run.Keeps (May session) (Learns session) post known := by
  refine Keeps.andThen ((quiet_keeps hx known).mono ?_)
  rintro (e | a) known' rfl
  · exact he e
  · exact ho a

theorem addDecisions_only (decisions : List DedupDecision) (diff : MemoryDiff) :
    (decisions.foldlM addDecision diff).run.Only Quiet := by
  have hr : ∀ diff decision, (addDecision diff decision).run.Only Quiet := by
    intro diff decision
    unfold addDecision
    split
    · exact Only.andThen (Only.lift (Only.ask trivial) (fun _ => trivial))
        (fun _ => Only.andThen (Only.ask trivial) (fun _ => trivial))
    · split <;> trivial
    · trivial
  induction decisions generalizing diff with
  | nil => trivial
  | cons decision decisions ih => exact Only.andThen (hr diff decision) ih

theorem prepare_keeps (record : TaskRecord) (known : Known) :
    (prepare record).run.Keeps (May session) (Learns session)
      (Outcome (fun prepared known' => known' = known ∧ record.archiveUri.parent = some prepared.2.1)
        (fun _ known' => known' = known))
      known := by
  refine quiet_andThen (Only.ask trivial) (fun candidates => ?_) (fun _ => rfl)
  refine quiet_andThen (Only.ask trivial) (fun decisions => ?_) (fun _ => rfl)
  refine quiet_andThen (addDecisions_only decisions _) (fun diff => ?_) (fun _ => rfl)
  split
  · exact rfl
  · rename_i parent hp
    refine quiet_andThen (Only.ask trivial) (fun overview => ?_) (fun _ => rfl)
    split
    · exact rfl
    · exact ⟨rfl,hp⟩

theorem now_keeps {β : Type} {f : DateTime → Fallible β} {post : Except ContextError β → Known → Prop}
    (h : ∀ at_, (f at_).run.Keeps (May session) (Learns session) post known) :
    (now >>= f).run.Keeps (May session) (Learns session) post known := by
  have ho : Call.now.ask.Only Quiet := Only.ask trivial
  refine Keeps.lift ((quiet_keeps ho known).mono ?_)
  rintro at_ known' rfl
  exact h at_

theorem executePipeline_keeps {id : CommitTaskId} (hg : Good session id record) (known : Known) :
    (executePipeline record).run.Keeps (May session) (Learns session)
      (Outcome (fun done known' => known'.guard = known.guard ∧ artifacts session done ⊆ known'.stored)
        (fun _ known' => known'.guard = known.guard)) known := by
  refine Keeps.andThen ((prepare_keeps record known).mono ?_)
  rintro (e | prepared) known' hp
  · obtain rfl : known' = known := hp
    exact rfl
  · obtain ⟨rfl,ha⟩ := hp
    have hd : ∀ id, (diffUri record.session).canonical ≠ (stateUri session id).canonical :=
      join_ne_stateUri (by decide) (fun id => ne_stateName (by decide) id) session
    have ho : ∀ id, (doneUri record.session).canonical ≠ (stateUri session id).canonical :=
      join_ne_stateUri (by decide) (fun id => ne_stateName (by decide) id) session
    have hv : ∀ id, prepared.2.1.canonical ≠ (stateUri session id).canonical := by
      rw [hg.archive] at ha
      exact parent_ne_stateUri ha session
    refine Keeps.andThen ((writeFile_keeps hd (by simp) known').mono ?_)
    rintro (e | ⟨⟩) known₁ rfl
    · exact rfl
    refine now_keeps (fun at_ => ?_)
    refine Keeps.andThen ((writeFile_keeps hv (by simp) _).mono ?_)
    rintro (e | ⟨⟩) known₂ rfl
    · exact rfl
    refine Keeps.andThen ((writeFile_keeps ho (by simp) _).mono ?_)
    rintro (e | ⟨⟩) known₃ rfl
    · exact rfl
    refine ⟨rfl,?_⟩
    intro uri hu
    rw [← hg.own] at hu
    simp only [artifacts,List.mem_cons,List.not_mem_nil,or_false] at hu
    rcases hu with hd | hv | ho
    · exact List.mem_cons_of_mem _ (List.mem_cons_of_mem _ (List.mem_cons.mpr (.inl hd)))
    · exact List.mem_cons_of_mem _ (List.mem_cons.mpr (.inl hv))
    · exact List.mem_cons.mpr (.inl ho)

theorem processInner_keeps {id : CommitTaskId} (ho : Good session id record)
    (ha : record.attempt+1 < 2 ^ 32) (hg : known.guard = some (id, some (record.attempt+1))) :
    (processInner record).run.Keeps (May session) (Learns session) (fun _ known' => ∃ attempt,
      known'.guard = some (id, attempt)) known := by
  refine now_keeps (fun at_ => ?_)
  have hn : (record.attempt+1) % 2 ^ 32 = record.attempt + 1 := Nat.mod_eq_of_lt ha
  have ho' : Good session (record.attempted at_).taskId (record.attempted at_) := ⟨rfl,ho.own,ho.archive⟩
  have hv : MaySave session (record.attempted at_) known := by
    refine ⟨ho', .inr ⟨?_,fun marker hm => by cases hm⟩⟩
    rw [hg]
    show some (id, some (record.attempt+1)) = some (record.taskId, some ((record.attempt+1) % 2 ^ 32))
    rw [hn,ho.taskId]
  refine Keeps.andThen ((saveRecord_keeps hv).mono ?_)
  rintro (e | ⟨⟩) known₁ hk₁
  · exact ⟨_,(hk₁ : known₁.guard = known.guard).trans hg⟩
  have hg₁ : known₁.guard = some (id, some (record.attempt+1)) := hk₁.1.trans hg
  refine Keeps.lift ((executePipeline_keeps ho' known₁).mono ?_)
  have hh : some (id, some (record.attempt+1)) =
      some ((record.attempted at_).taskId, some (record.attempted at_).attempt) := by
    show some (id, some (record.attempt+1)) = some (record.taskId, some ((record.attempt+1) % 2 ^ 32))
    rw [hn,ho.taskId]
  have hc : ∀ (known₂ : Known) (updatedAt : DateTime) (status : TaskStatus),
      known₂.guard = some (id, some (record.attempt+1)) →
      (∀ marker, status = .done marker → artifacts session marker ⊆ known₂.stored) →
      MaySave session { record.attempted at_ with updatedAt := updatedAt, status := status } known₂ :=
    fun known₂ updatedAt status hg₂ ht => ⟨⟨rfl,ho.own,ho.archive⟩, .inr ⟨hg₂.trans hh,ht⟩⟩
  rintro (e | done) known₂ hk₂
  · have hg₂ : known₂.guard = some (id, some (record.attempt+1)) :=
      (hk₂ : known₂.guard = known₁.guard).trans hg₁
    refine now_keeps (fun failedAt => ?_)
    refine Keeps.andThen ((saveRecord_keeps (hc known₂ failedAt _ hg₂ ?_)).mono ?_)
    · intro marker hm
      cases hm
    · rintro (e' | ⟨⟩) known₃ hk₃
      · exact ⟨_,(hk₃ : known₃.guard = known₂.guard).trans hg₂⟩
      · exact ⟨_,(hk₃.1 : known₃.guard = known₂.guard).trans hg₂⟩
  · have hg₂ : known₂.guard = some (id, some (record.attempt+1)) := hk₂.1.trans hg₁
    refine Keeps.andThen ((saveRecord_keeps (hc known₂ done.finishedAt _ hg₂ ?_)).mono ?_)
    · intro marker hm
      cases hm
      exact hk₂.2
    · have hs : known₂.guard.map (fun held => (held.1, (none : Option ℕ))) = some (id, none) := by rw [hg₂]; rfl
      rintro (e' | ⟨⟩) known₃ hk₃
      · exact ⟨none,(hk₃ : known₃.guard = known₂.guard.map _).trans hs⟩
      · exact ⟨none,(hk₃.1 : known₃.guard = known₂.guard.map _).trans hs⟩

theorem process_keeps (id : CommitTaskId) (hu : known.guard = none) :
    (process session id).run.Keeps (May session) (Learns session) (fun _ _ => True) known := by
  refine Keeps.andThen ((loadRecord_keeps (stateUri session id) known).mono ?_)
  rintro (e | record) known' hl
  · trivial
  obtain ⟨rfl,hg⟩ := hl
  have hg := hg id rfl
  unfold Outcome
  dsimp only
  split
  · trivial
  · refine Keeps.lift ⟨⟨hu,record,rfl,hg⟩,?_⟩
    rintro (_ | _) known₁ ⟨rfl,ht⟩
    · trivial
    · have ha : record.attempt + 1 < 2 ^ 32 := ht record rfl
      refine Keeps.lift ((processInner_keeps hg ha rfl).mono ?_)
      rintro result known₂ ⟨attempt,hh⟩
      refine Keeps.lift ⟨⟨attempt,hh⟩,?_⟩
      intro _ known₃ _
      trivial

theorem enqueue_keeps (hg : known.guard = none) :
    (enqueue lib session).run.Keeps (May session) (Learns session) (fun _ known' => known'.guard = none) known := by
  refine Keeps.lift ((loadRecord_keeps _ known).mono ?_)
  rintro (e | record) known' hl
  · obtain rfl : known' = known := hl
    refine quiet_andThen trivial (fun archive => ?_) (fun _ => hg)
    have ha : ∀ id, (archiveFileUri session).canonical ≠ (stateUri session id).canonical :=
      join_ne_stateUri (by decide) (fun id => ne_stateName (by decide) id) session
    refine Keeps.andThen ((writeFile_keeps ha (by simp) known').mono ?_)
    rintro (e' | ⟨⟩) known₁ rfl
    · exact hg
    refine now_keeps (fun at_ => ?_)
    refine Keeps.andThen ((saveRecord_keeps ⟨⟨rfl,rfl,rfl⟩, .inl ⟨rfl,rfl⟩⟩).mono ?_)
    rintro (e' | ⟨⟩) known₂ hk₂
    · exact (hk₂ : known₂.guard = known'.guard).trans hg
    · exact (hk₂.1 : known₂.guard = known'.guard).trans hg
  · exact (congrArg Known.guard hl.1).trans hg

theorem run_keeps (hg : known.guard = none) :
    (Session.run lib session).run.Keeps (May session) (Learns session) (fun _ _ => True) known := by
  refine Keeps.andThen ((enqueue_keeps hg).mono ?_)
  rintro (e | id) known' hg'
  · trivial
  · exact process_keeps id hg'

theorem service_keeps (service : Service) :
    (service.program lib session).Keeps (May session) (Learns session) (fun _ _ => True) .idle := by
  cases service with
  | enqueue => exact .bind ((enqueue_keeps rfl).mono (fun _ _ _ => trivial))
  | run => exact .bind ((run_keeps rfl).mono (fun _ _ _ => trivial))
  | retry id => exact .bind ((process_keeps id rfl).mono (fun _ _ _ => trivial))
  | recover => exact .bind ((process_keeps _ rfl).mono (fun _ _ _ => trivial))

end Programs

section Worlds

/-- What a step should do to the tasks of a session: the finished ones stay so, no attempt is forgotten, and what the marker
of a finished one names is stored. -/
structure Lasting (session : SessionHandle) (w w' : World) : Prop where
  finished : ∀ id record marker, w.recordOf session id = some record → record.status = .done marker →
    ∃ record', w'.recordOf session id = some record' ∧ record'.status = .done marker
  attempts : ∀ id record, w.recordOf session id = some record → ∃ record', w'.recordOf session id = some record' ∧
    record.attempt ≤ record'.attempt
  published : ∀ id record marker, w'.recordOf session id = some record → record.status = .done marker →
    ∀ uri ∈ artifacts session marker, (w'.texts uri).isSome = true

structure Left (session : SessionHandle) (w : World) : Prop where
  good : ∀ id record, w.recordOf session id = some record → Good session id record
  published : ∀ id record marker, w.recordOf session id = some record → record.status = .done marker →
    ∀ uri ∈ artifacts session marker, (w.texts uri).isSome = true

structure CallersInv (session : SessionHandle) (w : World) (known : ℕ → Known) : Prop extends Left session w where
  active : ∀ i id attempt, (known i).guard = some (id, attempt) → id ∈ w.active
  alone : ∀ i j id attempt attempt', (known i).guard = some (id, attempt) → (known j).guard = some (id, attempt') → i = j
  bound : ∀ i id attempt, (known i).guard = some (id, some attempt) → ∀ record, w.recordOf session id = some record →
    record.attempt ≤ attempt ∧ ∀ marker, record.status ≠ .done marker
  stored : ∀ i, ∀ uri ∈ (known i).stored, (w.texts uri).isSome = true

/-- A new record is saved only over one that was not attempted yet, and the guard of a task is taken only while at most the
next attempt of the record that was loaded is stored, and that is not done. -/
def Careful (session : SessionHandle) (w : World) (loaded : Option TaskRecord) (c : Call) : Prop :=
  match c with
  | .write _ (.record record) => record.status = .pending → ∀ stored, w.recordOf session record.taskId = some stored →
      stored.attempt = 0 ∧ ∀ marker, stored.status ≠ .done marker
  | .insertActive id => id ∉ w.active → ∀ record, loaded = some record → record.attempt + 1 < 2 ^ 32 ∧
      ∀ stored, w.recordOf session id = some stored → stored.attempt ≤ record.attempt + 1 ∧
        ∀ marker, stored.status ≠ .done marker
  | _ => True

variable {session : SessionHandle} {w w' : World} {known : ℕ → Known} {i : ℕ} {t : Circumstances}

theorem isSome_set (w : World) (u : ContextUri) (content : Content) {name : String} (h : (w.texts name).isSome = true) :
    ((w.set u content).texts name).isSome = true := by
  by_cases hn : name = u.canonical
  · simp [World.set,hn]
  · simp [World.set,update_of_ne hn,h]

variable {uri : ContextUri} {record : TaskRecord} {r : Except ContextError Unit} {id : CommitTaskId}
  {attempt : Option ℕ} {content : Content}

theorem recordOf_set_file (hu : ∀ id, uri.canonical ≠ (stateUri session id).canonical) (w : World)
    (content : Content) (id : CommitTaskId) : (w.set uri content).recordOf session id = w.recordOf session id := by
  simp [World.recordOf,World.set,update_of_ne (hu id).symm]

theorem recordOf_set_record (w : World) (id id' : CommitTaskId) (record : TaskRecord) :
    (w.set (stateUri session id) (.record record)).recordOf session id' = if id' = id then some record
    else w.recordOf session id' := by
  by_cases hi : id' = id
  · subst hi
    simp [World.recordOf,World.set]
  · have hn : (stateUri session id').canonical ≠ (stateUri session id).canonical := fun h => hi (stateUri_inj h)
    simp [World.recordOf,World.set,update_of_ne hn,hi]

theorem Left.lasting (h : Left session w') (hs : ∀ id, w'.recordOf session id = w.recordOf session id) :
    Lasting session w w' := by
  refine ⟨fun id record marker hr hd => ⟨record,?_,hd⟩,
    fun id record hr => ⟨record,?_,Nat.le_refl _⟩,h.published⟩
  · rw [hs,hr]
  · rw [hs,hr]

theorem Left.same (h : Left session w) (hs : ∀ id, w'.recordOf session id = w.recordOf session id)
    (ht : ∀ uri, (w.texts uri).isSome = true → (w'.texts uri).isSome = true) : Left session w' := by
  constructor
  · intro id record hr
    rw [hs] at hr
    exact h.good id record hr
  · intro id record marker hr hd uri hu
    rw [hs] at hr
    exact ht uri (h.published id record marker hr hd uri hu)

/-- A step that leaves the records and the guards, after which a caller knows of no attempt that it did not know of. -/
theorem CallersInv.same (h : CallersInv session w known) (hs : ∀ id, w'.recordOf session id = w.recordOf session id)
    (ht : ∀ uri, (w.texts uri).isSome = true → (w'.texts uri).isSome = true)
    (ha : w'.active = w.active) {next : Known}
    (hg : ∀ id attempt, next.guard = some (id, attempt) → ∃ before, (known i).guard = some (id, before) ∧
      (attempt = none ∨ attempt = before)) (ho : ∀ uri ∈ next.stored, (w'.texts uri).isSome = true) :
    CallersInv session w' (update known i next) := by
  have hh : ∀ j id attempt, (update known i next j).guard = some (id, attempt) →
      ∃ before, (known j).guard = some (id, before) ∧ (attempt = none ∨ attempt = before) := by
    intro j id attempt hj
    by_cases hi : j = i
    · subst hi
      rw [update_self] at hj
      exact hg id attempt hj
    · rw [update_of_ne hi] at hj
      exact ⟨attempt,hj, .inr rfl⟩
  refine ⟨h.toLeft.same hs ht,?_,?_,?_,?_⟩
  · intro j id attempt hj
    obtain ⟨before,hb,-⟩ := hh j id attempt hj
    rw [ha]
    exact h.active j id before hb
  · intro j k id attempt attempt' hj hk
    obtain ⟨before,hb,-⟩ := hh j id attempt hj
    obtain ⟨before',hb',-⟩ := hh k id attempt' hk
    exact h.alone j k id before before' hb hb'
  · intro j id attempt hj
    obtain ⟨before,hb,hat⟩ := hh j id (some attempt) hj
    obtain rfl := hat.resolve_left (by simp)
    intro record hr
    rw [hs] at hr
    exact h.bound j id attempt hb record hr
  · intro j uri hu
    by_cases hi : j = i
    · subst hi
      rw [update_self] at hu
      exact ho uri hu
    · rw [update_of_ne hi] at hu
      exact ht uri (h.stored j uri hu)

theorem guard_of_saved {before : Known}
    (h : (before.learn (.write uri (.record record)) r).guard = some (id, attempt)) :
    ∃ before', before.guard = some (id, before') ∧ (attempt = none ∨ attempt = before') ∧
      ((∃ marker, record.status = .done marker) → attempt = none) := by
  unfold Known.learn at h
  dsimp only at h
  split at h
  · obtain ⟨held,hh,he⟩ := Option.map_eq_some_iff.mp h
    cases he
    exact ⟨held.2,hh, .inl rfl,fun _ => rfl⟩
  · rename_i hf
    refine ⟨attempt,h, .inr rfl,?_⟩
    rintro ⟨marker,hm⟩
    simp [Content.isFinished,hm] at hf

theorem isSome_exec (c : Call) {name : String} (h : (w.texts name).isSome = true) :
    ((exec c t w).2.texts name).isSome = true := by
  cases c with
  | write uri content =>
    unfold exec
    dsimp only
    split
    · exact isSome_set w uri content h
    · exact h
  | _ => exact h

theorem exec_read_stored (h : (exec (.read uri) t w).1 = .ok content) : w.texts uri.canonical = some content := by
  unfold exec Circumstances.answer at h
  dsimp only at h
  cases hf : t.fault with
  | some e => simp [hf,Except.bind] at h
  | none =>
    cases ho : w.texts uri.canonical with
    | none => simp [hf,ho,Except.bind] at h
    | some found =>
      rw [hf,ho] at h
      cases h
      rfl

theorem exec_write_stored (h : (exec (.write uri content) t w).1.isOk = true) :
    ((exec (.write uri content) t w).2.texts uri.canonical).isSome = true := by
  have he : t.fault = none := by
    cases hf : t.fault with
    | none => rfl
    | some e => simp [exec,Circumstances.answer,hf,Except.isOk,Except.toBool] at h
  simp [exec,he,World.set]

theorem stored_learn_write {before : Known} (hk : ∀ name ∈ before.stored, (w'.texts name).isSome = true)
    (hw : r.isOk = true → (w'.texts uri.canonical).isSome = true) :
    ∀ name ∈ (before.learn (.write uri content) r).stored, (w'.texts name).isSome = true := by
  intro name hn
  unfold Known.learn at hn
  dsimp only at hn
  split at hn
  · rename_i ho
    rcases List.mem_cons.mp hn with rfl | hn
    · exact hw ho
    · exact hk name hn
  · exact hk name hn

theorem stored_of_written {u : ContextUri} {content : Content} (h : CallersInv session w known) :
    ∀ name ∈ ((known i).learn (.write u content) (exec (.write u content) t w).1).stored,
      ((exec (.write u content) t w).2.texts name).isSome = true :=
  stored_learn_write (fun name hn => isSome_exec _ (h.stored i name hn)) exec_write_stored

/-- What may be saved passes what is stored of the task by no more than the attempt, and nothing is stored as done. -/
theorem MaySave.above (ha : MaySave session record (known i)) (h : CallersInv session w known)
    (hc : record.status = .pending → ∀ stored, w.recordOf session record.taskId = some stored →
      stored.attempt = 0 ∧ ∀ marker, stored.status ≠ .done marker) {stored : TaskRecord}
    (hs : w.recordOf session record.taskId = some stored) :
    stored.attempt ≤ record.attempt ∧ ∀ marker, stored.status ≠ .done marker := by
  rcases ha.2 with ⟨hp,hz⟩ | ⟨hg,-⟩
  · obtain ⟨ht,ho⟩ := hc hp stored hs
    exact ⟨by omega,ho⟩
  · exact h.bound i _ _ hg stored hs

theorem Left.saved (h : CallersInv session w known) (ha : MaySave session record (known i)) :
    Left session (w.set (stateUri session record.taskId) (.record record)) := by
  have ht : ∀ name, (w.texts name).isSome = true →
      ((w.set (stateUri session record.taskId) (.record record)).texts name).isSome = true := fun name => isSome_set w _ _
  constructor
  · intro id stored hs
    rw [recordOf_set_record] at hs
    split at hs
    · rename_i hi
      cases hs
      exact hi ▸ ha.1
    · exact h.good id stored hs
  · intro id stored marker hs hd uri hu
    rw [recordOf_set_record] at hs
    split at hs
    · cases hs
      rcases ha.2 with ⟨hp,-⟩ | ⟨-,hb⟩
      · rw [hp] at hd
        cases hd
      · exact ht uri (h.stored i uri (hb marker hd hu))
    · exact ht uri (h.published id stored marker hs hd uri hu)

theorem CallersInv.saved (h : CallersInv session w known) {record : TaskRecord} (hv : MaySave session record (known i))
    (hc : record.status = .pending → ∀ stored, w.recordOf session record.taskId = some stored →
      stored.attempt = 0 ∧ ∀ marker, stored.status ≠ .done marker) (r : Except ContextError Unit) :
    CallersInv session (w.set (stateUri session record.taskId) (.record record))
        (update known i ((known i).learn (.write (stateUri session record.taskId) (.record record)) r)) ∧
      Lasting session w (w.set (stateUri session record.taskId) (.record record)) := by
  have hr := fun id' => @recordOf_set_record session w record.taskId id' record
  have ht : ∀ name, (w.texts name).isSome = true →
      ((w.set (stateUri session record.taskId) (.record record)).texts name).isSome = true := fun name => isSome_set w _ _
  have hl := Left.saved h hv
  have hg : ∀ j id attempt,
      (update known i ((known i).learn (.write (stateUri session record.taskId) (.record record)) r) j).guard =
        some (id, attempt) → ∃ before, (known j).guard = some (id, before) ∧ (attempt = none ∨ attempt = before) ∧
          (j = i → (∃ marker, record.status = .done marker) → attempt = none) := by
    intro j id attempt hj
    by_cases hi : j = i
    · subst hi
      rw [update_self] at hj
      obtain ⟨before,hb,ha,hp⟩ := guard_of_saved hj
      exact ⟨before,hb,ha,fun _ => hp⟩
    · rw [update_of_ne hi] at hj
      exact ⟨attempt,hj, .inr rfl,fun hq => absurd hq hi⟩
  refine ⟨⟨hl,?_,?_,?_,?_⟩,?_,?_,hl.published⟩
  · intro j id attempt hj
    obtain ⟨before,hb,-⟩ := hg j id attempt hj
    exact h.active j id before hb
  · intro j k id attempt attempt' hj hk
    obtain ⟨before,hb,-⟩ := hg j id attempt hj
    obtain ⟨before',hb',-⟩ := hg k id attempt' hk
    exact h.alone j k id before before' hb hb'
  · intro j id attempt hj
    obtain ⟨before,hb,ha,hp⟩ := hg j id (some attempt) hj
    obtain rfl := ha.resolve_left (by simp)
    intro stored hs
    rw [hr] at hs
    split at hs
    · rename_i hid
      subst hid
      cases hs
      -- the record saved is that of the caller with the guard, or a new one
      rcases hv.2 with ⟨he,hz⟩ | ⟨hgr,-⟩
      · exact ⟨by omega,fun marker => by rw [he]; simp⟩
      · obtain rfl := h.alone j i _ _ _ hb hgr
        have ha := (Prod.mk.inj (Option.some.inj (hb.symm.trans hgr))).2
        refine ⟨Nat.le_of_eq (Option.some.inj ha).symm,fun marker hd => ?_⟩
        exact absurd (hp rfl ⟨marker,hd⟩) (by simp)
    · exact h.bound j id attempt hb stored hs
  · intro j name hn
    by_cases hi : j = i
    · subst hi
      rw [update_self] at hn
      refine stored_learn_write (fun name hs => ht name (h.stored j name hs)) (fun _ => ?_) name hn
      simp [World.set]
    · rw [update_of_ne hi] at hn
      exact ht name (h.stored j name hn)
  · intro id stored marker hs hd
    rw [hr]
    split
    · rename_i hid
      subst hid
      exact absurd hd ((hv.above h hc hs).2 marker)
    · exact ⟨stored,hs,hd⟩
  · intro id stored hs
    rw [hr]
    split
    · rename_i hid
      subst hid
      exact ⟨record,rfl,(hv.above h hc hs).1⟩
    · exact ⟨stored,hs,Nat.le_refl _⟩

theorem CallersInv.taken (h : CallersInv session w known) (hm : May session (.insertActive id) (known i))
    (hc : Careful session w (known i).loaded (.insertActive id)) (hf : id ∉ w.active) :
    Tells session (.insertActive id) true (known i) ∧ CallersInv session { w with active := id::w.active }
      (update known i ((known i).learn (.insertActive id) true)) := by
  obtain ⟨hu,record,hl,hgo⟩ := hm
  obtain ⟨hli,hs⟩ := hc hf record hl
  have ho : ∀ j attempt, (known j).guard ≠ some (id, attempt) := fun j attempt hj => hf (h.active j id attempt hj)
  have hg : ∀ j id' attempt,
      (update known i ((known i).learn (.insertActive id) true) j).guard = some (id', attempt) →
        (j = i ∧ id' = id ∧ attempt = some (record.attempt+1)) ∨
          (j ≠ i ∧ id' ≠ id ∧ (known j).guard = some (id', attempt)) := by
    intro j id' attempt hj
    by_cases hi : j = i
    · subst hi
      rw [update_self] at hj
      have he : some (id, (known j).loaded.map (fun record => record.attempt+1)) = some (id', attempt) := hj
      rw [hl] at he
      cases he
      exact .inl ⟨rfl,rfl,rfl⟩
    · rw [update_of_ne hi] at hj
      exact .inr ⟨hi,fun hq => ho j attempt (hq ▸ hj),hj⟩
  refine ⟨fun record' hr' => ?_,⟨h.toLeft.same (fun _ => rfl) (fun _ hso => hso),?_,?_,?_,?_⟩⟩
  · obtain rfl := Option.some.inj (hl.symm.trans hr')
    exact hli
  · intro j id' attempt hj
    rcases hg j id' attempt hj with ⟨-,rfl,-⟩ | ⟨-,-,hb⟩
    · exact List.mem_cons_self
    · exact List.mem_cons_of_mem _ (h.active j id' attempt hb)
  · intro j k id' attempt attempt' hj hk
    rcases hg j id' attempt hj with ⟨rfl,rfl,-⟩ | ⟨-,hne,hb⟩
    · rcases hg k _ attempt' hk with ⟨rfl,-,-⟩ | ⟨-,hne,-⟩
      · rfl
      · exact absurd rfl hne
    · rcases hg k _ attempt' hk with ⟨-,hq,-⟩ | ⟨-,-,hb'⟩
      · exact absurd hq hne
      · exact h.alone j k id' attempt attempt' hb hb'
  · intro j id' attempt hj
    rcases hg j id' (some attempt) hj with ⟨-,rfl,ha⟩ | ⟨-,-,hb⟩
    · cases ha
      exact hs
    · exact h.bound j id' attempt hb
  · intro j name hn
    by_cases hi : j = i
    · subst hi
      rw [update_self] at hn
      exact h.stored j name hn
    · rw [update_of_ne hi] at hn
      exact h.stored j name hn

theorem CallersInv.released (h : CallersInv session w known) (hr : (known i).guard = some (id, attempt)) :
    CallersInv session { w with active := w.active.filter (· ≠ id) }
    (update known i { known i with guard := none }) := by
  have hg : ∀ j id' attempt', (update known i { known i with guard := none } j).guard = some (id', attempt') →
      j ≠ i ∧ (known j).guard = some (id', attempt') := by
    intro j id' attempt' hj
    by_cases hi : j = i
    · subst hi
      rw [update_self] at hj
      cases hj
    · rw [update_of_ne hi] at hj
      exact ⟨hi,hj⟩
  refine ⟨h.toLeft.same (fun _ => rfl) (fun _ hs => hs),?_,?_,?_,?_⟩
  · intro j id' attempt' hj
    obtain ⟨hi,hb⟩ := hg j id' attempt' hj
    -- nobody else has this guard
    have he : id' ≠ id := fun hq => hi (h.alone j i id attempt' attempt (hq ▸ hb) hr)
    exact List.mem_filter.mpr ⟨h.active j id' attempt' hb,by simpa using he⟩
  · intro j k id' attempt' attempt'' hj hk
    exact h.alone j k id' attempt' attempt'' (hg j id' attempt' hj).2 (hg k id' attempt'' hk).2
  · intro j id' attempt' hj
    exact h.bound j id' attempt' (hg j id' (some attempt') hj).2
  · intro j name hn
    by_cases hi : j = i
    · subst hi
      rw [update_self] at hn
      exact h.stored j name hn
    · rw [update_of_ne hi] at hn
      exact h.stored j name hn

theorem CallersInv.idle_call (h : CallersInv session w known) {next : Known} (hg : next.guard = (known i).guard)
    (hs : next.stored = (known i).stored) : CallersInv session w (update known i next) ∧
    Lasting session w w := by
  refine ⟨h.same (fun _ => rfl) (fun _ ho => ho) rfl ?_ ?_,h.toLeft.lasting (fun _ => rfl)⟩
  · intro id attempt hn
    exact ⟨attempt,hg ▸ hn, .inr rfl⟩
  · intro uri hu
    exact h.stored i uri (hs ▸ hu)

theorem CallersInv.write_file (h : CallersInv session w known)
    (hu : ∀ id, uri.canonical ≠ (stateUri session id).canonical) (hc : content.isFinished = false) :
    CallersInv session (exec (.write uri content) t w).2
        (update known i ((known i).learn (.write uri content) (exec (.write uri content) t w).1)) ∧
      Lasting session w (exec (.write uri content) t w).2 := by
  have hg : ∀ r, ((known i).learn (.write uri content) r).guard = (known i).guard := by
    intro r
    simp [Known.learn,hc]
  have hr : ∀ id, (exec (.write uri content) t w).2.recordOf session id = w.recordOf session id := by
    intro id
    unfold exec
    dsimp only
    split
    · exact recordOf_set_file hu w content id
    · rfl
  have ha : (exec (.write uri content) t w).2.active = w.active := by
    unfold exec
    dsimp only
    split
    · rfl
    · rfl
  have hl := h.toLeft.same hr (fun name => isSome_exec _)
  refine ⟨h.same hr (fun name => isSome_exec _) ha ?_ ?_,hl.lasting hr⟩
  · intro id attempt hn
    exact ⟨attempt,(hg _).symm.trans hn, .inr rfl⟩
  · exact stored_of_written h

theorem CallersInv.write_record (h : CallersInv session w known) (ha : MaySave session record (known i))
    (hc : record.status = .pending → ∀ stored, w.recordOf session record.taskId = some stored →
      stored.attempt = 0 ∧ ∀ marker, stored.status ≠ .done marker) :
    CallersInv session (exec (.write (stateUri session record.taskId) (.record record)) t w).2
        (update known i ((known i).learn (.write (stateUri session record.taskId) (.record record))
          (exec (.write (stateUri session record.taskId) (.record record)) t w).1)) ∧
      Lasting session w (exec (.write (stateUri session record.taskId) (.record record)) t w).2 := by
  by_cases he : (t.fault.isNone || t.written) = true
  · have hw : (exec (.write (stateUri session record.taskId) (.record record)) t w).2 =
        w.set (stateUri session record.taskId) (.record record) := if_pos he
    rw [hw]
    exact h.saved ha hc _
  · have hw : (exec (.write (stateUri session record.taskId) (.record record)) t w).2 = w := if_neg he
    rw [hw]
    refine ⟨h.same (fun _ => rfl) (fun _ ho => ho) rfl ?_ ?_,h.toLeft.lasting (fun _ => rfl)⟩
    · intro id attempt hn
      obtain ⟨before,hb,ht,-⟩ := guard_of_saved hn
      exact ⟨before,hb,ht⟩
    · have hs := @stored_of_written session w known i t (stateUri session record.taskId) (.record record) h
      rw [hw] at hs
      exact hs

/-- A call that its caller may make, and that is a careful one, keeps what the callers know, and what should last. -/
theorem CallersInv.call (h : CallersInv session w known) {c : Call} (hm : May session c (known i))
    (hc : Careful session w (known i).loaded c) :
    Tells session c (exec c t w).1 (known i) ∧
      CallersInv session (exec c t w).2 (update known i ((known i).learn c (exec c t w).1)) ∧
      Lasting session w (exec c t w).2 := by
  cases c with
  | read uri =>
    refine ⟨?_,h.idle_call rfl rfl⟩
    cases hr : (exec (.read uri) t w).1 with
    | error e => trivial
    | ok content =>
      cases content with
      | record record =>
        rintro id rfl
        have ht := exec_read_stored hr
        exact h.good id record (by simp [World.recordOf,ht])
      | _ => trivial
  | write uri content =>
    refine ⟨trivial,?_⟩
    cases content with
    | record record =>
      obtain ⟨rfl,hs⟩ := hm
      exact h.write_record hs hc
    | text text => exact h.write_file hm rfl
    | diff diff => exact h.write_file hm rfl
    | marker marker => exact h.write_file hm rfl
  | insertActive id =>
    by_cases hh : id ∈ w.active
    · have hw : (exec (.insertActive id) t w).2 = w := by
        simp [exec,hh]
      have hr : (exec (.insertActive id) t w).1 = false := by
        simp [exec,hh]
      rw [hw,hr]
      exact ⟨trivial,h.idle_call rfl rfl⟩
    · have hw : (exec (.insertActive id) t w).2 = { w with active := id::w.active } := by
        simp [exec,hh]
      have hr : (exec (.insertActive id) t w).1 = true := by
        simp [exec,hh]
      rw [hw,hr]
      obtain ⟨he,hi⟩ := h.taken hm hc hh
      have hl : Lasting session w { w with active := id::w.active } := hi.toLeft.lasting (fun _ => rfl)
      exact ⟨he,hi,hl⟩
  | removeActive id =>
    obtain ⟨attempt,hg⟩ := hm
    have hf : Left session (exec (.removeActive id) t w).2 := h.toLeft.same (fun _ => rfl) (fun _ ho => ho)
    exact ⟨trivial,h.released hg,hf.lasting (fun _ => rfl)⟩
  | extract archive => exact ⟨trivial,h.idle_call rfl rfl⟩
  | deduplicate candidates => exact ⟨trivial,h.idle_call rfl rfl⟩
  | generateAbstract uri => exact ⟨trivial,h.idle_call rfl rfl⟩
  | aggregateUpward root => exact ⟨trivial,h.idle_call rfl rfl⟩
  | newUuid => exact ⟨trivial,h.idle_call rfl rfl⟩
  | now => exact ⟨trivial,h.idle_call rfl rfl⟩

end Worlds

section Runs

variable {session : SessionHandle} {libraries lib : Libraries} {w w' w'' : World}

def loadedBy (made : List ((c : Call) × c.Reply)) : Option TaskRecord :=
  made.foldl (fun loaded call => lastLoaded loaded call.1 call.2) none

def CarefulStep (session : SessionHandle) (callers : Callers) : Event → Prop
  | .call i _ =>
    match callers.workers[i]? with
    | some (some (.call c _), made) => Careful session callers.world (loadedBy made) c
    | _ => True
  | _ => True

instance decidableOpen (record : TaskRecord) : Decidable (∀ marker, record.status ≠ .done marker) :=
  match h : record.status with
  | .pending => .isTrue (fun marker => by simp)
  | .processing attempt startedAt => .isTrue (fun marker => by simp)
  | .failed failure => .isTrue (fun marker => by simp)
  | .done marker => .isFalse (fun hopen => hopen marker rfl)

instance decidableCareful (session : SessionHandle) (w : World) (loaded : Option TaskRecord) :
    ∀ c, Decidable (Careful session w loaded c)
  | .write _ (.record record) =>
  inferInstanceAs (Decidable (record.status = .pending → ∀ stored ∈ w.recordOf session record.taskId,
      stored.attempt = 0 ∧ ∀ marker, stored.status ≠ .done marker))
  | .insertActive id => inferInstanceAs (Decidable (id ∉ w.active → ∀ record ∈ loaded, record.attempt + 1 < 2 ^ 32 ∧
      ∀ stored ∈ w.recordOf session id, stored.attempt ≤ record.attempt + 1 ∧ ∀ marker, stored.status ≠ .done marker))
  | .write _ (.text _) | .write _ (.diff _) | .write _
    (.marker _) | .read _ | .extract _ | .deduplicate _ | .generateAbstract _
  | .aggregateUpward _ | .removeActive _ | .newUuid | .now => .isTrue trivial

instance decidableCarefulStep (session : SessionHandle) (callers : Callers) : ∀ e, Decidable (CarefulStep session callers e)
  | .call i t => by
    unfold CarefulStep
    dsimp only
    split
    · exact decidableCareful _ _ _ _
    · exact .isTrue trivial
  | .start _ | .crash _ => .isTrue trivial

theorem Lasting.trans (h : Lasting session w w') (h' : Lasting session w' w'') : Lasting session w w'' := by
  refine ⟨fun id record marker hr hd => ?_,fun id record hr => ?_,h'.published⟩
  · obtain ⟨record',hr',hd'⟩ := h.finished id record marker hr hd
    exact h'.finished id record' marker hr' hd'
  · obtain ⟨record',hr',ha⟩ := h.attempts id record hr
    obtain ⟨record'',hr'',ha'⟩ := h'.attempts id record' hr'
    exact ⟨record'',hr'',Nat.le_trans ha ha'⟩

def Agrees (made : List ((c : Call) × c.Reply)) (known : Known) : Prop := known.loaded = loadedBy made

theorem Agrees.learn {made : List ((c : Call) × c.Reply)} {c : Call} {known known' : Known} {r : c.Reply}
    (h : Agrees made known) (hl : Learns session c known r known') : Agrees (made++[⟨c,r⟩]) known' := by
  have ho : (known.learn c r).loaded = lastLoaded known.loaded c r := by
    cases c with
    | insertActive id => cases r <;> rfl
    | _ => rfl
  show known'.loaded = loadedBy (made++[⟨c,r⟩])
  rw [hl.1,ho,h,loadedBy,loadedBy,List.foldl_append]
  rfl

def Kept (session : SessionHandle) (callers : Callers) : Prop :=
  callers.Sound (fun _ => May session) (Learns session) (fun _ _ => True) Agrees Known.idle (CallersInv session)

theorem Kept.init (hl : Left session w) : Kept session ⟨w,[]⟩ := by
  refine ⟨fun _ => .idle,⟨hl,?_,?_,?_,?_⟩,fun _ _ => rfl,fun i p made hp => ?_⟩
  · intro i id attempt hg
    cases hg
  · intro i j id attempt attempt' hg
    cases hg
  · intro i id attempt hg
    cases hg
  · intro i uri hu
    cases hu
  · simp at hp

theorem Kept.left {callers : Callers} (h : Kept session callers) : Left session callers.world := by
  obtain ⟨known,hi,-⟩ := h
  exact hi.toLeft

theorem Kept.call {callers : Callers} (h : Kept session callers) {i : ℕ} {t : Circumstances}
    (hc : CarefulStep session callers (.call i t)) :
    Kept session (step lib session callers (.call i t)) ∧
      Lasting session callers.world (step lib session callers (.call i t)).world := by
  have hs : ∀ c next made, callers.workers[i]? = some (some (.call c next), made) →
      Careful session callers.world (loadedBy made) c := by
    intro c next made hw
    unfold CarefulStep at hc
    dsimp only at hc
    rw [hw] at hc
    exact hc
  constructor
  · refine Pool.Sound.call h ?_ (fun made c g r g' ha hl => ha.learn hl)
    intro known c next made hw ha hi hm
    have hc := hs c next made hw
    rw [← ha] at hc
    obtain ⟨ht,hi',-⟩ := @CallersInv.call session callers.world known i t hi c hm hc
    exact ⟨_,⟨rfl,ht⟩,hi'⟩
  · show Lasting session callers.world (callers.work exec i t).world
    unfold Pool.work
    split
    · rename_i c next made hw
      obtain ⟨known,hi,-,hk⟩ := h
      obtain ⟨hp,ha⟩ := hk i _ made hw
      have hc := hs c next made hw
      rw [← ha] at hc
      exact (hi.call hp.1 hc).2.2
    · exact h.left.lasting (fun _ => rfl)

theorem Kept.step {callers : Callers} (h : Kept session callers) {e : Event} (hc : CarefulStep session callers e) :
    Kept session (step lib session callers e) ∧
    Lasting session callers.world (step lib session callers e).world := by
  cases e with
  | start service => exact ⟨Pool.Sound.start h (service_keeps service) rfl,h.left.lasting (fun _ => rfl)⟩
  | call i t => exact h.call hc
  | crash i =>
    refine ⟨Pool.Sound.crash h (fun known hi => ?_),h.left.lasting (fun _ => rfl)⟩
    refine hi.same (fun _ => rfl) (fun _ hs => hs) rfl ?_ ?_
    · intro id attempt hg
      cases hg
    · intro uri hu
      cases hu

/-- In a run of careful calls a finished task stays finished, no attempt is forgotten, and what a marker names is stored. -/
theorem finished_lasts (libraries : Libraries) (session : SessionHandle) (w : World) (hleft : Left session w)
    (events : List Event) (hcareful : StateMachine.Meets (step libraries session) (CarefulStep session) ⟨w, []⟩ events) :
    ∀ before after, before ++ after <+: events →
      Lasting session (StateMachine.run (step libraries session) ⟨w, []⟩ before).world
        (StateMachine.run (step libraries session) ⟨w, []⟩ (before ++ after)).world := by
  intro before after hp
  have hs : ∀ callers e, Kept session callers → CarefulStep session callers e →
      Kept session (step libraries session callers e) :=
    fun callers e h hcareful => (h.step hcareful).1
  have hk : ∀ front, front <+: events → Kept session (StateMachine.run (step libraries session) ⟨w, []⟩ front) := by
    rintro front ⟨rest, rfl⟩
    exact StateMachine.run_invariant hs (Kept.init hleft) (StateMachine.meets_append.mp hcareful).1
  induction after using List.reverseRecOn with
  | nil =>
    rw [List.append_nil] at hp ⊢
    exact (hk before hp).left.lasting (fun _ => rfl)
  | append_singleton after e ih =>
    rw [← List.append_assoc] at hp ⊢
    have hf : before ++ after <+: events := (List.prefix_append _ _).trans hp
    have hl := StateMachine.meets_iff_front.mp hcareful (before ++ after) e hp
    rw [StateMachine.run_append _ _ (before ++ after) [e]]
    exact (ih hf).trans ((hk _ hf).step hl).2

end Runs

def sampleLibraries : Libraries := ⟨fun _ => 7, fun _ => .ok ""⟩

def sampleSession : SessionHandle := ⟨1, [], 0, (ContextUri.ofTenant "t").join "archive"⟩

def emptyWorld : World := ⟨fun _ => none, []⟩

theorem left_empty : Left sampleSession emptyWorld := by
  have hn : ∀ id, emptyWorld.recordOf sampleSession id = none := fun _ => rfl
  constructor
  · intro id record hr
    rw [hn] at hr
    cases hr
  · intro id record marker hr
    rw [hn] at hr
    cases hr

def calm : Circumstances := ⟨none, false, [], [], "overview", 3, 5⟩

def oneByOne : List Event :=
  [.start .run] ++ List.replicate 18 (.call 0 calm) ++ [.start .recover] ++ List.replicate 2 (.call 1 calm)

def loadedEarly : List Event :=
  [.start .run, .start .recover] ++ List.replicate 5 (.call 0 calm) ++ [.call 1 calm] ++ List.replicate 12 (.call 0 calm) ++
    List.replicate 2 (.call 1 calm)

def storedAfter (events : List Event) : World :=
  (StateMachine.run (step sampleLibraries sampleSession) ⟨emptyWorld, []⟩ events).world

def World.status (w : World) (id : CommitTaskId) : Option TaskStatus := (w.recordOf sampleSession id).map (·.status)

theorem finished_lasts_sample : Lasting sampleSession (storedAfter (oneByOne.take 19)) (storedAfter oneByOne) := by
  have hc : StateMachine.Meets (step sampleLibraries sampleSession) (CarefulStep sampleSession)
      ⟨emptyWorld, []⟩ oneByOne := by
    decide +kernel
  exact finished_lasts sampleLibraries sampleSession emptyWorld left_empty oneByOne hc
    (oneByOne.take 19) (oneByOne.drop 19)
    ⟨[], rfl⟩

/-- The second caller starts the finished task again. -/
theorem finished_restarts :
    ¬ Lasting sampleSession (storedAfter loadedEarly) (storedAfter (loadedEarly ++ [.call 1 calm])) := by
  intro hl
  obtain ⟨hb, ha⟩ : (storedAfter loadedEarly).status 7 = some (.done ⟨7, 5, archiveFileUri sampleSession,
        ((archiveFileUri sampleSession).parent).getD sampleSession.archiveDir, diffUri sampleSession⟩) ∧
      (storedAfter (loadedEarly ++ [.call 1 calm])).status 7 = some (.processing 1 5) := by decide +kernel
  obtain ⟨record, hr, hd⟩ := Option.map_eq_some_iff.mp hb
  obtain ⟨record', hr', hs⟩ := hl.finished 7 record _ hr hd
  obtain ⟨record'', hr'', hp⟩ := Option.map_eq_some_iff.mp ha
  obtain rfl := Option.some.inj (hr'.symm.trans hr'')
  rw [hs] at hp
  cases hp

end UwuContextDb.Session
