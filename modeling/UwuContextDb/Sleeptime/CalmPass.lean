import UwuContextDb.Lifecycle.Archive
import UwuContextDb.Sleeptime.PassRules

/-! Passes during which nobody else writes and no lifecycle job is run: what they leave in the content store. -/

namespace UwuContextDb.Sleeptime

open Content (StoreLibraries SqliteTables)
open Content.SqliteTables (BatchWriteConfig)
open Lifecycle (Aside exec_aside LifecycleJob)
open Prog (Keeps Outcome RepliesMeeting)
open WriteSecurity (insertField setCustomField)

def customField (custom : Json) (key : String) : Option Json :=
  match custom with
  | .obj fields => (fields.find? (fun field => field.1 = key)).map (·.2)
  | _ => none

/-- What the tasks change of an entry. The custom field with the redactions is left out: a write sets it. -/
structure Marks where
  tags : List String
  qualityScore : Option ℚ
  stateScope : Option StateScope
  validity : Option ValidityRecord
  field : String → Option Json

def marks (entry : ContextEntry) : Marks where
  tags := entry.metadata.tags
  qualityScore := entry.metadata.qualityScore
  stateScope := entry.metadata.stateScope
  validity := entry.metadata.validity
  field key := if key = "security_redactions" then none else customField entry.metadata.custom key

theorem find?_insertField {key other : String} (hn : other ≠ key) (v : Json) (fs : List (String × Json)) :
    (insertField key v fs).find? (fun field => field.1 = other) = fs.find? (fun field => field.1 = other) := by
  induction fs with
  | nil => simp [insertField,Ne.symm hn]
  | cons field fs ih =>
    unfold insertField
    split
    · rename_i hk
      simp [hk,Ne.symm hn]
    · split
      · simp [List.find?_cons,Ne.symm hn]
      · rw [List.find?_cons,List.find?_cons,ih]

theorem customField_setCustomField {key other : String} (hn : other ≠ key) (md : ContextMeta) (v : Json) :
    customField (setCustomField md key v).custom other = customField md.custom other := by
  unfold setCustomField
  cases md.custom with
  | obj fs => exact congrArg (Option.map Prod.snd) (find?_insertField hn v fs)
  | _ => simp [customField,Ne.symm hn]

def World.entryAt (w : World) (key : String) : Option ContextEntry := (w.stores.content.entries[key]?).map (·.entry)

def shown (entry : ContextEntry) : ContextUri × Marks := (entry.uri, marks entry)

theorem shown_redacted (entry : ContextEntry) (v : Json) :
    shown { entry with metadata := setCustomField entry.metadata "security_redactions" v } = shown entry := by
  have hf : (marks { entry with metadata := setCustomField entry.metadata "security_redactions" v }).field =
      (marks entry).field := by
    funext key
    by_cases hk : key = "security_redactions"
    · simp [marks,hk]
    · simp [marks,hk,customField_setCustomField hk]
  have hr := WriteSecurity.setCustomField_eq entry.metadata "security_redactions" v
  simp only [shown,marks] at hf ⊢
  rw [hf,hr]

def granted : (c : Call) → c.Reply → Bool
  | .stores (.claim ..), .ok (some _) => true
  | _, _ => false

section Worlds

variable {libraries lib : StoreLibraries} {config : BatchWriteConfig} {blake3 : List ℕ → ContentHash} {t : Moment} {w : World}

theorem meanwhile_nil (w : World) : w.meanwhile lib config [] = w := rfl

theorem exec_meanwhile (c : Lifecycle.Call) :
    exec lib config blake3 (.stores c) t w =
      ((Lifecycle.exec lib blake3 c t.circumstances (w.meanwhile lib config t.others).stores).1,
        { w with stores := (Lifecycle.exec lib blake3 c t.circumstances (w.meanwhile lib config t.others).stores).2 }) := by
  unfold exec
  rfl

theorem exec_stores (c : Lifecycle.Call) (ht : t.others = []) :
    exec lib config blake3 (.stores c) t w = ((Lifecycle.exec lib blake3 c t.circumstances w.stores).1,
      { w with stores := (Lifecycle.exec lib blake3 c t.circumstances w.stores).2 }) := by
  rw [exec_meanwhile,ht,meanwhile_nil]

def Calls (c : Call) : Prop :=
  match c with
  | .stores c => Aside c
  | .load _ => True
  | .save .. => False

theorem exec_calls {c : Call} (h : Calls c) (ht : t.others = []) :
    (exec lib config blake3 c t w).2.stores.content = w.stores.content ∧
      (exec lib config blake3 c t w).2.progress = w.progress := by
  cases c with
  | stores c =>
    rw [exec_stores c ht]
    exact ⟨(exec_aside h).1,rfl⟩
  | load key =>
    unfold exec
    rw [ht,meanwhile_nil]
    cases t.circumstances.fault <;> exact ⟨rfl,rfl⟩
  | save key progress => exact absurd h id

theorem exec_write {entry : ContextEntry} {ver : MvccVersion} (ht : t.others = [])
    (h : (exec lib config blake3 (.stores (.write entry)) t w).1 = .ok ver) :
    (exec lib config blake3 (.stores (.write entry)) t w).2.progress = w.progress ∧
      ∀ key, ((exec lib config blake3 (.stores (.write entry)) t w).2.entryAt key).map shown =
        if entry.uri.canonical = key then some (shown entry) else (w.entryAt key).map shown := by
  rw [exec_stores _ ht] at h ⊢
  refine ⟨rfl,fun key => ?_⟩
  cases hf : t.circumstances.fault with
  | some e => simp [Lifecycle.exec,hf] at h
  | none =>
    cases hw : w.stores.content.write lib entry (max w.stores.clock t.circumstances.now) with
    | error e => simp [Lifecycle.exec,hf,hw] at h
    | ok written =>
      obtain ⟨ver',content⟩ := written
      have ho : (Lifecycle.exec lib blake3 (.write entry) t.circumstances w.stores).2.content = content := by
        simp [Lifecycle.exec,hf,hw]
      obtain ⟨inner,chg,hi,-,ha⟩ := SqliteTables.write_ok hw
      obtain ⟨stored,hs⟩ := SqliteTables.writeInTx_ok hi
      obtain ⟨clean,hc,hr⟩ := hs.redacted
      have hh : shown stored = shown entry := by
        rw [hr]
        rw [WriteSecurity.sanitizeEntryForWrite_eq] at hc
        rw [← Except.ok.inj hc]
        split
        · rfl
        · exact shown_redacted entry _
      have hu : stored.uri = entry.uri := congrArg Prod.fst hh
      have he : content.entries = w.stores.content.entries.insert entry.uri.canonical ⟨stored,ver',
          stored.metadata.custom⟩ := by
        rw [ha,(SqliteTables.enqueueAny_frame chg _).1,hs.tables,hu]
      unfold World.entryAt
      dsimp only
      rw [ho,he,Std.ExtTreeMap.getElem?_insert]
      by_cases hk : entry.uri.canonical = key
      · rw [if_pos (Std.LawfulEqCmp.compare_eq_iff_eq.mpr hk),if_pos hk]
        exact congrArg some hh
      · rw [if_neg (fun hq => hk (Std.LawfulEqCmp.compare_eq_iff_eq.mp hq)),if_neg hk]

theorem exec_write_error {entry : ContextEntry} {e : ContextError} (ht : t.others = [])
    (h : (exec lib config blake3 (.stores (.write entry)) t w).1 = .error e) :
    (exec lib config blake3 (.stores (.write entry)) t w).2.stores.content = w.stores.content ∧
      (exec lib config blake3 (.stores (.write entry)) t w).2.progress = w.progress := by
  rw [exec_stores _ ht] at h ⊢
  refine ⟨?_,rfl⟩
  cases hf : t.circumstances.fault with
  | some e => simp [Lifecycle.exec,hf]
  | none =>
    cases hw : w.stores.content.write lib entry (max w.stores.clock t.circumstances.now) with
    | error e => simp [Lifecycle.exec,hf,hw]
    | ok written => simp [Lifecycle.exec,hf,hw] at h

end Worlds

structure After (start : World) (done : List ContextEntry) (w : World) : Prop where
  progress : w.progress = start.progress
  shown : ∀ key, (w.entryAt key).map shown =
    ((done.filter (fun copy => copy.uri.canonical = key)).getLast?.map shown).or ((start.entryAt key).map shown)

theorem after_nil (w : World) : After w [] w := ⟨rfl,fun key => by simp⟩

theorem After.same {start w w' : World} {done : List ContextEntry} (h : After start done w)
    (hs : w'.stores.content = w.stores.content ∧ w'.progress = w.progress) : After start done w' := by
  refine ⟨hs.2.trans h.progress,fun key => ?_⟩
  rw [← h.shown key,World.entryAt,hs.1,← World.entryAt]

section Calm

variable (libraries lib : StoreLibraries) (config : BatchWriteConfig) (blake3 : List ℕ → ContentHash)

abbrev CalmReplies : (c : Call) → World → c.Reply → World → Prop :=
  RepliesMeeting (exec libraries config blake3) (fun t => t.others = []) (fun _ step => granted step.1 step.2 = false)

variable {libraries lib config blake3} {start w : World} {done : List ContextEntry}

theorem After.write {copy : ContextEntry} (h : After start done w) {w' : World} (hp : w'.progress = w.progress)
    (hs : ∀ key, (w'.entryAt key).map Sleeptime.shown =
      if copy.uri.canonical = key then some (Sleeptime.shown copy) else (w.entryAt key).map Sleeptime.shown) :
    After start (done++[copy]) w' := by
  refine ⟨hp.trans h.progress,fun key => ?_⟩
  rw [hs key,List.filter_append]
  by_cases hk : copy.uri.canonical = key
  · simp [hk]
  · simp [hk,h.shown key]

theorem After.calls (h : After start done w) {c : Call} (hc : Calls c) {r : c.Reply} {w' : World}
    (hr : CalmReplies lib config blake3 c w r w') : After start done w' := by
  obtain ⟨-,t,ht,he⟩ := hr
  apply h.same
  have hw : w' = (exec lib config blake3 c t w).2 := (congrArg Prod.snd he).symm
  rw [hw]
  exact exec_calls hc ht

theorem aside_keeps {α : Type} {p : Lifecycle.Program α} (hp : p.Only Aside) (h : After start done w) :
    p.Keeps (fun _ _ => True) (fun c w r w' => CalmReplies lib config blake3 (.stores c) w r w')
      (fun _ w' => After start done w') w :=
  hp.preserves Aside (fun _ _ _ _ => trivial) (fun c _ _ _ hc h hr => After.calls h (c := .stores c) hc hr) h

theorem attempt_calm (key : String) (owner : Uuid) (h : After start done w) :
    (Lifecycle.attempt key owner).run.Keeps (fun _ _ => True)
      (fun c w r w' => CalmReplies lib config blake3 (.stores c) w r w')
      (Outcome (fun _ w' => After start done w') (fun _ w' => After start done w')) w := by
  refine .lift ((aside_keeps (p := Lifecycle.now) (.ask trivial) h).mono (fun at_ w' h => ?_))
  refine .andThen ⟨trivial,fun r w'' hr => ?_⟩
  have ha : After start done w'' := h.calls (c := .stores (.claim key owner at_)) trivial hr
  cases r with
  | error e => exact ha
  | ok found =>
    cases found with
    | none => exact ha
    | some j => exact absurd hr.1 (by simp [granted])

theorem runPending_calm (owner : Uuid) (h : After start done w) :
    (Lifecycle.runPending owner).run.Keeps (fun _ _ => True)
      (fun c w r w' => CalmReplies lib config blake3 (.stores c) w r w')
      (Outcome (fun _ w' => After start done w') (fun _ w' => After start done w')) w := by
  refine .lift ((aside_keeps (p := Lifecycle.now) (.ask trivial) h).mono (fun at_ w' h => ?_))
  refine .lift ((aside_keeps (p := (Lifecycle.Call.recoverable at_).ask) (.ask trivial) h).mono (fun jobs w' h => ?_))
  refine .andThen (.mapM (After start done) (fun _ _ => True) (fun j _ w h => ?_) (fun _ _ _ h => h) h)
  refine (attempt_calm j.idempotencyKey owner h).mono (fun r w' hr => ?_)
  cases r with
  | ok out => exact ⟨trivial,hr⟩
  | error e => exact hr

theorem submit_aside (id : Uuid) (u : ContextUri) (action : Lifecycle.LifecycleAction) :
    (Lifecycle.submit id u action).run.Only Aside := by
  unfold Lifecycle.submit
  cases Lifecycle.operationOf action with
  | none => trivial
  | some operation => exact .lift (.ask trivial) (fun at_ => .ask trivial)

theorem calm_rule (x : SleeptimeExecutor) (start : World) (copies : List ContextEntry) :
    PassRule (fun _ _ => True) (CalmReplies lib config blake3) x copies
      (fun done w => done ⊆ copies ∧ After start done w) (fun w => ∃ done, done ⊆ copies ∧ After start done w) where
  left done w h := ⟨done,h⟩
  write done copy w hc h := by
    refine .andThen (onStores_keeps ⟨trivial,?_⟩)
    rintro r w' ⟨-,t,ht,hq⟩
    have he := congrArg Prod.fst hq
    have hw : (exec lib config blake3 (.stores (.write copy)) t w).2 = w' := congrArg Prod.snd hq
    cases r with
    | error e =>
      have hs := exec_write_error ht he
      rw [hw] at hs
      exact ⟨done,h.1,h.2.same hs⟩
    | ok ver =>
      obtain ⟨hp,hh⟩ := exec_write ht he
      rw [hw] at hp hh
      exact ⟨List.append_subset.mpr ⟨h.1,by simpa using hc⟩,h.2.write hp hh⟩
  submit done p report uri w h := by
    refine .lift ((onStores_keeps (aside_keeps (submit_aside _ _ _) h.2)).mono (fun r w' hr => ?_))
    cases r <;> exact ⟨h.1,hr⟩
  recover done owner report w h := by
    unfold recover
    split
    · refine .andThen ((onStores_keeps (runPending_calm owner h.2)).mono (fun r w' hr => ?_))
      cases r with
      | ok jobs => exact ⟨h.1,hr⟩
      | error e => exact ⟨done,h.1,hr⟩
    · exact h

end Calm

section Runs

variable (chrono : Chrono) (x : SleeptimeExecutor) (scope : ContextUri)

def progressAt (w : World) : SleeptimeProgress := ((w.progress[progressKey scope]?).getD .fresh).attempted

def batchAt (w : World) : List ContextEntry :=
  match w.stores.content.scanByPrefix scope.canonical (pageAfter x (progressAt scope w)) with
  | .ok page => batchOf chrono x (progressAt scope w) page.items
  | .error _ => []

structure Passed (pass : Pass) (w w' : World) : Prop where
  shown : ∀ key, (w'.entryAt key).map shown =
    (((pass.copies (batchAt chrono x scope w)).filter (fun copy => copy.uri.canonical = key)).getLast?.map shown).or
      ((w.entryAt key).map shown)
  progress : w'.progress = w.progress.insert (progressKey scope)
    (advanced (restarted (progressAt scope w) (batchAt chrono x scope w)) (batchAt chrono x scope w))

structure Broken (pass : Pass) (w w' : World) : Prop where
  shown : ∃ done, done ⊆ pass.copies (batchAt chrono x scope w) ∧ ∀ key, (w'.entryAt key).map shown =
    ((done.filter (fun copy => copy.uri.canonical = key)).getLast?.map shown).or ((w.entryAt key).map shown)
  cursor : (progressAt scope w').cursor = (progressAt scope w).cursor
  watermark : (progressAt scope w').watermark = (progressAt scope w).watermark

variable {chrono x scope} {libraries lib : StoreLibraries} {config : BatchWriteConfig}
    {blake3 : List ℕ → ContentHash} {t : Moment}
  {pass : Pass} {w w' : World}

theorem entryAt_of_batch (hn : w.stores.content.Named) {entry : ContextEntry} (h : entry ∈ batchAt chrono x scope w) :
    w.entryAt entry.uri.canonical = some entry := by
  unfold batchAt at h
  split at h
  · rename_i page hp
    have hi := List.mem_of_mem_filter (List.mem_of_mem_filter (List.mem_of_mem_take h))
    obtain ⟨row,hr,he⟩ := hn.found_of_scan hp hi
    rw [World.entryAt,hr,← he]
    rfl
  · cases h

theorem After.broken {done : List ContextEntry} (h : After w done w')
    (hd : done ⊆ pass.copies (batchAt chrono x scope w)) :
    Broken chrono x scope pass w w' :=
  ⟨⟨done,hd,h.shown⟩,by rw [progressAt,h.progress,progressAt],by rw [progressAt,h.progress,progressAt]⟩

theorem exec_save (key : String) (progress : SleeptimeProgress) (ht : t.others = []) :
    exec lib config blake3 (.save key progress) t w =
      match t.circumstances.fault with
      | some e => (.error e, w)
      | none => (.ok (), { w with progress := w.progress.insert key progress }) := by
  unfold exec
  rw [ht,meanwhile_nil]
  cases t.circumstances.fault <;> rfl

theorem exec_load (key : String) (ht : t.others = []) :
    exec lib config blake3 (.load key) t w =
      match t.circumstances.fault with
      | some e => (.error e, w)
      | none => (.ok w.progress[key]?, w) := by
  unfold exec
  rw [ht,meanwhile_nil]
  cases t.circumstances.fault <;> rfl

theorem exec_scan (pre : String) (page : Retrieve.PageRequest) (ht : t.others = []) :
    exec lib config blake3 (.stores (.scanByPrefix pre page)) t w =
      (match t.circumstances.fault with
        | some e => .error e
        | none => w.stores.content.scanByPrefix pre page,
        { w with stores := { w.stores with clock := max w.stores.clock t.circumstances.now } }) := by
  rw [exec_stores _ ht]
  unfold Lifecycle.exec
  cases t.circumstances.fault <;> rfl

theorem save_keeps {key : String} {progress : SleeptimeProgress} {post : Except ContextError Unit → World → Prop}
    (ho : post (.ok ()) { w with progress := w.progress.insert key progress }) (hr : ∀ e, post (.error e) w) :
    (save key progress).run.Keeps (fun _ _ => True) (CalmReplies lib config blake3) post w := by
  refine ⟨trivial,?_⟩
  rintro r w' ⟨-,t,ht,he⟩
  rw [exec_save key progress ht] at he
  cases hf : t.circumstances.fault with
  | some e =>
    rw [hf] at he
    cases he
    exact hr e
  | none =>
    rw [hf] at he
    cases he
    exact ho

theorem page_keeps :
    (onStores (Lifecycle.scanByPrefix scope.canonical (pageAfter x (progressAt scope w))).run).Keeps (fun _ _ => True)
      (CalmReplies lib config blake3)
      (fun r w' => (∀ page, r = .ok page → batchAt chrono x scope w = batchOf chrono x (progressAt scope w) page.items) ∧
        After w [] w') w := by
  refine onStores_keeps ⟨trivial,?_⟩
  rintro r w' ⟨-,t,ht,he⟩
  rw [exec_scan _ _ ht] at he
  obtain ⟨rfl,rfl⟩ := Prod.mk.inj he.symm
  refine ⟨fun page hp => ?_,(after_nil w).same ⟨rfl,rfl⟩⟩
  cases hf : t.circumstances.fault with
  | some e => simp [hf] at hp
  | none =>
    rw [hf] at hp
    dsimp only at hp
    rw [batchAt,hp]

theorem scan_calm (pass : Pass) :
    (scan chrono x (progressKey scope) scope.canonical).run.Keeps (fun _ _ => True) (CalmReplies lib config blake3)
      (Outcome
        (fun r w' => r = (restarted (progressAt scope w) (batchAt chrono x scope w),
          batchAt chrono x scope w) ∧ After w [] w')
        (fun _ w' => Broken chrono x scope pass w w')) w := by
  refine .andThen ⟨trivial,?_⟩
  rintro r w' ⟨-,t,ht,he⟩
  rw [exec_load _ ht] at he
  cases hf : t.circumstances.fault with
  | some e =>
    rw [hf] at he
    cases he
    exact (after_nil w).broken (List.nil_subset _)
  | none =>
    rw [hf] at he
    cases he
    refine .lift ((@page_keeps chrono x scope lib config blake3 w).mono (fun r w' hr => ?_))
    cases r with
    | ok page => exact ⟨by rw [hr.1 page rfl]; rfl,hr.2⟩
    | error e =>
      refine .andThen (save_keeps ?_ (fun _ => hr.2.broken (List.nil_subset _)))
      refine ⟨⟨[],List.nil_subset _,fun key => hr.2.shown key⟩,?_,?_⟩
      · simp [progressAt,SleeptimeProgress.attempted]
      · simp [progressAt,SleeptimeProgress.attempted]

theorem runOnce_calm (pass : Pass) :
    (runOnce chrono x pass scope).run.Keeps (fun _ _ => True) (CalmReplies lib config blake3)
      (Outcome (fun _ w' => Passed chrono x scope pass w w') (fun _ w' => Broken chrono x scope pass w w')) w := by
  unfold runOnce
  dsimp only
  split
  · exact (after_nil w).broken (List.nil_subset _)
  · refine .andThen ((scan_calm pass).mono (fun r w' hr => ?_))
    cases r with
    | error e => exact hr
    | ok scanned =>
      obtain ⟨st,es⟩ := scanned
      obtain ⟨hs,ha⟩ := hr
      obtain ⟨ht,he⟩ := Prod.mk.inj hs
      have hu := @calm_rule lib config blake3 x w (pass.copies es)
      have hp := @PassRule.process _ _ x _ _ w' pass es hu ⟨List.nil_subset _,ha⟩
      refine .andThen (hp.mono (fun r w' hr => ?_))
      cases r with
      | error e =>
        obtain ⟨done,hd,ha⟩ := hr
        rw [he] at hd
        exact ha.broken hd
      | ok report =>
        have ha : After w (pass.copies es) w' := hr.2
        rw [he] at ha
        refine .andThen (save_keeps ⟨ha.shown,?_⟩ (fun e => ha.broken (List.Subset.refl _)))
        dsimp only
        rw [ha.progress,ht,he]

end Runs

end UwuContextDb.Sleeptime
