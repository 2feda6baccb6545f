import UwuContextDb.Lifecycle.Archive

/-! What each call of the executor does, and programs that may stop at any of their calls. -/

namespace UwuContextDb.Lifecycle

open Content (GraphRelation SqliteTables StoreLibraries)

/-- What `read_entry` finds in the tables. -/
def entryIn (content : SqliteTables) (uri : ContextUri) : Option ContextEntry :=
  match content.scanByPrefix uri.canonical (.new 1) with
  | .ok page => page.items.find? (fun e => e.uri = uri)
  | .error _ => none

def blobsIn (w : Stores) (entry : ContextEntry) : Option (List (BlobRef × List ℕ)) :=
  (collectBlobs entry.payload).mapM (fun b => (w.blobs[b.hash]?).map (fun stored => (b, stored.2)))

def edgesOf (w : Stores) (uri : ContextUri) : List (ContextUri × ContextUri × GraphRelation) :=
  w.edges.filter (fun edge => edge.1 = uri ∨ edge.2.1 = uri)

section Replies

variable {libraries lib : StoreLibraries} {blake3 : List ℕ → ContentHash} {t : Circumstances} {w : Stores}

def Circumstances.Healthy (t : Circumstances) : Prop := t.fault = none ∧ t.unwritten = none

def Reads : Call → Prop
  | .now | .recoverable _ | .getJob _ | .scanByPrefix .. | .edgesFor _ | .getPoint _ | .getBlob _ | .getManifest _ => True
  | _ => False

theorem exec_reads {c : Call} (h : Reads c) : (exec lib blake3 c t w).2 = { w with clock := max w.clock t.now } := by
  cases c <;> first | exact absurd h id | skip
  all_goals cases hf : t.fault <;> simp only [exec,hf]
  all_goals first | rfl | (split <;> rfl)

theorem exec_now : (exec lib blake3 .now t w).1 = max w.clock t.now := by
  simp only [exec]
  rfl

theorem exec_readEntry (uri : ContextUri) :
    (∃ e, (exec lib blake3 (.scanByPrefix uri.canonical (.new 1)) t w).1 = .error e ∧
        (t.fault ≠ none ∨ entryIn w.content uri = none)) ∨
      ∃ page, (exec lib blake3 (.scanByPrefix uri.canonical (.new 1)) t w).1 = .ok page ∧
        page.items.find? (fun e => e.uri = uri) = entryIn w.content uri := by
  cases hf : t.fault with
  | some e => exact .inl ⟨e,by simp only [exec,hf]; rfl, .inl (by simp)⟩
  | none =>
    have hr : (exec lib blake3 (.scanByPrefix uri.canonical (.new 1)) t w).1 =
        w.content.scanByPrefix uri.canonical (.new 1) := by
      simp only [exec,hf]
      rfl
    rw [hr]
    cases hs : w.content.scanByPrefix uri.canonical (.new 1) with
    | error e => exact .inl ⟨e,rfl, .inr (by simp [entryIn,hs])⟩
    | ok page => exact .inr ⟨page,rfl,by simp [entryIn,hs]⟩

theorem exec_getBlob (blob : BlobRef) :
    (∃ e, (exec lib blake3 (.getBlob blob) t w).1 = .error e ∧ (t.fault ≠ none ∨ w.blobs[blob.hash]? = none)) ∨
      ∃ stored, w.blobs[blob.hash]? = some stored ∧ (exec lib blake3 (.getBlob blob) t w).1 = .ok stored.2 := by
  cases hf : t.fault with
  | some e => exact .inl ⟨e,by simp only [exec,hf]; rfl, .inl (by simp)⟩
  | none =>
    cases hb : w.blobs[blob.hash]? with
    | none => exact .inl ⟨_,by simp only [exec,hf,hb]; rfl, .inr rfl⟩
    | some stored => exact .inr ⟨stored,rfl,by simp only [exec,hf,hb]; rfl⟩

theorem exec_edgesFor (u : ContextUri) :
    (∃ e, (exec lib blake3 (.edgesFor u) t w).1 = .error e ∧ t.fault ≠ none) ∨
      (exec lib blake3 (.edgesFor u) t w).1 = .ok (edgesOf w u) := by
  cases hf : t.fault with
  | some e => exact .inl ⟨e,by simp only [exec,hf]; rfl,by simp⟩
  | none => exact .inr (by simp only [exec,hf]; rfl)

theorem exec_getPoint (u : ContextUri) :
    (∃ e, (exec lib blake3 (.getPoint u) t w).1 = .error e ∧ t.fault ≠ none) ∨
      (exec lib blake3 (.getPoint u) t w).1 = .ok w.points[u.canonical]? := by
  cases hf : t.fault with
  | some e => exact .inl ⟨e,by simp only [exec,hf]; rfl,by simp⟩
  | none => exact .inr (by simp only [exec,hf]; rfl)

theorem exec_getManifest (key : String) :
    (∃ e, (exec lib blake3 (.getManifest key) t w).1 = .error e ∧ (t.fault ≠ none ∨ w.cold[key]? = none)) ∨
      ∃ m, w.cold[key]? = some m ∧ (exec lib blake3 (.getManifest key) t w).1 = .ok m := by
  cases hf : t.fault with
  | some e => exact .inl ⟨e,by simp only [exec,hf]; rfl, .inl (by simp)⟩
  | none =>
    cases hc : w.cold[key]? with
    | none => exact .inl ⟨_,by simp only [exec,hf,hc]; rfl, .inr rfl⟩
    | some m => exact .inr ⟨m,rfl,by simp only [exec,hf,hc]; rfl⟩

variable {key : String}

theorem exec_putManifest_rest {t : Circumstances} (manifest : ArchiveManifest) :
    (exec lib blake3 (.putManifest key manifest) t w).2 = { w with
      clock := max w.clock t.now
      cold := (exec lib blake3 (.putManifest key manifest) t w).2.cold } ∧
    ((t.fault ≠ none ∨ ∃ m, w.cold[key]? = some m) ∨
      (exec lib blake3 (.putManifest key manifest) t w).1 = .ok ()) := by
  cases hf : t.fault with
  | some e => exact ⟨by simp only [exec,hf], .inl (.inl (by simp))⟩
  | none =>
    cases hc : w.cold[key]? with
    | none => exact ⟨by simp only [exec,hf,hc], .inr (by simp only [exec,hf,hc]; rfl)⟩
    | some existing =>
      refine ⟨?_, .inl (.inr ⟨existing,rfl⟩)⟩
      by_cases he : existing = manifest
      · simp only [exec,hf,hc,if_pos he]
      · simp only [exec,hf,hc,if_neg he]

theorem exec_update_rest {t : Circumstances} (j : LifecycleJob) :
    (∃ e j', (exec lib blake3 (.update j) t w).1 = (.error e, j') ∧ (j' = j ∨ j' = j.bumped) ∧
      (exec lib blake3 (.update j) t w).2 = { w with clock := max w.clock t.now } ∧
      (¬ t.Healthy ∨ ∀ cur : LifecycleJob, w.journal[j.idempotencyKey]? = some cur → cur.revision ≠ j.revision)) ∨
    (exec lib blake3 (.update j) t w).1 = (.ok (), j.bumped) ∧
      (exec lib blake3 (.update j) t w).2 = { w with
        clock := max w.clock t.now
        journal := w.journal.insert j.idempotencyKey j.bumped } := by
  cases hf : t.fault with
  | some e =>
    refine .inl ⟨e,j,by simp only [exec,hf]; rfl, .inl rfl,by simp only [exec,hf], .inl (fun h => ?_)⟩
    rw [h.1] at hf
    cases hf
  | none =>
    rcases updateIn_cases w.journal j with ⟨e,he⟩ | ⟨cur,hc,hr,he⟩
    · refine .inl ⟨e,j,by simp only [exec,hf,he]; rfl, .inl rfl,by simp only [exec,hf,he], .inr ?_⟩
      intro cur hc hr
      simp [updateIn,hc,hr] at he
    · cases hu : t.unwritten with
      | none => exact .inr ⟨by simp only [exec,hf,he,hu]; rfl,by simp only [exec,hf,he,hu]⟩
      | some e =>
        refine .inl ⟨e,j.bumped,by simp only [exec,hf,he,hu]; rfl, .inr rfl,
          by simp only [exec,hf,he,hu], .inl (fun h => ?_)⟩
        rw [h.2] at hu
        cases hu

theorem exec_deletePoint {t : Circumstances} (u : ContextUri) :
    (∃ e, (exec lib blake3 (.deletePoint u) t w).1 = .error e ∧ t.fault ≠ none ∧
      (exec lib blake3 (.deletePoint u) t w).2 = { w with clock := max w.clock t.now }) ∨
    (exec lib blake3 (.deletePoint u) t w).1 = .ok () ∧
      (exec lib blake3 (.deletePoint u) t w).2 = { w with
        clock := max w.clock t.now, points := w.points.erase u.canonical } := by
  cases hf : t.fault with
  | some e => exact .inl ⟨e,by simp only [exec,hf]; rfl,by simp,by simp only [exec,hf]⟩
  | none => exact .inr ⟨by simp only [exec,hf]; rfl,by simp only [exec,hf]⟩

theorem exec_removeEdge {t : Circumstances} (from_ to_ : ContextUri) :
    (∃ e, (exec lib blake3 (.removeEdge from_ to_) t w).1 = .error e ∧ t.fault ≠ none ∧
      (exec lib blake3 (.removeEdge from_ to_) t w).2 = { w with clock := max w.clock t.now }) ∨
    (exec lib blake3 (.removeEdge from_ to_) t w).1 = .ok () ∧
      (exec lib blake3 (.removeEdge from_ to_) t w).2 = { w with
        clock := max w.clock t.now
        edges := w.edges.filter (fun edge => edge.1 ≠ from_ ∨ edge.2.1 ≠ to_) } := by
  cases hf : t.fault with
  | some e => exact .inl ⟨e,by simp only [exec,hf]; rfl,by simp,by simp only [exec,hf]⟩
  | none => exact .inr ⟨by simp only [exec,hf]; rfl,by simp only [exec,hf]⟩

theorem exec_deleteBlob {t : Circumstances} (blob : BlobRef) :
    (∃ e, (exec lib blake3 (.deleteBlob blob) t w).1 = .error e ∧ t.fault ≠ none ∧
      (exec lib blake3 (.deleteBlob blob) t w).2 = { w with clock := max w.clock t.now }) ∨
    (exec lib blake3 (.deleteBlob blob) t w).1 = .ok () ∧
      (exec lib blake3 (.deleteBlob blob) t w).2 = { w with
        clock := max w.clock t.now, blobs := w.blobs.erase blob.hash } := by
  cases hf : t.fault with
  | some e => exact .inl ⟨e,by simp only [exec,hf]; rfl,by simp,by simp only [exec,hf]⟩
  | none => exact .inr ⟨by simp only [exec,hf]; rfl,by simp only [exec,hf]⟩

theorem exec_delete_rest {t : Circumstances} (u : ContextUri) :
    (∃ e, (exec lib blake3 (.delete u) t w).1 = .error e ∧ (t.fault ≠ none ∨ u.canonical ∉ w.content.entries) ∧
      (exec lib blake3 (.delete u) t w).2 = { w with clock := max w.clock t.now }) ∨
    ∃ content, w.content.delete u (max w.clock t.now) = .ok ((), content) ∧
      (exec lib blake3 (.delete u) t w).1 = .ok () ∧
      (exec lib blake3 (.delete u) t w).2 = { w with clock := max w.clock t.now, content := content } := by
  cases hf : t.fault with
  | some e => exact .inl ⟨e,by simp only [exec,hf]; rfl, .inl (by simp),by simp only [exec,hf]⟩
  | none =>
    cases hd : w.content.delete u (max w.clock t.now) with
    | error e =>
      refine .inl ⟨e,by simp only [exec,hf,hd]; rfl, .inr (fun hl => ?_),by simp only [exec,hf,hd]⟩
      unfold SqliteTables.delete at hd
      rw [if_neg (not_not.mpr hl)] at hd
      cases hd
    | ok deleted =>
      obtain ⟨⟨⟩,content⟩ := deleted
      exact .inr ⟨content,rfl,by simp only [exec,hf,hd]; rfl,by simp only [exec,hf,hd]⟩

theorem exec_claim_rest {t : Circumstances} (owner : Uuid) (at_ : DateTime) :
    (∃ e, (exec lib blake3 (.claim key owner at_) t w).1 = .error e ∧ ¬ t.Healthy ∧
      (exec lib blake3 (.claim key owner at_) t w).2 = { w with clock := max w.clock t.now }) ∨
    ((exec lib blake3 (.claim key owner at_) t w).1 = .ok none ∧
      (exec lib blake3 (.claim key owner at_) t w).2 = { w with clock := max w.clock t.now } ∧
      ∀ j : LifecycleJob, w.journal[key]? = some j → j.claimable at_ ≠ true) ∨
    ∃ j : LifecycleJob, w.journal[key]? = some j ∧
      (exec lib blake3 (.claim key owner at_) t w).1 = .ok (some (j.leased owner at_)) ∧
      (exec lib blake3 (.claim key owner at_) t w).2 = { w with
        clock := max w.clock t.now, journal := w.journal.insert key (j.leased owner at_) } := by
  cases hf : t.fault with
  | some e =>
    refine .inl ⟨e,by simp only [exec,hf]; rfl,fun h => ?_,by simp only [exec,hf]⟩
    rw [h.1] at hf
    cases hf
  | none =>
    cases hu : t.unwritten with
    | some e =>
      refine .inl ⟨e,by simp only [exec,hf,hu]; rfl,fun h => ?_,by simp only [exec,hf,hu]⟩
      rw [h.2] at hu
      cases hu
    | none =>
      cases hj : w.journal[key]? with
      | none =>
        refine .inr (.inl ⟨by simp only [exec,hf,hu,claimIn,hj]; rfl,
          by simp only [exec,hf,hu,claimIn,hj],fun j h => by cases h⟩)
      | some j =>
        by_cases hc : j.claimable at_ = true
        · exact .inr (.inr ⟨j,rfl,by simp only [exec,hf,hu,claimIn,hj,hc]; rfl,
            by simp only [exec,hf,hu,claimIn,hj,hc]; rfl⟩)
        · refine .inr (.inl ⟨by simp only [exec,hf,hu,claimIn,hj,hc]; rfl,
            by simp only [exec,hf,hu,claimIn,hj,hc]; rfl,fun j' h => ?_⟩)
          obtain rfl := Option.some.inj h
          exact hc

end Replies

section Stops

variable {libraries lib : StoreLibraries} {blake3 : List ℕ → ContentHash} {rest : Stores → Prop}
    {ok : Circumstances → Prop} {w : Stores}

variable (libraries lib blake3 rest ok) in
/-- The program may stop at any of its calls; and `post` holds where it ends. -/
abbrev Leaves {α : Type} (post : α → Stores → Prop) (p : Program α) (w : Stores) : Prop :=
  p.Keeps (fun _ w => rest w) (Prog.Replies (exec libraries blake3) ok) post w

theorem ask_leaves {c : Call} {post : c.Reply → Stores → Prop} (h : rest w)
    (hp : ∀ t, ok t → post (exec lib blake3 c t w).1 (exec lib blake3 c t w).2) :
    Leaves lib blake3 rest ok post c.ask w :=
  Prog.Keeps.ofExec h hp

theorem read_leaves {c : Call} {post : c.Reply → Stores → Prop} (hr : Reads c) (h : rest w)
    (hp : ∀ t, ok t → post (exec lib blake3 c t w).1 { w with clock := max w.clock t.now }) :
    Leaves lib blake3 rest ok post c.ask w :=
  ask_leaves h (fun t ht => (@exec_reads lib blake3 t w c hr) ▸ hp t ht)

def Excused (ok : Circumstances → Prop) (reason : Prop) : Prop := (∃ t, ok t ∧ ¬ t.Healthy) ∨ reason

theorem excused_of_fault {t : Circumstances} {reason reason' : Prop} (ht : ok t) (h : t.fault ≠ none ∨ reason)
    (hi : reason → reason') : Excused ok reason' := by
  rcases h with hf | hr
  · exact .inl ⟨t,ht,fun hh => hf hh.1⟩
  · exact .inr (hi hr)

theorem reads_leave {α : Type} {P : Stores → Prop} (hl : ∀ w clock, P w → P { w with clock := clock })
    (hr : ∀ w, P w → rest w) {p : Program α} (h : p.Only Reads) (hw : P w) :
    Leaves lib blake3 rest ok (fun _ w' => P w') p w := by
  refine h.preserves Reads (fun c w _ hw => hr w hw) ?_ hw
  rintro c w r w' hc hw ⟨t,-,he⟩
  have ha := @exec_reads lib blake3 t w c hc
  rw [he] at ha
  rw [show w' = _ from ha]
  exact hl w _ hw

theorem now_leaves {P : Stores → Prop} (hc : ∀ w clock, P w → P { w with clock := clock })
    (hr : ∀ w, P w → rest w) (hw : P w) :
    Leaves lib blake3 rest ok (fun _ w' => P w') now w := reads_leave hc hr (.ask trivial) hw

theorem mapM_eq_some {α β : Type} {f : α → Option β} {as : List α} {bs : List β}
    (h : List.Forall₂ (fun a b => f a = some b) as bs) :
    as.mapM f = some bs := by
  induction h with
  | nil => rfl
  | cons ha _ ih => simp [List.mapM_cons,ha,ih]

theorem mapM_eq_none {α β : Type} {f : α → Option β} {as : List α} {a : α} (ha : a ∈ as) (h : f a = none) :
    as.mapM f = none := by
  induction as with
  | nil => cases ha
  | cons first as ih =>
    rw [List.mapM_cons]
    rcases List.mem_cons.mp ha with rfl | ha
    · simp [h]
    · cases f first <;> simp [ih ha]

end Stops

end UwuContextDb.Lifecycle
