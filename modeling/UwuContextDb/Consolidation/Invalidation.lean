import Mathlib.Data.Finset.Card
import UwuContextDb.Core.RedactionFrame

/-! The three ways to end the validity of an entry, and what they leave of it. -/

namespace UwuContextDb.Consolidation

namespace DualTimeline

/-- `DualTimeline::invalidate`, at the clock reading `now`. -/
def invalidate (metadata : ContextMeta) (invalidatedBy : ContextUri) (reason : String) (now : DateTime) : ContextMeta :=
  match metadata.validity with
  | some v => { metadata with validity := some { v with
      validUntil := some now, invalidatedBy := some invalidatedBy, invalidationReason := some reason } }
  | none => { metadata with validity := some ⟨now, some now, some invalidatedBy, some reason⟩ }

def isValid (validity : Option ValidityRecord) (at_ : DateTime) : Bool :=
  match validity with
  | some v => v.validFrom ≤ at_ && v.validUntil.all (at_ ≤ ·)
  | none => true

end DualTimeline

inductive CascadeInvalidationAction | revalidate | invalidate

structure CascadeInvalidationTask where
  uri : ContextUri
  triggerUri : ContextUri
  depth : ℕ
  action : CascadeInvalidationAction
  reason : String

def taskFor (plan : List CascadeInvalidationTask) (uri : ContextUri) : Option CascadeInvalidationTask :=
  (plan.filter (·.uri = uri)).getLast?

def applyToEntry (plan : List CascadeInvalidationTask) (entry : ContextEntry) (now : DateTime) : ContextEntry :=
  match taskFor plan entry.uri with
  | none => entry
  | some task => match task.action with
    | .invalidate => { entry with metadata := { entry.metadata with
        validity := some ⟨entry.createdAt, some now, some task.triggerUri, some task.reason⟩
        tags := entry.metadata.tags ++ ["cascade:invalidated"] } }
    | .revalidate => { entry with metadata := { entry.metadata with
        tags := entry.metadata.tags ++ ["cascade:revalidate"] } }

/-- `apply_to_entries`; the clock is read anew for each entry. -/
def applyToEntries (entries : List ContextEntry) (plan : List CascadeInvalidationTask) (clock : ℕ → DateTime) :
    List ContextEntry × ℕ :=
  (entries.mapIdx (fun i entry => applyToEntry plan entry (clock i)),
    entries.countP (fun entry => (taskFor plan entry.uri).isSome))

inductive ConsistencyRepairAction | revalidateBoth | invalidateWeaker | keepBothContextual

structure ConsistencyGuardTask where
  uriA : ContextUri
  uriB : ContextUri
  action : ConsistencyRepairAction
  reason : String
  json : Json

def pushTag (tag : String) (tags : List String) : List String := if tag ∈ tags then tags else tags ++ [tag]

namespace ActiveConsistencyGuardian

/-- `by_uri`: the last entry under the URI. -/
def byUri (entries : List ContextEntry) (uri : ContextUri) : Option ℕ :=
  ((entries.zipIdx.filter (·.1.uri = uri)).getLast?).map (·.2)

def quality (entries : List ContextEntry) (idx : ℕ) : ℚ := (entries[idx]?.bind (·.metadata.qualityScore)).getD (1 / 2)

def mark (tag : String) (task : ConsistencyGuardTask) (entry : ContextEntry) : ContextEntry :=
  let tagged := { entry.metadata with tags := pushTag tag entry.metadata.tags }
  { entry with metadata := WriteSecurity.setCustomField tagged "consistency_guard" task.json }

def invalidateWeaker (task : ConsistencyGuardTask) (strongerUri : ContextUri) (now : DateTime) (entry : ContextEntry) :
    ContextEntry :=
  mark "consistency:auto-invalidated" task { entry with metadata := { entry.metadata with
    validity := some ⟨entry.createdAt, some now, some strongerUri, some task.reason⟩ } }

def applyTask (uris : ContextUri → Option ℕ) (now : DateTime) (state : List ContextEntry × Finset ℕ)
    (task : ConsistencyGuardTask) : List ContextEntry × Finset ℕ :=
  match uris task.uriA, uris task.uriB with
  | some a, some b =>
    match task.action with
    | .invalidateWeaker =>
      let weaker := if quality state.1 a ≤ quality state.1 b then a else b
      let strongerUri := if weaker = a then task.uriB else task.uriA
      (state.1.modify weaker (invalidateWeaker task strongerUri now), insert weaker state.2)
    | .revalidateBoth =>
      ((state.1.modify a (mark "consistency:revalidate" task)).modify b (mark "consistency:revalidate" task),
        insert b (insert a state.2))
    | .keepBothContextual =>
      ((state.1.modify a (mark "consistency:contextual-conflict" task)).modify b
        (mark "consistency:contextual-conflict" task), insert b (insert a state.2))
  | _, _ => state

/-- `ActiveConsistencyGuardian::apply`, of a task that can be serialized. -/
def apply (entries : List ContextEntry) (plan : List ConsistencyGuardTask) (now : DateTime) : List ContextEntry × ℕ :=
  let state := plan.foldl (applyTask (byUri entries) now) (entries, ∅)
  (state.1, state.2.card)

end ActiveConsistencyGuardian

inductive Invalidation
  | timeline (idx : ℕ) (invalidatedBy : ContextUri) (reason : String) (now : DateTime)
  | cascade (plan : List CascadeInvalidationTask) (clock : ℕ → DateTime)
  | guardian (plan : List ConsistencyGuardTask) (now : DateTime)

def Invalidation.perform (entries : List ContextEntry) : Invalidation → List ContextEntry
  | .timeline idx invalidatedBy reason now => entries.modify idx (fun entry =>
      { entry with metadata := DualTimeline.invalidate entry.metadata invalidatedBy reason now })
  | .cascade plan clock => (applyToEntries entries plan clock).1
  | .guardian plan now => (ActiveConsistencyGuardian.apply entries plan now).1

def performAll (entries : List ContextEntry) (calls : List Invalidation) : List ContextEntry :=
  calls.foldl Invalidation.perform entries

def validInstants (entries : List ContextEntry) (i : ℕ) : Set DateTime :=
  { at_ | ∃ entry, entries[i]? = some entry ∧ DualTimeline.isValid entry.metadata.validity at_ = true }

def weakerOf (entries : List ContextEntry) (task : ConsistencyGuardTask) : Option ℕ :=
  match task.action, ActiveConsistencyGuardian.byUri entries task.uriA, ActiveConsistencyGuardian.byUri entries task.uriB with
  | .invalidateWeaker, some a, some b =>
    some (if ActiveConsistencyGuardian.quality entries a ≤ ActiveConsistencyGuardian.quality entries b then a else b)
  | _, _, _ => none

def Invalidation.Writes (entries : List ContextEntry) (i : ℕ) (entry : ContextEntry) :
    Invalidation → DateTime × DateTime → Prop
  | .timeline idx _ _ now, interval =>
    idx = i ∧ interval = (entry.metadata.validity.elim now (·.validFrom), now)
  | .cascade plan clock, interval =>
    (∃ task, taskFor plan entry.uri = some task ∧ task.action = .invalidate) ∧ interval = (entry.createdAt, clock i)
  | .guardian plan now, interval => (∃ task ∈ plan, weakerOf entries task = some i) ∧ interval = (entry.createdAt, now)

def Within (interval : DateTime × DateTime) (validity : Option ValidityRecord) : Prop :=
  ∀ v, validity = some v → interval.2 < interval.1 ∨
    v.validFrom ≤ interval.1 ∧ ∀ until_, v.validUntil = some until_ → interval.2 ≤ until_

def Invalidation.Meets (entries : List ContextEntry) (call : Invalidation) : Prop :=
  ∀ i entry, entries[i]? = some entry → ∀ interval, call.Writes entries i entry interval →
    Within interval entry.metadata.validity

inductive Leaves (writes : DateTime × DateTime → Prop) (validity : Option ValidityRecord) : Option ValidityRecord → Prop
  | kept (h : ∀ interval, ¬ writes interval) : Leaves writes validity validity
  | written (interval : DateTime × DateTime) (h : ∀ other, writes other ↔ other = interval) (invalidatedBy : ContextUri)
      (reason : String) :
      Leaves writes validity (some ⟨interval.1, some interval.2, some invalidatedBy, some reason⟩)

theorem Leaves.shrinks_iff {writes : DateTime × DateTime → Prop} {validity validity' : Option ValidityRecord}
    (h : Leaves writes validity validity') :
    (∀ at_, DualTimeline.isValid validity' at_ = true → DualTimeline.isValid validity at_ = true) ↔
      ∀ interval, writes interval → Within interval validity := by
  cases h with
  | kept ho => exact ⟨fun _ interval hw => absurd hw (ho interval),fun _ _ hv => hv⟩
  | written interval hr =>
    simp only [hr,forall_eq]
    cases validity with
    | none => simp [DualTimeline.isValid,Within]
    | some v =>
      obtain ⟨validFrom,validUntil,by_,why⟩ := v
      constructor
      · intro hs w hw
        obtain rfl := Option.some.inj hw
        by_cases he : interval.2 < interval.1
        · exact .inl he
        · have ht := hs interval.1 (by simpa [DualTimeline.isValid] using not_lt.mp he)
          have hn := hs interval.2 (by simpa [DualTimeline.isValid] using not_lt.mp he)
          simp only [DualTimeline.isValid,Bool.and_eq_true,decide_eq_true_eq] at ht hn
          exact .inr ⟨ht.1,fun until_ hu => by simpa [show validUntil = some until_ from hu] using hn.2⟩
      · intro hi at_ hv
        simp only [DualTimeline.isValid,Bool.and_eq_true,decide_eq_true_eq,Option.all_some] at hv ⊢
        obtain he | ⟨hf,hu⟩ := hi _ rfl
        · exact absurd (hv.1.trans hv.2) (not_le.mpr he)
        · refine ⟨hf.trans hv.1, ?_⟩
          cases validUntil with
          | none => rfl
          | some until_ => simpa using hv.2.trans (hu until_ rfl)

variable {R S : ℕ → ContextEntry → ContextEntry → Prop} {k : ℕ} {entry entry' : ContextEntry} {now : DateTime}
  {done : List ConsistencyGuardTask} {task : ConsistencyGuardTask}

section Calls

variable {es : List ContextEntry}

theorem invalidate_leaves (md : ContextMeta) (invalidatedBy : ContextUri) (reason : String) (now : DateTime) :
    Leaves (· = (md.validity.elim now (·.validFrom), now)) md.validity
      (DualTimeline.invalidate md invalidatedBy reason now).validity := by
  cases hv : md.validity with
  | none =>
    simp only [DualTimeline.invalidate,hv]
    exact .written (now, now) (fun _ => Iff.rfl) invalidatedBy reason
  | some v =>
    simp only [DualTimeline.invalidate,hv]
    exact .written (v.validFrom, now) (fun _ => Iff.rfl) invalidatedBy reason

theorem applyToEntry_leaves (plan : List CascadeInvalidationTask) (entry : ContextEntry) (now : DateTime) :
    Leaves (fun interval => (∃ task, taskFor plan entry.uri = some task ∧ task.action = .invalidate) ∧
      interval = (entry.createdAt, now)) entry.metadata.validity (applyToEntry plan entry now).metadata.validity := by
  unfold applyToEntry
  cases ht : taskFor plan entry.uri with
  | none => exact .kept (by simp)
  | some task =>
    cases ha : task.action with
    | revalidate =>
      simp only [ha]
      refine Leaves.kept (fun interval hw => ?_)
      obtain ⟨⟨other,ho,hi⟩, -⟩ := hw
      obtain rfl := Option.some.inj ho
      cases ha.symm.trans hi
    | invalidate =>
      simp only [ha]
      refine Leaves.written (entry.createdAt, now) (fun other => ?_) task.triggerUri task.reason
      exact ⟨fun hw => hw.2,fun he => ⟨⟨task,rfl,ha⟩,he⟩⟩

def Matches (R : ℕ → ContextEntry → ContextEntry → Prop) (before after : List ContextEntry) : Prop :=
  ∀ i, (∃ entry entry', before[i]? = some entry ∧ after[i]? = some entry' ∧ R i entry entry') ∨
    before[i]? = none ∧ after[i]? = none

theorem Matches.modify {before after : List ContextEntry}
    (h : Matches R before after) {f : ContextEntry → ContextEntry}
    (hf : ∀ i entry entry', R i entry entry' → S i entry (if k = i then f entry' else entry')) :
    Matches S before (after.modify k f) := by
  intro i
  rw [List.getElem?_modify]
  obtain ⟨entry,entry',hb,ha,hr⟩ | ⟨hb,ha⟩ := h i
  · exact .inl ⟨entry,_,hb,by rw [ha]; rfl,hf i _ _ hr⟩
  · exact .inr ⟨hb,by rw [ha]; rfl⟩

theorem Matches.imp {before after : List ContextEntry}
    (h : Matches R before after) (hi : ∀ i entry entry', R i entry entry' → S i entry entry') : Matches S before after :=
  fun i => (h i).imp_left (fun ⟨entry,entry',hb,ha,hr⟩ =>
    ⟨entry,entry',hb,ha,hi i entry entry' hr⟩)

theorem Matches.refl (entries : List ContextEntry)
    (h : ∀ i entry, R i entry entry) : Matches R entries entries := by
  intro i
  cases entries[i]? with
  | none => exact .inr ⟨rfl,rfl⟩
  | some entry => exact .inl ⟨entry,entry,rfl,rfl,h i entry⟩

structure Marked (entry entry' : ContextEntry) : Prop where
  quality : entry'.metadata.qualityScore = entry.metadata.qualityScore
  created : entry'.createdAt = entry.createdAt

theorem mark_marked (h : Marked entry entry') (tag : String) (task : ConsistencyGuardTask) :
    Marked entry (ActiveConsistencyGuardian.mark tag task entry') ∧
      (ActiveConsistencyGuardian.mark tag task entry').metadata.validity = entry'.metadata.validity := by
  have hf : ∀ (md : ContextMeta) (key : String) (value : Json),
      (WriteSecurity.setCustomField md key value).qualityScore = md.qualityScore ∧
        (WriteSecurity.setCustomField md key value).validity = md.validity := by
    intro md key value
    rw [WriteSecurity.setCustomField_eq]
    exact ⟨rfl,rfl⟩
  exact ⟨⟨(hf _ _ _).1.trans h.quality,h.created⟩,(hf _ _ _).2⟩

def Guarded (entries : List ContextEntry) (now : DateTime) (done : List ConsistencyGuardTask) (i : ℕ)
    (entry entry' : ContextEntry) : Prop :=
  Marked entry entry' ∧ Leaves (fun interval => (∃ task ∈ done, weakerOf entries task = some i) ∧
    interval = (entry.createdAt, now)) entry.metadata.validity entry'.metadata.validity

theorem Guarded.skip {i : ℕ} {entry'' : ContextEntry}
    (h : Guarded es now done i entry entry') (hs : weakerOf es task ≠ some i)
    (hm : Marked entry entry'') (hv : entry''.metadata.validity = entry'.metadata.validity) :
    Guarded es now (done++[task]) i entry entry'' := by
  have hd : (∃ other ∈ done++[task], weakerOf es other = some i) ↔ ∃ other ∈ done, weakerOf es other = some i := by
    simp [or_and_right,exists_or,hs]
  refine ⟨hm, ?_⟩
  rw [hd,hv]
  exact h.2

theorem Guarded.mark {i : ℕ}
    (h : Guarded es now done i entry entry') (tag : String) (task : ConsistencyGuardTask) :
    Guarded es now done i entry (if k = i then ActiveConsistencyGuardian.mark tag task entry' else entry') := by
  split
  · obtain ⟨hm,hv⟩ := mark_marked h.1 tag task
    exact ⟨hm,hv ▸ h.2⟩
  · exact h

theorem Guarded.weaken {i : ℕ}
    (h : Guarded es now done i entry entry') (hw : weakerOf es task = some i)
    (strongerUri : ContextUri) :
    Guarded es now (done++[task]) i entry
      (ActiveConsistencyGuardian.invalidateWeaker task strongerUri now entry') := by
  have hr : Marked entry { entry' with metadata := { entry'.metadata with
      validity := some ⟨entry'.createdAt,some now,some strongerUri,some task.reason⟩ } } :=
    ⟨h.1.quality,h.1.created⟩
  obtain ⟨hm,hv⟩ := mark_marked hr "consistency:auto-invalidated" task
  refine ⟨hm, ?_⟩
  unfold ActiveConsistencyGuardian.invalidateWeaker
  rw [hv,h.1.created]
  refine .written (entry.createdAt, now) (fun other => ?_) strongerUri task.reason
  exact ⟨fun ht => ht.2,fun ho => ⟨⟨task,by simp,hw⟩,ho⟩⟩

theorem quality_of_guarded {after : List ContextEntry}
    (h : Matches (Guarded es now done) es after) (idx : ℕ) :
    ActiveConsistencyGuardian.quality after idx = ActiveConsistencyGuardian.quality es idx := by
  unfold ActiveConsistencyGuardian.quality
  obtain ⟨entry,entry',hb,ha,hr⟩ | ⟨hb,ha⟩ := h idx
  · simp [hb,ha,hr.1.quality]
  · simp [hb,ha]

theorem applyTask_guarded {st : List ContextEntry × Finset ℕ}
    (h : Matches (Guarded es now done) es st.1) (task : ConsistencyGuardTask) :
    Matches (Guarded es now (done++[task])) es
      (ActiveConsistencyGuardian.applyTask (ActiveConsistencyGuardian.byUri es) now st task).1 := by
  have hs : weakerOf es task = none → ∀ {after}, Matches (Guarded es now done) es after →
      Matches (Guarded es now (done++[task])) es after :=
    fun hn _ hf => hf.imp (fun _ _ _ hr => hr.skip (by simp [hn]) hr.1 rfl)
  unfold ActiveConsistencyGuardian.applyTask
  cases ha : ActiveConsistencyGuardian.byUri es task.uriA with
  | none => exact hs (by cases hc : task.action <;> simp [weakerOf,hc,ha]) h
  | some a =>
    cases hb : ActiveConsistencyGuardian.byUri es task.uriB with
    | none => exact hs (by cases hc : task.action <;> simp [weakerOf,hc,hb]) h
    | some b =>
      cases hc : task.action with
      | revalidateBoth =>
        exact hs (by simp [weakerOf,hc]) ((h.modify (fun _ _ _ hr => hr.mark _ _)).modify
          (fun _ _ _ hr => hr.mark _ _))
      | keepBothContextual =>
        exact hs (by simp [weakerOf,hc]) ((h.modify (fun _ _ _ hr => hr.mark _ _)).modify
          (fun _ _ _ hr => hr.mark _ _))
      | invalidateWeaker =>
        have hw : weakerOf es task = some (if ActiveConsistencyGuardian.quality st.1 a ≤
            ActiveConsistencyGuardian.quality st.1 b then a else b) := by
          simp [weakerOf,hc,ha,hb,quality_of_guarded h]
        refine h.modify (fun i entry entry' hr => ?_)
        by_cases he : (if ActiveConsistencyGuardian.quality st.1 a ≤ ActiveConsistencyGuardian.quality st.1 b
            then a else b) = i
        · rw [if_pos he]
          exact hr.weaken (he ▸ hw) _
        · rw [if_neg he]
          exact hr.skip (by rw [hw]; exact fun ho => he (Option.some.inj ho)) hr.1 rfl

/-- What a call does to each entry's record. -/
theorem perform_leaves (call : Invalidation) :
    Matches (fun i entry entry' => Leaves (call.Writes es i entry) entry.metadata.validity entry'.metadata.validity)
      es (call.perform es) := by
  cases call with
  | timeline idx invalidatedBy reason now =>
    have hs : Matches (fun _ entry entry' => entry' = entry) es es := .refl es (fun _ _ => rfl)
    refine hs.modify (fun i entry entry' he => ?_)
    obtain rfl := he
    split
    next hi =>
      have hw : (Invalidation.timeline idx invalidatedBy reason now).Writes es i entry' =
          (· = (entry'.metadata.validity.elim now (·.validFrom), now)) := by
        funext interval
        simp [Invalidation.Writes,hi]
      rw [hw]
      exact invalidate_leaves entry'.metadata invalidatedBy reason now
    next hi => exact .kept (fun interval hw => hi hw.1)
  | cascade plan clock =>
    intro i
    simp only [Invalidation.perform,applyToEntries,List.getElem?_mapIdx]
    cases es[i]? with
    | none => exact .inr ⟨rfl,rfl⟩
    | some entry => exact .inl ⟨entry,_,rfl,rfl,applyToEntry_leaves plan entry (clock i)⟩
  | guardian plan now =>
    have hf : ∀ (done : List ConsistencyGuardTask) (st : List ContextEntry × Finset ℕ),
        Matches (Guarded es now done) es st.1 → Matches (Guarded es now (done++plan)) es
          (plan.foldl (ActiveConsistencyGuardian.applyTask (ActiveConsistencyGuardian.byUri es) now) st).1 := by
      induction plan with
      | nil => exact fun done st h => by simpa using h
      | cons task plan ih =>
        intro done st h
        simpa using ih (done++[task]) _ (applyTask_guarded h task)
    have ht : Matches (Guarded es now []) es es := .refl es (fun i entry => ⟨⟨rfl,rfl⟩, .kept (by simp)⟩)
    exact (hf [] (es, ∅) ht).imp (fun _ _ _ h => h.2)

theorem perform_shrinks_iff (call : Invalidation) :
    (∀ i, validInstants (call.perform es) i ⊆ validInstants es i) ↔ call.Meets es := by
  refine forall_congr' (fun i => ?_)
  have hm : Matches _ es (call.perform es) := perform_leaves call
  obtain ⟨entry,entry',hb,ha,hl⟩ | ⟨hb,ha⟩ := hm i
  · simp only [validInstants,hb,ha,Option.some.injEq,exists_eq_left',Set.ofPred_subset_ofPred,forall_eq']
    exact hl.shrinks_iff
  · simp [validInstants,hb,ha]

end Calls

/-- Over the calls, made in any order and any number of times, no entry is ever valid at an instant at which it was not
valid before, exactly if each call writes what lies in the validity it finds. -/
theorem invalidations_shrink_iff (entries : List ContextEntry) (calls : List Invalidation) :
    (∀ before between after, calls = before ++ between ++ after → ∀ i,
      validInstants (performAll entries (before ++ between)) i ⊆ validInstants (performAll entries before) i) ↔
      ∀ before call after, calls = before ++ call::after → call.Meets (performAll entries before) := by
  constructor
  · intro h before call after hc
    refine (perform_shrinks_iff call).mp (fun i => ?_)
    simpa [performAll, List.foldl_append] using h before [call] after (by simpa using hc) i
  · intro h before between
    induction between using List.reverseRecOn with
    | nil => simp
    | append_singleton between call ih =>
      intro after hc i
      have hm := h (before ++ between) call after (by simpa using hc)
      have hs := (perform_shrinks_iff call).mpr hm i
      have hb := ih (call::after) (by simpa using hc) i
      have hp : performAll entries (before ++ (between ++ [call])) =
          call.perform (performAll entries (before ++ between)) := by
        simp [performAll, List.foldl_append]
      rw [hp]
      exact hs.trans hb

/-- Valid until 10 and invalidated once more at 20, an entry is valid at 15. -/
theorem invalidated_again : ¬ ∀ (entries : List ContextEntry) (calls : List Invalidation) (i : ℕ),
    validInstants (performAll entries calls) i ⊆ validInstants entries i := by
  intro h
  let uri : ContextUri := ⟨"t", ["a"], none, "uwu://t/a"⟩
  let entry := ContextEntry.newText uri 0 "x" 0
  let ended : ContextEntry := { entry with metadata := { entry.metadata with validity := some ⟨0, some 10, none, none⟩ } }
  obtain ⟨entry', he, hv⟩ := @h [ended] [.timeline 0 uri "again" 20] 0 15
    ⟨{ ended with metadata := DualTimeline.invalidate ended.metadata uri "again" 20 }, rfl, by decide⟩
  obtain rfl : ended = entry' := Option.some.inj he
  exact absurd hv (by decide)

end UwuContextDb.Consolidation
