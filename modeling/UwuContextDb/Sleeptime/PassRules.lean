import UwuContextDb.Sleeptime.Executor

/-! What a pass writes: the copies that its tasks make of the batch, and the rule of its program. -/

namespace UwuContextDb.Sleeptime

open Prog (Keeps Outcome)

def copiesOf (p : Planners) (entries : List ContextEntry) : SleeptimeTask → List ContextEntry
  | .qualityReassessment => entries.filterMap (fun entry =>
      ((p.reassess entry).toOption.filter (·.shouldWriteback)).map (reassessed entry))
  | .spacedRepetitionReview => entries.filterMap (reviewed (p.review entries))
  | .cascadeInvalidation => (cascade (p.cascade entries) entries).filter (hasTag "cascade:")
  | .knowledgeHealthDiagnosis =>
    ((p.diagnose entries).toOption.map (fun issues => (entries.map (repaired issues)).filter (hasTag "health:"))).getD []
  | .activeConsistencyGuard => (guardAll p.now (p.guard entries) entries).1.filter guardKeeps
  | .activeLearningLoop => (entries.map (learned (p.learn entries))).filter (hasTag "active-learning:")
  | .embeddingDriftDetection => (drifted (p.drift entries) entries).filter (hasTag "embedding-drift:")
  | .curiosityExploration => (entries.map (explored (p.explore entries))).filter (hasTag "curiosity:")
  | _ => []

def Pass.copies (pass : Pass) (entries : List ContextEntry) : List ContextEntry :=
  pass.tasks.flatMap (fun task => copiesOf task.2 entries task.1)

structure CopyOf (entry copy : ContextEntry) : Prop where
  rest : copy = { entry with metadata := copy.metadata }
  tags : entry.metadata.tags ⊆ copy.metadata.tags

theorem CopyOf.uri {e copy : ContextEntry} (h : CopyOf e copy) : copy.uri = e.uri := by rw [h.rest]

theorem copyOf_refl (entry : ContextEntry) : CopyOf entry entry := ⟨rfl,List.Subset.refl _⟩

theorem CopyOf.trans {e mid copy : ContextEntry} (h : CopyOf e mid) (h' : CopyOf mid copy) : CopyOf e copy := by
  refine ⟨?_,fun tag ht => h'.tags (h.tags ht)⟩
  conv_lhs => rw [h'.rest,h.rest]

theorem subset_pushTag (tags : List String) (tag : String) : tags ⊆ pushTag tags tag := by
  unfold pushTag
  split
  · exact List.Subset.refl _
  · exact List.subset_append_left _ _

theorem tagged_copyOf (e : ContextEntry) (tag : String) : CopyOf e (tagged e tag) := ⟨rfl,subset_pushTag _ _⟩

theorem withTag_copyOf (e : ContextEntry) (tag : String) : CopyOf e (withTag e tag) :=
  ⟨rfl,List.subset_append_left _ _⟩

theorem withField_copyOf (e : ContextEntry) (key : String) (v : Json) : CopyOf e (withField e key v) := by
  refine ⟨rfl,?_⟩
  unfold withField
  rw [WriteSecurity.setCustomField_eq]
  exact List.Subset.refl _

theorem edited_copyOf (e : ContextEntry) {metadata : ContextMeta} (h : metadata.tags = e.metadata.tags) :
    CopyOf e { e with metadata := metadata } := ⟨rfl,h ▸ List.Subset.refl _⟩

theorem foldl_tagged_copyOf (tags : List String) (e : ContextEntry) : CopyOf e (tags.foldl tagged e) := by
  induction tags generalizing e with
  | nil => exact copyOf_refl e
  | cons tag tags ih => exact (tagged_copyOf e tag).trans (ih (tagged e tag))

theorem reassessed_copyOf (e : ContextEntry) (out : QualityReassessmentOutcome) :
    CopyOf e (reassessed e out) := by
  unfold reassessed
  dsimp only
  split
  any_goals exact edited_copyOf e rfl
  all_goals
    refine CopyOf.trans ?_ (withTag_copyOf _ _)
    exact edited_copyOf e rfl

theorem cascaded_copyOf (tasks : List CascadeInvalidationTask) (e : ContextEntry) : CopyOf e (cascaded tasks e) := by
  unfold cascaded
  split
  · exact copyOf_refl e
  · split
    · refine CopyOf.trans ?_ (withTag_copyOf _ _)
      exact edited_copyOf e rfl
    · exact withTag_copyOf _ _

theorem repaired_copyOf (issues : List NodeHealth) (e : ContextEntry) : CopyOf e (repaired issues e) := by
  unfold repaired
  split
  · exact copyOf_refl e
  · exact ((tagged_copyOf _ _).trans (tagged_copyOf _ _)).trans (withField_copyOf _ _ _)

theorem guarded_copyOf (task : ConsistencyGuardTask) (tag : String) (e : ContextEntry) :
    CopyOf e (guarded task tag e) :=
  (tagged_copyOf _ _).trans (withField_copyOf _ _ _)

theorem invalidatedBy_copyOf (task : ConsistencyGuardTask) (now : DateTime) (stronger : ContextUri) (e : ContextEntry) :
    CopyOf e (invalidatedBy task now stronger e) := by
  unfold invalidatedBy
  refine CopyOf.trans ?_ (guarded_copyOf _ _ _)
  exact edited_copyOf e rfl

theorem applied_copyOf (planned key : String) (tasks : List (String × Json)) (e : ContextEntry) :
    CopyOf e (applied planned key tasks e) := by
  unfold applied
  split
  · exact copyOf_refl e
  · exact ((tagged_copyOf _ _).trans (foldl_tagged_copyOf _ _)).trans (withField_copyOf _ _ _)

abbrev Copied : List ContextEntry → List ContextEntry → Prop := List.Forall₂ CopyOf

theorem copied_refl (entries : List ContextEntry) : Copied entries entries :=
  List.forall₂_same.mpr (fun e _ => copyOf_refl e)

variable {f : ContextEntry → ContextEntry} {es : List ContextEntry}

theorem Copied.map {es mutable : List ContextEntry} (h : Copied es mutable)
    (hf : ∀ e, CopyOf e (f e)) : Copied es (mutable.map f) := by
  induction h with
  | nil => exact .nil
  | cons hi _ ih => exact .cons (hi.trans (hf _)) ih

theorem Copied.modify {es mutable : List ContextEntry} (h : Copied es mutable) (i : ℕ)
    (hf : ∀ e, CopyOf e (f e)) : Copied es (mutable.modify i f) := by
  induction h generalizing i with
  | nil => cases i <;> exact .nil
  | cons hi hr ih =>
    cases i with
    | zero => exact .cons (hi.trans (hf _)) hr
    | succ i => exact .cons hi (ih i)

theorem cascade_copied (plan : ContextUri → List CascadeInvalidationTask) (es : List ContextEntry) :
    Copied es (cascade plan es) := by
  unfold cascade
  generalize es.filter isInvalidated = triggers
  have hr : ∀ mutable, Copied es mutable →
      Copied es (triggers.foldl (fun mutable e => mutable.map (cascaded (plan e.uri))) mutable) := by
    induction triggers with
    | nil => exact fun mutable h => h
    | cons trigger triggers ih => exact fun mutable h => ih _ (h.map (cascaded_copyOf (plan trigger.uri)))
  exact hr es (copied_refl es)

theorem guardTask_copied {st : List ContextEntry × List ℕ} (h : Copied es st.1)
    (now : DateTime) (task : ConsistencyGuardTask) : Copied es (guardTask now st task).1 := by
  unfold guardTask
  split
  · dsimp only
    split
    · exact h.modify _ (invalidatedBy_copyOf _ _ _)
    · exact (h.modify _ (guarded_copyOf _ _)).modify _ (guarded_copyOf _ _)
    · exact (h.modify _ (guarded_copyOf _ _)).modify _ (guarded_copyOf _ _)
  · exact h

theorem guardAll_copied (now : DateTime) (tasks : List ConsistencyGuardTask) (es : List ContextEntry) :
    Copied es (guardAll now tasks es).1 := by
  unfold guardAll
  have hr : ∀ st : List ContextEntry × List ℕ, Copied es st.1 →
      Copied es (tasks.foldl (guardTask now) st).1 := by
    induction tasks with
    | nil => exact fun st h => h
    | cons task tasks ih => exact fun st h => ih _ (guardTask_copied h now task)
  exact hr (es, []) (copied_refl es)

theorem drifted_copied (report : EmbeddingDriftReport) (es : List ContextEntry) : Copied es (drifted report es) := by
  unfold drifted
  split
  · exact copied_refl es
  · exact (copied_refl es).modify 0 (fun e =>
      ((withField_copyOf _ _ _).trans (tagged_copyOf _ _)).trans (tagged_copyOf _ _))

theorem copyOf_of_mem {p : Planners} {task : SleeptimeTask} {copy : ContextEntry}
    (h : copy ∈ copiesOf p es task) : ∃ e ∈ es, CopyOf e copy := by
  have hf : ∀ {mutable : List ContextEntry} {keep : ContextEntry → Bool}, Copied es mutable →
      copy ∈ mutable.filter keep → ∃ e ∈ es, CopyOf e copy :=
    fun hp hm => Words.exists_of_mem_right hp copy (List.mem_of_mem_filter hm)
  cases task with
  | qualityReassessment =>
    obtain ⟨e,he,hc⟩ := List.mem_filterMap.mp h
    obtain ⟨out,-,rfl⟩ := Option.map_eq_some_iff.mp hc
    exact ⟨e,he,reassessed_copyOf e out⟩
  | spacedRepetitionReview =>
    obtain ⟨e,he,hc⟩ := List.mem_filterMap.mp h
    obtain ⟨task,-,rfl⟩ := Option.map_eq_some_iff.mp hc
    exact ⟨e,he,withTag_copyOf e _⟩
  | cascadeInvalidation => exact hf (cascade_copied _ _) h
  | knowledgeHealthDiagnosis =>
    unfold copiesOf at h
    cases hi : (p.diagnose es).toOption with
    | none => simp [hi] at h
    | some issues =>
      rw [hi] at h
      exact hf ((copied_refl es).map (repaired_copyOf issues)) h
  | activeConsistencyGuard => exact hf (guardAll_copied _ _ _) h
  | activeLearningLoop => exact hf ((copied_refl es).map (fun e => applied_copyOf _ _ _ e)) h
  | embeddingDriftDetection => exact hf (drifted_copied _ _) h
  | curiosityExploration => exact hf ((copied_refl es).map (fun e => applied_copyOf _ _ _ e)) h
  | _ => cases h

theorem Pass.copyOf_of_mem {pass : Pass} {copy : ContextEntry} (h : copy ∈ pass.copies es) :
    ∃ e ∈ es, CopyOf e copy := by
  obtain ⟨task,-,hc⟩ := List.mem_flatMap.mp h
  exact Sleeptime.copyOf_of_mem hc

section Rules

variable {may : Call → World → Prop} {reply : (c : Call) → World → c.Reply → World → Prop}

theorem onStores_keeps {α : Type} {p : Lifecycle.Program α} {post : α → World → Prop} {w : World}
    (h : p.Keeps (fun c w => may (.stores c) w) (fun c w r w' => reply (.stores c) w r w') post w) :
    (onStores p).Keeps may reply post w := by
  refine Keeps.embed ?_
  have hs : (fun (c : Lifecycle.Call) (w : World) (r : c.Reply) (w' : World) => ∃ r' : c.Reply,
      r' = r ∧ reply (.stores c) w r' w') =
      fun c w r w' => reply (.stores c) w r w' := by
    funext c w r w'
    simp only [exists_eq_left]
  exact hs ▸ h

/-- `P` holds all along a pass of the copies that it has written, and `Q` where an error ends it. -/
structure PassRule (may : Call → World → Prop) (reply : (c : Call) → World → c.Reply → World → Prop) (x : SleeptimeExecutor)
    (copies : List ContextEntry) (P : List ContextEntry → World → Prop) (Q : World → Prop) : Prop where
  left : ∀ done w, P done w → Q w
  write : ∀ done copy w, copy ∈ copies → P done w →
    (write copy).run.Keeps may reply (Outcome (fun _ w' => P (done ++ [copy]) w') (fun _ w' => Q w')) w
  submit : ∀ done p report uri w, P done w →
    (submitArchive p report uri).run.Keeps may reply (Outcome (fun _ w' => P done w') (fun _ w' => Q w')) w
  recover : ∀ done owner report w, P done w →
    (recover x owner report).run.Keeps may reply (Outcome (fun _ w' => P done w') (fun _ w' => Q w')) w

theorem given_keeps {α β : Type} {r : Except ContextError α} {f : α → Fallible β}
    {post : Except ContextError β → World → Prop} {w : World} (ho : ∀ a, r = .ok a → (f a).run.Keeps may reply post w)
    (he : ∀ e, r = .error e → post (.error e) w) :
    (given r >>= f).run.Keeps may reply post w := by
  refine .andThen ?_
  cases r with
  | ok a => exact ho a rfl
  | error e => exact he e rfl

variable {x : SleeptimeExecutor} {copies done : List ContextEntry} {P : List ContextEntry → World → Prop}
    {Q : World → Prop} {w : World}

namespace PassRule

theorem writeAll (h : PassRule may reply x copies P Q) {written : List ContextEntry}
    (hi : written ⊆ copies) (hw : P done w) :
    (writeAll written).run.Keeps may reply (Outcome (fun _ w' => P (done++written) w') (fun _ w' => Q w')) w := by
  refine .forM (fun rest w => ∃ front, written = front++rest ∧ P (done++front) w) ?_ ?_ ⟨[],rfl,by simpa using hw⟩
  · rintro copy rest w ⟨front,rfl,hw⟩
    refine (h.write _ copy w (hi (by simp)) hw).mono (fun r w' hr => ?_)
    cases r with
    | ok u =>
      refine ⟨front++[copy],by simp,?_⟩
      rw [← List.append_assoc]
      exact hr
    | error e => exact hr
  · rintro w ⟨front,rfl,hw⟩
    rw [List.append_nil]
    exact hw

theorem writeAll_return (h : PassRule may reply x copies P Q) {written : List ContextEntry} (hi : written ⊆ copies)
    (hw : P done w) (report : SleeptimeReport) :
    (Sleeptime.writeAll written >>= fun _ => pure report : Fallible SleeptimeReport).run.Keeps may reply
      (Outcome (fun _ w' => P (done++written) w') (fun _ w' => Q w')) w := by
  refine .andThen ((h.writeAll hi hw).mono (fun r w' hr => ?_))
  cases r with
  | ok u => exact hr
  | error e => exact hr

theorem reassessOne (h : PassRule may reply x copies P Q) {p : Planners} {entry : ContextEntry} (report : SleeptimeReport)
    (hi : ∀ out, p.reassess entry = .ok out → out.shouldWriteback = true →
      reassessed entry out ∈ copies)
    (hw : P done w) :
    (reassessOne x p report entry).run.Keeps may reply (Outcome
      (fun _ w' => P (done++(((p.reassess entry).toOption.filter (·.shouldWriteback)).map (reassessed entry)).toList) w')
      (fun _ w' => Q w')) w := by
  refine given_keeps (fun out ho => ?_) (fun e _ => h.left _ _ hw)
  rw [ho]
  by_cases hb : out.shouldWriteback = true
  · have hc : ((((Except.ok out : Except ContextError QualityReassessmentOutcome).toOption.filter
        (·.shouldWriteback)).map
        (reassessed entry)).toList) = [reassessed entry out] := by simp [Except.toOption,hb]
    rw [hc]
    simp only [hb,Bool.not_true,Bool.false_eq_true,if_false]
    have hs : (submitFor x p report entry.uri out.route).run.Keeps may reply
        (Outcome (fun _ w' => P done w') (fun _ w' => Q w')) w := by
      unfold submitFor
      split
      · exact h.submit done p report entry.uri w hw
      · exact hw
    refine .andThen (hs.mono (fun r w' hr => ?_))
    cases r with
    | error e => exact hr
    | ok report' =>
      refine .andThen ((h.write _ _ w' (hi out ho hb) hr).mono (fun r w' hr => ?_))
      cases r with
      | ok u => exact hr
      | error e => exact hr
  · have hc : ((((Except.ok out : Except ContextError QualityReassessmentOutcome).toOption.filter
        (·.shouldWriteback)).map
        (reassessed entry)).toList) = [] := by simp [Except.toOption,hb]
    rw [hc,List.append_nil]
    simp only [hb,Bool.not_false,if_true]
    exact hw

theorem taskWork (h : PassRule may reply x copies P Q) {p : Planners} {es : List ContextEntry}
    (report : SleeptimeReport) (task : SleeptimeTask) (hi : copiesOf p es task ⊆ copies) (hw : P done w) :
    (taskWork x p es report task).run.Keeps may reply
      (Outcome (fun _ w' => P (done++copiesOf p es task) w') (fun _ w' => Q w')) w := by
  have hn : P (done++[]) w := by simpa using hw
  cases task with
  | qualityReassessment =>
    refine .foldlM (fun _ rest w => ∃ front,
      es = front++rest ∧ P (done++copiesOf p front .qualityReassessment) w) ?_ ?_
      ⟨[],rfl,hn⟩
    · rintro report entry rest w ⟨front,rfl,hw⟩
      refine (h.reassessOne report (fun out ho hb => hi ?_) hw).mono (fun r w' hr => ?_)
      · refine List.mem_filterMap.mpr ⟨entry,by simp,?_⟩
        simp [ho,Except.toOption,hb]
      · cases r with
        | error e => exact hr
        | ok report' =>
          refine ⟨front++[entry],by simp,?_⟩
          have hc : copiesOf p (front++[entry]) .qualityReassessment = copiesOf p front .qualityReassessment ++
              (((p.reassess entry).toOption.filter (·.shouldWriteback)).map (reassessed entry)).toList := by
            simp only [copiesOf,List.filterMap_append,List.filterMap_cons,List.filterMap_nil]
            cases ((p.reassess entry).toOption.filter (·.shouldWriteback)).map (reassessed entry) <;> rfl
          rw [hc,← List.append_assoc]
          exact hr
    · rintro report w ⟨front,rfl,hw⟩
      rw [List.append_nil]
      exact hw
  | consistencyCheck => exact given_keeps (fun violations _ => hn) (fun e _ => h.left _ _ hw)
  | knowledgeHealthDiagnosis =>
    refine given_keeps (fun issues hs => ?_) (fun e _ => h.left _ _ hw)
    have hc : copiesOf p es .knowledgeHealthDiagnosis = (es.map (repaired issues)).filter (hasTag "health:") := by
      simp [copiesOf,hs,Except.toOption]
    rw [hc] at hi ⊢
    exact h.writeAll_return hi hw _
  | spacedRepetitionReview => exact h.writeAll_return hi hw _
  | cascadeInvalidation => exact h.writeAll_return hi hw _
  | activeConsistencyGuard => exact h.writeAll_return hi hw _
  | activeLearningLoop => exact h.writeAll_return hi hw _
  | embeddingDriftDetection => exact h.writeAll_return hi hw _
  | curiosityExploration => exact h.writeAll_return hi hw _
  | _ => exact hn

theorem runTasks (h : PassRule may reply x copies P Q) {es : List ContextEntry}
    (tasks : List (SleeptimeTask × Planners)) (report : SleeptimeReport)
    (hi : tasks.flatMap (fun task => copiesOf task.2 es task.1) ⊆ copies) (hw : P [] w) :
    (tasks.foldlM (runTask x es) report).run.Keeps may reply
      (Outcome (fun _ w' => P (tasks.flatMap (fun task => copiesOf task.2 es task.1)) w') (fun _ w' => Q w')) w := by
  refine .foldlM (fun _ rest w => ∃ front, tasks = front++rest ∧
    P (front.flatMap (fun task => copiesOf task.2 es task.1)) w) ?_ ?_ ⟨[],rfl,hw⟩
  · rintro report task rest w ⟨front,rfl,hw⟩
    refine .andThen ((h.taskWork report task.1 (fun copy hc => hi ?_) hw).mono (fun r w' hr => ?_))
    · exact List.mem_flatMap.mpr ⟨task,by simp,hc⟩
    · cases r with
      | ok report' =>
        refine ⟨front++[task],by simp,?_⟩
        rw [List.flatMap_append,List.flatMap_singleton]
        exact hr
      | error e => exact hr
  · rintro report w ⟨front,rfl,hw⟩
    rw [List.append_nil]
    exact hw

theorem process {pass : Pass} {es : List ContextEntry}
    (h : PassRule may reply x (pass.copies es) P Q) (hw : P [] w) :
    (process x pass es).run.Keeps may reply
      (Outcome (fun _ w' => P (pass.copies es) w') (fun _ w' => Q w')) w := by
  refine given_keeps (fun completeness _ => ?_) (fun e _ => h.left _ _ hw)
  refine .andThen ((h.recover [] _ _ w hw).mono (fun r w' hr => ?_))
  cases r with
  | error e => exact hr
  | ok report =>
    refine .andThen ((h.runTasks pass.tasks report (List.Subset.refl _) hr).mono (fun r w' hr => ?_))
    cases r with
    | error e => exact hr
    | ok report => exact h.recover _ _ _ w' hr

end PassRule

end Rules

end UwuContextDb.Sleeptime
