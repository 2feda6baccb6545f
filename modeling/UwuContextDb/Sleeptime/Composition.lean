import UwuContextDb.Library.LastWrite
import UwuContextDb.Lifecycle.Resume
import UwuContextDb.Sleeptime.CalmPass

/-! The tasks of a pass against their composition: each of them makes its copy of an entry as it was scanned. -/

namespace UwuContextDb.Sleeptime

open Content (StoreLibraries SqliteTables)
open Content.SqliteTables (BatchWriteConfig)
open LastWrite (change part_eq_foldl_iff)

def Marks.changedBy (scanned current copy : Marks) : Marks where
  tags := current.tags ++ copy.tags.filter (fun tag => tag ∉ scanned.tags)
  qualityScore := change scanned.qualityScore current.qualityScore copy.qualityScore
  stateScope := change scanned.stateScope current.stateScope copy.stateScope
  validity := change scanned.validity current.validity copy.validity
  field key := change (scanned.field key) (current.field key) (copy.field key)

def composed (scanned : Marks) (copies : List Marks) : Marks := copies.foldl scanned.changedBy scanned

structure Marks.Same (a b : Marks) : Prop where
  tags : ∀ tag, tag ∈ a.tags ↔ tag ∈ b.tags
  qualityScore : a.qualityScore = b.qualityScore
  stateScope : a.stateScope = b.stateScope
  validity : a.validity = b.validity
  field : ∀ key, a.field key = b.field key

/-- Nothing that a copy changes of the scanned entry is as it was scanned in `later`. -/
structure Marks.Kept (scanned copy later : Marks) : Prop where
  tags : copy.tags ⊆ later.tags
  qualityScore : later.qualityScore = scanned.qualityScore → copy.qualityScore = scanned.qualityScore
  stateScope : later.stateScope = scanned.stateScope → copy.stateScope = scanned.stateScope
  validity : later.validity = scanned.validity → copy.validity = scanned.validity
  field : ∀ key, later.field key = scanned.field key → copy.field key = scanned.field key

theorem Marks.same_refl (a : Marks) : a.Same a := ⟨fun _ => Iff.rfl,rfl,rfl,rfl,fun _ => rfl⟩

theorem Marks.kept_refl (scanned copy : Marks) : scanned.Kept copy copy := ⟨List.Subset.refl _,id,id,id,fun _ => id⟩

theorem mem_composed_tags (scanned : Marks) (copies : List Marks) (tag : String) :
    tag ∈ (composed scanned copies).tags ↔ tag ∈ scanned.tags ∨ ∃ copy ∈ copies, tag ∈ copy.tags := by
  induction copies using List.reverseRecOn with
  | nil => simp [composed]
  | append_singleton copies copy ih =>
    have hs : (composed scanned (copies++[copy])).tags =
        (composed scanned copies).tags ++ copy.tags.filter (fun tag => tag ∉ scanned.tags) := by
      simp [composed,Marks.changedBy,List.foldl_append]
    rw [hs,List.mem_append,ih]
    by_cases ht : tag ∈ scanned.tags
    · simp [ht]
    · simp [ht,or_and_right,exists_or]

theorem part_composed_iff {α : Type} [DecidableEq α] (part : Marks → α) (scanned last : Marks) (earlier : List Marks)
    (h : ∀ cur copy, part (scanned.changedBy cur copy) = change (part scanned) (part cur) (part copy)) :
    part last = part (composed scanned (earlier++[last])) ↔
      (part last = part scanned → ∀ copy ∈ earlier, part copy = part scanned) :=
  part_eq_foldl_iff scanned h earlier last

theorem last_same_iff {scanned last : Marks} {earlier : List Marks} (hg : scanned.tags ⊆ last.tags) :
    last.Same (composed scanned (earlier++[last])) ↔ ∀ copy ∈ earlier, scanned.Kept copy last := by
  have hu := part_composed_iff Marks.qualityScore scanned last earlier (fun _ _ => rfl)
  have ho := part_composed_iff Marks.stateScope scanned last earlier (fun _ _ => rfl)
  have ha := part_composed_iff Marks.validity scanned last earlier (fun _ _ => rfl)
  have hi := fun key => part_composed_iff (fun marks => marks.field key) scanned last earlier (fun _ _ => rfl)
  constructor
  · intro h copy hc
    refine ⟨fun tag ht => ?_,fun hq => hu.mp h.qualityScore hq copy hc,
      fun hs => ho.mp h.stateScope hs copy hc,fun hv => ha.mp h.validity hv copy hc,fun key hf =>
        (hi key).mp (h.field key) hf copy hc⟩
    rw [h.tags,mem_composed_tags]
    exact .inr ⟨copy,by simp [hc],ht⟩
  · intro h
    refine ⟨fun tag => ?_,hu.mpr (fun hq copy hc => (h copy hc).qualityScore hq),
      ho.mpr (fun hs copy hc => (h copy hc).stateScope hs),ha.mpr (fun hv copy hc => (h copy hc).validity hv),
      fun key => (hi key).mpr (fun hf copy hc => (h copy hc).field key hf)⟩
    rw [mem_composed_tags]
    constructor
    · exact fun ht => .inr ⟨last,by simp,ht⟩
    · rintro (ht | ⟨copy,hc,ht⟩)
      · exact hg ht
      · rcases List.mem_append.mp hc with hc | hc
        · exact (h copy hc).tags ht
        · exact List.mem_singleton.mp hc ▸ ht

section Passes

def copiesAt (key : String) (copies : List ContextEntry) : List ContextEntry :=
  copies.filter (fun copy => copy.uri.canonical = key)

/-- Every stored entry shows the effects of all the tasks that wrote it, and nothing that one of them changed is undone. -/
structure Composes (copies : List ContextEntry) (w w' : World) : Prop where
  carries : ∀ key stored, w'.entryAt key = some stored → ∃ scanned, w.entryAt key = some scanned ∧
    (marks stored).Same (composed (marks scanned) ((copiesAt key copies).map marks))
  kept : ∀ key scanned stored, w.entryAt key = some scanned → w'.entryAt key = some stored →
    ∀ copy ∈ copiesAt key copies, (marks scanned).Kept (marks copy) (marks stored)

def LastKeeps (copies : List ContextEntry) (w : World) : Prop :=
  ∀ key scanned, w.entryAt key = some scanned → ∀ earlier last, copiesAt key copies = earlier ++ [last] →
    ∀ copy ∈ earlier, (marks scanned).Kept (marks copy) (marks last)

variable {chr : Chrono} {x : SleeptimeExecutor} {sc : ContextUri} {pass : Pass} {w w' : World}

theorem scanned_of_copy (hn : w.stores.content.Named) {key : String} {copy : ContextEntry}
    (h : copy ∈ copiesAt key (pass.copies (batchAt chr x sc w))) :
    ∃ scanned, w.entryAt key = some scanned ∧ (marks scanned).tags ⊆ (marks copy).tags := by
  have hk : copy.uri.canonical = key := of_decide_eq_true (List.mem_filter.mp h).2
  obtain ⟨scanned,hs,hc⟩ := Pass.copyOf_of_mem (List.mem_of_mem_filter h)
  refine ⟨scanned,?_,hc.tags⟩
  rw [← hk,hc.uri]
  exact entryAt_of_batch hn hs

theorem passed_composes_iff (h : Passed chr x sc pass w w') (hn : w.stores.content.Named) :
    Composes (pass.copies (batchAt chr x sc w)) w w' ↔ LastKeeps (pass.copies (batchAt chr x sc w)) w := by
  have hc := fun key copy => @scanned_of_copy chr x sc pass w hn key copy
  have hh := h.shown
  generalize pass.copies (batchAt chr x sc w) = copies at hc hh ⊢
  have ho : ∀ key, copiesAt key copies = [] → (w'.entryAt key).map shown = (w.entryAt key).map shown := by
    intro key he
    have hk := hh key
    rwa [show copies.filter (fun copy => copy.uri.canonical = key) = [] from he] at hk
  have hl : ∀ key earlier last, copiesAt key copies = earlier ++ [last] →
      (w'.entryAt key).map shown = some (shown last) := by
    intro key earlier last he
    have hk := hh key
    rw [show copies.filter (fun copy => copy.uri.canonical = key) = earlier++[last] from he,
      List.getLast?_concat] at hk
    exact hk
  have hr : ∀ {stored copy : ContextEntry}, shown stored = shown copy → marks stored = marks copy :=
    fun he => congrArg Prod.snd he
  constructor
  · intro hco key scanned hs earlier last he copy hm
    obtain ⟨stored,ht,ha⟩ := Option.map_eq_some_iff.mp (hl key earlier last he)
    have hp := hco.kept key scanned stored hs ht copy (by rw [he]; simp [hm])
    rwa [hr ha] at hp
  · intro hke
    have hal : ∀ key stored, w'.entryAt key = some stored → ∃ scanned, w.entryAt key = some scanned ∧
        (marks stored).Same (composed (marks scanned) ((copiesAt key copies).map marks)) ∧
        ∀ copy ∈ copiesAt key copies, (marks scanned).Kept (marks copy) (marks stored) := by
      intro key stored ht
      rcases List.eq_nil_or_concat' (copiesAt key copies) with he | ⟨earlier,last,he⟩
      · have hk := ho key he
        rw [ht] at hk
        obtain ⟨scanned,hs,ha⟩ := Option.map_eq_some_iff.mp hk.symm
        refine ⟨scanned,hs,?_,by simp [he]⟩
        rw [he,hr ha.symm]
        exact Marks.same_refl _
      · have hk := hl key earlier last he
        rw [ht] at hk
        rw [hr (Option.some.inj hk),he]
        obtain ⟨scanned,hs,hg⟩ := hc key last (by rw [he]; simp)
        have hea := hke key scanned hs earlier last he
        refine ⟨scanned,hs,?_,?_⟩
        · rw [List.map_append,List.map_singleton]
          exact (last_same_iff hg).mpr (List.forall_mem_map.mpr hea)
        · intro copy hm
          rcases List.mem_append.mp hm with hm | hm
          · exact hea copy hm
          · exact List.mem_singleton.mp hm ▸ Marks.kept_refl _ _
    refine ⟨fun key stored ht => ?_,fun key scanned stored hs ht => ?_⟩
    · obtain ⟨scanned,hs,ha,-⟩ := hal key stored ht
      exact ⟨scanned,hs,ha⟩
    · obtain ⟨scanned',hs',-,hp⟩ := hal key stored ht
      rw [Option.some.inj (hs.symm.trans hs')]
      exact hp

/-- After a pass that ends well, the stored entries carry the effects of all its tasks exactly if of several copies of an
entry, each made of the entry as it was scanned, the last one keeps what the others change. -/
theorem tasks_compose_iff (libraries : StoreLibraries) (config : BatchWriteConfig)
    (blake3 : List ℕ → ContentHash) (chrono : Chrono) (x : SleeptimeExecutor) (pass : Pass) (scope : ContextUri)
    (ops : List SqliteTables.Op) (w : World)
    (hcontent : w.stores.content = StateMachine.run (fun st op => SqliteTables.step libraries st config op) .empty ops)
    (ts : ℕ → Moment) (hothers : ∀ n, (ts n).others = [])
    (hjobs : ∀ step ∈ (runOnce chrono x pass scope).run.trace (exec libraries config blake3) w ts,
      granted step.2.1 step.2.2 = false)
    (report : SleeptimeReport)
    (hok : ((runOnce chrono x pass scope).run.finish (exec libraries config blake3) w ts).1 = .ok report) :
    Composes (pass.copies (batchAt chrono x scope w)) w
    ((runOnce chrono x pass scope).run.finish (exec libraries config blake3) w ts).2 ↔
      LastKeeps (pass.copies (batchAt chrono x scope w)) w := by
  have hc := @runOnce_calm chrono x scope libraries config blake3 w pass
  have hp := hc.finish_of_trace hothers hjobs
  rw [hok] at hp
  refine passed_composes_iff hp ?_
  rw [hcontent]
  exact Lifecycle.named_run config ops

end Passes

section Samples

open Lifecycle (sampleLibraries sampleUri)

def dueEntry : ContextEntry :=
  let entry := ContextEntry.newText sampleUri 0 "item" 5
  { entry with metadata := { entry.metadata with
      qualityScore := some (1 / 5), stateScope := some .long, validity := some ⟨5, none, none, none⟩ } }

def reviewPlanners : Planners where
  now := 9
  newId _ := 1
  reassess _ := .ok ⟨1 / 2, .keepInShortTerm, false⟩
  check _ := .ok 0
  entangled _ := 0
  blindSpots := 0
  labeledSamples := 0
  review entries := (entries.filter (fun entry => entry.metadata.stateScope = some .long)).map
    (fun entry => ⟨entry.uri, .revalidate⟩)
  cascade _ _ := []
  diagnose _ := .ok []
  guard _ := []
  learn _ := []
  drift _ := ⟨0, 0, 0, 0, .observe, none⟩
  explore _ := []

def reviewPass (tasks : List SleeptimeTask) : Pass := ⟨tasks.map (fun task => (task, reviewPlanners)), fun _ => .ok 0, 1, 2⟩

def reviewOps : List SqliteTables.Op := [.write dueEntry 7]

def reviewWorld : World :=
  ⟨⟨0, ∅, StateMachine.run (fun st op => SqliteTables.step sampleLibraries st .standard op) .empty reviewOps, [], ∅, ∅,
    ∅⟩, ∅⟩

def reviewExecutor : SleeptimeExecutor := ⟨ContextUri.ofTenant "t", 10, false⟩

def sampleChrono : Chrono := ⟨fun _ => none, fun _ => ""⟩

def quiet (n : ℕ) : Moment := ⟨Lifecycle.calm n, []⟩

abbrev reviewProgram (tasks : List SleeptimeTask) : Program (Except ContextError SleeptimeReport) :=
  (runOnce sampleChrono reviewExecutor (reviewPass tasks) (ContextUri.ofTenant "t")).run

def reviewRun (tasks : List SleeptimeTask) : Except ContextError SleeptimeReport × World :=
  (reviewProgram tasks).finish (exec sampleLibraries .standard (fun _ => "")) reviewWorld (fun _ => quiet 8)

def noJobs (tasks : List SleeptimeTask) : Bool :=
  ((reviewProgram tasks).trace (exec sampleLibraries .standard (fun _ => "")) reviewWorld (fun _ => quiet 8)).all
    (fun step => !granted step.2.1 step.2.2)

def reviewCopies (tasks : List SleeptimeTask) : List ContextEntry :=
  (reviewPass tasks).copies (batchAt sampleChrono reviewExecutor (ContextUri.ofTenant "t") reviewWorld)

theorem tasks_compose_review :
    Composes (reviewCopies [.spacedRepetitionReview]) reviewWorld (reviewRun [.spacedRepetitionReview]).2 ↔
      LastKeeps (reviewCopies [.spacedRepetitionReview]) reviewWorld := by
  obtain ⟨hj, ho⟩ : noJobs [.spacedRepetitionReview] = true ∧ (reviewRun [.spacedRepetitionReview]).1.isOk = true := by
    decide +kernel
  cases hr : (reviewRun [.spacedRepetitionReview]).1 with
  | error e =>
    rw [hr] at ho
    cases ho
  | ok report =>
    exact tasks_compose_iff sampleLibraries .standard (fun _ => "") sampleChrono reviewExecutor
      (reviewPass [.spacedRepetitionReview])
      (ContextUri.ofTenant "t") reviewOps reviewWorld rfl (fun _ => quiet 8) (fun _ => rfl)
      (fun step hs => by simpa using List.all_eq_true.mp hj step hs) report hr

/-- The guardian writes the entry back as it was scanned, and the tag of the review is lost. -/
theorem guard_undoes_review :
    noJobs [.spacedRepetitionReview, .activeConsistencyGuard] = true ∧
      (reviewRun [.spacedRepetitionReview, .activeConsistencyGuard]).1.isOk = true ∧
      ¬ Composes (reviewCopies [.spacedRepetitionReview, .activeConsistencyGuard]) reviewWorld
        (reviewRun [.spacedRepetitionReview, .activeConsistencyGuard]).2 := by
  obtain ⟨hj, hok, hs, ht, hc⟩ : noJobs [.spacedRepetitionReview, .activeConsistencyGuard] = true ∧
      (reviewRun [.spacedRepetitionReview, .activeConsistencyGuard]).1.isOk = true ∧
      (reviewWorld.entryAt sampleUri.canonical).isSome = true ∧
      ((reviewRun [.spacedRepetitionReview, .activeConsistencyGuard]).2.entryAt sampleUri.canonical).map
        (·.metadata.tags) = some [] ∧
      (copiesAt sampleUri.canonical (reviewCopies [.spacedRepetitionReview, .activeConsistencyGuard])).any
        (fun copy => !copy.metadata.tags.isEmpty) = true := by decide +kernel
  refine ⟨hj, hok, fun ho => ?_⟩
  obtain ⟨scanned, hs⟩ := Option.isSome_iff_exists.mp hs
  obtain ⟨stored, ht, ha⟩ := Option.map_eq_some_iff.mp ht
  obtain ⟨copy, hm, hc⟩ := List.any_eq_true.mp hc
  have hk := (ho.kept _ _ _ hs ht copy hm).tags
  rw [show (marks stored).tags = [] from ha, List.subset_nil] at hk
  rw [show copy.metadata.tags = [] from hk] at hc
  exact absurd hc (by decide)

end Samples

end UwuContextDb.Sleeptime
