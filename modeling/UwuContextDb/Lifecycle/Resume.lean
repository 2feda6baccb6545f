import UwuContextDb.Lifecycle.Stops

/-! A job that stops at any of its calls and is run again. -/

namespace UwuContextDb.Lifecycle

open Content (GraphRelation IndexPoint SqliteTables StoreLibraries)
open Content.SqliteTables (BatchWriteConfig)

section Originals

structure Snapshot (w : Stores) (uri : ContextUri) (m : ArchiveManifest) : Prop where
  entry : entryIn w.content uri = some m.entry
  blobs : blobsIn w m.entry = some m.blobs
  edges : m.edges = edgesOf w uri
  vector : m.vector = w.points[uri.canonical]?

structure Within (first : Stores) (uri : ContextUri) (key : String) (w : Stores) : Prop where
  content : w.content = first.content ∨ ∃ at_, first.content.delete uri at_ = .ok ((), w.content)
  edges : ∀ edge ∈ w.edges, edge ∈ first.edges
  kept : ∀ edge ∈ first.edges, edge ∈ w.edges ∨ edge ∈ edgesOf first uri
  points : ∀ k, w.points[k]? = first.points[k]? ∨ k = uri.canonical ∧ w.points[k]? = none
  blobs : ∀ h, w.blobs[h]? = first.blobs[h]? ∨
    w.blobs[h]? = none ∧ ∃ m : ArchiveManifest, w.cold[key]? = some m ∧ ∃ blob ∈ m.blobs, blob.1.hash = h
  cold : ∀ m, w.cold[key]? = some m → Snapshot first uri m

structure Whole (first w : Stores) : Prop where
  content : w.content = first.content
  edges : w.edges = first.edges
  points : w.points = first.points
  blobs : w.blobs = first.blobs

structure Fits (first : Stores) (uri : ContextUri) (key : String) (w : Stores) (job : LifecycleJob) : Prop where
  keyed : job.idempotencyKey = key
  named : job.uri = uri
  stored : job.checkpoint.manifest = true → ∃ m : ArchiveManifest, w.cold[key]? = some m
  whole : job.checkpoint.manifest = false → Whole first w
  succeeded : job.state = .succeeded → job.checkpoint.manifest = true
  untouched : job.restoreCheckpoint = .none

structure Resting (first : Stores) (uri : ContextUri) (key : String) (w : Stores) : Prop where
  within : Within first uri key w
  journal : ∃ job : LifecycleJob, w.journal[key]? = some job ∧ Fits first uri key w job

structure Working (first : Stores) (uri : ContextUri) (key : String) (job : LifecycleJob) (w : Stores) : Prop where
  within : Within first uri key w
  journal : w.journal[key]? = some job
  fits : Fits first uri key w job
  running : job.state = .running

variable {first w : Stores} {uri : ContextUri} {key : String} {job : LifecycleJob}

theorem Within.of_eq (h : w.content = first.content) (hd : w.edges = first.edges) (hp : w.points = first.points)
    (hb : w.blobs = first.blobs) (hc : ∀ m, w.cold[key]? = some m → Snapshot first uri m) : Within first uri key w :=
  ⟨.inl h,fun edge he => hd ▸ he,fun edge he => .inl (hd.symm ▸ he),fun k => .inl (by rw [hp]),
    fun k => .inl (by rw [hb]),hc⟩

theorem Working.resting (h : Working first uri key job w) : Resting first uri key w := ⟨h.within,job,h.journal,h.fits⟩

theorem Within.clock (h : Within first uri key w) (clock : DateTime) : Within first uri key { w with clock := clock } :=
  ⟨h.content,h.edges,h.kept,h.points,h.blobs,h.cold⟩

theorem Fits.clock (h : Fits first uri key w job) (clock : DateTime) : Fits first uri key { w with clock := clock } job :=
  ⟨h.keyed,h.named,h.stored,fun hu => ⟨(h.whole hu).content,(h.whole hu).edges,(h.whole hu).points,
    (h.whole hu).blobs⟩,h.succeeded,h.untouched⟩

theorem Resting.clock (h : Resting first uri key w) (clock : DateTime) :
    Resting first uri key { w with clock := clock } := by
  obtain ⟨job,hj,hf⟩ := h.journal
  exact ⟨h.within.clock clock,job,hj,hf.clock clock⟩

theorem Working.clock (h : Working first uri key job w) (clock : DateTime) :
    Working first uri key job { w with clock := clock } :=
  ⟨h.within.clock clock,h.journal,h.fits.clock clock,h.running⟩

end Originals

variable {content : SqliteTables} {w' : Stores} {given : LifecycleJob}

section Works

variable {libraries libs : StoreLibraries} {blake3 : List ℕ → ContentHash} {first w : Stores} {uri : ContextUri} {key : String}
  {ok : Circumstances → Prop} {job : LifecycleJob}

/-- The executor works on a job whose manifest is to be stored; the manifests are `cold`. -/
structure Storing (first : Stores) (uri : ContextUri) (key : String) (job : LifecycleJob)
    (cold : Std.ExtTreeMap String ArchiveManifest) (w : Stores) : Prop where
  working : Working first uri key job w
  whole : Whole first w
  cold : w.cold = cold

theorem Storing.clock {cold : Std.ExtTreeMap String ArchiveManifest} (h : Storing first uri key job cold w)
    (clock : DateTime) :
    Storing first uri key job cold { w with clock := clock } :=
  ⟨h.working.clock clock,⟨h.whole.content,h.whole.edges,h.whole.points,h.whole.blobs⟩,h.cold⟩

variable {cold : Std.ExtTreeMap String ArchiveManifest}

theorem readEntry_leaves (h : Storing first uri key job cold w) :
    Leaves libs blake3 (Resting first uri key) ok
      (Prog.Outcome (fun entry w' => Storing first uri key job cold w' ∧ entryIn first.content uri = some entry)
        (fun _ w' => Storing first uri key job cold w' ∧ Excused ok (entryIn first.content uri = none)))
        (readEntry uri).run w := by
  have hc := h.whole.content
  refine .andThen (read_leaves (c := .scanByPrefix uri.canonical (.new 1)) trivial h.working.resting (fun t ht => ?_))
  rcases @exec_readEntry libs blake3 t w uri with ⟨e,hr,hw⟩ | ⟨page,hr,hf⟩
  · rw [hr]
    exact ⟨h.clock _,excused_of_fault ht hw (fun hn => hc ▸ hn)⟩
  · rw [hr]
    show Prog.Keeps _ _ _ (entryOn uri page).run _
    rw [hc] at hf
    rw [entryOn,hf]
    cases entryIn first.content uri with
    | none => exact ⟨h.clock _, .inr rfl⟩
    | some entry => exact ⟨h.clock _,rfl⟩

theorem blobs_leave (h : Storing first uri key job cold w) (entry : ContextEntry) :
    Leaves libs blake3 (Resting first uri key) ok
      (Prog.Outcome (fun blobs w' => Storing first uri key job cold w' ∧ blobsIn first entry = some blobs)
        (fun _ w' => Storing first uri key job cold w' ∧ Excused ok (blobsIn first entry = none)))
      ((collectBlobs entry.payload).mapM (fun b => do return (b, ← getBlob b) : BlobRef →
        Fallible (BlobRef × List ℕ))).run w := by
  refine .mapM (fun w => Storing first uri key job cold w)
    (fun b pair => (first.blobs[b.hash]?).map (fun stored => (b, stored.2)) = some pair) (fun b hb w h => ?_)
    (fun pairs w hp h => ⟨h,mapM_eq_some hp⟩) h
  refine .andThen (read_leaves (c := .getBlob b) trivial h.working.resting (fun t ht => ?_))
  have hl := h.whole.blobs
  rcases @exec_getBlob libs blake3 t w b with ⟨e,hr,hw⟩ | ⟨stored,hs,hr⟩
  · rw [hr]
    refine ⟨h.clock _,excused_of_fault ht hw (fun hn => mapM_eq_none hb ?_)⟩
    rw [← hl,hn]
    rfl
  · rw [hr]
    refine ⟨?_,h.clock _⟩
    rw [← hl,hs]
    rfl

structure Storable (w : Stores) (uri : ContextUri) (key : String) : Prop where
  free : w.cold[key]? = none
  readable : ∃ entry, entryIn w.content uri = some entry ∧ ∃ blobs, blobsIn w entry = some blobs

theorem Storable.of_whole (h : Whole first w) (hs : Storable w uri key) :
    ∃ entry, entryIn first.content uri = some entry ∧ ∃ blobs, blobsIn first entry = some blobs := by
  obtain ⟨entry,he,blobs,hb⟩ := hs.readable
  refine ⟨entry,h.content ▸ he,blobs,?_⟩
  unfold blobsIn
  rw [← h.blobs]
  exact hb

structure StoredIn (first : Stores) (uri : ContextUri) (key : String) (ok : Circumstances → Prop) (w : Stores)
    (m : ArchiveManifest) :
    Prop where
  stored : w.cold[key]? = some m
  snapshot : Snapshot first uri m
  later : ∃ t, ok t ∧ t.now ≤ m.createdAt

theorem manifestWork_leaves (h : Storing first uri key job cold w) :
    Leaves libs blake3 (Resting first uri key) ok
      (Prog.Outcome (fun _ w' => ∃ m, StoredIn first uri key ok w' m ∧ (∀ old, cold[key]? = some old → old = m) ∧
          Within first uri key w' ∧ w'.journal[key]? = some job ∧ Whole first w')
        (fun _ w' => Storing first uri key job cold w' ∧ Excused ok (¬ Storable w uri key)))
      (manifestWork job).run w := by
  have hy := h.working.fits.keyed
  have hu := h.working.fits.named
  have hh := h.whole
  have hc₀ := h.cold
  unfold manifestWork
  rw [hy,hu]
  refine .andThen ((readEntry_leaves h).mono (fun r w' hr => ?_))
  cases r with
  | error e =>
    refine ⟨hr.1,hr.2.imp id (fun hno hs => ?_)⟩
    obtain ⟨entry,hn,-⟩ := hs.of_whole hh
    exact absurd (hno.symm.trans hn) (by simp)
  | ok entry =>
    obtain ⟨h,hn⟩ := hr
    refine .andThen ((blobs_leave h entry).mono (fun r w' hr => ?_))
    cases r with
    | error e =>
      refine ⟨hr.1,hr.2.imp id (fun hno hs => ?_)⟩
      obtain ⟨entry',hn',blobs,hb⟩ := hs.of_whole hh
      obtain rfl := Option.some.inj (hn.symm.trans hn')
      exact absurd (hno.symm.trans hb) (by simp)
    | ok blobs =>
      obtain ⟨h,hb⟩ := hr
      refine .andThen (read_leaves (c := .edgesFor uri) trivial h.working.resting (fun t ht => ?_))
      rcases @exec_edgesFor libs blake3 t w' uri with ⟨e,he,hf⟩ | he
      · rw [he]
        exact ⟨h.clock _,excused_of_fault ht (.inl hf) False.elim⟩
      · rw [he]
        have hd : edgesOf w' uri = edgesOf first uri := by rw [edgesOf,edgesOf,h.whole.edges]
        generalize ha : ({ w' with clock := max w'.clock t.now } : Stores) = w₁
        have h : Storing first uri key job cold w₁ := ha ▸ h.clock _
        clear ha
        refine .andThen (read_leaves (c := .getPoint uri) trivial h.working.resting (fun t ht => ?_))
        rcases @exec_getPoint libs blake3 t w₁ uri with ⟨e,he,hf⟩ | he
        · rw [he]
          exact ⟨h.clock _,excused_of_fault ht (.inl hf) False.elim⟩
        · rw [he]
          have hp : w₁.points[uri.canonical]? = first.points[uri.canonical]? := by rw [h.whole.points]
          generalize ha : ({ w₁ with clock := max w₁.clock t.now } : Stores) = w₂
          have h : Storing first uri key job cold w₂ := ha ▸ h.clock _
          clear ha
          refine .lift (read_leaves (c := .now) trivial h.working.resting (fun t ht => ?_))
          rw [exec_now]
          have hl : t.now ≤ max w₂.clock t.now := le_max_right _ _
          generalize max w₂.clock t.now = createdAt at hl
          have h : Storing first uri key job cold { w₂ with clock := createdAt } := h.clock _
          generalize ({ w₂ with clock := createdAt } : Stores) = w₃ at h
          have hsn : Snapshot first uri ⟨job.id,entry,blobs,edgesOf w' uri,w₁.points[uri.canonical]?,createdAt⟩ :=
            ⟨hn,hb,hd,hp⟩
          have hl : t.now ≤ ArchiveManifest.createdAt ⟨job.id,entry,blobs,edgesOf w' uri,
              w₁.points[uri.canonical]?,createdAt⟩ :=
            hl
          generalize (⟨job.id,entry,blobs,edgesOf w' uri,w₁.points[uri.canonical]?,createdAt⟩ : ArchiveManifest) =
            manifest
            at hsn hl ⊢
          refine ask_leaves (c := .putManifest key manifest) h.working.resting (fun t' ht' => ?_)
          obtain ⟨hre,hw⟩ := @exec_putManifest_rest libs blake3 w₃ key t' manifest
          obtain ⟨-,⟨⟨e,he⟩,hc⟩ | ⟨he,hst,ho⟩⟩ := @exec_putManifest libs blake3 t' key w₃ manifest
          · rw [he,hre,hc]
            refine ⟨h.clock _,?_⟩
            rcases hw with hw | hk
            · refine excused_of_fault ht' hw (fun hso hs => ?_)
              obtain ⟨m,hm⟩ := hso
              rw [h.cold,← hc₀,hs.free] at hm
              cases hm
            · rw [he] at hk
              cases hk
          · rw [he,hre]
            have hc : ∀ m, (exec libs blake3 (.putManifest key manifest) t' w₃).2.cold[key]? = some m →
                Snapshot first uri m := by
              intro m hm
              rw [← Option.some.inj (hst.symm.trans hm)]
              exact hsn
            refine ⟨manifest,⟨hst,hsn,t,ht,hl⟩,fun old ho' => ho old (h.cold.symm ▸ ho'),?_,h.working.journal,?_⟩
            · exact .of_eq h.whole.content h.whole.edges h.whole.points h.whole.blobs hc
            · exact ⟨h.whole.content,h.whole.edges,h.whole.points,h.whole.blobs⟩

theorem Within.updated (h : Within first uri key w) (clock : DateTime) (journal : Std.ExtTreeMap String LifecycleJob) :
    Within first uri key { w with clock := clock, journal := journal } :=
  ⟨h.content,h.edges,h.kept,h.points,h.blobs,h.cold⟩

theorem Fits.updated (h : Fits first uri key w job) (clock : DateTime) (journal : Std.ExtTreeMap String LifecycleJob) :
    Fits first uri key { w with clock := clock, journal := journal } job.bumped :=
  ⟨h.keyed,h.named,h.stored,fun hu => ⟨(h.whole hu).content,(h.whole hu).edges,(h.whole hu).points,
    (h.whole hu).blobs⟩,h.succeeded,h.untouched⟩

structure Halted (first : Stores) (uri : ContextUri) (key : String) (job : LifecycleJob) (w : Stores) : Prop where
  resting : Resting first uri key w
  fits : Fits first uri key w job
  running : job.state = .running

theorem Working.halted (h : Working first uri key job w) : Halted first uri key job w := ⟨h.resting,h.fits,h.running⟩

/-- What a part of `execute_phases` leaves, where `after` is what it does to the job, the content and the manifests, and
`bad` what it fails for. -/
def Ends (first : Stores) (uri : ContextUri) (key : String) (ok : Circumstances → Prop)
    (after : LifecycleJob → SqliteTables → Std.ExtTreeMap String ArchiveManifest → Prop) (bad : Prop)
    (left : Except ContextError Unit × LifecycleJob) (w : Stores) : Prop :=
  match left.1 with
  | .ok () => Working first uri key left.2 w ∧ after left.2 w.content w.cold
  | .error _ => Halted first uri key left.2 w ∧ Excused ok bad

theorem update_ends {cur : LifecycleJob}
    {after : LifecycleJob → SqliteTables → Std.ExtTreeMap String ArchiveManifest → Prop} {bad : Prop}
    (h : Halted first uri key job w) (hc : w.journal[key]? = some cur)
    (hv : cur.revision = job.revision) (ha : after job.bumped w.content w.cold) :
    Leaves libs blake3 (Resting first uri key) ok (Ends first uri key ok after bad) (update job) w := by
  have hk := h.fits.keyed
  refine ask_leaves (c := .update job) h.resting (fun t ht => ?_)
  rcases @exec_update_rest libs blake3 w t job with ⟨e,job',hr,hj',he,hw⟩ | ⟨hr,he⟩
  · rw [hr,he]
    refine ⟨⟨h.resting.clock _,?_,?_⟩, .inl ⟨t,ht,?_⟩⟩
    · rcases hj' with rfl | rfl
      · exact h.fits.clock _
      · exact h.fits.updated _ _
    · rcases hj' with rfl | rfl <;> exact h.running
    · exact hw.resolve_right (fun hs => hs cur (hk.symm ▸ hc) hv)
  · rw [hr,he]
    refine ⟨⟨h.resting.within.updated _ _,?_,h.fits.updated _ _,h.running⟩,ha⟩
    rw [hk]
    exact Std.ExtTreeMap.getElem?_insert_self

theorem phase_ends {isSet : LifecycleCheckpoint → Bool} {set : LifecycleCheckpoint → LifecycleCheckpoint}
    {work : LifecycleJob → Fallible Unit}
    {after : LifecycleJob → SqliteTables → Std.ExtTreeMap String ArchiveManifest → Prop} {bad : Prop}
    (h : Working first uri key job w) (hs : isSet job.checkpoint = true → after job w.content w.cold)
    (hw : isSet job.checkpoint = false → Leaves libs blake3 (Resting first uri key) ok
      (Prog.Outcome (fun _ w' => Halted first uri key { job with checkpoint := set job.checkpoint } w' ∧
          w'.journal[key]? = some job ∧
            after { job with checkpoint := set job.checkpoint, revision := job.revision+1 } w'.content w'.cold)
        (fun _ w' => Halted first uri key job w' ∧ Excused ok bad)) (work job).run w) :
    Leaves libs blake3 (Resting first uri key) ok (Ends first uri key ok after bad) (phase isSet set work job) w := by
  unfold phase
  cases hi : isSet job.checkpoint with
  | true => exact ⟨h,hs hi⟩
  | false =>
    refine Prog.Keeps.bind ((hw hi).mono (fun r w' hr => ?_))
    cases r with
    | error e => exact hr
    | ok u => exact update_ends hr.1 hr.2.1 rfl hr.2.2

theorem ends_andThen {first' second : OnJob}
    {middle after : LifecycleJob → SqliteTables → Std.ExtTreeMap String ArchiveManifest → Prop} {bad : Prop}
    (h : Leaves libs blake3 (Resting first uri key) ok (Ends first uri key ok middle bad) (first' job) w)
    (hs : ∀ job w, Working first uri key job w → middle job w.content w.cold →
      Leaves libs blake3 (Resting first uri key) ok (Ends first uri key ok after bad) (second job) w) :
    Leaves libs blake3 (Resting first uri key) ok (Ends first uri key ok after bad) (first'.andThen second job) w := by
  refine Prog.Keeps.bind (h.mono (fun left w' hl => ?_))
  obtain ⟨r,job'⟩ := left
  cases r with
  | ok u => exact hs job' w' hl.1 hl.2
  | error e => exact hl

theorem Within.deletePoint (h : Within first uri key w) (clock : DateTime) :
    Within first uri key { w with clock := clock, points := w.points.erase uri.canonical } := by
  refine ⟨h.content,h.edges,h.kept,fun k => ?_,h.blobs,h.cold⟩
  show (w.points.erase uri.canonical)[k]? = _ ∨ _ ∧ (w.points.erase uri.canonical)[k]? = none
  rw [Std.ExtTreeMap.getElem?_erase]
  split
  · rename_i hk
    exact .inr ⟨(Std.LawfulEqCmp.compare_eq_iff_eq.mp hk).symm,rfl⟩
  · exact h.points k

theorem Within.removeEdge (h : Within first uri key w) (clock : DateTime)
    {edge : ContextUri × ContextUri × GraphRelation} (he : edge ∈ edgesOf first uri) :
    Within first uri key { w with
      clock := clock
      edges := w.edges.filter (fun other => other.1 ≠ edge.1 ∨ other.2.1 ≠ edge.2.1) } := by
  refine ⟨h.content,fun other ho => h.edges other (List.mem_of_mem_filter ho),
    fun other ho => ?_,h.points,h.blobs,h.cold⟩
  rcases h.kept other ho with hk | ht
  · by_cases hs : other.1 = edge.1 ∧ other.2.1 = edge.2.1
    · refine .inr (List.mem_filter.mpr ⟨ho,?_⟩)
      rw [hs.1,hs.2]
      exact (List.mem_filter.mp he).2
    · exact .inl (List.mem_filter.mpr ⟨hk,by simpa using Classical.not_and_iff_not_or_not.mp hs⟩)
  · exact .inr ht

theorem Within.deleteBlob (h : Within first uri key w) (clock : DateTime) {m : ArchiveManifest}
    (hm : w.cold[key]? = some m) {blob : BlobRef × List ℕ} (hb : blob ∈ m.blobs) :
    Within first uri key { w with clock := clock, blobs := w.blobs.erase blob.1.hash } := by
  refine ⟨h.content,h.edges,h.kept,h.points,fun k => ?_,h.cold⟩
  show (w.blobs.erase blob.1.hash)[k]? = _ ∨ (w.blobs.erase blob.1.hash)[k]? = none ∧ _
  rw [Std.ExtTreeMap.getElem?_erase]
  split
  · rename_i hk
    exact .inr ⟨rfl,m,hm,blob,hb,Std.LawfulEqCmp.compare_eq_iff_eq.mp hk⟩
  · exact h.blobs k

theorem Within.delete (h : Within first uri key w) (clock : DateTime) {at_ : DateTime}
    (hd : w.content.delete uri at_ = .ok ((), content)) :
    Within first uri key { w with clock := clock, content := content } := by
  refine ⟨.inr ?_,h.edges,h.kept,h.points,h.blobs,h.cold⟩
  rcases h.content with hc | ⟨before,hb⟩
  · exact ⟨at_,hc ▸ hd⟩
  · have hl := (SqliteTables.delete_ok hd).live
    rw [(SqliteTables.delete_ok hb).entries,Std.ExtTreeMap.mem_erase] at hl
    exact absurd (Std.LawfulEqCmp.compare_eq_iff_eq.mpr rfl) hl.1

theorem Working.worked (h : Working first uri key job w) (hm : job.checkpoint.manifest = true)
    (hw : Within first uri key w') (hj : w'.journal = w.journal) (hc : w'.cold = w.cold) :
    Working first uri key job w' :=
  ⟨hw,hj ▸ h.journal,⟨h.fits.keyed,h.fits.named,fun hs => hc ▸ h.fits.stored hs,
    fun hu => absurd (hm.symm.trans hu) (by simp),h.fits.succeeded,h.fits.untouched⟩,h.running⟩

theorem Working.flagged (h : Working first uri key job w) (hm : job.checkpoint.manifest = true)
    {checkpoint : LifecycleCheckpoint} (hs : checkpoint.manifest = true) :
    Halted first uri key { job with checkpoint := checkpoint } w :=
  ⟨h.resting,⟨h.fits.keyed,h.fits.named,fun _ => h.fits.stored hm,
    fun hu => absurd (hs.symm.trans hu) (by simp),fun _ => hs,h.fits.untouched⟩,h.running⟩

/-- What the job at the beginning needs of the stores: a manifest can be stored, or the content is there to be deleted. -/
structure Doable (w : Stores) (uri : ContextUri) (key : String) (job : LifecycleJob) : Prop where
  manifest : job.checkpoint.manifest = false → Storable w uri key
  content : job.checkpoint.manifest = true → job.checkpoint.content = false → uri.canonical ∈ w.content.entries

structure Found (w : Stores) (uri : ContextUri) (key : String) (ok : Circumstances → Prop) : Prop where
  readable : ∃ entry, entryIn w.content uri = some entry ∧ ∃ blobs, blobsIn w entry = some blobs
  later : ∀ old, w.cold[key]? = some old → ∃ t, ok t ∧ t.now ≤ old.createdAt

def Manifested (w : Stores) (uri : ContextUri) (key : String) (ok : Circumstances → Prop) (start job : LifecycleJob)
    (content : SqliteTables) (_ : Std.ExtTreeMap String ArchiveManifest) : Prop :=
  job.checkpoint.manifest = true ∧ job.checkpoint.content = start.checkpoint.content ∧ content = w.content ∧
    (start.checkpoint.manifest = false → Found w uri key ok)

theorem manifestPhase_ends (h : Working first uri key job w) : Leaves libs blake3 (Resting first uri key) ok
    (Ends first uri key ok (Manifested w uri key ok job) (¬ Doable w uri key job))
      (manifestPhase job) w := by
  refine phase_ends h (fun he =>
    ⟨he,rfl,rfl,fun hu => absurd (he.symm.trans hu) (by simp)⟩) (fun hu => ?_)
  have hw := h.fits.whole hu
  refine (manifestWork_leaves ⟨h,hw,rfl⟩).mono (fun r w' hr => ?_)
  cases r with
  | error e =>
    exact ⟨hr.1.working.halted,hr.2.imp id (fun hn hd => hn (hd.manifest hu))⟩
  | ok u =>
    obtain ⟨m,hs,ho,hi,hj,hw'⟩ := hr
    have hf : Fits first uri key w' job :=
      ⟨h.fits.keyed,h.fits.named,fun _ => ⟨m,hs.stored⟩,fun _ => hw',h.fits.succeeded,h.fits.untouched⟩
    refine ⟨⟨⟨hi,job,hj,hf⟩,⟨h.fits.keyed,h.fits.named,fun _ => ⟨m,hs.stored⟩,
      (fun ha => by cases ha),fun _ => rfl,h.fits.untouched⟩,h.running⟩,hj,rfl,rfl,hw'.content.trans hw.content.symm,
      fun _ => ?_⟩
    refine ⟨⟨m.entry,hw.content.symm ▸ hs.snapshot.entry,m.blobs,?_⟩,fun old hl => ?_⟩
    · unfold blobsIn
      rw [hw.blobs]
      exact hs.snapshot.blobs
    · rw [ho old hl]
      exact hs.later

variable {after : LifecycleJob → SqliteTables → Std.ExtTreeMap String ArchiveManifest → Prop} {bad : Prop}

theorem vectorPhase_ends (h : Working first uri key job w) (hm : job.checkpoint.manifest = true)
    (hs : after job w.content w.cold)
    (ha : after { job with checkpoint := { job.checkpoint with vector := true }, revision := job.revision+1 }
      w.content w.cold) :
    Leaves libs blake3 (Resting first uri key) ok (Ends first uri key ok after bad) (vectorPhase job) w := by
  refine phase_ends h (fun _ => hs) (fun _ => ?_)
  obtain rfl := h.fits.named
  refine ask_leaves (c := .deletePoint job.uri) h.resting (fun t ht => ?_)
  rcases @exec_deletePoint libs blake3 w t job.uri with ⟨e,hr,hf,he⟩ | ⟨hr,he⟩
  · rw [hr,he]
    exact ⟨(h.clock _).halted,excused_of_fault ht (.inl hf) False.elim⟩
  · rw [hr,he]
    have hw := h.worked hm (h.within.deletePoint (max w.clock t.now)) rfl rfl
    refine ⟨hw.flagged hm ?_,hw.journal,ha⟩
    exact hm

theorem getManifest_leaves (h : Working first uri key job w) (ha : job.checkpoint.manifest = true) :
    Leaves libs blake3 (Resting first uri key) ok
      (Prog.Outcome (fun m w' => (Working first uri key job w' ∧ w'.content = w.content ∧ w'.cold = w.cold) ∧
          w'.cold[key]? = some m ∧ Snapshot first uri m)
        (fun _ w' => Working first uri key job w' ∧ Excused ok False)) (getManifest key).run w := by
  refine read_leaves (c := .getManifest key) trivial h.resting (fun t ht => ?_)
  rcases @exec_getManifest libs blake3 t w key with ⟨e,hr,hw⟩ | ⟨m,hm,hr⟩
  · rw [hr]
    refine ⟨h.clock _,excused_of_fault ht hw (fun hn => ?_)⟩
    obtain ⟨m,hm⟩ := h.fits.stored ha
    rw [hn] at hm
    cases hm
  · rw [hr]
    exact ⟨⟨h.clock _,rfl,rfl⟩,hm,h.within.cold m hm⟩

theorem graphPhase_ends (h : Working first uri key job w) (hm : job.checkpoint.manifest = true)
    (hk : after job w.content w.cold)
    (ha : after { job with checkpoint := { job.checkpoint with graph := true }, revision := job.revision+1 }
      w.content w.cold) :
    Leaves libs blake3 (Resting first uri key) ok (Ends first uri key ok after bad) (graphPhase job) w := by
  refine phase_ends h (fun _ => hk) (fun _ => ?_)
  obtain rfl := h.fits.keyed
  unfold graphWork
  refine .andThen ((getManifest_leaves h hm).mono (fun r w' hr => ?_))
  cases r with
  | error e => exact ⟨hr.1.halted,hr.2.imp id False.elim⟩
  | ok m =>
    obtain ⟨hp,-,hn⟩ := hr
    have hd : ∀ edge ∈ m.edges, edge ∈ edgesOf first uri := fun edge hg => hn.edges ▸ hg
    refine .forM (fun rest w' => (Working first uri job.idempotencyKey job w' ∧ w'.content = w.content ∧ w'.cold = w.cold) ∧
        ∀ edge ∈ rest, edge ∈ edgesOf first uri) (fun edge rest w' hi => ?_) (fun w' hi => ?_) ⟨hp,hd⟩
    · obtain ⟨⟨h',hc,ho⟩,hs⟩ := hi
      refine ask_leaves (c := .removeEdge edge.1 edge.2.1) h'.resting (fun t ht => ?_)
      rcases @exec_removeEdge libs blake3 w' t edge.1 edge.2.1 with ⟨e,he,hf,hq⟩ | ⟨he,hq⟩
      · rw [he,hq]
        exact ⟨(h'.clock _).halted,excused_of_fault ht (.inl hf) False.elim⟩
      · rw [he,hq]
        have hw := h'.within.removeEdge (max w'.clock t.now) (hs edge List.mem_cons_self)
        exact ⟨⟨h'.worked hm hw rfl rfl,hc,ho⟩,
          fun other hh => hs other (List.mem_cons_of_mem _ hh)⟩
    · obtain ⟨⟨h',hc,ho⟩,-⟩ := hi
      refine ⟨h'.flagged hm ?_,h'.journal,?_⟩
      · exact hm
      · rw [hc,ho]
        exact ha

theorem blobsPhase_ends (h : Working first uri key job w) (ha : job.checkpoint.manifest = true)
    (hsk : after job w.content w.cold)
    (hf : after { job with checkpoint := { job.checkpoint with blobs := true }, revision := job.revision+1 }
      w.content w.cold) :
    Leaves libs blake3 (Resting first uri key) ok (Ends first uri key ok after bad) (blobsPhase job) w := by
  refine phase_ends h (fun _ => hsk) (fun _ => ?_)
  obtain rfl := h.fits.keyed
  unfold blobsWork
  refine .andThen ((getManifest_leaves h ha).mono (fun r w' hr => ?_))
  cases r with
  | error e => exact ⟨hr.1.halted,hr.2.imp id False.elim⟩
  | ok m =>
    obtain ⟨hk,hm,-⟩ := hr
    refine .forM (fun rest w' => (Working first uri job.idempotencyKey job w' ∧ w'.content = w.content ∧ w'.cold = w.cold) ∧
        ∀ blob ∈ rest, blob ∈ m.blobs) (fun blob rest w' hi => ?_) (fun w' hi => ?_) ⟨hk,fun blob hb => hb⟩
    · obtain ⟨⟨h',ho,hc⟩,hs⟩ := hi
      refine ask_leaves (c := .deleteBlob blob.1) h'.resting (fun t ht => ?_)
      rcases @exec_deleteBlob libs blake3 w' t blob.1 with ⟨e,he,hu,hq⟩ | ⟨he,hq⟩
      · rw [he,hq]
        exact ⟨(h'.clock _).halted,excused_of_fault ht (.inl hu) False.elim⟩
      · rw [he,hq]
        have hm' : w'.cold[job.idempotencyKey]? = some m := by rw [hc,← hk.2.2,hm]
        have hw := h'.within.deleteBlob (max w'.clock t.now) hm' (hs blob List.mem_cons_self)
        exact ⟨⟨h'.worked ha hw rfl rfl,ho,hc⟩,
          fun other hh => hs other (List.mem_cons_of_mem _ hh)⟩
    · obtain ⟨⟨h',ho,hc⟩,-⟩ := hi
      refine ⟨h'.flagged ha ?_,h'.journal,?_⟩
      · exact ha
      · rw [ho,hc]
        exact hf

theorem contentPhase_ends (h : Working first uri key job w) (hm : job.checkpoint.manifest = true)
    (ha : job.checkpoint.content = false → uri.canonical ∉ w.content.entries → bad)
    (hs : job.checkpoint.content = true → after job w.content w.cold)
    (hf : ∀ content, job.checkpoint.content = false → uri.canonical ∈ w.content.entries →
      after { job with checkpoint := { job.checkpoint with content := true }, revision := job.revision+1 } content
      w.cold) :
    Leaves libs blake3 (Resting first uri key) ok (Ends first uri key ok after bad) (contentPhase job) w := by
  refine phase_ends h hs (fun hu => ?_)
  obtain rfl := h.fits.named
  refine ask_leaves (c := .delete job.uri) h.resting (fun t ht => ?_)
  rcases @exec_delete_rest libs blake3 w t job.uri with ⟨e,hr,hh,he⟩ | ⟨content,hd,hr,he⟩
  · rw [hr,he]
    exact ⟨(h.clock _).halted,excused_of_fault ht hh (ha hu)⟩
  · rw [hr,he]
    have hw := h.worked hm (h.within.delete (max w.clock t.now) hd) rfl rfl
    refine ⟨hw.flagged hm ?_,hw.journal,hf content hu (SqliteTables.delete_ok hd).live⟩
    exact hm

structure Achieved (w : Stores) (uri : ContextUri) (key : String) (ok : Circumstances → Prop)
    (job : LifecycleJob) : Prop where
  manifest : job.checkpoint.manifest = false → Found w uri key ok
  content : job.checkpoint.manifest = true → job.checkpoint.content = false → uri.canonical ∈ w.content.entries

theorem mem_of_entryIn (hn : content.Named) {entry : ContextEntry}
    (h : entryIn content uri = some entry) :
    ∃ row : Content.CurrentRow, content.entries[uri.canonical]? = some row ∧ row.entry = entry := by
  unfold entryIn at h
  split at h
  · rename_i page hs
    have hu : entry.uri = uri := by simpa using List.find?_some h
    obtain ⟨row,hr,he⟩ := hn.found_of_scan hs (List.mem_of_find?_eq_some h)
    exact ⟨row,hu ▸ hr,he⟩
  · cases h

theorem executePhases_ends (h : Working first uri key job w) (hn : w.content.Named) :
    Leaves libs blake3 (Resting first uri key) ok
      (Ends first uri key ok (fun job' _ _ => job'.checkpoint.manifest = true ∧ Achieved w uri key ok job)
        (¬ Doable w uri key job))
      (executePhases job) w := by
  refine ends_andThen (manifestPhase_ends h) (fun job₁ w₁ h₁ hm => ?_)
  refine ends_andThen (vectorPhase_ends h₁ hm.1 hm hm) (fun job₁ w₁ h₁ hm => ?_)
  refine ends_andThen (graphPhase_ends h₁ hm.1 hm hm) (fun job₁ w₁ h₁ hm => ?_)
  obtain ⟨ha,hf,hc,ho⟩ := hm
  have hh : (job.checkpoint.content = false → uri.canonical ∈ w.content.entries) → Achieved w uri key ok job :=
    fun he => ⟨ho,fun _ => he⟩
  have hco : Leaves libs blake3 (Resting first uri key) ok
      (Ends first uri key ok (fun job' _ _ => job'.checkpoint.manifest = true ∧ Achieved w uri key ok job)
        (¬ Doable w uri key job))
      (contentPhase job₁) w₁ := by
    refine contentPhase_ends h₁ ha ?_ ?_ ?_
    · intro hu hb hdo
      rw [hf] at hu
      rw [hc] at hb
      cases hs : job.checkpoint.manifest with
      | true => exact hb (hdo.content hs hu)
      | false =>
        obtain ⟨entry,ht,-⟩ := (ho hs).readable
        obtain ⟨row,hr,-⟩ := mem_of_entryIn hn ht
        exact hb (Std.ExtTreeMap.mem_iff_isSome_getElem?.mpr (by rw [hr]; rfl))
    · exact fun hs => ⟨ha,hh (fun hu => absurd ((hf.symm.trans hs).symm.trans hu) (by simp))⟩
    · exact fun _ _ he => ⟨ha,hh (fun _ => hc ▸ he)⟩
  exact ends_andThen hco (fun job₂ w₂ h₂ hd => blobsPhase_ends h₂ hd.1 hd hd)

structure Concluded (first : Stores) (uri : ContextUri) (key : String) (job : LifecycleJob) (w : Stores) : Prop where
  resting : Resting first uri key w
  fits : Fits first uri key w job
  current : job.state = .succeeded → ∃ current : LifecycleJob, w.journal[key]? = some current ∧
    current.revision = job.revision

theorem concluded_leaves {result : Except ContextError Unit} {good : Prop}
    (h : Ends first uri key ok (fun job' _ _ => job'.checkpoint.manifest = true ∧ good) bad (result, job) w) :
    Leaves libs blake3 (Resting first uri key) ok (fun job' w' => Concluded first uri key job' w' ∧
        (job'.state = .succeeded ∧ good ∨ job'.state ≠ .succeeded ∧ Excused ok bad))
      (concluded result job) w := by
  cases result with
  | ok u =>
    obtain ⟨ho,hm,hg⟩ := h
    refine Prog.Keeps.bind
      ((now_leaves (P := Working first uri key job) (fun w clock h => h.clock clock) (fun w h => h.resting)
      ho).mono (fun at_ w' hw' => ?_))
    refine ⟨⟨hw'.resting,
      ⟨hw'.fits.keyed,hw'.fits.named,hw'.fits.stored,hw'.fits.whole,fun _ => hm,hw'.fits.untouched⟩,
        fun _ => ⟨job,hw'.journal,rfl⟩⟩, .inl ⟨rfl,hg⟩⟩
  | error e =>
    obtain ⟨hh,he⟩ := h
    have hc : ∀ w clock, Halted first uri key job w → Halted first uri key job { w with clock := clock } :=
      fun w clock h => ⟨h.resting.clock clock,h.fits.clock clock,h.running⟩
    refine Prog.Keeps.bind ((now_leaves hc (fun w h => h.resting) hh).mono (fun next w' hw' => ?_))
    refine Prog.Keeps.bind ((now_leaves hc (fun w h => h.resting) hw').mono (fun at_ w' hw' => ?_))
    have hs : (if job.maxAttempts ≤ job.attempts then LifecycleJobState.permanentlyFailed
        else .retryable) ≠ .succeeded := by
      split <;> decide
    exact ⟨⟨hw'.resting,⟨hw'.fits.keyed,hw'.fits.named,hw'.fits.stored,hw'.fits.whole,fun h => absurd h hs,
      hw'.fits.untouched⟩,fun h => absurd h hs⟩, .inr ⟨hs,he⟩⟩

def Succeeds (first : Stores) (uri : ContextUri) (key : String) (r : Except ContextError (Option LifecycleJob))
    (w : Stores) : Prop :=
  ∃ job m, r = .ok (some job) ∧ job.state = .succeeded ∧ w.journal[key]? = some job ∧ w.cold[key]? = some m ∧
    Snapshot first uri m

/-- What an attempt at the job comes to, which finds the stores as `start`. -/
structure Comes (first : Stores) (uri : ContextUri) (key : String) (ok : Circumstances → Prop) (start : Stores)
    (given : LifecycleJob) (r : Except ContextError (Option LifecycleJob)) (w : Stores) : Prop where
  resting : Resting first uri key w
  achieved : (∃ job, r = .ok (some job) ∧ job.state = .succeeded) → Achieved start uri key ok given
  excused : Succeeds first uri key r w ∨ Excused ok (¬ Doable start uri key given)

theorem lastUpdate_leaves {start : Stores} (h : Concluded first uri key job w)
    (ha : job.state = .succeeded ∧ Achieved start uri key ok given ∨
      job.state ≠ .succeeded ∧ Excused ok (¬ Doable start uri key given)) :
    Leaves libs blake3 (Resting first uri key) ok (fun r w' => Comes first uri key ok start given
      (match r with | (.ok (), job') => .ok (some job') | (.error e, _) => .error e) w') (update job) w := by
  have hk := h.fits.keyed
  refine ask_leaves (c := .update job) h.resting (fun t ht => ?_)
  rcases @exec_update_rest libs blake3 w t job with ⟨e,job',hr,-,he,hw⟩ | ⟨hr,he⟩
  · rw [hr,he]
    refine ⟨h.resting.clock _,fun ho => ?_, .inr ?_⟩
    · obtain ⟨job,hj,-⟩ := ho
      cases hj
    · rcases ha with ⟨hs,-⟩ | ⟨-,hx⟩
      · obtain ⟨cur,hc,hv⟩ := h.current hs
        exact .inl ⟨t,ht,hw.resolve_right (fun hl => hl cur (hk.symm ▸ hc) hv)⟩
      · exact hx
  · rw [hr,he]
    have hu : (w.journal.insert job.idempotencyKey job.bumped)[key]? = some job.bumped := by
      rw [hk]
      exact Std.ExtTreeMap.getElem?_insert_self
    refine ⟨⟨h.resting.within.updated _ _,job.bumped,hu,h.fits.updated _ _⟩,fun ho => ?_,?_⟩
    · obtain ⟨job',hj',hs⟩ := ho
      cases hj'
      exact (ha.resolve_right (fun hn => hn.1 hs)).2
    · rcases ha with ⟨hs,-⟩ | ⟨-,hx⟩
      · obtain ⟨m,hm⟩ := h.fits.stored (h.fits.succeeded hs)
        exact .inl ⟨job.bumped,m,rfl,hs,hu,hm,h.resting.within.cold m hm⟩
      · exact .inr hx

theorem Comes.rebase {given' : LifecycleJob} {clock : DateTime} {journal : Std.ExtTreeMap String LifecycleJob}
    {r : Except ContextError (Option LifecycleJob)}
    (h : Comes first uri key ok { w with clock := clock, journal := journal } given' r w')
    (hf : given'.checkpoint = given.checkpoint) : Comes first uri key ok w given r w' := by
  refine ⟨h.resting,fun hs => ?_,h.excused.imp id (fun he => he.imp id (fun hn hd => hn ?_))⟩
  · obtain ⟨hm,hc⟩ := h.achieved hs
    rw [hf] at hm hc
    exact ⟨fun hu => ⟨(hm hu).readable,(hm hu).later⟩,hc⟩
  · obtain ⟨hm,hc⟩ := hd
    rw [← hf] at hm hc
    exact ⟨fun hu => ⟨(hm hu).free,(hm hu).readable⟩,hc⟩

theorem execute_leaves (hw : Within first uri key w) (hj : w.journal[key]? = some job)
    (hf : Fits first uri key w job) (ha : w.content.Named) :
    Leaves libs blake3 (Resting first uri key) ok (fun r w' => Comes first uri key ok w job (r.map some) w')
    (execute job).run w := by
  have hk := hf.keyed
  refine .lift (read_leaves (c := .now) trivial ⟨hw,job,hj,hf⟩ (fun t ht => ?_))
  generalize (exec libs blake3 .now t w).1 = at_
  generalize max w.clock t.now = clock
  generalize hx : LifecycleJob.audited
    { job with state := .running, attempts := job.attempts+1 } at_ "attempt started" = next
  have hm : next.idempotencyKey = job.idempotencyKey ∧ next.revision = job.revision ∧ next.checkpoint = job.checkpoint ∧
      next.state = .running ∧ next.uri = job.uri ∧ next.restoreCheckpoint = job.restoreCheckpoint := by
    subst hx
    exact ⟨rfl,rfl,rfl,rfl,rfl,rfl⟩
  obtain ⟨hn,hv,hl,hu,hi,hre⟩ := hm
  have hs : Resting first uri key { w with clock := clock } := ⟨hw.clock clock,job,hj,hf.clock clock⟩
  have hf' : Fits first uri key { w with clock := clock } next := by
    refine ⟨hn.trans hf.keyed,hi.trans hf.named,fun hse => hf.stored (hl ▸ hse),
      fun hun => (hf.clock clock).whole (hl ▸ hun),fun h => ?_,hre.trans hf.untouched⟩
    rw [hu] at h
    cases h
  refine .lift (ask_leaves (c := .update next) hs (fun t' ht' => ?_))
  rcases @exec_update_rest libs blake3 { w with clock := clock } t' next with ⟨e,job',hr,-,he,hh⟩ | ⟨hr,he⟩
  · rw [hr,he]
    refine ⟨hs.clock _,fun hso => ?_, .inr (.inl ⟨t',ht',?_⟩)⟩
    · obtain ⟨job,hb,-⟩ := hso
      cases hb
    · refine hh.resolve_right (fun hst => hst job ?_ hv.symm)
      rw [hn,hk]
      exact hj
  · rw [hr,he]
    generalize max clock t'.now = clock'
    have hsto : (w.journal.insert next.idempotencyKey next.bumped)[key]? = some next.bumped := by
      rw [hn,hk]
      exact Std.ExtTreeMap.getElem?_insert_self
    have hwo : Working first uri key next.bumped { w with
        clock := clock', journal := w.journal.insert next.idempotencyKey next.bumped } :=
      ⟨hw.updated _ _,hsto,hf'.updated clock' _,hu⟩
    refine .lift ((executePhases_ends hwo ha).mono (fun left w₁ hle => ?_))
    obtain ⟨result,job₁⟩ := left
    refine .lift ((concluded_leaves hle).mono (fun job₂ w₂ hc => ?_))
    refine .lift ((lastUpdate_leaves hc.1 hc.2).mono (fun last w₃ ho => ?_))
    obtain ⟨written,job₃⟩ := last
    cases written with
    | ok u => exact ho.rebase hl
    | error e => exact ho.rebase hl

def attemptAt (key : String) (owner : Uuid) (at_ : DateTime) : Fallible (Option LifecycleJob) := do
  match ← claim key owner at_ with
  | some current => return some (← execute current)
  | none => return none

theorem attempt_eq (key : String) (owner : Uuid) :
    (attempt key owner).run = Prog.call .now (fun at_ => (attemptAt key owner at_).run) := rfl

/-- An attempt leaves the job so that it may be claimed again; where it can be claimed, the attempt comes to what the stores
allow. -/
theorem attemptAt_leaves (h : Resting first uri key w) (hn : w.content.Named) (owner : Uuid) (at_ : DateTime) :
    Leaves libs blake3 (Resting first uri key) ok (fun r w' => Resting first uri key w' ∧
        ∀ given : LifecycleJob, w.journal[key]? = some given → given.claimable at_ = true →
        Comes first uri key ok w given r w')
      (attemptAt key owner at_).run w := by
  refine .andThen (ask_leaves (c := .claim key owner at_) h (fun t ht => ?_))
  rcases @exec_claim_rest libs blake3 w key t owner at_ with
    ⟨e,hr,hu,he⟩ | ⟨hr,he,ho⟩ | ⟨job,hj,hr,he⟩
  · rw [hr,he]
    refine ⟨h.clock _,fun given hg _ => ⟨h.clock _,fun hs => ?_, .inr (.inl ⟨t,ht,hu⟩)⟩⟩
    obtain ⟨job,hj,-⟩ := hs
    cases hj
  · rw [hr,he]
    exact ⟨h.clock _,fun given hg hl => absurd hl (ho given hg)⟩
  · rw [hr,he]
    obtain ⟨job',hj',hf⟩ := h.journal
    obtain rfl := Option.some.inj (hj.symm.trans hj')
    have ha : Fits first uri key { w with
        clock := max w.clock t.now, journal := w.journal.insert key (job.leased owner at_) } (job.leased owner at_) :=
      ⟨hf.keyed,hf.named,hf.stored,
        (hf.updated (max w.clock t.now) (w.journal.insert key (job.leased owner at_))).whole,
          hf.succeeded,hf.untouched⟩
    refine .andThen ((execute_leaves (h.within.updated (max w.clock t.now) _) Std.ExtTreeMap.getElem?_insert_self ha
      hn).mono (fun r w₁ hc => ?_))
    have hc' : Comes first uri key ok w job (r.map some) w₁ := hc.rebase rfl
    cases r with
    | error e =>
      refine ⟨hc'.resting,fun given hg _ => ?_⟩
      obtain rfl := Option.some.inj (hj.symm.trans hg)
      exact hc'
    | ok job₁ =>
      refine ⟨hc'.resting,fun given hg _ => ?_⟩
      obtain rfl := Option.some.inj (hj.symm.trans hg)
      exact hc'

theorem attempt_leaves (h : Resting first uri key w) (hn : w.content.Named) (owner : Uuid) :
    Leaves libs blake3 (Resting first uri key) ok (fun _ w' => Resting first uri key w')
    (attempt key owner).run w := by
  rw [attempt_eq]
  refine ⟨h,?_⟩
  rintro at_ w' ⟨t,ht,hq⟩
  have ha := @exec_reads libs blake3 t w .now trivial
  rw [hq] at ha
  obtain rfl : w' = { w with clock := max w.clock t.now } := ha
  have he := h.clock (max w.clock t.now)
  exact (attemptAt_leaves he hn owner at_).mono (fun r w' hr => hr.1)

end Works

variable {left : Except ContextError (Option LifecycleJob) × Stores}

section Attempts

variable (libraries libs : StoreLibraries) (blake3 : List ℕ → ContentHash) (key : String)

def stopped (w : Stores) (stops : List (Uuid × List Circumstances)) : Stores :=
  stops.foldl (fun w stop => ((attempt key stop.1).run.run (exec libraries blake3) w stop.2).2) w

def attempted (owner : Uuid) (w : Stores) (ts : ℕ → Circumstances) : Except ContextError (Option LifecycleJob) × Stores :=
  (attempt key owner).run.finish (exec libraries blake3) w ts

/-- The job has succeeded, and the cold storage has a manifest with the entry that there was at first. -/
def Archives (first : Stores) (uri : ContextUri) (left : Except ContextError (Option LifecycleJob) × Stores) : Prop :=
  ∃ job m, left.1 = .ok (some job) ∧ job.state = .succeeded ∧ left.2.journal[key]? = some job ∧ left.2.cold[key]? = some m ∧
    (first.content.entries[uri.canonical]?).map (·.entry) = some m.entry

variable {libraries libs blake3 key} {first w : Stores} {uri : ContextUri}

theorem Within.named (h : Within first uri key w) (hn : first.content.Named) : w.content.Named := by
  rcases h.content with hs | ⟨at_,hd⟩
  · rw [hs]
    exact hn
  · exact hn.erase (SqliteTables.delete_ok hd).entries

theorem stopped_resting (h : Resting first uri key w) (hn : first.content.Named)
    (stops : List (Uuid × List Circumstances)) :
    Resting first uri key (stopped libs blake3 key w stops) := by
  unfold stopped
  induction stops generalizing w with
  | nil => exact h
  | cons stop stops ih =>
    refine ih ?_
    have hl : Leaves libs blake3 (Resting first uri key) (fun _ => True) (fun _ w' => Resting first uri key w')
        (attempt key stop.1).run w := attempt_leaves h (h.within.named hn) stop.1
    have hr : (∃ r, ((attempt key stop.1).run.run (exec libs blake3) w stop.2).1 = .done r ∧
          Resting first uri key ((attempt key stop.1).run.run (exec libs blake3) w stop.2).2) ∨
        Resting first uri key ((attempt key stop.1).run.run (exec libs blake3) w stop.2).2 :=
          hl.run (fun _ _ => trivial)
    rcases hr with ⟨r,-,hd⟩ | hs
    · exact hd
    · exact hs

theorem newJob_resting {id : Uuid} {operation : LifecycleOperation} {submitted : DateTime}
    (hj : first.journal[(newJob id uri operation submitted).idempotencyKey]? =
      some (newJob id uri operation submitted))
    (hc : first.cold[(newJob id uri operation submitted).idempotencyKey]? = none) :
    Resting first uri (newJob id uri operation submitted).idempotencyKey first := by
  refine ⟨.of_eq rfl rfl rfl rfl (fun m hm => ?_),_,hj,rfl,rfl,fun h => ?_,
    fun _ => ⟨rfl,rfl,rfl,rfl⟩,fun h => ?_,rfl⟩
  · rw [hc] at hm
    cases hm
  · cases h
  · cases h

theorem attempted_comes (h : Resting first uri key w) (hn : first.content.Named)
    {ok : Circumstances → Prop} (owner : Uuid) {ts : ℕ → Circumstances} (ht : ∀ n, ok (ts n)) {job : LifecycleJob}
    (hj : w.journal[key]? = some job) (hc : job.claimable (max w.clock (ts 0).now) = true) :
    Comes first uri key ok w job (attempted libs blake3 key owner w ts).1
    (attempted libs blake3 key owner w ts).2 := by
  unfold attempted
  rw [attempt_eq]
  show Comes first uri key ok w job (Prog.finish (exec libs blake3)
      (attemptAt key owner (exec libs blake3 .now (ts 0) w).1).run (exec libs blake3 .now (ts 0) w).2
        (fun n => ts (n+1))).1
    (Prog.finish (exec libs blake3)
      (attemptAt key owner (exec libs blake3 .now (ts 0) w).1).run (exec libs blake3 .now (ts 0) w).2
        (fun n => ts (n+1))).2
  rw [exec_now,exec_reads (c := .now) trivial]
  have hl : Leaves libs blake3 (Resting first uri key) ok _ _ _ :=
    attemptAt_leaves (h.clock (max w.clock (ts 0).now)) (h.within.named hn) owner (max w.clock (ts 0).now)
  exact ((hl.finish (fun n => ht (n+1))).2 job hj hc).rebase rfl

theorem archives_of_succeeds (hn : first.content.Named)
    (h : Succeeds first uri key left.1 left.2) : Archives key first uri left := by
  obtain ⟨job,m,hj,hs,ho,hc,ha⟩ := h
  obtain ⟨row,hr,he⟩ := mem_of_entryIn hn ha.entry
  exact ⟨job,m,hj,hs,ho,hc,by rw [hr,← he]; rfl⟩

theorem named_run (cfg : BatchWriteConfig) (ops : List SqliteTables.Op) :
    (StateMachine.run (fun st op => SqliteTables.step libs st cfg op) SqliteTables.empty ops).Named :=
  have hs : ∀ (st : SqliteTables) (op : SqliteTables.Op), st.Named → (SqliteTables.step libs st cfg op).Named :=
    fun _ op h => h.step cfg op
  StateMachine.run_preserves hs SqliteTables.named_empty ops

theorem exists_later (job : LifecycleJob) (cold : Option ArchiveManifest) : ∃ T : DateTime, job.nextAttemptAt ≤ T ∧
    (∀ until_, job.leaseUntil = some until_ → until_ ≤ T) ∧ ∀ m, cold = some m → m.createdAt < T := by
  refine ⟨max (max job.nextAttemptAt (job.leaseUntil.getD 0)) ((cold.map (fun m => m.createdAt+1)).getD 0),?_,?_,?_⟩
  · exact (le_max_left _ _).trans (le_max_left _ _)
  · intro until_ hu
    rw [hu]
    exact (le_max_right _ _).trans (le_max_left _ _)
  · intro m hm
    rw [hm]
    exact (Int.lt_succ m.createdAt).trans_le (le_max_right _ _)

theorem claimable_of_later {job : LifecycleJob} {T now : DateTime} (hl : job.state.final = false)
    (he : job.nextAttemptAt ≤ T) (ha : ∀ until_, job.leaseUntil = some until_ → until_ ≤ T) (hn : T ≤ now) :
    job.claimable now = true := by
  unfold LifecycleJob.claimable
  have hal : job.leaseUntil.all (fun until_ => decide (until_ ≤ now)) = true := by
    cases hu : job.leaseUntil with
    | none => rfl
    | some until_ => exact decide_eq_true ((ha until_ hu).trans hn)
  rw [hal,hl,decide_eq_true (he.trans hn)]
  rfl

/-- Every rerun without faults of a job that stopped archives the original, exactly if the manifest can be stored or is
known to be stored, and the content is there or known to be deleted. -/
theorem resume_archives_iff (libraries : StoreLibraries) (blake3 : List ℕ → ContentHash) (config : BatchWriteConfig)
    (ops : List SqliteTables.Op) (id : Uuid) (uri : ContextUri) (operation : LifecycleOperation)
    (submitted : DateTime) (first : Stores)
    (hcontent : first.content = StateMachine.run (fun st op => SqliteTables.step libraries st config op) .empty ops)
    (hjournal : first.journal[(newJob id uri operation submitted).idempotencyKey]? =
      some (newJob id uri operation submitted))
    (hcold : first.cold[(newJob id uri operation submitted).idempotencyKey]? = none)
    (stops : List (Uuid × List Circumstances)) (w : Stores)
    (hw : w = stopped libraries blake3 (newJob id uri operation submitted).idempotencyKey first stops)
    (job : LifecycleJob) (hjob : w.journal[(newJob id uri operation submitted).idempotencyKey]? = some job)
    (hleft : job.state.final = false) :
    (∀ (owner : Uuid) (ts : ℕ → Circumstances), (∀ n, (ts n).Healthy) → job.claimable (max w.clock (ts 0).now) = true →
        Archives (newJob id uri operation submitted).idempotencyKey first uri
          (attempted libraries blake3 (newJob id uri operation submitted).idempotencyKey owner w ts)) ↔
      Doable w uri (newJob id uri operation submitted).idempotencyKey job := by
  generalize hk : (newJob id uri operation submitted).idempotencyKey = key at hjournal hcold hw hjob ⊢
  have hn : first.content.Named := by
    rw [hcontent]
    exact named_run config ops
  have hr : Resting first uri key w := by
    subst hw hk
    exact stopped_resting (newJob_resting hjournal hcold) hn stops
  constructor
  · intro ha
    obtain ⟨T, he, hlea, hla⟩ := exists_later job w.cold[key]?
    have hc : job.claimable (max w.clock T) = true := claimable_of_later hleft he hlea (le_max_right _ _)
    have ho : Comes first uri key (fun t => t = ⟨T, none, none⟩) w job _ _ :=
      @attempted_comes libraries blake3 key first w uri hr hn (fun t => t = ⟨T, none, none⟩) 0
        (fun _ => ⟨T, none, none⟩)
        (fun _ => rfl) job hjob hc
    obtain ⟨job', m, hs, hst, -⟩ := ha 0 (fun _ => ⟨T, none, none⟩) (fun _ => ⟨rfl, rfl⟩) hc
    obtain ⟨hm, hcontent⟩ := ho.achieved ⟨job', hs, hst⟩
    refine ⟨fun hu => ⟨?_, (hm hu).readable⟩, hcontent⟩
    cases hl : w.cold[key]? with
    | none => rfl
    | some old =>
      obtain ⟨t, rfl, hle⟩ := (hm hu).later old hl
      exact absurd hle (not_le_of_gt (hla old hl))
  · intro hd owner ts hts hc
    have ho := @attempted_comes libraries blake3 key first w uri hr hn Circumstances.Healthy owner ts
      hts job hjob hc
    rcases ho.excused with hsu | ⟨t, ht, hno⟩ | hno
    · exact archives_of_succeeds hn hsu
    · exact absurd ht hno
    · exact absurd hd hno

end Attempts

def sampleOps : List SqliteTables.Op := [.write (.newText sampleUri 0 "item" 5) 7]

def archiveStores : Stores :=
  { pendingStores with content := StateMachine.run (fun st op => SqliteTables.step sampleLibraries st .standard op) .empty sampleOps }

/-- An attempt stops after `calls` calls. -/
def archiveStopped (calls : ℕ) : Stores :=
  stopped sampleLibraries (fun _ => "") (newJob 1 sampleUri .archive 0).idempotencyKey archiveStores
    [(1, List.replicate calls (calm 2))]

def startedJob : LifecycleJob :=
  ((archiveStopped 4).journal[(newJob 1 sampleUri .archive 0).idempotencyKey]?).getD (newJob 1 sampleUri .archive 0)

theorem resume_archives_sample :
    (∀ (owner : Uuid) (ts : ℕ → Circumstances), (∀ n, (ts n).Healthy) →
      startedJob.claimable (max (archiveStopped 4).clock (ts 0).now) = true →
        Archives (newJob 1 sampleUri .archive 0).idempotencyKey archiveStores sampleUri
        (attempted sampleLibraries (fun _ => "")
          (newJob 1 sampleUri .archive 0).idempotencyKey owner (archiveStopped 4) ts)) ↔
      Doable (archiveStopped 4) sampleUri (newJob 1 sampleUri .archive 0).idempotencyKey startedJob := by
  obtain ⟨hs, hl⟩ : ((archiveStopped 4).journal[(newJob 1 sampleUri .archive 0).idempotencyKey]?).isSome = true ∧
      startedJob.state.final = false := by decide +kernel
  have hj : (archiveStopped 4).journal[(newJob 1 sampleUri .archive 0).idempotencyKey]? = some startedJob := by
    obtain ⟨job, hj⟩ := Option.isSome_iff_exists.mp hs
    simp only [startedJob, hj, Option.getD_some]
  exact resume_archives_iff sampleLibraries (fun _ => "") .standard sampleOps 1 sampleUri .archive 0 archiveStores rfl
    Std.ExtTreeMap.getElem?_insert_self rfl [(1, List.replicate 4 (calm 2))] (archiveStopped 4) rfl startedJob hj hl

/-- The next attempt, 38 seconds after one that stopped after `calls` calls. -/
def sampleRerun (calls : ℕ) : Except ContextError (Option LifecycleJob) × Stores :=
  attempted sampleLibraries (fun _ => "") (newJob 1 sampleUri .archive 0).idempotencyKey 2
    (archiveStopped calls) (fun _ => calm 40)

def stateAfter (left : Except ContextError (Option LifecycleJob) × Stores) : Option LifecycleJobState :=
  (left.1.toOption.join).map (·.state)

theorem not_archives_of_state {first : Stores} {uri : ContextUri} {key : String} (h : stateAfter left ≠ some .succeeded) :
    ¬ Archives key first uri left := by
  rintro ⟨job,m,hj,hs,-⟩
  refine h ?_
  rw [stateAfter,hj,← hs]
  rfl

def claimableAfter (calls : ℕ) : Bool :=
  ((archiveStopped calls).journal[(newJob 1 sampleUri .archive 0).idempotencyKey]?).any
    (fun job => job.claimable (max (archiveStopped calls).clock (calm 40).now))

/-- The first attempt stops between the storing of the manifest and its checkpoint, or between the deletion of the content
and its checkpoint: the job can be claimed again, and does not succeed. -/
theorem interrupted_fails :
    (claimableAfter 9 = true ∧
      ¬ Archives (newJob 1 sampleUri .archive 0).idempotencyKey archiveStores sampleUri (sampleRerun 9)) ∧
      claimableAfter 15 = true ∧
      ¬ Archives (newJob 1 sampleUri .archive 0).idempotencyKey archiveStores sampleUri (sampleRerun 15) := by
  obtain ⟨hm, hf, hc, hf'⟩ : claimableAfter 9 = true ∧ stateAfter (sampleRerun 9) ≠ some .succeeded ∧
      claimableAfter 15 = true ∧ stateAfter (sampleRerun 15) ≠ some .succeeded := by decide +kernel
  exact ⟨⟨hm, not_archives_of_state hf⟩, hc, not_archives_of_state hf'⟩

end UwuContextDb.Lifecycle
