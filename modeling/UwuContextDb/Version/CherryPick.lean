import UwuContextDb.Library.ThreeWay
import UwuContextDb.Version.SqliteHistory

/-! Cherry-pick as a three-way merge. The pick session works on payloads, so every value of the
result passes through `ContentPayload`; a value that is more than a payload is lost. -/

namespace UwuContextDb.Version

open MapEdit StateMachine ThreeWay

def throughPayload (v : Option Json) : Option Json := (rawToPayload v).map ContentPayload.toValue

theorem getElem?_payloadEntries (s : Snapshot) (u : String) :
    (payloadEntriesToSnapshot (snapshotToPayloadEntries s))[u]? = throughPayload s[u]? := by
  let edits : List (String × Edit String Json) :=
    (snapshotToPayloadEntries s).map (fun e => (e.1, .put e.2.toValue))
  have hre : payloadEntriesToSnapshot (snapshotToPayloadEntries s) = replay ∅ edits := by
    simp [payloadEntriesToSnapshot,replay,edits,List.foldl_map,apply]
  have hm : ∀ k w, (k, w) ∈ edits ↔ ∃ p, rawToPayload s[k]? = some p ∧ w = .put p.toValue := by
    intro k w
    simp only [edits,snapshotToPayloadEntries,List.mem_map,List.mem_filterMap,Prod.exists,Prod.mk.injEq,
      Std.ExtTreeMap.mem_toList_iff_getElem?_eq_some,rawToPayload]
    constructor
    · rintro ⟨l,p,⟨l',raw,hr,hp⟩,rfl,rfl⟩
      obtain ⟨p',hp',heq⟩ := Option.map_eq_some_iff.mp hp
      obtain ⟨rfl,rfl⟩ := Prod.mk.inj heq
      exact ⟨p',by rw [hr]; exact hp',rfl⟩
    · rintro ⟨p,hp,rfl⟩
      obtain ⟨raw,hr,hp⟩ := Option.bind_eq_some_iff.mp hp
      exact ⟨k,p,⟨k,raw,hr,by rw [hp]; rfl⟩,rfl,rfl⟩
  have hi : ∀ e ∈ edits, e.2.isWrite = true := by
    rintro ⟨k,w⟩ he
    obtain ⟨p,-,rfl⟩ := (hm k w).mp he
    rfl
  rw [hre,getElem?_replay_writes hi,throughPayload]
  cases hp : rawToPayload s[u]? with
  | none =>
    have hn : lastEdit edits u = none := by
      refine lastEdit_eq_none.mpr (fun w hw => ?_)
      obtain ⟨p,hp',-⟩ := (hm u w).mp hw
      simp [hp] at hp'
    simp [hn]
  | some p =>
    have hl : lastEdit edits u = some (.put p.toValue) := by
      refine (lastEdit_eq_some_iff (fun k w w' hw hw' => ?_)).mpr ((hm u _).mpr ⟨p,hp,rfl⟩)
      obtain ⟨q,hq,rfl⟩ := (hm k w).mp hw
      obtain ⟨q',hq',rfl⟩ := (hm k w').mp hw'
      rw [Option.some.inj (hq.symm.trans hq')]
    simp [hl,Edit.written]

theorem getElem?_applyDeltas_filter (base dst target : Snapshot) (p : String → Bool) (u : String) :
    (applyDeltas target ((diffSnapshots base dst).filter (fun d => p d.uri)))[u]? =
      if p u = true ∧ dst[u]? ≠ base[u]? then dst[u]? else target[u]? := by
  let edits : List (String × Edit String Json) :=
    ((diffSnapshots base dst).filter (fun d => p d.uri)).map DeltaRow.edit
  have hm : ∀ k w, (k, w) ∈ edits ↔ p k = true ∧ (k, w) ∈ (diffSnapshots base dst).map DeltaRow.edit := by
    intro k w
    simp only [edits,List.mem_map,List.mem_filter]
    constructor
    · rintro ⟨d,⟨hd,hp⟩,he⟩
      obtain ⟨rfl,-⟩ := Prod.mk.inj he
      exact ⟨hp,d,hd,he⟩
    · rintro ⟨hp,d,hd,he⟩
      obtain ⟨rfl,-⟩ := Prod.mk.inj he
      exact ⟨d,⟨hd,hp⟩,he⟩
  have hr : ∀ e ∈ edits, e.2.isWrite = true := by
    rintro ⟨k,w⟩ he
    rcases mem_diffSnapshots.mp ((hm k w).mp he).2 with ⟨v,rfl,-⟩ | ⟨rfl,-⟩ <;> rfl
  have hi : ∀ w, (u, w) ∈ edits → w.written = dst[u]? := by
    intro w hw
    rcases mem_diffSnapshots.mp ((hm u w).mp hw).2 with ⟨v,rfl,hv,-⟩ | ⟨rfl,hn,-⟩
    · exact hv.symm
    · exact hn.symm
  rw [applyDeltas_eq_replay,getElem?_replay_writes hr]
  cases hl : lastEdit edits u with
  | some w =>
    obtain ⟨hp,hd⟩ := (hm u w).mp (mem_of_lastEdit hl)
    have hne : dst[u]? ≠ base[u]? := by
      rcases mem_diffSnapshots.mp hd with ⟨v,-,hv,hb⟩ | ⟨-,hn,hb⟩
      · rw [hv]
        exact Ne.symm hb
      · rw [hn]
        exact fun hb' => absurd hb (by simpa using hb'.symm)
    rw [if_pos ⟨hp,hne⟩]
    exact hi w (mem_of_lastEdit hl)
  | none =>
    have ho := lastEdit_eq_none.mp hl
    rw [if_neg]
    rintro ⟨hp,hne⟩
    cases hd : dst[u]? with
    | some v =>
      rw [hd] at hne
      exact ho (.put v) ((hm u _).mpr ⟨hp,mem_diffSnapshots.mpr (.inl ⟨v,rfl,hd,Ne.symm hne⟩)⟩)
    | none =>
      rw [hd] at hne
      exact ho .drop ((hm u _).mpr ⟨hp,mem_diffSnapshots.mpr (.inr ⟨rfl,hd,by simpa using Ne.symm hne⟩)⟩)

namespace SqliteVersionStore

def Parses (uri : String) : Prop := (ContextUri.parse uri).toOption.isSome = true

instance (uri : String) : Decidable (Parses uri) := by
  unfold Parses
  infer_instance

def pickSide (strategy : ConflictStrategy) (target commit : Option Json) : Option Json :=
  match strategy with
  | .theirs => commit
  | .ours => target
  | .fail => target

def pickValue (strategy : ConflictStrategy) (base target commit : Snapshot) (uri : String) : Option Json :=
  choose (pickSide strategy target[uri]? commit[uri]?) base[uri]? target[uri]? commit[uri]?

section Session

variable {base commit target : Snapshot} {strategy : ConflictStrategy} {uri : String}

theorem isConflict_iff : (isConflict base commit target uri = true ∧ commit[uri]? ≠ base[uri]?) ↔
    Conflict base[uri]? target[uri]? commit[uri]? := by
  simp only [isConflict,Bool.decide_and,Bool.and_eq_true,decide_eq_true_eq,Conflict]
  tauto

variable {c : ConflictItem} {conflicts : List ConflictItem}

theorem conflictItem_eq_some (h : conflictItem base commit target uri = some c) :
    Parses uri ∧ c.uri.canonical = uri ∧ c.ours = rawToPayload target[uri]? ∧ c.theirs = rawToPayload commit[uri]? := by
  unfold conflictItem at h
  split at h
  · cases h
  · rename_i u hu
    cases h
    exact ⟨by simp [Parses,hu,Except.toOption],ContextUri.parse_canonical hu,rfl,rfl⟩

theorem conflictItem_isSome (h : Parses uri) : ∃ c, conflictItem base commit target uri = some c := by
  unfold Parses at h
  unfold conflictItem
  cases hu : ContextUri.parse uri with
  | error e => simp [hu,Except.toOption] at h
  | ok u => exact ⟨_,rfl⟩

theorem pickConflicts_item (h : c ∈ pickConflicts base commit target) :
    conflictItem base commit target c.uri.canonical = some c := by
  simp only [pickConflicts,List.mem_filterMap] at h
  obtain ⟨d,-,hc⟩ := h
  rwa [(conflictItem_eq_some hc).2.1]

theorem mem_pickConflicts : (∃ c ∈ pickConflicts base commit target, c.uri.canonical = uri) ↔
    Conflict base[uri]? target[uri]? commit[uri]? ∧ Parses uri := by
  simp only [pickConflicts,List.mem_filterMap,List.mem_filter]
  constructor
  · rintro ⟨c,⟨d,⟨hd,ho⟩,hc⟩,rfl⟩
    obtain ⟨hp,ha,-⟩ := conflictItem_eq_some hc
    have hn := exists_diffSnapshots.mp ⟨d.op.edit,List.mem_map_of_mem hd⟩
    rw [ha]
    exact ⟨isConflict_iff.mp ⟨ho,hn⟩,hp⟩
  · rintro ⟨ho,hp⟩
    obtain ⟨hi,hn⟩ := isConflict_iff.mpr ho
    obtain ⟨w,hw⟩ := exists_diffSnapshots.mpr hn
    obtain ⟨d,hd,he⟩ := List.mem_map.mp hw
    obtain ⟨rfl,-⟩ := Prod.mk.inj he
    obtain ⟨c,hc⟩ := conflictItem_isSome hp
    exact ⟨c,⟨d,⟨hd,hi⟩,hc⟩,(conflictItem_eq_some hc).2.1⟩

theorem getElem?_strategyResolutions (h : c ∈ conflicts) :
    (strategyResolutions strategy conflicts)[c.uri.canonical]? = some (strategyResolution strategy) := by
  have hf : ∀ (cs : List ConflictItem) (init : ConflictResolutionSet) (k : String),
      (init[k]? = some (strategyResolution strategy) ∨ ∃ c ∈ cs, c.uri.canonical = k) →
      (cs.foldl (fun set c => set.insert c.uri.canonical (strategyResolution strategy)) init)[k]? =
        some (strategyResolution strategy) := by
    intro cs
    induction cs with
    | nil =>
      intro init k hk
      simpa using hk
    | cons c' cs ih =>
      intro init k hk
      refine ih _ k ?_
      by_cases hck : c'.uri.canonical = k
      · exact .inl (by simp [hck])
      · rcases hk with hk | ⟨c,hc,rfl⟩
        · exact .inl (by simp [Std.ExtTreeMap.getElem?_insert,hck,hk])
        · rcases List.mem_cons.mp hc with rfl | hc
          · exact absurd rfl hck
          · exact .inr ⟨c,hc,rfl⟩
  exact hf conflicts ∅ _ (.inr ⟨c,h,rfl⟩)

theorem resolveConflicts_pick (strategy : ConflictStrategy) {resolutions : ConflictResolutionSet}
    (hi : ∀ c ∈ conflicts, conflictItem base commit target c.uri.canonical = some c)
    (hr : ∀ c ∈ conflicts, resolutions[c.uri.canonical]? = some (strategyResolution strategy)) (s : Snapshot) :
    ∃ s', resolveConflicts resolutions conflicts s = .ok s' ∧ ∀ u, s'[u]? =
      if ∃ c ∈ conflicts, c.uri.canonical = u then throughPayload (pickSide strategy target[u]? commit[u]?)
      else s[u]? := by
  induction conflicts generalizing s with
  | nil => exact ⟨s,rfl,by simp⟩
  | cons c conflicts ih =>
    have hc := hr c (by simp)
    obtain ⟨-,-,ho,ht⟩ := conflictItem_eq_some (hi c (by simp))
    have hv : (strategyResolution strategy).value c =
        throughPayload (pickSide strategy target[c.uri.canonical]? commit[c.uri.canonical]?) := by
      cases strategy <;> simp [strategyResolution,ConflictResolution.value,pickSide,throughPayload,ho,ht]
    obtain ⟨s',hs',hg⟩ := ih (fun c' hc' => hi c' (by simp [hc'])) (fun c' hc' => hr c' (by simp [hc']))
      (setValue s c.uri.canonical ((strategyResolution strategy).value c))
    refine ⟨s',by simp [resolveConflicts,hc,hs'],fun u => ?_⟩
    rw [hg,getElem?_setValue,hv]
    by_cases hu : c.uri.canonical = u
    · simp [hu]
    · simp [hu]

def pickedValue (strategy : ConflictStrategy) (base target commit : Snapshot) (uri : String) : Option Json :=
  throughPayload (pickValue (if Parses uri then strategy else .ours) base target commit uri)

theorem getElem?_cleanSnapshot (u : String) : (cleanSnapshot base commit target)[u]? =
    if isConflict base commit target u = false ∧ commit[u]? ≠ base[u]? then commit[u]? else target[u]? := by
  have h := getElem?_applyDeltas_filter base commit target (fun uri => !isConflict base commit target uri) u
  unfold cleanSnapshot
  simpa only [Bool.not_eq_true'] using h

theorem applySessionResolutions_pick (strategy : ConflictStrategy) {ses : ConflictSession}
    (hf : ses.conflicts = pickConflicts base commit target)
    (hl : ses.cleanSnapshot = snapshotToPayloadEntries (cleanSnapshot base commit target)) :
    ∃ snap, applySessionResolutions ses (strategyResolutions strategy ses.conflicts) = .ok snap ∧
      ∀ u, snap[u]? = pickedValue strategy base target commit u := by
  have ht : ∀ c ∈ ses.conflicts, conflictItem base commit target c.uri.canonical = some c :=
    fun c hc => pickConflicts_item (hf ▸ hc)
  obtain ⟨snap,hs,hg⟩ := resolveConflicts_pick strategy ht
    (fun c hc => getElem?_strategyResolutions hc) (payloadEntriesToSnapshot ses.cleanSnapshot)
  refine ⟨snap,hs,fun u => ?_⟩
  rw [hg,hl,getElem?_payloadEntries,hf,getElem?_cleanSnapshot,pickedValue,pickValue]
  simp only [mem_pickConflicts]
  by_cases hc : Conflict base[u]? target[u]? commit[u]?
  · obtain ⟨hi,hn⟩ := isConflict_iff.mpr hc
    rw [choose_of_conflict hc]
    by_cases hp : Parses u
    · rw [if_pos ⟨hc,hp⟩,if_pos hp]
    · rw [if_neg (fun h => hp h.2),if_neg hp,hi]
      rfl
  · have hno : ¬ (Conflict base[u]? target[u]? commit[u]? ∧ Parses u) := fun h => hc h.1
    rw [choose_of_not_conflict hc,if_neg hno]
    by_cases hn : commit[u]? = base[u]?
    · rw [if_pos hn,if_neg (fun h => h.2 hn)]
    · have hi : isConflict base commit target u = false := by
        by_contra ho
        exact hc (isConflict_iff.mp ⟨by simpa using ho,hn⟩)
      rw [if_neg hn,if_pos ⟨hi,hn⟩]

end Session

variable {st st' : SqliteVersionStore} {order : RowOrder} {scope : ContextUri} {commit target new : CommitId}
  {onto : BranchName} {strategy : ConflictStrategy} {now : DateTime}

theorem commitCherryPickSnapshot_isOk (ord : RowOrder) (commit : CommitId) (finalSnap : Snapshot) (now : DateTime)
    (ht : target ∈ st.commits)
    (hb : st.branchHead scope.canonical onto = .ok target) :
    ∃ st', st.commitCherryPickSnapshot ord scope commit target (some onto) finalSnap now = .ok (st.nextId, st') := by
  obtain ⟨b,hr,he⟩ := branchHead_ok hb
  have hp : ¬ ∃ p ∈ [target], p ∉ st.commits := by simpa using ht
  simp only [commitCherryPickSnapshot,insertCommit,hp,List.nodup_singleton,not_true_eq_false,if_false,bind,
    Except.bind,updateBranchHead,casBranch,hr,he,if_true]
  split <;> exact ⟨_,rfl⟩

theorem reconstruct_picked {ontoBranch : Option BranchName} {finalSnap : Snapshot} (hs : st.WellFormed)
    (h : st.commitCherryPickSnapshot order scope commit target ontoBranch finalSnap now = .ok (new, st')) :
    st'.reconstructSnapshot order new = finalSnap := by
  obtain ⟨rfl,ht,row,-,hp,-,hd,hm⟩ := commitCherryPickSnapshot_ok h
  obtain ⟨hc,hk,hn⟩ := hm.refs
  rw [reconstructSnapshot_congr hc hk hn]
  exact reconstructSnapshot_new hs (by simpa [hp] using ht) (by rw [hp]; exact hd)

/-- The pick is refused: under `Fail`, at a conflict the session lists. -/
def PickRefused (strategy : ConflictStrategy) (base ours theirs : Snapshot) : Prop :=
  strategy = .fail ∧ ∃ u : String, Conflict base[u]? ours[u]? theirs[u]? ∧ Parses u

section ThreeWay

variable (st order scope commit onto strategy now)

/-- Cherry-pick as it should be: refused under `Fail` at a conflict, and otherwise the three-way merge
of the target with the change of the commit over its first parent. -/
def PicksThreeWay (services : Services) : Prop :=
  ∀ target, st.branchHead scope.canonical onto = .ok target →
    let base := st.baseSnapshot order (st.firstParent commit)
    let theirs := st.reconstructSnapshot order commit
    let ours := st.reconstructSnapshot order target
    ((strategy = .fail ∧ ∃ u : String, Conflict base[u]? ours[u]? theirs[u]?) →
      (∃ e, st.cherryPick order scope commit onto strategy now = .error e) ∧
        st.step services (.cherryPick order scope commit onto strategy now) = st) ∧
    ∀ new st', st.cherryPick order scope commit onto strategy now = .ok (new, st') →
      ∀ u : String, (st'.reconstructSnapshot order new)[u]? = pickValue strategy base ours theirs u

/-- The condition under which it is: at a conflict under `Fail`, some conflicting URI parses; else the
value picked at every URI survives the conversion to a payload. -/
def PickSurvives : Prop :=
  ∀ target, st.branchHead scope.canonical onto = .ok target → st.InScope commit scope.canonical →
    st.InScope target scope.canonical →
    let base := st.baseSnapshot order (st.firstParent commit)
    let theirs := st.reconstructSnapshot order commit
    let ours := st.reconstructSnapshot order target
    PickRefused strategy base ours theirs ∨
      (strategy = .fail → ∀ u : String, ¬ Conflict base[u]? ours[u]? theirs[u]?) ∧
        ∀ u : String, throughPayload (pickValue (if Parses u then strategy else .ours) base ours theirs u) =
          pickValue strategy base ours theirs u

end ThreeWay

theorem cherryPick_ok (hst : st.WellFormed) (h : st.cherryPick order scope commit onto strategy now = .ok (new, st')) :
    ∃ target, st.branchHead scope.canonical onto = .ok target ∧ st.InScope commit scope.canonical ∧
      st.InScope target scope.canonical ∧
      ¬ PickRefused strategy (st.baseSnapshot order (st.firstParent commit)) (st.reconstructSnapshot order target)
        (st.reconstructSnapshot order commit) ∧
      ∀ u, (st'.reconstructSnapshot order new)[u]? = pickedValue strategy
        (st.baseSnapshot order (st.firstParent commit)) (st.reconstructSnapshot order target)
        (st.reconstructSnapshot order commit) u := by
  simp only [cherryPick,bind_eq_ok] at h
  obtain ⟨target,hb,h⟩ := h
  obtain ⟨ses,snap,hs,hf,hn,hm⟩ := cherryPickAtBranch_ok h
  obtain ⟨hc,ht,ho,hl⟩ := buildCherryPickSession_ok hs
  refine ⟨target,hb,hc,ht,?_,?_⟩
  · rintro ⟨hr,u,hu⟩
    obtain ⟨c,hc,-⟩ := mem_pickConflicts.mpr hu
    exact hf ⟨hr,List.ne_nil_of_mem (ho ▸ hc)⟩
  · obtain ⟨snap',hn',hg⟩ := applySessionResolutions_pick strategy ho hl
    obtain rfl := Except.ok.inj (hn.symm.trans hn')
    rw [reconstruct_picked hst hm]
    exact hg

theorem cherryPick_isOk (now : DateTime) (hb : st.branchHead scope.canonical onto = .ok target)
    (hc : st.InScope commit scope.canonical) (ht : st.InScope target scope.canonical)
    (hk : ¬ PickRefused strategy (st.baseSnapshot order (st.firstParent commit))
      (st.reconstructSnapshot order target) (st.reconstructSnapshot order commit)) :
    ∃ st', st.cherryPick order scope commit onto strategy now = .ok (st.nextId, st') := by
  obtain ⟨ses,hs⟩ := buildCherryPickSession_isOk order ((some onto).getD commitName) 0 hc ht
  obtain ⟨-,-,ho,hl⟩ := buildCherryPickSession_ok hs
  obtain ⟨snap,hn,-⟩ := applySessionResolutions_pick strategy ho hl
  obtain ⟨st',hst'⟩ := commitCherryPickSnapshot_isOk order commit snap now ht.mem hb
  have hf : (strategy ≠ .fail || (ses.conflicts.map (fun c => c.uri.canonical)).isEmpty) = true := by
    by_cases hr : strategy = .fail
    · have hi : ses.conflicts = [] := by
        by_contra he
        obtain ⟨c,hm⟩ := List.exists_mem_of_ne_nil _ he
        exact hk ⟨hr,c.uri.canonical,mem_pickConflicts.mp ⟨c,ho ▸ hm,rfl⟩⟩
      simp [hi]
    · simp [hr]
  refine ⟨st',?_⟩
  simp only [cherryPick,hb,cherryPickAtBranch,hs,ensure,hf,hn,hst',bind,Except.bind,if_true]

/-- In every store a run reaches, a cherry-pick is the three-way merge exactly when nothing it picks is
lost in the conversion. -/
theorem cherryPick_threeWay_iff (services : Services) (ops : List SqliteOp) (order : RowOrder) (scope : ContextUri)
    (commit : CommitId) (onto : BranchName) (strategy : ConflictStrategy) (now : DateTime) :
    (run (step services) empty ops).PicksThreeWay order scope commit onto strategy now services ↔
      (run (step services) empty ops).PickSurvives order scope commit onto strategy := by
  have hs := run_wellFormed services ops
  generalize run (step services) empty ops = st at hs
  constructor
  · intro h target hb hc ht
    obtain ⟨hrf, hm⟩ := h target hb
    by_cases ho : PickRefused strategy (st.baseSnapshot order (st.firstParent commit))
      (st.reconstructSnapshot order target) (st.reconstructSnapshot order commit)
    · exact .inl ho
    · obtain ⟨st', hs'⟩ := cherryPick_isOk now hb hc ht ho
      refine .inr ⟨fun hr u hu => ?_, fun u => ?_⟩
      · obtain ⟨⟨e, he⟩, -⟩ := hrf ⟨hr, u, hu⟩
        rw [he] at hs'
        cases hs'
      · obtain ⟨target', hb', -, -, -, hg⟩ := cherryPick_ok hs hs'
        obtain rfl := Except.ok.inj (hb.symm.trans hb')
        exact (hg u).symm.trans (hm _ _ hs' u)
  · intro h target hb
    refine ⟨fun hn => ?_, fun new st' hs' => ?_⟩
    · cases hp : st.cherryPick order scope commit onto strategy now with
      | error e => exact ⟨⟨e, rfl⟩, by simp [step, afterTx, hp, Outcome.ofTx]⟩
      | ok r =>
        obtain ⟨target', hb', hc, ht, ho, -⟩ := cherryPick_ok hs hp
        obtain rfl := Except.ok.inj (hb.symm.trans hb')
        obtain ⟨hr, u, hu⟩ := hn
        rcases h target hb hc ht with hf | ⟨hno, -⟩
        · exact absurd hf ho
        · exact absurd hu (hno hr u)
    · obtain ⟨target', hb', hc, ht, ho, hg⟩ := cherryPick_ok hs hs'
      obtain rfl := Except.ok.inj (hb.symm.trans hb')
      rcases h target hb hc ht with hf | ⟨-, hk⟩
      · exact absurd hf ho
      · exact fun u => (hg u).trans (hk u)

theorem cherryPick_not_threeWay :
    ¬ ∀ (services : Services) (ops : List SqliteOp) (order : RowOrder) (scope : ContextUri) (commit : CommitId)
      (onto : BranchName) (strategy : ConflictStrategy) (now : DateTime),
      (run (step services) empty ops).PicksThreeWay order scope commit onto strategy now services := by
  intro h
  have hp := h sampleServices aheadOps .asStored sampleScope 1 mainBranch .ours 2 0 rfl
  have hk := hp.2 2 ((run (step sampleServices) empty aheadOps).step sampleServices
    (.cherryPick .asStored sampleScope 1 mainBranch .ours 2)) rfl "uwu://t/a"
  exact absurd hk (by decide)

end SqliteVersionStore
end UwuContextDb.Version
