import Mathlib.Data.List.Induction
import Mathlib.Data.List.Pairwise
import UwuContextDb.Library.BinarySearch
import UwuContextDb.Version.Model

/-! `TemporalIndex`: the recorded versions of every URI in the order of their transaction times, and the queries over both
time axes. -/

namespace UwuContextDb.Version

open BinarySearch
open List (pairwise_cons filter_eq_nil_iff nil_append mem_cons mem_filter mem_append filter_sublist append_nil
  filter_filter)

/-- A recorded version: `timestamp` is its transaction time, `validFrom` and `validUntil` bound its valid time. -/
structure TemporalVersion where
  commitId : CommitId
  timestamp : DateTime
  contentHash : ContentHash
  validFrom : DateTime
  validUntil : Option DateTime
  deriving DecidableEq

structure BitemporalQuery where
  validAt : DateTime
  transactionAt : DateTime

structure BitemporalRange where
  validFrom : DateTime
  validTo : DateTime
  transactionFrom : DateTime
  transactionTo : DateTime

namespace TemporalVersion

def validAt (v : TemporalVersion) (t : DateTime) : Bool :=
  v.validFrom ≤ t && v.validUntil.all (fun end_ => decide (t < end_))

def validOverlaps (v : TemporalVersion) (from_ to_ : DateTime) : Bool :=
  v.validFrom ≤ to_ && v.validUntil.all (fun end_ => decide (from_ ≤ end_))

def knownIn (v : TemporalVersion) (from_ to_ : DateTime) : Bool := from_ ≤ v.timestamp && v.timestamp ≤ to_

end TemporalVersion

structure TemporalIndex where
  timelines : Std.ExtTreeMap String (List TemporalVersion)

namespace TemporalIndex

def empty : TemporalIndex := ⟨∅⟩

/-- `timeline.insert(pos, version)`, at the position a binary search gives. -/
def insertVersion (timeline : List TemporalVersion) (version : TemporalVersion) : List TemporalVersion :=
  let pos := position (binarySearchBy (fun v => compare v.timestamp version.timestamp) timeline)
  timeline.take pos ++ version::timeline.drop pos

def record (index : TemporalIndex) (uri : ContextUri) (version : TemporalVersion) : TemporalIndex :=
  ⟨index.timelines.insert uri.canonical (insertVersion ((index.timelines[uri.canonical]?).getD []) version)⟩

def recordAll (records : List (ContextUri × TemporalVersion)) : TemporalIndex :=
  records.foldl (fun index r => index.record r.1 r.2) empty

section Queries

variable (index : TemporalIndex) (uri : ContextUri)

def evolution : List TemporalVersion := (index.timelines[uri.canonical]?).getD []

def transactionAsOf (t : DateTime) : Option TemporalVersion :=
  match index.timelines[uri.canonical]? with
  | none => none
  | some timeline =>
    let pos := partitionPoint (fun v => v.timestamp ≤ t) timeline
    if pos = 0 then none else timeline[pos - 1]?

def asOf (t : DateTime) : Option TemporalVersion := index.transactionAsOf uri t

def bitemporalAsOf (query : BitemporalQuery) : Option TemporalVersion :=
  match index.timelines[uri.canonical]? with
  | none => none
  | some timeline =>
    let pos := partitionPoint (fun v => v.timestamp ≤ query.transactionAt) timeline
    (timeline.take pos).reverse.find? (fun v => v.validAt query.validAt)

def between (from_ to_ : DateTime) : List TemporalVersion :=
  match index.timelines[uri.canonical]? with
  | none => []
  | some timeline => timeline.filter (fun v => v.knownIn from_ to_)

def bitemporalBetween (range : BitemporalRange) : List TemporalVersion :=
  match index.timelines[uri.canonical]? with
  | none => []
  | some timeline =>
    let start := partitionPoint (fun v => v.timestamp < range.transactionFrom) timeline
    ((timeline.drop start).takeWhile (fun v => v.timestamp ≤ range.transactionTo)).filter
      (fun v => v.validOverlaps range.validFrom range.validTo)

end Queries

def recorded (records : List (ContextUri × TemporalVersion)) (uri : ContextUri) : List TemporalVersion :=
  (records.filter (fun r => r.1.canonical = uri.canonical)).map Prod.snd

abbrev Ordered (timeline : List TemporalVersion) : Prop := timeline.Pairwise (fun a b => a.timestamp ≤ b.timestamp)

def block (versions : List TemporalVersion) (t : DateTime) : List TemporalVersion :=
  versions.filter (fun v => v.timestamp = t)

def firstLast (versions : List TemporalVersion) : List TemporalVersion := versions.drop 1 ++ versions.take 1

/-- What a timeline is in terms of what was recorded: sorted, and of equal times the first recorded stands last. -/
structure Timeline (versions timeline : List TemporalVersion) : Prop where
  ordered : Ordered timeline
  perm : timeline.Perm versions
  blocks : ∀ t, block timeline t = firstLast (block versions t)

section Insertion

variable {timeline versions : List TemporalVersion} {t : DateTime}

theorem Ordered.split (h : Ordered timeline) (t : DateTime) :
    timeline = timeline.filter (fun v => v.timestamp < t) ++ block timeline t ++
    timeline.filter (fun v => t < v.timestamp) := by
  induction timeline with
  | nil => rfl
  | cons v timeline ih =>
    obtain ⟨hv,ht⟩ := pairwise_cons.mp h
    have ih := ih ht
    rcases lt_trichotomy v.timestamp t with hl | hq | hg
    · have hne : v.timestamp ≠ t := ne_of_lt hl
      have hn : ¬ t < v.timestamp := not_lt_of_gt hl
      unfold block at ih ⊢
      simp only [List.filter_cons,hl,hne,hn,decide_true,decide_false,if_true,Bool.false_eq_true,
        if_false,List.cons_append]
      rw [← ih]
    · have hb : timeline.filter (fun v => v.timestamp < t) = [] := by
        apply filter_eq_nil_iff.mpr
        intro w hw
        simpa using hq ▸ hv w hw
      unfold block at ih ⊢
      rw [hb] at ih
      simp only [List.filter_cons,hq,lt_irrefl,decide_true,decide_false,if_true,Bool.false_eq_true,if_false,hb,
        nil_append,List.cons_append] at ih ⊢
      rw [← ih]
    · have he : ∀ w ∈ v::timeline, t < w.timestamp := by
        intro w hw
        rcases mem_cons.mp hw with rfl | hw
        · exact hg
        · exact hg.trans_le (hv w hw)
      have hb : (v::timeline).filter (fun v => v.timestamp < t) = [] := by
        apply filter_eq_nil_iff.mpr
        intro w hw
        simpa using (he w hw).le
      have hu : block (v::timeline) t = [] := by
        apply filter_eq_nil_iff.mpr
        intro w hw
        simpa using (he w hw).ne'
      have ha : (v::timeline).filter (fun v => t < v.timestamp) = v::timeline := by
        apply List.filter_eq_self.mpr
        intro w hw
        simpa using he w hw
      rw [hb,hu,ha]
      rfl

theorem insertVersion_eq (h : Ordered timeline) (v : TemporalVersion) : insertVersion timeline v =
    timeline.filter (fun w => w.timestamp < v.timestamp) ++
      ((block timeline v.timestamp).dropLast++v::(block timeline v.timestamp).getLast?.toList) ++
      timeline.filter (fun w => v.timestamp < w.timestamp) := by
  have hs := h.split v.timestamp
  have he := @binarySearchBy_eq _ (fun w : TemporalVersion => compare w.timestamp v.timestamp)
    (timeline.filter (fun w => w.timestamp < v.timestamp)) (block timeline v.timestamp)
    (timeline.filter (fun w => v.timestamp < w.timestamp))
    (fun w hw => compare_lt_iff_lt.mpr (by simpa using (mem_filter.mp hw).2))
    (fun w hw => compare_eq_iff_eq.mpr (by simpa using (mem_filter.mp hw).2))
    (fun w hw => compare_gt_iff_gt.mpr (by simpa using (mem_filter.mp hw).2))
  rw [← hs] at he
  unfold insertVersion
  rw [he]
  generalize timeline.filter (fun w => w.timestamp < v.timestamp) = less at hs ⊢
  generalize timeline.filter (fun w => v.timestamp < w.timestamp) = greater at hs ⊢
  generalize block timeline v.timestamp = equal at hs ⊢
  subst hs
  rcases List.eq_nil_or_concat equal with rfl | ⟨init,last,rfl⟩
  · simp [position]
  · rw [List.concat_eq_append]
    have hp : position (if init++[last] = [] then Except.error less.length
        else Except.ok (less.length+((init++[last]).length - 1))) =
        (less++init).length := by simp [position]
    have hl : less ++ (init++[last]) ++ greater = (less++init) ++ (last::greater) := by simp
    rw [hp,hl]
    dsimp only
    rw [List.take_left,List.drop_left]
    simp

theorem insertVersion_perm (tl : List TemporalVersion) (v : TemporalVersion) :
    (insertVersion tl v).Perm (v::tl) := by
  unfold insertVersion
  refine List.perm_middle.trans ?_
  rw [List.take_append_drop]

theorem block_block_of_ne {t u : DateTime} (h : t ≠ u) (versions : List TemporalVersion) :
    block (block versions t) u = [] := by
  apply filter_eq_nil_iff.mpr
  intro w hw
  have hw : w.timestamp = t := by simpa using (mem_filter.mp hw).2
  simpa [hw] using h

theorem block_of_forall (h : ∀ v ∈ versions, v.timestamp = t) : block versions t = versions := by
  apply List.filter_eq_self.mpr
  intro v hv
  simpa using h v hv

@[simp] theorem block_append (versions others : List TemporalVersion) (t : DateTime) :
    block (versions++others) t = block versions t ++ block others t := List.filter_append ..

theorem mem_block {v : TemporalVersion} : v ∈ block versions t ↔ v ∈ versions ∧ v.timestamp = t := by
  simp [block]

theorem firstLast_concat (versions : List TemporalVersion) (v : TemporalVersion) : firstLast (versions++[v]) =
    (firstLast versions).dropLast ++ v::(firstLast versions).getLast?.toList := by
  cases versions with
  | nil => rfl
  | cons first versions => simp [firstLast]

def withinBlock (old : List TemporalVersion) (v : TemporalVersion) : List TemporalVersion :=
  old.dropLast ++ v::old.getLast?.toList

theorem timestamp_of_withinBlock {v w : TemporalVersion} (h : w ∈ withinBlock (block timeline v.timestamp) v) :
    w.timestamp = v.timestamp := by
  rcases mem_append.mp h with hw | hw
  · exact (mem_block.mp ((List.dropLast_sublist _).subset hw)).2
  · rcases mem_cons.mp hw with rfl | hw
    · rfl
    · exact (mem_block.mp (List.mem_of_getLast? (by simpa using hw))).2

theorem insertVersion_ordered (h : Ordered timeline) (v : TemporalVersion) : Ordered (insertVersion timeline v) := by
  have hl : ∀ a ∈ timeline.filter (fun w => w.timestamp < v.timestamp), a.timestamp < v.timestamp :=
    fun a ha => by simpa using (mem_filter.mp ha).2
  have hg : ∀ a ∈ timeline.filter (fun w => v.timestamp < w.timestamp), v.timestamp < a.timestamp :=
    fun a ha => by simpa using (mem_filter.mp ha).2
  rw [insertVersion_eq h]
  show List.Pairwise _ _
  rw [List.append_assoc,List.pairwise_append,List.pairwise_append]
  refine ⟨h.sublist filter_sublist,⟨?_,h.sublist filter_sublist,?_⟩,?_⟩
  · apply List.pairwise_of_forall_mem_list
    intro a ha b hb
    exact ((timestamp_of_withinBlock ha).trans (timestamp_of_withinBlock hb).symm).le
  · intro a ha b hb
    exact (timestamp_of_withinBlock ha).le.trans (hg b hb).le
  · intro a ha b hb
    rcases mem_append.mp hb with hb | hb
    · exact (hl a ha).le.trans (timestamp_of_withinBlock hb).ge
    · exact ((hl a ha).trans (hg b hb)).le

theorem block_insertVersion (h : Ordered timeline) (v : TemporalVersion) :
    block (insertVersion timeline v) v.timestamp = withinBlock (block timeline v.timestamp) v := by
  have hl : block (timeline.filter (fun w => w.timestamp < v.timestamp)) v.timestamp = [] := by
    apply filter_eq_nil_iff.mpr
    intro w hw
    simpa using ne_of_lt (by simpa using (mem_filter.mp hw).2 : w.timestamp < v.timestamp)
  have hg : block (timeline.filter (fun w => v.timestamp < w.timestamp)) v.timestamp = [] := by
    apply filter_eq_nil_iff.mpr
    intro w hw
    simpa using ne_of_gt (by simpa using (mem_filter.mp hw).2 : v.timestamp < w.timestamp)
  rw [insertVersion_eq h,block_append,block_append,hl,hg,nil_append,append_nil]
  apply block_of_forall
  intro w hw
  exact timestamp_of_withinBlock hw

theorem block_insertVersion_of_ne (h : Ordered timeline) {v : TemporalVersion} (hn : v.timestamp ≠ t) :
    block (insertVersion timeline v) t = block timeline t := by
  have hi : block (withinBlock (block timeline v.timestamp) v) t = [] := by
    apply filter_eq_nil_iff.mpr
    intro w hw
    simpa [timestamp_of_withinBlock hw] using hn
  have hs := congrArg (fun l => block l t) (h.split v.timestamp)
  simp only [block_append,block_block_of_ne hn,append_nil] at hs
  rw [insertVersion_eq h,block_append,block_append,hs]
  show _ ++ block (withinBlock (block timeline v.timestamp) v) t ++ _ = _
  rw [hi,append_nil]

theorem Timeline.record (h : Timeline versions timeline) (v : TemporalVersion) :
    Timeline (versions++[v]) (insertVersion timeline v) where
  ordered := insertVersion_ordered h.ordered v
  perm := (insertVersion_perm timeline v).trans ((h.perm.cons v).trans (List.perm_append_singleton v versions).symm)
  blocks := by
    intro t
    by_cases ht : v.timestamp = t
    · subst ht
      have hn : block [v] v.timestamp = [v] := block_of_forall (by simp)
      rw [block_insertVersion h.ordered,h.blocks,block_append,hn,firstLast_concat]
      rfl
    · have hn : block [v] t = [] := by simp [block,ht]
      rw [block_insertVersion_of_ne h.ordered ht,h.blocks,block_append,hn,append_nil]

theorem recordAll_timeline (records : List (ContextUri × TemporalVersion)) (uri : ContextUri) :
    Timeline (recorded records uri) ((recordAll records).evolution uri) := by
  induction records using List.reverseRecOn with
  | nil =>
    constructor <;> simp [recorded,recordAll,evolution,empty,block,firstLast]
  | append_singleton records r ih =>
    have hs : recordAll (records++[r]) = (recordAll records).record r.1 r.2 := by simp [recordAll]
    have he : recorded (records++[r]) uri =
        recorded records uri ++ if r.1.canonical = uri.canonical then [r.2] else [] := by
      by_cases hr : r.1.canonical = uri.canonical <;> simp [recorded,hr]
    have hv : ((recordAll records).record r.1 r.2).evolution uri = if r.1.canonical = uri.canonical
        then insertVersion ((recordAll records).evolution uri) r.2 else (recordAll records).evolution uri := by
      by_cases hr : r.1.canonical =
        uri.canonical <;> simp [evolution,TemporalIndex.record,Std.ExtTreeMap.getElem?_insert,hr]
    rw [hs,he,hv]
    by_cases hr : r.1.canonical = uri.canonical
    · rw [if_pos hr,if_pos hr]
      exact ih.record r.2
    · rw [if_neg hr,if_neg hr,append_nil]
      exact ih

end Insertion

/-- The version of the greatest transaction time, and of equal times the one recorded last. -/
def latest (versions : List TemporalVersion) : Option TemporalVersion :=
  versions.foldl (fun best v => if best.all (fun b => b.timestamp ≤ v.timestamp) then some v else best) none

section Latest

variable {versions timeline : List TemporalVersion} {p : TemporalVersion → Bool}

@[simp] theorem latest_nil : latest [] = none := rfl

theorem latest_concat (versions : List TemporalVersion) (v : TemporalVersion) : latest (versions++[v]) =
    if (latest versions).all (fun b => b.timestamp ≤ v.timestamp) then some v else latest versions := by
  rw [latest,List.foldl_append]
  rfl

theorem latest_spec (versions : List TemporalVersion) : (versions = [] ∧ latest versions = none) ∨
    ∃ v, latest versions = some v ∧ (∀ w ∈ versions, w.timestamp ≤ v.timestamp) ∧
    (block versions v.timestamp).getLast? = some v := by
  induction versions using List.reverseRecOn with
  | nil => exact .inl ⟨rfl,rfl⟩
  | append_singleton versions w ih =>
    apply Or.inr
    rw [latest_concat]
    have hs : block [w] w.timestamp = [w] := block_of_forall (by simp)
    rcases ih with ⟨rfl,hn⟩ | ⟨v,hv,hm,ha⟩
    · rw [hn,if_pos (by rfl)]
      exact ⟨w,rfl,by simp,by simp [hs]⟩
    · by_cases hl : v.timestamp ≤ w.timestamp
      · rw [hv,if_pos (by simpa using hl)]
        refine ⟨w,rfl,?_,by simp [hs]⟩
        intro u hu
        rcases mem_append.mp hu with hu | hu
        · exact (hm u hu).trans hl
        · exact (List.mem_singleton.mp hu ▸ le_refl _)
      · have hg : w.timestamp < v.timestamp := lt_of_not_ge hl
        have ho : block [w] v.timestamp = [] := by simp [block,hg.ne]
        rw [hv,if_neg (by simpa using hg)]
        refine ⟨v,rfl,?_,by rw [block_append,ho,append_nil,ha]⟩
        intro u hu
        rcases mem_append.mp hu with hu | hu
        · exact hm u hu
        · exact (List.mem_singleton.mp hu ▸ hg.le)

theorem getLast?_eq_block {t : DateTime} (h : Ordered timeline) (hm : ∀ v ∈ timeline, v.timestamp ≤ t)
    (hn : block timeline t ≠ []) : timeline.getLast? = (block timeline t).getLast? := by
  have ha : timeline.filter (fun v => t < v.timestamp) = [] := by
    apply filter_eq_nil_iff.mpr
    intro v hv
    simpa using hm v hv
  have hs := h.split t
  rw [ha,append_nil] at hs
  conv_lhs => rw [hs]
  exact List.getLast?_append_of_ne_nil _ hn

theorem block_filter (versions : List TemporalVersion) (p : TemporalVersion → Bool) (t : DateTime) :
    block (versions.filter p) t = (block versions t).filter p := by
  unfold block
  rw [filter_filter,filter_filter]
  congr 1
  funext v
  exact Bool.and_comm ..

/-- Where the first recorded version of the latest matching time matches, it is also the last one that does. -/
def Untied (versions : List TemporalVersion) (p : TemporalVersion → Bool) : Prop :=
  ∀ v ∈ latest (versions.filter p), ∀ first ∈ (block versions v.timestamp).head?, p first = true → first = v

theorem Timeline.getLast?_filter (h : Timeline versions timeline) (p : TemporalVersion → Bool) :
    (timeline.filter p).getLast? = latest (versions.filter p) ↔ Untied versions p := by
  have he : (timeline.filter p).Perm (versions.filter p) := h.perm.filter p
  unfold Untied
  rcases latest_spec (versions.filter p) with ⟨hn,ho⟩ | ⟨v,hv,hm,hl⟩
  · rw [hn] at he
    rw [ho,he.eq_nil]
    simp
  · have hb : block (timeline.filter p) v.timestamp = (firstLast (block versions v.timestamp)).filter p := by
      rw [block_filter,h.blocks]
    have hme : v ∈ block (timeline.filter p) v.timestamp := by
      have hv : v ∈ block (versions.filter p) v.timestamp := List.mem_of_getLast? hl
      exact mem_block.mpr ⟨he.mem_iff.mpr (mem_block.mp hv).1,rfl⟩
    have hd : (timeline.filter p).getLast? = ((firstLast (block versions v.timestamp)).filter p).getLast? := by
      rw [← hb]
      apply getLast?_eq_block (h.ordered.sublist filter_sublist)
      · intro w hw
        exact hm w (he.mem_iff.mp hw)
      · exact List.ne_nil_of_mem hme
    rw [block_filter] at hl
    rw [hd,hv]
    cases hr : block versions v.timestamp with
    | nil => simp [hr] at hl
    | cons first rest =>
      rw [hr] at hl
      by_cases hp : p first = true
      · simp [firstLast,hp,hr]
      · have hp : p first = false := by simpa using hp
        simpa [firstLast,hp,hr] using hl

end Latest

section Windows

variable {timeline : List TemporalVersion} {p : TemporalVersion → Bool}

def Downward (p : TemporalVersion → Bool) : Prop := ∀ a b : TemporalVersion, a.timestamp ≤ b.timestamp →
    p b = true → p a = true

theorem Downward.not_of_head (hp : Downward p) {v : TemporalVersion} (h : Ordered (v::timeline)) (hv : ¬ p v = true) :
    ∀ w ∈ v::timeline, p w = false := by
  intro w hw
  by_contra hpw
  rcases mem_cons.mp hw with rfl | hw
  · exact hpw (by simpa using hv)
  · exact hv (hp v w ((pairwise_cons.mp h).1 w hw) (by simpa using hpw))

theorem Downward.takeWhile (hp : Downward p) (h : Ordered timeline) : timeline.takeWhile p = timeline.filter p := by
  induction timeline with
  | nil => rfl
  | cons v timeline ih =>
    by_cases hv : p v = true
    · rw [List.takeWhile_cons_of_pos hv,List.filter_cons_of_pos hv,ih (pairwise_cons.mp h).2]
    · rw [List.takeWhile_cons_of_neg hv]
      symm
      apply filter_eq_nil_iff.mpr
      intro w hw
      simp [hp.not_of_head h hv w hw]

theorem Downward.filter_append (hp : Downward p) (h : Ordered timeline) :
    timeline = timeline.filter p ++ timeline.filter (fun v => !p v) := by
  induction timeline with
  | nil => rfl
  | cons v timeline ih =>
    by_cases hv : p v = true
    · have ih := ih (pairwise_cons.mp h).2
      rw [List.filter_cons_of_pos hv,List.filter_cons_of_neg (by simpa using hv),List.cons_append,← ih]
    · have hr := hp.not_of_head h hv
      have hn : (v::timeline).filter p = [] := filter_eq_nil_iff.mpr (fun w hw => by simp [hr w hw])
      have hs : (v::timeline).filter (fun w => !p w) = v::timeline :=
        List.filter_eq_self.mpr (fun w hw => by simp [hr w hw])
      rw [hn,hs,nil_append]

theorem Downward.partitionPoint (hp : Downward p) (h : Ordered timeline) :
    partitionPoint p timeline = (timeline.filter p).length := by
  have ho := @partitionPoint_eq _ p (timeline.filter p) (timeline.filter (fun v => !p v))
    (fun v hv => (mem_filter.mp hv).2) (fun v hv => by simpa using (mem_filter.mp hv).2)
  rwa [← hp.filter_append h] at ho

theorem Downward.take (hp : Downward p) (h : Ordered timeline) :
    timeline.take (BinarySearch.partitionPoint p timeline) = timeline.filter p := by
  conv_lhs => rw [hp.partitionPoint h,hp.filter_append h]
  simp

theorem Downward.drop (hp : Downward p) (h : Ordered timeline) :
    timeline.drop (BinarySearch.partitionPoint p timeline) = timeline.filter (fun v => !p v) := by
  conv_lhs => rw [hp.partitionPoint h,hp.filter_append h]
  simp

theorem downward_le (t : DateTime) : Downward (fun v => v.timestamp ≤ t) := by
  intro a b ha hb
  simpa using ha.trans (by simpa using hb)

theorem downward_lt (t : DateTime) : Downward (fun v => v.timestamp < t) := by
  intro a b ha hb
  simpa using ha.trans_lt (by simpa using hb)

theorem take_eq_none_or_getLast (tl : List TemporalVersion) {n : ℕ} (hn : n ≤ tl.length) :
    (if n = 0 then none else tl[n - 1]?) = (tl.take n).getLast? := by
  cases n with
  | zero => rfl
  | succ n =>
    rw [if_neg (Nat.succ_ne_zero n),List.getLast?_eq_getElem?,List.length_take,Nat.min_eq_left hn,Nat.add_sub_cancel,
      List.getElem?_take_of_lt (Nat.lt_succ_self n)]

variable {index : TemporalIndex} {uri : ContextUri}

theorem transactionAsOf_eq (h : Ordered (index.evolution uri)) (t : DateTime) :
    index.transactionAsOf uri t = ((index.evolution uri).filter (fun v => v.timestamp ≤ t)).getLast? := by
  unfold transactionAsOf evolution at *
  cases ht : index.timelines[uri.canonical]? with
  | none => rfl
  | some timeline =>
    rw [ht,Option.getD_some] at h
    have hp := downward_le t
    have hl : BinarySearch.partitionPoint (fun v => decide (v.timestamp ≤ t)) timeline ≤ timeline.length :=
      hp.partitionPoint h ▸ List.length_filter_le ..
    rw [Option.getD_some,← hp.take h]
    exact take_eq_none_or_getLast timeline hl

theorem bitemporalAsOf_eq (h : Ordered (index.evolution uri)) (query : BitemporalQuery) : index.bitemporalAsOf uri query =
    ((index.evolution uri).filter (fun v => v.timestamp ≤ query.transactionAt && v.validAt query.validAt)).getLast? := by
  unfold bitemporalAsOf evolution at *
  cases ht : index.timelines[uri.canonical]? with
  | none => rfl
  | some timeline =>
    rw [ht,Option.getD_some] at h
    rw [Option.getD_some]
    dsimp only
    rw [(downward_le query.transactionAt).take h,← List.head?_filter,List.filter_reverse,List.head?_reverse,
      filter_filter]
    congr 2
    funext v
    exact Bool.and_comm ..

theorem between_eq (from_ to_ : DateTime) :
    index.between uri from_ to_ = (index.evolution uri).filter (fun v => v.knownIn from_ to_) := by
  unfold between evolution
  cases index.timelines[uri.canonical]? <;> rfl

theorem bitemporalBetween_eq (h : Ordered (index.evolution uri)) (range : BitemporalRange) :
    index.bitemporalBetween uri range =
    (index.evolution uri).filter (fun v => v.knownIn range.transactionFrom range.transactionTo &&
      v.validOverlaps range.validFrom range.validTo) := by
  unfold bitemporalBetween evolution at *
  cases ht : index.timelines[uri.canonical]? with
  | none => rfl
  | some timeline =>
    rw [ht,Option.getD_some] at h
    rw [Option.getD_some]
    dsimp only
    rw [(downward_lt range.transactionFrom).drop h,
      (downward_le range.transactionTo).takeWhile (h.sublist filter_sublist),filter_filter,filter_filter]
    congr 1
    funext v
    have hn : (!decide (v.timestamp < range.transactionFrom)) = decide (range.transactionFrom ≤ v.timestamp) := by
      simp [← decide_not]
    rw [hn,TemporalVersion.knownIn]
    ac_rfl

end Windows

def ValidIn (v : TemporalVersion) (from_ to_ : DateTime) : Prop :=
  ∃ instant, from_ ≤ instant ∧ instant ≤ to_ ∧ v.validAt instant = true

/-- Neither the window is reversed nor the validity empty, and the validity does not end where the window starts. -/
def Proper (v : TemporalVersion) (from_ to_ : DateTime) : Prop :=
  from_ ≤ to_ ∧ ∀ end_ ∈ v.validUntil, from_ < end_ ∧ v.validFrom < end_

theorem validIn_iff {v : TemporalVersion} {from_ to_ : DateTime} :
    ValidIn v from_ to_ ↔ v.validOverlaps from_ to_ = true ∧ Proper v from_ to_ := by
  unfold ValidIn Proper TemporalVersion.validOverlaps TemporalVersion.validAt
  constructor
  · intro h
    obtain ⟨instant,hf,ht,hv⟩ := h
    cases he : v.validUntil with
    | none => simpa [he] using ⟨(by simpa [he] using hv : v.validFrom ≤ instant).trans ht,hf.trans ht⟩
    | some end_ =>
      have hv : v.validFrom ≤ instant ∧ instant < end_ := by simpa [he] using hv
      have hb := hf.trans_lt hv.2
      simpa using ⟨⟨hv.1.trans ht,hb.le⟩,hf.trans ht,hb,hv.1.trans_lt hv.2⟩
  · intro h
    obtain ⟨ho,hl,hp⟩ := h
    have hs : v.validFrom ≤ to_ := by
      simp only [Bool.and_eq_true,decide_eq_true_eq] at ho
      exact ho.1
    refine ⟨max from_ v.validFrom,le_max_left ..,max_le hl hs,?_⟩
    cases he : v.validUntil with
    | none => simp
    | some end_ =>
      have he := hp end_ (by rw [he]; rfl)
      simpa using he

instance (v : TemporalVersion) (from_ to_ : DateTime) : Decidable (Proper v from_ to_) :=
  inferInstanceAs (Decidable (_ ∧ _))

instance (v : TemporalVersion) (from_ to_ : DateTime) : Decidable (ValidIn v from_ to_) :=
  decidable_of_iff _ validIn_iff.symm

structure Answers (records : List (ContextUri × TemporalVersion)) (uri : ContextUri) (t from_ to_ : DateTime)
    (query : BitemporalQuery) (range : BitemporalRange) : Prop where
  sorted : Ordered ((recordAll records).evolution uri)
  transactionAsOf : (recordAll records).transactionAsOf uri t =
    latest ((recorded records uri).filter (fun v => v.timestamp ≤ t))
  bitemporalAsOf : (recordAll records).bitemporalAsOf uri query = latest
    ((recorded records uri).filter (fun v => v.timestamp ≤ query.transactionAt && v.validAt query.validAt))
  between : ((recordAll records).between uri from_ to_).Perm ((recorded records uri).filter (fun v => v.knownIn from_ to_))
  bitemporalBetween : ((recordAll records).bitemporalBetween uri range).Perm ((recorded records uri).filter
    (fun v => v.knownIn range.transactionFrom range.transactionTo && ValidIn v range.validFrom range.validTo))

/-- No earlier recorded version hides the last one of its time, and whatever the window touches it overlaps. -/
structure Settled (versions : List TemporalVersion) (t : DateTime) (query : BitemporalQuery)
    (range : BitemporalRange) : Prop where
  transaction : Untied versions (fun v => v.timestamp ≤ t)
  bitemporal : Untied versions (fun v => v.timestamp ≤ query.transactionAt && v.validAt query.validAt)
  overlaps : ∀ v ∈ versions, v.knownIn range.transactionFrom range.transactionTo = true →
    v.validOverlaps range.validFrom range.validTo = true → Proper v range.validFrom range.validTo

theorem filter_perm_iff {versions : List TemporalVersion} {p q : TemporalVersion → Bool}
    (hl : ∀ v, q v = true → p v = true) :
    (versions.filter p).Perm (versions.filter q) ↔ ∀ v ∈ versions, p v = true → q v = true := by
  constructor
  · intro h v hv hp
    exact (mem_filter.mp (h.mem_iff.mp (mem_filter.mpr ⟨hv,hp⟩))).2
  · intro h
    rw [List.filter_congr (q := q)]
    intro v hv
    exact Bool.eq_iff_iff.mpr ⟨h v hv,hl v⟩

/-- After any records the queries answer as the versions recorded call for, exactly where these are settled. -/
theorem answers_iff (records : List (ContextUri × TemporalVersion)) (uri : ContextUri) (t from_ to_ : DateTime)
    (query : BitemporalQuery) (range : BitemporalRange) : Answers records uri t from_ to_ query range ↔
      Settled (recorded records uri) t query range := by
  have ht := recordAll_timeline records uri
  have ho := ht.ordered
  have hb := bitemporalBetween_eq ho range
  have hp := (ht.perm.filter
    (fun v => v.knownIn range.transactionFrom range.transactionTo &&
      v.validOverlaps range.validFrom range.validTo)).congr_left
    ((recorded records uri).filter (fun v => v.knownIn range.transactionFrom range.transactionTo &&
      ValidIn v range.validFrom range.validTo))
  have hw : ((recorded records uri).filter (fun v => v.knownIn range.transactionFrom range.transactionTo &&
      v.validOverlaps range.validFrom range.validTo)).Perm ((recorded records uri).filter
        (fun v => v.knownIn range.transactionFrom range.transactionTo && ValidIn v range.validFrom range.validTo)) ↔
      ∀ v ∈ recorded records uri, v.knownIn range.transactionFrom range.transactionTo = true →
        v.validOverlaps range.validFrom range.validTo = true → Proper v range.validFrom range.validTo := by
    rw [filter_perm_iff]
    · apply forall₂_congr
      intro v hv
      simp only [Bool.and_eq_true, decide_eq_true_eq, validIn_iff, and_imp]
      constructor
      · intro h hk he
        exact (h hk he).2.2
      · intro h hk he
        exact ⟨hk, he, h hk he⟩
    · intro v hv
      simp only [Bool.and_eq_true, decide_eq_true_eq, validIn_iff] at hv ⊢
      exact ⟨hv.1, hv.2.1⟩
  constructor
  · intro h
    constructor
    · exact (ht.getLast?_filter _).mp (transactionAsOf_eq ho t ▸ h.transactionAsOf)
    · exact (ht.getLast?_filter _).mp (bitemporalAsOf_eq ho query ▸ h.bitemporalAsOf)
    · exact hw.mp (hp.mp (hb ▸ h.bitemporalBetween))
  · intro h
    constructor
    · exact ho
    · exact transactionAsOf_eq ho t ▸ (ht.getLast?_filter _).mpr h.transaction
    · exact bitemporalAsOf_eq ho query ▸ (ht.getLast?_filter _).mpr h.bitemporal
    · rw [between_eq from_ to_]
      exact ht.perm.filter _
    · exact hb ▸ hp.mpr (hw.mpr h.overlaps)

def tiedRecords : List (ContextUri × TemporalVersion) :=
  [(.ofTenant "acme", ⟨1, 5, "first", 0, some 2⟩), (.ofTenant "acme", ⟨2, 5, "second", 0, some 2⟩)]

/-- The first of two versions recorded at one time is returned, and a validity that ends where the window starts
overlaps it. -/
theorem tiedRecords_not_answers :
    (recordAll tiedRecords).transactionAsOf (.ofTenant "acme") 5 = some ⟨1, 5, "first", 0, some 2⟩ ∧
    ((recordAll tiedRecords).bitemporalBetween (.ofTenant "acme") ⟨2, 3, 5, 5⟩).length = 2 ∧
    ¬ Answers tiedRecords (.ofTenant "acme") 5 5 5 ⟨1, 5⟩ ⟨2, 3, 5, 5⟩ := by
  have hr : (recordAll tiedRecords).transactionAsOf (.ofTenant "acme") 5 = some ⟨1, 5, "first", 0, some 2⟩ ∧
      ((recordAll tiedRecords).bitemporalBetween (.ofTenant "acme") ⟨2, 3, 5, 5⟩).length = 2 ∧
      latest ((recorded tiedRecords (.ofTenant "acme")).filter (fun v => v.timestamp ≤ 5)) =
        some ⟨2, 5, "second", 0, some 2⟩ := by decide +kernel
  refine ⟨hr.1, hr.2.1, ?_⟩
  intro h
  have hl := h.transactionAsOf
  rw [hr.1, hr.2.2] at hl
  exact absurd hl (by decide)

end TemporalIndex
end UwuContextDb.Version
