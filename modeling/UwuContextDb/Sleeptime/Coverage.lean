import UwuContextDb.Library.Sweep
import UwuContextDb.Sleeptime.Composition

/-! Passes one after the other over a scope: which of its entries they come to before the cursor is reset. -/

namespace UwuContextDb.Sleeptime

open Content (StoreLibraries SqliteTables CurrentRow cut effectiveLimit isAfter)
open Content.SqliteTables (BatchWriteConfig)
open ContextUri (trimEndMatches)
open Retrieve (PageRequest maxPageSize)

section Batches

variable (chrono : Chrono) (x : SleeptimeExecutor) (scope : ContextUri) (w : World)

def scopeRows : List (String × CurrentRow) :=
  match ContextUri.parse (trimEndMatches '/' scope.canonical) with
  | .ok found => w.stores.content.selected found
  | .error _ => []

def scopeUris : List ContextUri := (scopeRows scope w).map (·.2.entry.uri)

def ahead (cursor uri : ContextUri) : Bool := ContextUri.cmp chrono uri cursor == .gt

def pageLimit : ℕ := min x.batchLimit maxPageSize

variable {chrono x scope w}

theorem effectiveLimit_pageAfter (hl : 1 ≤ x.batchLimit) (st : SleeptimeProgress) :
    effectiveLimit (pageAfter x st) = pageLimit x := by
  simp only [effectiveLimit,pageAfter,Retrieve.PageRequest.new,Retrieve.clamp,pageLimit,maxPageSize]
  omega

theorem key_of_scopeRows (hn : w.stores.content.Named) {row : String × CurrentRow} (h : row ∈ scopeRows scope w) :
    row.2.entry.uri.canonical = row.1 := by
  unfold scopeRows at h
  split at h
  · exact hn row.1 row.2 (Std.ExtTreeMap.mem_toList_iff_getElem?_eq_some.mp (List.mem_of_mem_filter h))
  · cases h

theorem cut_rows {α : Type} (page : PageRequest) (rows : List α) : (cut page rows).1 = rows.take (effectiveLimit page) := by
  simp [cut,List.take_take]

theorem batchAt_eq : batchAt chrono x scope w = batchOf chrono x (progressAt scope w)
    ((((scopeRows scope w).filter (fun row => isAfter (pageAfter x (progressAt scope w)) row.1)).take
      (effectiveLimit (pageAfter x (progressAt scope w)))).map (·.2.entry)) := by
  rw [← cut_rows]
  unfold batchAt SqliteTables.scanByPrefix scopeRows
  cases hp : ContextUri.parse (trimEndMatches '/' scope.canonical) with
  | error e => simp [batchOf,cut,bind,Except.bind]
  | ok found => rfl

theorem batchAt_uris (hn : w.stores.content.Named) (hl : 1 ≤ x.batchLimit)
    (hw : (progressAt scope w).watermark = none) :
    (batchAt chrono x scope w).map (·.uri) =
      Sweep.batch (·.canonical) (ahead chrono) (pageLimit x) (scopeUris scope w) (progressAt scope w).cursor := by
  have hk := fun row => @key_of_scopeRows scope w hn row
  rw [batchAt_eq,effectiveLimit_pageAfter hl]
  unfold scopeUris
  generalize progressAt scope w = st at hw ⊢
  generalize scopeRows scope w = rows at hk ⊢
  have ha : rows.filter (fun row => isAfter (pageAfter x st) row.1) =
      rows.filter (fun row => (st.cursor.map (·.canonical)).all (fun c => decide (c < row.2.entry.uri.canonical))) := by
    apply List.filter_congr
    intro row hr
    rw [hk row hr]
    rfl
  unfold batchOf Sweep.batch Keyset.remaining
  rw [ha,hw]
  simp only [List.filter_map,← List.map_take,List.map_map,Function.comp_def,Option.all_none,List.filter_true]
  rw [List.take_of_length_le]
  · rfl
  · refine (List.length_filter_le _ _).trans ?_
    rw [List.length_take]
    exact (min_le_left _ _).trans (min_le_left _ _)

end Batches

section Addresses

def World.uriTable (w : World) : Std.ExtTreeMap String ContextUri :=
  w.stores.content.entries.map (fun _ row => row.entry.uri)

variable {chrono : Chrono} {x : SleeptimeExecutor} {scope : ContextUri} {pass : Pass} {w w' : World}

theorem getElem?_uriTable (w : World) (key : String) : w.uriTable[key]? = (w.entryAt key).map (·.uri) := by
  rw [World.uriTable,Std.ExtTreeMap.getElem?_map,World.entryAt,Option.map_map]
  rfl

theorem selected_uris (found : ContextUri) : (w.stores.content.selected found).map (·.2.entry.uri) =
    (w.uriTable.toList.filter (fun row => row.1 == found.canonical ||
      Content.sqlLike row.1 (Content.prefixPattern (Content.dirPrefix found)))).map Prod.snd := by
  simp only [World.uriTable,SqliteTables.selected,Std.ExtTreeMap.toList_map,List.filter_map,List.map_map]
  rfl

theorem scopeUris_congr (h : w'.uriTable = w.uriTable) : scopeUris scope w' = scopeUris scope w := by
  unfold scopeUris scopeRows
  cases ContextUri.parse (trimEndMatches '/' scope.canonical) with
  | error e => rfl
  | ok found =>
    show (w'.stores.content.selected found).map _ = (w.stores.content.selected found).map _
    rw [selected_uris,selected_uris,h]

theorem scopeUris_sorted (hn : w.stores.content.Named) :
    (scopeUris scope w).Pairwise (fun a b => a.canonical < b.canonical) := by
  have hk := fun row => @key_of_scopeRows scope w hn row
  have hr : (scopeRows scope w).Pairwise (fun a b => compare a.1 b.1 = .lt) := by
    unfold scopeRows
    split
    · exact Std.ExtTreeMap.ordered_keys_toList.filter _
    · exact .nil
  unfold scopeUris
  rw [List.pairwise_map]
  apply hr.imp_of_mem
  intro a b ha hb hl
  rw [hk a ha,hk b hb]
  exact compare_lt_iff_lt.mp hl

theorem named_of_uriTable (h : w'.uriTable = w.uriTable) (hn : w.stores.content.Named) : w'.stores.content.Named := by
  intro key row hr
  have hu : w'.uriTable[key]? = some row.entry.uri := by
    rw [getElem?_uriTable,World.entryAt,hr]
    rfl
  rw [h,getElem?_uriTable] at hu
  obtain ⟨e,he,hu⟩ := Option.map_eq_some_iff.mp hu
  obtain ⟨row',hr',rfl⟩ := Option.map_eq_some_iff.mp he
  rw [← hu]
  exact hn key row' hr'

theorem uriTable_of_shown (hn : w.stores.content.Named) {done : List ContextEntry}
    (hd : done ⊆ pass.copies (batchAt chrono x scope w))
    (h : ∀ key, (w'.entryAt key).map shown =
      ((done.filter (fun copy => copy.uri.canonical = key)).getLast?.map shown).or ((w.entryAt key).map shown)) :
    w'.uriTable = w.uriTable := by
  apply Std.ExtTreeMap.ext_getElem?
  intro key
  have hu : ∀ found : Option ContextEntry, found.map (·.uri) = (found.map shown).map Prod.fst := fun found => by
    rw [Option.map_map]
    rfl
  rw [getElem?_uriTable,getElem?_uriTable,hu,h key]
  cases hl : (done.filter (fun copy => copy.uri.canonical = key)).getLast? with
  | none => rw [hu]; rfl
  | some copy =>
    have hm := List.mem_filter.mp (List.mem_of_getLast? hl)
    have hk : copy.uri.canonical = key := of_decide_eq_true hm.2
    obtain ⟨e,he,hc⟩ := Pass.copyOf_of_mem (hd hm.1)
    rw [← hk,hc.uri,entryAt_of_batch hn he]
    exact congrArg some hc.uri

end Addresses

section Runs

variable (libraries lib : StoreLibraries) (config : BatchWriteConfig) (blake3 : List ℕ → ContentHash) (chrono : Chrono)
  (x : SleeptimeExecutor) (scope : ContextUri)

abbrev PassCall := Pass × (ℕ → Moment)

def passed (w : World) (call : PassCall) : Except ContextError SleeptimeReport × World :=
  (runOnce chrono x call.1 scope).run.finish (exec libraries config blake3) w call.2

def afterPass (w : World) (call : PassCall) : World := (passed libraries config blake3 chrono x scope w call).2

/-- During the pass nobody else writes, and no lifecycle job is given out. -/
def Undisturbed (w : World) (call : PassCall) : Prop :=
  (∀ n, (call.2 n).others = []) ∧
    ∀ step ∈ (runOnce chrono x call.1 scope).run.trace (exec libraries config blake3) w call.2,
      granted step.2.1 step.2.2 = false

def processed : World → List PassCall → List (List ContextUri)
  | _, [] => []
  | w, call::calls =>
    match (passed libraries config blake3 chrono x scope w call).1 with
    | .ok _ => (batchAt chrono x scope w).map (·.uri) :: processed (afterPass libraries config blake3 chrono x scope w call) calls
    | .error _ => processed (afterPass libraries config blake3 chrono x scope w call) calls

variable {libraries lib config blake3 chrono x scope} {w : World}

theorem passed_ok {call : PassCall} (h : Undisturbed lib config blake3 chrono x scope w call)
    {report : SleeptimeReport} (ho : (passed lib config blake3 chrono x scope w call).1 = .ok report) :
    Passed chrono x scope call.1 w (afterPass lib config blake3 chrono x scope w call) := by
  have hc := @runOnce_calm chrono x scope lib config blake3 w call.1
  have hp := hc.finish_of_trace h.1 h.2
  unfold afterPass
  unfold passed at ho ⊢
  rw [ho] at hp
  exact hp

theorem passed_error {call : PassCall} (h : Undisturbed lib config blake3 chrono x scope w call) {e : ContextError}
    (he : (passed lib config blake3 chrono x scope w call).1 = .error e) :
    Broken chrono x scope call.1 w (afterPass lib config blake3 chrono x scope w call) := by
  have hc := @runOnce_calm chrono x scope lib config blake3 w call.1
  have hp := hc.finish_of_trace h.1 h.2
  unfold afterPass
  unfold passed at he ⊢
  rw [he] at hp
  exact hp

theorem Passed.next {pass : Pass} {w' : World} (h : Passed chrono x scope pass w w') :
    (progressAt scope w').cursor = ((batchAt chrono x scope w).map (·.uri)).getLast? ∧
      (progressAt scope w').watermark = (restarted (progressAt scope w) (batchAt chrono x scope w)).watermark := by
  have hp : progressAt scope w' =
      (advanced (restarted (progressAt scope w) (batchAt chrono x scope w)) (batchAt chrono x scope w)).attempted := by
    rw [progressAt,h.progress,Std.ExtTreeMap.getElem?_insert_self,Option.getD_some]
  rw [hp]
  generalize batchAt chrono x scope w = es
  generalize progressAt scope w = state
  refine ⟨?_,rfl⟩
  show (es.getLast?.map (·.uri)).or (restarted state es).cursor = _
  cases es with
  | nil =>
    unfold restarted
    cases hc : state.cursor <;> simp [hc]
  | cons e es =>
    rw [List.getLast?_map,List.getLast?_eq_some_getLast (List.cons_ne_nil e es)]
    rfl

theorem afterPass_steady (hn : w.stores.content.Named)
    (hw : (progressAt scope w).watermark = none) {call : PassCall}
    (h : Undisturbed lib config blake3 chrono x scope w call) :
    (afterPass lib config blake3 chrono x scope w call).uriTable = w.uriTable ∧
      (progressAt scope (afterPass lib config blake3 chrono x scope w call)).watermark = none := by
  cases hr : (passed lib config blake3 chrono x scope w call).1 with
  | ok report =>
    have hp := passed_ok h hr
    refine ⟨uriTable_of_shown hn (List.Subset.refl _) hp.shown,hp.next.2.trans ?_⟩
    unfold restarted
    split
    · rfl
    · exact hw
  | error e =>
    have hb := passed_error h hr
    obtain ⟨done,hd,hs⟩ := hb.shown
    exact ⟨uriTable_of_shown hn hd hs,hb.watermark.trans hw⟩

theorem processed_eq (hi : 1 ≤ x.batchLimit) {calls : List PassCall} (hn : w.stores.content.Named)
    (hw : (progressAt scope w).watermark = none)
    (hc : StateMachine.Meets (afterPass lib config blake3 chrono x scope)
      (Undisturbed lib config blake3 chrono x scope)
      w calls) :
    processed lib config blake3 chrono x scope w calls =
      Sweep.batches (·.canonical) (ahead chrono) (pageLimit x) (scopeUris scope w)
        (processed lib config blake3 chrono x scope w calls).length (progressAt scope w).cursor := by
  induction calls generalizing w with
  | nil => rfl
  | cons call calls ih =>
    obtain ⟨hl,hc⟩ := hc
    obtain ⟨hu,he⟩ := afterPass_steady hn hw hl
    have hr := ih (named_of_uriTable hu hn) he hc
    rw [scopeUris_congr hu] at hr
    unfold processed
    cases hs : (passed lib config blake3 chrono x scope w call).1 with
    | ok report =>
      have hcu := (passed_ok hl hs).next.1
      have hb := @batchAt_uris chrono x scope w hn hi hw
      rw [hcu,hb] at hr
      dsimp only
      rw [List.length_cons,Sweep.batches,hb]
      exact congrArg (List.cons _) hr
    | error e =>
      rw [(passed_error hl hs).cursor] at hr
      exact hr

theorem ahead_trans (a b c : ContextUri) (ha : ahead chrono a b = true) (hb : ahead chrono b c = true) :
    ahead chrono a c = true := by
  unfold ahead at *
  rw [beq_iff_eq] at *
  exact Std.TransCmp.gt_trans hb ha

/-- A run of passes from the start of a scope, as many as it has entries and one, resets the cursor; it has come to every
entry before exactly if the last entry of each full page comes before all later entries in the order of the addresses. -/
theorem scope_covered_iff (libraries : StoreLibraries) (config : BatchWriteConfig)
    (blake3 : List ℕ → ContentHash) (chrono : Chrono) (x : SleeptimeExecutor) (scope : ContextUri)
    (ops : List SqliteTables.Op) (w : World)
    (hcontent : w.stores.content = StateMachine.run (fun st op => SqliteTables.step libraries st config op) .empty ops)
    (hlimit : 1 ≤ x.batchLimit) (hcursor : (progressAt scope w).cursor = none)
    (hwatermark : (progressAt scope w).watermark = none) (calls : List PassCall)
    (hcalls : StateMachine.Meets (afterPass libraries config blake3 chrono x scope)
      (Undisturbed libraries config blake3 chrono x scope)
      w calls)
    (hmany : (scopeUris scope w).length < (processed libraries config blake3 chrono x scope w calls).length) :
    (Sweep.sweep (processed libraries config blake3 chrono x scope w calls)).length <
        (processed libraries config blake3 chrono x scope w calls).length ∧
      ((∀ uri ∈ scopeUris scope w, uri ∈ (Sweep.sweep (processed libraries config blake3 chrono x scope w calls)).flatten) ↔
        Sweep.PagesAhead (ahead chrono) (pageLimit x) (scopeUris scope w)) := by
  have hn : w.stores.content.Named := by
    rw [hcontent]
    exact Lifecycle.named_run config ops
  have he := processed_eq hlimit hn hwatermark hcalls
  rw [hcursor] at he
  have hp : 0 < pageLimit x := lt_min hlimit (by decide)
  constructor
  · have hl := @Sweep.length_sweep_le _ _ _ (fun uri : ContextUri => uri.canonical) (ahead chrono)
      (pageLimit x) (scopeUris scope w)
      (processed libraries config blake3 chrono x scope w calls).length none
    rw [← he, Option.map_none, Keyset.remaining_none] at hl
    exact hl.trans_lt hmany
  · rw [he]
    exact Sweep.covers_iff (scopeUris_sorted hn) ahead_trans hp hmany.le

end Runs

section Samples

open Lifecycle (sampleLibraries)

def dashUri : ContextUri := ⟨"t", ["t", "agent", "a", "memory", "a-b"], none, "uwu://t/agent/a/memory/a-b"⟩

def folderUri : ContextUri := ⟨"t", ["t", "agent", "a", "memory", "a", "c"], none, "uwu://t/agent/a/memory/a/c"⟩

def writesOf (uris : List ContextUri) : List SqliteTables.Op := uris.map (fun uri => .write (.newText uri 0 "item" 5) 7)

def worldWith (uris : List ContextUri) : World :=
  ⟨⟨0, ∅, StateMachine.run (fun st op => SqliteTables.step sampleLibraries st .standard op) .empty
    (writesOf uris), [], ∅, ∅, ∅⟩, ∅⟩

def singleExecutor : SleeptimeExecutor := ⟨ContextUri.ofTenant "t", 1, false⟩

def idlePasses (n : ℕ) : List PassCall := List.replicate n (reviewPass [], fun _ => quiet 8)

abbrev idleStep : World → PassCall → World :=
  afterPass sampleLibraries .standard (fun _ => "") sampleChrono singleExecutor (ContextUri.ofTenant "t")

def idleProcessed (uris : List ContextUri) (n : ℕ) : List (List ContextUri) :=
  processed sampleLibraries .standard (fun _ => "") sampleChrono singleExecutor (ContextUri.ofTenant "t")
    (worldWith uris) (idlePasses n)

def NoGrant (w : World) (call : PassCall) : Prop :=
  ∀ step ∈ (runOnce sampleChrono singleExecutor call.1 (ContextUri.ofTenant "t")).run.trace
    (exec sampleLibraries .standard (fun _ => ""))
    w call.2, granted step.2.1 step.2.2 = false

instance (w : World) (call : PassCall) : Decidable (NoGrant w call) := List.decidableBAll _ _

theorem idle_undisturbed {w : World} {n : ℕ} (h : StateMachine.Meets idleStep NoGrant w (idlePasses n)) :
    StateMachine.Meets idleStep
      (Undisturbed sampleLibraries .standard (fun _ => "") sampleChrono singleExecutor (ContextUri.ofTenant "t")) w
      (idlePasses n) := by
  have ho : StateMachine.Meets idleStep (fun _ call => ∀ n, (call.2 n).others = []) w (idlePasses n) := by
    refine StateMachine.meets_of_mem (fun call hc _ _ => ?_) w
    rw [(List.mem_replicate.mp hc).2]
    rfl
  exact ho.and h

theorem scope_covered_dash :
    (Sweep.sweep (idleProcessed [dashUri] 2)).length < (idleProcessed [dashUri] 2).length ∧
      ((∀ uri ∈ scopeUris (ContextUri.ofTenant "t") (worldWith [dashUri]),
        uri ∈ (Sweep.sweep (idleProcessed [dashUri] 2)).flatten) ↔
        Sweep.PagesAhead (ahead sampleChrono) (pageLimit singleExecutor)
        (scopeUris (ContextUri.ofTenant "t") (worldWith [dashUri]))) := by
  obtain ⟨hg, hm⟩ : StateMachine.Meets idleStep NoGrant (worldWith [dashUri]) (idlePasses 2) ∧
      (scopeUris (ContextUri.ofTenant "t") (worldWith [dashUri])).length <
        (idleProcessed [dashUri] 2).length := by decide +kernel
  exact scope_covered_iff sampleLibraries .standard (fun _ => "") sampleChrono singleExecutor (ContextUri.ofTenant "t")
    (writesOf [dashUri]) (worldWith [dashUri]) rfl (by decide) rfl rfl (idlePasses 2) (idle_undisturbed hg) hm

/-- The text a-b comes before a/c, and the path a/c before a-b: the second pass filters its whole page out, and the cursor
is reset. -/
theorem folder_skipped :
    StateMachine.Meets idleStep
        (Undisturbed sampleLibraries .standard (fun _ => "") sampleChrono singleExecutor (ContextUri.ofTenant "t"))
        (worldWith [dashUri, folderUri]) (idlePasses 3) ∧
      (scopeUris (ContextUri.ofTenant "t") (worldWith [dashUri, folderUri])).length <
      (idleProcessed [dashUri, folderUri] 3).length ∧
      ¬ ∀ uri ∈ scopeUris (ContextUri.ofTenant "t") (worldWith [dashUri, folderUri]),
        uri ∈ (Sweep.sweep (idleProcessed [dashUri, folderUri] 3)).flatten := by
  obtain ⟨hg, ha, hs, hp⟩ :
      StateMachine.Meets idleStep NoGrant (worldWith [dashUri, folderUri]) (idlePasses 3) ∧
      (scopeUris (ContextUri.ofTenant "t") (worldWith [dashUri, folderUri])).length <
        (idleProcessed [dashUri, folderUri] 3).length ∧
      folderUri ∈ scopeUris (ContextUri.ofTenant "t") (worldWith [dashUri, folderUri]) ∧
      idleProcessed [dashUri, folderUri] 3 = [[dashUri], [], [dashUri]] := by decide +kernel
  refine ⟨idle_undisturbed hg, ha, fun hl => ?_⟩
  have hm := hl folderUri hs
  rw [hp] at hm
  exact absurd hm (by decide +kernel)

end Samples

end UwuContextDb.Sleeptime
