import UwuContextDb.Version.MergeAgreement

/-! The three-way merge of snapshots as a map: what it holds at every URI, whatever the strategy and the order of the
keys. -/

namespace UwuContextDb.Version

open StateMachine ThreeWay
open SqliteVersionStore (Parses)

/-- The strategy that favours the same side once the sides are exchanged; SQLite takes `FastForward` for `Theirs`. -/
def MergeStrategy.swapped : MergeStrategy → MergeStrategy
  | .ours => .theirs
  | .theirs => .ours
  | .threeWay => .threeWay
  | .fastForward => .ours

structure VisitOrder (base ours theirs : Snapshot) where
  keys : List String
  perm : keys.Perm (mergeKeys base ours theirs)

namespace SqliteVersionStore

/-- The loop of `merge` from our snapshot on. -/
def threeWayMerge (strategy : MergeStrategy) (base ours theirs : Snapshot) (order : VisitOrder base ours theirs) :
    Except VersionError (Snapshot × List ContextUri) :=
  mergeSnapshots (mergeUri strategy) invalidUri base ours theirs order.keys ours

end SqliteVersionStore

structure MergesThreeWay (strategy : MergeStrategy) (base ours theirs merged : Snapshot)
    (conflicts : List ContextUri) : Prop where
  agreed : ∀ uri : String, ours[uri]? = theirs[uri]? → merged[uri]? = ours[uri]?
  theirsChanged : ∀ uri : String, ours[uri]? = base[uri]? → merged[uri]? = theirs[uri]?
  oursChanged : ∀ uri : String, theirs[uri]? = base[uri]? → merged[uri]? = ours[uri]?
  resolvedOurs : strategy = .ours → ∀ uri : String, Conflict base[uri]? ours[uri]? theirs[uri]? → merged[uri]? = ours[uri]?
  resolvedTheirs : strategy = .theirs → ∀ uri : String, Conflict base[uri]? ours[uri]? theirs[uri]? →
    merged[uri]? = theirs[uri]?
  conflicting : ∀ u, u ∈ conflicts ↔ strategy = .threeWay ∧
    ∃ uri : String, ContextUri.parse uri = .ok u ∧ Conflict base[uri]? ours[uri]? theirs[uri]?
  once : conflicts.Nodup

variable {base ours theirs : Snapshot} {r : Snapshot × List ContextUri}

section Loop

variable {pick : Option Json → Option Json → Option Json → Option Json × Bool} {invalid : String → VersionError}
  {merged : Snapshot} {keys : List String}

def reportAt (pick : Option Json → Option Json → Option Json → Option Json × Bool)
    (base ours theirs : Snapshot) (uri : String) :
    Option ContextUri :=
  if (pick base[uri]? ours[uri]? theirs[uri]?).2 then (ContextUri.parse uri).toOption else none

theorem conflictUri_report {uri : String} {us : List ContextUri}
    (h : conflictUri invalid uri (pick base[uri]? ours[uri]? theirs[uri]?).2 = .ok us) :
    us = (reportAt pick base ours theirs uri).toList := by
  unfold reportAt
  cases hc : (pick base[uri]? ours[uri]? theirs[uri]?).2 with
  | false =>
    rw [hc] at h
    cases h
    rfl
  | true =>
    rw [hc] at h
    cases hp : ContextUri.parse uri with
    | error e => simp [conflictUri,hp] at h
    | ok u =>
      simp only [conflictUri,hp] at h
      cases h
      rfl

/-- The loop sets each of its URIs to what is picked there, and reports the conflicts among them in their order. -/
theorem mergeSnapshots_spec (h : mergeSnapshots pick invalid base ours theirs keys merged = .ok r) :
    (∀ u, r.1[u]? = if u ∈ keys then (pick base[u]? ours[u]? theirs[u]?).1 else merged[u]?) ∧
      r.2 = keys.filterMap (reportAt pick base ours theirs) := by
  induction keys generalizing merged r with
  | nil =>
    cases h
    exact ⟨fun u => rfl,rfl⟩
  | cons key keys ih =>
    rw [mergeSnapshots_cons] at h
    obtain ⟨us,hu,h⟩ := bind_eq_ok.mp h
    obtain ⟨rest,hr,rfl⟩ := map_eq_ok.mp h
    obtain ⟨hv,hp⟩ := ih hr
    constructor
    · intro u
      rw [hv u,getElem?_setValue]
      by_cases hk : u ∈ keys
      · simp [hk]
      · by_cases he : key = u
        · subst he
          simp [hk]
        · simp [hk,he,Ne.symm he]
    · show us ++ rest.2 = _
      rw [conflictUri_report hu,hp,List.filterMap_cons]
      cases reportAt pick base ours theirs key <;> rfl

end Loop

variable {strat : MergeStrategy}

section Merge

variable {ord : VisitOrder base ours theirs}

def MergeStrategy.resolve (strategy : MergeStrategy) (ours theirs : Option Json) : Option Json :=
  match strategy with
  | .theirs | .fastForward => theirs
  | .ours | .threeWay => ours

theorem mergeUri_fst (b o t : Option Json) :
    (SqliteVersionStore.mergeUri strat b o t).1 = choose (strat.resolve o t) b o t := by
  unfold SqliteVersionStore.mergeUri choose
  split
  · rfl
  · split
    · rfl
    · cases strat <;> rfl

theorem mem_mergeKeys {u : String} : u ∈ mergeKeys base ours theirs ↔ u ∈ base ∨ u ∈ theirs ∨ u ∈ ours := by
  simp [mergeKeys]

theorem threeWayMerge_getElem? (h : SqliteVersionStore.threeWayMerge strat base ours theirs ord = .ok r)
    (u : String) :
    r.1[u]? = choose (strat.resolve ours[u]? theirs[u]?) base[u]? ours[u]? theirs[u]? := by
  rw [(mergeSnapshots_spec h).1 u]
  split
  · exact mergeUri_fst _ _ _
  · rename_i hk
    rw [ord.perm.mem_iff,mem_mergeKeys] at hk
    push Not at hk
    have hb : base[u]? = none := Std.ExtTreeMap.getElem?_eq_none hk.1
    have ht : theirs[u]? = none := Std.ExtTreeMap.getElem?_eq_none hk.2.1
    simp [choose,hb,ht]

theorem mem_conflicts (h : SqliteVersionStore.threeWayMerge strat base ours theirs ord = .ok r) (u : ContextUri) :
    u ∈ r.2 ↔ strat = .threeWay ∧ ∃ uri :
    String, ContextUri.parse uri = .ok u ∧ Conflict base[uri]? ours[uri]? theirs[uri]? := by
  have hr : ∀ uri : String, reportAt (SqliteVersionStore.mergeUri strat) base ours theirs uri = some u ↔
      (strat = .threeWay ∧ Conflict base[uri]? ours[uri]? theirs[uri]?) ∧ ContextUri.parse uri = .ok u := by
    intro uri
    unfold reportAt
    rw [← mergeUri_conflict]
    cases (SqliteVersionStore.mergeUri strat base[uri]? ours[uri]? theirs[uri]?).2 with
    | false => simp
    | true => cases ContextUri.parse uri <;> simp [Except.toOption]
  rw [(mergeSnapshots_spec h).2,List.mem_filterMap]
  constructor
  · rintro ⟨uri,-,hu⟩
    obtain ⟨⟨hs,hc⟩,hp⟩ := (hr uri).mp hu
    exact ⟨hs,uri,hp,hc⟩
  · rintro ⟨hs,uri,hp,hc⟩
    exact ⟨uri,ord.perm.mem_iff.mpr (mem_mergeKeys_of_conflict hc),(hr uri).mpr ⟨⟨hs,hc⟩,hp⟩⟩

theorem nodup_conflicts (h : SqliteVersionStore.threeWayMerge strat base ours theirs ord = .ok r) : r.2.Nodup := by
  rw [(mergeSnapshots_spec h).2]
  have hk : ord.keys.Nodup := ord.perm.nodup_iff.mpr (List.nodup_dedup _)
  refine hk.filterMap (fun uri uri' u hu hu' => ?_)
  have hc : ∀ {uri : String}, u ∈ reportAt (SqliteVersionStore.mergeUri strat) base ours theirs uri →
      u.canonical = uri := by
    intro uri hu
    unfold reportAt at hu
    split at hu
    · cases hp : ContextUri.parse uri with
      | error e => simp [hp,Except.toOption] at hu
      | ok parsed =>
        simp only [hp,Except.toOption,Option.mem_some_iff] at hu
        exact hu ▸ ContextUri.parse_canonical hp
    · simp at hu
  exact (hc hu).symm.trans (hc hu')

theorem mergesThreeWay (h : SqliteVersionStore.threeWayMerge strat base ours theirs ord = .ok r) :
    MergesThreeWay strat base ours theirs r.1 r.2 := by
  have hv := threeWayMerge_getElem? h
  refine ⟨?_,?_,?_,?_,?_,mem_conflicts h,nodup_conflicts h⟩
  · intro u ha
    rw [hv,ha]
    simp [choose]
  · intro u ho
    rw [hv,ho]
    unfold choose
    split
    · rename_i ht
      exact ht.symm
    · simp
  · intro u ht
    rw [hv]
    exact if_pos ht
  · rintro rfl u hc
    rw [hv,choose_of_conflict hc]
    rfl
  · rintro rfl u hc
    rw [hv,choose_of_conflict hc]
    rfl

theorem threeWayMerge_isOk : (∃ r, SqliteVersionStore.threeWayMerge strat base ours theirs ord = .ok r) ↔
    ¬ (strat = .threeWay ∧ ∃ u : String, Conflict base[u]? ours[u]? theirs[u]? ∧ ¬ Parses u) := by
  unfold SqliteVersionStore.threeWayMerge
  rw [← @mergeSnapshots_mergeUri_isOk SqliteVersionStore.invalidUri,mergeSnapshots_isOk,mergeSnapshots_isOk]
  exact forall_congr' (fun u => imp_congr ord.perm.mem_iff Iff.rfl)

/-- What the merge of two sides obeys: it succeeds unless it has to report a conflict at a URI that does not parse, and then
neither the order of the keys nor the order of the sides matters. -/
structure MergeLaws (strategy : MergeStrategy) (base ours theirs : Snapshot)
    (order : VisitOrder base ours theirs) : Prop where
  succeeds : (∃ r, SqliteVersionStore.threeWayMerge strategy base ours theirs order = .ok r) ↔
    ¬ (strategy = .threeWay ∧ ∃ uri : String, Conflict base[uri]? ours[uri]? theirs[uri]? ∧ ¬ Parses uri)
  merges : ∀ r, SqliteVersionStore.threeWayMerge strategy base ours theirs order = .ok r →
    MergesThreeWay strategy base ours theirs r.1 r.2
  reordered : ∀ (order' : VisitOrder base ours theirs) r r',
    SqliteVersionStore.threeWayMerge strategy base ours theirs order = .ok r →
    SqliteVersionStore.threeWayMerge strategy base ours theirs order' = .ok r' → r'.1 = r.1 ∧ r'.2.Perm r.2
  swapped : ∀ (order' : VisitOrder base theirs ours) r r',
    SqliteVersionStore.threeWayMerge strategy base ours theirs order = .ok r →
    SqliteVersionStore.threeWayMerge strategy.swapped base theirs ours order' = .ok r' →
      (strategy ≠ .threeWay → r'.1 = r.1) ∧ r'.2.Perm r.2 ∧
        ∀ uri : String, ¬ Conflict base[uri]? ours[uri]? theirs[uri]? → r'.1[uri]? = r.1[uri]?

theorem swapped_eq_threeWay : strat.swapped = .threeWay ↔ strat = .threeWay := by cases strat <;> decide

theorem resolve_swapped (h : strat ≠ .threeWay) (ours theirs : Option Json) :
    strat.swapped.resolve theirs ours = strat.resolve ours theirs := by
  cases strat with
  | threeWay => exact absurd rfl h
  | _ => rfl

theorem threeWayMerge_laws (strategy : MergeStrategy) (base ours theirs : Snapshot) (order : VisitOrder base ours theirs) :
    MergeLaws strategy base ours theirs order := by
  refine ⟨threeWayMerge_isOk, fun r h => mergesThreeWay h, ?_, ?_⟩
  · intro order' r r' h h'
    constructor
    · apply Std.ExtTreeMap.ext_getElem?
      intro uri
      rw [threeWayMerge_getElem? h, threeWayMerge_getElem? h']
    · apply (List.perm_ext_iff_of_nodup (nodup_conflicts h') (nodup_conflicts h)).mpr
      intro u
      rw [mem_conflicts h, mem_conflicts h']
  · intro order' r r' h h'
    refine ⟨fun hs => ?_, ?_, ?_⟩
    · apply Std.ExtTreeMap.ext_getElem?
      intro uri
      rw [threeWayMerge_getElem? h, threeWayMerge_getElem? h', resolve_swapped hs, choose_comm]
    · apply (List.perm_ext_iff_of_nodup (nodup_conflicts h') (nodup_conflicts h)).mpr
      intro u
      rw [mem_conflicts h, mem_conflicts h', swapped_eq_threeWay]
      exact and_congr_right (fun _ => exists_congr (fun uri => and_congr_right (fun _ => ⟨Conflict.symm, Conflict.symm⟩)))
    · intro uri hn
      rw [threeWayMerge_getElem? h, threeWayMerge_getElem? h', choose_comm, choose_of_not_conflict hn,
        choose_of_not_conflict hn]

end Merge

section Committed

variable {s s' : SqliteVersionStore} {ord : RowOrder} {sc : ContextUri} {from_ into : BranchName}
  {now : DateTime} {res : MergeResult} {fh nh : CommitId}

end Committed

end UwuContextDb.Version
