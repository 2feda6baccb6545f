import UwuContextDb.Core.Serde
import UwuContextDb.Library.MapEdit
import UwuContextDb.Version.Model

/-! Delta rows: how a commit's changes are stored and how they are replayed on a snapshot. -/

namespace UwuContextDb.Version

open MapEdit

/-- The `op` column together with the column it needs: `entry_json` or `rename_from`. -/
inductive DeltaOp | add (entry : Json) | update (entry : Json) | delete | rename (source : String)
  deriving DecidableEq

structure DeltaRow where
  uri : String
  op : DeltaOp
  deriving DecidableEq

/-- One step of `apply_deltas`. -/
def applyDelta (snapshot : Snapshot) (d : DeltaRow) : Snapshot :=
  match d.op with
  | .add v => snapshot.insert d.uri v
  | .update v => snapshot.insert d.uri v
  | .delete => snapshot.erase d.uri
  | .rename source =>
    match snapshot[source]? with
    | some v => (snapshot.erase source).insert d.uri v
    | none => snapshot

def applyDeltas (snapshot : Snapshot) (deltas : List DeltaRow) : Snapshot :=
  deltas.foldl applyDelta snapshot

/-- The rows of one commit in `version_entry_deltas`, whose key is `(commit_id, uri)`. -/
abbrev DeltaTable := Std.ExtTreeMap String DeltaOp

/-- `insert_deltas`: a later row of the same URI replaces the earlier one. -/
def insertDeltas (deltas : List DeltaRow) : DeltaTable :=
  deltas.foldl (fun t d => t.insert d.uri d.op) ∅

def DeltaTable.rows (t : DeltaTable) : List DeltaRow := t.toList.map (fun e => ⟨e.1, e.2⟩)

structure RowOrder where
  order : CommitId → List DeltaRow → List DeltaRow
  perm : ∀ id rows, (order id rows).Perm rows

def RowOrder.asStored : RowOrder := ⟨fun _ rows => rows, fun _ rows => .refl rows⟩

def RowOrder.reversed : RowOrder := ⟨fun _ rows => rows.reverse, fun _ rows => rows.reverse_perm⟩

structure SnapshotReads where
  firstParent : CommitId → Option CommitId
  hit : CommitId → Option Snapshot
  deltas : CommitId → List DeltaRow

namespace SnapshotReads

variable (r : SnapshotReads)

/-- The loop of `reconstruct_snapshot`: the commits to replay, oldest first, and the seed. -/
def collectChain : ℕ → List CommitId → CommitId → List CommitId × Snapshot
  | 0, chain, _ => (chain, ∅)
  | fuel+1, chain, cur =>
    match r.firstParent cur with
    | none => (chain, ∅)
    | some p =>
      if p ∈ chain then (chain, ∅) else
        match r.hit p with
        | some snap => (chain, snap)
        | none => collectChain fuel (p::chain) p

/-- `reconstruct_snapshot`. -/
def reconstruct (fuel : ℕ) (id : CommitId) : Snapshot :=
  match r.hit id with
  | some snap => snap
  | none =>
    let (chain, seed) := r.collectChain fuel [id] id
    chain.foldl (fun snapshot c => applyDeltas snapshot (r.deltas c)) seed

def base (fuel : ℕ) : Option CommitId → Snapshot
  | some id => r.reconstruct fuel id
  | none => ∅

/-- The reads when the snapshots of `ids` are taken to be empty. -/
def forget (ids : List CommitId) : SnapshotReads := { r with hit := fun c => if c ∈ ids then some ∅ else r.hit c }

variable {r}

/-- Where parents are older, the walk does not look at what it has collected, nor at its fuel when
that exceeds the commit it stands on. -/
theorem collectChain_append (hd : ∀ id p : ℕ, r.firstParent id = some p → p < id) {fuel fuel' cur : ℕ}
    {chain rest : List CommitId} (hf : cur < fuel) (hf' : cur < fuel') (hh : ∀ c ∈ chain, cur ≤ c)
    (hr : ∀ c ∈ rest, cur ≤ c) : r.collectChain fuel (chain++rest) cur =
      ((r.collectChain fuel' chain cur).1++rest, (r.collectChain fuel' chain cur).2) := by
  induction fuel generalizing fuel' cur chain with
  | zero => simp at hf
  | succ fuel ih =>
    cases fuel' with
    | zero => simp at hf'
    | succ fuel' =>
      cases hp : r.firstParent cur with
      | none => simp [collectChain,hp]
      | some p =>
        have hl := hd cur p hp
        have ho : p ∉ chain := fun hc => absurd (hh p hc) (Nat.not_le.mpr hl)
        have ho' : p ∉ rest := fun hc => absurd (hr p hc) (Nat.not_le.mpr hl)
        cases hc : r.hit p with
        | some snap => simp [collectChain,hp,ho,ho',hc]
        | none =>
          have hh' : ∀ c ∈ p::chain, p ≤ c := by
            intro c hm
            rcases List.mem_cons.mp hm with rfl | hm
            · exact le_rfl
            · exact hl.le.trans (hh c hm)
          have hfl : p < fuel := Nat.lt_of_lt_of_le hl (Nat.le_of_lt_succ hf)
          have hfl' : p < fuel' := Nat.lt_of_lt_of_le hl (Nat.le_of_lt_succ hf')
          have hn := ih hfl hfl' hh' (fun c hm => hl.le.trans (hr c hm))
          simpa [collectChain,hp,ho,ho',hc] using hn

theorem reconstruct_fuel (ho : ∀ id p : ℕ, r.firstParent id = some p → p < id) {fuel fuel' id : ℕ}
    (hf : id < fuel) (hf' : id < fuel') : r.reconstruct fuel id = r.reconstruct fuel' id := by
  have hw : r.collectChain fuel ([id]++[]) id = _ := collectChain_append ho hf hf' (by simp) (by simp)
  simp only [List.append_nil] at hw
  simp only [reconstruct,hw]

theorem reconstruct_step (ho : ∀ id p : ℕ, r.firstParent id = some p → p < id) {fuel id : ℕ}
    (hfl : id < fuel) (hh : r.hit id = none) :
    r.reconstruct fuel id = applyDeltas (r.base fuel (r.firstParent id)) (r.deltas id) := by
  obtain ⟨fuel,rfl⟩ : ∃ n, fuel = n + 1 := ⟨fuel - 1,by omega⟩
  cases hp : r.firstParent id with
  | none => simp [reconstruct,hh,collectChain,hp,base]
  | some p =>
    have hl := ho id p hp
    have hn : p ≠ id := Nat.ne_of_lt hl
    cases hk : r.hit p with
    | some snap => simp [reconstruct,hh,collectChain,hp,hn,hk,base]
    | none =>
      have hf : p < fuel := Nat.lt_of_lt_of_le hl (Nat.le_of_lt_succ hfl)
      have hw : r.collectChain fuel ([p]++[id]) p = _ :=
        collectChain_append ho hf (Nat.lt_succ_of_lt hf) (by simp) (by simp [hl.le])
      have hs : r.collectChain (fuel+1) [id] id = r.collectChain fuel ([p]++[id]) p := by
        simp [collectChain,hp,hn,hk]
      simp only [reconstruct,hh,hk,hs,hw,base,List.foldl_append,List.foldl_cons,List.foldl_nil]

theorem reconstruct_congr {r' : SnapshotReads} {S : CommitId → Prop}
    (hl : ∀ id p, S id → r.hit id = none → r.firstParent id = some p → S p)
    (hg : ∀ id, S id → r'.firstParent id = r.firstParent id ∧ r'.hit id = r.hit id ∧ r'.deltas id = r.deltas id)
    (fuel : ℕ) {id : CommitId} (hd : S id) : r'.reconstruct fuel id = r.reconstruct fuel id := by
  have hw : ∀ (fuel : ℕ) (chain : List CommitId) (cur : CommitId), S cur → r.hit cur = none → (∀ c ∈ chain, S c) →
      r'.collectChain fuel chain cur = r.collectChain fuel chain cur ∧ ∀ c ∈ (r.collectChain fuel chain cur).1, S c := by
    intro fuel
    induction fuel with
    | zero => exact fun chain cur _ _ ha => ⟨rfl,ha⟩
    | succ fuel ih =>
      intro chain cur hu hi ha
      simp only [collectChain,(hg cur hu).1]
      cases hp : r.firstParent cur with
      | none => exact ⟨rfl,ha⟩
      | some p =>
        have hSp := hl cur p hu hi hp
        by_cases hm : p ∈ chain
        · simpa [hm] using ha
        · cases hh : r.hit p with
          | some snap => simpa [hm,(hg p hSp).2.1,hh] using ha
          | none =>
            have hn := ih (p::chain) p hSp hh (List.forall_mem_cons.mpr ⟨hSp,ha⟩)
            simpa [hm,(hg p hSp).2.1,hh] using hn
  have hf : ∀ (chain : List CommitId) (seed : Snapshot), (∀ c ∈ chain, S c) →
      chain.foldl (fun s c => applyDeltas s (r'.deltas c)) seed =
      chain.foldl (fun s c => applyDeltas s (r.deltas c)) seed := by
    intro chain
    induction chain with
    | nil => exact fun seed _ => rfl
    | cons c chain ih =>
      intro seed ha
      obtain ⟨hc,ha⟩ := List.forall_mem_cons.mp ha
      simp only [List.foldl_cons,(hg c hc).2.2]
      exact ih _ ha
  cases hi : r.hit id with
  | some snap => simp only [reconstruct,(hg id hd).2.1,hi]
  | none =>
    obtain ⟨ha,hS⟩ := hw fuel [id] id hd hi (by simpa using hd)
    simp only [reconstruct,(hg id hd).2.1,hi,ha,hf _ _ hS]

end SnapshotReads

/-- `diff_snapshots`: the changes of `dst` relative to `src`. -/
def diffSnapshots (src dst : Snapshot) : List DeltaRow :=
  dst.toList.filterMap (fun (uri, dv) =>
    match src[uri]? with
    | none => some ⟨uri, .add dv⟩
    | some sv => if sv ≠ dv then some ⟨uri, .update dv⟩ else none) ++
  src.keys.filterMap (fun uri => if uri ∈ dst then none else some ⟨uri, .delete⟩)

/-- The update check shared by both stores' `commit`. -/
def checkUpdates (updates : List UriChange) : Except VersionError Unit :=
  match updates.find? (fun upd => upd.entry.uri ≠ upd.uri) with
  | some upd => .error (.storage
      s!"update URI {upd.uri.canonical} does not match entry URI {upd.entry.uri.canonical}")
  | none => .ok ()

/-- The rows `commit` builds from its change set: adds, updates, deletes, renames. -/
def changeRows (changes : ChangeSet) : Except VersionError (List DeltaRow) := do
  checkUpdates changes.updates
  return changes.adds.map (fun e => ⟨e.uri.canonical, .add e.toValue⟩) ++
    changes.updates.map (fun upd => ⟨upd.uri.canonical, .update upd.entry.toValue⟩) ++
    changes.deletes.map (fun uri => ⟨uri.canonical, .delete⟩) ++
    changes.renames.map (fun r => ⟨r.toUri.canonical, .rename r.fromUri.canonical⟩)

/-- `HashMap::insert` or `HashMap::remove`. -/
def setValue (snapshot : Snapshot) (uri : String) : Option Json → Snapshot
  | some value => snapshot.insert uri value
  | none => snapshot.erase uri

@[simp] theorem getElem?_setValue (snapshot : Snapshot) (u k : String) (value : Option Json) :
    (setValue snapshot u value)[k]? = if u = k then value else snapshot[k]? := by
  cases value with
  | none => simp [setValue,Std.ExtTreeMap.getElem?_erase]
  | some v => simp [setValue,Std.ExtTreeMap.getElem?_insert]

def conflictUri (invalid : String → VersionError) (uri : String) : Bool → Except VersionError (List ContextUri)
  | false => .ok []
  | true =>
    match ContextUri.parse uri with
    | .ok u => .ok [u]
    | .error _ => .error (invalid uri)

/-- The loop of both stores' `merge` over the URIs of the three snapshots; `pick` decides one URI
from its value in the base, in ours and in theirs. -/
def mergeSnapshots (pick : Option Json → Option Json → Option Json → Option Json × Bool)
    (invalid : String → VersionError) (base ours theirs : Snapshot) :
    List String → Snapshot → Except VersionError (Snapshot × List ContextUri)
  | [], merged => .ok (merged, [])
  | uri::uris, merged => do
    let (value, conflict) := pick base[uri]? ours[uri]? theirs[uri]?
    let conflicted ← conflictUri invalid uri conflict
    let (merged, conflicts) ← mergeSnapshots pick invalid base ours theirs uris (setValue merged uri value)
    return (merged, conflicted ++ conflicts)

def mergeKeys (base ours theirs : Snapshot) : List String := (base.keys ++ theirs.keys ++ ours.keys).dedup

/-- Seconds since the epoch, `t.timestamp() as u64`. -/
def clockOf : Option DateTime → ℕ
  | some t => (t / 1000000000 % 2 ^ 64).toNat
  | none => 0

def DeltaOp.edit : DeltaOp → Edit String Json
  | .add v => .put v
  | .update v => .put v
  | .delete => .drop
  | .rename source => .moveFrom source

def DeltaRow.edit (d : DeltaRow) : String × Edit String Json := (d.uri, d.op.edit)

theorem applyDelta_eq_apply (s : Snapshot) (d : DeltaRow) : applyDelta s d = apply s d.edit := by
  obtain ⟨u,op⟩ := d
  cases op with
  | add v => rfl
  | update v => rfl
  | delete => rfl
  | rename src =>
    simp only [applyDelta,DeltaRow.edit,DeltaOp.edit,apply]
    cases s[src]? <;> rfl

theorem applyDeltas_eq_replay (s : Snapshot) (ds : List DeltaRow) :
    applyDeltas s ds = replay s (ds.map DeltaRow.edit) := by
  induction ds generalizing s with
  | nil => rfl
  | cons d ds ih => simpa [applyDeltas,applyDelta_eq_apply] using ih (apply s d.edit)

def DeltaTable.edits (t : DeltaTable) : List (String × Edit String Json) := t.rows.map DeltaRow.edit

variable {u : String} {w : Edit String Json} {src dst : Snapshot}

theorem DeltaTable.mem_edits {t : DeltaTable} : (u, w) ∈ t.edits ↔ ∃ op, t[u]? = some op ∧ op.edit = w := by
  simp only [edits,rows,DeltaRow.edit,List.map_map,List.mem_map,Function.comp_apply,Prod.mk.injEq]
  constructor
  · rintro ⟨⟨k,op⟩,hm,rfl,rfl⟩
    exact ⟨op,Std.ExtTreeMap.mem_toList_iff_getElem?_eq_some.mp hm,rfl⟩
  · rintro ⟨op,ho,rfl⟩
    exact ⟨(u, op),Std.ExtTreeMap.mem_toList_iff_getElem?_eq_some.mpr ho,rfl,rfl⟩

theorem DeltaTable.edits_keys_nodup (t : DeltaTable) : (t.edits.map Prod.fst).Nodup := by
  have h : t.edits.map Prod.fst = t.keys := by
    simp [edits,rows,DeltaRow.edit,Function.comp_def,← Std.ExtTreeMap.map_fst_toList_eq_keys]
  rw [h]
  exact Std.ExtTreeMap.nodup_keys

theorem getElem?_insertDeltas (ds : List DeltaRow) (u : String) :
    (insertDeltas ds)[u]?.map DeltaOp.edit = lastEdit (ds.map DeltaRow.edit) u := by
  induction ds using List.reverseRecOn with
  | nil => simp [insertDeltas]
  | append_singleton ds d ih =>
    simp only [insertDeltas] at ih
    simp only [insertDeltas,List.foldl_append,List.foldl_cons,List.foldl_nil,List.map_append,
      List.map_cons,List.map_nil,lastEdit_concat,Std.ExtTreeMap.getElem?_insert]
    by_cases h : d.uri = u <;> simp [DeltaRow.edit,h,ih]

theorem mem_edits_insertDeltas {ds : List DeltaRow} :
    (u, w) ∈ (insertDeltas ds).edits ↔ lastEdit (ds.map DeltaRow.edit) u = some w := by
  rw [DeltaTable.mem_edits,← getElem?_insertDeltas]
  simp

theorem mem_diffSnapshots :
    (u, w) ∈ (diffSnapshots src dst).map DeltaRow.edit ↔
      (∃ v, w = .put v ∧ dst[u]? = some v ∧ src[u]? ≠ some v) ∨ (w = .drop ∧ dst[u]? = none ∧ u ∈ src) := by
  simp only [diffSnapshots,List.map_append,List.mem_append,List.mem_map,List.mem_filterMap,Prod.exists,
    Std.ExtTreeMap.mem_toList_iff_getElem?_eq_some,Std.ExtTreeMap.mem_keys]
  constructor
  · rintro (⟨d,⟨k,v,hv,hd⟩,he⟩ | ⟨d,⟨k,hk,hd⟩,he⟩)
    · left
      cases hs : src[k]? with
      | none =>
        simp only [hs,Option.some.injEq] at hd
        subst hd
        obtain ⟨rfl,rfl⟩ := Prod.mk.inj he
        exact ⟨v,rfl,hv,by simp [hs]⟩
      | some sv =>
        simp only [hs] at hd
        split at hd
        · rename_i hne
          obtain rfl := Option.some.inj hd
          obtain ⟨rfl,rfl⟩ := Prod.mk.inj he
          exact ⟨v,rfl,hv,by simpa [hs] using hne⟩
        · simp at hd
    · right
      split at hd
      · simp at hd
      · rename_i hc
        obtain rfl := Option.some.inj hd
        obtain ⟨rfl,rfl⟩ := Prod.mk.inj he
        exact ⟨rfl,by simpa using hc,hk⟩
  · rintro (⟨v,rfl,hv,hne⟩ | ⟨rfl,hn,hk⟩)
    · left
      cases hs : src[u]? with
      | none => exact ⟨⟨u, .add v⟩,⟨u,v,hv,by simp [hs]⟩,rfl⟩
      | some sv =>
        have hsv : sv ≠ v := by simpa [hs] using hne
        exact ⟨⟨u, .update v⟩,⟨u,v,hv,by simp [hs,hsv]⟩,rfl⟩
    · right
      have hc : u ∉ dst := by simpa using hn
      exact ⟨⟨u, .delete⟩,⟨u,hk,by simp [hc]⟩,rfl⟩

theorem exists_diffSnapshots : (∃ w, (u, w) ∈ (diffSnapshots src dst).map DeltaRow.edit) ↔ dst[u]? ≠ src[u]? := by
  constructor
  · rintro ⟨w,hw⟩
    rcases mem_diffSnapshots.mp hw with ⟨v,-,hv,hs⟩ | ⟨-,hn,hs⟩
    · rw [hv]
      exact Ne.symm hs
    · rw [hn]
      exact fun hs' => absurd hs (by simpa using hs'.symm)
  · intro he
    cases hd : dst[u]? with
    | some v => exact ⟨.put v,mem_diffSnapshots.mpr (.inl ⟨v,rfl,hd,hd ▸ Ne.symm he⟩)⟩
    | none =>
      rw [hd] at he
      exact ⟨.drop,mem_diffSnapshots.mpr (.inr ⟨rfl,hd,by simpa using Ne.symm he⟩)⟩

theorem applyDeltas_diff_of_perm {deltas rows : List DeltaRow}
    (hd : deltas.Perm (diffSnapshots src dst)) (hp : rows.Perm (insertDeltas deltas).rows) :
    applyDeltas src rows = dst := by
  have hi : ∀ e, e ∈ deltas.map DeltaRow.edit ↔ e ∈ (diffSnapshots src dst).map DeltaRow.edit := by
    intro e
    exact (hd.map DeltaRow.edit).mem_iff
  have hm : ∀ u w, (u, w) ∈ (insertDeltas deltas).edits ↔ (u, w) ∈ (diffSnapshots src dst).map DeltaRow.edit := by
    intro u w
    rw [mem_edits_insertDeltas,← hi]
    refine lastEdit_eq_some_iff (fun k w w' hw hw' => ?_)
    rw [hi,mem_diffSnapshots] at hw hw'
    rcases hw with ⟨v,rfl,hv,-⟩ | ⟨rfl,hn,-⟩ <;> rcases hw' with ⟨v',rfl,hv',-⟩ | ⟨rfl,hn',-⟩
    · rw [hv] at hv'
      rw [Option.some.inj hv']
    · simp [hv] at hn'
    · simp [hn] at hv'
    · rfl
  have hr : ∀ e ∈ (insertDeltas deltas).edits, e.2.isWrite = true := by
    rintro ⟨u,w⟩ he
    rcases mem_diffSnapshots.mp ((hm u w).mp he) with ⟨v,rfl,-⟩ | ⟨rfl,-⟩ <;> rfl
  have hs := Separated.of_writes (m := src) hr (DeltaTable.edits_keys_nodup _)
  rw [applyDeltas_eq_replay,hs.replay_perm (hp.map DeltaRow.edit)]
  refine Std.ExtTreeMap.ext_getElem? (fun u => ?_)
  rw [getElem?_replay_writes hr]
  cases hl : lastEdit (insertDeltas deltas).edits u with
  | some w =>
    rcases mem_diffSnapshots.mp ((hm u w).mp (mem_of_lastEdit hl)) with ⟨v,rfl,hv,-⟩ | ⟨rfl,hn,-⟩
    · exact hv.symm
    · exact hn.symm
  | none =>
    have ho : ∀ w, (u, w) ∉ (diffSnapshots src dst).map DeltaRow.edit := by
      intro w hw
      exact lastEdit_eq_none.mp hl w ((hm u w).mpr hw)
    cases hd : dst[u]? with
    | some v =>
      by_contra hne
      exact ho (.put v) (mem_diffSnapshots.mpr (.inl ⟨v,rfl,hd,hne⟩))
    | none =>
      by_contra hne
      exact ho .drop (mem_diffSnapshots.mpr (.inr ⟨rfl,hd,by simpa using hne⟩))

theorem applyDeltas_diff {rows : List DeltaRow}
    (hp : rows.Perm (insertDeltas (diffSnapshots src dst)).rows) : applyDeltas src rows = dst :=
  applyDeltas_diff_of_perm (.refl _) hp

end UwuContextDb.Version
