import Mathlib.Data.List.AList
import Mathlib.Data.List.Dedup
import Mathlib.Data.List.DropRight
import UwuContextDb.Library.Run

/-! A cache of the keys that were used last: one that is full gives up the key that was not used for longest. -/

namespace Lru

open List (map_append mem_append reverseRecOn rtake drop_zero nil_append)

variable {K V : Type}

structure Cache (K V : Type) where
  capacity : ℕ
  entries : AList (fun _ : K => V)
  recency : List K

section Operations

variable [DecidableEq K]

namespace Cache

def new (capacity : ℕ) : Cache K V := ⟨capacity, ∅, []⟩

def touch (cache : Cache K V) (key : K) : Cache K V := { cache with recency := cache.recency.erase key ++ [key] }

def get (cache : Cache K V) (key : K) : Option V × Cache K V :=
  (cache.entries.lookup key, if key ∈ cache.entries then cache.touch key else cache)

def evict (cache : Cache K V) : Cache K V :=
  match cache.recency with
  | [] => cache
  | evicted::recency => { cache with entries := cache.entries.erase evicted, recency := recency }

def insert (cache : Cache K V) (key : K) (value : V) : Cache K V :=
  if key ∈ cache.entries then ({ cache with entries := cache.entries.insert key value } : Cache K V).touch key
  else
    let roomy := if cache.entries.keys.length = cache.capacity then cache.evict else cache
    { roomy with entries := roomy.entries.insert key value, recency := roomy.recency ++ [key] }

variable {cache : Cache K V} {key : K} {value : V}

@[simp] theorem get_fst : (cache.get key).1 = cache.entries.lookup key := rfl

@[simp] theorem get_capacity : (cache.get key).2.capacity = cache.capacity := by
  show (if key ∈ cache.entries then cache.touch key else cache).capacity = cache.capacity
  split <;> rfl

theorem evict_capacity : cache.evict.capacity = cache.capacity := by
  unfold evict
  split <;> rfl

@[simp] theorem insert_capacity : (cache.insert key value).capacity = cache.capacity := by
  unfold insert
  split
  · rfl
  · dsimp only
    split
    · exact evict_capacity
    · rfl

@[simp] theorem get_entries : (cache.get key).2.entries = cache.entries := by
  show (if key ∈ cache.entries then cache.touch key else cache).entries = cache.entries
  split <;> rfl

theorem lookup_of_evict {other : K} {v : V} (h : cache.evict.entries.lookup other = some v) :
    cache.entries.lookup other = some v := by
  unfold evict at h
  split at h
  · exact h
  · rename_i evicted recency hr
    by_cases ho : other = evicted
    · rw [ho] at h
      simp at h
    · rwa [AList.lookup_erase_ne ho] at h

theorem lookup_of_insert {other : K} {v : V} (h : (cache.insert key value).entries.lookup other = some v) :
    (other = key ∧ v = value) ∨ cache.entries.lookup other = some v := by
  have hn : ∀ es : AList (fun _ : K => V), (∀ v, es.lookup other = some v → cache.entries.lookup other = some v) →
      (es.insert key value).lookup other = some v → (other = key ∧ v = value) ∨
        cache.entries.lookup other = some v := by
    intro es hs hv
    by_cases ho : other = key
    · rw [ho,AList.lookup_insert] at hv
      exact .inl ⟨ho,(Option.some.inj hv).symm⟩
    · rw [AList.lookup_insert_ne ho] at hv
      exact .inr (hs v hv)
  unfold insert at h
  split at h
  · exact hn _ (fun _ hv => hv) h
  · dsimp only at h
    split at h
    · exact hn _ (fun _ hv => lookup_of_evict hv) h
    · exact hn _ (fun _ hv => hv) h

end Cache

/-- The value that the last use of the key had. -/
def LastUse (key : K) (value : V) (uses : List (K × V)) : Prop :=
  ∃ past since, uses = past ++ (key, value)::since ∧ key ∉ since.map Prod.fst

theorem lastUse_concat {key used : K} {value v : V} {uses : List (K × V)} :
    LastUse key value (uses++[(used, v)]) ↔ if key = used then value = v else LastUse key value uses := by
  constructor
  · rintro ⟨past,since,hq,hs⟩
    rcases List.eq_nil_or_concat since with rfl | ⟨since,last,rfl⟩
    · obtain ⟨-,hl⟩ := List.append_inj' hq rfl
      cases hl
      simp
    · have hp : uses ++ [(used, v)] = (past++(key, value)::since) ++ [last] := by
        rw [hq,List.concat_eq_append]
        simp
      obtain ⟨rfl,hl⟩ := List.append_inj' hp rfl
      cases hl
      rw [List.concat_eq_append,map_append,mem_append,not_or] at hs
      have hn : key ≠ used := fun h => hs.2 (by simp [h])
      rw [if_neg hn]
      exact ⟨past,since,rfl,hs.1⟩
  · intro h
    split at h
    · rename_i hk
      exact ⟨uses,[],by rw [hk,h],by simp⟩
    · rename_i hk
      obtain ⟨past,since,rfl,hs⟩ := h
      exact ⟨past,since++[(used, v)],by simp,by simpa [hk] using hs⟩

theorem LastUse.unique {key : K} {value value' : V} {uses : List (K × V)} (h : LastUse key value uses)
    (h' : LastUse key value' uses) : value = value' := by
  induction uses using reverseRecOn with
  | nil =>
    obtain ⟨past,since,hq,-⟩ := h
    simp at hq
  | append_singleton uses use ih =>
    rw [lastUse_concat] at h h'
    split at h
    · rename_i hk
      rw [if_pos hk] at h'
      rw [h,h']
    · rename_i hk
      rw [if_neg hk] at h'
      exact ih h h'

/-- The cache holds, of all the keys used, as many of the last ones as it has room for, each with the value of its last
use. -/
structure Tracks (uses : List (K × V)) (cache : Cache K V) : Prop where
  positive : 0 < cache.capacity
  recency : cache.recency = (uses.map Prod.fst).dedup.rtake cache.capacity
  mem : ∀ key, key ∈ cache.entries ↔ key ∈ cache.recency
  value : ∀ key v, cache.entries.lookup key = some v → LastUse key v uses

end Operations

section Recency

variable {n : ℕ} {ks xs ys : List K} {key : K}

theorem rtake_append_of_le (h : ys.length ≤ n) : (xs++ys).rtake n = xs.rtake (n - ys.length) ++ ys := by
  have hl : (xs++ys).length - n = xs.length - (n - ys.length) := by
    rw [List.length_append]
    omega
  have hp : xs.length - (n - ys.length) - xs.length = 0 := by omega
  rw [rtake,hl,rtake,List.drop_append,hp,drop_zero]

theorem rtake_append_of_ge (h : n ≤ ys.length) : (xs++ys).rtake n = ys.rtake n := by
  have hl : (xs++ys).length - n = xs.length + (ys.length - n) := by
    rw [List.length_append]
    omega
  rw [rtake,hl,List.drop_append,List.drop_eq_nil_of_le (by omega),nil_append,rtake]
  congr 1
  omega

theorem exists_append_rtake (n : ℕ) (xs : List K) : ∃ rest, xs = rest ++ xs.rtake n ∧
    (rest = [] ∧ (xs.rtake n).length ≤ n ∨ (xs.rtake n).length = n) := by
  refine ⟨xs.take (xs.length - n),(List.take_append_drop _ _).symm,?_⟩
  rw [rtake,List.length_drop]
  by_cases h : xs.length ≤ n
  · left
    rw [Nat.sub_eq_zero_of_le h]
    exact ⟨List.take_zero,h⟩
  · right
    omega

variable [DecidableEq K]

theorem dedup_concat (ks : List K) (key : K) : (ks++[key]).dedup = ks.dedup.erase key ++ [key] := by
  induction ks with
  | nil => simp
  | cons k ks ih =>
    rw [List.cons_append]
    by_cases hl : k = key
    · subst hl
      rw [List.dedup_cons_of_mem (by simp),ih]
      by_cases hm : k ∈ ks
      · rw [List.dedup_cons_of_mem hm]
      · rw [List.dedup_cons_of_notMem hm,List.erase_cons_head,
          List.erase_of_not_mem (fun h => hm (List.mem_dedup.mp h))]
    · by_cases hm : k ∈ ks
      · rw [List.dedup_cons_of_mem (by simp [hm]),List.dedup_cons_of_mem hm,ih]
      · rw [List.dedup_cons_of_notMem (by simp [hm,hl]),List.dedup_cons_of_notMem hm,ih,
          List.erase_cons_tail (by simpa using hl),List.cons_append]

theorem mem_rtake_dedup {past since : List K} (h : key ∉ since) :
    key ∈ (past++key::since).dedup.rtake n ↔ since.dedup.length < n := by
  obtain ⟨earlier,ha⟩ : ∃ earlier, (past++key::since).dedup = earlier ++ key::since.dedup := by
    obtain ⟨earlier,hq⟩ := List.suffix_union_right past (key::since).dedup
    refine ⟨earlier,?_⟩
    rw [List.dedup_append,← hq,List.dedup_cons_of_notMem h]
  rw [ha]
  by_cases hl : since.dedup.length < n
  · rw [rtake_append_of_le (by rw [List.length_cons]; omega)]
    simp [hl]
  · have hg : n ≤ since.dedup.length := Nat.le_of_not_lt hl
    rw [List.append_cons,rtake_append_of_ge hg]
    refine iff_of_false (fun hm => h ?_) hl
    exact List.mem_dedup.mp (List.mem_of_mem_drop hm)

theorem rtake_dedup_touch (h : key ∈ ks.dedup.rtake n) :
    (ks++[key]).dedup.rtake n = (ks.dedup.rtake n).erase key ++ [key] := by
  have hp : 0 < n := by
    cases n with
    | zero => simp at h
    | succ n => exact n.succ_pos
  obtain ⟨rest,hq,hl⟩ := exists_append_rtake n ks.dedup
  generalize ks.dedup.rtake n = last at *
  have hn : (rest++last).Nodup := hq ▸ ks.nodup_dedup
  have hr : key ∉ rest := fun hm => List.disjoint_of_nodup_append hn hm h
  have ha := List.length_erase_of_mem h
  have hs := List.length_pos_of_mem h
  rw [dedup_concat,hq,List.erase_append_right _ hr,rtake_append_of_le hp]
  rcases hl with ⟨rfl,hle⟩ | hl
  · rw [nil_append,rtake,Nat.sub_eq_zero_of_le (by simp; omega),drop_zero]
  · rw [rtake_append_of_ge (by simp; omega),rtake,Nat.sub_eq_zero_of_le (by simp; omega),drop_zero]

theorem rtake_dedup_push (hp : 0 < n) (h : key ∉ ks.dedup.rtake n) :
    (ks++[key]).dedup.rtake n =
      (if (ks.dedup.rtake n).length = n then (ks.dedup.rtake n).tail else ks.dedup.rtake n) ++ [key] := by
  obtain ⟨rest,hq,hl⟩ := exists_append_rtake n ks.dedup
  generalize ks.dedup.rtake n = last at *
  have hr : (rest++last).erase key = rest.erase key ++ last := by
    rw [List.erase_append]
    split
    · rfl
    · rename_i hs
      rw [List.erase_of_not_mem h,List.erase_of_not_mem hs]
  rw [dedup_concat,hq,hr,rtake_append_of_le hp]
  congr 1
  show (rest.erase key++last).rtake (n - 1) = _
  by_cases hf : last.length = n
  · rw [if_pos hf,rtake_append_of_ge (by omega),rtake,hf,Nat.sub_sub_self hp,List.drop_one]
  · obtain ⟨rfl,hle⟩ := hl.resolve_right hf
    rw [if_neg hf,List.erase_nil,nil_append,rtake,Nat.sub_eq_zero_of_le (by omega),drop_zero]

end Recency

namespace Tracks

variable [DecidableEq K] {uses : List (K × V)} {cache : Cache K V} {key : K} {value : V}

theorem new {cap : ℕ} (h : 0 < cap) : Tracks ([] : List (K × V)) (Cache.new cap) := by
  refine ⟨h,by simp [Cache.new],by simp [Cache.new],?_⟩
  intro key v hl
  simp [Cache.new] at hl

theorem nodup (h : Tracks uses cache) : cache.recency.Nodup := by
  rw [h.recency]
  exact (List.nodup_dedup _).sublist (List.drop_sublist _ _)

theorem length_keys (h : Tracks uses cache) : cache.entries.keys.length = cache.recency.length := by
  have hp : cache.entries.keys.Perm cache.recency :=
    (List.perm_ext_iff_of_nodup cache.entries.keys_nodup h.nodup).mpr (fun key => AList.mem_keys.symm.trans (h.mem key))
  exact hp.length_eq

/-- A key is found exactly while fewer other keys than the cache has room for were used since. -/
theorem lookup (h : Tracks uses cache) : cache.entries.lookup key = some value ↔
    ∃ past since, uses = past ++ (key, value)::since ∧ key ∉ since.map Prod.fst ∧
      (since.map Prod.fst).dedup.length < cache.capacity := by
  have hr : ∀ {v : V} {past since : List (K × V)}, uses = past ++ (key, v)::since → key ∉ since.map Prod.fst →
      (key ∈ cache.entries ↔ (since.map Prod.fst).dedup.length < cache.capacity) := by
    intro v past since hq hs
    rw [h.mem,h.recency,hq,map_append,List.map_cons]
    exact mem_rtake_dedup hs
  constructor
  · intro hl
    have hm : key ∈ cache.entries := AList.lookup_isSome.mp (by rw [hl]; rfl)
    obtain ⟨past,since,hq,hs⟩ := h.value key value hl
    exact ⟨past,since,hq,hs,(hr hq hs).mp hm⟩
  · rintro ⟨past,since,hq,hs,hn⟩
    obtain ⟨found,hf⟩ := Option.isSome_iff_exists.mp (AList.lookup_isSome.mpr ((hr hq hs).mpr hn))
    rw [(h.value key found hf).unique ⟨past,since,hq,hs⟩] at hf
    exact hf

theorem get_of_some (h : Tracks uses cache) (hl : cache.entries.lookup key = some value) :
    Tracks (uses++[(key, value)]) (cache.get key).2 := by
  have hm : key ∈ cache.entries := AList.lookup_isSome.mp (by rw [hl]; rfl)
  have hg : (cache.get key).2 = cache.touch key := if_pos hm
  have ht : ((uses++[(key, value)]).map Prod.fst).dedup.rtake cache.capacity = cache.recency.erase key ++ [key] := by
    have hr := (h.mem key).mp hm
    rw [h.recency] at hr ⊢
    rw [map_append,List.map_singleton]
    exact rtake_dedup_touch hr
  rw [hg]
  refine ⟨h.positive,ht.symm,?_,?_⟩
  · intro other
    show other ∈ cache.entries ↔ other ∈ cache.recency.erase key ++ [key]
    by_cases ho : other = key
    · subst ho
      simp [hm]
    · rw [h.mem,mem_append,List.mem_erase_of_ne ho]
      simp [ho]
  · intro other v hv
    apply lastUse_concat.mpr
    split
    · rename_i ho
      rw [ho] at hv
      exact Option.some.inj (hv.symm.trans hl)
    · exact h.value other v hv

theorem get_of_none (hl : cache.entries.lookup key = none) : (cache.get key).2 = cache :=
  if_neg (AList.lookup_eq_none.mp hl)

theorem insert_of_none (h : Tracks uses cache) (hl : cache.entries.lookup key = none) :
    Tracks (uses++[(key, value)]) (cache.insert key value) := by
  have hn : key ∉ cache.entries := AList.lookup_eq_none.mp hl
  have hr : key ∉ cache.recency := fun hm => hn ((h.mem key).mpr hm)
  have hp : ((uses++[(key, value)]).map Prod.fst).dedup.rtake cache.capacity =
      (if cache.recency.length = cache.capacity then cache.recency.tail else cache.recency) ++ [key] := by
    rw [map_append,List.map_singleton,rtake_dedup_push h.positive (by rwa [← h.recency]),← h.recency]
  have ha : ∀ (es : AList (fun _ : K => V)), (∀ other v, es.lookup other = some v →
      cache.entries.lookup other = some v) → ∀ other v, (es.insert key value).lookup other = some v →
      LastUse other v (uses++[(key, value)]) := by
    intro es hs other v hv
    apply lastUse_concat.mpr
    split
    · rename_i ho
      rw [ho,AList.lookup_insert] at hv
      exact (Option.some.inj hv).symm
    · rename_i ho
      rw [AList.lookup_insert_ne ho] at hv
      exact h.value other v (hs other v hv)
  unfold Cache.insert
  rw [if_neg hn,h.length_keys]
  dsimp only
  by_cases hf : cache.recency.length = cache.capacity
  · rw [if_pos hf] at hp ⊢
    obtain ⟨capacity,es,recency⟩ := cache
    cases recency with
    | nil =>
      have hpo : 0 < capacity := h.positive
      have hz : 0 = capacity := hf
      omega
    | cons evicted recency =>
      have hd : evicted ∉ recency := (List.nodup_cons.mp h.nodup).1
      refine ⟨h.positive,hp.symm,?_,?_⟩
      · intro other
        have ho : other ∈ es ↔ other ∈ evicted::recency := h.mem other
        show other ∈ (es.erase evicted).insert key value ↔ other ∈ recency ++ [key]
        rw [AList.mem_insert,AList.mem_erase,ho,mem_append,List.mem_singleton,List.mem_cons]
        constructor
        · rintro (hk | ⟨hne,hm⟩)
          · exact .inr hk
          · exact .inl (hm.resolve_left hne)
        · rintro (hm | hk)
          · exact .inr ⟨fun hq => hd (hq ▸ hm), .inr hm⟩
          · exact .inl hk
      · refine ha _ (fun other v hv => ?_)
        by_cases ho : other = evicted
        · rw [ho] at hv
          simp [Cache.evict] at hv
        · rwa [← AList.lookup_erase_ne ho]
  · rw [if_neg hf] at hp ⊢
    refine ⟨h.positive,hp.symm,?_,ha _ (fun _ _ hv => hv)⟩
    intro other
    show other ∈ cache.entries.insert key value ↔ other ∈ cache.recency ++ [key]
    rw [AList.mem_insert,h.mem,mem_append,List.mem_singleton,or_comm]

end Tracks

section Memo

variable {C E : Type} (key : C → K) (compute : C → Except E V)

/-- The keys and the values of the calls that have one. -/
def uses (calls : List C) : List (K × V) :=
  calls.filterMap (fun c => (compute c).toOption.map (fun value => (key c, value)))

/-- Whenever a call's key was used with fewer other keys since than there is room for, the call has the value of that
use. -/
def Coherent [DecidableEq K] (capacity : ℕ) (calls : List C) : Prop :=
  ∀ front c, front ++ [c] <+: calls → ∀ past value since, uses key compute front = past ++ (key c, value)::since →
    key c ∉ since.map Prod.fst → (since.map Prod.fst).dedup.length < capacity → compute c = .ok value

theorem uses_concat (calls : List C) (c : C) :
    uses key compute (calls++[c]) = uses key compute calls ++ uses key compute [c] := List.filterMap_append

variable [DecidableEq K]

/-- The answer of the cache, or else one that is computed and, if there is one, remembered. -/
def memo (cache : Cache K V) (c : C) : Except E V × Cache K V :=
  match (cache.get (key c)).1 with
  | some value => (.ok value, (cache.get (key c)).2)
  | none =>
    match compute c with
    | .ok value => (.ok value, (cache.get (key c)).2.insert (key c) value)
    | .error e => (.error e, (cache.get (key c)).2)

variable {key : C → K} {compute : C → Except E V} {cache : Cache K V} {used : List (K × V)} {c : C}

theorem memo_right : (memo key compute cache c).1 = compute c ↔
    ∀ value, cache.entries.lookup (key c) = some value → compute c = .ok value := by
  unfold memo
  rw [Cache.get_fst]
  cases hl : cache.entries.lookup (key c) with
  | some value => simp [eq_comm]
  | none => cases hc : compute c <;> simp

theorem memo_capacity : (memo key compute cache c).2.capacity = cache.capacity := by
  unfold memo
  split
  · exact Cache.get_capacity
  · split
    · rw [Cache.insert_capacity,Cache.get_capacity]
    · exact Cache.get_capacity

/-- What is in the cache after a call was in it before, or is what the call computed. -/
theorem lookup_of_memo {k : K} {v : V} (h : (memo key compute cache c).2.entries.lookup k = some v) :
    cache.entries.lookup k = some v ∨ (k = key c ∧ compute c = .ok v) := by
  unfold memo at h
  split at h
  · rw [Cache.get_entries] at h
    exact .inl h
  · split at h
    · rename_i value hc
      rcases Cache.lookup_of_insert h with ⟨hk,rfl⟩ | hv
      · exact .inr ⟨hk,hc⟩
      · rw [Cache.get_entries] at hv
        exact .inl hv
    · rw [Cache.get_entries] at h
      exact .inl h

/-- A call that is answered right is a use of its key. -/
theorem Tracks.memo (h : Tracks used cache) (hr : (memo key compute cache c).1 = compute c) :
    Tracks (used++uses key compute [c]) (memo key compute cache c).2 := by
  have hm := memo_right.mp hr
  unfold Lru.memo
  rw [Cache.get_fst]
  cases hl : cache.entries.lookup (key c) with
  | some value =>
    have hu : uses key compute [c] = [(key c, value)] := by simp [uses,hm value hl,Except.toOption]
    rw [hu]
    exact h.get_of_some hl
  | none =>
    dsimp only
    rw [Tracks.get_of_none hl]
    cases hc : compute c with
    | ok value =>
      have hu : uses key compute [c] = [(key c, value)] := by simp [uses,hc,Except.toOption]
      rw [hu]
      exact h.insert_of_none hl
    | error e =>
      have hu : uses key compute [c] = [] := by simp [uses,hc,Except.toOption]
      rw [hu,List.append_nil]
      exact h

open StateMachine

/-- Every call of the run is answered with what it would compute itself. -/
def Right (key : C → K) (compute : C → Except E V) (cache : Cache K V) (calls : List C) : Prop :=
  Meets (fun cache c => (memo key compute cache c).2) (fun cache c => (memo key compute cache c).1 = compute c) cache calls

theorem Right.tracks {calls : List C} (ha : Tracks [] cache) (h : Right key compute cache calls) :
    Tracks (uses key compute calls) (run (fun cache c => (memo key compute cache c).2) cache calls) := by
  induction calls using reverseRecOn with
  | nil => exact ha
  | append_singleton calls c ih =>
    obtain ⟨hl,hc⟩ := meets_append.mp h
    rw [uses_concat,run_append]
    exact (ih hl).memo hc.1

/-- A cache that starts empty answers every call right exactly if the calls it can still remember agree wherever their
keys do. -/
theorem right_new_iff {capacity : ℕ} (ho : 0 < capacity) {calls : List C} :
    Right key compute (Cache.new capacity) calls ↔ Coherent key compute capacity calls := by
  have hca : ∀ front : List C,
      (run (fun cache c => (memo key compute cache c).2) (Cache.new capacity) front).capacity = capacity := by
    intro front
    induction front using reverseRecOn with
    | nil => rfl
    | append_singleton front c ih =>
      rw [run_append]
      exact memo_capacity.trans ih
  have hla : ∀ front c, Right key compute (Cache.new capacity) front →
      ((memo key compute (run (fun cache c => (memo key compute cache c).2) (Cache.new capacity) front) c).1 = compute c ↔
        ∀ past value since, uses key compute front = past++(key c, value)::since →
          key c ∉ since.map Prod.fst → (since.map Prod.fst).dedup.length < capacity → compute c = .ok value) := by
    intro front c hf
    have ht := hf.tracks (Tracks.new ho)
    rw [memo_right]
    simp only [ht.lookup,hca]
    constructor
    · intro h past value since hq hs hl
      exact h value ⟨past,since,hq,hs,hl⟩
    · intro h value hu
      obtain ⟨past,since,hq,hs,hl⟩ := hu
      exact h past value since hq hs hl
  constructor
  · intro h front c hp
    obtain ⟨rest,rfl⟩ := hp
    have ha := (meets_append.mp h).1
    obtain ⟨hf,hc⟩ := meets_append.mp ha
    exact (hla front c hf).mp hc.1
  · intro h
    induction calls using reverseRecOn with
    | nil => trivial
    | append_singleton calls c ih =>
      have ha : Right key compute (Cache.new capacity) calls :=
        ih (fun front c hp => h front c (hp.trans (List.prefix_append _ _)))
      exact meets_append.mpr ⟨ha,(hla calls c ha).mpr (h calls c List.prefix_rfl),trivial⟩

end Memo

end Lru
