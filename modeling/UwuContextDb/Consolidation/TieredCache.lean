import Std.Data.ExtTreeMap.Lemmas
import UwuContextDb.Core.Model
import UwuContextDb.Library.Run

/-! The tiered cache: its hot and its warm map, the calls that share them step by step, and what a `get` returns
after a `put`. -/

namespace UwuContextDb.Consolidation

open StateMachine

structure PrefetchPrediction (F : Type) where
  uri : ContextUri
  probability : F

structure PredictivePromotionConfig (F : Type) where
  hotThreshold : F
  warmThreshold : F
  hotTtlMultiplier : F
  warmTtlMultiplier : F

/-- The float functions of the cache: `clamp(0.0, 1.0)`, `scaled_ttl`, the score of a warm entry, `total_cmp`. -/
structure CacheFloats (F : Type) where
  one : F
  clamp : F → F
  scaledTtl : ℕ → F → ℕ
  score : F → ℕ → F
  totalLe : F → F → Bool

structure CachePromotionReport where
  hotPromoted : ℕ := 0
  warmPromoted : ℕ := 0
  skipped : ℕ := 0
  warmEvicted : ℕ := 0

structure TieredEntry (F : Type) where
  payload : ContentPayload
  inserted : ℕ
  ttl : ℕ
  accessCount : ℕ
  predictedProbability : F

structure TieredCache (F : Type) where
  hot : Std.ExtTreeMap String (TieredEntry F)
  warm : Std.ExtTreeMap String (TieredEntry F)
  warmCapacity : ℕ
  hotTtl : ℕ
  warmTtl : ℕ
  predictiveConfig : PredictivePromotionConfig F

inductive CacheStage (F : Type)
  | looking (key : String)
  | renewing (key : String) (entry : TieredEntry F)
  | missed (key : String)
  | lifting (key : String) (entry : TieredEntry F)
  | answered (key : String) (payload : Option ContentPayload)
  | promoting (rest : List (String × F × ContentPayload)) (report : CachePromotionReport)
  | retaining (now : ℕ)
  | enforcing (report : CachePromotionReport)
  | finished (report : CachePromotionReport)

/-- The cache, the calls on it, and a log of what `put` and `promote_predictions` have stored. -/
structure CacheSystem (F : Type) where
  cache : TieredCache F
  clock : ℕ
  calls : List (CacheStage F)
  stores : List (String × ContentPayload)

/-- `order` is how a hash map iterates. An entry may vanish from the hot map at any time. -/
inductive CacheAction (F : Type)
  | get (uri : ContextUri)
  | put (uri : ContextUri) (payload : ContentPayload)
  | promotePredictions (predictions : List (PrefetchPrediction F)) (loaded : List (ContextUri × ContentPayload))
      (order : List (String × F × ContentPayload) → List (String × F × ContentPayload))
  | rebalance
  | proceed (i : ℕ) (order : List (String × TieredEntry F) → List (String × TieredEntry F))
  | vanish (key : String)
  | wait (elapsed : ℕ)

namespace TieredCache

variable {F : Type} [LE F] [DecidableLE F] (floats : CacheFloats F)

/-- What a successful `new` returns. -/
def new (warmCapacity : ℕ) (predictiveConfig : PredictivePromotionConfig F) : TieredCache F :=
  ⟨∅, ∅, max warmCapacity 1, 300 * 10 ^ 9, 3600 * 10 ^ 9, predictiveConfig⟩

def promoteToHot (cache : TieredCache F) (clock : ℕ) (key : String) (payload : ContentPayload) (ttl : ℕ)
    (predictedProbability : F) : TieredCache F :=
  { cache with hot := cache.hot.insert key ⟨payload, clock, ttl, 1, predictedProbability⟩ }

def promoteToWarm (cache : TieredCache F) (clock : ℕ) (key : String) (payload : ContentPayload) (ttl : ℕ)
    (predictedProbability : F) : TieredCache F :=
  { cache with warm := cache.warm.insert key ⟨payload, clock, ttl, 0, predictedProbability⟩ }

/-- `by_uri` of `promote_predictions`. -/
def byUri (predictions : List (PrefetchPrediction F)) (loaded : List (ContextUri × ContentPayload)) :
    Std.ExtTreeMap String (F × ContentPayload) :=
  loaded.foldl (fun m l => match predictions.find? (fun p => p.uri = l.1) with
    | some prediction => m.insert l.1.canonical (prediction.probability, l.2)
    | none => m) ∅

/-- One round of the loop of `promote_predictions`, with what it stores. -/
def promoteOne (cache : TieredCache F) (clock : ℕ) (report : CachePromotionReport) (key : String) (probability : F)
    (payload : ContentPayload) : TieredCache F × CachePromotionReport × List (String × ContentPayload) :=
  let config := cache.predictiveConfig
  if config.hotThreshold ≤ floats.clamp probability then
    (cache.promoteToHot clock key payload (floats.scaledTtl cache.hotTtl config.hotTtlMultiplier)
      (floats.clamp probability), { report with hotPromoted := report.hotPromoted + 1 }, [(key, payload)])
  else if config.warmThreshold ≤ floats.clamp probability then
    (cache.promoteToWarm clock key payload (floats.scaledTtl cache.warmTtl config.warmTtlMultiplier)
      (floats.clamp probability), { report with warmPromoted := report.warmPromoted + 1 }, [(key, payload)])
  else (cache, { report with skipped := report.skipped + 1 }, [])

def evictedFirst (a b : String × TieredEntry F) : Bool :=
  let left := floats.score a.2.predictedProbability a.2.accessCount
  let right := floats.score b.2.predictedProbability b.2.accessCount
  floats.totalLe left right && (!floats.totalLe right left || decide (b.2.inserted ≤ a.2.inserted))

def enforceWarmCapacity (order : List (String × TieredEntry F) → List (String × TieredEntry F))
    (cache : TieredCache F) : ℕ × TieredCache F :=
  if cache.warm.size ≤ cache.warmCapacity then (0, cache)
  else
    let evictCount := cache.warm.size - cache.warmCapacity
    let ranked := (order cache.warm.toList).mergeSort (evictedFirst floats)
    (evictCount, { cache with warm := (ranked.take evictCount).foldl (fun warm e => warm.erase e.1) cache.warm })

end TieredCache

namespace CacheSystem

variable {F : Type} [LE F] [DecidableLE F] (floats : CacheFloats F)

/-- What call `i` does next. -/
def proceed (sys : CacheSystem F) (i : ℕ) (order : List (String × TieredEntry F) → List (String × TieredEntry F)) :
    CacheStage F → CacheSystem F
  | .looking key =>
    match sys.cache.hot[key]? with
    | some entry =>
      { sys with calls := sys.calls.set i (.renewing key { entry with accessCount := entry.accessCount + 1 }) }
    | none => { sys with calls := sys.calls.set i (.missed key) }
  | .renewing key entry =>
    { sys with
      cache := { sys.cache with hot := sys.cache.hot.insert key entry }
      calls := sys.calls.set i (.answered key (some entry.payload)) }
  | .missed key =>
    match sys.cache.warm[key]? with
    | some entry =>
      if sys.clock - entry.inserted < entry.ttl then
        let entry := { entry with accessCount := entry.accessCount + 1 }
        { sys with
          cache := { sys.cache with warm := sys.cache.warm.insert key entry }
          calls := sys.calls.set i (.lifting key entry) }
      else
        { sys with
          cache := { sys.cache with warm := sys.cache.warm.erase key }
          calls := sys.calls.set i (.answered key none) }
    | none => { sys with calls := sys.calls.set i (.answered key none) }
  | .lifting key entry =>
    { sys with
      cache := sys.cache.promoteToHot sys.clock key entry.payload sys.cache.hotTtl entry.predictedProbability
      calls := sys.calls.set i (.answered key (some entry.payload)) }
  | .promoting ((key, probability, payload)::rest) report =>
    let (cache, report, stored) := sys.cache.promoteOne floats sys.clock report key probability payload
    { sys with cache := cache, calls := sys.calls.set i (.promoting rest report), stores := sys.stores ++ stored }
  | .promoting [] report => { sys with calls := sys.calls.set i (.enforcing report) }
  | .retaining now =>
    { sys with
      cache := { sys.cache with warm := sys.cache.warm.filter (fun _ e => now - e.inserted < e.ttl) }
      calls := sys.calls.set i (.enforcing {}) }
  | .enforcing report =>
    let (evicted, cache) := sys.cache.enforceWarmCapacity floats order
    { sys with cache := cache, calls := sys.calls.set i (.finished { report with warmEvicted := evicted }) }
  | .answered _ _ | .finished _ => sys

def step (sys : CacheSystem F) : CacheAction F → CacheSystem F
  | .get uri => { sys with calls := sys.calls ++ [.looking uri.canonical] }
  | .put uri payload =>
    { sys with
      cache := sys.cache.promoteToHot sys.clock uri.canonical payload sys.cache.hotTtl floats.one
      stores := sys.stores ++ [(uri.canonical, payload)] }
  | .promotePredictions predictions loaded order =>
    { sys with calls := sys.calls ++ [.promoting (order (TieredCache.byUri predictions loaded).toList) {}] }
  | .rebalance => { sys with calls := sys.calls ++ [.retaining sys.clock] }
  | .proceed i order =>
    match sys.calls[i]? with
    | some stage => sys.proceed floats i order stage
    | none => sys
  | .vanish key => { sys with cache := { sys.cache with hot := sys.cache.hot.erase key } }
  | .wait elapsed => { sys with clock := sys.clock + elapsed }

end CacheSystem

def CacheStage.carried {F : Type} : CacheStage F → Option (String × ContentPayload)
  | .renewing key entry => some (key, entry.payload)
  | .lifting key entry => some (key, entry.payload)
  | _ => none

def CacheStage.tells {F : Type} : CacheStage F → Option (String × ContentPayload)
  | .answered key payload => payload.map (key, ·)
  | stage => stage.carried

namespace CacheSystem

variable {F : Type}

/-- A copy outlives the hot one: an unexpired warm copy, or one that a call has still to insert. -/
def Lurks (sys : CacheSystem F) (key : String) (payload : ContentPayload) : Prop :=
  (∃ entry, sys.cache.warm[key]? = some entry ∧ sys.clock - entry.inserted < entry.ttl ∧ entry.payload = payload) ∨
    ∃ stage ∈ sys.calls, stage.carried = some (key, payload)

def Live (sys : CacheSystem F) (key : String) (payload : ContentPayload) : Prop :=
  (∃ entry, sys.cache.hot[key]? = some entry ∧ entry.payload = payload) ∨ sys.Lurks key payload

structure Follows (sys sys' : CacheSystem F) (stored : List (String × ContentPayload)) : Prop where
  stores : sys'.stores = sys.stores ++ stored
  live : ∀ key payload, sys'.Live key payload → sys.Live key payload ∨ (key, payload) ∈ stored
  answers : ∀ (i : ℕ) key payload, sys'.calls[i]? = some (.answered key (some payload)) →
    sys.calls[i]? = some (.answered key (some payload)) ∨ sys.Live key payload

/-- What is read after a put is what it or a later call has stored: of the log from `n` on, by the calls from `base` on. -/
structure Fresh (key : String) (n base : ℕ) (sys : CacheSystem F) : Prop where
  length : n ≤ sys.stores.length
  live : ∀ payload, sys.Live key payload → (key, payload) ∈ sys.stores.drop n
  answers : ∀ (i : ℕ) payload, base ≤ i → sys.calls[i]? = some (.answered key (some payload)) →
    (key, payload) ∈ sys.stores.drop n

section Steps

variable {sys sys' : CacheSystem F} {stored : List (String × ContentPayload)}

theorem tells_of_carried {stage : CacheStage F} {x : String × ContentPayload} (h : stage.carried = some x) :
    stage.tells = some x := by
  cases stage <;> first | exact h | cases h

theorem Live.of_warm {key : String} {e : TieredEntry F} (h : sys.cache.warm[key]? = some e)
    (ht : sys.clock - e.inserted < e.ttl) : sys.Live key e.payload :=
  .inr (.inl ⟨e,h,ht,rfl⟩)

theorem Live.of_call {i : ℕ} {stage : CacheStage F} {key : String} {payload : ContentPayload}
    (h : sys.calls[i]? = some stage) (hc : stage.carried = some (key,payload)) : sys.Live key payload :=
  .inr (.inr ⟨stage,List.mem_of_getElem? h,hc⟩)

theorem Follows.intro (hs : sys'.stores = sys.stores++stored)
    (hh : ∀ key entry, sys'.cache.hot[key]? = some entry → sys.Live key entry.payload ∨ (key,entry.payload) ∈ stored)
    (hw : ∀ key entry, sys'.cache.warm[key]? = some entry → sys'.clock - entry.inserted < entry.ttl →
      sys.Live key entry.payload ∨ (key,entry.payload) ∈ stored)
    (hc : ∀ (i : ℕ) stage, sys'.calls[i]? = some stage →
      sys.calls[i]? = some stage ∨ ∀ key payload, stage.tells = some (key,payload) → sys.Live key payload) :
    Follows sys sys' stored where
  stores := hs
  live := by
    rintro key payload (⟨entry,he,rfl⟩ | ⟨entry,he,ht,rfl⟩ | ⟨stage,hm,hp⟩)
    · exact hh key entry he
    · exact hw key entry he ht
    · obtain ⟨i,hi⟩ := List.mem_iff_getElem?.mp hm
      rcases hc i stage hi with hi | hl
      · exact .inl (.of_call hi hp)
      · exact .inl (hl key payload (tells_of_carried hp))
  answers := by
    intro i key payload hi
    exact (hc i _ hi).imp_right (fun hl => hl key payload rfl)

theorem Fresh.follows {key : String} {n base : ℕ} (h : Fresh key n base sys) (hf : Follows sys sys' stored) :
    Fresh key n base sys' := by
  have hd : sys'.stores.drop n = sys.stores.drop n ++ stored := by
    rw [hf.stores,List.drop_append_of_le_length h.length]
  refine ⟨by simp [hf.stores]; have := h.length; omega,?_,?_⟩
  · intro payload hl
    rw [hd,List.mem_append]
    exact (hf.live key payload hl).imp_left (h.live payload)
  · intro i payload hb hi
    rw [hd,List.mem_append]
    rcases hf.answers i key payload hi with hi | hl
    · exact .inl (h.answers i payload hb hi)
    · exact .inl (h.live payload hl)

end Steps

section Calls

variable {sys : CacheSystem F} {i : ℕ}

theorem getElem?_set_cases {stage stage' : CacheStage F} {j : ℕ} (h : (sys.calls.set i stage)[j]? = some stage') :
    sys.calls[j]? = some stage' ∨ stage' = stage := by
  rw [List.getElem?_set] at h
  split at h
  · split at h
    · exact .inr (Option.some.inj h).symm
    · cases h
  · exact .inl h

theorem getElem?_append_cases {stage stage' : CacheStage F} {j : ℕ} (h : (sys.calls++[stage])[j]? = some stage') :
    sys.calls[j]? = some stage' ∨ stage' = stage := by
  rw [List.getElem?_append] at h
  split at h
  · exact .inl h
  · exact .inr (List.mem_singleton.mp (List.mem_of_getElem? h))

/-- A step that leaves the maps and the log alone. -/
theorem Follows.of_calls {calls : List (CacheStage F)}
    (hc : ∀ (i : ℕ) stage, calls[i]? = some stage →
      sys.calls[i]? = some stage ∨ ∀ key payload, stage.tells = some (key,payload) → sys.Live key payload) :
    Follows sys { sys with calls := calls } [] :=
  .intro (by simp) (fun _ entry he => .inl (.inl ⟨entry,he,rfl⟩)) (fun _ _ he ht => .inl (.of_warm he ht)) hc

/-- A call that goes on from a stage to one that tells no more than is there. -/
theorem Follows.of_set {stage : CacheStage F}
    (hl : ∀ key payload, stage.tells = some (key,payload) → sys.Live key payload) :
    Follows sys { sys with calls := sys.calls.set i stage } [] :=
  .of_calls (fun _ _ hj => (getElem?_set_cases hj).imp_right (by rintro rfl; exact hl))

section Maps

variable {m : Std.ExtTreeMap String (TieredEntry F)} {key k : String} {entry e : TieredEntry F}

theorem of_insert (h : (m.insert key entry)[k]? = some e) : m[k]? = some e ∨ k = key ∧ e = entry := by
  rw [Std.ExtTreeMap.getElem?_insert] at h
  split at h
  · rename_i hk
    exact .inr ⟨(Std.LawfulEqCmp.compare_eq_iff_eq.mp hk).symm,(Option.some.inj h).symm⟩
  · exact .inl h

theorem of_erase (h : (m.erase key)[k]? = some e) : m[k]? = some e := by
  rw [Std.ExtTreeMap.getElem?_erase] at h
  split at h
  · cases h
  · exact h

theorem of_foldl_erase {es : List (String × TieredEntry F)}
    (h : (es.foldl (fun warm e => warm.erase e.1) m)[k]? = some e) : m[k]? = some e := by
  induction es generalizing m with
  | nil => exact h
  | cons x es ih => exact of_erase (ih h)

end Maps

end Calls

section Kept

variable [LE F] [DecidableLE F] {floats : CacheFloats F}
  {order : List (String × TieredEntry F) → List (String × TieredEntry F)}

omit [LE F] [DecidableLE F] in
theorem enforceWarmCapacity_hot {cache : TieredCache F} :
    (cache.enforceWarmCapacity floats order).2.hot = cache.hot := by
  unfold TieredCache.enforceWarmCapacity
  split <;> rfl

omit [LE F] [DecidableLE F] in
theorem enforceWarmCapacity_warm {cache : TieredCache F} {k : String} {entry : TieredEntry F}
    (h : (cache.enforceWarmCapacity floats order).2.warm[k]? = some entry) : cache.warm[k]? = some entry := by
  unfold TieredCache.enforceWarmCapacity at h
  split at h
  · exact h
  · exact of_foldl_erase h

theorem promoteOne_hot {cache cache' : TieredCache F} {clk : ℕ} {report report' : CachePromotionReport}
    {key k : String} {probability : F} {payload : ContentPayload} {stored : List (String × ContentPayload)}
    {e : TieredEntry F} (hp : cache.promoteOne floats clk report key probability payload =
      (cache',report',stored)) (h : cache'.hot[k]? = some e) :
    cache.hot[k]? = some e ∨ (k,e.payload) ∈ stored := by
  unfold TieredCache.promoteOne at hp
  dsimp only at hp
  split at hp
  · cases hp
    exact (of_insert h).imp_right (by rintro ⟨rfl,rfl⟩; exact List.mem_singleton_self _)
  · split at hp <;> cases hp <;> exact .inl h

theorem promoteOne_warm {cache cache' : TieredCache F} {clk : ℕ} {report report' : CachePromotionReport}
    {key k : String} {probability : F} {payload : ContentPayload} {stored : List (String × ContentPayload)}
    {e : TieredEntry F} (hp : cache.promoteOne floats clk report key probability payload =
      (cache',report',stored)) (h : cache'.warm[k]? = some e) :
    cache.warm[k]? = some e ∨ (k,e.payload) ∈ stored := by
  unfold TieredCache.promoteOne at hp
  dsimp only at hp
  split at hp
  · cases hp
    exact .inl h
  · split at hp
    · cases hp
      exact (of_insert h).imp_right (by rintro ⟨rfl,rfl⟩; exact List.mem_singleton_self _)
    · cases hp
      exact .inl h

end Kept

section Runs

variable [LE F] [DecidableLE F] {floats : CacheFloats F} {sys : CacheSystem F} {i : ℕ}
  {order : List (String × TieredEntry F) → List (String × TieredEntry F)}

theorem proceed_follows {stage : CacheStage F} (hi : sys.calls[i]? = some stage) :
    ∃ stored, Follows sys (sys.proceed floats i order stage) stored := by
  cases stage with
  | looking key =>
    cases he : sys.cache.hot[key]? with
    | some entry =>
      simp only [proceed,he]
      refine ⟨[],.of_set (fun k payload ht => ?_)⟩
      cases ht
      exact .inl ⟨entry,he,rfl⟩
    | none =>
      simp only [proceed,he]
      exact ⟨[],.of_set (by rintro k payload ⟨⟩)⟩
  | renewing key entry =>
    have hl : sys.Live key entry.payload := .of_call hi rfl
    refine ⟨[],.intro (by simp [proceed]) ?_ (fun _ _ he ht => .inl (.of_warm he ht)) ?_⟩
    · intro k e he
      rcases of_insert he with he | ⟨rfl,rfl⟩
      · exact .inl (.inl ⟨e,he,rfl⟩)
      · exact .inl hl
    · refine fun j st hj => (getElem?_set_cases hj).imp_right ?_
      rintro rfl k payload ht
      cases ht
      exact hl
  | missed key =>
    cases he : sys.cache.warm[key]? with
    | none =>
      simp only [proceed,he]
      exact ⟨[],.of_set (by rintro k payload ⟨⟩)⟩
    | some entry =>
      by_cases ht : sys.clock - entry.inserted < entry.ttl
      · have hl : sys.Live key entry.payload := .of_warm he ht
        simp only [proceed,he,if_pos ht]
        refine ⟨[],.intro (by simp) (fun _ e he => .inl (.inl ⟨e,he,rfl⟩)) ?_ ?_⟩
        · intro k e hk hte
          rcases of_insert hk with hk | ⟨rfl,rfl⟩
          · exact .inl (.of_warm hk hte)
          · exact .inl hl
        · refine fun j st hj => (getElem?_set_cases hj).imp_right ?_
          rintro rfl k payload ht
          cases ht
          exact hl
      · simp only [proceed,he,if_neg ht]
        refine ⟨[],.intro (by simp) (fun _ e he => .inl (.inl ⟨e,he,rfl⟩)) ?_ ?_⟩
        · exact fun k e hk hte => .inl (.of_warm (of_erase hk) hte)
        · exact fun j st hj => (getElem?_set_cases hj).imp_right (by rintro rfl k payload ⟨⟩)
  | lifting key entry =>
    have hl : sys.Live key entry.payload := .of_call hi rfl
    refine ⟨[],.intro (by simp [proceed]) ?_ (fun _ _ he ht => .inl (.of_warm he ht)) ?_⟩
    · intro k e he
      rcases of_insert he with he | ⟨rfl,rfl⟩
      · exact .inl (.inl ⟨e,he,rfl⟩)
      · exact .inl hl
    · refine fun j st hj => (getElem?_set_cases hj).imp_right ?_
      rintro rfl k payload ht
      cases ht
      exact hl
  | answered key payload => exact ⟨[],.of_calls (fun _ _ hj => .inl hj)⟩
  | promoting rest report =>
    match rest with
    | [] =>
      simp only [proceed]
      exact ⟨[],.of_set (by rintro k payload ⟨⟩)⟩
    | (key,probability,payload)::rest =>
      obtain ⟨⟨cache,report',stored⟩,hp⟩ :
        ∃ r, sys.cache.promoteOne floats sys.clock report key probability payload = r := ⟨_,rfl⟩
      simp only [proceed,hp]
      refine ⟨stored,.intro rfl ?_ ?_ ?_⟩
      · exact fun k e he => (promoteOne_hot hp he).imp_left (fun he => .inl ⟨e,he,rfl⟩)
      · exact fun k e he ht => (promoteOne_warm hp he).imp_left (fun he => .of_warm he ht)
      · exact fun j st hj => (getElem?_set_cases hj).imp_right (by rintro rfl k payload ⟨⟩)
  | retaining now =>
    simp only [proceed]
    refine ⟨[],.intro (by simp) (fun _ e he => .inl (.inl ⟨e,he,rfl⟩)) ?_ ?_⟩
    · intro k e he ht
      rw [Std.ExtTreeMap.getElem?_filter',Option.filter_eq_some_iff] at he
      exact .inl (.of_warm he.1 ht)
    · exact fun j st hj => (getElem?_set_cases hj).imp_right (by rintro rfl k payload ⟨⟩)
  | enforcing report =>
    simp only [proceed]
    refine ⟨[],.intro (by simp) ?_ ?_ ?_⟩
    · intro k e he
      rw [enforceWarmCapacity_hot] at he
      exact .inl (.inl ⟨e,he,rfl⟩)
    · exact fun k e he ht => .inl (.of_warm (enforceWarmCapacity_warm he) ht)
    · exact fun j st hj => (getElem?_set_cases hj).imp_right (by rintro rfl k payload ⟨⟩)
  | finished report => exact ⟨[],.of_calls (fun _ _ hj => .inl hj)⟩

theorem step_follows (a : CacheAction F) : ∃ stored, Follows sys (sys.step floats a) stored := by
  cases a with
  | get u =>
    exact ⟨[],.of_calls (fun j st hj => (getElem?_append_cases hj).imp_right (by rintro rfl k payload ⟨⟩))⟩
  | put u payload =>
    refine ⟨[(u.canonical,payload)],.intro rfl ?_ (fun _ _ he ht => .inl (.of_warm he ht)) (fun _ _ hj => .inl hj)⟩
    intro k e he
    rcases of_insert he with he | ⟨rfl,rfl⟩
    · exact .inl (.inl ⟨e,he,rfl⟩)
    · exact .inr (List.mem_singleton_self _)
  | promotePredictions predictions loaded order =>
    exact ⟨[],.of_calls (fun j st hj => (getElem?_append_cases hj).imp_right (by rintro rfl k payload ⟨⟩))⟩
  | rebalance =>
    exact ⟨[],.of_calls (fun j st hj => (getElem?_append_cases hj).imp_right (by rintro rfl k payload ⟨⟩))⟩
  | proceed i order =>
    cases hi : sys.calls[i]? with
    | some stage => simpa only [step,hi] using proceed_follows hi
    | none =>
      simp only [step,hi]
      exact ⟨[],.of_calls (fun _ _ hj => .inl hj)⟩
  | vanish key =>
    refine ⟨[],.intro (by simp [step]) ?_ (fun _ _ he ht => .inl (.of_warm he ht)) (fun _ _ hj => .inl hj)⟩
    exact fun k e he => .inl (.inl ⟨e,of_erase he,rfl⟩)
  | wait elapsed =>
    refine ⟨[],.intro (by simp [step]) (fun _ e he => .inl (.inl ⟨e,he,rfl⟩)) ?_ (fun _ _ hj => .inl hj)⟩
    intro k e he ht
    -- what is expired stays expired
    exact .inl (.of_warm he (Nat.lt_of_le_of_lt (Nat.sub_le_sub_right (Nat.le_add_right ..) _) ht))

theorem run_fresh {key : String} {n base : ℕ} (h : Fresh key n base sys) (actions : List (CacheAction F)) :
    Fresh key n base (run (step floats) sys actions) := by
  refine run_preserves (fun sys a h => ?_) h actions
  obtain ⟨stored,hf⟩ := @step_follows _ _ _ floats sys a
  exact h.follows hf

/-- After a put over no other copy, the only copy is its own. -/
theorem fresh_put {u : ContextUri} {payload : ContentPayload}
    (h : ∀ other, sys.Lurks u.canonical other → other = payload) :
    Fresh u.canonical sys.stores.length sys.calls.length (sys.step floats (.put u payload)) where
  length := by simp [step]
  live := by
    rintro other (⟨entry,he,rfl⟩ | hl)
    · simp only [step,TieredCache.promoteToHot,Std.ExtTreeMap.getElem?_insert_self] at he
      cases he
      simp [step]
    · have ho : other = payload := h other hl
      simp [step,ho]
  answers := by
    intro i other hb hi
    have hn : sys.calls[i]? = none := List.getElem?_eq_none hb
    exact absurd (hn.symm.trans hi) (by simp)

/-- A `get` that finds a hot copy answers it. -/
theorem get_of_hot {u : ContextUri} {e : TieredEntry F} (h : sys.cache.hot[u.canonical]? = some e) :
    ∃ actions, (run (step floats) sys actions).stores = sys.stores ∧
      (run (step floats) sys actions).calls[sys.calls.length]? = some (.answered u.canonical (some e.payload)) :=
  ⟨[.get u,.proceed sys.calls.length id,.proceed sys.calls.length id],by simp [step,proceed,h]⟩

/-- A `get` that finds none but an unexpired warm copy answers that. -/
theorem get_of_warm {u : ContextUri} {e : TieredEntry F} (hn : sys.cache.hot[u.canonical]? = none)
    (h : sys.cache.warm[u.canonical]? = some e) (ht : sys.clock - e.inserted < e.ttl) :
    ∃ actions, (run (step floats) sys actions).stores = sys.stores ∧
      (run (step floats) sys actions).calls[sys.calls.length]? = some (.answered u.canonical (some e.payload)) :=
  ⟨[.get u,.proceed sys.calls.length id,.proceed sys.calls.length id,.proceed sys.calls.length id],
    by simp [step,proceed,h,hn,ht]⟩

/-- A call that carries a copy inserts it. -/
theorem hot_of_carried {stage : CacheStage F} {key : String} {payload : ContentPayload} (hi : sys.calls[i]? = some stage)
    (hc : stage.carried = some (key,payload)) :
    let after := sys.step floats (.proceed i id)
    after.stores = sys.stores ∧ after.calls.length = sys.calls.length ∧
      ∃ entry, after.cache.hot[key]? = some entry ∧ entry.payload = payload := by
  cases stage <;> cases hc <;> simp [step,hi,proceed,TieredCache.promoteToHot]

/-- Every `get` that begins after a put returns what is stored from the put on, exactly if no other copy of the URI
outlives the hot one when the put inserts: none in the warm map that is not expired, and none that a call has read and
has still to insert. -/
theorem put_fresh_iff (sys : CacheSystem F) (uri : ContextUri) (payload : ContentPayload) :
    (∀ (actions : List (CacheAction F)) (i : ℕ) (answer : ContentPayload), sys.calls.length ≤ i →
      (run (step floats) sys (.put uri payload::actions)).calls[i]? = some (.answered uri.canonical (some answer)) →
      (uri.canonical, answer) ∈ (run (step floats) sys (.put uri payload::actions)).stores.drop sys.stores.length) ↔
    ∀ other, sys.Lurks uri.canonical other → other = payload := by
  constructor
  · intro h other hl
    let put := sys.step floats (.put uri payload)
    have hs : put.stores.drop sys.stores.length = [(uri.canonical,payload)] := by simp [put,step]
    -- a run that stores nothing more cannot answer anything else
    have hr : ∀ (actions : List (CacheAction F)) (i : ℕ), sys.calls.length ≤ i →
        (run (step floats) put actions).stores = put.stores →
        (run (step floats) put actions).calls[i]? = some (.answered uri.canonical (some other)) → other = payload := by
      intro actions i hb hst hi
      have ho := h actions i other hb hi
      rw [run_cons,hst,hs] at ho
      simpa using ho
    rcases hl with ⟨entry,he,ht,rfl⟩ | ⟨stage,hm,hc⟩
    · let gone := put.step floats (.vanish uri.canonical)
      obtain ⟨actions,hst,ha⟩ :=
        @get_of_warm _ _ _ floats gone uri _ (by simp [gone,step]) he ht
      exact hr (.vanish uri.canonical::actions) _ le_rfl hst ha
    · obtain ⟨j,hj⟩ := List.mem_iff_getElem?.mp hm
      obtain ⟨hst,hn,entry,he,rfl⟩ := @hot_of_carried _ _ _ floats put j _ _ _ hj hc
      obtain ⟨actions,hst',ha⟩ := @get_of_hot _ _ _ floats _ _ _ he
      exact hr (.proceed j id::actions) _ hn.ge (hst'.trans hst) ha
  · intro h actions i answer hb hi
    exact (run_fresh (fresh_put h) actions).answers i answer hb hi

end Runs

def sampleFloats : CacheFloats ℕ := ⟨100, id, fun base percent => base * percent / 100, fun p n => p + n, fun a b => a ≤ b⟩

def sampleUri : ContextUri := .ofTenant "t"

def samplePayload (text : String) : ContentPayload := .text text text text

def warmedUp : CacheSystem ℕ :=
  run (step sampleFloats) ⟨.new 8 ⟨70, 25, 150, 75⟩, 0, [], []⟩
    [.promotePredictions [⟨sampleUri, 50⟩] [(sampleUri, samplePayload "old")] id, .proceed 0 id, .proceed 0 id,
      .proceed 0 id]

/-- The hot entry vanishes, and a `get` begins. -/
def getAfterEviction : List (CacheAction ℕ) :=
  [.vanish sampleUri.canonical, .get sampleUri, .proceed 1 id, .proceed 1 id, .proceed 1 id]

theorem old_copy_resurfaces :
    ¬ ∀ (actions : List (CacheAction ℕ)) (i : ℕ) (answer : ContentPayload), warmedUp.calls.length ≤ i →
      (run (step sampleFloats) warmedUp (.put sampleUri (samplePayload "new")::actions)).calls[i]? =
        some (.answered sampleUri.canonical (some answer)) →
      (sampleUri.canonical, answer) ∈
        (run (step sampleFloats) warmedUp (.put sampleUri (samplePayload "new")::actions)).stores.drop
          warmedUp.stores.length := by
  intro h
  have ho := h getAfterEviction 1 (samplePayload "old") (by decide +kernel) (by rfl)
  have hs : (run (step sampleFloats) warmedUp (.put sampleUri (samplePayload "new")::getAfterEviction)).stores.drop
      warmedUp.stores.length = [(sampleUri.canonical,samplePayload "new")] := by rfl
  rw [hs] at ho
  simp [samplePayload] at ho

end CacheSystem

end UwuContextDb.Consolidation
