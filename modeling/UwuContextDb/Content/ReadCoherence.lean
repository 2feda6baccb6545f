import UwuContextDb.Content.SqliteTables

/-! Reads of the SQLite store through its cache, and how they interleave with its writes. -/

namespace UwuContextDb.Content

open StateMachine

/-- `ContentLevel::as_str`. -/
def levelText : ContentLevel → String
  | .l0 => "l0"
  | .l1 => "l1"
  | .l2 => "l2"

def cacheKey (uri : String) (level : ContentLevel) : String := uri ++ ":" ++ levelText level

/-- A cached payload, or the note that there is none; `loaded` is the commit whose tables it was read from. -/
structure CacheEntry where
  payload : Option ContentPayload
  loaded : ℕ

inductive ReadStage
  | begun
  | missed
  | loaded (commit : ℕ) (result : Except ContextError ContentPayload)
  | returned (result : Except ContextError ContentPayload)

/-- A call of `read`, with the newest mutation of its address that had returned when it began. -/
structure Reader where
  uri : ContextUri
  level : ContentLevel
  floor : ℕ
  stage : ReadStage

structure Mutator where
  commit : ℕ
  uris : List String
  pending : List String

def SqliteTables.Op.invalidates : SqliteTables.Op → List String
  | .write entry _ => [entry.uri.canonical]
  | .batchWrite entries _ => entries.map (·.uri.canonical)
  | .delete uri _ => [uri.canonical]
  | .rename from_ to_ _ => [from_.canonical, to_.canonical]
  | .rollback uri _ _ => [uri.canonical]
  | .addEdge _ _ _ => []
  | .removeEdge _ _ => []

/-- `ReadCache::invalidate` drops every level of an address. -/
def invalidatedKeys (uris : List String) : List String :=
  uris.flatMap (fun uri => [cacheKey uri .l0, cacheKey uri .l1, cacheKey uri .l2])

/-- The tables after every commit, the calls under way, and the cache. `cleared` has the newest commit whose
invalidation of a key is done, `settled` the newest mutation of an address that has returned. -/
structure CachedStore where
  past : List SqliteTables
  tables : SqliteTables
  cache : Std.ExtTreeMap String CacheEntry
  readers : List Reader
  mutators : List Mutator
  cleared : String → ℕ
  settled : String → ℕ

namespace CachedStore

variable (libraries lib : StoreLibraries) (config : SqliteTables.BatchWriteConfig) (sys : CachedStore)

def new (tables : SqliteTables) : CachedStore := ⟨[], tables, ∅, [], [], fun _ => 0, fun _ => 0⟩

def commits : ℕ := sys.past.length

def tablesAt (commit : ℕ) : Option SqliteTables := (sys.past ++ [sys.tables])[commit]?

inductive Action
  | begin_ (uri : ContextUri) (level : ContentLevel)
  | lookup (i : ℕ)
  | load (i : ℕ)
  | finish (i : ℕ)
  | mutate (op : SqliteTables.Op)
  | invalidate (i : ℕ)
  | reply (i : ℕ)
  | expire (key : String)

def hitResult (uri : ContextUri) (payload : Option ContentPayload) : Except ContextError ContentPayload :=
  match payload with
  | some payload => .ok payload
  | none => .error (.notFound uri.canonical)

/-- What `read` leaves in the cache: a note of absence at every level, a payload except at L2. -/
def fill (cache : Std.ExtTreeMap String CacheEntry) (uri : ContextUri) (level : ContentLevel) (commit : ℕ) :
    Except ContextError ContentPayload → Std.ExtTreeMap String CacheEntry
  | .error (.notFound _) => cache.insert (cacheKey uri.canonical level) ⟨none, commit⟩
  | .error _ => cache
  | .ok payload => if level = .l2 then cache else cache.insert (cacheKey uri.canonical level) ⟨some payload, commit⟩

def step : Action → CachedStore
  | .begin_ uri level => { sys with readers := sys.readers ++ [⟨uri, level, sys.settled uri.canonical, .begun⟩] }
  | .lookup i =>
    match sys.readers[i]? with
    | some ⟨uri, level, floor, .begun⟩ =>
      match (if level = .l2 then none else sys.cache[cacheKey uri.canonical level]?) with
      | some hit => { sys with readers := sys.readers.set i ⟨uri, level, floor, .returned (hitResult uri hit.payload)⟩ }
      | none => { sys with readers := sys.readers.set i ⟨uri, level, floor, .missed⟩ }
    | _ => sys
  | .load i =>
    match sys.readers[i]? with
    | some ⟨uri, level, floor, .missed⟩ =>
      { sys with readers := sys.readers.set i ⟨uri, level, floor, .loaded sys.commits (sys.tables.read uri level)⟩ }
    | _ => sys
  | .finish i =>
    match sys.readers[i]? with
    | some ⟨uri, level, floor, .loaded commit result⟩ =>
      { sys with
        cache := fill sys.cache uri level commit result
        readers := sys.readers.set i ⟨uri, level, floor, .returned result⟩ }
    | _ => sys
  | .mutate op =>
    match sys.tables.commit libraries config op with
    | .ok tx =>
      { sys with
        past := sys.past ++ [sys.tables]
        tables := tx
        mutators := sys.mutators ++ [⟨sys.commits + 1, op.invalidates, invalidatedKeys op.invalidates⟩] }
    | .error _ => sys
  | .invalidate i =>
    match sys.mutators[i]? with
    | some ⟨commit, uris, key::pending⟩ =>
      { sys with
        cache := sys.cache.erase key
        mutators := sys.mutators.set i ⟨commit, uris, pending⟩
        cleared := Function.update sys.cleared key (max (sys.cleared key) commit) }
    | _ => sys
  | .reply i =>
    match sys.mutators[i]? with
    | some ⟨commit, uris, []⟩ =>
      { sys with
        mutators := sys.mutators.eraseIdx i
        settled := fun uri => if uri ∈ uris then max (sys.settled uri) commit else sys.settled uri }
    | _ => sys
  | .expire key => { sys with cache := sys.cache.erase key }

def Coherent : Prop :=
  ∀ reader ∈ sys.readers, ∀ result, reader.stage = .returned result →
    ∃ commit tables, reader.floor ≤ commit ∧ sys.tablesAt commit = some tables ∧
      result = tables.read reader.uri reader.level

def filling (i : ℕ) : Option (String × ℕ) :=
  match sys.readers[i]? with
  | some ⟨uri, level, _, .loaded commit _⟩ => if level = .l2 then none else some (cacheKey uri.canonical level, commit)
  | _ => none

/-- A read fills the cache only while no mutation that was committed after its load has already invalidated the key. -/
def Unraced : Action → Prop
  | .finish i => ∀ filled ∈ sys.filling i, sys.cleared filled.1 ≤ filled.2
  | _ => True

instance decidableUnraced : ∀ action, Decidable (sys.Unraced action)
  | .finish i => inferInstanceAs (Decidable (∀ filled ∈ sys.filling i, sys.cleared filled.1 ≤ filled.2))
  | .begin_ _ _ => .isTrue trivial
  | .lookup _ => .isTrue trivial
  | .load _ => .isTrue trivial
  | .mutate _ => .isTrue trivial
  | .invalidate _ => .isTrue trivial
  | .reply _ => .isTrue trivial
  | .expire _ => .isTrue trivial

/-! ### What the interleaving keeps -/

theorem levelText_length (lvl : ContentLevel) : (levelText lvl).toList.length = 2 := by
  cases lvl <;> decide

variable {level level' : ContentLevel} {uri uri' : ContextUri}

theorem cacheKey_injective {u u' : String} (h : cacheKey u level = cacheKey u' level') : u = u' ∧ level = level' := by
  have hl : (u ++ ":").toList ++ (levelText level).toList = (u' ++ ":").toList ++ (levelText level').toList := by
    simpa [cacheKey] using congrArg String.toList h
  obtain ⟨hu,he⟩ := List.append_inj' hl (by rw [levelText_length,levelText_length])
  rw [String.toList_append,String.toList_append] at hu
  refine ⟨String.toList_inj.mp (List.append_cancel_right hu),?_⟩
  revert he
  cases level <;> cases level' <;> decide

theorem mem_invalidatedKeys {uris : List String} {u : String} (h : u ∈ uris) (lvl : ContentLevel) :
    cacheKey u lvl ∈ invalidatedKeys uris := by
  refine List.mem_flatMap.mpr ⟨u,h,?_⟩
  cases lvl <;> simp

variable {libraries lib config sys} {sys' : CachedStore}

theorem read_congr (tbl : SqliteTables) (h : uri.canonical = uri'.canonical) (level : ContentLevel) :
    tbl.read uri level = tbl.read uri' level := by
  simp [SqliteTables.read,SqliteTables.loadEntry,h]

/-- `result` is what the address had at a commit that is not behind the read's floor. -/
def Served (sys : CachedStore) (reader : Reader) (commit : ℕ) (result : Except ContextError ContentPayload) : Prop :=
  reader.floor ≤ commit ∧ ∃ tables, sys.tablesAt commit = some tables ∧ result = tables.read reader.uri reader.level

def ReaderSound (sys : CachedStore) (reader : Reader) : Prop :=
  match reader.stage with
  | .begun => reader.floor ≤ sys.settled reader.uri.canonical
  | .missed => reader.floor ≤ sys.settled reader.uri.canonical
  | .loaded commit result => sys.Served reader commit result
  | .returned result => ∃ commit, sys.Served reader commit result

structure MutatorSound (sys : CachedStore) (mutator : Mutator) : Prop where
  commit_le : mutator.commit ≤ sys.commits
  cleared : ∀ uri ∈ mutator.uris, ∀ level,
    cacheKey uri level ∈ mutator.pending ∨ mutator.commit ≤ sys.cleared (cacheKey uri level)

def EntrySound (sys : CachedStore) (uri : ContextUri) (level : ContentLevel) (hit : CacheEntry) : Prop :=
  sys.cleared (cacheKey uri.canonical level) ≤ hit.loaded ∧
    ∃ tables, sys.tablesAt hit.loaded = some tables ∧ hitResult uri hit.payload = tables.read uri level

structure Tracked (sys : CachedStore) : Prop where
  cached : ∀ uri level hit, level ≠ .l2 → sys.cache[cacheKey uri.canonical level]? = some hit → sys.EntrySound uri level hit
  settled_le : ∀ uri level, sys.settled uri ≤ sys.cleared (cacheKey uri level)
  cleared_le : ∀ key, sys.cleared key ≤ sys.commits
  mutators : ∀ mutator ∈ sys.mutators, sys.MutatorSound mutator
  readers : ∀ reader ∈ sys.readers, sys.ReaderSound reader

theorem tracked_new (tbl : SqliteTables) : (new tbl).Tracked :=
  ⟨fun _ _ _ _ h => by simp [new] at h,fun _ _ => le_rfl,fun _ => le_rfl,fun _ h => by simp [new] at h,
    fun _ h => by simp [new] at h⟩

theorem Tracked.coherent (h : sys.Tracked) : sys.Coherent := by
  intro reader hr result ht
  have hs := h.readers reader hr
  rw [ReaderSound,ht] at hs
  obtain ⟨commit,hf,tbl,ha,he⟩ := hs
  exact ⟨commit,tbl,hf,ha,he⟩

theorem tablesAt_commits (sys : CachedStore) : sys.tablesAt sys.commits = some sys.tables := by
  simp [tablesAt,commits]

/-- `sys'` has every commit of `sys`, and as many settled mutations. -/
structure Extends (sys sys' : CachedStore) : Prop where
  tables : ∀ commit tables, sys.tablesAt commit = some tables → sys'.tablesAt commit = some tables
  settled : ∀ uri, sys.settled uri ≤ sys'.settled uri

theorem ReaderSound.extends {reader : Reader} (h : sys.ReaderSound reader) (he : Extends sys sys') :
    sys'.ReaderSound reader := by
  have hr : ∀ {commit result}, sys.Served reader commit result → sys'.Served reader commit result := by
    rintro commit result ⟨hf,tbl,ht,hre⟩
    exact ⟨hf,tbl,he.tables _ _ ht,hre⟩
  unfold ReaderSound at h ⊢
  cases hs : reader.stage with
  | begun =>
    rw [hs] at h
    exact h.trans (he.settled _)
  | missed =>
    rw [hs] at h
    exact h.trans (he.settled _)
  | loaded commit result =>
    rw [hs] at h
    exact hr h
  | returned result =>
    rw [hs] at h
    obtain ⟨commit,h⟩ := h
    exact ⟨commit,hr h⟩

theorem Tracked.setReader (h : sys.Tracked) {i : ℕ} {reader : Reader} (hr : sys.ReaderSound reader) :
    Tracked { sys with readers := sys.readers.set i reader } := by
  refine ⟨h.cached,h.settled_le,h.cleared_le,
    fun mutator hm => ⟨(h.mutators mutator hm).1,(h.mutators mutator hm).2⟩,?_⟩
  intro other ho
  rcases List.mem_or_eq_of_mem_set ho with ho | rfl
  · exact h.readers other ho
  · exact hr

theorem Tracked.begin_ (h : sys.Tracked) (u : ContextUri) (lvl : ContentLevel) :
    (sys.step lib config (.begin_ u lvl)).Tracked := by
  refine ⟨h.cached,h.settled_le,h.cleared_le,
    fun mutator hm => ⟨(h.mutators mutator hm).1,(h.mutators mutator hm).2⟩,?_⟩
  intro reader hr
  rcases List.mem_append.mp hr with ho | hn
  · exact h.readers reader ho
  · rw [List.mem_singleton.mp hn]
    exact le_rfl

theorem Tracked.lookup (h : sys.Tracked) (i : ℕ) : (sys.step lib config (.lookup i)).Tracked := by
  unfold step
  dsimp only
  split
  · rename_i uri level floor hg
    have hf : floor ≤ sys.settled uri.canonical := h.readers _ (List.mem_of_getElem? hg)
    split
    · rename_i hit hh
      have hl : level ≠ .l2 := by
        rintro rfl
        simp at hh
      rw [if_neg hl] at hh
      obtain ⟨ho,tbl,ht,hr⟩ := h.cached uri level hit hl hh
      have he := (hf.trans (h.settled_le uri.canonical level)).trans ho
      exact h.setReader ⟨hit.loaded,he,tbl,ht,hr⟩
    · exact h.setReader hf
  · exact h

theorem Tracked.load (h : sys.Tracked) (i : ℕ) : (sys.step lib config (.load i)).Tracked := by
  unfold step
  dsimp only
  split
  · rename_i uri level floor hg
    have hf : floor ≤ sys.settled uri.canonical := h.readers _ (List.mem_of_getElem? hg)
    have hl := (hf.trans (h.settled_le uri.canonical level)).trans (h.cleared_le _)
    exact h.setReader ⟨hl,sys.tables,sys.tablesAt_commits,rfl⟩
  · exact h

theorem fill_sound {cache : Std.ExtTreeMap String CacheEntry}
    {commit : ℕ} {tbl : SqliteTables} {hit : CacheEntry} (hl : level' ≠ .l2)
    (h : (fill cache uri level commit (tbl.read uri level))[cacheKey uri'.canonical level']? = some hit) :
    cache[cacheKey uri'.canonical level']? = some hit ∨
      cacheKey uri.canonical level = cacheKey uri'.canonical level' ∧ hit.loaded = commit ∧
        hitResult uri' hit.payload = tbl.read uri' level' := by
  by_cases hk : cacheKey uri.canonical level = cacheKey uri'.canonical level'
  · obtain ⟨hu,rfl⟩ := cacheKey_injective hk
    have he := read_congr tbl hu level
    have ho : tbl.loadEntry uri = tbl.loadEntry uri' := by simp [SqliteTables.loadEntry,hu]
    refine .inr ⟨hk,?_⟩
    rw [← he]
    unfold SqliteTables.read at h ⊢
    rw [ho] at h ⊢
    unfold SqliteTables.loadEntry at h ⊢
    cases hr : tbl.entries[uri'.canonical]? with
    | none =>
      rw [hr] at h
      simp only [Except.map,fill,hk,Std.ExtTreeMap.getElem?_insert_self,Option.some.injEq] at h
      subst h
      exact ⟨rfl,rfl⟩
    | some row =>
      rw [hr] at h
      simp only [Except.map,fill,hl,if_false,hk,Std.ExtTreeMap.getElem?_insert_self,Option.some.injEq] at h
      subst h
      exact ⟨rfl,rfl⟩
  · refine .inl ?_
    unfold fill at h
    split at h
    · simpa [Std.ExtTreeMap.getElem?_insert,hk] using h
    · exact h
    · split at h
      · exact h
      · simpa [Std.ExtTreeMap.getElem?_insert,hk] using h

theorem Tracked.finish (h : sys.Tracked) (i : ℕ) (hok : sys.Unraced (.finish i)) :
    (sys.step lib config (.finish i)).Tracked := by
  unfold step
  dsimp only
  split
  · rename_i uri level floor commit result hg
    have hs : sys.Served ⟨uri,level,floor, .loaded commit result⟩ commit result :=
      h.readers _ (List.mem_of_getElem? hg)
    obtain ⟨-,tbl,ht,he⟩ := id hs
    have hr := @Tracked.setReader _ h i ⟨uri,level,floor, .returned result⟩ ⟨commit,hs⟩
    refine ⟨?_,hr.settled_le,hr.cleared_le,
      fun mutator hm => ⟨(hr.mutators mutator hm).1,(hr.mutators mutator hm).2⟩,hr.readers⟩
    intro uri' level' hit hl' hh
    have he' : result = tbl.read uri level := he
    simp only [he'] at hh
    rcases fill_sound hl' hh with ho | ⟨hk,ha,hp⟩
    · exact h.cached uri' level' hit hl' ho
    · have hl : level ≠ .l2 := by
        rw [(cacheKey_injective hk).2]
        exact hl'
      have hc := hok (cacheKey uri.canonical level, commit) (by simp [filling,hg,hl])
      rw [hk] at hc
      rw [← ha] at hc ht
      exact ⟨hc,tbl,ht,hp⟩
  · exact h

theorem Tracked.mutate (h : sys.Tracked) (op : SqliteTables.Op) : (sys.step lib config (.mutate op)).Tracked := by
  unfold step
  dsimp only
  split
  · rename_i tx hx
    have he : Extends sys { sys with
        past := sys.past++[sys.tables]
        tables := tx
        mutators := sys.mutators++[⟨sys.commits+1,op.invalidates,invalidatedKeys op.invalidates⟩] } := by
      refine ⟨fun commit tables ht => ?_,fun _ => le_rfl⟩
      obtain ⟨hlt,-⟩ := List.getElem?_eq_some_iff.mp ht
      rw [← ht]
      exact List.getElem?_append_left hlt
    have hc : ∀ n, n ≤ sys.commits → n ≤ (sys.past++[sys.tables]).length := by
      intro n hn
      rw [List.length_append]
      exact Nat.le_succ_of_le hn
    refine ⟨?_,h.settled_le,fun key => hc _ (h.cleared_le key),?_,
      fun reader hr => (h.readers reader hr).extends he⟩
    · intro uri level hit hl hh
      obtain ⟨hcl,tables,ht,hs⟩ := h.cached uri level hit hl hh
      exact ⟨hcl,tables,he.tables _ _ ht,hs⟩
    · intro mutator hm
      rcases List.mem_append.mp hm with ho | hw
      · exact ⟨hc _ (h.mutators mutator ho).1,(h.mutators mutator ho).2⟩
      · rw [List.mem_singleton.mp hw]
        refine ⟨?_,fun uri hu level => .inl (mem_invalidatedKeys hu level)⟩
        show sys.past.length + 1 ≤ (sys.past++[sys.tables]).length
        rw [List.length_append,List.length_singleton]
  · exact h

theorem Tracked.invalidate (h : sys.Tracked) (i : ℕ) : (sys.step lib config (.invalidate i)).Tracked := by
  unfold step
  dsimp only
  split
  · rename_i commit uris key pending he
    have hm := h.mutators _ (List.mem_of_getElem? he)
    have hg : ∀ other, sys.cleared other ≤ Function.update sys.cleared key (max (sys.cleared key) commit) other := by
      intro other
      by_cases ho : other = key
      · subst ho
        simp
      · rw [Function.update_of_ne ho]
    refine ⟨?_,fun uri level => (h.settled_le uri level).trans (hg _),?_,?_,h.readers⟩
    · intro uri level hit hv hh
      have hn : cacheKey uri.canonical level ≠ key := by
        intro hq
        simp [hq] at hh
      have hd : sys.cache[cacheKey uri.canonical level]? = some hit := by
        simpa [Std.ExtTreeMap.getElem?_erase,hn.symm] using hh
      obtain ⟨hc,ht⟩ := h.cached uri level hit hv hd
      refine ⟨?_,ht⟩
      show Function.update sys.cleared key (max (sys.cleared key) commit) (cacheKey uri.canonical level) ≤ hit.loaded
      rw [Function.update_of_ne hn]
      exact hc
    · intro other
      by_cases ho : other = key
      · subst ho
        show Function.update sys.cleared other (max (sys.cleared other) commit) other ≤ sys.commits
        rw [Function.update_self]
        exact max_le (h.cleared_le other) hm.commit_le
      · show Function.update sys.cleared key (max (sys.cleared key) commit) other ≤ sys.commits
        rw [Function.update_of_ne ho]
        exact h.cleared_le other
    · intro mutator hme
      rcases List.mem_or_eq_of_mem_set hme with hd | rfl
      · obtain ⟨hl,hc⟩ := h.mutators mutator hd
        exact ⟨hl,fun uri hu level => (hc uri hu level).imp id (fun hl => hl.trans (hg _))⟩
      · refine ⟨hm.commit_le,fun uri hu level => ?_⟩
        rcases hm.cleared uri hu level with hp | hl
        · rcases List.mem_cons.mp hp with hk | hp
          · right
            show commit ≤ Function.update sys.cleared key (max (sys.cleared key) commit) (cacheKey uri level)
            rw [hk,Function.update_self]
            exact le_max_right _ _
          · exact .inl hp
        · exact .inr (hl.trans (hg _))
  · exact h

theorem Tracked.reply (h : sys.Tracked) (i : ℕ) : (sys.step lib config (.reply i)).Tracked := by
  unfold step
  dsimp only
  split
  · rename_i commit uris hg
    have hm := h.mutators _ (List.mem_of_getElem? hg)
    refine ⟨h.cached,?_,h.cleared_le,?_,fun reader hr => (h.readers reader hr).extends ⟨fun _ _ => id,?_⟩⟩
    · intro uri level
      show (if uri ∈ uris then max (sys.settled uri) commit else sys.settled uri) ≤ sys.cleared (cacheKey uri level)
      split
      · rename_i hu
        rcases hm.cleared uri hu level with hp | hl
        · exact absurd hp (List.not_mem_nil)
        · exact max_le (h.settled_le uri level) hl
      · exact h.settled_le uri level
    · intro mutator he
      obtain ⟨hl,hc⟩ := h.mutators mutator (List.mem_of_mem_eraseIdx he)
      exact ⟨hl,hc⟩
    · intro uri
      show sys.settled uri ≤ if uri ∈ uris then max (sys.settled uri) commit else sys.settled uri
      split
      · exact le_max_left _ _
      · exact le_rfl
  · exact h

theorem Tracked.expire (h : sys.Tracked) (key : String) : (sys.step lib config (.expire key)).Tracked := by
  refine ⟨?_,h.settled_le,h.cleared_le,
    fun mutator hm => ⟨(h.mutators mutator hm).1,(h.mutators mutator hm).2⟩,h.readers⟩
  intro uri level hit hl hh
  have ho : sys.cache[cacheKey uri.canonical level]? = some hit := by
    by_cases hk : key = cacheKey uri.canonical level
    · simp [step,hk] at hh
    · simpa [step,Std.ExtTreeMap.getElem?_erase,hk] using hh
  exact h.cached uri level hit hl ho

theorem Tracked.step (h : sys.Tracked) (action : Action) (ho : sys.Unraced action) :
    (sys.step lib config action).Tracked := by
  cases action with
  | begin_ uri level => exact h.begin_ uri level
  | lookup i => exact h.lookup i
  | load i => exact h.load i
  | finish i => exact h.finish i ho
  | mutate op => exact h.mutate op
  | invalidate i => exact h.invalidate i
  | reply i => exact h.reply i
  | expire key => exact h.expire key

variable (libraries lib config)

/-- **No read returns what a mutation that had returned before it replaced**, in a run whose reads fill the cache
only while no mutation that was committed after their load has invalidated the key. -/
theorem run_coherent (tables : SqliteTables) (actions : List Action)
    (h : Meets (fun sys => sys.step libraries config) Unraced (new tables) actions) :
    (run (fun sys => sys.step libraries config) (new tables) actions).Coherent := by
  have hs : ∀ sys : CachedStore, ∀ action, sys.Tracked → sys.Unraced action →
      (sys.step libraries config action).Tracked :=
    fun _ action hy ho => hy.step action ho
  exact (run_invariant hs (tracked_new tables) h).coherent

def sampleLibraries : StoreLibraries := ⟨fun _ => none, fun _ => none, fun _ => 0, fun _ => none, id, 32766⟩

def sampleUri : ContextUri := (ContextUri.ofTenant "t").join "x"

def sampleWrite (text : String) : List Action :=
  [.mutate (.write (.newText sampleUri 1 text 0) 0), .invalidate 0, .invalidate 0, .invalidate 0, .reply 0]

def readsInTurn : List Action :=
  sampleWrite "old" ++ [.begin_ sampleUri .l0, .lookup 0, .load 0, .finish 0] ++ sampleWrite "new" ++
    [.begin_ sampleUri .l0, .lookup 1, .load 1, .finish 1]

def overtakenRead : List Action :=
  sampleWrite "old" ++ [.begin_ sampleUri .l0, .lookup 0, .load 0] ++ sampleWrite "new" ++
    [.finish 0, .begin_ sampleUri .l0, .lookup 1]

theorem run_coherent_inTurn : (run (fun sys => sys.step sampleLibraries .standard) (new .empty) readsInTurn).Coherent :=
  run_coherent sampleLibraries .standard .empty readsInTurn (by decide +kernel)

def resultText : Except ContextError ContentPayload → Option String
  | .ok (.text _ _ full) => some full
  | _ => none

def returnedText (reader : Reader) : Option String :=
  match reader with
  | ⟨uri, .l0, 2, .returned result⟩ => if uri = sampleUri then resultText result else none
  | _ => none

theorem overtaken_read_stale :
    ¬ (run (fun sys => sys.step sampleLibraries .standard) (new .empty) overtakenRead).Coherent := by
  intro h
  have ho : ((run (fun sys => sys.step sampleLibraries .standard) (new .empty) overtakenRead).readers[1]?).bind
      returnedText =
      some "old" := by decide +kernel
  have hn : ((run (fun sys => sys.step sampleLibraries .standard) (new .empty) overtakenRead).tablesAt 2).bind
      (fun tables => resultText (tables.read sampleUri .l0)) = some "new" := by decide +kernel
  have hl : (run (fun sys => sys.step sampleLibraries .standard) (new .empty) overtakenRead).commits =
      2 := by decide +kernel
  generalize run (fun sys => sys.step sampleLibraries .standard) (new .empty) overtakenRead = sys at h ho hn hl
  obtain ⟨reader, hr, ht⟩ := Option.bind_eq_some_iff.mp ho
  unfold returnedText at ht
  split at ht
  · rename_i uri result
    split at ht
    · rename_i hu
      subst hu
      obtain ⟨commit, tables, hf, ha, he⟩ := h _ (List.mem_of_getElem? hr) result rfl
      have hc : commit = 2 := by
        obtain ⟨hlt, -⟩ := List.getElem?_eq_some_iff.mp ha
        rw [List.length_append, List.length_singleton] at hlt
        have hf' : 2 ≤ commit := hf
        have : sys.past.length = 2 := hl
        omega
      rw [hc] at ha
      rw [ha] at hn
      have hs : resultText (tables.read sampleUri .l0) = some "new" := hn
      have hd : result = tables.read sampleUri .l0 := he
      rw [← hd, ht] at hs
      exact absurd hs (by decide)
    · cases ht
  · cases ht

end CachedStore

end UwuContextDb.Content
