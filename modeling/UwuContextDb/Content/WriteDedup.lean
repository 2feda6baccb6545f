import UwuContextDb.Content.MemoryPaging
import UwuContextDb.Core.RedactionFrame

/-! `SemanticWriteDedupStore`: a write is left out where an entry of the same scope resembles it. -/

namespace UwuContextDb.Content

open Retrieve (PageRequest Page)
open Text (isBlank)

structure SemanticWriteDedupConfig where
  scanLimit : ℕ
  jaccardThreshold : ℚ
  minTokens : ℕ

def SemanticWriteDedupConfig.standard : SemanticWriteDedupConfig := ⟨256, 14428406 / 16777216, 5⟩

/-- `SemanticWriteDedupConfig::validate`, of finite thresholds. -/
def SemanticWriteDedupConfig.validate (config : SemanticWriteDedupConfig) : Except ContextError Unit :=
  if config.scanLimit = 0 then .error (.unsupported "semantic dedup scan_limit must be greater than zero")
  else if ¬ (0 ≤ config.jaccardThreshold ∧ config.jaccardThreshold ≤ 1) ∨ config.jaccardThreshold = 0 then
    .error (.unsupported "semantic dedup jaccard_threshold must be finite and in (0, 1]")
  else if config.minTokens = 0 then .error (.unsupported "semantic dedup min_tokens must be greater than zero")
  else .ok ()

structure TextTables where
  toLowercase : Char → List Char
  isAlphanumeric : Char → Bool
  printJson : Json → String
  quotient : ℕ → ℕ → ℚ

structure WriteDedupDecision where
  duplicateOf : ContextUri
  similarity : ℚ
  existingVersion : MvccVersion

section Similarity

variable (tables : TextTables)

def semanticText : ContentPayload → String
  | .text sparse dense full => if ¬ isBlank full then full else if ¬ isBlank dense then dense else sparse
  | .image _ _ _ => "[image]"
  | .audio transcript _ _ => transcript
  | .structured summary _ data => summary ++ "\n" ++ tables.printJson data
  | .composite summary _ => summary

/-- The loop of `tokenize_for_dedup`: the tokens so far, and the one being read. -/
def tokenStep (state : List String × List Char) (c : Char) : List String × List Char :=
  if tables.isAlphanumeric c || (0x4e00 ≤ c.val && c.val ≤ 0x9fff) then (state.1, state.2 ++ [c])
  else if state.2.isEmpty then state
  else (state.1 ++ [String.ofList state.2], [])

def tokenizeForDedup (text : String) : List String :=
  let (tokens, current) := (text.toList.flatMap tables.toLowercase).foldl (tokenStep tables) ([], [])
  let tokens := if current.isEmpty then tokens else tokens ++ [String.ofList current]
  (tokens.insertionSort (· ≤ ·)).destutter (· ≠ ·)

/-- The loop of `jaccard_sorted`: the tokens that both lists have, and all of them. -/
def jaccardCounts : ℕ → List String → List String → ℕ × ℕ
  | fuel + 1, a::left, b::right =>
    match compare a b with
    | .eq => let counts := jaccardCounts fuel left right; (counts.1 + 1, counts.2 + 1)
    | .lt => let counts := jaccardCounts fuel left (b::right); (counts.1, counts.2 + 1)
    | .gt => let counts := jaccardCounts fuel (a::left) right; (counts.1, counts.2 + 1)
  | _, left, right => (0, left.length + right.length)

def jaccardSorted (left right : List String) : ℚ :=
  if left.isEmpty || right.isEmpty then 0 else
    let counts := jaccardCounts (left.length + right.length) left right
    tables.quotient counts.1 (max counts.2 1)

def tokensOf (entry : ContextEntry) : List String := tokenizeForDedup tables (semanticText tables entry.payload)

def similarity (entry existing : ContextEntry) : ℚ :=
  jaccardSorted tables (tokensOf tables entry) (tokensOf tables existing)

end Similarity

section Decision

variable (tables : TextTables) (config : SemanticWriteDedupConfig) (entry : ContextEntry)

/-- Another entry of the same type, long enough and similar enough. -/
def resembles (existing : ContextEntry) : Bool :=
  !(existing.uri = entry.uri || existing.metadata.contentType ≠ entry.metadata.contentType) &&
    !(decide ((tokensOf tables existing).length < config.minTokens)) &&
      decide (config.jaccardThreshold ≤ similarity tables entry existing)

/-- The loop body of `find_duplicate`: a later entry replaces the best one only if it is more similar. -/
def bestDecision (best : Option WriteDedupDecision) (existing : ContextEntry) : Option WriteDedupDecision :=
  if resembles tables config entry existing &&
      best.all (fun current => decide (current.similarity < similarity tables entry existing)) then
    some ⟨existing.uri, similarity tables entry existing, existing.mvccVersion⟩
  else best

def dedupScopePrefix (uri : ContextUri) : String := (uri.parent.map (·.canonical)).getD uri.canonical

/-- `find_duplicate`, over the scan of the store inside. -/
def findDuplicate (scanByPrefix : String → PageRequest → Except ContextError (Page ContextEntry)) :
    Except ContextError (Option WriteDedupDecision) :=
  if config.scanLimit = 0 ∨ config.jaccardThreshold ≤ 0 then .ok none
  else if (tokensOf tables entry).length < config.minTokens then .ok none
  else (scanByPrefix (dedupScopePrefix entry.uri) (.new config.scanLimit)).map
    (fun existing => existing.items.foldl (bestDecision tables config entry) none)

end Decision

/-- A `ContentStore` by its writes and scans, and what its callers rely on: a write puts the redacted entry under
its URI, with the version it returns, and leaves the others; a scan returns current entries. -/
structure ContentStore where
  State : Type
  current : State → String → Option ContextEntry
  write : State → ContextEntry → DateTime → Except ContextError (MvccVersion × State)
  scanByPrefix : State → String → PageRequest → Except ContextError (Page ContextEntry)
  write_current : ∀ s entry now version s', write s entry now = .ok (version, s') →
    ∃ redacted stored, WriteSecurity.sanitizeEntryForWrite entry = .ok redacted ∧
      current s' entry.uri.canonical = some stored ∧ stored.payload = redacted.payload ∧
      stored.metadata = redacted.metadata ∧ stored.mvccVersion = version
  write_other : ∀ s entry now version s', write s entry now = .ok (version, s') →
    ∀ uri, uri ≠ entry.uri.canonical → current s' uri = current s uri
  scan_current : ∀ s uriPrefix page found, scanByPrefix s uriPrefix page = .ok found →
    ∀ e ∈ found.items, current s e.uri.canonical = some e

structure SemanticWriteDedupStore where
  inner : ContentStore
  config : SemanticWriteDedupConfig
  tables : TextTables
  valid : config.validate = .ok ()

namespace SemanticWriteDedupStore

variable (store : SemanticWriteDedupStore)

def duplicate (s : store.inner.State) (entry : ContextEntry) : Except ContextError (Option WriteDedupDecision) :=
  findDuplicate store.tables store.config entry (store.inner.scanByPrefix s)

/-- `ContentStore::write`: the metadata of a decision is set on the entry that is dropped. -/
def write (s : store.inner.State) (entry : ContextEntry) (now : DateTime) :
    Except ContextError (MvccVersion × store.inner.State) :=
  match store.duplicate s entry with
  | .error e => .error e
  | .ok (some decision) => .ok (decision.existingVersion, s)
  | .ok none => store.inner.write s entry now

def step (s : store.inner.State) (call : ContextEntry × DateTime) : store.inner.State :=
  match store.write s call.1 call.2 with
  | .ok (_, s') => s'
  | .error _ => s

/-- `stored` is what the store makes of the entry. -/
def HasContent (entry stored : ContextEntry) : Prop :=
  ∃ redacted, WriteSecurity.sanitizeEntryForWrite entry = .ok redacted ∧ stored.payload = redacted.payload ∧
    stored.metadata = redacted.metadata

/-- A write is retained: afterwards its URI has its content, under the version returned; or the URI had no entry,
and the version is that of another one which resembles it. -/
def Retained (s : store.inner.State) (call : ContextEntry × DateTime) : Prop :=
  ∀ version s', store.write s call.1 call.2 = .ok (version, s') →
    (∃ stored, store.inner.current s' call.1.uri.canonical = some stored ∧ HasContent call.1 stored ∧
      stored.mvccVersion = version) ∨
    (store.inner.current s call.1.uri.canonical = none ∧
      ∃ other, store.inner.current s' other.uri.canonical = some other ∧
        other.uri.canonical ≠ call.1.uri.canonical ∧
        resembles store.tables store.config call.1 other = true ∧ other.mvccVersion = version)

/-- What a write must find: no entry of the scope that resembles it, or no entry under its own URI, or its own
content there already, under the version of the entry that resembles it most. -/
def Unopposed (s : store.inner.State) (call : ContextEntry × DateTime) : Prop :=
  ∀ decision, store.duplicate s call.1 = .ok (some decision) →
    store.inner.current s call.1.uri.canonical = none ∨
      ∃ stored, store.inner.current s call.1.uri.canonical = some stored ∧ HasContent call.1 stored ∧
        stored.mvccVersion = decision.existingVersion

end SemanticWriteDedupStore

section Found

variable {tables : TextTables} {config : SemanticWriteDedupConfig} {entry : ContextEntry}

theorem foldl_bestDecision {existing : List ContextEntry} {init : Option WriteDedupDecision} {decision : WriteDedupDecision}
    (h : existing.foldl (bestDecision tables config entry) init = some decision) :
    init = some decision ∨ ∃ e ∈ existing, resembles tables config entry e = true ∧
    e.mvccVersion = decision.existingVersion := by
  induction existing generalizing init with
  | nil => exact .inl h
  | cons e existing ih =>
    rcases ih h with hb | ⟨e',he',hr⟩
    · unfold bestDecision at hb
      split at hb
      · rename_i hc
        obtain rfl := Option.some.inj hb
        exact .inr ⟨e,List.mem_cons_self,(Bool.and_eq_true_iff.mp hc).1,rfl⟩
      · exact .inl hb
    · exact .inr ⟨e',List.mem_cons_of_mem _ he',hr⟩

theorem findDuplicate_some {scan : String → PageRequest → Except ContextError (Page ContextEntry)}
    {decision : WriteDedupDecision} (h : findDuplicate tables config entry scan = .ok (some decision)) :
    ∃ found, scan (dedupScopePrefix entry.uri) (.new config.scanLimit) = .ok found ∧
      ∃ e ∈ found.items, resembles tables config entry e = true ∧ e.mvccVersion = decision.existingVersion := by
  unfold findDuplicate at h
  split at h
  · cases h
  · split at h
    · cases h
    · obtain ⟨found,hf,hb⟩ := StateMachine.map_eq_ok.mp h
      refine ⟨found,hf,?_⟩
      rcases foldl_bestDecision hb with hn | he
      · cases hn
      · exact he

end Found

namespace SemanticWriteDedupStore

variable {store : SemanticWriteDedupStore}

theorem retained_iff (s : store.inner.State) (call : ContextEntry × DateTime) :
    store.Retained s call ↔ store.Unopposed s call := by
  constructor
  · intro h decision hd
    have hw : store.write s call.1 call.2 = .ok (decision.existingVersion, s) := by simp [write,hd]
    rcases h _ _ hw with hs | ⟨hn,-⟩
    · exact .inr hs
    · exact .inl hn
  · intro h version s' hw
    unfold write at hw
    split at hw
    · cases hw
    · rename_i decision hd
      obtain ⟨rfl,rfl⟩ := Prod.mk.inj (Except.ok.inj hw)
      rcases h decision hd with hn | hs
      · obtain ⟨found,ha,e,he,hr,hv⟩ := findDuplicate_some hd
        have hc := store.inner.scan_current s _ _ _ ha e he
        refine .inr ⟨hn,e,hc,?_,hr,hv⟩
        intro hq
        rw [hq,hn] at hc
        cases hc
      · exact .inl hs
    · obtain ⟨redacted,stored,hre,hc,hp,hm,hv⟩ :=
        store.inner.write_current s _ _ _ _ hw
      exact .inl ⟨stored,hc,⟨redacted,hre,hp,hm⟩,hv⟩

/-- In a sequence of writes every one is retained exactly if every one is unopposed where it is issued. -/
theorem run_retained_iff (store : SemanticWriteDedupStore) (s : store.inner.State)
    (calls : List (ContextEntry × DateTime)) :
    StateMachine.Meets store.step store.Retained s calls ↔ StateMachine.Meets store.step store.Unopposed s calls := by
  induction calls generalizing s with
  | nil => exact Iff.rfl
  | cons call calls ih => exact and_congr (retained_iff s call) (ih _)

end SemanticWriteDedupStore

namespace MemoryContextStore

variable {store : MemoryContextStore}

theorem sanitizeEntryForWrite_ok (e : ContextEntry) :
    ∃ redacted, WriteSecurity.sanitizeEntryForWrite e = .ok redacted ∧ redacted.uri = e.uri := by
  refine ⟨_,WriteSecurity.sanitizeEntryForWrite_eq e,?_⟩
  split <;> rfl

def Keyed (store : MemoryContextStore) : Prop :=
  ∀ (uri : String) list, store.entries[uri]? = some list → ∃ e, list.getLast? = some e ∧ e.uri.canonical = uri

theorem write_spec (store : MemoryContextStore) (e : ContextEntry) (now : DateTime) :
    ∃ redacted list, WriteSecurity.sanitizeEntryForWrite e = .ok redacted ∧ redacted.uri = e.uri ∧
      store.write e now = .ok (list.length+1, ⟨store.entries.insert e.uri.canonical
        (list++[{ redacted with mvccVersion := list.length+1, updatedAt := now }]),store.l2Blobs⟩) := by
  obtain ⟨redacted,hr,hu⟩ := sanitizeEntryForWrite_ok e
  refine ⟨redacted,(store.entries[e.uri.canonical]?).getD [],hr,hu,?_⟩
  simp only [write,hr,← hu]
  rfl

variable {entry : ContextEntry} {now : DateTime} {version : MvccVersion} {store' : MemoryContextStore}

theorem Keyed.write (h : store.Keyed) {out : MvccVersion × MemoryContextStore}
    (hw : store.write entry now = .ok out) : out.2.Keyed := by
  obtain ⟨redacted,list,-,hu,he⟩ := store.write_spec entry now
  obtain rfl := Except.ok.inj (he.symm.trans hw)
  intro u versions hg
  have hg' : (store.entries.insert entry.uri.canonical _)[u]? = some versions := hg
  rw [Std.ExtTreeMap.getElem?_insert] at hg'
  split at hg'
  · rename_i hc
    obtain rfl := Option.some.inj hg'
    refine ⟨_,List.getLast?_concat,?_⟩
    rw [← Std.LawfulEqCmp.compare_eq_iff_eq.mp hc]
    exact congrArg _ hu
  · exact h u versions hg'

theorem latest_write (hw : store.write entry now = .ok (version, store')) :
    ∃ redacted stored, WriteSecurity.sanitizeEntryForWrite entry = .ok redacted ∧
      store'.latest entry.uri.canonical = some stored ∧ stored.payload = redacted.payload ∧
      stored.metadata = redacted.metadata ∧ stored.mvccVersion = version := by
  obtain ⟨redacted,list,hr,-,he⟩ := store.write_spec entry now
  obtain ⟨rfl,rfl⟩ := Prod.mk.inj (Except.ok.inj (he.symm.trans hw))
  refine ⟨redacted,{ redacted with mvccVersion := list.length+1, updatedAt := now },hr,?_,rfl,rfl,rfl⟩
  simp only [latest,Std.ExtTreeMap.getElem?_insert_self,Option.bind_some]
  exact List.getLast?_concat

theorem latest_write_other
    (hw : store.write entry now = .ok (version, store')) {uri : String} (hn : uri ≠ entry.uri.canonical) :
    store'.latest uri = store.latest uri := by
  obtain ⟨redacted,list,-,-,he⟩ := store.write_spec entry now
  obtain ⟨rfl,rfl⟩ := Prod.mk.inj (Except.ok.inj (he.symm.trans hw))
  simp only [latest]
  rw [Std.ExtTreeMap.getElem?_insert,if_neg]
  intro hc
  exact hn (Std.LawfulEqCmp.compare_eq_iff_eq.mp hc).symm

theorem latest_of_scanned (h : store.Keyed) {hash : HashOrder} {chr : Chrono} {uriPrefix : String} {page : PageRequest}
    {e : ContextEntry} (he : e ∈ (store.scanByPrefix hash chr uriPrefix page).items) :
    store.latest e.uri.canonical = some e := by
  rw [scanByPrefix,keysetPage_eq] at he
  have hs : e ∈ store.scanned hash uriPrefix :=
    sortByUri_perm.subset (List.mem_of_mem_filter (List.mem_of_mem_take he))
  obtain ⟨held,hh,hl⟩ := List.mem_filterMap.mp hs
  have hg := mem_held.mp (List.mem_of_mem_filter hh)
  obtain ⟨e',hl',hu⟩ := h _ _ hg
  obtain rfl := Option.some.inj (hl.symm.trans hl')
  rw [latest,hu,hg]
  exact hl

/-- The stores in memory that hold every entry under its URI, as a `ContentStore`. -/
def contentStore (hash : HashOrder) (chrono : Chrono) : ContentStore where
  State := { store : MemoryContextStore // store.Keyed }
  current s uri := s.1.latest uri
  write s entry now :=
    match h : s.1.write entry now with
    | .error e => .error e
    | .ok out => .ok (out.1, ⟨out.2, s.2.write h⟩)
  scanByPrefix s uriPrefix page := .ok (s.1.scanByPrefix hash chrono uriPrefix page)
  write_current s entry now version s' hwrite := by
    split at hwrite
    · cases hwrite
    · rename_i out h
      obtain ⟨rfl, rfl⟩ := Prod.mk.inj (Except.ok.inj hwrite)
      exact latest_write h
  write_other s entry now version s' hwrite uri hne := by
    split at hwrite
    · cases hwrite
    · rename_i out h
      obtain ⟨rfl, rfl⟩ := Prod.mk.inj (Except.ok.inj hwrite)
      exact latest_write_other h hne
  scan_current s uriPrefix page found hscan e he := by
    obtain rfl := Except.ok.inj hscan
    exact latest_of_scanned s.2 he

end MemoryContextStore

section Sample

open MemoryContextStore (sampleUri sampleChrono)

def sampleDedup : SemanticWriteDedupStore where
  inner := MemoryContextStore.contentStore .asSorted sampleChrono
  config := .standard
  tables := ⟨fun c => [c.toLower], Char.isAlphanum, fun _ => "", fun shared all => shared / all⟩
  valid := by decide +kernel

def noEntries : sampleDedup.inner.State := ⟨.empty, fun uri list hget => by simp [MemoryContextStore.empty] at hget⟩

def sampleWrite (path text : String) : ContextEntry × DateTime := (.newText (sampleUri path) 1 text 0, 0)

def beforeUpdate : sampleDedup.inner.State := StateMachine.run sampleDedup.step noEntries
  [sampleWrite "notes/x" "one two three four five", sampleWrite "notes/y" "six seven eight nine ten"]

/-- An update whose new text is that of another entry of the directory returns that entry's version, and leaves the
old text. -/
theorem update_not_retained : ¬ StateMachine.Meets sampleDedup.step sampleDedup.Retained noEntries
    [sampleWrite "notes/x" "one two three four five", sampleWrite "notes/y" "six seven eight nine ten",
      sampleWrite "notes/y" "one two three four five"] := by
  intro h
  have hr : sampleDedup.Retained beforeUpdate (sampleWrite "notes/y" "one two three four five") := h.2.2.1
  have hd : (sampleDedup.duplicate beforeUpdate (sampleWrite "notes/y" "one two three four five").1).map
      Option.isSome = .ok true := by decide +kernel
  have ho : (sampleDedup.inner.current beforeUpdate "uwu://t/notes/y").map
      (fun e => semanticText sampleDedup.tables e.payload) =
      some "six seven eight nine ten" := by decide +kernel
  have hn : (WriteSecurity.sanitizeEntryForWrite (sampleWrite "notes/y" "one two three four five").1).map
      (fun e => semanticText sampleDedup.tables e.payload) = .ok "one two three four five" := by decide +kernel
  obtain ⟨found, hf, hs⟩ := StateMachine.map_eq_ok.mp hd
  obtain ⟨decision, rfl⟩ := Option.isSome_iff_exists.mp hs
  rcases (SemanticWriteDedupStore.retained_iff _ _).mp hr decision hf with hno | ht
  · have hu : (sampleWrite "notes/y" "one two three four five").1.uri.canonical = "uwu://t/notes/y" := by decide +kernel
    rw [hu] at hno
    rw [hno] at ho
    cases ho
  · obtain ⟨stored, hc, ⟨redacted, he, hp, -⟩, -⟩ := ht
    have hu : (sampleWrite "notes/y" "one two three four five").1.uri.canonical = "uwu://t/notes/y" := by decide +kernel
    rw [hu] at hc
    rw [hc] at ho
    rw [he] at hn
    have hx := (Option.some.inj ho).symm.trans ((congrArg _ hp).trans (Except.ok.inj hn))
    revert hx
    decide

end Sample

end UwuContextDb.Content
