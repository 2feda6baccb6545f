import UwuContextDb.Content.Memory
import UwuContextDb.Library.Keyset

/-! The pages of `MemoryContextStore`: when following the cursors shows a listing as it is. -/

namespace UwuContextDb.Content

open FixedWidth
open Retrieve (PageRequest Page)
open Facade (FindPattern)
open StateMachine
open ContextUri (cmp canonical_of_cmp)

section Pages

variable {α : Type}

/-- The items a caller sees that goes on with `next_cursor` until there is none. -/
inductive FollowsPages (load : PageRequest → Page α) (limit : ℕ) : Option String → List α → Prop
  | last (after : Option String) (h : (load ⟨after, limit⟩).nextCursor = none) :
    FollowsPages load limit after (load ⟨after, limit⟩).items
  | more (after : Option String) (cursor : String) (rest : List α) (h : (load ⟨after, limit⟩).nextCursor = some cursor)
    (hrest : FollowsPages load limit (some cursor) rest) :
    FollowsPages load limit after ((load ⟨after, limit⟩).items ++ rest)

/-- Pages of every size show `items`, each once and in its place. -/
def Partitioned (load : PageRequest → Page α) (items : List α) : Prop :=
  ∀ limit, 0 < limit → FollowsPages load limit none items

theorem effectiveLimit_pos (page : PageRequest) : 0 < effectiveLimit page := by
  unfold effectiveLimit Retrieve.clamp
  omega

theorem keysetPage_eq (items : List α) (page : PageRequest) (key : α → String) :
    keysetPage items page key = ⟨(Keyset.page key (effectiveLimit page) page.after items).1,
      (Keyset.page key (effectiveLimit page) page.after items).2⟩ := by
  have hr : items.filter (fun item => isAfter page (key item)) = Keyset.remaining key page.after items := rfl
  unfold keysetPage Keyset.page
  simp only [hr]
  generalize Keyset.remaining key page.after items = found
  generalize effectiveLimit page = limit
  by_cases hm : limit < found.length
  · have hl : limit < (found.take (limit+1)).length := by
      rw [List.length_take]
      omega
    have hd : (found.take (limit+1)).dropLast = found.take limit := by
      rw [List.dropLast_eq_take,List.length_take,List.take_take]
      congr 1
      omega
    rw [if_pos hl,if_pos hm,hd]
  · have ha : ∀ n, limit ≤ n → found.take n = found := fun n hn => List.take_of_length_le (by omega)
    rw [ha _ (Nat.le_succ limit),ha _ le_rfl,if_neg hm,if_neg hm]

theorem followsPages_keyset_iff {items out : List α} {key : α → String} {lim : ℕ} {after : Option String} :
    FollowsPages (fun page => keysetPage items page key) lim after out ↔
      Keyset.Follows key (effectiveLimit ⟨none,lim⟩) items after out := by
  have hp : ∀ after, keysetPage items ⟨after,lim⟩ key =
      ⟨(Keyset.page key (effectiveLimit ⟨none,lim⟩) after items).1,
        (Keyset.page key (effectiveLimit ⟨none,lim⟩) after items).2⟩ :=
          fun after => keysetPage_eq items ⟨after,lim⟩ key
  constructor
  · intro h
    induction h with
    | last after hn =>
      rw [hp] at hn ⊢
      exact .last after hn
    | more after cursor rest hs hr ih =>
      rw [hp] at hs ⊢
      exact .more after cursor rest hs ih
  · intro h
    induction h with
    | last after hn =>
      have hc : (keysetPage items ⟨after,lim⟩ key).nextCursor = none := by rw [hp,hn]
      have hl : FollowsPages (fun page => keysetPage items page key) lim after
        (keysetPage items ⟨after,lim⟩ key).items := .last after hc
      rwa [hp] at hl
    | more after cursor rest hs hr ih =>
      have hc : (keysetPage items ⟨after,lim⟩ key).nextCursor = some cursor := by rw [hp,hs]
      have hm : FollowsPages (fun page => keysetPage items page key) lim after
        ((keysetPage items ⟨after,lim⟩ key).items++rest) := .more after cursor rest hc ih
      rwa [hp] at hm

theorem partitioned_keyset_iff {items : List α} {key : α → String} :
    Partitioned (fun page => keysetPage items page key) items ↔ items.Pairwise (fun a b => key a < key b) := by
  rw [← Keyset.partitions_iff]
  constructor
  · intro h
    rw [Keyset.partitions_iff]
    have ho : Keyset.Follows key (effectiveLimit ⟨none,1⟩) items none items :=
      followsPages_keyset_iff.mp (h 1 Nat.one_pos)
    exact ho.increasing
  · intro h lim _
    exact followsPages_keyset_iff.mpr (h _ (effectiveLimit_pos _))

end Pages

section ByUri

variable (chrono : Chrono)

def SameOrder (u v : ContextUri) : Prop :=
  u.canonical ≠ v.canonical ∧ (ContextUri.cmp chrono u v = .lt ↔ u.canonical < v.canonical)

variable {chrono}

theorem SameOrder.symm {u v : ContextUri} (h : SameOrder chrono u v) : SameOrder chrono v u := by
  obtain ⟨hn,hi⟩ := h
  refine ⟨Ne.symm hn,?_⟩
  have hs : cmp chrono v u = (cmp chrono u v).swap := Std.OrientedCmp.eq_swap
  rw [hs]
  cases hc : cmp chrono u v with
  | lt => exact iff_of_false (by decide) (lt_asymm (hi.mp hc))
  | eq => exact absurd (canonical_of_cmp chrono hc) hn
  | gt =>
    have hl : ¬ u.canonical < v.canonical := by
      intro ht
      have he := hi.mpr ht
      rw [hc] at he
      cases he
    exact iff_of_true rfl (lt_of_le_of_ne (not_lt.mp hl) (Ne.symm hn))

variable {α : Type} {uri : α → ContextUri} {items : List α}

theorem sortByUri_perm : (MemoryContextStore.sortByUri chrono uri items).Perm items := List.perm_insertionSort _ _

theorem pairwise_sortByUri :
    (MemoryContextStore.sortByUri chrono uri items).Pairwise (fun a b => (cmp chrono (uri a) (uri b)).isLE) := by
  have ht : Std.Total (fun a b : α => (cmp chrono (uri a) (uri b)).isLE = true) := ⟨fun a b => by
    have hs : cmp chrono (uri b) (uri a) = (cmp chrono (uri a) (uri b)).swap := Std.OrientedCmp.eq_swap
    rw [hs]
    cases cmp chrono (uri a) (uri b) <;> decide⟩
  have hr : IsTrans α (fun a b => (cmp chrono (uri a) (uri b)).isLE = true) :=
    ⟨fun a b c ha hb => Std.TransCmp.isLE_trans ha hb⟩
  exact List.pairwise_insertionSort _ _

theorem partitioned_sortByUri_iff : Partitioned
    (fun page => keysetPage (MemoryContextStore.sortByUri chrono uri items) page (fun a => (uri a).canonical))
      (MemoryContextStore.sortByUri chrono uri items) ↔ (items.map uri).Pairwise (SameOrder chrono) := by
  have hp : (MemoryContextStore.sortByUri chrono uri items).Pairwise (fun a b => SameOrder chrono (uri a) (uri b)) ↔
      items.Pairwise (fun a b => SameOrder chrono (uri a) (uri b)) :=
    sortByUri_perm.pairwise_iff (fun {a b} (h : SameOrder chrono (uri a) (uri b)) => h.symm)
  rw [partitioned_keyset_iff,List.pairwise_map,← hp]
  constructor
  · intro h
    refine (h.and (pairwise_sortByUri)).imp (fun {a b} ha => ?_)
    obtain ⟨ht,hl⟩ := ha
    refine ⟨ht.ne,iff_of_true ?_ ht⟩
    cases hc : cmp chrono (uri a) (uri b) with
    | lt => rfl
    | eq => exact absurd (canonical_of_cmp chrono hc) ht.ne
    | gt =>
      rw [hc] at hl
      cases hl
  · intro h
    refine (h.and (pairwise_sortByUri)).imp (fun {a b} ha => ?_)
    obtain ⟨⟨hn,hi⟩,hl⟩ := ha
    refine hi.mp ?_
    cases hc : cmp chrono (uri a) (uri b) with
    | lt => rfl
    | eq => exact absurd (canonical_of_cmp chrono hc) hn
    | gt =>
      rw [hc] at hl
      cases hl

end ByUri

theorem paddedVersion_lt {v w : MvccVersion} (hl : v < w) (hw : w < 10 ^ 20) : paddedVersion v < paddedVersion w := by
  rw [String.lt_iff_toList_lt]
  simp only [paddedVersion,String.toList_ofList]
  exact map_lt (digits_lt (by omega) hl hw) (digits_lt_base (by omega) (hl.trans hw))
    (digits_lt_base (by omega) hw) (fun d d' h hd => digitChar_lt d d' h (by omega))

theorem uuidText_lt {id id' : Uuid} (hl : id < id') (hi : id' < 2 ^ 128) : uuidText id < uuidText id' := by
  have hi' : id' < 16 ^ 32 := by omega
  rw [String.lt_iff_toList_lt]
  simp only [uuidText,String.toList_ofList]
  have hd : (digits 16 32 id).map Nat.digitChar < (digits 16 32 id').map Nat.digitChar :=
    map_lt (digits_lt (by omega) hl hi')
      (digits_lt_base (by omega) (hl.trans hi')) (digits_lt_base (by omega) hi') digitChar_lt
  refine insertAt_lt (by simp) ?_ 8 '-'
  refine insertAt_lt (by simp) ?_ 12 '-'
  refine insertAt_lt (by simp) ?_ 16 '-'
  exact insertAt_lt (by simp) hd 20 '-'

namespace MemoryContextStore

variable {store : MemoryContextStore}

def Numbered (store : MemoryContextStore) : Prop :=
  ∀ (uri : String) list, store.entries[uri]? = some list → list.map (·.mvccVersion) = List.range' 1 list.length

theorem Numbered.insert (h : store.Numbered) {u : String} {list : List ContextEntry}
    (hl : list.map (·.mvccVersion) = List.range' 1 list.length) :
    Numbered { store with entries := store.entries.insert u list } := by
  intro u' list' hg
  have hg' : (store.entries.insert u list)[u']? = some list' := hg
  rw [Std.ExtTreeMap.getElem?_insert] at hg'
  split at hg'
  · obtain rfl := Option.some.inj hg'
    exact hl
  · exact h u' list' hg'

theorem numbered_append {list : List ContextEntry} {e : ContextEntry}
    (h : list.map (·.mvccVersion) = List.range' 1 list.length) (he : e.mvccVersion = list.length+1) :
    (list++[e]).map (·.mvccVersion) = List.range' 1 (list++[e]).length := by
  rw [List.map_append,h,List.length_append,List.length_singleton,List.range'_concat]
  simp [he,Nat.add_comm]

theorem Numbered.getD (h : store.Numbered) (u : String) :
    ((store.entries[u]?).getD []).map (·.mvccVersion) = List.range' 1 ((store.entries[u]?).getD []).length := by
  cases hg : store.entries[u]? with
  | none => rfl
  | some list => exact h u list hg

theorem Numbered.erase (h : store.Numbered) (u : String) :
    Numbered { store with entries := store.entries.erase u } := by
  intro u' list hg
  have hg' : (store.entries.erase u)[u']? = some list := hg
  rw [Std.ExtTreeMap.getElem?_erase] at hg'
  split at hg'
  · cases hg'
  · exact h u' list hg'

theorem step_numbered (h : store.Numbered) (op : Op) : (store.step op).Numbered := by
  cases op with
  | write entry now =>
    simp only [step,write]
    cases WriteSecurity.sanitizeEntryForWrite entry with
    | error e => exact h
    | ok entry => exact h.insert (numbered_append (h.getD entry.uri.canonical) rfl)
  | delete uri => exact h.erase uri.canonical
  | rename from_ to_ =>
    simp only [step,rename]
    cases hg : store.entries[from_.canonical]? with
    | none => exact h
    | some list => exact (h.erase from_.canonical).insert (h from_.canonical list hg)
  | rollback uri to_ =>
    simp only [step,rollback]
    cases hg : store.entries[uri.canonical]? with
    | none => exact h
    | some list =>
      dsimp only
      cases list.find? (fun e => e.mvccVersion = to_) with
      | none => exact h
      | some tgt => exact h.insert (numbered_append (h uri.canonical list hg) rfl)
  | putL2Blob uri bytes => exact h

theorem run_numbered (ops : List Op) : (run step empty ops).Numbered := by
  have hs : ∀ store op, Numbered store → Numbered (step store op) := fun _ op h => step_numbered h op
  exact run_preserves hs (by simp [Numbered,empty]) ops

section Listings

inductive ListingCall
  | ls (dir : ContextUri)
  | find (pattern : FindPattern)
  | tree (root : ContextUri) (depth : ℕ)
  | scanByPrefix (uriPrefix : String)
  | scanByType (uriPrefix : String) (contentType : ContentType)
  | versionHistory (uri : ContextUri)
  | listTenants

variable (store) (hash : HashOrder) (chrono : Chrono)

def Pages : ListingCall → Prop
  | .ls dir => Partitioned (store.ls hash chrono dir) (sortByUri chrono (·.uri) (store.childrenOf hash dir))
  | .find pattern => Partitioned (store.find hash chrono pattern) (sortByUri chrono id (store.found hash pattern))
  | .tree root depth => Partitioned (store.tree hash root depth) [.node root true (buildMemoryTree
      (((store.held hash).map Prod.fst).filter (fun uri => (dirPrefix root).toList.isPrefixOf uri.toList)) depth
      (dirPrefix root))]
  | .scanByPrefix uriPrefix => Partitioned (store.scanByPrefix hash chrono uriPrefix)
      (sortByUri chrono (·.uri) (store.scanned hash uriPrefix))
  | .scanByType uriPrefix contentType => Partitioned (store.scanByType hash chrono uriPrefix contentType)
      (sortByUri chrono (·.uri) (store.scannedOfType hash uriPrefix contentType))
  | .versionHistory uri => Partitioned (store.versionHistory uri) (store.versions uri)
  | .listTenants => Partitioned (store.listTenants hash) (store.tenants hash)

def listedUris : ListingCall → List ContextUri
  | .ls dir => (store.childrenOf hash dir).map (·.uri)
  | .find pattern => (store.found hash pattern).map id
  | .scanByPrefix uriPrefix => (store.scanned hash uriPrefix).map (·.uri)
  | .scanByType uriPrefix contentType => (store.scannedOfType hash uriPrefix contentType).map (·.uri)
  | _ => []

/-- The bounds of the store's types: a list has fewer than `2 ^ 64` elements, and a UUID 128 bits. -/
structure Fits : Prop where
  short : ∀ (uri : String) list, store.entries[uri]? = some list → list.length < 2 ^ 64
  tenant : ∀ (uri : String) list, store.entries[uri]? = some list → ∀ e ∈ list, e.tenant < 2 ^ 128

variable {store hash chrono}

theorem partitioned_versionHistory (h : store.Numbered) (hf : store.Fits) (u : ContextUri) :
    Partitioned (store.versionHistory u) (store.versions u) := by
  have hs : ((store.entries[u.canonical]?).getD []).length < 2 ^ 64 := by
    cases hg : store.entries[u.canonical]? with
    | none => simp
    | some list => exact hf.short _ list hg
  have hv : (store.versions u).map (·.version) = List.range' 1 ((store.entries[u.canonical]?).getD []).length := by
    rw [← h.getD]
    simp [versions]
  refine partitioned_keyset_iff.mpr (List.pairwise_map.mp ?_)
  have hk : ((store.versions u).map (fun e => paddedVersion e.version)) =
      ((store.versions u).map (·.version)).map paddedVersion := by simp
  rw [hk,hv,List.pairwise_map]
  refine List.Pairwise.imp_of_mem (fun {v w} _ hw hl => paddedVersion_lt hl ?_) List.pairwise_lt_range'
  have hb : 1 + 2 ^ 64 ≤ 10 ^ 20 := by decide
  rw [List.mem_range'_1] at hw
  exact lt_of_lt_of_le hw.2 (le_trans (Nat.add_le_add_left hs.le 1) hb)

theorem mem_held {e : String × List ContextEntry} : e ∈ store.held hash ↔ store.entries[e.1]? = some e.2 := by
  rw [held,(hash.perm _).mem_iff,Std.ExtTreeMap.mem_toList_iff_getElem?_eq_some]

theorem partitioned_listTenants (hf : store.Fits) : Partitioned (store.listTenants hash) (store.tenants hash) := by
  refine partitioned_keyset_iff.mpr ?_
  have hs : (store.tenants hash).Pairwise (· ≤ ·) :=
    (List.pairwise_insertionSort _ _).sublist (List.destutter_sublist _ _)
  have hn : (store.tenants hash).Nodup := by
    rw [tenants,(List.pairwise_insertionSort _ _).destutter_eq_dedup]
    exact List.nodup_dedup _
  have ht : (store.tenants hash).Pairwise (· < ·) := (hs.and hn).imp (fun ha => lt_of_le_of_ne ha.1 ha.2)
  refine List.Pairwise.imp_of_mem (fun {v w} _ hw hlt => uuidText_lt hlt ?_) ht
  have hm := (List.destutter_sublist _ _).subset hw
  rw [List.mem_insertionSort,List.mem_filterMap] at hm
  obtain ⟨held,hh,hl⟩ := hm
  obtain ⟨e,he,rfl⟩ := Option.map_eq_some_iff.mp hl
  exact hf.tenant _ _ (mem_held.mp hh) e (List.mem_of_getLast? he)

/-- In every state a run reaches, the pages of a call partition its result exactly if the addresses it sorts by
are ordered as their texts are. -/
theorem run_pages_iff (ops : List Op) (hfits : (run step empty ops).Fits) (hash : HashOrder) (chrono : Chrono)
    (call : ListingCall) : (run step empty ops).Pages hash chrono call ↔
      ((run step empty ops).listedUris hash call).Pairwise (SameOrder chrono) := by
  cases call with
  | ls dir => exact partitioned_sortByUri_iff
  | find pattern => exact partitioned_sortByUri_iff
  | scanByPrefix uriPrefix => exact partitioned_sortByUri_iff
  | scanByType uriPrefix contentType => exact partitioned_sortByUri_iff
  | tree root depth => exact iff_of_true (partitioned_keyset_iff.mpr (List.pairwise_singleton _ _)) List.Pairwise.nil
  | versionHistory uri => exact iff_of_true (partitioned_versionHistory (run_numbered ops) hfits uri) List.Pairwise.nil
  | listTenants => exact iff_of_true (partitioned_listTenants hfits) List.Pairwise.nil

end Listings

def sampleUri (path : String) : ContextUri := (ContextUri.ofTenant "t").join path

def sampleOps : List Op :=
  [.write (.newText (sampleUri "a/x") 1 "one" 0) 0, .write (.newText (sampleUri "a-b") 1 "two" 0) 0]

def sampleChrono : Chrono := ⟨fun _ => none, fun _ => ""⟩

def samplePattern : FindPattern := ⟨some (.ofTenant "t"), none, none, none⟩

theorem fits_of_toList {store : MemoryContextStore}
    (h : ∀ held ∈ store.entries.toList, held.2.length < 2 ^ 64 ∧ ∀ e ∈ held.2, e.tenant < 2 ^ 128) : store.Fits := by
  constructor
  · intro uri list hg
    exact (h (uri, list) (Std.ExtTreeMap.mem_toList_iff_getElem?_eq_some.mpr hg)).1
  · intro uri list hg
    exact (h (uri, list) (Std.ExtTreeMap.mem_toList_iff_getElem?_eq_some.mpr hg)).2

theorem sample_fits : (run step empty sampleOps).Fits := fits_of_toList (by decide +kernel)

theorem run_pages_iff_sample : (run step empty sampleOps).Pages .asSorted sampleChrono (.ls (sampleUri "a")) ↔
    ((run step empty sampleOps).listedUris .asSorted (.ls (sampleUri "a"))).Pairwise (SameOrder sampleChrono) :=
  run_pages_iff sampleOps sample_fits .asSorted sampleChrono (.ls (sampleUri "a"))

/-- The page of `find` that begins after `uwu://t/a/x` leaves out `uwu://t/a-b`, which is sorted after it. -/
theorem find_not_partitioned : ¬ (run step empty sampleOps).Pages .asSorted sampleChrono (.find samplePattern) := by
  intro h
  have hp : ((((run step empty sampleOps).found .asSorted samplePattern).map id).Pairwise (SameOrder sampleChrono)) :=
    partitioned_sortByUri_iff.mp h
  have hs : ¬ (((run step empty sampleOps).found .asSorted samplePattern).map id).Pairwise
      (fun u v => u.canonical ≠ v.canonical ∧ (cmp sampleChrono u v = .lt ↔ u.canonical < v.canonical)) := by
    decide +kernel
  exact hs hp

end MemoryContextStore

end UwuContextDb.Content
