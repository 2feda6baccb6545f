import UwuContextDb.Content.Access
import UwuContextDb.Content.MemoryPaging

/-! The pages of `AclProtectedStore`: what is left of a listing when its cursor is not handed on. -/

namespace UwuContextDb.Content

open Retrieve (PageRequest Page)
open Facade (FindPattern TreeNode)
open StateMachine
open MemoryContextStore (samplePattern sampleChrono sortByUri)

section Enumerates

variable {α : Type}

/-- The items a caller sees that goes on with `next_cursor` until there is none, where no page fails. -/
inductive Enumerates (load : PageRequest → Except ContextError (Page α)) (limit : ℕ) : Option String → List α → Prop
  | last (after : Option String) (page : Page α) (hload : load ⟨after, limit⟩ = .ok page) (h : page.nextCursor = none) :
    Enumerates load limit after page.items
  | more (after : Option String) (page : Page α) (cursor : String) (rest : List α)
    (hload : load ⟨after, limit⟩ = .ok page) (h : page.nextCursor = some cursor)
    (hrest : Enumerates load limit (some cursor) rest) : Enumerates load limit after (page.items ++ rest)

variable {load : PageRequest → Except ContextError (Page α)} {limit : ℕ} {after : Option String} {all : List α}

theorem Enumerates.first (h : Enumerates load limit after all) :
    ∃ page rest, load ⟨after,limit⟩ = .ok page ∧ all = page.items ++ rest := by
  cases h with
  | last _ page hl _ => exact ⟨page,[],hl,(List.append_nil _).symm⟩
  | more _ page cursor rest hl _ _ => exact ⟨page,rest,hl,rfl⟩

theorem enumerates_of_follows {load : PageRequest → Page α} (h : FollowsPages load limit after all) :
    Enumerates (fun page => .ok (load page)) limit after all := by
  induction h with
  | last after hn => exact .last after _ rfl hn
  | more after cursor rest hs hr ih => exact .more after _ cursor rest rfl hs ih

theorem enumerates_filter_iff {load' : PageRequest → Except ContextError (Page α)} {keep : α → Bool}
    (hl' : ∀ page, load' page = (load page).map (fun found => collectPage (found.items.filter keep)))
    (ha : Enumerates load limit none all) : Enumerates load' limit none (all.filter keep) ↔
      ∀ first, load ⟨none,limit⟩ = .ok first → ∀ item ∈ all.drop first.items.length, keep item = false := by
  obtain ⟨first,rest,hf,rfl⟩ := ha.first
  have hp : load' ⟨none,limit⟩ = .ok (collectPage (first.items.filter keep)) := by rw [hl',hf]; rfl
  have hd : (first.items++rest).drop first.items.length = rest := List.drop_left
  rw [List.filter_append]
  constructor
  · intro h first' hf'
    obtain rfl := Except.ok.inj (hf.symm.trans hf')
    have hn : rest.filter keep = [] := by
      generalize hu : first.items.filter keep ++ rest.filter keep = out at h
      cases h with
      | last _ page ho _ =>
        obtain rfl := Except.ok.inj (hp.symm.trans ho)
        exact List.append_right_eq_self.mp hu
      | more _ page cursor more ho hs _ =>
        obtain rfl := Except.ok.inj (hp.symm.trans ho)
        cases hs
    rw [hd]
    intro item hi
    simpa using List.filter_eq_nil_iff.mp hn item hi
  · intro h
    have hn : rest.filter keep = [] := by
      refine List.filter_eq_nil_iff.mpr (fun item hi => ?_)
      have hk := h first hf item (by rwa [hd])
      simp [hk]
    rw [hn,List.append_nil]
    exact .last none _ hp rfl

end Enumerates

section Tree

variable {canRead : ContextUri → Bool}

mutual
theorem filterTree_readable (node : TreeNode) :
    ∀ uri ∈ (filterTree canRead node).uris.tail, canRead uri = true := by
  obtain ⟨uri, isDir, children⟩ := node
  simp only [filterTree, TreeNode.uris, List.tail_cons]
  exact filterChildren_readable children

theorem filterChildren_readable (children : List TreeNode) :
    ∀ uri ∈ TreeNode.allUris (filterChildren canRead children), canRead uri = true := by
  match children with
  | [] => simp [filterChildren,TreeNode.allUris]
  | (.node uri isDir below)::rest =>
    have hr := @filterChildren_readable rest
    rw [filterChildren]
    split
    · rename_i he
      intro u hu
      rw [TreeNode.allUris,List.mem_append] at hu
      rcases hu with hu | hu
      · have hb := @filterChildren_readable below u
        simp only [filterTree,TreeNode.uris,List.mem_cons] at hu
        rcases hu with rfl | hu
        · exact he
        · exact hb hu
      · exact hr u hu
    · exact hr
end

end Tree

namespace AclProtectedStore

variable (store : AclProtectedStore)

inductive ListingCall
  | ls (dir : ContextUri)
  | find (pattern : FindPattern)
  | findByName (scope : ContextUri) (pattern : String)
  | scanByPrefix (uriPrefix : String)
  | scanByType (uriPrefix : String) (contentType : ContentType)

def Admits : ListingCall → Prop
  | .ls dir => store.requireRead dir = .ok ()
  | .find pattern => store.requireScope pattern.scope = .ok ()
  | .findByName scope _ => store.requireRead scope = .ok ()
  | .scanByPrefix uriPrefix => ∃ scope, scanScope "scan_by_prefix" uriPrefix = .ok scope ∧ store.requireRead scope = .ok ()
  | .scanByType uriPrefix _ => ∃ scope, scanScope "scan_by_type" uriPrefix = .ok scope ∧ store.requireRead scope = .ok ()

section Pages

variable {α : Type} (uri : α → ContextUri) (inner outer : PageRequest → Except ContextError (Page α)) (limit : ℕ)

def ShowsReadable : Prop :=
  ∀ all, Enumerates inner limit none all → Enumerates outer limit none (all.filter (fun item => store.canRead (uri item)))

def FirstPageOnly : Prop :=
  ∀ all, Enumerates inner limit none all → ∀ first, inner ⟨none, limit⟩ = .ok first →
    ∀ item ∈ all.drop first.items.length, store.canRead (uri item) = false

variable {store uri inner outer limit}

theorem showsReadable_iff (ho : ∀ page, outer page = (inner page).map (store.readable uri)) :
    store.ShowsReadable uri inner outer limit ↔ store.FirstPageOnly uri inner limit := by
  constructor
  · intro h all ha
    exact (enumerates_filter_iff ho ha).mp (h all ha)
  · intro h all ha
    exact (enumerates_filter_iff ho ha).mpr (h all ha)

end Pages

def PagesReadable (limit : ℕ) : ListingCall → Prop
  | .ls dir => store.ShowsReadable (·.uri) (store.inner.ls dir) (store.ls dir) limit
  | .find pattern => store.ShowsReadable id (store.inner.find pattern) (store.find pattern) limit
  | .findByName scope pattern =>
    store.ShowsReadable id (store.inner.findByName scope pattern) (store.findByName scope pattern) limit
  | .scanByPrefix uriPrefix =>
    store.ShowsReadable (·.uri) (store.inner.scanByPrefix uriPrefix) (store.scanByPrefix uriPrefix) limit
  | .scanByType uriPrefix contentType => store.ShowsReadable (·.uri) (store.inner.scanByType uriPrefix contentType)
      (store.scanByType uriPrefix contentType) limit

def ReadableFirst (limit : ℕ) : ListingCall → Prop
  | .ls dir => store.FirstPageOnly (·.uri) (store.inner.ls dir) limit
  | .find pattern => store.FirstPageOnly id (store.inner.find pattern) limit
  | .findByName scope pattern => store.FirstPageOnly id (store.inner.findByName scope pattern) limit
  | .scanByPrefix uriPrefix => store.FirstPageOnly (·.uri) (store.inner.scanByPrefix uriPrefix) limit
  | .scanByType uriPrefix contentType => store.FirstPageOnly (·.uri) (store.inner.scanByType uriPrefix contentType) limit

theorem except_map {ε α β : Type} (x : Except ε α) (f : α → β) : (x >>= fun a => pure (f a)) = x.map f := by
  cases x <;> rfl

/-- The pages of a call show what may be read exactly if the first page of the store inside has all of it. -/
theorem pagesReadable_iff (limit : ℕ) (call : ListingCall) :
    (store.Admits call → store.PagesReadable limit call) ↔ (store.Admits call → store.ReadableFirst limit call) := by
  refine imp_congr_right (fun ha => ?_)
  cases call with
  | ls dir =>
    refine showsReadable_iff (fun page => ?_)
    have hr : store.requireRead dir = .ok () := ha
    simp only [ls, hr, ← except_map]
    rfl
  | find pattern =>
    refine showsReadable_iff (fun page => ?_)
    have hr : store.requireScope pattern.scope = .ok () := ha
    simp only [find, hr, ← except_map]
    rfl
  | findByName scope pattern =>
    refine showsReadable_iff (fun page => ?_)
    have hr : store.requireRead scope = .ok () := ha
    simp only [findByName, hr, ← except_map]
    rfl
  | scanByPrefix uriPrefix =>
    obtain ⟨scope, hs, hr⟩ := ha
    refine showsReadable_iff (fun page => ?_)
    have ho : store.scanByPrefix uriPrefix page = (do
        store.requireRead scope
        let entries ← store.inner.scanByPrefix uriPrefix page
        return store.readable (·.uri) entries) := by
      simp only [scanByPrefix, hs]
      rfl
    rw [ho, hr, ← except_map]
    rfl
  | scanByType uriPrefix contentType =>
    obtain ⟨scope, hs, hr⟩ := ha
    refine showsReadable_iff (fun page => ?_)
    have ho : store.scanByType uriPrefix contentType page = (do
        store.requireRead scope
        let entries ← store.inner.scanByType uriPrefix contentType page
        return store.readable (·.uri) entries) := by
      simp only [scanByType, hs]
      rfl
    rw [ho, hr, ← except_map]
    rfl

/-- The listings of a `MemoryContextStore`; it has no search by name. -/
def memoryPort (memory : MemoryContextStore) (hash : HashOrder) (chrono : Chrono) : ListingPort where
  ls := fun dir page => .ok (memory.ls hash chrono dir page)
  find := fun pattern page => .ok (memory.find hash chrono pattern page)
  findByName := fun scope _ page => .ok (memory.find hash chrono ⟨some scope, none, none, none⟩ page)
  tree := fun root depth page => .ok (memory.tree hash root depth page)
  scanByPrefix := fun uriPrefix page => .ok (memory.scanByPrefix hash chrono uriPrefix page)
  scanByType := fun uriPrefix contentType page => .ok (memory.scanByType hash chrono uriPrefix contentType page)

def sampleMemory : MemoryContextStore := run MemoryContextStore.step MemoryContextStore.empty
  [.write (.newText (MemoryContextStore.sampleUri "a") 1 "one" 0) 0,
    .write (.newText (MemoryContextStore.sampleUri "b") 1 "two" 0) 0]

def sampleStore : AclProtectedStore where
  inner := memoryPort sampleMemory .asSorted MemoryContextStore.sampleChrono
  acl := PathAcl.empty.addRule ⟨"uwu://t", .agent "a", .readOnly, 0⟩
  principal := .agent "a"
  debug := fun _ => "Agent"

/-- With one item a page, the second entry is never shown. -/
theorem pages_not_readable : sampleStore.Admits (.find MemoryContextStore.samplePattern) ∧
    ¬ sampleStore.PagesReadable 1 (.find MemoryContextStore.samplePattern) := by
  have hr : sampleStore.requireScope samplePattern.scope = .ok () := by rfl
  refine ⟨hr, fun h => ?_⟩
  have hp : ((sampleMemory.found .asSorted samplePattern).map id).Pairwise
      (fun u v => u.canonical ≠ v.canonical ∧
        (ContextUri.cmp sampleChrono u v = .lt ↔ u.canonical < v.canonical)) := by
    decide +kernel
  have ha : FollowsPages (sampleMemory.find .asSorted sampleChrono samplePattern)
      1 none _ := partitioned_sortByUri_iff.mpr hp 1 Nat.one_pos
  have ho : ∀ page, sampleStore.find samplePattern page =
      (sampleStore.inner.find samplePattern page).map (sampleStore.readable id) := by
    intro page
    simp only [find, hr, ← except_map]
    rfl
  have hs := (showsReadable_iff ho).mp h _ (enumerates_of_follows ha) _ rfl
  have hm : ∃ uri ∈ (sortByUri sampleChrono id
      (sampleMemory.found .asSorted samplePattern)).drop
        (sampleMemory.find .asSorted sampleChrono samplePattern
          ⟨none, 1⟩).items.length,
      sampleStore.canRead uri = true := by
    decide +kernel
  obtain ⟨uri, hu, hn⟩ := hm
  have hc : sampleStore.canRead uri = false := hs uri hu
  rw [hn] at hc
  cases hc

end AclProtectedStore

end UwuContextDb.Content
