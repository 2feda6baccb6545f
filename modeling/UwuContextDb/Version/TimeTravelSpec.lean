import UwuContextDb.Core.UriQuery
import UwuContextDb.Version.BackendMerge
import UwuContextDb.Version.TimeTravel

/-! Which commits a read of the past is about, which ones each store looks at, and when both show the same. -/

namespace UwuContextDb.Version

open StateMachine Search

section Newest

variable {time : CommitId → Option DateTime} {among : CommitId → Prop} {ts : DateTime}

end Newest

namespace SqliteVersionStore

variable {st : SqliteVersionStore} {scopeKey : String} {ts : DateTime} {c : CommitId}

end SqliteVersionStore

namespace MemoryVersionStore

variable {st : MemoryVersionStore} {ts made : DateTime} {c : CommitId}

def commitTimestamp (st : MemoryVersionStore) (id : CommitId) : Option DateTime := (st.commits[id]?).map (·.timestamp)

variable {ids : List CommitId} {best : Option (DateTime × CommitId)}

def Stored (st : MemoryVersionStore) (c : CommitId) : Prop := c ∈ st.commits

end MemoryVersionStore

section Scopes

def Contains (scope uri : String) : Prop :=
  '/' ∈ scope.toList ∧ (uri = scope ∨ (scope.toList ++ ['/']) <+: uri.toList)

def Innermost (hasHead : String → Prop) (uri scope : String) : Prop :=
  (Contains scope uri ∧ hasHead scope) ∧
    ∀ scope', Contains scope' uri → hasHead scope' → scope'.toList.length ≤ scope.toList.length

variable {uri scope : String}

theorem Innermost.unique {ha : String → Prop} {scope' : String} (h : Innermost ha uri scope)
    (h' : Innermost ha uri scope') : scope = scope' := by
  have hl : scope.toList.length = scope'.toList.length :=
    le_antisymm (h'.2 scope h.1.1 h.1.2) (h.2 scope' h'.1.1 h'.1.2)
  have hb : ∀ {s : String}, Contains s uri → s.toList <+: uri.toList := by
    rintro s ⟨-,rfl | hs⟩
    · exact List.prefix_refl _
    · exact (List.prefix_append _ _).trans hs
  rw [← String.toList_inj]
  exact (List.prefix_of_prefix_length_le (hb h.1.1) (hb h'.1.1) hl.le).eq_of_length hl

end Scopes

section Shows

variable {α : Type}

def RightAt (meant : CommitId → Prop) (content : CommitId → Option α) (answer : Option α) : Prop :=
  (∀ c, meant c → answer = content c) ∧ ((∀ c, ¬meant c) → answer = none)

variable {looked meant : CommitId → Prop} {shown content : CommitId → Option α}

end Shows

section TimeTravel

variable (m : MemoryVersionStore) (s : SqliteVersionStore) (order : RowOrder) (print : Json → String)
  (uri : ContextUri) (scope : String) (ts : DateTime) (level : ContentLevel)

end TimeTravel

section Answers

variable {m : MemoryVersionStore} {s : SqliteVersionStore} {order : RowOrder} {print : Json → String}
  {uri : ContextUri} {scope : String} {ts : DateTime} {level : ContentLevel}

theorem RightAt.unique {α : Type} {meant meant' : CommitId → Prop} {content content' : CommitId → Option α}
    {answer answer' : Option α} (h : RightAt meant content answer) (h' : RightAt meant' content' answer')
    (hm : ∀ c, meant c ↔ meant' c) (ho : ∀ c, meant c → content c = content' c) : answer = answer' := by
  by_cases hn : ∀ c, ¬meant c
  · rw [h.2 hn,h'.2 (fun c hc => hn c ((hm c).mpr hc))]
  · rw [not_forall_not] at hn
    obtain ⟨c,hc⟩ := hn
    rw [h.1 c hc,h'.1 c ((hm c).mp hc),ho c hc]

theorem Agree.head_eq (h : Agree m s) (r : String) : m.heads[r]? = s.getHead r := h.sameRefs.head r

end Answers

section Sample

open SqliteVersionStore (sampleServices sampleScope sampleEntry addSample)

def twoScopes : List SqliteOp :=
  [addSample, .commit (.ofTenant "v") ⟨[.newText ((ContextUri.ofTenant "v").join "b") 0 "two" 1], [], [], []⟩ .empty 1]

def sampleStores : StorePair := run (StorePair.step sampleServices) StorePair.empty twoScopes

end Sample

end UwuContextDb.Version
