import Mathlib.Data.List.Induction
import Mathlib.Data.List.Nodup
import Mathlib.Order.Lattice

/-! A log of changes to a map, delivered to a copy of the map: each change at least once, and those of a key in the order
of the log. -/

namespace Delivery

/-- A change of a log: what there is at a key from then on. -/
structure Change (P K V : Type) where
  position : P
  key : K
  value : Option V

variable {P K V : Type}

section Order

variable [LinearOrder P] {log delivered : List (Change P K V)} {change other : Change P K V}

def Ordered (log : List (Change P K V)) : Prop := log.Pairwise (fun a b => a.position < b.position)

/-- Deliveries of one key are in the order of the log, and may repeat a change. -/
def InOrder (delivered : List (Change P K V)) : Prop :=
  delivered.Pairwise (fun a b => a.key = b.key → a.position ≤ b.position)

theorem Ordered.inOrder (h : Ordered log) : InOrder log := by
  apply List.Pairwise.imp _ h
  intro a b hl _
  exact le_of_lt hl

theorem Ordered.eq_of_position (h : Ordered log) (hc : change ∈ log) (ho : other ∈ log)
    (he : change.position = other.position) : change = other := by
  have hn : (log.map Change.position).Nodup := List.pairwise_map.mpr (List.Pairwise.imp (fun hl => ne_of_lt hl) h)
  exact List.inj_on_of_nodup_map hn hc ho he

theorem InOrder.concat (h : InOrder delivered)
    (hl : ∀ c ∈ delivered, c.key = change.key → c.position ≤ change.position) :
    InOrder (delivered++[change]) := by
  apply List.pairwise_append.mpr
  refine ⟨h,List.pairwise_singleton _ _,fun c hc other ho => ?_⟩
  rw [List.mem_singleton.mp ho]
  exact hl c hc

end Order

section Replay

variable [DecidableEq K] {changes : List (Change P K V)} {change : Change P K V}

def put (map : K → Option V) (change : Change P K V) : K → Option V := Function.update map change.key change.value

/-- The changes one after another, from nothing on. -/
def replay (changes : List (Change P K V)) : K → Option V := changes.foldl put (fun _ => none)

theorem replay_append (changes later : List (Change P K V)) :
    replay (changes++later) = later.foldl put (replay changes) :=
  List.foldl_append

def lastAt (changes : List (Change P K V)) (key : K) : Option (Change P K V) :=
  (changes.filter (fun change => change.key = key)).getLast?

/-- The last change of a key is what there is at the key. -/
theorem replay_apply (changes : List (Change P K V)) (key : K) :
    replay changes key = (lastAt changes key).bind Change.value := by
  induction changes using List.reverseRecOn with
  | nil => rfl
  | append_singleton changes change ih =>
    rw [replay_append,lastAt,List.filter_append]
    by_cases hk : change.key = key
    · subst hk
      simp [put]
    · simp only [List.foldl_cons,List.foldl_nil,put,Function.update_of_ne (Ne.symm hk),ih]
      simp [lastAt,hk]

theorem mem_of_lastAt {key : K} (h : lastAt changes key = some change) : change ∈ changes ∧ change.key = key := by
  have hm := List.mem_filter.mp (List.mem_of_getLast? h)
  exact ⟨hm.1,of_decide_eq_true hm.2⟩

theorem exists_lastAt (h : change ∈ changes) : ∃ last, lastAt changes change.key = some last := by
  cases hl : lastAt changes change.key with
  | some last => exact ⟨last,rfl⟩
  | none =>
    have hn := List.getLast?_eq_none_iff.mp hl
    have hm : change ∈ changes.filter (fun c => c.key = change.key) := List.mem_filter.mpr ⟨h,decide_eq_true rfl⟩
    rw [hn] at hm
    cases hm

end Replay

section Delivered

variable [LinearOrder P] [DecidableEq K] {log delivered : List (Change P K V)}

theorem InOrder.le_lastAt (h : InOrder delivered) {change last : Change P K V} (hc : change ∈ delivered)
    (hl : lastAt delivered change.key = some last) : change.position ≤ last.position := by
  obtain ⟨before,hs⟩ := List.getLast?_eq_some_iff.mp hl
  have hm : change ∈ before ++ [last] := hs ▸ List.mem_filter.mpr ⟨hc,decide_eq_true rfl⟩
  have ho : (before++[last]).Pairwise (fun a b => a.key = b.key → a.position ≤ b.position) := hs ▸ h.filter _
  cases List.mem_append.mp hm with
  | inl hb =>
    exact (List.pairwise_append.mp ho).2.2 change hb last List.mem_cons_self (mem_of_lastAt hl).2.symm
  | inr hw => rw [List.mem_singleton.mp hw]

theorem replay_delivered (hg : Ordered log) (hd : ∀ c ∈ delivered, c ∈ log) (hr : InOrder delivered)
    (ha : ∀ c ∈ log, c ∈ delivered) : replay delivered = replay log := by
  funext key
  rw [replay_apply,replay_apply]
  congr 1
  cases hl : lastAt log key with
  | none =>
    cases ho : lastAt delivered key with
    | none => rfl
    | some change =>
      obtain ⟨hm,rfl⟩ := mem_of_lastAt ho
      obtain ⟨last,hs⟩ := exists_lastAt (hd change hm)
      rw [hl] at hs
      cases hs
  | some last =>
    obtain ⟨hm,rfl⟩ := mem_of_lastAt hl
    obtain ⟨change,hc⟩ := exists_lastAt (ha last hm)
    obtain ⟨ho,hk⟩ := mem_of_lastAt hc
    have he : last.position ≤ change.position := hr.le_lastAt (ha last hm) hc
    have hge : change.position ≤ last.position := hg.inOrder.le_lastAt (hd change ho) (hk ▸ hl)
    rw [hc,hg.eq_of_position (hd change ho) hm (le_antisymm hge he)]

end Delivered

end Delivery
