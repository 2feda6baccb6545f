import UwuContextDb.Library.Assoc
import UwuContextDb.Library.Run
import UwuContextDb.Network.Routing

/-! The query quotas over runs of acquired and dropped permits. -/

namespace UwuContextDb.Network

open StateMachine
open Assoc
open GovernancePolicy (acquireQuery dropPermit)

variable {K : Type} (policy : GovernancePolicy K)

namespace GovernancePolicy

def retained (quotas : Quotas) (now : ℕ) : Quotas :=
  quotas.filter (fun quota => 0 < quota.2.inFlight ∨ now - quota.2.windowStarted < policy.quotaWindow)

def currentQuota (kept : Quotas) (actor : AgentId) (now : ℕ) : QuotaState :=
  let state := (kept.lookup actor).getD ⟨now, 0, 0⟩
  if policy.quotaWindow ≤ now - state.windowStarted then { state with windowStarted := now, accepted := 0 } else state

/-- The acquisition starts a window of the actor: the first, or one after the last has passed. -/
def Resets (quotas : Quotas) (actor : AgentId) (now : ℕ) : Prop :=
  policy.validate = .ok () ∧
    (((policy.retained quotas now).lookup actor = none ∧ (policy.retained quotas now).length < policy.maxTrackedActors) ∨
      ∃ state, (policy.retained quotas now).lookup actor = some state ∧
        policy.quotaWindow ≤ now - state.windowStarted)

end GovernancePolicy

structure QuotaSystem where
  quotas : Quotas
  permits : List AgentId

inductive QuotaOp
  | acquire (actor : AgentId) (now : ℕ)
  | drop (actor : AgentId)

namespace QuotaSystem

def empty : QuotaSystem := ⟨[], []⟩

/-- An instant is read before the quotas are locked, so those of a run need not rise. -/
def step (s : QuotaSystem) : QuotaOp → QuotaSystem
  | .acquire actor now =>
    let acquired := policy.acquireQuery s.quotas actor now
    ⟨acquired.2, if acquired.1.toBool then actor::s.permits else s.permits⟩
  | .drop actor =>
    if actor ∈ s.permits then ⟨GovernancePolicy.dropPermit s.quotas actor, s.permits.erase actor⟩ else s

def inFlight (s : QuotaSystem) (actor : AgentId) : ℕ := ((s.quotas.lookup actor).map QuotaState.inFlight).getD 0

def granted (s : QuotaSystem) (actor : AgentId) : QuotaOp → ℕ
  | .acquire asking now => if asking = actor ∧ (policy.acquireQuery s.quotas asking now).1.toBool then 1 else 0
  | .drop _ => 0

def acquisitions (actor : AgentId) : QuotaSystem → List QuotaOp → ℕ
  | _, [] => 0
  | s, op::ops => granted policy s actor op + acquisitions actor (step policy s op) ops

def ResetsWindow (actor : AgentId) (s : QuotaSystem) : QuotaOp → Prop
  | .acquire asking now => asking = actor ∧ policy.Resets s.quotas actor now
  | .drop _ => False

/-- Every actor is tracked once, with as many queries in flight as it has permits, and within the limits. -/
structure Balanced (s : QuotaSystem) : Prop where
  nodup : (s.quotas.map Prod.fst).Nodup
  inFlight : ∀ quota ∈ s.quotas, quota.2.inFlight = s.permits.count quota.1
  tracked : ∀ actor ∈ s.permits, ∃ state, (actor, state) ∈ s.quotas
  concurrent : ∀ quota ∈ s.quotas, quota.2.inFlight ≤ policy.maxConcurrentQueries
  accepted : ∀ quota ∈ s.quotas, quota.2.accepted ≤ policy.maxQueriesPerWindow
  capacity : s.quotas.length ≤ policy.maxTrackedActors

end QuotaSystem

section Entries

variable {quotas : Quotas} {actor : AgentId} {state : QuotaState}

theorem mem_setQuota {quota : AgentId × QuotaState} : quota ∈ GovernancePolicy.setQuota quotas actor state ↔
    quota = (actor, state) ∨ quota ∈ quotas ∧ quota.1 ≠ actor := by
  simp [GovernancePolicy.setQuota]

theorem setQuota_nodup (hn : (quotas.map Prod.fst).Nodup) (actor : AgentId) (st : QuotaState) :
    ((GovernancePolicy.setQuota quotas actor st).map Prod.fst).Nodup := by
  rw [GovernancePolicy.setQuota,List.map_cons,List.nodup_cons]
  refine ⟨fun hm => ?_,hn.sublist (List.filter_sublist.map Prod.fst)⟩
  obtain ⟨quota,hq,hk⟩ := List.mem_map.mp hm
  simpa [hk] using (List.mem_filter.mp hq).2

theorem setQuota_length {most : ℕ} (hr : (∃ st, (actor, st) ∈ quotas) ∨ quotas.length < most)
    (hl : quotas.length ≤ most) (st : QuotaState) :
    (GovernancePolicy.setQuota quotas actor st).length ≤ most := by
  rw [GovernancePolicy.setQuota,List.length_cons]
  rcases hr with ⟨old,ho⟩ | hr
  · have hf : (quotas.filter (fun quota => quota.1 ≠ actor)).length < quotas.length :=
      List.length_filter_lt_length_iff_exists.mpr ⟨_,ho,by simp⟩
    omega
  · have := List.length_filter_le (fun quota : AgentId × QuotaState => quota.1 ≠ actor) quotas
    omega

theorem mem_retained {now : ℕ} {quota : AgentId × QuotaState} : quota ∈ policy.retained quotas now ↔
    quota ∈ quotas ∧ (0 < quota.2.inFlight ∨ now - quota.2.windowStarted < policy.quotaWindow) := by
  simp [GovernancePolicy.retained]

theorem acquireQuery_valid (hv : policy.validate = .ok ()) (quotas : Quotas) (actor : AgentId) (now : ℕ) :
    let kept := policy.retained quotas now
    let state := policy.currentQuota kept actor now
    policy.acquireQuery quotas actor now =
      if (kept.lookup actor).isNone ∧ policy.maxTrackedActors ≤ kept.length then
        (.error (.policyDenied "federation actor quota capacity exhausted"), kept)
      else if policy.maxQueriesPerWindow ≤ state.accepted then
        (.error (.policyDenied "federation query rate quota exhausted"), GovernancePolicy.setQuota kept actor state)
      else if policy.maxConcurrentQueries ≤ state.inFlight then
        (.error (.policyDenied "federation concurrent query quota exhausted"), GovernancePolicy.setQuota kept actor state)
      else (.ok (), GovernancePolicy.setQuota kept actor
        { state with accepted := state.accepted+1, inFlight := state.inFlight+1 }) := by
  unfold acquireQuery
  rw [hv]
  rfl

/-- An acquisition is refused by the policy itself, for lack of room, or by a limit of the actor, or it is granted. -/
theorem acquireQuery_cases (quotas : Quotas) (actor : AgentId) (now : ℕ) :
    let kept := policy.retained quotas now
    let state := policy.currentQuota kept actor now
    let acquired := policy.acquireQuery quotas actor now
    (policy.validate ≠ .ok () ∧ acquired.1.toBool = false ∧ acquired.2 = quotas) ∨
    (policy.validate = .ok () ∧ acquired.1.toBool = false ∧ acquired.2 = kept ∧
      kept.lookup actor = none ∧ policy.maxTrackedActors ≤ kept.length) ∨
    (policy.validate = .ok () ∧ (kept.lookup actor ≠ none ∨ kept.length < policy.maxTrackedActors) ∧
      ((acquired.1.toBool = false ∧ acquired.2 = GovernancePolicy.setQuota kept actor state) ∨
        (acquired.1.toBool = true ∧ state.accepted < policy.maxQueriesPerWindow ∧
          state.inFlight < policy.maxConcurrentQueries ∧ acquired.2 = GovernancePolicy.setQuota kept actor
            { state with accepted := state.accepted+1, inFlight := state.inFlight+1 }))) := by
  dsimp only
  cases hv : policy.validate with
  | error error =>
    rw [acquireQuery,hv]
    exact .inl ⟨by simp,rfl,rfl⟩
  | ok u =>
    rw [acquireQuery_valid policy hv]
    generalize policy.retained quotas now = kept
    generalize policy.currentQuota kept actor now = state
    by_cases hf : (kept.lookup actor).isNone ∧ policy.maxTrackedActors ≤ kept.length
    · rw [if_pos hf]
      exact .inr (.inl ⟨rfl,rfl,rfl,Option.isNone_iff_eq_none.mp hf.1,hf.2⟩)
    · rw [if_neg hf]
      rw [not_and_or,not_le,Option.isNone_iff_eq_none] at hf
      refine .inr (.inr ⟨rfl,hf, ?_⟩)
      by_cases ha : policy.maxQueriesPerWindow ≤ state.accepted
      · rw [if_pos ha]
        exact .inl ⟨rfl,rfl⟩
      · rw [if_neg ha]
        by_cases hc : policy.maxConcurrentQueries ≤ state.inFlight
        · rw [if_pos hc]
          exact .inl ⟨rfl,rfl⟩
        · rw [if_neg hc]
          exact .inr ⟨rfl,not_le.mp ha,not_le.mp hc,rfl⟩

theorem acquireQuery_granted {actor : AgentId} {now : ℕ} (h : (policy.acquireQuery quotas actor now).1.toBool = true) :
    let state := policy.currentQuota (policy.retained quotas now) actor now
    state.accepted < policy.maxQueriesPerWindow ∧
      (policy.acquireQuery quotas actor now).2 = GovernancePolicy.setQuota (policy.retained quotas now) actor
        { state with accepted := state.accepted+1, inFlight := state.inFlight+1 } := by
  rcases acquireQuery_cases policy quotas actor now with
    ⟨-,hr, -⟩ | ⟨-,hr, -⟩ | ⟨-, -,⟨hr, -⟩ | ⟨-,hf, -,hq⟩⟩
  · exact absurd h (by simp [hr])
  · exact absurd h (by simp [hr])
  · exact absurd h (by simp [hr])
  · exact ⟨hf,hq⟩

end Entries

namespace QuotaSystem

section Invariant

variable {policy} {s : QuotaSystem} {quotas : Quotas} {permits : List AgentId}

theorem balanced_empty : empty.Balanced policy :=
  ⟨List.nodup_nil,fun _ h => absurd h List.not_mem_nil,fun _ h => absurd h List.not_mem_nil,
    fun _ h => absurd h List.not_mem_nil,fun _ h => absurd h List.not_mem_nil,Nat.zero_le _⟩

variable {quota : AgentId × QuotaState} {actor : AgentId}

theorem Balanced.mem_retained (h : s.Balanced policy) (hq : quota ∈ s.quotas)
    (hp : quota.1 ∈ s.permits) (now : ℕ) : quota ∈ policy.retained s.quotas now := by
  refine (Network.mem_retained policy).mpr ⟨hq, .inl ?_⟩
  rw [h.inFlight quota hq]
  exact List.count_pos_iff.mpr hp

theorem Balanced.retained (h : Balanced policy ⟨quotas,permits⟩) (now : ℕ) :
    Balanced policy ⟨policy.retained quotas now,permits⟩ where
  nodup := h.nodup.sublist (List.filter_sublist.map Prod.fst)
  inFlight quota hq := h.inFlight quota (List.mem_of_mem_filter hq)
  tracked actor ha := by
    obtain ⟨state,hs⟩ := h.tracked actor ha
    exact ⟨state,h.mem_retained hs ha now⟩
  concurrent quota hq := h.concurrent quota (List.mem_of_mem_filter hq)
  accepted quota hq := h.accepted quota (List.mem_of_mem_filter hq)
  capacity := (List.length_filter_le _ _).trans h.capacity

theorem Balanced.setQuota (h : Balanced policy ⟨quotas,permits⟩) {permits' : List AgentId}
    {st : QuotaState} (hh : ∀ other, other ≠ actor → permits'.count other = permits.count other)
    (hi : st.inFlight = permits'.count actor) (hc : st.inFlight ≤ policy.maxConcurrentQueries)
    (ha : st.accepted ≤ policy.maxQueriesPerWindow)
    (hr : (∃ st, (actor, st) ∈ quotas) ∨ quotas.length < policy.maxTrackedActors) :
    Balanced policy ⟨GovernancePolicy.setQuota quotas actor st,permits'⟩ where
  nodup := setQuota_nodup h.nodup actor st
  inFlight quota hq := by
    rcases mem_setQuota.mp hq with rfl | ⟨ho,ht⟩
    · exact hi
    · rw [hh quota.1 ht]
      exact h.inFlight quota ho
  tracked other hp := by
    by_cases ht : other = actor
    · subst ht
      exact ⟨st,mem_setQuota.mpr (.inl rfl)⟩
    · have hb : other ∈ permits := by
        rw [← List.count_pos_iff,← hh other ht]
        exact List.count_pos_iff.mpr hp
      obtain ⟨old,ho⟩ := h.tracked other hb
      exact ⟨old,mem_setQuota.mpr (.inr ⟨ho,ht⟩)⟩
  concurrent quota hq := by
    rcases mem_setQuota.mp hq with rfl | ⟨ho, -⟩
    · exact hc
    · exact h.concurrent quota ho
  accepted quota hq := by
    rcases mem_setQuota.mp hq with rfl | ⟨ho, -⟩
    · exact ha
    · exact h.accepted quota ho
  capacity := setQuota_length hr h.capacity st

theorem Balanced.notMem_of_lookup (h : s.Balanced policy) (hl : s.quotas.lookup actor = none) :
    actor ∉ s.permits := by
  intro hp
  obtain ⟨state,hs⟩ := h.tracked actor hp
  exact lookup_eq_none_iff.mp hl state hs

theorem Balanced.currentQuota (h : Balanced policy ⟨quotas,permits⟩) (actor : AgentId) (now : ℕ) :
    (policy.currentQuota quotas actor now).inFlight = permits.count actor ∧
      (policy.currentQuota quotas actor now).inFlight ≤ policy.maxConcurrentQueries ∧
      (policy.currentQuota quotas actor now).accepted ≤ policy.maxQueriesPerWindow := by
  have ho : ((quotas.lookup actor).getD ⟨now,0,0⟩).inFlight = permits.count actor ∧
      ((quotas.lookup actor).getD ⟨now,0,0⟩).inFlight ≤ policy.maxConcurrentQueries ∧
      ((quotas.lookup actor).getD ⟨now,0,0⟩).accepted ≤ policy.maxQueriesPerWindow := by
    cases hl : quotas.lookup actor with
    | none => exact ⟨(List.count_eq_zero.mpr (h.notMem_of_lookup hl)).symm,Nat.zero_le _,Nat.zero_le _⟩
    | some state =>
      have hm := mem_of_lookup hl
      exact ⟨h.inFlight _ hm,h.concurrent _ hm,h.accepted _ hm⟩
  unfold GovernancePolicy.currentQuota
  dsimp only
  split
  · exact ⟨ho.1,ho.2.1,Nat.zero_le _⟩
  · exact ho

theorem Balanced.acquire (h : s.Balanced policy) (actor : AgentId) (now : ℕ) :
    (s.step policy (.acquire actor now)).Balanced policy := by
  have hk := h.retained now
  obtain ⟨hi,hc,ha⟩ := hk.currentQuota actor now
  unfold step
  dsimp only
  rcases acquireQuery_cases policy s.quotas actor now with
    ⟨-,hr,hq⟩ | ⟨-,hr,hq, -⟩ | ⟨-,ho,⟨hr,hq⟩ | ⟨hg,hf,he,hq⟩⟩
  · rw [hr,hq]
    exact h
  · rw [hr,hq]
    exact hk
  · rw [hr,hq]
    exact hk.setQuota (fun _ _ => rfl) hi hc ha (ho.imp_left exists_mem_of_lookup)
  · rw [hg,hq]
    refine hk.setQuota (fun other ht => ?_) ?_ he hf (ho.imp_left exists_mem_of_lookup)
    · exact List.count_cons_of_ne (Ne.symm ht)
    · rw [if_pos rfl,List.count_cons_self,← hi]

theorem mem_dropPermit :
    quota ∈ dropPermit quotas actor ↔ ∃ old ∈ quotas, quota.1 = old.1 ∧
      quota.2 = if old.1 = actor then { old.2 with inFlight := old.2.inFlight - 1 } else old.2 := by
  have hr (old : AgentId × QuotaState) :
      (if old.1 = actor then (actor, { old.2 with inFlight := old.2.inFlight - 1 }) else old) = quota ↔
        quota.1 = old.1 ∧
          quota.2 = if old.1 = actor then { old.2 with inFlight := old.2.inFlight - 1 } else old.2 := by
    by_cases ha : old.1 = actor
    · rw [if_pos ha,if_pos ha,← ha,eq_comm,Prod.ext_iff]
    · rw [if_neg ha,if_neg ha,eq_comm,Prod.ext_iff]
  simp only [dropPermit,List.mem_map,hr]

theorem dropPermit_keys (quotas : Quotas) (actor : AgentId) :
    (dropPermit quotas actor).map Prod.fst = quotas.map Prod.fst := by
  rw [dropPermit,List.map_map]
  refine List.map_congr_left (fun quota _ => ?_)
  rw [Function.comp_apply]
  split
  · rename_i ha
    exact ha.symm
  · rfl

theorem Balanced.drop (h : s.Balanced policy) (actor : AgentId) : (s.step policy (.drop actor)).Balanced policy := by
  unfold step
  dsimp only
  split
  · refine ⟨?_,fun quota hq => ?_,fun other ht => ?_,fun quota hq => ?_,fun quota hq => ?_, ?_⟩
    · rw [dropPermit_keys]
      exact h.nodup
    · obtain ⟨old,ho,hk,hs⟩ := mem_dropPermit.mp hq
      have hb := h.inFlight old ho
      rw [hk,hs]
      by_cases ha : old.1 = actor
      · rw [if_pos ha,ha,List.count_erase_self,← ha,← hb]
      · rw [if_neg ha,List.count_erase_of_ne ha,hb]
    · obtain ⟨st,hs⟩ := h.tracked other (List.mem_of_mem_erase ht)
      exact ⟨if other = actor then { st with inFlight := st.inFlight - 1 } else st,
        mem_dropPermit.mpr ⟨(other, st),hs,rfl,rfl⟩⟩
    · obtain ⟨old,ho, -,hs⟩ := mem_dropPermit.mp hq
      have hb := h.concurrent old ho
      rw [hs]
      split
      · exact (Nat.sub_le _ _).trans hb
      · exact hb
    · obtain ⟨old,ho, -,hs⟩ := mem_dropPermit.mp hq
      have hb := h.accepted old ho
      rw [hs]
      split
      · exact hb
      · exact hb
    · rw [dropPermit,List.length_map]
      exact h.capacity
  · exact h

theorem Balanced.step (h : s.Balanced policy) (op : QuotaOp) : (s.step policy op).Balanced policy := by
  cases op with
  | acquire actor now => exact h.acquire actor now
  | drop actor => exact h.drop actor

end Invariant

section Window

def remaining (quotas : Quotas) (actor : AgentId) : ℕ :=
  ((quotas.lookup actor).map (fun state => policy.maxQueriesPerWindow - state.accepted)).getD 0

variable {policy} {s : QuotaSystem} {quotas : Quotas} {actor : AgentId}

theorem remaining_of_lookup {st : QuotaState} (h : quotas.lookup actor = some st) :
    remaining policy quotas actor = policy.maxQueriesPerWindow - st.accepted := by
  rw [remaining,h]
  rfl

theorem remaining_le (pol : GovernancePolicy K) (quotas : Quotas) (actor : AgentId) :
    remaining pol quotas actor ≤ pol.maxQueriesPerWindow := by
  cases hl : quotas.lookup actor with
  | none => simp [remaining,hl]
  | some state =>
    rw [remaining_of_lookup hl]
    exact Nat.sub_le _ _

theorem remaining_mono {quotas' : Quotas} (h : ∀ state, quotas'.lookup actor = some state →
    ∃ old, quotas.lookup actor = some old ∧ old.accepted ≤ state.accepted) :
    remaining policy quotas' actor ≤ remaining policy quotas actor := by
  cases hl : quotas'.lookup actor with
  | none => simp [remaining,hl]
  | some state =>
    obtain ⟨old,ho,he⟩ := h state hl
    rw [remaining_of_lookup hl,remaining_of_lookup ho]
    exact Nat.sub_le_sub_left he _

theorem lookup_of_retained (hn : (quotas.map Prod.fst).Nodup) {now : ℕ} {state : QuotaState}
    (h : (policy.retained quotas now).lookup actor = some state) : quotas.lookup actor = some state :=
  lookup_of_mem hn (List.mem_of_mem_filter (mem_of_lookup h))

theorem remaining_retained (hn : (quotas.map Prod.fst).Nodup) (actor : AgentId) (now : ℕ) :
    remaining policy (policy.retained quotas now) actor ≤ remaining policy quotas actor :=
  remaining_mono (fun state hs => ⟨state,lookup_of_retained hn hs,le_rfl⟩)

theorem remaining_dropPermit (hn : (quotas.map Prod.fst).Nodup) (actor dropping : AgentId) :
    remaining policy (dropPermit quotas dropping) actor ≤ remaining policy quotas actor := by
  refine remaining_mono (fun state hs => ?_)
  obtain ⟨old,ho,hk,hc⟩ := mem_dropPermit.mp (mem_of_lookup hs)
  refine ⟨old.2,lookup_of_mem hn (by rw [show actor = old.1 from hk]; exact ho), ?_⟩
  rw [show state = _ from hc]
  split
  · exact le_rfl
  · exact le_rfl

theorem lookup_setQuota_self (quotas : Quotas) (actor : AgentId) (state : QuotaState) :
    (GovernancePolicy.setQuota quotas actor state).lookup actor = some state := by
  simp [GovernancePolicy.setQuota]

theorem lookup_setQuota_ne (hn : (quotas.map Prod.fst).Nodup) {other : AgentId} (he : other ≠ actor)
    (st : QuotaState) : (GovernancePolicy.setQuota quotas actor st).lookup other = quotas.lookup other := by
  refine Option.ext (fun found => ?_)
  rw [lookup_eq_some_iff_mem (setQuota_nodup hn actor st),lookup_eq_some_iff_mem hn,mem_setQuota]
  simp [he]

theorem granted_acquire (s : QuotaSystem) (actor asking : AgentId) (now : ℕ) :
    s.granted policy actor (.acquire asking now) =
      if asking = actor ∧ (policy.acquireQuery s.quotas asking now).1.toBool then 1 else 0 := rfl

theorem granted_add_remaining_le (h : s.Balanced policy) {op : QuotaOp} (hk : ¬ s.ResetsWindow policy actor op) :
    s.granted policy actor op + remaining policy (s.step policy op).quotas actor ≤ remaining policy s.quotas actor := by
  cases op with
  | drop dropping =>
    rw [granted,Nat.zero_add,step]
    split
    · exact remaining_dropPermit h.nodup actor dropping
    · exact le_rfl
  | acquire asking now =>
    have hp : remaining policy (policy.retained s.quotas now) actor ≤ remaining policy s.quotas actor :=
      remaining_retained h.nodup actor now
    have hn := (h.retained now).nodup
    rw [granted_acquire,step]
    dsimp only
    rcases acquireQuery_cases policy s.quotas asking now with
      ⟨-,hr,hq⟩ | ⟨-,hr,hq, -⟩ | ⟨hv,hro,he⟩
    · simp [hr,hq]
    · simp [hr,hq,hp]
    · by_cases ha : asking = actor
      · subst ha
        -- the window is open, so that the quota is the one that was there
        obtain ⟨old,ho,hop⟩ : ∃ old, (policy.retained s.quotas now).lookup asking = some old ∧
            now - old.windowStarted < policy.quotaWindow := by
          cases hl : (policy.retained s.quotas now).lookup asking with
          | none => exact absurd ⟨rfl,hv, .inl ⟨hl,hro.resolve_left (fun hne => hne hl)⟩⟩ hk
          | some old =>
            refine ⟨old,rfl,not_le.mp (fun hpa => ?_)⟩
            exact hk ⟨rfl,hv, .inr ⟨old,hl,hpa⟩⟩
        have hc : policy.currentQuota (policy.retained s.quotas now) asking now = old := by
          rw [GovernancePolicy.currentQuota,ho]
          exact if_neg (not_le.mpr hop)
        rw [remaining_of_lookup (lookup_of_retained h.nodup ho)]
        rw [hc] at he
        rcases he with ⟨hr,hq⟩ | ⟨hg,hf, -,hq⟩
        · rw [hq,remaining_of_lookup (lookup_setQuota_self _ _ _)]
          simp [hr]
        · rw [hq,remaining_of_lookup (lookup_setQuota_self _ _ _),if_pos ⟨rfl,hg⟩]
          dsimp only
          omega
      · rw [if_neg (fun hb => ha hb.1),Nat.zero_add]
        refine le_trans (remaining_mono (fun state hs => ?_)) hp
        rcases he with ⟨-,hq⟩ | ⟨-, -, -,hq⟩
        · rw [hq,lookup_setQuota_ne hn (Ne.symm ha)] at hs
          exact ⟨state,hs,le_rfl⟩
        · rw [hq,lookup_setQuota_ne hn (Ne.symm ha)] at hs
          exact ⟨state,hs,le_rfl⟩

theorem granted_add_remaining_le_max (pol : GovernancePolicy K) (s : QuotaSystem) (actor : AgentId) (op : QuotaOp) :
    s.granted pol actor op + remaining pol (s.step pol op).quotas actor ≤ pol.maxQueriesPerWindow := by
  have hm := remaining_le pol (s.step pol op).quotas actor
  by_cases hg : s.granted pol actor op = 0
  · rw [hg,Nat.zero_add]
    exact hm
  · cases op with
    | drop dropping => exact absurd rfl hg
    | acquire asking now =>
      rw [granted_acquire] at hg ⊢
      rw [step] at hm ⊢
      split at hg
      · rename_i hb
        obtain ⟨rfl,ht⟩ := hb
        obtain ⟨hf,hq⟩ := acquireQuery_granted pol ht
        rw [if_pos ⟨rfl,ht⟩]
        dsimp only
        rw [hq,remaining_of_lookup (lookup_setQuota_self _ _ _)]
        dsimp only
        omega
      · exact absurd rfl hg

theorem acquisitions_le_remaining (h : s.Balanced policy) {ops : List QuotaOp}
    (hk : Meets (step policy) (fun s op => ¬ s.ResetsWindow policy actor op) s ops) :
    acquisitions policy actor s ops ≤ remaining policy s.quotas actor := by
  induction ops generalizing s with
  | nil => exact Nat.zero_le _
  | cons op ops ih =>
    have hf := granted_add_remaining_le h hk.1
    have hr := ih (h.step op) hk.2
    rw [acquisitions]
    omega

theorem Balanced.inFlight_eq (h : s.Balanced policy) (actor : AgentId) :
    QuotaSystem.inFlight s actor = s.permits.count actor ∧
      QuotaSystem.inFlight s actor ≤ policy.maxConcurrentQueries := by
  cases hl : s.quotas.lookup actor with
  | none => simp [QuotaSystem.inFlight,hl,List.count_eq_zero.mpr (h.notMem_of_lookup hl)]
  | some state =>
    have hm := mem_of_lookup hl
    have hv : QuotaSystem.inFlight s actor = state.inFlight := by
      rw [QuotaSystem.inFlight,hl]
      rfl
    rw [hv]
    exact ⟨h.inFlight _ hm,h.concurrent _ hm⟩

/-- What holds of the quotas after any run of acquisitions and drops. -/
theorem quotas_hold (policy : GovernancePolicy K) (ops : List QuotaOp) :
    let s := run (step policy) empty ops
    (∀ actor, inFlight s actor = s.permits.count actor ∧ inFlight s actor ≤ policy.maxConcurrentQueries) ∧
      (∀ actor op later,
        Meets (step policy) (fun s op => ¬ s.ResetsWindow policy actor op) (s.step policy op) later →
          acquisitions policy actor s (op::later) ≤ policy.maxQueriesPerWindow) ∧
      ((s.quotas.map Prod.fst).Nodup ∧ s.quotas.length ≤ policy.maxTrackedActors) ∧
      ∀ actor ∈ s.permits, ∃ state, s.quotas.lookup actor = some state ∧
        ∀ now, (policy.retained s.quotas now).lookup actor = some state := by
  have h : (run (step policy) empty ops).Balanced policy :=
    run_preserves (fun s op hs => hs.step op) balanced_empty ops
  dsimp only
  generalize run (step policy) empty ops = s at h
  refine ⟨h.inFlight_eq, fun actor op later hl => ?_, ⟨h.nodup, h.capacity⟩, fun actor hp => ?_⟩
  · have hf := granted_add_remaining_le_max policy s actor op
    have hr := acquisitions_le_remaining (h.step op) hl
    rw [acquisitions]
    omega
  · obtain ⟨state, ht⟩ := h.tracked actor hp
    refine ⟨state, lookup_of_mem h.nodup ht, fun now => ?_⟩
    exact lookup_of_mem (h.retained now).nodup (h.mem_retained ht hp now)

end Window

end QuotaSystem

end UwuContextDb.Network
