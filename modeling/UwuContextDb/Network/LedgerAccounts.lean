import UwuContextDb.Library.Run
import UwuContextDb.Network.Charges
import UwuContextDb.Network.ScopeKey

/-! The privacy ledger against an auditor's book of the reservations of every window. -/

namespace UwuContextDb.Network

open InMemoryPrivacyBudgetLedger (key_inj projectedEpsilon)
open List (mem_map map_map map_cons mem_cons mem_map_of_mem sum_cons mem_append mem_singleton)

inductive Standing | held | committed | refunded deriving DecidableEq

structure Reservation (K : Type) where
  id : Uuid
  cost : PrivacyCost K
  standing : Standing

namespace Reservation

variable {K : Type}

def unrefunded (page : List (Reservation K)) : List (Reservation K) := page.filter (fun r => r.standing ≠ .refunded)

/-- The page with a new standing of the reservation `id`. -/
def mark (id : Uuid) (standing : Standing) (page : List (Reservation K)) : List (Reservation K) :=
  page.map (fun r => if r.id = id then { r with standing := standing } else r)

def entry (r : Reservation K) : Uuid × PrivacyCost K := (r.id, r.cost)

variable {page : List (Reservation K)} {id : Uuid} {standing : Standing}

theorem mem_mark {r : Reservation K} : r ∈ mark id standing page ↔
    ∃ r₀ ∈ page, (r₀.id = id ∧ r = { r₀ with standing := standing }) ∨ (r₀.id ≠ id ∧ r = r₀) := by
  unfold mark
  rw [mem_map]
  constructor
  · rintro ⟨r₀,hr₀,rfl⟩
    by_cases hi : r₀.id = id
    · exact ⟨r₀,hr₀, .inl ⟨hi,if_pos hi⟩⟩
    · exact ⟨r₀,hr₀, .inr ⟨hi,if_neg hi⟩⟩
  · rintro ⟨r₀,hr₀,⟨hi,rfl⟩ | ⟨hi,rfl⟩⟩
    · exact ⟨r₀,hr₀,if_pos hi⟩
    · exact ⟨r,hr₀,if_neg hi⟩

theorem exists_of_mem_mark {r : Reservation K} (h : r ∈ mark id standing page) : ∃ r₀ ∈ page, r₀.entry = r.entry := by
  obtain ⟨r₀,hr₀,⟨-,rfl⟩ | ⟨-,rfl⟩⟩ := mem_mark.mp h
  · exact ⟨r₀,hr₀,rfl⟩
  · exact ⟨r,hr₀,rfl⟩

theorem map_id_mark : (mark id standing page).map (·.id) = page.map (·.id) := by
  unfold mark
  rw [map_map]
  refine List.map_congr_left (fun r _ => ?_)
  by_cases hi : r.id = id <;> simp [hi]

theorem unrefunded_append (page page' : List (Reservation K)) :
    unrefunded (page++page') = unrefunded page ++ unrefunded page' :=
  List.filter_append ..

theorem mem_unrefunded {r : Reservation K} : r ∈ unrefunded page ↔ r ∈ page ∧ r.standing ≠ .refunded := by
  simp [unrefunded]

theorem unrefunded_cons (r : Reservation K) (page : List (Reservation K)) :
    unrefunded (r::page) = if r.standing = .refunded then unrefunded page else r :: unrefunded page := by
  unfold unrefunded
  by_cases hs : r.standing = .refunded <;> simp [hs]

theorem mark_cons (r : Reservation K) (page : List (Reservation K)) : mark id standing (r::page) =
    (if r.id = id then { r with standing := standing } else r) :: mark id standing page := rfl

theorem entries_mark_committed (h : ∀ r ∈ page, r.id = id → r.standing ≠ .refunded) :
    (unrefunded (mark id .committed page)).map entry = (unrefunded page).map entry := by
  induction page with
  | nil => rfl
  | cons r page ih =>
    have he := ih (fun r hr => h r (List.mem_cons_of_mem _ hr))
    rw [mark_cons,unrefunded_cons,unrefunded_cons]
    by_cases hi : r.id = id
    · have hs := h r List.mem_cons_self hi
      simp [hi,hs,he,entry]
    · by_cases hs : r.standing = .refunded <;> simp [hi,hs,he]

theorem entries_mark_refunded : (unrefunded (mark id .refunded page)).map entry =
    ((unrefunded page).map entry).filter (fun held => held.1 ≠ id) := by
  induction page with
  | nil => rfl
  | cons r page ih =>
    rw [mark_cons,unrefunded_cons,unrefunded_cons]
    by_cases hi : r.id = id
    · by_cases hs : r.standing = .refunded
      · rw [if_pos (by simp [hi]),if_pos hs,ih]
      · rw [if_pos (by simp [hi]),if_neg hs,ih,map_cons,List.filter_cons_of_neg (by simp [entry,hi])]
    · by_cases hs : r.standing = .refunded
      · rw [if_pos (by simp [hi,hs]),if_pos hs,ih]
      · rw [if_neg (by simp [hi,hs]),if_neg hs,map_cons,map_cons,ih,
          List.filter_cons_of_pos (by simp [entry,hi]),if_neg hi]

theorem sum_filter_add {held : Uuid × PrivacyCost K} {entries : List (Uuid × PrivacyCost K)} [AddCommMonoid K]
    (f : Uuid × PrivacyCost K → K) (hm : held ∈ entries) (ho : (entries.map Prod.fst).Nodup) :
    ((entries.filter (fun other => other.1 ≠ held.1)).map f).sum + f held = (entries.map f).sum := by
  induction entries with
  | nil => simp at hm
  | cons other entries ih =>
    obtain ⟨hf,hr⟩ := List.nodup_cons.mp (show (other.1 :: entries.map Prod.fst).Nodup from ho)
    rcases mem_cons.mp hm with rfl | hm
    · have hno : entries.filter (fun other => other.1 ≠ held.1) = entries := by
        refine List.filter_eq_self.mpr (fun other ht => ?_)
        have hn : other.1 ≠ held.1 := fun he => hf (he ▸ mem_map_of_mem ht)
        simpa using hn
      rw [List.filter_cons_of_neg (by simp),hno,map_cons,sum_cons,add_comm]
    · have hn : other.1 ≠ held.1 := fun he => hf (he ▸ mem_map_of_mem hm)
      rw [List.filter_cons_of_pos (by simpa using hn),map_cons,sum_cons,map_cons,sum_cons,add_assoc,ih hm hr]

end Reservation

/-- A ledger, and what an auditor writes beside it: the reservations that each window has seen since it was begun,
and the ids that were committed and refunded. -/
structure Audit (K : Type) where
  ledger : InMemoryPrivacyBudgetLedger K
  book : AgentId → BudgetScope → List (Reservation K)
  committed : List Uuid
  refunded : List Uuid

namespace Audit

variable {K : Type} [Field K] [LinearOrder K] (config : LedgerConfig K)

def empty : Audit K := ⟨.empty, fun _ _ => [], [], []⟩

def TakesBack (ledger : InMemoryPrivacyBudgetLedger K) (receipt : PrivacyReceipt K) : Prop :=
  ∃ window, ledger.windowOf config receipt.actor receipt.scope = some window ∧ receipt.id ∉ window.committed ∧
    receipt.id ∈ window.reserved.map Prod.fst

instance (ledger : InMemoryPrivacyBudgetLedger K) (receipt : PrivacyReceipt K) :
    Decidable (TakesBack config ledger receipt) :=
  match h : ledger.windowOf config receipt.actor receipt.scope with
  | none => .isFalse (fun ⟨_, hwindow, _⟩ => by simp [h] at hwindow)
  | some window =>
    decidable_of_iff (receipt.id ∉ window.committed ∧ receipt.id ∈ window.reserved.map Prod.fst)
      ⟨fun htakes => ⟨window, h, htakes⟩, fun ⟨_, hwindow, htakes⟩ => (Option.some.inj (h.symm.trans hwindow)) ▸ htakes⟩

def pageAt (audit : Audit K) (actor : AgentId) (scope : BudgetScope) (now : DateTime) : List (Reservation K) :=
  match audit.ledger.windowOf config actor scope with
  | none => []
  | some window => if config.window < now - window.startedAt then [] else audit.book actor scope

def setPage (audit : Audit K) (actor : AgentId) (scope : BudgetScope) (page : List (Reservation K)) :
    AgentId → BudgetScope → List (Reservation K) :=
  fun actor' scope' => if actor' = actor ∧ scope' = scope then page else audit.book actor' scope'

def step (audit : Audit K) : InMemoryPrivacyBudgetLedger.Op K → Audit K
  | .reserve actor scope policy now =>
    let cost := PrivacyCost.forQuery config.floats policy
    let made := match (audit.ledger.reserve config actor scope cost now).1 with
      | .ok receipt => [⟨receipt.id, receipt.cost, .held⟩]
      | .error _ => []
    { audit with
      ledger := audit.ledger.step config (.reserve actor scope policy now)
      book := audit.setPage actor scope (audit.pageAt config actor scope now ++ made) }
  | .commit receipt =>
    match (audit.ledger.commit config receipt).1 with
    | .ok () => {
        ledger := audit.ledger.step config (.commit receipt)
        book := audit.setPage receipt.actor receipt.scope
          (Reservation.mark receipt.id .committed (audit.book receipt.actor receipt.scope))
        committed := receipt.id :: audit.committed
        refunded := audit.refunded }
    | .error _ => audit
  | .refund receipt =>
    if TakesBack config audit.ledger receipt then {
        ledger := audit.ledger.step config (.refund receipt)
        book := audit.setPage receipt.actor receipt.scope
          (Reservation.mark receipt.id .refunded (audit.book receipt.actor receipt.scope))
        committed := audit.committed
        refunded := receipt.id :: audit.refunded }
    else audit

end Audit

section Windows

variable {K : Type} [Field K] [LinearOrder K] {config : LedgerConfig K} {window : BudgetWindow K}
  {page : List (Reservation K)} {id : Uuid}

open Reservation (entry unrefunded mark mem_mark)

structure Kept (config : LedgerConfig K) (window : BudgetWindow K) (page : List (Reservation K)) : Prop where
  reserved_eq : window.reserved = (unrefunded page).map entry
  committed_iff : ∀ r ∈ page, r.standing = .committed ↔ r.id ∈ window.committed
  nodup : (page.map (·.id)).Nodup
  costs_proper : ∀ r ∈ page, r.cost.rdp.Proper
  spent_proper : window.rdpSpent.Proper
  spent : ∀ i, window.rdpSpent.charged i = (window.reserved.map (fun held => held.2.rdp.charged i)).sum
  bound : page ≠ [] → projectedEpsilon config window.rdpSpent ≤ config.maxEpsilonPerWindow

theorem Kept.of_mem_reserved (h : Kept config window page) (hm : id ∈ window.reserved.map Prod.fst) :
    ∃ r ∈ page, r.id = id ∧ r.standing ≠ .refunded := by
  rw [h.reserved_eq,map_map] at hm
  obtain ⟨r,hr,rfl⟩ := mem_map.mp hm
  obtain ⟨hp,hs⟩ := Reservation.mem_unrefunded.mp hr
  exact ⟨r,hp,rfl,hs⟩

theorem Kept.eq_of_id (h : Kept config window page) {r r' : Reservation K} (hr : r ∈ page) (hr' : r' ∈ page)
    (hi : r.id = r'.id) : r = r' := List.inj_on_of_nodup_map h.nodup hr hr' hi

theorem kept_fresh (cfg : LedgerConfig K) (now : DateTime) :
    Kept cfg (InMemoryPrivacyBudgetLedger.BudgetWindow.fresh now) [] :=
  ⟨rfl,by simp,List.nodup_nil,by simp,RdpCharge.zero_proper,fun i => RdpCharge.charged_zero i,fun h => absurd rfl h⟩

theorem Kept.commit (h : Kept config window page) (hm : id ∈ window.reserved.map Prod.fst) :
    Kept config { window with committed := id :: window.committed } (mark id .committed page) := by
  obtain ⟨r₁,hr₁,hi₁,hs₁⟩ := h.of_mem_reserved hm
  have hu : ∀ r ∈ page, r.id = id → r.standing ≠ .refunded := by
    intro r hr hi
    rw [h.eq_of_id hr hr₁ (hi.trans hi₁.symm)]
    exact hs₁
  refine ⟨h.reserved_eq.trans (Reservation.entries_mark_committed hu).symm,?_,?_,?_,h.spent_proper,h.spent,?_⟩
  · intro r hr
    obtain ⟨r₀,hr₀,⟨hi,rfl⟩ | ⟨hi,rfl⟩⟩ := mem_mark.mp hr
    · simp [hi]
    · rw [h.committed_iff r hr₀]
      simp [hi]
  · rw [Reservation.map_id_mark]
    exact h.nodup
  · intro r hr
    obtain ⟨r₀,hr₀,he⟩ := Reservation.exists_of_mem_mark hr
    have hc : r₀.cost = r.cost := congrArg Prod.snd he
    exact hc ▸ h.costs_proper r₀ hr₀
  · intro _
    refine h.bound (fun hn => ?_)
    rw [hn] at hr₁
    cases hr₁

theorem Kept.entries_proper (h : Kept config window page) : ∀ held ∈ window.reserved, held.2.rdp.Proper := by
  intro held hh
  rw [h.reserved_eq] at hh
  obtain ⟨r,hr,rfl⟩ := mem_map.mp hh
  exact h.costs_proper r (Reservation.mem_unrefunded.mp hr).1

theorem Kept.entries_nodup (h : Kept config window page) : (window.reserved.map Prod.fst).Nodup := by
  rw [h.reserved_eq,map_map]
  exact h.nodup.sublist (List.filter_sublist.map _)

section Exact

variable [IsStrictOrderedRing K]

theorem Kept.refund (h : Kept config window page) {held : Uuid × PrivacyCost K} (hh : held ∈ window.reserved)
    (ho : held.1 ∉ window.committed) :
    Kept config { window with
      reserved := window.reserved.filter (fun other => other.1 ≠ held.1)
      rdpSpent := window.rdpSpent.subAssign held.2.rdp } (mark held.1 .refunded page) := by
  have hp := h.entries_proper held hh
  have hs : ∀ i, ((window.reserved.filter (fun other => other.1 ≠ held.1)).map (fun other => other.2.rdp.charged i)).sum +
      held.2.rdp.charged i = window.rdpSpent.charged i := by
    intro i
    rw [h.spent i]
    exact Reservation.sum_filter_add (fun other => other.2.rdp.charged i) hh h.entries_nodup
  have he : ∀ i, 0 ≤
      ((window.reserved.filter (fun other => other.1 ≠ held.1)).map (fun other => other.2.rdp.charged i)).sum := by
    intro i
    refine List.sum_nonneg (fun part ha => ?_)
    obtain ⟨other,ht,rfl⟩ := mem_map.mp ha
    exact (h.entries_proper other (List.mem_of_mem_filter ht)).charged_nonneg i
  -- so the clamp cuts nothing
  have hu : ∀ i, (window.rdpSpent.subAssign held.2.rdp).charged i = window.rdpSpent.charged i - held.2.rdp.charged i := by
    intro i
    refine RdpCharge.charged_subAssign h.spent_proper hp ?_
    have hi := hs i
    have hi' := he i
    linarith
  refine ⟨?_,?_,?_,?_,RdpCharge.subAssign_proper h.spent_proper hp,fun i => ?_,fun hne => ?_⟩
  · rw [Reservation.entries_mark_refunded,h.reserved_eq]
  · intro r hr
    obtain ⟨r₀,hr₀,⟨hd,rfl⟩ | ⟨hd,rfl⟩⟩ := mem_mark.mp hr
    · simp [hd,ho]
    · exact h.committed_iff r hr₀
  · rw [Reservation.map_id_mark]
    exact h.nodup
  · intro r hr
    obtain ⟨r₀,hr₀,hq⟩ := Reservation.exists_of_mem_mark hr
    have hc : r₀.cost = r.cost := congrArg Prod.snd hq
    exact hc ▸ h.costs_proper r₀ hr₀
  · rw [hu i,← hs i]
    exact add_sub_cancel_right _ _
  · have hg : page ≠ [] := fun hn => hne (by rw [hn]; rfl)
    refine le_trans ?_ (h.bound hg)
    refine RdpCharge.epsilonDelta_mono _ _ (RdpCharge.subAssign_proper h.spent_proper hp) h.spent_proper (fun i => ?_)
    rw [hu i]
    have hi := hp.charged_nonneg i
    linarith

theorem Kept.reserve (h : Kept config window page) {cost : PrivacyCost K} (hc : cost.rdp.Proper)
    (hf : ∀ r ∈ page, r.id ≠ id)
    (hb : projectedEpsilon config (window.rdpSpent.addAssign cost.rdp) ≤ config.maxEpsilonPerWindow)
    (hu : id ∉ window.committed) :
    Kept config { window with rdpSpent := window.rdpSpent.addAssign cost.rdp, reserved := window.reserved++[(id, cost)] }
      (page++[⟨id,cost, .held⟩]) := by
  refine ⟨?_,?_,?_,?_,RdpCharge.addAssign_proper h.spent_proper hc,fun i => ?_,fun _ => hb⟩
  · rw [Reservation.unrefunded_append,List.map_append,h.reserved_eq]
    rfl
  · intro r hr
    rcases mem_append.mp hr with hr | hr
    · exact h.committed_iff r hr
    · rw [mem_singleton.mp hr]
      simp [hu]
  · rw [List.map_append]
    refine List.Nodup.append h.nodup (List.nodup_singleton _) (fun other ho hn => ?_)
    obtain ⟨r,hr,rfl⟩ := mem_map.mp ho
    exact hf r hr (by simpa using hn)
  · intro r hr
    rcases mem_append.mp hr with hr | hr
    · exact h.costs_proper r hr
    · rw [mem_singleton.mp hr]
      exact hc
  · rw [RdpCharge.charged_addAssign h.spent_proper hc,h.spent i]
    simp

end Exact

end Windows

namespace InMemoryPrivacyBudgetLedger

variable {K : Type} [Field K] [LinearOrder K] (config : LedgerConfig K) (ledger : InMemoryPrivacyBudgetLedger K)

@[simp] theorem windowOf_setWindow (ag ag' : AgentId) (scope scope' : BudgetScope) (window : BudgetWindow K) :
    (ledger.setWindow config ag scope window).windowOf config ag' scope' =
      if ag' = ag ∧ scope' = scope then some window else ledger.windowOf config ag' scope' := by
  unfold windowOf setWindow
  rw [Std.ExtTreeMap.getElem?_insert]
  by_cases hs : ag' = ag ∧ scope' = scope
  · obtain ⟨rfl,rfl⟩ := hs
    simp
  · have hk : key config ag scope ≠ key config ag' scope' := by
      intro he
      obtain ⟨rfl,rfl⟩ := key_inj he
      exact hs ⟨rfl,rfl⟩
    simp [hs,hk]

theorem reserve_cases (ag : AgentId) (sc : BudgetScope) (cost : PrivacyCost K) (now : DateTime) :
    let window := ledger.currentWindow config ag sc now
    (∃ error, ledger.reserve config ag sc cost now = (.error error, ledger.setWindow config ag sc window)) ∨
    (projectedEpsilon config (window.rdpSpent.addAssign cost.rdp) ≤ config.maxEpsilonPerWindow ∧
      ledger.reserve config ag sc cost now = (.ok ⟨ledger.nextId,ag,sc,cost,now,none⟩,
        { ledger.setWindow config ag sc { window with
            rdpSpent := window.rdpSpent.addAssign cost.rdp
            reserved := window.reserved++[(ledger.nextId, cost)] } with nextId := ledger.nextId+1 })) := by
  intro window
  unfold reserve
  dsimp only
  split
  · exact .inl ⟨_,rfl⟩
  · rename_i hr
    exact .inr ⟨not_lt.mp (fun hl => hr (.inr hl)),rfl⟩

omit [Field K] [LinearOrder K] in
theorem commit_cases (receipt : PrivacyReceipt K) :
    (∃ error, ledger.commit config receipt = (.error error, ledger)) ∨
    ∃ window, ledger.windowOf config receipt.actor receipt.scope = some window ∧ receipt.id ∈ window.reserved.map Prod.fst ∧
      ledger.commit config receipt = (.ok (), ledger.setWindow config receipt.actor receipt.scope
        { window with committed := receipt.id :: window.committed }) := by
  unfold commit
  split
  · exact .inl ⟨_, rfl⟩
  · rename_i window hw
    split
    · exact .inl ⟨_, rfl⟩
    · rename_i hm
      exact .inr ⟨window, hw, not_not.mp hm, rfl⟩

theorem refund_cases (receipt : PrivacyReceipt K) :
    (¬ Audit.TakesBack config ledger receipt ∧ ledger.refund config receipt = (.ok (), ledger)) ∨
    ∃ window cost, ledger.windowOf config receipt.actor receipt.scope = some window ∧ receipt.id ∉ window.committed ∧
      (receipt.id, cost) ∈ window.reserved ∧
      ledger.refund config receipt = (.ok (), ledger.setWindow config receipt.actor receipt.scope
        { window with
          reserved := window.reserved.filter (fun other => other.1 ≠ receipt.id)
          rdpSpent := window.rdpSpent.subAssign cost.rdp }) := by
  unfold refund
  split
  · rename_i hw
    refine .inl ⟨?_,rfl⟩
    rintro ⟨window,hs,-⟩
    simp [hw] at hs
  · rename_i window hw
    split
    · rename_i hc
      refine .inl ⟨?_,rfl⟩
      rintro ⟨window',hs,hu,-⟩
      rw [hw] at hs
      exact hu (Option.some.inj hs ▸ hc)
    · rename_i hu
      split
      · rename_i hn
        refine .inl ⟨?_,rfl⟩
        rintro ⟨window',hs,-,hm⟩
        rw [hw] at hs
        rw [← Option.some.inj hs] at hm
        obtain ⟨held,hh,hi⟩ := mem_map.mp hm
        exact absurd hi (by simpa using List.find?_eq_none.mp hn held hh)
      · rename_i held hf
        have hi : held.1 = receipt.id := by simpa using List.find?_some hf
        exact .inr ⟨window,held.2,hw,hu,by simpa [← hi] using List.mem_of_find?_eq_some hf,rfl⟩

end InMemoryPrivacyBudgetLedger

namespace Audit

variable {K : Type} [Field K] [LinearOrder K] {config : LedgerConfig K} {audit : Audit K}

theorem step_ledger (op : InMemoryPrivacyBudgetLedger.Op K) :
    (audit.step config op).ledger = audit.ledger.step config op := by
  cases op with
  | reserve ag sc pol now => rfl
  | commit receipt =>
    simp only [step,InMemoryPrivacyBudgetLedger.step]
    rcases InMemoryPrivacyBudgetLedger.commit_cases config audit.ledger receipt with ⟨error,he⟩ | ⟨window,-,-,he⟩
    · rw [he]
    · rw [he]
  | refund receipt =>
    unfold step
    dsimp only
    split
    · rfl
    · rename_i hn
      rcases InMemoryPrivacyBudgetLedger.refund_cases config audit.ledger receipt with ⟨-,he⟩ | ⟨window,cost,
        hw,hu,hm,-⟩
      · simp only [InMemoryPrivacyBudgetLedger.step,he]
      · exact absurd ⟨window,hw,hu,mem_map_of_mem hm⟩ hn

structure Sound (config : LedgerConfig K) (audit : Audit K) : Prop where
  kept : ∀ actor scope window, audit.ledger.windowOf config actor scope = some window →
    Kept config window (audit.book actor scope)
  blank : ∀ actor scope, audit.ledger.windowOf config actor scope = none → audit.book actor scope = []
  book_below : ∀ actor scope, ∀ r ∈ audit.book actor scope, r.id < audit.ledger.nextId
  window_below : ∀ actor scope window, audit.ledger.windowOf config actor scope = some window →
    ∀ id ∈ window.committed, id < audit.ledger.nextId
  apart : ∀ actor scope actor' scope', ∀ r ∈ audit.book actor scope, ∀ r' ∈ audit.book actor' scope', r.id = r'.id →
    actor = actor' ∧ scope = scope'
  committed_below : ∀ id ∈ audit.committed, id < audit.ledger.nextId
  committed_standing : ∀ id ∈ audit.committed, ∀ actor scope, ∀ r ∈ audit.book actor scope, r.id = id →
    r.standing = .committed
  refunded_below : ∀ id ∈ audit.refunded, id < audit.ledger.nextId
  refunded_standing : ∀ id ∈ audit.refunded, ∀ actor scope, ∀ r ∈ audit.book actor scope, r.id = id → r.standing = .refunded

theorem sound_empty (cfg : LedgerConfig K) : Sound cfg (empty : Audit K) := by
  have hn : ∀ ag sc, (empty : Audit K).ledger.windowOf cfg ag sc = none := fun ag sc =>
    Std.ExtTreeMap.getElem?_empty
  refine ⟨?_,fun _ _ _ => rfl,by
    simp [empty],?_,by simp [empty],by simp [empty],by simp [empty],by simp [empty],by simp [empty]⟩
  · intro ag sc window h
    rw [hn] at h
    cases h
  · intro ag sc window h
    rw [hn] at h
    cases h

theorem Sound.set (h : Sound config audit) {ag : AgentId} {scope : BudgetScope} {window : BudgetWindow K}
    {page : List (Reservation K)} {nextId : Uuid} {committed refunded : List Uuid} (hk : Kept config window page)
    (hn : audit.ledger.nextId ≤ nextId) (hp : ∀ r ∈ page, r.id < nextId)
    (hwn : ∀ id ∈ window.committed, id < nextId)
    (hids : ∀ r ∈ page, (∃ r₀ ∈ audit.book ag scope, r₀.id = r.id) ∨ audit.ledger.nextId ≤ r.id)
    (hc : ∀ id ∈ committed, (id ∈ audit.committed ∨ ∃ r₀ ∈ audit.book ag scope, r₀.id = id) ∧
      ∀ r ∈ page, r.id = id → r.standing = .committed)
    (he : ∀ id ∈ refunded, (id ∈ audit.refunded ∨ ∃ r₀ ∈ audit.book ag scope, r₀.id = id) ∧
      ∀ r ∈ page, r.id = id → r.standing = .refunded) :
    Sound config ⟨{ audit.ledger.setWindow config ag scope window with nextId := nextId },
      audit.setPage ag scope page,committed,refunded⟩ := by
  have hw : ∀ ag' scope', InMemoryPrivacyBudgetLedger.windowOf config
      { audit.ledger.setWindow config ag scope window with nextId := nextId } ag' scope' =
        if ag' = ag ∧ scope' = scope then some window else audit.ledger.windowOf config ag' scope' :=
    fun ag' scope' => InMemoryPrivacyBudgetLedger.windowOf_setWindow config audit.ledger ag ag' scope scope' window
  have hb : ∀ {id : Uuid}, (∃ r₀ ∈ audit.book ag scope, r₀.id = id) → id < nextId := by
    rintro id ⟨r₀,hr₀,rfl⟩
    exact (h.book_below ag scope r₀ hr₀).trans_le hn
  have ht : ∀ {ag' scope'}, ¬ (ag' = ag ∧ scope' = scope) → ∀ r ∈ audit.book ag' scope',
      ¬ ∃ r₀ ∈ audit.book ag scope, r₀.id = r.id := by
    rintro ag' scope' hne r hr ⟨r₀,hr₀,hi⟩
    obtain ⟨rfl,rfl⟩ := h.apart ag scope ag' scope' r₀ hr₀ r hr hi
    exact hne ⟨rfl,rfl⟩
  have hcr : ∀ {ag' scope'}, ¬ (ag' = ag ∧ scope' = scope) →
      ∀ r ∈ page, ∀ r' ∈ audit.book ag' scope', r.id ≠ r'.id := by
    intro ag' scope' hne r hr r' hr' hi
    rcases hids r hr with ho | hnew
    · exact ht hne r' hr' (hi ▸ ho)
    · exact absurd (h.book_below ag' scope' r' hr') (by rw [← hi]; exact not_lt.mpr hnew)
  constructor
  · intro ag' scope' window' hm
    rw [hw] at hm
    show Kept config window' (audit.setPage ag scope page ag' scope')
    unfold setPage
    split_ifs at hm ⊢ with hs
    · exact Option.some.inj hm ▸ hk
    · exact h.kept ag' scope' window' hm
  · intro ag' scope' hno
    rw [hw] at hno
    show audit.setPage ag scope page ag' scope' = []
    unfold setPage
    split_ifs at hno ⊢ with hs
    exact h.blank ag' scope' hno
  · intro ag' scope' r hr
    unfold setPage at hr
    dsimp only at hr
    split_ifs at hr with hs
    · exact hp r hr
    · exact (h.book_below ag' scope' r hr).trans_le hn
  · intro ag' scope' window' hm id hi
    rw [hw] at hm
    split_ifs at hm with hs
    · exact hwn id (Option.some.inj hm ▸ hi)
    · exact (h.window_below ag' scope' window' hm id hi).trans_le hn
  · intro ag₁ scope₁ ag₂ scope₂ r₁ hr₁ r₂ hr₂ hi
    unfold setPage at hr₁ hr₂
    dsimp only at hr₁ hr₂
    split_ifs at hr₁ hr₂ with hs₁ hs₂ hs₂
    · exact ⟨hs₁.1.trans hs₂.1.symm,hs₁.2.trans hs₂.2.symm⟩
    · exact absurd hi (hcr hs₂ r₁ hr₁ r₂ hr₂)
    · exact absurd hi.symm (hcr hs₁ r₂ hr₂ r₁ hr₁)
    · exact h.apart ag₁ scope₁ ag₂ scope₂ r₁ hr₁ r₂ hr₂ hi
  · intro id hi
    rcases (hc id hi).1 with ho | ho
    · exact (h.committed_below id ho).trans_le hn
    · exact hb ho
  · intro id hi ag' scope' r hr hd
    unfold setPage at hr
    dsimp only at hr
    split_ifs at hr with hs
    · exact (hc id hi).2 r hr hd
    · rcases (hc id hi).1 with ho | ho
      · exact h.committed_standing id ho ag' scope' r hr hd
      · exact absurd (hd ▸ ho) (ht hs r hr)
  · intro id hi
    rcases (he id hi).1 with ho | ho
    · exact (h.refunded_below id ho).trans_le hn
    · exact hb ho
  · intro id hi ag' scope' r hr hd
    unfold setPage at hr
    dsimp only at hr
    split_ifs at hr with hs
    · exact (he id hi).2 r hr hd
    · rcases (he id hi).1 with ho | ho
      · exact h.refunded_standing id ho ag' scope' r hr hd
      · exact absurd (hd ▸ ho) (ht hs r hr)

theorem Sound.current (h : Sound config audit) (ag : AgentId) (scope : BudgetScope) (now : DateTime) :
    Kept config (audit.ledger.currentWindow config ag scope now) (audit.pageAt config ag scope now) ∧
      (∀ id ∈ (audit.ledger.currentWindow config ag scope now).committed, id < audit.ledger.nextId) ∧
      ∀ r ∈ audit.pageAt config ag scope now, r ∈ audit.book ag scope := by
  unfold InMemoryPrivacyBudgetLedger.currentWindow pageAt
  cases hw : audit.ledger.windowOf config ag scope with
  | none => exact ⟨kept_fresh config now,by simp [InMemoryPrivacyBudgetLedger.BudgetWindow.fresh],by simp⟩
  | some window =>
    dsimp only
    split
    · exact ⟨kept_fresh config now,by simp [InMemoryPrivacyBudgetLedger.BudgetWindow.fresh],by simp⟩
    · exact ⟨h.kept ag scope window hw,h.window_below ag scope window hw,fun r hr => hr⟩

theorem Sound.settle (h : Sound config audit) {ag : AgentId} {sc : BudgetScope}
    {window window' : BudgetWindow K} {id : Uuid} {standing : Standing}
    (hso : audit.ledger.windowOf config ag sc = some window)
    (hk : Kept config window' (Reservation.mark id standing (audit.book ag sc)))
    (hw : ∀ other ∈ window'.committed, other = id ∨ other ∈ window.committed) {r₁ : Reservation K}
    (hr₁ : r₁ ∈ audit.book ag sc) (hi₁ : r₁.id = id) (hh : standing = .committed ∨ r₁.standing ≠ .committed)
    (hp : r₁.standing ≠ .refunded) {committed refunded : List Uuid}
    (hc : ∀ other ∈ committed, (other = id ∧ standing = .committed) ∨ other ∈ audit.committed)
    (he : ∀ other ∈ refunded, (other = id ∧ standing = .refunded) ∨ other ∈ audit.refunded) :
    Sound config ⟨audit.ledger.setWindow config ag sc window',
      audit.setPage ag sc (Reservation.mark id standing (audit.book ag sc)),committed,refunded⟩ := by
  have hd : ∀ r ∈ Reservation.mark id standing (audit.book ag sc), ∃ r₀ ∈ audit.book ag sc, r₀.id = r.id := by
    intro r hr
    obtain ⟨r₀,hr₀,hq⟩ := Reservation.exists_of_mem_mark hr
    exact ⟨r₀,hr₀,congrArg Prod.fst hq⟩
  have ha : ∀ r₀ ∈ audit.book ag sc, r₀.id = id → r₀ = r₁ := fun r₀ hr₀ hi =>
    (h.kept ag sc window hso).eq_of_id hr₀ hr₁ (hi.trans hi₁.symm)
  refine h.set hk le_rfl ?_ ?_ (fun r hr => .inl (hd r hr)) ?_ ?_
  · intro r hr
    obtain ⟨r₀,hr₀,hi⟩ := hd r hr
    exact hi ▸ h.book_below ag sc r₀ hr₀
  · intro other ho
    rcases hw other ho with rfl | ho
    · exact hi₁ ▸ h.book_below ag sc r₁ hr₁
    · exact h.window_below ag sc window hso other ho
  · intro other ho
    rcases hc other ho with ⟨rfl,hs⟩ | ho
    · refine ⟨.inr ⟨r₁,hr₁,hi₁⟩,fun r hr hi => ?_⟩
      obtain ⟨r₀,hr₀,⟨-,rfl⟩ | ⟨hn,rfl⟩⟩ := Reservation.mem_mark.mp hr
      · exact hs
      · exact absurd hi hn
    · refine ⟨.inl ho,fun r hr hi => ?_⟩
      obtain ⟨r₀,hr₀,⟨hm,rfl⟩ | ⟨hn,rfl⟩⟩ := Reservation.mem_mark.mp hr
      · have hl := h.committed_standing other ho ag sc r₀ hr₀ hi
        rcases hh with hh | hh
        · exact hh
        · exact absurd (ha r₀ hr₀ hm ▸ hl) hh
      · exact h.committed_standing other ho ag sc r hr₀ hi
  · intro other ho
    rcases he other ho with ⟨rfl,hs⟩ | ho
    · refine ⟨.inr ⟨r₁,hr₁,hi₁⟩,fun r hr hi => ?_⟩
      obtain ⟨r₀,hr₀,⟨-,rfl⟩ | ⟨hn,rfl⟩⟩ := Reservation.mem_mark.mp hr
      · exact hs
      · exact absurd hi hn
    · refine ⟨.inl ho,fun r hr hi => ?_⟩
      obtain ⟨r₀,hr₀,⟨hm,rfl⟩ | ⟨hn,rfl⟩⟩ := Reservation.mem_mark.mp hr
      · have hl := h.refunded_standing other ho ag sc r₀ hr₀ hi
        exact absurd (ha r₀ hr₀ hm ▸ hl) hp
      · exact h.refunded_standing other ho ag sc r hr₀ hi

theorem Sound.commit (h : Sound config audit) (receipt : PrivacyReceipt K) :
    Sound config (audit.step config (.commit receipt)) := by
  simp only [step,InMemoryPrivacyBudgetLedger.step]
  rcases InMemoryPrivacyBudgetLedger.commit_cases config audit.ledger receipt with ⟨error,he⟩ | ⟨window,hs,hm,he⟩
  · rw [he]
    exact h
  · rw [he]
    have hk := h.kept receipt.actor receipt.scope window hs
    obtain ⟨r₁,hr₁,hi₁,hp⟩ := hk.of_mem_reserved hm
    refine h.settle hs (hk.commit hm) (fun other ho => mem_cons.mp ho) hr₁ hi₁ (.inl rfl) hp ?_
      (fun other ho => .inr ho)
    intro other ho
    rcases mem_cons.mp ho with rfl | ho
    · exact .inl ⟨rfl,rfl⟩
    · exact .inr ho

theorem Sound.held_of_takesBack (h : Sound config audit) {receipt : PrivacyReceipt K}
    (ht : TakesBack config audit.ledger receipt) :
    ∃ r ∈ audit.book receipt.actor receipt.scope, r.id = receipt.id ∧ r.standing ≠ .committed ∧ r.standing ≠ .refunded := by
  obtain ⟨window,hs,hu,hm⟩ := ht
  have hk := h.kept receipt.actor receipt.scope window hs
  obtain ⟨r,hr,hi,ho⟩ := hk.of_mem_reserved hm
  exact ⟨r,hr,hi,fun ha => hu (hi ▸ (hk.committed_iff r hr).mp ha),ho⟩

section Exact

variable [IsStrictOrderedRing K]

theorem Sound.reserve (h : Sound config audit) (ag : AgentId) (sc : BudgetScope)
    (pol : DpPolicy K) (now : DateTime) :
    Sound config (audit.step config (.reserve ag sc pol now)) := by
  obtain ⟨hk,hc,hp⟩ := h.current ag sc now
  have ho : ∀ r ∈ audit.pageAt config ag sc now, (∃ r₀ ∈ audit.book ag sc, r₀.id = r.id) ∨
      audit.ledger.nextId ≤ r.id :=
    fun r hr => .inl ⟨r,hp r hr,rfl⟩
  have hs := RdpCharge.forQuery_proper config.floats pol
  simp only [step,InMemoryPrivacyBudgetLedger.step]
  rcases InMemoryPrivacyBudgetLedger.reserve_cases config audit.ledger ag sc
    (PrivacyCost.forQuery config.floats pol) now with ⟨error,he⟩ | ⟨hb,he⟩
  · rw [he,List.append_nil]
    refine h.set hk le_rfl (fun r hr => h.book_below ag sc r (hp r hr)) hc ho ?_ ?_
    · exact fun id hi => ⟨.inl hi,fun r hr => h.committed_standing id hi ag sc r (hp r hr)⟩
    · exact fun id hi => ⟨.inl hi,fun r hr => h.refunded_standing id hi ag sc r (hp r hr)⟩
  · rw [he]
    have hf : ∀ r ∈ audit.pageAt config ag sc now, r.id ≠ audit.ledger.nextId :=
      fun r hr => (h.book_below ag sc r (hp r hr)).ne
    have hn : audit.ledger.nextId ∉ (audit.ledger.currentWindow config ag sc now).committed :=
      fun hm => lt_irrefl _ (hc _ hm)
    refine h.set (hk.reserve hs hf hb hn) (Nat.le_succ _) ?_
      (fun id hi => (hc id hi).trans_le (Nat.le_succ _))
      ?_ ?_ ?_
    · intro r hr
      rcases mem_append.mp hr with hr | hr
      · exact (h.book_below ag sc r (hp r hr)).trans_le (Nat.le_succ _)
      · rw [mem_singleton.mp hr]
        exact Nat.lt_succ_self _
    · intro r hr
      rcases mem_append.mp hr with hr | hr
      · exact ho r hr
      · exact .inr (by rw [mem_singleton.mp hr])
    · refine fun id hi => ⟨.inl hi,fun r hr hd => ?_⟩
      rcases mem_append.mp hr with hr | hr
      · exact h.committed_standing id hi ag sc r (hp r hr) hd
      · rw [mem_singleton.mp hr] at hd
        exact absurd (h.committed_below id hi) (by rw [← hd]; exact lt_irrefl _)
    · refine fun id hi => ⟨.inl hi,fun r hr hd => ?_⟩
      rcases mem_append.mp hr with hr | hr
      · exact h.refunded_standing id hi ag sc r (hp r hr) hd
      · rw [mem_singleton.mp hr] at hd
        exact absurd (h.refunded_below id hi) (by rw [← hd]; exact lt_irrefl _)

theorem Sound.refund (h : Sound config audit) (receipt : PrivacyReceipt K) :
    Sound config (audit.step config (.refund receipt)) := by
  simp only [step,InMemoryPrivacyBudgetLedger.step]
  split
  · rename_i ht
    obtain ⟨r₁,hr₁,hi₁,hh,hp⟩ := h.held_of_takesBack ht
    rcases InMemoryPrivacyBudgetLedger.refund_cases config audit.ledger receipt with ⟨hn,-⟩ | ⟨window,cost,hs,
      hu,hm,he⟩
    · exact absurd ht hn
    · rw [he]
      refine h.settle hs ((h.kept _ _ window hs).refund hm hu) (fun other ho => .inr ho) hr₁ hi₁
        (.inr hh) hp (fun other ho => .inr ho) ?_
      intro other ho
      rcases mem_cons.mp ho with rfl | ho
      · exact .inl ⟨rfl,rfl⟩
      · exact .inr ho
  · exact h

theorem Sound.step (h : Sound config audit) (op : InMemoryPrivacyBudgetLedger.Op K) :
    Sound config (audit.step config op) := by
  cases op with
  | reserve ag sc pol now => exact h.reserve ag sc pol now
  | commit receipt => exact h.commit receipt
  | refund receipt => exact h.refund receipt

end Exact

end Audit

def InMemoryPrivacyBudgetLedger.Op.owner {K : Type} : InMemoryPrivacyBudgetLedger.Op K → AgentId × BudgetScope
  | .reserve actor scope _ _ => (actor, scope)
  | .commit receipt => (receipt.actor, receipt.scope)
  | .refund receipt => (receipt.actor, receipt.scope)

namespace Audit

variable {K : Type} [Field K] [LinearOrder K] {config : LedgerConfig K} {audit : Audit K}

theorem windowOf_step (ledger : InMemoryPrivacyBudgetLedger K) {op : InMemoryPrivacyBudgetLedger.Op K} {ag : AgentId}
    {scope : BudgetScope} (h : op.owner ≠ (ag, scope)) :
    (ledger.step config op).windowOf config ag scope = ledger.windowOf config ag scope := by
  have ho : ∀ {ag' scope'}, (ag', scope') ≠ (ag, scope) → ¬ (ag = ag' ∧ scope = scope') := by
    rintro ag' scope' hn ⟨rfl,rfl⟩
    exact hn rfl
  have hs : ∀ {ag' scope'} (window : BudgetWindow K), (ag', scope') ≠ (ag, scope) →
      (ledger.setWindow config ag' scope' window).windowOf config ag scope = ledger.windowOf config ag scope := by
    intro ag' scope' window hn
    rw [InMemoryPrivacyBudgetLedger.windowOf_setWindow,if_neg (ho hn)]
  cases op with
  | reserve ag' scope' pol now =>
    simp only [InMemoryPrivacyBudgetLedger.step]
    rcases InMemoryPrivacyBudgetLedger.reserve_cases config ledger ag' scope'
      (PrivacyCost.forQuery config.floats pol) now with ⟨error,he⟩ | ⟨-,he⟩
    · rw [he]
      exact hs _ h
    · rw [he]
      exact hs _ h
  | commit receipt =>
    simp only [InMemoryPrivacyBudgetLedger.step]
    rcases InMemoryPrivacyBudgetLedger.commit_cases config ledger receipt with ⟨error,he⟩ | ⟨window,-,-,he⟩
    · rw [he]
    · rw [he]
      exact hs _ h
  | refund receipt =>
    simp only [InMemoryPrivacyBudgetLedger.step]
    rcases InMemoryPrivacyBudgetLedger.refund_cases config ledger receipt with ⟨-,he⟩ | ⟨window,cost,-,-,-,he⟩
    · rw [he]
    · rw [he]
      exact hs _ h

structure Accounted (config : LedgerConfig K) (audit : Audit K) : Prop where
  orders : ∀ actor scope window, audit.ledger.windowOf config actor scope = some window → window.rdpSpent.Proper
  spent : ∀ actor scope window, audit.ledger.windowOf config actor scope = some window → ∀ i,
    window.rdpSpent.charged i = ((Reservation.unrefunded (audit.book actor scope)).map (fun r => r.cost.rdp.charged i)).sum
  bound : ∀ actor scope window, audit.ledger.windowOf config actor scope = some window → audit.book actor scope ≠ [] →
    projectedEpsilon config window.rdpSpent ≤ config.maxEpsilonPerWindow
  once : ∀ receipt, TakesBack config audit.ledger receipt → receipt.id ∉ audit.refunded ∧ receipt.id ∉ audit.committed
  idle : ∀ receipt, ¬ TakesBack config audit.ledger receipt → (audit.ledger.refund config receipt).2 = audit.ledger
  frame : ∀ op actor scope, InMemoryPrivacyBudgetLedger.Op.owner op ≠ (actor, scope) →
    (audit.ledger.step config op).windowOf config actor scope = audit.ledger.windowOf config actor scope

theorem Sound.accounted (h : Sound config audit) : Accounted config audit := by
  refine ⟨fun ag sc window hs => (h.kept ag sc window hs).spent_proper,
    fun ag sc window hs i => ?_,fun ag sc window hs =>
      (h.kept ag sc window hs).bound,fun receipt ht => ?_,fun receipt hn => ?_,
    fun op ag sc => windowOf_step audit.ledger⟩
  · have hk := h.kept ag sc window hs
    rw [hk.spent i,hk.reserved_eq,map_map]
    rfl
  · obtain ⟨r,hr,hi,hh,ho⟩ := h.held_of_takesBack ht
    refine ⟨fun hm => ho ?_,fun hm => hh ?_⟩
    · exact h.refunded_standing receipt.id hm _ _ r hr hi
    · exact h.committed_standing receipt.id hm _ _ r hr hi
  · rcases InMemoryPrivacyBudgetLedger.refund_cases config audit.ledger receipt with ⟨-,he⟩ | ⟨window,cost,hs,
      hu,hm,-⟩
    · rw [he]
    · exact absurd ⟨window,hs,hu,mem_map_of_mem hm⟩ hn

theorem run_ledger (cfg : LedgerConfig K) (ops : List (InMemoryPrivacyBudgetLedger.Op K)) :
    (StateMachine.run (step cfg) empty ops).ledger =
      StateMachine.run (InMemoryPrivacyBudgetLedger.step cfg) .empty ops := by
  have hl : ∀ audit : Audit K, (StateMachine.run (step cfg) audit ops).ledger =
      StateMachine.run (InMemoryPrivacyBudgetLedger.step cfg) audit.ledger ops := by
    induction ops with
    | nil => exact fun audit => rfl
    | cons op ops ih =>
      intro audit
      rw [StateMachine.run_cons,StateMachine.run_cons,ih,step_ledger]
  exact hl empty

theorem sound_run [IsStrictOrderedRing K] (cfg : LedgerConfig K) (ops : List (InMemoryPrivacyBudgetLedger.Op K)) :
    Sound cfg (StateMachine.run (step cfg) empty ops) := by
  have hs : ∀ audit : Audit K, ∀ op, Sound cfg audit → Sound cfg (audit.step cfg op) :=
    fun audit op h => h.step op
  exact StateMachine.run_preserves hs (sound_empty cfg) ops

/-- In every run of the ledger the balance holds: each window has spent what its reservations cost that were not
refunded, within its bound, and no reservation is refunded again or after its commit. -/
theorem run_accounted [IsStrictOrderedRing K] (config : LedgerConfig K) (ops : List (InMemoryPrivacyBudgetLedger.Op K)) :
    (StateMachine.run (step config) empty ops).ledger =
        StateMachine.run (InMemoryPrivacyBudgetLedger.step config) .empty ops ∧
      Accounted config (StateMachine.run (step config) empty ops) :=
  ⟨run_ledger config ops, (sound_run config ops).accounted⟩

def sampleConfig : LedgerConfig ℚ := ⟨16, 1 / 10 ^ 6, 86400, ⟨fun _ => 14, id, fun _ => "14.0000"⟩, fun _ => false⟩

def samplePolicy : DpPolicy ℚ := ⟨true, 1, 1 / 2, 1 / 10, 1 / 10 ^ 6, 1, 128, 3⟩

def sampleReceipt (id : Uuid) : PrivacyReceipt ℚ :=
  ⟨id, "agent", .query, .forQuery sampleConfig.floats samplePolicy, 0, none⟩

def sampleOps : List (InMemoryPrivacyBudgetLedger.Op ℚ) :=
  [.reserve "agent" .query samplePolicy 0, .reserve "agent" .query samplePolicy 1, .commit (sampleReceipt 1),
    .refund (sampleReceipt 0), .refund (sampleReceipt 1)]

theorem run_accounted_sample : (StateMachine.run (step sampleConfig) empty sampleOps).refunded = [0] ∧
    (StateMachine.run (step sampleConfig) empty sampleOps).committed = [1] ∧
    Accounted sampleConfig (StateMachine.run (step sampleConfig) empty sampleOps) :=
  ⟨by decide +kernel, by decide +kernel, (run_accounted sampleConfig sampleOps).2⟩

end Audit

end UwuContextDb.Network
