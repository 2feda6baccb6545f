import UwuContextDb.Facade.Model
import UwuContextDb.Version.SqliteRewrite

/-! Which tenant a conflict session belongs to: the table of bindings, the order they were made in, and the calls that
bind, ask and forget. -/

namespace UwuContextDb.Facade

open StateMachine
open Version (ConflictSession CommitId)

def maxConflictSessionBindings : ℕ := 4096

structure ConflictSessionBindings where
  tenants : List (Uuid × String × ℕ)
  insertionOrder : List Uuid
  deriving DecidableEq

namespace ConflictSessionBindings

def empty : ConflictSessionBindings := ⟨[], []⟩

def contains (tenants : List (Uuid × String × ℕ)) (id : Uuid) : Bool := tenants.any (fun e => e.1 = id)

def remove (tenants : List (Uuid × String × ℕ)) (id : Uuid) : List (Uuid × String × ℕ) := tenants.filter (fun e => e.1 ≠ id)

def unexpired (ttl now : ℕ) (e : Uuid × String × ℕ) : Bool := now - e.2.2 ≤ ttl

/-- What `bind` does before its loop. -/
def record (ttl : ℕ) (b : ConflictSessionBindings) (id : Uuid) (tenant : String) (now : ℕ) : ConflictSessionBindings :=
  let order := if contains b.tenants id then b.insertionOrder else b.insertionOrder ++ [id]
  let live := b.tenants.filter (unexpired ttl now)
  ⟨remove live id ++ [(id, tenant, now)], order.filter (contains live)⟩

/-- The body of the loop of `bind`. -/
def evictOldest (b : ConflictSessionBindings) : ConflictSessionBindings :=
  match b.insertionOrder with
  | [] => b
  | id::order => ⟨remove b.tenants id, order⟩

/-- The loop of `bind`, with the number of times its condition is evaluated; `none` where that is not enough. -/
def evict : ℕ → ConflictSessionBindings → Option ConflictSessionBindings
  | 0, _ => none
  | fuel + 1, b => if maxConflictSessionBindings < b.tenants.length then evict fuel b.evictOldest else some b

def forget (b : ConflictSessionBindings) (id : Uuid) : ConflictSessionBindings := { b with tenants := remove b.tenants id }

end ConflictSessionBindings

open ConflictSessionBindings

/-- A call of `InteractiveVersions` with what the version store behind it gives. -/
inductive SessionCall
  | begin_ (scope : ContextUri) (outcome : Except FacadeError ConflictSession)
  | load (outcome : Except FacadeError ConflictSession)
  | continue_ (session : ConflictSession) (outcome : Except FacadeError (List CommitId))
  | continueById (id : Uuid) (outcome : Except FacadeError (List CommitId))
  | abort (id : Uuid) (outcome : Except FacadeError Unit)

inductive SessionReply
  | session (session : ConflictSession)
  | commits (commits : List CommitId)
  | aborted

/-- A call by a tenant, with what is left of its time each time this is asked, and the reading of the clock. -/
structure SessionRequest where
  ctx : RequestContext
  remaining : ℕ → Except FacadeError Unit
  now : ℕ
  call : SessionCall

namespace SessionRequest

variable (ttl fuel : ℕ) (r : SessionRequest)

/-- `validate_uri`, the time asked for the `k`-th time. -/
def validate (k : ℕ) (uri : ContextUri) : Except FacadeError Unit :=
  validateUri r.ctx ⟨r.remaining k, .ok (), .ok (), 0⟩ uri

/-- The checks of `bind`: of the scope and of every conflict. -/
def validateSession (session : ConflictSession) : Except FacadeError Unit := do
  r.validate 1 session.scope
  (session.conflicts.zipIdx 2).forM (fun conflict => r.validate conflict.2 conflict.1.uri)

def bind (session : ConflictSession) (b : ConflictSessionBindings) :
    Option (Except FacadeError SessionReply × ConflictSessionBindings) :=
  match r.validateSession session with
  | .error e => some (.error e, b)
  | .ok () => (evict fuel (b.record ttl session.id r.ctx.tenantName r.now)).map (fun b => (.ok (.session session), b))

def owns (ctx : RequestContext) (now : ℕ) (b : ConflictSessionBindings) (id : Uuid) : Except FacadeError Unit :=
  match b.tenants.find? (fun e => e.1 = id) with
  | some (_, tenant, seen) =>
    if tenant = ctx.tenantName ∧ now - seen ≤ ttl then .ok () else .error (.tenantViolation "unbound conflict session")
  | none => .error (.tenantViolation "unbound conflict session")

def withOwned {α : Type} (id : Uuid) (outcome : Except FacadeError α) (reply : α → SessionReply)
    (b : ConflictSessionBindings) :
    Option (Except FacadeError SessionReply × ConflictSessionBindings) :=
  match owns ttl r.ctx r.now b id with
  | .error e => some (.error e, b)
  | .ok () => some (outcome.map reply, if isOk outcome then b.forget id else b)

def exec (b : ConflictSessionBindings) : Option (Except FacadeError SessionReply × ConflictSessionBindings) :=
  match r.call with
  | .begin_ scope outcome =>
    match r.validate 0 scope, outcome with
    | .error e, _ => some (.error e, b)
    | .ok (), .error e => some (.error e, b)
    | .ok (), .ok session => r.bind ttl fuel session b
  | .load outcome =>
    match outcome with
    | .error e => some (.error e, b)
    | .ok session => r.bind ttl fuel session b
  | .continue_ session outcome =>
    match r.validate 0 session.scope with
    | .error e => some (.error e, b)
    | .ok () => r.withOwned ttl session.id outcome .commits b
  | .continueById id outcome => r.withOwned ttl id outcome .commits b
  | .abort id outcome => r.withOwned ttl id outcome (fun _ => .aborted) b

def binding : Option Uuid :=
  match r.call with
  | .begin_ scope (.ok session) =>
    if isOk (r.validate 0 scope) && isOk (r.validateSession session) then some session.id else none
  | .load (.ok session) => if isOk (r.validateSession session) then some session.id else none
  | _ => none

end SessionRequest

/-- One call after the other; `none` where a loop has not come to its end. -/
def runRequests (ttl fuel : ℕ) (b : ConflictSessionBindings) (rs : List SessionRequest) : Option ConflictSessionBindings :=
  rs.foldlM (fun b r => (r.exec ttl fuel b).map Prod.snd) b

variable {b b' : ConflictSessionBindings}

namespace ConflictSessionBindings

variable {ttl now fuel : ℕ} {id : Uuid} {tenant : String}

@[simp] theorem mem_remove {tenants : List (Uuid × String × ℕ)} {e : Uuid × String × ℕ} :
    e ∈ remove tenants id ↔ e ∈ tenants ∧ e.1 ≠ id := by
  simp [remove]

theorem contains_iff {tenants : List (Uuid × String × ℕ)} : contains tenants id = true ↔ ∃ e ∈ tenants, e.1 = id := by
  simp [contains]

/-- A queue that is empty stays so: an id that is pushed is not bound yet, so the sweep that follows takes it out again. -/
theorem record_order (h : b.insertionOrder = []) : (b.record ttl id tenant now).insertionOrder = [] := by
  unfold record
  dsimp only
  rw [h]
  by_cases hb : contains b.tenants id = true
  · rw [if_pos hb]
    rfl
  · rw [if_neg hb,List.nil_append,List.filter_cons_of_neg ?_,List.filter_nil]
    intro hl
    obtain ⟨e,he,hq⟩ := contains_iff.mp hl
    exact hb (contains_iff.mpr ⟨e,List.mem_of_mem_filter he,hq⟩)

def others (ttl : ℕ) (b : ConflictSessionBindings) (id : Uuid) (now : ℕ) : List (Uuid × String × ℕ) :=
  remove (b.tenants.filter (unexpired ttl now)) id

@[simp] theorem record_tenants : (b.record ttl id tenant now).tenants = b.others ttl id now ++ [(id, tenant, now)] := rfl

theorem evict_eq_some (h : b.insertionOrder = []) :
    evict fuel b = some b' ↔ fuel ≠ 0 ∧ b.tenants.length ≤ maxConflictSessionBindings ∧ b' = b := by
  induction fuel with
  | zero => simp [evict]
  | succ fuel ih =>
    unfold evict
    split
    · rename_i hc
      have hs : b.evictOldest = b := by
        unfold evictOldest
        rw [h]
      rw [hs,ih]
      omega
    · rename_i hr
      rw [Option.some.injEq]
      constructor
      · rintro rfl
        exact ⟨by omega,by omega,rfl⟩
      · exact fun hb => hb.2.2.symm

end ConflictSessionBindings

namespace SessionRequest

variable {ttl fuel : ℕ} {r : SessionRequest}

theorem withOwned_cases {α : Type} (id : Uuid) (out : Except FacadeError α) (reply : α → SessionReply) :
    ∃ b', (∀ _fuel : ℕ, (r.withOwned ttl id out reply b).map Prod.snd = some b') ∧
    (b' = b ∨ ∃ id, b' = b.forget id) := by
  unfold withOwned
  split
  · exact ⟨b,fun _ => rfl, .inl rfl⟩
  · split
    · exact ⟨b.forget id,fun _ => rfl, .inr ⟨id,rfl⟩⟩
    · exact ⟨b,fun _ => rfl, .inl rfl⟩

theorem bind_cases (ses : ConflictSession) :
    (r.bind ttl fuel ses b).map Prod.snd = if isOk (r.validateSession ses)
      then evict fuel (b.record ttl ses.id r.ctx.tenantName r.now) else some b := by
  unfold bind
  cases hv : r.validateSession ses with
  | error e => rfl
  | ok =>
    show Option.map Prod.snd (Option.map _ (evict fuel _)) = evict fuel _
    cases evict fuel (b.record ttl ses.id r.ctx.tenantName r.now) <;> rfl

theorem exec_cases (ttl : ℕ) (r : SessionRequest) (b : ConflictSessionBindings) :
    (∃ id, r.binding = some id ∧
      ∀ fuel, (r.exec ttl fuel b).map Prod.snd = evict fuel (b.record ttl id r.ctx.tenantName r.now)) ∨
    (r.binding = none ∧ ∃ b', (∀ fuel, (r.exec ttl fuel b).map Prod.snd = some b') ∧
      (b' = b ∨ ∃ id, b' = b.forget id)) := by
  unfold exec binding
  cases r.call with
  | begin_ sc out =>
    cases out with
    | error e =>
      dsimp only
      cases r.validate 0 sc <;> exact .inr ⟨rfl,b,fun _ => rfl, .inl rfl⟩
    | ok ses =>
      dsimp only
      cases r.validate 0 sc with
      | error e => exact .inr ⟨rfl,b,fun _ => rfl, .inl rfl⟩
      | ok =>
        cases hv : isOk (r.validateSession ses) with
        | true => exact .inl ⟨ses.id,rfl,fun _ => (bind_cases ses).trans (if_pos hv)⟩
        | false => exact .inr ⟨rfl,b,fun _ => (bind_cases ses).trans (if_neg (by simp [hv])), .inl rfl⟩
  | load out =>
    cases out with
    | error e => exact .inr ⟨rfl,b,fun _ => rfl, .inl rfl⟩
    | ok ses =>
      dsimp only
      cases hv : isOk (r.validateSession ses) with
      | true => exact .inl ⟨ses.id,rfl,fun _ => (bind_cases ses).trans (if_pos hv)⟩
      | false => exact .inr ⟨rfl,b,fun _ => (bind_cases ses).trans (if_neg (by simp [hv])), .inl rfl⟩
  | continue_ ses out =>
    dsimp only
    cases r.validate 0 ses.scope with
    | error e => exact .inr ⟨rfl,b,fun _ => rfl, .inl rfl⟩
    | ok => exact .inr ⟨rfl,withOwned_cases _ _ _⟩
  | continueById id out => exact .inr ⟨rfl,withOwned_cases _ _ _⟩
  | abort id out => exact .inr ⟨rfl,withOwned_cases _ _ _⟩

end SessionRequest

section Runs

variable {ttl fuel : ℕ} {r : SessionRequest} {rs : List SessionRequest}

def settle (ttl : ℕ) (b : ConflictSessionBindings) (r : SessionRequest) : ConflictSessionBindings :=
  match r.binding with
  | some id => b.record ttl id r.ctx.tenantName r.now
  | none => ((r.exec ttl 0 b).map Prod.snd).getD b

theorem settle_some {id : Uuid} (h : r.binding = some id) : settle ttl b r = b.record ttl id r.ctx.tenantName r.now := by
  rw [settle,h]

theorem settle_none (h : r.binding = none) : (∀ fuel, (r.exec ttl fuel b).map Prod.snd = some (settle ttl b r)) ∧
    (settle ttl b r = b ∨ ∃ id, settle ttl b r = b.forget id) := by
  rcases r.exec_cases ttl b with ⟨id,hi,-⟩ | ⟨-,b',he,hb'⟩
  · rw [hi] at h
    cases h
  · have hs : settle ttl b r = b' := by
      rw [settle,h,he 0]
      rfl
    rw [hs]
    exact ⟨he,hb'⟩

structure Unqueued (b : ConflictSessionBindings) : Prop where
  order : b.insertionOrder = []
  distinct : (b.tenants.map Prod.fst).Nodup

theorem Unqueued.settle (h : Unqueued b) : Unqueued (settle ttl b r) := by
  have hr : ∀ id, ((remove b.tenants id).map Prod.fst).Nodup := fun id =>
    h.distinct.sublist (List.filter_sublist.map _)
  cases hb : r.binding with
  | some id =>
    rw [settle_some hb]
    refine ⟨record_order h.order,?_⟩
    rw [record_tenants,List.map_append,List.map_singleton]
    refine List.nodup_append.mpr ⟨h.distinct.sublist ((List.filter_sublist.trans List.filter_sublist).map _),by simp,?_⟩
    intro key hk key' hk' hq
    obtain ⟨e,he,rfl⟩ := List.mem_map.mp hk
    rw [List.mem_singleton] at hk'
    exact (mem_remove.mp he).2 (hq.trans hk')
  | none =>
    rcases (settle_none hb).2 with hs | ⟨id,hf⟩
    · rw [hs]
      exact h
    · rw [hf]
      exact ⟨h.order,hr id⟩

theorem exec_eq_some (h : Unqueued b) : (r.exec ttl fuel b).map Prod.snd = some b' ↔
    b' = settle ttl b r ∧ (r.binding ≠ none → fuel ≠ 0 ∧ (settle ttl b r).tenants.length ≤ maxConflictSessionBindings) := by
  cases hb : r.binding with
  | none =>
    rw [(settle_none hb).1 fuel,Option.some.injEq]
    simp [eq_comm]
  | some id =>
    rcases r.exec_cases ttl b with ⟨id',hi',he⟩ | ⟨hn,-⟩
    · obtain rfl := Option.some.inj (hb.symm.trans hi')
      rw [he,evict_eq_some (record_order h.order),settle_some hb]
      constructor
      · rintro ⟨hf,hl,rfl⟩
        exact ⟨rfl,fun _ => ⟨hf,hl⟩⟩
      · rintro ⟨rfl,hl⟩
        exact ⟨(hl (by simp)).1,(hl (by simp)).2,rfl⟩
    · rw [hn] at hb
      cases hb

theorem runRequests_eq_some (h : Unqueued b) : runRequests ttl fuel b rs = some b' ↔ b' = run (settle ttl) b rs ∧
    Meets (settle ttl) (fun b r => r.binding ≠ none →
      fuel ≠ 0 ∧ (settle ttl b r).tenants.length ≤ maxConflictSessionBindings) b rs := by
  induction rs generalizing b with
  | nil => simp [runRequests,Meets,eq_comm]
  | cons r rs ih =>
    unfold runRequests at ih ⊢
    rw [List.foldlM_cons]
    show Option.bind _ _ = some b' ↔ _
    rw [Option.bind_eq_some_iff]
    constructor
    · rintro ⟨next,hn,hr⟩
      obtain ⟨rfl,ho⟩ := (exec_eq_some h).mp hn
      obtain ⟨rfl,hm⟩ := (ih h.settle).mp hr
      exact ⟨rfl,ho,hm⟩
    · rintro ⟨rfl,ho,hm⟩
      exact ⟨_,(exec_eq_some h).mpr ⟨rfl,ho⟩,(ih h.settle).mpr ⟨rfl,hm⟩⟩

theorem unqueued_empty : Unqueued empty := ⟨rfl,List.nodup_nil⟩

def Reaches (ttl : ℕ) (rs : List SessionRequest) (b : ConflictSessionBindings) : Prop :=
  ∃ fuel, runRequests ttl fuel empty rs = some b

theorem reaches_iff : Reaches ttl rs b ↔ b = run (settle ttl) empty rs ∧ Meets (settle ttl)
    (fun b r => r.binding ≠ none → (settle ttl b r).tenants.length ≤ maxConflictSessionBindings) empty rs := by
  constructor
  · rintro ⟨fuel,hr⟩
    obtain ⟨hb,hm⟩ := (runRequests_eq_some unqueued_empty).mp hr
    refine ⟨hb,meets_iff_front.mpr (fun front r hp hi => ?_)⟩
    exact (meets_iff_front.mp hm front r hp hi).2
  · rintro ⟨hb,hm⟩
    refine ⟨1,(runRequests_eq_some unqueued_empty).mpr ⟨hb,meets_iff_front.mpr (fun front r hp hi => ?_)⟩⟩
    exact ⟨one_ne_zero,meets_iff_front.mp hm front r hp hi⟩

def BoundBy (ttl : ℕ) (rs : List SessionRequest) (tenant : String) (id : Uuid) (now : ℕ) : Prop :=
  ∃ before r after, rs = before ++ r::after ∧ r.binding = some id ∧ r.ctx.tenantName = tenant ∧ now - r.now ≤ ttl ∧
    ∀ r' ∈ after, r'.binding ≠ some id

theorem bound_of_mem {e : Uuid × String × ℕ} (h : e ∈ (run (settle ttl) empty rs).tenants) :
    ∃ before r after, rs = before ++ r::after ∧ r.binding = some e.1 ∧ r.ctx.tenantName = e.2.1 ∧ r.now = e.2.2 ∧
      ∀ r' ∈ after, r'.binding ≠ some e.1 := by
  induction rs using List.reverseRecOn with
  | nil => cases h
  | append_singleton rs r ih =>
    have hl : e ∈ (run (settle ttl) empty rs).tenants → r.binding ≠ some e.1 →
        ∃ before r' after, rs ++ [r] = before ++ r'::after ∧
        r'.binding = some e.1 ∧ r'.ctx.tenantName = e.2.1 ∧ r'.now = e.2.2 ∧ ∀ r'' ∈ after, r''.binding ≠ some e.1 := by
      intro hm ho
      obtain ⟨before,r',after,rfl,hi,ht,hn,ha⟩ := ih hm
      refine ⟨before,r',after++[r],by simp,hi,ht,hn,?_⟩
      rw [List.forall_mem_append]
      exact ⟨ha,by simpa using ho⟩
    rw [run_append] at h
    change e ∈ (settle ttl (run (settle ttl) empty rs) r).tenants at h
    cases hb : r.binding with
    | some id =>
      rw [settle_some hb,record_tenants,List.mem_append,List.mem_singleton] at h
      rcases h with ho | rfl
      · obtain ⟨hm,he⟩ := mem_remove.mp ho
        refine hl (List.mem_of_mem_filter hm) ?_
        rw [hb,ne_eq,Option.some.injEq]
        exact fun hq => he hq.symm
      · exact ⟨rs,r,[],by simp,hb,rfl,rfl,by simp⟩
    | none =>
      refine hl ?_ (by simp [hb])
      rcases (settle_none hb).2 with hs | ⟨id,hf⟩
      · rwa [hs] at h
      · rw [hf] at h
        exact (mem_remove.mp h).1

/-- What the calls promise besides the list of the bindings: they come to their end, bind no more sessions than the
limit, keep the binding just made, let the limit take out the oldest binding only, and let a session be used by the
tenant that bound it, in time. -/
structure Kept (ttl : ℕ) (rs : List SessionRequest) : Prop where
  terminates : ∃ b, Reaches ttl rs b
  bounded : ∀ front b, front <+: rs → Reaches ttl front b → b.tenants.length ≤ maxConflictSessionBindings
  latest : ∀ front r id b, front ++ [r] <+: rs → r.binding = some id → Reaches ttl (front ++ [r]) b →
    (id, r.ctx.tenantName, r.now) ∈ b.tenants
  oldest : ∀ front r id b b', front ++ [r] <+: rs → r.binding = some id → Reaches ttl front b →
    Reaches ttl (front ++ [r]) b' →
    ∀ e ∈ b.others ttl id r.now, e ∉ b'.tenants → ∀ e' ∈ b'.tenants, e.2.2 ≤ e'.2.2
  owned : ∀ front b, front <+: rs → Reaches ttl front b → ∀ ctx now id, SessionRequest.owns ttl ctx now b id = .ok () →
    BoundBy ttl front ctx.tenantName id now

structure Listed (b : ConflictSessionBindings) : Prop where
  once : b.insertionOrder.Nodup
  bound : ∀ id, id ∈ b.insertionOrder ↔ contains b.tenants id = true
  ordered : b.insertionOrder.Pairwise (fun id id' => ∀ e ∈ b.tenants, ∀ e' ∈ b.tenants,
    e.1 = id → e'.1 = id' → e.2.2 ≤ e'.2.2)

def Uncrowded (ttl : ℕ) (rs : List SessionRequest) : Prop :=
  Meets (settle ttl) (fun b r => ∀ id, r.binding = some id →
    (b.others ttl id r.now).length < maxConflictSessionBindings) empty rs

theorem uncrowded_iff : Uncrowded ttl rs ↔ ∃ b, Reaches ttl rs b := by
  have hs : ∀ b, ∀ r :
      SessionRequest, (∀ id, r.binding = some id → (b.others ttl id r.now).length < maxConflictSessionBindings) ↔
      (r.binding ≠ none → (settle ttl b r).tenants.length ≤ maxConflictSessionBindings) := by
    intro b r
    cases hb : r.binding with
    | none => simp
    | some id =>
      rw [settle_some hb,record_tenants,List.length_append,List.length_singleton]
      simp only [Option.some.injEq,forall_eq',ne_eq,reduceCtorEq,not_false_eq_true,forall_const]
      exact Nat.lt_iff_add_one_le
  simp only [reaches_iff,exists_eq_left]
  unfold Uncrowded
  simp only [hs]

theorem Reaches.prefix_ {front : List SessionRequest} (h : ∃ b, Reaches ttl rs b) (hp : front <+: rs) :
    Reaches ttl front (run (settle ttl) empty front) := by
  obtain ⟨b,hb⟩ := h
  obtain ⟨back,rfl⟩ := hp
  exact reaches_iff.mpr ⟨rfl,(meets_append.mp (reaches_iff.mp hb).2).1⟩

theorem length_settle_le (h : b.tenants.length ≤ maxConflictSessionBindings)
    (hn : r.binding ≠ none → (settle ttl b r).tenants.length ≤ maxConflictSessionBindings) :
    (settle ttl b r).tenants.length ≤ maxConflictSessionBindings := by
  cases hb : r.binding with
  | some id => exact hn (by simp [hb])
  | none =>
    rcases (settle_none hb).2 with hs | ⟨id,hf⟩
    · rw [hs]
      exact h
    · rw [hf]
      exact Nat.le_trans (List.length_filter_le _ _) h

theorem settled_tenants {front : List SessionRequest} {id : Uuid} (hb : r.binding = some id)
    (h : Reaches ttl (front++[r]) b) :
    b.tenants = (run (settle ttl) empty front).others ttl id r.now ++ [(id, r.ctx.tenantName, r.now)] := by
  rw [(reaches_iff.mp h).1,run_append]
  show (settle ttl _ r).tenants = _
  rw [settle_some hb,record_tenants]

theorem kept_of_uncrowded (h : Uncrowded ttl rs) : Kept ttl rs := by
  refine ⟨uncrowded_iff.mp h,fun front b _ hb => ?_,fun front r id b _ hi hb => ?_,
    fun front r id b b' _ hi hb hb' e he hu => ?_,fun front b _ hb ctx now id ho => ?_⟩
  · obtain ⟨rfl,hm⟩ := reaches_iff.mp hb
    have hs : ∀ b r, b.tenants.length ≤ maxConflictSessionBindings →
        (r.binding ≠ none → (settle ttl b r).tenants.length ≤ maxConflictSessionBindings) →
        (settle ttl b r).tenants.length ≤ maxConflictSessionBindings := fun b r hb hk => length_settle_le hb hk
    exact run_invariant hs (Nat.zero_le _) hm
  · rw [settled_tenants hi hb]
    simp
  · rw [settled_tenants hi hb',← (reaches_iff.mp hb).1] at hu
    exact absurd (List.mem_append_left _ he) hu
  · obtain ⟨rfl,-⟩ := reaches_iff.mp hb
    unfold SessionRequest.owns at ho
    split at ho
    · rename_i id' tenant seen hf
      split at ho
      · rename_i hl
        obtain ⟨before,r,after,hp,hi,ht,hn,ha⟩ := bound_of_mem (List.mem_of_find?_eq_some hf)
        obtain rfl : id' = id := by simpa using List.find?_some hf
        dsimp only at hi ht hn ha
        exact ⟨before,r,after,hp,hi,ht.trans hl.1,hn ▸ hl.2,ha⟩
      · cases ho
    · cases ho

theorem unqueued_run : Unqueued (run (settle ttl) empty rs) := run_preserves (fun _ _ h => h.settle) unqueued_empty rs

/-- The bindings are listed in no run that binds a session; and everything else that the calls promise holds in a run
exactly if it is uncrowded. -/
theorem bindings_kept_iff (ttl : ℕ) (rs : List SessionRequest) :
    (Kept ttl rs ∧ (∀ front b, front <+: rs → Reaches ttl front b → Listed b) ↔ ∀ r ∈ rs, r.binding = none) ∧
      (Kept ttl rs ↔ Uncrowded ttl rs) := by
  refine ⟨⟨?_, fun hn => ⟨kept_of_uncrowded ?_, fun front b hp hb => ?_⟩⟩,
    fun hk => uncrowded_iff.mpr hk.terminates, kept_of_uncrowded⟩
  · rintro ⟨hk, hl⟩ r hr
    cases hi : r.binding with
    | none => rfl
    | some id =>
      obtain ⟨front, back, rfl⟩ := List.append_of_mem hr
      have hp : front ++ [r] <+: front ++ r::back := ⟨back, by simp⟩
      have ha := Reaches.prefix_ hk.terminates hp
      have hs := hk.latest front r id _ hp hi ha
      have hin := ((hl _ _ hp ha).bound id).mpr (contains_iff.mpr ⟨_, hs, rfl⟩)
      rw [unqueued_run.order] at hin
      cases hin
  · refine meets_of_mem (fun r hr b id hi => ?_) _
    rw [hn r hr] at hi
    cases hi
  · obtain ⟨rfl, -⟩ := reaches_iff.mp hb
    have hm : (run (settle ttl) empty front).tenants = [] := by
      refine List.eq_nil_iff_forall_not_mem.mpr (fun e he => ?_)
      obtain ⟨before, r, after, rfl, hi, -⟩ := bound_of_mem he
      rw [hn r (hp.subset (by simp))] at hi
      cases hi
    refine ⟨?_, fun id => ?_, ?_⟩
    · rw [unqueued_run.order]
      exact List.nodup_nil
    · rw [unqueued_run.order, hm]
      simp [contains]
    · rw [unqueued_run.order]
      exact .nil

def sampleRequest : SessionRequest where
  ctx := ⟨"t1", "actor", "request"⟩
  remaining _ := .ok ()
  now := 0
  call := .load (.ok ⟨7, .ofTenant "t1", .rebase ⟨"topic", by decide +kernel⟩ ⟨"trunk", by decide +kernel⟩,
    none, 0, [], [], []⟩)

theorem bound_not_listed : ∃ b, Reaches 1800 [sampleRequest] b ∧ contains b.tenants 7 = true ∧ 7 ∉ b.insertionOrder :=
  ⟨⟨[(7, "t1", 0)], []⟩, ⟨1, by decide +kernel⟩, by decide, by decide⟩

end Runs

end UwuContextDb.Facade
